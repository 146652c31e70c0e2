import Rqmd.Hybrid

/-! The searches that a query itself asks for, apart from those of the expansion model. Text of an `intent:` line is
kept out of them, unless no other typed line gives a search. -/

namespace Rqmd
open Text

/-- The searches of a query, by kind and text: one for each line of a query document, else two for the whole text. -/
def userLegs (parsed : ParsedQuery) (query : String) : List SubQuery :=
  if parsed.subqueries ≠ [] then parsed.subqueries
  else [⟨.lex, parsed.expandText.getD query⟩, ⟨.vec, parsed.expandText.getD query⟩]

/-- What a line of a query document asks for. -/
def typedLeg (line : List Char) : Option SubQuery :=
  match fieldOf "intent:" line with
  | some _ => none
  | none => expansionField line

/-- Text that the query has on `intent:` lines only is in none of its searches. -/
def IntentUnsearched (raw : String) : Prop :=
  ∀ text : List Char, text ≠ [] →
    (∃ line ∈ queryLines raw, ∃ intent, fieldOf "intent:" line = some intent ∧ text <:+: intent.toList) →
    (∀ line ∈ queryLines raw, fieldOf "intent:" line = none → ¬ text <:+: line) →
    ∀ leg ∈ userLegs (parseQuery raw) raw, ¬ text <:+: leg.text.toList

/-- Each `lex:`, `vec:` and `hyde:` line of a query document gives one search of its kind, in order. -/
def TypedLegs (raw : String) : Prop :=
  (queryLines raw).filterMap typedLeg ≠ [] → userLegs (parseQuery raw) raw = (queryLines raw).filterMap typedLeg

/-- Some line asks for a search, or what the `intent:` lines say is nothing or stands on another line too. -/
def IntentHasCompany (raw : String) : Prop :=
  (queryLines raw).filterMap typedLeg ≠ [] ∨
    ∀ line ∈ queryLines raw, ∀ intent, fieldOf "intent:" line = some intent →
      intent = "" ∨ ∃ other ∈ queryLines raw, fieldOf "intent:" other = none ∧ intent.toList <:+: other

/-! ### What is parsed -/

theorem parseTypedLine_subqueries (parsed : ParsedQuery) (line : List Char) :
    (parseTypedLine parsed line).subqueries = parsed.subqueries ++ (typedLeg line).toList ∧
      (parseTypedLine parsed line).expandText = parsed.expandText := by
  unfold parseTypedLine typedLeg expansionField
  split <;> simp [*]

theorem parseTypedLines_subqueries (found : List (List Char)) (parsed : ParsedQuery) :
    (found.foldl parseTypedLine parsed).subqueries = parsed.subqueries ++ found.filterMap typedLeg ∧
      (found.foldl parseTypedLine parsed).expandText = parsed.expandText := by
  induction found generalizing parsed with
  | nil => exact ⟨(List.append_nil _).symm, rfl⟩
  | cons line rest later =>
    obtain ⟨legs, text⟩ := parseTypedLine_subqueries parsed line
    obtain ⟨others, same⟩ := later (parseTypedLine parsed line)
    rw [List.foldl_cons]
    refine ⟨?_, same.trans text⟩
    rw [others, legs, List.append_assoc]
    congr 1
    cases found : typedLeg line with
    | none => rw [List.filterMap_cons_none found]; rfl
    | some leg => rw [List.filterMap_cons_some found]; rfl

/-- A query document asks for what its lines ask for. -/
theorem parse_document {raw : String} (typed : (queryLines raw).any isTypedLine = true) :
    (parseQuery raw).subqueries = (queryLines raw).filterMap typedLeg ∧ (parseQuery raw).expandText = none := by
  have document : parseQuery raw = parseQueryDocument (queryLines raw) := by
    unfold parseQuery
    split
    · next none => rw [none] at typed; cases typed
    · next line one =>
      rw [one, List.any_cons, List.any_nil, Bool.or_false] at typed
      rw [if_pos typed, one]
    · rw [if_pos typed]
  obtain ⟨legs, text⟩ := parseTypedLines_subqueries (queryLines raw) ⟨none, [], none⟩
  rw [document]
  exact ⟨legs, text⟩

theorem isTypedLine_of_field {line : List Char} {text : String} (stem : String)
    (typed : stem ∈ ["lex:", "vec:", "hyde:", "intent:"]) (found : fieldOf stem line = some text) : isTypedLine line = true := by
  apply List.any_eq_true.mpr
  refine ⟨stem, typed, ?_⟩
  unfold fieldOf at found
  cases stripped : stripPrefix stem line with
  | none => rw [stripped] at found; cases found
  | some rest => rfl

/-- The text behind a prefix is part of the line. -/
theorem infix_of_field {stem text : String} {line : List Char} (found : fieldOf stem line = some text) : text.toList <:+: line := by
  obtain ⟨rest, stripped, rfl⟩ := Option.map_eq_some_iff.mp found
  unfold stripPrefix at stripped
  split at stripped
  · rw [← Option.some.inj stripped, String.toList_ofList]
    exact (trimMatches_within _ _).trans (List.drop_suffix _ _).isInfix
  · cases stripped

theorem infix_of_typedLeg {line : List Char} {leg : SubQuery} (found : typedLeg line = some leg) :
    fieldOf "intent:" line = none ∧ isTypedLine line = true ∧ leg.text.toList <:+: line := by
  unfold typedLeg at found
  split at found
  · cases found
  · next other =>
    refine ⟨other, ?_⟩
    unfold expansionField at found
    split at found
    · next text lex =>
      rw [← Option.some.inj found]
      exact ⟨isTypedLine_of_field "lex:" (by decide) lex, infix_of_field lex⟩
    · next text _ vec =>
      rw [← Option.some.inj found]
      exact ⟨isTypedLine_of_field "vec:" (by decide) vec, infix_of_field vec⟩
    · next text _ _ hyde =>
      rw [← Option.some.inj found]
      exact ⟨isTypedLine_of_field "hyde:" (by decide) hyde, infix_of_field hyde⟩
    · cases found

theorem infix_of_queryLine {raw : String} {line : List Char} (member : line ∈ queryLines raw) : line <:+: raw.toList := by
  obtain ⟨whole, inside, rfl⟩ := List.mem_map.mp (List.mem_filter.mp member).1
  exact (trimMatches_within _ _).trans (infix_of_mem_lines inside)

theorem typedLegs_hold (raw : String) : TypedLegs raw := by
  intro some
  obtain ⟨leg, member⟩ := List.exists_mem_of_ne_nil _ some
  obtain ⟨line, inside, found⟩ := List.mem_filterMap.mp member
  have typed : (queryLines raw).any isTypedLine = true := List.any_eq_true.mpr ⟨line, inside, (infix_of_typedLeg found).2.1⟩
  have legs := (parse_document typed).1
  rw [userLegs, legs, if_pos some]

theorem intent_unsearched_iff_company (raw : String) : IntentUnsearched raw ↔ IntentHasCompany raw := by
  constructor
  · intro unsearched
    by_contra alone
    rw [IntentHasCompany, not_or, not_not] at alone
    obtain ⟨none, rest⟩ := alone
    push Not at rest
    obtain ⟨line, inside, intent, found, some, only⟩ := rest
    have typed : (queryLines raw).any isTypedLine = true :=
      List.any_eq_true.mpr ⟨line, inside, isTypedLine_of_field "intent:" (by decide) found⟩
    obtain ⟨legs, text⟩ := parse_document typed
    -- the whole query is searched, with its intent line
    have searched : (⟨.lex, raw⟩ : SubQuery) ∈ userLegs (parseQuery raw) raw := by
      rw [userLegs, legs, none, text, if_neg (fun some => some rfl)]
      exact List.mem_cons_self
    refine unsearched intent.toList (fun empty => some (String.toList_eq_nil_iff.mp empty)) ⟨line, inside, intent, found, List.infix_rfl⟩
      (fun other member plain => only other member plain) _ searched ?_
    exact (infix_of_field found).trans (infix_of_queryLine inside)
  · intro company text some onIntent elsewhere leg member within
    rcases company with legs | shared
    · rw [typedLegs_hold raw legs] at member
      obtain ⟨line, inside, found⟩ := List.mem_filterMap.mp member
      obtain ⟨plain, _, part⟩ := infix_of_typedLeg found
      exact elsewhere line inside plain (within.trans part)
    · obtain ⟨line, inside, intent, found, part⟩ := onIntent
      rcases shared line inside intent found with empty | ⟨other, also, plain, whole⟩
      · rw [empty] at part
        exact some (List.infix_nil.mp part)
      · exact elsewhere other also plain (part.trans whole)

/-! ### What is searched -/

variable {V S : Type}

/-- `engine` with another answer to keyword and vector searches. -/
def Engine.answering (engine other : Engine V S) : Engine V S :=
  { engine with bm25 := other.bm25, embedQuery := other.embedQuery, embedPassage := other.embedPassage }

/-- `other` answers the searches as `engine` does, and any other search as it likes. -/
structure AnswersLegs (engine other : Engine V S) (legs : List SubQuery) : Prop where
  bm25 : ∀ leg ∈ legs, leg.qtype = .lex → ∀ entries, other.bm25 entries leg.text = engine.bm25 entries leg.text
  embedQuery : ∀ leg ∈ legs, leg.qtype = .vec → other.embedQuery leg.text = engine.embedQuery leg.text
  embedPassage : ∀ leg ∈ legs, leg.qtype = .hyde → other.embedPassage leg.text = engine.embedPassage leg.text

theorem AnswersLegs.tail {engine other : Engine V S} {leg : SubQuery} {rest : List SubQuery}
    (agree : AnswersLegs engine other (leg :: rest)) : AnswersLegs engine other rest :=
  ⟨fun l member => agree.bm25 l (List.mem_cons_of_mem _ member),
    fun l member => agree.embedQuery l (List.mem_cons_of_mem _ member),
    fun l member => agree.embedPassage l (List.mem_cons_of_mem _ member)⟩

variable [Score S]

/-- Without expansion, what a query retrieves depends on the answers to its searches only. -/
def SearchesLegsOnly (engine : Engine V S) (s : Store V) (raw : String) (intent : Option String)
    (collections : Requested) (size : Nat) : Prop :=
  ∀ other : Engine V S, AnswersLegs engine other (userLegs (parseQuery raw) raw) →
    retrieveRankedLists (engine.answering other) s (parseQuery raw) intent raw collections size true =
      retrieveRankedLists engine s (parseQuery raw) intent raw collections size true

theorem ftsScoped_answering {engine other : Engine V S} {text : String}
    (same : ∀ entries, other.bm25 entries text = engine.bm25 entries text) (s : Store V) (size : Nat)
    (collections : Requested) :
    ftsScoped (engine.answering other) s text size collections = ftsScoped engine s text size collections := by
  unfold ftsScoped searchFtsScoped
  have answer : (engine.answering other).bm25 s.fts.committed text = engine.bm25 s.fts.committed text := same _
  rw [answer]

theorem runLeg_answering {engine other : Engine V S} {leg : SubQuery} {rest : List SubQuery}
    (agree : AnswersLegs engine other (leg :: rest)) (s : Store V) (collections : Requested) (size : Nat)
    (context source : String) (queryType : QueryType) :
    runLeg (engine.answering other) s collections size context source queryType leg =
      runLeg engine s collections size context source queryType leg := by
  unfold runLeg
  cases kind : leg.qtype with
  | lex =>
    dsimp only
    rw [ftsScoped_answering (agree.bm25 leg List.mem_cons_self kind)]
  | vec =>
    have answer : (engine.answering other).embedQuery leg.text = engine.embedQuery leg.text :=
      agree.embedQuery leg List.mem_cons_self kind
    dsimp only
    rw [answer]
    rfl
  | hyde =>
    have answer : (engine.answering other).embedPassage leg.text = engine.embedPassage leg.text :=
      agree.embedPassage leg List.mem_cons_self kind
    dsimp only
    rw [answer]
    rfl
  | original => rfl

theorem typedLists_answering {engine other : Engine V S} (s : Store V) (collections : Requested) (size : Nat)
    (legs : List SubQuery) (agree : AnswersLegs engine other legs) (i : Nat) :
    typedLists (engine.answering other) s collections size legs i = typedLists engine s collections size legs i := by
  induction legs generalizing i with
  | nil => rfl
  | cons leg rest later =>
    unfold typedLists
    dsimp only
    rw [runLeg_answering agree, later agree.tail]
    rfl

theorem searches_legs_only (engine : Engine V S) (s : Store V) (raw : String) (intent : Option String)
    (collections : Requested) (size : Nat) : SearchesLegsOnly engine s raw intent collections size := by
  intro other agree
  unfold retrieveRankedLists
  by_cases typed : (parseQuery raw).subqueries ≠ []
  · rw [userLegs, if_pos typed] at agree
    rw [if_pos typed, if_pos typed, typedLists_answering s collections size _ agree]
  · rw [userLegs, if_neg typed] at agree
    rw [if_neg typed, if_neg typed]
    have keywords := agree.bm25 _ List.mem_cons_self rfl
    have vector : (engine.answering other).embedQuery _ = engine.embedQuery _ :=
      agree.embedQuery _ (List.mem_cons_of_mem _ List.mem_cons_self) rfl
    dsimp only at keywords vector ⊢
    rw [ftsScoped_answering keywords, vector]
    rfl

/-- Intent is left out of the searches, and typed lines give theirs, exactly when some line asks for a search or no
intent stands alone; beside the legs nothing is searched. -/
theorem intent_kept_out_iff (engine : Engine V S) (s : Store V) (raw : String) (intent : Option String)
    (collections : Requested) (size : Nat) :
    (IntentUnsearched raw ∧ TypedLegs raw ↔ IntentHasCompany raw) ∧
      SearchesLegsOnly engine s raw intent collections size :=
  ⟨⟨fun both => (intent_unsearched_iff_company raw).mp both.1,
    fun company => ⟨(intent_unsearched_iff_company raw).mpr company, typedLegs_hold raw⟩⟩,
    searches_legs_only engine s raw intent collections size⟩

/-- An intent on its own is searched as it was written. -/
theorem lone_intent_searched :
    userLegs (parseQuery "intent: web page load times") "intent: web page load times" =
        [⟨.lex, "intent: web page load times"⟩, ⟨.vec, "intent: web page load times"⟩] ∧
      ¬ IntentUnsearched "intent: web page load times" := by
  have searched : userLegs (parseQuery "intent: web page load times") "intent: web page load times" =
      [⟨.lex, "intent: web page load times"⟩, ⟨.vec, "intent: web page load times"⟩] := by decide +kernel
  refine ⟨searched, fun unsearched => ?_⟩
  have one : queryLines "intent: web page load times" = ["intent: web page load times".toList] := by decide +kernel
  have field : fieldOf "intent:" "intent: web page load times".toList = some "web page load times" := by decide +kernel
  apply unsearched "web page load times".toList (by decide +kernel)
    ⟨"intent: web page load times".toList, by rw [one]; exact List.mem_cons_self, _, field, List.infix_rfl⟩ _
    ⟨.lex, "intent: web page load times"⟩ (by rw [searched]; exact List.mem_cons_self)
  · exact ⟨"intent: ".toList, [], by decide +kernel⟩
  · intro line member plain
    rw [one, List.mem_singleton] at member
    rw [member, field] at plain
    cases plain

end Rqmd
