import Rqmd.CjkTokenizer

/-! Substring search in CJK text. A query is found where its pairs of characters stand at consecutive positions. That
is where it stands in the text, and also where one run ends with the character that the next one begins with. -/

namespace Rqmd
open Text

/-- The overlapping pairs of a text. -/
def bigrams : List Char → List (List Char)
  | a :: b :: rest => [a, b] :: bigrams (b :: rest)
  | _ => []

inductive CharKind where
  | gap
  | cjk
  | word
deriving DecidableEq

def kindOf (alphanumeric : Char → Bool) (c : Char) : CharKind :=
  if alphanumeric c = false then .gap else if isCjk c then .cjk else .word

/-- A token as a part of the text. -/
structure Gram where
  start : Nat
  text : List Char

def Gram.place (gram : Gram) : Nat × Nat × String :=
  (gram.start, gram.start + byteLength gram.text, String.ofList gram.text)

/-- What the character `c` adds to the tokens, behind a character of the kind `before`: a CJK character the pair with
the next one, or itself where it is alone; and the first of other letters their run. -/
def gramAt (alphanumeric : Char → Bool) (before : CharKind) (start : Nat) (c : Char) (rest : List Char) : List Gram :=
  match kindOf alphanumeric c with
  | .gap => []
  | .cjk =>
    if rest.head?.map (kindOf alphanumeric) = some .cjk then [⟨start, c :: rest.take 1⟩]
    else if before = .cjk then []
    else [⟨start, [c]⟩]
  | .word => if before = .word then [] else [⟨start, c :: rest.takeWhile fun d => kindOf alphanumeric d = .word⟩]

/-- The tokens of a text, character by character. -/
def grams (alphanumeric : Char → Bool) : CharKind → Nat → List Char → List Gram
  | _, _, [] => []
  | before, start, c :: rest =>
    gramAt alphanumeric before start c rest ++ grams alphanumeric (kindOf alphanumeric c) (start + c.utf8Size) rest

variable {alphanumeric : Char → Bool}

/-! ### Cutting a text between two kinds -/

def lastKind (alphanumeric : Char → Bool) (before : CharKind) (text : List Char) : CharKind :=
  (text.getLast?.map (kindOf alphanumeric)).getD before

/-- The second text begins with a character of another kind than the first ends with. -/
def KindsApart (alphanumeric : Char → Bool) (first second : List Char) : Prop :=
  ∀ c d, first.getLast? = some c → second.head? = some d → kindOf alphanumeric c ≠ kindOf alphanumeric d

theorem takeWhile_append_stop {p : Char → Bool} (first second : List Char)
    (stop : ∀ d, second.head? = some d → (∀ e ∈ first, p e = true) → p d = false) :
    (first ++ second).takeWhile p = first.takeWhile p := by
  induction first with
  | nil =>
    cases second with
    | nil => rfl
    | cons d rest =>
      have fails := stop d rfl fun _ none => absurd none List.not_mem_nil
      rw [List.nil_append, List.takeWhile_cons, fails]
      rfl
  | cons c rest later =>
    rw [List.cons_append, List.takeWhile_cons, List.takeWhile_cons]
    cases holds : p c with
    | false => rfl
    | true =>
      have same := later fun d head all => stop d head fun e member => by
        rcases List.mem_cons.mp member with rfl | inside
        · exact holds
        · exact all e inside
      simp only [if_true, same]

theorem gramAt_append (before : CharKind) (start : Nat) (c : Char) (first second : List Char)
    (apart : KindsApart alphanumeric (c :: first) second) :
    gramAt alphanumeric before start c (first ++ second) = gramAt alphanumeric before start c first := by
  unfold gramAt
  cases kind : kindOf alphanumeric c with
  | gap => rfl
  | cjk =>
    cases first with
    | nil =>
      have other : second.head?.map (kindOf alphanumeric) ≠ some .cjk := by
        intro same
        obtain ⟨d, head, here⟩ := Option.map_eq_some_iff.mp same
        exact apart c d rfl head (kind.trans here.symm)
      simp [other]
    | cons d rest => rfl
  | word =>
    have same : (first ++ second).takeWhile (fun d => kindOf alphanumeric d = .word) =
        first.takeWhile fun d => kindOf alphanumeric d = .word := by
      apply takeWhile_append_stop
      intro d head all
      have some := List.getLast?_eq_some_getLast (List.cons_ne_nil c first)
      have differ := apart _ d some head
      have last : kindOf alphanumeric ((c :: first).getLast (List.cons_ne_nil c first)) = .word := by
        rcases List.mem_cons.mp (List.getLast_mem (List.cons_ne_nil c first)) with here | inside
        · rw [here]
          exact kind
        · simpa using all _ inside
      rw [last] at differ
      simpa using Ne.symm differ
    rw [same]

theorem lastKind_cons (before : CharKind) (c : Char) (rest : List Char) :
    lastKind alphanumeric before (c :: rest) = lastKind alphanumeric (kindOf alphanumeric c) rest := by
  unfold lastKind
  cases rest with
  | nil => rfl
  | cons d rest => rw [List.getLast?_cons_cons, List.getLast?_cons]; rfl

theorem grams_append (first second : List Char) (before : CharKind) (start : Nat)
    (apart : KindsApart alphanumeric first second) :
    grams alphanumeric before start (first ++ second) = grams alphanumeric before start first ++
      grams alphanumeric (lastKind alphanumeric before first) (start + byteLength first) second := by
  induction first generalizing before start with
  | nil => rfl
  | cons c rest later =>
    have behind : KindsApart alphanumeric rest second := by
      intro e d last head
      apply apart e d _ head
      cases rest with
      | nil => cases last
      | cons f rest => rwa [List.getLast?_cons_cons]
    rw [List.cons_append, grams, gramAt_append before start c rest second apart, later _ _ behind, grams, lastKind_cons,
      byteLength_cons, List.append_assoc, Nat.add_assoc]

/-- The kind before a text matters only to a text that begins with that kind. -/
theorem grams_before (before other : CharKind) (start : Nat) (text : List Char)
    (fresh : ∀ d, text.head? = some d → kindOf alphanumeric d = .gap ∨
      (kindOf alphanumeric d ≠ before ∧ kindOf alphanumeric d ≠ other)) :
    grams alphanumeric before start text = grams alphanumeric other start text := by
  cases text with
  | nil => rfl
  | cons d rest =>
    rw [grams, grams]
    congr 1
    unfold gramAt
    have free := fresh d rfl
    cases kind : kindOf alphanumeric d with
    | gap => rfl
    | cjk =>
      rw [kind] at free
      obtain ⟨left, right⟩ := free.resolve_left (by decide)
      simp only [if_neg (Ne.symm left), if_neg (Ne.symm right)]
    | word =>
      rw [kind] at free
      obtain ⟨left, right⟩ := free.resolve_left (by decide)
      simp only [if_neg (Ne.symm left), if_neg (Ne.symm right)]

/-! ### The pieces of a token -/

/-- The offsets of the characters of a text that begins at `start`. -/
def charOffsets : Nat → List Char → List Nat
  | _, [] => []
  | start, c :: rest => start :: charOffsets (start + c.utf8Size) rest

theorem charOffsets_append (start : Nat) (first second : List Char) :
    charOffsets start (first ++ second) = charOffsets start first ++ charOffsets (start + byteLength first) second := by
  induction first generalizing start with
  | nil => rfl
  | cons c rest later =>
    rw [List.cons_append, charOffsets, later, charOffsets, List.cons_append, byteLength_cons, Nat.add_assoc]

/-- The pairs of a list of offsets: each offset but the last, with the end of the character behind it. -/
def pairPieces (token : Token) (stop : Nat) : List Nat → List Token
  | a :: b :: rest => piece token a ((rest.head?).getD stop) :: pairPieces token stop (b :: rest)
  | _ => []

theorem filterMap_pairs (token : Token) (stop : Nat) (rest : List Nat) : ∀ before : List Nat,
    ((rest.zipIdx before.length).filterMap fun found =>
      if found.2 + 1 < (before ++ rest).length then
        some (piece token found.1 (((before ++ rest)[found.2 + 2]?).getD stop)) else none) = pairPieces token stop rest := by
  induction rest with
  | nil => exact fun _ => rfl
  | cons a rest later =>
    intro before
    have next := later (before ++ [a])
    have parts : (before ++ [a]) ++ rest = before ++ a :: rest := by rw [List.append_assoc]; rfl
    have size : (before ++ [a]).length = before.length + 1 := by rw [List.length_append]; rfl
    rw [parts, size] at next
    rw [List.zipIdx_cons, List.filterMap_cons]
    dsimp only
    cases rest with
    | nil =>
      have last : ¬ before.length + 1 < (before ++ [a]).length := by simp
      rw [if_neg last]
      rfl
    | cons b others =>
      have more : before.length + 1 < (before ++ a :: b :: others).length := by
        simp only [List.length_append, List.length_cons]
        omega
      have behind : (before ++ a :: b :: others)[before.length + 2]? = others.head? := by
        rw [List.getElem?_append_right (by omega), Nat.add_sub_cancel_left, List.head?_eq_getElem?]
        rfl
      rw [if_pos more, behind]
      dsimp only
      rw [next, pairPieces]

theorem flushRun_pairs (token : Token) (start stop : Nat) {boundaries : List Nat} (out : List Token)
    (many : boundaries.length ≠ 1) :
    flushRun token start stop true boundaries out = out ++ pairPieces token stop boundaries := by
  have pairs := filterMap_pairs token stop boundaries []
  rw [List.nil_append] at pairs
  unfold flushRun
  rw [if_neg (fun either => either.elim (fun impossible => by cases impossible) many), ← pairs]
  rfl

theorem kindOf_letter {c : Char} (letter : alphanumeric c = true) :
    kindOf alphanumeric c = if isCjk c then .cjk else .word := by
  unfold kindOf
  rw [if_neg (by rw [letter]; decide)]

theorem kindOf_cjk {c : Char} : kindOf alphanumeric c = .cjk ↔ alphanumeric c = true ∧ isCjk c = true := by
  unfold kindOf
  cases alphanumeric c <;> cases isCjk c <;> simp

theorem kindOf_gap {c : Char} : kindOf alphanumeric c = .gap ↔ alphanumeric c = false := by
  unfold kindOf
  cases alphanumeric c <;> cases isCjk c <;> simp

/-- A CJK character with another one behind it gives their pair. -/
theorem grams_pair (before : CharKind) (start : Nat) {a b : Char} (rest : List Char) (first : kindOf alphanumeric a = .cjk)
    (second : kindOf alphanumeric b = .cjk) : grams alphanumeric before start (a :: b :: rest) =
      ⟨start, [a, b]⟩ :: grams alphanumeric .cjk (start + a.utf8Size) (b :: rest) := by
  rw [grams, gramAt, first]
  simp [second]

/-- The last character of a CJK run gives nothing of its own. -/
theorem grams_last (start : Nat) {a : Char} (rest : List Char) (kind : kindOf alphanumeric a = .cjk)
    (ends : ∀ d, rest.head? = some d → kindOf alphanumeric d ≠ .cjk) :
    grams alphanumeric .cjk start (a :: rest) = grams alphanumeric .cjk (start + a.utf8Size) rest := by
  have other : rest.head?.map (kindOf alphanumeric) ≠ some .cjk := by
    intro same
    obtain ⟨d, head, here⟩ := Option.map_eq_some_iff.mp same
    exact ends d head here
  rw [grams, gramAt, kind]
  simp [other]

theorem grams_word {start : Nat} {run : List Char} (some : run ≠ []) (words : ∀ c ∈ run, kindOf alphanumeric c = .word) :
    grams alphanumeric .gap start run = [⟨start, run⟩] := by
  have behind : ∀ (rest : List Char) (start : Nat), (∀ c ∈ rest, kindOf alphanumeric c = .word) →
      grams alphanumeric .word start rest = [] := by
    intro rest
    induction rest with
    | nil => exact fun _ _ => rfl
    | cons c rest later =>
      intro start all
      have kind := all c List.mem_cons_self
      rw [grams, gramAt, kind]
      simpa using later _ fun d inside => all d (List.mem_cons_of_mem _ inside)
  cases run with
  | nil => exact absurd rfl some
  | cons c rest =>
    have kind := words c List.mem_cons_self
    have others := fun d inside => words d (List.mem_cons_of_mem c inside)
    have whole : rest.takeWhile (fun d => kindOf alphanumeric d = .word) = rest :=
      List.takeWhile_eq_self_iff.mpr fun d inside => by simpa using others d inside
    rw [grams, gramAt, kind, behind rest _ others]
    simp [whole]

section Splitting
variable {token : Token} {done current rest : List Char} {st : SplitState} {isCjkRun : Bool}

theorem piece_place {mid : List Char} (text : token.text.toList = done ++ (mid ++ rest)) :
    (piece token (byteLength done) (byteLength done + byteLength mid)).place =
      Gram.place ⟨token.offsetFrom + byteLength done, mid⟩ := by
  have inside : slice token.text.toList (byteLength done) (byteLength done + byteLength mid) = mid := by
    rw [text]
    exact slice_of_parts rfl (by omega)
  simp only [Token.place, piece, Gram.place, inside, Nat.add_assoc]

/-- The pairs of a CJK run. -/
theorem pairPieces_places (text : token.text.toList = done ++ (current ++ rest)) (some : current ≠ [])
    (cjk : ∀ c ∈ current, kindOf alphanumeric c = .cjk) :
    (pairPieces token (byteLength done + byteLength current) (charOffsets (byteLength done) current)).map Token.place =
      (grams alphanumeric .cjk (token.offsetFrom + byteLength done) current).map Gram.place := by
  induction current generalizing done with
  | nil => exact absurd rfl some
  | cons a others later =>
    have kind := cjk a List.mem_cons_self
    cases others with
    | nil =>
      rw [grams_last _ _ kind fun d none => by cases none]
      rfl
    | cons b others =>
      have second := cjk b (List.mem_cons_of_mem _ List.mem_cons_self)
      have parts : token.text.toList = (done ++ [a]) ++ ((b :: others) ++ rest) := by
        rw [text, List.append_assoc]
        rfl
      have tail := later parts (List.cons_ne_nil b others) fun c inside => cjk c (List.mem_cons_of_mem _ inside)
      have size : byteLength (done ++ [a]) = byteLength done + a.utf8Size := by
        rw [byteLength_append, byteLength_cons, byteLength_nil, Nat.add_zero]
      have stop : byteLength done + byteLength (a :: b :: others) =
          byteLength (done ++ [a]) + byteLength (b :: others) := by
        rw [size, byteLength_cons, Nat.add_assoc]
      have front : token.text.toList = done ++ ([a, b] ++ (others ++ rest)) := text
      have upTo : ((charOffsets (byteLength done + a.utf8Size + b.utf8Size) others).head?).getD
          (byteLength done + byteLength (a :: b :: others)) = byteLength done + byteLength [a, b] := by
        cases others with
        | nil => rfl
        | cons c others =>
          simp only [charOffsets, List.head?_cons, Option.getD_some, byteLength_cons, byteLength_nil]
          omega
      rw [grams_pair _ _ _ kind second, List.map_cons, charOffsets, charOffsets, pairPieces, List.map_cons, upTo,
        piece_place front]
      congr 1
      rw [stop]
      rw [size] at tail ⊢
      rw [← Nat.add_assoc] at tail
      exact tail

/-- Where the loop stands: behind `done`, in the run `current`. -/
structure InRun (alphanumeric : Char → Bool) (done current : List Char) (st : SplitState) (isCjkRun : Bool) : Prop where
  start : st.runStart = byteLength done
  kind : st.runIsCjk = some isCjkRun
  boundaries : st.boundaries = charOffsets (byteLength done) current
  some : current ≠ []
  same : ∀ c ∈ current, isCjk c = isCjkRun
  letters : ∀ c ∈ current, alphanumeric c = true

theorem InRun.flush (running : InRun alphanumeric done current st isCjkRun)
    (text : token.text.toList = done ++ (current ++ rest)) :
    (st.flush token (byteLength done + byteLength current)).map Token.place = st.out.map Token.place ++
      (grams alphanumeric .gap (token.offsetFrom + byteLength done) current).map Gram.place := by
  have place := piece_place text
  unfold SplitState.flush
  rw [running.kind]
  dsimp only
  rw [running.start, running.boundaries]
  cases isCjkRun with
  | false =>
    have words : ∀ c ∈ current, kindOf alphanumeric c = .word := fun c inside => by
      rw [kindOf_letter (running.letters c inside), running.same c inside]
      rfl
    rw [flushRun, if_pos (.inl rfl), List.map_append, grams_word running.some words]
    simp only [List.map_cons, List.map_nil, place]
  | true =>
    have cjk : ∀ c ∈ current, kindOf alphanumeric c = .cjk := fun c inside =>
      kindOf_cjk.mpr ⟨running.letters c inside, running.same c inside⟩
    have pairs := pairPieces_places text running.some cjk
    cases current with
    | nil => exact absurd rfl running.some
    | cons a others =>
      have kind := cjk a List.mem_cons_self
      cases others with
      | nil =>
        rw [flushRun, if_pos (.inr rfl), List.map_append]
        congr 1
        rw [List.map_singleton, place, grams, gramAt, kind]
        rfl
      | cons b others =>
        have second := cjk b (List.mem_cons_of_mem _ List.mem_cons_self)
        rw [flushRun_pairs token _ _ _ (by simp [charOffsets]), List.map_append, pairs, grams_pair _ _ _ kind second,
          grams_pair _ _ _ kind second]

theorem splitLoop_places (running : InRun alphanumeric done current st isCjkRun)
    (text : token.text.toList = done ++ (current ++ rest)) (letters : ∀ c ∈ rest, alphanumeric c = true) :
    (splitLoop token st (byteLength done + byteLength current) rest).map Token.place = st.out.map Token.place ++
      (grams alphanumeric .gap (token.offsetFrom + byteLength done) (current ++ rest)).map Gram.place := by
  induction rest generalizing done current st isCjkRun with
  | nil =>
    rw [List.append_nil]
    exact running.flush text
  | cons c rest later =>
    have letter := letters c List.mem_cons_self
    have others := fun d inside => letters d (List.mem_cons_of_mem c inside)
    rw [splitLoop]
    by_cases same : isCjk c = isCjkRun
    · -- the run goes on
      have longer : InRun alphanumeric done (current ++ [c])
          { st with boundaries := st.boundaries ++ [byteLength done + byteLength current] } isCjkRun := by
        refine ⟨running.start, running.kind, ?_, by simp, fun d inside => ?_, fun d inside => ?_⟩
        · rw [charOffsets_append, ← running.boundaries]
          rfl
        · rcases List.mem_append.mp inside with old | new
          · exact running.same d old
          · rw [List.mem_singleton.mp new]
            exact same
        · rcases List.mem_append.mp inside with old | new
          · exact running.letters d old
          · rw [List.mem_singleton.mp new]
            exact letter
      have parts : current ++ c :: rest = (current ++ [c]) ++ rest := by rw [List.append_assoc]; rfl
      have size : byteLength done + byteLength current + c.utf8Size = byteLength done + byteLength (current ++ [c]) := by
        rw [byteLength_append, byteLength_cons, byteLength_nil, Nat.add_zero, Nat.add_assoc]
      have step : st.step token (byteLength done + byteLength current) c =
          { st with boundaries := st.boundaries ++ [byteLength done + byteLength current] } := by
        rw [SplitState.step, if_neg (by rw [running.kind, same]; simp)]
      rw [step, size, parts]
      exact later longer (by rw [text, parts]) others
    · -- the run ends here, and the next begins
      have fresh : InRun alphanumeric (done ++ current) [c] ⟨byteLength done + byteLength current, some (isCjk c),
          [byteLength done + byteLength current], st.flush token (byteLength done + byteLength current)⟩ (isCjk c) := by
        refine ⟨byteLength_append _ _ |>.symm, rfl, ?_, List.cons_ne_nil _ _, fun d inside => ?_, fun d inside => ?_⟩
        · rw [byteLength_append]
          rfl
        · rw [List.mem_singleton.mp inside]
        · rw [List.mem_singleton.mp inside]
          exact letter
      have parts : token.text.toList = (done ++ current) ++ ([c] ++ rest) := by
        rw [text, List.append_assoc]
        rfl
      have next := later fresh parts others
      have size : byteLength (done ++ current) + byteLength [c] = byteLength done + byteLength current + c.utf8Size := by
        rw [byteLength_append, byteLength_cons, byteLength_nil, Nat.add_zero]
      have kinds : ∀ d ∈ current, kindOf alphanumeric d ≠ kindOf alphanumeric c := by
        intro d inside
        rw [kindOf_letter (running.letters d inside), kindOf_letter letter, running.same d inside]
        cases isCjkRun <;> cases cjk : isCjk c <;> simp_all
      have apart : KindsApart alphanumeric current (c :: rest) := by
        intro d e last head
        rw [← Option.some.inj head]
        exact kinds d (List.mem_of_getLast? last)
      have cut := grams_append current (c :: rest) .gap (token.offsetFrom + byteLength done) apart
      have unseen : grams alphanumeric (lastKind alphanumeric .gap current)
          (token.offsetFrom + byteLength done + byteLength current) (c :: rest) =
            grams alphanumeric .gap (token.offsetFrom + byteLength done + byteLength current) (c :: rest) := by
        apply grams_before
        intro d head
        rw [← Option.some.inj head]
        refine .inr ⟨?_, ?_⟩
        · have last := List.getLast?_eq_some_getLast running.some
          rw [lastKind, last]
          exact Ne.symm (kinds _ (List.getLast_mem running.some))
        · rw [Ne, kindOf_gap, letter]
          decide
      have step : st.step token (byteLength done + byteLength current) c = ⟨byteLength done + byteLength current,
          some (isCjk c), [byteLength done + byteLength current], st.flush token (byteLength done + byteLength current)⟩ := by
        rw [SplitState.step, if_pos (by rw [running.kind]; simpa using Ne.symm same)]
      rw [step, ← size, next, running.flush text, cut, unseen, byteLength_append, List.map_append,
        List.append_assoc, ← Nat.add_assoc]
      rfl

end Splitting

/-- The pieces of a token of the base tokenizer. -/
theorem split_places {token : Token} {word : List Char} (some : word ≠ []) (letters : ∀ c ∈ word, alphanumeric c = true)
    (text : token.text = String.ofList word) (ends : token.offsetTo = token.offsetFrom + byteLength word) :
    (split token).map Token.place = (grams alphanumeric .gap token.offsetFrom word).map Gram.place := by
  have chars : token.text.toList = word := by rw [text, String.toList_ofList]
  unfold split
  rw [chars]
  by_cases any : word.any isCjk = true
  · rw [if_pos any]
    cases word with
    | nil => exact absurd rfl some
    | cons c rest =>
      have first : InRun alphanumeric [] [c] ⟨0, Option.some (isCjk c), [0], []⟩ (isCjk c) := by
        refine ⟨rfl, rfl, rfl, List.cons_ne_nil _ _, fun d inside => ?_, fun d inside => ?_⟩
        · rw [List.mem_singleton.mp inside]
        · rw [List.mem_singleton.mp inside]
          exact letters c List.mem_cons_self
      have letters' : ∀ d ∈ rest, alphanumeric d = true := fun d inside => letters d (List.mem_cons_of_mem c inside)
      have loop := splitLoop_places first chars letters'
      rw [splitLoop, SplitState.step, if_pos (by simp)]
      have size : byteLength ([] : List Char) + byteLength [c] = 0 + c.utf8Size := by
        rw [byteLength_nil, byteLength_cons, byteLength_nil, Nat.add_zero]
      rw [size] at loop
      exact loop
  · rw [if_neg any]
    have words : ∀ c ∈ word, kindOf alphanumeric c = .word := by
      intro c inside
      have other : isCjk c = false := by
        by_contra cjk
        exact any (List.any_eq_true.mpr ⟨c, inside, by simpa using cjk⟩)
      rw [kindOf_letter (letters c inside), other]
      rfl
    rw [grams_word some words]
    simp only [List.map_cons, List.map_nil, Token.place, Gram.place, text, ends]

/-- The filter gives the tokens of the text. -/
theorem stream_places {start : Nat} {text : List Char} {tokens : List Token} (splits : SplitsWords alphanumeric start text tokens) :
    (tokens.flatMap split).map Token.place = (grams alphanumeric .gap start text).map Gram.place := by
  induction splits with
  | done start => rfl
  | gap start c rest tokens other _ later =>
    have kind : kindOf alphanumeric c = .gap := kindOf_gap.mpr other
    rw [later, grams, gramAt, kind]
    rfl
  | word start word rest token tokens some letters ends offsetFrom offsetTo text _ later =>
    have own := split_places some letters text (by rw [offsetTo, offsetFrom])
    have last := List.getLast?_eq_some_getLast some
    have letter := letters _ (List.getLast_mem some)
    have gap : ∀ d, rest.head? = Option.some d → kindOf alphanumeric d = .gap := fun d head => kindOf_gap.mpr (ends d head)
    have apart : KindsApart alphanumeric word rest := by
      intro c d here head
      rw [last] at here
      rw [← Option.some.inj here, gap d head, Ne, kindOf_gap, letter]
      decide
    rw [List.flatMap_cons, List.map_append, own, later, offsetFrom, grams_append word rest .gap start apart, List.map_append,
      grams_before (lastKind alphanumeric .gap word) .gap _ rest fun d head => .inl (gap d head)]

/-! ### Where a query is found -/

/-- The part of the text reads as the query, where at a gap the character before it is repeated behind it. -/
inductive ReadsAs (alphanumeric : Char → Bool) : List Char → List Char → Prop
  | pair (a b : Char) : ReadsAs alphanumeric [a, b] [a, b]
  | next (a : Char) (part query : List Char) (reads : ReadsAs alphanumeric part query) :
      ReadsAs alphanumeric (a :: part) (a :: query)
  | gap (a b : Char) (gaps part query : List Char) (some : gaps ≠ []) (silent : ∀ c ∈ gaps, alphanumeric c = false)
      (reads : ReadsAs alphanumeric part (b :: query)) :
      ReadsAs alphanumeric (a :: b :: (gaps ++ part)) (a :: b :: query)

theorem ReadsAs.head {part query : List Char} (reads : ReadsAs alphanumeric part query) :
    ∃ a b part' query', part = a :: b :: part' ∧ query = a :: b :: query' := by
  induction reads with
  | pair a b => exact ⟨a, b, [], [], rfl, rfl⟩
  | next a part query _ later =>
    obtain ⟨b, c, part', query', rfl, rfl⟩ := later
    exact ⟨a, b, _, _, rfl, rfl⟩
  | gap a b gaps part query _ _ _ _ => exact ⟨a, b, _, _, rfl, rfl⟩

/-- Every text of two characters and more reads as itself. -/
theorem ReadsAs.refl {query : List Char} (long : 2 ≤ query.length) : ReadsAs alphanumeric query query := by
  induction query with
  | nil => simp at long
  | cons a rest later =>
    cases rest with
    | nil => simp at long
    | cons b rest =>
      cases rest with
      | nil => exact .pair a b
      | cons c rest => exact .next a _ _ (later (by simp))

theorem grams_gaps (start : Nat) {gaps rest : List Char} (silent : ∀ c ∈ gaps, alphanumeric c = false) :
    grams alphanumeric .gap start (gaps ++ rest) = grams alphanumeric .gap (start + byteLength gaps) rest := by
  induction gaps generalizing start with
  | nil => rfl
  | cons c gaps later =>
    have kind : kindOf alphanumeric c = .gap := kindOf_gap.mpr (silent c List.mem_cons_self)
    rw [List.cons_append, grams, gramAt, kind, later _ fun d inside => silent d (List.mem_cons_of_mem c inside), byteLength_cons,
      Nat.add_assoc]
    rfl

/-- A part of the text that reads as the query gives its pairs one after the other. -/
theorem ReadsAs.grams {part query : List Char} (reads : ReadsAs alphanumeric part query)
    (cjk : ∀ c ∈ query, kindOf alphanumeric c = .cjk) (before : CharKind) (start : Nat) (rest : List Char) :
    bigrams query <+: (Rqmd.grams alphanumeric before start (part ++ rest)).map Gram.text := by
  induction reads generalizing before start with
  | pair a b =>
    have pairs := grams_pair before start rest (cjk a List.mem_cons_self) (cjk b (List.mem_cons_of_mem _ List.mem_cons_self))
    change _ <+: (Rqmd.grams alphanumeric before start (a :: b :: rest)).map Gram.text
    rw [pairs]
    exact List.cons_prefix_cons.mpr ⟨rfl, List.nil_prefix⟩
  | next a part query reads later =>
    obtain ⟨b, c, part', query', rfl, rfl⟩ := reads.head
    have pairs := grams_pair before start (c :: part' ++ rest) (cjk a List.mem_cons_self)
      (cjk b (List.mem_cons_of_mem _ List.mem_cons_self))
    change _ <+: (Rqmd.grams alphanumeric before start (a :: b :: (c :: part' ++ rest))).map Gram.text
    rw [pairs]
    exact List.cons_prefix_cons.mpr ⟨rfl, later (fun d inside => cjk d (List.mem_cons_of_mem a inside)) _ _⟩
  | gap a b gaps part query some silent reads later =>
    have second := cjk b (List.mem_cons_of_mem _ List.mem_cons_self)
    have pairs := grams_pair before start (gaps ++ part ++ rest) (cjk a List.mem_cons_self) second
    have quiet : ∀ d, (gaps ++ (part ++ rest)).head? = Option.some d → kindOf alphanumeric d = .gap := by
      intro d head
      obtain ⟨g, others, rfl⟩ := List.exists_cons_of_ne_nil some
      rw [← Option.some.inj head]
      exact kindOf_gap.mpr (silent g List.mem_cons_self)
    have onward : Rqmd.grams alphanumeric .cjk (start + a.utf8Size) (b :: (gaps ++ part ++ rest)) =
        Rqmd.grams alphanumeric .gap (start + a.utf8Size + b.utf8Size + byteLength gaps) (part ++ rest) := by
      rw [List.append_assoc, grams_last _ _ second fun d head => by rw [quiet d head]; decide,
        grams_before .cjk .gap _ _ fun d head => .inl (quiet d head), grams_gaps _ silent]
    change _ <+: (Rqmd.grams alphanumeric before start (a :: b :: (gaps ++ part ++ rest))).map Gram.text
    rw [pairs, onward]
    exact List.cons_prefix_cons.mpr ⟨rfl, later (fun d inside => cjk d (List.mem_cons_of_mem a inside)) _ _⟩

/-- The grams of a text end with those of what it ends with. -/
theorem grams_suffix (first : List Char) (before : CharKind) (start : Nat) (second : List Char) :
    ∃ kind offset, grams alphanumeric kind offset second <:+ grams alphanumeric before start (first ++ second) := by
  induction first generalizing before start with
  | nil => exact ⟨before, start, List.suffix_rfl⟩
  | cons c rest later =>
    obtain ⟨kind, offset, suffix⟩ := later (kindOf alphanumeric c) (start + c.utf8Size)
    exact ⟨kind, offset, suffix.trans (List.suffix_append _ _)⟩

/-! ### What a found query is -/

/-- A gram that is a pair of CJK characters begins with them. -/
theorem gramAt_pair {before : CharKind} {start : Nat} {c a b : Char} {rest : List Char} {more : List (List Char)}
    (first : kindOf alphanumeric a = .cjk) (found : (gramAt alphanumeric before start c rest).map Gram.text = [a, b] :: more) :
    c = a ∧ rest.head? = some b ∧ kindOf alphanumeric b = .cjk ∧ more = [] := by
  unfold gramAt at found
  cases kind : kindOf alphanumeric c with
  | gap =>
    rw [kind] at found
    cases found
  | cjk =>
    simp only [kind] at found
    split at found
    · next pair =>
      cases rest with
      | nil => cases pair
      | cons d rest =>
        obtain ⟨same, nothing⟩ := List.cons.inj found
        obtain ⟨rfl, others⟩ := List.cons.inj same
        obtain ⟨rfl, _⟩ := List.cons.inj others
        exact ⟨rfl, rfl, Option.some.inj pair, nothing.symm⟩
    · split at found
      · cases found
      · obtain ⟨same, _⟩ := List.cons.inj found
        cases (List.cons.inj same).2
  | word =>
    simp only [kind] at found
    split at found
    · cases found
    · obtain ⟨same, _⟩ := List.cons.inj found
      rw [(List.cons.inj same).1, first] at kind
      cases kind

theorem gramAt_one (before : CharKind) (start : Nat) (c : Char) (rest : List Char) :
    gramAt alphanumeric before start c rest = [] ∨ ∃ gram, gramAt alphanumeric before start c rest = [gram] := by
  unfold gramAt
  split
  · exact .inl rfl
  · split
    · exact .inr ⟨_, rfl⟩
    · split
      · exact .inl rfl
      · exact .inr ⟨_, rfl⟩
  · split
    · exact .inl rfl
    · exact .inr ⟨_, rfl⟩

/-- The pair a text's grams begin with is its first gram, or comes from behind the first character. -/
theorem pair_first {before : CharKind} {start : Nat} {a b c : Char} {rest : List Char} {more : List (List Char)}
    (first : kindOf alphanumeric a = .cjk)
    (found : ([a, b] :: more) <+: (grams alphanumeric before start (c :: rest)).map Gram.text) :
    (c = a ∧ kindOf alphanumeric b = .cjk ∧ ∃ behind offset, rest = b :: behind ∧
        more <+: (grams alphanumeric .cjk offset (b :: behind)).map Gram.text) ∨
      gramAt alphanumeric before start c rest = [] ∧
        ([a, b] :: more) <+: (grams alphanumeric (kindOf alphanumeric c) (start + c.utf8Size) rest).map Gram.text := by
  rw [grams, List.map_append] at found
  rcases @gramAt_one alphanumeric before start c rest with none | ⟨gram, one⟩
  · rw [none] at found
    exact .inr ⟨none, found⟩
  · left
    rw [one] at found
    obtain ⟨same, others⟩ := List.cons_prefix_cons.mp found
    have pair : (gramAt alphanumeric before start c rest).map Gram.text = [a, b] :: [] := by rw [one, same]; rfl
    obtain ⟨rfl, head, kind, _⟩ := gramAt_pair first pair
    obtain ⟨behind, rfl⟩ : ∃ behind, rest = b :: behind := by
      cases rest with
      | nil => cases head
      | cons d behind => exact ⟨behind, by rw [Option.some.inj head]⟩
    rw [first] at others
    exact ⟨rfl, kind, behind, _, rfl, others⟩

/-- The next pair behind a gap. -/
theorem pair_behind_gap {start : Nat} {a b : Char} {text : List Char} {more : List (List Char)}
    (first : kindOf alphanumeric a = .cjk) (found : ([a, b] :: more) <+: (grams alphanumeric .gap start text).map Gram.text) :
    ∃ gaps behind offset, text = gaps ++ a :: b :: behind ∧ (∀ c ∈ gaps, alphanumeric c = false) ∧
      more <+: (grams alphanumeric .cjk offset (b :: behind)).map Gram.text := by
  induction text generalizing start with
  | nil => cases List.prefix_nil.mp found
  | cons c rest later =>
    rcases pair_first first found with ⟨rfl, _, behind, offset, rfl, others⟩ | ⟨none, onward⟩
    · exact ⟨[], behind, offset, rfl, fun _ none => absurd none List.not_mem_nil, others⟩
    · have kind : kindOf alphanumeric c = .gap := by
        unfold gramAt at none
        cases kind : kindOf alphanumeric c with
        | gap => rfl
        | cjk =>
          simp only [kind] at none
          split at none <;> cases none
        | word =>
          simp only [kind] at none
          cases none
      rw [kind] at onward
      obtain ⟨gaps, behind, offset, rfl, silent, others⟩ := later onward
      refine ⟨c :: gaps, behind, offset, rfl, fun d inside => ?_, others⟩
      rcases List.mem_cons.mp inside with rfl | old
      · exact kindOf_gap.mp kind
      · exact silent d old

/-- The next pair behind a character of a run: of the run, or behind the gap that ends it. -/
theorem pair_behind_run {start : Nat} {a b : Char} {rest : List Char} {more : List (List Char)}
    (first : kindOf alphanumeric a = .cjk)
    (found : ([a, b] :: more) <+: (grams alphanumeric .cjk start (a :: rest)).map Gram.text) :
    ∃ gaps behind offset, (rest = b :: behind ∨ gaps ≠ [] ∧ rest = gaps ++ a :: b :: behind) ∧
      (∀ c ∈ gaps, alphanumeric c = false) ∧ more <+: (grams alphanumeric .cjk offset (b :: behind)).map Gram.text := by
  have nothing : ∀ c ∈ ([] : List Char), alphanumeric c = false := fun _ none => absurd none List.not_mem_nil
  by_cases goes : ∃ d behind, rest = d :: behind ∧ kindOf alphanumeric d = .cjk
  · obtain ⟨d, behind, rfl, kind⟩ := goes
    rw [grams_pair .cjk start behind first kind] at found
    obtain ⟨same, onward⟩ := List.cons_prefix_cons.mp found
    obtain ⟨rfl, _⟩ := List.cons.inj (List.cons.inj same).2
    exact ⟨[], behind, _, .inl rfl, nothing, onward⟩
  · have ends : ∀ d, rest.head? = some d → kindOf alphanumeric d ≠ .cjk := by
      intro d head kind
      cases rest with
      | nil => cases head
      | cons e behind => exact goes ⟨e, behind, rfl, Option.some.inj head ▸ kind⟩
    rw [grams_last start rest first ends] at found
    cases rest with
    | nil => cases List.prefix_nil.mp found
    | cons d rest =>
      have other := ends d rfl
      cases kind : kindOf alphanumeric d with
      | cjk => exact absurd kind other
      | gap =>
        rw [grams_before .cjk .gap _ _ fun e head => .inl (Option.some.inj head ▸ kind)] at found
        obtain ⟨gaps, behind, offset, parts, silent, onward⟩ := pair_behind_gap first found
        refine ⟨gaps, behind, offset, .inr ⟨fun none => ?_, parts⟩, silent, onward⟩
        rw [none, List.nil_append] at parts
        rw [(List.cons.inj parts).1, first] at kind
        cases kind
      | word =>
        rcases pair_first first found with ⟨rfl, _⟩ | ⟨none, _⟩
        · exact absurd first other
        · unfold gramAt at none
          simp only [kind] at none
          cases none

/-- The text from a found pair on reads as the query that goes on with it. -/
theorem reads_from {query : List Char} (cjk : ∀ c ∈ query, kindOf alphanumeric c = .cjk) {a b : Char} {start : Nat}
    {rest : List Char} (first : kindOf alphanumeric b = .cjk)
    (found : bigrams (b :: query) <+: (grams alphanumeric .cjk start (b :: rest)).map Gram.text) :
    ∃ part, part <+: a :: b :: rest ∧ ReadsAs alphanumeric part (a :: b :: query) := by
  induction query generalizing a b start rest with
  | nil => exact ⟨[a, b], List.cons_prefix_cons.mpr ⟨rfl, List.cons_prefix_cons.mpr ⟨rfl, List.nil_prefix⟩⟩, .pair a b⟩
  | cons c query later =>
    have second := cjk c List.mem_cons_self
    obtain ⟨gaps, behind, offset, place, silent, onward⟩ := pair_behind_run first found
    obtain ⟨part, begins, reads⟩ := later (fun d inside => cjk d (List.mem_cons_of_mem c inside)) (a := b) second onward
    rcases place with rfl | ⟨some, rfl⟩
    · exact ⟨a :: part, List.cons_prefix_cons.mpr ⟨rfl, begins⟩, .next a part _ reads⟩
    · refine ⟨a :: b :: (gaps ++ part), ?_, .gap a b gaps part _ some silent reads⟩
      exact List.cons_prefix_cons.mpr ⟨rfl, List.cons_prefix_cons.mpr ⟨rfl, (List.prefix_append_right_inj gaps).mpr begins⟩⟩

/-- Where the pairs of a query stand in the tokens of a text, the text reads as the query. -/
theorem reads_of_grams {text query : List Char} (long : 2 ≤ query.length) (cjk : ∀ c ∈ query, kindOf alphanumeric c = .cjk)
    {before : CharKind} {start : Nat} (found : bigrams query <:+: (grams alphanumeric before start text).map Gram.text) :
    ∃ part, part <:+: text ∧ ReadsAs alphanumeric part query := by
  obtain ⟨a, b, others, rfl⟩ : ∃ a b others, query = a :: b :: others := by
    cases query with
    | nil => simp at long
    | cons a rest =>
      cases rest with
      | nil => simp at long
      | cons b others => exact ⟨a, b, others, rfl⟩
  have first := cjk a List.mem_cons_self
  have second := cjk b (List.mem_cons_of_mem _ List.mem_cons_self)
  have behind := fun d inside => cjk d (List.mem_cons_of_mem a (List.mem_cons_of_mem b inside))
  induction text generalizing before start with
  | nil => cases List.infix_nil.mp found
  | cons c rest later =>
    have onward : bigrams (a :: b :: others) <:+: (grams alphanumeric (kindOf alphanumeric c) (start + c.utf8Size) rest).map
        Gram.text → ∃ part, part <:+: c :: rest ∧ ReadsAs alphanumeric part (a :: b :: others) := by
      intro inside
      obtain ⟨part, within, reads⟩ := later inside
      exact ⟨part, List.infix_cons within, reads⟩
    rcases @gramAt_one alphanumeric before start c rest with none | ⟨gram, one⟩
    · rw [grams, none] at found
      exact onward found
    · have parts : (grams alphanumeric before start (c :: rest)).map Gram.text =
          gram.text :: (grams alphanumeric (kindOf alphanumeric c) (start + c.utf8Size) rest).map Gram.text := by
        rw [grams, one]
        rfl
      rw [parts] at found
      rcases List.infix_cons_iff.mp found with here | inside
      · rw [← parts] at here
        rcases pair_first first here with ⟨rfl, _, others', offset, rfl, more⟩ | ⟨none, _⟩
        · obtain ⟨part, begins, reads⟩ := reads_from behind (a := c) second more
          exact ⟨part, begins.isInfix, reads⟩
        · rw [one] at none
          cases none
      · exact onward inside

/-- The pairs of a CJK query are its own tokens. -/
theorem grams_query {query : List Char} (long : 2 ≤ query.length) (cjk : ∀ c ∈ query, kindOf alphanumeric c = .cjk)
    (before : CharKind) (start : Nat) : (grams alphanumeric before start query).map Gram.text = bigrams query := by
  induction query generalizing before start with
  | nil => simp at long
  | cons a rest later =>
    cases rest with
    | nil => simp at long
    | cons b others =>
      have second := cjk b (List.mem_cons_of_mem _ List.mem_cons_self)
      have behind := fun d inside => cjk d (List.mem_cons_of_mem a inside)
      rw [grams_pair before start others (cjk a List.mem_cons_self) second, List.map_cons, bigrams]
      congr 1
      cases others with
      | nil =>
        rw [grams_last _ _ second fun d none => by cases none]
        rfl
      | cons c others => exact later (by simp) behind _ _

/-! ### Exact search -/

/-- A gram is the part of the text from its offset on. -/
theorem grams_slices {before : CharKind} {start : Nat} {text : List Char} {gram : Gram}
    (member : gram ∈ grams alphanumeric before start text) :
    ∃ first last, text = first ++ (gram.text ++ last) ∧ gram.start = start + byteLength first := by
  induction text generalizing before start with
  | nil => cases member
  | cons c rest later =>
    rw [grams] at member
    rcases List.mem_append.mp member with here | behind
    · have front : gram.start = start ∧ gram.text <+: c :: rest := by
        unfold gramAt at here
        split at here
        · cases here
        · split at here
          · rw [List.mem_singleton.mp here]
            exact ⟨rfl, List.cons_prefix_cons.mpr ⟨rfl, List.take_prefix 1 rest⟩⟩
          · split at here
            · cases here
            · rw [List.mem_singleton.mp here]
              exact ⟨rfl, List.cons_prefix_cons.mpr ⟨rfl, List.nil_prefix⟩⟩
        · split at here
          · cases here
          · rw [List.mem_singleton.mp here]
            exact ⟨rfl, List.cons_prefix_cons.mpr ⟨rfl, List.takeWhile_prefix _⟩⟩
      obtain ⟨last, parts⟩ := front.2
      exact ⟨[], last, parts.symm, front.1⟩
    · obtain ⟨first, last, rfl, place⟩ := later behind
      refine ⟨c :: first, last, rfl, ?_⟩
      rw [place, byteLength_cons, Nat.add_assoc]

/-- Phrase matching: the tokens of the query stand among those of the text, at consecutive positions. -/
def OccursConsecutively (query text : List Token) : Prop :=
  ∃ first, ∀ i token, query[i]? = some token → ∃ found ∈ text, found.position = first + i ∧ found.text = token.text

theorem renumber_get (tokens : List Token) (next i : Nat) :
    (renumber tokens next)[i]? = tokens[i]?.map fun token => { token with position := next + i } := by
  induction tokens generalizing next i with
  | nil => rfl
  | cons token rest later =>
    cases i with
    | zero => rfl
    | succ i =>
      rw [renumber, List.getElem?_cons_succ, List.getElem?_cons_succ, later, Nat.add_assoc, Nat.add_comm 1 i]

/-- A token stands at the position that it has in the stream. -/
theorem mem_renumber_iff {tokens : List Token} {found : Token} {k : Nat} :
    found ∈ renumber tokens 0 ∧ found.position = k ↔ (renumber tokens 0)[k]? = some found := by
  have placed : ∀ i, (renumber tokens 0)[i]? = some found → found.position = i := by
    intro i here
    rw [renumber_get] at here
    obtain ⟨token, _, rfl⟩ := Option.map_eq_some_iff.mp here
    exact Nat.zero_add i
  constructor
  · intro ⟨member, place⟩
    obtain ⟨i, here⟩ := List.mem_iff_getElem?.mp member
    rw [← place, placed i here]
    exact here
  · intro here
    exact ⟨List.mem_iff_getElem?.mpr ⟨k, here⟩, placed k here⟩

theorem renumber_texts (tokens : List Token) (next : Nat) : (renumber tokens next).map Token.text = tokens.map Token.text := by
  have places := congrArg (List.map fun place : Nat × Nat × String => place.2.2) (renumber_places tokens next)
  rw [List.map_map, List.map_map] at places
  exact places

theorem occurs_iff {query tokens : List Token} (nonempty : query ≠ []) :
    OccursConsecutively query (renumber tokens 0) ↔ query.map Token.text <:+: tokens.map Token.text := by
  rw [← renumber_texts tokens 0, List.infix_iff_getElem?]
  have stands : ∀ (first i : Nat) (token : Token), query[i]? = some token →
      ((∃ found ∈ renumber tokens 0, found.position = first + i ∧ found.text = token.text) ↔
        ((renumber tokens 0).map Token.text)[i + first]? = (query.map Token.text)[i]?) := by
    intro first i token here
    rw [List.getElem?_map, List.getElem?_map, here, Option.map_some, Option.map_eq_some_iff, Nat.add_comm i first]
    constructor
    · intro ⟨found, member, place, text⟩
      exact ⟨found, mem_renumber_iff.mp ⟨member, place⟩, text⟩
    · intro ⟨found, place, text⟩
      obtain ⟨member, position⟩ := mem_renumber_iff.mpr place
      exact ⟨found, member, position, text⟩
  constructor
  · intro ⟨first, all⟩
    have same : ∀ i, i < (query.map Token.text).length →
        ((renumber tokens 0).map Token.text)[i + first]? = (query.map Token.text)[i]? := by
      intro i inside
      rw [List.length_map] at inside
      have here := List.getElem?_eq_getElem inside
      exact (stands first i _ here).mp (all i _ here)
    refine ⟨first, ?_, fun i inside => by rw [same i inside, List.getElem?_eq_getElem inside]⟩
    have size : 0 < (query.map Token.text).length := by
      rw [List.length_map]
      exact List.length_pos_iff.mpr nonempty
    have last := same ((query.map Token.text).length - 1) (by omega)
    rw [List.getElem?_eq_getElem (show (query.map Token.text).length - 1 < (query.map Token.text).length by omega)] at last
    have bound := (List.getElem?_eq_some_iff.mp last).1
    omega
  · intro ⟨first, _, all⟩
    refine ⟨first, fun i token here => (stands first i token here).mpr ?_⟩
    have inside : i < (query.map Token.text).length := by
      rw [List.length_map]
      exact (List.getElem?_eq_some_iff.mp here).1
    rw [all i inside, List.getElem?_eq_getElem inside]

/-- A text of CJK letters, as a search for a part of a longer text takes it. -/
def CjkQuery (alphanumeric : Char → Bool) (query : String) : Prop :=
  2 ≤ query.length ∧ ∀ c ∈ query.toList, isCjk c = true ∧ alphanumeric c = true

/-- The query is found where it stands in the text and nowhere else; and each token of the text is the slice at its
offsets, at the position after the one before it. -/
structure CjkSearchExact (base : String → List Token) (text query : String) : Prop where
  ends : ∃ tokens, Emits (tokenStream base text) tokens
  exact : ∀ tokens pairs, Emits (tokenStream base text) tokens → Emits (tokenStream base query) pairs →
    (OccursConsecutively pairs tokens ↔ query.toList <:+: text.toList)
  slices : ∀ tokens, Emits (tokenStream base text) tokens → ∀ token ∈ tokens,
    slice text.toList token.offsetFrom token.offsetTo = token.text.toList
  positions : ∀ tokens, Emits (tokenStream base text) tokens → tokens.map Token.position = List.range tokens.length

/-- If a part of the text reads as the query, the query itself stands in the text. -/
def ReadsVerbatim (alphanumeric : Char → Bool) (text query : String) : Prop :=
  ∀ part, part <:+: text.toList → ReadsAs alphanumeric part query.toList → query.toList <:+: text.toList

section Search
variable {base : String → List Token} {text query : String} {tokens pairs : List Token}

theorem stream_texts (splits : SplitsWords alphanumeric 0 text.toList (base text)) :
    ((base text).flatMap split).map Token.text =
      ((grams alphanumeric .gap 0 text.toList).map Gram.text).map String.ofList := by
  have places := congrArg (List.map fun place : Nat × Nat × String => place.2.2) (stream_places splits)
  rw [List.map_map, List.map_map] at places
  rw [List.map_map]
  exact places

theorem infix_of_strings {first second : List (List Char)} :
    first.map String.ofList <:+: second.map String.ofList ↔ first <:+: second := by
  have back : ∀ list : List (List Char), (list.map String.ofList).map String.toList = list := by
    intro list
    rw [List.map_map]
    exact (List.map_congr_left fun chars _ => String.toList_ofList).trans (List.map_id list)
  constructor
  · intro within
    have chars := within.map String.toList
    rwa [back, back] at chars
  · exact fun within => within.map String.ofList

/-- The query's tokens stand at consecutive positions exactly when a part of the text reads as the query. -/
theorem occurs_iff_reads (splits : SplitsWords alphanumeric 0 text.toList (base text))
    (whole : SplitsWords alphanumeric 0 query.toList (base query)) (cjk : CjkQuery alphanumeric query)
    (emits : Emits (tokenStream base text) tokens) (found : Emits (tokenStream base query) pairs) :
    OccursConsecutively pairs tokens ↔ ∃ part, part <:+: text.toList ∧ ReadsAs alphanumeric part query.toList := by
  obtain ⟨long, letters⟩ := cjk
  have size : 2 ≤ query.toList.length := by rwa [String.length_toList]
  have kinds : ∀ c ∈ query.toList, kindOf alphanumeric c = .cjk := fun c inside =>
    kindOf_cjk.mpr ⟨(letters c inside).2, (letters c inside).1⟩
  have texts : pairs.map Token.text = (bigrams query.toList).map String.ofList := by
    rw [emits_iff.mp found, tokenStream_remaining, renumber_texts, stream_texts whole, grams_query size kinds]
  have nonempty : pairs ≠ [] := by
    intro none
    obtain ⟨a, b, others, _, _, parts⟩ := (@ReadsAs.refl alphanumeric query.toList size).head
    rw [none, parts] at texts
    cases texts
  rw [emits_iff.mp emits, tokenStream_remaining, occurs_iff nonempty, texts, stream_texts splits, infix_of_strings]
  constructor
  · exact reads_of_grams size kinds
  · intro ⟨part, ⟨before, after, parts⟩, reads⟩
    rw [← parts, List.append_assoc]
    obtain ⟨kind, offset, suffix⟩ := @grams_suffix alphanumeric before .gap 0 (part ++ after)
    exact (reads.grams kinds kind offset after).isInfix.trans (suffix.isInfix.map Gram.text)

theorem stream_slices (splits : SplitsWords alphanumeric 0 text.toList (base text)) (emits : Emits (tokenStream base text) tokens)
    {token : Token} (member : token ∈ tokens) : slice text.toList token.offsetFrom token.offsetTo = token.text.toList := by
  have places : tokens.map Token.place = (grams alphanumeric .gap 0 text.toList).map Gram.place := by
    rw [emits_iff.mp emits, tokenStream_remaining, renumber_places, stream_places splits]
  have listed : token.place ∈ (grams alphanumeric .gap 0 text.toList).map Gram.place := by
    rw [← places]
    exact List.mem_map_of_mem member
  obtain ⟨gram, inside, same⟩ := List.mem_map.mp listed
  obtain ⟨first, last, parts, start⟩ := grams_slices inside
  obtain ⟨offsetFrom, rest⟩ := Prod.mk.inj same
  obtain ⟨offsetTo, chars⟩ := Prod.mk.inj rest
  rw [← offsetFrom, ← offsetTo, ← chars, String.toList_ofList, parts, start, Nat.zero_add]
  exact slice_of_parts rfl (by omega)

/-- The search is exact for a text and a query unless a part of the text reads as the query and the query itself does
not stand there. -/
theorem cjk_search_exact_iff (splits : SplitsWords alphanumeric 0 text.toList (base text))
    (whole : SplitsWords alphanumeric 0 query.toList (base query)) (cjk : CjkQuery alphanumeric query) :
    CjkSearchExact base text query ↔ ReadsVerbatim alphanumeric text query := by
  have long : 2 ≤ query.toList.length := by
    rw [String.length_toList]
    exact cjk.1
  constructor
  · intro search part within reads
    obtain ⟨tokens, emits⟩ := search.ends
    have own : Emits (tokenStream base query) (tokenStream base query).remaining := emits_iff.mpr rfl
    exact (search.exact tokens _ emits own).mp ((occurs_iff_reads splits whole cjk emits own).mpr ⟨part, within, reads⟩)
  · intro verbatim
    refine ⟨⟨_, emits_iff.mpr rfl⟩, fun tokens pairs emits found => ?_, fun tokens emits token => stream_slices splits emits,
      fun tokens emits => ?_⟩
    · rw [occurs_iff_reads splits whole cjk emits found]
      exact ⟨fun ⟨part, within, reads⟩ => verbatim part within reads, fun within => ⟨_, within, .refl long⟩⟩
    · rw [emits_iff.mp emits, tokenStream_remaining, renumber_positions, List.range_eq_range']
      congr 1
      have lengths := congrArg List.length (renumber_places ((base text).flatMap split) 0)
      rw [List.length_map, List.length_map] at lengths
      exact lengths.symm

end Search

/-- A base tokenizer on texts of at most one space: the words on its two sides, or all of the text. -/
def twoWords (text : String) : List Token :=
  match text.toList.splitOn ' ' with
  | [first, second] =>
    [⟨0, byteLength first, 0, String.ofList first, 1⟩,
      ⟨byteLength first + 1, byteLength first + 1 + byteLength second, 1, String.ofList second, 1⟩]
  | _ => [⟨0, byteLength text.toList, 0, text, 1⟩]

def notSpace (c : Char) : Bool := c != ' '

theorem twoWords_one {text : String} {word : List Char} (chars : text.toList = word) (some : word ≠ [])
    (one : word.splitOn ' ' = [word]) (letters : word.all notSpace = true) :
    SplitsWords notSpace 0 text.toList (twoWords text) := by
  have tokens : twoWords text = [⟨0, byteLength word, 0, text, 1⟩] := by
    unfold twoWords
    rw [chars, one]
  rw [tokens, chars]
  have split := SplitsWords.word 0 word [] ⟨0, byteLength word, 0, text, 1⟩ [] some
    (List.all_eq_true.mp letters) (fun c none => by cases none) rfl
    (Nat.zero_add _).symm (by rw [← chars, String.ofList_toList]) (.done (0 + byteLength word))
  rwa [List.append_nil] at split

/-- A search for the first three characters of a text of four. -/
theorem run_searched_exactly : CjkSearchExact twoWords "東京都庁" "東京都" := by
  have text : SplitsWords notSpace 0 "東京都庁".toList (twoWords "東京都庁") :=
    @twoWords_one "東京都庁" ['東', '京', '都', '庁'] (by decide +kernel) (by decide +kernel) (by decide +kernel) (by decide +kernel)
  have query : SplitsWords notSpace 0 "東京都".toList (twoWords "東京都") :=
    @twoWords_one "東京都" ['東', '京', '都'] (by decide +kernel) (by decide +kernel) (by decide +kernel) (by decide +kernel)
  have cjk : CjkQuery notSpace "東京都" := ⟨by decide +kernel, by simp [isCjk, notSpace]⟩
  exact (cjk_search_exact_iff text query cjk).mpr fun _ _ _ => ⟨[], ['庁'], by decide +kernel⟩

/-- Two words that share a character are found as one. -/
theorem words_found_joined : ¬ CjkSearchExact twoWords "東京 京都" "東京都" := by
  intro search
  have query : SplitsWords notSpace 0 "東京都".toList (twoWords "東京都") :=
    @twoWords_one "東京都" ['東', '京', '都'] (by decide +kernel) (by decide +kernel) (by decide +kernel) (by decide +kernel)
  have chars : "東京 京都".toList = ['東', '京'] ++ ' ' :: (['京', '都'] ++ []) := by decide +kernel
  have three : "東京都".toList = ['東', '京', '都'] := by decide +kernel
  have text : SplitsWords notSpace 0 "東京 京都".toList (twoWords "東京 京都") := by
    have tokens : twoWords "東京 京都" = [⟨0, 6, 0, "東京", 1⟩, ⟨7, 13, 1, "京都", 1⟩] := by decide +kernel
    have second : SplitsWords notSpace 7 (['京', '都'] ++ []) [⟨7, 13, 1, "京都", 1⟩] :=
      .word 7 ['京', '都'] [] _ [] (by decide +kernel) (List.all_eq_true.mp rfl) (fun c none => by cases none) rfl rfl rfl (.done _)
    have gap : SplitsWords notSpace 6 (' ' :: (['京', '都'] ++ [])) [⟨7, 13, 1, "京都", 1⟩] :=
      .gap 6 ' ' _ _ (by decide +kernel) second
    rw [tokens, chars]
    exact .word 0 ['東', '京'] _ ⟨0, 6, 0, "東京", 1⟩ _ (by decide +kernel) (List.all_eq_true.mp rfl)
      (fun c head => by rw [← Option.some.inj head]; rfl) rfl rfl rfl gap
  have cjk : CjkQuery notSpace "東京都" := ⟨by decide +kernel, by simp [isCjk, notSpace]⟩
  obtain ⟨tokens, emits⟩ := search.ends
  have own : Emits (tokenStream twoWords "東京都") (tokenStream twoWords "東京都").remaining := emits_iff.mpr rfl
  have reads : ReadsAs notSpace ['東', '京', ' ', '京', '都'] ['東', '京', '都'] :=
    .gap '東' '京' [' '] ['京', '都'] ['都'] (by simp) (by simp [notSpace]) (.pair '京' '都')
  have occurs := (occurs_iff_reads text query cjk emits own).mpr
    ⟨['東', '京', ' ', '京', '都'], by rw [chars]; exact List.infix_rfl, by rw [three]; exact reads⟩
  have found := (search.exact tokens _ emits own).mp occurs
  rw [chars, three] at found
  exact absurd found (by decide +kernel)

end Rqmd
