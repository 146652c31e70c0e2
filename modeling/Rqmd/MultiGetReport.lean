import Rqmd.MultiGet

/-! The report of a `multi-get` against what each entry matches on its own. -/

namespace Rqmd
open Like Select Text

/-! ### Sorted documents -/

/-- Sorted by collection and path, each document once. -/
def ListedOnce (docs : List Document) : Prop := docs.Pairwise fun a b => Db.documentOrder a b ∧ a ≠ b

namespace Db

variable {db : Db} {collections : List String}

theorem documents_antisymm {docs : List Document} (stored : ∀ d ∈ docs, d ∈ db.documents) :
    ∀ a ∈ docs, ∀ b ∈ docs, documentOrder a b → documentOrder b a → a = b := fun a left b right up down =>
  Table.eq_of_clash (stored a left) (stored b right) (.inr (documentOrder_antisymm up down))

theorem pairwise_documentOrder (docs : List Document) : (docs.insertionSort documentOrder).Pairwise documentOrder := by
  have total : Std.Total documentOrder := ⟨documentOrder_total⟩
  have onward : IsTrans Document documentOrder := ⟨fun _ _ _ => documentOrder_trans⟩
  exact List.pairwise_insertionSort _ _

theorem listed_select (p : Document → Bool) : ListedOnce ((db.documents.select p).insertionSort documentOrder) := by
  apply (pairwise_documentOrder _).imp₂ (fun _ _ before apart => ⟨before, apart⟩)
  exact (List.perm_insertionSort _ _).nodup_iff.mpr (db.documents_nodup.filter _)

/-- Rows from several statements, merged. -/
theorem listed_merged {docs : List Document} (stored : ∀ d ∈ docs, d ∈ db.documents) :
    ListedOnce (dedupByKey Document.id (docs.insertionSort documentOrder)) ∧
      ∀ d, d ∈ dedupByKey Document.id (docs.insertionSort documentOrder) ↔ d ∈ docs := by
  have inside : ∀ d ∈ docs.insertionSort documentOrder, d ∈ db.documents := fun d member =>
    stored d ((List.mem_insertionSort _).mp member)
  constructor
  · exact dedupByKey_strict (pairwise_documentOrder docs) (documents_antisymm inside)
  · intro d
    rw [mem_dedupByKey fun a left b right same => Table.eq_of_clash (inside a left) (inside b right) (.inl same),
      List.mem_insertionSort]

theorem eq_of_listed {docs others : List Document} (stored : ∀ d ∈ docs, d ∈ db.documents) (left : ListedOnce docs)
    (right : ListedOnce others) (same : ∀ d, d ∈ docs ↔ d ∈ others) : docs = others :=
  eq_of_strict (documents_antisymm stored) left right same

theorem mem_findDocumentsByNeedleBatch {needles : List String} {d : Document} :
    d ∈ db.findDocumentsByNeedleBatch collections needles ↔
      d ∈ db.documents ∧ d.active = true ∧ inCollections collections d = true ∧
        ∃ needle ∈ needles, needleClause needle d = true := by
  simp only [findDocumentsByNeedleBatch, List.mem_insertionSort, Table.mem_select, Bool.and_eq_true, List.any_eq_true]
  tauto

/-- Lookups in groups give what one statement over all needles gives. -/
theorem findDocumentsByNeedles_eq (needles : List String) :
    db.findDocumentsByNeedles collections needles = db.findDocumentsByNeedleBatch collections needles := by
  have whole := chunks_flatten (show 0 < needleBatch by decide) needles
  unfold findDocumentsByNeedles
  split
  · next none =>
    rw [none] at whole
    rw [← whole, findDocumentsByNeedleBatch]
    simp [Table.select]
  · next batch one =>
    rw [one, List.flatten_singleton] at whole
    rw [whole]
  · generalize chunks needleBatch needles = batches at whole
    have stored : ∀ d ∈ batches.flatMap (db.findDocumentsByNeedleBatch collections), d ∈ db.documents := by
      intro d member
      obtain ⟨batch, _, inside⟩ := List.mem_flatMap.mp member
      exact (mem_findDocumentsByNeedleBatch.mp inside).1
    obtain ⟨listed, same⟩ := listed_merged stored
    have once : ListedOnce (db.findDocumentsByNeedleBatch collections needles) := listed_select _
    apply eq_of_listed (fun d member => stored d ((same d).mp member)) listed once
    intro d
    rw [same, mem_findDocumentsByNeedleBatch, ← whole, List.mem_flatMap]
    simp only [mem_findDocumentsByNeedleBatch, List.mem_flatten]
    constructor
    · intro found
      obtain ⟨batch, inside, row, active, chosen, needle, member, hit⟩ := found
      exact ⟨row, active, chosen, needle, ⟨batch, inside, member⟩, hit⟩
    · intro found
      obtain ⟨row, active, chosen, needle, ⟨batch, inside, member⟩, hit⟩ := found
      exact ⟨batch, inside, row, active, chosen, needle, member, hit⟩

end Db

/-! ### The entries on their own -/

section Resolve
variable (newGlob : String → Option (String → Bool)) (db : Db) (collections : List String)

/-- The document starts its hash with the docid, up to the case of ASCII letters. -/
def HasDocid (hex : String) (d : Document) : Prop :=
  ∃ front rest, d.hash.toList = front ++ rest ∧ fold front = fold hex.toList

/-- What an entry is said to match. -/
def Entry.Matches (d : Document) : Entry → Prop
  | .docid hex => hex ≠ "" ∧ d ∈ db.documents ∧ d.active = true ∧ HasDocid hex d ∧
      ∀ e ∈ db.documents, e.active = true → HasDocid hex e → Db.documentOrder d e
  | .glob pattern => d ∈ db.documents ∧ d.active = true ∧ Db.inCollections collections d = true ∧
      ∃ isMatch, newGlob pattern = some isMatch ∧ isMatch d.filepath = true
  | .path needle => d ∈ db.documents ∧ d.active = true ∧ Db.inCollections collections d = true ∧
      ((d.path = needle ∨ d.filepath = needle) ∨ EndsWithPart needle d.path ∨ EndsWithPart needle d.filepath)

/-- What the statements find for one entry. -/
def Entry.found : Entry → List Document
  | .docid hex => (db.getDocumentByDocidPrefix hex).toList
  | .glob pattern => match newGlob pattern with
    | some isMatch => (db.listDocumentsMulti collections).filter fun d => isMatch d.filepath
    | none => []
  | .path needle => db.findDocumentsByNeedleBatch collections [needle]

/-- Every glob of the entries compiles. -/
def Compiles (entries : List (String × Entry)) : Prop :=
  ∀ e ∈ entries, ∀ pattern, e.2 = .glob pattern → (newGlob pattern).isSome = true

variable {newGlob db collections}

namespace Db

theorem mem_listDocumentsMulti {d : Document} :
    d ∈ db.listDocumentsMulti collections ↔ d ∈ db.documents ∧ d.active = true ∧ inCollections collections d = true := by
  rw [listDocumentsMulti, List.mem_insertionSort, Table.mem_select, Bool.and_eq_true]

theorem getDocumentByDocidPrefix_eq_some {hex : String} {d : Document} :
    db.getDocumentByDocidPrefix hex = some d ↔ hex ≠ "" ∧ d ∈ db.documents ∧ d.active = true ∧ HasDocid hex d ∧
      ∀ e ∈ db.documents, e.active = true → HasDocid hex e → documentOrder d e := by
  unfold getDocumentByDocidPrefix
  by_cases empty : hex.isEmpty = true
  · rw [if_pos empty]
    have none : hex = "" := by simpa using empty
    constructor
    · intro impossible
      cases impossible
    · exact fun found => absurd none found.1
  · rw [if_neg empty]
    have some : hex ≠ "" := by simpa using empty
    have chosen : ∀ e, e ∈ (db.documents.select fun d => like (escape hex.toList ++ ['%']) d.hash.toList &&
        d.active).insertionSort documentOrder ↔ e ∈ db.documents ∧ HasDocid hex e ∧ e.active = true := by
      intro e
      rw [List.mem_insertionSort, Table.mem_select, Bool.and_eq_true, like_escape_percent, HasDocid]
    have sorted := pairwise_documentOrder (db.documents.select fun d => like (escape hex.toList ++ ['%']) d.hash.toList &&
      d.active)
    generalize (db.documents.select fun d => like (escape hex.toList ++ ['%']) d.hash.toList &&
      d.active).insertionSort documentOrder = rows at chosen sorted
    have reflexive : ∀ e : Document, documentOrder e e := fun e => (documentOrder_total e e).elim id id
    cases rows with
    | nil =>
      constructor
      · intro impossible
        cases impossible
      · intro found
        exact absurd ((chosen d).mpr ⟨found.2.1, found.2.2.2.1, found.2.2.1⟩) List.not_mem_nil
    | cons first rest =>
      obtain ⟨least, _⟩ := List.pairwise_cons.mp sorted
      have head := (chosen first).mp List.mem_cons_self
      have before : ∀ e ∈ db.documents, e.active = true → HasDocid hex e → documentOrder first e := by
        intro e row active starts
        rcases List.mem_cons.mp ((chosen e).mpr ⟨row, starts, active⟩) with same | behind
        · rw [same]
          exact reflexive first
        · exact least e behind
      rw [List.head?_cons]
      constructor
      · intro same
        cases same
        exact ⟨some, head.1, head.2.2, head.2.1, before⟩
      · intro found
        obtain ⟨_, row, active, starts, lowest⟩ := found
        rw [Option.some.injEq]
        have place := documentOrder_antisymm (before d row active starts) (lowest first head.1 head.2.2 head.2.1)
        exact Table.eq_of_clash head.1 row (.inr place)

end Db

theorem Entry.mem_found {entry : Entry} {d : Document} :
    d ∈ entry.found newGlob db collections ↔ entry.Matches newGlob db collections d := by
  cases entry with
  | docid hex =>
    rw [found, Option.mem_toList, Db.getDocumentByDocidPrefix_eq_some]
    rfl
  | glob pattern =>
    cases compiled : newGlob pattern with
    | none => simp [found, Matches, compiled]
    | some isMatch =>
      simp only [found, Matches, compiled, List.mem_filter, Db.mem_listDocumentsMulti, Option.some.injEq, exists_eq_left',
        and_assoc]
  | path needle =>
    simp only [found, Matches, Db.mem_findDocumentsByNeedleBatch, List.mem_singleton, exists_eq_left, needleClause_iff]

theorem Entry.found_listed (entry : Entry) : ListedOnce (entry.found newGlob db collections) := by
  cases entry with
  | docid hex =>
    rw [found]
    cases db.getDocumentByDocidPrefix hex with
    | none => exact .nil
    | some d => exact List.pairwise_singleton _ _
  | glob pattern =>
    rw [found]
    split
    · exact (Db.listed_select _).filter _
    · exact .nil
  | path needle => exact Db.listed_select _

/-- The rows a needle keeps of those of several needles are its own. -/
theorem Db.countP_needle {needles : List String} {needle : String} (member : needle ∈ needles) :
    (db.findDocumentsByNeedleBatch collections needles).countP (needleClause needle) =
      (db.findDocumentsByNeedleBatch collections [needle]).length := by
  unfold findDocumentsByNeedleBatch Table.select
  rw [(List.perm_insertionSort _ _).countP_eq, List.countP_filter, List.length_insertionSort, ← List.countP_eq_length_filter]
  apply List.countP_congr
  intro d _
  simp only [Bool.and_eq_true, List.any_eq_true, List.mem_singleton, exists_eq_left]
  constructor
  · intro both
    exact ⟨⟨both.2.1.1, both.1⟩, both.2.2⟩
  · intro both
    exact ⟨both.1.2, ⟨both.1.1, needle, member, both.1.2⟩, both.2⟩

end Resolve

/-! ### The loop over the report -/

namespace MultiGetReport

/-- An entry is noted as unmatched or as ambiguous. -/
def Noted (entry : (String × Entry) × Nat) : Prop := entry.2 = 0 ∨ (entry.1.2.path?.isSome = true ∧ 1 < entry.2)

/-- What the loop has written when it is through the entries: for every text one line at most. -/
structure Tells (docs : List Document) (entries : List ((String × Entry) × Nat)) (state : MultiGetReport × List String) :
    Prop where
  documents : state.1.documents = docs
  seen : ∀ w, w ∈ state.2 ↔ ∃ e ∈ entries, e.1.1 = w ∧ Noted e
  unmatched : ∀ w, w ∈ state.1.unmatched ↔ ∃ e ∈ entries, e.1.1 = w ∧ e.2 = 0
  ambiguous : ∀ a, a ∈ state.1.ambiguous ↔
    ∃ e ∈ entries, e.1.1 = a.entry ∧ e.2 = a.found ∧ e.1.2.path?.isSome = true ∧ 1 < e.2

theorem Tells.skip {docs : List Document} {entries : List ((String × Entry) × Nat)} {state : MultiGetReport × List String}
    (tells : Tells docs entries state) {entry : (String × Entry) × Nat}
    (quiet : ¬ Noted entry ∨ entry ∈ entries) : Tells docs (entries ++ [entry]) state := by
  have either : ∀ p : (String × Entry) × Nat → Prop, (p entry → Noted entry) →
      ((∃ e ∈ entries, p e) ↔ ∃ e ∈ entries ++ [entry], p e) := by
    intro p noted
    simp only [List.mem_append, List.mem_singleton]
    constructor
    · intro found
      obtain ⟨e, inside, holds⟩ := found
      exact ⟨e, .inl inside, holds⟩
    · intro found
      obtain ⟨e, inside | rfl, holds⟩ := found
      · exact ⟨e, inside, holds⟩
      · exact ⟨e, quiet.resolve_left fun silent => silent (noted holds), holds⟩
  refine ⟨tells.documents, fun w => ?_, fun w => ?_, fun a => ?_⟩
  · rw [tells.seen]
    exact either _ fun holds => holds.2
  · rw [tells.unmatched]
    exact either _ fun holds => .inl holds.2
  · rw [tells.ambiguous]
    exact either _ fun holds => .inr ⟨holds.2.2.1, holds.2.2.2⟩

/-- A text has one kind and one count. -/
def Consistent (entries : List ((String × Entry) × Nat)) : Prop := ∀ a ∈ entries, ∀ b ∈ entries, a.1.1 = b.1.1 → a = b

theorem foldl_note (docs : List Document) {entries : List ((String × Entry) × Nat)} (consistent : Consistent entries) :
    Tells docs entries (entries.foldl note (⟨docs, [], []⟩, [])) := by
  induction entries using List.reverseRecOn with
  | nil => exact ⟨rfl, by simp, by simp, by simp⟩
  | append_singleton earlier entry before =>
    have known := before fun a left b right => consistent a (List.mem_append_left _ left) b (List.mem_append_left _ right)
    rw [List.foldl_append, List.foldl_cons, List.foldl_nil]
    generalize earlier.foldl note (⟨docs, [], []⟩, []) = state at known
    obtain ⟨report, seen⟩ := state
    obtain ⟨⟨written, kind⟩, found⟩ := entry
    have again : written ∈ seen → Noted ((written, kind), found) → ((written, kind), found) ∈ earlier := by
      intro old _
      obtain ⟨e, inside, same, _⟩ := (known.seen written).mp old
      have one := consistent e (List.mem_append_left _ inside) _ (List.mem_append_right _ List.mem_cons_self) same
      exact one ▸ inside
    have noted : Noted ((written, kind), found) ↔ found = 0 ∨ (kind.path?.isSome && decide (1 < found)) = true := by
      simp [Noted]
    rw [note]
    by_cases turn : (found = 0 ∨ (kind.path?.isSome && decide (1 < found)) = true) ∧ written ∉ seen
    · rw [if_pos turn]
      have this := noted.mpr turn.1
      have told : ∀ w, w ∈ written :: seen ↔ ∃ e ∈ earlier ++ [((written, kind), found)], e.1.1 = w ∧ Noted e := by
        intro w
        have old := known.seen w
        simp only at old
        simp only [List.mem_cons, old, List.mem_append, List.not_mem_nil, or_false, or_and_right, exists_or, exists_eq_left]
        rw [or_comm, @eq_comm _ w]
        exact or_congr_right (iff_self_and.mpr fun _ => this)
      by_cases nothing : found = 0
      · rw [if_pos nothing]
        refine ⟨known.documents, told, fun w => ?_, fun a => ?_⟩
        · have old := known.unmatched w
          simp only at old
          simp only [List.mem_append, old, List.mem_cons, List.not_mem_nil, or_false, or_and_right, exists_or, exists_eq_left,
            nothing, and_true]
          rw [@eq_comm _ w]
        · have old := known.ambiguous a
          simp only at old
          simp only [old, List.mem_append, List.mem_cons, List.not_mem_nil, or_false, or_and_right, exists_or, exists_eq_left,
            nothing]
          simp
      · rw [if_neg nothing]
        have several : kind.path?.isSome = true ∧ 1 < found := by
          simpa [nothing] using turn.1
        refine ⟨known.documents, told, fun w => ?_, fun a => ?_⟩
        · have old := known.unmatched w
          simp only at old
          simp only [List.mem_append, old, List.mem_cons, List.not_mem_nil, or_false, or_and_right, exists_or, exists_eq_left,
            nothing, and_false]
        · have old := known.ambiguous a
          simp only at old
          have this : a = ⟨written, found⟩ ↔ written = a.entry ∧ found = a.found := by
            obtain ⟨entry, count⟩ := a
            rw [AmbiguousEntry.mk.injEq, @eq_comm _ entry, @eq_comm _ count]
          simp only [List.mem_append, old, List.mem_cons, List.not_mem_nil, or_false, or_and_right, exists_or,
            exists_eq_left, this, several, and_true]
    · rw [if_neg turn]
      apply known.skip
      by_cases noted' : Noted ((written, kind), found)
      · right
        apply again _ noted'
        by_contra new
        exact turn ⟨noted.mp noted', new⟩
      · exact .inl noted'

end MultiGetReport

/-! ### The pattern as a whole -/

section Resolve
variable {newGlob : String → Option (String → Bool)} {db : Db} {collections : List String}
  {entries : List (String × Entry)}

theorem compile_all {globs : List String} (compiles : ∀ pattern ∈ globs, (newGlob pattern).isSome = true) :
    globs.mapM (compileGlob newGlob) = .ok (globs.filterMap newGlob) := by
  induction globs with
  | nil => rfl
  | cons pattern rest later =>
    have first := compiles pattern List.mem_cons_self
    rw [Option.isSome_iff_exists] at first
    obtain ⟨isMatch, compiled⟩ := first
    rw [List.mapM_cons, later fun p inside => compiles p (List.mem_cons_of_mem _ inside), List.filterMap_cons, compileGlob,
      compiled]
    rfl

/-- The entries in as many groups as there are kinds find what they find one by one. -/
theorem mem_merged {d : Document} :
    d ∈ (entries.filterMap fun e => e.2.docid?).filterMap db.getDocumentByDocidPrefix ++
        db.findDocumentsByNeedleBatch collections (distinct (entries.filterMap fun e => e.2.path?)) ++
        (db.listDocumentsMulti collections).filter (fun d =>
          ((entries.filterMap fun e => e.2.glob?).filterMap newGlob).any fun isMatch => isMatch d.filepath) ↔
      ∃ e ∈ entries, d ∈ e.2.found newGlob db collections := by
  simp only [List.mem_append, List.mem_filterMap, List.mem_filter, List.any_eq_true, Db.mem_findDocumentsByNeedleBatch,
    distinct, List.mem_reverse, List.mem_dedup, Prod.exists]
  constructor
  · intro found
    rcases found with (docid | path) | glob
    · obtain ⟨hex, ⟨w, kind, inside, form⟩, row⟩ := docid
      cases kind with
      | docid _ =>
        cases form
        exact ⟨w, _, inside, by rw [Entry.found, row]; exact List.mem_singleton_self d⟩
      | glob _ => cases form
      | path _ => cases form
    · obtain ⟨row, active, chosen, needle, ⟨w, kind, inside, form⟩, hit⟩ := path
      cases kind with
      | docid _ => cases form
      | glob _ => cases form
      | path _ =>
        cases form
        exact ⟨w, _, inside, Db.mem_findDocumentsByNeedleBatch.mpr ⟨row, active, chosen, needle, List.mem_singleton_self _, hit⟩⟩
    · obtain ⟨listed, isMatch, ⟨pattern, ⟨w, kind, inside, form⟩, compiled⟩, hit⟩ := glob
      cases kind with
      | docid _ => cases form
      | glob _ =>
        cases form
        exact ⟨w, _, inside, by simp only [Entry.found, compiled, List.mem_filter]; exact ⟨listed, hit⟩⟩
      | path _ => cases form
  · intro found
    obtain ⟨w, kind, inside, member⟩ := found
    cases kind with
    | docid hex =>
      rw [Entry.found, Option.mem_toList] at member
      exact .inl (.inl ⟨hex, ⟨w, _, inside, rfl⟩, member⟩)
    | glob pattern =>
      cases compiled : newGlob pattern with
      | none =>
        simp only [Entry.found, compiled] at member
        exact absurd member List.not_mem_nil
      | some isMatch =>
        simp only [Entry.found, compiled, List.mem_filter] at member
        exact .inr ⟨member.1, isMatch, ⟨pattern, ⟨w, _, inside, rfl⟩, compiled⟩, member.2⟩
    | path needle =>
      obtain ⟨row, active, chosen, other, same, hit⟩ := Db.mem_findDocumentsByNeedleBatch.mp member
      rw [List.mem_singleton] at same
      exact .inl (.inr ⟨row, active, chosen, needle, ⟨w, _, inside, rfl⟩, same ▸ hit⟩)

theorem Entry.found_stored {entry : Entry} {d : Document} (member : d ∈ entry.found newGlob db collections) :
    d ∈ db.documents := by
  have matched := Entry.mem_found.mp member
  cases entry with
  | docid hex => exact matched.2.1
  | glob pattern => exact matched.1
  | path needle => exact matched.1

/-- Every entry is counted with the documents it finds on its own. -/
theorem Entry.count_eq {entry : Entry} {needles : List String} {listing : List Document}
    (path : ∀ needle, entry = .path needle → needle ∈ needles)
    (glob : ∀ pattern, entry = .glob pattern → listing = db.listDocumentsMulti collections) :
    entry.count newGlob db (db.findDocumentsByNeedleBatch collections needles) listing =
      (entry.found newGlob db collections).length := by
  cases entry with
  | docid hex =>
    rw [count, found]
    cases db.getDocumentByDocidPrefix hex <;> rfl
  | glob pattern =>
    rw [count, found, glob pattern rfl]
    cases newGlob pattern with
    | none => rfl
    | some isMatch => exact List.countP_eq_length_filter
  | path needle => rw [count, NeedleIndex.count_eq, Db.countP_needle (path needle rfl), found]

/-- The call completes, and its report is that of the loop over the counts. -/
theorem resolveEntries_spec
    (few : (distinct (entries.filterMap fun e => e.2.path?)).length ≤ maxDistinctPathEntries)
    (compiles : Compiles newGlob entries) :
    ∃ docs, ListedOnce docs ∧ (∀ d, d ∈ docs ↔ ∃ e ∈ entries, d ∈ e.2.found newGlob db collections) ∧
      resolveEntries newGlob db collections entries =
        .ok ((entries.map fun e => (e, (e.2.found newGlob db collections).length)).foldl MultiGetReport.note
          (⟨docs, [], []⟩, [])).1 := by
  have matchers := @compile_all newGlob (entries.filterMap fun e => e.2.glob?) fun pattern member => by
    obtain ⟨⟨w, kind⟩, inside, form⟩ := List.mem_filterMap.mp member
    cases kind with
    | docid _ => cases form
    | glob p =>
      cases form
      exact compiles _ inside pattern rfl
    | path _ => cases form
  have listing : (if (entries.filterMap fun e => e.2.glob?).isEmpty then [] else db.listDocumentsMulti collections).filter
      (fun d => ((entries.filterMap fun e => e.2.glob?).filterMap newGlob).any fun isMatch => isMatch d.filepath) =
      (db.listDocumentsMulti collections).filter (fun d =>
        ((entries.filterMap fun e => e.2.glob?).filterMap newGlob).any fun isMatch => isMatch d.filepath) := by
    by_cases none : entries.filterMap (fun e => e.2.glob?) = []
    · simp [none]
    · rw [if_neg (by simpa using none)]
  have stored := fun d => (@mem_merged newGlob db collections entries d).mp
  obtain ⟨listed, same⟩ := Db.listed_merged fun d member => by
    obtain ⟨e, _, found⟩ := stored d member
    exact Entry.found_stored found
  have counted : (entries.map fun e => (e, e.2.count newGlob db
      (db.findDocumentsByNeedleBatch collections (distinct (entries.filterMap fun e => e.2.path?)))
      (if (entries.filterMap fun e => e.2.glob?).isEmpty then [] else db.listDocumentsMulti collections))) =
      entries.map fun e => (e, (e.2.found newGlob db collections).length) := by
    apply List.map_congr_left
    intro e inside
    rw [Entry.count_eq]
    · intro needle form
      rw [distinct, List.mem_reverse, List.mem_dedup, List.mem_reverse, List.mem_filterMap]
      exact ⟨e, inside, by rw [form]; rfl⟩
    · intro pattern form
      rw [if_neg]
      intro none
      rw [List.isEmpty_iff, List.filterMap_eq_nil_iff] at none
      have impossible := none e inside
      rw [form] at impossible
      cases impossible
  refine ⟨_, listed, fun d => (same d).trans mem_merged, ?_⟩
  unfold resolveEntries
  rw [if_neg (by omega)]
  dsimp only
  rw [matchers, Db.findDocumentsByNeedles_eq]
  change Except.ok _ = Except.ok _
  rw [listing, counted]

end Resolve

/-! ### What a call reports -/

theorem patternEntries_classify {pattern : String} {e : String × Entry} (member : e ∈ patternEntries pattern) :
    e.2 = Entry.classify e.1.toList := by
  obtain ⟨p, _, rfl⟩ := List.mem_map.mp member
  rw [String.toList_ofList]

/-- An entry is a pattern of its own. -/
theorem patternEntries_alone {pattern : String} {e : String × Entry} (member : e ∈ patternEntries pattern) :
    patternEntries e.1 = [e] := by
  obtain ⟨p, inside, rfl⟩ := List.mem_map.mp member
  obtain ⟨among, filled⟩ := List.mem_filter.mp inside
  obtain ⟨piece, split, rfl⟩ := List.mem_map.mp among
  have plain : ',' ∉ trimmed piece := by
    intro comma
    have part : trimmed piece <:+: piece := (List.rdropWhile_prefix _ _).isInfix.trans (List.dropWhile_suffix _).isInfix
    exact not_mem_of_mem_splitOn split (part.subset comma)
  have again : trimmed (trimmed piece) = trimmed piece := trimMatches_idempotent isWhiteSpace piece
  rw [patternEntries, String.toList_ofList, splitOn_of_not_mem plain, List.map_singleton, again]
  have stays : [trimmed piece].filter (fun p => !p.isEmpty) = [trimmed piece] := List.filter_cons_of_pos filled
  rw [stays]
  rfl

/-- No more needles than entries. -/
theorem distinct_le {pattern : String} {limit : Nat}
    (few : ((patternEntries pattern).map Prod.fst).dedup.length ≤ limit) :
    (distinct ((patternEntries pattern).filterMap fun e => e.2.path?)).length ≤ limit := by
  have within : distinct ((patternEntries pattern).filterMap fun e => e.2.path?) ⊆
      (((patternEntries pattern).map Prod.fst).dedup).filterMap fun w => (Entry.classify w.toList).path? := by
    intro needle member
    rw [distinct, List.mem_reverse, List.mem_dedup, List.mem_reverse, List.mem_filterMap] at member
    obtain ⟨e, inside, form⟩ := member
    rw [List.mem_filterMap]
    refine ⟨e.1, List.mem_dedup.mpr (List.mem_map_of_mem inside), ?_⟩
    rwa [← patternEntries_classify inside]
  have once : (distinct ((patternEntries pattern).filterMap fun e => e.2.path?)).Nodup :=
    List.nodup_reverse.mpr (List.nodup_dedup _)
  exact ((List.subperm_of_subset once within).length_le.trans (List.length_filterMap_le _ _)).trans few

section Report
variable (newGlob : String → Option (String → Bool)) (db : Db) (collections : List String)

/-- The report of a pattern against the entries one by one. -/
structure ReportsExactly (pattern : String) (report : MultiGetReport) : Prop where
  union : ∀ d, d ∈ report.documents ↔
    ∃ e ∈ patternEntries pattern, ∃ own, resolveMultiGetReport newGlob db collections e.1 = .ok own ∧ d ∈ own.documents
  sorted : ListedOnce report.documents
  matched : ∀ e ∈ patternEntries pattern, ∃ own, resolveMultiGetReport newGlob db collections e.1 = .ok own ∧
    ∀ d, d ∈ own.documents ↔ e.2.Matches newGlob db collections d
  unmatched : ∀ w, w ∈ report.unmatched ↔ ∃ e ∈ patternEntries pattern, e.1 = w ∧ ∀ d, ¬ e.2.Matches newGlob db collections d
  ambiguous : ∀ a, a ∈ report.ambiguous ↔ ∃ e ∈ patternEntries pattern, e.1 = a.entry ∧ (∃ needle, e.2 = .path needle) ∧
    ∃ own, resolveMultiGetReport newGlob db collections e.1 = .ok own ∧ own.documents.length = a.found ∧ 1 < a.found

variable {newGlob db collections}

theorem MultiGetReport.foldl_documents (docs : List Document) (entries : List ((String × Entry) × Nat)) :
    (entries.foldl note (⟨docs, [], []⟩, [])).1.documents = docs := by
  have onward : ∀ state : MultiGetReport × List String, (entries.foldl note state).1.documents = state.1.documents := by
    induction entries with
    | nil => exact fun _ => rfl
    | cons entry rest later =>
      intro state
      rw [List.foldl_cons, later, note]
      split
      · split <;> rfl
      · rfl
  exact onward _

/-- On its own an entry is answered with what it finds. -/
theorem resolve_alone {pattern : String} (compiles : Compiles newGlob (patternEntries pattern)) {e : String × Entry}
    (member : e ∈ patternEntries pattern) :
    ∃ own, resolveMultiGetReport newGlob db collections e.1 = .ok own ∧
      own.documents = e.2.found newGlob db collections := by
  have one : Compiles newGlob [e] := by
    intro f inside
    rw [List.mem_singleton.mp inside]
    exact compiles e member
  have few : (distinct ([e].filterMap fun e => e.2.path?)).length ≤ maxDistinctPathEntries := by
    have short : ([e].filterMap fun e => e.2.path?).length ≤ 1 := List.length_filterMap_le _ _
    have fewer := (List.dedup_sublist ([e].filterMap fun e => e.2.path?).reverse).length_le
    rw [List.length_reverse] at fewer
    rw [distinct, List.length_reverse]
    have room : 1 ≤ maxDistinctPathEntries := by decide
    omega
  obtain ⟨docs, listed, same, run⟩ := @resolveEntries_spec newGlob db collections [e] few one
  have docs_eq : docs = e.2.found newGlob db collections := by
    have own : ∀ d, d ∈ docs ↔ d ∈ e.2.found newGlob db collections := by
      intro d
      rw [same]
      simp only [List.mem_singleton, exists_eq_left]
    exact Db.eq_of_listed (fun d inside => Entry.found_stored ((own d).mp inside)) listed (Entry.found_listed e.2) own
  rw [← patternEntries_alone member] at run
  exact ⟨_, run, (MultiGetReport.foldl_documents docs _).trans docs_eq⟩

theorem resolve_reports {pattern : String}
    (few : ((patternEntries pattern).map Prod.fst).dedup.length ≤ maxDistinctPathEntries)
    (compiles : Compiles newGlob (patternEntries pattern)) :
    ∃ report, resolveMultiGetReport newGlob db collections pattern = .ok report ∧
      ReportsExactly newGlob db collections pattern report := by
  obtain ⟨docs, listed, same, run⟩ := @resolveEntries_spec newGlob db collections _ (distinct_le few) compiles
  have consistent : MultiGetReport.Consistent
      ((patternEntries pattern).map fun e => (e, (e.2.found newGlob db collections).length)) := by
    intro a left b right text
    obtain ⟨e, inside, rfl⟩ := List.mem_map.mp left
    obtain ⟨f, among, rfl⟩ := List.mem_map.mp right
    have kind : e.2 = f.2 := by
      rw [patternEntries_classify inside, patternEntries_classify among]
      exact congrArg (fun w : String => Entry.classify w.toList) text
    have whole : e = f := Prod.ext text kind
    rw [whole]
  have tells := MultiGetReport.foldl_note docs consistent
  have alone := fun e member => @resolve_alone newGlob db collections pattern compiles e member
  have count : ∀ e ∈ patternEntries pattern, ∀ n, (e.2.found newGlob db collections).length = n ↔
      ∃ own, resolveMultiGetReport newGlob db collections e.1 = .ok own ∧ own.documents.length = n := by
    intro e member n
    obtain ⟨own, answered, found⟩ := alone e member
    constructor
    · intro size
      exact ⟨own, answered, found ▸ size⟩
    · intro other
      obtain ⟨report, ok, size⟩ := other
      rw [answered] at ok
      cases ok
      rwa [found] at size
  refine ⟨_, run, ⟨fun d => ?_, ?_, fun e member => ?_, fun w => ?_, fun a => ?_⟩⟩
  · rw [tells.documents, same]
    apply exists_congr
    intro e
    apply and_congr_right
    intro member
    obtain ⟨own, answered, found⟩ := alone e member
    constructor
    · intro inside
      exact ⟨own, answered, found ▸ inside⟩
    · intro other
      obtain ⟨report, ok, inside⟩ := other
      rw [answered] at ok
      cases ok
      rwa [found] at inside
  · rw [tells.documents]
    exact listed
  · obtain ⟨own, answered, found⟩ := alone e member
    refine ⟨own, answered, fun d => ?_⟩
    rw [found]
    exact Entry.mem_found
  · rw [tells.unmatched]
    simp only [List.mem_map, exists_exists_and_eq_and]
    apply exists_congr
    intro e
    apply and_congr_right
    intro member
    apply and_congr_right
    intro _
    rw [List.length_eq_zero_iff, List.eq_nil_iff_forall_not_mem]
    exact forall_congr' fun d => not_congr Entry.mem_found
  · rw [tells.ambiguous]
    simp only [List.mem_map, exists_exists_and_eq_and]
    apply exists_congr
    intro e
    apply and_congr_right
    intro member
    apply and_congr_right
    intro _
    have path : e.2.path?.isSome = true ↔ ∃ needle, e.2 = .path needle := by
      cases e.2 <;> simp [Entry.path?]
    have own := count e member a.found
    rw [path]
    constructor
    · intro both
      obtain ⟨size, needle, several⟩ := both
      obtain ⟨report, answered, length⟩ := own.mp size
      exact ⟨needle, report, answered, length, size ▸ several⟩
    · intro both
      obtain ⟨needle, report, answered, length, several⟩ := both
      have size := own.mpr ⟨report, answered, length⟩
      exact ⟨size, needle, size.symm ▸ several⟩

end Report

/-- A pattern whose globs compile is answered with the union of what its entries match, whatever their order; the
report names the entries that match nothing and the path entries that match several documents. The index finds the
documents of the needle clause, and lookups in groups find what one statement finds. -/
theorem multi_get_is_exact {newGlob : String → Option (String → Bool)} {db : Db} {collections : List String}
    {pattern : String} (few : ((patternEntries pattern).map Prod.fst).dedup.length ≤ maxDistinctPathEntries)
    (compiles : Compiles newGlob (patternEntries pattern)) :
    (∃ report, resolveMultiGetReport newGlob db collections pattern = .ok report ∧
      ReportsExactly newGlob db collections pattern report ∧
      ∀ other, (patternEntries other).Perm (patternEntries pattern) →
        ∃ again, resolveMultiGetReport newGlob db collections other = .ok again ∧ again.documents = report.documents) ∧
    (∀ docs needle, (NeedleIndex.new docs).hits needle =
      (docs.zipIdx.filter fun p => Db.needleClause needle p.1).map Prod.snd) ∧
    ∀ needles, db.findDocumentsByNeedles collections needles = db.findDocumentsByNeedleBatch collections needles := by
  obtain ⟨report, run, exactly⟩ := @resolve_reports newGlob db collections pattern few compiles
  refine ⟨⟨report, run, exactly, fun other shuffled => ?_⟩, NeedleIndex.hits_eq, Db.findDocumentsByNeedles_eq⟩
  have still : ((patternEntries other).map Prod.fst).dedup.length ≤ maxDistinctPathEntries := by
    rwa [((shuffled.map Prod.fst).dedup).length_eq]
  obtain ⟨again, rerun, same⟩ := @resolve_reports newGlob db collections other still fun e member =>
    compiles e (shuffled.mem_iff.mp member)
  have one : ∀ d, d ∈ again.documents ↔ d ∈ report.documents := by
    intro d
    rw [same.union, exactly.union]
    exact exists_congr fun e => and_congr_left fun _ => shuffled.mem_iff
  have stored : ∀ d ∈ again.documents, d ∈ db.documents := by
    intro d member
    obtain ⟨e, inside, own, answered, among⟩ := (same.union d).mp member
    obtain ⟨own', answered', matched⟩ := same.matched e inside
    rw [answered] at answered'
    cases answered'
    exact Entry.found_stored (Entry.mem_found.mpr ((matched d).mp among))
  exact ⟨again, rerun, Db.eq_of_listed stored same.sorted exactly.sorted one⟩

/-- The one glob that is compiled here matches everything. -/
def starGlob (pattern : String) : Option (String → Bool) := if pattern = "*" then some fun _ => true else none

theorem twins_are_resolved :
    ∃ report, resolveMultiGetReport starGlob twinDisk.db [] "*, A.md" = .ok report ∧
      ReportsExactly starGlob twinDisk.db [] "*, A.md" report := by
  have entries : patternEntries "*, A.md" = [("*", .glob "*"), ("A.md", .path "A.md")] := by decide +kernel
  obtain ⟨⟨report, run, exactly, _⟩, _⟩ := @multi_get_is_exact starGlob twinDisk.db [] "*, A.md"
    (by rw [entries]; decide) fun e member pattern form => by
      rw [entries] at member
      rcases List.mem_cons.mp member with rfl | path
      · cases form
        rfl
      · rw [List.mem_singleton.mp path] at form
        cases form
  exact ⟨report, run, exactly⟩

/-- A glob that matches two documents is not reported as ambiguous. -/
theorem glob_is_not_ambiguous :
    ¬ ∀ report, resolveMultiGetReport starGlob twinDisk.db [] "*" = .ok report → ∀ e ∈ patternEntries "*",
      (e.1 ∈ report.ambiguous.map AmbiguousEntry.entry ↔
        ∃ own, resolveMultiGetReport starGlob twinDisk.db [] e.1 = .ok own ∧ 1 < own.documents.length) := by
  intro every
  have entries : patternEntries "*" = [("*", .glob "*")] := by decide +kernel
  have read : ((resolveMultiGetReport starGlob twinDisk.db [] "*").toOption.map fun report =>
      (report.documents.length, report.ambiguous)) = some (2, []) := by decide +kernel
  cases run : resolveMultiGetReport starGlob twinDisk.db [] "*" with
  | error e =>
    rw [run] at read
    cases read
  | ok report =>
    rw [run] at read
    simp only [Except.toOption, Option.map_some, Option.some.injEq, Prod.mk.injEq] at read
    have named := (every report run ("*", .glob "*") (by rw [entries]; exact List.mem_singleton_self _)).mpr
      ⟨report, run, by omega⟩
    rw [read.2] at named
    exact absurd named List.not_mem_nil

end Rqmd
