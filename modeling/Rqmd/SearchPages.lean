import Mathlib.Algebra.Order.Ring.Rat
import Mathlib.Data.Prod.Lex
import Mathlib.Data.String.Basic
import Rqmd.Lib.Paging
import Rqmd.Scope

/-! The pages of the server's `search` tool. Each page searches anew, for as many results as it needs and one
more, and cuts its own part out. -/

namespace Rqmd
open Interrupt Paging Text

def maxSearchLimit : Nat := 1000

def clampLimit (limit : Option Nat) (default : Nat) : Nat := max 1 (min (limit.getD default) maxSearchLimit)

def clampOffset (offset : Option Nat) : Nat := min (offset.getD 0) maxSearchLimit

def fetchLen (offset limit : Nat) : Nat := min (offset + limit + 1) maxSearchLimit

def pageOf {α : Type} (ranked : List α) (offset limit : Nat) : List α × Bool :=
  (if ranked.length ≤ offset then [] else (ranked.drop offset).take limit, decide (offset + limit < ranked.length))

/-- The offset that `format_results` tells to pass for more. -/
def moreOffset {α : Type} (results : List α) (offset : Nat) (hasMore : Bool) : Option Nat :=
  if results.isEmpty then none else if hasMore then some (offset + results.length) else none

structure SearchInput where
  query : String
  collections : Requested
  limit : Option Nat
  offset : Option Nat
  perFile : Option Nat

def SearchInput.sectionsPerFile (p : SearchInput) : Nat := clampPerFile (p.perFile.getD 1)

variable {V S : Type} [Score S]

/-- `search_blocking` without a refresh and without recency. -/
def searchBlocking (engine : Engine V S) (s : Store V) (p : SearchInput) : Except Failure (Page (SearchResult S)) := do
  let limit := clampLimit p.limit 10
  let offset := clampOffset p.offset
  let results ← withContext "Error running search" (searchFtsMultiWith engine s p.query (fetchLen offset limit) p.collections
    ⟨p.sectionsPerFile, none⟩)
  let page := pageOf results offset limit
  pure ⟨page.1, moreOffset page.1 offset page.2⟩

/-! ### What the pages are cut from -/

/-- The entries that match a query, best first: the order every cut is a front of. -/
def fixedOrder (engine : Engine V S) (s : Store V) (p : SearchInput) : List (FtsEntry × S) :=
  let scope := effectiveCollections s.db p.collections
  let allowed := match scope with
    | some (c :: cs) => some (s.db.activeDocumentIdsInCollections (c :: cs))
    | _ => none
  match engine.bm25 s.fts.committed p.query with
  | .error _ => []
  | .ok score =>
    if scope = some [] then []
    else
      (s.fts.committed.zipIdx.filterMap fun (e, i) =>
        if (allowed.map fun ids => ids.contains e.docId).getD true then (score i).map fun s => (e, s) else none).insertionSort
        higher

/-- The score a hit is given. -/
def shownScore (score : S) : S := score / (Score.literal 1 + score)

/-- The row an entry is resolved to, if it is in scope and has one. -/
def entryDocument (s : Store V) (p : SearchInput) (entry : FtsEntry × S) : Option (Document × S) :=
  let inside := match effectiveCollections s.db p.collections with
    | some (c :: cs) => inScope (c :: cs) entry.1.filepath
    | _ => true
  if inside then (s.db.getDocumentById entry.1.docId).map fun d => (d, shownScore entry.2) else none

/-- The sections an entry adds to a ranking, each with its document. -/
def entrySections (engine : Engine V S) (s : Store V) (p : SearchInput) (entry : FtsEntry × S) : List (Document × Pick S) :=
  match entryDocument s p entry with
  | some found => (hitPicks engine p.query p.sectionsPerFile found 0).map fun pick => (found.1, pick)
  | none => []

/-- How sections are ranked: one of a file in the order of the entries, several by score and path. -/
def ranksBefore (perFile : Nat) (a b : Document × Pick S) : Prop := perFile = 1 ∨ a.2.before b.2

instance (perFile : Nat) : DecidableRel (ranksBefore (S := S) perFile) := fun _ _ => inferInstanceAs (Decidable (_ ∨ _))

/-- The entries of a fetch hold as many sections as are fetched, and what later entries add stands behind all
of these but one. -/
def PagesSettle (engine : Engine V S) (s : Store V) (p : SearchInput) : Prop :=
  Filled (ranksBefore p.sectionsPerFile) ((fixedOrder engine s p).map (entrySections engine s p)) maxSearchLimit

/-- `partial_cmp` compares these scores as the numbers they are; none is NaN. -/
def ComparedAsNumbers (scores : List S) : Prop :=
  ∃ value : S → Rat, ∀ a ∈ scores, ∀ b ∈ scores, Score.partialCmp a b = some (compare (value a) (value b))

/-! ### The sections of a file differ -/

section Sections

/-- How a chunk that was taken narrows what another one does not cover. -/
def coverStep (chunk : Chunk) (cover : Nat × Nat) (other : Chunk) : Nat × Nat :=
  let length := byteLength chunk.text.toList
  let otherEnd := other.pos + byteLength other.text.toList
  if other.pos ≤ chunk.pos ∧ chunk.pos < otherEnd then (max cover.1 (min (otherEnd - chunk.pos) length), cover.2)
  else if chunk.pos < other.pos ∧ other.pos < chunk.pos + length then (cover.1, min cover.2 (other.pos - chunk.pos))
  else cover

theorem coverStep_bounds {chunk : Chunk} {cover : Nat × Nat} (other : Chunk)
    (bounds : cover.1 ≤ byteLength chunk.text.toList ∧ cover.2 ≤ byteLength chunk.text.toList) :
    cover.1 ≤ (coverStep chunk cover other).1 ∧ (coverStep chunk cover other).1 ≤ byteLength chunk.text.toList ∧
      (coverStep chunk cover other).2 ≤ byteLength chunk.text.toList := by
  unfold coverStep
  dsimp only
  split
  · dsimp only
    omega
  · split
    · dsimp only
      omega
    · omega

theorem coverFold_bounds {chunk : Chunk} (taken : List Chunk) {cover : Nat × Nat}
    (bounds : cover.1 ≤ byteLength chunk.text.toList ∧ cover.2 ≤ byteLength chunk.text.toList) :
    cover.1 ≤ (taken.foldl (coverStep chunk) cover).1 ∧
      (taken.foldl (coverStep chunk) cover).1 ≤ byteLength chunk.text.toList ∧
      (taken.foldl (coverStep chunk) cover).2 ≤ byteLength chunk.text.toList := by
  induction taken generalizing cover with
  | nil => exact ⟨le_rfl, bounds⟩
  | cons other rest ih =>
    have step := coverStep_bounds other bounds
    have later := ih step.2
    exact ⟨step.1.trans later.1, later.2⟩

/-- A chunk that was taken covers one like it. -/
theorem cover_full {chunk : Chunk} (some : 0 < byteLength chunk.text.toList) {taken : List Chunk} (member : chunk ∈ taken)
    {cover : Nat × Nat} (bounds : cover.1 ≤ byteLength chunk.text.toList ∧ cover.2 ≤ byteLength chunk.text.toList) :
    (taken.foldl (coverStep chunk) cover).1 = byteLength chunk.text.toList ∧
      (taken.foldl (coverStep chunk) cover).2 ≤ byteLength chunk.text.toList := by
  induction taken generalizing cover with
  | nil => cases member
  | cons other rest ih =>
    rw [List.foldl_cons]
    have step := coverStep_bounds other bounds
    rcases List.mem_cons.mp member with same | inside
    · have whole : (coverStep chunk cover other).1 = byteLength chunk.text.toList := by
        rw [← same, coverStep, if_pos ⟨le_rfl, by omega⟩]
        dsimp only
        omega
      have later := coverFold_bounds rest step.2
      omega
    · exact ih inside step.2

theorem uncoveredText_taken {chunk : Chunk} {taken : List Chunk} (member : chunk ∈ taken) :
    uncoveredText chunk taken = [] := by
  have unfolded : uncoveredText chunk taken =
      (let text := chunk.text.toList
       let cover := taken.foldl (coverStep chunk) (0, byteLength text)
       let stop := max cover.2 cover.1
       if isCharBoundary text cover.1 && isCharBoundary text stop then slice text cover.1 stop else text) := rfl
  rw [unfolded]
  dsimp only
  by_cases some : 0 < byteLength chunk.text.toList
  · have full := cover_full some member (show (0, byteLength chunk.text.toList).1 ≤ _ ∧ (0, byteLength chunk.text.toList).2 ≤ _
      from ⟨Nat.zero_le _, le_rfl⟩)
    rw [full.1, Nat.max_eq_right full.2, isCharBoundary_length, Bool.and_true, if_pos rfl, slice, Nat.sub_self]
    exact List.eq_nil_of_length_eq_zero (by
      have short := byteLength_takeBytes_le 0 (dropBytes (byteLength chunk.text.toList) chunk.text.toList)
      by_contra long
      have shown := byteLength_pos (fun empty => long (by rw [empty]; rfl) :
        takeBytes 0 (dropBytes (byteLength chunk.text.toList) chunk.text.toList) ≠ [])
      omega)
  · have empty : chunk.text.toList = [] := by
      by_contra long
      exact some (byteLength_pos long)
    rw [empty]
    simp [slice, dropBytes, takeBytes]

/-- A chunk is not picked twice: nothing of it would be new. -/
theorem pickChunks_nodup {lowercase : String → String} (empty : lowercase "" = "") {terms : List String}
    (words : ∀ t ∈ terms, t ≠ "") {n : Nat} {scored : List ScoredChunk} {picked : List Chunk} (distinct : picked.Nodup) :
    (pickChunks lowercase terms n scored picked).Nodup := by
  induction scored generalizing picked with
  | nil => exact distinct
  | cons head rest ih =>
    rw [pickChunks]
    split
    · exact distinct
    · dsimp only
      split
      · next fresh =>
        apply ih
        rw [List.nodup_append]
        refine ⟨distinct, List.nodup_singleton _, fun a member b last same => ?_⟩
        have twice : head.chunk ∈ picked := by
          rw [← List.mem_singleton.mp last, ← same]
          exact member
        rcases fresh with none | found
        · rw [none] at twice
          cases twice
        · rw [uncoveredText_taken twice, String.ofList_nil, empty] at found
          obtain ⟨t, term, occurs⟩ := List.any_eq_true.mp found
          have word : t.toList ≠ [] := fun nothing => words t term (String.toList_injective (by simpa using nothing))
          cases letters : t.toList with
          | nil => exact word letters
          | cons c cs => simp [occursIn, letters] at occurs
      · exact ih distinct

theorem keywordTerms_words {S : Type} (engine : Engine V S) (query : String) : ∀ t ∈ keywordTerms engine query, t ≠ "" := by
  intro t member empty
  obtain ⟨word, inside, long⟩ := List.mem_filterMap.mp member
  split at long
  · next size =>
    have same : String.ofList word = "" := (Option.some.inj long).trans empty
    have none : word = [] := by simpa using congrArg String.toList same
    rw [none] at size
    simp at size
  · cases long

/-- The sections picked of a file differ in their text or their place. -/
theorem bestChunks_nodup {S : Type} {engine : Engine V S} (empty : engine.lowercase "" = "") (filepath body query : String) (n : Nat) :
    (bestChunks engine filepath body (keywordTerms engine query) n).Nodup := by
  unfold bestChunks
  split
  · exact List.nodup_singleton _
  · split
    · exact List.nodup_singleton _
    · dsimp only
      apply List.Nodup.map
      · intro a b same
        cases a
        cases b
        simp_all
      · exact pickChunks_nodup empty (keywordTerms_words engine query) List.nodup_nil

/-- One section is picked of every file where one is asked for. -/
theorem bestChunks_one {S : Type} (engine : Engine V S) (filepath body : String) (terms : List String) :
    (bestChunks engine filepath body terms 1).length = 1 := by
  unfold bestChunks
  split
  · rfl
  · next first rest _ =>
    split
    · rfl
    · dsimp only
      rw [List.length_map]
      generalize ranked : List.insertionSort ScoredChunk.before _ = scored
      cases scored with
      | nil =>
        have size := congrArg List.length ranked
        rw [List.length_insertionSort] at size
        simp at size
      | cons head others =>
        have one : pickChunks engine.lowercase terms 1 (head :: others) [] =
            pickChunks engine.lowercase terms 1 others [head.chunk] := by
          simp [pickChunks]
        rw [one]
        cases others with
        | nil => rfl
        | cons next others => simp [pickChunks]

end Sections

/-! ### A page is a cut -/

section Cuts

variable {engine : Engine V S} {s : Store V} {p : SearchInput}

theorem clampLimit_bounds (limit : Option Nat) : 1 ≤ clampLimit limit 10 ∧ clampLimit limit 10 ≤ maxSearchLimit := by
  unfold clampLimit maxSearchLimit
  omega

theorem clampLimit_some {limit : Nat} (some : 1 ≤ limit) (inside : limit ≤ maxSearchLimit) :
    clampLimit (.some limit) 10 = limit := by
  unfold clampLimit
  rw [Option.getD_some, Nat.min_eq_left inside, Nat.max_eq_right some]

theorem clampPerFile_clamp (n : Nat) : clampPerFile (clampPerFile n) = clampPerFile n := by
  unfold clampPerFile maxPerFile
  omega

theorem page_eq_cut {α : Type} (ranked : List α) (offset limit : Nat) :
    (⟨(pageOf ranked offset limit).1, moreOffset (pageOf ranked offset limit).1 offset (pageOf ranked offset limit).2⟩ : Page α) =
      cut ranked offset limit := by
  have shown : (pageOf ranked offset limit).1 = (ranked.drop offset).take limit := by
    unfold pageOf
    split
    · next past => rw [List.drop_of_length_le past, List.take_nil]
    · rfl
  rw [shown, cut, moreOffset, pageOf]
  congr 1
  by_cases empty : (ranked.drop offset).take limit = []
  · simp [empty]
  · simp [empty]

/-- The hits of a fetch: the front of the fixed order, without the entries outside the scope. -/
theorem ftsScoped_eq {score : Nat → Option S} (scored : engine.bm25 s.fts.committed p.query = .ok score)
    (scope : effectiveCollections s.db p.collections ≠ some []) {limit : Nat} (some : limit ≠ 0) :
    ∃ inside : FtsEntry × S → Bool,
      (∀ entry, entryDocument s p entry =
        if inside entry then (s.db.getDocumentById entry.1.docId).map fun d => (d, shownScore entry.2) else none) ∧
      ftsScoped engine s p.query limit (effectiveCollections s.db p.collections) =
        .ok ((((fixedOrder engine s p).take limit).filter inside).map fun entry =>
          ⟨entry.1.filepath, entry.1.docId, shownScore entry.2⟩) := by
  refine ⟨fun entry => match effectiveCollections s.db p.collections with
    | .some (c :: cs) => inScope (c :: cs) entry.1.filepath
    | _ => true, fun entry => rfl, ?_⟩
  unfold ftsScoped searchFtsScoped fixedOrder
  simp only [scored, if_neg some, if_neg scope]
  rfl

/-- The documents a fetch leads to. -/
def fetchedDocuments (engine : Engine V S) (s : Store V) (p : SearchInput) (limit : Nat) : List (Document × S) :=
  ((fixedOrder engine s p).take limit).filterMap (entryDocument s p)

/-- The sections of a document that was found. -/
def documentSections (engine : Engine V S) (p : SearchInput) (found : Document × S) : List (Document × Pick S) :=
  (hitPicks engine p.query p.sectionsPerFile found 0).map fun pick => (found.1, pick)

/-- What a section is shown as. -/
def shownSectionOf (s : Store V) (p : SearchInput) (found : Document × Pick S) : SearchResult S :=
  if p.sectionsPerFile = 1 then resultFromDoc s.db found.1 found.2.score
  else pickToResult s.db (.ofDocument found.1) found.2

theorem sources_eq (limit : Nat) :
    (((fixedOrder engine s p).map (entrySections engine s p)).take limit).flatten =
      (fetchedDocuments engine s p limit).flatMap (documentSections engine p) := by
  rw [← List.map_take, fetchedDocuments]
  generalize (fixedOrder engine s p).take limit = entries
  induction entries with
  | nil => rfl
  | cons entry rest ih =>
    rw [List.map_cons, List.flatten_cons, ih]
    cases found : entryDocument s p entry with
    | none => simp [entrySections, found]
    | some document => simp [entrySections, found, documentSections]

theorem hitDocuments_eq {score : Nat → Option S} (scored : engine.bm25 s.fts.committed p.query = .ok score)
    (scope : effectiveCollections s.db p.collections ≠ some []) {limit : Nat} (some : limit ≠ 0) :
    ∃ hits, ftsScoped engine s p.query limit (effectiveCollections s.db p.collections) = .ok hits ∧
      hitDocuments s.db (hits.take limit) = fetchedDocuments engine s p limit := by
  obtain ⟨inside, resolved, found⟩ := ftsScoped_eq scored scope some
  refine ⟨_, found, ?_⟩
  have short : (((fixedOrder engine s p).take limit).filter inside).length ≤ limit :=
    (List.length_filter_le _ _).trans (List.length_take_le _ _)
  rw [List.take_of_length_le (by rw [List.length_map]; exact short), hitDocuments, fetchedDocuments]
  generalize (fixedOrder engine s p).take limit = entries
  induction entries with
  | nil => rfl
  | cons entry rest ih =>
    rw [List.filterMap_cons, resolved entry]
    cases kept : inside entry with
    | false => simpa [kept] using ih
    | true => cases row : s.db.getDocumentById entry.1.docId <;> simpa [kept, row] using ih

theorem hitsToResults_eq {S : Type} {hits : List (FtsHit S)} {limit : Nat} {db : Db} :
    hitsToResults db hits limit = (hitDocuments db (hits.take limit)).map fun found => resultFromDoc db found.1 found.2 := by
  rw [hitsToResults, hitDocuments, List.map_filterMap]
  congr 1
  funext hit
  cases db.getDocumentById hit.docId <;> rfl

/-- Ranking sections by their documents' places comes to ranking them without. -/
theorem hitsToSections_eq {hits : List (FtsHit S)} {limit : Nat} (several : p.sectionsPerFile ≠ 1) :
    hitsToSections engine s.db hits p.query limit p.sectionsPerFile =
      ((((hitDocuments s.db (hits.take limit)).flatMap (documentSections engine p)).insertionSort
        (ranksBefore p.sectionsPerFile)).take limit).map (shownSectionOf s p) := by
  unfold hitsToSections
  dsimp only
  generalize hitDocuments s.db (hits.take limit) = docs
  let placed : List (Document × Pick S) := docs.zipIdx.flatMap fun found =>
    (hitPicks engine p.query p.sectionsPerFile found.1 found.2).map fun pick => (found.1.1, pick)
  let plain : Document × Pick S → Document × Pick S := fun found => (found.1, { found.2 with doc := 0 })
  have picks : placed.map Prod.snd =
      docs.zipIdx.flatMap fun found => hitPicks engine p.query p.sectionsPerFile found.1 found.2 := by
    simp [placed, List.map_flatMap, Function.comp_def]
  have reset : placed.map plain = docs.flatMap (documentSections engine p) := by
    have each : ∀ found : (Document × S) × Nat, ((hitPicks engine p.query p.sectionsPerFile found.1 found.2).map
        fun pick => (found.1.1, pick)).map plain = documentSections engine p found.1 := by
      intro found
      simp [documentSections, hitPicks, plain, Function.comp_def]
    simp only [placed, List.map_flatMap, each]
    rw [← List.flatMap_map (f := Prod.fst), List.zipIdx_map_fst]
  have here : ∀ found ∈ placed, (docs.map fun found => PickDoc.ofDocument found.1)[found.2.doc]? =
      some (.ofDocument found.1) := by
    intro found member
    obtain ⟨indexed, inside, picked⟩ := List.mem_flatMap.mp member
    obtain ⟨pick, chosen, same⟩ := List.mem_map.mp picked
    rw [← same, (mem_hitPicks chosen).2, List.getElem?_map, List.mem_zipIdx_iff_getElem?.mp inside]
    rfl
  have byPick : (placed.insertionSort (ranksBefore p.sectionsPerFile)).map Prod.snd =
      (placed.map Prod.snd).insertionSort Pick.before := by
    apply List.map_insertionSort
    intro a _ b _
    simp [ranksBefore, several]
  have byPlain : (placed.insertionSort (ranksBefore p.sectionsPerFile)).map plain =
      (placed.map plain).insertionSort (ranksBefore p.sectionsPerFile) := by
    apply List.map_insertionSort
    intro a _ b _
    rfl
  have ranked : rankPicks (placed.map Prod.snd) limit =
      ((placed.insertionSort (ranksBefore p.sectionsPerFile)).take limit).map Prod.snd := by
    rw [rankPicks, ← byPick, List.map_take]
  rw [← picks, ranked, ← reset, ← byPlain, ← List.map_take, picksToResults, List.filterMap_map, List.map_map]
  apply List.filterMap_eq_map_iff_forall_eq_some.mpr
  intro found member
  have inside := here found ((List.mem_insertionSort _).mp (List.mem_of_mem_take member))
  simp only [Function.comp_apply, inside, Option.map_some, shownSectionOf, if_neg several]
  rfl

/-- A search is the ranking of the sections its fetch leads to. -/
theorem search_eq {score : Nat → Option S} (scored : engine.bm25 s.fts.committed p.query = .ok score)
    (scope : effectiveCollections s.db p.collections ≠ some []) {limit : Nat} (some : limit ≠ 0) :
    searchFtsMultiWith engine s p.query limit p.collections ⟨p.sectionsPerFile, none⟩ =
      .ok (rankedFrom (ranksBefore p.sectionsPerFile) (shownSectionOf s p)
        ((fixedOrder engine s p).map (entrySections engine s p)) limit) := by
  obtain ⟨hits, found, documents⟩ := hitDocuments_eq scored scope some
  have clamped : clampPerFile p.sectionsPerFile = p.sectionsPerFile := clampPerFile_clamp _
  unfold searchFtsMultiWith ftsHits
  simp only [if_neg scope, found, clamped]
  rw [rankedFrom, sources_eq]
  by_cases one : p.sectionsPerFile = 1
  · have inOrder : ∀ l : List (Document × Pick S), l.insertionSort (ranksBefore p.sectionsPerFile) = l := by
      intro l
      apply List.Pairwise.insertionSort_eq
      exact List.pairwise_of_forall fun _ _ => .inl one
    have single : ∀ found : Document × S, ∃ pick : Pick S, documentSections engine p found = [(found.1, pick)] ∧
        pick.score = found.2 := by
      intro found
      obtain ⟨chunk, alone⟩ := List.length_eq_one_iff.mp
        (bestChunks_one engine found.1.filepath found.1.raw (keywordTerms engine p.query))
      refine ⟨⟨found.1.filepath, 0, 0, found.2, chunk⟩, ?_, rfl⟩
      rw [documentSections, hitPicks, one, alone]
      rfl
    have shown : ∀ docs : List (Document × S), (docs.flatMap (documentSections engine p)).map (shownSectionOf s p) =
        docs.map fun found => resultFromDoc s.db found.1 found.2 := by
      intro docs
      induction docs with
      | nil => rfl
      | cons found rest ih =>
        obtain ⟨pick, alone, same⟩ := single found
        rw [List.flatMap_cons, alone, List.cons_append, List.nil_append, List.map_cons, ih, List.map_cons, shownSectionOf,
          if_pos one, same]
    have fits : (fetchedDocuments engine s p limit).length ≤ limit :=
      (List.length_filterMap_le _ _).trans (List.length_take_le _ _)
    rw [inOrder, List.map_take, shown, List.take_of_length_le (by rw [List.length_map]; exact fits)]
    simp only [if_pos one, pure, Except.pure, hitsToResults_eq, documents, bind, Except.bind]
  · simp only [if_neg one, pure, Except.pure, hitsToSections_eq one, documents, bind, Except.bind]

/-- A page of a search is a cut of its ranking. -/
theorem searchBlocking_eq {score : Nat → Option S} (scored : engine.bm25 s.fts.committed p.query = .ok score)
    (scope : effectiveCollections s.db p.collections ≠ some []) :
    searchBlocking engine s p = .ok (cut (rankedFrom (ranksBefore p.sectionsPerFile) (shownSectionOf s p)
      ((fixedOrder engine s p).map (entrySections engine s p))
        (reach maxSearchLimit (clampOffset p.offset) (clampLimit p.limit 10))) (clampOffset p.offset) (clampLimit p.limit 10)) := by
  have some : fetchLen (clampOffset p.offset) (clampLimit p.limit 10) ≠ 0 := by
    have bounds := clampLimit_bounds p.limit
    unfold fetchLen maxSearchLimit
    omega
  unfold searchBlocking
  simp only [search_eq scored scope some, withContext, Except.mapError, bind, Except.bind, pure, Except.pure, page_eq_cut]
  rfl

end Cuts

/-! ### The order of sections -/

section Order

/-- What sections are ranked by, when scores are numbers. -/
def rankKey {S : Type} (value : S → Rat) (pick : Pick S) : Ratᵒᵈ ×ₗ String ×ₗ Nat :=
  toLex (OrderDual.toDual (value pick.score), toLex (pick.filepath, pick.rank))

def keyBefore {S : Type} (perFile : Nat) (value : S → Rat) (a b : Document × Pick S) : Prop :=
  perFile = 1 ∨ rankKey value a.2 ≤ rankKey value b.2

variable {value : S → Rat}

instance {S : Type} (perFile : Nat) (value : S → Rat) : DecidableRel (keyBefore perFile value) :=
  fun _ _ => inferInstanceAs (Decidable (_ ∨ _))

instance {S : Type} (perFile : Nat) (value : S → Rat) : Std.Total (keyBefore perFile value) :=
  ⟨fun a b => (le_total (rankKey value a.2) (rankKey value b.2)).imp .inr .inr⟩

instance {S : Type} (perFile : Nat) (value : S → Rat) : IsTrans (Document × Pick S) (keyBefore perFile value) where
  trans a b c first last := by
    rcases first with one | near
    · exact .inl one
    · exact last.imp id near.trans

/-- Among equal scores the path decides, and then the rank. -/
theorem path_then_rank {left right : String} {m n : Nat} :
    (compare left right).then (compare m n) ≠ .gt ↔ toLex (left, m) ≤ toLex (right, n) := by
  rw [Prod.Lex.toLex_le_toLex]
  rcases lt_trichotomy left right with below | equal | above
  · simp [compare_lt_iff_lt.mpr below, below, Ordering.then]
  · simp [equal, Ordering.then, compare_le_iff_le]
  · simp [compare_gt_iff_gt.mpr above, above.not_gt, above.ne', Ordering.then]

theorem before_compared {L : Type} [LinearOrder L] {a b : Pick S} {x y : L}
    (compared : Score.partialCmp b.score a.score = some (compare y x)) :
    a.before b ↔ y < x ∨ x = y ∧ toLex (a.filepath, a.rank) ≤ toLex (b.filepath, b.rank) := by
  rw [← path_then_rank]
  unfold Pick.before scoreDescThenPath
  rw [compared, Option.getD_some]
  rcases lt_trichotomy y x with less | same | more
  · simp [compare_lt_iff_lt.mpr less, less, Ordering.then]
  · simp [same, Ordering.then]
  · simp [compare_gt_iff_gt.mpr more, more.not_gt, more.ne, Ordering.then]

theorem before_iff_key {a b : Pick S}
    (numbers : Score.partialCmp b.score a.score = some (compare (value b.score) (value a.score))) :
    a.before b ↔ rankKey value a ≤ rankKey value b := by
  rw [before_compared numbers]
  unfold rankKey
  exact (Prod.Lex.toLex_le_toLex
    (x := (OrderDual.toDual (value a.score), toLex (a.filepath, a.rank)))
    (y := (OrderDual.toDual (value b.score), toLex (b.filepath, b.rank)))).symm

variable {engine : Engine V S} {s : Store V} {p : SearchInput}

theorem mem_documentSections {S : Type} {engine : Engine V S} {p : SearchInput} {found : Document × S}
    {a : Document × Pick S} (member : a ∈ documentSections engine p found) :
    a.1 = found.1 ∧ a.2.filepath = found.1.filepath ∧ a.2.score = found.2 ∧
      (bestChunks engine found.1.filepath found.1.raw (keywordTerms engine p.query) p.sectionsPerFile)[a.2.rank]? =
        some a.2.chunk := by
  obtain ⟨pick, chosen, rfl⟩ := List.mem_map.mp member
  obtain ⟨indexed, inside, rfl⟩ := List.mem_map.mp chosen
  exact ⟨rfl, rfl, rfl, List.mem_zipIdx_iff_getElem?.mp inside⟩

/-- A section among the sources is one of a row that an entry of the order led to. -/
theorem mem_sources {a : Document × Pick S}
    (member : a ∈ ((fixedOrder engine s p).map (entrySections engine s p)).flatten) :
    ∃ entry ∈ fixedOrder engine s p, a.1 ∈ s.db.documents ∧
      a ∈ documentSections engine p (a.1, shownScore entry.2) := by
  obtain ⟨source, held, inside⟩ := List.mem_flatten.mp member
  obtain ⟨entry, listed, rfl⟩ := List.mem_map.mp held
  unfold entrySections at inside
  split at inside
  · next found resolved =>
    have row : (s.db.getDocumentById entry.1.docId).map (fun d => (d, shownScore entry.2)) = some found := by
      unfold entryDocument at resolved
      dsimp only at resolved
      generalize (match effectiveCollections s.db p.collections with
        | some (c :: cs) => inScope (c :: cs) entry.1.filepath
        | _ => true) = kept at resolved
      cases kept with
      | true => exact resolved
      | false => cases resolved
    obtain ⟨d, looked, rfl⟩ := Option.map_eq_some_iff.mp row
    have same : a.1 = d := (mem_documentSections inside).1
    refine ⟨entry, listed, same ▸ (Db.getDocumentById_iff.mp looked).1, ?_⟩
    rw [same]
    exact inside
  · cases inside

/-- Sections that are shown alike are ranked alike. -/
theorem shown_alike (lower : engine.lowercase "" = "") {a b : Document × Pick S}
    (left : a ∈ ((fixedOrder engine s p).map (entrySections engine s p)).flatten)
    (right : b ∈ ((fixedOrder engine s p).map (entrySections engine s p)).flatten)
    (alike : shownSectionOf s p a = shownSectionOf s p b) : keyBefore p.sectionsPerFile value a b := by
  by_cases one : p.sectionsPerFile = 1
  · exact .inl one
  · obtain ⟨first, _, rowA, pickedA⟩ := mem_sources left
    obtain ⟨second, _, rowB, pickedB⟩ := mem_sources right
    obtain ⟨_, pathA, scoreA, chunkA⟩ := mem_documentSections pickedA
    obtain ⟨_, pathB, scoreB, chunkB⟩ := mem_documentSections pickedB
    rw [shownSectionOf, shownSectionOf, if_neg one, if_neg one] at alike
    have paths : a.2.filepath = b.2.filepath := by
      have files := congrArg SearchResult.filepath alike
      rwa [pickToResult_filepath, pickToResult_filepath] at files
    have scores : a.2.score = b.2.score := congrArg SearchResult.score alike
    have chunks : a.2.chunk = b.2.chunk :=
      Prod.ext (congrArg SearchResult.bestChunk alike) (congrArg SearchResult.bestChunkPos alike)
    have document : a.1 = b.1 := by
      have here := filepathToDoc_filepath rowA
      have there := filepathToDoc_filepath rowB
      have same : a.1.filepath = b.1.filepath := pathA.symm.trans (paths.trans pathB)
      rw [same, there] at here
      exact (Option.some.inj here).symm
    have ranks : a.2.rank = b.2.rank := by
      dsimp only at chunkA chunkB
      rw [document, chunks] at chunkA
      have distinct := bestChunks_nodup lower b.1.filepath b.1.raw p.query p.sectionsPerFile
      have inside := (List.getElem?_eq_some_iff.mp chunkA).1
      exact (List.getElem?_inj inside distinct).mp (chunkA.trans chunkB.symm)
    refine .inr (le_of_eq ?_)
    rw [rankKey, rankKey, paths, scores, ranks]

end Order

/-! ### Paging -/

/-- Following the pages of a search shows one ranking, whatever the limit, if and only if longer fetches change
nothing of what shorter ones show. -/
theorem search_pages_partition_iff (engine : Engine V S) (s : Store V) (p : SearchInput)
    (numbers : ComparedAsNumbers ((fixedOrder engine s p).map fun entry => shownScore entry.2))
    (lower : engine.lowercase "" = "") :
    (∃ ranking, ∀ limit, Follows (fun offset => searchBlocking engine s { p with limit := limit, offset := some offset })
      0 ranking) ↔ PagesSettle engine s p := by
  obtain ⟨value, compared⟩ := numbers
  have key : ∀ a ∈ ((fixedOrder engine s p).map (entrySections engine s p)).flatten,
      ∀ b ∈ ((fixedOrder engine s p).map (entrySections engine s p)).flatten,
        ranksBefore p.sectionsPerFile a b ↔ keyBefore p.sectionsPerFile value a b := by
    intro a left b right
    obtain ⟨first, listedA, _, pickedA⟩ := mem_sources left
    obtain ⟨second, listedB, _, pickedB⟩ := mem_sources right
    have scoreA : a.2.score = shownScore first.2 := (mem_documentSections pickedA).2.2.1
    have scoreB : b.2.score = shownScore second.2 := (mem_documentSections pickedB).2.2.1
    have comparison : Score.partialCmp b.2.score a.2.score = some (compare (value b.2.score) (value a.2.score)) := by
      rw [scoreA, scoreB]
      exact compared _ (List.mem_map_of_mem listedB) _ (List.mem_map_of_mem listedA)
    exact or_congr Iff.rfl (before_iff_key comparison)
  have alike : ∀ a ∈ (((fixedOrder engine s p).map (entrySections engine s p)).take maxSearchLimit).flatten,
      ∀ b ∈ (((fixedOrder engine s p).map (entrySections engine s p)).take maxSearchLimit).flatten,
        shownSectionOf s p a = shownSectionOf s p b → keyBefore p.sectionsPerFile value a b := by
    have inside : ∀ a ∈ (((fixedOrder engine s p).map (entrySections engine s p)).take maxSearchLimit).flatten,
        a ∈ ((fixedOrder engine s p).map (entrySections engine s p)).flatten := by
      intro a member
      obtain ⟨source, taken, held⟩ := List.mem_flatten.mp member
      exact List.mem_flatten.mpr ⟨source, List.mem_of_mem_take taken, held⟩
    exact fun a left b right => shown_alike lower (inside a left) (inside b right)
  unfold PagesSettle
  rw [filled_congr key, ← steady_iff_filled alike, ← rankedFrom_congr key]
  have nothing : fixedOrder engine s p = [] → Steady (rankedFrom (ranksBefore p.sectionsPerFile) (shownSectionOf s p)
      ((fixedOrder engine s p).map (entrySections engine s p))) maxSearchLimit := by
    intro empty n _ _
    simp [empty, rankedFrom]
  by_cases scope : effectiveCollections s.db p.collections = some []
  · refine iff_of_true ⟨.ok [], fun limit => .last ?_⟩ (nothing ?_)
    · unfold searchBlocking searchFtsMultiWith
      simp [scope, withContext, Except.mapError, bind, Except.bind, pure, Except.pure, pageOf, moreOffset]
    · unfold fixedOrder
      split
      · rfl
      · exact if_pos scope
  · cases scored : engine.bm25 s.fts.committed p.query with
    | error failure =>
      have none : fixedOrder engine s p = [] := by
        unfold fixedOrder
        simp [scored]
      refine iff_of_true ⟨.error ("Error running search" ++ ": " ++ failure), fun limit => .failed ?_⟩ (nothing none)
      have some : fetchLen (clampOffset (.some 0)) (clampLimit limit 10) ≠ 0 := by
        have bounds := clampLimit_bounds limit
        unfold fetchLen maxSearchLimit
        omega
      unfold searchBlocking searchFtsMultiWith ftsHits ftsScoped searchFtsScoped
      simp [scope, scored, some, withContext, Except.mapError, bind, Except.bind]
    | ok score =>
      have pages : ∀ limit, 1 ≤ limit → limit ≤ maxSearchLimit → ∀ offset ≤ maxSearchLimit,
          searchBlocking engine s { p with limit := some limit, offset := some offset } =
            .ok (cut (rankedFrom (ranksBefore p.sectionsPerFile) (shownSectionOf s p)
              ((fixedOrder engine s p).map (entrySections engine s p)) (reach maxSearchLimit offset limit)) offset limit) := by
        intro limit some short offset inside
        let asked : SearchInput := { p with limit := .some limit, offset := .some offset }
        have page := @searchBlocking_eq V S _ engine s asked score scored scope
        have size : clampLimit asked.limit 10 = limit := clampLimit_some some short
        have start : clampOffset asked.offset = offset := Nat.min_eq_left inside
        rw [size, start] at page
        exact page
      have fits : ∀ n, (rankedFrom (ranksBefore p.sectionsPerFile) (shownSectionOf s p)
          ((fixedOrder engine s p).map (entrySections engine s p)) n).length ≤ n := by
        intro n
        rw [length_rankedFrom]
        exact Nat.min_le_left _ _
      rw [← follows_iff_steady (by decide) fits pages]
      constructor
      · intro found
        obtain ⟨ranking, all⟩ := found
        exact ⟨ranking, fun limit _ _ => all (some limit)⟩
      · intro found
        obtain ⟨ranking, all⟩ := found
        refine ⟨ranking, fun limit => ?_⟩
        have bounds := clampLimit_bounds limit
        have same := all (clampLimit limit 10) bounds.1 bounds.2
        unfold searchBlocking at same ⊢
        simp only [clampLimit_some bounds.1 bounds.2] at same
        exact same

def archive : CollectionName := ⟨"archive", by decide, by decide⟩

/-- Three files with one text, in the order of their indexing. -/
def tiedDisk : Disk String := (Disk.empty : Disk String).after sampleEnv
  [(.add Db.workCollection (notesWalk (.ok (notesDoc "alpha"))), []),
    (.add notesCollection (notesWalk (.ok (notesDoc "alpha"))), []),
    (.add { notesCollection with name := archive, path := "/archive" } (notesWalk (.ok (notesDoc "alpha"))), [])]

/-- The same with the first collection removed by a command that died before its full-text commit. -/
def orphanedDisk : Disk String := tiedDisk.after sampleEnv [(.remove Db.work, cutAfter 4)]

def tiedSearch (limit offset perFile : Option Nat) : SearchInput := ⟨"alpha", none, limit, offset, perFile⟩

/-- With one section a file, the three files are one ranking on pages of any length. -/
theorem tied_pages_partition :
    ∃ ranking, ∀ limit, Follows (fun offset => searchBlocking sampleEngine (tiedDisk.open true)
      (tiedSearch limit (some offset) none)) 0 ranking := by
  have order : ((fixedOrder sampleEngine (tiedDisk.open true) (tiedSearch none none none)).map fun entry =>
      shownScore entry.2) = [1 / 2, 1 / 2, 1 / 2] := by
    decide +kernel
  have sizes : ((fixedOrder sampleEngine (tiedDisk.open true) (tiedSearch none none none)).map
      (entrySections sampleEngine (tiedDisk.open true) (tiedSearch none none none))).map List.length = [1, 1, 1] := by
    decide +kernel
  have settle : PagesSettle sampleEngine (tiedDisk.open true) (tiedSearch none none none) := by
    have one : (tiedSearch none none none).sectionsPerFile = 1 := rfl
    unfold PagesSettle
    generalize (fixedOrder sampleEngine (tiedDisk.open true) (tiedSearch none none none)).map _ = sources at sizes
    have three : sources.length = 3 := by simpa using congrArg List.length sizes
    intro n some inside b later
    by_cases two : n = 2
    · have full : (sources.take n).flatten.length = 2 := by
        rw [List.length_flatten, List.map_take, sizes, two]
        rfl
      have all : (sources.take n).flatten.countP (fun a => ranksBefore (tiedSearch none none none).sectionsPerFile a b) =
          (sources.take n).flatten.length := by
        apply List.countP_eq_length.mpr
        intro a _
        exact decide_eq_true (.inl one)
      omega
    · have past : (sources.take maxSearchLimit).drop n = [] := by
        apply List.drop_of_length_le
        rw [List.length_take]
        omega
      rw [past] at later
      cases later
  have numbers : ComparedAsNumbers ((fixedOrder sampleEngine (tiedDisk.open true) (tiedSearch none none none)).map
      fun entry => shownScore entry.2) := by
    rw [order]
    refine ⟨id, fun a left b right => ?_⟩
    simp_all [Score.partialCmp]
  exact (search_pages_partition_iff sampleEngine (tiedDisk.open true) (tiedSearch none none none) numbers rfl).mpr settle

/-- The files of a page are the first that a reader who starts with it is shown. -/
theorem files_of_first {S : Type} {page : Nat → Except Failure (Page (SearchResult S))} {ranking : Except Failure (List (SearchResult S))}
    (follows : Follows page 0 ranking) {files : List String} {next : Option Nat}
    (first : (page 0).toOption.map (fun page => (page.entries.map SearchResult.file, page.next)) = some (files, next)) :
    ∀ all, ranking = .ok all → files <+: all.map SearchResult.file ∧ (next = none → all.map SearchResult.file = files) := by
  obtain ⟨shown, here, told⟩ := ok_of_toOption first
  obtain ⟨entries, further⟩ := shown
  simp only [Prod.mk.injEq] at told
  obtain ⟨same, final⟩ := told
  intro all whole
  cases further with
  | none =>
    have only : all = entries := Except.ok.inj (whole.symm.trans (follows.of_last here))
    rw [only, same]
    exact ⟨List.prefix_rfl, fun _ => rfl⟩
  | some offset =>
    obtain ⟨rest, _, joined⟩ := follows.of_onward here
    cases rest with
    | error failure =>
      rw [whole] at joined
      cases joined
    | ok tail =>
      have split : all = entries ++ tail := Except.ok.inj (whole.symm.trans joined)
      rw [split, List.map_append, same]
      refine ⟨List.prefix_append _ _, fun none => ?_⟩
      rw [none] at final
      cases final

/-- Readers of different first pages have not read one ranking. -/
theorem not_one_ranking {S : Type} {page : Option Nat → Nat → Except Failure (Page (SearchResult S))} {files few : List String}
    {next : Option Nat}
    (whole : (page none 0).toOption.map (fun page => (page.entries.map SearchResult.file, page.next)) = some (files, none))
    (short : (page (some 1) 0).toOption.map (fun page => (page.entries.map SearchResult.file, page.next)) = some (few, next))
    (differ : ¬ few <+: files ∨ next = none ∧ files ≠ few) : ¬ ∃ ranking, ∀ limit, Follows (page limit) 0 ranking := by
  intro found
  obtain ⟨ranking, all⟩ := found
  cases ranking with
  | error failure =>
    obtain ⟨shown, here, _⟩ := ok_of_toOption whole
    obtain ⟨entries, further⟩ := shown
    cases further with
    | none => cases (all none).of_last here
    | some offset => simp_all
  | ok results =>
    have long := (files_of_first (all none) whole results rfl).2 rfl
    have front := files_of_first (all (some 1)) short results rfl
    rw [long] at front
    rcases differ with apart | ended
    · exact apart front.1
    · exact ended.2 (front.2 ended.1)

/-- With two sections a file, a reader of pages of one meets the second file first, and again on the next page; and
where a row is missing, the reader is told of no more before having met the last file. -/
theorem pages_miss_results :
    (¬ ∃ ranking, ∀ limit, Follows (fun offset => searchBlocking sampleEngine (tiedDisk.open true)
      (tiedSearch limit (some offset) (some 2))) 0 ranking) ∧
    ¬ ∃ ranking, ∀ limit, Follows (fun offset => searchBlocking sampleEngine (orphanedDisk.open true)
      (tiedSearch limit (some offset) none)) 0 ranking := by
  have wholeTied : ((searchBlocking sampleEngine (tiedDisk.open true) (tiedSearch none (some 0) (some 2))).toOption.map
      fun page => (page.entries.map SearchResult.file, page.next)) =
        some (["rqmd://archive/a.md", "rqmd://notes/a.md", "rqmd://work/a.md"], none) := by
    decide +kernel
  have shortTied : ((searchBlocking sampleEngine (tiedDisk.open true) (tiedSearch (some 1) (some 0) (some 2))).toOption.map
      fun page => (page.entries.map SearchResult.file, page.next)) = some (["rqmd://notes/a.md"], some 1) := by
    decide +kernel
  have wholeOrphaned : ((searchBlocking sampleEngine (orphanedDisk.open true) (tiedSearch none (some 0) none)).toOption.map
      fun page => (page.entries.map SearchResult.file, page.next)) =
        some (["rqmd://notes/a.md", "rqmd://archive/a.md"], none) := by
    decide +kernel
  have shortOrphaned : ((searchBlocking sampleEngine (orphanedDisk.open true) (tiedSearch (some 1) (some 0)
      none)).toOption.map fun page => (page.entries.map SearchResult.file, page.next)) =
        some (["rqmd://notes/a.md"], none) := by
    decide +kernel
  exact ⟨not_one_ranking wholeTied shortTied (.inl (by decide)), not_one_ranking wholeOrphaned shortOrphaned
    (.inr ⟨rfl, by decide⟩)⟩

end Rqmd
