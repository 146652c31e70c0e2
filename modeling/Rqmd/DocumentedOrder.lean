import Rqmd.Comparator
import Rqmd.SearchPages
import Rqmd.Widening

/-! The documented order of results: by falling score, then by collection and path, then by the rank of a section in
its file. Every search that sorts its picks keeps to it; a keyword search for one section of a file does not sort. -/

namespace Rqmd
open Ranking

variable {V S L : Type} [Score S] [LinearOrder L]

/-- Scores are exact: they compare as the numbers they stand for. -/
def Exact (value : S → L) : Prop := ∀ a b, Score.partialCmp a b = some (compare (value a) (value b))

/-- What the documented order goes by. -/
def orderKey {S : Type} (value : S → L) (pick : Pick S) : Lᵒᵈ ×ₗ String ×ₗ Nat :=
  toLex (OrderDual.toDual (value pick.score), pickKey pick)

/-- The picks kept are in the documented order, and what is left out of those gathered comes before none of them. -/
def Documented {S : Type} (value : S → L) (gathered kept : List (Pick S)) : Prop :=
  kept.Pairwise (fun a b => orderKey value a ≤ orderKey value b) ∧
    ∃ left, gathered.Perm (kept ++ left) ∧ ∀ a ∈ kept, ∀ b ∈ left, orderKey value a ≤ orderKey value b

section Ranked
variable {value : S → L}

omit [Score S] in
theorem orderKey_le {a b : Pick S} : orderKey value a ≤ orderKey value b ↔
    value b.score < value a.score ∨ value a.score = value b.score ∧ pickKey a ≤ pickKey b := by
  rw [orderKey, orderKey, Prod.Lex.toLex_le_toLex]
  rfl

theorem before_iff_order (exact : Exact value) {a b : Pick S} : a.before b ↔ orderKey value a ≤ orderKey value b := by
  have numbers : NumbersOrNaN fun s => some (value s) := exact
  rw [before_numbers numbers rfl rfl, orderKey_le]

theorem refines_order (exact : Exact value) (picks : List (Pick S)) :
    Refines Pick.before (fun pick => OrderDual.toDual (orderKey value pick)) picks where
  down _ _ _ _ before := (before_iff_order exact).mp before
  up a _ b _ behind := (le_total (orderKey value a) (orderKey value b)).resolve_left fun before =>
    behind ((before_iff_order exact).mpr before)

theorem sorted_order (exact : Exact value) (picks : List (Pick S)) :
    (picks.insertionSort Pick.before).Pairwise fun a b => orderKey value a ≤ orderKey value b :=
  falling_insertionSort (refines_order exact picks)

/-- What `rank_picks` keeps. -/
theorem rankPicks_documented (exact : Exact value) (picks : List (Pick S)) (limit : Nat) :
    Documented value picks (rankPicks picks limit) := by
  have sorted := sorted_order exact picks
  rw [rankPicks]
  have parts := List.take_append_drop limit (picks.insertionSort Pick.before)
  refine ⟨sorted.sublist (List.take_sublist _ _), (picks.insertionSort Pick.before).drop limit, ?_, ?_⟩
  · rw [parts]
    exact (List.perm_insertionSort _ _).symm
  · rw [← parts] at sorted
    exact (List.pairwise_append.mp sorted).2.2

end Ranked

/-! ### Keyword search -/

/-- The keyword hits that a search gathers. -/
def gatheredHits (engine : Engine V S) (s : Store V) (query : String) (limit : Nat) (requested : Requested)
    (recency : Option (Nat → S)) : Except Failure (List (FtsHit S)) :=
  let effective := effectiveCollections s.db requested
  if effective = some [] then pure [] else ftsHits engine s query limit effective recency

/-- The sections shown of a document that was found: its opening chunk, or those that hold the query's words. -/
def foundPicks {S : Type} (engine : Engine V S) (query : String) (perFile : Nat) (found : Document × S) (i : Nat) : List (Pick S) :=
  if perFile = 1 then [⟨found.1.filepath, i, 0, found.2, (String.ofList (Chunking.firstChunk found.1.raw.toList), 0)⟩]
  else hitPicks engine query perFile found i

/-- The sections of documents that are numbered from `start` on. -/
def numberedPicks {S : Type} (engine : Engine V S) (query : String) (perFile : Nat) (docs : List (Document × S)) (start : Nat) :
    List (Pick S) :=
  (docs.zipIdx start).flatMap fun (found, i) => foundPicks engine query perFile found i

/-- The sections a keyword search shows, in order: those of the first `limit` hits as they come, or ranked. -/
def keywordKept (engine : Engine V S) (db : Db) (query : String) (perFile limit : Nat) (hits : List (FtsHit S)) : List (Pick S) :=
  let picks := numberedPicks engine query perFile (hitDocuments db (hits.take limit)) 0
  if perFile = 1 then picks else rankPicks picks limit

/-- Hits of the same score are in the order of their paths, and the later hits are not before the first. -/
def TiesByPath {S : Type} (value : S → L) (first later : List (Document × S)) : Prop :=
  first.Pairwise (fun a b => value a.2 = value b.2 → a.1.filepath ≤ b.1.filepath) ∧
    ∀ a ∈ first, ∀ b ∈ later, value a.2 = value b.2 → a.1.filepath ≤ b.1.filepath

/-- If a later section comes before one of the first, then so many of the first do too that they are all shown. -/
def FilledBefore {S : Type} (value : S → L) (first later : List (Pick S)) (limit : Nat) : Prop :=
  ∀ q ∈ later, (∃ p ∈ first, orderKey value q < orderKey value p) →
    limit ≤ first.countP fun p => orderKey value p ≤ orderKey value q

/-- The hits come in an order that a keyword search for this many sections of a file needs. -/
def KeywordOrder {S : Type} (engine : Engine V S) (db : Db) (query : String) (perFile limit : Nat) (value : S → L)
    (hits : List (FtsHit S)) : Prop :=
  let first := hitDocuments db (hits.take limit)
  let later := hitDocuments db (hits.drop limit)
  if perFile = 1 then TiesByPath value first later
  else FilledBefore value (numberedPicks engine query perFile first 0)
    (numberedPicks engine query perFile later first.length) limit

section Keyword
variable {engine : Engine V S} {s : Store V} {query : String} {value : S → L} {perFile limit : Nat}

omit [Score S] in
theorem numberedPicks_doc {docs : List (Document × S)} {start : Nat} {pick : Pick S}
    (member : pick ∈ numberedPicks engine query perFile docs start) :
    ∃ i found, docs[i]? = some found ∧ pick.doc = start + i ∧ pick.filepath = found.1.filepath ∧ pick.score = found.2 := by
  obtain ⟨item, place, inside⟩ := List.mem_flatMap.mp member
  obtain ⟨below, found⟩ := List.mem_zipIdx place
  have same : pick.doc = item.2 ∧ pick.filepath = item.1.1.filepath ∧ pick.score = item.1.2 := by
    dsimp only [foundPicks] at inside
    by_cases one : perFile = 1
    · rw [if_pos one] at inside
      rw [List.mem_singleton.mp inside]
      exact ⟨rfl, rfl, rfl⟩
    · rw [if_neg one] at inside
      obtain ⟨_, _, rfl⟩ := List.mem_map.mp inside
      exact ⟨rfl, rfl, rfl⟩
  refine ⟨item.2 - start, item.1, ?_, by omega, same.2⟩
  rw [found.2]
  exact List.getElem?_eq_getElem _

omit [Score S] in
/-- Numbering more documents adds their sections behind. -/
theorem numberedPicks_append (first later : List (Document × S)) (start : Nat) :
    numberedPicks engine query perFile (first ++ later) start =
      numberedPicks engine query perFile first start ++ numberedPicks engine query perFile later (start + first.length) := by
  rw [numberedPicks, List.zipIdx_append, List.flatMap_append]
  rfl

omit [Score S] in
/-- One section of each document. -/
theorem numberedPicks_one (docs : List (Document × S)) (start : Nat) : numberedPicks engine query 1 docs start =
    (docs.zipIdx start).map fun item =>
      ⟨item.1.1.filepath, item.2, 0, item.1.2, (String.ofList (Chunking.firstChunk item.1.1.raw.toList), 0)⟩ := by
  rw [numberedPicks, ← List.flatMap_singleton' (List.map _ _), List.flatMap_map]
  rfl

omit [Score S] in
theorem hitDocuments_split (db : Db) (hits : List (FtsHit S)) (limit : Nat) :
    hitDocuments db hits = hitDocuments db (hits.take limit) ++ hitDocuments db (hits.drop limit) := by
  conv_lhs => rw [← List.take_append_drop limit hits]
  exact List.filterMap_append

omit [Score S] in
/-- The document of a section is found among those of the hits gathered, whatever hits follow. -/
theorem numberedPicks_document {first : List (Document × S)} (later : List (Document × S)) {pick : Pick S}
    (member : pick ∈ numberedPicks engine query perFile first 0) : ∃ found ∈ first, pick.filepath = found.1.filepath ∧
      pick.doc < (first.map fun found => PickDoc.ofDocument found.1).length ∧
      ((first ++ later).map fun found => PickDoc.ofDocument found.1)[pick.doc]? = some (.ofDocument found.1) ∧
      (first.map fun found => PickDoc.ofDocument found.1)[pick.doc]? = some (.ofDocument found.1) := by
  obtain ⟨i, found, place, doc, path, _⟩ := numberedPicks_doc member
  obtain ⟨below, _⟩ := List.getElem?_eq_some_iff.mp place
  rw [Nat.zero_add] at doc
  refine ⟨found, List.mem_of_getElem? place, path, ?_, ?_, ?_⟩
  · rwa [doc, List.length_map]
  · rw [doc, List.getElem?_map, List.getElem?_append_left below, place]
    rfl
  · rw [doc, List.getElem?_map, place]
    rfl

omit [Score S] in
theorem shown_opening {db : Db} {docs : List PickDoc} {d : Document} {i : Nat} (score : S)
    (doc : docs[i]? = some (.ofDocument d)) :
    shownPick db docs ⟨d.filepath, i, 0, score, (String.ofList (Chunking.firstChunk d.raw.toList), 0)⟩ =
      resultFromDoc db d score := by
  rw [shownPick]
  dsimp only
  rw [doc, pickToResult]
  dsimp only
  rw [splitFilepath_filepath]
  rfl

theorem keyword_shown (engine : Engine V S) (db : Db) (query : String) (perFile limit : Nat) (hits : List (FtsHit S)) :
    (if perFile = 1 then hitsToResults db hits limit else hitsToSections engine db hits query limit perFile) =
      (keywordKept engine db query perFile limit hits).map
        (shownPick db ((hitDocuments db hits).map fun found => PickDoc.ofDocument found.1)) := by
  rw [keywordKept, hitDocuments_split db hits limit]
  by_cases one : perFile = 1
  · subst one
    rw [if_pos rfl, if_pos rfl, hitsToResults_eq, numberedPicks_one, List.map_map]
    conv_lhs => rw [← List.zipIdx_map_fst 0 (hitDocuments db (hits.take limit)), List.map_map]
    apply List.map_congr_left
    intro item member
    have place := List.mem_zipIdx_iff_getElem?.mp member
    obtain ⟨below, _⟩ := List.getElem?_eq_some_iff.mp place
    symm
    apply shown_opening
    rw [List.getElem?_map, List.getElem?_append_left below, place]
    rfl
  · rw [if_neg one, if_neg one, hitsToSections]
    have sections : numberedPicks engine query perFile (hitDocuments db (hits.take limit)) 0 =
        (hitDocuments db (hits.take limit)).zipIdx.flatMap fun item => hitPicks engine query perFile item.1 item.2 := by
      rw [numberedPicks]
      simp only [foundPicks, if_neg one]
    have inside : ∀ pick ∈ rankPicks (numberedPicks engine query perFile (hitDocuments db (hits.take limit)) 0) limit,
        pick ∈ numberedPicks engine query perFile (hitDocuments db (hits.take limit)) 0 := fun pick => mem_rankPicks
    dsimp only
    rw [← sections, picksToResults_eq]
    · apply List.map_congr_left
      intro pick member
      obtain ⟨found, _, _, _, wide, narrow⟩ :=
        numberedPicks_document (hitDocuments db (hits.drop limit)) (inside pick member)
      rw [shownPick, shownPick, wide, narrow]
    · intro pick member
      obtain ⟨found, _, _, below, _⟩ := numberedPicks_document [] (inside pick member)
      exact below

/-- A keyword search shows the sections kept of the hits it gathers. -/
theorem keyword_search_eq (engine : Engine V S) (s : Store V) (query : String) (limit : Nat) (requested : Requested)
    (options : SearchOptions S) : searchFtsMultiWith engine s query limit requested options =
      (gatheredHits engine s query limit requested options.recency).map fun hits =>
        (keywordKept engine s.db query (clampPerFile options.perFile) limit hits).map
          (shownPick s.db ((hitDocuments s.db hits).map fun found => PickDoc.ofDocument found.1)) := by
  unfold searchFtsMultiWith gatheredHits
  dsimp only
  by_cases nothing : effectiveCollections s.db requested = some []
  · rw [if_pos nothing, if_pos nothing]
    have none : keywordKept engine s.db query (clampPerFile options.perFile) limit [] = [] := by
      rw [keywordKept]
      by_cases one : clampPerFile options.perFile = 1
      · simp [one, numberedPicks, hitDocuments]
      · simp [one, numberedPicks, hitDocuments, rankPicks]
    exact congrArg Except.ok (congrArg (List.map _) none).symm
  · rw [if_neg nothing, if_neg nothing]
    cases ftsHits engine s query limit (effectiveCollections s.db requested) options.recency with
    | error failure => rfl
    | ok hits =>
      have shown := keyword_shown engine s.db query (clampPerFile options.perFile) limit hits
      refine Eq.trans ?_ (congrArg Except.ok shown)
      change (if clampPerFile options.perFile = 1 then Except.ok _ else Except.ok _) = _
      split_ifs <;> rfl

/-! ### Hits by score -/

/-- The score shown for a keyword hit grows with the score the engine gives. -/
def ByScore (engine : Engine V S) (entries : List FtsEntry) (query : String) (value : S → L) : Prop :=
  ∀ score, engine.bm25 entries query = .ok score → ∀ i j a b, score i = some a → score j = some b →
    value a ≤ value b → value (shownScore a) ≤ value (shownScore b)

theorem refines_higher (exact : Exact value) (entries : List (FtsEntry × S)) :
    Refines higher (fun entry => value entry.2) entries := by
  constructor
  · intro a _ b _ before
    by_contra less
    exact before ((exact a.2 b.2).trans (congrArg some (compare_lt_iff_lt.mpr (not_le.mp less))))
  · intro a _ b _ behind
    unfold higher at behind
    rw [not_not, exact, Option.some.injEq, compare_lt_iff_lt] at behind
    exact behind.le

theorem searchFtsScoped_falls (exact : Exact value) {entries : List FtsEntry} (byScore : ByScore engine entries query value)
    {collections : Requested} {allowed : Option (List Nat)} {hits : List (FtsHit S)}
    (found : searchFtsScoped engine entries query limit collections allowed = .ok hits) :
    hits.Pairwise fun a b => value b.score ≤ value a.score := by
  unfold searchFtsScoped at found
  by_cases zero : limit = 0
  · rw [if_pos zero] at found
    rw [← ok_of_pure found]
    exact .nil
  · rw [if_neg zero] at found
    obtain ⟨score, scored, rest⟩ := ok_of_bind found
    rw [← ok_of_pure rest, List.pairwise_map]
    apply List.Pairwise.filter
    have falling := falling_insertionSort (refines_higher exact (entries.zipIdx.filterMap fun item =>
      if (allowed.map fun ids => ids.contains item.1.docId).getD true then (score item.2).map fun s => (item.1, s) else none))
    have given : ∀ entry ∈ (entries.zipIdx.filterMap fun item =>
        if (allowed.map fun ids => ids.contains item.1.docId).getD true then (score item.2).map fun s => (item.1, s)
        else none).insertionSort higher, ∃ i, score i = some entry.2 := by
      intro entry member
      obtain ⟨item, _, kept⟩ := List.mem_filterMap.mp ((List.mem_insertionSort _).mp member)
      split at kept
      · obtain ⟨a, number, rfl⟩ := Option.map_eq_some_iff.mp kept
        exact ⟨item.2, number⟩
      · cases kept
    apply List.Pairwise.sublist (List.take_sublist _ _)
    apply List.Pairwise.imp_of_mem _ falling
    intro a b left right below
    obtain ⟨i, first⟩ := given a left
    obtain ⟨j, second⟩ := given b right
    exact byScore score scored j i b.2 a.2 second first below

theorem gatheredHits_fall (exact : Exact value) (byScore : ByScore engine s.fts.committed query value) {requested : Requested}
    {recency : Option (Nat → S)} {hits : List (FtsHit S)}
    (found : gatheredHits engine s query limit requested recency = .ok hits) :
    hits.Pairwise fun a b => value b.score ≤ value a.score := by
  unfold gatheredHits at found
  dsimp only at found
  by_cases nothing : effectiveCollections s.db requested = some []
  · rw [if_pos nothing] at found
    rw [← ok_of_pure found]
    exact .nil
  · rw [if_neg nothing] at found
    cases recency with
    | none => exact searchFtsScoped_falls exact byScore found
    | some recency =>
      obtain ⟨pool, _, weighted⟩ := ok_of_bind found
      rw [← ok_of_pure weighted]
      apply falling_insertionSort
      exact @refines_scores S L _ _ value (FtsHit S) FtsHit.score (fun a b => compare a.filepath b.filepath) _
        fun a _ b _ => exact a b

/-! ### When the sections kept are in order -/

/-- A document comes before another by score and path. -/
def DocumentBefore {S : Type} (value : S → L) (a b : Document × S) : Prop :=
  value b.2 < value a.2 ∨ value a.2 = value b.2 ∧ a.1.filepath ≤ b.1.filepath

omit [Score S] in
theorem numberedPicks_falls {docs : List (Document × S)} (start : Nat) :
    (numberedPicks engine query 1 docs start).Pairwise (fun a b => orderKey value a ≤ orderKey value b) ↔
      docs.Pairwise (DocumentBefore value) := by
  have firsts : docs.Pairwise (DocumentBefore value) ↔
      (docs.zipIdx start).Pairwise fun a b => DocumentBefore value a.1 b.1 := by
    conv_lhs => rw [← List.zipIdx_map_fst start docs, List.pairwise_map]
  rw [firsts, numberedPicks_one, List.pairwise_map]
  simp only [orderKey_le, pickKey, DocumentBefore, Prod.Lex.toLex_le_toLex, le_refl, and_true, ← le_iff_lt_or_eq]

omit [Score S] in
/-- One section of each document, with its score and path. -/
theorem mem_numberedPicks_one {docs : List (Document × S)} {start : Nat} {pick : Pick S}
    (member : pick ∈ numberedPicks engine query 1 docs start) :
    ∃ found ∈ docs, pick.filepath = found.1.filepath ∧ pick.score = found.2 ∧ pick.rank = 0 := by
  rw [numberedPicks_one] at member
  obtain ⟨item, place, rfl⟩ := List.mem_map.mp member
  exact ⟨item.1, List.fst_mem_of_mem_zipIdx place, rfl, rfl, rfl⟩

omit [Score S] in
theorem numberedPicks_one_of {docs : List (Document × S)} {start : Nat} {found : Document × S} (member : found ∈ docs) :
    ∃ pick ∈ numberedPicks engine query 1 docs start,
      pick.filepath = found.1.filepath ∧ pick.score = found.2 ∧ pick.rank = 0 := by
  rw [← List.zipIdx_map_fst start docs] at member
  obtain ⟨item, place, rfl⟩ := List.mem_map.mp member
  rw [numberedPicks_one]
  exact ⟨_, List.mem_map_of_mem place, rfl, rfl, rfl⟩

omit [Score S] in
theorem orderKey_document {a b : Pick S} {first second : Document × S}
    (left : a.filepath = first.1.filepath ∧ a.score = first.2 ∧ a.rank = 0)
    (right : b.filepath = second.1.filepath ∧ b.score = second.2 ∧ b.rank = 0) :
    orderKey value a ≤ orderKey value b ↔ DocumentBefore value first second := by
  rw [orderKey_le, pickKey, pickKey, left.1, left.2.1, left.2.2, right.1, right.2.1, right.2.2, Prod.Lex.toLex_le_toLex]
  simp only [DocumentBefore, le_refl, and_true, ← le_iff_lt_or_eq]

omit [Score S] in
/-- What one list adds behind another is what is left of both without the first. -/
theorem perm_behind {first later left : List (Pick S)} (perm : (first ++ later).Perm (first ++ left)) : later.Perm left :=
  (List.perm_append_left_iff first).mp perm

omit [Score S] in
/-- One section of each file: in order exactly if the hits are, by score and path. -/
theorem single_documented {first later : List (Document × S)} :
    Documented value (numberedPicks engine query 1 (first ++ later) 0) (numberedPicks engine query 1 first 0) ↔
      first.Pairwise (DocumentBefore value) ∧ ∀ a ∈ first, ∀ b ∈ later, DocumentBefore value a b := by
  rw [numberedPicks_append, Nat.zero_add]
  constructor
  · intro documented
    obtain ⟨sorted, left, perm, cut⟩ := documented
    refine ⟨(numberedPicks_falls 0).mp sorted, fun a early b late => ?_⟩
    obtain ⟨p, kept, pick⟩ := @numberedPicks_one_of V S engine query first 0 a early
    obtain ⟨q, out, other⟩ := @numberedPicks_one_of V S engine query later first.length b late
    exact (orderKey_document pick other).mp (cut p kept q ((perm_behind perm).mem_iff.mp out))
  · intro ordered
    refine ⟨(numberedPicks_falls 0).mpr ordered.1, _, .refl _, fun p kept q out => ?_⟩
    obtain ⟨a, early, pick⟩ := mem_numberedPicks_one kept
    obtain ⟨b, late, other⟩ := mem_numberedPicks_one out
    exact (orderKey_document pick other).mpr (ordered.2 a early b late)

/-- Ranked sections: in order exactly if the sections of the later hits that come first would not be shown anyway. -/
theorem ranked_documented (exact : Exact value) (first later : List (Pick S)) :
    Documented value (first ++ later) (rankPicks first limit) ↔ FilledBefore value first later limit := by
  have sorted := sorted_order exact first
  have again := List.perm_insertionSort Pick.before first
  have front : ∀ q, (∀ p ∈ rankPicks first limit, orderKey value p ≤ orderKey value q) ↔
      ((∃ p ∈ first, orderKey value q < orderKey value p) →
        limit ≤ first.countP fun p => orderKey value p ≤ orderKey value q) := by
    intro q
    have all := take_forall_iff (f := fun p => orderKey value p ≤ orderKey value q)
      (sorted.imp fun below top => below.trans top) limit
    rw [again.countP_eq] at all
    simp only [again.mem_iff, not_le] at all
    exact all
  have kept := rankPicks_documented exact first limit
  constructor
  · intro documented q out
    obtain ⟨_, left, perm, cut⟩ := documented
    obtain ⟨_, rest, parts, _⟩ := kept
    have behind := (parts.symm.append_right later).trans perm
    rw [List.append_assoc] at behind
    have inside : q ∈ left := (perm_behind behind).mem_iff.mp (List.mem_append_right _ out)
    exact (front q).mp fun p shown => cut p shown q inside
  · intro filled
    obtain ⟨order, rest, parts, cut⟩ := kept
    refine ⟨order, rest ++ later, ?_, fun p shown q out => ?_⟩
    · rw [← List.append_assoc]
      exact parts.append_right later
    · rcases List.mem_append.mp out with near | far
      · exact cut p shown q near
      · exact (front q).mpr (filled q far) p shown

theorem keyword_documented_iff (exact : Exact value) (db : Db) {hits : List (FtsHit S)}
    (falls : hits.Pairwise fun a b => value b.score ≤ value a.score) :
    Documented value (numberedPicks engine query perFile (hitDocuments db hits) 0)
        (keywordKept engine db query perFile limit hits) ↔
      KeywordOrder engine db query perFile limit value hits := by
  have documents : (hitDocuments db (hits.take limit) ++ hitDocuments db (hits.drop limit)).Pairwise
      fun a b => value b.2 ≤ value a.2 := by
    rw [← hitDocuments_split]
    apply List.Pairwise.filterMap _ _ falls
    intro a b below found left other right
    obtain ⟨_, _, rfl⟩ := Option.map_eq_some_iff.mp left
    obtain ⟨_, _, rfl⟩ := Option.map_eq_some_iff.mp right
    exact below
  obtain ⟨early, _, across⟩ := List.pairwise_append.mp documents
  rw [keywordKept, KeywordOrder, hitDocuments_split db hits limit]
  by_cases one : perFile = 1
  · subst one
    rw [if_pos rfl, if_pos rfl, single_documented, TiesByPath]
    have ties : ∀ a b : Document × S, value b.2 ≤ value a.2 →
        (DocumentBefore value a b ↔ (value a.2 = value b.2 → a.1.filepath ≤ b.1.filepath)) := by
      intro a b below
      constructor
      · intro before same
        rcases before with less | tied
        · exact absurd less (same ▸ lt_irrefl _)
        · exact tied.2
      · intro tied
        rcases below.lt_or_eq with less | same
        · exact .inl less
        · exact .inr ⟨same.symm, tied same.symm⟩
    apply and_congr
    · constructor
      · exact fun ordered => (ordered.and early).imp fun both => (ties _ _ both.2).mp both.1
      · exact fun ordered => (ordered.and early).imp fun both => (ties _ _ both.2).mpr both.1
    · exact forall₄_congr fun a left b right => ties a b (across a left b right)
  · rw [if_neg one, if_neg one, numberedPicks_append, Nat.zero_add]
    exact ranked_documented exact _ _

end Keyword

/-! ### The other searches -/

/-- The files that a vector search gathers, with the hits of each. -/
def gatheredGroups (engine : Engine V S) (s : Store V) (query : String) (limit : Nat) (requested : Requested)
    (recency : Option (Nat → S)) : Except Failure (List (VecGroup S)) := do
  let effective := effectiveCollections s.db requested
  if effective = some [] then pure []
  else
    let wanted := match recency with
      | some _ => recencyPool limit
      | none => limit
    let embedding ← withContext "embed query" (engine.embedQuery query)
    let hits ← widen (nearestIn engine s embedding effective)
      (fun hits => decide (wanted ≤ (groupHits hits).length)) s.hnsw.inner.size s.hnsw.inner.size (max (limit * 4) 1)
    pure (groupHits hits)

/-- The candidates that a query gathers. -/
def gatheredCandidates (engine : Engine V S) (s : Store V) (query : String) (intent : Option String) (limit : Nat)
    (requested : Requested) (noExpand : Bool) : Except Failure (List (Candidate S)) :=
  let collections := effectiveCollections s.db requested
  if collections = some [] then pure []
  else do
    let parsed := parseQuery query
    let ranked ← retrieveRankedLists engine s parsed (parsed.intent.or intent) query collections (fetchSize limit) noExpand
    pure (fuseAndResolveCandidates s.db ranked (fetchSize limit))

/-- The result that shows a pick of a vector search: the chunk at the pick's offset. -/
def shownMatch (engine : Engine V S) (db : Db) (groups : List (VecGroup S)) (pick : Pick S) : SearchResult S :=
  let docs := groups.map fun group => PickDoc.ofDocument group.1
  shownPick db docs (showMatched engine docs pick)

theorem allPicks_doc {engine : Engine V S} {db : Db} {options : SearchOptions S} {groups : List (VecGroup S)} {pick : Pick S}
    (member : pick ∈ allPicks engine db options groups) : pick.doc < groups.length := by
  obtain ⟨item, place, inside⟩ := List.mem_flatMap.mp member
  obtain ⟨_, _, rfl⟩ := List.mem_map.mp inside
  obtain ⟨_, below, _⟩ := List.mem_zipIdx place
  rw [Nat.zero_add] at below
  exact below

/-- A vector search shows the best picks of the files it gathers. -/
theorem vector_search_eq (engine : Engine V S) (s : Store V) (query : String) (limit : Nat) (requested : Requested)
    (options : SearchOptions S) : searchVecMultiWith engine s query limit requested options =
      (gatheredGroups engine s query limit requested options.recency).map fun groups =>
        (rankPicks (allPicks engine s.db options groups) limit).map (shownMatch engine s.db groups) := by
  have shown : ∀ groups, vecResults engine s.db options groups limit =
      (rankPicks (allPicks engine s.db options groups) limit).map (shownMatch engine s.db groups) := by
    intro groups
    change picksToResults s.db _ ((rankPicks (allPicks engine s.db options groups) limit).map (showMatched engine _)) = _
    rw [picksToResults_eq, List.map_map]
    · rfl
    · intro pick member
      obtain ⟨old, ranked, rfl⟩ := List.mem_map.mp member
      have below := allPicks_doc (mem_rankPicks ranked)
      rw [List.length_map]
      exact below
  unfold searchVecMultiWith gatheredGroups
  dsimp only
  by_cases nothing : effectiveCollections s.db requested = some []
  · have none : rankPicks (allPicks engine s.db options []) limit = [] := List.take_nil
    rw [if_pos nothing, if_pos nothing]
    exact congrArg Except.ok (congrArg (List.map _) none).symm
  · rw [if_neg nothing, if_neg nothing]
    cases withContext "embed query" (engine.embedQuery query) with
    | error failure => rfl
    | ok embedding =>
      change (widen _ _ _ _ _ >>= fun hits => pure (vecResults engine s.db options (groupHits hits) limit)) =
        Except.map _ (widen _ _ _ _ _ >>= fun hits => pure (groupHits hits))
      cases widen (nearestIn engine s embedding (effectiveCollections s.db requested)) _ _ _ _ with
      | error failure => rfl
      | ok hits => exact congrArg Except.ok (shown (groupHits hits))

/-- The results of a query are the best of its picks. -/
theorem query_results_eq {engine : Engine V S} {s : Store V} {query : String} {intent : Option String} {limit : Nat}
    {requested : Requested} {options : HybridOptions S} {outcome : QueryOutcome S}
    (done : hybridQueryOutcomeWith engine s query intent limit requested options = .ok outcome) :
    ∃ candidates, gatheredCandidates engine s query intent limit requested options.noExpand = .ok candidates ∧
      outcome.results =
        (rankPicks (hybridPicks engine s.db query ((parseQuery query).intent.or intent) options candidates) limit).map
          (shownPick s.db (candidates.map Candidate.doc)) := by
  have none : rankPicks (hybridPicks engine s.db query ((parseQuery query).intent.or intent) options []) limit = [] :=
    List.take_nil
  unfold hybridQueryOutcomeWith at done
  unfold gatheredCandidates
  dsimp only at done ⊢
  by_cases nothing : effectiveCollections s.db requested = some []
  · rw [if_pos nothing] at done ⊢
    exact ⟨[], rfl, by rw [← ok_of_pure done, none]; rfl⟩
  · rw [if_neg nothing] at done ⊢
    obtain ⟨ranked, found, rest⟩ := ok_of_bind done
    refine ⟨fuseAndResolveCandidates s.db ranked (fetchSize limit), by rw [found]; rfl, ?_⟩
    generalize fuseAndResolveCandidates s.db ranked (fetchSize limit) = candidates at rest ⊢
    by_cases empty : candidates.isEmpty = true
    · rw [if_pos empty] at rest
      rw [← ok_of_pure rest, List.isEmpty_iff.mp empty, none]
      rfl
    · rw [if_neg empty] at rest
      obtain ⟨_, _, last⟩ := ok_of_bind rest
      have firsts : (candidates.zip (selectSections engine (queryTerms engine query ((parseQuery query).intent.or intent))
          (clampPerFile options.perFile) candidates (rerankPoolCeiling - candidates.length))).map (fun pair => pair.1.doc) =
            candidates.map Candidate.doc := by
        conv_rhs => rw [← List.map_fst_zip (selectSections_length engine (queryTerms engine query
          ((parseQuery query).intent.or intent)) (clampPerFile options.perFile) candidates
            (rerankPoolCeiling - candidates.length)).ge, List.map_map]
        rfl
      rw [← ok_of_pure last, outcome_picks, firsts]
      apply picksToResults_eq
      intro pick member
      obtain ⟨i, pair, place, doc, _⟩ := mem_assemblePicks (mem_rankPicks member)
      obtain ⟨below, _⟩ := List.getElem?_eq_some_iff.mp place
      rw [List.length_zip] at below
      rw [List.length_map]
      omega

/-- Without weights a keyword search gathers no more hits than it is asked for. -/
theorem plain_gathers {engine : Engine V S} {s : Store V} {query : String} {limit : Nat} {requested : Requested}
    {hits : List (FtsHit S)} (found : gatheredHits engine s query limit requested none = .ok hits) : hits.length ≤ limit := by
  unfold gatheredHits ftsHits ftsScoped searchFtsScoped at found
  dsimp only at found
  split_ifs at found with nothing zero
  · rw [← ok_of_pure found]
    exact Nat.zero_le _
  · rw [← ok_of_pure found]
    exact Nat.zero_le _
  · obtain ⟨score, _, rest⟩ := ok_of_bind found
    rw [← ok_of_pure rest, List.length_map]
    exact (List.length_filter_le _ _).trans (List.length_take_le _ _)

/-- Several sections of a file, without weights, always come in order. -/
theorem plain_sections_ordered {engine : Engine V S} {s : Store V} {query : String} {limit perFile : Nat}
    {requested : Requested} {value : S → L} {hits : List (FtsHit S)} (several : perFile ≠ 1)
    (found : gatheredHits engine s query limit requested none = .ok hits) :
    KeywordOrder engine s.db query perFile limit value hits := by
  have none : hits.drop limit = [] := List.drop_of_length_le (plain_gathers found)
  rw [KeywordOrder, if_neg several, none]
  exact fun q member => absurd member List.not_mem_nil

/-- What weighted hits are sorted by. -/
def hitKey {S : Type} (value : S → L) (hit : FtsHit S) : Lᵒᵈ ×ₗ String := toLex (OrderDual.toDual (value hit.score), hit.filepath)

theorem refines_hits {value : S → L} (exact : Exact value) (hits : List (FtsHit S)) :
    Refines FtsHit.before (fun hit => OrderDual.toDual (hitKey value hit)) hits := by
  have keys : ∀ a b : FtsHit S, a.before b ↔ hitKey value a ≤ hitKey value b := by
    intro a b
    have pick : a.before b ↔ Pick.before (⟨a.filepath, 0, 0, a.score, ("", 0)⟩ : Pick S) ⟨b.filepath, 0, 0, b.score, ("", 0)⟩ := by
      unfold FtsHit.before Pick.before
      cases scoreDescThenPath a.score a.filepath b.score b.filepath <;> simp [Ordering.then]
    rw [pick, before_iff_order exact, orderKey_le, pickKey, pickKey, hitKey, hitKey, Prod.Lex.toLex_le_toLex,
      Prod.Lex.toLex_le_toLex]
    simp only [le_refl, and_true, ← le_iff_lt_or_eq]
    rfl
  exact ⟨fun a _ b _ before => (keys a b).mp before,
    fun a _ b _ behind => (le_total (hitKey value a) (hitKey value b)).resolve_left fun before => behind ((keys a b).mpr before)⟩

/-- Weighted hits are sorted by score and path, so one section of each file comes in order if each entry carries the
path of its row. -/
theorem weighted_hits_ordered {engine : Engine V S} {s : Store V} {query : String} {limit : Nat} {requested : Requested}
    {value : S → L} {recency : Nat → S} {hits : List (FtsHit S)} (exact : Exact value)
    (found : gatheredHits engine s query limit requested (some recency) = .ok hits)
    (rows : ∀ hit ∈ hits, ∀ d, s.db.getDocumentById hit.docId = some d → d.filepath = hit.filepath) :
    KeywordOrder engine s.db query 1 limit value hits := by
  have sorted : hits.Pairwise fun a b => value a.score = value b.score → a.filepath ≤ b.filepath := by
    unfold gatheredHits at found
    dsimp only at found
    by_cases nothing : effectiveCollections s.db requested = .some []
    · rw [if_pos nothing] at found
      rw [← ok_of_pure found]
      exact .nil
    · rw [if_neg nothing] at found
      obtain ⟨pool, _, weighted⟩ := ok_of_bind found
      rw [← ok_of_pure weighted]
      apply List.Pairwise.imp _ (falling_insertionSort (refines_hits exact _))
      intro a b before same
      rcases (Prod.Lex.toLex_le_toLex.mp before : _ ∨ _) with less | tied
      · have lower : value b.score < value a.score := less
        exact absurd lower (same ▸ lt_irrefl _)
      · exact tied.2
  have documents : (hitDocuments s.db (hits.take limit) ++ hitDocuments s.db (hits.drop limit)).Pairwise
      fun a b => value a.2 = value b.2 → a.1.filepath ≤ b.1.filepath := by
    rw [← hitDocuments_split]
    have both := List.Pairwise.and_mem.mp sorted
    apply List.Pairwise.filterMap _ _ both
    intro a b near found left other right same
    obtain ⟨d, row, rfl⟩ := Option.map_eq_some_iff.mp left
    obtain ⟨e, next, rfl⟩ := Option.map_eq_some_iff.mp right
    dsimp only at same ⊢
    rw [rows a near.1 d row, rows b near.2.1 e next]
    exact near.2.2 same
  obtain ⟨early, _, across⟩ := List.pairwise_append.mp documents
  rw [KeywordOrder, if_pos rfl]
  exact ⟨early, across⟩

/-- Vector searches and queries always keep to the documented order; a keyword search does exactly if its hits come in
the order it needs. -/
theorem results_documented_iff (engine : Engine V S) (s : Store V) (query : String) (intent : Option String) (limit : Nat)
    (requested : Requested) (options : HybridOptions S) {value : S → L} (exact : Exact value)
    (byScore : ByScore engine s.fts.committed query value) :
    (∀ results, searchFtsMultiWith engine s query limit requested options.toSearchOptions = .ok results →
      ∃ hits, gatheredHits engine s query limit requested options.recency = .ok hits ∧
        results = (keywordKept engine s.db query (clampPerFile options.perFile) limit hits).map
          (shownPick s.db ((hitDocuments s.db hits).map fun found => PickDoc.ofDocument found.1)) ∧
        (Documented value (numberedPicks engine query (clampPerFile options.perFile) (hitDocuments s.db hits) 0)
            (keywordKept engine s.db query (clampPerFile options.perFile) limit hits) ↔
          KeywordOrder engine s.db query (clampPerFile options.perFile) limit value hits)) ∧
    (∀ results, searchVecMultiWith engine s query limit requested options.toSearchOptions = .ok results →
      ∃ groups, gatheredGroups engine s query limit requested options.recency = .ok groups ∧
        results = (rankPicks (allPicks engine s.db options.toSearchOptions groups) limit).map (shownMatch engine s.db groups) ∧
        Documented value (allPicks engine s.db options.toSearchOptions groups)
          (rankPicks (allPicks engine s.db options.toSearchOptions groups) limit)) ∧
    (∀ outcome, hybridQueryOutcomeWith engine s query intent limit requested options = .ok outcome →
      ∃ candidates, gatheredCandidates engine s query intent limit requested options.noExpand = .ok candidates ∧
        outcome.results =
          (rankPicks (hybridPicks engine s.db query ((parseQuery query).intent.or intent) options candidates) limit).map
            (shownPick s.db (candidates.map Candidate.doc)) ∧
        Documented value (hybridPicks engine s.db query ((parseQuery query).intent.or intent) options candidates)
          (rankPicks (hybridPicks engine s.db query ((parseQuery query).intent.or intent) options candidates) limit)) := by
  refine ⟨fun results done => ?_, fun results done => ?_, fun outcome done => ?_⟩
  · rw [keyword_search_eq] at done
    cases found : gatheredHits engine s query limit requested options.recency with
    | error failure =>
      rw [found] at done
      cases done
    | ok hits =>
      rw [found] at done
      have shown := Except.ok.inj done
      exact ⟨hits, rfl, shown.symm, keyword_documented_iff exact s.db (gatheredHits_fall exact byScore found)⟩
  · rw [vector_search_eq] at done
    cases found : gatheredGroups engine s query limit requested options.recency with
    | error failure =>
      rw [found] at done
      cases done
    | ok groups =>
      rw [found] at done
      have shown := Except.ok.inj done
      exact ⟨groups, rfl, shown.symm, rankPicks_documented exact _ limit⟩
  · obtain ⟨candidates, found, shown⟩ := query_results_eq done
    exact ⟨candidates, found, shown, rankPicks_documented exact _ limit⟩

/-- The small engine's scores are the same for all hits. -/
theorem sampleEngine_byScore (entries : List FtsEntry) (query : String) :
    ByScore sampleEngine entries query (id : Rat → Rat) := by
  intro score scored i j a b first second _
  have one : ∀ k c, score k = some c → c = 1 := by
    intro k c found
    rw [← Except.ok.inj scored] at found
    obtain ⟨e, _, number⟩ := Option.bind_eq_some_iff.mp found
    split at number
    · exact (Option.some.inj number).symm
    · cases number
  rw [one i a first, one j b second]

theorem rat_exact : Exact (id : Rat → Rat) := fun a b => congrArg some (LinearOrder.compare_eq_compareOfLessAndEq a b).symm

/-- Two sections a file put three files of one score in the order of their paths. -/
theorem tied_sections_documented :
    ∃ hits results, searchFtsMultiWith sampleEngine (tiedDisk.open true) "alpha" 10 none ⟨2, none⟩ = .ok results ∧
      results.map SearchResult.file = ["rqmd://archive/a.md", "rqmd://notes/a.md", "rqmd://work/a.md"] ∧
      Documented id (numberedPicks sampleEngine "alpha" 2 (hitDocuments (tiedDisk.open true).db hits) 0)
        (keywordKept sampleEngine (tiedDisk.open true).db "alpha" 2 10 hits) := by
  have files : (searchFtsMultiWith sampleEngine (tiedDisk.open true) "alpha" 10 none ⟨2, none⟩).toOption.map
      (fun results => results.map SearchResult.file) =
        some ["rqmd://archive/a.md", "rqmd://notes/a.md", "rqmd://work/a.md"] := by
    decide +kernel
  obtain ⟨results, done, shown⟩ := ok_of_toOption files
  obtain ⟨hits, found, _, order⟩ := (results_documented_iff sampleEngine (tiedDisk.open true) "alpha" none 10 none
    ⟨⟨2, none⟩, false, true, false⟩ rat_exact (sampleEngine_byScore _ _)).1 results done
  exact ⟨hits, results, done, shown, order.mpr (plain_sections_ordered (by decide) found)⟩

/-- One section a file leaves them in the order in which the engine holds them. -/
theorem ties_out_of_order :
    ∃ hits results, gatheredHits sampleEngine (tiedDisk.open true) "alpha" 10 none none = .ok hits ∧
      searchFtsMultiWith sampleEngine (tiedDisk.open true) "alpha" 10 none ⟨1, none⟩ = .ok results ∧
      results.map (fun r => (r.file, r.score)) =
        [("rqmd://work/a.md", 1 / 2), ("rqmd://notes/a.md", 1 / 2), ("rqmd://archive/a.md", 1 / 2)] ∧
      ¬ Documented id (numberedPicks sampleEngine "alpha" 1 (hitDocuments (tiedDisk.open true).db hits) 0)
        (keywordKept sampleEngine (tiedDisk.open true).db "alpha" 1 10 hits) := by
  have files : (searchFtsMultiWith sampleEngine (tiedDisk.open true) "alpha" 10 none ⟨1, none⟩).toOption.map
      (fun results => results.map fun r => (r.file, r.score)) =
        some [("rqmd://work/a.md", 1 / 2), ("rqmd://notes/a.md", 1 / 2), ("rqmd://archive/a.md", 1 / 2)] := by
    decide +kernel
  have kept : (gatheredHits sampleEngine (tiedDisk.open true) "alpha" 10 none none).toOption.map
      (fun hits => (keywordKept sampleEngine (tiedDisk.open true).db "alpha" 1 10 hits).map fun pick => (pick.filepath, pick.score)) =
        some [("work/a.md", 1 / 2), ("notes/a.md", 1 / 2), ("archive/a.md", 1 / 2)] := by
    decide +kernel
  obtain ⟨results, done, shown⟩ := ok_of_toOption files
  obtain ⟨hits, found, picks⟩ := ok_of_toOption kept
  refine ⟨hits, results, found, done, shown, fun documented => ?_⟩
  have order : ((keywordKept sampleEngine (tiedDisk.open true).db "alpha" 1 10 hits).map fun pick =>
      (pick.filepath, pick.score)).Pairwise fun a b => b.2 < a.2 ∨ a.1 ≤ b.1 := by
    apply List.pairwise_map.mpr
    apply documented.1.imp
    intro a b before
    rcases orderKey_le.mp before with less | tied
    · exact .inl less
    · rcases Prod.Lex.toLex_le_toLex.mp tied.2 with below | same
      · exact .inr below.le
      · exact .inr same.1.le
  rw [picks] at order
  exact absurd order (by decide +kernel)

end Rqmd
