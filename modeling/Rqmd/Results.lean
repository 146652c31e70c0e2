import Rqmd.Hybrid

/-! Where the results of a search come from: each shows the row of a document that one of the searches' entries
or vectors led to. -/

namespace Rqmd
open Text

variable {V S : Type} [Score S]

theorem ok_of_bind {α β : Type} {first : Except Failure α} {rest : α → Except Failure β} {b : β}
    (result : (first >>= rest) = .ok b) : ∃ a, first = .ok a ∧ rest a = .ok b := by
  cases first with
  | error context => cases result
  | ok a => exact ⟨a, rfl, result⟩

theorem ok_of_pure {α : Type} {a b : α} (result : (pure a : Except Failure α) = .ok b) : a = b := Except.ok.inj result

theorem ok_of_toOption {α β : Type} {result : Except Failure α} {f : α → β} {b : β}
    (done : result.toOption.map f = some b) : ∃ a, result = .ok a ∧ f a = b := by
  cases result with
  | error context => cases done
  | ok a => exact ⟨a, rfl, Option.some.inj done⟩

/-! ### Filepaths -/

theorem splitFilepath_append {collection path : String} (oneSegment : '/' ∉ collection.toList) :
    splitFilepath (collection ++ "/" ++ path) = (collection, path) := by
  have apart : ∀ c ∈ collection.toList, decide (c ≠ '/') = true := by
    intro c member
    have other : c ≠ '/' := fun same => oneSegment (same ▸ member)
    exact decide_eq_true other
  have text : (collection ++ "/" ++ path).toList = collection.toList ++ '/' :: path.toList := by
    simp
  unfold splitFilepath
  rw [text, List.takeWhile_append_of_pos apart, List.dropWhile_append_of_pos apart]
  simp

theorem splitFilepath_filepath (d : Document) : splitFilepath d.filepath = (d.collection.text, d.path) :=
  splitFilepath_append d.collection.oneSegment

/-- A scope of names without a slash holds the collection of every filepath it lets through. -/
theorem inScope_collection {collections : List String} (names : ∀ c ∈ collections, '/' ∉ c.toList) {filepath : String}
    (inside : inScope collections filepath = true) : (splitFilepath filepath).1 ∈ collections := by
  obtain ⟨c, member, fits⟩ := List.any_eq_true.mp inside
  have plain := names c member
  rcases Bool.or_eq_true _ _ |>.mp fits with below | same
  · obtain ⟨rest, text⟩ := List.isPrefixOf_iff_prefix.mp below
    have whole : filepath = c ++ "/" ++ String.ofList rest := by
      apply String.toList_injective
      rw [← text]
      simp
    rw [whole, splitFilepath_append plain]
    exact member
  · have whole : filepath = c := beq_iff_eq.mp same
    have all : c.toList.takeWhile (fun ch => decide (ch ≠ '/')) = c.toList := by
      apply List.takeWhile_eq_self_iff.mpr
      intro ch inside
      exact decide_eq_true fun slash => plain (slash ▸ inside)
    have head : (splitFilepath filepath).1 = c := by
      rw [whole]
      change String.ofList (c.toList.takeWhile fun ch => decide (ch ≠ '/')) = c
      rw [all]
      exact String.ofList_toList
    rw [head]
    exact member

namespace Db

/-- `Document`s are found by the names of their collection and path. -/
theorem getDocumentAt_iff {db : Db} {collection path : String} {d : Document} :
    db.getDocumentAt collection path = some d ↔ d ∈ db.documents ∧ d.collection.text = collection ∧ d.path = path := by
  constructor
  · intro found
    obtain ⟨member, fits⟩ := Table.find?_some found
    exact ⟨member, by simpa using fits⟩
  · intro ⟨member, name, path'⟩
    apply Table.find?_eq_some _ member (by simp [name, path'])
    intro a b left right
    simp only [Bool.and_eq_true, beq_iff_eq] at left right
    exact .inr ⟨CollectionName.ext (left.1.trans right.1.symm), left.2.trans right.2.symm⟩

theorem getDocumentById_iff {db : Db} {id : Nat} {d : Document} :
    db.getDocumentById id = some d ↔ d ∈ db.documents ∧ d.id = id := by
  constructor
  · intro found
    obtain ⟨member, fits⟩ := Table.find?_some found
    exact ⟨member, beq_iff_eq.mp fits⟩
  · intro ⟨member, same⟩
    apply Table.find?_eq_some _ member (by simp [same])
    intro a b left right
    simp only [beq_iff_eq] at left right
    exact .inl (left.trans right.symm)

end Db

theorem filepathToDoc_iff {db : Db} {filepath : String} {d : Document} :
    filepathToDoc db filepath = some d ↔
      d ∈ db.documents ∧ (d.collection.text, d.path) = splitFilepath filepath := by
  rw [filepathToDoc, Db.getDocumentAt_iff, Prod.ext_iff]

/-- The document a filepath names is found at it. -/
theorem filepathToDoc_filepath {db : Db} {d : Document} (member : d ∈ db.documents) :
    filepathToDoc db d.filepath = some d := by
  rw [filepathToDoc_iff, splitFilepath_filepath]
  exact ⟨member, rfl⟩

/-! ### Lookups by vector -/

/-- A row in the scope a vector is looked up in. -/
def Document.within (d : Document) (collections : Requested) : Prop :=
  collections.getD [] = [] ∨ d.collection.text ∈ collections.getD []

namespace Db

theorem mem_documentsForVid {db : Db} {vid pos : Nat} {collections : Requested} {d : Document} :
    (d, pos) ∈ db.documentsForVid vid collections ↔
      d ∈ db.documents ∧ d.active = true ∧ d.within collections ∧
        ∃ v ∈ db.vectors, v.vid = vid ∧ v.hash = d.hash ∧ v.pos = pos := by
  rw [documentsForVid, List.mem_insertionSort]
  simp only [List.mem_flatMap, List.mem_map, Table.mem_select, Bool.and_eq_true, Bool.or_eq_true, beq_iff_eq,
    Prod.mk.injEq, List.isEmpty_iff, List.contains_iff_mem, Document.within]
  constructor
  · rintro ⟨v, ⟨row, key⟩, found, ⟨member, ⟨same, alive⟩, scope⟩, rfl, rfl⟩
    exact ⟨member, alive, scope, v, row, key, same.symm, rfl⟩
  · rintro ⟨member, alive, scope, v, row, key, same, place⟩
    exact ⟨v, ⟨row, key⟩, d, ⟨member, ⟨same.symm, alive⟩, scope⟩, rfl, place⟩

theorem vidLookup_mem {db : Db} {globs : List String → String → Bool} {vid : Nat} {collections : Requested}
    {found : Document × Nat} (result : db.docChunkForVidInExcluding globs vid collections = some found) :
    found.1 ∈ db.documents ∧ found.1.active = true ∧ found.1.within collections := by
  have member : found ∈ db.documentsForVid vid collections := by
    unfold docChunkForVidInExcluding at result
    split at result
    · exact List.mem_of_find?_eq_some result
    · exact List.mem_of_mem_head? result
  obtain ⟨inside, alive, scope, _⟩ := mem_documentsForVid.mp member
  exact ⟨inside, alive, scope⟩

end Db

/-! ### Results -/

/-- A result that shows the row `d` under a title. -/
structure Shows {S : Type} (d : Document) (title : String) (r : SearchResult S) : Prop where
  title : r.title = title
  body : r.body = d.raw
  docid : r.docid = docidFromHash d.hash
  collection : r.collection = d.collection.text
  path : r.path = d.path

theorem resultFromDoc_shows {S : Type} (db : Db) (d : Document) (score : S) :
    Shows d d.title (resultFromDoc db d score) := ⟨rfl, rfl, rfl, rfl, rfl⟩

/-- The filepath in a result's `rqmd://` address. -/
def SearchResult.filepath {S : Type} (r : SearchResult S) : String := String.ofList (r.file.toList.drop 7)

theorem pickToResult_filepath {S : Type} (db : Db) (doc : PickDoc) (pick : Pick S) :
    (pickToResult db doc pick).filepath = pick.filepath := by
  change String.ofList (("rqmd://" ++ pick.filepath).toList.drop 7) = pick.filepath
  rw [String.toList_append]
  exact String.ofList_toList

/-- A pick of the row at its filepath becomes a result that shows it. -/
theorem pickToResult_shows {S : Type} (db : Db) {d : Document} {doc : PickDoc} {pick : Pick S}
    (hash : doc.hash = d.hash) (body : doc.body = d.raw)
    (place : splitFilepath pick.filepath = (d.collection.text, d.path)) :
    Shows d doc.title (pickToResult db doc pick) := by
  unfold pickToResult
  rw [place]
  exact ⟨rfl, body, by rw [← hash], rfl, rfl⟩

theorem mem_picksToResults {S : Type} {db : Db} {docs : List PickDoc} {picks : List (Pick S)} {r : SearchResult S} :
    r ∈ picksToResults db docs picks ↔
      ∃ pick ∈ picks, ∃ doc, docs[pick.doc]? = some doc ∧ pickToResult db doc pick = r := by
  simp only [picksToResults, List.mem_filterMap, Option.map_eq_some_iff]

theorem mem_rankPicks {picks : List (Pick S)} {limit : Nat} {pick : Pick S} (member : pick ∈ rankPicks picks limit) :
    pick ∈ picks := (List.mem_insertionSort _).mp (List.mem_of_mem_take member)

/-! ### Keyword results -/

/-- The committed entries a keyword search of the scope can hit. -/
structure Store.Hit (s : Store V) (collections : Requested) (e : FtsEntry) : Prop where
  committed : e ∈ s.fts.committed
  allowed : ∀ c cs, collections = some (c :: cs) →
    inScope (c :: cs) e.filepath = true ∧ e.docId ∈ s.db.activeDocumentIdsInCollections (c :: cs)

theorem searchFtsScoped_hit {engine : Engine V S} {entries : List FtsEntry} {query : String} {limit : Nat}
    {collections : Requested} {ids : Option (List Nat)} {hits : List (FtsHit S)}
    (result : searchFtsScoped engine entries query limit collections ids = .ok hits) {hit : FtsHit S}
    (member : hit ∈ hits) :
    ∃ e ∈ entries, e.filepath = hit.filepath ∧ e.docId = hit.docId ∧ (∀ known, ids = some known → e.docId ∈ known) ∧
      ∀ c cs, collections = some (c :: cs) → inScope (c :: cs) e.filepath = true := by
  unfold searchFtsScoped at result
  split at result
  · have none : [] = hits := ok_of_pure result
    rw [← none] at member
    cases member
  · obtain ⟨score, _, rest⟩ := ok_of_bind result
    have kept := ok_of_pure rest
    rw [← kept] at member
    obtain ⟨⟨e, value⟩, found, rfl⟩ := List.mem_map.mp member
    obtain ⟨top, scope⟩ := List.mem_filter.mp found
    have matched := (List.mem_insertionSort _).mp (List.mem_of_mem_take top)
    obtain ⟨⟨entry, i⟩, place, scored⟩ := List.mem_filterMap.mp matched
    have inside : entry ∈ entries := (List.mem_zipIdx' place).2 ▸ List.getElem_mem _
    dsimp only at scored
    split at scored
    · next allowed =>
      obtain ⟨points, _, pair⟩ := Option.map_eq_some_iff.mp scored
      have same : entry = e := congrArg Prod.fst pair
      rw [same] at inside allowed
      refine ⟨e, inside, rfl, rfl, fun known given => ?_, fun c cs given => ?_⟩
      · rw [given] at allowed
        simpa using allowed
      · rw [given] at scope
        exact scope
    · cases scored

theorem ftsScoped_hit {engine : Engine V S} {s : Store V} {query : String} {limit : Nat} {collections : Requested}
    {hits : List (FtsHit S)} (result : ftsScoped engine s query limit collections = .ok hits) {hit : FtsHit S}
    (member : hit ∈ hits) : ∃ e, s.Hit collections e ∧ e.filepath = hit.filepath ∧ e.docId = hit.docId := by
  obtain ⟨e, inside, path, id, known, scope⟩ := searchFtsScoped_hit result member
  have allowed : ∀ c cs, collections = some (c :: cs) →
      inScope (c :: cs) e.filepath = true ∧ e.docId ∈ s.db.activeDocumentIdsInCollections (c :: cs) := by
    intro c cs given
    exact ⟨scope c cs given, known _ (by rw [given])⟩
  exact ⟨e, ⟨inside, allowed⟩, path, id⟩

theorem ftsHits_hit {engine : Engine V S} {s : Store V} {query : String} {limit : Nat} {collections : Requested}
    {recency : Option (Nat → S)} {hits : List (FtsHit S)}
    (result : ftsHits engine s query limit collections recency = .ok hits) {hit : FtsHit S} (member : hit ∈ hits) :
    ∃ e, s.Hit collections e ∧ e.docId = hit.docId := by
  cases recency with
  | none =>
    obtain ⟨e, found, _, same⟩ := ftsScoped_hit result member
    exact ⟨e, found, same⟩
  | some recency =>
    obtain ⟨plain, first, rest⟩ := ok_of_bind result
    have weighted := ok_of_pure rest
    rw [← weighted] at member
    obtain ⟨old, inside, rfl⟩ := List.mem_map.mp ((List.mem_insertionSort _).mp member)
    obtain ⟨e, found, _, same⟩ := ftsScoped_hit first inside
    exact ⟨e, found, same⟩

theorem hitsToResults_shows {S : Type} {db : Db} {hits : List (FtsHit S)} {limit : Nat} {r : SearchResult S}
    (member : r ∈ hitsToResults db hits limit) :
    ∃ hit ∈ hits, ∃ d, db.getDocumentById hit.docId = some d ∧ Shows d d.title r := by
  obtain ⟨hit, inside, found⟩ := List.mem_filterMap.mp member
  obtain ⟨d, row, rfl⟩ := Option.map_eq_some_iff.mp found
  exact ⟨hit, List.mem_of_mem_take inside, d, row, resultFromDoc_shows db d hit.score⟩

theorem mem_hitPicks {S : Type} {engine : Engine V S} {query : String} {perFile : Nat} {found : Document × S}
    {i : Nat} {pick : Pick S} (member : pick ∈ hitPicks engine query perFile found i) :
    pick.filepath = found.1.filepath ∧ pick.doc = i := by
  obtain ⟨_, _, rfl⟩ := List.mem_map.mp member
  exact ⟨rfl, rfl⟩

theorem hitsToSections_shows {engine : Engine V S} {db : Db} {hits : List (FtsHit S)} {query : String}
    {limit perFile : Nat} {r : SearchResult S} (member : r ∈ hitsToSections engine db hits query limit perFile) :
    ∃ hit ∈ hits, ∃ d, db.getDocumentById hit.docId = some d ∧ Shows d d.title r := by
  unfold hitsToSections at member
  obtain ⟨pick, ranked, doc, place, rfl⟩ := mem_picksToResults.mp member
  obtain ⟨⟨found, i⟩, inside, picked⟩ := List.mem_flatMap.mp (mem_rankPicks ranked)
  obtain ⟨path, index⟩ := mem_hitPicks picked
  have position := List.mem_zipIdx_iff_getElem?.mp inside
  have shown : doc = PickDoc.ofDocument found.1 := by
    rw [index, List.getElem?_map, position] at place
    exact (Option.some.inj place).symm
  obtain ⟨hit, taken, row⟩ := List.mem_filterMap.mp (List.mem_of_getElem? position)
  obtain ⟨d, looked, pair⟩ := Option.map_eq_some_iff.mp row
  have same : d = found.1 := congrArg Prod.fst pair
  rw [shown]
  have shows := @pickToResult_shows S db found.1 (.ofDocument found.1) pick rfl rfl
    (by rw [path, splitFilepath_filepath])
  exact ⟨hit, List.mem_of_mem_take taken, found.1, same ▸ looked, shows⟩

/-- A keyword result shows, under its own title, the row whose id a committed entry in scope holds. -/
theorem searchFts_shows {engine : Engine V S} {s : Store V} {query : String} {limit : Nat} {requested : Requested}
    {options : SearchOptions S} {results : List (SearchResult S)}
    (result : searchFtsMultiWith engine s query limit requested options = .ok results) {r : SearchResult S}
    (member : r ∈ results) :
    effectiveCollections s.db requested ≠ some [] ∧
      ∃ e, s.Hit (effectiveCollections s.db requested) e ∧ ∃ d, s.db.getDocumentById e.docId = some d ∧
        Shows d d.title r := by
  unfold searchFtsMultiWith at result
  dsimp only at result
  by_cases scope : effectiveCollections s.db requested = some []
  · rw [if_pos scope] at result
    have none : [] = results := ok_of_pure result
    rw [← none] at member
    cases member
  · rw [if_neg scope] at result
    obtain ⟨hits, found, rest⟩ := ok_of_bind result
    have shown : ∃ hit ∈ hits, ∃ d, s.db.getDocumentById hit.docId = some d ∧ Shows d d.title r := by
      split at rest
      · have plain := ok_of_pure rest
        exact hitsToResults_shows (plain ▸ member)
      · have sections := ok_of_pure rest
        exact hitsToSections_shows (sections ▸ member)
    obtain ⟨hit, inside, d, row, shows'⟩ := shown
    obtain ⟨e, entry, same⟩ := ftsHits_hit found inside
    exact ⟨scope, e, entry, d, same ▸ row, shows'⟩

/-! ### Vector results -/

/-- The rows a vector search of the scope can find. -/
structure Store.Near (s : Store V) (collections : Requested) (d : Document) : Prop where
  member : d ∈ s.db.documents
  active : d.active = true
  within : d.within collections

theorem nearestIn_near {S : Type} {engine : Engine V S} {s : Store V} {embedding : V} {collections : Requested}
    {k : Nat} {hits : List (Document × S × Nat)} (result : nearestIn engine s embedding collections k = .ok hits)
    {hit : Document × S × Nat} (member : hit ∈ hits) : s.Near collections hit.1 := by
  obtain ⟨raw, _, rest⟩ := ok_of_bind result
  have kept := ok_of_pure rest
  rw [← kept] at member
  obtain ⟨⟨vid, sim⟩, _, found⟩ := List.mem_filterMap.mp member
  obtain ⟨row, looked, rfl⟩ := Option.map_eq_some_iff.mp found
  obtain ⟨inside, active, scope⟩ := Db.vidLookup_mem looked
  exact ⟨inside, active, scope⟩

/-- Every widened pool holds rows a single pass found. -/
theorem widened_near {S : Type} {engine : Engine V S} {s : Store V} {embedding : V} {collections : Requested}
    {enough : List (Document × S × Nat) → Bool} {k : Nat} {hits : List (Document × S × Nat)} (some : 0 < k)
    (result : widen (nearestIn engine s embedding collections) enough s.hnsw.inner.size s.hnsw.inner.size k = .ok hits)
    {hit : Document × S × Nat} (member : hit ∈ hits) : s.Near collections hit.1 := by
  obtain ⟨last, _, pass, _⟩ := widen_last some (Nat.sub_le _ _) result
  exact nearestIn_near pass member

theorem mem_groupHit {S : Type} {hit : Document × S × Nat} {groups : List (VecGroup S)} {group : VecGroup S}
    (member : group ∈ groupHit hit groups) : group.1 = hit.1 ∨ ∃ old ∈ groups, old.1 = group.1 := by
  induction groups with
  | nil =>
    rw [groupHit, List.mem_singleton] at member
    exact .inl (by rw [member])
  | cons head rest ih =>
    rw [groupHit] at member
    split at member
    · rcases List.mem_cons.mp member with same | behind
      · exact .inr ⟨head, List.mem_cons_self, by rw [same]⟩
      · exact .inr ⟨group, List.mem_cons_of_mem _ behind, rfl⟩
    · rcases List.mem_cons.mp member with same | behind
      · exact .inr ⟨head, List.mem_cons_self, by rw [same]⟩
      · rcases ih behind with new | ⟨old, inside, same⟩
        · exact .inl new
        · exact .inr ⟨old, List.mem_cons_of_mem _ inside, same⟩

/-- A group stands for the document of one of the hits. -/
theorem mem_groupHits {S : Type} {hits : List (Document × S × Nat)} {group : VecGroup S}
    (member : group ∈ groupHits hits) : ∃ hit ∈ hits, hit.1 = group.1 := by
  have run : ∀ (rest : List (Document × S × Nat)) (groups : List (VecGroup S)),
      group ∈ rest.foldl (fun groups hit => groupHit hit groups) groups →
        (∃ hit ∈ rest, hit.1 = group.1) ∨ ∃ old ∈ groups, old.1 = group.1 := by
    intro rest
    induction rest with
    | nil => exact fun groups inside => .inr ⟨group, inside, rfl⟩
    | cons hit rest ih =>
      intro groups inside
      rcases ih (groupHit hit groups) inside with ⟨other, later, same⟩ | ⟨old, here, same⟩
      · exact .inl ⟨other, List.mem_cons_of_mem _ later, same⟩
      · rcases mem_groupHit here with new | ⟨older, before, equal⟩
        · exact .inl ⟨hit, List.mem_cons_self, new.symm.trans same⟩
        · exact .inr ⟨older, before, equal.trans same⟩
  rcases run hits [] member with found | ⟨old, none, _⟩
  · exact found
  · cases none

theorem mem_groupPicks {engine : Engine V S} {db : Db} {options : SearchOptions S} {group : VecGroup S} {i : Nat}
    {pick : Pick S} (member : pick ∈ groupPicks engine db options group i) :
    pick.filepath = group.1.filepath ∧ pick.doc = i := by
  obtain ⟨_, _, rfl⟩ := List.mem_map.mp member
  exact ⟨rfl, rfl⟩

theorem vecResults_shows {engine : Engine V S} {db : Db} {options : SearchOptions S} {groups : List (VecGroup S)}
    {limit : Nat} {r : SearchResult S} (member : r ∈ vecResults engine db options groups limit) :
    ∃ group ∈ groups, Shows group.1 group.1.title r := by
  unfold vecResults at member
  obtain ⟨shown, ranked, doc, place, rfl⟩ := mem_picksToResults.mp member
  obtain ⟨pick, kept, rfl⟩ := List.mem_map.mp ranked
  obtain ⟨⟨group, i⟩, inside, picked⟩ := List.mem_flatMap.mp (mem_rankPicks kept)
  obtain ⟨path, index⟩ := mem_groupPicks picked
  have position := List.mem_zipIdx_iff_getElem?.mp inside
  have found : doc = PickDoc.ofDocument group.1 := by
    change (groups.map fun group => PickDoc.ofDocument group.1)[pick.doc]? = some doc at place
    rw [index, List.getElem?_map, position] at place
    exact (Option.some.inj place).symm
  have there : splitFilepath pick.filepath = (group.1.collection.text, group.1.path) := by
    rw [path, splitFilepath_filepath]
  rw [found]
  exact ⟨group, List.mem_of_getElem? position, @pickToResult_shows S db group.1 (.ofDocument group.1) _ rfl rfl there⟩

/-- A vector result shows, under its own title, an active row in scope. -/
theorem searchVec_shows {engine : Engine V S} {s : Store V} {query : String} {limit : Nat} {requested : Requested}
    {options : SearchOptions S} {results : List (SearchResult S)}
    (result : searchVecMultiWith engine s query limit requested options = .ok results) {r : SearchResult S}
    (member : r ∈ results) :
    effectiveCollections s.db requested ≠ some [] ∧
      ∃ d, s.Near (effectiveCollections s.db requested) d ∧ Shows d d.title r := by
  unfold searchVecMultiWith at result
  dsimp only at result
  by_cases scope : effectiveCollections s.db requested = some []
  · rw [if_pos scope] at result
    have none : [] = results := ok_of_pure result
    rw [← none] at member
    cases member
  · rw [if_neg scope] at result
    obtain ⟨embedding, _, rest⟩ := ok_of_bind result
    obtain ⟨hits, found, last⟩ := ok_of_bind rest
    have shown := ok_of_pure last
    rw [← shown] at member
    obtain ⟨group, inside, shows⟩ := vecResults_shows member
    obtain ⟨hit, near, same⟩ := mem_groupHits inside
    have row := widened_near (by omega) found near
    exact ⟨scope, group.1, same ▸ row, shows⟩

/-! ### Hybrid results -/

def keywordSources : List String := ["fts", "expand-lex"]

/-- One ranked list of a query: the hits of a keyword search, without titles, or the rows of a vector search. -/
inductive Leg (engine : Engine V S) (s : Store V) (collections : Requested) (size : Nat) :
    List (RankedResult S) × RankedListMeta → Prop
  | keyword {text : String} {hits : List (FtsHit S)} {given : RankedListMeta}
      (found : ftsScoped engine s text size collections = .ok hits) (source : given.source ∈ keywordSources) :
      Leg engine s collections size (ftsHitsToRanked hits, given)
  | vector {embedding : V} {results : List (RankedResult S)} {given : RankedListMeta}
      (found : searchVecScoped engine s embedding size collections = .ok results)
      (source : given.source ∉ keywordSources) : Leg engine s collections size (results, given)

def Legs (engine : Engine V S) (s : Store V) (collections : Requested) (size : Nat) (ranked : Ranked S) : Prop :=
  ∀ list ∈ ranked, Leg engine s collections size list

section legs

variable {engine : Engine V S} {s : Store V} {collections : Requested} {size : Nat}

theorem legs_nil : Legs engine s collections size [] := fun _ member => absurd member List.not_mem_nil

theorem legs_append {first rest : Ranked S} (left : Legs engine s collections size first)
    (right : Legs engine s collections size rest) : Legs engine s collections size (first ++ rest) := by
  intro list member
  rcases List.mem_append.mp member with here | there
  · exact left list here
  · exact right list there

theorem legs_rankedList {results : List (RankedResult S)} {source : String} {queryType : QueryType}
    (leg : Leg engine s collections size (results, ⟨source, queryType⟩)) :
    Legs engine s collections size (rankedList results source queryType) := by
  unfold rankedList
  split
  · exact legs_nil
  · intro list member
    rw [List.mem_singleton.mp member]
    exact leg

/-- The names of lists tell keyword searches from vector searches. -/
abbrev Named (source : String) (queryType : QueryType) : Prop := source ∈ keywordSources ↔ queryType = .lex

theorem runLeg_legs {context source : String} {queryType : QueryType} {sub : SubQuery} {ranked : Ranked S}
    (named : Named source sub.qtype)
    (result : runLeg engine s collections size context source queryType sub = .ok ranked) :
    Legs engine s collections size ranked := by
  unfold runLeg at result
  split at result
  · next kind =>
    obtain ⟨hits, found, rest⟩ := ok_of_bind result
    rw [← ok_of_pure rest]
    exact legs_rankedList (.keyword found (named.mpr kind))
  · next kind =>
    have source' : source ∉ keywordSources := fun keyword => by simp [named.mp keyword] at kind
    obtain ⟨embedding, _, rest⟩ := ok_of_bind result
    obtain ⟨results, found, last⟩ := ok_of_bind rest
    rw [← ok_of_pure last]
    exact legs_rankedList (.vector found source')
  · next kind =>
    have source' : source ∉ keywordSources := fun keyword => by simp [named.mp keyword] at kind
    obtain ⟨embedding, _, rest⟩ := ok_of_bind result
    obtain ⟨results, found, last⟩ := ok_of_bind rest
    rw [← ok_of_pure last]
    exact legs_rankedList (.vector found source')
  · rw [← ok_of_pure result]
    exact legs_nil

theorem typedLists_legs {subqueries : List SubQuery} {i : Nat} {ranked : Ranked S}
    (result : typedLists engine s collections size subqueries i = .ok ranked) :
    Legs engine s collections size ranked := by
  induction subqueries generalizing i ranked with
  | nil =>
    rw [← ok_of_pure result]
    exact legs_nil
  | cons sub rest ih =>
    obtain ⟨_, _, onward⟩ := ok_of_bind result
    obtain ⟨found, here, others⟩ := ok_of_bind onward
    obtain ⟨behind, later, last⟩ := ok_of_bind others
    rw [← ok_of_pure last]
    have named : Named (legSource sub.qtype) sub.qtype := by
      cases sub.qtype <;> decide
    exact legs_append (runLeg_legs named here) (ih later)

theorem expansionLists_legs {legs : List (Option SubQuery)} {i : Nat} {ranked : Ranked S}
    (result : expansionLists engine s collections size legs i = .ok ranked) :
    Legs engine s collections size ranked := by
  induction legs generalizing i ranked with
  | nil =>
    rw [← ok_of_pure result]
    exact legs_nil
  | cons leg rest ih =>
    obtain ⟨_, _, onward⟩ := ok_of_bind result
    obtain ⟨found, here, others⟩ := ok_of_bind onward
    obtain ⟨behind, later, last⟩ := ok_of_bind others
    rw [← ok_of_pure last]
    apply legs_append _ (ih later)
    cases leg with
    | none =>
      rw [← ok_of_pure here]
      exact legs_nil
    | some sub =>
      have named : Named (expansionSource sub.qtype) sub.qtype := by
        cases sub.qtype <;> decide
      exact runLeg_legs named here

theorem expanded_legs {text : String} {intent : Option String} {ranked : Ranked S}
    (result : expanded engine s collections size text intent = .ok ranked) :
    Legs engine s collections size ranked := by
  obtain ⟨_, _, rest⟩ := ok_of_bind result
  split at rest
  · exact expansionLists_legs rest
  · rw [← ok_of_pure rest]
    exact legs_nil

/-- Every list a query ranks is one keyword or vector search of its scope. -/
theorem retrieved_legs {parsed : ParsedQuery} {intent : Option String} {query : String} {noExpand : Bool}
    {ranked : Ranked S}
    (result : retrieveRankedLists engine s parsed intent query collections size noExpand = .ok ranked) :
    Legs engine s collections size ranked := by
  unfold retrieveRankedLists at result
  split at result
  · exact typedLists_legs result
  · obtain ⟨initial, keyword, rest⟩ := ok_of_bind result
    obtain ⟨_, _, rest⟩ := ok_of_bind rest
    obtain ⟨embedding, _, rest⟩ := ok_of_bind rest
    obtain ⟨near, vector, rest⟩ := ok_of_bind rest
    obtain ⟨further, expansion, last⟩ := ok_of_bind rest
    rw [← ok_of_pure last]
    apply legs_append
    · apply legs_append
      · exact legs_rankedList (.keyword keyword (by decide))
      · exact legs_rankedList (.vector vector (by decide))
    · unfold expandedUnless at expansion
      split at expansion
      · exact expanded_legs expansion
      · rw [← ok_of_pure expansion]
        exact legs_nil

end legs

theorem mem_fuseAndResolve {db : Db} {ranked : Ranked S} {size : Nat} {cand : Candidate S}
    (member : cand ∈ fuseAndResolveCandidates db ranked size) :
    ∃ d first, filepathToDoc db cand.ranked.filepath = some d ∧ cand.hash = d.hash ∧ cand.body = d.raw ∧
      firstRanked (ranked.map Prod.fst) cand.ranked.filepath = some first ∧ cand.ranked.title = first.title := by
  obtain ⟨r, taken, found⟩ := List.mem_filterMap.mp member
  obtain ⟨d, row, rfl⟩ := Option.map_eq_some_iff.mp found
  obtain ⟨first, met, _, title⟩ := fusion_first (List.mem_of_mem_take taken)
  exact ⟨d, first, row, rfl, rfl, met, title.symm⟩

theorem mem_assemblePicks {engine : Engine V S} {db : Db} {rerank : Option (List S)} {recency : Option (Nat → S)}
    {paired : List (Candidate S × List (String × Nat))} {index next : Nat} {pick : Pick S}
    (member : pick ∈ assemblePicks engine db rerank recency paired index next) :
    ∃ i pair, paired[i]? = some pair ∧ pick.doc = index + i ∧ pick.filepath = pair.1.ranked.filepath := by
  induction paired generalizing index next with
  | nil => cases member
  | cons pair rest ih =>
    rcases List.mem_append.mp member with here | behind
    · obtain ⟨_, _, rfl⟩ := List.mem_map.mp here
      exact ⟨0, pair, rfl, rfl, rfl⟩
    · obtain ⟨i, other, found, place, path⟩ := ih behind
      exact ⟨i + 1, other, found, by omega, path⟩

theorem assembleResults_shows {engine : Engine V S} {db : Db} {candidates : List (Candidate S)}
    {sections : List (List (String × Nat))} {rerank : Option (List S)} {recency : Option (Nat → S)} {limit : Nat}
    {r : SearchResult S} (member : r ∈ assembleResults engine db candidates sections rerank recency limit) :
    ∃ cand ∈ candidates, r.filepath = cand.ranked.filepath ∧ ∀ d, filepathToDoc db cand.ranked.filepath = some d →
      cand.hash = d.hash → cand.body = d.raw → Shows d cand.ranked.title r := by
  unfold assembleResults at member
  obtain ⟨pick, ranked, doc, place, rfl⟩ := mem_picksToResults.mp member
  obtain ⟨i, pair, found, index, path⟩ := mem_assemblePicks (mem_rankPicks ranked)
  have shown : doc = pair.1.doc := by
    rw [index, Nat.zero_add, List.getElem?_map, found] at place
    exact (Option.some.inj place).symm
  have inside : pair.1 ∈ candidates := (List.of_mem_zip (List.mem_of_getElem? found)).1
  refine ⟨pair.1, inside, (pickToResult_filepath db doc pick).trans path, fun d row hash body => ?_⟩
  have there : splitFilepath pick.filepath = (d.collection.text, d.path) := by
    rw [path]
    exact (filepathToDoc_iff.mp row).2.symm
  rw [shown]
  exact @pickToResult_shows S db d pair.1.doc pick hash body there

/-- The intent a query goes by: its own line before the caller's. -/
def intentOf (query : String) (intent : Option String) : Option String := (parseQuery query).intent.or intent

/-- The ranked lists of a hybrid query. -/
def rankedLists (engine : Engine V S) (s : Store V) (query : String) (intent : Option String) (limit : Nat)
    (requested : Requested) (noExpand : Bool) : Except Failure (Ranked S) :=
  retrieveRankedLists engine s (parseQuery query) (intentOf query intent) query
    (effectiveCollections s.db requested) (fetchSize limit) noExpand

/-- A hybrid result shows the row at a filepath under the title the filepath has in the first list with it. -/
theorem hybrid_shows {engine : Engine V S} {s : Store V} {query : String} {intent : Option String} {limit : Nat}
    {requested : Requested} {options : HybridOptions S} {outcome : QueryOutcome S}
    (result : hybridQueryOutcomeWith engine s query intent limit requested options = .ok outcome) {r : SearchResult S}
    (member : r ∈ outcome.results) :
    effectiveCollections s.db requested ≠ some [] ∧
      ∃ ranked, rankedLists engine s query intent limit requested options.noExpand = .ok ranked ∧
        ∃ d first, filepathToDoc s.db r.filepath = some d ∧
          firstRanked (ranked.map Prod.fst) r.filepath = some first ∧ Shows d first.title r := by
  unfold hybridQueryOutcomeWith at result
  dsimp only at result
  by_cases scope : effectiveCollections s.db requested = some []
  · rw [if_pos scope] at result
    rw [← ok_of_pure result] at member
    cases member
  · rw [if_neg scope] at result
    obtain ⟨ranked, lists, rest⟩ := ok_of_bind result
    refine ⟨scope, ranked, lists, ?_⟩
    split at rest
    · rw [← ok_of_pure rest] at member
      cases member
    · obtain ⟨_, _, last⟩ := ok_of_bind rest
      rw [← ok_of_pure last] at member
      obtain ⟨cand, inside, path, shows⟩ := assembleResults_shows member
      obtain ⟨d, first, row, hash, body, met, title⟩ := mem_fuseAndResolve inside
      rw [path]
      exact ⟨d, first, row, met, title ▸ shows d row hash body⟩

/-! ### What the first list holds -/

theorem firstRanked_mem {S : Type} {lists : List (List (RankedResult S))} {path : String} {first : RankedResult S}
    (met : firstRanked lists path = some first) : first.filepath = path ∧ ∃ list ∈ lists, first ∈ list := by
  unfold firstRanked at met
  have member := List.mem_of_find?_eq_some met
  have same := List.find?_some met
  obtain ⟨list, inside, place⟩ := List.mem_flatten.mp member
  exact ⟨beq_iff_eq.mp same, list, inside, place⟩

theorem keyword_first {S : Type} {hits : List (FtsHit S)} {first : RankedResult S}
    (member : first ∈ ftsHitsToRanked hits) :
    first.title = "" ∧ ∃ hit ∈ hits, hit.filepath = first.filepath := by
  obtain ⟨hit, inside, rfl⟩ := List.mem_map.mp member
  exact ⟨rfl, hit, inside, rfl⟩

theorem vector_first {S : Type} {engine : Engine V S} {s : Store V} {embedding : V} {size : Nat}
    {collections : Requested} {results : List (RankedResult S)} (some : 0 < size)
    (found : searchVecScoped engine s embedding size collections = .ok results) {first : RankedResult S}
    (member : first ∈ results) : ∃ d, s.Near collections d ∧ d.filepath = first.filepath ∧ d.title = first.title := by
  obtain ⟨hits, pool, rest⟩ := ok_of_bind found
  rw [← ok_of_pure rest] at member
  obtain ⟨hit, inside, rfl⟩ := List.mem_map.mp member
  exact ⟨hit.1, widened_near some pool inside, rfl, rfl⟩

theorem fetchSize_pos (limit : Nat) : 0 < fetchSize limit := by
  unfold fetchSize rerankCandidateLimit rerankPoolCeiling
  omega

end Rqmd
