import Rqmd.Results
import Rqmd.Purge

/-! The scope of a search: what collections its results come from, and how vectors are resolved inside it. -/

namespace Rqmd
open Interrupt

/-! ### Resolving a vector -/

namespace Db

theorem documentOrder_total (a b : Document) : documentOrder a b ∨ documentOrder b a := by
  unfold documentOrder
  by_cases before : a.collection.text < b.collection.text
  · exact .inl (.inl before)
  · by_cases behind : b.collection.text < a.collection.text
    · exact .inr (.inl behind)
    · have same : a.collection = b.collection := by
        apply CollectionName.ext
        exact String.le_antisymm (Decidable.not_not.mp fun late => behind (String.not_le.mp late))
          (Decidable.not_not.mp fun late => before (String.not_le.mp late))
      rcases String.le_total a.path b.path with first | last
      · exact .inl (.inr ⟨same, first⟩)
      · exact .inr (.inr ⟨same.symm, last⟩)

theorem documentOrder_trans {a b c : Document} (first : documentOrder a b) (last : documentOrder b c) :
    documentOrder a c := by
  rcases first with before | ⟨same, below⟩
  · rcases last with behind | ⟨equal, _⟩
    · exact .inl (String.lt_trans before behind)
    · exact .inl (equal ▸ before)
  · rcases last with behind | ⟨equal, above⟩
    · exact .inl (same ▸ behind)
    · exact .inr ⟨same.trans equal, String.le_trans below above⟩

theorem documentOrder_antisymm {a b : Document} (first : documentOrder a b) (last : documentOrder b a) :
    a.collection = b.collection ∧ a.path = b.path := by
  rcases first with before | ⟨same, below⟩
  · rcases last with behind | ⟨equal, _⟩
    · exact absurd behind (String.lt_asymm before)
    · rw [equal] at before
      exact absurd before (String.lt_irrefl _)
  · rcases last with behind | ⟨_, above⟩
    · rw [same] at behind
      exact absurd behind (String.lt_irrefl _)
    · exact ⟨same, String.le_antisymm below above⟩

/-- Two states with the same collections that hold the same documents of a scope, with their contents and vectors.
What else they hold may differ. -/
structure AgreeWithin (a b : Db) (collections : Requested) : Prop where
  documents : ∀ d, d.within collections → (d ∈ a.documents ↔ d ∈ b.documents)
  contents : ∀ d ∈ a.documents, d.within collections → a.getContent d.hash = b.getContent d.hash
  vectors : ∀ d ∈ a.documents, d.within collections → ∀ v, v.hash = d.hash → (v ∈ a.vectors ↔ v ∈ b.vectors)
  collections : a.collections = b.collections

theorem documents_nodup (db : Db) : db.documents.rows.Nodup := by
  apply db.documents.apart.imp
  intro d e apart same
  rw [same] at apart
  exact apart (Constraint.refl e)

/-- The documents only one of which can be chosen. -/
theorem select_one {db : Db} {row : Document} {chosen : Document → Bool} (member : row ∈ db.documents)
    (hit : chosen row = true) (only : ∀ other ∈ db.documents, chosen other = true → other = row) :
    db.documents.select chosen = [row] := by
  apply List.perm_singleton.mp
  apply (List.perm_ext_iff_of_nodup (db.documents_nodup.filter _) (List.nodup_singleton _)).mpr
  intro other
  rw [List.mem_filter, List.mem_singleton]
  constructor
  · exact fun found => only other found.1 found.2
  · intro same
    rw [same]
    exact ⟨member, hit⟩

theorem vectorsAt_length (db : Db) (vid : Nat) : (db.vectors.select (·.vid == vid)).length ≤ 1 := by
  have apart : (db.vectors.select (·.vid == vid)).Pairwise fun a b => ¬ Constraint.clash a b :=
    db.vectors.apart.filter _
  have key : ∀ v ∈ db.vectors.select (·.vid == vid), v.vid = vid := by
    intro v member
    exact beq_iff_eq.mp (Table.mem_select.mp member).2
  cases rows : db.vectors.select (·.vid == vid) with
  | nil => exact Nat.zero_le 1
  | cons v rest =>
    cases rest with
    | nil => exact Nat.le_refl 1
    | cons w others =>
      rw [rows] at apart key
      have distinct := (List.pairwise_cons.mp apart).1 w List.mem_cons_self
      have left := key v List.mem_cons_self
      have right := key w (List.mem_cons_of_mem _ List.mem_cons_self)
      exact absurd (.inr (left.trans right.symm)) distinct

/-- A vector stands for each document once. -/
theorem documentsForVid_nodup (db : Db) (vid : Nat) (collections : Requested) :
    (db.documentsForVid vid collections).Nodup := by
  unfold documentsForVid
  apply (List.perm_insertionSort _ _).nodup_iff.mpr
  have single := db.vectorsAt_length vid
  cases rows : db.vectors.select (·.vid == vid) with
  | nil => exact List.nodup_nil
  | cons v rest =>
    have alone : rest = [] := by
      rw [rows, List.length_cons] at single
      exact List.length_eq_zero_iff.mp (by omega)
    rw [alone, List.flatMap_singleton]
    apply List.Nodup.map
    · intro a b same
      exact congrArg Prod.fst same
    · exact db.documents_nodup.filter _

theorem documentsForVid_sorted (db : Db) (vid : Nat) (collections : Requested) :
    (db.documentsForVid vid collections).Pairwise fun a b => documentOrder a.1 b.1 := by
  have total : Std.Total fun a b : Document × Nat => documentOrder a.1 b.1 :=
    ⟨fun a b => documentOrder_total a.1 b.1⟩
  have onward : IsTrans (Document × Nat) fun a b => documentOrder a.1 b.1 :=
    ⟨fun _ _ _ => documentOrder_trans⟩
  exact List.pairwise_insertionSort _ _

variable {a b : Db} {collections : Requested}

/-- A scope resolves a vector to the same documents in states that agree in it. -/
theorem AgreeWithin.documentsForVid (agree : AgreeWithin a b collections) (vid : Nat) :
    a.documentsForVid vid collections = b.documentsForVid vid collections := by
  have members : ∀ found, found ∈ a.documentsForVid vid collections ↔ found ∈ b.documentsForVid vid collections := by
    intro (d, pos)
    rw [mem_documentsForVid, mem_documentsForVid]
    constructor
    · intro ⟨member, active, scope, v, row, key, same, place⟩
      exact ⟨(agree.documents d scope).mp member, active, scope, v, (agree.vectors d member scope v same).mp row, key,
        same, place⟩
    · intro ⟨member, active, scope, v, row, key, same, place⟩
      have here := (agree.documents d scope).mpr member
      exact ⟨here, active, scope, v, (agree.vectors d here scope v same).mpr row, key, same, place⟩
  have permuted : (a.documentsForVid vid collections).Perm (b.documentsForVid vid collections) :=
    (List.perm_ext_iff_of_nodup (a.documentsForVid_nodup vid collections)
      (b.documentsForVid_nodup vid collections)).mpr members
  apply List.Perm.eq_of_pairwise _ (a.documentsForVid_sorted vid collections)
    (b.documentsForVid_sorted vid collections) permuted
  intro (d, pos) (e, place) left right before behind
  have both := (members (e, place)).mpr right
  obtain ⟨inside, _, _, v, row, key, _, here⟩ := mem_documentsForVid.mp left
  obtain ⟨other, _, _, w, twin, label, _, there⟩ := mem_documentsForVid.mp both
  have same : d = e := Table.eq_of_clash inside other (.inr (documentOrder_antisymm before behind))
  have vector : v = w := Table.eq_of_clash row twin (.inr (key.trans label.symm))
  rw [same, ← here, ← there, vector]

theorem AgreeWithin.excluded (agree : AgreeWithin a b collections) (globs : List String → String → Bool) {d : Document}
    (member : d ∈ a.documents) (scope : d.within collections) :
    a.excludedFromEmbed globs d = b.excludedFromEmbed globs d := by
  unfold excludedFromEmbed findCollection
  rw [agree.collections, agree.contents d member scope]

theorem AgreeWithin.lookup (agree : AgreeWithin a b collections) (globs : List String → String → Bool) (vid : Nat) :
    a.docChunkForVidIn vid collections = b.docChunkForVidIn vid collections ∧
      a.docChunkForVidInExcluding globs vid collections = b.docChunkForVidInExcluding globs vid collections := by
  have same := agree.documentsForVid vid
  have plain : a.docChunkForVidIn vid collections = b.docChunkForVidIn vid collections := by
    unfold docChunkForVidIn
    rw [same]
  refine ⟨plain, ?_⟩
  unfold docChunkForVidInExcluding
  rw [agree.collections, plain]
  split
  · rw [← same, ← List.head?_filter, ← List.head?_filter]
    congr 1
    apply List.filter_congr
    intro (d, pos) member
    obtain ⟨inside, _, scope, _⟩ := mem_documentsForVid.mp member
    rw [agree.excluded globs inside scope]
  · rfl

end Db

/-! ### The scope of a request -/

/-- The collections a search is to be limited to: those asked for, or those included by default. -/
def scopeOf (db : Db) (requested : Requested) : List String :=
  match requested with
  | some (c :: cs) => c :: cs
  | _ => (db.listCollections.filter Collection.includeByDefault).map fun c => c.name.text

/-- Nothing is asked for and no collection is left out by default. -/
def Unlimited (db : Db) (requested : Requested) : Prop :=
  requested.getD [] = [] ∧ ∀ c ∈ db.collections, c.includeByDefault = true

def allIncluded (db : Db) : Bool := db.listCollections.all Collection.includeByDefault

theorem allIncluded_iff {db : Db} : allIncluded db = true ↔ ∀ c ∈ db.collections, c.includeByDefault = true :=
  List.all_eq_true

theorem effective_limited {db : Db} {requested : Requested} (limited : ¬ Unlimited db requested) :
    effectiveCollections db requested = some (scopeOf db requested) := by
  by_cases nothing : requested.getD [] = []
  · have left : ¬ allIncluded db = true := fun all => limited ⟨nothing, allIncluded_iff.mp all⟩
    cases requested with
    | none => exact if_neg left
    | some asked =>
      cases asked with
      | nil => exact if_neg left
      | cons c cs => cases nothing
  · cases requested with
    | none => exact absurd rfl nothing
    | some asked =>
      cases asked with
      | nil => exact absurd rfl nothing
      | cons c cs => rfl

/-- The names of a scope have no slash when those asked for have none. -/
theorem scopeOf_names {db : Db} {requested : Requested} (names : ∀ c ∈ requested.getD [], '/' ∉ c.toList) :
    ∀ c ∈ scopeOf db requested, '/' ∉ c.toList := by
  have own : ∀ c ∈ (db.listCollections.filter Collection.includeByDefault).map (fun c => c.name.text),
      '/' ∉ c.toList := by
    intro c member
    obtain ⟨row, _, rfl⟩ := List.mem_map.mp member
    exact row.name.oneSegment
  cases requested with
  | none => exact own
  | some asked =>
    cases asked with
    | nil => exact own
    | cons c cs => exact names

/-- A collection a search may show: one of its scope, or, where nothing is asked for and no collection is left
out by default, one that is not registered. -/
def InReach (db : Db) (requested : Requested) (collection : String) : Prop :=
  collection ∈ scopeOf db requested ∨ (Unlimited db requested ∧ ∀ c ∈ db.collections, c.name.text ≠ collection)

/-- Without limits every collection is in reach. -/
theorem inReach_unlimited {db : Db} {requested : Requested} (unlimited : Unlimited db requested) (collection : String) :
    InReach db requested collection := by
  by_cases registered : ∃ c ∈ db.collections, c.name.text = collection
  · obtain ⟨c, member, rfl⟩ := registered
    have listed : c.name.text ∈ (db.listCollections.filter Collection.includeByDefault).map fun c => c.name.text :=
      List.mem_map.mpr ⟨c, List.mem_filter.mpr ⟨member, unlimited.2 c member⟩, rfl⟩
    have same : scopeOf db requested =
        (db.listCollections.filter Collection.includeByDefault).map fun c => c.name.text := by
      cases requested with
      | none => rfl
      | some asked =>
        cases asked with
        | nil => rfl
        | cons c cs => cases unlimited.1
    exact .inl (same ▸ listed)
  · exact .inr ⟨unlimited, fun c member same => registered ⟨c, member, same⟩⟩

/-- A collection is in reach when it is in the scope of every limited search. -/
theorem inReach_of {db : Db} {requested : Requested} {collection : String}
    (scope : effectiveCollections db requested = some (scopeOf db requested) → collection ∈ scopeOf db requested) :
    InReach db requested collection := by
  by_cases unlimited : Unlimited db requested
  · exact inReach_unlimited unlimited collection
  · exact .inl (scope (effective_limited unlimited))

variable {V S : Type}

theorem Store.Near.inside {s : Store V} {collections : List String} {d : Document}
    (near : s.Near (some collections) d) (some : collections ≠ []) : d.collection.text ∈ collections := by
  rcases near.within with empty | member
  · exact absurd empty some
  · exact member

/-- The row whose id an entry holds is in the scope the entry was let through by. -/
theorem Store.Hit.inside {s : Store V} {collections : List String} {e : FtsEntry} {d : Document}
    (hit : s.Hit (some collections) e) (some : collections ≠ []) (row : s.db.getDocumentById e.docId = Option.some d) :
    d.active = true ∧ d.collection.text ∈ collections := by
  obtain ⟨c, cs, given⟩ := List.exists_cons_of_ne_nil some
  have allowed := (hit.allowed c cs (congrArg Option.some given)).2
  rw [← given] at allowed
  obtain ⟨other, found, same⟩ := List.mem_map.mp allowed
  obtain ⟨member, fits⟩ := Table.mem_select.mp found
  obtain ⟨inside, id⟩ := Db.getDocumentById_iff.mp row
  have one : other = d := Table.eq_of_clash member inside (.inl (same.trans id.symm))
  rw [one] at fits
  simpa using fits

variable [Score S] {engine : Engine V S} {s : Store V} {query : String} {limit : Nat} {requested : Requested}

theorem searchFts_inReach {options : SearchOptions S} {results : List (SearchResult S)}
    (result : searchFtsMultiWith engine s query limit requested options = .ok results) {r : SearchResult S}
    (member : r ∈ results) : InReach s.db requested r.collection := by
  obtain ⟨scope, e, hit, d, row, shows⟩ := searchFts_shows result member
  apply inReach_of
  intro limited
  rw [limited] at hit scope
  rw [shows.collection]
  exact (hit.inside (fun empty => scope (congrArg some empty)) row).2

theorem searchVec_inReach {options : SearchOptions S} {results : List (SearchResult S)}
    (result : searchVecMultiWith engine s query limit requested options = .ok results) {r : SearchResult S}
    (member : r ∈ results) : InReach s.db requested r.collection := by
  obtain ⟨scope, d, near, shows⟩ := searchVec_shows result member
  apply inReach_of
  intro limited
  rw [limited] at near scope
  rw [shows.collection]
  exact near.inside fun empty => scope (congrArg some empty)

/-- The document found at the filepath of a ranked result is in scope. -/
theorem Leg.inside {collections : List String} {size : Nat} {list : List (RankedResult S) × RankedListMeta}
    (leg : Leg engine s (some collections) size list) (room : 0 < size) (some : collections ≠ [])
    (names : ∀ c ∈ collections, '/' ∉ c.toList) {first : RankedResult S} (member : first ∈ list.1) {d : Document}
    (row : filepathToDoc s.db first.filepath = Option.some d) : d.collection.text ∈ collections := by
  cases leg with
  | keyword found source =>
    obtain ⟨_, hit, inside, path⟩ := keyword_first member
    obtain ⟨e, allowed, same, _⟩ := ftsScoped_hit found inside
    obtain ⟨c, cs, given⟩ := List.exists_cons_of_ne_nil some
    have within := (allowed.allowed c cs (congrArg Option.some given)).1
    rw [← given, same, path] at within
    have head := inScope_collection names within
    rwa [← (filepathToDoc_iff.mp row).2] at head
  | vector found source =>
    obtain ⟨e, near, path, _⟩ := vector_first room found member
    have same : e = d := by
      rw [← path, filepathToDoc_filepath near.member] at row
      exact Option.some.inj row
    exact same ▸ near.inside some

theorem hybrid_inReach {intent : Option String} {options : HybridOptions S} {outcome : QueryOutcome S}
    (names : ∀ c ∈ requested.getD [], '/' ∉ c.toList)
    (result : hybridQueryOutcomeWith engine s query intent limit requested options = .ok outcome) {r : SearchResult S}
    (member : r ∈ outcome.results) : InReach s.db requested r.collection := by
  obtain ⟨scope, ranked, lists, d, first, row, met, shows⟩ := hybrid_shows result member
  apply inReach_of
  intro limited
  obtain ⟨path, list, inside, place⟩ := firstRanked_mem met
  rw [← path] at row
  obtain ⟨pair, found, rfl⟩ := List.mem_map.mp inside
  have leg := retrieved_legs lists pair found
  rw [limited] at leg scope
  rw [shows.collection]
  exact leg.inside (fetchSize_pos limit) (fun empty => scope (congrArg some empty)) (scopeOf_names names) place row

/-- An empty scope is not forwarded to a search. -/
theorem empty_scope (engine : Engine V S) (limited : ¬ Unlimited s.db requested) (empty : scopeOf s.db requested = []) :
    (∀ query limit options, searchFtsMultiWith engine s query limit requested options = .ok []) ∧
      (∀ query limit options, searchVecMultiWith engine s query limit requested options = .ok []) ∧
      ∀ query intent limit options,
        hybridQueryOutcomeWith engine s query intent limit requested options = .ok ⟨[], .notRun⟩ := by
  have effective : effectiveCollections s.db requested = some [] := empty ▸ effective_limited limited
  refine ⟨fun query limit options => ?_, fun query limit options => ?_, fun query intent limit options => ?_⟩
  · exact if_pos effective
  · exact if_pos effective
  · exact if_pos effective

/-- States that agree in the scope resolve every vector to the same document, and one in scope has some. -/
structure ResolvesAlike (globs : List String → String → Bool) (a b : Db) (collections : Requested) : Prop where
  plain : ∀ vid, a.docChunkForVidIn vid collections = b.docChunkForVidIn vid collections
  excluding : ∀ vid, a.docChunkForVidInExcluding globs vid collections = b.docChunkForVidInExcluding globs vid collections
  found : ∀ d v, d ∈ a.documents → d.active = true → d.within collections → v ∈ a.vectors → v.hash = d.hash →
    ∃ e pos, a.docChunkForVidIn v.vid collections = some (e, pos) ∧ e ∈ a.documents ∧ e.active = true ∧
      e.within collections ∧ e.hash = d.hash

theorem Db.AgreeWithin.resolvesAlike {a b : Db} {collections : Requested} (agree : a.AgreeWithin b collections)
    (globs : List String → String → Bool) : ResolvesAlike globs a b collections := by
  refine ⟨fun vid => (agree.lookup globs vid).1, fun vid => (agree.lookup globs vid).2, ?_⟩
  intro d v member active scope row same
  have listed : (d, v.pos) ∈ a.documentsForVid v.vid collections :=
    Db.mem_documentsForVid.mpr ⟨member, active, scope, v, row, rfl, same, rfl⟩
  obtain ⟨⟨e, pos⟩, rest, order⟩ := List.exists_cons_of_ne_nil (List.ne_nil_of_mem listed)
  have first : (e, pos) ∈ a.documentsForVid v.vid collections := order ▸ List.mem_cons_self
  obtain ⟨inside, alive, within, w, twin, key, hash, _⟩ := Db.mem_documentsForVid.mp first
  have one : w = v := Table.eq_of_clash twin row (.inr key)
  have found : a.docChunkForVidIn v.vid collections = some (e, pos) := by
    unfold Db.docChunkForVidIn
    rw [order]
    rfl
  exact ⟨e, pos, found, inside, alive, within, by rw [← hash, one, same]⟩

/-- Searches stay in scope. A search with nothing asked for and no collection left out is not limited, so what it
finds outside the scope is in a collection that is not registered; the keyword legs of a hybrid query go by the
beginning of a filepath, which takes a name with a slash for a directory. -/
theorem searches_stay_in_scope (engine : Engine V S) (s : Store V) (requested : Requested) :
    (∀ query limit options results, searchFtsMultiWith engine s query limit requested options = .ok results →
      ∀ r ∈ results, InReach s.db requested r.collection) ∧
    (∀ query limit options results, searchVecMultiWith engine s query limit requested options = .ok results →
      ∀ r ∈ results, InReach s.db requested r.collection) ∧
    ((∀ c ∈ requested.getD [], '/' ∉ c.toList) → ∀ query intent limit options outcome,
      hybridQueryOutcomeWith engine s query intent limit requested options = .ok outcome →
        ∀ r ∈ outcome.results, InReach s.db requested r.collection) ∧
    (¬ Unlimited s.db requested → scopeOf s.db requested = [] →
      (∀ query limit options, searchFtsMultiWith engine s query limit requested options = .ok []) ∧
        (∀ query limit options, searchVecMultiWith engine s query limit requested options = .ok []) ∧
        ∀ query intent limit options,
          hybridQueryOutcomeWith engine s query intent limit requested options = .ok ⟨[], .notRun⟩) ∧
    ∀ other : Db, s.db.AgreeWithin other (effectiveCollections s.db requested) →
      ResolvesAlike engine.globs s.db other (effectiveCollections s.db requested) := by
  refine ⟨?keyword, ?vector, ?hybrid, ?empty, ?resolve⟩
  case keyword => exact fun _ _ _ _ result _ member => searchFts_inReach result member
  case vector => exact fun _ _ _ _ result _ member => searchVec_inReach result member
  case hybrid => exact fun names _ _ _ _ _ result _ member => hybrid_inReach names result member
  case empty => exact fun limited empty => empty_scope engine limited empty
  case resolve => exact fun other agree => agree.resolvesAlike engine.globs

/-- One text in two collections. -/
def twinDisk : Disk String := (Disk.empty : Disk String).after sampleEnv
  [(.add notesCollection (notesWalk (.ok (notesDoc "alpha"))), []),
    (.add Db.workCollection (notesWalk (.ok (notesDoc "alpha"))), []),
    (.embed gemma none false, [])]

/-- The searches of the second collection find the text in it alone. -/
theorem twins_stay_in_scope :
    (∃ results, searchFtsMultiWith sampleEngine (twinDisk.open true) "alpha" 5 (some ["work"]) plainSearch = .ok results ∧
      results.map SearchResult.collection = ["work"] ∧
        ∀ r ∈ results, InReach (twinDisk.open true).db (some ["work"]) r.collection) ∧
    (∃ results, searchVecMultiWith sampleEngine (twinDisk.open true) "alpha" 5 (some ["work"]) plainSearch = .ok results ∧
      results.map SearchResult.collection = ["work"] ∧
        ∀ r ∈ results, InReach (twinDisk.open true).db (some ["work"]) r.collection) ∧
    ∃ outcome, hybridQueryOutcomeWith sampleEngine (twinDisk.open true) "alpha" none 5 (some ["work"]) plainHybrid =
        .ok outcome ∧
      outcome.results.map SearchResult.collection = ["work"] ∧
        ∀ r ∈ outcome.results, InReach (twinDisk.open true).db (some ["work"]) r.collection := by
  obtain ⟨keyword, vector, hybrid, -⟩ := searches_stay_in_scope sampleEngine (twinDisk.open true) (some ["work"])
  have byText : (searchFtsMultiWith sampleEngine (twinDisk.open true) "alpha" 5 (some ["work"]) plainSearch).toOption.map
      (fun results => results.map SearchResult.collection) = some ["work"] := by
    decide +kernel
  have byVector : (searchVecMultiWith sampleEngine (twinDisk.open true) "alpha" 5 (some ["work"])
      plainSearch).toOption.map (fun results => results.map SearchResult.collection) = some ["work"] := by
    decide +kernel
  have byBoth : (hybridQueryOutcomeWith sampleEngine (twinDisk.open true) "alpha" none 5 (some ["work"])
      plainHybrid).toOption.map (fun outcome => outcome.results.map SearchResult.collection) = some ["work"] := by
    decide +kernel
  obtain ⟨hits, text, one⟩ := ok_of_toOption byText
  obtain ⟨near, vec, two⟩ := ok_of_toOption byVector
  obtain ⟨outcome, both, three⟩ := ok_of_toOption byBoth
  exact ⟨⟨hits, text, one, keyword _ _ _ hits text⟩, ⟨near, vec, two, vector _ _ _ near vec⟩,
    ⟨outcome, both, three, hybrid (by decide) _ _ _ _ outcome both⟩⟩

/-- A document indexed through the library under a collection that is not registered. -/
def looseDisk : Disk String :=
  (Disk.empty : Disk String).run (do
    let _ ← Store.indexDocumentFtsOnlyWithRaw sampleEnv notes "a.md" (notesDoc "alpha")
    Store.flush) []

def shelfWalk (text : String) : Walk := ⟨[notesFile "shelf/a.md" (.ok (notesDoc text))], List.nodup_singleton _⟩

def cutAfter (steps : Nat) : List (Fate FaultKind) := List.replicate steps .proceed ++ [.die]

/-- A rename and an add that died before their full-text commits: the old entry of the renamed file is left, and
its filepath is that of another file. -/
def movedDisk : Disk String := (Disk.empty : Disk String).after sampleEnv
  [(.add notesCollection (shelfWalk "alpha"), []),
    (.rename notes "work", cutAfter 5),
    (.add notesCollection (shelfWalk "beta"), cutAfter 4)]

/-- With no collection registered the scope is empty and everything is searched; and a request that names a
directory lets a hybrid query out of the collections it names. -/
theorem searches_leave_scope :
    scopeOf (looseDisk.open true).db none = [] ∧
    ((searchFtsMultiWith sampleEngine (looseDisk.open true) "alpha" 5 none plainSearch).toOption.map
      fun results => results.map SearchResult.collection) = some ["notes"] ∧
    ((hybridQueryOutcomeWith sampleEngine (movedDisk.open true) "alpha" none 5 (some ["notes/shelf", "work"])
      plainHybrid).toOption.map fun outcome => outcome.results.map SearchResult.collection) = some ["notes"] ∧
    "notes" ∉ scopeOf (movedDisk.open true).db (some ["notes/shelf", "work"]) := by
  decide +kernel

end Rqmd
