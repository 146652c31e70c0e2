import Rqmd.Scope

/-! Inactive documents and the searches. A vector is resolved to active rows only; a keyword hit is resolved by the id
or by the path of its entry, and only a search limited to collections looks at the row's activity first. -/

namespace Rqmd

variable {V S : Type}

/-- The row a result shows is inactive. -/
def ShowsInactive (db : Db) (r : SearchResult S) : Prop :=
  ∃ d ∈ db.documents, d.collection.text = r.collection ∧ d.path = r.path ∧ d.active = false

/-- No search shows an inactive row, whatever is asked, however the entries rank and whatever the models answer. -/
structure NeverInactive (env : Env V) (S : Type) [Score S] (s : Store V) : Prop where
  keyword : ∀ (engine : Engine V S), engine.toEnv = env → ∀ query limit requested options results,
    searchFtsMultiWith engine s query limit requested options = .ok results → ∀ r ∈ results, ¬ ShowsInactive s.db r
  vector : ∀ (engine : Engine V S), engine.toEnv = env → ∀ query limit requested options results,
    searchVecMultiWith engine s query limit requested options = .ok results → ∀ r ∈ results, ¬ ShowsInactive s.db r
  hybrid : ∀ (engine : Engine V S), engine.toEnv = env → ∀ query intent limit requested options outcome,
    hybridQueryOutcomeWith engine s query intent limit requested options = .ok outcome →
      ∀ r ∈ outcome.results, ¬ ShowsInactive s.db r

/-- The rows the committed entries lead to are active: by id where a search need not be limited, and by path where it
need not be or where the row with the entry's id is active. -/
structure EntriesLive (s : Store V) : Prop where
  byId : allIncluded s.db = true → ∀ e ∈ s.fts.committed, ∀ d, s.db.getDocumentById e.docId = some d → d.active = true
  byPath : ∀ e ∈ s.fts.committed, ∀ d, filepathToDoc s.db e.filepath = some d →
    (allIncluded s.db = true ∨ ∃ owner, s.db.getDocumentById e.docId = some owner ∧ owner.active = true) → d.active = true

/-- A result that shows an active row shows no inactive one. -/
theorem Shows.notInactive {db : Db} {d : Document} {title : String} {r : SearchResult S} (shows : Shows d title r)
    (member : d ∈ db.documents) (active : d.active = true) : ¬ ShowsInactive db r := by
  intro inactive
  obtain ⟨other, inside, collection, path, dead⟩ := inactive
  have names : other.collection = d.collection := CollectionName.ext (collection.trans shows.collection)
  have same : other = d := Table.eq_of_clash inside member (.inr ⟨names, path.trans shows.path⟩)
  rw [same, active] at dead
  cases dead

/-- A search that is not limited to collections takes them all. -/
theorem allIncluded_of_effective {db : Db} {requested : Requested} (unlimited : effectiveCollections db requested = none) :
    allIncluded db = true := by
  by_cases open' : Unlimited db requested
  · exact allIncluded_iff.mpr open'.2
  · rw [effective_limited open'] at unlimited
    cases unlimited

section searches

variable [Score S] {engine : Engine V S} {s : Store V} {requested : Requested}

/-- The row with the id of an entry that is hit is active, unless the search is not limited. -/
theorem Store.Hit.owner {e : FtsEntry} (scope : effectiveCollections s.db requested ≠ some [])
    (hit : s.Hit (effectiveCollections s.db requested) e) :
    allIncluded s.db = true ∨ ∃ owner, s.db.getDocumentById e.docId = some owner ∧ owner.active = true := by
  cases effective : effectiveCollections s.db requested with
  | none => exact .inl (allIncluded_of_effective effective)
  | some collections =>
    right
    rw [effective] at hit scope
    obtain ⟨c, cs, given⟩ := List.exists_cons_of_ne_nil fun empty : collections = [] => scope (congrArg some empty)
    have allowed := (hit.allowed c cs (congrArg Option.some given)).2
    obtain ⟨owner, found, same⟩ := List.mem_map.mp allowed
    obtain ⟨member, fits⟩ := Table.mem_select.mp found
    have active : owner.active = true := by
      rw [Bool.and_eq_true] at fits
      exact fits.1
    exact ⟨owner, Db.getDocumentById_iff.mpr ⟨member, same⟩, active⟩

theorem EntriesLive.keyword (live : EntriesLive s) {query : String} {limit : Nat} {options : SearchOptions S}
    {results : List (SearchResult S)}
    (result : searchFtsMultiWith engine s query limit requested options = .ok results) {r : SearchResult S}
    (member : r ∈ results) : ¬ ShowsInactive s.db r := by
  obtain ⟨scope, e, hit, d, row, shows⟩ := searchFts_shows result member
  apply shows.notInactive (Db.getDocumentById_iff.mp row).1
  rcases hit.owner scope with all | ⟨owner, found, active⟩
  · exact live.byId all e hit.committed d row
  · rw [row] at found
    rwa [← Option.some.inj found] at active

theorem searchVec_notInactive {query : String} {limit : Nat} {options : SearchOptions S}
    {results : List (SearchResult S)}
    (result : searchVecMultiWith engine s query limit requested options = .ok results) {r : SearchResult S}
    (member : r ∈ results) : ¬ ShowsInactive s.db r := by
  obtain ⟨_, d, near, shows⟩ := searchVec_shows result member
  exact shows.notInactive near.member near.active

theorem EntriesLive.hybrid (live : EntriesLive s) {query : String} {intent : Option String} {limit : Nat}
    {options : HybridOptions S} {outcome : QueryOutcome S}
    (result : hybridQueryOutcomeWith engine s query intent limit requested options = .ok outcome) {r : SearchResult S}
    (member : r ∈ outcome.results) : ¬ ShowsInactive s.db r := by
  obtain ⟨scope, ranked, lists, d, first, row, met, shows⟩ := hybrid_shows result member
  apply shows.notInactive (filepathToDoc_iff.mp row).1
  obtain ⟨path, list, inside, place⟩ := firstRanked_mem met
  rw [← path] at row
  obtain ⟨pair, found, rfl⟩ := List.mem_map.mp inside
  cases retrieved_legs lists pair found with
  | keyword hits source =>
    obtain ⟨_, hit, taken, same⟩ := keyword_first place
    obtain ⟨e, allowed, there, _⟩ := ftsScoped_hit hits taken
    rw [← same, ← there] at row
    exact live.byPath e allowed.committed d row (allowed.owner scope)
  | vector near source =>
    obtain ⟨other, held, same, _⟩ := vector_first (fetchSize_pos limit) near place
    rw [← same, filepathToDoc_filepath held.member] at row
    rw [← Option.some.inj row]
    exact held.active

end searches

/-! ### The searches that reach an entry -/

/-- An engine whose one keyword hit is the entry at a place, with no vectors and no models. -/
def seeking (env : Env V) (S : Type) [Score S] (place : Nat) : Engine V S where
  toEnv := env
  bm25 _ _ := .ok fun i => if i = place then some (Score.literal 1) else none
  nearest _ _ _ := .ok []
  embedQuery _ := .error "no embedding model"
  embedPassage _ := .error "no embedding model"
  canGenerate := false
  generateExpansion _ := .error "no generation model"
  canRerank := false
  rerankCandidates _ _ := .error "no rerank model"
  lowercase _ := ""
  alphabetic _ := false
  now := 0
  expired _ := false

variable [Score S] {env : Env V} {s : Store V}

theorem filterMap_place {α β : Type} {p : α → Bool} {f : α → β} {l : List α} {a : α} {k start : Nat}
    (place : l[k]? = some a) (fits : p a = true) :
    ((l.zipIdx start).filterMap fun x => if p x.1 then (if x.2 = start + k then some (f x.1) else none) else none) =
      [f a] := by
  induction l generalizing k start with
  | nil => cases place
  | cons x xs later =>
    rw [List.zipIdx_cons, List.filterMap_cons]
    cases k with
    | zero =>
      have head : x = a := Option.some.inj place
      have rest : ((xs.zipIdx (start + 1)).filterMap fun x =>
          if p x.1 then (if x.2 = start + 0 then some (f x.1) else none) else none) = [] := by
        apply List.filterMap_eq_nil_iff.mpr
        intro y member
        have behind := List.le_snd_of_mem_zipIdx member
        have apart : y.2 ≠ start + 0 := by omega
        rw [if_neg apart, ite_self]
      rw [rest, head]
      simp [fits]
    | succ k =>
      have apart : start ≠ start + (k + 1) := by omega
      have onward : start + (k + 1) = start + 1 + k := by omega
      have tail := @later k (start + 1) place
      simp only [apart, if_false, ite_self]
      rw [onward]
      exact tail

/-- What the entries of a scope score under the engine that seeks one of them. -/
def soughtScores (S : Type) [Score S] (entries : List FtsEntry) (place : Nat) (allowed : Option (List Nat)) :
    List (FtsEntry × S) :=
  entries.zipIdx.filterMap fun x => if (allowed.map fun ids => ids.contains x.1.docId).getD true then
    (if x.2 = place then some (x.1, Score.literal 1) else none) else none

/-- The beginning of a filepath against a scope, if there is one. -/
def withinScope (collections : Requested) (filepath : String) : Bool :=
  match collections with
  | some (c :: cs) => inScope (c :: cs) filepath
  | _ => true

theorem searchFtsScoped_seeking {entries : List FtsEntry} {place limit : Nat} (nonzero : limit ≠ 0) (query : String)
    (collections : Requested) (allowed : Option (List Nat)) :
    searchFtsScoped (seeking env S place) entries query limit collections allowed =
      .ok (((((soughtScores S entries place allowed).insertionSort higher).take limit).filter fun hit =>
        withinScope collections hit.1.filepath).map fun hit =>
          ⟨hit.1.filepath, hit.1.docId, hit.2 / (Score.literal 1 + hit.2)⟩) := by
  have scores : soughtScores S entries place allowed = entries.zipIdx.filterMap fun x =>
      if (allowed.map fun ids => ids.contains x.1.docId).getD true then
        ((if x.2 = place then some (Score.literal 1) else none).map fun score => (x.1, score)) else none := by
    unfold soughtScores
    simp only [apply_ite (Option.map _), Option.map_some, Option.map_none]
  rw [scores]
  unfold searchFtsScoped
  rw [if_neg nonzero]
  rfl

theorem seeking_hit {place : Nat} {e : FtsEntry} {limit : Nat} {collections : Requested} (query : String)
    (stored : s.fts.committed[place]? = some e) (nonzero : limit ≠ 0)
    (allowed : ∀ c cs, collections = some (c :: cs) →
      inScope (c :: cs) e.filepath = true ∧ e.docId ∈ s.db.activeDocumentIdsInCollections (c :: cs)) :
    ∃ score, ftsScoped (seeking env S place) s query limit collections = .ok [⟨e.filepath, e.docId, score⟩] := by
  have positive : 1 ≤ limit := by omega
  have only : ∀ ids : Option (List Nat), (ids.map fun ids => ids.contains e.docId).getD true = true →
      ((soughtScores S s.fts.committed place ids).insertionSort higher).take limit = [(e, Score.literal 1)] := by
    intro ids fits
    have found := @filterMap_place FtsEntry (FtsEntry × S) (fun x => (ids.map fun ids => ids.contains x.docId).getD true)
      (fun x => (x, Score.literal 1)) s.fts.committed e place 0 stored fits
    rw [Nat.zero_add] at found
    unfold soughtScores
    rw [found]
    exact List.take_of_length_le positive
  refine ⟨Score.literal 1 / (Score.literal 1 + Score.literal 1), ?_⟩
  unfold ftsScoped
  rw [searchFtsScoped_seeking nonzero]
  cases collections with
  | none =>
    dsimp only
    rw [only none rfl]
    rfl
  | some names =>
    cases names with
    | nil =>
      dsimp only
      rw [only none rfl]
      rfl
    | cons c cs =>
      obtain ⟨inside, known⟩ := allowed c cs rfl
      have fits : ((some (s.db.activeDocumentIdsInCollections (c :: cs))).map fun ids => ids.contains e.docId).getD true =
          true := List.contains_iff_mem.mpr known
      dsimp only
      rw [only _ fits]
      simp [withinScope, inside]

def oneSection (S : Type) : SearchOptions S := ⟨1, none⟩

/-- An entry is reached by its id when no search needs to be limited. -/
theorem keyword_reaches {place : Nat} {e : FtsEntry} {d : Document} (stored : s.fts.committed[place]? = some e)
    (row : s.db.getDocumentById e.docId = some d) (all : allIncluded s.db = true) :
    ∃ score, searchFtsMultiWith (seeking env S place) s "" 1 none (oneSection S) = .ok [resultFromDoc s.db d score] := by
  have unlimited : effectiveCollections s.db none = none := if_pos all
  have free : ∀ c cs, (none : Requested) = some (c :: cs) →
      inScope (c :: cs) e.filepath = true ∧ e.docId ∈ s.db.activeDocumentIdsInCollections (c :: cs) := by
    intro c cs given
    cases given
  obtain ⟨score, hit⟩ := @seeking_hit V S _ env s place e 1 none "" stored (by decide) free
  refine ⟨score, ?_⟩
  unfold searchFtsMultiWith
  rw [unlimited]
  dsimp only
  rw [if_neg (by decide)]
  unfold ftsHits oneSection
  dsimp only
  rw [hit]
  change Except.ok (hitsToResults s.db [⟨e.filepath, e.docId, score⟩] 1) = _
  unfold hitsToResults
  simp [row]

/-- The hybrid query for one keyword, without reranking. -/
def oneKeyword (S : Type) : HybridOptions S := ⟨oneSection S, true, true, false⟩

theorem parse_oneKeyword : (parseQuery "lex: a").subqueries = [⟨.lex, "a"⟩] := by decide +kernel

theorem fused_one (r : RankedResult S) (weights : List S) :
    ∃ score, reciprocalRankFusion [[r]] weights = [{ r with backendScore := score }] := ⟨_, rfl⟩

theorem seeking_sections {place : Nat} (filepath body : String) (n : Nat) :
    ∃ section', bestChunks (seeking env S place) filepath body [] n = [section'] := by
  unfold bestChunks
  cases (seeking env S place).chunkDocumentForPath filepath body with
  | nil => exact ⟨_, rfl⟩
  | cons first rest => exact ⟨_, rfl⟩

/-- The section of a lone candidate becomes the one result. -/
theorem assembled_one {place : Nat} (db : Db) (cand : Candidate S) (section' : String × Nat) :
    ∃ r, assembleResults (seeking env S place) db [cand] [[section']] none none 1 = [r] ∧
      r.filepath = cand.ranked.filepath := by
  refine ⟨pickToResult db cand.doc ⟨cand.ranked.filepath, 0, 0, cand.ranked.backendScore * Score.literal 1, section'⟩, rfl, ?_⟩
  exact pickToResult_filepath _ _ _

theorem outcome_one {place : Nat} (db : Db) (cand : Candidate S) :
    ∃ r, (outcomeOf (seeking env S place) db "lex: a" none 1 (oneKeyword S) [cand]).results = [r] ∧
      r.filepath = cand.ranked.filepath := by
  obtain ⟨section', picked⟩ := @seeking_sections V S _ env place cand.ranked.filepath cand.body
    (1 + min (clampPerFile 1 - 1) (rerankPoolCeiling - 1))
  obtain ⟨r, assembled, path⟩ := @assembled_one V S _ env place db cand section'
  refine ⟨r, ?_, path⟩
  have sections : selectSections (seeking env S place) (queryTerms (seeking env S place) "lex: a" none) (clampPerFile 1)
      [cand] (rerankPoolCeiling - 1) = [[section']] := by
    rw [← picked]
    rfl
  change assembleResults (seeking env S place) db [cand] (selectSections (seeking env S place)
    (queryTerms (seeking env S place) "lex: a" none) (clampPerFile 1) [cand] (rerankPoolCeiling - 1)) none none 1 = [r]
  rw [sections, assembled]

theorem hybrid_reaches {place : Nat} {e : FtsEntry} {d : Document} {requested : Requested}
    (stored : s.fts.committed[place]? = some e) (row : filepathToDoc s.db e.filepath = some d)
    (scope : effectiveCollections s.db requested ≠ some [])
    (allowed : ∀ c cs, effectiveCollections s.db requested = some (c :: cs) →
      inScope (c :: cs) e.filepath = true ∧ e.docId ∈ s.db.activeDocumentIdsInCollections (c :: cs)) :
    ∃ outcome, hybridQueryOutcomeWith (seeking env S place) s "lex: a" none 1 requested (oneKeyword S) = .ok outcome ∧
      ∃ r ∈ outcome.results, r.filepath = e.filepath := by
  obtain ⟨score, hit⟩ := @seeking_hit V S _ env s place e (fetchSize 1) _ "a" stored (by decide) allowed
  have lists : retrieveRankedLists (seeking env S place) s (parseQuery "lex: a") ((parseQuery "lex: a").intent.or none)
      "lex: a" (effectiveCollections s.db requested) (fetchSize 1) true =
        .ok [([⟨e.filepath, "", score⟩], ⟨"fts", .original⟩)] := by
    unfold retrieveRankedLists
    rw [parse_oneKeyword, if_pos (by decide)]
    unfold typedLists runLeg
    simp only
    rw [hit]
    rfl
  obtain ⟨fused, one⟩ := @fused_one S _ ⟨e.filepath, "", score⟩ (rrfWeights [⟨"fts", .original⟩])
  have candidates : fuseAndResolveCandidates s.db [([⟨e.filepath, "", score⟩], ⟨"fts", .original⟩)] (fetchSize 1) =
      [⟨⟨e.filepath, "", fused⟩, d.hash, d.raw⟩] := by
    unfold fuseAndResolveCandidates
    simp only [List.map_cons, List.map_nil]
    rw [one, List.take_of_length_le (fetchSize_pos 1), List.filterMap_cons, row]
    rfl
  obtain ⟨r, only, path⟩ := @outcome_one V S _ env place s.db ⟨⟨e.filepath, "", fused⟩, d.hash, d.raw⟩
  refine ⟨outcomeOf (seeking env S place) s.db "lex: a" none 1 (oneKeyword S)
    [⟨⟨e.filepath, "", fused⟩, d.hash, d.raw⟩], ?_, r, ?_, path⟩
  · unfold hybridQueryOutcomeWith
    dsimp only
    rw [if_neg scope]
    change (retrieveRankedLists (seeking env S place) s (parseQuery "lex: a") ((parseQuery "lex: a").intent.or none)
      "lex: a" (effectiveCollections s.db requested) (fetchSize 1) true >>= _) = _
    rw [lists]
    dsimp only [bind, Except.bind]
    rw [candidates]
    rfl
  · rw [only]
    exact List.mem_singleton_self r

/-! ### Which stores never show an inactive document -/

theorem takeWhile_slash {l : List Char} (slash : '/' ∈ l) :
    l.takeWhile (· ≠ '/') ++ '/' :: (l.dropWhile (· ≠ '/')).tail = l := by
  induction l with
  | nil => cases slash
  | cons c rest later =>
    by_cases here : c = '/'
    · rw [here]
      rfl
    · have behind : '/' ∈ rest := by
        rcases List.mem_cons.mp slash with same | inside
        · exact absurd same.symm here
        · exact inside
      rw [List.takeWhile_cons_of_pos (by simpa using here), List.dropWhile_cons_of_pos (by simpa using here),
        List.cons_append, later behind]

/-- A filepath is in the scope of the collection of the row found at it. -/
theorem inScope_row {db : Db} {filepath : String} {d : Document} (row : filepathToDoc db filepath = some d)
    {collections : List String} (asked : d.collection.text ∈ collections) : inScope collections filepath = true := by
  have place := (filepathToDoc_iff.mp row).2
  have name : d.collection.text = String.ofList (filepath.toList.takeWhile (· ≠ '/')) := congrArg Prod.fst place
  apply List.any_eq_true.mpr
  refine ⟨d.collection.text, asked, ?_⟩
  rw [Bool.or_eq_true, beq_iff_eq, name]
  by_cases slash : '/' ∈ filepath.toList
  · left
    apply List.isPrefixOf_iff_prefix.mpr
    refine ⟨(filepath.toList.dropWhile (· ≠ '/')).tail, ?_⟩
    rw [String.toList_append, String.toList_ofList, List.append_assoc]
    exact takeWhile_slash slash
  · right
    have whole : filepath.toList.takeWhile (· ≠ '/') = filepath.toList := by
      apply List.takeWhile_eq_self_iff.mpr
      intro c inside
      have other : c ≠ '/' := fun same => slash (same ▸ inside)
      simpa using other
    rw [whole, String.ofList_toList]

theorem entriesLive_of_never (never : NeverInactive env S s) : EntriesLive s := by
  constructor
  · intro all e member d row
    by_contra dead
    obtain ⟨place, stored⟩ := List.mem_iff_getElem?.mp member
    obtain ⟨score, result⟩ := @keyword_reaches V S _ env s place e d stored row all
    apply never.keyword _ rfl _ _ _ _ _ result _ (List.mem_singleton_self _)
    exact ⟨d, (Db.getDocumentById_iff.mp row).1, rfl, rfl, Bool.of_not_eq_true dead⟩
  · intro e member d row reach
    by_contra dead
    obtain ⟨place, stored⟩ := List.mem_iff_getElem?.mp member
    have reached : ∃ requested : Requested, effectiveCollections s.db requested ≠ some [] ∧
        ∀ c cs, effectiveCollections s.db requested = some (c :: cs) →
          inScope (c :: cs) e.filepath = true ∧ e.docId ∈ s.db.activeDocumentIdsInCollections (c :: cs) := by
      rcases reach with all | ⟨owner, found, active⟩
      · have unlimited : effectiveCollections s.db none = none := if_pos all
        refine ⟨none, ?_, ?_⟩
        · rw [unlimited]
          intro impossible
          cases impossible
        · intro c cs given
          rw [unlimited] at given
          cases given
      · refine ⟨some [owner.collection.text, d.collection.text], ?_, ?_⟩
        · intro impossible
          cases impossible
        · intro c cs given
          cases given
          refine ⟨inScope_row row (List.mem_cons_of_mem _ List.mem_cons_self), ?_⟩
          obtain ⟨inside, same⟩ := Db.getDocumentById_iff.mp found
          refine List.mem_map.mpr ⟨owner, Table.mem_select.mpr ⟨inside, ?_⟩, same⟩
          simp [active]
    obtain ⟨requested, scope, allowed⟩ := reached
    obtain ⟨outcome, result, r, shown, path⟩ := @hybrid_reaches V S _ env s place e d requested stored row scope allowed
    obtain ⟨_, _, _, other, _, found, _, shows⟩ := hybrid_shows result shown
    rw [path, row] at found
    apply never.hybrid _ rfl _ _ _ _ _ _ result r shown
    rw [← Option.some.inj found] at shows
    exact ⟨d, (filepathToDoc_iff.mp row).1, shows.collection.symm, shows.path.symm, Bool.of_not_eq_true dead⟩

/-- The searches of a store show no inactive row exactly when its committed entries are live. -/
theorem never_inactive_iff (env : Env V) (S : Type) [Score S] (s : Store V) : NeverInactive env S s ↔ EntriesLive s := by
  constructor
  · exact entriesLive_of_never
  · intro live
    exact ⟨fun _ _ _ _ _ _ _ result _ member => live.keyword result member,
      fun _ _ _ _ _ _ _ result _ member => searchVec_notInactive result member,
      fun _ _ _ _ _ _ _ _ result _ member => live.hybrid result member⟩

def pairWalk : Walk :=
  ⟨[notesFile "a.md" (.ok (notesDoc "alpha")), notesFile "b.md" (.ok (notesDoc "beta"))], by decide⟩

/-- The first of two files was deleted, and the update died after it deactivated the row and before its full-text
commit. -/
def goneDisk : Disk String := (Disk.empty : Disk String).after sampleEnv
  [(.add notesCollection pairWalk, []),
    (.update none false fun _ => .walked none ⟨[notesFile "b.md" (.ok (notesDoc "beta"))], by decide⟩, cutAfter 3)]

/-- A keyword search and a hybrid query still show the deleted file. -/
theorem deleted_file_is_shown :
    (∃ results, searchFtsMultiWith sampleEngine (goneDisk.open true) "alpha" 5 none plainSearch = .ok results ∧
      ∃ r ∈ results, ShowsInactive (goneDisk.open true).db r) ∧
    ∃ outcome, hybridQueryOutcomeWith sampleEngine (goneDisk.open true) "alpha" none 5 none plainHybrid = .ok outcome ∧
      ∃ r ∈ outcome.results, ShowsInactive (goneDisk.open true).db r := by
  have dead : ∃ d ∈ (goneDisk.open true).db.documents.rows, d.collection.text = "notes" ∧ d.path = "a.md" ∧
      d.active = false := by
    decide +kernel
  obtain ⟨d, member, collection, path, inactive⟩ := dead
  have byText : (searchFtsMultiWith sampleEngine (goneDisk.open true) "alpha" 5 none plainSearch).toOption.map
      (fun results => results.map fun r => (r.collection, r.path)) = some [("notes", "a.md")] := by
    decide +kernel
  have byBoth : (hybridQueryOutcomeWith sampleEngine (goneDisk.open true) "alpha" none 5 none plainHybrid).toOption.map
      (fun outcome => outcome.results.map fun r => (r.collection, r.path)) = some [("notes", "a.md")] := by
    decide +kernel
  have shown : ∀ results : List (SearchResult Rat), results.map (fun r => (r.collection, r.path)) = [("notes", "a.md")] →
      ∃ r ∈ results, ShowsInactive (goneDisk.open true).db r := by
    intro results listed
    have inside : ("notes", "a.md") ∈ results.map fun r => (r.collection, r.path) := by
      rw [listed]
      exact List.mem_singleton_self _
    obtain ⟨r, found, place⟩ := List.mem_map.mp inside
    rw [Prod.mk.injEq] at place
    exact ⟨r, found, d, member, collection.trans place.1.symm, path.trans place.2.symm, inactive⟩
  obtain ⟨hits, text, listed⟩ := ok_of_toOption byText
  obtain ⟨outcome, both, ranked⟩ := ok_of_toOption byBoth
  exact ⟨⟨hits, text, shown hits listed⟩, outcome, both, shown outcome.results ranked⟩

end Rqmd
