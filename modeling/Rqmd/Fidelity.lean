import Rqmd.Results
import Rqmd.Purge

/-! What results say about their documents. Keyword and vector results carry the row's own title. A hybrid result
carries the title of the first ranked list with its filepath, and keyword lists are ranked without titles. -/

namespace Rqmd

/-- A result whose title, docid and body are those of the row at its collection and path. -/
def Faithful {S : Type} (db : Db) (r : SearchResult S) : Prop :=
  ∃ d, db.getDocumentAt r.collection r.path = some d ∧ r.title = d.title ∧ r.docid = docidFromHash d.hash ∧ r.body = d.raw

theorem Shows.at {S : Type} {db : Db} {d : Document} {title : String} {r : SearchResult S} (shows : Shows d title r)
    (member : d ∈ db.documents) : db.getDocumentAt r.collection r.path = some d :=
  Db.getDocumentAt_iff.mpr ⟨member, shows.collection.symm, shows.path.symm⟩

theorem Shows.faithful {S : Type} {db : Db} {d : Document} {r : SearchResult S} (shows : Shows d d.title r)
    (member : d ∈ db.documents) : Faithful db r :=
  ⟨d, shows.at member, shows.title, shows.docid, shows.body⟩

/-- A result that shows a row is faithful exactly when it has the row's title. -/
theorem Shows.faithful_iff {S : Type} {db : Db} {d : Document} {title : String} {r : SearchResult S}
    (shows : Shows d title r) (member : d ∈ db.documents) : Faithful db r ↔ title = d.title := by
  constructor
  · intro ⟨other, found, same, _⟩
    have one : d = other := Option.some.inj ((shows.at member).symm.trans found)
    rw [one, ← same, shows.title]
  · intro same
    exact (same ▸ shows).faithful member

/-! ### The first list of a file -/

def holdsFile {S : Type} (filepath : String) (list : List (RankedResult S) × RankedListMeta) : Bool :=
  list.1.any fun r => r.filepath == filepath

/-- The first of the ranked lists that holds a filepath. -/
def firstList {S : Type} (ranked : Ranked S) (filepath : String) : Option (List (RankedResult S) × RankedListMeta) :=
  ranked.find? (holdsFile filepath)

/-- A vector search ranked the file before any keyword search did. -/
def VectorFirst {S : Type} (ranked : Ranked S) (filepath : String) : Prop :=
  ∃ list, firstList ranked filepath = some list ∧ list.2.source ∉ keywordSources

theorem firstRanked_firstList {S : Type} {ranked : Ranked S} {filepath : String} {first : RankedResult S}
    (met : firstRanked (ranked.map Prod.fst) filepath = some first) :
    ∃ list ∈ ranked, firstList ranked filepath = some list ∧ first ∈ list.1 := by
  induction ranked with
  | nil => cases met
  | cons list rest ih =>
    unfold firstRanked at met
    rw [List.map_cons, List.flatten_cons, List.find?_append] at met
    unfold firstList
    cases here : list.1.find? fun r => r.filepath == filepath with
    | some r =>
      have same : r = first := by
        rw [here] at met
        exact Option.some.inj met
      have hit : (r.filepath == filepath) = true := @List.find?_some _ (fun r : RankedResult S => r.filepath == filepath) _ _ here
      have holds : holdsFile filepath list = true :=
        List.any_eq_true.mpr ⟨r, List.mem_of_find?_eq_some here, hit⟩
      rw [List.find?_cons_of_pos holds]
      exact ⟨list, List.mem_cons_self, rfl, same ▸ List.mem_of_find?_eq_some here⟩
    | none =>
      have lacks : ¬ holdsFile filepath list = true := by
        intro any
        obtain ⟨r, member, same⟩ := List.any_eq_true.mp any
        exact List.find?_eq_none.mp here r member same
      rw [here, Option.none_or] at met
      rw [List.find?_cons_of_neg lacks]
      obtain ⟨found, member, first', inside⟩ := ih met
      exact ⟨found, List.mem_cons_of_mem _ member, first', inside⟩

variable {V S : Type} [Score S]

/-- The title fusion keeps for a row's filepath is the row's exactly where a vector search came first, unless the
row has none. -/
theorem Legs.title_iff {engine : Engine V S} {s : Store V} {collections : Requested} {size : Nat} {ranked : Ranked S}
    (legs : Legs engine s collections size ranked) (room : 0 < size) {filepath : String} {first : RankedResult S}
    (met : firstRanked (ranked.map Prod.fst) filepath = some first) {d : Document}
    (row : filepathToDoc s.db filepath = some d) :
    first.title = d.title ↔ d.title = "" ∨ VectorFirst ranked filepath := by
  obtain ⟨list, member, held, inside⟩ := firstRanked_firstList met
  have path := (firstRanked_mem met).1
  have leg := legs list member
  cases leg with
  | keyword found source =>
    have untitled := (keyword_first inside).1
    rw [untitled]
    constructor
    · exact fun same => .inl same.symm
    · intro either
      rcases either with same | ⟨other, equal, vector⟩
      · exact same.symm
      · have one : _ = other := Option.some.inj (held.symm.trans equal)
        exact absurd (one ▸ source) vector
  | vector found source =>
    obtain ⟨e, near, place, title⟩ := vector_first room found inside
    have same : e = d := by
      rw [← path, ← place, filepathToDoc_filepath near.member] at row
      exact Option.some.inj row
    constructor
    · exact fun _ => .inr ⟨_, held, source⟩
    · exact fun _ => by rw [← title, same]

/-- Every keyword and vector result is faithful. A hybrid result has the docid and the body of its row, and is
faithful exactly where the row has no title or a vector search ranked the file first. -/
theorem results_faithful_iff (engine : Engine V S) (s : Store V) (query : String) (limit : Nat) (requested : Requested) :
    (∀ options results, searchFtsMultiWith engine s query limit requested options = .ok results →
      ∀ r ∈ results, Faithful s.db r) ∧
    (∀ options results, searchVecMultiWith engine s query limit requested options = .ok results →
      ∀ r ∈ results, Faithful s.db r) ∧
    ∀ intent options outcome, hybridQueryOutcomeWith engine s query intent limit requested options = .ok outcome →
      ∀ r ∈ outcome.results, ∃ ranked d,
        rankedLists engine s query intent limit requested options.noExpand = .ok ranked ∧
          s.db.getDocumentAt r.collection r.path = some d ∧ r.docid = docidFromHash d.hash ∧ r.body = d.raw ∧
            (Faithful s.db r ↔ d.title = "" ∨ VectorFirst ranked r.filepath) := by
  refine ⟨?keyword, ?vector, ?hybrid⟩
  case keyword =>
    intro options results result r member
    obtain ⟨_, e, _, d, row, shows⟩ := searchFts_shows result member
    exact shows.faithful (Db.getDocumentById_iff.mp row).1
  case vector =>
    intro options results result r member
    obtain ⟨_, d, near, shows⟩ := searchVec_shows result member
    exact shows.faithful near.member
  case hybrid =>
    intro intent options outcome result r member
    obtain ⟨_, ranked, lists, d, first, row, met, shows⟩ := hybrid_shows result member
    have stored := (filepathToDoc_iff.mp row).1
    have title := (retrieved_legs lists).title_iff (fetchSize_pos limit) met row
    exact ⟨ranked, d, lists, shows.at stored, shows.docid, shows.body, (shows.faithful_iff stored).trans title⟩

/-- A document that only a vector search finds keeps its title. -/
theorem vector_leg_keeps_title :
    ∃ outcome, hybridQueryOutcomeWith sampleEngine (Db.editedDisk.open true) "vec: alpha" none 5 none plainHybrid =
        .ok outcome ∧
      outcome.results.map (fun r => (r.file, r.title)) = [("rqmd://work/a.md", "a")] ∧
        ∀ r ∈ outcome.results, ∃ ranked d,
          rankedLists sampleEngine (Db.editedDisk.open true) "vec: alpha" none 5 none false = .ok ranked ∧
            (Db.editedDisk.open true).db.getDocumentAt r.collection r.path = some d ∧
              r.docid = docidFromHash d.hash ∧ r.body = d.raw ∧
                (Faithful (Db.editedDisk.open true).db r ↔ d.title = "" ∨ VectorFirst ranked r.filepath) := by
  obtain ⟨-, -, hybrid⟩ := results_faithful_iff sampleEngine (Db.editedDisk.open true) "vec: alpha" 5 none
  have shown : (hybridQueryOutcomeWith sampleEngine (Db.editedDisk.open true) "vec: alpha" none 5 none
      plainHybrid).toOption.map (fun outcome => outcome.results.map fun r => (r.file, r.title)) =
        some [("rqmd://work/a.md", "a")] := by
    decide +kernel
  obtain ⟨outcome, done, titles⟩ := ok_of_toOption shown
  exact ⟨outcome, done, titles, hybrid none plainHybrid outcome done⟩

/-- A keyword search ranks the file first, and its title is gone. -/
theorem keyword_leg_drops_title :
    ((hybridQueryOutcomeWith sampleEngine (Db.editedDisk.open true) "beta" none 5 none plainHybrid).toOption.map
      fun outcome => outcome.results.map fun r => (r.collection, r.path, r.title)) =
        some [("notes", "a.md", ""), ("work", "a.md", "a")] ∧
    ((Db.editedDisk.open true).db.getDocumentAt "notes" "a.md").map Document.title = some "a" := by
  decide +kernel

end Rqmd
