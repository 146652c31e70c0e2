import Rqmd.Purge

/-! What an embed pass leaves when it comes to its end: every text it took on has rows under the fingerprint of
the path it was queued with, and the rows of all other texts are what they were. -/

namespace Rqmd
open Interrupt

variable {V : Type} {env : Env V} {backend : Backend} {excluded : List Nat} {s : Store V} {db start after : Db}
  {run : EmbedRun}

/-- A queued text: its hash and the path it is chunked for. -/
abbrev Place := String × String

def Document.place (d : Document) : Place := (d.hash, d.path)

/-- The fingerprint the vectors of a file at `relPath` carry. -/
def pathPrint (env : Env V) (backend : Backend) (relPath : String) : String :=
  embedFingerprint env.toHashes env.grammars backend.model relPath

/-- Every text has at least one chunk. -/
def Env.Chunked (env : Env V) : Prop := ∀ relPath text, env.chunkDocumentForPath relPath text ≠ []

/-! ### The queue -/

/-- The queues of the collections in turn, were nothing embedded in between. -/
def queueEach (pending : Document → Bool) (db : Db) : List Collection → List String → List Document
  | [], _ => []
  | col :: cols, seen =>
    let (todo, seen) := queueDocs pending (db.listDocuments col.name) seen
    todo ++ queueEach pending db cols seen

/-- The documents with text that an unscoped embed run queues. -/
def embedQueue (env : Env V) (backend : Backend) (db : Db) : List Document :=
  (queueEach (pendingDoc env backend (db.excludedDocs env.globs) db) db db.listCollections []).filter
    fun doc => db.contentNonEmpty doc.hash

namespace Db

theorem contentNonEmpty_iff {hash : String} :
    db.contentNonEmpty hash = true ↔ ((db.getContent hash).getD "").isEmpty = false := by
  unfold contentNonEmpty getContent getContentRow
  cases found : db.content.find? (·.hash == hash) with
  | none =>
    have none := Table.find?_none found
    simp only [Table.any_eq_true, Bool.and_eq_true, Option.map_none, Option.getD_none]
    constructor
    · rintro ⟨c, member, same, -⟩
      exact absurd same (none c member)
    · intro impossible
      exact absurd impossible (by decide)
  | some c =>
    obtain ⟨member, same⟩ := Table.find?_some found
    simp only [Table.any_eq_true, Bool.and_eq_true, Option.map_some, Option.getD_some]
    constructor
    · rintro ⟨other, inside, equal, size⟩
      have one : other = c := Table.eq_of_clash inside member ((beq_iff_eq.mp equal).trans (beq_iff_eq.mp same).symm)
      rw [one] at size
      simpa [String.isEmpty] using size
    · intro size
      exact ⟨c, member, same, by simpa [String.isEmpty] using size⟩

theorem SameTexts.contentNonEmpty (same : SameTexts db after) (hash : String) :
    after.contentNonEmpty hash = db.contentNonEmpty hash := by
  simp only [Db.contentNonEmpty, same.content]

theorem SameTexts.listDocuments (same : SameTexts db after) (name : CollectionName) :
    (after.listDocuments name).map Document.unmarked = (db.listDocuments name).map Document.unmarked := by
  have sorted : ∀ rows : List Document, (rows.insertionSort documentOrder).map Document.unmarked =
      (rows.map Document.unmarked).insertionSort documentOrder := by
    intro rows
    apply List.map_insertionSort
    intros
    exact Iff.rfl
  unfold Db.listDocuments Table.select
  rw [sorted, sorted]
  have rows := same.filter (fun d => d.active && d.collection == name) Document.unmarked (fun _ => rfl) fun _ => rfl
  rw [rows]

end Db

/-- Two queues over the same documents, up to donor marks, under predicates that agree on the hashes not seen. -/
theorem queueDocs_congr {p q : Document → Bool} {docs : List Document} : ∀ {others : List Document} {seen : List String},
    others.map Document.unmarked = docs.map Document.unmarked →
    (∀ d e : Document, d.unmarked = e.unmarked → d.hash ∉ seen → p d = q e) →
    (queueDocs p others seen).1.map Document.place = (queueDocs q docs seen).1.map Document.place ∧
      (queueDocs p others seen).2 = (queueDocs q docs seen).2 := by
  induction docs with
  | nil =>
    intro others seen same _
    have none : others = [] := by simpa using same
    rw [none]
    exact ⟨rfl, rfl⟩
  | cons doc docs ih =>
    intro others seen same agree
    cases others with
    | nil => simp at same
    | cons other others =>
      simp only [List.map_cons, List.cons.injEq] at same
      obtain ⟨head, tail⟩ := same
      have hash := (Document.alike head).hash
      have path := (Document.alike head).path
      unfold queueDocs
      by_cases seenAlready : seen.contains doc.hash = true
      · simp only [hash, seenAlready, Bool.not_true, Bool.false_and]
        exact ih tail agree
      · have answers : p other = q doc := agree other doc head (by simpa [hash] using seenAlready)
        simp only [hash, answers]
        by_cases taken : (!seen.contains doc.hash && q doc) = true
        · rw [if_pos taken, if_pos taken]
          have rest := @ih others (doc.hash :: seen) tail fun d e alike outside =>
            agree d e alike fun inside => outside (List.mem_cons_of_mem _ inside)
          have places : other.place = doc.place := by simp [Document.place, hash, path]
          exact ⟨by simp [places, rest.1], rest.2⟩
        · rw [if_neg taken, if_neg taken]
          exact ih tail agree

/-! ### The texts taken on -/

/-- The rows of an embedded text wait for the next checkpoint, which drops its old ones. -/
structure Waiting (env : Env V) (backend : Backend) (run : EmbedRun) (db : Db) (place : Place) : Prop where
  some : ∃ m ∈ run.pending, m.hash = place.1
  print : ∀ m ∈ run.pending, m.hash = place.1 → m.fingerprint = pathPrint env backend place.2
  replaced : ∀ row ∈ db.vectors, row.hash = place.1 → place.1 ∈ run.pendingDeletes

/-- A text has rows, all under the fingerprint of its path. -/
structure Stored (env : Env V) (backend : Backend) (db : Db) (place : Place) : Prop where
  some : ∃ row ∈ db.vectors, row.hash = place.1
  print : ∀ row ∈ db.vectors, row.hash = place.1 → row.embedFingerprint = pathPrint env backend place.2

/-- Where a pass that took on `taken` stands. -/
structure Embedding (env : Env V) (backend : Backend) (start : Db) (run : EmbedRun) (taken : List Place) (db : Db) :
    Prop where
  texts : start.SameTexts db
  marks : start.Marks (fun hash => hash ∈ taken.map Prod.fst ∨ start.contentNonEmpty hash = false) db
  each : ∀ place ∈ taken, Waiting env backend run db place ∨ run.Free place.1 ∧ Stored env backend db place
  others : ∀ hash, hash ∉ taken.map Prod.fst →
    run.Free hash ∧ ∀ row : VectorRow, row.hash = hash → (row ∈ db.vectors ↔ row ∈ start.vectors)

namespace Embedding

variable {taken : List Place}

theorem begun (db : Db) (interval : Nat) : Embedding env backend db (.new interval) [] db := by
  refine ⟨.refl db, .refl _ db, fun _ none => absurd none List.not_mem_nil, fun hash _ => ⟨?_, fun _ _ => Iff.rfl⟩⟩
  exact ⟨fun _ none => absurd none List.not_mem_nil, List.not_mem_nil⟩

theorem unmarked (here : Embedding env backend start run taken db) {hash : String}
    (empty : start.contentNonEmpty hash = false) : Embedding env backend start run taken (db.clearPrevHash hash) := by
  have cleared : db.Marks (fun other => other ∈ taken.map Prod.fst ∨ start.contentNonEmpty other = false)
      (db.clearPrevHash hash) := (Db.marks_clearPrevHash hash).mono fun other same => .inr (same ▸ empty)
  refine ⟨here.texts.trans (Db.sameTexts_clearPrevHash hash), here.marks.trans cleared, fun place member => ?_, here.others⟩
  exact (here.each place member).imp (fun waiting => ⟨waiting.some, waiting.print, waiting.replaced⟩)
    (And.imp_right fun stored => ⟨stored.some, stored.print⟩)

theorem failed (here : Embedding env backend start run taken db) (doc : Document) (e : Failure) :
    Embedding env backend start (run.failed doc e) taken db := by
  refine ⟨here.texts, here.marks, fun place member => ?_, here.others⟩
  exact (here.each place member).imp_left fun waiting => ⟨waiting.some, waiting.print, waiting.replaced⟩

/-- One more document is embedded: its rows wait, and its old ones are on the list to go. -/
theorem embedded (here : Embedding env backend start run taken db) {doc : Document} {batch : List AddedVector}
    (fresh : doc.hash ∉ taken.map Prod.fst) (some : batch ≠ []) (theirs : ∀ a ∈ batch, a.backend = backend) :
    Embedding env backend start (run.embedded (batchMetas env doc.hash doc.path batch)
      (if db.hashHasAnyVector doc.hash then run.pendingDeletes.insert doc.hash else run.pendingDeletes))
      (taken ++ [doc.place]) db := by
  generalize list : (if db.hashHasAnyVector doc.hash then run.pendingDeletes.insert doc.hash else run.pendingDeletes) = deletes
  have more : ∀ hash ∈ run.pendingDeletes, hash ∈ deletes := by
    intro hash listed
    rw [← list]
    split
    · exact List.mem_insert_of_mem listed
    · exact listed
  have own : ∀ m ∈ batchMetas env doc.hash doc.path batch,
      m.hash = doc.hash ∧ m.fingerprint = pathPrint env backend doc.path := by
    intro m member
    obtain ⟨i, bound, rfl⟩ := List.mem_mapIdx.mp member
    have whose := theirs _ (List.getElem_mem bound)
    exact ⟨rfl, by simp only [Store.chunkMeta, pathPrint, whose]⟩
  have free : ∀ hash, hash ≠ doc.hash → run.Free hash → EmbedRun.Free (run.embedded (batchMetas env doc.hash doc.path batch) deletes) hash := by
    intro hash apart free
    constructor
    · intro m member
      rcases List.mem_append.mp member with old | new
      · exact free.1 m old
      · rw [(own m new).1]
        exact apart.symm
    · change hash ∉ deletes
      rw [← list]
      split
      · rw [List.mem_insert_iff, not_or]
        exact ⟨apart, free.2⟩
      · exact free.2
  refine ⟨here.texts, here.marks.mono fun hash => Or.imp_left fun listed => ?_, ?_, ?_⟩
  · rw [List.map_append]
    exact List.mem_append_left _ listed
  · intro place member
    rcases List.mem_append.mp member with old | new
    · have apart : place.1 ≠ doc.hash := fun same => fresh (same ▸ List.mem_map_of_mem old)
      rcases here.each place old with waiting | ⟨unlisted, stored⟩
      · left
        obtain ⟨m, inside, same⟩ := waiting.some
        refine ⟨⟨m, List.mem_append_left _ inside, same⟩, fun m member same => ?_, fun row stored same => ?_⟩
        · rcases List.mem_append.mp member with before | added
          · exact waiting.print m before same
          · exact absurd (same.symm.trans (own m added).1) apart
        · exact more _ (waiting.replaced row stored same)
      · exact .inr ⟨free place.1 apart unlisted, stored⟩
    · left
      rw [List.mem_singleton.mp new]
      obtain ⟨m, member⟩ : ∃ m, m ∈ batchMetas env doc.hash doc.path batch := by
        apply List.exists_mem_of_ne_nil
        simpa [batchMetas] using some
      refine ⟨⟨m, List.mem_append_right _ member, (own m member).1⟩, fun m member same => ?_, fun row stored same => ?_⟩
      · rcases List.mem_append.mp member with before | added
        · exact absurd same ((here.others doc.hash fresh).1.1 m before)
        · exact (own m added).2
      · have known : db.hashHasAnyVector doc.hash = true := Table.any_eq_true.mpr ⟨row, stored, beq_iff_eq.mpr same⟩
        change doc.hash ∈ deletes
        rw [← list, if_pos known]
        exact List.mem_insert_self
  · intro hash outside
    rw [List.map_append, List.mem_append, not_or] at outside
    have apart : hash ≠ doc.hash := by simpa [Document.place] using outside.2
    exact ⟨free hash apart (here.others hash outside.1).1, (here.others hash outside.1).2⟩

/-- A checkpoint stores what waits. -/
theorem checkpointed {nextVid : Nat} (here : Embedding env backend start run taken db)
    (done : Db.Checkpointed run.pending run.pendingDeletes nextVid db after) :
    Embedding env backend start run.checkpointed taken after := by
  have nothing : ∀ hash, run.checkpointed.Free hash := fun _ => ⟨fun _ none => absurd none List.not_mem_nil, List.not_mem_nil⟩
  have listed : ∀ m ∈ run.pending, m.hash ∈ taken.map Prod.fst := by
    intro m member
    by_contra outside
    exact (here.others m.hash outside).1.1 m member rfl
  have marks : db.Marks (fun hash => hash ∈ taken.map Prod.fst ∨ start.contentNonEmpty hash = false) after := by
    refine done.marks.mono fun hash member => .inl ?_
    obtain ⟨m, inside, rfl⟩ := List.mem_map.mp member
    exact listed m inside
  refine ⟨here.texts.trans done.texts, here.marks.trans marks, fun place member => .inr ⟨nothing _, ?_⟩, fun hash outside => ⟨nothing _, ?_⟩⟩
  · rcases here.each place member with waiting | ⟨free, stored⟩
    · obtain ⟨m, inside, same⟩ := waiting.some
      obtain ⟨row, there, theirs⟩ := done.placed m inside
      refine ⟨⟨row, there, theirs.trans same⟩, fun row there theirs => ?_⟩
      rcases done.source row there with ⟨m, inside, rfl⟩ | ⟨old, kept, -⟩
      · exact waiting.print m inside theirs
      · exact absurd (theirs ▸ waiting.replaced row old theirs) kept
    · have same := done.untouched free.2 free.1
      obtain ⟨row, there, theirs⟩ := stored.some
      exact ⟨⟨row, (same row theirs).mpr there, theirs⟩, fun row there theirs => stored.print row ((same row theirs).mp there) theirs⟩
  · obtain ⟨free, rows⟩ := here.others hash outside
    exact fun row theirs => (done.untouched free.2 free.1 row theirs).trans (rows row theirs)

/-- With nothing waiting a checkpoint changes nothing. -/
theorem idle (here : Embedding env backend start run taken db) (noPending : run.pending = [])
    (noDeletes : run.pendingDeletes = []) : Embedding env backend start run.checkpointed taken db := by
  have same : run.checkpointed = run := by
    cases run
    simp_all [EmbedRun.checkpointed]
  exact same.symm ▸ here

end Embedding

/-! ### The pass -/

theorem Store.wp_checkpoint_done {pending : List PendingVectorMeta} {deletes : List String} {done : Unit → Store V → Prop}
    (met : ∀ t : Store V, t.hnsw = s.hnsw → (pending = [] ∧ deletes = [] ∧ t.db = s.db ∨
      checkpointRows pending deletes s.hnsw.nextVid s.db = .ok t.db) → done () t) :
    wp Faults.any (checkpoint pending deletes) (Ends.ifDone done) s := by
  unfold checkpoint
  split
  · next idle =>
    have nothing : pending = [] ∧ deletes = [] := by simpa using idle
    exact wp_pure (met s rfl (.inl ⟨nothing.1, nothing.2, rfl⟩))
  · refine wp_bind (wp_flush_done (wp_bind (wp_query ?_)))
    refine wp_bind (wp_sqlWrite ?_ (fun _ _ => trivial) (fun _ _ => trivial) fun _ => trivial)
    intro _ db result
    refine wp_modify (met _ flushed_hnsw (.inr ?_))
    rw [flushed_hnsw, flushed_db] at result
    cases rows : checkpointRows pending deletes s.hnsw.nextVid s.db with
    | error e =>
      rw [rows] at result
      cases result
    | ok other =>
      rw [rows] at result
      cases result
      rfl

/-- A condition on a pass, kept where a marker goes, a document fails or is embedded, and at a checkpoint. -/
structure PassRule (env : Env V) (backend : Backend) (start : Db) (along : EmbedRun → List Place → Store V → Prop) :
    Prop where
  unmarked : ∀ {run taken s} (hash : String), along run taken s →
    along run taken { s with db := s.db.clearPrevHash hash, log := s.log ++ [] }
  failed : ∀ {run : EmbedRun} {taken s t} (doc : Document) (e : Failure),
    Passes env backend [] ⟨s, [], run.pending, run.pendingDeletes⟩ ⟨t, [], run.pending, run.pendingDeletes⟩ →
    t.db = s.db → along run taken s → along (run.failed doc e) taken t
  embedded : ∀ {run : EmbedRun} {taken s u batch} (doc : Document),
    Passes env backend [] ⟨s, [], run.pending, run.pendingDeletes⟩ ⟨u, batch, run.pending, run.pendingDeletes⟩ →
    u.db = s.db → batch ≠ [] → along run taken s →
    along (run.embedded (batchMetas env doc.hash doc.path batch) (Running.after env run doc u batch).superseded)
      (taken ++ [doc.place]) (Running.after env run doc u batch).store
  checkpointed : ∀ {run : EmbedRun} {taken s} {t : Store V}, Embedding env backend start run taken s.db →
    t.hnsw = s.hnsw → (run.pending = [] ∧ run.pendingDeletes = [] ∧ t.db = s.db ∨
      Store.checkpointRows run.pending run.pendingDeletes s.hnsw.nextVid s.db = .ok t.db) →
    along run taken s → along run.checkpointed taken t

/-- What a completed loop over `todo` adds to the texts taken on: all with text, unless it stopped early or a
document failed. -/
def Took (env : Env V) (backend : Backend) (start : Db) (along : EmbedRun → List Place → Store V → Prop)
    (run : EmbedRun) (taken : List Place) (todo : List Document) (result : EmbedRun × EmbedFlow) (t : Store V) : Prop :=
  t.hnsw.readOnly = false ∧ ∃ more, (∀ place ∈ more, place ∈ todo.map Document.place) ∧
    Embedding env backend start result.1 (taken ++ more) t.db ∧ along result.1 (taken ++ more) t ∧
    (result.2 = .proceed → result.1.failures = [] → run.failures = [] ∧
      more = (todo.filter fun doc => start.contentNonEmpty doc.hash).map Document.place)

variable {along : EmbedRun → List Place → Store V → Prop}

theorem wp_embedDocs_done (chunked : env.Chunked) (rule : PassRule env backend start along) (todo : List Document) :
    ∀ (k : Nat) (run : EmbedRun) (taken : List Place) (s : Store V), s.hnsw.readOnly = false →
    Embedding env backend start run taken s.db → along run taken s →
    (todo.map Document.hash).Nodup → (∀ doc ∈ todo, doc.hash ∉ taken.map Prod.fst) →
    wp Faults.any (embedDocs env backend todo k run) (Ends.ifDone (Took env backend start along run taken todo)) s := by
  induction todo with
  | nil =>
    intro k run taken s writable here also _ _
    refine wp_pure ⟨writable, [], fun _ none => absurd none List.not_mem_nil, ?_, ?_, fun _ none => ⟨none, rfl⟩⟩
    · rwa [List.append_nil]
    · rwa [List.append_nil]
  | cons doc todo ih =>
    intro k run taken s writable here also distinct fresh
    rw [List.map_cons, List.nodup_cons] at distinct
    have rest : ∀ other ∈ todo, other.hash ∉ taken.map Prod.fst :=
      fun other later => fresh other (List.mem_cons_of_mem _ later)
    have stopped : ∀ flow, flow ≠ .proceed → Took env backend start along run taken (doc :: todo) (run, flow) s := by
      intro flow early
      refine ⟨writable, [], fun _ none => absurd none List.not_mem_nil, ?_, ?_, fun onward => absurd onward early⟩
      · rwa [List.append_nil]
      · rwa [List.append_nil]
    have body := @Db.contentNonEmpty_iff s.db doc.hash
    rw [here.texts.contentNonEmpty] at body
    unfold embedDocs
    refine wp_bind (wp_poll ?_ (fun _ => wp_pure (stopped _ (by decide))) fun _ => trivial)
    refine wp_bind (wp_poll ?_ (fun _ => wp_pure (stopped _ (by decide))) fun _ => trivial)
    refine wp_bind (wp_query ?_)
    simp only [Ends.with]
    split
    · next empty =>
      have without : start.contentNonEmpty doc.hash = false := by
        rw [Bool.eq_false_iff, ne_eq, body, empty]
        decide
      refine wp_bind (Store.wp_sqlExecute ?_ (fun _ _ => trivial) fun _ => trivial)
      have next := rule.unmarked doc.hash also
      refine wp_mono (ih k run taken _ writable (here.unmarked without) next distinct.2 rest) ?_ (fun _ _ => id) fun _ => id
      rintro result t ⟨mode, more, inside, ended, beside, all⟩
      refine ⟨mode, more, fun place member => List.mem_cons_of_mem _ (inside place member), ended, beside, ?_⟩
      simpa [without] using all
    · next some =>
      have withText : start.contentNonEmpty doc.hash = true := body.mpr (by simpa using some)
      have passes : Passes env backend [] ⟨s, [], run.pending, run.pendingDeletes⟩ ⟨s, [], run.pending, run.pendingDeletes⟩ :=
        .refl
      refine wp_bind (wp_attempt (wp_mono (Store.wp_embedDocumentChunks passes) ?_ ?_ fun _ _ => trivial))
      · rintro metas t ⟨u, batch, given, beneath, rfl, rfl, whose, theirs⟩
        have chunks : batch ≠ [] := by
          intro none
          rw [none, List.map_nil] at whose
          exact chunked _ _ whose.symm
        have next := (beneath.db.symm ▸ here : Embedding env backend start run taken u.db).embedded
          (fresh doc List.mem_cons_self) chunks theirs
        have alongside := rule.embedded doc given beneath.db chunks also
        have mode : u.hnsw.readOnly = false := beneath.readOnly.trans writable
        refine wp_bind (@Store.wp_supersedeVectors V env u run.pending run.pendingDeletes doc.hash doc.path batch _ mode ?_)
        have onward : ∀ {after : EmbedRun} {k : Nat} {v : Store V}, v.hnsw.readOnly = false → after.failures = run.failures →
            Embedding env backend start after (taken ++ [doc.place]) v.db → along after (taken ++ [doc.place]) v →
            wp Faults.any (embedDocs env backend todo k after) (Ends.ifDone (Took env backend start along run taken (doc :: todo))) v := by
          intro after k v mode failures here also
          have unseen : ∀ other ∈ todo, other.hash ∉ (taken ++ [doc.place]).map Prod.fst := by
            intro other later listed
            rw [List.map_append, List.mem_append] at listed
            rcases listed with before | now
            · exact rest other later before
            · have same : other.hash = doc.hash := by simpa [Document.place] using now
              exact distinct.1 (same ▸ List.mem_map_of_mem later)
          refine wp_mono (ih k after _ v mode here also distinct.2 unseen) ?_ (fun _ _ => id) fun _ => id
          rintro result t ⟨mode, more, inside, ended, beside, all⟩
          refine ⟨mode, doc.place :: more, fun place member => ?_, ?_, ?_, fun proceed none => ?_⟩
          · rcases List.mem_cons.mp member with rfl | later
            · exact List.mem_cons_self
            · exact List.mem_cons_of_mem _ (inside place later)
          · rwa [List.append_assoc] at ended
          · rwa [List.append_assoc] at beside
          · obtain ⟨before, exactly⟩ := all proceed none
            exact ⟨failures ▸ before, by simp [withText, exactly]⟩
        have kept : ((⟨u, batch, run.pending, run.pendingDeletes⟩ : Session V).embedded env doc.hash doc.path).store.hnsw.readOnly =
            false := by
          simp only [Session.embedded]
          split
          · exact (Store.removeVids_readOnly _ _).trans mode
          · exact mode
        simp only [Ends.with]
        split
        · refine wp_bind (Store.wp_checkpoint_done fun v index rows => ?_)
          refine onward (index ▸ kept) rfl ?_
            (rule.checkpointed (s := (Running.after env run doc u batch).store) next index rows alongside)
          rcases rows with ⟨noPending, noDeletes, same⟩ | ok
          · exact same.symm ▸ next.idle noPending noDeletes
          · exact next.checkpointed (Db.checkpointed ok)
        · exact onward kept rfl next alongside
      · rintro e t ⟨given, beneath⟩
        have next := (beneath.db.symm ▸ here : Embedding env backend start run taken t.db).failed doc e
        have alongside := rule.failed doc e given beneath.db also
        have mode : t.hnsw.readOnly = false := beneath.readOnly.trans writable
        have failed : (run.failed doc e).failures ≠ [] := by simp [EmbedRun.failed]
        simp only [Ends.with]
        split
        · refine wp_pure ⟨mode, [], fun _ none => absurd none List.not_mem_nil, ?_, ?_, fun _ none => absurd none failed⟩
          · rwa [List.append_nil]
          · rwa [List.append_nil]
        · refine wp_mono (ih k _ taken t mode next alongside distinct.2 rest) ?_ (fun _ _ => id) fun _ => id
          rintro result v ⟨mode, more, inside, ended, beside, all⟩
          refine ⟨mode, more, fun place member => List.mem_cons_of_mem _ (inside place member), ended, beside,
            fun proceed none => ?_⟩
          exact absurd (all proceed none).1 failed

/-- Texts not seen yet are as pending as they were at the start. -/
theorem Embedding.pendingDoc {taken : List Place} (excluded : List Nat) {d e : Document}
    (here : Embedding env backend start run taken db) (same : d.unmarked = e.unmarked) (outside : d.hash ∉ taken.map Prod.fst) :
    Rqmd.pendingDoc env backend excluded db d = Rqmd.pendingDoc env backend excluded start e := by
  have alike := Document.alike same
  unfold Rqmd.pendingDoc
  rw [alike.id, ← alike.hash]
  congr 1
  exact needsEmbed_congr here.texts (here.others d.hash outside).2

theorem filter_places {docs others : List Document} (same : docs.map Document.place = others.map Document.place)
    (p : String → Bool) : (docs.filter fun doc => p doc.hash).map Document.place =
      (others.filter fun doc => p doc.hash).map Document.place := by
  have through : ∀ l : List Document, (l.filter fun doc => p doc.hash).map Document.place =
      (l.map Document.place).filter fun place => p place.1 := by
    intro l
    rw [List.filter_map]
    rfl
  rw [through, through, same]

/-- What a completed loop over collections adds. -/
def TookEach (env : Env V) (backend : Backend) (start : Db) (along : EmbedRun → List Place → Store V → Prop)
    (excluded : List Nat) (run : EmbedRun) (taken : List Place) (cols : List Collection) (seen : List String)
    (result : EmbedRun × EmbedFlow) (t : Store V) : Prop :=
  t.hnsw.readOnly = false ∧ ∃ more, Embedding env backend start result.1 (taken ++ more) t.db ∧
    along result.1 (taken ++ more) t ∧
    (result.2 = .proceed → result.1.failures = [] → run.failures = [] ∧
      more = ((queueEach (Rqmd.pendingDoc env backend excluded start) start cols seen).filter
        fun doc => start.contentNonEmpty doc.hash).map Document.place)

theorem wp_embedEach_done (chunked : env.Chunked) (rule : PassRule env backend start along) (cols : List Collection) :
    ∀ (seen : List String) (run : EmbedRun) (taken : List Place) (s : Store V), s.hnsw.readOnly = false →
    Embedding env backend start run taken s.db → along run taken s → (∀ place ∈ taken, place.1 ∈ seen) →
    wp Faults.any (embedEach env backend excluded cols seen run)
      (Ends.ifDone (TookEach env backend start along excluded run taken cols seen)) s := by
  induction cols with
  | nil =>
    intro seen run taken s writable here also _
    refine wp_pure ⟨writable, [], ?_, ?_, fun _ none => ⟨none, rfl⟩⟩
    · rwa [List.append_nil]
    · rwa [List.append_nil]
  | cons col cols ih =>
    intro seen run taken s writable here also covered
    unfold embedEach
    refine wp_bind (wp_query ?_)
    obtain ⟨each, distinct, after⟩ :=
      queueDocs_spec (pendingDoc env backend excluded s.db) (s.db.listDocuments col.name) seen
    have unseen : ∀ hash, hash ∉ seen → hash ∉ taken.map Prod.fst := by
      intro hash outside listed
      obtain ⟨place, member, rfl⟩ := List.mem_map.mp listed
      exact outside (covered place member)
    obtain ⟨places, later⟩ := queueDocs_congr (here.texts.listDocuments col.name) fun d e same outside =>
      here.pendingDoc excluded same (unseen d.hash outside)
    generalize queueDocs (pendingDoc env backend excluded s.db) (s.db.listDocuments col.name) seen = queue at each distinct after places later ⊢
    have fresh : ∀ doc ∈ queue.1, doc.hash ∉ taken.map Prod.fst := fun doc member => unseen _ (each doc member).2.2
    refine wp_bind (wp_mono (wp_embedDocs_done chunked rule queue.1 0 run taken s writable here also distinct fresh) ?_
      (fun _ _ => id) fun _ => id)
    rintro ⟨next, flow⟩ t ⟨mode, more, inside, ended, beside, all⟩
    simp only [Ends.with]
    split
    · next proceeds =>
      have queued : ∀ place ∈ taken ++ more, place.1 ∈ queue.2 := by
        intro place member
        rw [after place.1]
        rcases List.mem_append.mp member with before | now
        · exact .inl (covered place before)
        · obtain ⟨doc, listed, rfl⟩ := List.mem_map.mp (inside place now)
          exact .inr (List.mem_map_of_mem listed)
      refine wp_mono (ih queue.2 next (taken ++ more) t mode ended beside queued) ?_ (fun _ _ => id) fun _ => id
      rintro result u ⟨mode, others, ended, beside, rest⟩
      refine ⟨mode, more ++ others, by rwa [← List.append_assoc], by rwa [← List.append_assoc], fun proceed none => ?_⟩
      obtain ⟨noneNext, exactly⟩ := rest proceed none
      obtain ⟨noneBefore, here⟩ := all proceeds noneNext
      refine ⟨noneBefore, ?_⟩
      simp only [queueEach, List.filter_append, List.map_append]
      rw [here, exactly, later]
      congr 1
      exact filter_places places _
    · next early =>
      exact wp_pure ⟨mode, more, ended, beside, fun proceed => absurd proceed early⟩

/-- What a completed embed pass leaves: `taken` are the texts it embedded, all that were queued unless it stopped early
or a document failed. -/
structure PassLeft (env : Env V) (backend : Backend) (start : Db) (cols : List Collection) (taken : List Place)
    (result : EmbedRun × EmbedFlow) (db : Db) : Prop where
  texts : start.SameTexts db
  marks : start.Marks (fun hash => hash ∈ taken.map Prod.fst ∨ start.contentNonEmpty hash = false) db
  stored : ∀ place ∈ taken, Stored env backend db place
  others : ∀ hash, hash ∉ taken.map Prod.fst → ∀ row : VectorRow, row.hash = hash → (row ∈ db.vectors ↔ row ∈ start.vectors)
  all : result.2 = .proceed → result.1.failures = [] → taken =
    ((queueEach (pendingDoc env backend (start.excludedDocs env.globs) start) start cols []).filter
      fun doc => start.contentNonEmpty doc.hash).map Document.place

theorem wp_embedPass_along (chunked : env.Chunked) {cols : List Collection} (writable : s.hnsw.readOnly = false)
    (rule : PassRule env backend s.db along) (begun : along (.new checkpointInterval) [] s) :
    wp Faults.any (embedPass env backend cols) (Ends.ifDone fun result t => t.hnsw.readOnly = false ∧
      ∃ taken, PassLeft env backend s.db cols taken result t.db ∧ along result.1.checkpointed taken t) s := by
  unfold embedPass
  refine wp_bind (wp_query ?_)
  refine wp_bind (wp_mono (wp_embedEach_done chunked rule cols [] (.new checkpointInterval) [] s writable
    (.begun s.db checkpointInterval) begun fun _ none => absurd none List.not_mem_nil) ?_ (fun _ _ => id) fun _ => id)
  rintro ⟨run, flow⟩ t ⟨mode, more, ended, beside, all⟩
  refine wp_bind (Store.wp_checkpoint_done fun u index rows => wp_pure ⟨index ▸ mode, more, ?_,
    rule.checkpointed ended index rows beside⟩)
  have stored : Embedding env backend s.db run.checkpointed more u.db := by
    rcases rows with ⟨noPending, noDeletes, same⟩ | ok
    · exact same.symm ▸ ended.idle noPending noDeletes
    · exact ended.checkpointed (Db.checkpointed ok)
  refine ⟨stored.texts, stored.marks, fun place member => ?_, fun hash outside => (stored.others hash outside).2, ?_⟩
  · rcases stored.each place member with waiting | ⟨-, there⟩
    · obtain ⟨m, none, -⟩ := waiting.some
      exact absurd none List.not_mem_nil
    · exact there
  · exact fun proceed none => (all proceed none).2

/-- The condition no pass can break. -/
theorem PassRule.none : PassRule (V := V) env backend start fun _ _ _ => True :=
  ⟨fun _ => id, fun _ _ _ _ => id, fun _ _ _ _ => id, fun _ _ _ => id⟩

/-! ### The run -/

/-- `embed_collections` up to its report. -/
def embedWork (env : Env V) (backend : Backend) (cols : List Collection) (rebuild : Bool) :
    Command V (EmbedRun × EmbedFlow) := do
  if rebuild then pure () else backfillVectorKeys env backend
  let result ← embedPass env backend cols
  Store.reclaimOrphanedVectors
  pure result

theorem embedCollections_eq (cols : List Collection) (rebuild : Bool) : embedCollections env backend cols rebuild =
    embedWork env backend cols rebuild >>= fun result => Prog.ofExcept (finishEmbed result.1 result.2) := by
  cases rebuild <;> simp [embedCollections, embedWork]

/-- The rows once keys are filled in for those of an earlier release. -/
def Db.keyed (env : Env V) (backend : Backend) (db : Db) : Db :=
  db.backfillVectorKeys backend.model
    (expectedFingerprint env.toHashes env.grammars backend.model ::
      (expectedAstFingerprints env.toHashes env.grammars backend.model).map AstFingerprint.fingerprint)
    (vectorKey env.toHashes backend)

theorem Db.backfill_print (model : String) (fingerprints : List String) (keyFor : String → String) (row : VectorRow) :
    (Db.backfill model fingerprints keyFor row).embedFingerprint = row.embedFingerprint := by
  unfold Db.backfill
  split
  · split <;> rfl
  · rfl

def Store.backfilled (env : Env V) (backend : Backend) (rebuild : Bool) (s : Store V) : Store V :=
  if rebuild then s else { s with db := s.db.keyed env backend }

/-- What the work of an embed run leaves: `mid` is the store between the pass and the reclaim. -/
structure WorkLeft (env : Env V) (backend : Backend) (cols : List Collection) (u : Store V) (taken : List Place)
    (result : EmbedRun × EmbedFlow) (mid t : Store V) : Prop where
  pass : PassLeft env backend u.db cols taken result mid.db
  steps : Passes env backend (u.db.excludedDocs env.globs) (.of u) (.of mid)
  reclaimed : Store.Reclaimed mid.db.orphanedVectorHashes mid t
  inStep : mid.InStep → t.InStep

theorem wp_embedWork_along {cols : List Collection} {rebuild : Bool} (chunked : env.Chunked)
    (writable : s.hnsw.readOnly = false) (rule : PassRule env backend (s.backfilled env backend rebuild).db along)
    (begun : along (.new checkpointInterval) [] (s.backfilled env backend rebuild)) :
    wp Faults.any (embedWork env backend cols rebuild) (Ends.ifDone fun result t => ∃ taken mid,
      WorkLeft env backend cols (s.backfilled env backend rebuild) taken result mid t ∧
        along result.1.checkpointed taken mid) s := by
  have onward : ∀ u : Store V, u.hnsw.readOnly = false → PassRule env backend u.db along →
      along (.new checkpointInterval) [] u → wp Faults.any (do
      let result ← embedPass env backend cols
      Store.reclaimOrphanedVectors
      pure result : Command V (EmbedRun × EmbedFlow)) (Ends.ifDone fun result t =>
        ∃ taken mid, WorkLeft env backend cols u taken result mid t ∧ along result.1.checkpointed taken mid) u := by
    intro u mode rule begun
    have pass := wp_and (wp_embedPass_along chunked mode rule begun) (@wp_embedPass V env backend u cols mode)
    refine wp_bind (wp_mono pass ?_ (fun _ _ _ => trivial) fun _ _ => trivial)
    rintro result mid ⟨⟨mode, taken, pass, beside⟩, steps, -⟩
    refine wp_bind (Store.wp_reclaimOrphanedVectors mode fun t reclaimed inStep _ => ?_)
    exact wp_pure ⟨taken, mid, ⟨pass, steps, reclaimed, inStep⟩, beside⟩
  unfold embedWork
  unfold Store.backfilled at rule begun ⊢
  cases rebuild with
  | true => exact onward s writable rule begun
  | false =>
    refine wp_bind (Store.wp_sqlExecute ?_ (fun _ _ => trivial) fun _ => trivial)
    simp only [List.append_nil]
    exact onward _ writable rule begun

theorem wp_embedWork {cols : List Collection} {rebuild : Bool} (chunked : env.Chunked) (writable : s.hnsw.readOnly = false) :
    wp Faults.any (embedWork env backend cols rebuild) (Ends.ifDone fun result t =>
      ∃ taken mid, WorkLeft env backend cols (s.backfilled env backend rebuild) taken result mid t) s := by
  refine wp_mono (wp_embedWork_along chunked writable .none trivial) (fun result t left => ?_) (fun _ _ => id) fun _ => id
  obtain ⟨taken, mid, work, -⟩ := left
  exact ⟨taken, mid, work⟩

theorem finishEmbed_ok {run : EmbedRun} {flow : EmbedFlow} (ok : finishEmbed run flow = .ok ()) :
    flow = .proceed ∧ run.failures = [] := by
  cases flow with
  | proceed =>
    refine ⟨rfl, ?_⟩
    by_contra some
    simp [finishEmbed, some] at ok
  | abort => cases ok
  | timedOut => cases ok
  | interrupted => cases ok

end Rqmd
