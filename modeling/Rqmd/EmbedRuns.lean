import Mathlib.Data.List.ReduceOption
import Rqmd.EmbedSteps
import Rqmd.VectorRows
import Rqmd.Allocation

/-! Every run of an embed pass takes embed steps, whatever fails and wherever it is cut. -/

namespace Rqmd
open Interrupt

variable {V : Type} {env : Env V} {backend : Backend} {excluded : List Nat} {start : Session V} {s : Store V}
  {pending : List PendingVectorMeta} {superseded : List String}

def Passes (env : Env V) (backend : Backend) (excluded : List Nat) (start : Session V) : Session V → Prop :=
  Relation.ReflTransGen (EmbedStep env backend excluded) start

/-- A store some session of the pass has. -/
def Left (env : Env V) (backend : Backend) (excluded : List Nat) (start : Session V) (s : Store V) : Prop :=
  ∃ m, Passes env backend excluded start m ∧ m.store = s

theorem Passes.next {m n : Session V} (run : Passes env backend excluded start m)
    (step : EmbedStep env backend excluded m n) : Passes env backend excluded start n := run.tail step

theorem Passes.left {m : Session V} (run : Passes env backend excluded start m) :
    Left env backend excluded start m.store := ⟨m, run, rfl⟩

/-- What the embedding of one document leaves alone. -/
structure Store.Beneath (s t : Store V) : Prop where
  db : t.db = s.db
  readOnly : t.hnsw.readOnly = s.hnsw.readOnly
  dirty : s.hnswDirty = true → t.hnswDirty = true

theorem Store.Beneath.refl (s : Store V) : s.Beneath s := ⟨rfl, rfl, id⟩

theorem Store.Beneath.trans {s t u : Store V} (first : s.Beneath t) (second : t.Beneath u) : s.Beneath u :=
  ⟨second.db.trans first.db, second.readOnly.trans first.readOnly, second.dirty ∘ first.dirty⟩

namespace Store

theorem sourced_add {chunk : Chunk} {vector fresh : V} {vid : Nat} {index : VectorIndex V} {log : List Event}
    (sourced : Sourced env s backend chunk vector) (result : s.hnsw.add fresh = (some vid, index)) :
    Sourced env { s with hnsw := index, log := log } backend chunk vector := by
  rcases sourced with own | ⟨held, candidate, there⟩
  · exact .inl own
  · exact .inr ⟨held, candidate, VectorIndex.getVector_add result there⟩

theorem wp_addAllOrRollback (work : List (Chunk × V)) : ∀ (s : Store V) (batch : List AddedVector),
    Passes env backend excluded start ⟨s, batch, pending, superseded⟩ →
    (∀ item ∈ work, Sourced env s backend item.1 item.2) →
    wp Faults.any (addAllOrRollback (work.map Prod.snd) (batch.map AddedVector.vid))
      ⟨fun vids t => ∃ added, Passes env backend excluded start ⟨t, batch ++ added, pending, superseded⟩ ∧ s.Beneath t ∧
          vids = (batch ++ added).map AddedVector.vid ∧ added.map AddedVector.chunk = work.map Prod.fst ∧
          ∀ a ∈ added, a.backend = backend,
        fun _ t => Passes env backend excluded start ⟨t, [], pending, superseded⟩ ∧ s.Beneath t,
        Left env backend excluded start⟩ s := by
  induction work with
  | nil =>
    intro s batch run _
    refine wp_pure ⟨[], ?_, .refl s, ?_, rfl, fun _ member => absurd member List.not_mem_nil⟩
    · rwa [List.append_nil]
    · rw [List.append_nil]
  | cons item work ih =>
    intro s batch run sourced
    have rollback : ∀ t : Store V, Passes env backend excluded start ⟨t, batch, pending, superseded⟩ → s.Beneath t →
        ∀ e, wp Faults.any (do
          Prog.modify fun s => { s with hnsw := removeVids s.hnsw (batch.map AddedVector.vid) }
          Prog.throw e : Command V (List Nat))
        ⟨fun vids t => ∃ added, Passes env backend excluded start ⟨t, batch ++ added, pending, superseded⟩ ∧
            s.Beneath t ∧ vids = (batch ++ added).map AddedVector.vid ∧
            added.map AddedVector.chunk = (item :: work).map Prod.fst ∧ ∀ a ∈ added, a.backend = backend,
          fun _ t => Passes env backend excluded start ⟨t, [], pending, superseded⟩ ∧ s.Beneath t,
          Left env backend excluded start⟩ t := by
      intro t here beneath e
      refine wp_bind (wp_modify (wp_throw ⟨here.next (.rolledBack _), beneath.trans ?_⟩))
      exact ⟨rfl, removeVids_readOnly _ _, id⟩
    refine wp_bind (wp_attempt (wp_hnswAdd ?_ ?_ ?_ ?_))
    · intro vid index given
      have step : Passes env backend excluded start ⟨{ s with hnsw := index, log := s.log ++ [.vidAssigned vid] },
          batch ++ [⟨backend, item.1, vid⟩], pending, superseded⟩ :=
        run.next (.added _ item.1 item.2 vid index (sourced item List.mem_cons_self) given)
      have batched : (batch ++ [(⟨backend, item.1, vid⟩ : AddedVector)]).map AddedVector.vid = batch.map AddedVector.vid ++ [vid] := by
        simp
      have rest := ih { s with hnsw := index, log := s.log ++ [.vidAssigned vid] } (batch ++ [⟨backend, item.1, vid⟩])
        step fun other member => sourced_add (sourced other (List.mem_cons_of_mem _ member)) given
      rw [batched] at rest
      have beneath : s.Beneath { s with hnsw := index, log := s.log ++ [.vidAssigned vid] } :=
        ⟨rfl, VectorIndex.add_readOnly given, id⟩
      refine wp_mono rest ?_ (fun _ t ended => ⟨ended.1, beneath.trans ended.2⟩) fun _ => id
      rintro vids t ⟨added, here, under, same, chunks, theirs⟩
      refine ⟨⟨backend, item.1, vid⟩ :: added, ?_, beneath.trans under, ?_, ?_, ?_⟩
      · simpa using here
      · simpa using same
      · simpa using chunks
      · intro a member
        rcases List.mem_cons.mp member with rfl | inside
        · rfl
        · exact theirs a inside
    · intro index full e
      exact rollback _ (run.next (.refused _ item.2 index full)) ⟨rfl, VectorIndex.add_readOnly full, id⟩ e
    · exact fun _ e => rollback s run (.refl s) e
    · exact fun _ => run.left

theorem sourced_passage (chunk : Chunk) : Sourced env s backend chunk
    ((s.reusable backend.model (chunkKey env backend chunk)).getD (env.passageVector backend chunk.text)) := by
  cases held : s.reusable backend.model (chunkKey env backend chunk) with
  | none => exact .inl rfl
  | some vector =>
    obtain ⟨vid, candidate, there⟩ := List.exists_of_findSome?_eq_some held
    have either : s.stagedVectors.lookup (chunkKey env backend chunk) = some vid ∨
        s.db.reusableVectorVid backend.model (chunkKey env backend chunk) = some vid := by
      have listed := List.reduceOption_mem_iff.mp candidate
      simpa [eq_comm] using listed
    exact .inr ⟨vid, either, there⟩

/-- The batch of a document, told from its chunks and the vids they were given. -/
theorem batch_pairs {batch : List AddedVector} {chunks : List Chunk} {vids : List Nat}
    (whose : batch.map AddedVector.chunk = chunks) (given : vids = batch.map AddedVector.vid)
    (theirs : ∀ a ∈ batch, a.backend = backend) (hash relPath : String) :
    (chunks.zip vids).mapIdx (fun seq pair => chunkMeta env backend hash relPath chunks.length seq pair.1 pair.2) =
        batchMetas env hash relPath batch ∧
      (chunks.map (chunkKey env backend)).zip vids = batch.map fun added => (added.key env, added.vid) := by
  subst whose given
  constructor
  · rw [List.zip_map', batchMetas]
    apply List.ext_getElem
    · simp
    · intro i left right
      have bound : i < batch.length := by simpa using right
      have own : batch[i].backend = backend := theirs _ (List.getElem_mem bound)
      simp [own]
  · rw [List.map_map, List.zip_map']
    apply List.map_congr_left
    intro a member
    simp [AddedVector.key, theirs a member]

/-- The store once a document's vectors are all added. -/
def batched (env : Env V) (s : Store V) (batch : List AddedVector) : Store V :=
  { s with
    hnswDirty := true
    stagedVectors := (batch.map fun added => (added.key env, added.vid)).foldl stage s.stagedVectors }

theorem wp_embedDocumentChunks {hash relPath body : String}
    (run : Passes env backend excluded start ⟨s, [], pending, superseded⟩) :
    wp Faults.any (embedDocumentChunks env backend hash relPath body)
      ⟨fun metas t => ∃ u batch, Passes env backend excluded start ⟨u, batch, pending, superseded⟩ ∧ s.Beneath u ∧
          metas = batchMetas env hash relPath batch ∧ t = u.batched env batch ∧
          batch.map AddedVector.chunk = env.chunkDocumentForPath relPath body ∧ ∀ a ∈ batch, a.backend = backend,
        fun _ t => Passes env backend excluded start ⟨t, [], pending, superseded⟩ ∧ s.Beneath t,
        Left env backend excluded start⟩ s := by
  unfold embedDocumentChunks
  refine wp_bind (wp_embedPassagesReusing ?_ (fun _ _ => ⟨run, .refl s⟩) fun _ => run.left)
  let own : Chunk → V := fun chunk => (s.reusable backend.model (chunkKey env backend chunk)).getD
    (env.passageVector backend chunk.text)
  let work := (env.chunkDocumentForPath relPath body).map fun chunk => (chunk, own chunk)
  have vectors : passages env s backend (env.chunkDocumentForPath relPath body) = work.map Prod.snd := by
    simp [work, passages, own]
  have chunks : work.map Prod.fst = env.chunkDocumentForPath relPath body := by
    simp [work, Function.comp_def]
  have sourced : ∀ item ∈ work, Sourced env s backend item.1 item.2 := by
    intro item member
    obtain ⟨chunk, -, rfl⟩ := List.mem_map.mp member
    exact sourced_passage chunk
  have added := wp_addAllOrRollback work s [] run sourced
  rw [vectors]
  refine wp_bind (wp_mono added ?_ (fun _ _ => id) fun _ => id)
  rintro vids u ⟨batch, here, beneath, given, whose, theirs⟩
  rw [List.nil_append] at here given
  rw [chunks] at whose
  obtain ⟨metas, keys⟩ := batch_pairs whose given theirs hash relPath
  refine wp_bind (wp_modify (wp_pure ⟨u, batch, here, beneath, metas, ?_, whose, theirs⟩))
  rw [batched, ← keys]

theorem wp_supersedeVectors {hash relPath : String} {batch : List AddedVector}
    {ends : Ends (Store V) Failure (List String)} (writable : s.hnsw.readOnly = false)
    (done : ends.done ((⟨s, batch, pending, superseded⟩ : Session V).embedded env hash relPath).superseded
      ((⟨s, batch, pending, superseded⟩ : Session V).embedded env hash relPath).store) :
    wp Faults.any (supersedeVectors hash superseded) ends (s.batched env batch) := by
  unfold supersedeVectors
  refine wp_bind (wp_query ?_)
  have same : (s.batched env batch).db = s.db := rfl
  simp only [Ends.with, same]
  cases known : s.db.hashHasAnyVector hash with
  | false =>
    simp only [Session.embedded, known] at done
    exact wp_pure done
  | true =>
    simp only [Session.embedded, known, if_true] at done
    unfold evictHash
    refine wp_bind (wp_bind (wp_query ?_))
    exact wp_evictHnswVectors writable (wp_pure done)

/-! ### Checkpoints -/

variable {batch : List AddedVector}

theorem passes_settled (run : Passes env backend excluded start ⟨s, batch, pending, superseded⟩) :
    Passes env backend excluded start ⟨s.settled, batch, pending, superseded⟩ := by
  unfold settled
  split
  · exact run.next (.aside _ s.fts.commitStaged s.hnswDirty [.ftsCommitted] (by simp [Event.quiet]))
  · exact run

theorem passes_renamed (run : Passes env backend excluded start ⟨s, batch, pending, superseded⟩)
    (writable : s.hnsw.readOnly = false) : Passes env backend excluded start ⟨s.renamed, batch, pending, superseded⟩ :=
  run.next (.saved _ writable)

theorem passes_flushed (run : Passes env backend excluded start ⟨s, batch, pending, superseded⟩)
    (writable : s.hnsw.readOnly = false) : Passes env backend excluded start ⟨s.flushed, batch, pending, superseded⟩ := by
  have settled := passes_settled run
  unfold flushed
  split
  · have step := (passes_renamed settled (by simpa using writable)).next
      (.aside _ s.settled.renamed.fts false [] fun _ member => absurd member List.not_mem_nil)
    simpa only [Session.withStore, List.append_nil, saved] using step
  · exact settled

theorem wp_flush_passes (run : Passes env backend excluded start ⟨s, batch, pending, superseded⟩)
    (writable : s.hnsw.readOnly = false) {ends : Ends (Store V) Failure Unit} (done : ends.done () s.flushed)
    (error : ∀ e t, Left env backend excluded start t → ends.error e t)
    (died : ∀ t, Left env backend excluded start t → ends.died t) : wp Faults.any flush ends s := by
  have settled := passes_settled run
  have renamed := passes_renamed settled (by simpa using writable)
  refine wp_flush done ?_ ?_ ?_ ?_
  · intro _ mode
    rw [writable] at mode
    cases mode
  · exact fun _ e => ⟨error e _ run.left, error e _ settled.left⟩
  · exact fun _ _ _ e => ⟨error e _ settled.left, error e _ renamed.left⟩
  · exact fun _ => ⟨died _ run.left, died _ settled.left, fun _ _ => died _ renamed.left⟩

theorem wp_checkpoint (run : Passes env backend excluded start ⟨s, [], pending, superseded⟩)
    (writable : s.hnsw.readOnly = false) (dirty : pending ≠ [] ∨ superseded ≠ [] → s.hnswDirty = true) :
    wp Faults.any (checkpoint pending superseded)
      ⟨fun _ t => Passes env backend excluded start ⟨t, [], [], []⟩ ∧ t.hnsw.readOnly = false ∧
          ((pending = [] ∧ superseded = [] ∧ t = s) ∨
            checkpointRows pending superseded s.hnsw.nextVid s.db = .ok t.db),
        fun _ => Left env backend excluded start, Left env backend excluded start⟩ s := by
  unfold checkpoint
  by_cases idle : pending = [] ∧ superseded = []
  · obtain ⟨rfl, rfl⟩ := idle
    exact wp_pure ⟨run, writable, .inl ⟨rfl, rfl, rfl⟩⟩
  · have work : pending ≠ [] ∨ superseded ≠ [] := by
      by_contra none
      exact idle (by simpa using none)
    rw [if_neg (by simpa using idle)]
    have flushed := passes_flushed run writable
    have durable : s.flushed.hnswFile = some s.flushed.hnsw.inner := by
      simp [Store.flushed, dirty work, saved, Store.renamed]
    refine wp_bind (wp_flush_passes run writable ?_ (fun _ _ => id) fun _ => id)
    refine wp_bind (wp_query ?_)
    refine wp_bind (wp_sqlWrite ?_ (fun _ _ => flushed.left) (fun _ _ => flushed.left) fun _ => flushed.left)
    intro _ db result
    have rows : checkpointRows pending superseded s.flushed.hnsw.nextVid s.flushed.db = .ok db := by
      cases found : checkpointRows pending superseded s.flushed.hnsw.nextVid s.flushed.db with
      | error e =>
        rw [found] at result
        cases result
      | ok other =>
        rw [found] at result
        cases result
        rfl
    refine wp_modify ⟨flushed.next (.committed _ db durable rows), ?_, .inr ?_⟩
    · simpa using writable
    · simpa using rows

end Store

/-- The run has not taken the hash on. -/
def EmbedRun.Free (run : EmbedRun) (hash : String) : Prop :=
  (∀ m ∈ run.pending, m.hash ≠ hash) ∧ hash ∉ run.pendingDeletes

/-- What holds while the documents `todo` are still to come. -/
structure Running (env : Env V) (backend : Backend) (excluded : List Nat) (start : Session V) (run : EmbedRun)
    (todo : List Document) (s : Store V) : Prop where
  here : Passes env backend excluded start ⟨s, [], run.pending, run.pendingDeletes⟩
  writable : s.hnsw.readOnly = false
  dirty : run.pending ≠ [] ∨ run.pendingDeletes ≠ [] → s.hnswDirty = true
  pending : ∀ doc ∈ todo, needsEmbed env backend excluded s.db doc.hash = true
  free : ∀ doc ∈ todo, run.Free doc.hash

namespace Running

variable {run : EmbedRun} {doc : Document} {todo : List Document}

theorem tail (running : Running env backend excluded start run (doc :: todo) s) :
    Running env backend excluded start run todo s :=
  ⟨running.here, running.writable, running.dirty, fun other member => running.pending other (List.mem_cons_of_mem _ member),
    fun other member => running.free other (List.mem_cons_of_mem _ member)⟩

theorem unmarked (running : Running env backend excluded start run todo s) (hash : String) :
    Running env backend excluded start run todo { s with db := s.db.clearPrevHash hash } := by
  refine ⟨running.here.next (.unmarked _ hash), running.writable, running.dirty, fun other member => ?_, running.free⟩
  have same : needsEmbed env backend excluded (s.db.clearPrevHash hash) other.hash =
      needsEmbed env backend excluded s.db other.hash :=
    needsEmbed_congr (Db.sameTexts_clearPrevHash hash) fun _ _ => Iff.rfl
  exact same.trans (running.pending other member)

theorem failed {e : Failure} (running : Running env backend excluded start run todo s) {t : Store V}
    (here : Passes env backend excluded start ⟨t, [], run.pending, run.pendingDeletes⟩) (beneath : s.Beneath t) :
    Running env backend excluded start (run.failed doc e) todo t :=
  ⟨here, beneath.readOnly.trans running.writable, fun work => beneath.dirty (running.dirty work),
    fun other member => beneath.db.symm ▸ running.pending other member, running.free⟩

/-- The session once the document is embedded. -/
def after (env : Env V) (run : EmbedRun) (doc : Document) (u : Store V) (batch : List AddedVector) : Session V :=
  (⟨u, batch, run.pending, run.pendingDeletes⟩ : Session V).embedded env doc.hash doc.path

/-- The hashes of the rows a document adds. -/
theorem batchMetas_hash {hash relPath : String} {batch : List AddedVector} {m : PendingVectorMeta}
    (member : m ∈ batchMetas env hash relPath batch) : m.hash = hash := by
  obtain ⟨i, bound, rfl⟩ := List.mem_mapIdx.mp member
  rfl

theorem free_after {u : Store V} {batch : List AddedVector} {other : String} (free : run.Free other)
    (apart : other ≠ doc.hash) :
    (∀ m ∈ (after env run doc u batch).pending, m.hash ≠ other) ∧ other ∉ (after env run doc u batch).superseded := by
  constructor
  · intro m member
    rcases List.mem_append.mp member with old | new
    · exact free.1 m old
    · rw [batchMetas_hash new]
      exact apart.symm
  · simp only [after, Session.embedded]
    split
    · rw [List.mem_insert_iff]
      rintro (same | old)
      · exact apart same
      · exact free.2 old
    · exact free.2

theorem embedded (running : Running env backend excluded start run (doc :: todo) s)
    (distinct : doc.hash ∉ todo.map Document.hash) {u : Store V} {batch : List AddedVector}
    (here : Passes env backend excluded start ⟨u, batch, run.pending, run.pendingDeletes⟩) (beneath : s.Beneath u) :
    Running env backend excluded start
      (run.embedded (batchMetas env doc.hash doc.path batch) (after env run doc u batch).superseded) todo
      (after env run doc u batch).store := by
  have needs : needsEmbed env backend excluded u.db doc.hash = true :=
    beneath.db.symm ▸ running.pending doc List.mem_cons_self
  have step := here.next (.embedded _ doc.hash doc.path needs (running.free doc List.mem_cons_self).1)
  refine ⟨step, ?_, fun _ => rfl, ?_, ?_⟩
  · have kept : (after env run doc u batch).store.hnsw.readOnly = u.hnsw.readOnly := by
      simp only [after, Session.embedded]
      split
      · exact Store.removeVids_readOnly _ _
      · rfl
    exact kept.trans (beneath.readOnly.trans running.writable)
  · intro other member
    exact beneath.db.symm ▸ running.pending other (List.mem_cons_of_mem _ member)
  · intro other member
    refine free_after (running.free other (List.mem_cons_of_mem _ member)) fun same => ?_
    exact distinct (same ▸ List.mem_map_of_mem member)

theorem checkpointed (running : Running env backend excluded start run todo s) {t : Store V}
    (here : Passes env backend excluded start ⟨t, [], [], []⟩) (writable : t.hnsw.readOnly = false)
    (rows : (run.pending = [] ∧ run.pendingDeletes = [] ∧ t = s) ∨
      Store.checkpointRows run.pending run.pendingDeletes s.hnsw.nextVid s.db = .ok t.db) :
    Running env backend excluded start run.checkpointed todo t := by
  refine ⟨here, writable, fun work => ?_, fun other member => ?_, fun other member => ?_⟩
  · exact work.elim (fun some => absurd rfl some) fun some => absurd rfl some
  · rcases rows with ⟨-, -, rfl⟩ | ok
    · exact running.pending other member
    · have done := Db.checkpointed ok
      have free := running.free other member
      have same : needsEmbed env backend excluded t.db other.hash = needsEmbed env backend excluded s.db other.hash :=
        needsEmbed_congr done.texts fun row theirs => done.untouched free.2 free.1 row theirs
      exact same.trans (running.pending other member)
  · exact ⟨fun _ none => absurd none List.not_mem_nil, List.not_mem_nil⟩

end Running

/-- What the pass over `todo` did to the hashes the run may still take on. -/
def EmbedRun.Grown (run after : EmbedRun) (todo : List Document) : Prop :=
  ∀ hash, run.Free hash → hash ∉ todo.map Document.hash → after.Free hash

theorem wp_embedDocs (todo : List Document) : ∀ (done : Nat) (run : EmbedRun) (s : Store V),
    Running env backend excluded start run todo s → (todo.map Document.hash).Nodup →
    wp Faults.any (embedDocs env backend todo done run)
      ⟨fun r t => Running env backend excluded start r.1 [] t ∧ run.Grown r.1 todo,
        fun _ => Left env backend excluded start, Left env backend excluded start⟩ s := by
  have stop : ∀ {run : EmbedRun} {todo : List Document} {s : Store V},
      Running env backend excluded start run todo s → Running env backend excluded start run [] s ∧ run.Grown run todo :=
    fun running => ⟨⟨running.here, running.writable, running.dirty, fun _ none => absurd none List.not_mem_nil,
      fun _ none => absurd none List.not_mem_nil⟩, fun _ free _ => free⟩
  induction todo with
  | nil =>
    intro done run s running _
    exact wp_pure (stop running)
  | cons doc todo ih =>
    intro done run s running distinct
    rw [List.map_cons, List.nodup_cons] at distinct
    have onward : ∀ {next : EmbedRun} {done : Nat} {t : Store V}, Running env backend excluded start next todo t →
        (∀ hash, run.Free hash → hash ≠ doc.hash → next.Free hash) →
        wp Faults.any (embedDocs env backend todo done next)
          ⟨fun r t => Running env backend excluded start r.1 [] t ∧ run.Grown r.1 (doc :: todo),
            fun _ => Left env backend excluded start, Left env backend excluded start⟩ t := by
      intro next done t running' grown
      refine wp_mono (ih done next t running' distinct.2) ?_ (fun _ _ => id) fun _ => id
      rintro r t ⟨ended, later⟩
      refine ⟨ended, fun hash free outside => later hash (grown hash free ?_) ?_⟩
      · exact fun same => outside (same ▸ List.mem_cons_self)
      · exact fun inside => outside (List.mem_cons_of_mem _ inside)
    unfold embedDocs
    refine wp_bind (wp_poll ?_ (fun _ => wp_pure (stop running)) fun _ => running.here.left)
    refine wp_bind (wp_poll ?_ (fun _ => wp_pure (stop running)) fun _ => running.here.left)
    refine wp_bind (wp_query ?_)
    by_cases empty : ((s.db.getContent doc.hash).getD "").isEmpty = true
    · simp only [Ends.with, empty, if_true]
      refine wp_bind (Store.wp_sqlExecute ?_ (fun _ _ => running.here.left) fun _ => running.here.left)
      simp only [List.append_nil]
      exact onward (running.tail.unmarked doc.hash) fun _ free _ => free
    · simp only [Ends.with, empty]
      refine wp_bind (wp_attempt (wp_mono (Store.wp_embedDocumentChunks running.here) ?_ ?_ fun _ => id))
      · rintro metas t ⟨u, batch, here, beneath, rfl, rfl, -, -⟩
        have next := running.embedded distinct.1 here beneath
        have grown : ∀ hash, run.Free hash → hash ≠ doc.hash → (run.embedded (batchMetas env doc.hash doc.path batch)
            (Running.after env run doc u batch).superseded).Free hash :=
          fun hash free apart => Running.free_after free apart
        refine wp_bind (@Store.wp_supersedeVectors V env u run.pending run.pendingDeletes doc.hash doc.path batch _
          (beneath.readOnly.trans running.writable) ?_)
        simp only [Ends.with]
        split
        · refine wp_bind (wp_mono (Store.wp_checkpoint next.here next.writable next.dirty) ?_ (fun _ _ => id) fun _ => id)
          rintro _ v ⟨here', writable, rows⟩
          refine onward (next.checkpointed here' writable rows) fun _ _ _ => ?_
          exact ⟨fun _ none => absurd none List.not_mem_nil, List.not_mem_nil⟩
        · exact onward next grown
      · rintro e t ⟨here, beneath⟩
        have next := (running.tail.failed here beneath : Running env backend excluded start (run.failed doc e) todo t)
        simp only [Ends.with]
        split
        · exact wp_pure ⟨(stop next).1, fun _ free _ => free⟩
        · exact onward next fun _ free _ => free

/-- What the queue of a collection holds. -/
theorem queueDocs_spec (pendingDoc : Document → Bool) (docs : List Document) : ∀ seen : List String,
    (∀ doc ∈ (queueDocs pendingDoc docs seen).1, doc ∈ docs ∧ pendingDoc doc = true ∧ doc.hash ∉ seen) ∧
      ((queueDocs pendingDoc docs seen).1.map Document.hash).Nodup ∧
      ∀ hash, hash ∈ (queueDocs pendingDoc docs seen).2 ↔
        hash ∈ seen ∨ hash ∈ (queueDocs pendingDoc docs seen).1.map Document.hash := by
  induction docs with
  | nil => exact fun seen => ⟨fun _ none => absurd none List.not_mem_nil, List.nodup_nil, fun hash => by simp [queueDocs]⟩
  | cons doc docs ih =>
    intro seen
    unfold queueDocs
    by_cases taken : (!seen.contains doc.hash && pendingDoc doc) = true
    · rw [if_pos taken]
      have fresh : doc.hash ∉ seen ∧ pendingDoc doc = true := by simpa using taken
      obtain ⟨each, distinct, after⟩ := ih (doc.hash :: seen)
      refine ⟨?_, ?_, ?_⟩
      · intro other member
        rcases List.mem_cons.mp member with rfl | later
        · exact ⟨List.mem_cons_self, fresh.2, fresh.1⟩
        · have rest := each other later
          exact ⟨List.mem_cons_of_mem _ rest.1, rest.2.1, fun inside => rest.2.2 (List.mem_cons_of_mem _ inside)⟩
      · rw [List.map_cons, List.nodup_cons]
        refine ⟨fun again => ?_, distinct⟩
        obtain ⟨other, later, same⟩ := List.mem_map.mp again
        exact (each other later).2.2 (same ▸ List.mem_cons_self)
      · intro hash
        have counted := after hash
        simp only [List.mem_cons, List.map_cons] at counted ⊢
        rw [counted]
        exact or_assoc.trans (or_left_comm.trans Iff.rfl)
    · rw [if_neg taken]
      obtain ⟨each, distinct, after⟩ := ih seen
      exact ⟨fun other member => ⟨List.mem_cons_of_mem _ (each other member).1, (each other member).2⟩, distinct, after⟩

theorem wp_embedEach (cols : List Collection) : ∀ (seen : List String) (run : EmbedRun) (s : Store V),
    Running env backend excluded start run [] s → (∀ hash, hash ∉ seen → run.Free hash) →
    wp Faults.any (embedEach env backend excluded cols seen run)
      ⟨fun r t => Running env backend excluded start r.1 [] t,
        fun _ => Left env backend excluded start, Left env backend excluded start⟩ s := by
  induction cols with
  | nil => exact fun seen run s running _ => wp_pure running
  | cons col cols ih =>
    intro seen run s running free
    unfold embedEach
    refine wp_bind (wp_query ?_)
    obtain ⟨each, distinct, after⟩ :=
      queueDocs_spec (pendingDoc env backend excluded s.db) (s.db.listDocuments col.name) seen
    generalize queueDocs (pendingDoc env backend excluded s.db) (s.db.listDocuments col.name) seen = queue at each distinct after ⊢
    have begun : Running env backend excluded start run queue.1 s := by
      refine ⟨running.here, running.writable, running.dirty, ?_, ?_⟩
      · intro doc member
        have taken := (each doc member).2.1
        simp only [pendingDoc, Bool.and_eq_true] at taken
        exact taken.2
      · exact fun doc member => free doc.hash (each doc member).2.2
    refine wp_bind (wp_mono (wp_embedDocs queue.1 0 run s begun distinct) ?_ (fun _ _ => id) fun _ => id)
    rintro ⟨next, flow⟩ t ⟨ended, grown⟩
    simp only [Ends.with]
    split
    · refine ih queue.2 next t ended fun hash outside => ?_
      have apart := (after hash).not.mp outside
      rw [not_or] at apart
      exact grown hash (free hash apart.1) apart.2
    · exact wp_pure ended

/-- The embed pass takes embed steps under the documents excluded when it starts. -/
theorem wp_embedPass {cols : List Collection} (writable : s.hnsw.readOnly = false) :
    wp Faults.any (embedPass env backend cols)
      ⟨fun _ t => Passes env backend (s.db.excludedDocs env.globs) (.of s) (.of t) ∧ t.hnsw.readOnly = false,
        fun _ => Left env backend (s.db.excludedDocs env.globs) (.of s),
        Left env backend (s.db.excludedDocs env.globs) (.of s)⟩ s := by
  unfold embedPass
  refine wp_bind (wp_query ?_)
  have begun : Running env backend (s.db.excludedDocs env.globs) (.of s) (.new checkpointInterval) [] s :=
    ⟨.refl, writable, fun work => work.elim (fun some => absurd rfl some) fun some => absurd rfl some,
      fun _ none => absurd none List.not_mem_nil, fun _ none => absurd none List.not_mem_nil⟩
  have free : ∀ hash, hash ∉ ([] : List String) → (EmbedRun.new checkpointInterval).Free hash :=
    fun _ _ => ⟨fun _ none => absurd none List.not_mem_nil, List.not_mem_nil⟩
  refine wp_bind (wp_mono (wp_embedEach cols [] _ s begun free) ?_ (fun _ _ => id) fun _ => id)
  rintro ⟨run, flow⟩ t running
  refine wp_bind (wp_mono (Store.wp_checkpoint running.here running.writable running.dirty) ?_ (fun _ _ => id) fun _ => id)
  rintro _ u ⟨here, writable', -⟩
  exact wp_pure ⟨here, writable'⟩

end Rqmd
