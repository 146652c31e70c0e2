import Rqmd.Commands
import Rqmd.Consistency

/-! When adding a vector finds a free id. Within a session no key appears at or after the next id, so an add
can only run into what the file held there when the session began: it gives up exactly on a run of keys as long
as the retry loop. Such a run is left behind by a checkpoint that saved its vectors, evicted as many others and
died before it recorded them. -/

namespace Rqmd
open Transition

variable {V : Type} {env : Env V} {backend : Backend} {excluded : List Nat} {m n : Session V}

/-- From the next id on, no run of present keys is as long as the retry loop. -/
def VectorIndex.Roomy (index : VectorIndex V) : Prop :=
  ∀ vid, index.nextVid ≤ vid → ∃ offset < maxCollisionRetries, vid + offset ∉ index.inner.keys

theorem VectorIndex.Roomy.add {index : VectorIndex V} (roomy : index.Roomy) (writable : index.readOnly = false)
    (vector : V) : ∃ vid after, index.add vector = (some vid, after) := by
  rcases result : index.add vector with ⟨answer, after⟩
  cases answer with
  | some vid => exact ⟨vid, after, rfl⟩
  | none =>
    have gaveUp : (addRetrying vector maxCollisionRetries index).1 = none := by
      have tried : index.add vector = addRetrying vector maxCollisionRetries index := by
        unfold VectorIndex.add
        rw [if_neg (by simp [writable])]
      rw [← tried, result]
    obtain ⟨offset, bound, free⟩ := roomy index.nextVid (Nat.le_refl _)
    exact absurd (addRetrying_none.mp gaveUp offset bound) free

theorem VectorIndex.add_crowded {index : VectorIndex V} (writable : index.readOnly = false)
    (crowded : ∀ offset < maxCollisionRetries, index.nextVid + offset ∈ index.inner.keys) (vector : V) :
    (index.add vector).1 = none := by
  unfold VectorIndex.add
  rw [if_neg (by simp [writable])]
  exact addRetrying_none.mpr crowded

/-- Fewer keys at or after a later id leave as much room. -/
theorem VectorIndex.Roomy.mono {index after : VectorIndex V} (roomy : index.Roomy) (later : index.nextVid ≤ after.nextVid)
    (fewer : ∀ vid ∈ after.inner.keys, vid ∈ index.inner.keys ∨ vid < after.nextVid) : after.Roomy := by
  intro vid bound
  obtain ⟨offset, small, free⟩ := roomy vid (Nat.le_trans later bound)
  refine ⟨offset, small, fun present => ?_⟩
  rcases fewer _ present with old | below
  · exact free old
  · omega

/-- Every opening for writing meets a file with room for the ids it restarts from. -/
def RoomyOpens (kind : StepKind) (m _n : Session V) : Prop :=
  kind = .opened false → (openHnsw m.store.hnswFile m.store.db false).Roomy

/-- An index that can be written has room. -/
def Session.HasRoom (m : Session V) : Prop := m.store.hnsw.readOnly = false → m.store.hnsw.Roomy

namespace Session.HasRoom

theorem removed {vids : List Nat} (room : m.HasRoom) :
    (Store.removeVids m.store.hnsw vids).readOnly = false → (Store.removeVids m.store.hnsw vids).Roomy := by
  intro writable
  refine (room (by simpa using writable)).mono (Nat.le_of_eq (Store.removeVids_nextVid _ _).symm) fun vid present => ?_
  exact .inl (Store.mem_keys_removeVids.mp present).1

theorem embedStep (room : m.HasRoom) (step : EmbedStep env backend excluded m n) : n.HasRoom := by
  cases step with
  | aside fts dirty log quiet => exact room
  | unmarked hash => exact room
  | added chunk vector vid index source given =>
    intro writable
    obtain ⟨absent, later, rfl⟩ := VectorIndex.add_some given
    refine (room writable).mono ?_ fun other present => ?_
    · change m.store.hnsw.nextVid ≤ vid + 1
      omega
    · rcases List.mem_cons.mp present with rfl | old
      · exact .inr (Nat.lt_succ_self other)
      · exact .inl old
  | refused vector index given =>
    intro writable
    obtain ⟨inner, later, mode⟩ := VectorIndex.add_none given
    exact (room (mode.symm.trans writable)).mono later fun vid present => .inl (inner ▸ present)
  | rolledBack => exact room.removed
  | embedded hash relPath pending first =>
    intro writable
    simp only [Session.embedded] at writable ⊢
    split at writable
    · next known =>
      simp only [known, if_true]
      exact room.removed writable
    · next unknown =>
      simp only [unknown]
      exact room writable
  | saved writable => exact room
  | committed db saved rows => exact room

theorem step {kind : StepKind} (room : m.HasRoom) (guard : RoomyOpens kind m n) (step : Step env kind m n) : n.HasRoom := by
  cases step with
  | embed backend excluded m n step => exact room.embedStep step
  | evicted m hashes vids theirs => exact room.removed
  | opened m readOnly =>
    intro writable
    cases readOnly with
    | false => exact guard rfl
    | true =>
      -- a reader's index can be written only when there is no file, and then it is empty
      change (openHnsw m.store.hnswFile m.store.db true).readOnly = false at writable
      change (openHnsw m.store.hnswFile m.store.db true).Roomy
      cases file : m.store.hnswFile with
      | some vectors =>
        rw [file, openHnsw_readOnly] at writable
        cases writable
      | none =>
        intro vid bound
        refine ⟨0, by decide, fun present => ?_⟩
        rw [openHnsw_inner] at present
        exact absurd present List.not_mem_nil
  | _ => exact room

end Session.HasRoom

/-- What adding the chunks of one document in turn does, when nothing stands in the way. -/
structure Session.Filled (backend : Backend) (chunks : List Chunk) (m n : Session V) : Prop where
  store : n.store = { m.store with hnsw := n.store.hnsw, log := n.store.log }
  waiting : n.pending = m.pending ∧ n.superseded = m.superseded
  batch : n.batch = m.batch ++ chunks.mapIdx fun i chunk => ⟨backend, chunk, m.store.hnsw.nextVid + i⟩
  nextVid : n.store.hnsw.nextVid = m.store.hnsw.nextVid + chunks.length
  writable : n.store.hnsw.readOnly = false
  keys : ∀ vid, vid ∈ n.store.hnsw.inner.keys ↔ vid ∈ m.store.hnsw.inner.keys ∨
    (m.store.hnsw.nextVid ≤ vid ∧ vid < m.store.hnsw.nextVid + chunks.length)

theorem add_free {index : VectorIndex V} (vector : V) (writable : index.readOnly = false)
    (free : index.nextVid ∉ index.inner.keys) : index.add vector =
      (some index.nextVid, { index with inner := index.inner.insert index.nextVid vector free, nextVid := index.nextVid + 1 }) := by
  unfold VectorIndex.add VectorIndex.maxCollisionRetries VectorIndex.addRetrying
  rw [if_neg (by simp [writable]), dif_pos free]

theorem fill (chunks : List Chunk) : ∀ m : Session V, m.store.hnsw.readOnly = false →
    (∀ vid ∈ m.store.hnsw.inner.keys, vid < m.store.hnsw.nextVid) →
    ∃ n, Passes env backend excluded m n ∧ Session.Filled backend chunks m n := by
  induction chunks with
  | nil =>
    intro m writable _
    refine ⟨m, .refl, rfl, ⟨rfl, rfl⟩, (List.append_nil _).symm, rfl, writable, fun vid => ⟨.inl, ?_⟩⟩
    rintro (old | none)
    · exact old
    · simp only [List.length_nil] at none
      omega
  | cons chunk chunks ih =>
    intro m writable below
    have free : m.store.hnsw.nextVid ∉ m.store.hnsw.inner.keys := fun present => Nat.lt_irrefl _ (below _ present)
    have given := add_free (env.passageVector backend chunk.text) writable free
    generalize grownDef : m.added backend chunk m.store.hnsw.nextVid
      ⟨m.store.hnsw.inner.insert m.store.hnsw.nextVid (env.passageVector backend chunk.text) free,
        m.store.hnsw.nextVid + 1, m.store.hnsw.readOnly⟩ = grown
    have step : EmbedStep env backend excluded m grown := grownDef ▸ .added m chunk _ _ _ (.inl rfl) given
    have next : grown.store.hnsw.nextVid = m.store.hnsw.nextVid + 1 := by rw [← grownDef]; rfl
    have keys : ∀ vid, vid ∈ grown.store.hnsw.inner.keys ↔ vid = m.store.hnsw.nextVid ∨ vid ∈ m.store.hnsw.inner.keys := by
      intro vid
      rw [← grownDef]
      exact List.mem_cons
    obtain ⟨n, run, filled⟩ := ih grown (by rw [← grownDef]; exact writable) fun vid present => by
      rw [next]
      rcases (keys vid).mp present with rfl | old
      · exact Nat.lt_succ_self _
      · have := below vid old
        omega
    have store := filled.store
    have waiting := filled.waiting
    have batch := filled.batch
    rw [next] at batch
    subst grownDef
    refine ⟨n, (Relation.ReflTransGen.single step).trans run, store, waiting, ?_, ?_, filled.writable, ?_⟩
    · rw [batch]
      simp [Session.added, List.mapIdx_cons, Nat.add_assoc, Nat.add_comm 1]
    · rw [filled.nextVid, next, List.length_cons]
      omega
    · intro vid
      rw [filled.keys vid, keys vid, next, List.length_cons]
      constructor
      · rintro ((rfl | old) | later)
        · exact .inr (by omega)
        · exact .inl old
        · exact .inr (by omega)
      · rintro (old | later)
        · exact .inl (.inr old)
        · by_cases here : vid = m.store.hnsw.nextVid
          · exact .inl (.inl here)
          · exact .inr (by omega)

/-- A file whose keys lie in a range is no larger than the range. -/
theorem size_le {vectors : Vectors V} {base count : Nat}
    (inside : ∀ vid ∈ vectors.keys, base ≤ vid ∧ vid < base + count) : vectors.size ≤ count := by
  have subset : vectors.keys ⊆ List.range' base count := fun vid member => by
    have := inside vid member
    rw [List.mem_range'_1]
    omega
  have bound := (List.subperm_of_subset vectors.distinct subset).length_le
  simpa [Vectors.size, Vectors.keys] using bound

theorem maxVectorVid_le {db : Db} {bound : Nat} (below : ∀ row ∈ db.vectors, row.vid < bound) :
    (db.maxVectorVid.map (· + 1)).getD 0 ≤ bound := by
  cases largest : db.maxVectorVid with
  | none => exact Nat.zero_le _
  | some top =>
    obtain ⟨row, member, rfl⟩ := List.mem_map.mp (List.max?_mem largest)
    exact below row member

/-- The allocator restarts from the floor when neither the file nor the rows reach past it. -/
theorem restart {file : Option (Vectors V)} {db : Db} {base : Nat} (size : (file.getD .empty).size ≤ base)
    (rows : ∀ row ∈ db.vectors, row.vid < base) (floor : db.nextVid.getD 0 = base) :
    (openHnsw file db false).nextVid = base := by
  have top := maxVectorVid_le rows
  rw [openHnsw_nextVid, floor]
  omega

/-- The rows of a document whose vectors were added one after the other. -/
theorem batchMetas_filled {hash relPath : String} {chunks : List Chunk} {base : Nat} {p : PendingVectorMeta} :
    p ∈ batchMetas env hash relPath (chunks.mapIdx fun i chunk => ⟨backend, chunk, base + i⟩) ↔
      ∃ i, ∃ bound : i < chunks.length,
        p = Store.chunkMeta env backend hash relPath chunks.length i chunks[i] (base + i) := by
  simp only [batchMetas, List.mem_mapIdx, List.length_mapIdx, List.getElem_mapIdx]
  exact exists_congr fun i => exists_congr fun _ => eq_comm

theorem batchMetas_distinct {hash relPath : String} {chunks : List Chunk} {base : Nat} :
    (batchMetas env hash relPath (chunks.mapIdx fun i chunk => ⟨backend, chunk, base + i⟩)).Pairwise
      fun a b => a.vid ≠ b.vid ∧ ¬ b.Replaces a.row := by
  rw [List.pairwise_iff_getElem]
  intro i j left right less
  simp only [batchMetas, List.getElem_mapIdx]
  constructor
  · change base + i ≠ base + j
    omega
  · intro same
    have seqs : i = j := same.2
    omega

/-- An index in which one text is embedded, in as many chunks as the retry loop is long. -/
structure Disk.Embedded (fingerprint hash : String) (limit : Nat) (d : Disk V) : Prop where
  rows : ∀ row ∈ d.db.vectors, row.hash = hash ∧ row.vid < limit ∧ row.embedFingerprint = fingerprint
  all : ∀ vid < limit, ∃ row ∈ d.db.vectors, row.hash = hash ∧ row.vid = vid
  floor : d.db.nextVid.getD 0 = limit
  file : ∃ vectors, d.hnswFile = some vectors ∧ ∀ vid, vid ∈ vectors.keys ↔ vid < limit

/-- The first embedding of a text, with its checkpoint. -/
theorem embed_first {s : Store V} {hash relPath : String} {chunks : List Chunk} (writable : s.hnsw.readOnly = false)
    (noKeys : s.hnsw.inner.keys = []) (restarted : s.hnsw.nextVid = 0) (noRows : s.db.vectors.rows = [])
    (noFloor : s.db.nextVid = none) (needs : needsEmbed env backend excluded s.db hash = true) :
    ∃ n, Passes env backend excluded (.of s) n ∧ Db.SameTexts s.db n.store.db ∧
      n.store.disk.Embedded (embedFingerprint env.toHashes env.grammars backend.model relPath) hash chunks.length := by
  obtain ⟨full, filling, filled⟩ := @fill V env backend excluded chunks (.of s) writable fun vid present => by
    change vid ∈ s.hnsw.inner.keys at present
    rw [noKeys] at present
    exact absurd present List.not_mem_nil
  have db : full.store.db = s.db := by rw [filled.store]; rfl
  have batch : full.batch = chunks.mapIdx fun i chunk => ⟨backend, chunk, 0 + i⟩ := by
    have base : (Session.of s).store.hnsw.nextVid = 0 := restarted
    rw [filled.batch, base]
    exact List.nil_append _
  have pending : full.pending = [] := filled.waiting.1
  have superseded : full.superseded = [] := filled.waiting.2
  have unknown : full.store.db.hashHasAnyVector hash = false := by
    rw [db]
    simp [Db.hashHasAnyVector, Table.any, noRows]
  have embedded : Passes env backend excluded (.of s) (full.embedded env hash relPath) :=
    filling.next (.embedded full hash relPath (db ▸ needs) (by simp [pending]))
  have index : (full.embedded env hash relPath).store.hnsw = full.store.hnsw := by
    simp [Session.embedded, unknown]
  have metas : (full.embedded env hash relPath).pending =
      batchMetas env hash relPath (chunks.mapIdx fun i chunk => ⟨backend, chunk, 0 + i⟩) := by
    simp [Session.embedded, pending, batch]
  have deletes : (full.embedded env hash relPath).superseded = [] := by
    simp [Session.embedded, unknown, superseded]
  have saved := embedded.next (.saved _ (index ▸ filled.writable))
  have noRow : ∀ row : VectorRow, ¬ row ∈ s.db.vectors := by
    intro row member
    rw [← Table.mem_rows, noRows] at member
    exact absurd member List.not_mem_nil
  obtain ⟨after, rows⟩ := @Db.checkpointRows_ok s.db
    (batchMetas env hash relPath (chunks.mapIdx fun i chunk => ⟨backend, chunk, 0 + i⟩)) [] full.store.hnsw.nextVid
    batchMetas_distinct fun _ _ row member => absurd member (noRow row)
  have committed := saved.next (.committed _ after rfl (by
    change Store.checkpointRows (full.embedded env hash relPath).pending (full.embedded env hash relPath).superseded
      (full.embedded env hash relPath).store.hnsw.nextVid full.store.db = .ok after
    rw [metas, deletes, index, db]
    exact rows))
  have done := Db.checkpointed rows
  have keys : ∀ vid, vid ∈ full.store.hnsw.inner.keys ↔ vid < chunks.length := by
    intro vid
    rw [filled.keys vid]
    change vid ∈ s.hnsw.inner.keys ∨ (s.hnsw.nextVid ≤ vid ∧ vid < s.hnsw.nextVid + chunks.length) ↔ _
    rw [noKeys, restarted]
    simp
  have next : full.store.hnsw.nextVid = chunks.length := by
    rw [filled.nextVid]
    change s.hnsw.nextVid + _ = _
    rw [restarted, Nat.zero_add]
  refine ⟨_, committed, done.texts, ?_, ?_, ?_, ?_⟩
  · intro row member
    rcases done.source row member with ⟨p, inside, rfl⟩ | ⟨old, -, -⟩
    · obtain ⟨i, bound, rfl⟩ := batchMetas_filled.mp inside
      exact ⟨rfl, by change 0 + i < chunks.length; omega, rfl⟩
    · exact absurd old (noRow row)
  · intro vid bound
    have distinct := (@batchMetas_distinct V env backend hash relPath chunks 0).imp fun apart => apart.2
    have written := done.written distinct _ (batchMetas_filled.mpr ⟨vid, bound, rfl⟩)
    exact ⟨_, written, rfl, Nat.zero_add vid⟩
  · change after.nextVid.getD 0 = chunks.length
    rw [done.floor, noFloor, next]
    exact Nat.zero_max _
  · refine ⟨_, rfl, fun vid => ?_⟩
    rw [index]
    exact keys vid

/-- The second embedding of the text, cut between the save and the rows: the file now holds the new vectors
only, right where the allocator restarts. -/
theorem embed_again_cut {d : Disk V} {fingerprint hash relPath : String} {chunks : List Chunk}
    (embedded : d.Embedded fingerprint hash chunks.length) (nonempty : 0 < chunks.length)
    (needs : needsEmbed env backend excluded d.db hash = true) : ∃ n, Passes env backend excluded (.of (d.open false)) n ∧
      (openHnsw n.store.hnswFile n.store.db false).nextVid = chunks.length ∧
      ∀ offset < chunks.length, chunks.length + offset ∈ (openHnsw n.store.hnswFile n.store.db false).inner.keys := by
  obtain ⟨vectors, file, saved⟩ := embedded.file
  have inner : (openHnsw d.hnswFile d.db false).inner = vectors := by rw [openHnsw_inner, file]; rfl
  have start : (openHnsw d.hnswFile d.db false).nextVid = chunks.length := by
    refine restart ?_ (fun row member => (embedded.rows row member).2.1) embedded.floor
    rw [file]
    have below : ∀ vid ∈ vectors.keys, 0 ≤ vid ∧ vid < 0 + chunks.length := by
      intro vid member
      have known := (saved vid).mp member
      omega
    exact size_le below
  obtain ⟨full, filling, filled⟩ := @fill V env backend excluded chunks (.of (d.open false)) openHnsw_writable
    fun vid present => by
      change vid ∈ (openHnsw d.hnswFile d.db false).inner.keys at present
      change vid < (openHnsw d.hnswFile d.db false).nextVid
      rw [inner] at present
      rw [start]
      exact (saved vid).mp present
  have db : full.store.db = d.db := by rw [filled.store]; rfl
  have known : full.store.db.hashHasAnyVector hash = true := by
    obtain ⟨row, member, theirs, -⟩ := embedded.all 0 nonempty
    rw [db]
    exact Table.any_eq_true.mpr ⟨row, member, by simpa using theirs⟩
  have pending : full.pending = [] := filled.waiting.1
  have superseding : Passes env backend excluded (.of (d.open false)) (full.embedded env hash relPath) :=
    filling.next (.embedded full hash relPath (db ▸ needs) (by simp [pending]))
  have index : (full.embedded env hash relPath).store.hnsw = Store.removeVids full.store.hnsw (d.db.vidsForHash hash) := by
    simp only [Session.embedded]
    rw [if_pos known, db]
  have cut := superseding.next (.saved _ (by rw [index, Store.removeVids_readOnly]; exact filled.writable))
  have keys : ∀ vid, vid ∈ (Store.removeVids full.store.hnsw (d.db.vidsForHash hash)).inner.keys ↔
      chunks.length ≤ vid ∧ vid < chunks.length + chunks.length := by
    intro vid
    have old : vid ∈ d.db.vidsForHash hash ↔ vid < chunks.length := by
      rw [Db.mem_vidsForHash]
      constructor
      · rintro ⟨row, member, rfl, -⟩
        exact (embedded.rows row member).2.1
      · intro bound
        obtain ⟨row, member, theirs, same⟩ := embedded.all vid bound
        exact ⟨row, member, same, theirs⟩
    have new := filled.keys vid
    change _ ↔ vid ∈ (openHnsw d.hnswFile d.db false).inner.keys ∨ ((openHnsw d.hnswFile d.db false).nextVid ≤ vid ∧
      vid < (openHnsw d.hnswFile d.db false).nextVid + chunks.length) at new
    rw [inner, start, saved vid] at new
    rw [Store.mem_keys_removeVids, old, new]
    omega
  refine ⟨_, cut, ?_, ?_⟩
  · change (openHnsw (some (full.embedded env hash relPath).store.hnsw.inner) full.store.db false).nextVid = _
    rw [db, index]
    refine restart ?_ (fun row member => (embedded.rows row member).2.1) embedded.floor
    exact size_le fun vid member => (keys vid).mp member
  · intro offset bound
    rw [openHnsw_inner]
    change chunks.length + offset ∈ (full.embedded env hash relPath).store.hnsw.inner.keys
    rw [index, keys]
    omega

/-- A document of as many chunks as the retry loop is long. -/
def longChunks : List Chunk := List.replicate VectorIndex.maxCollisionRetries ⟨"alpha", 0⟩

def longEnv : Env String := { sampleEnv with chunkDocumentForPath := fun _ _ => longChunks }

def nomic : Backend := ⟨.llama, "nomic-embed-text", 2048⟩

def longDisk : Disk String :=
  (Disk.empty : Disk String).after longEnv [(.add notesCollection (notesWalk (.ok (notesDoc "alpha"))), [])]

/-- From an index without vectors: the document is embedded, then embedded again for another model and cut
between the saved file and the rows. On the next opening the first add gives up. -/
theorem crowded_after_cut {d : Disk String} (noRows : d.db.vectors.rows = []) (noFloor : d.db.nextVid = none)
    (noFile : d.hnswFile = none) {start : Session String} (run : Reaches (Step longEnv) always start (.of (d.open false))) :
    ∃ m, Reaches (Step longEnv) always start m ∧
      m.store.hnsw.readOnly = false ∧ ∀ vector, (m.store.hnsw.add vector).1 = none := by
  have keys : (d.open false).hnsw.inner.keys = [] := by
    change (openHnsw d.hnswFile d.db false).inner.keys = []
    rw [openHnsw_inner, noFile]
    rfl
  have restarted : (d.open false).hnsw.nextVid = 0 := by
    change (openHnsw d.hnswFile d.db false).nextVid = 0
    rw [openHnsw_nextVid, noFile, noFloor, Db.maxVectorVid, noRows]
    rfl
  have unseen : needsEmbed longEnv gemma [] (d.open false).db (sampleHash "alpha") = true := by
    change (!(d.db.vectors.rows.any _)) = true
    rw [noRows]
    rfl
  obtain ⟨first, passes, -, embedded⟩ := @embed_first String longEnv gemma [] (d.open false)
    (sampleHash "alpha") "a.md" longChunks openHnsw_writable keys restarted noRows noFloor unseen
  have reopened := (reaches_of_passes passes run).next trivial (.opened first false)
  have length : longChunks.length = VectorIndex.maxCollisionRetries := List.length_replicate
  have nonempty : 0 < longChunks.length := by
    rw [length]
    decide
  have stale : needsEmbed longEnv nomic [] first.store.disk.db (sampleHash "alpha") = true := by
    have apart : embedFingerprint longEnv.toHashes longEnv.grammars gemma.model "a.md" ≠
        expectedFingerprint longEnv.toHashes longEnv.grammars nomic.model := by decide +kernel
    change (!first.store.disk.db.hashHasVectorWithFingerprint _ _) = true
    rw [Bool.not_eq_true', ← Bool.not_eq_true, Db.hashHasVectorWithFingerprint, Table.any_eq_true]
    rintro ⟨row, member, found⟩
    have fresh := (embedded.rows row member).2.2
    simp only [fresh, Bool.and_eq_true, beq_iff_eq] at found
    exact apart found.2
  obtain ⟨cut, again, next, present⟩ := @embed_again_cut String longEnv nomic [] first.store.disk _
    (sampleHash "alpha") "a.md" longChunks embedded nonempty stale
  have last := (reaches_of_passes again reopened).next trivial (.opened cut false)
  have crowded : ∀ offset < VectorIndex.maxCollisionRetries, (openHnsw cut.store.hnswFile cut.store.db false).nextVid +
      offset ∈ (openHnsw cut.store.hnswFile cut.store.db false).inner.keys := by
    rw [next, ← length]
    exact present
  exact ⟨_, last, openHnsw_writable, VectorIndex.add_crowded openHnsw_writable crowded⟩

end Rqmd
