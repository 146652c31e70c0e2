import Rqmd.Pending
import Rqmd.Whole

/-! What an embed pass leaves of the vector file, cut anywhere: the file is in step with the texts that count as
embedded after the pass exactly when it was before. -/

namespace Rqmd
open Interrupt

variable {V : Type} {env : Env V} {backend : Backend} {excluded : List Nat} {s t u : Store V} {d : Disk V}

/-! ### A reclaim cut anywhere -/

/-- Where a reclaim of the hashes stands: the rows of other hashes are there, and their vectors are where they were. -/
structure Store.Reclaiming (hashes : List String) (s t : Store V) : Prop where
  texts : Db.SameTexts s.db t.db
  fewer : ∀ row ∈ t.db.vectors, row ∈ s.db.vectors
  kept : ∀ row ∈ s.db.vectors, row.hash ∉ hashes → row ∈ t.db.vectors
  memory : ∀ row ∈ s.db.vectors, row.hash ∉ hashes → (row.vid ∈ t.hnsw.inner.keys ↔ row.vid ∈ s.hnsw.inner.keys)
  file : ∀ row ∈ s.db.vectors, row.hash ∉ hashes →
    (row.vid ∈ t.disk.savedVids ↔ row.vid ∈ s.disk.savedVids) ∨ (row.vid ∈ t.disk.savedVids ↔ row.vid ∈ s.hnsw.inner.keys)

namespace Store.Reclaiming

variable {hashes : List String}

theorem refl (s : Store V) : Reclaiming hashes s s :=
  ⟨.refl _, fun _ => id, fun _ stored _ => stored, fun _ _ _ => Iff.rfl, fun _ _ _ => .inl Iff.rfl⟩

theorem keptBySave : KeptBySave (Reclaiming hashes s) where
  aside _ _ _ _ here := ⟨here.texts, here.fewer, here.kept, here.memory, here.file⟩
  saved _ _ here := ⟨here.texts, here.fewer, here.kept, here.memory, fun row stored free => .inr (here.memory row stored free)⟩
  clean _ here := ⟨here.texts, here.fewer, here.kept, here.memory, here.file⟩

theorem evicted {hash : String} (listed : hash ∈ hashes) (here : Reclaiming hashes s t) :
    Reclaiming hashes s { t with hnsw := Store.removeVids t.hnsw (t.db.vidsForHash hash), hnswDirty := true } := by
  refine ⟨here.texts, here.fewer, here.kept, fun row stored free => ?_, here.file⟩
  rw [← here.memory row stored free]
  refine Store.mem_keys_removeVids.trans (and_iff_left fun gone => ?_)
  obtain ⟨other, inside, same, theirs⟩ := Db.mem_vidsForHash.mp gone
  have one : other = row := Table.eq_of_clash (here.fewer other inside) stored (.inr same)
  exact free (one ▸ theirs ▸ listed)

theorem evict {hash : String} (listed : hash ∈ hashes) :
    Preserves Faults.any (Reclaiming hashes s) (Store.evictHash hash) := by
  intro t here
  unfold Store.evictHash Store.evictHnswVectors
  refine wp_bind (wp_query (wp_ite (wp_pure here) (wp_bind (wp_query (wp_ite (wp_throw here) (wp_modify ?_))))))
  exact here.evicted listed

/-- However a reclaim ends. -/
theorem run (hashes : List String) (s : Store V) :
    wp Faults.any (Store.reclaimVectorsOf hashes) (Ends.all (Reclaiming hashes s)) s := by
  unfold Store.reclaimVectorsOf
  have evictions : Preserves Faults.any (Reclaiming hashes s) (Prog.forEach Store.evictHash hashes) :=
    .forEachIn hashes fun hash member => evict member
  have rest : Preserves Faults.any (Reclaiming hashes s) (Store.sqlExecute "commit orphaned vector sweep"
      (fun db => hashes.foldl Db.deleteVectorsForHash db) []) := by
    intro t here
    refine Store.wp_sqlExecute ?_ (fun _ _ => here) fun _ => here
    have rows : ∀ row, row ∈ (hashes.foldl Db.deleteVectorsForHash t.db).vectors ↔ row ∈ t.db.vectors ∧ row.hash ∉ hashes :=
      Db.mem_deleteVectors hashes t.db
    refine ⟨here.texts.trans (Db.texts_deleteVectors hashes t.db).1, fun row stored => ?_, fun row stored free => ?_,
      here.memory, here.file⟩
    · exact here.fewer row ((rows row).mp stored).1
    · exact (rows row).mpr ⟨here.kept row stored free, free⟩
  exact Preserves.ite (.pure ()) (.bind evictions fun _ => .bind keptBySave.flush fun _ => rest) s (.refl s)

/-- The rows of a hash that is not reclaimed. -/
theorem rows (here : Reclaiming hashes s t) {hash : String} (free : hash ∉ hashes) (row : VectorRow)
    (theirs : row.hash = hash) : row ∈ t.db.vectors ↔ row ∈ s.db.vectors :=
  ⟨here.fewer row, fun stored => here.kept row stored (theirs ▸ free)⟩

/-- A reclaim that came to its end. -/
theorem of_done (done : Store.Reclaimed hashes s t) : Reclaiming hashes s t := by
  have memory : ∀ row ∈ s.db.vectors, row.hash ∉ hashes →
      (row.vid ∈ t.hnsw.inner.keys ↔ row.vid ∈ s.hnsw.inner.keys) := by
    intro row stored free
    rw [done.index]
    refine (Store.mem_keys_evicted hashes s.hnsw).trans (and_iff_left fun other inside same => ?_)
    have one : other = row := Table.eq_of_clash inside stored (.inr same)
    exact one ▸ free
  refine ⟨done.texts, fun row stored => ((done.rows row).mp stored).1, fun row stored free => (done.rows row).mpr ⟨stored, free⟩,
    memory, fun row stored free => ?_⟩
  rcases done.file with same | saved
  · left
    change row.vid ∈ (t.hnswFile.getD .empty).keys ↔ _
    rw [same]
    exact Iff.rfl
  · right
    change row.vid ∈ (t.hnswFile.getD .empty).keys ↔ _
    rw [saved]
    exact memory row stored free

end Store.Reclaiming

/-! ### Vectors that are gone -/

/-- The vector of a row is gone, and the pass does not take the text on. -/
structure Session.Lost (env : Env V) (backend : Backend) (excluded : List Nat) (row : VectorRow) (m : Session V) :
    Prop where
  stored : row ∈ m.store.db.vectors
  settled : Settled env backend excluded m.store.db row.hash
  free : row.hash ∉ m.superseded ∧ ∀ p ∈ m.pending, p.hash ≠ row.hash
  below : row.vid < m.store.hnsw.nextVid
  file : row.vid ∉ m.store.disk.savedVids
  memory : row.vid ∉ m.store.hnsw.inner.keys

/-- Old vectors may leave the memory when a document is embedded; the allocator stands. -/
theorem Session.embedded_index {m : Session V} {hash relPath : String} :
    (m.embedded env hash relPath).store.hnsw.nextVid = m.store.hnsw.nextVid ∧
      ∀ vid ∈ (m.embedded env hash relPath).store.hnsw.inner.keys, vid ∈ m.store.hnsw.inner.keys := by
  simp only [Session.embedded]
  split
  · exact ⟨Store.removeVids_nextVid _ _, fun vid held => (Store.mem_keys_removeVids.mp held).1⟩
  · exact ⟨rfl, fun _ => id⟩

namespace Session.Lost

variable {m n : Session V} {row : VectorRow}

theorem step (lost : m.Lost env backend excluded row) (step : EmbedStep env backend excluded m n) :
    n.Lost env backend excluded row := by
  cases step with
  | aside fts dirty log quiet => exact ⟨lost.stored, lost.settled, lost.free, lost.below, lost.file, lost.memory⟩
  | unmarked hash =>
    have same : needsEmbed env backend excluded (m.store.db.clearPrevHash hash) row.hash =
        needsEmbed env backend excluded m.store.db row.hash :=
      needsEmbed_congr (Db.sameTexts_clearPrevHash hash) fun _ _ => Iff.rfl
    exact ⟨lost.stored, same.trans lost.settled, lost.free, lost.below, lost.file, lost.memory⟩
  | added chunk vector vid index source given =>
    obtain ⟨absent, past, rfl⟩ := VectorIndex.add_some given
    have below := lost.below
    refine ⟨lost.stored, lost.settled, lost.free, ?_, lost.file, fun held => ?_⟩
    · change row.vid < vid + 1
      omega
    · rcases List.mem_cons.mp held with same | before
      · omega
      · exact lost.memory before
  | refused vector index given =>
    obtain ⟨inner, next, -⟩ := VectorIndex.add_none given
    refine ⟨lost.stored, lost.settled, lost.free, Nat.lt_of_lt_of_le lost.below next, lost.file, ?_⟩
    change row.vid ∉ index.inner.keys
    rw [inner]
    exact lost.memory
  | rolledBack =>
    refine ⟨lost.stored, lost.settled, lost.free, ?_, lost.file, fun held => ?_⟩
    · exact Nat.lt_of_lt_of_le lost.below (Nat.le_of_eq (Store.removeVids_nextVid _ _).symm)
    · exact lost.memory (Store.mem_keys_removeVids.mp held).1
  | embedded hash relPath pending first =>
    have apart : row.hash ≠ hash := by
      intro same
      have settled := lost.settled
      rw [Settled, same, pending] at settled
      cases settled
    have listed : row.hash ∉ (m.embedded env hash relPath).superseded := by
      simp only [Session.embedded]
      split
      · rw [List.mem_insert_iff, not_or]
        exact ⟨apart, lost.free.1⟩
      · exact lost.free.1
    have keys := @embedded_index V env m hash relPath
    refine ⟨lost.stored, lost.settled, ⟨listed, fun p member => ?_⟩, keys.1.symm ▸ lost.below, lost.file, ?_⟩
    · rcases List.mem_append.mp member with old | new
      · exact lost.free.2 p old
      · rw [Running.batchMetas_hash new]
        exact apart.symm
    · exact fun held => lost.memory (keys.2 _ held)
  | saved writable => exact ⟨lost.stored, lost.settled, lost.free, lost.below, lost.memory, lost.memory⟩
  | committed db saved rows =>
    have done := Db.checkpointed rows
    have same : ∀ other : VectorRow, other.hash = row.hash → (other ∈ db.vectors ↔ other ∈ m.store.db.vectors) :=
      fun other theirs => done.untouched lost.free.1 lost.free.2 other theirs
    refine ⟨(same row rfl).mpr lost.stored, (needsEmbed_congr done.texts same).trans lost.settled, ?_, lost.below,
      lost.file, lost.memory⟩
    exact ⟨List.not_mem_nil, fun _ none => absurd none List.not_mem_nil⟩

theorem passes {start : Session V} (lost : start.Lost env backend excluded row)
    (run : Passes env backend excluded start m) : m.Lost env backend excluded row := by
  induction run with
  | refl => exact lost
  | tail _ step ih => exact ih.step step

end Session.Lost

/-! ### What a pass leaves of the file -/

/-- The document has text, no rule excludes it, and the pass does not take it on. -/
def Db.Done (env : Env V) (backend : Backend) (db : Db) (doc : Document) : Prop :=
  Embeddable env db doc ∧ ¬ NeedsEmbed env backend db doc.hash

/-- The file has the vectors of all rows of the hash. -/
def Disk.Holds (d : Disk V) (hash : String) : Prop := ∀ row ∈ d.db.vectors, row.hash = hash → row.vid ∈ d.savedVids

/-- The file has the vectors of the documents the pass does not take on. -/
def Disk.Intact (env : Env V) (backend : Backend) (d : Disk V) : Prop :=
  ∀ doc ∈ d.db.documents, d.db.Done env backend doc → d.Holds doc.hash

/-- The memory is the file, and the allocator is past all ids. -/
structure Store.Begun (u : Store V) : Prop where
  allotted : (Session.of u).Allotted
  inner : u.hnsw.inner = u.hnswFile.getD .empty

theorem Disk.begun (d : Disk V) (readOnly : Bool) : (d.open readOnly).Begun :=
  ⟨Session.Allotted.opened (d.open readOnly) readOnly, openHnsw_inner⟩

/-- Texts that count as embedded, unless they did at the start without their vectors. -/
def StillEmbedded (env : Env V) (backend : Backend) (excluded : List Nat) (u : Store V) (db : Db) (hash : String) :
    Prop :=
  Settled env backend excluded db hash ∧ (Settled env backend excluded u.db hash → u.disk.Holds hash)

theorem stable_stillEmbedded : Stable (StillEmbedded env backend excluded u) := fun db after hash texts rows kept =>
  ⟨stable_settled db after hash texts rows kept.1, kept.2⟩

theorem not_stillEmbedded {db : Db} {hash : String} (needs : needsEmbed env backend excluded db hash = true) :
    ¬ StillEmbedded env backend excluded u db hash := by
  intro still
  have settled := still.1
  rw [Settled, needs] at settled
  cases settled

theorem Store.Begun.covered (begun : u.Begun) : (Session.of u).Covered (StillEmbedded env backend excluded u) := by
  have saved : ∀ row ∈ u.db.vectors, StillEmbedded env backend excluded u u.db row.hash → row.vid ∈ u.disk.savedVids :=
    fun row stored kept => kept.2 kept.1 row stored rfl
  refine ⟨begun.allotted, saved, fun row stored kept => ?_, fun _ none => absurd none List.not_mem_nil,
    fun _ none => absurd none List.not_mem_nil⟩
  change row.vid ∈ u.hnsw.inner.keys
  rw [begun.inner]
  exact saved row stored kept

theorem Store.Begun.lost (begun : u.Begun) {row : VectorRow} (stored : row ∈ u.db.vectors)
    (settled : Settled env backend excluded u.db row.hash) (gone : row.vid ∉ u.disk.savedVids) :
    (Session.of u).Lost env backend excluded row := by
  refine ⟨stored, settled, ⟨List.not_mem_nil, fun _ none => absurd none List.not_mem_nil⟩,
    begun.allotted.rows row stored, gone, ?_⟩
  change row.vid ∉ u.hnsw.inner.keys
  rw [begun.inner]
  exact gone

/-- A pass cut anywhere, and a reclaim of unused texts cut anywhere after it. -/
theorem intact_iff {m : Session V} {hashes : List String} (begun : u.Begun)
    (run : Passes env backend (u.db.excludedDocs env.globs) (.of u) m) (rest : Store.Reclaiming hashes m.store t)
    (unused : ∀ doc ∈ m.store.db.documents, doc.active = true → doc.hash ∉ hashes) :
    t.disk.Intact env backend ↔ u.disk.Intact env backend := by
  have passed : u.db.SameTexts m.store.db := texts_of_passes run
  have texts : u.db.SameTexts t.db := passed.trans rest.texts
  have free : ∀ doc ∈ u.db.documents, doc.active = true → doc.hash ∉ hashes := by
    intro doc stored active
    obtain ⟨middle, there, same⟩ := passed.after_document stored
    have fields := Document.alike same
    exact fields.hash ▸ unused middle there (fields.active.trans active)
  -- the two states agree on who is done, given what the pass made of the rows
  have done_iff : ∀ doc ∈ u.db.documents, ∀ later : Document, later.unmarked = doc.unmarked → Embeddable env u.db doc →
      (t.db.Done env backend later ↔ Settled env backend (u.db.excludedDocs env.globs) m.store.db doc.hash) := by
    intro doc stored later same fits
    have waits : needsEmbed env backend (u.db.excludedDocs env.globs) t.db doc.hash =
        needsEmbed env backend (u.db.excludedDocs env.globs) m.store.db doc.hash :=
      needsEmbed_congr rest.texts (rest.rows (free doc stored fits.1))
    unfold Db.Done NeedsEmbed Settled
    rw [texts.excludedDocs, (Document.alike same).hash, waits, Bool.not_eq_true]
    exact and_iff_right ((embeddable_congr texts same).mpr fits)
  constructor
  · intro intact doc stored done row inside theirs
    by_contra gone
    have settled : Settled env backend (u.db.excludedDocs env.globs) u.db row.hash :=
      theirs.symm ▸ (Bool.not_eq_true _).mp done.2
    have lost := (begun.lost inside settled gone).passes run
    obtain ⟨later, there, same⟩ := texts.after_document stored
    have unlisted : row.hash ∉ hashes := theirs.symm ▸ free doc stored done.1.1
    have after : t.db.Done env backend later := (done_iff doc stored later same done.1).mpr (theirs ▸ lost.settled)
    have hash : row.hash = later.hash := theirs.trans (Document.alike same).hash.symm
    have saved := intact later there after row (rest.kept row lost.stored unlisted) hash
    rcases rest.file row lost.stored unlisted with file | file
    · exact lost.file (file.mp saved)
    · exact lost.memory (file.mp saved)
  · intro intact later there done row inside theirs
    obtain ⟨doc, stored, same⟩ := texts.before_document there
    have fits : Embeddable env u.db doc := (embeddable_congr texts same).mp done.1
    have hash : row.hash = doc.hash := theirs.trans (Document.alike same).hash
    have kept : StillEmbedded env backend (u.db.excludedDocs env.globs) u m.store.db row.hash := by
      rw [hash]
      refine ⟨(done_iff doc stored later same fits).mp done, fun settled => ?_⟩
      exact intact doc stored ⟨fits, (Bool.not_eq_true _).mpr settled⟩
    have covered := begun.covered.passes stable_stillEmbedded (fun _ _ => not_stillEmbedded) run
    have before : row ∈ m.store.db.vectors := rest.fewer row inside
    rcases rest.file row before (hash.symm ▸ free doc stored fits.1) with file | file
    · exact file.mpr (covered.file row before kept)
    · exact file.mpr (covered.memory row before kept)

theorem Left.intact (begun : u.Begun) (left : Left env backend (u.db.excludedDocs env.globs) (.of u) t) :
    t.disk.Intact env backend ↔ u.disk.Intact env backend := by
  obtain ⟨m, run, rfl⟩ := left
  exact intact_iff begun run (.refl m.store) fun _ _ _ => List.not_mem_nil

/-- The work of a rebuild, cut anywhere. -/
theorem wp_embedCollections_intact (e : Disk V) (cols : List Collection) :
    wp Faults.any (embedCollections env backend cols true)
      (Ends.all fun t => t.disk.Intact env backend ↔ e.Intact env backend) (e.open false) := by
  have begun := e.begun false
  have left : ∀ t : Store V, Left env backend (e.db.excludedDocs env.globs) (.of (e.open false)) t →
      (t.disk.Intact env backend ↔ e.Intact env backend) := fun t passed => passed.intact begun
  have onward : wp Faults.any (do
      let result ← embedPass env backend cols
      Store.reclaimOrphanedVectors
      Prog.ofExcept (finishEmbed result.1 result.2) : Command V Unit)
      (Ends.all fun t => t.disk.Intact env backend ↔ e.Intact env backend) (e.open false) := by
    refine wp_bind (wp_mono (wp_embedPass openHnsw_writable) (fun result mid passed => ?_) (fun _ => left) left)
    have swept : wp Faults.any Store.reclaimOrphanedVectors
        (Ends.all fun t => t.disk.Intact env backend ↔ e.Intact env backend) mid := by
      have iff : ∀ t, Store.Reclaiming mid.db.orphanedVectorHashes mid t →
          (t.disk.Intact env backend ↔ e.Intact env backend) := fun t rest =>
        intact_iff begun passed.1 rest fun doc stored active => Db.active_not_orphaned stored active
      exact wp_bind (wp_query (wp_mono (Store.Reclaiming.run _ mid) (fun _ => iff) (fun _ => iff) iff))
    refine wp_bind (wp_mono swept (fun _ t iff => ?_) (fun _ _ => id) fun _ => id)
    exact wp_ofExcept (fun _ _ => iff) fun _ _ => iff
  exact onward

end Rqmd
