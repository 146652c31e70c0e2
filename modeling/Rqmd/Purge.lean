import Mathlib.Data.List.Dedup
import Rqmd.Consistency
import Rqmd.Commands

/-! Deleting the vectors of one collection. Texts and their vectors are shared by hash, so a deletion has to
look at the documents of all other collections, and at the hashes that wait as donors for one of them. -/

namespace Rqmd
open Interrupt

variable {V : Type} {env : Env V} {faults : Faults FaultKind} {s : Store V}

namespace Db

variable {db : Db} {name : CollectionName}

/-- What the statements of `purge_collection` leave, one after the other. -/
def purged (db : Db) (name : CollectionName) : Db :=
  ((((db.deleteDocuments name).deleteUnreferencedVectors).deleteUnreferencedContent).deleteCollection name).deleteContexts name

/-- Another collection needs the vectors of the hash: an active document is on it, or one that has no vectors of
its own yet names it as donor. -/
def neededElsewhere (db : Db) (name : CollectionName) (hash : String) : Bool :=
  (db.documents.any fun d => d.collection != name && d.active && d.hash == hash) ||
    db.documents.any fun d => d.collection != name && d.active && d.prevHash == some hash && !db.hashHasAnyVector d.hash

/-- The deletion touched nothing another collection needs. -/
structure Local (db : Db) (name : CollectionName) (after : Db) : Prop where
  vectors : ∀ row ∈ db.vectors, db.neededElsewhere name row.hash = true → row ∈ after.vectors
  documents : ∀ d, d.collection ≠ name → (d ∈ after.documents ↔ d ∈ db.documents)
  contexts : ∀ other, other ≠ name → ∀ row, keyHasPrefix (collectionContextKey other) row.key = true →
    (row ∈ after.config ↔ row ∈ db.config)
  content : ∀ d ∈ db.documents, d.collection ≠ name → ∀ c, c.hash = d.hash → (c ∈ after.content ↔ c ∈ db.content)

/-- Every donor with vectors that a document of another collection waits for is the text of a document of another
collection, and when an active document of this one has that text, of an active one. -/
def DonorsElsewhere (db : Db) (name : CollectionName) : Prop :=
  ∀ row ∈ db.vectors, ∀ d ∈ db.documents, d.collection ≠ name → d.active = true → d.prevHash = some row.hash →
    db.hashHasAnyVector d.hash = false →
    (∃ e ∈ db.documents, e.collection ≠ name ∧ e.hash = row.hash) ∧
      ((∃ e ∈ db.documents, e.collection = name ∧ e.active = true ∧ e.hash = row.hash) →
        ∃ e ∈ db.documents, e.collection ≠ name ∧ e.active = true ∧ e.hash = row.hash)

theorem mem_purged_vectors {row : VectorRow} : row ∈ (db.purged name).vectors ↔
    row ∈ db.vectors ∧ ∃ e ∈ db.documents, e.collection ≠ name ∧ e.hash = row.hash := by
  change row ∈ (db.deleteDocuments name).vectors.deleteWhere _ ↔ _
  rw [Table.mem_deleteWhere]
  simp only [unreferenced, Bool.not_eq_true', Bool.not_eq_false, Table.any_eq_true, deleteDocuments, Table.mem_deleteWhere,
    beq_iff_eq, and_assoc]

theorem notShared_iff {hash : String} : db.notShared name hash = true ↔
    (∃ e ∈ db.documents, e.collection = name ∧ e.active = true ∧ e.hash = hash) ∧
      ¬ ∃ e ∈ db.documents, e.collection ≠ name ∧ e.active = true ∧ e.hash = hash := by
  simp only [notShared, Bool.and_eq_true, Bool.not_eq_true', ← Bool.not_eq_true, Table.any_eq_true, beq_iff_eq, bne_iff_ne,
    and_assoc]

theorem neededElsewhere_iff {hash : String} : db.neededElsewhere name hash = true ↔
    (∃ d ∈ db.documents, d.collection ≠ name ∧ d.active = true ∧ d.hash = hash) ∨
      ∃ d ∈ db.documents, d.collection ≠ name ∧ d.active = true ∧ d.prevHash = some hash ∧
        db.hashHasAnyVector d.hash = false := by
  simp only [neededElsewhere, Bool.or_eq_true, Table.any_eq_true, Bool.and_eq_true, beq_iff_eq, bne_iff_ne,
    Bool.not_eq_true', and_assoc]

/-- The context keys of two collections have no row in common. -/
theorem contextKey_disjoint {other : CollectionName} {key : String} (mine : keyHasPrefix (collectionContextKey name) key = true)
    (theirs : keyHasPrefix (collectionContextKey other) key = true) : other = name := by
  obtain ⟨rest, front⟩ := List.isPrefixOf_iff_prefix.mp mine
  obtain ⟨tail, start⟩ := List.isPrefixOf_iff_prefix.mp theirs
  have same : filepath other (String.ofList tail) = filepath name (String.ofList rest) := by
    have lists := start.trans front.symm
    simp only [collectionContextKey, String.toList_append, List.append_assoc, List.append_cancel_left_eq] at lists
    apply String.toList_inj.mp
    simpa only [filepath, String.toList_append, String.toList_ofList, List.append_assoc] using lists
  exact (filepath_injective same).1

/-- Documents, contexts and content of the other collections survive a purge. -/
theorem local_purged (vectors : ∀ row ∈ db.vectors, db.neededElsewhere name row.hash = true → row ∈ (db.purged name).vectors) :
    db.Local name (db.purged name) where
  vectors := vectors
  documents := by
    intro d other
    change d ∈ db.documents.deleteWhere _ ↔ _
    simp [other]
  contexts := by
    intro other different row theirs
    change row ∈ db.config.deleteWhere _ ↔ _
    rw [Table.mem_deleteWhere]
    constructor
    · exact fun kept => kept.1
    · exact fun member => ⟨member, fun mine => different (contextKey_disjoint mine theirs)⟩
  content := by
    intro d member other c same
    change c ∈ db.content.deleteWhere _ ↔ _
    rw [Table.mem_deleteWhere]
    constructor
    · exact fun kept => kept.1
    · intro stored
      refine ⟨stored, ?_⟩
      have referenced : d ∈ ((db.deleteDocuments name).deleteUnreferencedVectors).documents := by
        change d ∈ db.documents.deleteWhere _
        simp [member, other]
      have used : ((db.deleteDocuments name).deleteUnreferencedVectors).documents.any (fun e => e.hash == c.hash) = true :=
        Table.any_eq_true.mpr ⟨d, referenced, beq_iff_eq.mpr same.symm⟩
      simp [unreferenced, used]

theorem local_cleared (vectors : ∀ row ∈ db.vectors, db.neededElsewhere name row.hash = true →
    row ∈ (db.clearVectorsForCollection name).vectors) : db.Local name (db.clearVectorsForCollection name) where
  vectors := vectors
  documents := fun _ _ => Iff.rfl
  contexts := fun _ _ _ _ => Iff.rfl
  content := fun _ _ _ _ _ => Iff.rfl

theorem mem_cleared {row : VectorRow} : row ∈ (db.clearVectorsForCollection name).vectors ↔
    row ∈ db.vectors ∧ ¬ db.notShared name row.hash = true := by
  change row ∈ db.vectors.deleteWhere _ ↔ _
  rw [Table.mem_deleteWhere]

theorem mem_rebuildableVids {vid : Nat} : vid ∈ db.rebuildableVidsForCollection name ↔
    ∃ row ∈ db.vectors, db.notShared name row.hash = true ∧ row.vid = vid := by
  simp only [rebuildableVidsForCollection, List.mem_map, Table.mem_select, and_assoc]

/-- The purge, the scoped clearing and the eviction before it leave what other collections need. -/
def DeletesLocally (db : Db) (name : CollectionName) : Prop :=
  db.Local name (db.purged name) ∧ db.Local name (db.clearVectorsForCollection name) ∧
    ∀ row ∈ db.vectors, db.neededElsewhere name row.hash = true → row.vid ∉ db.rebuildableVidsForCollection name

theorem not_notShared {hash : String} (shared : (∃ e ∈ db.documents, e.collection = name ∧ e.active = true ∧ e.hash = hash) →
    ∃ e ∈ db.documents, e.collection ≠ name ∧ e.active = true ∧ e.hash = hash) : ¬ db.notShared name hash = true := by
  rw [notShared_iff]
  rintro ⟨mine, none⟩
  exact none (shared mine)

/-- The deletions are local exactly when every donor another collection waits for is found among its texts. -/
theorem deletesLocally_iff : db.DeletesLocally name ↔ db.DonorsElsewhere name := by
  constructor
  · rintro ⟨purge, clear, -⟩ row stored d member other active donor waiting
    have needed : db.neededElsewhere name row.hash = true :=
      neededElsewhere_iff.mpr (.inr ⟨d, member, other, active, donor, waiting⟩)
    refine ⟨(mem_purged_vectors.mp (purge.vectors row stored needed)).2, fun mine => ?_⟩
    by_contra none
    exact (mem_cleared.mp (clear.vectors row stored needed)).2 (notShared_iff.mpr ⟨mine, none⟩)
  · intro donors
    have safe : ∀ row ∈ db.vectors, db.neededElsewhere name row.hash = true →
        (∃ e ∈ db.documents, e.collection ≠ name ∧ e.hash = row.hash) ∧ ¬ db.notShared name row.hash = true := by
      intro row stored needed
      rcases neededElsewhere_iff.mp needed with ⟨d, member, other, active, same⟩ | ⟨d, member, other, active, donor, waiting⟩
      · exact ⟨⟨d, member, other, same⟩, not_notShared fun _ => ⟨d, member, other, active, same⟩⟩
      · obtain ⟨elsewhere, shared⟩ := donors row stored d member other active donor waiting
        exact ⟨elsewhere, not_notShared shared⟩
    refine ⟨local_purged ?_, local_cleared ?_, ?_⟩
    · exact fun row stored needed => mem_purged_vectors.mpr ⟨stored, (safe row stored needed).1⟩
    · exact fun row stored needed => mem_cleared.mpr ⟨stored, (safe row stored needed).2⟩
    · intro row stored needed evicted
      obtain ⟨other, inside, unshared, same⟩ := mem_rebuildableVids.mp evicted
      have one : other = row := Table.eq_of_clash inside stored (.inr same)
      exact (safe row stored needed).2 (one ▸ unshared)

/-- Two collections with one file each. -/
def work : CollectionName := ⟨"work", by decide, by decide⟩

def workCollection : Collection := { notesCollection with name := work, path := "/work" }

/-- Both files held one text when it was embedded; then the first was edited, and waits for its vectors. -/
def editedDisk : Disk String := (Disk.empty : Disk String).after sampleEnv
  [(.add notesCollection (notesWalk (.ok (notesDoc "alpha"))), []),
    (.add workCollection (notesWalk (.ok (notesDoc "alpha"))), []),
    (.embed gemma none false, []),
    (.add notesCollection (notesWalk (.ok (notesDoc "beta"))), [])]

/-- The second collection's purge and its scoped rebuild both take the donor of the first one's file. -/
theorem deletes_donor_of_other : ¬ editedDisk.db.DeletesLocally work := by
  rintro ⟨purge, -, -⟩
  have lost : ∃ row ∈ editedDisk.db.vectors.rows, editedDisk.db.neededElsewhere work row.hash = true ∧
      ¬ row ∈ (editedDisk.db.purged work).vectors.rows ∧ ¬ row ∈ (editedDisk.db.clearVectorsForCollection work).vectors.rows := by
    decide +kernel
  obtain ⟨row, stored, needed, gone, -⟩ := lost
  exact gone (purge.vectors row stored needed)

theorem mem_orphanedVectorHashes {hash : String} :
    hash ∈ db.orphanedVectorHashes ↔ ∃ row ∈ db.vectors, db.orphaned row.hash = true ∧ row.hash = hash := by
  simp only [orphanedVectorHashes, List.mem_dedup, List.mem_map, Table.mem_select, and_assoc]

/-- No orphan is the hash of an active document. -/
theorem active_not_orphaned {doc : Document} (stored : doc ∈ db.documents) (active : doc.active = true) :
    doc.hash ∉ db.orphanedVectorHashes := by
  intro listed
  obtain ⟨row, -, orphan, same⟩ := mem_orphanedVectorHashes.mp listed
  have used : db.documents.any (fun d => d.active && d.hash == row.hash) = true :=
    Table.any_eq_true.mpr ⟨doc, stored, by simp [active, same]⟩
  simp [orphaned, used] at orphan

end Db

/-! ### Removing a collection -/

namespace Store

/-- The full-text side and the record may have moved on; the rest is as it was. -/
def Aside (s t : Store V) : Prop := t = { s with fts := t.fts, log := t.log }

theorem rowsAndVectors_aside : RowsAndVectors s.Aside := by
  refine ⟨fun t fts log _ aside => ?_⟩
  unfold Aside at aside ⊢
  rw [aside]

theorem wp_purgeCollection {name : CollectionName} {done : List String → Store V → Prop}
    (met : ∀ filepaths log, done filepaths { s with db := s.db.purged name, log := log }) :
    wp faults (purgeCollection name) (Ends.ifDone done) s := by
  unfold purgeCollection
  refine wp_bind (wp_query ?_)
  refine wp_bind (wp_sqlExecute ?_ (fun _ _ => trivial) fun _ => trivial)
  refine wp_bind (wp_sqlExecute ?_ (fun _ _ => trivial) fun _ => trivial)
  refine wp_bind (wp_sqlExecute ?_ (fun _ _ => trivial) fun _ => trivial)
  refine wp_bind (wp_sqlExecute ?_ (fun _ _ => trivial) fun _ => trivial)
  refine wp_bind (wp_sqlExecute ?_ (fun _ _ => trivial) fun _ => trivial)
  exact wp_pure (met _ _)

/-- The vector index after evicting the vectors of each hash. -/
def evicted (db : Db) (index : VectorIndex V) (hashes : List String) : VectorIndex V :=
  hashes.foldl (fun index hash => removeVids index (db.vidsForHash hash)) index

theorem mem_keys_evicted {db : Db} {vid : Nat} (hashes : List String) : ∀ index : VectorIndex V,
    vid ∈ (evicted db index hashes).inner.keys ↔
      vid ∈ index.inner.keys ∧ ∀ row ∈ db.vectors, row.vid = vid → row.hash ∉ hashes := by
  induction hashes with
  | nil => simp [evicted]
  | cons hash hashes ih =>
    intro index
    change vid ∈ (evicted db (removeVids index (db.vidsForHash hash)) hashes).inner.keys ↔ _
    rw [ih, mem_keys_removeVids, Db.mem_vidsForHash, and_assoc]
    refine and_congr_right fun _ => ?_
    constructor
    · rintro ⟨free, rest⟩ row stored same member
      rcases List.mem_cons.mp member with here | later
      · exact free ⟨row, stored, same, here⟩
      · exact rest row stored same later
    · intro free
      refine ⟨?_, fun row stored same later => free row stored same (List.mem_cons_of_mem _ later)⟩
      rintro ⟨row, stored, same, here⟩
      exact free row stored same (List.mem_cons.mpr (.inl here))

/-- The vector file is what the index was opened or saved as, unless the index changed since. -/
def InStep (s : Store V) : Prop := s.hnswDirty = false → s.hnswFile.getD .empty = s.hnsw.inner

/-- What a completed reclaim leaves. -/
structure Reclaimed (hashes : List String) (s t : Store V) : Prop where
  rows : ∀ row, row ∈ t.db.vectors ↔ row ∈ s.db.vectors ∧ row.hash ∉ hashes
  texts : Db.SameTexts s.db t.db
  documents : t.db.documents = s.db.documents
  index : t.hnsw = evicted s.db s.hnsw hashes
  file : t.hnswFile = s.hnswFile ∨ t.hnswFile = some t.hnsw.inner

/-- A completed flush writes the index to the file where it changed. -/
theorem flushed_file (step : s.InStep) : s.flushed.hnswFile.getD .empty = s.hnsw.inner := by
  unfold flushed
  split
  · change (some s.settled.hnsw.inner).getD .empty = _
    rw [settled_hnsw]
    rfl
  · next clean =>
    rw [settled_hnswFile]
    exact step (by simpa using clean)

/-- A flush leaves the file as it was or writes the index to it. -/
theorem flushed_saves : s.flushed.hnswFile = s.hnswFile ∨ s.flushed.hnswFile = some s.hnsw.inner := by
  unfold flushed
  split
  · right
    change some s.settled.hnsw.inner = _
    rw [settled_hnsw]
  · exact .inl settled_hnswFile

theorem wp_flush_done {done : Unit → Store V → Prop} (met : done () s.flushed) : wp faults flush (Ends.ifDone done) s :=
  wp_flush met (fun _ _ _ => trivial) (fun _ _ => ⟨trivial, trivial⟩) (fun _ _ _ _ => ⟨trivial, trivial⟩)
    fun _ => ⟨trivial, trivial, fun _ _ => trivial⟩

theorem wp_evictHash {hash : String} {done : Unit → Store V → Prop} (writable : s.hnsw.readOnly = false)
    (met : done () { s with
      hnsw := removeVids s.hnsw (s.db.vidsForHash hash)
      hnswDirty := s.hnswDirty || !(s.db.vidsForHash hash).isEmpty }) : wp faults (evictHash hash) (Ends.ifDone done) s := by
  unfold evictHash
  exact wp_bind (wp_query (wp_evictHnswVectors writable met))

/-- The state of the eviction loop before the hashes still to come. -/
structure Evicting (hashes : List String) (s : Store V) (rest : List String) (t : Store V) : Prop where
  shape : t = { s with hnsw := t.hnsw, hnswDirty := t.hnswDirty }
  index : evicted s.db t.hnsw rest = evicted s.db s.hnsw hashes
  step : s.InStep → t.InStep
  writable : t.hnsw.readOnly = false

theorem Evicting.next {hashes rest : List String} {hash : String} {t : Store V} (here : Evicting hashes s (hash :: rest) t) :
    Evicting hashes s rest { t with
      hnsw := removeVids t.hnsw (t.db.vidsForHash hash)
      hnswDirty := t.hnswDirty || !(t.db.vidsForHash hash).isEmpty } := by
  have db : t.db = s.db := by rw [here.shape]
  refine ⟨?_, ?_, ?_, (removeVids_readOnly _ _).trans here.writable⟩
  · have shape := here.shape
    generalize t.hnsw = hnsw at shape
    generalize t.hnswDirty = dirty at shape
    rw [shape]
  · rw [db]
    exact here.index
  · intro step clean
    obtain ⟨before, none⟩ := Bool.or_eq_false_iff.mp clean
    have noVids : t.db.vidsForHash hash = [] := by simpa using none
    rw [noVids]
    exact here.step step before

theorem wp_reclaimVectorsOf {hashes : List String} {done : Unit → Store V → Prop} (writable : s.hnsw.readOnly = false)
    (met : ∀ t, Reclaimed hashes s t → (s.InStep → t.InStep) → t.hnsw.readOnly = false → done () t) :
    wp faults (reclaimVectorsOf hashes) (Ends.ifDone done) s := by
  unfold reclaimVectorsOf
  by_cases none : hashes.isEmpty = true
  · rw [if_pos none]
    obtain rfl := List.isEmpty_iff.mp none
    exact wp_pure (met s ⟨by simp, .refl _, rfl, rfl, .inl rfl⟩ id writable)
  · rw [if_neg none]
    refine wp_bind (wp_forEach (Evicting hashes s) (fun hash rest t here => ?_) (fun t here => ?_) hashes s ?_)
    · exact wp_evictHash here.writable here.next
    · refine wp_bind (wp_flush_done ?_)
      refine wp_sqlExecute (met _ ?_ ?_ ?_) (fun _ _ => trivial) fun _ => trivial
      · have db : t.flushed.db = s.db := flushed_db.trans (by rw [here.shape])
        have index : t.hnsw = evicted s.db s.hnsw hashes := here.index
        have file : t.hnswFile = s.hnswFile := by rw [here.shape]
        have saves : t.flushed.hnswFile = s.hnswFile ∨ t.flushed.hnswFile = some t.flushed.hnsw.inner := by
          rw [flushed_hnsw, ← file]
          exact flushed_saves
        refine ⟨fun row => ?_, ?_, ?_, flushed_hnsw.trans index, saves⟩
        · rw [← db]
          exact Db.mem_deleteVectors hashes t.flushed.db row
        · rw [← db]
          exact (Db.texts_deleteVectors hashes t.flushed.db).1
        · rw [← db]
          exact (Db.texts_deleteVectors hashes t.flushed.db).2.2
      · intro step _
        change t.flushed.hnswFile.getD .empty = t.flushed.hnsw.inner
        rw [flushed_file (here.step step), flushed_hnsw]
      · change t.flushed.hnsw.readOnly = false
        rw [flushed_hnsw]
        exact here.writable
    · exact ⟨rfl, rfl, id, writable⟩

/-- What file and index hold of the other hashes' vectors, the file holds after. -/
theorem Reclaimed.saved {hashes : List String} {t : Store V} {vid : Nat} (reclaimed : Reclaimed hashes s t)
    (saved : vid ∈ s.disk.savedVids) (held : vid ∈ s.hnsw.inner.keys)
    (free : ∀ row ∈ s.db.vectors, row.vid = vid → row.hash ∉ hashes) : vid ∈ t.disk.savedVids := by
  rcases reclaimed.file with same | written
  · change vid ∈ (t.hnswFile.getD .empty).keys
    rwa [same]
  · change vid ∈ (t.hnswFile.getD .empty).keys
    rw [written, reclaimed.index]
    exact (mem_keys_evicted hashes s.hnsw).mpr ⟨held, free⟩

theorem wp_reclaimOrphanedVectors {done : Unit → Store V → Prop} (writable : s.hnsw.readOnly = false)
    (met : ∀ t, Reclaimed s.db.orphanedVectorHashes s t → (s.InStep → t.InStep) → t.hnsw.readOnly = false → done () t) :
    wp faults reclaimOrphanedVectors (Ends.ifDone done) s := by
  unfold reclaimOrphanedVectors
  exact wp_bind (wp_query (wp_reclaimVectorsOf writable met))

end Store

namespace Disk

variable {d : Disk V} {name : CollectionName}

/-- What a completed `collection remove` leaves of the vectors. -/
structure Removed (d : Disk V) (name : CollectionName) (after : Disk V) : Prop where
  rows : ∀ row, row ∈ after.db.vectors ↔ row ∈ (d.db.purged name).vectors ∧ (d.db.purged name).orphaned row.hash = false
  vids : ∀ vid, vid ∈ after.savedVids ↔ vid ∈ d.savedVids ∧
    ∀ row ∈ (d.db.purged name).vectors, row.vid = vid → (d.db.purged name).orphaned row.hash = false

/-- The rest of `collection remove` once the rows are purged. -/
theorem wp_sweep {filepaths : List String} (db : s.db = d.db.purged name) (inner : s.hnsw.inner = d.hnswFile.getD .empty)
    (writable : s.hnsw.readOnly = false) (step : s.InStep) :
    wp Faults.any (do
      Prog.forEach (Store.removeStaleEntry env) filepaths
      Store.reclaimOrphanedVectors
      Store.flush : Command V Unit) (Ends.ifDone fun _ t => d.Removed name t.disk) s := by
  have stale : wp Faults.any (Prog.forEach (Store.removeStaleEntry env) filepaths) (Ends.all s.Aside) s :=
    Preserves.forEach (fun path => Store.rowsAndVectors_aside.removeStaleEntry path) filepaths s rfl
  refine wp_bind (wp_ifDone stale fun _ t aside => ?_)
  have same : t.db = s.db ∧ t.hnsw = s.hnsw ∧ t.InStep := by
    unfold Store.Aside at aside
    rw [aside]
    exact ⟨rfl, rfl, step⟩
  obtain ⟨sameDb, sameIndex, stepped⟩ := same
  refine wp_bind (Store.wp_reclaimOrphanedVectors (sameIndex ▸ writable) fun u reclaimed inStep _ => ?_)
  refine Store.wp_flush_done ?_
  have listed : ∀ row ∈ t.db.vectors, row.hash ∉ t.db.orphanedVectorHashes ↔ t.db.orphaned row.hash = false := by
    intro row stored
    rw [Db.mem_orphanedVectorHashes]
    simp only [not_exists, not_and]
    constructor
    · intro none
      by_contra orphan
      exact none row stored (by simpa using orphan) rfl
    · intro kept other _ orphan same
      rw [same, kept] at orphan
      cases orphan
  constructor
  · intro row
    change row ∈ u.flushed.db.vectors ↔ _
    rw [Store.flushed_db, reclaimed.rows, ← db, ← sameDb]
    exact and_congr_right fun stored => listed row stored
  · intro vid
    change vid ∈ (u.flushed.hnswFile.getD .empty).keys ↔ _
    rw [Store.flushed_file (inStep stepped), reclaimed.index, Store.mem_keys_evicted, sameIndex, inner, ← db, ← sameDb]
    refine and_congr_right fun _ => forall_congr' fun row => forall_congr' fun stored => ?_
    rw [listed row stored]

theorem removed_of_completed {fates : List (Fate FaultKind)}
    (completed : ((removeCollection env name) fates (d.open false)).completed = true) :
    d.Removed name (d.run (removeCollection env name) fates) := by
  have proved : wp Faults.any (removeCollection env name) (Ends.ifDone fun _ t => d.Removed name t.disk) (d.open false) := by
    unfold removeCollection
    refine wp_bind (wp_modify ?_)
    refine wp_bind (wp_query ?_)
    simp only [Ends.with]
    split
    · exact wp_throw trivial
    · refine wp_bind (Store.wp_purgeCollection fun filepaths log => ?_)
      refine wp_sweep rfl openHnsw_inner openHnsw_writable fun _ => ?_
      exact openHnsw_inner.symm
  obtain ⟨-, removed⟩ := wp_completed proved (fun fate _ => any_allows fate) completed
  exact removed

/-- Every vector in the file is recorded. -/
def Recorded (d : Disk V) : Prop := ∀ vid ∈ d.savedVids, ∃ row ∈ d.db.vectors, row.vid = vid

/-- What `collection remove` is to leave: every vector in the file recorded, and those of the texts of other
collections' active documents still in both. -/
def ReclaimedFor (d : Disk V) (name : CollectionName) (after : Disk V) : Prop :=
  after.Recorded ∧ ∀ row ∈ d.db.vectors, (∃ e ∈ d.db.documents, e.collection ≠ name ∧ e.active = true ∧ e.hash = row.hash) →
    row ∈ after.db.vectors ∧ (row.vid ∈ d.savedVids → row.vid ∈ after.savedVids)

/-- Every text with a vector in the file is also a document of another collection. -/
def SharedElsewhere (d : Disk V) (name : CollectionName) : Prop :=
  ∀ row ∈ d.db.vectors, row.vid ∈ d.savedVids → ∃ e ∈ d.db.documents, e.collection ≠ name ∧ e.hash = row.hash

/-- An active document of another collection keeps its text from being an orphan of the purge. -/
theorem not_orphaned_purged {hash : String} {e : Document} (member : e ∈ d.db.documents) (other : e.collection ≠ name)
    (active : e.active = true) (same : e.hash = hash) : (d.db.purged name).orphaned hash = false := by
  have inside : e ∈ (d.db.purged name).documents := by
    change e ∈ d.db.documents.deleteWhere _
    simp [member, other]
  have used : ((d.db.purged name).documents.any fun d => d.active && d.hash == hash) = true :=
    Table.any_eq_true.mpr ⟨e, inside, by simp [active, same]⟩
  simp [Db.orphaned, used]

/-- A completed removal leaves every vector in the file recorded exactly when the purge deleted no rows of vectors in
the file. -/
theorem remove_reclaims_iff (env : Env V) (d : Disk V) (name : CollectionName) (fates : List (Fate FaultKind))
    (recorded : d.Recorded) (completed : ((removeCollection env name) fates (d.open false)).completed = true) :
    d.ReclaimedFor name (d.run (removeCollection env name) fates) ↔ d.SharedElsewhere name := by
  have removed := removed_of_completed completed
  constructor
  · rintro ⟨afterwards, -⟩ row stored saved
    by_contra none
    have purged : ∀ other ∈ (d.db.purged name).vectors, other.vid ≠ row.vid := by
      intro other kept same
      obtain ⟨before, elsewhere⟩ := Db.mem_purged_vectors.mp kept
      have one : other = row := Table.eq_of_clash before stored (.inr same)
      exact none (one ▸ elsewhere)
    have left : row.vid ∈ (d.run (removeCollection env name) fates).savedVids :=
      (removed.vids row.vid).mpr ⟨saved, fun other kept same => absurd same (purged other kept)⟩
    obtain ⟨other, kept, same⟩ := afterwards row.vid left
    exact purged other ((removed.rows other).mp kept).1 same
  · intro shared
    constructor
    · intro vid left
      obtain ⟨saved, safe⟩ := (removed.vids vid).mp left
      obtain ⟨row, stored, rfl⟩ := recorded vid saved
      have kept := Db.mem_purged_vectors.mpr ⟨stored, shared row stored saved⟩
      exact ⟨row, (removed.rows row).mpr ⟨kept, safe row kept rfl⟩, rfl⟩
    · rintro row stored ⟨e, member, other, active, same⟩
      have kept := Db.mem_purged_vectors.mpr ⟨stored, e, member, other, same⟩
      have alive := not_orphaned_purged member other active same
      refine ⟨(removed.rows row).mpr ⟨kept, alive⟩, fun saved => (removed.vids row.vid).mpr ⟨saved, ?_⟩⟩
      intro twin inside clash
      have one : twin = row := Table.eq_of_clash (Db.mem_purged_vectors.mp inside).1 stored (.inr clash)
      exact one ▸ alive

/-- One text in two collections, embedded once. -/
def sharedTexts : Disk String := (Disk.empty : Disk String).after sampleEnv
  [(.add notesCollection (notesWalk (.ok (notesDoc "alpha"))), []),
    (.add Db.workCollection (notesWalk (.ok (notesDoc "alpha"))), []), (.embed gemma none false, [])]

theorem remove_reclaims_iff_shared :
    sharedTexts.ReclaimedFor notes (sharedTexts.run (removeCollection sampleEnv notes) []) ↔ sharedTexts.SharedElsewhere notes := by
  have recorded : ∀ vid ∈ sharedTexts.savedVids, ∃ row ∈ sharedTexts.db.vectors.rows, row.vid = vid := by decide +kernel
  exact remove_reclaims_iff sampleEnv sharedTexts notes [] recorded (by decide +kernel)

/-- One text in one collection, embedded. -/
def embeddedNotes : Disk String := (Disk.empty : Disk String).after sampleEnv
  [(.add notesCollection (notesWalk (.ok (notesDoc "alpha"))), []), (.embed gemma none false, [])]

/-- The purge deletes the rows before the reclaim looks for its victims, so the vector stays behind. -/
theorem remove_leaves_vectors : embeddedNotes.Recorded ∧
    ((removeCollection sampleEnv notes) [] (embeddedNotes.open false)).completed = true ∧
    ¬ embeddedNotes.ReclaimedFor notes (embeddedNotes.run (removeCollection sampleEnv notes) []) := by
  have recorded : ∀ vid ∈ embeddedNotes.savedVids, ∃ row ∈ embeddedNotes.db.vectors.rows, row.vid = vid := by decide +kernel
  have left : ∃ vid ∈ (embeddedNotes.run (removeCollection sampleEnv notes) []).savedVids,
      ¬ ∃ row ∈ (embeddedNotes.run (removeCollection sampleEnv notes) []).db.vectors.rows, row.vid = vid := by
    decide +kernel
  obtain ⟨vid, saved, unrecorded⟩ := left
  exact ⟨recorded, by decide +kernel, fun reclaimed => unrecorded (reclaimed.1 vid saved)⟩

end Disk

end Rqmd
