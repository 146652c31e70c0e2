import Rqmd.Intact
import Rqmd.Ownership

/-! A rebuild that is interrupted. It destroys the vector file and the rows in separate steps, the unscoped form the
file first, the scoped form the rows; the vectors of a text must not be gone from the file while its rows still stand. -/

namespace Rqmd
open Interrupt

variable {V : Type} {env : Env V} {backend : Backend} {excluded : List Nat} {s t : Store V} {d : Disk V}

/-! ### What the clearing leaves -/

/-- Whose rows `--rebuild` clears. -/
def Db.clears (db : Db) : Option CollectionName → String → Bool
  | none, _ => true
  | some name, hash => db.notShared name hash

/-- The file is gone: an unscoped rebuild came past its removal. -/
def fileRemoved (collection : Option CollectionName) (fates : List (Fate FaultKind)) : Bool :=
  collection.isNone && performed (· == .hnsw) fates

/-- The rows are cleared: in the step after the removal of the file, or the first of a scoped rebuild. -/
def rowsCleared (collection : Option CollectionName) (fates : List (Fate FaultKind)) : Bool :=
  if collection.isNone then performed (· == .hnsw) fates && performed (· == .sql) fates.tail
  else performed (· == .sql) fates

/-- Once the rows are cleared the vectors of those left must be in the file, before that those of all; and between the
removal of the file and the clearing of the rows no text may count as embedded. -/
def RebuildSpares (env : Env V) (backend : Backend) (d : Disk V) (collection : Option CollectionName)
    (fates : List (Fate FaultKind)) : Prop :=
  if rowsCleared collection fates then
    ∀ doc ∈ d.db.documents, d.db.Done env backend doc → d.db.clears collection doc.hash = false → d.Holds doc.hash
  else if fileRemoved collection fates then ∀ doc ∈ d.db.documents, ¬ d.db.Done env backend doc
  else d.Intact env backend

namespace Db

variable {db after : Db} {doc : Document} {collection : Option CollectionName}

theorem needsEmbed_of_rowless {hash : String} (rowless : ∀ row ∈ db.vectors, row.hash ≠ hash) :
    needsEmbed env backend excluded db hash = true := by
  have none : ∀ print, db.hashHasVectorWithFingerprint hash print = false := by
    intro print
    rw [← Bool.not_eq_true, hasVectorWithFingerprint_iff]
    intro found
    obtain ⟨row, stored, theirs, -⟩ := found
    exact rowless row stored theirs
  simp [needsEmbed, hashNeedsEmbed, none]

theorem Done.row (done : db.Done env backend doc) : ∃ row ∈ db.vectors, row.hash = doc.hash := by
  by_contra rowless
  refine done.2 (needsEmbed_of_rowless fun row stored theirs => rowless ⟨row, stored, theirs⟩)

/-- The rows are those that were not cleared. -/
structure Cleared (collection : Option CollectionName) (db after : Db) : Prop where
  texts : db.SameTexts after
  documents : after.documents = db.documents
  rows : ∀ row, row ∈ after.vectors ↔ row ∈ db.vectors ∧ db.clears collection row.hash = false

theorem Cleared.done (cleared : db.Cleared collection after) :
    after.Done env backend doc ↔ db.Done env backend doc ∧ db.clears collection doc.hash = false := by
  have fits : Embeddable env after doc ↔ Embeddable env db doc := embeddable_congr cleared.texts rfl
  unfold Done NeedsEmbed
  rw [fits, cleared.texts.excludedDocs, and_assoc]
  refine and_congr_right fun _ => ?_
  by_cases gone : db.clears collection doc.hash = true
  · have rowless : ∀ row ∈ after.vectors, row.hash ≠ doc.hash := by
      intro row stored theirs
      have left := ((cleared.rows row).mp stored).2
      rw [theirs, gone] at left
      cases left
    simp [needsEmbed_of_rowless rowless, gone]
  · have left : db.clears collection doc.hash = false := by simpa using gone
    have same : needsEmbed env backend (db.excludedDocs env.globs) after doc.hash =
        needsEmbed env backend (db.excludedDocs env.globs) db doc.hash := by
      refine needsEmbed_congr cleared.texts fun row theirs => ?_
      rw [cleared.rows, theirs]
      exact and_iff_left left
    rw [same, and_iff_left left]

theorem cleared_all : db.Cleared none db.clearAllVectors := by
  refine ⟨⟨rfl, rfl, rfl, rfl⟩, rfl, fun _ => ⟨fun stored => absurd stored (Table.not_mem_empty _), fun left => ?_⟩⟩
  cases left.2

theorem cleared_collection (name : CollectionName) : db.Cleared (some name) (db.clearVectorsForCollection name) :=
  ⟨⟨rfl, rfl, rfl, rfl⟩, rfl, fun _ => mem_cleared.trans (and_congr_right fun _ => Iff.of_eq (Bool.not_eq_true _))⟩

end Db

/-- After the rows are cleared, with the file as far as it concerns the rows left. -/
theorem cleared_intact {e : Disk V} {collection : Option CollectionName} (cleared : d.db.Cleared collection e.db)
    (file : ∀ row ∈ d.db.vectors, d.db.clears collection row.hash = false → (row.vid ∈ e.savedVids ↔ row.vid ∈ d.savedVids)) :
    e.Intact env backend ↔ ∀ doc ∈ d.db.documents, d.db.Done env backend doc →
      d.db.clears collection doc.hash = false → d.Holds doc.hash := by
  constructor
  · intro intact doc stored done left row inside theirs
    have there : row ∈ e.db.vectors := (cleared.rows row).mpr ⟨inside, theirs.symm ▸ left⟩
    have saved := intact doc (cleared.documents.symm ▸ stored) (cleared.done.mpr ⟨done, left⟩) row there theirs
    exact (file row inside (theirs.symm ▸ left)).mp saved
  · intro spared doc stored done row inside theirs
    obtain ⟨before, left⟩ := cleared.done.mp done
    obtain ⟨there, kept⟩ := (cleared.rows row).mp inside
    exact (file row there kept).mpr (spared doc (cleared.documents ▸ stored) before left row there theirs)

/-- With the file gone nothing may count as embedded. -/
theorem fileless_intact {e : Disk V} (rows : e.db = d.db) (gone : e.hnswFile = none) :
    e.Intact env backend ↔ ∀ doc ∈ d.db.documents, ¬ d.db.Done env backend doc := by
  have empty : ∀ vid, vid ∉ e.savedVids := by
    intro vid
    unfold Disk.savedVids
    rw [gone]
    exact List.not_mem_nil
  rw [← rows]
  constructor
  · intro intact doc stored done
    obtain ⟨row, inside, theirs⟩ := done.row
    exact empty _ (intact doc stored done row inside theirs)
  · intro none doc stored done
    exact absurd done (none doc stored)

/-! ### The steps of the clearing -/

section Clearing

variable {fates : List (Fate FaultKind)} {context : Failure} {f : Db → Db} {events : List Event}

theorem breaks_isSome (kind : FaultKind) (context : Failure) (found : FaultKind) :
    (Store.breaks kind context found).isSome = (found == kind) := by
  unfold Store.breaks
  by_cases same : found = kind
  · simp [same]
  · simp [same]

theorem execute_performed (next : performed (· == .sql) fates = true) : Store.sqlExecute context f events fates s =
    .done () { s with db := f s.db, log := s.log ++ events } fates.tail := by
  unfold Store.sqlExecute Store.sqlWrite
  exact effect_performed rfl (breaks_isSome _ _) next

theorem execute_stopped (next : performed (· == .sql) fates = false) :
    (Store.sqlExecute context f events fates s).final = s ∧ (Store.sqlExecute context f events fates s).completed = false := by
  unfold Store.sqlExecute Store.sqlWrite
  exact effect_stopped (breaks_isSome _ _) next

theorem evict_run (vids : List Nat) (writable : s.hnsw.readOnly = false) : Store.evictHnswVectors vids fates s =
    .done () { s with hnsw := Store.removeVids s.hnsw vids, hnswDirty := s.hnswDirty || !vids.isEmpty } fates := by
  unfold Store.evictHnswVectors
  cases vids with
  | nil => simp [Store.removeVids, pure]
  | cons vid vids =>
    have asked : (Prog.query fun s => s.hnsw.readOnly : Command V Bool) fates s = .done s.hnsw.readOnly s fates := rfl
    rw [List.isEmpty_cons, if_neg Bool.false_ne_true, bind_done asked, writable, if_neg Bool.false_ne_true,
      Bool.not_false, Bool.or_true]
    rfl

/-- The rows of the collection are cleared, and its vectors are out of the memory. -/
def Disk.clearedStore (d : Disk V) (name : CollectionName) : Store V :=
  { d.open false with
    db := d.db.clearVectorsForCollection name
    hnsw := Store.removeVids (d.open false).hnsw (d.db.rebuildableVidsForCollection name)
    hnswDirty := !(d.db.rebuildableVidsForCollection name).isEmpty
    log := d.log ++ [] }

/-- The file is removed and the rows still stand. -/
def Disk.fileless (d : Disk V) : Disk V := { d with hnswFile := none, log := d.log ++ [.hnswFileRemoved] }

variable {rest : Unit → Command V Unit} {name : CollectionName}

theorem clearScoped_steps : (clearScoped name >>= rest) fates (d.open true) =
    (Store.sqlExecute "clear vectors for collection" (fun db => db.clearVectorsForCollection name) [] >>= fun _ =>
      Store.flush >>= rest) fates { d.open false with
        hnsw := Store.removeVids (d.open false).hnsw (d.db.rebuildableVidsForCollection name)
        hnswDirty := !(d.db.rebuildableVidsForCollection name).isEmpty } := by
  have opened : (Store.reopen false : Command V Unit) fates (d.open true) = .done () (d.open false) fates := rfl
  have asked : (Prog.query fun s => s.db.rebuildableVidsForCollection name : Command V (List Nat)) fates (d.open false) =
      .done (d.db.rebuildableVidsForCollection name) (d.open false) fates := rfl
  unfold clearScoped
  simp only [bind_assoc]
  rw [bind_done opened, bind_done asked, bind_done (evict_run _ openHnsw_writable)]
  rfl

/-- The first step of an unscoped clearing. -/
def removeFile : Command V Unit :=
  Prog.effect (Store.breaks .hnsw "remove hnsw file") fun s =>
    (.ok (), { s with hnswFile := none, log := s.log ++ [.hnswFileRemoved] })

theorem clearUnscoped_eq : (clearUnscoped : Command V Unit) = removeFile >>= fun _ => Store.reopen true >>= fun _ =>
    Store.sqlExecute "clear all vectors" Db.clearAllVectors [.vectorsCleared] := rfl

theorem clearUnscoped_steps (next : performed (· == .hnsw) fates = true) :
    (clearUnscoped >>= rest) fates (d.open true) =
      (Store.sqlExecute "clear all vectors" Db.clearAllVectors [.vectorsCleared] >>= rest) fates.tail (d.fileless.open true) := by
  have removed : (removeFile : Command V Unit) fates (d.open true) =
      .done () { d.open true with hnswFile := none, log := d.log ++ [.hnswFileRemoved] } fates.tail :=
    effect_performed rfl (breaks_isSome _ _) next
  rw [clearUnscoped_eq, bind_assoc, bind_done removed]
  rfl

theorem clearUnscoped_stopped (next : performed (· == .hnsw) fates = false) :
    ((clearUnscoped >>= rest) fates (d.open true)).final.disk = d := by
  have stopped : ((removeFile : Command V Unit) fates (d.open true)).final = d.open true ∧
      ((removeFile : Command V Unit) fates (d.open true)).completed = false := effect_stopped (breaks_isSome _ _) next
  rw [clearUnscoped_eq, bind_assoc, (final_of_stopped stopped.2).1, stopped.1]
  rfl

end Clearing

/-! ### The rebuild -/

variable {fates : List (Fate FaultKind)} {cols : List Collection}

/-- What follows the clearing of a rebuild. -/
def reembed (env : Env V) (backend : Backend) (cols : List Collection) : Command V Unit := do
  Store.reopen false
  embedCollections env backend cols true

theorem reembed_intact (s : Store V) : wp Faults.any (reembed env backend cols)
    (Ends.all fun t => t.disk.Intact env backend ↔ s.disk.Intact env backend) s :=
  wp_bind (wp_modify (wp_embedCollections_intact s.disk cols))

theorem unscoped_intact : ((clearUnscoped >>= fun _ => reembed env backend cols) fates (d.open true)).final.disk.Intact
    env backend ↔ RebuildSpares env backend d none fates := by
  unfold RebuildSpares rowsCleared fileRemoved
  simp only [Option.isNone_none, if_true, Bool.true_and]
  by_cases removed : performed (· == .hnsw) fates = true
  · rw [clearUnscoped_steps removed, removed, Bool.true_and, if_pos rfl]
    by_cases cleared : performed (· == .sql) fates.tail = true
    · rw [bind_done (execute_performed cleared), if_pos cleared]
      refine (wp_final (reembed_intact _) fun fate _ => any_allows fate).trans ?_
      refine cleared_intact Db.cleared_all fun row _ left => ?_
      cases left
    · have stopped := @execute_stopped V (d.fileless.open true) fates.tail "clear all vectors" Db.clearAllVectors
        [.vectorsCleared] (by simpa using cleared)
      rw [(final_of_stopped stopped.2).1, stopped.1, if_neg cleared]
      exact fileless_intact rfl rfl
  · have kept : performed (· == .hnsw) fates = false := by simpa using removed
    rw [clearUnscoped_stopped kept, kept, Bool.false_and, if_neg Bool.false_ne_true, if_neg Bool.false_ne_true]

/-- The memory and the rows are as the clearing left them; the file is the one before, or the memory was saved. -/
structure ClearedScoped (d : Disk V) (name : CollectionName) (t : Store V) : Prop where
  rows : t.db = d.db.clearVectorsForCollection name
  memory : t.hnsw.inner = (d.clearedStore name).hnsw.inner
  file : t.hnswFile = d.hnswFile ∨ t.hnswFile = some t.hnsw.inner

theorem keptBySave_clearedScoped {name : CollectionName} : KeptBySave (ClearedScoped d name) :=
  ⟨⟨fun _ _ _ _ here => ⟨here.rows, here.memory, here.file⟩⟩, fun _ _ here => ⟨here.rows, here.memory, .inr rfl⟩,
    fun _ here => ⟨here.rows, here.memory, here.file⟩⟩

theorem ClearedScoped.intact {name : CollectionName} (here : ClearedScoped d name t) :
    t.disk.Intact env backend ↔ ∀ doc ∈ d.db.documents, d.db.Done env backend doc →
      d.db.clears (some name) doc.hash = false → d.Holds doc.hash := by
  have cleared : d.db.Cleared (some name) t.db := here.rows ▸ Db.cleared_collection name
  refine cleared_intact cleared fun row stored left => ?_
  rcases here.file with before | saved
  · change row.vid ∈ (t.hnswFile.getD .empty).keys ↔ _
    rw [before]
    exact Iff.rfl
  · change row.vid ∈ (t.hnswFile.getD .empty).keys ↔ _
    rw [saved, Option.getD_some, here.memory]
    refine Store.mem_keys_removeVids.trans ?_
    change row.vid ∈ (openHnsw d.hnswFile d.db false).inner.keys ∧ _ ↔ _
    rw [openHnsw_inner]
    refine and_iff_left fun gone => ?_
    obtain ⟨other, inside, free, same⟩ := Db.mem_rebuildableVids.mp gone
    have one : other = row := Table.eq_of_clash inside stored (.inr same)
    rw [one] at free
    exact absurd (free.symm.trans left) (by decide)

theorem scoped_intact {name : CollectionName} :
    ((clearScoped name >>= fun _ => reembed env backend cols) fates (d.open true)).final.disk.Intact env backend ↔
      RebuildSpares env backend d (some name) fates := by
  unfold RebuildSpares rowsCleared fileRemoved
  simp only [Option.isNone_some, Bool.false_and, Bool.false_eq_true, if_false]
  rw [clearScoped_steps]
  by_cases cleared : performed (· == .sql) fates = true
  · rw [bind_done (execute_performed cleared), if_pos cleared]
    have flushed : Preserves Faults.any (ClearedScoped d name) Store.flush := keptBySave_clearedScoped.flush
    have start : ClearedScoped d name (d.clearedStore name) := ⟨rfl, rfl, .inl rfl⟩
    have ended : wp Faults.any (Store.flush >>= fun _ => reembed env backend cols)
        (Ends.all fun t => t.disk.Intact env backend ↔ ∀ doc ∈ d.db.documents, d.db.Done env backend doc →
          d.db.clears (some name) doc.hash = false → d.Holds doc.hash) (d.clearedStore name) := by
      refine flushed.through (fun t here => here.intact) start fun _ t here => ?_
      have onward : ∀ v : Store V, (v.disk.Intact env backend ↔ t.disk.Intact env backend) → _ :=
        fun _ same => same.trans here.intact
      exact wp_mono (reembed_intact t) (fun _ => onward) (fun _ => onward) onward
    exact wp_final ended fun fate _ => any_allows fate
  · have stopped := @execute_stopped V { d.open false with
        hnsw := Store.removeVids (d.open false).hnsw (d.db.rebuildableVidsForCollection name)
        hnswDirty := !(d.db.rebuildableVidsForCollection name).isEmpty } fates "clear vectors for collection"
      (fun db => db.clearVectorsForCollection name) [] (by simpa using cleared)
    rw [(final_of_stopped stopped.2).1, stopped.1, if_neg cleared]
    exact Iff.rfl

theorem Db.Owned.none_cleared {db : Db} (owned : db.Owned) {name : CollectionName}
    (unlisted : db.findCollection name = none) (hash : String) : db.notShared name hash = false := by
  have none : db.documents.any (fun d => d.collection == name && d.active && d.hash == hash) = false := by
    rw [← Bool.not_eq_true, Table.any_eq_true]
    intro found
    obtain ⟨doc, stored, here⟩ := found
    simp only [Bool.and_eq_true, beq_iff_eq] at here
    obtain ⟨col, inside, same⟩ := owned doc stored
    exact Table.find?_none unlisted col inside (beq_iff_eq.mpr (same.trans here.1.1))
  simp [Db.notShared, none]

/-- Without collections there are no documents. -/
theorem Db.Owned.nobody {db : Db} (owned : db.Owned) {collection : Option CollectionName} {cols : List Collection}
    (selected : selectCollections db collection = .ok cols) (empty : cols.isEmpty = true) (doc : Document) :
    ¬ doc ∈ db.documents := by
  intro stored
  obtain ⟨col, inside, -⟩ := owned doc stored
  have none : cols = [] := List.isEmpty_iff.mp empty
  cases collection with
  | none =>
    have all : db.collections.rows = cols := Except.ok.inj selected
    have member : col ∈ db.collections.rows := inside
    rw [all, none] at member
    cases member
  | some name =>
    cases found : db.findCollection name with
    | none => simp [selectCollections, found] at selected
    | some other =>
      have one : [other] = cols := by simpa [selectCollections, found] using selected
      rw [none] at one
      cases one

/-- An interrupted rebuild keeps the file in step with the texts that count as embedded exactly when the cut spares
them. -/
theorem rebuild_intact_iff (owned : d.db.Owned) {collection : Option CollectionName} :
    (d.run (runEmbed env backend collection true) fates).Intact env backend ↔
      RebuildSpares env backend d collection fates := by
  unfold Disk.run
  have opened : (Store.reopen true : Command V Unit) fates (d.open false) = .done () (d.open true) fates := rfl
  have asked : (Prog.query fun s => selectCollections s.db collection : Command V (Except Failure (List Collection)))
      fates (d.open true) = .done (selectCollections d.db collection) (d.open true) fates := rfl
  rw [runEmbed_cleared, bind_done opened, bind_done asked]
  cases selected : selectCollections d.db collection with
  | error e =>
    -- an unlisted collection: the command ends here, and by `Owned` there are no rows it would have cleared
    change d.Intact env backend ↔ _
    cases collection with
    | none => cases selected
    | some name =>
      have unlisted : d.db.findCollection name = none := by
        cases found : d.db.findCollection name with
        | none => rfl
        | some col => simp [selectCollections, found] at selected
      unfold RebuildSpares Disk.Intact
      simp only [fileRemoved, Option.isNone_some, Bool.false_and, Bool.false_eq_true, if_false]
      split
      · simp [Db.clears, owned.none_cleared unlisted]
      · exact Iff.rfl
  | ok cols =>
    have given : (Prog.ofExcept (.ok cols) : Command V (List Collection)) fates (d.open true) =
        .done cols (d.open true) fates := rfl
    rw [bind_done given]
    by_cases empty : cols.isEmpty = true
    · rw [if_pos empty]
      change d.Intact env backend ↔ _
      have nobody := owned.nobody selected empty
      have spares : RebuildSpares env backend d collection fates := by
        unfold RebuildSpares
        split
        · exact fun doc stored => absurd stored (nobody doc)
        · split
          · exact fun doc stored => absurd stored (nobody doc)
          · exact fun doc stored => absurd stored (nobody doc)
      exact ⟨fun _ => spares, fun _ doc stored => absurd stored (nobody doc)⟩
    · rw [if_neg empty, if_pos rfl]
      cases collection with
      | none => exact unscoped_intact
      | some name => exact scoped_intact

end Rqmd
