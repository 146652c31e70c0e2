import Rqmd.Following

/-! The commands that write no full-text entry: embedding, cleaning up and setting rules. They leave the committed
entries as they are, and the rows as far as entries depend on them. -/

namespace Rqmd
open Interrupt

variable {V α : Type} {env : Env V} {faults : Faults FaultKind} {s : Store V} {d : Disk V} {lacking : Prop}

/-- The full-text index is as the disk has it, and no failure was passed over since. -/
structure Store.EntriesKept (d : Disk V) (s : Store V) : Prop where
  fts : s.fts = FtsIndex.opened d.entries d.frontmatterField
  log : ∃ events, s.log = d.log ++ events ∧ .warned ∉ events

/-- The entries are those of the rows, the rebuild aside. -/
def Db.PairedWith (env : Env V) (d : Disk V) (db : Db) : Prop := Disk.Paired env db.RebuildDue { d with db := db }

namespace Store.EntriesKept

theorem begun {readOnly : Bool} : (d.open readOnly).EntriesKept d :=
  ⟨rfl, [], (List.append_nil _).symm, List.not_mem_nil⟩

theorem reopened {readOnly : Bool} (here : s.EntriesKept d) : (s.disk.open readOnly).EntriesKept d := by
  refine ⟨?_, here.log⟩
  change FtsIndex.opened s.fts.committed s.fts.frontmatterField = _
  rw [here.fts]
  rfl

/-- Rows, vectors and the record may move on. -/
theorem moved {t : Store V} {extra : List Event} (here : s.EntriesKept d) (fts : t.fts = s.fts)
    (log : t.log = s.log ++ extra) (quiet : .warned ∉ extra) : t.EntriesKept d := by
  obtain ⟨events, before, unwarned⟩ := here.log
  refine ⟨fts.trans here.fts, events ++ extra, by rw [log, before, List.append_assoc], fun found => ?_⟩
  rcases List.mem_append.mp found with old | new
  · exact unwarned old
  · exact quiet new

theorem beside {t : Store V} (here : s.EntriesKept d) (fts : t.fts = s.fts) (log : t.log = s.log) : t.EntriesKept d :=
  @moved V s d t [] here fts (log.trans (List.append_nil _).symm) List.not_mem_nil

/-- Where the rows the store has go with the entries, the disk is abreast of them. -/
theorem halted (here : s.EntriesKept d) (paired : s.db.PairedWith env d) :
    s.disk.Halted env faults Db.RebuildDue d.log := by
  obtain ⟨events, log, quiet⟩ := here.log
  refine ⟨events, log, fun found => absurd found quiet, fun _ _ => ?_⟩
  apply Disk.Paired.abreast
  refine Disk.Paired.congr paired rfl ?_
  change s.fts.committed = d.entries
  rw [here.fts]
  rfl

/-! ### Statements -/

theorem reopen {readOnly : Bool} : Preserves faults (EntriesKept d) (Store.reopen readOnly : Command V Unit) :=
  .modify fun _ => reopened

theorem sqlWrite {context : Failure} {f : Db → Except Failure (α × Db)} {events : α → List Event}
    (quiet : ∀ a, .warned ∉ events a) : Preserves faults (EntriesKept d) (Store.sqlWrite context f events) :=
      fun _ here =>
  Store.wp_sqlWrite (fun a _ _ => here.moved rfl rfl (quiet a)) (fun _ _ => here) (fun _ _ => here) fun _ => here

theorem sqlExecute {context : Failure} {f : Db → Db} {events : List Event} (quiet : .warned ∉ events) :
    Preserves faults (EntriesKept d) (Store.sqlExecute context f events) := sqlWrite fun _ => quiet

theorem silent {context : Failure} {f : Db → Db} :
    Preserves faults (EntriesKept d) (Store.sqlExecute context f [] : Command V Unit) :=
  sqlExecute List.not_mem_nil

/-- Nothing is staged, so a flush saves the vectors and no more. -/
theorem flush : Preserves faults (EntriesKept d) (Store.flush : Command V Unit) := by
  intro s here
  have idle : s.fts.writer = false := by
    rw [here.fts]
    rfl
  have saved : ∀ t : Store V, t = s ∨ t = s.renamed → t.EntriesKept d := by
    intro t either
    rcases either with rfl | rfl
    · exact here
    · exact here.moved rfl rfl (by decide)
  unfold Store.flush Store.ftsCommit
  refine wp_bind (wp_bind (wp_query ?_))
  dsimp only [Ends.with]
  rw [if_neg (by simp [idle])]
  refine wp_pure (wp_bind (wp_query (wp_ite (wp_bind ?_) (wp_pure here))))
  refine Store.wp_saveAtomic (fun _ _ => here) (fun writable => ?_) (fun _ _ _ => ⟨here, saved _ (.inr rfl)⟩)
    fun _ _ => ⟨here, saved _ (.inr rfl)⟩
  exact wp_modify ((saved _ (.inr rfl)).beside rfl rfl)

theorem evict (vids : List Nat) : Preserves faults (EntriesKept d) (Store.evictHnswVectors vids : Command V Unit) := by
  unfold Store.evictHnswVectors
  exact .ite (.pure ()) (.bind (.query _) fun _ => .ite (.throw _) (.modify fun _ here => here.beside rfl rfl))

theorem reclaim (hashes : List String) :
    Preserves faults (EntriesKept d) (Store.reclaimVectorsOf hashes : Command V Unit) := by
  unfold Store.reclaimVectorsOf Store.evictHash
  refine .ite (.pure ()) (.bind ?_ fun _ => .bind flush fun _ => silent)
  exact .forEach (fun hash => .bind (.query _) fun vids => evict vids) hashes

theorem reclaimOrphaned : Preserves faults (EntriesKept d) (Store.reclaimOrphanedVectors : Command V Unit) :=
  .bind (.query _) fun hashes => reclaim hashes

/-! ### Embedding -/

theorem hnswAdd (vector : V) : Preserves faults (EntriesKept d) (Store.hnswAdd vector) := by
  refine .effect fun s here => ?_
  cases added : s.hnsw.add vector with
  | mk vid index =>
    cases vid with
    | none => exact here.beside rfl rfl
    | some vid => exact here.moved rfl rfl (by simp)

theorem addAll (vectors : List V) : ∀ vids, Preserves faults (EntriesKept d) (Store.addAllOrRollback vectors vids) := by
  induction vectors with
  | nil => exact fun vids => .pure vids
  | cons vector vectors ih =>
    intro vids
    unfold Store.addAllOrRollback
    refine .bind (.attempt (hnswAdd vector)) fun result => ?_
    cases result with
    | ok vid => exact ih _
    | error e => exact .bind (.modify fun _ here => here.beside rfl rfl) fun _ => .throw e

theorem embedChunks {backend : Backend} {hash relPath body : String} :
    Preserves faults (EntriesKept d) (Store.embedDocumentChunks env backend hash relPath body) := by
  unfold Store.embedDocumentChunks Store.embedPassagesReusing Store.embedBatchPassage
  refine .bind (.bind (.query _) fun slots =>
    .ite (.pure _) (.bind (.bind (.effect fun _ => id) fun fresh => ?_) fun _ => .pure _))
    fun embeddings => .bind (addAll embeddings []) fun vids =>
      .bind (.modify fun _ here => here.beside rfl rfl) fun _ => .pure _
  exact .ite (.throw _) (.pure _)

theorem checkpoint (pending : List PendingVectorMeta) (deletes : List String) :
    Preserves faults (EntriesKept d) (Store.checkpoint pending deletes : Command V Unit) := by
  unfold Store.checkpoint
  refine .ite (.pure ()) (.bind flush fun _ => .bind (.query _) fun floor => .bind (sqlWrite fun _ => ?_) fun _ => ?_)
  · simp
  · exact .modify fun _ here => here.beside rfl rfl

theorem embedDocs {backend : Backend} (docs : List Document) : ∀ done run,
    Preserves faults (EntriesKept d) (embedDocs env backend docs done run) := by
  induction docs with
  | nil => exact fun _ run => .pure (run, EmbedFlow.proceed)
  | cons doc docs ih =>
    intro done run
    unfold Rqmd.embedDocs
    refine .bind (.poll _) fun _ =>
      .ite (.pure _) (.bind (.poll _) fun _ => .ite (.pure _) (.bind (.query _) fun body => ?_))
    refine .ite (.bind silent fun _ => ih _ _) (.bind (.attempt embedChunks) fun result => ?_)
    cases result with
    | ok chunks =>
      unfold supersedeVectors Store.evictHash
      have supersede : Preserves faults (EntriesKept d) (do
          if ← Prog.query fun s => s.db.hashHasAnyVector doc.hash then
            let vids ← Prog.query fun s => s.db.vidsForHash doc.hash
            Store.evictHnswVectors vids
            pure (run.pendingDeletes.insert doc.hash)
          else
            pure run.pendingDeletes : Command V (List String)) :=
        .bind (.query _) fun any => .ite (.bind (.query _) fun vids => .bind (evict vids) fun _ => .pure _) (.pure _)
      refine .bind supersede fun deletes => .ite (.bind (checkpoint _ _) fun _ => ih _ _) (ih _ _)
    | error e => exact .ite (.pure _) (ih _ _)

theorem embedEach {backend : Backend} {excluded : List Nat} (cols : List Collection) : ∀ seen run,
    Preserves faults (EntriesKept d) (embedEach env backend excluded cols seen run) := by
  induction cols with
  | nil => exact fun _ run => .pure (run, EmbedFlow.proceed)
  | cons col cols ih =>
    intro seen run
    unfold Rqmd.embedEach
    exact .bind (.query _) fun queued => .bind (embedDocs _ _ _) fun result => .ite (ih _ _) (.pure _)

theorem embedCollections {backend : Backend} {cols : List Collection} {rebuild : Bool} :
    Preserves faults (EntriesKept d) (embedCollections env backend cols rebuild) := by
  have pass : Preserves faults (EntriesKept d) (embedPass env backend cols) := by
    unfold embedPass
    exact .bind (.query _) fun _ => .bind (embedEach _ _ _) fun result => .bind (checkpoint _ _) fun _ => .pure _
  unfold Rqmd.embedCollections backfillVectorKeys
  refine .skipIf () silent fun _ => .bind pass fun result => .bind reclaimOrphaned fun _ => .ofExcept _

theorem clearVectors (collection : Option CollectionName) :
    Preserves faults (EntriesKept d) (clearVectors collection : Command V Unit) := by
  cases collection with
  | some name =>
    exact .bind reopen fun _ => .bind (.query _) fun vids => .bind (evict vids) fun _ => .bind silent fun _ => flush
  | none =>
    refine .bind (.effect fun _ here => here.moved rfl rfl ?_) fun _ => .bind reopen fun _ => sqlExecute ?_
    · decide
    · decide

theorem runEmbed {backend : Backend} {collection : Option CollectionName} {rebuild : Bool} :
    Preserves faults (EntriesKept d) (runEmbed env backend collection rebuild) := by
  rw [runEmbed_cleared]
  refine .bind reopen fun _ => .bind (.query _) fun selected => .bind (.ofExcept _) fun cols => ?_
  refine .ite (.pure ()) (.ite (.bind (clearVectors collection) fun _ => .bind reopen fun _ => embedCollections) ?_)
  exact .bind reopen fun _ => .bind (.query _) fun count => .ite (.pure ()) (.bind reopen fun _ => embedCollections)

theorem runCleanup : Preserves faults (EntriesKept d) (runCleanup env) := by
  unfold Rqmd.runCleanup Store.reclaimExcludedVectors
  exact .bind reopen fun _ => .bind reclaimOrphaned fun _ => .bind (.query _) fun excluded =>
    .bind (.bind (.query _) fun hashes => reclaim hashes) fun _ => silent

theorem setCollection {name : CollectionName} {ignore : Option (List String)} {maxBytes : Option (Option Nat)} :
    Preserves faults (EntriesKept d) (setCollection name ignore maxBytes : Command V Unit) := by
  unfold Rqmd.setCollection
  refine .ite (.throw _) (.bind reopen fun _ => .bind (.query _) fun found => ?_)
  cases found with
  | none => exact .throw _
  | some col => exact silent

end Store.EntriesKept

/-! ### Rows -/

theorem Document.Alike.filepath {a b : Document} (alike : a.Alike b) : a.filepath = b.filepath := by
  rw [Document.filepath, alike.collection, alike.path]
  rfl

namespace Db.PairedWith

variable {db after : Db}

/-- Ids, places, hashes and activity of the documents are all that counts. -/
theorem carried (here : db.PairedWith env d) (hashed : after.Hashed env) (config : after.config = db.config)
    (documents : after.documents.rows.map Document.unmarked = db.documents.rows.map Document.unmarked) :
    after.PairedWith env d := by
  have rows : ∀ row ∈ after.documents, ∃ other ∈ db.documents, other.Alike row := fun row member => by
    have there : row.unmarked ∈ db.documents.rows.map Document.unmarked := documents ▸ List.mem_map_of_mem member
    obtain ⟨other, inside, same⟩ := List.mem_map.mp there
    exact ⟨other, inside, Document.alike same⟩
  have back : ∀ row ∈ db.documents, ∃ other ∈ after.documents, other.Alike row := fun row member => by
    have there : row.unmarked ∈ after.documents.rows.map Document.unmarked := documents ▸ List.mem_map_of_mem member
    obtain ⟨other, inside, same⟩ := List.mem_map.mp there
    exact ⟨other, inside, Document.alike same⟩
  refine ⟨hashed, fun row member active => ?_, fun e member => ?_, fun row member active => ?_,
    fun row member gone => ?_⟩
  · obtain ⟨other, inside, alike⟩ := rows row member
    rw [← alike.filepath]
    exact here.termed other inside (alike.active.trans active)
  · obtain ⟨row, inside, own, place⟩ := here.owned e member
    obtain ⟨other, stored, alike⟩ := back row inside
    exact ⟨other, stored, alike.id.trans own, place.trans alike.filepath.symm⟩
  · obtain ⟨other, inside, alike⟩ := rows row member
    rw [← alike.id, ← alike.hash]
    exact (here.active other inside (alike.active.trans active)).imp_right
      (And.imp_left (Db.rebuildDue_lasting _ _ config))
  · obtain ⟨other, inside, alike⟩ := rows row member
    rw [← alike.id]
    exact here.gone other inside (alike.active.trans gone)

theorem onTexts : OnTexts (Db.PairedWith env d) := by
  intro db after texts here
  have hashed : after.Hashed env := by
    unfold Db.Hashed
    rw [texts.content]
    exact here.hashed
  exact here.carried hashed texts.config texts.documents

theorem sweptContent (here : db.PairedWith env d) : db.deleteUnreferencedContent.PairedWith env d :=
  here.carried (fun row member => here.hashed row (Table.mem_deleteWhere.mp member).1) rfl rfl

theorem embedRules (here : db.PairedWith env d) (name : CollectionName) (ignore : List String) (maxBytes : Option Nat) :
    (db.setCollectionEmbedRules name ignore maxBytes).PairedWith env d := here.carried here.hashed rfl rfl

end Db.PairedWith

/-! ### The commands -/

/-- Whatever keeps both the entries and the rows they are paired with. -/
theorem wp_beside_halts {p : Command V Unit} (entries : Preserves Faults.any (Store.EntriesKept d) p)
    (rows : Preserves Faults.any (fun s : Store V => s.db.PairedWith env d) p) (here : d.Abreast env d.db.RebuildDue) :
    wp Faults.any p (Ends.all fun t => t.disk.Halted env faults Db.RebuildDue d.log) (d.open false) := by
  have start : d.db.PairedWith env d := here.paired
  refine wp_mono (wp_and (entries (d.open false) .begun) (rows (d.open false) start)) ?_ ?_ ?_
  · exact fun _ t both => both.1.halted both.2
  · exact fun _ t both => both.1.halted both.2
  · exact fun t both => both.1.halted both.2

theorem wp_runEmbed_halts {backend : Backend} {collection : Option CollectionName} {rebuild : Bool}
    (here : d.Abreast env d.db.RebuildDue) : wp Faults.any (runEmbed env backend collection rebuild)
      (Ends.all fun t => t.disk.Halted env faults Db.RebuildDue d.log) (d.open false) :=
  wp_beside_halts Store.EntriesKept.runEmbed (Db.PairedWith.onTexts.runEmbed backend collection rebuild) here

theorem wp_runCleanup_halts (here : d.Abreast env d.db.RebuildDue) : wp Faults.any (runCleanup env)
      (Ends.all fun t => t.disk.Halted env faults Db.RebuildDue d.log) (d.open false) := by
  have rows : Preserves Faults.any (fun s : Store V => s.db.PairedWith env d) (runCleanup env) := by
    unfold runCleanup Store.reclaimExcludedVectors
    refine .bind preserves_reopen fun _ => .bind Db.PairedWith.onTexts.reclaimOrphaned fun _ =>
      .bind (.query _) fun excluded => ?_
    exact .bind (.bind (.query _) fun hashes => Db.PairedWith.onTexts.reclaim hashes) fun _ =>
      preserves_rows fun _ => Db.PairedWith.sweptContent
  exact wp_beside_halts Store.EntriesKept.runCleanup rows here

theorem wp_setCollection_halts {name : CollectionName} {ignore : Option (List String)} {maxBytes : Option (Option Nat)}
    (here : d.Abreast env d.db.RebuildDue) : wp Faults.any (setCollection name ignore maxBytes)
      (Ends.all fun t => t.disk.Halted env faults Db.RebuildDue d.log) (d.open false) := by
  have rows : Preserves Faults.any (fun s : Store V => s.db.PairedWith env d) (setCollection name ignore maxBytes) := by
    unfold setCollection
    refine .ite (.throw _) (.bind preserves_reopen fun _ => .bind (.query _) fun found => ?_)
    cases found with
    | none => exact .throw _
    | some col => exact preserves_rows fun db here => here.embedRules name _ _
  exact wp_beside_halts Store.EntriesKept.setCollection rows here

end Rqmd
