import Rqmd.Moves
import Rqmd.Steps

/-! What the commands that write documents keep, wherever they are cut: once for all conditions that the full-text
index and the record do not matter to. -/

namespace Rqmd
open Interrupt

variable {V : Type} {env : Env V} {c : CollectionName} {faults : Faults FaultKind} {keep : Store V → Prop}

/-! ### Beside the rows -/

/-- What no full-text write can disturb. -/
def FtsBlind (keep : Store V → Prop) : Prop := ∀ (s : Store V) (fts : FtsIndex), keep s → keep { s with fts := fts }

theorem preserves_ftsWrite (blind : FtsBlind keep) {context : Failure} {f : FtsIndex → FtsIndex} :
    Preserves faults keep (Store.ftsWrite context f) := .effect fun s kept => blind s _ kept

theorem preserves_deleteByFilepath (blind : FtsBlind keep) (filepath : String) :
    Preserves faults keep (Store.deleteByFilepath env filepath) := by
  unfold Store.deleteByFilepath
  refine .ite (.pure ()) ?_
  refine .bind (preserves_ftsWrite blind) fun _ => ?_
  refine .bind (.query _) fun found => .bind (.query _) fun own => ?_
  refine .bind (.modify fun s kept => blind s _ kept) fun _ => ?_
  exact .ite (.pure ()) (preserves_ftsWrite blind)

theorem preserves_insertStored (blind : FtsBlind keep) (doc : StoredDoc) :
    Preserves faults keep (Store.insertStored env doc) := by
  unfold Store.insertStored Store.insertDocument
  exact preserves_ftsWrite blind

theorem preserves_addDocument (blind : FtsBlind keep) {filepath title body frontmatter : String} {docId : Nat} :
    Preserves faults keep (Store.addDocumentWithFrontmatter env filepath title body frontmatter docId) := by
  unfold Store.addDocumentWithFrontmatter Store.insertDocument
  exact .bind (preserves_deleteByFilepath blind filepath) fun _ => preserves_ftsWrite blind

/-- A condition on rows and vectors alone: full-text writes and the record do not matter to it. -/
structure RowsAndVectors (keep : Store V → Prop) : Prop where
  aside : ∀ s fts log, (∀ e ∈ log, e.quiet = true) → keep s → keep { s with fts := fts, log := s.log ++ log }

/-- Such a condition that the save of the index in memory keeps. -/
structure KeptBySave (keep : Store V → Prop) : Prop extends RowsAndVectors keep where
  saved : ∀ s, s.hnsw.readOnly = false → keep s → keep s.renamed
  clean : ∀ s, keep s → keep { s with hnswDirty := false }

namespace RowsAndVectors

variable (beside : RowsAndVectors keep)

include beside

theorem ftsBlind : FtsBlind keep := by
  intro s fts here
  have next := beside.aside s fts [] (fun _ none => absurd none List.not_mem_nil) here
  rwa [List.append_nil] at next

theorem warn : Preserves faults keep Store.warn := .modify fun s here => beside.aside s s.fts [.warned] (by decide) here

theorem removeStaleEntry (filepath : String) : Preserves faults keep (Store.removeStaleEntry env filepath) := by
  unfold Store.removeStaleEntry
  apply Preserves.bind (Preserves.attempt (preserves_deleteByFilepath beside.ftsBlind filepath))
  intro removed
  cases removed with
  | ok _ => exact Preserves.pure ()
  | error _ => exact beside.warn

theorem ftsCommit : Preserves faults keep Store.ftsCommit := by
  unfold Store.ftsCommit
  refine .bind (.query _) fun writer => .ite ?_ (.pure ())
  refine .bind (.effect fun s here => ?_) fun _ => preserves_ftsWrite beside.ftsBlind
  exact beside.aside s s.fts.commitStaged [.ftsCommitted] (by decide) here

theorem rebuildFts (docs : List StoredDoc) : Preserves faults keep (Store.rebuildFts env docs) := by
  unfold Store.rebuildFts
  refine .bind (.query _) fun current => .skipIf () (preserves_ftsWrite beside.ftsBlind) fun _ => ?_
  refine .bind (preserves_ftsWrite beside.ftsBlind) fun _ => ?_
  refine .bind (.attempt (.forEach (preserves_insertStored beside.ftsBlind) docs)) fun result => ?_
  cases result with
  | ok _ => exact beside.ftsCommit
  | error e => exact .bind (preserves_ftsWrite beside.ftsBlind) fun _ => .throw e

/-- The flag of the rebuilt index is written last. -/
theorem rebuildFtsIfNeeded (config : Preserves faults keep
    (Store.sqlExecute "set config" (fun db => db.setConfig ftsTokenizerConfigKey ftsTokenizerVersion) [])) :
    Preserves faults keep (Store.rebuildFtsIfNeeded env) := by
  unfold Store.rebuildFtsIfNeeded
  refine .bind (.query _) fun pending => .ite (.bind (.query _) fun docs => ?_) (.pure ())
  exact .bind (beside.rebuildFts docs) fun _ => config

/-- The transaction of a rename commits the rows it read: nothing else writes rows meanwhile. -/
theorem renameCollection {old new : CollectionName}
    (renamed : ∀ s db, s.db.renameCollection old new = .ok db → keep s →
      keep { s with db := db, log := s.log ++ [.collectionRenamed] }) :
    Preserves faults keep (Store.renameCollection env old new) := by
  intro s here
  unfold Store.renameCollection
  refine wp_bind (wp_query (wp_bind (wp_ofExcept (fun db ok => ?_) fun _ _ => here)))
  refine wp_bind (wp_query ?_)
  have still : RowsAndVectors fun t : Store V => keep t ∧ t.db = s.db :=
    ⟨fun t fts log quiet here => ⟨beside.aside t fts log quiet here.1, here.2⟩⟩
  have deletes : ∀ paths, Preserves faults (fun t : Store V => keep t ∧ t.db = s.db)
      (Prog.forEach (Store.deleteByFilepath env) paths) := Preserves.forEach (preserves_deleteByFilepath still.ftsBlind)
  refine (deletes _).through (fun _ => And.left) ⟨here, rfl⟩ fun _ t here => ?_
  have inserts : ∀ docs, Preserves faults (fun t : Store V => keep t ∧ t.db = s.db)
      (Prog.forEach (Store.insertStored env) docs) := Preserves.forEach (preserves_insertStored still.ftsBlind)
  refine (inserts _).through (fun _ => And.left) here fun _ u here => ?_
  refine wp_bind (Store.wp_sqlWrite (fun _ after committed => ?_) (fun _ _ => here.1) (fun _ _ => here.1) fun _ => here.1)
  simp only [Except.ok.injEq, Prod.mk.injEq] at committed
  obtain ⟨-, rfl⟩ := committed
  exact beside.ftsCommit _ (renamed u db (here.2.symm ▸ ok) here.1)

end RowsAndVectors

theorem KeptBySave.flush (safe : KeptBySave keep) : Preserves faults keep Store.flush := by
  unfold Store.flush
  refine .bind safe.ftsCommit fun _ => .bind (.query _) fun dirty => .ite ?_ (.pure ())
  refine .bind (fun s here => ?_) fun _ => .modify safe.clean
  exact Store.wp_saveAtomic (fun _ _ => here) (fun writable => safe.saved s writable here)
    (fun _ writable _ => ⟨here, safe.saved s writable here⟩) fun _ writable => ⟨here, safe.saved s writable here⟩

/-! ### The statements of a pass -/

/-- The hash recorded at the path, active or not. -/
def Db.hashAt (db : Db) (c : CollectionName) (path : String) : Option String :=
  (db.getDocumentByFilepath c path).map Document.hash

theorem Store.changed_of_classify {db : Db} {path hash : String}
    (changed : Store.classify (db.getDocumentByFilepath c path) hash ≠ .unchanged) : db.hashAt c path ≠ some hash := by
  intro same
  obtain ⟨row, found, equal⟩ := Option.map_eq_some_iff.mp same
  apply changed
  rw [found, Store.classify, if_pos equal]

/-- What one statement of a pass over the collection makes of the rows; `offered` are the paths and hashes of the texts
it reads. A row is written where another hash was recorded, or none. -/
inductive PassStatement (c : CollectionName) (offered : String → String → Prop) : Db → Db → Prop
  | content (db : Db) (hash doc : String) : PassStatement c offered db (db.upsertContent hash doc)
  | document (db after : Db) (path title hash : String) (id : Nat) (offer : offered path hash)
      (changed : db.hashAt c path ≠ some hash) (written : db.upsertDocument c path title hash = .ok (id, after)) :
      PassStatement c offered db after
  | raw (db : Db) (id : Nat) (raw : String) : PassStatement c offered db (db.setDocumentRaw id raw)
  | stat (db : Db) (path : String) (stat : Option FileStat) : PassStatement c offered db (db.setDocumentStat c path stat)
  | deactivated (db : Db) (paths : List String) : PassStatement c offered db (db.deactivate c paths)

/-- A condition that every statement of such a pass keeps. -/
structure PassKeeps (c : CollectionName) (offered : String → String → Prop) (keep : Store V → Prop) : Prop extends
    KeptBySave keep where
  rows : ∀ s db log, PassStatement c offered s.db db → (∀ e ∈ log, e.quiet = true) → keep s →
    keep { s with db := db, log := s.log ++ log }

/-- The file has this text, at whose hash it would be indexed. -/
def WalkedFile.Offers (env : Env V) (file : WalkedFile) (path hash : String) : Prop :=
  file.relPath = path ∧ ∃ doc, file.prepared = .ok doc ∧ env.contentHash doc.indexedText = hash

/-- The paths and hashes a pass with this cache reads from its files. -/
def ReadsFrom (env : Env V) (cache : List (String × FileStat)) (files : List WalkedFile) (path hash : String) : Prop :=
  ∃ file ∈ files, cached cache file = false ∧ file.Offers env path hash

namespace PassKeeps

variable {offered : String → String → Prop} (kept : PassKeeps c offered keep)

include kept

theorem execute {context : Failure} {f : Db → Db} {events : List Event}
    (statement : ∀ db, PassStatement c offered db (f db)) (quiet : ∀ e ∈ events, e.quiet = true) :
    Preserves faults keep (Store.sqlExecute context f events) := fun s here =>
  Store.wp_sqlExecute (kept.rows s _ events (statement s.db) quiet here) (fun _ _ => here) fun _ => here

theorem silent {context : Failure} {f : Db → Db} (statement : ∀ db, PassStatement c offered db (f db)) :
    Preserves faults keep (Store.sqlExecute context f []) :=
  kept.execute statement fun _ none => absurd none List.not_mem_nil

theorem indexDocument {path : String} {doc : PreparedDoc} (offer : offered path (env.contentHash doc.indexedText)) :
    Preserves faults keep (Store.indexDocumentFtsOnlyWithRaw env c path doc) := by
  intro s here
  unfold Store.indexDocumentFtsOnlyWithRaw
  refine wp_bind (wp_query ?_)
  have content : Preserves faults (fun t : Store V => keep t ∧ t.db.hashAt c path = s.db.hashAt c path)
      (Store.sqlExecute "upsert content"
        (fun db => db.upsertContent (env.contentHash doc.indexedText) doc.indexedText) []) := by
    intro t still
    refine Store.wp_sqlExecute ⟨?_, ?_⟩ (fun _ _ => still) fun _ => still
    · exact kept.rows t _ [] (.content t.db _ _) (fun _ none => absurd none List.not_mem_nil) still.1
    · rw [← still.2]
      simp [Db.hashAt]
  refine content.through (fun _ => And.left) ⟨here, rfl⟩ fun _ t still => ?_
  by_cases same : Store.classify (s.db.getDocumentByFilepath c path) (env.contentHash doc.indexedText) = .unchanged
  · rw [if_pos same]
    refine Preserves.bind (.query _) (fun found => ?_) t still.1
    cases found with
    | none => exact .throw _
    | some existing => exact .bind (kept.silent fun db => .raw db _ _) fun _ => .pure _
  · rw [if_neg same]
    have changed : t.db.hashAt c path ≠ some (env.contentHash doc.indexedText) := still.2 ▸ Store.changed_of_classify same
    refine wp_bind (Store.wp_sqlWrite (fun id db written => ?_) (fun _ _ => still.1) (fun _ _ => still.1) fun _ => still.1)
    have next := kept.rows t db [.documentWritten id] (.document _ _ _ _ _ id offer changed written)
      (by simp [Event.quiet]) still.1
    refine Preserves.bind (kept.silent fun db => .raw db _ _) (fun _ => ?_) _ next
    exact .bind (preserves_addDocument kept.ftsBlind) fun _ => .pure _

theorem indexFile {cache : List (String × FileStat)} {file : WalkedFile} {tally : UpdateTally}
    (offer : cached cache file = false → ∀ path hash, file.Offers env path hash → offered path hash) :
    Preserves faults keep (indexFile env c cache file tally) := by
  unfold Rqmd.indexFile
  by_cases hit : cached cache file = true
  · simp only [hit, if_true]
    exact Preserves.pure _
  · simp only [hit, Bool.false_eq_true, if_false]
    cases prepared : file.prepared with
    | error reason => exact Preserves.pure _
    | ok doc =>
      have here : offered file.relPath (env.contentHash doc.indexedText) :=
        offer (Bool.not_eq_true _ ▸ hit) _ _ ⟨rfl, doc, prepared, rfl⟩
      refine .bind (.attempt (kept.indexDocument here)) fun outcome => ?_
      cases outcome with
      | error e => exact .bind kept.warn fun _ => .pure _
      | ok outcome => exact .bind (kept.silent fun db => .stat db _ _) fun _ => .pure _

theorem indexFiles {cache : List (String × FileStat)} (files : List WalkedFile)
    (offer : ∀ path hash, ReadsFrom env cache files path hash → offered path hash) :
    ∀ tally, Preserves faults keep (indexFiles env c cache files tally) := by
  induction files with
  | nil => exact fun tally => .pure _
  | cons file files ih =>
    intro tally
    unfold Rqmd.indexFiles
    refine .bind (.poll _) fun stopped => .ite (.pure _) (.bind (kept.indexFile ?_) fun tally => ih ?_ tally)
    · exact fun miss path hash there => offer path hash ⟨file, List.mem_cons_self, miss, there⟩
    · intro path hash reads
      obtain ⟨other, member, there⟩ := reads
      exact offer path hash ⟨other, List.mem_cons_of_mem _ member, there⟩

theorem pruneMissing (walk : Walk) : Preserves faults keep (pruneMissing env c walk) := by
  unfold Rqmd.pruneMissing Store.deactivateMissingDocuments
  refine .ite (.pure _) (.bind ?_ fun removed => ?_)
  · refine .bind (.query _) fun missing => .bind (.forEach (fun chunk => ?_) _) fun _ => .pure _
    refine kept.execute (fun db => .deactivated db chunk) fun e member => ?_
    rw [List.mem_singleton.mp member]
    rfl
  · exact .bind (.forEach (fun path => kept.removeStaleEntry _) _) fun _ => .pure _

theorem addFile {file : WalkedFile} (offer : ∀ path hash, file.Offers env path hash → offered path hash) :
    Preserves faults keep (addFile env c file) := by
  unfold Rqmd.addFile
  cases prepared : file.prepared with
  | error _ => exact .pure _
  | ok doc =>
    have here : offered file.relPath (env.contentHash doc.indexedText) := offer _ _ ⟨rfl, doc, prepared, rfl⟩
    refine .bind (.attempt (kept.indexDocument here)) fun result => ?_
    cases result with
    | ok _ => exact kept.silent fun db => .stat db _ _
    | error _ => exact kept.warn

end PassKeeps

/-- The cache a pass over the collection starts from. -/
def Db.passCache (db : Db) (full : Bool) (c : CollectionName) : List (String × FileStat) :=
  if full then [] else db.loadDocStatCache c

def Scan.files : Scan → List WalkedFile
  | .walked _ walk => walk.files
  | _ => []

/-- Fewer texts are offered. -/
theorem PassKeeps.narrow {offered fewer : String → String → Prop} (kept : PassKeeps c offered keep)
    (within : ∀ path hash, fewer path hash → offered path hash) : PassKeeps c fewer keep := by
  refine ⟨kept.toKeptBySave, fun s db log statement => kept.rows s db log ?_⟩
  cases statement with
  | content hash doc => exact .content _ hash doc
  | document _ path title hash id offer changed written =>
    exact .document _ _ path title hash id (within path hash offer) changed written
  | raw id raw => exact .raw _ id raw
  | stat path stat => exact .stat _ path stat
  | deactivated paths => exact .deactivated _ paths

/-- However a pass ends, what its statements keep holds. -/
theorem wp_updateOne_kept {s : Store V} {full : Bool} {scan : Scan} (here : keep s)
    (kept : PassKeeps c (ReadsFrom env (s.db.passCache full c) scan.files) keep) :
    wp faults (updateOneCollection env c full scan) (Ends.all keep) s := by
  cases scan with
  | directoryMissing => exact wp_pure here
  | hookInterrupted => exact wp_pure here
  | invalidMask hookFailure => exact wp_pure here
  | walked hookFailure walk =>
    refine wp_bind (wp_query ?_)
    refine Preserves.bind (kept.indexFiles walk.files (fun _ _ => id) _) (fun result => ?_) s here
    refine .skipIf 0 (kept.pruneMissing walk) fun removed => ?_
    exact .bind kept.flush fun _ => .pure _

theorem PassKeeps.update (kept : PassKeeps c (fun _ _ => True) keep) (full : Bool) (scan : Scan) :
    Preserves faults keep (updateOneCollection env c full scan) := fun _ here =>
  wp_updateOne_kept here (kept.narrow fun _ _ _ => trivial)

end Rqmd
