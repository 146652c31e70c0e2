import Rqmd.Store

/-! The commands that bring the rows and the full-text index up to date with the files: `update`,
`collection add`, `collection remove` and `collection rename`. -/

namespace Rqmd
open Interrupt

variable {V α : Type}

inductive IndexOutcome where
  | new
  | updated
  | unchanged
deriving DecidableEq

structure PreparedDoc where
  title : String
  indexedText : String
  raw : String
deriving DecidableEq

inductive SkipReason where
  | notFound
  | permissionDenied
  | notUtf8
  | other
deriving DecidableEq

/-- One candidate file of a walk: its path below the root, its stat and the time of the check, and what
`prepare` makes of it. -/
structure WalkedFile where
  relPath : String
  stat : Option FileStat
  now : Int
  prepared : Except SkipReason PreparedDoc
deriving DecidableEq

/-- The candidate files of one walk; no two have one relative path. -/
structure Walk where
  files : List WalkedFile
  distinct : (files.map WalkedFile.relPath).Nodup

def Walk.paths (walk : Walk) : List String := walk.files.map WalkedFile.relPath

def mtimeTrustWindow : Int := 2000000000

def trustedStat (now : Int) (stat : FileStat) : Option FileStat :=
  if 0 ≤ stat.2 ∧ mtimeTrustWindow < now - stat.2 then some stat else none

namespace Store

def classify (existing : Option Document) (hash : String) : IndexOutcome :=
  match existing with
  | none => .new
  | some d => if d.hash = hash then .unchanged else .updated

def indexDocumentFtsOnlyWithRaw (env : Env V) (collection : CollectionName) (relPath : String)
    (doc : PreparedDoc) : Command V IndexOutcome := do
  let hash := env.contentHash doc.indexedText
  let outcome ← Prog.query fun s => classify (s.db.getDocumentByFilepath collection relPath) hash
  sqlExecute "upsert content" (fun db => db.upsertContent hash doc.indexedText) []
  if outcome = .unchanged then
    match ← Prog.query fun s => s.db.getDocumentByFilepath collection relPath with
    | none => Prog.throw "document vanished between classification and backfill"
    | some existing =>
      sqlExecute "set document raw" (fun db => db.setDocumentRaw existing.id doc.raw) []
      pure .unchanged
  else
    let docId ← sqlWrite "upsert document" (fun db => db.upsertDocument collection relPath doc.title hash)
      fun docId => [.documentWritten docId]
    sqlExecute "set document raw" (fun db => db.setDocumentRaw docId doc.raw) []
    addDocumentWithFrontmatter env (filepath collection relPath) doc.title doc.indexedText
      (env.frontmatterTerms doc.raw) docId
    pure outcome

def bindParameters : Nat := 500

def inChunks (size : Nat) : Nat → List α → List (List α)
  | 0, _ => []
  | _, [] => []
  | fuel + 1, x :: xs => (x :: xs).take size :: inChunks size fuel ((x :: xs).drop size)

def deactivateMissingDocuments (collection : CollectionName) (currentPaths : List String) :
    Command V (List String) := do
  let missing ← Prog.query fun s => s.db.missingDocuments collection currentPaths
  Prog.forEach (fun chunk => sqlExecute "deactivate missing documents" (fun db => db.deactivate collection chunk)
    [.documentsDeactivated chunk]) (inChunks bindParameters missing.length missing)
  pure missing

/-- The WARN line of a caught error. -/
def warn : Command V Unit := Prog.modify fun s => { s with log := s.log ++ [.warned] }

def removeStaleEntry (env : Env V) (filepath : String) : Command V Unit := do
  match ← (removeFromFts env filepath).attempt with
  | .ok () => pure ()
  | .error _ => warn

end Store

/-! ### `update` -/

structure UpdateTally where
  new : Nat
  updated : Nat
  unchanged : Nat
  processed : Nat
  skipped : Nat
  clean : Bool
deriving DecidableEq

def UpdateTally.start : UpdateTally := ⟨0, 0, 0, 0, 0, true⟩

def UpdateTally.count (tally : UpdateTally) : IndexOutcome → UpdateTally
  | .new => { tally with new := tally.new + 1 }
  | .updated => { tally with updated := tally.updated + 1 }
  | .unchanged => { tally with unchanged := tally.unchanged + 1 }

/-- What stands between the store and the walk of a collection's directory. -/
inductive Scan where
  | directoryMissing
  | hookInterrupted
  | invalidMask (hookFailure : Option String)
  | walked (hookFailure : Option String) (walk : Walk)

structure CollectionOutcome where
  clean : Bool
  hookFailure : Option String
  interrupted : Bool
  report : Option (UpdateTally × Nat)

def cached (cache : List (String × FileStat)) (file : WalkedFile) : Bool :=
  file.stat.isSome && cache.lookup file.relPath == file.stat

def indexFile (env : Env V) (collection : CollectionName) (cache : List (String × FileStat))
    (file : WalkedFile) (tally : UpdateTally) : Command V UpdateTally := do
  let counted := { tally with processed := tally.processed + 1 }
  if cached cache file then
    pure (counted.count .unchanged)
  else
    match file.prepared with
    | .error _ => pure { counted with skipped := counted.skipped + 1, clean := false }
    | .ok doc =>
      match ← (Store.indexDocumentFtsOnlyWithRaw env collection file.relPath doc).attempt with
      | .error _ =>
        Store.warn
        pure { counted with clean := false }
      | .ok outcome =>
        Store.sqlExecute "record document stat"
          (fun db => db.setDocumentStat collection file.relPath (file.stat.bind (trustedStat file.now))) []
        pure (counted.count outcome)

/-- The walk's loop; the flag tells that a signal stopped it. -/
def indexFiles (env : Env V) (collection : CollectionName) (cache : List (String × FileStat)) :
    List WalkedFile → UpdateTally → Command V (UpdateTally × Bool)
  | [], tally => pure (tally, false)
  | file :: files, tally => do
    if ← Prog.poll .signal then
      pure (tally, true)
    else
      let tally ← indexFile env collection cache file tally
      indexFiles env collection cache files tally

/-- Skipped when the walk found nothing: a glitch must not read as "delete everything". -/
def pruneMissing (env : Env V) (collection : CollectionName) (walk : Walk) : Command V Nat := do
  if walk.files.isEmpty then
    pure 0
  else
    let removed ← Store.deactivateMissingDocuments collection walk.paths
    Prog.forEach (fun path => Store.removeStaleEntry env (filepath collection path)) removed
    pure removed.length

def updateOneCollection (env : Env V) (collection : CollectionName) (full : Bool) (scan : Scan) :
    Command V CollectionOutcome :=
  match scan with
  | .directoryMissing => pure ⟨false, none, false, none⟩
  | .hookInterrupted => pure ⟨false, none, true, none⟩
  | .invalidMask hookFailure => pure ⟨false, hookFailure, false, none⟩
  | .walked hookFailure walk => do
    let cache ← Prog.query fun s => if full then [] else s.db.loadDocStatCache collection
    let (tally, stopped) ← indexFiles env collection cache walk.files .start
    let removed ← if stopped then pure 0 else pruneMissing env collection walk
    Store.flush
    pure ⟨tally.clean && !stopped, hookFailure, stopped, some (tally, removed)⟩

/-! ### `update` over the collections -/

def ftsTokenizerConfigKey : String := "fts_tokenizer_version"

def ftsTokenizerVersion : String := "3"

def rawSplitSchemaKey : String := "schema_raw_split"

/-- A document as it is indexed again from its rows: filepath, title, text, frontmatter terms and id. -/
structure StoredDoc where
  filepath : String
  title : String
  doc : String
  frontmatter : String
  id : Nat

/-- The rows of `documents JOIN content` that `keep`. -/
def Db.storedDocs (env : Env V) (db : Db) (keep : Document → Bool) : List StoredDoc :=
  (db.documents.select keep).filterMap fun d =>
    (db.getContent d.hash).map fun doc => ⟨d.filepath, d.title, doc, env.frontmatterTerms d.raw, d.id⟩

namespace Store

def insertStored (env : Env V) (doc : StoredDoc) : Command V Unit :=
  insertDocument env doc.filepath doc.title doc.doc doc.frontmatter doc.id

/-- `FtsIndex::rebuild`: one commit replaces every entry, or the writer rolls back. -/
def rebuildFts (env : Env V) (docs : List StoredDoc) : Command V Unit := do
  if ← Prog.query fun s => s.fts.frontmatterField then pure ()
    else ftsWrite "remove tantivy dir entry" fun _ => FtsIndex.recreated
  ftsWrite "delete all tantivy docs" FtsIndex.deleteAll
  match ← (Prog.forEach (insertStored env) docs).attempt with
  | .ok () => ftsCommit
  | .error e =>
    ftsWrite "roll back partial tantivy rebuild" FtsIndex.rollback
    Prog.throw e

def ftsRebuildPending (db : Db) : Bool :=
  if db.getConfig ftsTokenizerConfigKey = some ftsTokenizerVersion then false else db.documents.any (·.active)

def rebuildFtsIfNeeded (env : Env V) : Command V Unit := do
  if ← Prog.query fun s => ftsRebuildPending s.db then
    let docs ← Prog.query fun s => s.db.storedDocs env (·.active)
    rebuildFts env docs
    sqlExecute "set config" (fun db => db.setConfig ftsTokenizerConfigKey ftsTokenizerVersion) []
  else
    pure ()

end Store

/-- The collections in turn; the answer is whether all of them were clean. -/
def updateEach (env : Env V) (full : Bool) (scan : CollectionName → Scan) : List Collection → Bool → Command V Bool
  | [], clean => pure clean
  | col :: cols, clean => do
    if ← Prog.poll .signal then
      Prog.throw "interrupted"
    else
      let outcome ← updateOneCollection env col.name full (scan col.name)
      if outcome.interrupted then
        Prog.throw "interrupted"
      else
        updateEach env full scan cols (clean && outcome.clean)

def selectCollections (db : Db) : Option CollectionName → Except Failure (List Collection)
  | some name =>
    match db.findCollection name with
    | some col => .ok [col]
    | none => .error ("collection '" ++ name.text ++ "' not found")
  | none => .ok db.listCollections

/-- `rqmd update`. `scan` is what the walk of each collection's directory finds. -/
def runUpdate (env : Env V) (collection : Option CollectionName) (full : Bool) (scan : CollectionName → Scan) :
    Command V Unit := do
  Store.reopen true
  let selected ← Prog.query fun s => selectCollections s.db collection
  let cols ← Prog.ofExcept selected
  if cols.isEmpty then
    pure ()
  else
    Store.reopen false
    let clean ← updateEach env full scan cols true
    Store.reclaimOrphanedVectors
    if collection.isNone && clean then
      Store.sqlExecute "set config" (fun db => db.setConfig rawSplitSchemaKey "1") []
    else
      pure ()
    if collection.isNone && (← Prog.query fun s => (s.db.getConfig rawSplitSchemaKey).isSome) then
      Store.rebuildFtsIfNeeded env
    else
      pure ()

/-! ### `collection add`, `remove`, `rename` and `set` -/

def addFile (env : Env V) (collection : CollectionName) (file : WalkedFile) : Command V Unit :=
  match file.prepared with
  | .error _ => pure ()
  | .ok doc => do
    match ← (Store.indexDocumentFtsOnlyWithRaw env collection file.relPath doc).attempt with
    | .ok _ =>
      Store.sqlExecute "record document stat"
        (fun db => db.setDocumentStat collection file.relPath (file.stat.bind (trustedStat file.now))) []
    | .error _ => Store.warn

/-- Re-adding a name keeps its update hook, its include setting and its embed-exclusion rules. -/
def readded (existing : Option Collection) (col : Collection) : Collection :=
  match existing with
  | some old => { col with
      includeByDefault := old.includeByDefault
      updateCommand := old.updateCommand
      embedIgnore := old.embedIgnore
      embedMaxBytes := old.embedMaxBytes }
  | none => { col with includeByDefault := true, updateCommand := none, embedIgnore := [], embedMaxBytes := none }

def addCollection (env : Env V) (col : Collection) (walk : Walk) : Command V Unit := do
  Store.reopen false
  let existing ← Prog.query fun s => s.db.findCollection col.name
  Store.sqlExecute "upsert collection" (fun db => db.upsertCollection (readded existing col)) []
  Prog.forEach (addFile env col.name) walk.files
  Store.flush

/-- The statements of `purge_collection`, each committed on its own. -/
def purgeCollection (name : CollectionName) : Command V (List String) := do
  let filepaths ← Prog.query fun s => s.db.purgeFilepaths name
  Store.sqlExecute "purge collection" (fun db => db.deleteDocuments name) [.collectionPurged]
  Store.sqlExecute "purge collection" Db.deleteUnreferencedVectors []
  Store.sqlExecute "purge collection" Db.deleteUnreferencedContent []
  Store.sqlExecute "purge collection" (fun db => db.deleteCollection name) []
  Store.sqlExecute "purge collection" (fun db => db.deleteContexts name) []
  pure filepaths

def removeCollection (env : Env V) (name : CollectionName) : Command V Unit := do
  Store.reopen false
  if (← Prog.query fun s => s.db.findCollection name).isNone then
    Prog.throw ("collection '" ++ name.text ++ "' not found")
  else
    let filepaths ← purgeCollection name
    Prog.forEach (Store.removeStaleEntry env) filepaths
    Store.reclaimOrphanedVectors
    Store.flush

/-- The full-text deletes of a rename: the new paths of the renamed documents, then every indexed path
that no active document has. -/
def renameDeletes (rows : List StoredDoc) (live indexed : List String) : List String :=
  rows.map StoredDoc.filepath ++ indexed.filter fun path => !live.contains path

/-- `Store::rename_collection`. The rows change in a transaction that commits once the full-text writes
are staged. -/
def Store.renameCollection (env : Env V) (old new : CollectionName) : Command V Unit := do
  let renamed ← Prog.query fun s => s.db.renameCollection old new
  let db ← Prog.ofExcept renamed
  let rows := db.storedDocs env fun d => d.active && d.collection == new
  let indexed ← Prog.query fun s => s.fts.indexedFilepaths
  Prog.forEach (Store.deleteByFilepath env) (renameDeletes rows db.activeFilepaths indexed)
  Prog.forEach (Store.insertStored env) rows
  Store.sqlWrite "commit collection rename" (fun _ => .ok ((), db)) fun _ => [.collectionRenamed]
  Store.ftsCommit

def runRename (env : Env V) (old : CollectionName) (new : String) : Command V Unit := do
  let name ← Prog.ofExcept (validateCollectionName new)
  Store.reopen false
  if (← Prog.query fun s => s.db.findCollection old).isNone then
    Prog.throw ("collection '" ++ old.text ++ "' not found")
  else if (← Prog.query fun s => s.db.findCollection name).isSome then
    Prog.throw ("collection '" ++ new ++ "' already exists")
  else
    Store.renameCollection env old name

/-- `collection set`. `none` leaves a rule as stored. -/
def setCollection (name : CollectionName) (ignore : Option (List String)) (maxBytes : Option (Option Nat)) :
    Command V Unit := do
  if ignore.isNone && maxBytes.isNone then
    Prog.throw ("nothing to set: pass --embed-ignore, --clear-embed-ignore, --embed-max-bytes or " ++
      "--clear-embed-max-bytes")
  else
    Store.reopen true
    match ← Prog.query fun s => s.db.findCollection name with
    | none => Prog.throw ("collection '" ++ name.text ++ "' not found")
    | some col =>
      Store.sqlExecute "set collection embed rules" (fun db => db.setCollectionEmbedRules name
        (ignore.getD col.embedIgnore) (maxBytes.getD col.embedMaxBytes)) []

end Rqmd
