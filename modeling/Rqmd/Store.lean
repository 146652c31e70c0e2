import Rqmd.Lib.Interrupt
import Rqmd.Db
import Rqmd.Fts
import Rqmd.Hnsw

/-! The open store: the database, the full-text index and the vector index, with the memory of the
process that holds them. A process that dies leaves the disk part only. -/

namespace Rqmd
open Interrupt

/-- What can go wrong with one step: an SQL statement, a full-text write, an index file, the inference
backend; a signal or a deadline stops a loop at its next poll. -/
inductive FaultKind where
  | sql
  | fts
  | hnsw
  | backend
  | signal
  | deadline
deriving DecidableEq

/-- The steps of a run that its record keeps. -/
inductive Event where
  | vidAssigned (vid : Nat)
  | rowsCommitted (vids : List Nat)
  | documentWritten (id : Nat)
  | documentsDeactivated (paths : List String)
  | collectionPurged
  | collectionRenamed
  | warned
  | ftsCommitted
  | hnswSaved
  | hnswFileRemoved
  | vectorsCleared
deriving DecidableEq

/-- `hnswFile` is the vector file as last saved and `log` the record of the steps performed; the rest
but `db` and the committed full-text entries is memory. -/
structure Store (V : Type) where
  db : Db
  fts : FtsIndex
  hnswFile : Option (Vectors V)
  hnsw : VectorIndex V
  hnswDirty : Bool
  stagedVectors : List (String × Nat)
  log : List Event

/-- What a process leaves behind. -/
structure Disk (V : Type) where
  db : Db
  entries : List FtsEntry
  frontmatterField : Bool
  hnswFile : Option (Vectors V)
  log : List Event

variable {V α : Type}

def Store.disk (s : Store V) : Disk V := ⟨s.db, s.fts.committed, s.fts.frontmatterField, s.hnswFile, s.log⟩

/-- The allocator `Store::open` starts from: past the file's size, past every recorded vid and at the
persisted floor. -/
def openHnsw (file : Option (Vectors V)) (db : Db) (readOnly : Bool) : VectorIndex V :=
  let loaded := match file with
    | some vectors => VectorIndex.load vectors readOnly
    | none => VectorIndex.new
  let aboveRows := match db.maxVectorVid with
    | some vid => loaded.ensureNextVidAtLeast (vid + 1)
    | none => loaded
  match db.nextVid with
  | some floor => aboveRows.ensureNextVidAtLeast floor
  | none => aboveRows

def Disk.open (d : Disk V) (readOnly : Bool) : Store V where
  db := d.db
  fts := FtsIndex.opened d.entries d.frontmatterField
  hnswFile := d.hnswFile
  hnsw := openHnsw d.hnswFile d.db readOnly
  hnswDirty := false
  stagedVectors := []
  log := d.log

abbrev Command (V : Type) (α : Type) := Prog FaultKind (Store V) Failure α

/-- What one command, started on `d` and run to whatever end, leaves on disk. -/
def Disk.run (d : Disk V) (command : Command V α) (fates : List (Fate FaultKind)) : Disk V :=
  (command fates (d.open false)).final.disk

namespace Store

/-- Drop the handle and open the index again. -/
def reopen (readOnly : Bool) : Command V Unit := Prog.modify fun s => s.disk.open readOnly

def breaks (kind : FaultKind) (context : Failure) (found : FaultKind) : Option Failure :=
  if found = kind then some context else none

/-- One autocommitted statement, or one transaction, that may be refused. -/
def sqlWrite (context : Failure) (f : Db → Except Failure (α × Db)) (events : α → List Event) :
    Command V α :=
  Prog.effect (breaks .sql context) fun s =>
    match f s.db with
    | .ok (a, db) => (.ok a, { s with db := db, log := s.log ++ events a })
    | .error e => (.error e, s)

def sqlExecute (context : Failure) (f : Db → Db) (events : List Event) : Command V Unit :=
  sqlWrite context (fun db => .ok ((), f db)) fun _ => events

def ftsWrite (context : Failure) (f : FtsIndex → FtsIndex) : Command V Unit :=
  Prog.effect (breaks .fts context) fun s => (.ok (), { s with fts := f s.fts })

/-! ### Full-text writes -/

/-- A path without a usable term matches nothing, so its delete does nothing. -/
def deleteByFilepath (env : Env V) (filepath : String) : Command V Unit := do
  if (env.pathTerms filepath).isEmpty then
    pure ()
  else
    ftsWrite "search tantivy" id
    let found ← Prog.query fun s => s.fts.committedDocIdsAt env filepath
    let own ← Prog.query fun s => (s.fts.takeStaged filepath).1
    Prog.modify fun s => { s with fts := (s.fts.takeStaged filepath).2 }
    if (found ++ own).isEmpty then
      pure ()
    else
      ftsWrite "delete tantivy doc" fun index => index.deleteQuery env filepath (found ++ own)

def insertDocument (env : Env V) (filepath title body frontmatter : String) (docId : Nat) : Command V Unit :=
  ftsWrite "add tantivy doc" fun index =>
    index.insertEntry (index.entryOf env filepath title body frontmatter docId)

def addDocumentWithFrontmatter (env : Env V) (filepath title body frontmatter : String) (docId : Nat) :
    Command V Unit := do
  deleteByFilepath env filepath
  insertDocument env filepath title body frontmatter docId

/-- `FtsIndex::commit`: nothing was staged when no writer was taken. The reader reloads after the commit
is durable. -/
def ftsCommit : Command V Unit := do
  if ← Prog.query fun s => s.fts.writer then
    Prog.effect (breaks .fts "tantivy commit") fun s =>
      (.ok (), { s with fts := s.fts.commitStaged, log := s.log ++ [.ftsCommitted] })
    ftsWrite "tantivy reader reload" id
  else
    pure ()

def removeFromFts (env : Env V) (filepath : String) : Command V Unit := deleteByFilepath env filepath

/-! ### The vector file -/

/-- `save_atomic`: the rename replaces the file, and a directory sync follows it. -/
def saveAtomic : Command V Unit := do
  if ← Prog.query fun s => s.hnsw.readOnly then
    Prog.throw "cannot save a read-only (mmap'd) VectorIndex"
  else
    Prog.effect (breaks .hnsw "rename hnsw file") fun s =>
      (.ok (), { s with hnswFile := some s.hnsw.inner, log := s.log ++ [.hnswSaved] })
    Prog.effect (breaks .hnsw "fsync parent dir") fun s => (.ok (), s)

def flush : Command V Unit := do
  ftsCommit
  if ← Prog.query hnswDirty then
    saveAtomic
    Prog.modify fun s => { s with hnswDirty := false }
  else
    pure ()

def removeVids (index : VectorIndex V) (vids : List Nat) : VectorIndex V := vids.foldl VectorIndex.remove index

def evictHnswVectors (vids : List Nat) : Command V Unit := do
  if vids.isEmpty then
    pure ()
  else if ← Prog.query fun s => s.hnsw.readOnly then
    Prog.throw "cannot remove from a read-only (mmap'd) VectorIndex"
  else
    Prog.modify fun s => { s with hnsw := removeVids s.hnsw vids, hnswDirty := true }

def evictHash (hash : String) : Command V Unit := do
  let vids ← Prog.query fun s => s.db.vidsForHash hash
  evictHnswVectors vids

/-- Evict, flush, then delete the rows: the file loses the vectors before the rows that name them go. -/
def reclaimVectorsOf (hashes : List String) : Command V Unit := do
  if hashes.isEmpty then
    pure ()
  else
    Prog.forEach evictHash hashes
    flush
    sqlExecute "commit orphaned vector sweep" (fun db => hashes.foldl Db.deleteVectorsForHash db) []

def reclaimOrphanedVectors : Command V Unit := do
  let hashes ← Prog.query fun s => s.db.orphanedVectorHashes
  reclaimVectorsOf hashes

def reclaimExcludedVectors (excluded : List Nat) : Command V Unit := do
  let hashes ← Prog.query fun s => s.db.excludedOnlyVectorHashes excluded
  reclaimVectorsOf hashes

end Store

end Rqmd
