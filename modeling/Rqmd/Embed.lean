import Rqmd.Indexing

/-! `embed` and `embed --cleanup`: a document's chunks are embedded into memory, and a checkpoint makes the
vector file durable before the rows that name its vectors. -/

namespace Rqmd
open Interrupt

variable {V : Type}

/-- The row of one embedded chunk, held back until the next checkpoint. -/
structure PendingVectorMeta where
  hash : String
  seq : Nat
  pos : Nat
  model : String
  fingerprint : String
  totalChunks : Nat
  vid : Nat
  chunkHash : String
  vectorKey : String
deriving DecidableEq

namespace Store

/-! ### One document -/

/-- The first of the staged and the stored vector under a key that the index can return. -/
def reusable (s : Store V) (model key : String) : Option V :=
  [s.stagedVectors.lookup key, s.db.reusableVectorVid model key].reduceOption.findSome? s.hnsw.getVector

/-- `embed_batch_passage`, with the check of the number of its answers. -/
def embedBatchPassage (env : Env V) (backend : Backend) (texts : List String) : Command V (List V) := do
  let fresh ← Prog.effect (breaks .backend "embed batch") fun s => (.ok (texts.map (env.passageVector backend)), s)
  if fresh.length ≠ texts.length then
    Prog.throw ("embed backend returned " ++ toString fresh.length ++ " vectors for " ++ toString texts.length ++
      " chunks")
  else
    pure fresh

def embedPassagesReusing (env : Env V) (backend : Backend) (chunks : List Chunk) (vectorKeys : List String) :
    Command V (List V) := do
  let slots ← Prog.query fun s => vectorKeys.map (s.reusable backend.model)
  let missing := (List.range slots.length).filter fun i => (slots[i]?.join).isNone
  if missing.isEmpty then
    pure slots.reduceOption
  else
    let fresh ← embedBatchPassage env backend (missing.filterMap fun i => chunks[i]?.map Chunk.text)
    pure ((missing.zip fresh).foldl (fun slots (i, embedding) => slots.set i (some embedding)) slots).reduceOption

def gaveUp (index : VectorIndex V) : Failure :=
  "usearch add: gave up after 1024 vid collisions starting from next_vid=" ++ toString index.nextVid

def hnswAdd (vector : V) : Command V Nat :=
  Prog.effect (breaks .hnsw "hnsw add") fun s =>
    match s.hnsw.add vector with
    | (some vid, index) => (.ok vid, { s with hnsw := index, log := s.log ++ [.vidAssigned vid] })
    | (none, index) => (.error (gaveUp index), { s with hnsw := index })

/-- All of the vectors are added, or none stays. -/
def addAllOrRollback : List V → List Nat → Command V (List Nat)
  | [], vids => pure vids
  | vector :: vectors, vids => do
    match ← (hnswAdd vector).attempt with
    | .ok vid => addAllOrRollback vectors (vids ++ [vid])
    | .error e =>
      Prog.modify fun s => { s with hnsw := removeVids s.hnsw vids }
      Prog.throw e

/-- `entry(key).or_insert(vid)`. -/
def stage (staged : List (String × Nat)) (entry : String × Nat) : List (String × Nat) :=
  if (staged.lookup entry.1).isSome then staged else staged ++ [entry]

def chunkMeta (env : Env V) (backend : Backend) (hash relPath : String) (total seq : Nat) (chunk : Chunk) (vid : Nat) :
    PendingVectorMeta :=
  let chunkHash := env.chunkTextHash chunk.text
  ⟨hash, seq, chunk.pos, backend.model, embedFingerprint env.toHashes env.grammars backend.model relPath, total, vid,
    chunkHash, vectorKey env.toHashes backend chunkHash⟩

def chunkKey (env : Env V) (backend : Backend) (chunk : Chunk) : String :=
  vectorKey env.toHashes backend (env.chunkTextHash chunk.text)

def embedDocumentChunks (env : Env V) (backend : Backend) (hash relPath body : String) :
    Command V (List PendingVectorMeta) := do
  let chunks := env.chunkDocumentForPath relPath body
  let vectorKeys := chunks.map (chunkKey env backend)
  let embeddings ← embedPassagesReusing env backend chunks vectorKeys
  let vids ← addAllOrRollback embeddings []
  Prog.modify fun s =>
    { s with hnswDirty := true, stagedVectors := (vectorKeys.zip vids).foldl stage s.stagedVectors }
  pure ((chunks.zip vids).mapIdx fun seq (chunk, vid) =>
    chunkMeta env backend hash relPath chunks.length seq chunk vid)

/-! ### Checkpoints -/

/-- The row `upsert_vector_meta` and `set_vector_identity` leave for one chunk. -/
def writeMeta (db : Db) (m : PendingVectorMeta) : Except Failure Db := do
  let db ← db.upsertVectorMeta
    ⟨m.hash, m.seq, m.pos, m.model, m.fingerprint, m.totalChunks, m.vid, none, none⟩
  pure (db.setVectorIdentity m.hash m.seq m.chunkHash m.vectorKey)

/-- The rows of one checkpoint; `embedded` are the hashes met so far. -/
def writeMetas : List PendingVectorMeta → List String → Db → Except Failure Db
  | [], _, db => .ok db
  | m :: rest, embedded, db => do
    let cleared := if embedded.contains m.hash then db else db.clearPrevHash m.hash
    let db ← writeMeta cleared m
    writeMetas rest (m.hash :: embedded) db

def checkpointRows (pending : List PendingVectorMeta) (pendingDeletes : List String) (nextVid : Nat) (db : Db) :
    Except Failure Db := do
  let db ← writeMetas pending [] (pendingDeletes.foldl Db.deleteVectorsForHash db)
  pure (db.persistNextVidFloor nextVid)

/-- The vector file first; then the rows and the floor in one transaction. -/
def checkpoint (pending : List PendingVectorMeta) (pendingDeletes : List String) : Command V Unit := do
  if pending.isEmpty && pendingDeletes.isEmpty then
    pure ()
  else
    flush
    let nextVid ← Prog.query fun s => s.hnsw.nextVid
    sqlWrite "commit vector metadata"
      (fun db => (checkpointRows pending pendingDeletes nextVid db).map fun db => ((), db))
      fun _ => [.rowsCommitted (pending.map PendingVectorMeta.vid)]
    Prog.modify fun s => { s with stagedVectors := [] }

end Store

/-! ### The embed pass -/

def maxConsecutiveEmbedFailures : Nat := 5

def checkpointInterval : Nat := 50

structure EmbedFailure where
  collection : CollectionName
  path : String
  error : Failure
deriving DecidableEq

structure EmbedRun where
  pending : List PendingVectorMeta
  pendingDeletes : List String
  failures : List EmbedFailure
  consecutiveFailures : Nat
  newDocs : Nat
  newChunks : Nat
  checkpointInterval : Nat
deriving DecidableEq

def EmbedRun.new (interval : Nat) : EmbedRun := ⟨[], [], [], 0, 0, 0, interval⟩

inductive EmbedFlow where
  | proceed
  | abort
  | timedOut
  | interrupted
deriving DecidableEq

/-- What a document that was embedded adds to the run. -/
def EmbedRun.embedded (run : EmbedRun) (chunks : List PendingVectorMeta) (deletes : List String) : EmbedRun :=
  { run with
    pending := run.pending ++ chunks
    pendingDeletes := deletes
    consecutiveFailures := 0
    newDocs := run.newDocs + 1
    newChunks := run.newChunks + chunks.length }

def EmbedRun.failed (run : EmbedRun) (doc : Document) (error : Failure) : EmbedRun :=
  { run with
    failures := run.failures ++ [⟨doc.collection, doc.path, error⟩]
    consecutiveFailures := run.consecutiveFailures + 1 }

def EmbedRun.checkpointed (run : EmbedRun) : EmbedRun := { run with pending := [], pendingDeletes := [] }

/-- The stored vectors of a hash that has just been embedded again leave the index; their rows go at the
next checkpoint. -/
def supersedeVectors (hash : String) (pendingDeletes : List String) : Command V (List String) := do
  if ← Prog.query fun s => s.db.hashHasAnyVector hash then
    Store.evictHash hash
    pure (pendingDeletes.insert hash)
  else
    pure pendingDeletes

/-- `done` counts the documents embedded in this call. -/
def embedDocs (env : Env V) (backend : Backend) : List Document → Nat → EmbedRun → Command V (EmbedRun × EmbedFlow)
  | [], _, run => pure (run, .proceed)
  | doc :: docs, done, run => do
    if ← Prog.poll .signal then
      pure (run, .interrupted)
    else if ← Prog.poll .deadline then
      pure (run, .timedOut)
    else
      let body ← Prog.query fun s => (s.db.getContent doc.hash).getD ""
      if body.isEmpty then
        Store.sqlExecute "clear superseded hash marker" (fun db => db.clearPrevHash doc.hash) []
        embedDocs env backend docs done run
      else
        match ← (Store.embedDocumentChunks env backend doc.hash doc.path body).attempt with
        | .ok chunks =>
          let deletes ← supersedeVectors doc.hash run.pendingDeletes
          let run := run.embedded chunks deletes
          if (done + 1) % run.checkpointInterval = 0 then
            Store.checkpoint run.pending run.pendingDeletes
            embedDocs env backend docs (done + 1) run.checkpointed
          else
            embedDocs env backend docs (done + 1) run
        | .error e =>
          let run := run.failed doc e
          if run.consecutiveFailures ≥ maxConsecutiveEmbedFailures then
            pure (run, .abort)
          else
            embedDocs env backend docs done run

/-- The documents of a collection to embed: the first on each hash that is pending and not queued yet. -/
def queueDocs (pending : Document → Bool) : List Document → List String → List Document × List String
  | [], seen => ([], seen)
  | doc :: docs, seen =>
    if !seen.contains doc.hash && pending doc then
      let (todo, after) := queueDocs pending docs (doc.hash :: seen)
      (doc :: todo, after)
    else queueDocs pending docs seen

def needsEmbed (env : Env V) (backend : Backend) (excluded : List Nat) (db : Db) (hash : String) : Bool :=
  db.hashNeedsEmbed hash (expectedFingerprint env.toHashes env.grammars backend.model)
    (expectedAstFingerprints env.toHashes env.grammars backend.model) excluded

/-- Whether the embed pass takes the document on. -/
def pendingDoc (env : Env V) (backend : Backend) (excluded : List Nat) (db : Db) (doc : Document) : Bool :=
  !excluded.contains doc.id && needsEmbed env backend excluded db doc.hash

/-- The loop over the collections, each with the hashes queued before it. -/
def embedEach (env : Env V) (backend : Backend) (excluded : List Nat) :
    List Collection → List String → EmbedRun → Command V (EmbedRun × EmbedFlow)
  | [], _, run => pure (run, .proceed)
  | col :: cols, seen, run => do
    let (todo, seen) ← Prog.query fun s =>
      queueDocs (pendingDoc env backend excluded s.db) (s.db.listDocuments col.name) seen
    let (run, flow) ← embedDocs env backend todo 0 run
    if flow = .proceed then
      embedEach env backend excluded cols seen run
    else
      pure (run, flow)

/-- The embed pass up to its last checkpoint. -/
def embedPass (env : Env V) (backend : Backend) (cols : List Collection) : Command V (EmbedRun × EmbedFlow) := do
  let excluded ← Prog.query fun s => s.db.excludedDocs env.globs
  let (run, flow) ← embedEach env backend excluded cols [] (.new checkpointInterval)
  Store.checkpoint run.pending run.pendingDeletes
  pure (run, flow)

def backfillVectorKeys (env : Env V) (backend : Backend) : Command V Unit :=
  Store.sqlExecute "commit vector key backfill" (fun db => db.backfillVectorKeys backend.model
    (expectedFingerprint env.toHashes env.grammars backend.model ::
      (expectedAstFingerprints env.toHashes env.grammars backend.model).map AstFingerprint.fingerprint)
    (vectorKey env.toHashes backend)) []

def finishEmbed (run : EmbedRun) (flow : EmbedFlow) : Except Failure Unit :=
  match flow with
  | .abort => .error ("stopped after 5 consecutive embed failures (likely a model or GPU problem); " ++
      "embedded work was saved — fix the cause and rerun to resume")
  | .timedOut => .error "deadline passed before the next document"
  | .interrupted => .error "interrupted"
  | .proceed => if run.failures.isEmpty then .ok ()
      else .error (toString run.failures.length ++ " document(s) could not be embedded")

def embedCollections (env : Env V) (backend : Backend) (cols : List Collection) (rebuild : Bool) :
    Command V Unit := do
  if rebuild then pure () else backfillVectorKeys env backend
  let (run, flow) ← embedPass env backend cols
  Store.reclaimOrphanedVectors
  Prog.ofExcept (finishEmbed run flow)

def pendingEmbedCount (env : Env V) (backend : Backend) (db : Db) : Nat :=
  db.countPendingHashes (expectedFingerprint env.toHashes env.grammars backend.model)
    (expectedAstFingerprints env.toHashes env.grammars backend.model) (db.excludedDocs env.globs)

/-- `--rebuild -c`: the vectors no other collection uses leave the index, then their rows go, and the
file follows. -/
def clearScoped (name : CollectionName) : Command V Unit := do
  Store.reopen false
  let vids ← Prog.query fun s => s.db.rebuildableVidsForCollection name
  Store.evictHnswVectors vids
  Store.sqlExecute "clear vectors for collection" (fun db => db.clearVectorsForCollection name) []
  Store.flush

/-- `--rebuild`: the file goes first, then every row. -/
def clearUnscoped : Command V Unit := do
  Prog.effect (Store.breaks .hnsw "remove hnsw file") fun s =>
    (.ok (), { s with hnswFile := none, log := s.log ++ [.hnswFileRemoved] })
  Store.reopen true
  Store.sqlExecute "clear all vectors" Db.clearAllVectors [.vectorsCleared]

def runEmbed (env : Env V) (backend : Backend) (collection : Option CollectionName) (rebuild : Bool) :
    Command V Unit := do
  Store.reopen true
  let selected ← Prog.query fun s => selectCollections s.db collection
  let cols ← Prog.ofExcept selected
  if cols.isEmpty then
    pure ()
  else if rebuild then
    match collection with
    | some name => clearScoped name
    | none => clearUnscoped
    Store.reopen false
    embedCollections env backend cols true
  else
    Store.reopen true
    if (← Prog.query fun s => pendingEmbedCount env backend s.db) = 0 then
      pure ()
    else
      Store.reopen false
      embedCollections env backend cols false

def runCleanup (env : Env V) : Command V Unit := do
  Store.reopen false
  Store.reclaimOrphanedVectors
  let excluded ← Prog.query fun s => s.db.excludedDocs env.globs
  Store.reclaimExcludedVectors excluded
  Store.sqlExecute "sweep content" Db.deleteUnreferencedContent []

end Rqmd
