import Rqmd.Lib.Transition
import Rqmd.Embed

/-! The vector side of the index as a transition system. A session is an open store with what the running
command holds in memory; its steps are the effects of the commands on rows, vector file and vector index.
Claims over all runs of all commands are proved on these steps. -/

namespace Rqmd
open Transition

variable {V : Type}

/-- A vector added for a chunk of the document in hand. -/
structure AddedVector where
  backend : Backend
  chunk : Chunk
  vid : Nat
deriving DecidableEq

/-- `batch` is what the document in hand has added; `pending` and `superseded` wait for the next
checkpoint. -/
structure Session (V : Type) where
  store : Store V
  batch : List AddedVector
  pending : List PendingVectorMeta
  superseded : List String

def Session.of (s : Store V) : Session V := ⟨s, [], [], []⟩

/-- Events that are not about vectors. -/
def Event.quiet : Event → Bool
  | .vidAssigned _ | .rowsCommitted _ => false
  | _ => true

def AddedVector.key (env : Env V) (added : AddedVector) : String := Store.chunkKey env added.backend added.chunk

/-- The rows one document's vectors will get. -/
def batchMetas (env : Env V) (hash relPath : String) (batch : List AddedVector) : List PendingVectorMeta :=
  batch.mapIdx fun seq added => Store.chunkMeta env added.backend hash relPath batch.length seq added.chunk added.vid

/-- The vector is the passage's own, or one the index returns for the passage's key. -/
def Sourced (env : Env V) (s : Store V) (backend : Backend) (chunk : Chunk) (vector : V) : Prop :=
  vector = env.passageVector backend chunk.text ∨ ∃ vid,
    (s.stagedVectors.lookup (Store.chunkKey env backend chunk) = some vid ∨
      s.db.reusableVectorVid backend.model (Store.chunkKey env backend chunk) = some vid) ∧
    s.hnsw.getVector vid = some vector

namespace Session

variable (env : Env V)

/-- The document in hand is done: its rows are pending, its vectors can be reused, and the stored vectors
of its hash leave the index. -/
def embedded (m : Session V) (hash relPath : String) : Session V where
  store := { m.store with
    hnsw := if m.store.db.hashHasAnyVector hash then Store.removeVids m.store.hnsw (m.store.db.vidsForHash hash)
      else m.store.hnsw
    hnswDirty := true
    stagedVectors := (m.batch.map fun added => (added.key env, added.vid)).foldl Store.stage m.store.stagedVectors }
  batch := []
  pending := m.pending ++ batchMetas env hash relPath m.batch
  superseded := if m.store.db.hashHasAnyVector hash then m.superseded.insert hash else m.superseded

def rolledBack (m : Session V) : Session V where
  store := { m.store with hnsw := Store.removeVids m.store.hnsw (m.batch.map AddedVector.vid) }
  batch := []
  pending := m.pending
  superseded := m.superseded

def added (m : Session V) (backend : Backend) (chunk : Chunk) (vid : Nat) (index : VectorIndex V) : Session V where
  store := { m.store with hnsw := index, log := m.store.log ++ [.vidAssigned vid] }
  batch := m.batch ++ [⟨backend, chunk, vid⟩]
  pending := m.pending
  superseded := m.superseded

def committed (m : Session V) (db : Db) : Session V where
  store := { m.store with
    db := db
    stagedVectors := []
    log := m.store.log ++ [.rowsCommitted (m.pending.map PendingVectorMeta.vid)] }
  batch := m.batch
  pending := []
  superseded := []

/-- The same memory over another store. -/
def withStore (m : Session V) (s : Store V) : Session V := { m with store := s }

end Session

/-- The steps of an embed pass under one backend and one set of excluded documents. -/
inductive EmbedStep (env : Env V) (backend : Backend) (excluded : List Nat) : Session V → Session V → Prop
  | aside (m : Session V) (fts : FtsIndex) (dirty : Bool) (log : List Event) (quiet : ∀ e ∈ log, e.quiet = true) :
      EmbedStep env backend excluded m (m.withStore { m.store with
        fts := fts, hnswDirty := dirty, log := m.store.log ++ log })
  | unmarked (m : Session V) (hash : String) :
      EmbedStep env backend excluded m (m.withStore { m.store with db := m.store.db.clearPrevHash hash })
  | added (m : Session V) (chunk : Chunk) (vector : V) (vid : Nat) (index : VectorIndex V)
      (source : Sourced env m.store backend chunk vector) (given : m.store.hnsw.add vector = (some vid, index)) :
      EmbedStep env backend excluded m (m.added backend chunk vid index)
  | refused (m : Session V) (vector : V) (index : VectorIndex V) (given : m.store.hnsw.add vector = (none, index)) :
      EmbedStep env backend excluded m (m.withStore { m.store with hnsw := index })
  | rolledBack (m : Session V) : EmbedStep env backend excluded m m.rolledBack
  | embedded (m : Session V) (hash relPath : String) (pending : needsEmbed env backend excluded m.store.db hash = true)
      (first : ∀ p ∈ m.pending, p.hash ≠ hash) : EmbedStep env backend excluded m (m.embedded env hash relPath)
  | saved (m : Session V) (writable : m.store.hnsw.readOnly = false) :
      EmbedStep env backend excluded m (m.withStore { m.store with
        hnswFile := some m.store.hnsw.inner, log := m.store.log ++ [.hnswSaved] })
  | committed (m : Session V) (db : Db) (saved : m.store.hnswFile = some m.store.hnsw.inner)
      (rows : Store.checkpointRows m.pending m.superseded m.store.hnsw.nextVid m.store.db = .ok db) :
      EmbedStep env backend excluded m (m.committed db)

/-- Which step a session takes. -/
inductive StepKind where
  | embed (backend : Backend) (excluded : List Nat)
  | aside
  | saved
  | dropped
  | keyed
  | evicted (hashes : List String)
  | fileRemoved
  | opened (readOnly : Bool)

/-- The steps of all commands. `aside` is everything that leaves the vectors alone, and `dropped` any
deletion of vector rows. -/
inductive Step (env : Env V) : StepKind → Session V → Session V → Prop
  | embed (backend : Backend) (excluded : List Nat) (m n : Session V) (step : EmbedStep env backend excluded m n) :
      Step env (.embed backend excluded) m n
  | aside (m : Session V) (db : Db) (fts : FtsIndex) (dirty : Bool) (log : List Event)
      (vectors : db.vectors = m.store.db.vectors) (floor : db.nextVid = m.store.db.nextVid)
      (quiet : ∀ e ∈ log, e.quiet = true) :
      Step env .aside m (m.withStore { m.store with
        db := db, fts := fts, hnswDirty := dirty, log := m.store.log ++ log })
  | saved (m : Session V) (writable : m.store.hnsw.readOnly = false) :
      Step env .saved m (m.withStore { m.store with
        hnswFile := some m.store.hnsw.inner, log := m.store.log ++ [.hnswSaved] })
  | dropped (m : Session V) (db : Db) (gone : VectorRow → Bool) (log : List Event)
      (vectors : db.vectors = m.store.db.vectors.deleteWhere gone) (documents : db.documents = m.store.db.documents)
      (floor : db.nextVid = m.store.db.nextVid) (quiet : ∀ e ∈ log, e.quiet = true) :
      Step env .dropped m (m.withStore { m.store with db := db, log := m.store.log ++ log })
  | keyed (m : Session V) (model : String) (fingerprints : List String) (keyFor : String → String) :
      Step env .keyed m (m.withStore { m.store with
        db := m.store.db.backfillVectorKeys model fingerprints keyFor })
  | evicted (m : Session V) (hashes : List String) (vids : List Nat)
      (theirs : ∀ vid ∈ vids, ∃ row ∈ m.store.db.vectors, row.vid = vid ∧ row.hash ∈ hashes) :
      Step env (.evicted hashes) m (m.withStore { m.store with hnsw := Store.removeVids m.store.hnsw vids })
  | fileRemoved (m : Session V) (idle : m.pending = [] ∧ m.superseded = []) :
      Step env .fileRemoved m (m.withStore { m.store with
        hnswFile := none, log := m.store.log ++ [.hnswFileRemoved] })
  | opened (m : Session V) (readOnly : Bool) :
      Step env (.opened readOnly) m (Session.of (m.store.disk.open readOnly))

end Rqmd
