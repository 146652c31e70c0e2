import Rqmd.ModelCache
import Rqmd.Hybrid

/-! How the hybrid query uses the query cache. The hooks for expansion and reranking are the model calls they
wrap, with a lookup before and a store after; a cache error skips the operation or turns the cache off. -/

namespace Rqmd

variable {K V S : Type} [DecidableEq K] [Score S]

/-! ### The inference backend -/

/-- A model by name, with the weights file it loads from: `none` within is a file whose metadata cannot be read. -/
structure ModelSource where
  name : String
  file : Option (Option (Nat × Nat))

def modelIdentity (source : ModelSource) : Option String :=
  match source.file with
  | none => some source.name
  | some none => none
  | some (some (size, mtimeNs)) => some (source.name ++ "|" ++ toString size ++ "|" ++ toString mtimeNs)

/-- The backend a process has loaded, as far as the query cache meets it. `rerankUntil` is `rerank_until` under
the deadline of the query. -/
structure InferenceBackend (S : Type) where
  generateModel : ModelSource
  generate : String → Except Failure String
  canRerank : Bool
  rerankModel : ModelSource
  rerank : String → List String → Except Failure (List S)
  rerankUntil : String → List String → Except Failure (Option (List S))

def rerankProgressSlice : Nat := 4

/-- `chunks(size)` -/
def slices {α : Type} (size : Nat) : Nat → List α → List (List α)
  | 0, _ => []
  | _ + 1, [] => []
  | rounds + 1, a :: rest => (a :: rest).take size :: slices size rounds ((a :: rest).drop size)

theorem flatten_slices {α : Type} {size : Nat} (positive : 0 < size) (rounds : Nat) (xs : List α) (enough : xs.length ≤ rounds) :
    (slices size rounds xs).flatten = xs := by
  induction rounds generalizing xs with
  | zero =>
    have empty : xs = [] := List.length_eq_zero_iff.mp (by omega)
    rw [empty]
    rfl
  | succ rounds ih =>
    cases xs with
    | nil => rfl
    | cons a rest =>
      have shorter : ((a :: rest).drop size).length ≤ rounds := by
        rw [List.length_drop, List.length_cons] at *
        omega
      rw [slices, List.flatten_cons, ih _ shorter, List.take_append_drop]

def rerankPart {S : Type} (backend : InferenceBackend S) (soft : Bool) (query : String) (part : List String) :
    Except Failure (Option (List S)) :=
  if soft then backend.rerankUntil query part else (backend.rerank query part).map some

/-- The parts in order, until one fails or runs out of time. -/
def rerankParts {S : Type} (backend : InferenceBackend S) (soft : Bool) (query : String) :
    List (List String) → Except Failure (Option (List S))
  | [] => pure (some [])
  | part :: rest => do
    match ← rerankPart backend soft query part with
    | none => pure none
    | some scores => return (← rerankParts backend soft query rest).map fun more => scores ++ more

/-- One backend call, or calls of `rerankProgressSlice` chunks while an observer is set. -/
def rerankCandidates {S : Type} (backend : InferenceBackend S) (observed soft : Bool) (query : String) (chunks : List String) :
    Except Failure (Option (List S)) :=
  let slice := if observed then rerankProgressSlice else max chunks.length 1
  rerankParts backend soft query (slices slice chunks.length chunks)

/-! ### The cache of a store -/

/-- How a cache operation can fail. -/
inductive CacheFault where
  | busy
  | broken
deriving DecidableEq

/-- What the reads and the writes of one hook meet. -/
structure CacheFaults where
  get : Option CacheFault
  put : Option CacheFault

/-- The query cache of a store: whether it is still turned on, and the file behind it. -/
structure QueryCache (K S : Type) [DecidableEq K] where
  on : Bool
  cache : ModelCache K S

/-- Contention passes on its own; any other error turns the cache off. -/
def cacheFailed {S : Type} (qc : QueryCache K S) : CacheFault → QueryCache K S
  | .busy => qc
  | .broken => { qc with on := false }

def tryPut {S : Type} (qc : QueryCache K S) (fault : Option CacheFault) (put : ModelCache K S → ModelCache K S) :
    QueryCache K S :=
  if qc.on then
    match fault with
    | none => { qc with cache := put qc.cache }
    | some fault => cacheFailed qc fault
  else qc

/-- The model's own output, stored. A failed generation stores nothing. -/
def generateAndStore {S : Type} (digests : Digests K) (versions : PromptVersions) (backend : InferenceBackend S)
    (fault : Option CacheFault) (qc : QueryCache K S) (model prompt : String) : Except Failure String × QueryCache K S :=
  match backend.generate prompt with
  | .ok output => (.ok output, tryPut qc fault fun cache => putExpansion digests versions cache prompt model output)
  | .error failure => (.error failure, qc)

def generateExpansion {S : Type} (digests : Digests K) (versions : PromptVersions) (backend : InferenceBackend S)
    (faults : CacheFaults) (qc : QueryCache K S) (prompt : String) : Except Failure String × QueryCache K S :=
  match if qc.on then modelIdentity backend.generateModel else none with
  | none => (backend.generate prompt, qc)
  | some model =>
    match faults.get with
    | some fault => generateAndStore digests versions backend faults.put (cacheFailed qc fault) model prompt
    | none =>
      match getExpansion digests versions qc.cache prompt model with
      | some output =>
        -- Mark it recently used.
        (.ok output, tryPut qc faults.put fun cache => putExpansion digests versions cache prompt model output)
      | none => generateAndStore digests versions backend faults.put qc model prompt

/-- The rerank model's cache identity, or `none` when the cache is off or the model file cannot be read. -/
def rerankIdentity {S : Type} (backend : InferenceBackend S) (qc : QueryCache K S) : Option String :=
  if qc.on then modelIdentity backend.rerankModel else none

/-- The cached scores with the fresh ones in their gaps. `0 / 0` is `f32::NAN`. -/
def fillScores : List (Option S) → List S → List S
  | [], _ => []
  | some score :: rest, fresh => score :: fillScores rest fresh
  | none :: rest, score :: fresh => score :: fillScores rest fresh
  | none :: rest, [] => Score.literal 0 / Score.literal 0 :: fillScores rest []

def lookupScores {S : Type} (digests : Digests K) (versions : PromptVersions) (fault : Option CacheFault)
    (qc : QueryCache K S) (query model : String) (chunks : List String) : List (Option S) :=
  match fault with
  | none => getRerankScores digests versions qc.cache query model chunks
  | some _ => chunks.map fun _ => none

def missesOf {S : Type} (chunks : List String) (cached : List (Option S)) : List String :=
  ((chunks.zip cached).filter fun pair => pair.2.isNone).map Prod.fst

def freshScores {S : Type} (backend : InferenceBackend S) (observed soft : Bool) (query : String) (misses : List String) :
    Except Failure (Option (List S)) :=
  if misses.isEmpty then pure (some []) else rerankCandidates backend observed soft query misses

/-- The scores of all chunks, those of the misses from the model. -/
def rerankMisses (backend : InferenceBackend S) (observed soft : Bool) (query : String) (chunks : List String)
    (cached : List (Option S)) : Except Failure (Option (List S)) :=
  let misses := missesOf chunks cached
  if misses.length = chunks.length then rerankCandidates backend observed soft query chunks
  else do
    match ← freshScores backend observed soft query misses with
    | none => pure none
    | some fresh =>
      if fresh.length ≠ misses.length then
        throw ("rerank returned " ++ toString fresh.length ++ " score(s) for " ++ toString misses.length ++ " candidate(s)")
      else pure (some (fillScores cached fresh))

def afterLookup {S : Type} (qc : QueryCache K S) : Option CacheFault → QueryCache K S
  | none => qc
  | some fault => cacheFailed qc fault

def rerankCandidatesCached (digests : Digests K) (versions : PromptVersions) (backend : InferenceBackend S)
    (observed soft : Bool) (faults : CacheFaults) (qc : QueryCache K S) (query : String) (chunks : List String) :
    Except Failure (Option (List S)) × QueryCache K S :=
  match rerankIdentity backend qc with
  | none => (rerankCandidates backend observed soft query chunks, qc)
  | some model =>
    (rerankMisses backend observed soft query chunks (lookupScores digests versions faults.get qc query model chunks),
      afterLookup qc faults.get)

def rememberRerankScores (digests : Digests K) (versions : PromptVersions) (backend : InferenceBackend S)
    (faults : CacheFaults) (qc : QueryCache K S) (query : String) (chunks : List String) (scores : List S) :
    QueryCache K S :=
  match rerankIdentity backend qc with
  | none => qc
  | some model => tryPut qc faults.put fun cache => putRerankScores digests versions cache query model (chunks.zip scores)

/-! ### The engine of a query -/

/-- The engine with a backend's model calls as they are. -/
def plainEngine (engine : Engine V S) (backend : InferenceBackend S) (observed soft : Bool) : Engine V S :=
  { engine with
    generateExpansion := backend.generate
    canRerank := backend.canRerank
    rerankCandidates := rerankCandidates backend observed soft }

/-- The engine with the hooks around them; `qc` is the cache when the query starts and `later` when it reranks. -/
def hookedEngine (engine : Engine V S) (digests : Digests K) (versions : PromptVersions) (backend : InferenceBackend S)
    (observed soft : Bool) (generating reranking : CacheFaults) (qc later : QueryCache K S) : Engine V S :=
  { engine with
    generateExpansion := fun prompt => (generateExpansion digests versions backend generating qc prompt).1
    canRerank := backend.canRerank
    rerankCandidates := fun query chunks =>
      (rerankCandidatesCached digests versions backend observed soft reranking later query chunks).1 }

/-- A query of one process: what it finds, what it asks of the models and what its cache operations meet. -/
structure CachedQuery (V S : Type) where
  engine : Engine V S
  versions : PromptVersions
  backend : InferenceBackend S
  cacheOn : Bool
  maxRows : Nat
  observed : Bool
  soft : Bool
  generating : CacheFaults
  reranking : CacheFaults
  prompt : Option String
  rerank : Option (String × List String)
  skipRerank : Bool

namespace CachedQuery

variable (digests : Digests K) (q : CachedQuery V S)

def opened (cache : ModelCache K S) : QueryCache K S := ⟨q.cacheOn, { cache with maxRows := q.maxRows }⟩

/-- The cache once the query has its expansion. -/
def expanded (cache : ModelCache K S) : QueryCache K S :=
  match q.prompt with
  | none => q.opened cache
  | some prompt => (generateExpansion digests q.versions q.backend q.generating (q.opened cache) prompt).2

def cachedEngine (cache : ModelCache K S) : Engine V S :=
  hookedEngine q.engine digests q.versions q.backend q.observed q.soft q.generating q.reranking (q.opened cache)
    (q.expanded digests cache)

/-- The cache once the query has its results. -/
def after (cache : ModelCache K S) : ModelCache K S :=
  match q.rerank with
  | none => (q.expanded digests cache).cache
  | some (query, chunks) =>
    let looked := (rerankCandidatesCached digests q.versions q.backend q.observed q.soft q.reranking
      (q.expanded digests cache) query chunks).2
    match (rerankSections (q.cachedEngine digests cache) query chunks q.skipRerank).1 with
    | none => (q.expanded digests cache).cache
    | some scores => (rememberRerankScores digests q.versions q.backend q.reranking looked query chunks scores).cache

end CachedQuery

end Rqmd
