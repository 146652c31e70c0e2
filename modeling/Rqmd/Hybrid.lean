import Rqmd.Search

/-! The hybrid query: a ranked list for each keyword and vector search the query asks for, fused by reciprocal
rank, resolved to documents by filepath, cut to sections, reranked and put together. -/

namespace Rqmd
open Text

def rerankCandidateLimit : Nat := 20

def rerankPoolCeiling : Nat := 100

def fetchSize (limit : Nat) : Nat := min (max (limit * 2) rerankCandidateLimit) rerankPoolCeiling

variable {V S : Type} [Score S]

/-! ### Ranked lists -/

def ftsHitsToRanked {S : Type} (hits : List (FtsHit S)) : List (RankedResult S) :=
  hits.map fun hit => ⟨hit.filepath, "", hit.score⟩

def vecHitsToRanked {S : Type} (hits : List (Document × S × Nat)) : List (RankedResult S) :=
  hits.map fun (d, sim, _) => ⟨d.filepath, d.title, sim⟩

def searchVecScoped {S : Type} (engine : Engine V S) (s : Store V) (embedding : V) (size : Nat)
    (collections : Requested) : Except Failure (List (RankedResult S)) := do
  let hits ← widen (nearestIn engine s embedding collections) (fun hits => decide (size ≤ hits.length))
    s.hnsw.inner.size s.hnsw.inner.size size
  pure (vecHitsToRanked hits)

/-- The ranked lists of a query, each with where it came from. -/
abbrev Ranked (S : Type) := List (List (RankedResult S) × RankedListMeta)

/-- A list that found nothing is left out. -/
def rankedList {S : Type} (results : List (RankedResult S)) (source : String) (queryType : QueryType) : Ranked S :=
  if results = [] then [] else [(results, ⟨source, queryType⟩)]

def checkDeadline (engine : Engine V S) (stage : DeadlineStage) : Except Failure Unit :=
  if engine.expired stage then .error ("timed out before " ++ stage.name) else pure ()

/-- Run one search of a kind over the text; `source` is the name its list gets. -/
def runLeg (engine : Engine V S) (s : Store V) (collections : Requested) (size : Nat) (context : String)
    (source : String) (queryType : QueryType) (sub : SubQuery) : Except Failure (Ranked S) :=
  match sub.qtype with
  | .lex => do
    let hits ← ftsScoped engine s sub.text size collections
    pure (rankedList (ftsHitsToRanked hits) source queryType)
  | .vec => do
    let embedding ← withContext context (engine.embedQuery sub.text)
    let results ← searchVecScoped engine s embedding size collections
    pure (rankedList results source queryType)
  | .hyde => do
    let embedding ← withContext context (engine.embedPassage sub.text)
    let results ← searchVecScoped engine s embedding size collections
    pure (rankedList results source queryType)
  | .original => pure []

def legSource : QueryType → String
  | .lex => "fts"
  | .vec => "vec"
  | .hyde => "hyde"
  | .original => ""

def expansionContext : QueryType → String
  | .hyde => "embed hyde expansion"
  | _ => "embed vec expansion"

/-- The sub-queries of a query document, the first of which counts as the original query. -/
def typedLists (engine : Engine V S) (s : Store V) (collections : Requested) (size : Nat) :
    List SubQuery → Nat → Except Failure (Ranked S)
  | [], _ => pure []
  | sub :: rest, i => do
    checkDeadline engine (.subQuery i)
    let queryType := if i = 0 then .original else sub.qtype
    let found ← runLeg engine s collections size "embed sub-query" (legSource sub.qtype) queryType sub
    let others ← typedLists engine s collections size rest (i + 1)
    pure (found ++ others)

def expansionSource : QueryType → String
  | .lex => "expand-lex"
  | .vec => "expand-vec"
  | _ => "expand-hyde"

def expansionLeg (engine : Engine V S) (s : Store V) (collections : Requested) (size : Nat) :
    Option SubQuery → Except Failure (Ranked S)
  | some sub => runLeg engine s collections size (expansionContext sub.qtype) (expansionSource sub.qtype) sub.qtype sub
  | none => pure []

def expansionLists (engine : Engine V S) (s : Store V) (collections : Requested) (size : Nat) :
    List (Option SubQuery) → Nat → Except Failure (Ranked S)
  | [], _ => pure []
  | leg :: rest, i => do
    checkDeadline engine (.expansionQuery i)
    let found ← expansionLeg engine s collections size leg
    let others ← expansionLists engine s collections size rest (i + 1)
    pure (found ++ others)

def strongSignal (hits : List (FtsHit S)) : Bool :=
  let top := match hits[0]? with
    | some hit => hit.score
    | none => Score.literal 0
  let second := match hits[1]? with
    | some hit => hit.score
    | none => Score.literal 0
  !hits.isEmpty && Score.atLeast top (Score.literal (17 / 20)) && Score.atLeast (top - second) (Score.literal (3 / 20))

/-- The expansion of a plain query. A model that fails to generate adds no list. -/
def expanded (engine : Engine V S) (s : Store V) (collections : Requested) (size : Nat) (text : String)
    (intent : Option String) : Except Failure (Ranked S) := do
  checkDeadline engine .queryExpansion
  match engine.generateExpansion (buildExpansionPrompt text intent) with
  | .ok expansion =>
    expansionLists engine s collections size (expansionLegs engine.alphabetic text (lines expansion.toList) []) 0
  | .error _ => pure []

/-- A strong keyword signal or a backend that cannot generate leaves the expansion out. -/
def expandedUnless (engine : Engine V S) (s : Store V) (collections : Requested) (size : Nat) (text : String)
    (intent : Option String) (noExpand : Bool) (initial : List (FtsHit S)) : Except Failure (Ranked S) :=
  if !noExpand && !strongSignal initial && engine.canGenerate then expanded engine s collections size text intent
  else pure []

def retrieveRankedLists (engine : Engine V S) (s : Store V) (parsed : ParsedQuery) (intent : Option String)
    (query : String) (collections : Requested) (size : Nat) (noExpand : Bool) : Except Failure (Ranked S) :=
  if parsed.subqueries ≠ [] then typedLists engine s collections size parsed.subqueries 0
  else do
    let text := parsed.expandText.getD query
    let initial ← ftsScoped engine s text size collections
    checkDeadline engine .embeddingQuery
    let embedding ← withContext "embed query" (engine.embedQuery text)
    let near ← searchVecScoped engine s embedding size collections
    let further ← expandedUnless engine s collections size text intent noExpand initial
    pure (rankedList (ftsHitsToRanked initial) "fts" .original ++ rankedList near "vec" .original ++ further)

/-! ### Candidates -/

/-- A fused result with the hash and body of the document at its filepath. -/
structure Candidate (S : Type) where
  ranked : RankedResult S
  hash : String
  body : String

def filepathToDoc (db : Db) (filepath : String) : Option Document :=
  let (collection, path) := splitFilepath filepath
  db.getDocumentAt collection path

def fuseAndResolveCandidates (db : Db) (ranked : Ranked S) (size : Nat) : List (Candidate S) :=
  let fused := reciprocalRankFusion (ranked.map Prod.fst) (rrfWeights (ranked.map Prod.snd))
  (fused.take size).filterMap fun r => (filepathToDoc db r.filepath).map fun d => ⟨r, d.hash, d.raw⟩

inductive RerankStatus where
  | reranked
  | notRun
  | unsupported
  | failed
  | deadlineExpired
deriving DecidableEq

def queryTerms (engine : Engine V S) (query : String) (intent : Option String) : List String :=
  let source := match intent with
    | some i => i ++ " " ++ query
    | none => query
  ((splitWhitespace (engine.lowercase source)).filter fun t => decide (2 < byteLength t)).map String.ofList

/-- The sections of each candidate; those past its best one come out of `extraBudget`. -/
def selectSections (engine : Engine V S) (terms : List String) (perFile : Nat) :
    List (Candidate S) → Nat → List (List (String × Nat))
  | [], _ => []
  | cand :: rest, extraBudget =>
    let picked := bestChunks engine cand.ranked.filepath cand.body terms (1 + min (perFile - 1) extraBudget)
    picked :: selectSections engine terms perFile rest (extraBudget - (picked.length - 1))

def rerankSections (engine : Engine V S) (rerankQuery : String) (chunks : List String) (skipRerank : Bool) :
    Option (List S) × RerankStatus :=
  if skipRerank then (none, .notRun)
  else if !engine.canRerank then (none, .unsupported)
  else match engine.rerankCandidates rerankQuery chunks with
    | .ok (some scores) =>
      if scores.length = chunks.length ∧ scores.any Score.isFinite then (some scores, .reranked) else (none, .failed)
    | .ok none => (none, .deadlineExpired)
    | .error _ => (none, .failed)

/-- The picks of the candidates with their sections; `index` counts candidates and `next` scores. -/
def assemblePicks (engine : Engine V S) (db : Db) (rerank : Option (List S)) (recency : Option (Nat → S)) :
    List (Candidate S × List (String × Nat)) → Nat → Nat → List (Pick S)
  | [], _, _ => []
  | (cand, chunks) :: rest, index, next =>
    let rrf := cand.ranked.backendScore
    let picks := chunks.zipIdx.map fun (chunk, rank) =>
      let blended := match rerank with
        | some scores => Score.literal (3 / 4) * (scores[next + rank]?).getD rrf + Score.literal (1 / 4) * rrf
        | none => rrf
      let factor := match recency with
        | some recency => recencyFactor engine db recency cand.ranked.filepath
        | none => Score.literal 1
      Pick.mk cand.ranked.filepath index rank (blended * factor) chunk
    picks ++ assemblePicks engine db rerank recency rest (index + 1) (next + chunks.length)

def Candidate.doc {S : Type} (cand : Candidate S) : PickDoc := ⟨cand.ranked.title, cand.hash, cand.body⟩

def assembleResults (engine : Engine V S) (db : Db) (candidates : List (Candidate S))
    (sections : List (List (String × Nat))) (rerank : Option (List S)) (recency : Option (Nat → S)) (limit : Nat) :
    List (SearchResult S) :=
  let paired := candidates.zip sections
  picksToResults db (paired.map fun pair => pair.1.doc)
    (rankPicks (assemblePicks engine db rerank recency paired 0 0) limit)

/-! ### The query -/

structure HybridOptions (S : Type) extends SearchOptions S where
  skipRerank : Bool
  noExpand : Bool
  strictTimeout : Bool

structure QueryOutcome (S : Type) where
  results : List (SearchResult S)
  rerank : RerankStatus

def checkStrict (engine : Engine V S) (strictTimeout : Bool) : Except Failure Unit :=
  if strictTimeout then checkDeadline engine .rerank else pure ()

/-- The sections of the candidates, reranked, as the outcome. -/
def outcomeOf (engine : Engine V S) (db : Db) (query : String) (intent : Option String) (limit : Nat)
    (options : HybridOptions S) (candidates : List (Candidate S)) : QueryOutcome S :=
  let rerankQuery := match intent with
    | some i => i ++ "\n" ++ query
    | none => query
  let sections := selectSections engine (queryTerms engine query intent) (clampPerFile options.perFile) candidates
    (rerankPoolCeiling - candidates.length)
  let (scores, status) := rerankSections engine rerankQuery (sections.flatten.map Prod.fst) options.skipRerank
  ⟨assembleResults engine db candidates sections scores options.recency limit, status⟩

def hybridQueryOutcomeWith (engine : Engine V S) (s : Store V) (query : String) (intent : Option String) (limit : Nat)
    (requested : Requested) (options : HybridOptions S) : Except Failure (QueryOutcome S) :=
  let collections := effectiveCollections s.db requested
  if collections = some [] then pure ⟨[], .notRun⟩
  else do
    let parsed := parseQuery query
    let intent := parsed.intent.or intent
    let ranked ← retrieveRankedLists engine s parsed intent query collections (fetchSize limit) options.noExpand
    let candidates := fuseAndResolveCandidates s.db ranked (fetchSize limit)
    if candidates.isEmpty then pure ⟨[], .notRun⟩
    else do
      checkStrict engine options.strictTimeout
      pure (outcomeOf engine s.db query intent limit options candidates)

/-! ### A small engine -/

/-- Entries that hold the query score one, the query is its own vector, and no model generates or reranks. -/
def sampleEngine : Engine String Rat where
  toEnv := sampleEnv
  bm25 entries query := .ok fun i => (entries[i]?).bind fun e => if occursIn query e.body then some 1 else none
  nearest vectors embedding k :=
    .ok (((vectors.entries.map fun (vid, vector) => (vid, if vector = embedding then (1 : Rat) else 0)).insertionSort
      fun a b => b.2 ≤ a.2).take k)
  embedQuery := .ok
  embedPassage := .ok
  canGenerate := false
  generateExpansion _ := .error "no generation model"
  canRerank := false
  rerankCandidates _ _ := .error "no rerank model"
  lowercase text := String.ofList (text.toList.map Char.toLower)
  alphabetic := Char.isAlpha
  now := 0
  expired _ := false

def plainSearch : SearchOptions Rat := ⟨1, none⟩

def plainHybrid : HybridOptions Rat := ⟨plainSearch, false, false, true⟩

end Rqmd
