import Rqmd.Fusion
import Rqmd.Frontmatter
import Rqmd.Chunking

/-! Searching. Keyword hits come from the committed full-text entries and vector hits from the vector rows;
both are turned into documents by looking rows up in the database. -/

namespace Rqmd
open Text Chunking

/-- Where a hybrid query looks at its deadline. -/
inductive DeadlineStage where
  | subQuery (index : Nat)
  | embeddingQuery
  | queryExpansion
  | expansionQuery (index : Nat)
  | rerank
deriving DecidableEq

def DeadlineStage.name : DeadlineStage → String
  | .subQuery _ => "a sub-query"
  | .embeddingQuery => "embedding the query"
  | .queryExpansion => "query expansion"
  | .expansionQuery _ => "an expansion query"
  | .rerank => "rerank"

/-- What a search takes as given beside `Env`: the full-text engine's score of each committed entry, the
vector engine, the inference backend, Unicode properties, the clock and what the deadline is found to be at
each stage. -/
structure Engine (V S : Type) extends Env V where
  bm25 : List FtsEntry → String → Except Failure (Nat → Option S)
  nearest : Vectors V → V → Nat → Except Failure (List (Nat × S))
  embedQuery : String → Except Failure V
  embedPassage : String → Except Failure V
  canGenerate : Bool
  generateExpansion : String → Except Failure String
  canRerank : Bool
  rerankCandidates : String → List String → Except Failure (Option (List S))
  lowercase : String → String
  alphabetic : Char → Bool
  now : Int
  expired : DeadlineStage → Bool

structure SearchResult (S : Type) where
  file : String
  title : String
  body : String
  bestChunk : String
  bestChunkPos : Nat
  score : S
  docid : String
  collection : String
  path : String
  context : Option String
deriving DecidableEq

/-- `recency` is the factor of a file by its age in nanoseconds. -/
structure SearchOptions (S : Type) where
  perFile : Nat
  recency : Option (Nat → S)

def maxPerFile : Nat := 5

def clampPerFile (perFile : Nat) : Nat := max 1 (min perFile maxPerFile)

/-- The collections a caller asked for, as it gave them. -/
abbrev Requested := Option (List String)

def splitFilepath (filepath : String) : String × String :=
  (String.ofList (filepath.toList.takeWhile (· ≠ '/')), String.ofList (filepath.toList.dropWhile (· ≠ '/')).tail)

def docidFromHash (hash : String) : String := String.ofList (takeBytes 6 hash.toList)

/-! ### Lookups -/

namespace Db

/-- `get_document_by_filepath`, which a deactivated row answers too. -/
def getDocumentAt (db : Db) (collection path : String) : Option Document :=
  db.documents.find? fun d => d.collection.text == collection && d.path == path

def documentMtimeNs (db : Db) (collection path : String) : Option Int :=
  (db.documents.find? fun d => d.collection.text == collection && d.path == path && d.active).bind fun d =>
    d.stat.map Prod.snd

def activeDocumentIdsInCollections (db : Db) (collections : List String) : List Nat :=
  (db.documents.select fun d => d.active && collections.contains d.collection.text).map Document.id

/-- The active documents in scope a vector stands for, each with the offset of its chunk, in the order they
are tried. No scope and an empty one both take every collection. -/
def documentsForVid (db : Db) (vid : Nat) (collections : Requested) : List (Document × Nat) :=
  let scope := collections.getD []
  ((db.vectors.select (·.vid == vid)).flatMap fun v =>
    (db.documents.select fun d => d.hash == v.hash && d.active &&
      (scope.isEmpty || scope.contains d.collection.text)).map fun d => (d, v.pos)).insertionSort
    fun a b => documentOrder a.1 b.1

def docChunkForVidIn (db : Db) (vid : Nat) (collections : Requested) : Option (Document × Nat) :=
  (db.documentsForVid vid collections).head?

def Collection.hasEmbedRule (c : Collection) : Bool := !c.embedIgnore.isEmpty || c.embedMaxBytes.isSome

/-- `EmbedExclusions::reason` of a document. -/
def excludedFromEmbed (db : Db) (globs : List String → String → Bool) (d : Document) : Bool :=
  match db.findCollection d.collection with
  | some c => Collection.excludes globs c d.path ((db.getContent d.hash).map String.utf8ByteSize |>.getD 0)
  | none => false

def docChunkForVidInExcluding (db : Db) (globs : List String → String → Bool) (vid : Nat) (collections : Requested) :
    Option (Document × Nat) :=
  if db.collections.any Collection.hasEmbedRule then
    (db.documentsForVid vid collections).find? fun found => !db.excludedFromEmbed globs found.1
  else db.docChunkForVidIn vid collections

def getContextForCollection (db : Db) (collection : String) : Option String :=
  (db.getConfig ("context:rqmd://" ++ collection ++ "/")).or (db.getConfig "context:/")

/-- The directories of a path, deepest first; each is tried with those above it. -/
def contextUpwards (db : Db) (collection : String) : List (List Char) → Option String
  | [] => db.getContextForCollection collection
  | component :: above =>
    let directory := String.intercalate "/" ((component :: above).reverse.map String.ofList)
    (db.getConfig ("context:rqmd://" ++ collection ++ "/" ++ directory ++ "/")).or (contextUpwards db collection above)

def getContextForPath (db : Db) (collection relPath : String) : Option String :=
  db.contextUpwards collection (relPath.toList.splitOn '/').reverse.tail

end Db

/-- The collections a query searches: those asked for, or those included by default. Nothing stands for every
collection being included, or none being configured. -/
def effectiveCollections (db : Db) (requested : Requested) : Requested :=
  match requested with
  | some (c :: cs) => some (c :: cs)
  | _ =>
    if db.listCollections.all Collection.includeByDefault then none
    else some ((db.listCollections.filter Collection.includeByDefault).map fun c => c.name.text)

variable {V S : Type} [Score S]

/-! ### Keyword search -/

structure FtsHit (S : Type) where
  filepath : String
  docId : Nat
  score : S

/-- The exact prefix test of a hit: `filepath` is below a collection of the scope, or names one. -/
def inScope (collections : List String) (filepath : String) : Bool :=
  collections.any fun c => (c ++ "/").toList.isPrefixOf filepath.toList || filepath == c

def higher (a b : FtsEntry × S) : Prop := Score.partialCmp a.2 b.2 ≠ some .lt

instance : DecidableRel (higher (S := S)) := fun _ _ => inferInstanceAs (Decidable (_ ≠ _))

/-- The best `limit` entries among the allowed ones, then those in scope. -/
def searchFtsScoped (engine : Engine V S) (entries : List FtsEntry) (query : String) (limit : Nat)
    (collections : Requested) (allowed : Option (List Nat)) : Except Failure (List (FtsHit S)) := do
  if limit = 0 then pure []
  else
    let score ← engine.bm25 entries query
    let matched := entries.zipIdx.filterMap fun (e, i) =>
      if (allowed.map fun ids => ids.contains e.docId).getD true then (score i).map fun s => (e, s) else none
    let top := (matched.insertionSort higher).take limit
    let kept := top.filter fun hit => match collections with
      | some (c :: cs) => inScope (c :: cs) hit.1.filepath
      | _ => true
    pure (kept.map fun (e, s) => ⟨e.filepath, e.docId, s / (Score.literal 1 + s)⟩)

def ftsScoped (engine : Engine V S) (s : Store V) (query : String) (limit : Nat) (collections : Requested) :
    Except Failure (List (FtsHit S)) :=
  let ids := match collections with
    | some (c :: cs) => some (s.db.activeDocumentIdsInCollections (c :: cs))
    | _ => none
  searchFtsScoped engine s.fts.committed query limit collections ids

def recencyPoolFactor : Nat := 4

def recencyPoolCap : Nat := 200

def recencyPool (limit : Nat) : Nat := max limit (min (limit * recencyPoolFactor) recencyPoolCap)

def recencyFactor (engine : Engine V S) (db : Db) (recency : Nat → S) (filepath : String) : S :=
  let (collection, path) := splitFilepath filepath
  recency (match db.documentMtimeNs collection path with
    | some mtime => if 0 ≤ mtime ∧ mtime ≤ engine.now then (engine.now - mtime).toNat else 0
    | none => 0)

def FtsHit.before (a b : FtsHit S) : Prop := scoreDescThenPath a.score a.filepath b.score b.filepath ≠ .gt

instance : DecidableRel (FtsHit.before (S := S)) := fun _ _ => inferInstanceAs (Decidable (_ ≠ _))

def weightHits (engine : Engine V S) (db : Db) (recency : Nat → S) (hits : List (FtsHit S)) : List (FtsHit S) :=
  (hits.map fun hit => { hit with score := hit.score * recencyFactor engine db recency hit.filepath }).insertionSort
    FtsHit.before

/-! ### Sections and results -/

/-- One section chosen for a result; `doc` is its document's place in the list of documents. -/
structure Pick (S : Type) where
  filepath : String
  doc : Nat
  rank : Nat
  score : S
  chunk : String × Nat

structure PickDoc where
  title : String
  hash : String
  body : String

def Pick.before (a b : Pick S) : Prop :=
  (scoreDescThenPath a.score a.filepath b.score b.filepath).then (compare a.rank b.rank) ≠ .gt

instance : DecidableRel (Pick.before (S := S)) := fun _ _ => inferInstanceAs (Decidable (_ ≠ _))

def rankPicks (picks : List (Pick S)) (limit : Nat) : List (Pick S) := (picks.insertionSort Pick.before).take limit

def pickToResult {S : Type} (db : Db) (doc : PickDoc) (pick : Pick S) : SearchResult S :=
  let (collection, path) := splitFilepath pick.filepath
  ⟨"rqmd://" ++ pick.filepath, doc.title, doc.body, pick.chunk.1, pick.chunk.2, pick.score, docidFromHash doc.hash,
    collection, path, db.getContextForPath collection path⟩

/-- A pick whose document is not in the list is dropped here; the code would panic. -/
def picksToResults {S : Type} (db : Db) (docs : List PickDoc) (picks : List (Pick S)) : List (SearchResult S) :=
  picks.filterMap fun pick => (docs[pick.doc]?).map fun doc => pickToResult db doc pick

/-- The part of a chunk that the chunks taken do not cover. -/
def uncoveredText (chunk : Chunk) (taken : List Chunk) : List Char :=
  let text := chunk.text.toList
  let length := byteLength text
  let cover := taken.foldl (fun (lower, upper) other =>
    let otherEnd := other.pos + byteLength other.text.toList
    if other.pos ≤ chunk.pos ∧ chunk.pos < otherEnd then (max lower (min (otherEnd - chunk.pos) length), upper)
    else if chunk.pos < other.pos ∧ other.pos < chunk.pos + length then (lower, min upper (other.pos - chunk.pos))
    else (lower, upper)) (0, length)
  let stop := max cover.2 cover.1
  if isCharBoundary text cover.1 && isCharBoundary text stop then slice text cover.1 stop else text

def occursIn (term text : String) : Bool := text.toList.tails.any fun rest => term.toList.isPrefixOf rest

structure ScoredChunk where
  hits : Nat
  index : Nat
  chunk : Chunk

def ScoredChunk.before (a b : ScoredChunk) : Prop := b.hits < a.hits ∨ (a.hits = b.hits ∧ b.index ≤ a.index)

instance : DecidableRel ScoredChunk.before := fun _ _ => inferInstanceAs (Decidable (_ ∨ _))

def pickChunks (lowercase : String → String) (terms : List String) (n : Nat) : List ScoredChunk → List Chunk → List Chunk
  | [], picked => picked
  | scored :: rest, picked =>
    if picked.length = n ∨ (picked ≠ [] ∧ scored.hits = 0) then picked
    else
      let fresh := lowercase (String.ofList (uncoveredText scored.chunk picked))
      if picked = [] ∨ terms.any fun t => occursIn t fresh then
        pickChunks lowercase terms n rest (picked ++ [scored.chunk])
      else pickChunks lowercase terms n rest picked

def bestChunks (engine : Engine V S) (filepath body : String) (queryTerms : List String) (n : Nat) :
    List (String × Nat) :=
  match engine.chunkDocumentForPath filepath body with
  | [] => [("", 0)]
  | first :: rest =>
    if queryTerms = [] then [(first.text, first.pos)]
    else
      let scored := (first :: rest).zipIdx.map fun (c, i) =>
        ScoredChunk.mk (queryTerms.countP fun t => occursIn t (engine.lowercase c.text)) i c
      (pickChunks engine.lowercase queryTerms n (scored.insertionSort ScoredChunk.before) []).map fun c => (c.text, c.pos)

def splitWhitespace (text : String) : List (List Char) :=
  (text.toList.splitOnP isWhiteSpace).filter fun word => !word.isEmpty

def keywordTerms (engine : Engine V S) (query : String) : List String :=
  (((splitWhitespace (engine.lowercase query)).filter fun t => t.head? ≠ some '-').map
    (trimMatches (· = '"'))).filterMap fun t => if 2 < byteLength t then some (String.ofList t) else none

def resultFromDoc {S : Type} (db : Db) (d : Document) (score : S) : SearchResult S :=
  ⟨"rqmd://" ++ d.filepath, d.title, d.raw, String.ofList (firstChunk d.raw.toList), 0, score, docidFromHash d.hash,
    d.collection.text, d.path, db.getContextForPath d.collection.text d.path⟩

def hitsToResults {S : Type} (db : Db) (hits : List (FtsHit S)) (limit : Nat) : List (SearchResult S) :=
  (hits.take limit).filterMap fun hit => (db.getDocumentById hit.docId).map fun d => resultFromDoc db d hit.score

/-- The documents of the hits that have one, each with its score. -/
def hitDocuments {S : Type} (db : Db) (hits : List (FtsHit S)) : List (Document × S) :=
  hits.filterMap fun hit => (db.getDocumentById hit.docId).map fun d => (d, hit.score)

def PickDoc.ofDocument (d : Document) : PickDoc := ⟨d.title, d.hash, d.raw⟩

def hitPicks {S : Type} (engine : Engine V S) (query : String) (perFile : Nat) (found : Document × S) (i : Nat) :
    List (Pick S) :=
  (bestChunks engine found.1.filepath found.1.raw (keywordTerms engine query) perFile).zipIdx.map fun (chunk, rank) =>
    Pick.mk found.1.filepath i rank found.2 chunk

def hitsToSections (engine : Engine V S) (db : Db) (hits : List (FtsHit S)) (query : String) (limit perFile : Nat) :
    List (SearchResult S) :=
  let docs := hitDocuments db (hits.take limit)
  let picks := docs.zipIdx.flatMap fun (found, i) => hitPicks engine query perFile found i
  picksToResults db (docs.map fun found => .ofDocument found.1) (rankPicks picks limit)

/-- The hits a keyword search goes on with; weighting takes a larger pool. -/
def ftsHits (engine : Engine V S) (s : Store V) (query : String) (limit : Nat) (collections : Requested)
    (recency : Option (Nat → S)) : Except Failure (List (FtsHit S)) :=
  match recency with
  | none => ftsScoped engine s query limit collections
  | some recency => do
    let hits ← ftsScoped engine s query (recencyPool limit) collections
    pure (weightHits engine s.db recency hits)

def searchFtsMultiWith (engine : Engine V S) (s : Store V) (query : String) (limit : Nat) (requested : Requested)
    (options : SearchOptions S) : Except Failure (List (SearchResult S)) := do
  let effective := effectiveCollections s.db requested
  if effective = some [] then pure []
  else
    let hits ← ftsHits engine s query limit effective options.recency
    if clampPerFile options.perFile = 1 then pure (hitsToResults s.db hits limit)
    else pure (hitsToSections engine s.db hits query limit (clampPerFile options.perFile))

/-! ### Vector search -/

def withContext {α : Type} (context : String) (result : Except Failure α) : Except Failure α :=
  result.mapError fun cause => context ++ ": " ++ cause

/-- The pool of nearest vectors is doubled until enough of it is in scope or it holds every vector. -/
def widen {α : Type} (pass : Nat → Except Failure α) (enough : α → Bool) (total : Nat) : Nat → Nat → Except Failure α
  | 0, k => pass k
  | fuel + 1, k => do
    let found ← pass k
    if enough found || decide (total ≤ k) then pure found else widen pass enough total fuel (min (k * 2) total)

/-- What widening returns is what one pass found, and the last one: fuel is never short. -/
theorem widen_last {α : Type} {pass : Nat → Except Failure α} {enough : α → Bool} {total fuel k : Nat} {found : α}
    (some : 0 < k) (room : total - k ≤ fuel) (result : widen pass enough total fuel k = .ok found) :
    ∃ last, k ≤ last ∧ pass last = .ok found ∧ (enough found = true ∨ total ≤ last) := by
  induction fuel generalizing k with
  | zero => exact ⟨k, le_rfl, result, .inr (by omega)⟩
  | succ fuel ih =>
    rw [widen] at result
    cases here : pass k with
    | error context =>
      rw [here] at result
      cases result
    | ok first =>
      have step : (if enough first || decide (total ≤ k) then pure first
          else widen pass enough total fuel (min (k * 2) total)) = Except.ok found := by
        rw [here] at result
        exact result
      split at step
      · next stop =>
        have same : first = found := Except.ok.inj step
        rw [← same]
        refine ⟨k, le_rfl, here, ?_⟩
        simpa using stop
      · next onward =>
        have short : k < total := by
          simp only [Bool.or_eq_true, decide_eq_true_eq, not_or] at onward
          omega
        obtain ⟨last, later, found⟩ := ih (by omega) (by omega) step
        exact ⟨last, by omega, found⟩

def nearestIn {S : Type} (engine : Engine V S) (s : Store V) (embedding : V) (collections : Requested) (k : Nat) :
    Except Failure (List (Document × S × Nat)) := do
  let raw ← engine.nearest s.hnsw.inner embedding k
  pure (raw.filterMap fun (vid, sim) =>
    (s.db.docChunkForVidInExcluding engine.globs vid collections).map fun found => (found.1, sim, found.2))

/-- A document with the similarity and the offset of each of its vectors that was near. -/
abbrev VecGroup (S : Type) := Document × List (S × Nat)

/-- Group the hits by filepath; the first document of a filepath stands for it. -/
def groupHit {S : Type} (hit : Document × S × Nat) : List (VecGroup S) → List (VecGroup S)
  | [] => [(hit.1, [hit.2])]
  | group :: rest =>
    if group.1.filepath = hit.1.filepath then (group.1, group.2 ++ [hit.2]) :: rest else group :: groupHit hit rest

def groupHits {S : Type} (hits : List (Document × S × Nat)) : List (VecGroup S) :=
  hits.foldl (fun groups hit => groupHit hit groups) []

def closer (a b : S × Nat) : Prop := ((Score.partialCmp b.1 a.1).getD .eq).then (compare a.2 b.2) ≠ .gt

instance : DecidableRel (closer (S := S)) := fun _ _ => inferInstanceAs (Decidable (_ ≠ _))

/-- Keep the first hit of each offset. -/
def distinctOffsets {S : Type} : List (S × Nat) → List Nat → List (S × Nat)
  | [], _ => []
  | hit :: rest, seen =>
    if hit.2 ∈ seen then distinctOffsets rest seen else hit :: distinctOffsets rest (hit.2 :: seen)

def groupPicks (engine : Engine V S) (db : Db) (options : SearchOptions S) (group : VecGroup S) (i : Nat) : List (Pick S) :=
  let hits := (distinctOffsets (group.2.insertionSort closer) []).take (clampPerFile options.perFile)
  hits.zipIdx.map fun ((sim, pos), rank) =>
    let score := match options.recency with
      | some recency => sim * recencyFactor engine db recency group.1.filepath
      | none => sim
    Pick.mk group.1.filepath i rank score ("", pos)

/-- Show a pick's matched chunk, found by its stored offset. -/
def showMatched (engine : Engine V S) (docs : List PickDoc) (pick : Pick S) : Pick S :=
  let body := match docs[pick.doc]? with
    | some doc => doc.body
    | none => ""
  { pick with chunk := nearestChunk (engine.chunkDocumentForPath pick.filepath body) pick.chunk.2 }

def vecResults (engine : Engine V S) (db : Db) (options : SearchOptions S) (groups : List (VecGroup S)) (limit : Nat) :
    List (SearchResult S) :=
  let docs := groups.map fun group => PickDoc.ofDocument group.1
  let picks := groups.zipIdx.flatMap fun (group, i) => groupPicks engine db options group i
  picksToResults db docs ((rankPicks picks limit).map (showMatched engine docs))

def searchVecMultiWith (engine : Engine V S) (s : Store V) (query : String) (limit : Nat) (requested : Requested)
    (options : SearchOptions S) : Except Failure (List (SearchResult S)) := do
  let effective := effectiveCollections s.db requested
  if effective = some [] then pure []
  else
    let wanted := match options.recency with
      | some _ => recencyPool limit
      | none => limit
    let embedding ← withContext "embed query" (engine.embedQuery query)
    let hits ← widen (nearestIn engine s embedding effective)
      (fun hits => decide (wanted ≤ (groupHits hits).length)) s.hnsw.inner.size s.hnsw.inner.size (max (limit * 4) 1)
    pure (vecResults engine s.db options (groupHits hits) limit)

end Rqmd
