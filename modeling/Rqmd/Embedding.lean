import Rqmd.Types

/-! What an embedding is computed from: the backend, the chunker and the hashes that name texts and
vectors. Model inference, chunking and SHA-256 are parameters. -/

namespace Rqmd

structure Chunk where
  text : String
  pos : Nat
deriving DecidableEq

/-- The SHA-256 digests the index uses, as it truncates them. -/
structure Hashes where
  contentHash : String → String
  chunkTextHash : String → String
  vectorKeyDigest : String → String
  fingerprintDigest : String → String

/-- The fingerprint markers compiled in, each with the file extensions that carry it. -/
abbrev Grammars := List (String × List String)

inductive BackendKind where
  | unspecified
  | llama
  | ort
deriving DecidableEq

def BackendKind.name : BackendKind → String
  | .unspecified => "unspecified"
  | .llama => "llama"
  | .ort => "ort"

/-- What decides a passage's vector beside its text. -/
structure Backend where
  kind : BackendKind
  model : String
  contextSize : Nat
deriving DecidableEq

/-- What the index takes as given: digests, the compiled grammars, the chunker, the inference of one
passage, Unicode composition, the frontmatter parser, the path tokenizer and the glob matcher. -/
structure Env (V : Type) extends Hashes where
  grammars : Grammars
  chunkDocumentForPath : String → String → List Chunk
  passageVector : Backend → String → V
  normalizeNfc : String → String
  frontmatterTerms : String → String
  pathTerms : String → List (Nat × String)
  globs : List String → String → Bool

def embeddinggemmaQueryPrefix : String := "task: search result | query: "

def embeddinggemmaPassagePrefix : String := "title: none | text: "

def chunkSizeChars : Nat := 3600

def chunkOverlapChars : Nat := 540

def chunkStrategyVersion : Nat := 2

def astFingerprintMarker (grammars : Grammars) (ext : String) : Option String :=
  (grammars.find? fun group => group.2.contains ext).map Prod.fst

/-- `Path::extension`: what follows the last dot of the file name, unless that dot starts it. -/
def pathExtension (relPath : String) : Option String :=
  let name := (relPath.toList.reverse.takeWhile (· ≠ '/')).reverse
  let ext := (name.reverse.takeWhile (· ≠ '.')).reverse
  if name = ['.', '.'] ∨ ext.length + 1 ≥ name.length then none else some (String.ofList ext)

def astMarkerForPath (grammars : Grammars) (relPath : String) : Option String :=
  (pathExtension relPath).bind (astFingerprintMarker grammars)

def markedFingerprint (hashes : Hashes) (model : String) (astMarker : Option String) : String :=
  let sig := "model:" ++ model ++ "\nchunk_size_chars:" ++ toString chunkSizeChars ++
    "\nchunk_overlap_chars:" ++ toString chunkOverlapChars ++ "\nchunk_strategy_version:" ++
    toString chunkStrategyVersion ++ "\nquery_prefix:" ++ embeddinggemmaQueryPrefix ++
    "\npassage_prefix:" ++ embeddinggemmaPassagePrefix
  hashes.fingerprintDigest (sig ++ match astMarker with
    | some marker => "\n" ++ marker
    | none => "\ntable_header_chunking:1")

def embedFingerprint (hashes : Hashes) (grammars : Grammars) (model relPath : String) : String :=
  markedFingerprint hashes model (astMarkerForPath grammars relPath)

/-- An AST fingerprint with the extensions whose files carry it. -/
structure AstFingerprint where
  extensions : List String
  fingerprint : String
deriving DecidableEq

def expectedAstFingerprints (hashes : Hashes) (grammars : Grammars) (model : String) : List AstFingerprint :=
  grammars.map fun group => ⟨group.2, markedFingerprint hashes model (some group.1)⟩

def expectedFingerprint (hashes : Hashes) (grammars : Grammars) (model : String) : String :=
  embedFingerprint hashes grammars model ""

/-- The text whose digest names a vector. -/
def vectorSignature (backend : Backend) (chunkHash : String) : String :=
  "backend:" ++ backend.kind.name ++ "\nmodel:" ++ backend.model ++ "\ncontext_size:" ++
    toString backend.contextSize ++ "\npassage_prefix:" ++ embeddinggemmaPassagePrefix ++
    "\nchunk:" ++ chunkHash

def vectorKey (hashes : Hashes) (backend : Backend) (chunkHash : String) : String :=
  hashes.vectorKeyDigest (vectorSignature backend chunkHash)

/-- The words of an ASCII path, with their positions. -/
def asciiTerms (path : String) : List (Nat × String) :=
  let words := path.toList.foldr (fun ch found =>
    if ch.isAlphanum then
      match found with
      | word :: rest => (ch.toLower :: word) :: rest
      | [] => [[ch.toLower]]
    else [] :: found) [[]]
  ((words.filter (· ≠ [])).map String.ofList).zipIdx.map Prod.swap

/-- The digests of three short texts; nothing else is hashed in the runs below. -/
def sampleHash (text : String) : String :=
  if text = "alpha" then "8ed3f6ad685b959ead7022518e1af76cd816f8e8ec7ccdda1ed4018e8f2223f8"
  else if text = "beta" then "f44e64e75f3948e9f73f8dfa94721c4ce8cbb4f265c4790c702b2d41cfbf2753"
  else if text = "gamma" then "be9d587defa1f0c09ef49eb17e206983a5f8f8289e4281860bd0ee5a19592c67"
  else text

/-- One chunk for a short text, no grammars, and every passage its own vector. -/
def sampleEnv : Env String where
  contentHash := sampleHash
  chunkTextHash := id
  vectorKeyDigest := id
  fingerprintDigest := id
  grammars := []
  chunkDocumentForPath _ text := [⟨text, 0⟩]
  passageVector _ text := text
  normalizeNfc := id
  frontmatterTerms _ := ""
  pathTerms := asciiTerms
  globs _ _ := false

end Rqmd
