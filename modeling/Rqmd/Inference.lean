import Rqmd.ModelResidency
import Rqmd.Query

/-! The calls into llama.cpp. A batch that breaks one of its preconditions fails an assertion there, which ends the
process, or is refused; so what is embedded, scored and decoded is cut to size before. -/

namespace Rqmd.Llama
open Models (ErrorChain)

/-- What a call does. `abort` is a failed assertion. -/
inductive Called (α : Type) where
  | ok (value : α)
  | error (cause : ErrorChain)
  | abort
deriving DecidableEq

namespace Called

variable {α β : Type}

protected def bind (first : Called α) (next : α → Called β) : Called β :=
  match first with
  | ok value => next value
  | error cause => error cause
  | abort => abort

instance : Monad Called where
  pure := ok
  bind := Called.bind

def context (what : String) : Called α → Called α
  | error cause => error (what :: cause)
  | other => other

/-- What does not call llama.cpp does not end the process. -/
def lift : Except ErrorChain α → Called α
  | .ok value => ok value
  | .error cause => error cause

@[simp] theorem ok_bind (value : α) (next : α → Called β) : (ok value >>= next) = next value := rfl

@[simp] theorem lift_ok (value : α) : lift (.ok value) = ok value := rfl

@[simp] theorem context_ok (what : String) (value : α) : context what (ok value) = ok value := rfl

theorem lift_bind (first : Except ErrorChain α) (next : α → Except ErrorChain β) :
    lift (first >>= next) = lift first >>= fun value => lift (next value) := by
  cases first <;> rfl

theorem lift_ne_abort (result : Except ErrorChain α) : lift result ≠ abort := by
  intro same
  cases result <;> cases same

instance : LawfulMonad Called := LawfulMonad.mk' Called
  (by intro _ x; cases x <;> rfl) (by intros; rfl) (by intro _ _ _ x _ _; cases x <;> rfl)

end Called

/-- `with_context` outside llama.cpp. -/
def context {α : Type} (what : String) : Except ErrorChain α → Except ErrorChain α
  | .ok value => .ok value
  | .error cause => .error (what :: cause)

theorem except_ok_bind {α β : Type} (value : α) (next : α → Except ErrorChain β) :
    ((Except.ok value : Except ErrorChain α) >>= next) = next value := rfl

theorem lift_context {α : Type} (what : String) (result : Except ErrorChain α) :
    Called.lift (context what result) = (Called.lift result).context what := by
  cases result <;> rfl

/-! ### llama.cpp -/

structure LlamaContextParams where
  nCtx : Nat
  nBatch : Nat
  nUbatch : Nat

structure BatchEntry (T : Type) where
  token : T
  pos : Nat
  logits : Bool

/-- `allocated` is the number of tokens the batch was made for. -/
structure LlamaBatch (T : Type) where
  allocated : Nat
  entries : List (BatchEntry T)

/-- A model: its tokenizer, what computing a sequence leaves, and how it goes on with one. -/
structure LlamaModel (T V D : Type) where
  strToToken : String → Except ErrorChain (List T)
  run : List T → Except ErrorChain Unit
  embeddingsSeqIth : List T → Except ErrorChain (List V)
  sample : List T → T
  isEogToken : T → Bool
  newDecoder : D
  tokenToPiece : D → T → Except ErrorChain (String × D)

/-- `cached` are the tokens in the KV cache, at the positions from zero on, `computed` the batch computed last. -/
structure LlamaContext (T : Type) where
  params : LlamaContextParams
  cached : List T
  computed : List (BatchEntry T)

variable {T V D : Type}

namespace LlamaBatch

def new (allocated : Nat) : LlamaBatch T := ⟨allocated, []⟩

def tokens (batch : LlamaBatch T) : List T := batch.entries.map BatchEntry.token

def clear (batch : LlamaBatch T) : LlamaBatch T := { batch with entries := [] }

def add (batch : LlamaBatch T) (token : T) (pos : Nat) (logits : Bool) : Except ErrorChain (LlamaBatch T) :=
  if batch.allocated < batch.entries.length + 1 then .error ["insufficient space"]
  else .ok { batch with entries := batch.entries ++ [⟨token, pos, logits⟩] }

/-- The loop of `add_sequence`, which marks every token or just the last. -/
def addFrom (batch : LlamaBatch T) (logitsAll : Bool) : Nat → List T → Except ErrorChain (LlamaBatch T)
  | _, [] => .ok batch
  | pos, token :: rest =>
    match batch.add token pos (logitsAll || rest.isEmpty) with
    | .ok batch => addFrom batch logitsAll (pos + 1) rest
    | .error cause => .error cause

def addSequence (batch : LlamaBatch T) (tokens : List T) (logitsAll : Bool) : Except ErrorChain (LlamaBatch T) :=
  batch.addFrom logitsAll 0 tokens

end LlamaBatch

namespace LlamaContext

def emptyBatch : ErrorChain := ["n_tokens == 0"]

/-- `llama_encode` asserts that the batch fits one micro-batch. It leaves the cache alone. -/
def encode (model : LlamaModel T V D) (ctx : LlamaContext T) (batch : LlamaBatch T) : Called (LlamaContext T) :=
  if batch.entries.isEmpty then .error emptyBatch
  else if ctx.params.nUbatch < batch.entries.length then .abort
  else do
    Called.lift (model.run batch.tokens)
    return { ctx with computed := batch.entries }

/-- `llama_decode` asserts that too, and refuses positions that do not follow the cached ones or do not fit the
context. -/
def decode (model : LlamaModel T V D) (ctx : LlamaContext T) (batch : LlamaBatch T) : Called (LlamaContext T) :=
  if batch.entries.isEmpty then .error emptyBatch
  else if ctx.params.nBatch < batch.entries.length ∨ ctx.params.nUbatch < batch.entries.length then .abort
  else if batch.entries.map BatchEntry.pos ≠ List.range' ctx.cached.length batch.entries.length then
    .error ["positions not consecutive"]
  else if ctx.params.nCtx < ctx.cached.length + batch.entries.length then .error ["no slot in the KV cache"]
  else do
    Called.lift (model.run (ctx.cached ++ batch.tokens))
    return { ctx with cached := ctx.cached ++ batch.tokens, computed := batch.entries }

/-- The tokens that were marked as outputs are the ones that are pooled. -/
def embeddingsSeqIth (model : LlamaModel T V D) (ctx : LlamaContext T) : Called (List V) :=
  .lift (model.embeddingsSeqIth ((ctx.computed.filter BatchEntry.logits).map BatchEntry.token))

/-- The logits of a token that was not marked are not there to sample from. -/
def sample (model : LlamaModel T V D) (ctx : LlamaContext T) (index : Nat) : Called T :=
  if (ctx.computed[index]?).any BatchEntry.logits then .ok (model.sample ctx.cached) else .abort

end LlamaContext

/-! ### The backend -/

def embedDim : Nat := 768
def embedContextSize : Nat := 2048
def embedTokenMargin : Nat := 4
def maxExpansionTokens : Nat := 256
def embeddinggemmaPassageText : String := "title: none | text: "
def embeddinggemmaQueryText : String := "task: search result | query: "

/-- The backend with what its models answer. `ensure` loads a model unless it is resident; a context is made or not. -/
structure LlamaCppBackend (T V D : Type) where
  ensureEmbed : Except ErrorChain (LlamaModel T V D)
  ensureRerank : Except ErrorChain (LlamaModel T V D)
  ensureGenerate : Except ErrorChain (LlamaModel T V D)
  newContext : LlamaContextParams → Except ErrorChain Unit
  embedModelName : String
  rerankNCtx : Nat
  generateNCtx : Nat
  l2Normalize : List V → List V
  negInfinity : V

namespace LlamaCppBackend

variable (backend : LlamaCppBackend T V D)

def embedCtxParams : LlamaContextParams := ⟨embedContextSize, embedContextSize, embedContextSize⟩

def rerankCtxParams : LlamaContextParams := ⟨backend.rerankNCtx, backend.rerankNCtx, backend.rerankNCtx⟩

def generateCtxParams : LlamaContextParams := ⟨backend.generateNCtx, backend.generateNCtx, backend.generateNCtx⟩

def openContext (what : String) (params : LlamaContextParams) : Called (LlamaContext T) := do
  (Called.lift (backend.newContext params)).context what
  return ⟨params, [], []⟩

/-- The round of `embed_texts` for a text, in the context that the texts share. -/
def embedOne (model : LlamaModel T V D) (ctx : LlamaContext T) (text : String) :
    Called (List V × LlamaContext T) := do
  let tokens ← (Called.lift (model.strToToken text)).context "embed tokenization"
  let tokens := tokens.take (embedContextSize - embedTokenMargin)
  let batch ← Called.lift ((LlamaBatch.new (max tokens.length 1)).addSequence tokens true)
  let ctx ← (ctx.encode model batch).context "encode"
  let emb ← (ctx.embeddingsSeqIth model).context "embedding extract"
  if emb.length = embedDim then return (backend.l2Normalize emb, ctx)
  else .error ["embed model " ++ backend.embedModelName ++ " returned " ++ toString emb.length ++
    "-dim vectors; index expects " ++ toString embedDim]

def embedFrom (model : LlamaModel T V D) : LlamaContext T → List String → Called (List (List V))
  | _, [] => .ok []
  | ctx, text :: rest => do
    let (vector, ctx) ← backend.embedOne model ctx text
    let vectors ← embedFrom model ctx rest
    return vector :: vectors

def embedTexts (texts : List String) : Called (List (List V)) :=
  if texts.isEmpty then .ok []
  else do
    let model ← Called.lift backend.ensureEmbed
    let ctx ← backend.openContext "embed context" embedCtxParams
    backend.embedFrom model ctx texts

def embed (text : String) : Called (List V) := do
  let vectors ← backend.embedTexts [text]
  match vectors.getLast? with
  | some vector => return vector
  | none => .error ["embed returned no vector"]

def embedBatch (texts : List String) : Called (List (List V)) := backend.embedTexts texts

def embedBatchPassage (texts : List String) : Called (List (List V)) :=
  backend.embedTexts (texts.map (embeddinggemmaPassageText ++ ·))

def embedQuery (text : String) : Called (List V) := backend.embed (embeddinggemmaQueryText ++ text)

def embedPassage (text : String) : Called (List V) := backend.embed (embeddinggemmaPassageText ++ text)

/-- One pair of `rerank_until`, in a context of its own. -/
def rerankOne (model : LlamaModel T V D) (query doc : String) : Called V := do
  let ctx ← backend.openContext "rerank context" backend.rerankCtxParams
  let input := "Query: " ++ query ++ "\nDocument: " ++ doc
  let tokens ← (Called.lift (model.strToToken input)).context "rerank tokenization"
  let tokens := tokens.take (backend.rerankNCtx - embedTokenMargin)
  let batch ← Called.lift ((LlamaBatch.new (max tokens.length 1)).addSequence tokens true)
  let ctx ← (ctx.decode model batch).context "rerank decode"
  let scores ← (ctx.embeddingsSeqIth model).context "rerank score extract"
  return scores.headD backend.negInfinity

/-- `expired` is what the caller's poll answers the first, the second time and so on. -/
def rerankFrom (model : LlamaModel T V D) (query : String) (expired : Nat → Bool) :
    Nat → List String → Called (Option (List V))
  | _, [] => .ok (some [])
  | poll, doc :: rest =>
    if expired poll then .ok none
    else do
      let score ← backend.rerankOne model query doc
      let scores ← rerankFrom model query expired (poll + 1) rest
      return scores.map (score :: ·)

def rerankUntil (query : String) (docs : List String) (expired : Nat → Bool) : Called (Option (List V)) := do
  let model ← Called.lift backend.ensureRerank
  backend.rerankFrom model query expired 0 docs

def rerank (query : String) (docs : List String) : Called (List V) := do
  let scores ← backend.rerankUntil query docs fun _ => false
  match scores with
  | some scores => return scores
  | none => .error ["rerank stopped early"]

/-- `split_once` by a text: what follows its first occurrence. -/
def afterFirst (needle : List Char) : List Char → Option (List Char)
  | [] => if needle.isEmpty then some [] else none
  | c :: rest => if needle.isPrefixOf (c :: rest) then some ((c :: rest).drop needle.length) else afterFirst needle rest

def hydeExpansionComplete (out : String) : Bool :=
  match afterFirst "hyde:".toList out.toList with
  | some tail => tail.contains '\n'
  | none => false

/-- The tokens of the prompt at their positions, with logits for the last. -/
def buildPromptBatch (tokens : List T) : Except ErrorChain (LlamaBatch T) :=
  context "batch add (prompt)" ((LlamaBatch.new (max tokens.length 1)).addFrom false 0 tokens)

/-- The loop of `generate`, with the number of rounds left and the round. -/
def generateFrom (model : LlamaModel T V D) (nPrompt : Nat) :
    Nat → Nat → LlamaContext T → LlamaBatch T → D → String → Called String
  | 0, _, _, _, _, out => .ok out
  | left + 1, step, ctx, batch, decoder, out => do
    let nCur := nPrompt + step
    let batchLast := batch.entries.length - 1
    let tok ← ctx.sample model batchLast
    if model.isEogToken tok then return out
    let (piece, decoder) ← (Called.lift (model.tokenToPiece decoder tok)).context "token_to_piece"
    let out := out ++ piece
    if hydeExpansionComplete out then return out
    let batch ← (Called.lift (batch.clear.add tok nCur true)).context "batch add (decode)"
    let ctx ← (ctx.decode model batch).context "generate token decode"
    generateFrom model nPrompt left (step + 1) ctx batch decoder out

def generate (prompt : String) : Called String := do
  let promptTokenEstimate := prompt.utf8ByteSize / 3
  if backend.generateNCtx < promptTokenEstimate + maxExpansionTokens then
    Called.error ["expansion prompt too long (" ++ toString promptTokenEstimate ++ " estimated tokens, ctx=" ++
      toString backend.generateNCtx ++ ")"]
  else
    let model ← Called.lift backend.ensureGenerate
    let ctx ← backend.openContext "generate context" backend.generateCtxParams
    let tokens ← (Called.lift (model.strToToken prompt)).context "generate tokenization"
    let nPrompt := tokens.length
    if backend.generateNCtx < nPrompt + maxExpansionTokens then
      Called.error ["expansion prompt too long after tokenization (" ++ toString nPrompt ++ " tokens, ctx=" ++
        toString backend.generateNCtx ++ ")"]
    else
      let batch ← Called.lift (buildPromptBatch tokens)
      let ctx ← (ctx.decode model batch).context "generate prompt decode"
      generateFrom model nPrompt maxExpansionTokens 0 ctx batch model.newDecoder ""

end LlamaCppBackend

/-! ### Batches -/

namespace LlamaBatch

def entriesFrom (logitsAll : Bool) : Nat → List T → List (BatchEntry T)
  | _, [] => []
  | pos, token :: rest => ⟨token, pos, logitsAll || rest.isEmpty⟩ :: entriesFrom logitsAll (pos + 1) rest

variable {logitsAll : Bool} {pos : Nat} {tokens : List T} {batch : LlamaBatch T}

@[simp] theorem entriesFrom_tokens : (entriesFrom logitsAll pos tokens).map BatchEntry.token = tokens := by
  induction tokens generalizing pos with
  | nil => rfl
  | cons token rest ih => rw [entriesFrom, List.map_cons, ih]

@[simp] theorem entriesFrom_length : (entriesFrom logitsAll pos tokens).length = tokens.length := by
  have same := congrArg List.length (@entriesFrom_tokens T logitsAll pos tokens)
  rwa [List.length_map] at same

theorem entriesFrom_outputs :
    (entriesFrom true pos tokens).filter BatchEntry.logits = entriesFrom true pos tokens := by
  induction tokens generalizing pos with
  | nil => rfl
  | cons token rest ih =>
    have marked : (⟨token, pos, true || rest.isEmpty⟩ : BatchEntry T).logits = true := rfl
    rw [entriesFrom, List.filter_cons_of_pos marked, ih]

theorem entriesFrom_last (some : tokens ≠ []) :
    ((entriesFrom logitsAll pos tokens)[tokens.length - 1]?).any BatchEntry.logits = true := by
  induction tokens generalizing pos with
  | nil => exact absurd rfl some
  | cons token rest ih =>
    cases rest with
    | nil => exact Bool.or_true logitsAll
    | cons next others =>
      have there := @ih (pos + 1) (List.cons_ne_nil _ _)
      rw [entriesFrom, List.length_cons, Nat.add_sub_cancel, List.length_cons, List.getElem?_cons_succ]
      exact there

theorem entriesFrom_positions :
    (entriesFrom logitsAll pos tokens).map BatchEntry.pos = List.range' pos tokens.length := by
  induction tokens generalizing pos with
  | nil => rfl
  | cons token rest ih => rw [entriesFrom, List.map_cons, ih, List.length_cons, List.range'_succ]

theorem addFrom_fits (fits : batch.entries.length + tokens.length ≤ batch.allocated) :
    batch.addFrom logitsAll pos tokens =
      .ok { batch with entries := batch.entries ++ entriesFrom logitsAll pos tokens } := by
  induction tokens generalizing batch pos with
  | nil => rw [addFrom, entriesFrom, List.append_nil]
  | cons token rest ih =>
    rw [List.length_cons] at fits
    have room : ¬batch.allocated < batch.entries.length + 1 := by omega
    have more : (batch.entries ++ [(⟨token, pos, logitsAll || rest.isEmpty⟩ : BatchEntry T)]).length + rest.length ≤
        batch.allocated := by
      rw [List.length_append, List.length_singleton]
      omega
    unfold addFrom add
    rw [if_neg room]
    refine (@ih (pos + 1)
      { batch with entries := batch.entries ++ [⟨token, pos, logitsAll || rest.isEmpty⟩] } more).trans ?_
    rw [entriesFrom, List.append_assoc, List.singleton_append]

/-- A batch that is made for a text holds it. -/
theorem new_addFrom : (new (max tokens.length 1)).addFrom logitsAll 0 tokens =
    .ok ⟨max tokens.length 1, entriesFrom logitsAll 0 tokens⟩ := by
  have fits : (new (max tokens.length 1) : LlamaBatch T).entries.length + tokens.length ≤ max tokens.length 1 := by
    change 0 + tokens.length ≤ _
    omega
  rw [addFrom_fits fits]
  rfl

end LlamaBatch

namespace LlamaContext

variable {model : LlamaModel T V D} {ctx : LlamaContext T} {batch : LlamaBatch T} {tokens : List T}

theorem isEmpty_entries {logitsAll : Bool} {pos : Nat} :
    (LlamaBatch.entriesFrom logitsAll pos tokens).isEmpty = tokens.isEmpty := by
  cases tokens <;> rfl

/-- What computing a sequence comes to: only an empty one is refused. -/
def runOf (model : LlamaModel T V D) (seen tokens : List T) : Except ErrorChain Unit :=
  if tokens.isEmpty then .error emptyBatch else model.run (seen ++ tokens)

/-- A batch that fits is computed. -/
theorem encode_fits {allocated : Nat} {logitsAll : Bool} (fits : tokens.length ≤ ctx.params.nUbatch) :
    ctx.encode model ⟨allocated, LlamaBatch.entriesFrom logitsAll 0 tokens⟩ =
      Called.lift (runOf model [] tokens) >>= fun _ =>
        .ok { ctx with computed := LlamaBatch.entriesFrom logitsAll 0 tokens } := by
  unfold encode runOf
  rw [isEmpty_entries, LlamaBatch.entriesFrom_length, LlamaBatch.tokens, LlamaBatch.entriesFrom_tokens]
  by_cases empty : tokens.isEmpty = true
  · rw [if_pos empty, if_pos empty]
    rfl
  · rw [if_neg empty, if_neg empty, if_neg (Nat.not_lt.mpr fits)]
    rfl

/-- A batch that goes on where the cache ends is computed. -/
theorem decode_fits {allocated : Nat} {logitsAll : Bool} (nBatch : tokens.length ≤ ctx.params.nBatch)
    (nUbatch : tokens.length ≤ ctx.params.nUbatch) (nCtx : ctx.cached.length + tokens.length ≤ ctx.params.nCtx) :
    ctx.decode model ⟨allocated, LlamaBatch.entriesFrom logitsAll ctx.cached.length tokens⟩ =
      Called.lift (runOf model ctx.cached tokens) >>= fun _ =>
        .ok { ctx with cached := ctx.cached ++ tokens,
                       computed := LlamaBatch.entriesFrom logitsAll ctx.cached.length tokens } := by
  have one : ¬(ctx.params.nBatch < tokens.length ∨ ctx.params.nUbatch < tokens.length) := by omega
  unfold decode runOf
  rw [isEmpty_entries, LlamaBatch.entriesFrom_length, LlamaBatch.tokens, LlamaBatch.entriesFrom_tokens,
    LlamaBatch.entriesFrom_positions]
  by_cases empty : tokens.isEmpty = true
  · rw [if_pos empty, if_pos empty]
    rfl
  · rw [if_neg empty, if_neg empty, if_neg one, if_neg (not_not.mpr rfl), if_neg (Nat.not_lt.mpr nCtx)]
    rfl

theorem pooled {params : LlamaContextParams} {cached : List T} {pos : Nat} :
    embeddingsSeqIth model ⟨params, cached, LlamaBatch.entriesFrom true pos tokens⟩ =
      .lift (model.embeddingsSeqIth tokens) := by
  unfold embeddingsSeqIth
  rw [LlamaBatch.entriesFrom_outputs, LlamaBatch.entriesFrom_tokens]

end LlamaContext

/-! ### What the calls come to -/

namespace LlamaCppBackend

variable (backend : LlamaCppBackend T V D)

/-- The vector of a text: of as many of its tokens as fit. -/
def embedding (model : LlamaModel T V D) (text : String) : Except ErrorChain (List V) := do
  let tokens ← context "embed tokenization" (model.strToToken text)
  let tokens := tokens.take (embedContextSize - embedTokenMargin)
  context "encode" (LlamaContext.runOf model [] tokens)
  let emb ← context "embedding extract" (model.embeddingsSeqIth tokens)
  if emb.length = embedDim then return backend.l2Normalize emb
  else .error ["embed model " ++ backend.embedModelName ++ " returned " ++ toString emb.length ++
    "-dim vectors; index expects " ++ toString embedDim]

/-- What embedding anything needs first. -/
def embedder : Except ErrorChain (LlamaModel T V D) := do
  let model ← backend.ensureEmbed
  context "embed context" (backend.newContext embedCtxParams)
  return model

def embedded (text : String) : Except ErrorChain (List V) := do
  let model ← backend.embedder
  backend.embedding model text

/-- The score of a pair, whatever is scored besides. -/
def score (model : LlamaModel T V D) (query doc : String) : Except ErrorChain V := do
  context "rerank context" (backend.newContext backend.rerankCtxParams)
  let tokens ← context "rerank tokenization" (model.strToToken ("Query: " ++ query ++ "\nDocument: " ++ doc))
  let tokens := tokens.take (backend.rerankNCtx - embedTokenMargin)
  context "rerank decode" (LlamaContext.runOf model [] tokens)
  let scores ← context "rerank score extract" (model.embeddingsSeqIth tokens)
  return scores.headD backend.negInfinity

/-- The scores of the pairs, each for itself. -/
def scores (query : String) (docs : List String) : Except ErrorChain (List V) := do
  let model ← backend.ensureRerank
  docs.mapM (backend.score model query)

/-- How the model goes on with what it has seen, for at most so many tokens. -/
def continued (model : LlamaModel T V D) : Nat → List T → D → String → Except ErrorChain String
  | 0, _, _, out => .ok out
  | left + 1, seen, decoder, out => do
    let tok := model.sample seen
    if model.isEogToken tok then return out
    let (piece, decoder) ← context "token_to_piece" (model.tokenToPiece decoder tok)
    let out := out ++ piece
    if hydeExpansionComplete out then return out
    context "generate token decode" (model.run (seen ++ [tok]))
    continued model left (seen ++ [tok]) decoder out

def generated (prompt : String) : Except ErrorChain String := do
  let promptTokenEstimate := prompt.utf8ByteSize / 3
  if backend.generateNCtx < promptTokenEstimate + maxExpansionTokens then
    Except.error ["expansion prompt too long (" ++ toString promptTokenEstimate ++ " estimated tokens, ctx=" ++
      toString backend.generateNCtx ++ ")"]
  else
    let model ← backend.ensureGenerate
    context "generate context" (backend.newContext backend.generateCtxParams)
    let tokens ← context "generate tokenization" (model.strToToken prompt)
    if backend.generateNCtx < tokens.length + maxExpansionTokens then
      Except.error ["expansion prompt too long after tokenization (" ++ toString tokens.length ++ " tokens, ctx=" ++
        toString backend.generateNCtx ++ ")"]
    else
      context "generate prompt decode" (LlamaContext.runOf model [] tokens)
      continued model maxExpansionTokens tokens model.newDecoder ""

variable {backend} {model : LlamaModel T V D}

/-! ### Embeddings -/

/-- A text fails as it does alone, or gets its own vector, whatever the context served before. -/
theorem embedOne_cases {ctx : LlamaContext T} (fits : embedContextSize ≤ ctx.params.nUbatch) (text : String) :
    (∃ cause, backend.embedding model text = .error cause ∧ backend.embedOne model ctx text = .error cause) ∨
    ∃ vector ctx', backend.embedding model text = .ok vector ∧ backend.embedOne model ctx text = .ok (vector, ctx') ∧
      ctx'.params = ctx.params := by
  unfold embedOne embedding
  cases model.strToToken text with
  | error cause => exact Or.inl ⟨_, rfl, rfl⟩
  | ok all =>
    have short : (all.take (embedContextSize - embedTokenMargin)).length ≤ ctx.params.nUbatch :=
      Nat.le_trans (List.length_take_le _ _) (Nat.le_trans (Nat.sub_le _ _) fits)
    simp only [Called.lift_ok, Called.context_ok, Called.ok_bind, LlamaBatch.addSequence, LlamaBatch.new_addFrom,
      LlamaContext.encode_fits short, context, except_ok_bind]
    cases LlamaContext.runOf model [] (all.take (embedContextSize - embedTokenMargin)) with
    | error cause => exact Or.inl ⟨_, rfl, rfl⟩
    | ok done =>
      simp only [Called.lift_ok, Called.context_ok, Called.ok_bind, LlamaContext.pooled, except_ok_bind]
      cases model.embeddingsSeqIth (all.take (embedContextSize - embedTokenMargin)) with
      | error cause => exact Or.inl ⟨_, rfl, rfl⟩
      | ok emb =>
        by_cases dim : emb.length = embedDim
        · have after : { ctx with
              computed := LlamaBatch.entriesFrom true 0 (all.take (embedContextSize - embedTokenMargin)) }.params =
                ctx.params := rfl
          exact Or.inr ⟨_, _, if_pos dim, if_pos dim, after⟩
        · exact Or.inl ⟨_, if_neg dim, if_neg dim⟩

theorem embedFrom_eq {ctx : LlamaContext T} (fits : embedContextSize ≤ ctx.params.nUbatch) (texts : List String) :
    backend.embedFrom model ctx texts = .lift (texts.mapM (backend.embedding model)) := by
  induction texts generalizing ctx with
  | nil => rfl
  | cons text rest ih =>
    rw [List.mapM_cons, Called.lift_bind]
    unfold embedFrom
    rcases @embedOne_cases T V D backend model ctx fits text with
      ⟨cause, alone, fails⟩ | ⟨vector, ctx', alone, gives, kept⟩
    · rw [alone, fails]
      rfl
    · have fits' : embedContextSize ≤ ctx'.params.nUbatch := kept.symm ▸ fits
      rw [alone, gives, Called.lift_ok, Called.ok_bind, Called.ok_bind, Called.lift_bind, ← ih fits']
      rfl

theorem openContext_bind {β : Type} {what : String} {params : LlamaContextParams}
    {next : LlamaContext T → Called β} :
    (backend.openContext what params >>= next) =
      Called.lift (context what (backend.newContext params)) >>= fun _ => next ⟨params, [], []⟩ := by
  rw [lift_context, openContext, bind_assoc]
  rfl

theorem embedTexts_eq (texts : List String) : backend.embedTexts texts =
    if texts.isEmpty then .ok []
    else Called.lift (backend.embedder >>= fun model => texts.mapM (backend.embedding model)) := by
  unfold embedTexts embedder
  by_cases none : texts.isEmpty = true
  · rw [if_pos none, if_pos none]
  · rw [if_neg none, if_neg none, bind_assoc, Called.lift_bind]
    apply bind_congr
    intro model
    rw [openContext_bind, bind_assoc, Called.lift_bind]
    apply bind_congr
    intro made
    exact embedFrom_eq (Nat.le_refl embedContextSize) texts

theorem embed_eq (text : String) : backend.embed text = .lift (backend.embedded text) := by
  unfold embed embedded
  rw [embedTexts_eq, if_neg (show ¬[text].isEmpty = true from Bool.false_ne_true)]
  cases backend.embedder with
  | error cause => rfl
  | ok model =>
    rw [except_ok_bind, except_ok_bind, List.mapM_cons]
    cases backend.embedding model text with
    | error cause => rfl
    | ok vector => rfl

theorem mapM_lift {α β : Type} (f : α → Except ErrorChain β) (items : List α) :
    items.mapM (fun item => Called.lift (f item)) = Called.lift (items.mapM f) := by
  induction items with
  | nil => rfl
  | cons item rest ih =>
    rw [List.mapM_cons, List.mapM_cons, Called.lift_bind, ih]
    apply bind_congr
    intro value
    rw [Called.lift_bind]
    rfl

/-- The batched call does what the calls one by one do, up to the first that fails. -/
theorem embedTexts_one_by_one (texts : List String) : backend.embedTexts texts = texts.mapM backend.embed := by
  have each : backend.embed = fun text => Called.lift (backend.embedded text) := funext embed_eq
  rw [embedTexts_eq, each, mapM_lift]
  cases texts with
  | nil => rfl
  | cons text rest =>
    rw [if_neg (show ¬(text :: rest).isEmpty = true from Bool.false_ne_true)]
    have same : (backend.embedder >>= fun model => (text :: rest).mapM (backend.embedding model)) =
        (text :: rest).mapM backend.embedded := by
      unfold embedded
      cases backend.embedder with
      | error cause => rw [List.mapM_cons]; rfl
      | ok model => rfl
    rw [same]

/-! ### Scores -/

theorem rerankOne_eq (query doc : String) :
    backend.rerankOne model query doc = .lift (backend.score model query doc) := by
  unfold rerankOne score
  rw [openContext_bind, Called.lift_bind]
  apply bind_congr
  intro made
  dsimp only
  cases model.strToToken ("Query: " ++ query ++ "\nDocument: " ++ doc) with
  | error cause => rfl
  | ok all =>
    have short : (all.take (backend.rerankNCtx - embedTokenMargin)).length ≤ backend.rerankNCtx :=
      Nat.le_trans (List.length_take_le _ _) (Nat.sub_le _ _)
    have alone : ([] : List T).length + (all.take (backend.rerankNCtx - embedTokenMargin)).length ≤
        backend.rerankNCtx := by
      rw [List.length_nil, Nat.zero_add]
      exact short
    have decoded := @LlamaContext.decode_fits T V D model ⟨backend.rerankCtxParams, [], []⟩
      (all.take (backend.rerankNCtx - embedTokenMargin))
      (max (all.take (backend.rerankNCtx - embedTokenMargin)).length 1) true short short alone
    rw [List.length_nil] at decoded
    simp only [Called.lift_ok, Called.context_ok, Called.ok_bind, LlamaBatch.addSequence, LlamaBatch.new_addFrom,
      decoded, context, except_ok_bind]
    cases LlamaContext.runOf model [] (all.take (backend.rerankNCtx - embedTokenMargin)) with
    | error cause => rfl
    | ok done =>
      simp only [Called.lift_ok, Called.context_ok, Called.ok_bind, LlamaContext.pooled, except_ok_bind]
      cases model.embeddingsSeqIth (all.take (backend.rerankNCtx - embedTokenMargin)) <;> rfl

/-- Documents are scored until the poll before one of them says that the time is over. -/
theorem rerankFrom_eq {query : String} {expired : Nat → Bool} {docs : List String} {poll k : Nat}
    (enough : k ≤ docs.length) (before : ∀ i < k, expired (poll + i) = false)
    (stops : k < docs.length → expired (poll + k) = true) :
    backend.rerankFrom model query expired poll docs =
      Called.lift ((docs.take k).mapM (backend.score model query) >>= fun scores =>
        .ok (if k < docs.length then none else some scores)) := by
  induction docs generalizing poll k with
  | nil =>
    have zero : k = 0 := Nat.le_zero.mp enough
    subst zero
    rfl
  | cons doc rest ih =>
    unfold rerankFrom
    cases k with
    | zero =>
      have now : expired poll = true := stops (Nat.succ_pos _)
      rw [if_pos now]
      rfl
    | succ k =>
      have early : ¬expired poll = true := by
        rw [show expired poll = false from before 0 (Nat.succ_pos k)]
        exact Bool.false_ne_true
      have rests : backend.rerankFrom model query expired (poll + 1) rest =
          Called.lift ((rest.take k).mapM (backend.score model query) >>= fun scores =>
            .ok (if k < rest.length then none else some scores)) := by
        apply ih (Nat.le_of_succ_le_succ enough)
        · intro i less
          rw [Nat.add_assoc, Nat.add_comm 1]
          exact before (i + 1) (Nat.succ_lt_succ less)
        · intro less
          rw [Nat.add_assoc, Nat.add_comm 1]
          exact stops (Nat.succ_lt_succ less)
      rw [if_neg early, rerankOne_eq, rests, List.take_succ_cons, List.mapM_cons, List.length_cons]
      cases backend.score model query doc with
      | error cause => rfl
      | ok score =>
        simp only [Called.lift_ok, Called.ok_bind, except_ok_bind, Nat.succ_lt_succ_iff]
        cases (rest.take k).mapM (backend.score model query) with
        | error cause => rfl
        | ok scores =>
          change Called.ok ((if k < rest.length then none else some scores).map (score :: ·)) =
            Called.ok (if k < rest.length then none else some (score :: scores))
          rw [apply_ite (Option.map (score :: ·))]
          rfl

theorem rerankUntil_eq {query : String} {docs : List String} {expired : Nat → Bool} {k : Nat}
    (enough : k ≤ docs.length) (before : ∀ i < k, expired i = false) (stops : k < docs.length → expired k = true) :
    backend.rerankUntil query docs expired =
      Called.lift (backend.scores query (docs.take k) >>= fun scores =>
        .ok (if k < docs.length then none else some scores)) := by
  unfold rerankUntil scores
  rw [bind_assoc, Called.lift_bind]
  apply bind_congr
  intro model
  apply rerankFrom_eq enough
  · intro i less
    rw [Nat.zero_add]
    exact before i less
  · rwa [Nat.zero_add]

theorem rerank_eq (query : String) (docs : List String) :
    backend.rerank query docs = .lift (backend.scores query docs) := by
  have never : ∀ i < docs.length, (fun _ => false) i = false := fun _ _ => rfl
  have all := @rerankUntil_eq T V D backend query docs (fun _ => false) docs.length (Nat.le_refl _) never
    fun less => absurd less (Nat.lt_irrefl _)
  unfold rerank
  rw [all, List.take_length]
  cases backend.scores query docs with
  | error cause => rfl
  | ok scores =>
    change (Called.ok (if docs.length < docs.length then none else some scores) >>= _) = _
    rw [if_neg (Nat.lt_irrefl _)]
    rfl

/-! ### Generation -/

/-- Where the loop of `generate` stands: the cache has the prompt and what was generated, and there is room for the
rest. -/
structure Going (nPrompt left step : Nat) (ctx : LlamaContext T) (batch : LlamaBatch T) : Prop where
  position : nPrompt + step = ctx.cached.length
  room : ctx.cached.length + left ≤ ctx.params.nCtx
  nBatch : ctx.params.nCtx ≤ ctx.params.nBatch
  nUbatch : ctx.params.nCtx ≤ ctx.params.nUbatch
  space : 1 ≤ batch.allocated
  logits : (ctx.computed[batch.entries.length - 1]?).any BatchEntry.logits = true

theorem generateFrom_eq {nPrompt left step : Nat} {ctx : LlamaContext T} {batch : LlamaBatch T} {decoder : D}
    {out : String} (going : Going nPrompt left step ctx batch) :
    generateFrom model nPrompt left step ctx batch decoder out =
      .lift (continued model left ctx.cached decoder out) := by
  induction left generalizing step ctx batch decoder out with
  | zero => rfl
  | succ left ih =>
    have sampled : ctx.sample model (batch.entries.length - 1) = .ok (model.sample ctx.cached) := if_pos going.logits
    have room := going.room
    have nBatch := going.nBatch
    have nUbatch := going.nUbatch
    have space : ¬batch.allocated < 1 := Nat.not_lt.mpr going.space
    unfold generateFrom continued
    simp only [sampled, Called.ok_bind, going.position]
    by_cases eog : model.isEogToken (model.sample ctx.cached) = true
    · rw [if_pos eog, if_pos eog]
      rfl
    · rw [if_neg eog, if_neg eog, Called.lift_bind, lift_context]
      apply bind_congr
      rintro ⟨piece, decoder⟩
      by_cases complete : hydeExpansionComplete (out ++ piece) = true
      · simp only [if_pos complete]
        rfl
      · have added : (batch.clear.add (model.sample ctx.cached) ctx.cached.length true) =
            .ok ⟨batch.allocated, LlamaBatch.entriesFrom true ctx.cached.length [model.sample ctx.cached]⟩ :=
          if_neg space
        have decoded := @LlamaContext.decode_fits T V D model ctx [model.sample ctx.cached] batch.allocated true
          (show 1 ≤ _ by omega) (show 1 ≤ _ by omega) (show ctx.cached.length + 1 ≤ _ by omega)
        simp only [if_neg complete, added, decoded, Called.lift_ok, Called.context_ok, Called.ok_bind]
        rw [Called.lift_bind, lift_context]
        change (Called.context _ (Called.lift (model.run (ctx.cached ++ [model.sample ctx.cached])) >>= _) >>= _) = _
        cases model.run (ctx.cached ++ [model.sample ctx.cached]) with
        | error cause => rfl
        | ok done =>
          apply ih
          exact {
            position := by
              rw [List.length_append, List.length_singleton, ← going.position]
              rfl
            room := by
              rw [List.length_append, List.length_singleton]
              exact (show ctx.cached.length + 1 + left ≤ ctx.params.nCtx by omega)
            nBatch := nBatch
            nUbatch := nUbatch
            space := going.space
            logits := rfl }

/-- Prompt and continuation fit the context, or nothing is computed. -/
theorem generate_eq (prompt : String) : backend.generate prompt = .lift (backend.generated prompt) := by
  unfold generate generated
  dsimp only
  by_cases long : backend.generateNCtx < prompt.utf8ByteSize / 3 + maxExpansionTokens
  · rw [if_pos long, if_pos long]
    rfl
  · rw [if_neg long, if_neg long, Called.lift_bind]
    apply bind_congr
    intro model
    rw [openContext_bind, Called.lift_bind]
    apply bind_congr
    intro made
    rw [Called.lift_bind, lift_context]
    apply bind_congr
    intro tokens
    by_cases many : backend.generateNCtx < tokens.length + maxExpansionTokens
    · rw [if_pos many, if_pos many]
      rfl
    · have short : tokens.length ≤ backend.generateNCtx := by omega
      have alone : ([] : List T).length + tokens.length ≤ backend.generateNCtx := by
        rw [List.length_nil, Nat.zero_add]
        exact short
      have decoded := @LlamaContext.decode_fits T V D model ⟨backend.generateCtxParams, [], []⟩ tokens
        (max tokens.length 1) false short short alone
      rw [List.length_nil] at decoded
      rw [if_neg many, if_neg many, buildPromptBatch, LlamaBatch.new_addFrom]
      simp only [context, Called.lift_ok, Called.ok_bind, decoded]
      cases ran : LlamaContext.runOf model [] tokens with
      | error cause => rfl
      | ok done =>
        have some : tokens ≠ [] := by
          intro none
          rw [none] at ran
          cases ran
        have going : Going tokens.length maxExpansionTokens 0
            (⟨backend.generateCtxParams, tokens, LlamaBatch.entriesFrom false 0 tokens⟩ : LlamaContext T)
            ⟨max tokens.length 1, LlamaBatch.entriesFrom false 0 tokens⟩ := {
          position := Nat.add_zero _
          room := Nat.not_lt.mp many
          nBatch := Nat.le_refl _
          nUbatch := Nat.le_refl _
          space := Nat.le_max_right _ _
          logits := by
            rw [LlamaBatch.entriesFrom_length]
            exact LlamaBatch.entriesFrom_last some }
        exact generateFrom_eq going

/-- The tokens that the model picks one after the other after what it has seen. -/
def picked (model : LlamaModel T V D) : Nat → List T → List T
  | 0, _ => []
  | k + 1, seen => model.sample seen :: picked model k (seen ++ [model.sample seen])

def textOf (model : LlamaModel T V D) : D → List T → Except ErrorChain String
  | _, [] => .ok ""
  | decoder, token :: rest =>
    model.tokenToPiece decoder token >>= fun piece => textOf model piece.2 rest >>= fun text => .ok (piece.1 ++ text)

/-- A text ends after `k` tokens, none of which ends it: the room is used up, the model ends it, or the `hyde:` line is
complete, which it was not before. -/
structure Continuation (model : LlamaModel T V D) (left : Nat) (seen : List T) (decoder : D) (out result : String)
    (k : Nat) : Prop where
  few : k ≤ left
  text : ∃ text, textOf model decoder (picked model k seen) = .ok text ∧ result = out ++ text
  goesOn : ∀ token ∈ picked model k seen, model.isEogToken token = false
  before : ∀ i text, 0 < i → i < k → textOf model decoder (picked model i seen) = .ok text →
    hydeExpansionComplete (out ++ text) = false
  ends : k = left ∨ model.isEogToken (model.sample (seen ++ picked model k seen)) = true ∨
    0 < k ∧ hydeExpansionComplete result = true

theorem Continuation.none {left : Nat} {seen : List T} {decoder : D} {out : String}
    (ends : 0 = left ∨ model.isEogToken (model.sample seen) = true) :
    Continuation model left seen decoder out out 0 where
  few := Nat.zero_le left
  text := ⟨"", rfl, String.append_empty.symm⟩
  goesOn := fun _ listed => absurd listed List.not_mem_nil
  before := fun _ _ _ less => absurd less (Nat.not_lt_zero _)
  ends := by
    rw [picked, List.append_nil]
    exact ends.imp_right Or.inl

theorem Continuation.one {left : Nat} {seen : List T} {decoder decoder' : D} {out piece : String}
    (goes : model.isEogToken (model.sample seen) = false)
    (decodes : model.tokenToPiece decoder (model.sample seen) = .ok (piece, decoder'))
    (complete : hydeExpansionComplete (out ++ piece) = true) :
    Continuation model (left + 1) seen decoder out (out ++ piece) 1 where
  few := Nat.succ_le_succ (Nat.zero_le left)
  text := by
    refine ⟨piece, ?_, rfl⟩
    rw [picked, picked, textOf, decodes]
    exact congrArg Except.ok String.append_empty
  goesOn := by
    intro token listed
    rwa [List.mem_singleton.mp listed]
  before := fun i _ some less => absurd less (by omega)
  ends := Or.inr (Or.inr ⟨Nat.one_pos, complete⟩)

theorem Continuation.cons {left k : Nat} {seen : List T} {decoder decoder' : D} {out piece result : String}
    (goes : model.isEogToken (model.sample seen) = false)
    (decodes : model.tokenToPiece decoder (model.sample seen) = .ok (piece, decoder'))
    (incomplete : hydeExpansionComplete (out ++ piece) = false)
    (rest : Continuation model left (seen ++ [model.sample seen]) decoder' (out ++ piece) result k) :
    Continuation model (left + 1) seen decoder out result (k + 1) where
  few := Nat.succ_le_succ rest.few
  text := by
    obtain ⟨text, reads, same⟩ := rest.text
    refine ⟨piece ++ text, ?_, ?_⟩
    · rw [picked, textOf, decodes, except_ok_bind, reads]
      rfl
    · rw [same, String.append_assoc]
  goesOn := by
    intro token listed
    rcases List.mem_cons.mp listed with first | later
    · rwa [first]
    · exact rest.goesOn token later
  before := by
    intro i text some less reads
    cases i with
    | zero => exact absurd some (Nat.lt_irrefl 0)
    | succ i =>
      rw [picked, textOf, decodes, except_ok_bind] at reads
      cases read : textOf model decoder' (picked model i (seen ++ [model.sample seen])) with
      | error cause =>
        rw [read] at reads
        cases reads
      | ok later =>
        rw [read, except_ok_bind] at reads
        have same : piece ++ later = text := Except.ok.inj reads
        rw [← same, ← String.append_assoc]
        cases i with
        | zero =>
          have empty : "" = later := Except.ok.inj read
          rw [← empty, String.append_empty]
          exact incomplete
        | succ i => exact rest.before (i + 1) later (Nat.succ_pos i) (Nat.lt_of_succ_lt_succ less) read
  ends := by
    have along : seen ++ picked model (k + 1) seen =
        seen ++ [model.sample seen] ++ picked model k (seen ++ [model.sample seen]) := by
      rw [picked, List.append_assoc, List.singleton_append]
    rw [along]
    rcases rest.ends with full | stopped | ⟨some, complete⟩
    · exact Or.inl (congrArg Nat.succ full)
    · exact Or.inr (Or.inl stopped)
    · exact Or.inr (Or.inr ⟨Nat.succ_pos k, complete⟩)

theorem continued_ok {left : Nat} {seen : List T} {decoder : D} {out result : String}
    (done : continued model left seen decoder out = .ok result) :
    ∃ k, Continuation model left seen decoder out result k := by
  induction left generalizing seen decoder out with
  | zero =>
    have same : out = result := Except.ok.inj done
    subst same
    exact ⟨0, Continuation.none (Or.inl rfl)⟩
  | succ left ih =>
    unfold continued at done
    dsimp only at done
    by_cases eog : model.isEogToken (model.sample seen) = true
    · rw [if_pos eog] at done
      have same : out = result := Except.ok.inj done
      subst same
      exact ⟨0, Continuation.none (Or.inr eog)⟩
    · have goes : model.isEogToken (model.sample seen) = false := Bool.eq_false_iff.mpr eog
      rw [if_neg eog] at done
      cases decodes : model.tokenToPiece decoder (model.sample seen) with
      | error cause =>
        rw [decodes] at done
        cases done
      | ok pair =>
        obtain ⟨piece, decoder'⟩ := pair
        simp only [decodes, context, except_ok_bind] at done
        by_cases complete : hydeExpansionComplete (out ++ piece) = true
        · rw [if_pos complete] at done
          have same : out ++ piece = result := Except.ok.inj done
          subst same
          exact ⟨1, Continuation.one goes decodes complete⟩
        · rw [if_neg complete] at done
          cases ran : model.run (seen ++ [model.sample seen]) with
          | error cause =>
            rw [ran] at done
            cases done
          | ok computed =>
            simp only [ran, except_ok_bind] at done
            obtain ⟨k, rest⟩ := ih done
            exact ⟨k + 1, Continuation.cons goes decodes (Bool.eq_false_iff.mpr complete) rest⟩

/-! ### The calls -/

/-- How many of `n` documents come before the first poll that says that the time is over. -/
def scoredBefore (expired : Nat → Bool) (n : Nat) : Nat := (List.range n).findIdx expired

theorem rerankUntil_cut (query : String) (docs : List String) (expired : Nat → Bool) :
    backend.rerankUntil query docs expired =
      Called.lift (backend.scores query (docs.take (scoredBefore expired docs.length)) >>= fun scores =>
        .ok (if scoredBefore expired docs.length < docs.length then none else some scores)) := by
  have most : scoredBefore expired docs.length ≤ (List.range docs.length).length := List.findIdx_le_length
  rw [List.length_range] at most
  apply rerankUntil_eq most
  · intro i less
    have not := List.not_of_lt_findIdx less
    rw [List.getElem_range] at not
    exact not
  · intro less
    have found := @List.findIdx_getElem Nat expired (List.range docs.length) (by rwa [List.length_range])
    rwa [List.getElem_range] at found

theorem generate_ok {prompt result : String} (done : backend.generate prompt = .ok result) :
    ∃ model tokens k, backend.ensureGenerate = .ok model ∧ model.strToToken prompt = .ok tokens ∧
      tokens.length + maxExpansionTokens ≤ backend.generateNCtx ∧
      Continuation model maxExpansionTokens tokens model.newDecoder "" result k := by
  rw [generate_eq, generated] at done
  by_cases long : backend.generateNCtx < prompt.utf8ByteSize / 3 + maxExpansionTokens
  · rw [if_pos long] at done
    cases done
  · rw [if_neg long] at done
    cases ensured : backend.ensureGenerate with
    | error cause =>
      rw [ensured] at done
      cases done
    | ok model =>
      rw [ensured, except_ok_bind] at done
      cases made : backend.newContext backend.generateCtxParams with
      | error cause =>
        rw [made] at done
        cases done
      | ok opened =>
        cases read : model.strToToken prompt with
        | error cause =>
          rw [made, read] at done
          cases done
        | ok tokens =>
          simp only [made, read, context, except_ok_bind] at done
          by_cases many : backend.generateNCtx < tokens.length + maxExpansionTokens
          · rw [if_pos many] at done
            cases done
          · rw [if_neg many] at done
            cases ran : LlamaContext.runOf model [] tokens with
            | error cause =>
              rw [ran] at done
              cases done
            | ok computed =>
              rw [ran] at done
              change Called.lift (continued model maxExpansionTokens tokens model.newDecoder "") = .ok result at done
              cases text : continued model maxExpansionTokens tokens model.newDecoder "" with
              | error cause =>
                rw [text] at done
                cases done
              | ok out =>
                rw [text] at done
                have same : out = result := Called.ok.inj done
                subst same
                obtain ⟨k, continuation⟩ := continued_ok text
                exact ⟨model, tokens, k, rfl, read, Nat.not_lt.mp many, continuation⟩

/-- A model of characters that writes an answer after a prompt of one. -/
def charModel : LlamaModel Char Nat Unit where
  strToToken text := .ok text.toList
  run _ := .ok ()
  embeddingsSeqIth tokens := .ok (List.replicate embedDim tokens.length)
  sample seen := "hyde:a\nand more".toList.getD (seen.length - 1) '.'
  isEogToken _ := false
  newDecoder := ()
  tokenToPiece _ token := .ok (token.toString, ())

def charBackend : LlamaCppBackend Char Nat Unit where
  ensureEmbed := .ok charModel
  ensureRerank := .ok charModel
  ensureGenerate := .ok charModel
  newContext _ := .ok ()
  embedModelName := "characters"
  rerankNCtx := 20
  generateNCtx := 300
  l2Normalize := id
  negInfinity := 0

example : charBackend.generate "q" = .ok "hyde:a\n" := by decide +kernel

example : charBackend.rerank "q" ["one", "a longer one"] = .ok [16, 16] := by decide +kernel

end LlamaCppBackend

end Rqmd.Llama
