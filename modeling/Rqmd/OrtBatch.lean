import Mathlib.Algebra.BigOperators.Group.List.Basic
import Mathlib.Algebra.Field.Rat
import Mathlib.Algebra.Order.Field.Basic
import Mathlib.Algebra.Order.Ring.Rat
import Mathlib.Tactic.NormNum
import Rqmd.Inference

/-! Embedding a batch with ONNX Runtime. The texts of a batch are padded to the longest of them and fed as flat arrays,
row after row; the attention mask tells the tokens from the padding, to the model and to the pooling of its answer. -/

namespace Rqmd.Ort
open Llama (Called)
open Models (ErrorChain)

structure Encoding where
  ids : List Nat
  attentionMask : List Nat
  typeIds : List Nat

/-- What a model is fed, in tensors of `batch` rows of `seqLen`. -/
structure Inputs where
  batch : Nat
  seqLen : Nat
  inputIds : List Nat
  attentionMask : List Nat
  tokenTypeIds : Option (List Nat)

/-- What a model gives: a vector for each row, or one for each place of each row. -/
structure Outputs (V : Type) where
  sentenceEmbedding : Nat → List V
  lastHiddenState : Nat → Nat → Nat → V

structure OrtBackend (V : Type) where
  encodeBatch : List String → Except String (List Encoding)
  run : Inputs → Except ErrorChain (Outputs V)
  embedDim : Nat
  hasTokenTypeIds : Bool
  hasSentenceEmbedding : Bool
  l2Normalize : List V → List V

/-- `flat[index] = value`, which panics out of bounds. -/
def write (flat : List Nat) (index value : Nat) : Called (List Nat) :=
  if index < flat.length then .ok (flat.set index value) else .abort

/-- Row `i` of a flat array from place `j` on. -/
def fillRow (seqLen i : Nat) : Nat → List Nat → List Nat → Called (List Nat)
  | _, [], flat => .ok flat
  | j, value :: rest, flat => do
    let flat ← write flat (i * seqLen + j) value
    fillRow seqLen i (j + 1) rest flat

def fillFrom (seqLen : Nat) (row : Encoding → List Nat) : Nat → List Encoding → List Nat → Called (List Nat)
  | _, [], flat => .ok flat
  | i, enc :: rest, flat => do
    let flat ← fillRow seqLen i 0 (row enc) flat
    fillFrom seqLen row (i + 1) rest flat

/-- `flat[start]`, `flat[start + 1]` and so on, which panics out of bounds. -/
def readRow (flat : List Nat) : Nat → Nat → Called (List Nat)
  | _, 0 => .ok []
  | start, count + 1 =>
    match flat[start]? with
    | some value => do
      let rest ← readRow flat (start + 1) count
      return value :: rest
    | none => .abort

def idsRow (enc : Encoding) : List Nat := (enc.ids.zip enc.attentionMask).map Prod.fst

def maskRow (enc : Encoding) : List Nat := (enc.ids.zip enc.attentionMask).map Prod.snd

section Pooling
variable {V : Type} [Field V] [LinearOrder V]

/-- What the places from `j` on add, each by its weight. -/
def poolFrom (hidden : Nat → Nat → V) : Nat → List V → List V → List V
  | _, [], pooled => pooled
  | j, w :: rest, pooled => poolFrom hidden (j + 1) rest (pooled.mapIdx fun k p => p + hidden j k * w)

/-- The mean over the places that the mask lets through. -/
def meanPool (hidden : Nat → Nat → V) (dim : Nat) (weights : List V) : List V :=
  (poolFrom hidden 0 weights (List.replicate dim 0)).map (· / max weights.sum 1)

namespace OrtBackend

variable (backend : OrtBackend V)

/-- A row of the batch from what the model gave. -/
def rowVector (outputs : Outputs V) (seqLen : Nat) (flatMask : List Nat) (i : Nat) : Called (List V) :=
  if backend.hasSentenceEmbedding then .ok (backend.l2Normalize (outputs.sentenceEmbedding i))
  else do
    let mask ← readRow flatMask (i * seqLen) seqLen
    let weights := mask.map fun bit : Nat => (bit : V)
    return backend.l2Normalize (meanPool (outputs.lastHiddenState i) backend.embedDim weights)

def runBatch (texts : List String) : Called (List (List V)) := do
  let batch := texts.length
  let encodings ← Called.lift ((backend.encodeBatch texts).mapError fun e => ["tokenize: " ++ e])
  let seqLen := (encodings.map fun enc => enc.ids.length).max?.getD 1
  let zeros := List.replicate (batch * seqLen) 0
  let flatIds ← fillFrom seqLen idsRow 0 encodings zeros
  let flatMask ← fillFrom seqLen maskRow 0 encodings zeros
  let flatType ← if backend.hasTokenTypeIds then fillFrom seqLen Encoding.typeIds 0 encodings zeros else .ok zeros
  let types := if backend.hasTokenTypeIds then some flatType else none
  let outputs ← (Called.lift (backend.run ⟨batch, seqLen, flatIds, flatMask, types⟩)).context "ORT inference"
  (List.range batch).mapM (backend.rowVector outputs seqLen flatMask)

def embed (text : String) : Called (List V) := do
  let vectors ← backend.runBatch [text]
  match vectors with
  | vector :: _ => return vector
  | [] => .abort

def embedBatch (texts : List String) : Called (List (List V)) := backend.runBatch texts

end OrtBackend

end Pooling

/-! ### Flat arrays -/

/-- Values written into room that was kept for them. -/
theorem fillRow_room {seqLen i j : Nat} {values front : List Nat} {room : Nat} (start : front.length = i * seqLen + j)
    (fits : values.length ≤ room) : fillRow seqLen i j values (front ++ List.replicate room 0) =
      .ok (front ++ values ++ List.replicate (room - values.length) 0) := by
  induction values generalizing j front room with
  | nil => rw [fillRow, List.append_nil, List.length_nil, Nat.sub_zero]
  | cons value rest ih =>
    obtain ⟨room, rfl⟩ : ∃ more, room = more + 1 := ⟨room - 1, by rw [List.length_cons] at fits; omega⟩
    have inside : i * seqLen + j < (front ++ List.replicate (room + 1) 0).length := by
      rw [List.length_append, List.length_replicate]
      omega
    have set : (front ++ List.replicate (room + 1) 0).set (i * seqLen + j) value =
        (front ++ [value]) ++ List.replicate room 0 := by
      rw [← start, List.set_append_right _ _ (Nat.le_refl _), Nat.sub_self, List.replicate_succ, List.set_cons_zero,
        List.append_assoc, List.singleton_append]
    have further : (front ++ [value]).length = i * seqLen + (j + 1) := by
      rw [List.length_append, start, List.length_singleton, Nat.add_assoc]
    unfold fillRow write
    rw [if_pos inside, Called.ok_bind, set, ih further (Nat.le_of_succ_le_succ fits), List.length_cons,
      List.append_assoc front, List.singleton_append, Nat.add_sub_add_right]

/-- Rows as long as the arrays are wide lie one after the other. -/
theorem fillFrom_rows {seqLen i : Nat} {row : Encoding → List Nat} {encodings : List Encoding} {front : List Nat}
    (start : front.length = i * seqLen) (wide : ∀ enc ∈ encodings, (row enc).length = seqLen) :
    fillFrom seqLen row i encodings (front ++ List.replicate (encodings.length * seqLen) 0) =
      .ok (front ++ encodings.flatMap row) := by
  induction encodings generalizing i front with
  | nil =>
    rw [fillFrom, List.length_nil, Nat.zero_mul]
    rfl
  | cons enc rest ih =>
    have width := wide enc List.mem_cons_self
    have fits : (row enc).length ≤ (enc :: rest).length * seqLen := by
      rw [width, List.length_cons, Nat.succ_mul]
      exact Nat.le_add_left _ _
    have left : (enc :: rest).length * seqLen - (row enc).length = rest.length * seqLen := by
      rw [width, List.length_cons, Nat.succ_mul, Nat.add_sub_cancel]
    have further : (front ++ row enc).length = (i + 1) * seqLen := by
      rw [List.length_append, start, width, Nat.succ_mul]
    unfold fillFrom
    rw [fillRow_room start fits, Called.ok_bind, left,
      ih further fun e listed => wide e (List.mem_cons_of_mem _ listed), List.flatMap_cons, List.append_assoc]

theorem readRow_inside {front row back : List Nat} :
    readRow (front ++ row ++ back) front.length row.length = .ok row := by
  induction row generalizing front with
  | nil => rfl
  | cons value rest ih =>
    have there : (front ++ value :: rest ++ back)[front.length]? = some value := by
      rw [List.append_assoc, List.getElem?_append_right (Nat.le_refl _), Nat.sub_self]
      rfl
    have next := @ih (front ++ [value])
    rw [List.length_append, List.length_singleton, List.append_assoc front, List.singleton_append] at next
    rw [List.length_cons]
    unfold readRow
    rw [there]
    change (readRow _ (front.length + 1) rest.length >>= _) = _
    rw [next]
    rfl

theorem flatMap_length {α : Type} {items : List α} {row : α → List Nat} {width : Nat}
    (wide : ∀ a ∈ items, (row a).length = width) : (items.flatMap row).length = items.length * width := by
  induction items with
  | nil => exact (Nat.zero_mul width).symm
  | cons item rest ih =>
    rw [List.flatMap_cons, List.length_append, wide item List.mem_cons_self,
      ih fun a listed => wide a (List.mem_cons_of_mem _ listed), List.length_cons, Nat.succ_mul, Nat.add_comm]

/-- Row `i` of rows that lie one after the other. -/
theorem readRow_flatMap {α : Type} {items : List α} {row : α → List Nat} {width i : Nat} {item : α}
    (wide : ∀ a ∈ items, (row a).length = width) (placed : items[i]? = some item) :
    readRow (items.flatMap row) (i * width) width = .ok (row item) := by
  obtain ⟨inside, rfl⟩ := List.getElem?_eq_some_iff.mp placed
  have split : items = items.take i ++ items[i] :: items.drop (i + 1) := by
    rw [List.getElem_cons_drop, List.take_append_drop]
  have before : ((items.take i).flatMap row).length = i * width := by
    rw [flatMap_length fun a listed => wide a (List.mem_of_mem_take listed), List.length_take,
      Nat.min_eq_left (Nat.le_of_lt inside)]
  have whole := @readRow_inside ((items.take i).flatMap row) (row items[i]) ((items.drop (i + 1)).flatMap row)
  rw [before, wide _ (List.getElem_mem inside)] at whole
  rw [← whole]
  congr 1
  conv_lhs => rw [split]
  rw [List.flatMap_append, List.flatMap_cons, List.append_assoc]

/-! ### Pooling -/

theorem mapIdx_same {α : Type} {f : Nat → α → α} (pooled : List α) (same : ∀ k p, f k p = p) :
    pooled.mapIdx f = pooled := by
  apply List.ext_getElem
  · exact List.length_mapIdx
  · intro k _ _
    rw [List.getElem_mapIdx, same]

section Pooling
variable {V : Type} [Field V] {hidden : Nat → Nat → V}

/-- Padding adds nothing. -/
theorem poolFrom_padding {j n : Nat} {pooled : List V} :
    poolFrom hidden j (List.replicate n 0) pooled = pooled := by
  induction n generalizing j pooled with
  | zero => rfl
  | succ n ih =>
    have same : (pooled.mapIdx fun k p => p + hidden j k * 0) = pooled := by
      apply mapIdx_same
      intro k p
      rw [mul_zero, add_zero]
    rw [List.replicate_succ, poolFrom, same, ih]

/-- Tokens add what they have, each once. -/
theorem poolFrom_tokens {j m n : Nat} {pooled : List V} :
    poolFrom hidden j (List.replicate m 1 ++ List.replicate n 0) pooled =
      pooled.mapIdx fun k p => p + ((List.range' j m).map (hidden · k)).sum := by
  induction m generalizing j pooled with
  | zero =>
    rw [List.replicate_zero, List.nil_append, poolFrom_padding]
    apply (mapIdx_same pooled _).symm
    intro k p
    rw [List.range'_zero, List.map_nil, List.sum_nil, add_zero]
  | succ m ih =>
    rw [List.replicate_succ, List.cons_append, poolFrom, ih, List.mapIdx_mapIdx]
    congr 1
    funext k p
    rw [Function.comp_apply, List.range'_succ, List.map_cons, List.sum_cons, mul_one, add_assoc]

variable [LinearOrder V]

/-- The mean of what a text's own places have. -/
def meanOf (hidden : Nat → Nat → V) (dim count : Nat) : List V :=
  (List.range dim).map fun k => ((List.range count).map (hidden · k)).sum / max (count : V) 1

theorem meanPool_tokens {dim m n : Nat} :
    meanPool hidden dim (List.replicate m 1 ++ List.replicate n 0) = meanOf hidden dim m := by
  have total : (List.replicate m (1 : V) ++ List.replicate n 0).sum = (m : V) := by
    rw [List.sum_append, List.sum_replicate, List.sum_replicate, nsmul_one, nsmul_zero, add_zero]
  unfold meanPool meanOf
  rw [poolFrom_tokens, total, ← List.range_eq_range']
  apply List.ext_getElem
  · simp
  · intro k _ _
    simp

theorem meanOf_congr {other : Nat → Nat → V} {dim count : Nat} (same : ∀ j < count, ∀ k, hidden j k = other j k) :
    meanOf hidden dim count = meanOf other dim count := by
  unfold meanOf
  congr 1
  funext k
  congr 2
  apply List.map_congr_left
  intro j listed
  exact same j (List.mem_range.mp listed) k

end Pooling

/-! ### The batch -/

/-- A token of a text, with its type. -/
abbrev Token := Nat × Nat

/-- A text's tokens as the tokenizer gives them in a batch padded to `width`. -/
def pad (width : Nat) (tokens : List Token) : Encoding where
  ids := tokens.map Prod.fst ++ List.replicate (width - tokens.length) 0
  attentionMask := List.replicate tokens.length 1 ++ List.replicate (width - tokens.length) 0
  typeIds := tokens.map Prod.snd ++ List.replicate (width - tokens.length) 0

/-- The length of the longest. -/
def longest (rows : List (List Token)) : Nat := (rows.map List.length).max?.getD 0

/-- The tensors of rows that are padded to `width`. -/
def packed (typed : Bool) (width : Nat) (rows : List (List Token)) : Inputs where
  batch := rows.length
  seqLen := width
  inputIds := rows.flatMap fun row => (pad width row).ids
  attentionMask := rows.flatMap fun row => (pad width row).attentionMask
  tokenTypeIds := if typed then some (rows.flatMap fun row => (pad width row).typeIds) else none

variable {V : Type}

/-- What is relied on: the tokenizer pads a batch to its longest text, and what the model gives for the tokens of a row
depends on these alone, not on padding and not on other rows, which the mask keeps from it. -/
structure Documented (backend : OrtBackend V) (tokens : String → List Token) (sentence : List Token → List V)
    (hidden : List Token → Nat → Nat → V) : Prop where
  padded : ∀ texts, backend.encodeBatch texts =
    .ok (texts.map fun text => pad (longest (texts.map tokens)) (tokens text))
  masked : ∀ width (rows : List (List Token)), (∀ row ∈ rows, row.length ≤ width) →
    ∃ outputs, backend.run (packed backend.hasTokenTypeIds width rows) = .ok outputs ∧
      ∀ i row, rows[i]? = some row → outputs.sentenceEmbedding i = sentence row ∧
        ∀ j < row.length, ∀ k, outputs.lastHiddenState i j k = hidden row j k

section Widths
variable {width : Nat} {row : List Token}

theorem pad_lengths (fits : row.length ≤ width) : (pad width row).ids.length = width ∧
    (pad width row).attentionMask.length = width ∧ (pad width row).typeIds.length = width := by
  have filled : row.length + (width - row.length) = width := Nat.add_sub_cancel' fits
  simp only [pad, List.length_append, List.length_map, List.length_replicate, filled, and_self]

theorem idsRow_pad (fits : row.length ≤ width) : idsRow (pad width row) = (pad width row).ids := by
  unfold idsRow
  apply List.map_fst_zip
  rw [(pad_lengths fits).1, (pad_lengths fits).2.1]

theorem maskRow_pad (fits : row.length ≤ width) : maskRow (pad width row) = (pad width row).attentionMask := by
  unfold maskRow
  apply List.map_snd_zip
  rw [(pad_lengths fits).1, (pad_lengths fits).2.1]

theorem le_longest {rows : List (List Token)} (listed : row ∈ rows) : row.length ≤ longest rows :=
  List.le_max?_getD_of_mem (List.mem_map_of_mem listed)

end Widths

theorem mapM_ok {α β : Type} {f : α → Called β} {g : α → β} {items : List α} (each : ∀ a ∈ items, f a = .ok (g a)) :
    items.mapM f = .ok (items.map g) := by
  induction items with
  | nil => rfl
  | cons item rest ih =>
    rw [List.mapM_cons, each item List.mem_cons_self, ih fun a listed => each a (List.mem_cons_of_mem _ listed)]
    rfl

namespace OrtBackend

variable [Field V] [LinearOrder V] {backend : OrtBackend V} {tokens : String → List Token}
  {sentence : List Token → List V} {hidden : List Token → Nat → Nat → V}

/-- The vector of a text, which has nothing of the texts it is embedded with. -/
def vectorOf (backend : OrtBackend V) (sentence : List Token → List V) (hidden : List Token → Nat → Nat → V)
    (row : List Token) : List V :=
  backend.l2Normalize
    (if backend.hasSentenceEmbedding then sentence row else meanOf (hidden row) backend.embedDim row.length)

theorem rowVector_eq {outputs : Outputs V} {width i : Nat} {rows : List (List Token)} {row : List Token}
    (wide : ∀ row ∈ rows, row.length ≤ width) (placed : rows[i]? = some row)
    (gives : outputs.sentenceEmbedding i = sentence row ∧
      ∀ j < row.length, ∀ k, outputs.lastHiddenState i j k = hidden row j k) :
    backend.rowVector outputs width (rows.flatMap fun row => (pad width row).attentionMask) i =
      .ok (backend.vectorOf sentence hidden row) := by
  unfold rowVector vectorOf
  by_cases pooled : backend.hasSentenceEmbedding = true
  · rw [if_pos pooled, if_pos pooled, gives.1]
  · have read := @readRow_flatMap _ rows (fun row => (pad width row).attentionMask) width i row
      (fun row listed => (pad_lengths (wide row listed)).2.1) placed
    have weights : ((pad width row).attentionMask.map fun bit : Nat => (bit : V)) =
        List.replicate row.length 1 ++ List.replicate (width - row.length) 0 := by
      change (List.replicate row.length 1 ++ List.replicate (width - row.length) 0).map (fun bit : Nat => (bit : V)) = _
      rw [List.map_append, List.map_replicate, List.map_replicate, Nat.cast_one, Nat.cast_zero]
    rw [if_neg pooled, if_neg pooled, read, Called.ok_bind]
    dsimp only
    rw [weights, meanPool_tokens, meanOf_congr gives.2]
    rfl

theorem runBatch_rows {width : Nat} {texts : List String} (documented : Documented backend tokens sentence hidden)
    (encoded : backend.encodeBatch texts = .ok (texts.map fun text => pad width (tokens text)))
    (seqLen : ((texts.map fun text => pad width (tokens text)).map fun enc => enc.ids.length).max?.getD 1 = width)
    (wide : ∀ text ∈ texts, (tokens text).length ≤ width) :
    backend.runBatch texts = .ok (texts.map fun text => backend.vectorOf sentence hidden (tokens text)) := by
  have rowsWide : ∀ row ∈ texts.map tokens, row.length ≤ width := by
    intro row listed
    obtain ⟨text, member, rfl⟩ := List.mem_map.mp listed
    exact wide text member
  have filled : ∀ (row : Encoding → List Nat) (part : List Token → List Nat),
      (∀ text ∈ texts, row (pad width (tokens text)) = part (tokens text)) →
      (∀ text ∈ texts, (part (tokens text)).length = width) →
      fillFrom width row 0 (texts.map fun text => pad width (tokens text)) (List.replicate (texts.length * width) 0) =
        .ok ((texts.map tokens).flatMap part) := by
    intro row part same long
    have rows := @fillFrom_rows width 0 row (texts.map fun text => pad width (tokens text)) []
      (Nat.zero_mul width).symm (by
        intro enc listed
        obtain ⟨text, member, rfl⟩ := List.mem_map.mp listed
        rw [same text member, long text member])
    rw [List.length_map, List.nil_append, List.nil_append] at rows
    rw [rows, List.flatMap_map, List.flatMap_map]
    congr 1
    exact List.flatMap_congr same
  have ids := filled idsRow (fun row => (pad width row).ids) (fun text member => idsRow_pad (wide text member))
    fun text member => (pad_lengths (wide text member)).1
  have mask := filled maskRow (fun row => (pad width row).attentionMask)
    (fun text member => maskRow_pad (wide text member)) fun text member => (pad_lengths (wide text member)).2.1
  have types := filled Encoding.typeIds (fun row => (pad width row).typeIds) (fun _ _ => rfl)
    fun text member => (pad_lengths (wide text member)).2.2
  obtain ⟨outputs, ran, gives⟩ := documented.masked width (texts.map tokens) rowsWide
  unfold packed at ran
  rw [List.length_map] at ran
  unfold runBatch
  rw [encoded]
  have vectors : (List.range texts.length).mapM
      (backend.rowVector outputs width ((texts.map tokens).flatMap fun row => (pad width row).attentionMask)) =
        .ok (texts.map fun text => backend.vectorOf sentence hidden (tokens text)) := by
    have each : ∀ i ∈ List.range texts.length,
        backend.rowVector outputs width ((texts.map tokens).flatMap fun row => (pad width row).attentionMask) i =
          .ok (backend.vectorOf sentence hidden ((texts.map tokens).getD i [])) := by
      intro i listed
      have inside : i < (texts.map tokens).length := by
        rw [List.length_map]
        exact List.mem_range.mp listed
      have placed : (texts.map tokens)[i]? = some ((texts.map tokens).getD i []) := by
        rw [List.getD_eq_getElem?_getD, List.getElem?_eq_getElem inside]
        rfl
      exact rowVector_eq rowsWide placed (gives i _ placed)
    rw [mapM_ok each]
    congr 1
    apply List.ext_getElem
    · rw [List.length_map, List.length_map, List.length_range]
    · intro i _ inside
      rw [List.length_map] at inside
      have there : (texts.map tokens)[i]? = some (tokens texts[i]) := by
        rw [List.getElem?_map, List.getElem?_eq_getElem inside]
        rfl
      rw [List.getElem_map, List.getElem_map, List.getElem_range, List.getD_eq_getElem?_getD, there]
      rfl
  simp only [Except.mapError, Called.lift_ok, Called.ok_bind, seqLen, ids, mask, types]
  by_cases typed : backend.hasTokenTypeIds = true
  · rw [if_pos typed] at ran
    simp only [if_pos typed, Called.ok_bind, ran, Called.lift_ok, Called.context_ok, vectors]
  · rw [if_neg typed] at ran
    simp only [if_neg typed, Called.ok_bind, ran, Called.lift_ok, Called.context_ok, vectors]

theorem runBatch_eq (documented : Documented backend tokens sentence hidden) (texts : List String) :
    backend.runBatch texts = .ok (texts.map fun text => backend.vectorOf sentence hidden (tokens text)) := by
  have encoded := documented.padded texts
  cases texts with
  | nil =>
    have none : ∀ text ∈ ([] : List String), (tokens text).length ≤ 1 := fun _ none => absurd none List.not_mem_nil
    exact @runBatch_rows V _ _ backend tokens sentence hidden 1 [] documented encoded rfl none
  | cons text rest =>
    have wide : ∀ other ∈ text :: rest, (tokens other).length ≤ longest ((text :: rest).map tokens) :=
      fun other listed => le_longest (List.mem_map_of_mem listed)
    apply runBatch_rows documented encoded ?_ wide
    have lengths : (((text :: rest).map fun other => pad (longest ((text :: rest).map tokens)) (tokens other)).map
        fun enc => enc.ids.length) = List.replicate (text :: rest).length (longest ((text :: rest).map tokens)) := by
      rw [List.map_map, List.eq_replicate_iff]
      refine ⟨List.length_map _, fun length listed => ?_⟩
      obtain ⟨other, member, rfl⟩ := List.mem_map.mp listed
      exact (pad_lengths (wide other member)).1
    have some : 0 < (text :: rest).length := Nat.succ_pos _
    rw [lengths, List.max?_replicate_of_pos some]
    rfl

theorem embed_eq (documented : Documented backend tokens sentence hidden) (text : String) :
    backend.embed text = .ok (backend.vectorOf sentence hidden (tokens text)) := by
  unfold embed
  rw [runBatch_eq documented]
  rfl

/-- A batch is embedded as its texts are alone: no index is out of bounds, and the vector of a text is the mean of what
the model gives for its own tokens, whatever it is padded to and whatever else is in the batch. -/
theorem embed_batch_exact (documented : Documented backend tokens sentence hidden) (texts : List String) :
    backend.embedBatch texts = texts.mapM backend.embed ∧
      backend.embedBatch texts = .ok (texts.map fun text => backend.vectorOf sentence hidden (tokens text)) := by
  have batch := runBatch_eq documented texts
  have each := @mapM_ok _ _ backend.embed (fun text => backend.vectorOf sentence hidden (tokens text)) texts
    fun text _ => embed_eq documented text
  exact ⟨batch.trans each.symm, batch⟩

/-! A model that mixes all the tokens of a row. -/

/-- The tokens of row `i` that the mask lets through. -/
def attended (inputs : Inputs) (i : Nat) : List Nat :=
  match readRow inputs.inputIds (i * inputs.seqLen) inputs.seqLen,
    readRow inputs.attentionMask (i * inputs.seqLen) inputs.seqLen with
  | .ok ids, .ok mask => ((ids.zip mask).filter fun place => place.2 == 1).map Prod.fst
  | _, _ => []

def charTokens (text : String) : List Token := text.toList.map fun c => (c.toNat, 0)

def mixed (ids : List Nat) (j k : Nat) : Rat := ids.getD j 0 + k * ids.sum

def mixing : OrtBackend Rat where
  encodeBatch texts := .ok (texts.map fun text => pad (longest (texts.map charTokens)) (charTokens text))
  run inputs := .ok ⟨fun _ => [], fun i => mixed (attended inputs i)⟩
  embedDim := 2
  hasTokenTypeIds := false
  hasSentenceEmbedding := false
  l2Normalize := id

theorem attended_packed {width i : Nat} {rows : List (List Token)} {row : List Token}
    (wide : ∀ row ∈ rows, row.length ≤ width) (placed : rows[i]? = some row) :
    attended (packed false width rows) i = row.map Prod.fst := by
  have ids := @readRow_flatMap _ rows (fun row => (pad width row).ids) width i row
    (fun row listed => (pad_lengths (wide row listed)).1) placed
  have mask := @readRow_flatMap _ rows (fun row => (pad width row).attentionMask) width i row
    (fun row listed => (pad_lengths (wide row listed)).2.1) placed
  have tokens : ((row.map Prod.fst).zip (List.replicate row.length 1)).filter (fun place => place.2 == 1) =
      (row.map Prod.fst).zip (List.replicate row.length 1) := by
    apply List.filter_eq_self.mpr
    intro place listed
    rw [(List.mem_replicate.mp (List.of_mem_zip listed).2).2]
    rfl
  have padding : ((List.replicate (width - row.length) 0).zip (List.replicate (width - row.length) 0)).filter
      (fun place : Nat × Nat => place.2 == 1) = [] := by
    apply List.filter_eq_nil_iff.mpr
    intro place listed
    rw [(List.mem_replicate.mp (List.of_mem_zip listed).2).2]
    exact Bool.false_ne_true
  unfold attended packed
  rw [ids, mask]
  change ((((row.map Prod.fst) ++ List.replicate _ 0).zip (List.replicate row.length 1 ++ List.replicate _ 0)).filter
    fun place : Nat × Nat => place.2 == 1).map Prod.fst = _
  rw [List.zip_append (by rw [List.length_map, List.length_replicate]), List.filter_append, tokens, padding,
    List.append_nil, List.map_fst_zip (by rw [List.length_map, List.length_replicate])]

theorem mixing_documented : Documented mixing charTokens (fun _ => []) fun row => mixed (row.map Prod.fst) where
  padded _ := rfl
  masked width rows wide := by
    refine ⟨_, rfl, fun i row placed => ⟨rfl, fun j _ k => ?_⟩⟩
    exact congrArg (mixed · j k) (attended_packed wide placed)

theorem letters_embedded : mixing.embedBatch ["b", "aca"] = ["b", "aca"].mapM mixing.embed ∧
    mixing.embedBatch ["b", "aca"] = .ok [[98, 98 + 98], [293 / 3, 293 / 3 + 293]] := by
  have exact_batch := embed_batch_exact mixing_documented ["b", "aca"]
  have b : charTokens "b" = [(98, 0)] := rfl
  have aca : charTokens "aca" = [(97, 0), (99, 0), (97, 0)] := rfl
  have values : ["b", "aca"].map (fun text =>
      mixing.vectorOf (fun _ => []) (fun row => mixed (row.map Prod.fst)) (charTokens text)) =
        [[98, 98 + 98], [293 / 3, 293 / 3 + 293]] := by
    simp only [List.map_cons, List.map_nil, b, aca]
    unfold vectorOf meanOf mixed mixing
    norm_num [List.range_succ]
  exact ⟨exact_batch.1, values ▸ exact_batch.2⟩

end OrtBackend

end Rqmd.Ort
