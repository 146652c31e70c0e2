import Rqmd.Lib.Text

/-! The CJK bigram filter. The base tokenizer takes a run of letters without spaces as one token; the filter splits a
token into its CJK runs, each as overlapping pairs of characters, and the runs between them. -/

namespace Rqmd
open Text

def isCjk (c : Char) : Bool :=
  let n := c.toNat
  (0x3040 ≤ n && n ≤ 0x30FF) || (0x3400 ≤ n && n ≤ 0x4DBF) || (0x4E00 ≤ n && n ≤ 0x9FFF) ||
    (0xAC00 ≤ n && n ≤ 0xD7AF) || (0xF900 ≤ n && n ≤ 0xFAFF) || (0xFF66 ≤ n && n ≤ 0xFF9F)

structure Token where
  offsetFrom : Nat
  offsetTo : Nat
  position : Nat
  text : String
  positionLength : Nat
deriving DecidableEq

def piece (source : Token) (start stop : Nat) : Token :=
  ⟨source.offsetFrom + start, source.offsetFrom + stop, 0, String.ofList (slice source.text.toList start stop), 1⟩

/-- `boundaries` holds the offset of every character of the run. -/
def flushRun (token : Token) (start stop : Nat) (isCjkRun : Bool) (boundaries : List Nat) (out : List Token) :
    List Token :=
  if isCjkRun = false ∨ boundaries.length = 1 then out ++ [piece token start stop]
  else out ++ boundaries.zipIdx.filterMap fun (offset, k) =>
    if k + 1 < boundaries.length then some (piece token offset ((boundaries[k + 2]?).getD stop)) else none

/-- The variables of the loop over the characters of a token. -/
structure SplitState where
  runStart : Nat
  runIsCjk : Option Bool
  boundaries : List Nat
  out : List Token

def SplitState.flush (token : Token) (st : SplitState) (stop : Nat) : List Token :=
  match st.runIsCjk with
  | some wasCjk => flushRun token st.runStart stop wasCjk st.boundaries st.out
  | none => st.out

/-- The body of the loop, for the character `c` at the offset `i`. -/
def SplitState.step (token : Token) (st : SplitState) (i : Nat) (c : Char) : SplitState :=
  if st.runIsCjk ≠ some (isCjk c) then ⟨i, some (isCjk c), [i], st.flush token i⟩
  else { st with boundaries := st.boundaries ++ [i] }

def splitLoop (token : Token) : SplitState → Nat → List Char → List Token
  | st, stop, [] => st.flush token stop
  | st, i, c :: rest => splitLoop token (st.step token i c) (i + c.utf8Size) rest

/-- The pieces that `split` appends to the queue of an exhausted token. -/
def split (token : Token) : List Token :=
  if token.text.toList.any isCjk then splitLoop token ⟨0, none, [], []⟩ 0 token.text.toList else [token]

/-- `tail` is what the base tokenizer still has to give. -/
structure CjkBigramStream where
  tail : List Token
  pending : List Token
  nextPosition : Nat

def advanceFrom : List Token → List Token → Nat → Option (Token × CjkBigramStream)
  | tail, token :: pending, next => some ({ token with position := next }, ⟨tail, pending, next + 1⟩)
  | [], [], _ => none
  | token :: tail, [], next => advanceFrom tail (split token) next

/-- The token that the stream moves on to, and the stream behind it. -/
def CjkBigramStream.advance (stream : CjkBigramStream) : Option (Token × CjkBigramStream) :=
  advanceFrom stream.tail stream.pending stream.nextPosition

def tokenStream (base : String → List Token) (text : String) : CjkBigramStream := ⟨base text, [], 0⟩

/-- `process`: the tokens of a stream until it ends. -/
inductive Emits : CjkBigramStream → List Token → Prop
  | done (stream : CjkBigramStream) (last : stream.advance = none) : Emits stream []
  | next (stream rest : CjkBigramStream) (token : Token) (tokens : List Token) (more : stream.advance = some (token, rest))
      (behind : Emits rest tokens) : Emits stream (token :: tokens)

/-- A base tokenizer's answer for the text from the offset `at` on: the maximal runs of alphanumeric characters. -/
inductive SplitsWords (alphanumeric : Char → Bool) : Nat → List Char → List Token → Prop
  | done (start : Nat) : SplitsWords alphanumeric start [] []
  | gap (start : Nat) (c : Char) (rest : List Char) (tokens : List Token) (other : alphanumeric c = false)
      (behind : SplitsWords alphanumeric (start + c.utf8Size) rest tokens) : SplitsWords alphanumeric start (c :: rest) tokens
  | word (start : Nat) (word rest : List Char) (token : Token) (tokens : List Token) (nonempty : word ≠ [])
      (letters : ∀ c ∈ word, alphanumeric c = true) (ends : ∀ c, rest.head? = some c → alphanumeric c = false)
      (offsetFrom : token.offsetFrom = start) (offsetTo : token.offsetTo = start + byteLength word)
      (text : token.text = String.ofList word)
      (behind : SplitsWords alphanumeric (start + byteLength word) rest tokens) :
      SplitsWords alphanumeric start (word ++ rest) (token :: tokens)

/-! ### The run of a stream -/

/-- The tokens numbered from `next` on. -/
def renumber : List Token → Nat → List Token
  | [], _ => []
  | token :: rest, next => { token with position := next } :: renumber rest (next + 1)

/-- Everything that a stream has still to emit. -/
def CjkBigramStream.remaining (stream : CjkBigramStream) : List Token :=
  renumber (stream.pending ++ stream.tail.flatMap split) stream.nextPosition

/-- One step of the stream gives the first of what remains, or nothing does. -/
theorem advanceFrom_cases (tail pending : List Token) (next : Nat) :
    (advanceFrom tail pending next = none ∧ renumber (pending ++ tail.flatMap split) next = []) ∨
      ∃ token rest, advanceFrom tail pending next = some (token, rest) ∧
        renumber (pending ++ tail.flatMap split) next = token :: rest.remaining := by
  induction tail generalizing pending with
  | nil =>
    cases pending with
    | nil => exact .inl ⟨rfl, rfl⟩
    | cons token pending => exact .inr ⟨_, _, rfl, rfl⟩
  | cons first tail later =>
    cases pending with
    | nil =>
      have same : [] ++ (first :: tail).flatMap split = split first ++ tail.flatMap split := by
        rw [List.nil_append, List.flatMap_cons]
      rw [same]
      exact later (split first)
    | cons token pending => exact .inr ⟨_, _, rfl, rfl⟩

theorem advance_cases (stream : CjkBigramStream) : (stream.advance = none ∧ stream.remaining = []) ∨
    ∃ token rest, stream.advance = some (token, rest) ∧ stream.remaining = token :: rest.remaining :=
  advanceFrom_cases stream.tail stream.pending stream.nextPosition

/-- A stream ends, and emits what remains of it. -/
theorem emits_iff {stream : CjkBigramStream} {tokens : List Token} : Emits stream tokens ↔ tokens = stream.remaining := by
  constructor
  · intro emits
    induction emits with
    | done stream last =>
      rcases advance_cases stream with ⟨_, nothing⟩ | ⟨token, rest, more, _⟩
      · exact nothing.symm
      · rw [last] at more
        cases more
    | next stream rest token tokens more _ same =>
      rcases advance_cases stream with ⟨last, _⟩ | ⟨first, behind, found, parts⟩
      · rw [last] at more
        cases more
      · rw [more] at found
        obtain ⟨rfl, rfl⟩ := Prod.mk.inj (Option.some.inj found)
        rw [parts, same]
  · intro same
    induction tokens generalizing stream with
    | nil =>
      rcases advance_cases stream with ⟨last, _⟩ | ⟨token, rest, _, parts⟩
      · exact .done stream last
      · rw [parts] at same
        cases same
    | cons token tokens later =>
      rcases advance_cases stream with ⟨_, nothing⟩ | ⟨first, rest, more, parts⟩
      · rw [nothing] at same
        cases same
      · rw [parts] at same
        obtain ⟨rfl, behind⟩ := List.cons.inj same
        exact .next stream rest token tokens more (later behind)

/-- What a token shows, and of which part of the text. -/
def Token.place (token : Token) : Nat × Nat × String := (token.offsetFrom, token.offsetTo, token.text)

theorem renumber_places (tokens : List Token) (next : Nat) : (renumber tokens next).map Token.place = tokens.map Token.place := by
  induction tokens generalizing next with
  | nil => rfl
  | cons token rest later => exact congrArg (token.place :: ·) (later (next + 1))

theorem renumber_positions (tokens : List Token) (next : Nat) :
    (renumber tokens next).map Token.position = List.range' next tokens.length := by
  induction tokens generalizing next with
  | nil => rfl
  | cons token rest later => exact congrArg (next :: ·) (later (next + 1))

theorem tokenStream_remaining (base : String → List Token) (text : String) :
    (tokenStream base text).remaining = renumber ((base text).flatMap split) 0 := rfl

end Rqmd
