import Mathlib.Data.List.DropRight
import Mathlib.Data.List.TakeWhile
import Mathlib.Tactic.Common

/-! Texts as lists of characters, cut at byte offsets of their UTF-8 encoding. -/

namespace Text

def byteLength : List Char → Nat
  | [] => 0
  | c :: cs => c.utf8Size + byteLength cs

/-- The longest prefix that fits in `n` bytes. -/
def takeBytes : Nat → List Char → List Char
  | _, [] => []
  | n, c :: cs => if c.utf8Size ≤ n then c :: takeBytes (n - c.utf8Size) cs else []

/-- What is left without that prefix. -/
def dropBytes : Nat → List Char → List Char
  | _, [] => []
  | n, c :: cs => if c.utf8Size ≤ n then dropBytes (n - c.utf8Size) cs else c :: cs

/-- `is_char_boundary`: some characters at the start fill exactly `n` bytes. -/
def isCharBoundary (text : List Char) (n : Nat) : Bool := byteLength (takeBytes n text) == n

/-- `&text[start..stop]`, where both offsets are boundaries. -/
def slice (text : List Char) (start stop : Nat) : List Char := takeBytes (stop - start) (dropBytes start text)

/-- The offset of the first `c`. -/
def findChar (c : Char) (text : List Char) : Option Nat :=
  if c ∈ text then some (byteLength (text.takeWhile (· ≠ c))) else none

/-- `split_inclusive('\n')`. -/
def splitInclusive : List Char → List (List Char)
  | [] => []
  | c :: cs =>
    if c = '\n' then [c] :: splitInclusive cs
    else match splitInclusive cs with
      | [] => [[c]]
      | line :: lines => (c :: line) :: lines

/-- A piece of `split_inclusive` without its newline. -/
def withoutNewline (piece : List Char) : List Char :=
  if piece.getLast? = some '\n' then piece.dropLast else piece

/-- A piece of `split_inclusive` as `lines` gives it, without `\n` or `\r\n`. -/
def lineOf (piece : List Char) : List Char :=
  if piece.getLast? = some '\n' ∧ piece.dropLast.getLast? = some '\r' then piece.dropLast.dropLast
  else withoutNewline piece

def lines (text : List Char) : List (List Char) := (splitInclusive text).map lineOf

def trimMatches (drop : Char → Bool) (text : List Char) : List Char := (text.dropWhile drop).rdropWhile drop

/-- The starts of the matches of a pattern, each search going on where the match before it ended. `skip`
counts the characters of the last match still ahead; `pattern` gives the length of a match in characters. -/
def findIter (pattern : List Char → Option Nat) : Nat → Nat → List Char → List Nat
  | _, _, [] => []
  | skip + 1, offset, c :: cs => findIter pattern skip (offset + c.utf8Size) cs
  | 0, offset, c :: cs =>
    match pattern (c :: cs) with
    | some length => offset :: findIter pattern (length - 1) (offset + c.utf8Size) cs
    | none => findIter pattern 0 (offset + c.utf8Size) cs

/-- `split_once`. -/
def splitOnce (c : Char) (text : List Char) : Option (List Char × List Char) :=
  if c ∈ text then some (text.takeWhile (· ≠ c), (text.dropWhile (· ≠ c)).tail) else none

/-- `splitn`: at most so many pieces, the last one with the rest. -/
def splitN : Nat → Char → List Char → List (List Char)
  | 0, _, _ => []
  | 1, _, text => [text]
  | n + 2, c, text =>
    match splitOnce c text with
    | some (front, rest) => front :: splitN (n + 1) c rest
    | none => [text]

@[simp] theorem byteLength_nil : byteLength [] = 0 := rfl

@[simp] theorem byteLength_cons (c : Char) (cs : List Char) : byteLength (c :: cs) = c.utf8Size + byteLength cs := rfl

@[simp] theorem byteLength_append (as bs : List Char) : byteLength (as ++ bs) = byteLength as + byteLength bs := by
  induction as with
  | nil => simp
  | cons a as ih =>
    simp only [List.cons_append, byteLength_cons, ih]
    omega

theorem byteLength_pos {text : List Char} (some : text ≠ []) : 0 < byteLength text := by
  cases text with
  | nil => exact absurd rfl some
  | cons c cs =>
    have := c.utf8Size_pos
    simp only [byteLength_cons]
    omega

theorem takeBytes_append_dropBytes (n : Nat) (text : List Char) : takeBytes n text ++ dropBytes n text = text := by
  induction text generalizing n with
  | nil => rfl
  | cons c cs ih =>
    by_cases fits : c.utf8Size ≤ n
    · simp only [takeBytes, dropBytes, if_pos fits, List.cons_append, ih]
    · simp only [takeBytes, dropBytes, if_neg fits, List.nil_append]

theorem byteLength_dropBytes (n : Nat) (text : List Char) :
    byteLength (dropBytes n text) = byteLength text - byteLength (takeBytes n text) := by
  have parts := congrArg byteLength (takeBytes_append_dropBytes n text)
  rw [byteLength_append] at parts
  omega

theorem byteLength_takeBytes_le (n : Nat) (text : List Char) : byteLength (takeBytes n text) ≤ n := by
  induction text generalizing n with
  | nil => simp [takeBytes]
  | cons c cs ih =>
    by_cases fits : c.utf8Size ≤ n
    · have := ih (n - c.utf8Size)
      simp only [takeBytes, if_pos fits, byteLength_cons]
      omega
    · simp [takeBytes, if_neg fits]

theorem byteLength_takeBytes_le_length (n : Nat) (text : List Char) :
    byteLength (takeBytes n text) ≤ byteLength text := by
  have parts := congrArg byteLength (takeBytes_append_dropBytes n text)
  rw [byteLength_append] at parts
  omega

theorem takeBytes_zero (text : List Char) : takeBytes 0 text = [] := by
  have none := byteLength_takeBytes_le 0 text
  by_contra some
  have size := byteLength_pos some
  omega

theorem dropBytes_zero (text : List Char) : dropBytes 0 text = text := by
  have whole := takeBytes_append_dropBytes 0 text
  rwa [takeBytes_zero, List.nil_append] at whole

/-- A character has at most four bytes, so a prefix falls short by three at most. -/
theorem lt_byteLength_takeBytes {n : Nat} {text : List Char} (inside : n ≤ byteLength text) :
    n < byteLength (takeBytes n text) + 4 := by
  induction text generalizing n with
  | nil =>
    simp only [byteLength_nil] at inside
    omega
  | cons c cs ih =>
    by_cases fits : c.utf8Size ≤ n
    · simp only [byteLength_cons] at inside
      have := ih (n := n - c.utf8Size) (by omega)
      simp only [takeBytes, if_pos fits, byteLength_cons]
      omega
    · have := c.utf8Size_le_four
      simp only [takeBytes, if_neg fits, byteLength_nil]
      omega

theorem takeBytes_of_length_le {n : Nat} {text : List Char} (whole : byteLength text ≤ n) :
    takeBytes n text = text := by
  induction text generalizing n with
  | nil => rfl
  | cons c cs ih =>
    simp only [byteLength_cons] at whole
    rw [takeBytes, if_pos (by omega), ih (by omega)]

theorem isCharBoundary_iff {text : List Char} {n : Nat} :
    isCharBoundary text n = true ↔ byteLength (takeBytes n text) = n := by
  simp [isCharBoundary]

theorem isCharBoundary_zero (text : List Char) : isCharBoundary text 0 = true := by
  have := byteLength_takeBytes_le 0 text
  rw [isCharBoundary_iff]
  omega

theorem isCharBoundary_length (text : List Char) : isCharBoundary text (byteLength text) = true := by
  rw [isCharBoundary_iff, takeBytes_of_length_le (Nat.le_refl _)]

theorem le_length_of_boundary {text : List Char} {n : Nat} (boundary : isCharBoundary text n = true) :
    n ≤ byteLength text := by
  have := byteLength_takeBytes_le_length n text
  rw [isCharBoundary_iff] at boundary
  omega

theorem takeBytes_takeBytes {m n : Nat} (less : m ≤ n) (text : List Char) :
    takeBytes m (takeBytes n text) = takeBytes m text := by
  induction text generalizing m n with
  | nil => rfl
  | cons c cs later =>
    by_cases fits : c.utf8Size ≤ n
    · rw [takeBytes, if_pos fits, takeBytes, takeBytes]
      by_cases small : c.utf8Size ≤ m
      · rw [if_pos small, if_pos small, later (by omega)]
      · rw [if_neg small, if_neg small]
    · rw [takeBytes, if_neg fits, takeBytes, takeBytes, if_neg (by omega)]

theorem takeBytes_append_length (as bs : List Char) : takeBytes (byteLength as) (as ++ bs) = as := by
  induction as with
  | nil =>
    cases bs with
    | nil => rfl
    | cons b bs =>
      have := b.utf8Size_pos
      simp only [List.nil_append, byteLength_nil, takeBytes]
      rw [if_neg (by omega)]
  | cons a as ih =>
    simp only [List.cons_append, byteLength_cons, takeBytes]
    rw [if_pos (by omega), Nat.add_sub_cancel_left, ih]

theorem dropBytes_append_length (as bs : List Char) : dropBytes (byteLength as) (as ++ bs) = bs := by
  have parts := takeBytes_append_dropBytes (byteLength as) (as ++ bs)
  rw [takeBytes_append_length] at parts
  exact List.append_cancel_left parts

/-- The end of a prefix is a boundary. -/
theorem isCharBoundary_append (as bs : List Char) : isCharBoundary (as ++ bs) (byteLength as) = true := by
  rw [isCharBoundary_iff, takeBytes_append_length]

theorem isCharBoundary_takeBytes (n : Nat) (text : List Char) :
    isCharBoundary text (byteLength (takeBytes n text)) = true := by
  have cut := isCharBoundary_append (takeBytes n text) (dropBytes n text)
  rwa [takeBytes_append_dropBytes] at cut

/-- The boundaries behind a boundary are those of the rest. -/
theorem isCharBoundary_dropBytes {text : List Char} {n m : Nat} (boundary : isCharBoundary text n = true)
    (behind : n ≤ m) : isCharBoundary (dropBytes n text) (m - n) = isCharBoundary text m := by
  induction text generalizing n m with
  | nil =>
    rw [isCharBoundary_iff] at boundary
    simp only [takeBytes, byteLength_nil] at boundary
    subst boundary
    rfl
  | cons c cs ih =>
    by_cases fits : c.utf8Size ≤ n
    · have rest : isCharBoundary cs (n - c.utf8Size) = true := by
        rw [isCharBoundary_iff] at boundary ⊢
        simp only [takeBytes, if_pos fits, byteLength_cons] at boundary
        omega
      have tail := ih rest (m := m - c.utf8Size) (by omega)
      rw [dropBytes, if_pos fits, show m - n = m - c.utf8Size - (n - c.utf8Size) by omega, tail]
      simp only [isCharBoundary, takeBytes, if_pos (show c.utf8Size ≤ m by omega), byteLength_cons]
      rw [Bool.eq_iff_iff, beq_iff_eq, beq_iff_eq]
      omega
    · rw [isCharBoundary_iff, takeBytes, if_neg fits, byteLength_nil] at boundary
      subst boundary
      rw [dropBytes, if_neg fits, Nat.sub_zero]

/-- A slice between boundaries has the bytes between them. -/
theorem byteLength_slice {text : List Char} {start stop : Nat} (left : isCharBoundary text start = true)
    (right : isCharBoundary text stop = true) (order : start ≤ stop) :
    byteLength (slice text start stop) = stop - start := by
  have cut := isCharBoundary_dropBytes left order
  rw [right] at cut
  exact isCharBoundary_iff.mp cut

/-- A front is the front before it and the slice between them. -/
theorem takeBytes_eq_append_slice {text : List Char} {p q : Nat} (left : isCharBoundary text p = true)
    (right : isCharBoundary text q = true) (order : p ≤ q) :
    takeBytes q text = takeBytes p text ++ slice text p q := by
  have parts : text = (takeBytes p text ++ slice text p q) ++ dropBytes (q - p) (dropBytes p text) := by
    rw [List.append_assoc, slice, takeBytes_append_dropBytes, takeBytes_append_dropBytes]
  have size : byteLength (takeBytes p text ++ slice text p q) = q := by
    rw [byteLength_append, isCharBoundary_iff.mp left, byteLength_slice left right order]
    omega
  have front := takeBytes_append_length (takeBytes p text ++ slice text p q) (dropBytes (q - p) (dropBytes p text))
  rwa [← parts, size] at front

/-- The boundaries of a slice are those of the text. -/
theorem isCharBoundary_slice {text : List Char} {p q k : Nat} (left : isCharBoundary text p = true) (inside : p + k ≤ q) :
    isCharBoundary (slice text p q) k = isCharBoundary text (p + k) := by
  have rest := isCharBoundary_dropBytes left (show p ≤ p + k by omega)
  rw [Nat.add_sub_cancel_left] at rest
  rw [← rest]
  simp only [isCharBoundary, slice, takeBytes_takeBytes (show k ≤ q - p by omega)]

theorem slice_of_parts {before mid after : List Char} {p q : Nat} (start : byteLength before = p)
    (size : byteLength mid = q - p) : slice (before ++ (mid ++ after)) p q = mid := by
  rw [slice, ← start, dropBytes_append_length, start, ← size, takeBytes_append_length]

/-- A slice of a slice is one of the text. -/
theorem slice_slice {text : List Char} {p q a b : Nat} (left : isCharBoundary text p = true)
    (first : isCharBoundary text (p + a) = true) (second : isCharBoundary text (p + b) = true) (order : a ≤ b)
    (inside : p + b ≤ q) : slice (slice text p q) a b = slice text (p + a) (p + b) := by
  have left' : isCharBoundary (slice text p q) a = true := by rw [isCharBoundary_slice left (by omega), first]
  have right' : isCharBoundary (slice text p q) b = true := by rw [isCharBoundary_slice left inside, second]
  have size := byteLength_slice left' right' order
  have parts : text = (takeBytes p text ++ takeBytes a (slice text p q)) ++ (slice (slice text p q) a b ++
      (dropBytes (b - a) (dropBytes a (slice text p q)) ++ dropBytes (q - p) (dropBytes p text))) := by
    have inner : slice text p q = takeBytes a (slice text p q) ++
        (slice (slice text p q) a b ++ dropBytes (b - a) (dropBytes a (slice text p q))) := by
      rw [slice, slice, takeBytes_append_dropBytes, takeBytes_append_dropBytes]
    have outer : text = takeBytes p text ++ (slice text p q ++ dropBytes (q - p) (dropBytes p text)) := by
      rw [slice, takeBytes_append_dropBytes, takeBytes_append_dropBytes]
    calc text = takeBytes p text ++ (slice text p q ++ dropBytes (q - p) (dropBytes p text)) := outer
      _ = takeBytes p text ++ ((takeBytes a (slice text p q) ++ (slice (slice text p q) a b ++
          dropBytes (b - a) (dropBytes a (slice text p q)))) ++ dropBytes (q - p) (dropBytes p text)) := by rw [← inner]
      _ = _ := by simp only [List.append_assoc]
  have start : byteLength (takeBytes p text ++ takeBytes a (slice text p q)) = p + a := by
    rw [byteLength_append, isCharBoundary_iff.mp left, isCharBoundary_iff.mp left']
  have whole := @slice_of_parts _ _ (dropBytes (b - a) (dropBytes a (slice text p q)) ++
    dropBytes (q - p) (dropBytes p text)) _ _ start (show byteLength (slice (slice text p q) a b) = p + b - (p + a) by omega)
  rw [← parts] at whole
  exact whole.symm

theorem slice_zero (text : List Char) (stop : Nat) : slice text 0 stop = takeBytes stop text := by
  rw [slice, dropBytes_zero, Nat.sub_zero]

theorem slice_whole (text : List Char) : slice text 0 (byteLength text) = text := by
  rw [slice_zero, takeBytes_of_length_le (Nat.le_refl _)]

theorem dropBytes_eq_slice {text : List Char} {p q : Nat} (left : isCharBoundary text p = true)
    (right : isCharBoundary text q = true) (order : p ≤ q) : dropBytes p text = slice text p q ++ dropBytes q text := by
  have front := takeBytes_eq_append_slice left right order
  have whole := takeBytes_append_dropBytes p text
  have whole' := takeBytes_append_dropBytes q text
  rw [front, List.append_assoc] at whole'
  exact List.append_cancel_left (whole.trans whole'.symm)

theorem slice_to_end {text : List Char} {p : Nat} (left : isCharBoundary text p = true) :
    slice text p (byteLength text) = dropBytes p text := by
  have split := dropBytes_eq_slice left (isCharBoundary_length text) (le_length_of_boundary left)
  have none := dropBytes_append_length text []
  rw [List.append_nil] at none
  rw [split, none, List.append_nil]

@[simp] theorem flatten_splitInclusive (text : List Char) : (splitInclusive text).flatten = text := by
  induction text with
  | nil => rfl
  | cons c cs ih =>
    by_cases newline : c = '\n'
    · simp [splitInclusive, newline, ih]
    · rw [splitInclusive, if_neg newline]
      cases rest : splitInclusive cs with
      | nil =>
        rw [rest] at ih
        simpa using ih
      | cons line lines =>
        rw [rest] at ih
        simpa using ih

theorem splitInclusive_line {line : List Char} (whole : '\n' ∉ line) (rest : List Char) :
    splitInclusive (line ++ '\n' :: rest) = (line ++ ['\n']) :: splitInclusive rest := by
  induction line with
  | nil => rfl
  | cons c line ih =>
    have other : c ≠ '\n' := fun same => whole (same ▸ List.mem_cons_self)
    have tail := ih fun inside => whole (List.mem_cons_of_mem c inside)
    simp [splitInclusive, other, tail]

theorem findChar_some {c : Char} {text : List Char} {n : Nat} (found : findChar c text = some n) :
    ∃ before after, text = before ++ c :: after ∧ byteLength before = n ∧ c ∉ before := by
  unfold findChar at found
  split at found
  · next inside =>
    have rest : text.dropWhile (· ≠ c) ≠ [] := by
      intro none
      have all := List.dropWhile_eq_nil_iff.mp none c inside
      simp at all
    have head := List.head_dropWhile_not (fun x => decide (x ≠ c)) rest
    refine ⟨text.takeWhile (· ≠ c), (text.dropWhile (· ≠ c)).tail, ?_, Option.some.inj found, ?_⟩
    · have first : (text.dropWhile (· ≠ c)).head rest = c := by simpa using head
      calc text = text.takeWhile (· ≠ c) ++ text.dropWhile (· ≠ c) := List.takeWhile_append_dropWhile.symm
        _ = text.takeWhile (· ≠ c) ++ (text.dropWhile (· ≠ c)).head rest :: (text.dropWhile (· ≠ c)).tail := by
          rw [List.cons_head_tail]
        _ = _ := by rw [first]
    · intro early
      have := List.mem_takeWhile_imp early
      simp at this
  · simp at found

/-- No part of a split holds what it was split at. -/
theorem not_mem_of_mem_splitOn {α : Type} [DecidableEq α] {a : α} {xs part : List α} (member : part ∈ xs.splitOn a) :
    a ∉ part := by
  induction xs generalizing part with
  | nil =>
    rw [List.splitOn_nil, List.mem_singleton] at member
    rw [member]
    exact List.not_mem_nil
  | cons x xs later =>
    rw [List.splitOn_cons_eq_if_modifyHead] at member
    by_cases cut : (x == a) = true
    · rw [if_pos cut, List.mem_cons] at member
      rcases member with rfl | behind
      · exact List.not_mem_nil
      · exact later behind
    · rw [if_neg cut] at member
      cases parts : xs.splitOn a with
      | nil => exact absurd parts (List.splitOn_ne_nil a xs)
      | cons first rest =>
        rw [parts] at member later
        rw [List.modifyHead_cons, List.mem_cons] at member
        rcases member with rfl | behind
        · rw [List.mem_cons, not_or]
          exact ⟨fun same => cut (beq_iff_eq.mpr same.symm), later List.mem_cons_self⟩
        · exact later (List.mem_cons_of_mem _ behind)

theorem splitOn_of_not_mem {α : Type} [DecidableEq α] {a : α} {xs : List α} (absent : a ∉ xs) : xs.splitOn a = [xs] := by
  induction xs with
  | nil => exact List.splitOn_nil a
  | cons x xs later =>
    rw [List.mem_cons, not_or] at absent
    rw [List.splitOn_cons_eq_if_modifyHead, later absent.2, if_neg (by simpa using fun same : x = a => absent.1 same.symm)]
    rfl

theorem trimMatches_idempotent (drop : Char → Bool) (text : List Char) :
    trimMatches drop (trimMatches drop text) = trimMatches drop text := by
  have front : (trimMatches drop text).dropWhile drop = trimMatches drop text := by
    rw [List.dropWhile_eq_self_iff]
    intro some
    have before : trimMatches drop text <+: text.dropWhile drop := List.rdropWhile_prefix drop _
    rw [before.getElem some]
    exact List.dropWhile_get_zero_not drop text _
  rw [trimMatches, front]
  exact List.rdropWhile_idempotent drop _

theorem trimMatches_within (drop : Char → Bool) (text : List Char) : trimMatches drop text <:+: text :=
  (List.rdropWhile_prefix drop _).isInfix.trans (List.dropWhile_suffix drop).isInfix

theorem withoutNewline_prefix (piece : List Char) : withoutNewline piece <+: piece := by
  unfold withoutNewline
  split
  · exact List.dropLast_prefix piece
  · exact List.prefix_rfl

theorem lineOf_starts (piece : List Char) : lineOf piece <+: piece := by
  unfold lineOf
  split
  · exact (List.dropLast_prefix _).trans (List.dropLast_prefix piece)
  · exact withoutNewline_prefix piece

/-- A line is a stretch of the text. -/
theorem infix_of_mem_lines {text line : List Char} (member : line ∈ lines text) : line <:+: text := by
  obtain ⟨piece, inside, rfl⟩ := List.mem_map.mp member
  have part := List.infix_of_mem_flatten inside
  rw [flatten_splitInclusive] at part
  exact (lineOf_starts piece).isInfix.trans part

theorem splitOnce_append {c : Char} {front : List Char} (absent : c ∉ front) (rest : List Char) :
    splitOnce c (front ++ c :: rest) = some (front, rest) := by
  have all : ∀ d ∈ front, decide (d ≠ c) = true :=
    fun d inside => decide_eq_true (ne_of_mem_of_not_mem inside absent)
  have found : c ∈ front ++ c :: rest := List.mem_append_right _ List.mem_cons_self
  rw [splitOnce, if_pos found, List.takeWhile_append_of_pos all, List.dropWhile_append_of_pos all]
  simp

theorem splitN_append {c : Char} {front : List Char} (absent : c ∉ front) (n : Nat) (rest : List Char) :
    splitN (n + 2) c (front ++ c :: rest) = front :: splitN (n + 1) c rest := by
  rw [splitN, splitOnce_append absent]

/-- The text before the first occurrence of a character and the text behind it. -/
theorem first_piece_injective {c : Char} {as bs front tail : List Char} (left : c ∉ as) (right : c ∉ bs)
    (same : as ++ c :: front = bs ++ c :: tail) : as = bs ∧ front = tail := by
  have first := splitOnce_append left front
  rw [same, splitOnce_append right tail] at first
  have pieces := Prod.mk.inj (Option.some.inj first)
  exact ⟨pieces.1.symm, pieces.2.symm⟩

/-- The same of the last occurrence. -/
theorem last_piece_injective {c : Char} {as bs front tail : List Char} (left : c ∉ front) (right : c ∉ tail)
    (same : as ++ c :: front = bs ++ c :: tail) : as = bs ∧ front = tail := by
  have turned := congrArg List.reverse same
  simp only [List.reverse_append, List.reverse_cons, List.append_assoc, List.singleton_append] at turned
  have pieces := first_piece_injective (mt List.mem_reverse.mp left) (mt List.mem_reverse.mp right) turned
  exact ⟨List.reverse_inj.mp pieces.2, List.reverse_inj.mp pieces.1⟩

/-- `rsplit_once`. -/
def rsplitOnce (c : Char) : List Char → Option (List Char × List Char)
  | [] => none
  | d :: ds =>
    match rsplitOnce c ds with
    | some (front, rest) => some (d :: front, rest)
    | none => if d = c then some ([], ds) else none

theorem rsplitOnce_none {c : Char} {text : List Char} : rsplitOnce c text = none ↔ c ∉ text := by
  induction text with
  | nil => simp [rsplitOnce]
  | cons d ds ih =>
    rw [rsplitOnce]
    cases split : rsplitOnce c ds with
    | some pieces =>
      have found : c ∈ ds := by
        by_contra absent
        rw [ih.mpr absent] at split
        cases split
      simp [found]
    | none =>
      have absent : c ∉ ds := ih.mp split
      simp [absent, eq_comm]

theorem rsplitOnce_some {c : Char} {text front rest : List Char} :
    rsplitOnce c text = some (front, rest) ↔ text = front ++ c :: rest ∧ c ∉ rest := by
  induction text generalizing front rest with
  | nil => simp [rsplitOnce]
  | cons d ds ih =>
    rw [rsplitOnce]
    cases split : rsplitOnce c ds with
    | some pieces =>
      obtain ⟨before, behind⟩ := pieces
      obtain ⟨whole, absent⟩ := ih.mp split
      simp only [Option.some.injEq, Prod.mk.injEq]
      constructor
      · intro same
        obtain ⟨rfl, rfl⟩ := same
        exact ⟨by rw [whole, List.cons_append], absent⟩
      · intro parts
        obtain ⟨same, apart⟩ := parts
        rw [whole, ← List.cons_append] at same
        exact last_piece_injective absent apart same
    | none =>
      have absent : c ∉ ds := rsplitOnce_none.mp split
      by_cases here : d = c
      · rw [if_pos here]
        simp only [Option.some.injEq, Prod.mk.injEq]
        constructor
        · intro same
          obtain ⟨rfl, rfl⟩ := same
          exact ⟨by rw [here, List.nil_append], absent⟩
        · intro parts
          obtain ⟨same, apart⟩ := parts
          rw [here] at same
          exact @last_piece_injective c [] _ _ _ absent apart same
      · rw [if_neg here]
        constructor
        · intro none
          cases none
        intro parts
        obtain ⟨same, -⟩ := parts
        cases front with
        | nil => exact absurd (List.cons.inj same).1 here
        | cons e es =>
          refine absurd ?_ absent
          rw [(List.cons.inj same).2]
          exact List.mem_append_right _ List.mem_cons_self

end Text
