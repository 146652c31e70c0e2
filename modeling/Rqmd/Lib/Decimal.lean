import Mathlib.Algebra.Group.Nat.Defs
import Mathlib.Algebra.Order.Group.Nat

/-! Decimal numbers of a fixed width. They are read back by their value, and their order as texts is the order of the
numbers. -/

namespace Decimal

/-- A number filled up with zeros in front. -/
def pad (width n : Nat) : List Char :=
  List.replicate (width - (Nat.toDigits 10 n).length) '0' ++ Nat.toDigits 10 n

def value (digits : List Char) : Nat := Nat.ofDigitChars 10 digits 0

/-- A number below `limit`, in digits and perhaps with a plus sign in front. -/
def parse (limit : Nat) (text : List Char) : Option Nat :=
  let digits := if text.head? = some '+' then text.tail else text
  if digits ≠ [] ∧ digits.all Char.isDigit ∧ value digits < limit then some (value digits) else none

variable {width m n limit : Nat} {digits : List Char}

theorem pad_digits (width n : Nat) : ∀ c ∈ pad width n, c.isDigit = true := by
  intro c inside
  rcases List.mem_append.mp inside with zero | digit
  · rw [List.eq_of_mem_replicate zero]
    rfl
  · exact Nat.isDigit_of_mem_toDigits (by decide) (by decide) digit

theorem length_pad (fits : n < 10 ^ width) (some : 0 < width) : (pad width n).length = width := by
  have short := (Nat.length_toDigits_le_iff (by decide) some).mpr fits
  rw [pad, List.length_append, List.length_replicate]
  omega

theorem value_pad (width n : Nat) : value (pad width n) = n := by
  rw [value, pad, Nat.ofDigitChars_append, Nat.ofDigitChars_replicate_zero, Nat.mul_zero, Nat.ofDigitChars_ten_toDigits]

theorem parse_pad (width : Nat) (below : n < limit) : parse limit (pad width n) = some n := by
  have some : pad width n ≠ [] := fun none => Nat.toDigits_ne_nil (List.append_eq_nil_iff.mp none).2
  have unsigned : (pad width n).head? ≠ Option.some '+' := by
    intro sign
    have digit := pad_digits width n '+' (List.mem_of_mem_head? sign)
    exact absurd digit (by decide)
  have digits : (pad width n).all Char.isDigit = true := List.all_eq_true.mpr (pad_digits width n)
  rw [parse, if_neg unsigned, value_pad]
  exact if_pos ⟨some, digits, below⟩

theorem value_cons (c : Char) (digits : List Char) :
    value (c :: digits) = 10 ^ digits.length * (c.toNat - 48) + value digits := by
  rw [value, Nat.ofDigitChars_cons, Nat.ofDigitChars_eq_ofDigitChars_zero, Nat.mul_zero, Nat.zero_add]
  rfl

theorem digit_range {c : Char} (digit : c.isDigit = true) : 48 ≤ c.toNat ∧ c.toNat ≤ 57 := by
  rw [Char.isDigit, Bool.and_eq_true, decide_eq_true_iff, decide_eq_true_iff] at digit
  exact ⟨UInt32.le_iff_toNat_le.mp digit.1, UInt32.le_iff_toNat_le.mp digit.2⟩

theorem value_lt (all : ∀ c ∈ digits, c.isDigit = true) : value digits < 10 ^ digits.length := by
  induction digits with
  | nil => exact Nat.one_pos
  | cons c digits later =>
    have first := digit_range (all c List.mem_cons_self)
    have rest := later fun d inside => all d (List.mem_cons_of_mem c inside)
    have nine : 10 ^ digits.length * (c.toNat - 48) ≤ 10 ^ digits.length * 9 := Nat.mul_le_mul_left _ (by omega)
    rw [value_cons, List.length_cons, Nat.pow_succ]
    omega

/-- Among digits of one length the smaller number is the smaller text, whatever follows. -/
theorem lt_of_value_lt {as bs : List Char} (same : as.length = bs.length) (left : ∀ c ∈ as, c.isDigit = true)
    (right : ∀ c ∈ bs, c.isDigit = true) (less : value as < value bs) (s t : List Char) : as ++ s < bs ++ t := by
  induction as generalizing bs with
  | nil =>
    cases bs with
    | nil => exact absurd less (Nat.lt_irrefl _)
    | cons b bs => cases same
  | cons a as later =>
    cases bs with
    | nil => cases same
    | cons b bs =>
      have lengths : as.length = bs.length := Nat.succ.inj same
      have left' : ∀ c ∈ as, c.isDigit = true := fun c inside => left c (List.mem_cons_of_mem a inside)
      have right' : ∀ c ∈ bs, c.isDigit = true := fun c inside => right c (List.mem_cons_of_mem b inside)
      have low := value_lt left'
      have high := value_lt right'
      have first := digit_range (left a List.mem_cons_self)
      have second := digit_range (right b List.mem_cons_self)
      rw [value_cons, value_cons, lengths] at less
      rw [lengths] at low
      rw [List.cons_append, List.cons_append, List.cons_lt_cons_iff]
      by_cases equal : a = b
      · subst equal
        exact .inr ⟨rfl, later lengths left' right' (by omega)⟩
      · have differ : a.toNat ≠ b.toNat := fun same => equal (Char.toNat_inj.mp same)
        refine .inl (UInt32.lt_iff_toNat_lt.mpr ?_)
        by_contra larger
        have above : b.toNat + 1 ≤ a.toNat := by
          change ¬a.toNat < b.toNat at larger
          omega
        have step : 10 ^ bs.length * (b.toNat - 48) + 10 ^ bs.length ≤ 10 ^ bs.length * (a.toNat - 48) := by
          rw [← Nat.mul_succ]
          exact Nat.mul_le_mul_left _ (by omega)
        omega

theorem pad_lt_pad (less : m < n) (fits : n < 10 ^ width) (some : 0 < width) (s t : List Char) :
    pad width m ++ s < pad width n ++ t := by
  have lengths : (pad width m).length = (pad width n).length := by
    rw [length_pad (less.trans fits) some, length_pad fits some]
  refine lt_of_value_lt lengths (pad_digits width m) (pad_digits width n) ?_ s t
  rw [value_pad, value_pad]
  exact less

end Decimal
