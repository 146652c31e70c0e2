import Mathlib.Algebra.Order.BigOperators.Group.List
import Mathlib.Algebra.Order.Ring.Cast
import Mathlib.Tactic.GCongr
import Mathlib.Tactic.NormNum
import Mathlib.Tactic.Ring

/-! Sums of gains under a discount that falls with the place. A list of gains is worth no more than another whose first
gains always sum to at least as much, and of the gains that can be picked from a sorted list its first ones sum to most. -/

namespace Discounted

variable {R : Type*} [CommSemiring R]

/-- The gains of a list, each times the discount of its place. -/
def weigh (discount : Nat → R) : List Nat → R
  | [] => 0
  | gain :: gains => gain * discount 0 + weigh (fun place => discount (place + 1)) gains

@[simp] theorem weigh_nil (discount : Nat → R) : weigh discount [] = 0 := rfl

@[simp] theorem weigh_cons (discount : Nat → R) (gain : Nat) (gains : List Nat) :
    weigh discount (gain :: gains) = gain * discount 0 + weigh (fun place => discount (place + 1)) gains := rfl

/-- The sum as a loop over numbered elements makes it. -/
theorem foldl_zipIdx {T : Type*} (discount : Nat → R) (gain : T → Nat) (docs : List T) (first : Nat) (sum : R) :
    ((docs.zipIdx first).map fun entry => (gain entry.1 : R) * discount entry.2).foldl (fun acc gain => acc + gain) sum =
      sum + weigh (fun place => discount (first + place)) (docs.map gain) := by
  induction docs generalizing first sum with
  | nil => simp
  | cons doc docs later =>
    rw [List.zipIdx_cons, List.map_cons, List.foldl_cons, later, List.map_cons, weigh_cons, add_assoc]
    have shift : (fun place => discount (first + 1 + place)) = fun place => discount (first + (place + 1)) := by
      funext place
      congr 1
      omega
    rw [shift, Nat.add_zero]

variable [PartialOrder R] [IsOrderedRing R] {discount : Nat → R} {left right : List Nat}

theorem weigh_nonneg (positive : ∀ place, 0 ≤ discount place) (gains : List Nat) : 0 ≤ weigh discount gains := by
  induction gains generalizing discount with
  | nil => exact le_refl 0
  | cons gain gains later =>
    have first : 0 ≤ (gain : R) * discount 0 := mul_nonneg (Nat.cast_nonneg gain) (positive 0)
    exact add_nonneg first (later fun place => positive (place + 1))

/-- What is not yet used of a slack moves on to the next place, where it is worth no more. -/
theorem weigh_step {gain other slack onward : Nat} {rest worth : R} (falls : discount 1 ≤ discount 0)
    (used : onward + gain = slack + other) (below : rest ≤ onward * discount 1 + worth) :
    gain * discount 0 + rest ≤ slack * discount 0 + (other * discount 0 + worth) := by
  have total : (onward : R) + gain = slack + other := by rw [← Nat.cast_add, ← Nat.cast_add, used]
  calc gain * discount 0 + rest ≤ gain * discount 0 + (onward * discount 1 + worth) := by gcongr
    _ ≤ gain * discount 0 + (onward * discount 0 + worth) := by gcongr
    _ = (onward + gain) * discount 0 + worth := by ring
    _ = (slack + other) * discount 0 + worth := by rw [total]
    _ = slack * discount 0 + (other * discount 0 + worth) := by ring

theorem weigh_le_slack (falls : ∀ place, discount (place + 1) ≤ discount place) (positive : ∀ place, 0 ≤ discount place)
    (slack : Nat) (below : ∀ count, (left.take count).sum ≤ slack + (right.take count).sum) :
    weigh discount left ≤ slack * discount 0 + weigh discount right := by
  induction left generalizing discount slack right with
  | nil =>
    have first : 0 ≤ (slack : R) * discount 0 := mul_nonneg (Nat.cast_nonneg slack) (positive 0)
    exact add_nonneg first (weigh_nonneg positive right)
  | cons gain left later =>
    have falls' : ∀ place, discount (place + 1 + 1) ≤ discount (place + 1) := fun place => falls (place + 1)
    have positive' : ∀ place, 0 ≤ discount (place + 1) := fun place => positive (place + 1)
    have first := below 1
    cases right with
    | nil =>
      simp only [List.take_succ_cons, List.take_zero, List.sum_cons, List.sum_nil, List.take_nil] at first
      have rest := @later (fun place => discount (place + 1)) [] falls' positive' (slack - gain) fun count => by
        have := below (count + 1)
        simp only [List.take_succ_cons, List.sum_cons, List.take_nil, List.sum_nil] at this ⊢
        omega
      have step := weigh_step (falls 0) (show slack - gain + gain = slack + 0 by omega) rest
      simpa using step
    | cons other right =>
      simp only [List.take_succ_cons, List.take_zero, List.sum_cons, List.sum_nil] at first
      have rest := @later (fun place => discount (place + 1)) right falls' positive' (slack + other - gain) fun count => by
        have := below (count + 1)
        simp only [List.take_succ_cons, List.sum_cons] at this
        omega
      exact weigh_step (falls 0) (show slack + other - gain + gain = slack + other by omega) rest

/-- A list whose first gains never sum to more is worth no more. -/
theorem weigh_le (falls : ∀ place, discount (place + 1) ≤ discount place) (positive : ∀ place, 0 ≤ discount place)
    (below : ∀ count, (left.take count).sum ≤ (right.take count).sum) : weigh discount left ≤ weigh discount right := by
  have slackless : weigh discount left ≤ (0 : Nat) * discount 0 + weigh discount right :=
    weigh_le_slack falls positive 0 fun count => by rw [Nat.zero_add]; exact below count
  rwa [Nat.cast_zero, zero_mul, zero_add] at slackless

/-- Of the gains picked from a list in falling order, the first ones sum to most. -/
theorem sum_le_take {sorted picked : List Nat} (falls : sorted.Pairwise (· ≥ ·)) (sub : picked.Sublist sorted) (count : Nat)
    (few : picked.length ≤ count) : picked.sum ≤ (sorted.take count).sum := by
  induction sorted generalizing picked count with
  | nil => rw [List.sublist_nil.mp sub, List.take_nil]
  | cons top sorted later =>
    rw [List.pairwise_cons] at falls
    cases picked with
    | nil => exact Nat.zero_le _
    | cons gain picked =>
      cases count with
      | zero => cases few
      | succ count =>
        rw [List.length_cons] at few
        have rest := later falls.2 sub.of_cons_cons count (by omega)
        have bound : gain ≤ top := by
          rcases List.mem_cons.mp (sub.subset List.mem_cons_self) with same | inside
          · exact Nat.le_of_eq same
          · exact falls.1 gain inside
        rw [List.take_succ_cons, List.sum_cons, List.sum_cons]
        omega

end Discounted
