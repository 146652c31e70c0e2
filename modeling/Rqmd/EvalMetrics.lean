import Mathlib.Analysis.SpecialFunctions.Log.Base
import Mathlib.Data.List.Sort
import Rqmd.Lib.Discounted

/-! The gain of a ranking and that of the ideal order. Grades are whole numbers; the arithmetic of the sums is exact, over
any ordered field. -/

namespace Rqmd.Eval
open Discounted

/-- The judged documents of a query with their grades, in the order a map lists them. -/
structure Judgements (T : Type) where
  entries : List (T × Nat)
  distinct : (entries.map Prod.fst).Nodup

/-- The grades, highest first. -/
def idealGrades {T : Type} (grades : Judgements T) : List Nat := (grades.entries.map Prod.snd).insertionSort (· ≥ ·)

theorem idealGrades_falls {T : Type} (grades : Judgements T) : (idealGrades grades).Pairwise (· ≥ ·) :=
  List.pairwise_insertionSort _ _

variable {T : Type} [DecidableEq T]

def Judgements.docs (grades : Judgements T) : List T := grades.entries.map Prod.fst

def Judgements.grade (grades : Judgements T) (doc : T) : Nat := (grades.entries.lookup doc).getD 0

/-- The discount of the code, `1 / log2(rank + 1)`. -/
noncomputable def discount (rank : Nat) : ℝ := 1 / Real.logb 2 (rank + 1)

section Scores

variable {R : Type} [Field R]

def dcgAtK (discount : Nat → R) (ranked : List T) (grades : Judgements T) (k : Nat) : R :=
  ((ranked.take k).zipIdx.map fun (doc, i) => (grades.grade doc : R) * discount (i + 1)).foldl
    (fun acc gain => acc + gain) 0

def idealDcgAtK (discount : Nat → R) (grades : Judgements T) (k : Nat) : R :=
  (((idealGrades grades).take k).zipIdx.map fun (grade, i) =>
    (grade : R) * discount (i + 1)).foldl (fun acc gain => acc + gain) 0

def ndcgAtK [LinearOrder R] (discount : Nat → R) (ranked : List T) (grades : Judgements T) (k : Nat) : R :=
  let ideal := idealDcgAtK discount grades k
  if ideal ≤ 0 then 0 else dcgAtK discount ranked grades k / ideal

end Scores

variable {grades : Judgements T} {ranked judged rest : List T}

/-! ### Grades -/

theorem grade_of_mem {doc : T} {grade : Nat} (entry : (doc, grade) ∈ grades.entries) : grades.grade doc = grade := by
  have found : grades.entries.lookup doc = some grade := by
    have distinct := grades.distinct
    generalize grades.entries = entries at entry distinct
    induction entries with
    | nil => exact absurd entry List.not_mem_nil
    | cons first entries later =>
      obtain ⟨name, value⟩ := first
      rw [List.map_cons, List.nodup_cons] at distinct
      rcases List.mem_cons.mp entry with same | inside
      · obtain ⟨rfl, rfl⟩ := Prod.mk.inj same
        simp
      · have listed : doc ∈ entries.map Prod.fst := List.mem_map.mpr ⟨_, inside, rfl⟩
        have other : doc ≠ name := fun same => distinct.1 (same ▸ listed)
        rw [List.lookup_cons, beq_false_of_ne other]
        exact later inside distinct.2
  rw [Judgements.grade, found, Option.getD_some]

theorem grade_of_not_mem {doc : T} (unjudged : doc ∉ grades.docs) : grades.grade doc = 0 := by
  have none : grades.entries.lookup doc = Option.none := by
    apply List.lookup_eq_none_iff.mpr
    intro entry inside
    rw [bne_iff_ne]
    exact fun same => unjudged (same ▸ List.mem_map_of_mem inside)
  rw [Judgements.grade, none, Option.getD_none]

theorem values_eq (grades : Judgements T) : grades.entries.map Prod.snd = grades.docs.map grades.grade := by
  rw [Judgements.docs, List.map_map]
  apply List.map_congr_left
  intro entry inside
  exact (grade_of_mem inside).symm

/-! ### The gains of a ranking against the ideal ones -/

/-- The grades of some documents are, zeros aside, among the ideal ones. -/
theorem grades_sum_le (distinct : ranked.Nodup) {count : Nat} (few : ranked.length ≤ count) :
    (ranked.map grades.grade).sum ≤ ((idealGrades grades).take count).sum := by
  have judgedOnly : (ranked.map grades.grade).sum = ((ranked.filter (· ∈ grades.docs)).map grades.grade).sum := by
    clear distinct few
    induction ranked with
    | nil => rfl
    | cons doc ranked later =>
      by_cases judged : doc ∈ grades.docs
      · rw [List.filter_cons_of_pos (by simpa using judged), List.map_cons, List.map_cons, List.sum_cons, List.sum_cons, later]
      · rw [List.filter_cons_of_neg (by simpa using judged), List.map_cons, List.sum_cons, later, grade_of_not_mem judged,
          Nat.zero_add]
  have among : (ranked.filter (· ∈ grades.docs)).Subperm grades.docs :=
    List.subperm_of_subset (distinct.filter _) fun doc inside => by simpa using (List.mem_filter.mp inside).2
  have ideal : ((ranked.filter (· ∈ grades.docs)).map grades.grade).Subperm (idealGrades grades) := by
    obtain ⟨docs, perm, sub⟩ := among
    have mapped : ((ranked.filter (· ∈ grades.docs)).map grades.grade).Subperm (grades.docs.map grades.grade) :=
      ⟨docs.map grades.grade, perm.map _, sub.map _⟩
    rw [← values_eq] at mapped
    exact mapped.trans (List.perm_insertionSort _ _).symm.subperm
  obtain ⟨picked, perm, sub⟩ := ideal
  have short : picked.length ≤ count := by
    have lengths := perm.length_eq
    have filtered := List.length_filter_le (· ∈ grades.docs) ranked
    rw [List.length_map] at lengths
    omega
  rw [judgedOnly, ← perm.sum_eq]
  exact sum_le_take (idealGrades_falls grades) sub count short

theorem gains_le (distinct : ranked.Nodup) (k count : Nat) :
    (((ranked.take k).map grades.grade).take count).sum ≤ (((idealGrades grades).take k).take count).sum := by
  rw [← List.map_take, List.take_take, List.take_take]
  exact grades_sum_le (distinct.sublist (List.take_sublist _ _)) (by rw [List.length_take]; exact Nat.min_le_left _ _)

/-- Listing the judged documents first and in falling grades gives the ideal gains. -/
theorem ideal_le_gains (order : ranked = judged ++ rest) (all : judged.Perm grades.docs)
    (falls : (judged.map grades.grade).Pairwise (· ≥ ·)) (k count : Nat) :
    (((idealGrades grades).take k).take count).sum ≤ (((ranked.take k).map grades.grade).take count).sum := by
  have same : idealGrades grades = judged.map grades.grade := by
    have perm : (idealGrades grades).Perm (judged.map grades.grade) := by
      have values := all.map grades.grade
      rw [← values_eq] at values
      exact (List.perm_insertionSort _ _).trans values.symm
    exact perm.eq_of_pairwise (fun _ _ _ _ above below => Nat.le_antisymm below above) (idealGrades_falls grades) falls
  have longer : (judged.map grades.grade).take (min count k) <+: (ranked.map grades.grade).take (min count k) := by
    rw [order, List.map_append]
    exact (List.prefix_append _ _).take _
  rw [List.map_take, List.take_take, List.take_take, same]
  exact longer.sublist.sum_le_sum fun _ _ => Nat.zero_le _

/-! ### The discount of the code -/

theorem discount_positive (rank : Nat) : 0 ≤ discount (rank + 1) := by
  have log : 0 ≤ Real.logb 2 (((rank + 1 : Nat) : ℝ) + 1) := by
    apply Real.logb_nonneg (by norm_num)
    have : (0 : ℝ) ≤ ((rank + 1 : Nat) : ℝ) := Nat.cast_nonneg _
    linarith
  exact one_div_nonneg.mpr log

theorem discount_falls (rank : Nat) : discount (rank + 2) ≤ discount (rank + 1) := by
  have base : (1 : ℝ) < 2 := by norm_num
  have low : (0 : ℝ) ≤ ((rank + 1 : Nat) : ℝ) := Nat.cast_nonneg _
  have next : ((rank + 2 : Nat) : ℝ) = ((rank + 1 : Nat) : ℝ) + 1 := by push_cast; ring
  have positive : 0 < Real.logb 2 (((rank + 1 : Nat) : ℝ) + 1) := by
    apply Real.logb_pos base
    have : (1 : ℝ) ≤ ((rank + 1 : Nat) : ℝ) := by exact_mod_cast Nat.succ_le_succ (Nat.zero_le rank)
    linarith
  have grows : Real.logb 2 (((rank + 1 : Nat) : ℝ) + 1) ≤ Real.logb 2 (((rank + 2 : Nat) : ℝ) + 1) := by
    apply Real.logb_le_logb_of_le base (by linarith)
    rw [next]
    linarith
  exact one_div_le_one_div_of_le positive grows

/-! ### The scores -/

section Exact

variable {R : Type} [Field R] {discount : Nat → R}

theorem dcgAtK_eq (ranked : List T) (grades : Judgements T) (k : Nat) :
    dcgAtK discount ranked grades k = weigh (fun place => discount (place + 1)) ((ranked.take k).map grades.grade) := by
  have sum := foldl_zipIdx (fun place => discount (place + 1)) grades.grade (ranked.take k) 0 0
  simp only [zero_add] at sum
  exact sum

theorem idealDcgAtK_eq {T : Type} (grades : Judgements T) (k : Nat) :
    idealDcgAtK discount grades k = weigh (fun place => discount (place + 1)) ((idealGrades grades).take k) := by
  have sum := foldl_zipIdx (fun place => discount (place + 1)) id ((idealGrades grades).take k) 0 0
  simp only [zero_add, List.map_id] at sum
  exact sum

variable [LinearOrder R] [IsStrictOrderedRing R]

/-- The gain of a ranking is at most that of the ideal order, and the same where the judged documents come first and in
falling grades; so their quotient lies between 0 and 1. -/
theorem ideal_dcg_dominates (positive : ∀ rank, 0 ≤ discount (rank + 1))
    (falls : ∀ rank, discount (rank + 2) ≤ discount (rank + 1)) (grades : Judgements T) (distinct : ranked.Nodup) (k : Nat) :
    dcgAtK discount ranked grades k ≤ idealDcgAtK discount grades k ∧
      (∀ judged rest, ranked = judged ++ rest → judged.Perm grades.docs →
        (judged.map grades.grade).Pairwise (· ≥ ·) → dcgAtK discount ranked grades k = idealDcgAtK discount grades k) ∧
      0 ≤ ndcgAtK discount ranked grades k ∧ ndcgAtK discount ranked grades k ≤ 1 := by
  have below : dcgAtK discount ranked grades k ≤ idealDcgAtK discount grades k := by
    rw [dcgAtK_eq, idealDcgAtK_eq]
    exact weigh_le falls positive (gains_le distinct k)
  refine ⟨below, ?_, ?_⟩
  · intro judged rest order all sorted
    apply le_antisymm below
    rw [dcgAtK_eq, idealDcgAtK_eq]
    exact weigh_le falls positive (ideal_le_gains order all sorted k)
  · have gain : 0 ≤ dcgAtK discount ranked grades k := by
      rw [dcgAtK_eq]
      exact weigh_nonneg positive _
    unfold ndcgAtK
    by_cases none : idealDcgAtK discount grades k ≤ 0
    · rw [if_pos none]
      exact ⟨le_refl 0, zero_le_one⟩
    · rw [if_neg none]
      have ideal : 0 < idealDcgAtK discount grades k := lt_of_not_ge none
      exact ⟨div_nonneg gain ideal.le, (div_le_one ideal).mpr below⟩

end Exact

/-- Three judged documents, one of them found behind an unjudged one. -/
def someJudgements : Judgements String := ⟨[("a", 3), ("b", 2), ("c", 0), ("d", 1)], by decide⟩

theorem some_ranking_dominated :
    dcgAtK discount ["b", "x", "a", "d"] someJudgements 10 ≤ idealDcgAtK discount someJudgements 10 ∧
      ndcgAtK discount ["b", "x", "a", "d"] someJudgements 10 ≤ 1 := by
  have scores := @ideal_dcg_dominates String _ ["b", "x", "a", "d"] ℝ _ discount _ _ discount_positive discount_falls
    someJudgements (by decide) 10
  exact ⟨scores.1, scores.2.2.2⟩

end Rqmd.Eval
