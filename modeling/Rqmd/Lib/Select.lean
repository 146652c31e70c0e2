import Mathlib.Data.List.Basic
import Mathlib.Data.List.Sort
import Mathlib.Tactic.Common

/-! Selecting from a list by a key. -/

namespace Select

variable {α β : Type*}

/-- `min_by_key` over `first :: rest`: the first element with the least key. -/
def minBy (key : α → Nat) (first : α) (rest : List α) : α :=
  rest.foldl (fun best a => if key a < key best then a else best) first

/-- Where the element stands: everything before it has a greater key, nothing behind it a smaller one. -/
theorem minBy_spec (key : α → Nat) (first : α) (rest : List α) :
    ∃ before after, first :: rest = before ++ minBy key first rest :: after ∧
      (∀ a ∈ before, key (minBy key first rest) < key a) ∧ ∀ a ∈ after, key (minBy key first rest) ≤ key a := by
  induction rest generalizing first with
  | nil => exact ⟨[], [], rfl, by simp, by simp⟩
  | cons a rest ih =>
    by_cases closer : key a < key first
    · obtain ⟨before, after, place, greater, least⟩ := ih a
      have step : minBy key first (a :: rest) = minBy key a rest := by simp [minBy, closer]
      rw [step]
      refine ⟨first :: before, after, by rw [place, List.cons_append], fun b member => ?_, least⟩
      rcases List.mem_cons.mp member with rfl | inside
      · cases before with
        | nil =>
          have same : a = minBy key a rest := (List.cons.inj place).1
          rwa [← same]
        | cons c before =>
          have same : a = c := (List.cons.inj place).1
          have := greater c List.mem_cons_self
          rw [← same] at this
          omega
      · exact greater b inside
    · obtain ⟨before, after, place, greater, least⟩ := ih first
      have step : minBy key first (a :: rest) = minBy key first rest := by simp [minBy, closer]
      rw [step]
      cases before with
      | nil =>
        obtain ⟨same, tail⟩ := List.cons.inj place
        refine ⟨[], a :: rest, by rw [← same, List.nil_append], by simp, fun b member => ?_⟩
        rw [← same]
        rcases List.mem_cons.mp member with rfl | inside
        · omega
        · have := least b (tail ▸ inside)
          rwa [← same] at this
      | cons c before =>
        obtain ⟨same, tail⟩ := List.cons.inj place
        have best := greater c List.mem_cons_self
        refine ⟨first :: a :: before, after, ?_, fun b member => ?_, least⟩
        · exact congrArg (fun tail => first :: a :: tail) tail
        · rcases List.mem_cons.mp member with rfl | inside
          · rwa [← same] at best
          · rcases List.mem_cons.mp inside with rfl | early
            · rw [← same] at best
              omega
            · exact greater b (List.mem_cons_of_mem _ early)

theorem minBy_map (key : β → Nat) (f : α → β) (first : α) (rest : List α) :
    minBy key (f first) (rest.map f) = f (minBy (fun a => key (f a)) first rest) := by
  induction rest generalizing first with
  | nil => rfl
  | cons a rest ih =>
    by_cases closer : key (f a) < key (f first)
    · simpa [minBy, closer] using ih a
    · simpa [minBy, closer] using ih first

/-! ### Runs of one key -/

section Dedup
variable {κ : Type*} [DecidableEq κ] (key : α → κ)

/-- What is left behind `last` when an element goes that has the key of the last one kept. -/
def dedupAfter (last : α) : List α → List α
  | [] => []
  | a :: rest => if key a = key last then dedupAfter last rest else a :: dedupAfter a rest

/-- `dedup_by_key`: of neighbours with one key the first stays. -/
def dedupByKey : List α → List α
  | [] => []
  | a :: rest => a :: dedupAfter key a rest

variable {key}

theorem dedupAfter_sublist (last : α) (l : List α) : (dedupAfter key last l).Sublist l := by
  induction l generalizing last with
  | nil => exact .slnil
  | cons a rest ih =>
    rw [dedupAfter]
    split
    · exact (ih last).cons a
    · exact (ih a).cons_cons a

/-- Where a key names one element nothing is lost. -/
theorem mem_dedupAfter {last : α} {l : List α} (names : ∀ a ∈ last :: l, ∀ b ∈ last :: l, key a = key b → a = b) {a : α}
    (member : a ∈ l) : a = last ∨ a ∈ dedupAfter key last l := by
  induction l generalizing last with
  | nil => exact absurd member List.not_mem_nil
  | cons b rest ih =>
    have onward : ∀ kept ∈ last :: b :: rest, ∀ a ∈ kept :: rest, ∀ c ∈ kept :: rest, key a = key c → a = c := by
      intro kept known
      have within : ∀ a ∈ kept :: rest, a ∈ last :: b :: rest := by
        intro a inside
        rcases List.mem_cons.mp inside with rfl | behind
        · exact known
        · exact List.mem_cons_of_mem _ (List.mem_cons_of_mem _ behind)
      exact fun a left c right => names a (within a left) c (within c right)
    rw [dedupAfter]
    by_cases same : key b = key last
    · rw [if_pos same]
      rcases List.mem_cons.mp member with rfl | behind
      · exact .inl (names _ (List.mem_cons_of_mem _ List.mem_cons_self) _ List.mem_cons_self same)
      · exact ih (onward last List.mem_cons_self) behind
    · rw [if_neg same]
      right
      rcases List.mem_cons.mp member with rfl | behind
      · exact List.mem_cons_self
      · rcases ih (onward b (List.mem_cons_of_mem _ List.mem_cons_self)) behind with rfl | kept
        · exact List.mem_cons_self
        · exact List.mem_cons_of_mem _ kept

/-- The elements of a sorted list, each kept once and in strict order. -/
theorem dedupAfter_strict {r : α → α → Prop} {last : α} {l : List α} (sorted : (last :: l).Pairwise r)
    (order : ∀ a ∈ last :: l, ∀ b ∈ last :: l, r a b → r b a → a = b) :
    (last :: dedupAfter key last l).Pairwise fun a b => r a b ∧ a ≠ b := by
  induction l generalizing last with
  | nil => exact List.pairwise_singleton _ _
  | cons b rest ih =>
    obtain ⟨first, tail⟩ := List.pairwise_cons.mp sorted
    have fewer : ∀ kept ∈ last :: b :: rest, ∀ a ∈ kept :: rest, ∀ c ∈ kept :: rest, r a c → r c a → a = c := by
      intro kept known
      have within : ∀ a ∈ kept :: rest, a ∈ last :: b :: rest := by
        intro a inside
        rcases List.mem_cons.mp inside with rfl | behind
        · exact known
        · exact List.mem_cons_of_mem _ (List.mem_cons_of_mem _ behind)
      exact fun a left c right => order a (within a left) c (within c right)
    rw [dedupAfter]
    by_cases same : key b = key last
    · rw [if_pos same]
      exact ih (List.pairwise_cons.mpr ⟨fun a behind => first a (List.mem_cons_of_mem b behind),
        (List.pairwise_cons.mp tail).2⟩) (fewer last List.mem_cons_self)
    · rw [if_neg same]
      have onward := ih tail (fewer b (List.mem_cons_of_mem _ List.mem_cons_self))
      refine List.pairwise_cons.mpr ⟨fun a kept => ?_, onward⟩
      have there : a ∈ b :: rest := by
        rcases List.mem_cons.mp kept with rfl | behind
        · exact List.mem_cons_self
        · exact List.mem_cons_of_mem _ ((dedupAfter_sublist b rest).subset behind)
      refine ⟨first a there, ?_⟩
      intro back
      subst back
      rcases List.mem_cons.mp there with again | behind
      · exact same (congrArg key again.symm)
      · have down := (List.pairwise_cons.mp tail).1 last behind
        have up := first b List.mem_cons_self
        exact same (congrArg key (order b (List.mem_cons_of_mem _ List.mem_cons_self) last List.mem_cons_self down up))

theorem mem_dedupByKey {l : List α} (names : ∀ a ∈ l, ∀ b ∈ l, key a = key b → a = b) {a : α} :
    a ∈ dedupByKey key l ↔ a ∈ l := by
  cases l with
  | nil => exact Iff.rfl
  | cons b rest =>
    rw [dedupByKey, List.mem_cons, List.mem_cons]
    constructor
    · exact Or.imp_right fun kept => (dedupAfter_sublist b rest).subset kept
    · intro member
      rcases member with rfl | behind
      · exact .inl rfl
      · exact mem_dedupAfter names behind

theorem dedupByKey_strict {r : α → α → Prop} {l : List α} (sorted : l.Pairwise r)
    (order : ∀ a ∈ l, ∀ b ∈ l, r a b → r b a → a = b) : (dedupByKey key l).Pairwise fun a b => r a b ∧ a ≠ b := by
  cases l with
  | nil => exact .nil
  | cons b rest => exact dedupAfter_strict sorted order

/-- Two strictly sorted lists with the same elements are one list. -/
theorem eq_of_strict {r : α → α → Prop} {l k : List α} (order : ∀ a ∈ l, ∀ b ∈ l, r a b → r b a → a = b)
    (left : l.Pairwise fun a b => r a b ∧ a ≠ b) (right : k.Pairwise fun a b => r a b ∧ a ≠ b)
    (same : ∀ a, a ∈ l ↔ a ∈ k) : l = k := by
  have perm : l.Perm k := by
    apply (List.perm_ext_iff_of_nodup _ _).mpr same
    · exact left.imp fun both => both.2
    · exact right.imp fun both => both.2
  apply perm.eq_of_pairwise _ left right
  intro a b inside _ up down
  exact order a inside b ((same b).mpr ‹_›) up.1 down.1

end Dedup

/-! ### Groups -/

/-- `chunks`: the list in groups of `size`, the last one shorter. -/
def groups (size : Nat) : Nat → List α → List (List α)
  | 0, _ => []
  | fuel + 1, l => if l.isEmpty then [] else l.take size :: groups size fuel (l.drop size)

def chunks (size : Nat) (l : List α) : List (List α) := groups size l.length l

theorem groups_flatten {size : Nat} (some : 0 < size) {fuel : Nat} {l : List α} (enough : l.length ≤ fuel) :
    (groups size fuel l).flatten = l := by
  induction fuel generalizing l with
  | zero => exact (List.eq_nil_of_length_eq_zero (Nat.le_zero.mp enough)).symm
  | succ fuel ih =>
    rw [groups]
    cases l with
    | nil => rfl
    | cons a rest =>
      have fewer : ((a :: rest).drop size).length ≤ fuel := by
        rw [List.length_drop]
        rw [List.length_cons] at enough ⊢
        omega
      rw [if_neg (by simp), List.flatten_cons, ih fewer, List.take_append_drop]

theorem chunks_flatten {size : Nat} (some : 0 < size) (l : List α) : (chunks size l).flatten = l :=
  groups_flatten some (Nat.le_refl _)

/-! ### The first that passes, in a sorted list -/

section Sorted

variable {l : List α} {r : α → α → Prop} {p : α → Bool} {a : α}

/-- In a sorted list the first element that passes is the least one that does. -/
theorem find?_first_iff (sorted : l.Pairwise r) (reflexive : ∀ a, r a a)
    (order : ∀ a ∈ l, ∀ b ∈ l, r a b → r b a → a = b) :
    l.find? p = some a ↔ a ∈ l ∧ p a = true ∧ ∀ b ∈ l, p b = true → r a b := by
  have least : ∀ c, l.find? p = some c → c ∈ l ∧ p c = true ∧ ∀ b ∈ l, p b = true → r c b := by
    intro c found
    refine ⟨List.mem_of_find?_eq_some found, List.find?_some found, ?_⟩
    obtain ⟨_, before, after, rfl, early⟩ := List.find?_eq_some_iff_append.mp found
    intro b inside passes
    rcases List.mem_append.mp inside with first | rest
    · have fails := early b first
      rw [passes] at fails
      cases fails
    · rcases List.mem_cons.mp rest with rfl | later
      · exact reflexive _
      · exact (List.pairwise_cons.mp (List.pairwise_append.mp sorted).2.1).1 b later
  refine ⟨least a, fun ⟨inside, passes, first⟩ => ?_⟩
  cases found : l.find? p with
  | none => exact absurd passes (List.find?_eq_none.mp found a inside)
  | some c =>
    obtain ⟨member, good, below⟩ := least c found
    rw [order a inside c member (first c member good) (below a inside passes)]

/-- What a search passes over: all that fails up to the element it finds. -/
theorem mem_takeWhile_iff (sorted : l.Pairwise r) (order : ∀ a ∈ l, ∀ b ∈ l, r a b → r b a → a = b) :
    a ∈ l.takeWhile (fun b => !p b) ↔ a ∈ l ∧ p a = false ∧ ∀ b, l.find? p = some b → r a b := by
  induction l with
  | nil => simp
  | cons c rest later =>
    obtain ⟨first, tail⟩ := List.pairwise_cons.mp sorted
    have within := later tail fun x left y right =>
      order x (List.mem_cons_of_mem _ left) y (List.mem_cons_of_mem _ right)
    cases passes : p c with
    | false =>
      have fails : (fun b => !p b) c = true := by simp [passes]
      have skips : ¬ p c = true := by rw [passes]; decide
      rw [List.takeWhile_cons_of_pos (p := fun b => !p b) fails, List.find?_cons_of_neg skips, List.mem_cons, within, List.mem_cons]
      constructor
      · intro here
        rcases here with rfl | ⟨inside, fail, before⟩
        · exact ⟨.inl rfl, passes, fun b found => first b (List.mem_of_find?_eq_some found)⟩
        · exact ⟨.inr inside, fail, before⟩
      · intro ⟨place, fail, before⟩
        exact place.imp id fun inside => ⟨inside, fail, before⟩
    | true =>
      have stops : ¬ (fun b => !p b) c = true := by simp [passes]
      rw [List.takeWhile_cons_of_neg (p := fun b => !p b) stops, List.find?_cons_of_pos passes]
      constructor
      · exact fun none => absurd none List.not_mem_nil
      · intro ⟨place, fail, before⟩
        have same : a = c := by
          rcases List.mem_cons.mp place with here | inside
          · exact here
          · exact order a place c List.mem_cons_self (before c rfl) (first a inside)
        rw [same, passes] at fail
        cases fail

end Sorted

end Select
