import Mathlib.Data.List.Dedup
import Mathlib.Data.List.Perm.Basic
import Mathlib.Data.List.Sort
import Mathlib.Order.Defs.LinearOrder

/-! Ranking hits by a value: of each position the best hit, of each key the best positions, and of all keys the best.
A front of the hits that holds enough keys ranks as all of them do. -/

namespace Ranking

variable {α L : Type*} [LinearOrder L]

/-! ### Sorting by a comparison that refines the value -/

/-- The comparison puts no hit before one of a higher value. -/
structure Refines (r : α → α → Prop) (v : α → L) (l : List α) : Prop where
  down : ∀ a ∈ l, ∀ b ∈ l, r a b → v b ≤ v a
  up : ∀ a ∈ l, ∀ b ∈ l, ¬ r a b → v a ≤ v b

/-- The values fall. -/
def Falling (v : α → L) (l : List α) : Prop := l.Pairwise fun a b => v b ≤ v a

section Refined
variable {r : α → α → Prop} {v : α → L} {l : List α}

theorem Refines.sub {k : List α} (refines : Refines r v l) (within : ∀ a ∈ k, a ∈ l) : Refines r v k :=
  ⟨fun a left b right => refines.down a (within a left) b (within b right),
    fun a left b right => refines.up a (within a left) b (within b right)⟩

theorem Refines.tail {a : α} (refines : Refines r v (a :: l)) : Refines r v l :=
  refines.sub fun _ => List.mem_cons_of_mem a

variable [DecidableRel r]

theorem falling_orderedInsert {a : α} (refines : Refines r v (a :: l)) (falling : Falling v l) :
    Falling v (l.orderedInsert r a) := by
  induction l with
  | nil => exact List.pairwise_singleton _ _
  | cons b rest later =>
    obtain ⟨first, onward⟩ := List.pairwise_cons.mp falling
    rw [List.orderedInsert]
    by_cases before : r a b
    · rw [if_pos before]
      have top := refines.down a List.mem_cons_self b (List.mem_cons_of_mem a List.mem_cons_self) before
      refine List.pairwise_cons.mpr ⟨fun c inside => ?_, falling⟩
      rcases List.mem_cons.mp inside with rfl | behind
      · exact top
      · exact (first c behind).trans top
    · rw [if_neg before]
      have below := refines.up a List.mem_cons_self b (List.mem_cons_of_mem a List.mem_cons_self) before
      have fewer : ∀ c ∈ a :: rest, c ∈ a :: b :: rest := by
        intro c inside
        rcases List.mem_cons.mp inside with rfl | behind
        · exact List.mem_cons_self
        · exact List.mem_cons_of_mem a (List.mem_cons_of_mem b behind)
      refine List.pairwise_cons.mpr ⟨fun c inside => ?_, later (refines.sub fewer) onward⟩
      rcases (List.mem_orderedInsert r).mp inside with rfl | behind
      · exact below
      · exact first c behind

theorem falling_insertionSort (refines : Refines r v l) : Falling v (l.insertionSort r) := by
  induction l with
  | nil => exact .nil
  | cons a rest later =>
    refine falling_orderedInsert (refines.sub fun b inside => ?_) (later refines.tail)
    rcases List.mem_cons.mp inside with rfl | behind
    · exact List.mem_cons_self
    · exact List.mem_cons_of_mem a ((List.mem_insertionSort r).mp behind)

theorem pairwise_orderedInsert {a : α} (total : ∀ b ∈ l, r a b ∨ r b a)
    (trans : ∀ b ∈ l, ∀ c ∈ l, r a b → r b c → r a c) (sorted : l.Pairwise r) : (l.orderedInsert r a).Pairwise r := by
  induction l with
  | nil => exact List.pairwise_singleton _ _
  | cons b rest later =>
    obtain ⟨first, onward⟩ := List.pairwise_cons.mp sorted
    rw [List.orderedInsert]
    by_cases before : r a b
    · rw [if_pos before]
      refine List.pairwise_cons.mpr ⟨fun c inside => ?_, sorted⟩
      rcases List.mem_cons.mp inside with rfl | behind
      · exact before
      · exact trans b List.mem_cons_self c inside before (first c behind)
    · rw [if_neg before]
      have below := (total b List.mem_cons_self).resolve_left before
      have rest' := later (fun c inside => total c (List.mem_cons_of_mem b inside))
        (fun c left d right => trans c (List.mem_cons_of_mem b left) d (List.mem_cons_of_mem b right)) onward
      refine List.pairwise_cons.mpr ⟨fun c inside => ?_, rest'⟩
      rcases (List.mem_orderedInsert r).mp inside with rfl | behind
      · exact below
      · exact first c behind

/-- Sorting by a comparison that is total and transitive on the list. -/
theorem pairwise_insertionSort (total : ∀ a ∈ l, ∀ b ∈ l, r a b ∨ r b a)
    (trans : ∀ a ∈ l, ∀ b ∈ l, ∀ c ∈ l, r a b → r b c → r a c) : (l.insertionSort r).Pairwise r := by
  induction l with
  | nil => exact .nil
  | cons a rest later =>
    have within : ∀ b ∈ rest.insertionSort r, b ∈ a :: rest :=
      fun b inside => List.mem_cons_of_mem a ((List.mem_insertionSort r).mp inside)
    apply pairwise_orderedInsert
    · exact fun b inside => total a List.mem_cons_self b (within b inside)
    · exact fun b left c right => trans a List.mem_cons_self b (within b left) c (within c right)
    · exact later (fun b left c right => total b (List.mem_cons_of_mem a left) c (List.mem_cons_of_mem a right))
        fun b left c middle d right => trans b (List.mem_cons_of_mem a left) c (List.mem_cons_of_mem a middle) d
          (List.mem_cons_of_mem a right)

/-- What lies above a bound is sorted as if it were alone. -/
theorem filter_orderedInsert {a : α} (t : L) (refines : Refines r v (a :: l)) (falling : Falling v l) :
    (l.orderedInsert r a).filter (fun b => t < v b) =
      if t < v a then (l.filter fun b => t < v b).orderedInsert r a else l.filter fun b => t < v b := by
  induction l with
  | nil =>
    by_cases above : t < v a
    · simp [above]
    · simp [above]
  | cons b rest later =>
    obtain ⟨first, onward⟩ := List.pairwise_cons.mp falling
    have fewer : ∀ c ∈ a :: rest, c ∈ a :: b :: rest := by
      intro c inside
      rcases List.mem_cons.mp inside with rfl | behind
      · exact List.mem_cons_self
      · exact List.mem_cons_of_mem a (List.mem_cons_of_mem b behind)
    have rest' := later (refines.sub fewer) onward
    rw [List.orderedInsert]
    by_cases before : r a b
    · rw [if_pos before]
      by_cases above : t < v a
      · by_cases next : t < v b
        · simp [above, next, before]
        · -- nothing behind lies above the bound either
          have none : ∀ c ∈ b :: rest, ¬ t < v c := by
            intro c inside higher
            rcases List.mem_cons.mp inside with rfl | behind
            · exact next higher
            · exact next (higher.trans_le (first c behind))
          have empty : (b :: rest).filter (fun c => t < v c) = [] :=
            List.filter_eq_nil_iff.mpr fun c inside => by simpa using none c inside
          rw [List.filter_cons_of_pos (by simpa using above), if_pos above, empty]
          rfl
      · rw [List.filter_cons_of_neg (by simpa using above), if_neg above]
    · rw [if_neg before]
      have below := refines.up a List.mem_cons_self b (List.mem_cons_of_mem a List.mem_cons_self) before
      by_cases next : t < v b
      · rw [List.filter_cons_of_pos (by simpa using next), List.filter_cons_of_pos (by simpa using next), rest']
        by_cases above : t < v a
        · rw [if_pos above, if_pos above, List.orderedInsert, if_neg before]
        · rw [if_neg above, if_neg above]
      · have under : ¬ t < v a := fun above => next (above.trans_le below)
        rw [List.filter_cons_of_neg (by simpa using next), List.filter_cons_of_neg (by simpa using next), rest',
          if_neg under]

theorem filter_insertionSort (t : L) (refines : Refines r v l) :
    (l.insertionSort r).filter (fun b => t < v b) = (l.filter fun b => t < v b).insertionSort r := by
  induction l with
  | nil => rfl
  | cons a rest later =>
    have within : ∀ b ∈ a :: rest.insertionSort r, b ∈ a :: rest := by
      intro b inside
      rcases List.mem_cons.mp inside with rfl | behind
      · exact List.mem_cons_self
      · exact List.mem_cons_of_mem a ((List.mem_insertionSort r).mp behind)
    rw [List.insertionSort_cons, filter_orderedInsert t (refines.sub within) (falling_insertionSort refines.tail),
      later refines.tail]
    by_cases above : t < v a
    · rw [if_pos above, List.filter_cons_of_pos (by simpa using above), List.insertionSort_cons]
    · rw [if_neg above, List.filter_cons_of_neg (by simpa using above)]

omit [DecidableRel r] in
/-- A falling list is what lies above the bound and then the rest. -/
theorem Falling.split (falling : Falling v l) (t : L) :
    l = l.filter (fun b => t < v b) ++ l.filter fun b => ¬ t < v b := by
  induction l with
  | nil => rfl
  | cons a rest later =>
    obtain ⟨first, onward⟩ := List.pairwise_cons.mp falling
    by_cases above : t < v a
    · rw [List.filter_cons_of_pos (by simpa using above), List.filter_cons_of_neg (by simpa using above), List.cons_append,
        ← later onward]
    · have none : rest.filter (fun b => t < v b) = [] :=
        List.filter_eq_nil_iff.mpr fun c inside => by
          simpa using (first c inside).trans (not_lt.mp above)
      have all : rest.filter (fun b => ¬ t < v b) = rest :=
        List.filter_eq_self.mpr fun c inside => by
          simpa using (first c inside).trans (not_lt.mp above)
      rw [List.filter_cons_of_neg (by simpa using above), List.filter_cons_of_pos (by simpa using above), none, all]
      rfl

omit [DecidableRel r] in
/-- What lies above the last one kept is kept. -/
theorem Falling.mem_take (falling : Falling v l) {n : Nat} {a last : α} (member : a ∈ l) (final : (l.take n).getLast? = some last)
    (above : v last < v a) : a ∈ l.take n := by
  rw [← List.take_append_drop n l] at member falling
  rcases List.mem_append.mp member with kept | dropped
  · exact kept
  · have under := (List.pairwise_append.mp falling).2.2 last (List.mem_of_getLast? final) a dropped
    exact absurd above (not_lt.mpr under)

end Refined

/-- If a property holds of a front of the list, it holds of the first `n` exactly if it holds of all, or of as many. -/
theorem take_forall_iff {f : α → Prop} [DecidablePred f] {l : List α} (front : l.Pairwise fun a b => f b → f a) (n : Nat) :
    (∀ a ∈ l.take n, f a) ↔ ((∃ a ∈ l, ¬ f a) → n ≤ l.countP f) := by
  induction l generalizing n with
  | nil => simp
  | cons a rest later =>
    obtain ⟨first, onward⟩ := List.pairwise_cons.mp front
    cases n with
    | zero => simp
    | succ n =>
      rw [List.take_succ_cons]
      by_cases holds : f a
      · rw [List.countP_cons_of_pos (by simpa using holds)]
        simp only [List.mem_cons, forall_eq_or_imp, exists_eq_or_imp, holds, not_true_eq_false, false_or, true_and,
          Nat.add_le_add_iff_right]
        exact later onward n
      · have none : (a :: rest).countP f = 0 := by
          apply List.countP_eq_zero.mpr
          intro b inside
          rcases List.mem_cons.mp inside with rfl | behind
          · simpa using holds
          · simpa using fun later => holds (first b behind later)
        rw [none]
        constructor
        · exact fun all => absurd (all a List.mem_cons_self) holds
        · intro few
          have short := few ⟨a, List.mem_cons_self, holds⟩
          omega

/-! ### The best hit of each position -/

section Positions
variable {P : Type*} [DecidableEq P] (pos : α → P) {v : α → L}

/-- Of each position the first hit, if the position is not seen yet. -/
def firstOfEach : List α → List P → List α
  | [], _ => []
  | a :: rest, seen => if pos a ∈ seen then firstOfEach rest seen else a :: firstOfEach rest (pos a :: seen)

variable {pos}

theorem firstOfEach_sublist (l : List α) (seen : List P) : (firstOfEach pos l seen).Sublist l := by
  induction l generalizing seen with
  | nil => exact .slnil
  | cons a rest later =>
    rw [firstOfEach]
    split
    · exact (later seen).cons a
    · exact (later _).cons_cons a

theorem firstOfEach_once (l : List α) (seen : List P) :
    ((firstOfEach pos l seen).map pos).Nodup ∧ ∀ a ∈ firstOfEach pos l seen, pos a ∉ seen := by
  induction l generalizing seen with
  | nil => exact ⟨.nil, fun _ impossible => absurd impossible List.not_mem_nil⟩
  | cons a rest later =>
    rw [firstOfEach]
    by_cases old : pos a ∈ seen
    · rw [if_pos old]
      exact later seen
    · rw [if_neg old]
      obtain ⟨once, fresh⟩ := later (pos a :: seen)
      rw [List.map_cons, List.nodup_cons]
      refine ⟨⟨?_, once⟩, ?_⟩
      · intro again
        obtain ⟨b, inside, same⟩ := List.mem_map.mp again
        exact fresh b inside (same ▸ List.mem_cons_self)
      · intro b inside
        rcases List.mem_cons.mp inside with rfl | behind
        · exact old
        · exact fun known => fresh b behind (List.mem_cons_of_mem _ known)

theorem firstOfEach_covers {l : List α} (falling : Falling v l) {a : α} (member : a ∈ l) (seen : List P) :
    pos a ∈ seen ∨ ∃ e ∈ firstOfEach pos l seen, pos e = pos a ∧ v a ≤ v e := by
  induction l generalizing seen with
  | nil => exact absurd member List.not_mem_nil
  | cons b rest later =>
    obtain ⟨first, onward⟩ := List.pairwise_cons.mp falling
    rw [firstOfEach]
    by_cases old : pos b ∈ seen
    · rw [if_pos old]
      rcases List.mem_cons.mp member with rfl | behind
      · exact .inl old
      · exact later onward behind seen
    · rw [if_neg old]
      rcases List.mem_cons.mp member with rfl | behind
      · exact .inr ⟨a, List.mem_cons_self, rfl, le_refl _⟩
      · rcases later onward behind (pos b :: seen) with known | found
        · rcases List.mem_cons.mp known with same | before
          · exact .inr ⟨b, List.mem_cons_self, same.symm, first a behind⟩
          · exact .inl before
        · obtain ⟨e, inside, same, better⟩ := found
          exact .inr ⟨e, List.mem_cons_of_mem b inside, same, better⟩

/-- What is chosen from the first part does not depend on the second. -/
theorem firstOfEach_append (front later : List α) (seen : List P) :
    ∃ known, firstOfEach pos (front ++ later) seen = firstOfEach pos front seen ++ firstOfEach pos later known := by
  induction front generalizing seen with
  | nil => exact ⟨seen, rfl⟩
  | cons a rest onward =>
    rw [List.cons_append, firstOfEach, firstOfEach]
    split
    · exact onward seen
    · obtain ⟨known, parts⟩ := onward (pos a :: seen)
      exact ⟨known, by rw [parts, List.cons_append]⟩

/-- What is chosen above a bound is chosen at the same place from a front, when nothing behind it lies above the bound. -/
theorem firstOfEach_above {r : α → α → Prop} [DecidableRel r] {front later : List α} (refines : Refines r v (front ++ later))
    {t : L} (below : ∀ b ∈ later, v b ≤ t) {rank : Nat} {a : α}
    (place : (firstOfEach pos ((front ++ later).insertionSort r) [])[rank]? = some a) (above : t < v a) :
    (firstOfEach pos (front.insertionSort r) [])[rank]? = some a := by
  have fewer : Refines r v front := refines.sub fun _ => List.mem_append_left later
  have same : (front ++ later).filter (fun b => t < v b) = front.filter fun b => t < v b := by
    have none : later.filter (fun b => t < v b) = [] :=
      List.filter_eq_nil_iff.mpr fun b inside => by simpa using below b inside
    rw [List.filter_append, none, List.append_nil]
  have all := (falling_insertionSort refines).split t
  have part := (falling_insertionSort fewer).split t
  rw [filter_insertionSort t refines, same] at all
  rw [filter_insertionSort t fewer] at part
  generalize (front.filter fun b => t < v b).insertionSort r = top at all part
  obtain ⟨known, parts⟩ := @firstOfEach_append α P _ pos top (((front ++ later).insertionSort r).filter fun b => ¬ t < v b) []
  obtain ⟨other, pieces⟩ := @firstOfEach_append α P _ pos top ((front.insertionSort r).filter fun b => ¬ t < v b) []
  rw [all, parts] at place
  rw [part, pieces]
  -- what follows the top of the list is not above the bound
  by_cases inside : rank < (firstOfEach pos top []).length
  · rw [List.getElem?_append_left inside] at place
    rw [List.getElem?_append_left inside, place]
  · rw [List.getElem?_append_right (Nat.le_of_not_lt inside)] at place
    have behind := (firstOfEach_sublist _ _).subset (List.mem_of_getElem? place)
    have under := (List.mem_filter.mp behind).2
    simp [above] at under

variable (pos v) in
/-- Of each position of the hits one best hit, best first. -/
structure Selects (hits chosen : List α) : Prop where
  within : ∀ e ∈ chosen, e ∈ hits
  once : (chosen.map pos).Nodup
  falling : Falling v chosen
  covers : ∀ h ∈ hits, ∃ e ∈ chosen, pos e = pos h ∧ v h ≤ v e

theorem selects_firstOfEach {r : α → α → Prop} [DecidableRel r] {hits : List α} (refines : Refines r v hits) :
    Selects pos v hits (firstOfEach pos (hits.insertionSort r) []) := by
  have falling := falling_insertionSort refines
  refine ⟨fun e inside => ?_, (firstOfEach_once _ _).1, falling.sublist (firstOfEach_sublist _ _), fun h inside => ?_⟩
  · exact (List.mem_insertionSort r).mp ((firstOfEach_sublist _ _).subset inside)
  · exact (firstOfEach_covers falling ((List.mem_insertionSort r).mpr inside) []).resolve_left List.not_mem_nil

omit [DecidableEq P] in
theorem Selects.mem_pairs {hits chosen : List α} (selects : Selects pos v hits chosen) {p : P} {x : L} :
    (p, x) ∈ chosen.map (fun e => (pos e, v e)) ↔
      (∃ h ∈ hits, pos h = p ∧ v h = x) ∧ ∀ h ∈ hits, pos h = p → v h ≤ x := by
  rw [List.mem_map]
  constructor
  · intro found
    obtain ⟨e, inside, same⟩ := found
    obtain ⟨rfl, rfl⟩ := Prod.mk.inj same
    refine ⟨⟨e, selects.within e inside, rfl, rfl⟩, fun h hit place => ?_⟩
    obtain ⟨f, chosen', same', better⟩ := selects.covers h hit
    have one : f = e := List.inj_on_of_nodup_map selects.once chosen' inside (same'.trans place)
    exact one ▸ better
  · intro found
    obtain ⟨⟨h, hit, rfl, rfl⟩, most⟩ := found
    obtain ⟨e, inside, same, better⟩ := selects.covers h hit
    have worse := most e (selects.within e inside) same
    exact ⟨e, inside, Prod.ext same (le_antisymm worse better)⟩

omit [DecidableEq P] in
/-- The values chosen are settled by the positions and values of the hits. -/
theorem Selects.values {β : Type*} {pos' : β → P} {v' : β → L} {hits chosen : List α} {hits' chosen' : List β}
    (selects : Selects pos v hits chosen) (selects' : Selects pos' v' hits' chosen')
    (same : ∀ x, x ∈ hits.map (fun h => (pos h, v h)) ↔ x ∈ hits'.map (fun h => (pos' h, v' h))) :
    chosen.map v = chosen'.map v' := by
  have members : ∀ x, x ∈ chosen.map (fun e => (pos e, v e)) ↔ x ∈ chosen'.map (fun e => (pos' e, v' e)) := by
    rintro ⟨p, x⟩
    have pair : ∀ y, (∃ h ∈ hits, pos h = p ∧ v h = y) ↔ ∃ h ∈ hits', pos' h = p ∧ v' h = y := by
      intro y
      have here := same (p, y)
      simp only [List.mem_map, Prod.mk.injEq] at here
      exact here
    rw [selects.mem_pairs, selects'.mem_pairs, pair]
    apply and_congr_right
    intro _
    constructor
    · intro most h hit place
      obtain ⟨g, other, there, equal⟩ := (pair (v' h)).mpr ⟨h, hit, place, rfl⟩
      exact equal ▸ most g other there
    · intro most h hit place
      obtain ⟨g, other, there, equal⟩ := (pair (v h)).mp ⟨h, hit, place, rfl⟩
      exact equal ▸ most g other there
  have perm : (chosen.map fun e => (pos e, v e)).Perm (chosen'.map fun e => (pos' e, v' e)) := by
    apply (List.perm_ext_iff_of_nodup _ _).mpr members
    · exact List.Nodup.of_map Prod.fst (by rw [List.map_map]; exact selects.once)
    · exact List.Nodup.of_map Prod.fst (by rw [List.map_map]; exact selects'.once)
  have values := perm.map Prod.snd
  rw [List.map_map, List.map_map] at values
  apply values.eq_of_pairwise
  · exact fun a b _ _ up down => le_antisymm down up
  · exact List.pairwise_map.mpr selects.falling
  · exact List.pairwise_map.mpr selects'.falling

/-- Hits that are not better add their new positions behind. -/
theorem Selects.append {front later chosen more : List α} (first : Selects pos v front chosen)
    (second : Selects pos v later more) (below : ∀ a ∈ front, ∀ b ∈ later, v b ≤ v a) :
    Selects pos v (front ++ later) (chosen ++ more.filter fun e => pos e ∉ chosen.map pos) := by
  refine ⟨fun e inside => ?_, ?_, ?_, fun h inside => ?_⟩
  · rcases List.mem_append.mp inside with old | new
    · exact List.mem_append_left _ (first.within e old)
    · exact List.mem_append_right _ (second.within e (List.mem_filter.mp new).1)
  · rw [List.map_append, List.nodup_append]
    refine ⟨first.once, second.once.sublist (List.filter_sublist.map pos), ?_⟩
    intro p old q new same
    obtain ⟨e, member, rfl⟩ := List.mem_map.mp new
    have fresh := (List.mem_filter.mp member).2
    rw [decide_eq_true_eq] at fresh
    exact fresh (same ▸ old)
  · refine List.pairwise_append.mpr ⟨first.falling, second.falling.filter _, fun a old b new => ?_⟩
    exact below a (first.within a old) b (second.within b (List.mem_filter.mp new).1)
  · rcases List.mem_append.mp inside with old | new
    · obtain ⟨e, member, same, better⟩ := first.covers h old
      exact ⟨e, List.mem_append_left _ member, same, better⟩
    · obtain ⟨e, member, same, better⟩ := second.covers h new
      by_cases known : pos e ∈ chosen.map pos
      · obtain ⟨f, chosen', place⟩ := List.mem_map.mp known
        exact ⟨f, List.mem_append_left _ chosen', place.trans same, below f (first.within f chosen') h new⟩
      · exact ⟨e, List.mem_append_right _ (List.mem_filter.mpr ⟨member, decide_eq_true known⟩), same, better⟩

end Positions

/-! ### The best of all keys -/

section Keys
variable {K P : Type*} [DecidableEq K] [DecidableEq P]

theorem refines_values {β : Type*} (v : β → L) (l : List β) : Refines (fun a b => v b ≤ v a) v l :=
  ⟨fun _ _ _ _ => id, fun _ _ _ _ before => le_of_lt (not_le.mp before)⟩

/-- The best hits of the positions, best first. -/
def sections (hits : List (P × L)) : List (P × L) := firstOfEach Prod.fst (hits.insertionSort fun a b => b.2 ≤ a.2) []

/-- The hits of a key. -/
def hitsOf (hits : List (K × P × L)) (k : K) : List (P × L) := (hits.filter fun h => h.1 = k).map Prod.snd

def keyScores (n : Nat) (hits : List (K × P × L)) (k : K) : List L := ((sections (hitsOf hits k)).take n).map Prod.snd

/-- The scores of the best `limit` sections, of each key the best `n` at most. -/
def ranking (n limit : Nat) (hits : List (K × P × L)) : List L :=
  (((hits.map Prod.fst).dedup.flatMap (keyScores n hits)).insertionSort fun a b => b ≤ a).take limit

theorem selects_sections (hits : List (P × L)) : Selects Prod.fst Prod.snd hits (sections hits) :=
  selects_firstOfEach (refines_values Prod.snd hits)

omit [LinearOrder L] [DecidableEq P] in
theorem mem_hitsOf {hits : List (K × P × L)} {k : K} {h : P × L} : h ∈ hitsOf hits k ↔ (k, h) ∈ hits := by
  simp only [hitsOf, List.mem_map, List.mem_filter, decide_eq_true_eq, Prod.exists]
  constructor
  · intro found
    obtain ⟨_, _, _, ⟨member, rfl⟩, rfl⟩ := found
    exact member
  · intro member
    exact ⟨k, h.1, h.2, ⟨member, rfl⟩, rfl⟩

theorem mem_keyScores {n : Nat} {hits : List (K × P × L)} {k : K} {x : L} (member : x ∈ keyScores n hits k) :
    ∃ p, (k, p, x) ∈ hits := by
  obtain ⟨e, inside, rfl⟩ := List.mem_map.mp member
  exact ⟨e.1, mem_hitsOf.mp ((selects_sections _).within e (List.mem_of_mem_take inside))⟩

theorem keyScores_none {n : Nat} {hits : List (K × P × L)} {k : K} (none : k ∉ hits.map Prod.fst) :
    keyScores n hits k = [] := by
  rw [List.eq_nil_iff_forall_not_mem]
  intro x member
  obtain ⟨p, inside⟩ := mem_keyScores member
  exact none (List.mem_map.mpr ⟨_, inside, rfl⟩)

theorem keyScores_some {n : Nat} (room : 0 < n) {hits : List (K × P × L)} {k : K} (some : k ∈ hits.map Prod.fst) :
    keyScores n hits k ≠ [] := by
  obtain ⟨h, inside, rfl⟩ := List.mem_map.mp some
  obtain ⟨e, member, _⟩ := (selects_sections (hitsOf hits h.1)).covers h.2 (mem_hitsOf.mpr inside)
  have filled := List.length_pos_of_mem member
  intro none
  have size := congrArg List.length none
  rw [keyScores, List.length_map, List.length_take, List.length_nil] at size
  omega

/-- Lower hits only add lower scores behind those of a key. -/
theorem keyScores_front {front later : List (K × P × L)} (below : ∀ a ∈ front, ∀ b ∈ later, b.2.2 ≤ a.2.2) (n : Nat)
    (k : K) : ∃ extra, keyScores n (front ++ later) k = keyScores n front k ++ extra ∧ ∀ x ∈ extra, ∃ h ∈ later, h.2.2 = x := by
  have parts : hitsOf (front ++ later) k = hitsOf front k ++ hitsOf later k := by
    rw [hitsOf, List.filter_append, List.map_append, ← hitsOf, ← hitsOf]
  have both := (selects_sections (hitsOf front k)).append (selects_sections (hitsOf later k)) fun a old b new =>
    below _ (mem_hitsOf.mp old) _ (mem_hitsOf.mp new)
  rw [← parts] at both
  have values := (selects_sections (hitsOf (front ++ later) k)).values both fun _ => Iff.rfl
  generalize hrest : (sections (hitsOf later k)).filter (fun e => e.1 ∉ (sections (hitsOf front k)).map Prod.fst) = rest
    at values
  refine ⟨(rest.map Prod.snd).take (n - (sections (hitsOf front k)).length), ?_, fun x member => ?_⟩
  · rw [keyScores, List.map_take, values, List.map_append, List.take_append, List.length_map, keyScores, List.map_take]
  · obtain ⟨e, inside, rfl⟩ := List.mem_map.mp (List.mem_of_mem_take member)
    rw [← hrest] at inside
    have source := (selects_sections (hitsOf later k)).within e (List.mem_filter.mp inside).1
    exact ⟨_, mem_hitsOf.mp source, rfl⟩

/-- A sorted list behind which lower values are added. -/
theorem insertionSort_append_lower {front later : List L} (below : ∀ a ∈ front, ∀ b ∈ later, b ≤ a) :
    (front ++ later).insertionSort (fun a b => b ≤ a) =
      front.insertionSort (fun a b => b ≤ a) ++ later.insertionSort fun a b => b ≤ a := by
  have falling : ∀ l : List L, (l.insertionSort fun a b => b ≤ a).Pairwise fun a b => b ≤ a := fun l =>
    falling_insertionSort (refines_values id l)
  have perm : ((front ++ later).insertionSort fun a b => b ≤ a).Perm
      (front.insertionSort (fun a b => b ≤ a) ++ later.insertionSort fun a b => b ≤ a) :=
    (List.perm_insertionSort _ _).trans
      ((List.perm_insertionSort _ _).symm.append (List.perm_insertionSort _ _).symm)
  apply perm.eq_of_pairwise _ (falling _)
  · refine List.pairwise_append.mpr ⟨falling _, falling _, fun a left b right => ?_⟩
    exact below a ((List.mem_insertionSort _).mp left) b ((List.mem_insertionSort _).mp right)
  · exact fun a b _ _ up down => le_antisymm down up

/-- A front of the hits with as many keys as are asked for ranks as all hits do, when no hit behind it is better. -/
theorem ranking_front {front later : List (K × P × L)} (below : ∀ a ∈ front, ∀ b ∈ later, b.2.2 ≤ a.2.2) {n limit : Nat}
    (room : 0 < n) (enough : limit ≤ (front.map Prod.fst).dedup.length) :
    ranking n limit (front ++ later) = ranking n limit front := by
  choose extra parts lower using keyScores_front below n
  let keys := (front.map Prod.fst).dedup
  let fresh := (later.map Prod.fst).dedup.filter fun k => k ∉ keys
  have all : ((front ++ later).map Prod.fst).dedup.Perm (keys ++ fresh) := by
    apply (List.perm_ext_iff_of_nodup (List.nodup_dedup _) _).mpr
    · intro k
      simp only [keys, fresh, List.mem_dedup, List.map_append, List.mem_append, List.mem_filter, decide_eq_true_eq]
      tauto
    · refine List.nodup_append.mpr ⟨List.nodup_dedup _, (List.nodup_dedup _).filter _, ?_⟩
      intro k old j new same
      have apart := (List.mem_filter.mp new).2
      rw [decide_eq_true_eq] at apart
      exact apart (same ▸ old)
  have outside : ∀ k ∈ fresh, keyScores n front k = [] := by
    intro k member
    have apart := (List.mem_filter.mp member).2
    rw [decide_eq_true_eq] at apart
    exact keyScores_none fun inside => apart (List.mem_dedup.mpr inside)
  have scores : (((front ++ later).map Prod.fst).dedup.flatMap (keyScores n (front ++ later))).Perm
      (keys.flatMap (keyScores n front) ++ (keys ++ fresh).flatMap extra) := by
    have split : ((keys ++ fresh).flatMap (keyScores n (front ++ later))).Perm
        ((keys ++ fresh).flatMap (keyScores n front) ++ (keys ++ fresh).flatMap extra) := by
      have each : (keys ++ fresh).flatMap (keyScores n (front ++ later)) =
          (keys ++ fresh).flatMap fun k => keyScores n front k ++ extra k :=
        List.flatMap_congr fun k _ => parts k
      rw [each]
      exact (List.flatMap_append_perm _ _ _).symm
    have front' : (keys ++ fresh).flatMap (keyScores n front) = keys.flatMap (keyScores n front) := by
      rw [List.flatMap_append, List.flatMap_eq_nil_iff.mpr outside, List.append_nil]
    rw [front'] at split
    exact (all.flatMap_right _).trans split
  have under : ∀ a ∈ keys.flatMap (keyScores n front), ∀ b ∈ (keys ++ fresh).flatMap extra, b ≤ a := by
    intro a left b right
    obtain ⟨k, _, inside⟩ := List.mem_flatMap.mp left
    obtain ⟨j, _, behind⟩ := List.mem_flatMap.mp right
    obtain ⟨p, hit⟩ := mem_keyScores inside
    obtain ⟨h, member, same⟩ := lower j b behind
    exact same ▸ below _ hit h member
  have long : limit ≤ (keys.flatMap (keyScores n front)).length := by
    have filled : ∀ ks : List K, (∀ k ∈ ks, k ∈ front.map Prod.fst) → ks.length ≤ (ks.flatMap (keyScores n front)).length := by
      intro ks known
      induction ks with
      | nil => exact Nat.le_refl _
      | cons k rest later =>
        have one := List.length_pos_of_ne_nil (keyScores_some room (known k List.mem_cons_self))
        have more := later fun j inside => known j (List.mem_cons_of_mem k inside)
        rw [List.flatMap_cons, List.length_append, List.length_cons]
        omega
    exact enough.trans (filled keys fun k member => List.mem_dedup.mp member)
  have sorted : (((front ++ later).map Prod.fst).dedup.flatMap (keyScores n (front ++ later))).insertionSort
      (fun a b => b ≤ a) =
      (keys.flatMap (keyScores n front)).insertionSort (fun a b => b ≤ a) ++
        ((keys ++ fresh).flatMap extra).insertionSort fun a b => b ≤ a := by
    rw [← insertionSort_append_lower under]
    have falling : ∀ l : List L, (l.insertionSort fun a b => b ≤ a).Pairwise fun a b => b ≤ a := fun l =>
      falling_insertionSort (refines_values id l)
    have perm := ((List.perm_insertionSort (fun a b : L => b ≤ a) _).trans scores).trans
      (List.perm_insertionSort (fun a b : L => b ≤ a) _).symm
    exact perm.eq_of_pairwise (fun a b _ _ up down => le_antisymm down up) (falling _) (falling _)
  rw [ranking, sorted, List.take_append_of_le_length (by rwa [List.length_insertionSort]), ranking]

end Keys

end Ranking
