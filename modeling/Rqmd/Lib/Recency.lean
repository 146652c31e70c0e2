import Mathlib.Data.List.Induction
import Mathlib.Data.List.Sort
import Mathlib.Tactic.Common

/-! Stores that forget what was written least recently. Eviction takes the elements that come first in an
order. The ticks a store keeps are related to the history of its writes, which it does not keep. -/

namespace Recency

/-! ### Eviction -/

section Eviction

variable {α : Type*} (before : α → α → Prop) [DecidableRel before] {excess : Nat} {rows : List α} {a b : α}

/-- The first `excess` elements in order. -/
def victims (excess : Nat) (rows : List α) : List α := (rows.insertionSort before).take excess

def survivors [DecidableEq α] (excess : Nat) (rows : List α) : List α := rows.filter fun a => a ∉ victims before excess rows

theorem mem_of_mem_victims (victim : a ∈ victims before excess rows) : a ∈ rows :=
  (List.perm_insertionSort before rows).mem_iff.mp (List.mem_of_mem_take victim)

theorem nodup_victims (distinct : rows.Nodup) : (victims before excess rows).Nodup :=
  ((List.perm_insertionSort before rows).nodup_iff.mpr distinct).sublist (List.take_sublist _ _)

theorem mem_survivors [DecidableEq α] : a ∈ survivors before excess rows ↔ a ∈ rows ∧ a ∉ victims before excess rows := by
  simp [survivors]

/-- Eviction removes the excess and nothing more. -/
theorem length_survivors [DecidableEq α] (distinct : rows.Nodup) :
    (survivors before excess rows).length = rows.length - excess := by
  have gone : (rows.filter fun a => a ∈ victims before excess rows).length = (victims before excess rows).length := by
    apply List.Perm.length_eq
    rw [List.perm_ext_iff_of_nodup (distinct.filter _) (nodup_victims before distinct)]
    intro a
    simpa using mem_of_mem_victims before
  have taken : (victims before excess rows).length = min excess rows.length := by
    simp [victims, List.length_insertionSort]
  have split := List.length_eq_length_filter_add (l := rows) fun a => decide (a ∈ victims before excess rows)
  have same : (rows.filter fun a => !decide (a ∈ victims before excess rows)) = survivors before excess rows := by
    simp [survivors]
  rw [same] at split
  omega

/-- Whatever is evicted comes before whatever stays. -/
theorem victim_before [Std.Total before] [IsTrans α before] (victim : a ∈ victims before excess rows) (member : b ∈ rows)
    (kept : b ∉ victims before excess rows) : before a b := by
  have sorted := List.pairwise_insertionSort before rows
  rw [← List.take_append_drop excess (rows.insertionSort before), List.pairwise_append] at sorted
  have place : b ∈ (rows.insertionSort before).take excess ++ (rows.insertionSort before).drop excess := by
    rw [List.take_append_drop]
    exact (List.perm_insertionSort before rows).mem_iff.mpr member
  have behind := (List.mem_append.mp place).resolve_left kept
  exact sorted.2.2 a victim b behind

/-- The element that comes before no other stays, if any does. -/
theorem newest_kept [DecidableEq α] [Std.Total before] [IsTrans α before] (distinct : rows.Nodup) (some : excess < rows.length)
    (newest : ∀ a ∈ rows, before b a → a = b) : b ∉ victims before excess rows := by
  intro victim
  have others : 0 < (survivors before excess rows).length := by
    rw [length_survivors before distinct]
    omega
  obtain ⟨a, survivor⟩ := List.exists_mem_of_length_pos others
  obtain ⟨member, kept⟩ := (mem_survivors before).mp survivor
  have same := newest a member (victim_before before victim member kept)
  exact kept (same ▸ victim)

end Eviction

/-! ### Histories -/

section History

variable {κ ν : Type*} [DecidableEq κ] {key : κ} {batch : List (κ × ν)} {history : List (List (κ × ν))}

/-- What a batch of writes leaves under a key. -/
def lastOf (key : κ) (batch : List (κ × ν)) : Option ν := (batch.reverse.find? fun write => write.1 = key).map Prod.snd

/-- The last write to a key, with the number of its batch. -/
def lastPut (key : κ) : List (List (κ × ν)) → Option (Nat × ν)
  | [] => none
  | batch :: later => ((lastPut key later).map (Prod.map Nat.succ id)).or ((lastOf key batch).map (Prod.mk 0))

@[simp] theorem lastOf_nil : lastOf key ([] : List (κ × ν)) = none := rfl

theorem lastOf_concat (k : κ) (v : ν) :
    lastOf key (batch ++ [(k, v)]) = if k = key then some v else lastOf key batch := by
  by_cases same : k = key
  · simp [lastOf, same]
  · simp [lastOf, same]

theorem lastPut_concat (key : κ) (history : List (List (κ × ν))) (batch : List (κ × ν)) :
    lastPut key (history ++ [batch]) = ((lastOf key batch).map (Prod.mk history.length)).or (lastPut key history) := by
  induction history with
  | nil =>
    simp only [List.nil_append, lastPut, Option.map_none, Option.none_or, List.length_nil, Option.or_none]
  | cons first later ih =>
    rw [List.cons_append, lastPut, ih]
    cases lastOf key batch with
    | none => rfl
    | some v => rfl

theorem lastPut_lt {i : Nat} {v : ν} (put : lastPut key history = some (i, v)) : i < history.length := by
  induction history using List.reverseRecOn with
  | nil => cases put
  | append_singleton history batch ih =>
    rw [lastPut_concat] at put
    rw [List.length_append, List.length_singleton]
    cases last : lastOf key batch with
    | none =>
      rw [last] at put
      have := ih put
      omega
    | some w =>
      rw [last] at put
      have same : history.length = i := congrArg Prod.fst (Option.some.inj put)
      omega

/-- The view of a store, by key the tick and the value it holds, agrees with the history of its writes. -/
structure Tracks (view : κ → Option (Nat × ν)) (history : List (List (κ × ν))) : Prop where
  written : ∀ k t v, view k = some (t, v) → ∃ i, lastPut k history = some (i, v)
  ordered : ∀ k l (s t i j : Nat) (u v x y : ν), view k = some (s, u) → view l = some (t, v) →
    lastPut k history = some (i, x) → lastPut l history = some (j, y) → (s ≤ t ↔ i ≤ j)

variable {view next : κ → Option (Nat × ν)} {tick : Nat}

theorem Tracks.nothing : Tracks (fun _ => none) history where
  written _ _ _ held := by cases held
  ordered _ _ _ _ _ _ _ _ _ _ held := by cases held

theorem Tracks.shrink (tracks : Tracks view history) (fewer : ∀ k held, next k = some held → view k = some held) :
    Tracks next history where
  written k t v held := tracks.written k t v (fewer k _ held)
  ordered k l s t i j u v x y left right := tracks.ordered k l s t i j u v x y (fewer k _ left) (fewer l _ right)

/-- A batch written under a tick greater than every tick held. -/
theorem Tracks.write (tracks : Tracks view history) (newer : ∀ k t v, view k = some (t, v) → t < tick)
    (after : ∀ k, next k = ((lastOf k batch).map (Prod.mk tick)).or (view k)) : Tracks next (history ++ [batch]) where
  written k t v held := by
    rw [after] at held
    rw [lastPut_concat]
    cases last : lastOf k batch with
    | none =>
      rw [last] at held
      exact tracks.written k t v held
    | some w =>
      rw [last] at held
      have same : w = v := congrArg Prod.snd (Option.some.inj held)
      exact ⟨history.length, by rw [same]; rfl⟩
  ordered k l s t i j u v x y left right first second := by
    rw [after] at left right
    rw [lastPut_concat] at first second
    cases lastK : lastOf k batch with
    | none =>
      rw [lastK] at left first
      cases lastL : lastOf l batch with
      | none =>
        rw [lastL] at right second
        exact tracks.ordered k l s t i j u v x y left right first second
      | some w =>
        rw [lastL] at right second
        have later : history.length = j := congrArg Prod.fst (Option.some.inj second)
        have now : tick = t := congrArg Prod.fst (Option.some.inj right)
        have earlier := newer k s u left
        have older := lastPut_lt first
        omega
    | some w =>
      rw [lastK] at left first
      have later : history.length = i := congrArg Prod.fst (Option.some.inj first)
      have now : tick = s := congrArg Prod.fst (Option.some.inj left)
      cases lastL : lastOf l batch with
      | none =>
        rw [lastL] at right second
        have earlier := newer l t v right
        have older := lastPut_lt second
        omega
      | some w' =>
        rw [lastL] at right second
        have later' : history.length = j := congrArg Prod.fst (Option.some.inj second)
        have now' : tick = t := congrArg Prod.fst (Option.some.inj right)
        omega

/-- A batch without writes. -/
theorem Tracks.idle (tracks : Tracks view history) : Tracks view (history ++ [[]]) where
  written k t v held := by
    rw [lastPut_concat]
    exact tracks.written k t v held
  ordered k l s t i j u v x y left right first second := by
    rw [lastPut_concat] at first second
    exact tracks.ordered k l s t i j u v x y left right first second

end History

end Recency
