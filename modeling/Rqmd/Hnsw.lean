import Mathlib.Data.List.Nodup
import Mathlib.Data.List.Basic

/-! The vector index. usearch is the keyed store it wraps: an add fails exactly on a key that is
present, a lookup on one that is absent. -/

namespace Rqmd

/-- The vectors of an index file, each under a key of its own. -/
structure Vectors (V : Type) where
  entries : List (Nat × V)
  distinct : (entries.map Prod.fst).Nodup

namespace Vectors

variable {V : Type}

def empty : Vectors V := ⟨[], List.nodup_nil⟩

def keys (vectors : Vectors V) : List Nat := vectors.entries.map Prod.fst

def has (vectors : Vectors V) (vid : Nat) : Bool := vectors.keys.contains vid

def size (vectors : Vectors V) : Nat := vectors.entries.length

def get? (vectors : Vectors V) (vid : Nat) : Option V := (vectors.entries.find? (·.1 == vid)).map Prod.snd

@[simp] theorem has_iff {vectors : Vectors V} {vid : Nat} : vectors.has vid = true ↔ vid ∈ vectors.keys := by
  simp [has]

theorem get?_isSome {vectors : Vectors V} {vid : Nat} : (vectors.get? vid).isSome ↔ vid ∈ vectors.keys := by
  simp [get?, keys]

def insert (vectors : Vectors V) (vid : Nat) (vector : V) (absent : vid ∉ vectors.keys) : Vectors V :=
  ⟨(vid, vector) :: vectors.entries, List.nodup_cons.mpr ⟨absent, vectors.distinct⟩⟩

@[simp] theorem keys_insert {vectors : Vectors V} {vid : Nat} {vector : V} {absent : vid ∉ vectors.keys} :
    (vectors.insert vid vector absent).keys = vid :: vectors.keys := rfl

theorem get?_insert {vectors : Vectors V} {vid other : Nat} {vector : V} {absent : vid ∉ vectors.keys} :
    (vectors.insert vid vector absent).get? other = if vid = other then some vector else vectors.get? other := by
  by_cases same : vid = other <;> simp [get?, insert, same]

def remove (vectors : Vectors V) (vid : Nat) : Vectors V :=
  ⟨vectors.entries.filter (·.1 != vid), vectors.distinct.sublist (List.Sublist.map _ List.filter_sublist)⟩

@[simp] theorem mem_keys_remove {vectors : Vectors V} {vid other : Nat} :
    other ∈ (vectors.remove vid).keys ↔ other ∈ vectors.keys ∧ other ≠ vid := by
  simp only [keys, remove, List.mem_map, List.mem_filter, bne_iff_ne]
  constructor
  · rintro ⟨entry, ⟨member, distinct⟩, rfl⟩
    exact ⟨⟨entry, member, rfl⟩, distinct⟩
  · rintro ⟨⟨entry, member, rfl⟩, distinct⟩
    exact ⟨entry, ⟨member, distinct⟩, rfl⟩

theorem get?_remove {vectors : Vectors V} {vid other : Nat} :
    (vectors.remove vid).get? other = if vid = other then none else vectors.get? other := by
  by_cases same : vid = other
  · rw [if_pos same]
    have gone : ¬ ((vectors.remove vid).get? other).isSome := by
      rw [get?_isSome, mem_keys_remove]
      exact fun inside => inside.2 same.symm
    simpa using gone
  · rw [if_neg same]
    simp only [get?, remove, List.find?_filter]
    congr 2
    funext entry
    by_cases hit : entry.1 = other
    · simp [hit, Ne.symm same]
    · simp [hit]

end Vectors

structure VectorIndex (V : Type) where
  inner : Vectors V
  nextVid : Nat
  readOnly : Bool

namespace VectorIndex

variable {V : Type}

def new : VectorIndex V := ⟨.empty, 0, false⟩

/-- `load` and, for a reader, `view`. -/
def load (file : Vectors V) (readOnly : Bool) : VectorIndex V := ⟨file, file.size, readOnly⟩

def ensureNextVidAtLeast (index : VectorIndex V) (floor : Nat) : VectorIndex V :=
  if index.nextVid < floor then { index with nextVid := floor } else index

def size (index : VectorIndex V) : Nat := index.inner.size

def maxCollisionRetries : Nat := 1024

/-- The retry loop of `add`: each collision advances `nextVid`. -/
def addRetrying (vector : V) : Nat → VectorIndex V → Option Nat × VectorIndex V
  | 0, index => (none, index)
  | tries + 1, index =>
    if absent : index.nextVid ∉ index.inner.keys then
      (some index.nextVid,
        { index with inner := index.inner.insert index.nextVid vector absent, nextVid := index.nextVid + 1 })
    else addRetrying vector tries { index with nextVid := index.nextVid + 1 }

/-- The vid given, or nothing when the index is read-only or the loop gave up. -/
def add (index : VectorIndex V) (vector : V) : Option Nat × VectorIndex V :=
  if index.readOnly then (none, index) else addRetrying vector maxCollisionRetries index

def remove (index : VectorIndex V) (vid : Nat) : VectorIndex V := { index with inner := index.inner.remove vid }

def getVector (index : VectorIndex V) (vid : Nat) : Option V := index.inner.get? vid

/-- What a successful add does: the first key at or after `nextVid` that is free takes the vector. -/
theorem addRetrying_some {vector : V} {tries : Nat} {index after : VectorIndex V} {vid : Nat}
    (added : addRetrying vector tries index = (some vid, after)) :
    ∃ absent : vid ∉ index.inner.keys, index.nextVid ≤ vid ∧
      after = ⟨index.inner.insert vid vector absent, vid + 1, index.readOnly⟩ := by
  induction tries generalizing index with
  | zero => simp [addRetrying] at added
  | succ tries ih =>
    unfold addRetrying at added
    split at added
    · next absent =>
      simp only [Prod.mk.injEq, Option.some.injEq] at added
      obtain ⟨rfl, rfl⟩ := added
      exact ⟨absent, Nat.le_refl _, rfl⟩
    · obtain ⟨absent, later, shape⟩ := ih added
      refine ⟨absent, ?_, shape⟩
      simp only at later
      omega

/-- The loop gives up exactly on a run of present keys as long as its limit. -/
theorem addRetrying_none {vector : V} {tries : Nat} {index : VectorIndex V} :
    (addRetrying vector tries index).1 = none ↔
      ∀ offset < tries, index.nextVid + offset ∈ index.inner.keys := by
  induction tries generalizing index with
  | zero => simp [addRetrying]
  | succ tries ih =>
    unfold addRetrying
    split
    · next absent =>
      refine ⟨fun impossible => by simp at impossible, fun full => ?_⟩
      exact absurd (full 0 (Nat.succ_pos _)) absent
    · next present =>
      rw [not_not] at present
      rw [ih]
      constructor
      · intro full offset bound
        cases offset with
        | zero => exact present
        | succ offset =>
          have := full offset (by omega)
          rwa [show index.nextVid + (offset + 1) = index.nextVid + 1 + offset by omega]
      · intro full offset bound
        have := full (offset + 1) (by omega)
        rwa [show index.nextVid + 1 + offset = index.nextVid + (offset + 1) by omega]

/-- Giving up leaves the vectors alone. -/
theorem addRetrying_inner {vector : V} {tries : Nat} {index after : VectorIndex V}
    (failed : addRetrying vector tries index = (none, after)) :
    after.inner = index.inner ∧ index.nextVid ≤ after.nextVid ∧ after.readOnly = index.readOnly := by
  induction tries generalizing index with
  | zero =>
    simp only [addRetrying, Prod.mk.injEq, true_and] at failed
    subst failed
    exact ⟨rfl, Nat.le_refl _, rfl⟩
  | succ tries ih =>
    unfold addRetrying at failed
    split at failed
    · simp at failed
    · obtain ⟨inner, later, mode⟩ := ih failed
      refine ⟨inner, ?_, mode⟩
      simp only at later
      omega

end VectorIndex

end Rqmd
