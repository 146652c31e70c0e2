import Rqmd.Allocation
import Rqmd.Lib.Interrupt

/-! A batch of vectors goes into the index whole or not at all. The calls of usearch are effects here, each of which
may be refused, so a batch can fail at any vector and at any turn of the retry loop. -/

namespace Rqmd.Batch
open Interrupt

variable {V : Type}

/-- How a call of usearch may be refused. `tombstoned` is a key that was removed and is not given out again. -/
inductive UsearchFault where
  | reserve
  | tombstoned
  | add
deriving DecidableEq

inductive IndexError where
  | duplicateKeys
  | failed (context : Failure)
deriving DecidableEq

/-- The index with the room usearch has set aside. -/
structure GrowingIndex (V : Type) extends VectorIndex V where
  capacity : Nat

abbrev IndexCommand (V α : Type) := Prog UsearchFault (GrowingIndex V) IndexError α

def reserveGrow : IndexCommand V Unit :=
  Prog.effect (fun found => if found = .reserve then some (.failed "usearch reserve grow") else none) fun index =>
    (.ok (), { index with capacity := index.capacity * 2 + 1 })

def GrowingIndex.inserted (index : GrowingIndex V) (vid : Nat) (embedding : V) (absent : vid ∉ index.inner.keys) :
    GrowingIndex V :=
  { index with inner := index.inner.insert vid embedding absent }

def GrowingIndex.advanced (index : GrowingIndex V) : GrowingIndex V := { index with nextVid := index.nextVid + 1 }

def GrowingIndex.removed (index : GrowingIndex V) (vid : Nat) : GrowingIndex V :=
  { index with inner := index.inner.remove vid }

/-- How usearch refuses to add a vector. -/
def refusesAdd : UsearchFault → Option IndexError
  | .tombstoned => some .duplicateKeys
  | .add => some (.failed "usearch add")
  | .reserve => none

def usearchAdd (vid : Nat) (embedding : V) : IndexCommand V Unit :=
  Prog.effect refusesAdd fun index =>
    if absent : vid ∉ index.inner.keys then (.ok (), index.inserted vid embedding absent) else (.error .duplicateKeys, index)

/-- One turn of the loop of `add`, and what follows a duplicate key. -/
def addOr (retry : IndexCommand V Nat) (vid : Nat) (embedding : V) : IndexCommand V Nat := do
  match ← (usearchAdd vid embedding).attempt with
  | .ok () =>
    Prog.modify GrowingIndex.advanced
    pure vid
  | .error .duplicateKeys =>
    Prog.modify GrowingIndex.advanced
    retry
  | .error (.failed context) => Prog.throw (.failed context)

def addRetrying (embedding : V) : Nat → IndexCommand V Nat
  | 0 => do
    let nextVid ← Prog.query fun index => index.nextVid
    Prog.throw (.failed ("usearch add: gave up after 1024 vid collisions starting from next_vid=" ++ toString nextVid))
  | tries + 1 => do
    let vid ← Prog.query fun index => index.nextVid
    if ← Prog.query fun index => decide (index.capacity ≤ index.size) then reserveGrow else pure ()
    addOr (addRetrying embedding tries) vid embedding

def add (embedding : V) : IndexCommand V Nat := do
  if ← Prog.query fun index => index.readOnly then
    Prog.throw (.failed "cannot add to a read-only (mmap'd) VectorIndex")
  else
    addRetrying embedding VectorIndex.maxCollisionRetries

/-- `remove`, which succeeds on a live key of a writable index. -/
def remove (vid : Nat) : IndexCommand V Unit := do
  if ← Prog.query fun index => index.readOnly then
    Prog.throw (.failed "cannot remove from a read-only (mmap'd) VectorIndex")
  else
    Prog.effect (fun _ => none) fun index => (.ok (), index.removed vid)

/-- The closure `embed_document_chunks` rolls back with. -/
def removeIgnoring (vid : Nat) : IndexCommand V Unit := do
  let _ ← (remove vid).attempt
  pure ()

/-- Generic in the index, as in the source; `vids` are those added so far. -/
def addAllOrRollback {φ σ ε κ : Type} (add : V → Prog φ σ ε κ) (remove : κ → Prog φ σ ε Unit) :
    List V → List κ → Prog φ σ ε (List κ)
  | [], vids => pure vids
  | embedding :: embeddings, vids => do
    match ← (add embedding).attempt with
    | .ok vid => addAllOrRollback add remove embeddings (vids ++ [vid])
    | .error e =>
      Prog.forEach remove vids
      Prog.throw e

/-- The live keys and their vectors are those of before. -/
structure Restored (before after : GrowingIndex V) : Prop where
  same : ∀ vid, after.inner.get? vid = before.inner.get? vid
  next : before.nextVid ≤ after.nextVid

/-- The whole batch is in, each vector under the key returned for it. -/
structure Inserted (before : GrowingIndex V) (embeddings : List V) (vids : List Nat) (after : GrowingIndex V) : Prop where
  distinct : vids.Nodup
  fresh : ∀ vid ∈ vids, vid ∉ before.inner.keys
  inOrder : vids.map after.inner.get? = embeddings.map some
  kept : ∀ vid, vid ∉ vids → after.inner.get? vid = before.inner.get? vid
  next : before.nextVid ≤ after.nextVid

variable {index before after : GrowingIndex V} {embedding : V} {embeddings : List V} {vids : List Nat}
  {faults : Faults UsearchFault}

/-! ### One vector -/

/-- Nothing has changed but the next key. -/
structure Untouched (before after : GrowingIndex V) : Prop where
  inner : after.inner = before.inner
  next : before.nextVid ≤ after.nextVid
  mode : after.readOnly = before.readOnly

/-- A free key at or after the next one has taken the vector. -/
structure Added (before : GrowingIndex V) (embedding : V) (vid : Nat) (after : GrowingIndex V) : Prop where
  absent : vid ∉ before.inner.keys
  inner : after.inner = before.inner.insert vid embedding absent
  later : before.nextVid ≤ vid
  next : vid < after.nextVid
  mode : after.readOnly = before.readOnly

def addEnds (before : GrowingIndex V) (embedding : V) : Ends (GrowingIndex V) IndexError Nat :=
  ⟨Added before embedding, fun _ => Untouched before, fun _ => True⟩

theorem wp_usearchAdd {vid : Nat} {ends : Ends (GrowingIndex V) IndexError Unit}
    (done : ∀ absent : vid ∉ index.inner.keys, ends.done () (index.inserted vid embedding absent))
    (taken : vid ∈ index.inner.keys ∨ faults.fault .tombstoned → ends.error .duplicateKeys index)
    (refused : faults.fault .add → ends.error (.failed "usearch add") index) (cut : faults.die → ends.died index) :
    wp faults (usearchAdd vid embedding) ends index := by
  refine wp_effect ?_ ?_ ?_ cut
  · intro answer after run
    split at run
    · next absent =>
      simp only [Prod.mk.injEq] at run
      obtain ⟨-, rfl⟩ := run
      exact done absent
    · cases run
  · intro e after run
    split at run
    · cases run
    · next present =>
      rw [not_not] at present
      simp only [Prod.mk.injEq, Except.error.injEq] at run
      obtain ⟨rfl, rfl⟩ := run
      exact taken (.inl present)
  · intro kind e raised hit
    cases kind with
    | reserve => cases hit
    | tombstoned =>
      cases hit
      exact taken (.inr raised)
    | add =>
      cases hit
      exact refused raised

theorem insert_congr {left right : Vectors V} {vid : Nat} (same : left = right) (absent : vid ∉ left.keys)
    (free : vid ∉ right.keys) : left.insert vid embedding absent = right.insert vid embedding free := by
  subst same
  rfl

theorem wp_addOr {retry : IndexCommand V Nat} {vid : Nat} (untouched : Untouched before index) (same : index.nextVid = vid)
    (onward : ∀ now, Untouched before now → wp Faults.any retry (addEnds before embedding) now) :
    wp Faults.any (addOr retry vid embedding) (addEnds before embedding) index := by
  have next := untouched.next
  refine wp_bind (wp_attempt (wp_usearchAdd ?_ ?_ ?_ fun _ => trivial))
  · intro absent
    have free : vid ∉ before.inner.keys := untouched.inner ▸ absent
    refine wp_bind (wp_modify (wp_pure ⟨free, ?_, by omega, ?_, untouched.mode⟩))
    · exact insert_congr untouched.inner absent free
    · change vid < index.nextVid + 1
      omega
  · intro _
    refine wp_bind (wp_modify (onward _ ⟨untouched.inner, ?_, untouched.mode⟩))
    change before.nextVid ≤ index.nextVid + 1
    omega
  · exact fun _ => wp_throw untouched

/-- However an add ends, the vector is in under a free key or nothing has changed but the next key. -/
theorem wp_addRetrying (tries : Nat) : ∀ index : GrowingIndex V, Untouched before index →
    wp Faults.any (addRetrying embedding tries) (addEnds before embedding) index := by
  induction tries with
  | zero => exact fun index untouched => wp_bind (wp_query (wp_throw untouched))
  | succ tries later =>
    intro index untouched
    refine wp_bind (wp_query (wp_bind (wp_query ?_)))
    by_cases full : index.capacity ≤ index.size
    · simp only [Ends.with, full, decide_true, if_true]
      refine wp_bind (wp_effect ?_ ?_ ?_ fun _ => trivial)
      · intro answer after run
        simp only [Prod.mk.injEq] at run
        obtain ⟨-, rfl⟩ := run
        exact wp_addOr ⟨untouched.inner, untouched.next, untouched.mode⟩ rfl later
      · intro e after run
        cases run
      · exact fun _ _ _ _ => untouched
    · simp only [Ends.with, full, decide_false, Bool.false_eq_true, if_false]
      exact wp_addOr untouched rfl later

theorem wp_add (embedding : V) (index : GrowingIndex V) :
    wp Faults.any (add embedding) ⟨fun vid after => Added index embedding vid after ∧ index.readOnly = false,
      fun _ => Untouched index, fun _ => True⟩ index := by
  have unchanged : Untouched index index := ⟨rfl, Nat.le_refl _, rfl⟩
  refine wp_bind (wp_query ?_)
  simp only [Ends.with]
  by_cases viewed : index.readOnly = true
  · rw [if_pos viewed]
    exact wp_throw unchanged
  · rw [if_neg viewed]
    have writable : index.readOnly = false := Bool.eq_false_iff.mpr viewed
    exact wp_mono (wp_addRetrying _ index unchanged) (fun _ _ added => ⟨added, writable⟩) (fun _ _ => id) fun _ => id

theorem wp_removeIgnoring {vid : Nat} {ends : Ends (GrowingIndex V) IndexError Unit}
    (viewed : index.readOnly = true → ends.done () index)
    (done : index.readOnly = false → ends.done () (index.removed vid)) (cut : faults.die → ends.died index) :
    wp faults (removeIgnoring vid) ends index := by
  refine wp_bind (wp_attempt (wp_bind (wp_query ?_)))
  simp only [Ends.with]
  cases mode : index.readOnly with
  | true =>
    rw [if_pos rfl]
    exact wp_throw (wp_pure (viewed mode))
  | false =>
    rw [if_neg Bool.false_ne_true]
    refine wp_effect ?_ ?_ ?_ cut
    · intro answer after run
      simp only [Prod.mk.injEq] at run
      obtain ⟨-, rfl⟩ := run
      exact wp_pure (done mode)
    · intro e after run
      cases run
    · intro kind e _ hit
      cases hit

/-! ### The batch -/

/-- The vectors added so far, each under its key, over the index of before. -/
structure Holds (before : GrowingIndex V) (added : List (Nat × V)) (after : GrowingIndex V) : Prop where
  distinct : (added.map Prod.fst).Nodup
  fresh : ∀ entry ∈ added, entry.1 ∉ before.inner.keys
  there : ∀ entry ∈ added, after.inner.get? entry.1 = some entry.2
  kept : ∀ vid, vid ∉ added.map Prod.fst → after.inner.get? vid = before.inner.get? vid
  next : before.nextVid ≤ after.nextVid
  mode : after.readOnly = before.readOnly
  writable : added ≠ [] → after.readOnly = false

theorem Holds.refl (index : GrowingIndex V) : Holds index [] index :=
  ⟨List.nodup_nil, fun _ none => absurd none List.not_mem_nil, fun _ none => absurd none List.not_mem_nil, fun _ _ => rfl,
    Nat.le_refl _, rfl, fun some => absurd rfl some⟩

theorem get?_none {vectors : Vectors V} {vid : Nat} (absent : vid ∉ vectors.keys) : vectors.get? vid = none := by
  cases found : vectors.get? vid with
  | none => rfl
  | some v =>
    have present : vid ∈ vectors.keys := Vectors.get?_isSome.mp (by rw [found]; rfl)
    exact absurd present absent

theorem Holds.add {added : List (Nat × V)} {vid : Nat} (holds : Holds before added index)
    (more : Added index embedding vid after) (writable : index.readOnly = false) :
    Holds before (added ++ [(vid, embedding)]) after := by
  have lookup : ∀ key, after.inner.get? key = if vid = key then some embedding else index.inner.get? key := by
    intro key
    rw [more.inner, Vectors.get?_insert]
  have apart : ∀ entry ∈ added, entry.1 ≠ vid := by
    intro entry member same
    have present : (index.inner.get? vid).isSome = true := by rw [← same, holds.there entry member]; rfl
    exact more.absent (Vectors.get?_isSome.mp present)
  have unused : vid ∉ added.map Prod.fst := by
    intro member
    obtain ⟨entry, inside, same⟩ := List.mem_map.mp member
    exact apart entry inside same
  refine ⟨?_, ?_, ?_, ?_, ?_, more.mode.trans holds.mode, fun _ => more.mode.trans writable⟩
  · rw [List.map_append]
    refine List.nodup_append.mpr ⟨holds.distinct, List.nodup_singleton _, fun key member last inside => ?_⟩
    rw [List.mem_singleton.mp inside]
    intro same
    have here : key = vid := same
    exact unused (here ▸ member)
  · intro entry member
    rcases List.mem_append.mp member with old | new
    · exact holds.fresh entry old
    · rw [List.mem_singleton.mp new]
      intro present
      have there := Vectors.get?_isSome.mpr present
      rw [← holds.kept vid unused] at there
      exact more.absent (Vectors.get?_isSome.mp there)
  · intro entry member
    rw [lookup]
    rcases List.mem_append.mp member with old | new
    · rw [if_neg (Ne.symm (apart entry old)), holds.there entry old]
    · rw [List.mem_singleton.mp new, if_pos rfl]
  · intro key outside
    rw [List.map_append, List.mem_append, not_or] at outside
    have other : vid ≠ key := fun same => outside.2 (same ▸ List.mem_singleton_self _)
    rw [lookup, if_neg other, holds.kept key outside.1]
  · have first := holds.next
    have second := more.later
    have third := more.next
    omega

/-- Taking the added keys out again. -/
theorem wp_rollback {added : List (Nat × V)} (holds : Holds before added index) :
    wp Faults.any (Prog.forEach removeIgnoring (added.map Prod.fst))
      ⟨fun _ after => Restored before after, fun _ _ => False, fun _ => True⟩ index := by
  let keep : List Nat → GrowingIndex V → Prop := fun left now => before.nextVid ≤ now.nextVid ∧
    (left ≠ [] → now.readOnly = false) ∧ (∀ vid ∈ left, before.inner.get? vid = none) ∧
    ∀ vid, vid ∉ left → now.inner.get? vid = before.inner.get? vid
  refine wp_forEach keep ?_ ?_ (added.map Prod.fst) index ⟨holds.next, ?_, ?_, holds.kept⟩
  · rintro vid left now ⟨next, writable, none, same⟩
    have mode := writable (List.cons_ne_nil vid left)
    refine wp_removeIgnoring (fun viewed => absurd (viewed.symm.trans mode) (by decide)) (fun _ => ?_) fun _ => trivial
    refine ⟨next, fun _ => mode, fun key member => none key (List.mem_cons_of_mem _ member), fun key outside => ?_⟩
    change (now.inner.remove vid).get? key = _
    rw [Vectors.get?_remove]
    by_cases here : vid = key
    · rw [if_pos here, ← here, none vid List.mem_cons_self]
    · rw [if_neg here]
      exact same key fun member => (List.mem_cons.mp member).elim (Ne.symm here) outside
  · exact fun now kept => ⟨fun vid => kept.2.2.2 vid List.not_mem_nil, kept.1⟩
  · exact fun some => holds.writable fun none => some (by rw [none]; rfl)
  · intro vid member
    obtain ⟨entry, inside, rfl⟩ := List.mem_map.mp member
    exact get?_none (holds.fresh entry inside)

theorem wp_addAllOrRollback (embeddings : List V) : ∀ (added : List (Nat × V)) (index : GrowingIndex V),
    Holds before added index →
    wp Faults.any (addAllOrRollback add removeIgnoring embeddings (added.map Prod.fst))
      ⟨fun vids after => ∃ more, Holds before (added ++ more) after ∧ vids = (added ++ more).map Prod.fst ∧
        more.map Prod.snd = embeddings, fun _ after => Restored before after, fun _ => True⟩ index := by
  induction embeddings with
  | nil =>
    intro added index holds
    exact wp_pure ⟨[], by rwa [List.append_nil], by rw [List.append_nil], rfl⟩
  | cons embedding embeddings later =>
    intro added index holds
    refine wp_bind (wp_attempt (wp_mono (wp_add embedding index) ?_ ?_ fun _ => id))
    · rintro vid after ⟨more, writable⟩
      have grown := holds.add more writable
      have rest := later (added ++ [(vid, embedding)]) after grown
      rw [List.map_append] at rest
      refine wp_mono rest ?_ (fun _ _ => id) fun _ => id
      rintro vids final ⟨others, held, ids, vectors⟩
      refine ⟨(vid, embedding) :: others, ?_, ?_, ?_⟩
      · rwa [List.append_assoc] at held
      · rwa [List.append_assoc] at ids
      · rw [List.map_cons, vectors]
    · intro e after untouched
      have kept : Holds before added after := by
        refine ⟨holds.distinct, holds.fresh, ?_, ?_, ?_, untouched.mode.trans holds.mode, ?_⟩
        · exact fun entry member => by rw [untouched.inner]; exact holds.there entry member
        · exact fun vid outside => by rw [untouched.inner]; exact holds.kept vid outside
        · exact Nat.le_trans holds.next untouched.next
        · exact fun some => untouched.mode.trans (holds.writable some)
      refine wp_bind (wp_mono (wp_rollback kept) (fun _ _ restored => wp_throw restored) (fun _ _ => False.elim) fun _ => id)

theorem addRetrying_calm (tries : Nat) : ∀ index : GrowingIndex V, wp Faults.calm (addRetrying embedding tries)
    ⟨fun vid after => VectorIndex.addRetrying embedding tries index.toVectorIndex = (some vid, after.toVectorIndex),
      fun _ after => VectorIndex.addRetrying embedding tries index.toVectorIndex = (none, after.toVectorIndex),
      fun _ => False⟩ index := by
  induction tries with
  | zero => exact fun index => wp_bind (wp_query (wp_throw rfl))
  | succ tries later =>
    have turn : ∀ index : GrowingIndex V, wp Faults.calm (addOr (addRetrying embedding tries) index.nextVid embedding)
        ⟨fun vid after => VectorIndex.addRetrying embedding (tries + 1) index.toVectorIndex = (some vid, after.toVectorIndex),
          fun _ after => VectorIndex.addRetrying embedding (tries + 1) index.toVectorIndex = (none, after.toVectorIndex),
          fun _ => False⟩ index := by
      intro index
      refine wp_bind (wp_attempt (wp_usearchAdd ?_ ?_ (fun raised => raised.elim) fun dead => dead.elim))
      · intro absent
        refine wp_bind (wp_modify (wp_pure ?_))
        rw [VectorIndex.addRetrying, dif_pos absent]
        rfl
      · intro taken
        have present := taken.resolve_right fun raised => raised
        refine wp_bind (wp_modify ?_)
        have rest := later index.advanced
        rw [VectorIndex.addRetrying, dif_neg (not_not.mpr present)]
        exact rest
    intro index
    refine wp_bind (wp_query (wp_bind (wp_query ?_)))
    by_cases full : index.capacity ≤ index.size
    · simp only [Ends.with, full, decide_true, if_true]
      refine wp_bind (wp_effect ?_ ?_ ?_ fun dead => dead.elim)
      · intro answer after run
        simp only [Prod.mk.injEq] at run
        obtain ⟨-, rfl⟩ := run
        exact turn { index with capacity := index.capacity * 2 + 1 }
      · intro e after run
        cases run
      · exact fun _ _ raised => raised.elim
    · simp only [Ends.with, full, decide_false, Bool.false_eq_true, if_false]
      exact turn index

/-- With no call refused this is `VectorIndex.add`. -/
theorem add_calm (index : GrowingIndex V) : wp Faults.calm (add embedding)
    ⟨fun vid after => VectorIndex.add index.toVectorIndex embedding = (some vid, after.toVectorIndex),
      fun _ after => VectorIndex.add index.toVectorIndex embedding = (none, after.toVectorIndex),
      fun _ => False⟩ index := by
  refine wp_bind (wp_query ?_)
  simp only [Ends.with]
  by_cases viewed : index.readOnly = true
  · rw [if_pos viewed]
    refine wp_throw ?_
    rw [VectorIndex.add, if_pos viewed]
  · rw [if_neg viewed]
    have rest := @addRetrying_calm V embedding VectorIndex.maxCollisionRetries index
    rw [VectorIndex.add, if_neg viewed]
    exact rest

end Rqmd.Batch
