import Rqmd.Steps
import Rqmd.Moves

/-! The rules of the steps of an embed pass. -/

namespace Rqmd
open Interrupt

variable {V : Type} {env : Env V} {backend : Backend} {faults : Faults FaultKind} {s : Store V}

namespace Store

/-! ### The vectors of one document -/

/-- Writing the fresh answers into the empty slots, when the answer depends on the slot only. -/
private theorem filled (f : Nat → V) (missing : List Nat) (slots : List (Option V)) (i : Nat) :
    ((missing.map fun i => (i, f i)).foldl (fun slots (i, v) => slots.set i (some v)) slots)[i]? =
      if i ∈ missing ∧ i < slots.length then some (some (f i)) else slots[i]? := by
  induction missing generalizing slots with
  | nil => simp
  | cons j missing ih =>
    rw [List.map_cons, List.foldl_cons, ih, List.length_set, List.getElem?_set]
    by_cases later : i ∈ missing ∧ i < slots.length
    · rw [if_pos later, if_pos ⟨List.mem_cons_of_mem _ later.1, later.2⟩]
    · rw [if_neg later]
      by_cases here : j = i
      · subst here
        by_cases bound : j < slots.length
        · simp [bound]
        · simp [bound]
      · have same : (i ∈ j :: missing ∧ i < slots.length) ↔ (i ∈ missing ∧ i < slots.length) := by
          simp [Ne.symm here]
        rw [if_neg here, if_neg fun both => later (same.mp both)]

/-- One vector for each chunk: the reusable one where there is one, else the passage's own. -/
def passages (env : Env V) (s : Store V) (backend : Backend) (chunks : List Chunk) : List V :=
  chunks.map fun chunk => (s.reusable backend.model (chunkKey env backend chunk)).getD
    (env.passageVector backend chunk.text)

private theorem refilled (env : Env V) (s : Store V) (backend : Backend) (chunks : List Chunk) :
    let slots := (chunks.map (chunkKey env backend)).map (s.reusable backend.model)
    let missing := (List.range slots.length).filter fun i => (slots[i]?.join).isNone
    let fresh := (missing.filterMap fun i => chunks[i]?.map Chunk.text).map (env.passageVector backend)
    ((missing.zip fresh).foldl (fun slots (i, v) => slots.set i (some v)) slots).reduceOption =
      passages env s backend chunks := by
  intro slots missing fresh
  have size : slots.length = chunks.length := by simp [slots]
  let f : Nat → V := fun i => env.passageVector backend ((chunks[i]?.map Chunk.text).getD "")
  have inside : ∀ i ∈ missing, i < chunks.length := by
    intro i member
    have := (List.mem_filter.mp member).1
    rw [List.mem_range, size] at this
    exact this
  have answers : fresh = missing.map f := by
    have texts : missing.filterMap (fun i => chunks[i]?.map Chunk.text) =
        missing.map fun i => (chunks[i]?.map Chunk.text).getD "" := by
      rw [← List.filterMap_eq_map]
      refine List.filterMap_congr fun i member => ?_
      simp [List.getElem?_eq_getElem (inside i member)]
    simp [fresh, texts, f, Function.comp_def]
  have pairs : missing.zip fresh = missing.map fun i => (i, f i) := by
    rw [answers, List.map_prod_left_eq_zip]
  let own : Chunk → V := fun chunk => (s.reusable backend.model (chunkKey env backend chunk)).getD
    (env.passageVector backend chunk.text)
  have whole : (missing.zip fresh).foldl (fun slots (i, v) => slots.set i (some v)) slots = (chunks.map own).map some := by
    rw [pairs]
    apply List.ext_getElem?
    intro i
    rw [filled]
    by_cases bound : i < chunks.length
    · have slot : slots[i]? = some (s.reusable backend.model (chunkKey env backend chunks[i])) := by
        simp [slots, bound]
      have empty : i ∈ missing ↔ s.reusable backend.model (chunkKey env backend chunks[i]) = none := by
        simp only [missing, List.mem_filter, List.mem_range, size, bound, true_and, slot, Option.join_some,
          Option.isNone_iff_eq_none]
      cases held : s.reusable backend.model (chunkKey env backend chunks[i]) with
      | none =>
        rw [if_pos ⟨empty.mpr held, size ▸ bound⟩]
        simp [f, own, bound, held]
      | some v =>
        rw [if_neg fun both => by simpa [held] using empty.mp both.1, slot]
        simp [own, bound, held]
    · rw [if_neg fun both => bound (size ▸ both.2)]
      simp [slots, bound]
  rw [whole]
  change ((chunks.map own).map some).filterMap id = passages env s backend chunks
  rw [List.filterMap_map]
  simp [passages, own]

theorem wp_embedBatchPassage {texts : List String} {ends : Ends (Store V) Failure (List V)}
    (done : ends.done (texts.map (env.passageVector backend)) s)
    (refused : faults.fault .backend → ∀ e, ends.error e s) (cut : faults.die → ends.died s) :
    wp faults (embedBatchPassage env backend texts) ends s := by
  unfold embedBatchPassage
  refine wp_bind (wp_effect ?_ ?_ ?_ cut)
  · intro fresh after run
    simp only [Prod.mk.injEq, Except.ok.injEq] at run
    obtain ⟨rfl, rfl⟩ := run
    have even : ¬ (texts.map (env.passageVector backend)).length ≠ texts.length := by simp
    simp only [Ends.with, if_neg even]
    exact wp_pure done
  · intro e after run
    simp at run
  · intro kind e raised hit
    obtain ⟨rfl, -⟩ := breaks_some hit
    exact refused raised e

theorem wp_embedPassagesReusing {chunks : List Chunk} {ends : Ends (Store V) Failure (List V)}
    (done : ends.done (passages env s backend chunks) s)
    (refused : faults.fault .backend → ∀ e, ends.error e s) (cut : faults.die → ends.died s) :
    wp faults (embedPassagesReusing env backend chunks (chunks.map (chunkKey env backend))) ends s := by
  have all := refilled env s backend chunks
  simp only at all
  unfold embedPassagesReusing
  refine wp_bind (wp_query ?_)
  generalize slotsDef : (chunks.map (chunkKey env backend)).map (s.reusable backend.model) = slots at all ⊢
  generalize missingDef : ((List.range slots.length).filter fun i => (slots[i]?.join).isNone) = missing at all ⊢
  simp only [Ends.with, missingDef]
  by_cases none : missing.isEmpty = true
  · rw [if_pos none]
    rw [List.isEmpty_iff.mp none] at all
    simp only [List.zip_nil_left, List.foldl_nil] at all
    rw [all]
    exact wp_pure done
  · rw [if_neg none]
    refine wp_bind (wp_embedBatchPassage (wp_pure ?_) refused cut)
    rw [all]
    exact done

theorem wp_hnswAdd {vector : V} {ends : Ends (Store V) Failure Nat}
    (done : ∀ vid index, s.hnsw.add vector = (some vid, index) →
      ends.done vid { s with hnsw := index, log := s.log ++ [.vidAssigned vid] })
    (full : ∀ index, s.hnsw.add vector = (none, index) → ∀ e, ends.error e { s with hnsw := index })
    (refused : faults.fault .hnsw → ∀ e, ends.error e s) (cut : faults.die → ends.died s) :
    wp faults (hnswAdd vector) ends s := by
  rcases result : s.hnsw.add vector with ⟨answer, index⟩
  refine wp_effect ?_ ?_ ?_ cut
  · intro vid after run
    rw [result] at run
    cases answer with
    | none => simp at run
    | some given =>
      simp only [Prod.mk.injEq, Except.ok.injEq] at run
      obtain ⟨rfl, rfl⟩ := run
      exact done given index result
  · intro e after run
    rw [result] at run
    cases answer with
    | some given => simp at run
    | none =>
      simp only [Prod.mk.injEq, Except.error.injEq] at run
      obtain ⟨-, rfl⟩ := run
      exact full index result e
  · intro kind e raised hit
    obtain ⟨rfl, -⟩ := breaks_some hit
    exact refused raised e

theorem wp_evictHnswVectors {vids : List Nat} {ends : Ends (Store V) Failure Unit}
    (writable : s.hnsw.readOnly = false)
    (done : ends.done () { s with
      hnsw := removeVids s.hnsw vids, hnswDirty := s.hnswDirty || !vids.isEmpty }) :
    wp faults (evictHnswVectors vids) ends s := by
  unfold evictHnswVectors
  cases vids with
  | nil =>
    refine wp_pure ?_
    simpa [removeVids] using done
  | cons vid vids =>
    refine wp_bind (wp_query ?_)
    simp only [Ends.with, writable, Bool.false_eq_true, if_false]
    refine wp_modify ?_
    simpa using done

end Store

end Rqmd
