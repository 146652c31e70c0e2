import Rqmd.Rows
import Rqmd.Staging

/-! The rule of each step of the store: the state it leaves when it is performed, and the states a
refusal or a death can leave. -/

namespace Rqmd
open Interrupt

variable {V α : Type} {env : Env V} {faults : Faults FaultKind} {s : Store V}

namespace Store

theorem breaks_some {kind found : FaultKind} {context e : Failure} (hit : breaks kind context found = some e) :
    found = kind ∧ e = context := by
  unfold breaks at hit
  split at hit
  · next same => exact ⟨same, (Option.some.inj hit).symm⟩
  · cases hit

theorem wp_sqlWrite {context : Failure} {f : Db → Except Failure (α × Db)} {events : α → List Event}
    {ends : Ends (Store V) Failure α}
    (ok : ∀ a db, f s.db = .ok (a, db) → ends.done a { s with db := db, log := s.log ++ events a })
    (failed : ∀ e, f s.db = .error e → ends.error e s)
    (refused : faults.fault .sql → ∀ e, ends.error e s) (cut : faults.die → ends.died s) :
    wp faults (sqlWrite context f events) ends s := by
  refine wp_effect ?_ ?_ ?_ cut
  · intro a after run
    cases result : f s.db with
    | error e => simp [result] at run
    | ok pair =>
      obtain ⟨b, db⟩ := pair
      simp only [result, Prod.mk.injEq, Except.ok.injEq] at run
      obtain ⟨rfl, rfl⟩ := run
      exact ok b db result
  · intro e after run
    cases result : f s.db with
    | error found =>
      simp only [result, Prod.mk.injEq, Except.error.injEq] at run
      obtain ⟨rfl, rfl⟩ := run
      exact failed found result
    | ok pair => simp [result] at run
  · intro kind e raised hit
    obtain ⟨rfl, -⟩ := breaks_some hit
    exact refused raised e

theorem wp_sqlExecute {context : Failure} {f : Db → Db} {events : List Event}
    {ends : Ends (Store V) Failure Unit} (done : ends.done () { s with db := f s.db, log := s.log ++ events })
    (refused : faults.fault .sql → ∀ e, ends.error e s) (cut : faults.die → ends.died s) :
    wp faults (sqlExecute context f events) ends s := by
  refine wp_sqlWrite ?_ ?_ refused cut
  · intro a db run
    simp only [Except.ok.injEq, Prod.mk.injEq] at run
    obtain ⟨-, rfl⟩ := run
    exact done
  · intro e run
    cases run

theorem wp_ftsWrite {context : Failure} {f : FtsIndex → FtsIndex} {ends : Ends (Store V) Failure Unit}
    (done : ends.done () { s with fts := f s.fts })
    (refused : faults.fault .fts → ∀ e, ends.error e s) (cut : faults.die → ends.died s) :
    wp faults (ftsWrite context f) ends s := by
  refine wp_effect ?_ ?_ ?_ cut
  · intro a after run
    simp only [Prod.mk.injEq] at run
    obtain ⟨-, rfl⟩ := run
    exact done
  · intro e after run
    simp at run
  · intro kind e raised hit
    obtain ⟨rfl, -⟩ := breaks_some hit
    exact refused raised e

/-- A delete that does not complete leaves the working entries alone; it may have forgotten which of
them were staged under its path. -/
theorem wp_deleteByFilepath {filepath : String} {ends : Ends (Store V) Failure Unit}
    (done : ends.done () { s with fts := s.fts.deleted env filepath })
    (refused : faults.fault .fts → ∀ e, ends.error e s ∧ ends.error e { s with fts := (s.fts.takeStaged filepath).2 })
    (cut : faults.die → ends.died s ∧ ends.died { s with fts := (s.fts.takeStaged filepath).2 }) :
    wp faults (deleteByFilepath env filepath) ends s := by
  unfold deleteByFilepath
  by_cases termless : (env.pathTerms filepath).isEmpty = true
  · rw [if_pos termless]
    rw [FtsIndex.deleted_termless (by simpa using termless)] at done
    exact wp_pure done
  · rw [if_neg termless]
    refine wp_bind (wp_ftsWrite ?_ (fun raised e => (refused raised e).1) fun dead => (cut dead).1)
    refine wp_bind (wp_query ?_)
    refine wp_bind (wp_query ?_)
    refine wp_bind (wp_modify ?_)
    have shape : s.fts.deleted env filepath =
        if (s.fts.committedDocIdsAt env filepath ++ (s.fts.takeStaged filepath).1).isEmpty then
          (s.fts.takeStaged filepath).2
        else (s.fts.takeStaged filepath).2.deleteQuery env filepath
          (s.fts.committedDocIdsAt env filepath ++ (s.fts.takeStaged filepath).1) := by
      simp only [FtsIndex.deleted]
      rw [if_neg termless]
    rw [shape] at done
    simp only [id]
    split at done
    · next none =>
      rw [if_pos none]
      exact wp_pure done
    · next some =>
      rw [if_neg some]
      exact wp_ftsWrite done (fun raised e => (refused raised e).2) fun dead => (cut dead).2

theorem wp_insertDocument {filepath title body frontmatter : String} {docId : Nat}
    {ends : Ends (Store V) Failure Unit}
    (done : ends.done () { s with
      fts := s.fts.insertEntry (s.fts.entryOf env filepath title body frontmatter docId) })
    (refused : faults.fault .fts → ∀ e, ends.error e s) (cut : faults.die → ends.died s) :
    wp faults (insertDocument env filepath title body frontmatter docId) ends s :=
  wp_ftsWrite done refused cut

/-- The store once its staged full-text writes are durable. -/
def committed (s : Store V) : Store V := { s with fts := s.fts.commitStaged, log := s.log ++ [.ftsCommitted] }

theorem wp_ftsCommit {ends : Ends (Store V) Failure Unit}
    (idle : s.fts.writer = false → ends.done () s)
    (done : s.fts.writer = true → ends.done () s.committed)
    (refused : faults.fault .fts → s.fts.writer = true → ∀ e, ends.error e s ∧ ends.error e s.committed)
    (cut : faults.die → s.fts.writer = true → ends.died s ∧ ends.died s.committed) :
    wp faults ftsCommit ends s := by
  unfold ftsCommit
  refine wp_bind (wp_query ?_)
  cases writer : s.fts.writer with
  | false => exact wp_pure (idle writer)
  | true =>
    refine wp_bind (wp_effect ?_ ?_ ?_ fun dead => (cut dead writer).1)
    · intro a after run
      simp only [Prod.mk.injEq] at run
      obtain ⟨-, rfl⟩ := run
      exact wp_ftsWrite (done writer) (fun raised e => (refused raised writer e).2) fun dead => (cut dead writer).2
    · intro e after run
      simp at run
    · intro kind e raised hit
      obtain ⟨rfl, -⟩ := breaks_some hit
      exact (refused raised writer e).1

/-- The store after `FtsIndex::commit`. -/
def settled (s : Store V) : Store V := if s.fts.writer then s.committed else s

/-- The store once the vector file is replaced, and once `flush` is through. -/
def renamed (s : Store V) : Store V := { s with hnswFile := some s.hnsw.inner, log := s.log ++ [.hnswSaved] }

def saved (s : Store V) : Store V := { s.renamed with hnswDirty := false }

def flushed (s : Store V) : Store V := if s.hnswDirty then s.settled.saved else s.settled

@[simp] theorem settled_hnsw : s.settled.hnsw = s.hnsw := by
  unfold settled
  split <;> rfl

@[simp] theorem settled_hnswDirty : s.settled.hnswDirty = s.hnswDirty := by
  unfold settled
  split <;> rfl

@[simp] theorem settled_db : s.settled.db = s.db := by
  unfold settled
  split <;> rfl

@[simp] theorem settled_hnswFile : s.settled.hnswFile = s.hnswFile := by
  unfold settled
  split <;> rfl

@[simp] theorem settled_stagedVectors : s.settled.stagedVectors = s.stagedVectors := by
  unfold settled
  split <;> rfl

@[simp] theorem flushed_db : s.flushed.db = s.db := by
  unfold flushed
  split
  · exact settled_db
  · exact settled_db

@[simp] theorem flushed_hnsw : s.flushed.hnsw = s.hnsw := by
  unfold flushed
  split
  · exact settled_hnsw
  · exact settled_hnsw

theorem wp_saveAtomic {ends : Ends (Store V) Failure Unit}
    (readOnly : s.hnsw.readOnly = true → ∀ e, ends.error e s)
    (done : s.hnsw.readOnly = false → ends.done () s.renamed)
    (refused : faults.fault .hnsw → s.hnsw.readOnly = false → ∀ e, ends.error e s ∧ ends.error e s.renamed)
    (cut : faults.die → s.hnsw.readOnly = false → ends.died s ∧ ends.died s.renamed) :
    wp faults saveAtomic ends s := by
  unfold saveAtomic
  refine wp_bind (wp_query ?_)
  cases mode : s.hnsw.readOnly with
  | true => exact wp_throw (readOnly mode _)
  | false =>
    refine wp_bind (wp_effect ?_ ?_ ?_ fun dead => (cut dead mode).1)
    · intro a after run
      simp only [Prod.mk.injEq] at run
      obtain ⟨-, rfl⟩ := run
      refine wp_effect ?_ ?_ ?_ fun dead => (cut dead mode).2
      · intro b after run
        simp only [Prod.mk.injEq] at run
        obtain ⟨-, rfl⟩ := run
        exact done mode
      · intro e after run
        simp at run
      · intro kind e raised hit
        obtain ⟨rfl, -⟩ := breaks_some hit
        exact (refused raised mode e).2
    · intro e after run
      simp at run
    · intro kind e raised hit
      obtain ⟨rfl, -⟩ := breaks_some hit
      exact (refused raised mode e).1

theorem wp_flush {ends : Ends (Store V) Failure Unit} (done : ends.done () s.flushed)
    (readOnly : s.hnswDirty = true → s.hnsw.readOnly = true → ∀ e, ends.error e s.settled)
    (ftsRefused : faults.fault .fts → ∀ e, ends.error e s ∧ ends.error e s.settled)
    (hnswRefused : faults.fault .hnsw → s.hnswDirty = true → s.hnsw.readOnly = false →
      ∀ e, ends.error e s.settled ∧ ends.error e s.settled.renamed)
    (cut : faults.die → ends.died s ∧ ends.died s.settled ∧ (s.hnswDirty = true →
      s.hnsw.readOnly = false → ends.died s.settled.renamed)) :
    wp faults flush ends s := by
  have rest : wp faults (do
      if ← Prog.query hnswDirty then
        saveAtomic
        Prog.modify fun s => { s with hnswDirty := false }
      else
        pure () : Command V Unit) ends s.settled := by
    refine wp_bind (wp_query ?_)
    rw [settled_hnswDirty]
    cases dirty : s.hnswDirty with
    | false =>
      refine wp_pure ?_
      rwa [flushed, if_neg (by simp [dirty])] at done
    | true =>
      rw [flushed, if_pos dirty] at done
      refine wp_bind (wp_saveAtomic ?_ (fun _ => wp_modify done) ?_ ?_)
      · intro mode e
        exact readOnly dirty (by simpa using mode) e
      · exact fun raised mode e => hnswRefused raised dirty (by simpa using mode) e
      · exact fun dead mode => ⟨(cut dead).2.1, (cut dead).2.2 dirty (by simpa using mode)⟩
  unfold flush
  refine wp_bind (wp_ftsCommit ?_ ?_ ?_ ?_)
  · intro idle
    rwa [settled, if_neg (by simp [idle])] at rest
  · intro writer
    rwa [settled, if_pos writer] at rest
  · intro raised writer e
    have both := ftsRefused raised e
    rwa [settled, if_pos writer] at both
  · intro dead writer
    have both := cut dead
    rw [settled, if_pos writer] at both
    exact ⟨both.1, both.2.1⟩

end Store

end Rqmd
