import Rqmd.Commands
import Rqmd.UpdateRuns

/-! Vector ids over whole histories. The floor a checkpoint persists is past every id it commits, so an id
that was ever committed is not given out again; and an add finds a free id unless the saved file holds, at or
after the id the allocator restarts from, a run of keys as long as the retry loop. -/

namespace Rqmd
open Interrupt Transition

variable {V : Type} {env : Env V} {m n : Session V} {guard : StepKind → Session V → Session V → Prop}

/-! ### Ids are never reused -/

/-- The later event gives a vid of the earlier one's rows to a new vector. -/
def Event.reusedBy : Event → Event → Bool
  | .rowsCommitted vids, .vidAssigned vid => vids.contains vid
  | _, _ => false

theorem Event.reusedBy_eq_true {earlier later : Event} (reused : earlier.reusedBy later = true) :
    ∃ vids vid, earlier = .rowsCommitted vids ∧ later = .vidAssigned vid ∧ vid ∈ vids := by
  cases earlier with
  | rowsCommitted vids =>
    cases later with
    | vidAssigned vid => exact ⟨vids, vid, rfl, rfl, by simpa [reusedBy] using reused⟩
    | _ => cases reused
  | _ => cases reused

theorem Event.quiet_reusedBy {earlier later : Event} (quiet : later.quiet = true) : earlier.reusedBy later = false := by
  cases hit : earlier.reusedBy later with
  | false => rfl
  | true =>
    obtain ⟨_, _, -, rfl, -⟩ := reusedBy_eq_true hit
    cases quiet

/-- No vid is assigned after it was committed. -/
def NoReuse (log : List Event) : Prop := log.Pairwise fun earlier later : Event => earlier.reusedBy later = false

theorem noReuse_append {log more : List Event} (order : NoReuse log)
    (quiet : ∀ later ∈ more, ∀ earlier : Event, earlier.reusedBy later = false) : NoReuse (log ++ more) := by
  refine List.pairwise_append.mpr ⟨order, ?_, fun earlier _ later member => quiet later member earlier⟩
  exact List.pairwise_of_forall_mem_list fun earlier _ later member => quiet later member earlier

/-- The record of a session: it lists the vid of every row, every vid it lists is below the persisted floor,
and the assigned ones are new. -/
structure Session.Recorded (m : Session V) : Prop where
  rows : ∀ row ∈ m.store.db.vectors, ∃ vids, .rowsCommitted vids ∈ m.store.log ∧ row.vid ∈ vids
  past : ∀ vids, .rowsCommitted vids ∈ m.store.log → ∀ vid ∈ vids, vid < m.store.db.nextVid.getD 0
  order : NoReuse m.store.log

namespace Session.Recorded

/-- A step that commits nothing and assigns nothing. -/
theorem withStore {s : Store V} {more : List Event} (recorded : m.Recorded) (log : s.log = m.store.log ++ more)
    (quiet : ∀ e ∈ more, e.quiet = true) (floor : s.db.nextVid = m.store.db.nextVid)
    (rows : ∀ row ∈ s.db.vectors, ∃ old ∈ m.store.db.vectors, row.vid = old.vid) : (m.withStore s).Recorded := by
  refine ⟨?_, ?_, ?_⟩
  · intro row member
    obtain ⟨old, inside, same⟩ := rows row member
    obtain ⟨vids, listed, there⟩ := recorded.rows old inside
    refine ⟨vids, ?_, same ▸ there⟩
    change _ ∈ s.log
    rw [log]
    exact List.mem_append_left _ listed
  · intro vids listed vid there
    change _ ∈ s.log at listed
    rw [log] at listed
    change vid < s.db.nextVid.getD 0
    rw [floor]
    rcases List.mem_append.mp listed with old | new
    · exact recorded.past vids old vid there
    · cases quiet _ new
  · change NoReuse s.log
    rw [log]
    exact noReuse_append recorded.order fun later member earlier => Event.quiet_reusedBy (quiet later member)

theorem added {backend : Backend} {chunk : Chunk} {vector : V} {vid : Nat} {index : VectorIndex V}
    (recorded : m.Recorded) (allotted : m.Allotted) (given : m.store.hnsw.add vector = (some vid, index)) :
    (m.added backend chunk vid index).Recorded := by
  obtain ⟨-, later, -⟩ := VectorIndex.add_some given
  refine ⟨?_, ?_, ?_⟩
  · intro row member
    obtain ⟨vids, listed, there⟩ := recorded.rows row member
    exact ⟨vids, List.mem_append_left _ listed, there⟩
  · intro vids listed other there
    rcases List.mem_append.mp listed with old | new
    · exact recorded.past vids old other there
    · exact absurd (List.mem_singleton.mp new) (by simp)
  · refine List.pairwise_append.mpr ⟨recorded.order, List.pairwise_singleton _ _, fun earlier member _ last => ?_⟩
    rw [List.mem_singleton.mp last]
    cases hit : earlier.reusedBy (.vidAssigned vid) with
    | false => rfl
    | true =>
      -- the allocator is past the floor, and the floor past every committed vid
      obtain ⟨vids, _, rfl, same, there⟩ := Event.reusedBy_eq_true hit
      cases same
      have below := recorded.past vids member vid there
      have floor := allotted.floor
      omega

theorem committed {db : Db} (recorded : m.Recorded) (allotted : m.Allotted)
    (rows : Store.checkpointRows m.pending m.superseded m.store.hnsw.nextVid m.store.db = .ok db) :
    (m.committed db).Recorded := by
  have done := Db.checkpointed rows
  have floor : db.nextVid.getD 0 = max (m.store.db.nextVid.getD 0) m.store.hnsw.nextVid := done.floor
  refine ⟨?_, ?_, ?_⟩
  · intro row member
    rcases done.source row member with ⟨p, inside, rfl⟩ | ⟨old, -, -⟩
    · exact ⟨_, List.mem_append_right _ (List.mem_singleton_self _), List.mem_map_of_mem inside⟩
    · obtain ⟨vids, listed, there⟩ := recorded.rows row old
      exact ⟨vids, List.mem_append_left _ listed, there⟩
  · intro vids listed vid there
    change vid < db.nextVid.getD 0
    rcases List.mem_append.mp listed with old | new
    · have := recorded.past vids old vid there
      omega
    · have same := List.mem_singleton.mp new
      cases same
      obtain ⟨p, inside, rfl⟩ := List.mem_map.mp there
      have := (allotted.pending p inside).1
      omega
  · refine noReuse_append recorded.order fun later member earlier => ?_
    rw [List.mem_singleton.mp member]
    cases earlier <;> rfl

theorem embedStep {backend : Backend} {excluded : List Nat} (recorded : m.Recorded) (allotted : m.Allotted)
    (step : EmbedStep env backend excluded m n) : n.Recorded := by
  have none : ∀ e ∈ ([] : List Event), e.quiet = true := fun _ absent => absurd absent List.not_mem_nil
  have same : ∀ row ∈ m.store.db.vectors, ∃ old ∈ m.store.db.vectors, row.vid = old.vid := fun row member => ⟨row, member, rfl⟩
  cases step with
  | aside fts dirty log quiet => exact recorded.withStore rfl quiet rfl same
  | unmarked hash => exact recorded.withStore (List.append_nil _).symm none rfl same
  | added chunk vector vid index source given => exact recorded.added allotted given
  | refused vector index given => exact recorded.withStore (List.append_nil _).symm none rfl same
  | rolledBack => exact ⟨recorded.rows, recorded.past, recorded.order⟩
  | embedded hash relPath pending first => exact ⟨recorded.rows, recorded.past, recorded.order⟩
  | saved writable =>
    have quiet : ∀ e ∈ [Event.hnswSaved], e.quiet = true := by decide
    exact recorded.withStore rfl quiet rfl same
  | committed db saved rows => exact recorded.committed allotted rows

theorem step {kind : StepKind} (recorded : m.Recorded) (allotted : m.Allotted) (step : Step env kind m n) :
    n.Recorded := by
  have none : ∀ e ∈ ([] : List Event), e.quiet = true := fun _ absent => absurd absent List.not_mem_nil
  have same : ∀ row ∈ m.store.db.vectors, ∃ old ∈ m.store.db.vectors, row.vid = old.vid := fun row member => ⟨row, member, rfl⟩
  cases step with
  | embed backend excluded m n step => exact recorded.embedStep allotted step
  | aside m db fts dirty log vectors floor quiet => exact recorded.withStore rfl quiet floor (vectors ▸ same)
  | saved m writable =>
    have quiet : ∀ e ∈ [Event.hnswSaved], e.quiet = true := by decide
    exact recorded.withStore rfl quiet rfl same
  | dropped m db gone log vectors documents floor quiet =>
    refine recorded.withStore rfl quiet floor fun row member => ⟨row, ?_, rfl⟩
    have inside : row ∈ db.vectors := member
    rw [vectors] at inside
    exact (Table.mem_deleteWhere.mp inside).1
  | keyed m model fingerprints keyFor =>
    refine recorded.withStore (List.append_nil _).symm none rfl fun row member => ?_
    obtain ⟨old, inside, rfl⟩ := Db.mem_backfillVectorKeys.mp member
    exact ⟨old, inside, (Db.backfill_keys model fingerprints keyFor old).2.2⟩
  | evicted m hashes vids theirs => exact recorded.withStore (List.append_nil _).symm none rfl same
  | fileRemoved m idle =>
    have quiet : ∀ e ∈ [Event.hnswFileRemoved], e.quiet = true := by decide
    exact recorded.withStore rfl quiet rfl same
  | opened m readOnly => exact ⟨recorded.rows, recorded.past, recorded.order⟩

end Session.Recorded

/-- The sessions every history begins in. -/
theorem allotted_opened (d : Disk V) (readOnly : Bool) : (Session.of (d.open readOnly)).Allotted :=
  Session.Allotted.opened (d.open readOnly) readOnly

theorem recorded_of_reaches {start : Session V} (recorded : start.Recorded) (allotted : start.Allotted)
    (run : Reaches (Step env) guard start m) : m.Recorded := by
  let keep : Session V → Prop := fun m => m.Recorded ∧ m.Allotted
  have both : keep m := run.invariant ⟨recorded, allotted⟩ fun _ _ _ kept _ step =>
    ⟨kept.1.step kept.2 step, kept.2.step step⟩
  exact both.1

namespace Disk

theorem recorded_empty : (Session.of ((empty : Disk V).open false)).Recorded :=
  ⟨fun row member => absurd member (Table.not_mem_empty row), fun _ listed => absurd listed List.not_mem_nil, .nil⟩

/-- Over every history of commands, complete, failed or cut: each row's vid was committed by a checkpoint, and
no committed vid is assigned again. -/
theorem committed_vids_not_reassigned (env : Env V) (history : History) :
    (∀ row ∈ ((empty : Disk V).after env history).db.vectors,
      ∃ vids, .rowsCommitted vids ∈ (empty.after env history).log ∧ row.vid ∈ vids) ∧
    NoReuse ((empty : Disk V).after env history).log := by
  obtain ⟨m, run, same⟩ := @history_steps V env history empty
  have recorded := recorded_of_reaches recorded_empty (allotted_opened _ _) run
  rw [← same]
  exact ⟨recorded.rows, recorded.order⟩

end Disk

end Rqmd
