import Rqmd.LockExclusion

/-! What a release removes. `Drop` does not look at the owner, so it removes whatever directory stands at the
path: its own, unless another process made one since a forced removal. -/

namespace Rqmd
open Transition

/-- The process has an `IndexLock`, or is making or releasing one. -/
def Phase.locked : Phase → Bool
  | .created | .pidWritten | .published | .hosted | .stamped | .holding => true
  | .opening .drop | .removing .drop _ => true
  | _ => false

/-- The process has an `IndexLock` or is still releasing it. -/
def Phase.unreleased : Phase → Bool
  | .holding | .opening .drop | .removing .drop _ => true
  | _ => false

theorem Phase.unreleased_or_acquiring {phase : Phase} (locked : phase.locked) : phase.unreleased ∨ phase.acquiring := by
  cases phase with
  | opening removal => cases removal <;> first | exact .inl rfl | cases locked
  | removing removal inode => cases removal <;> first | exact .inl rfl | cases locked
  | holding => exact .inl rfl
  | _ => first | exact .inr rfl | cases locked

namespace LockSystem

variable {s n : LockSystem} {p q : Pid} {action : LockAction}

/-- A release that takes away a directory which another live process made. -/
def RemovesForeign (s : LockSystem) (p : Pid) (action : LockAction) : Prop :=
  ∃ inode dir, s.phase p = .removing .drop inode ∧ s.dir = some dir ∧ dir.creator ≠ p ∧ s.phase dir.creator ≠ .gone ∧
    (action = .removeDir ∧ dir.isEmpty ∨ ∃ file, action = .unlink file ∧ dir.inode = inode ∧ dir.contains file)

/-- The lock directory is made only when no other process has an `IndexLock` or is still releasing one. -/
def MadeAlone (l : Pid × LockAction) (s _n : LockSystem) : Prop :=
  l.2 = .createDir → ∀ q, q ≠ l.1 → ¬ (s.phase q).unreleased

/-- The directory belongs to whoever has the lock. -/
structure Attributed (s : LockSystem) : Prop where
  critical : ∀ p, (s.phase p).acquiring → s.guard = some p
  made : ∀ p dir, (s.phase p).locked → s.dir = some dir → dir.creator = p

/-- A step that makes no directory. -/
theorem Attributed.shifted (a : s.Attributed) (others : Others p s n) (locked : (n.phase p).locked → (s.phase p).locked)
    (critical : (n.phase p).acquiring → n.guard = some p)
    (back : ∀ dir, n.dir = some dir → ∃ old, s.dir = some old ∧ old.creator = dir.creator) : n.Attributed := by
  constructor
  · intro q busy
    by_cases mine : q = p
    · exact mine ▸ critical (mine ▸ busy)
    · exact others.guard q mine (a.critical q (others.phase q mine ▸ busy))
  · intro q dir has found
    obtain ⟨old, before, same⟩ := back dir found
    have had : (s.phase q).locked := by
      by_cases mine : q = p
      · exact mine ▸ locked (mine ▸ has)
      · exact others.phase q mine ▸ has
    exact same.symm.trans (a.made q old had before)

/-- As `shifted`, where the directory stays at the path under its creator. -/
theorem Attributed.kept (a : s.Attributed) (others : Others p s n) (locked : (n.phase p).locked → (s.phase p).locked)
    (critical : (n.phase p).acquiring → n.guard = some p) {change : LockDir → LockDir}
    (same : n.dir = s.dir.map change) (keeps : ∀ dir, (change dir).creator = dir.creator) : n.Attributed := by
  refine a.shifted others locked critical fun dir found => ?_
  rw [same] at found
  obtain ⟨old, before, rfl⟩ := Option.map_eq_some_iff.mp found
  exact ⟨old, before, (keeps old).symm⟩

theorem Attributed.createDir (a : s.Attributed) (taken : s.enabled p .createDir)
    (alone : ∀ q, q ≠ p → ¬ (s.phase q).unreleased) : (s.next p .createDir).Attributed := by
  have others := others taken
  simp only [enabled, decide_eq_true_eq] at taken
  have guarded : s.guard = some p := by
    rcases taken.1 with starting | recreating
    · exact a.critical p (by rw [starting]; rfl)
    · exact a.critical p (by rw [recreating]; rfl)
  constructor
  · intro q busy
    by_cases mine : q = p
    · exact mine ▸ guarded
    · exact others.guard q mine (a.critical q (others.phase q mine ▸ busy))
  · intro q dir has found
    cases found
    by_contra other
    have mine : q ≠ p := fun same => other same.symm
    rcases Phase.unreleased_or_acquiring (others.phase q mine ▸ has) with unreleased | busy
    · exact alone q mine unreleased
    · exact mine (Option.some.inj ((a.critical q busy).symm.trans guarded))

theorem removed_within {removal : Removal} (was : s.phase p = .opening removal ∨ ∃ inode, s.phase p = .removing removal inode)
    (a : s.Attributed) : (((s.removed p removal).phase p).locked → (s.phase p).locked) ∧
      (((s.removed p removal).phase p).acquiring → (s.removed p removal).guard = some p) := by
  cases removal with
  | reclaim =>
    simp only [removed, moved_phase]
    refine ⟨(by intro impossible; cases impossible), fun _ => a.critical p ?_⟩
    rcases was with opening | ⟨inode, removing⟩
    · rw [opening]
      rfl
    · rw [removing]
      rfl
  | drop | force =>
    simp only [removed, released_phase, moved_phase]
    exact ⟨(by intro impossible; cases impossible), (by intro impossible; cases impossible)⟩

/-- What one step preserves. -/
theorem Attributed.next (a : s.Attributed) (taken : s.enabled p action) (alone : MadeAlone (p, action) s n) :
    (s.next p action).Attributed := by
  have others := others taken
  have unmoved : s.dir = s.dir.map id := by rw [Option.map_id_fun, id]
  cases action with
  | createDir => exact a.createDir taken (alone rfl)
  | tick => exact a.kept others id (a.critical p) unmoved fun _ => rfl
  | beat => exact a.kept others id (a.critical p) rfl fun _ => rfl
  | spawn | crash | failed =>
    refine a.kept others ?_ ?_ unmoved fun _ => rfl
    · simp only [LockSystem.next, released_phase, moved_phase]
      intro impossible
      cases impossible
    · simp only [LockSystem.next, released_phase, moved_phase]
      intro impossible
      cases impossible
  | lockGuard =>
    refine a.kept others ?_ (fun _ => rfl) unmoved fun _ => rfl
    simp only [LockSystem.next, moved_phase]
    intro impossible
    cases impossible
  | removeLock =>
    refine a.kept others ?_ (fun _ => rfl) unmoved fun _ => rfl
    simp only [LockSystem.next, moved_phase]
    intro impossible
    cases impossible
  | alreadyExists =>
    simp only [enabled, decide_eq_true_eq] at taken
    refine a.kept others ?_ (fun _ => a.critical p (by rw [taken.1]; rfl)) unmoved fun _ => rfl
    simp only [LockSystem.next, moved_phase]
    intro impossible
    cases impossible
  | inspected =>
    simp only [enabled, decide_eq_true_eq] at taken
    have busy := a.critical p (by rw [taken]; rfl)
    simp only [LockSystem.next]
    split
    · refine a.kept (others_moved _).released ?_ ?_ unmoved fun _ => rfl
      · simp only [released_phase, moved_phase]
        intro impossible
        cases impossible
      · simp only [released_phase, moved_phase]
        intro impossible
        cases impossible
    all_goals
      refine a.kept (others_moved _) ?_ (fun _ => busy) unmoved fun _ => rfl
      rw [moved_phase]
      intro impossible
      cases impossible
  | writePid | publishPid | stamp =>
    simp only [enabled, decide_eq_true_eq] at taken
    exact a.kept others (fun _ => by rw [taken.1]; rfl) (fun _ => a.critical p (by rw [taken.1]; rfl)) rfl fun _ => rfl
  | writeHost =>
    simp only [enabled, decide_eq_true_eq] at taken
    refine a.kept others (fun _ => by rw [taken.1]; rfl) (fun _ => a.critical p (by rw [taken.1]; rfl)) rfl fun _ => ?_
    split <;> rfl
  | returned =>
    simp only [enabled, decide_eq_true_eq] at taken
    refine a.kept others (fun _ => by rw [taken]; rfl) ?_ unmoved fun _ => rfl
    simp only [LockSystem.next, released_phase, moved_phase]
    intro impossible
    cases impossible
  | drop | dropUnguarded =>
    have holding : s.phase p = .holding := by
      simp only [enabled, decide_eq_true_eq] at taken
      first | exact taken.1 | exact taken
    refine a.kept others (fun _ => by rw [holding]; rfl) ?_ unmoved fun _ => rfl
    simp only [LockSystem.next, moved_phase]
    intro impossible
    cases impossible
  | openDir =>
    simp only [LockSystem.next]
    split
    · next removal dir opening found =>
      refine a.kept (others_moved _) ?_ ?_ unmoved fun _ => rfl
      · rw [moved_phase, opening]
        cases removal with
        | drop => exact fun _ => rfl
        | reclaim | force =>
          intro impossible
          cases impossible
      · rw [moved_phase]
        intro busy
        cases removal with
        | reclaim => exact a.critical p (by rw [opening]; rfl)
        | drop | force => cases busy
    · next removal opening absent =>
      obtain ⟨locked, critical⟩ := removed_within (.inl opening) a
      exact a.kept (others_removed _) locked critical (removed_dir.trans unmoved) fun _ => rfl
    · exact a
  | unlink file =>
    simp only [LockSystem.next]
    split
    · next removal inode removing =>
      refine a.kept (p := p) ⟨fun _ _ => rfl, fun _ _ had => had⟩ id (a.critical p) rfl fun dir => ?_
      split
      · cases file <;> rfl
      · rfl
    · exact a
  | removeDir =>
    simp only [LockSystem.next]
    split
    · next removal inode removing =>
      obtain ⟨locked, critical⟩ := removed_within (.inr ⟨inode, removing⟩) a
      have others := others_removed (s := s) (p := p) removal
      refine a.shifted ⟨others.phase, others.guard⟩ locked critical fun dir found => ?_
      exact ⟨dir, (Option.filter_eq_some_iff.mp found).1, rfl⟩
    · exact a
  | giveUp =>
    simp only [LockSystem.next]
    split
    · next removal opening =>
      obtain ⟨locked, critical⟩ := removed_within (.inl opening) a
      exact a.kept (others_removed _) locked critical (removed_dir.trans unmoved) fun _ => rfl
    · next removal inode removing =>
      obtain ⟨locked, critical⟩ := removed_within (.inr ⟨inode, removing⟩) a
      exact a.kept (others_removed _) locked critical (removed_dir.trans unmoved) fun _ => rfl
    · exact a

theorem Quiet.attributed (quiet : s.Quiet) : s.Attributed := by
  constructor
  all_goals
    intro p
    rcases quiet.outside p with gone | idle
    · rw [gone]
      nofun
    · rw [idle]
      nofun

/-- When every directory is made while no other process has the lock, a release removes its own only. -/
theorem release_removes_own {start : LockSystem} (quiet : start.Quiet) (run : Reaches Step MadeAlone start s) :
    ¬ s.RemovesForeign p action := by
  have attributed : s.Attributed := by
    refine run.invariant quiet.attributed ?_
    rintro ⟨p, action⟩ m n kept alone ⟨taken, rfl⟩
    exact kept.next taken alone
  rintro ⟨inode, dir, removing, found, foreign, -⟩
  exact foreign (attributed.made p dir (by rw [removing]; rfl) found)

/-- The writer about to make the directory. -/
def begun : LockSystem := (bare.next writer .spawn).next writer .lockGuard

/-- The rest of its run, up to the removal of the emptied directory. -/
def ownRelease : List (Pid × LockAction) :=
  (finishing writer).tail ++ [(writer, .drop)] ++ (removing writer).dropLast

theorem release_removes_own_writer : ∃ s, Reaches Step MadeAlone bare s ∧ s.phase writer = .removing .drop 0 ∧
    ¬ s.RemovesForeign writer .removeDir := by
  have ends : ((begun.next writer .createDir).run ownRelease).isSome := by decide +kernel
  obtain ⟨s, done⟩ := Option.isSome_iff_exists.mp ends
  have last : ((begun.next writer .createDir).run ownRelease).map (fun s => s.phase writer) = some (.removing .drop 0) := by
    decide +kernel
  rw [done] at last
  have alone : MadeAlone (writer, .createDir) begun (begun.next writer .createDir) := by
    intro _ q other
    have absent : begun.phase q = .gone := by simp [begun, LockSystem.next, moved, bare, other]
    rw [absent]
    intro impossible
    cases impossible
  have start : Reaches Step MadeAlone bare begun :=
    (Reaches.refl.next (l := (writer, .spawn)) (by intro impossible; cases impossible) ⟨by decide, rfl⟩).next (l := (writer, .lockGuard)) (by intro impossible; cases impossible) ⟨by decide, rfl⟩
  have made := start.next alone ⟨by decide, rfl⟩
  have later : ∀ l ∈ ownRelease, l.2 ≠ .createDir := by decide +kernel
  have run := made.trans (run_reaches done fun l member _ _ making => absurd making (later l member))
  exact ⟨s, run, Option.some.inj last, release_removes_own bare_quiet run⟩

def guardian : Pid := ⟨103, by decide, by decide⟩

/-- The writer's lock is removed by force, the rival takes the lock, and then the writer releases. -/
def lateRelease : List (Pid × LockAction) :=
  [(writer, .spawn), (writer, .lockGuard)] ++ finishing writer ++ [(guardian, .spawn), (guardian, .removeLock)] ++
    removing guardian ++ [(rival, .spawn), (rival, .lockGuard)] ++ finishing rival ++ [(writer, .drop)] ++
    (removing writer).dropLast

/-- The rival's directory goes with the writer's release. -/
theorem release_removes_foreign : ∃ s, Reaches Step always bare s ∧ s.phase rival = .holding ∧
    s.enabled writer .removeDir ∧ s.RemovesForeign writer .removeDir := by
  have ends : (bare.run lateRelease).isSome := by decide +kernel
  obtain ⟨s, done⟩ := Option.isSome_iff_exists.mp ends
  have last : (bare.run lateRelease).map (fun s => (s.phase rival, s.phase writer, s.dir)) =
      some (.holding, .removing .drop 1, some (.new 1 rival 0)) := by decide +kernel
  rw [done] at last
  simp only [Option.map_some, Option.some.injEq, Prod.mk.injEq] at last
  obtain ⟨holds, releasing, found⟩ := last
  refine ⟨s, run_reaches done fun _ _ _ _ => trivial, holds, ?_, 1, _, releasing, found, by decide, ?_, .inl ⟨rfl, rfl⟩⟩
  · simp [enabled, releasing]
  · change s.phase rival ≠ .gone
    rw [holds]
    decide

end LockSystem

end Rqmd
