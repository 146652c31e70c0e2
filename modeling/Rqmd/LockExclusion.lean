import Rqmd.Lock

/-! At most one live process holds the index lock. A lock with an owner names it by a live pid, so every other
acquire finds it held; from the moment an acquire finds it free until it has named itself, there is no owner. -/

namespace Rqmd
open Transition

namespace Phase

/-- Inside the critical section of `try_acquire`. -/
def acquiring : Phase → Bool
  | .guarded | .taken | .recreating | .created | .pidWritten | .published | .hosted | .stamped => true
  | .opening .reclaim | .removing .reclaim _ => true
  | _ => false

/-- From the published pid on, until the release has looked at the directory. -/
def owning : Phase → Bool
  | .published | .hosted | .stamped | .holding | .opening .drop => true
  | _ => false

/-- Between finding the lock free and naming the new owner. -/
def replacing : Phase → Bool
  | .recreating | .created | .pidWritten | .opening .reclaim | .removing .reclaim _ => true
  | _ => false

def making : Phase → Bool
  | .created | .pidWritten => true
  | _ => false

def forcing : Phase → Bool
  | .opening .force | .removing .force _ => true
  | _ => false

theorem acquiring_of_replacing {phase : Phase} (replacing : phase.replacing) : phase.acquiring := by
  cases phase with
  | opening removal => cases removal <;> first | rfl | exact replacing
  | removing removal inode => cases removal <;> first | rfl | exact replacing
  | _ => first | rfl | exact replacing

theorem replacing_of_making {phase : Phase} (making : phase.making) : phase.replacing := by
  cases phase <;> first | rfl | cases making

end Phase

namespace LockSystem
variable {s n : LockSystem} {p q : Pid} {action : LockAction}

/-- Others of the processes are where they were. -/
structure Others (p : Pid) (s n : LockSystem) : Prop where
  phase : ∀ q, q ≠ p → n.phase q = s.phase q
  guard : ∀ q, q ≠ p → s.guard = some q → n.guard = some q

/-- The invariant: every owner is named by the directory it made, and none exists while one is being replaced. -/
structure Exclusive (s : LockSystem) : Prop where
  unforced : ∀ p, ¬ (s.phase p).forcing
  critical : ∀ p, (s.phase p).acquiring → s.guard = some p
  owned : ∀ p, (s.phase p).owning → ∃ dir, s.dir = some dir ∧ dir.pid = some (some p.val) ∧ dir.creator = p
  vacant : ∀ p q, (s.phase p).replacing → ¬ (s.phase q).owning
  made : ∀ p dir, (s.phase p).making → s.dir = some dir → dir.creator = p
  dropped : ∀ p inode dir, s.phase p = .removing .drop inode → s.dir = some dir → dir.inode = inode → dir.creator = p
  older : ∀ dir, s.dir = some dir → dir.inode < s.inodes
  opened : ∀ p removal inode, s.phase p = .removing removal inode → inode < s.inodes

@[simp] theorem moved_phase_other {phase : Phase} (other : q ≠ p) : (s.moved p phase).phase q = s.phase q := by
  simp [moved, other]

@[simp] theorem moved_phase {phase : Phase} : (s.moved p phase).phase p = phase := by
  simp [moved]

@[simp] theorem released_phase : (s.released p).phase = s.phase := rfl

theorem released_guard_other (other : q ≠ p) (had : s.guard = some q) : (s.released p).guard = some q := by
  have notMine : s.guard ≠ some p := by
    intro mine
    exact other (Option.some.inj (had.symm.trans mine))
  rw [released, if_neg notMine, had]

theorem others_moved (phase : Phase) : Others p s (s.moved p phase) :=
  ⟨fun _ other => moved_phase_other other, fun _ _ had => had⟩

theorem Others.released (others : Others p s n) : Others p s (n.released p) :=
  ⟨others.phase, fun q other had => released_guard_other other (others.guard q other had)⟩

theorem others_removed (removal : Removal) : Others p s (s.removed p removal) := by
  cases removal with
  | reclaim => exact others_moved _
  | drop => exact (others_moved _).released
  | force => exact (others_moved _).released

theorem Others.acquired (free : s.guard = none) (phase : Phase) : Others p s { s.moved p phase with guard := some p } := by
  refine ⟨fun _ other => moved_phase_other other, fun q _ had => ?_⟩
  rw [free] at had
  cases had

theorem others (taken : s.enabled p action) : Others p s (s.next p action) := by
  cases action with
  | lockGuard | drop | removeLock =>
    simp only [enabled, decide_eq_true_eq] at taken
    exact .acquired taken.2 _
  | inspected =>
    simp only [next]
    split
    · exact (others_moved _).released
    · exact others_moved _
    · exact others_moved _
  | openDir =>
    simp only [next]
    split
    · exact others_moved _
    · exact others_removed _
    · exact ⟨fun _ _ => rfl, fun _ _ had => had⟩
  | unlink file =>
    simp only [next]
    split
    · exact ⟨fun _ _ => rfl, fun _ _ had => had⟩
    · exact ⟨fun _ _ => rfl, fun _ _ had => had⟩
  | removeDir =>
    simp only [next]
    split
    · exact ⟨(others_removed _).phase, (others_removed _).guard⟩
    · exact ⟨fun _ _ => rfl, fun _ _ had => had⟩
  | giveUp =>
    simp only [next]
    split
    · exact others_removed _
    · exact others_removed _
    · exact ⟨fun _ _ => rfl, fun _ _ had => had⟩
  | tick | beat => exact ⟨fun _ _ => rfl, fun _ _ had => had⟩
  | crash | returned | failed => exact (others_moved _).released
  | spawn | createDir | alreadyExists | writePid | publishPid | writeHost | stamp | dropUnguarded =>
    exact ⟨fun _ other => moved_phase_other other, fun _ _ had => had⟩

/-- What a process may claim after a step that neither makes nor names a directory. -/
structure Entitled (s : LockSystem) (p : Pid) (phase : Phase) : Prop where
  owning : phase.owning → (s.phase p).owning
  replacing : phase.replacing → ∀ q, ¬ (s.phase q).owning
  making : phase.making → (s.phase p).making
  forcing : ¬ phase.forcing
  removing : ∀ removal inode, phase = .removing removal inode → inode < s.inodes ∧
    (removal = .drop → ∀ dir, s.dir = some dir → dir.inode = inode → dir.creator = p)

theorem Entitled.idle : s.Entitled p .idle := ⟨nofun, nofun, nofun, nofun, nofun⟩

theorem Exclusive.entitled (e : s.Exclusive) : s.Entitled p (s.phase p) where
  owning := id
  replacing := fun replacing q => e.vacant p q replacing
  making := id
  forcing := e.unforced p
  removing := by
    intro removal inode removing
    refine ⟨e.opened p removal inode removing, ?_⟩
    rintro rfl dir
    exact e.dropped p inode dir removing

/-- A step that neither makes nor names a directory. -/
theorem Exclusive.shifted (e : s.Exclusive) (others : Others p s n) (entitled : s.Entitled p (n.phase p))
    (critical : (n.phase p).acquiring → n.guard = some p) (inodes : n.inodes = s.inodes)
    (back : ∀ dir, n.dir = some dir → ∃ old, s.dir = some old ∧ old.inode = dir.inode ∧ old.creator = dir.creator)
    (forth : ∀ q old, (s.phase q).owning → s.dir = some old →
      ∃ dir, n.dir = some dir ∧ dir.pid = old.pid ∧ dir.creator = old.creator) : n.Exclusive := by
  have owning : ∀ q, (n.phase q).owning → (s.phase q).owning := by
    intro q owns
    by_cases mine : q = p
    · exact mine ▸ entitled.owning (mine ▸ owns)
    · exact others.phase q mine ▸ owns
  constructor
  · intro q forced
    by_cases mine : q = p
    · exact entitled.forcing (mine ▸ forced)
    · exact e.unforced q (others.phase q mine ▸ forced)
  · intro q busy
    by_cases mine : q = p
    · exact mine ▸ critical (mine ▸ busy)
    · exact others.guard q mine (e.critical q (others.phase q mine ▸ busy))
  · intro q owns
    obtain ⟨old, found, named, made⟩ := e.owned q (owning q owns)
    obtain ⟨dir, now, samePid, sameCreator⟩ := forth q old (owning q owns) found
    exact ⟨dir, now, samePid.trans named, sameCreator.trans made⟩
  · intro q r building owns
    by_cases mine : q = p
    · exact entitled.replacing (mine ▸ building) r (owning r owns)
    · exact e.vacant q r (others.phase q mine ▸ building) (owning r owns)
  · intro q dir making found
    obtain ⟨old, before, -, sameCreator⟩ := back dir found
    have made : (s.phase q).making := by
      by_cases mine : q = p
      · exact mine ▸ entitled.making (mine ▸ making)
      · exact others.phase q mine ▸ making
    exact sameCreator.symm.trans (e.made q old made before)
  · intro q inode dir dropping found numbered
    obtain ⟨old, before, sameInode, sameCreator⟩ := back dir found
    rw [← sameCreator]
    by_cases mine : q = p
    · subst mine
      exact (entitled.removing _ _ dropping).2 rfl old before (sameInode.trans numbered)
    · exact e.dropped q inode old (others.phase q mine ▸ dropping) before (sameInode.trans numbered)
  · intro dir found
    obtain ⟨old, before, sameInode, -⟩ := back dir found
    rw [inodes, ← sameInode]
    exact e.older old before
  · intro q removal inode removing
    rw [inodes]
    by_cases mine : q = p
    · exact (entitled.removing removal inode (mine ▸ removing)).1
    · exact e.opened q removal inode (others.phase q mine ▸ removing)

/-- As `shifted`, where the directory keeps what the invariant goes by. -/
theorem Exclusive.kept (e : s.Exclusive) (others : Others p s n) (entitled : s.Entitled p (n.phase p))
    (critical : (n.phase p).acquiring → n.guard = some p) (inodes : n.inodes = s.inodes)
    {change : LockDir → LockDir} (same : n.dir = s.dir.map change)
    (keeps : ∀ dir, (change dir).inode = dir.inode ∧ (change dir).pid = dir.pid ∧ (change dir).creator = dir.creator) :
    n.Exclusive := by
  refine e.shifted others entitled critical inodes ?_ ?_
  · intro dir found
    rw [same] at found
    obtain ⟨old, before, rfl⟩ := Option.map_eq_some_iff.mp found
    exact ⟨old, before, (keeps old).1.symm, (keeps old).2.2.symm⟩
  · intro q old _ found
    exact ⟨change old, by rw [same, found]; rfl, (keeps old).2⟩

theorem Exclusive.inspected (e : s.Exclusive) (owns : (s.phase p).owning) : ∃ holder, s.lockState = .held holder := by
  obtain ⟨dir, found, named, -⟩ := e.owned p owns
  have live : s.pidIsAlive p.val = true := by
    have running : s.phase p ≠ .gone := by
      intro gone
      rw [gone] at owns
      cases owns
    simp only [pidIsAlive, dif_pos (And.intro p.positive p.bounded)]
    exact decide_eq_true running
  have read : dir.readPid = some p.val := by
    simp [LockDir.readPid, named, p.positive, p.bounded]
  simp [lockState, inspect, found, read, live]

/-- Two processes in the critical section are one. -/
theorem Exclusive.alone (e : s.Exclusive) (first : (s.phase p).acquiring) (second : (s.phase q).acquiring) : q = p :=
  Option.some.inj ((e.critical q second).symm.trans (e.critical p first))

theorem Exclusive.createDir (e : s.Exclusive) (taken : s.enabled p .createDir) : (s.next p .createDir).Exclusive := by
  have others := others taken
  simp only [enabled, decide_eq_true_eq] at taken
  obtain ⟨standing, absent⟩ := taken
  have busy : (s.phase p).acquiring := by
    rcases standing with at_guarded | at_recreating
    · rw [at_guarded]
      rfl
    · rw [at_recreating]
      rfl
  have unowned : ∀ q, ¬ (s.phase q).owning := by
    intro q owns
    obtain ⟨dir, found, -⟩ := e.owned q owns
    rw [absent] at found
    cases found
  have mine : (s.next p .createDir).phase p = .created := moved_phase
  constructor
  · intro q forced
    by_cases same : q = p
    · subst same
      rw [mine] at forced
      cases forced
    · exact e.unforced q (others.phase q same ▸ forced)
  · intro q acquiring
    by_cases same : q = p
    · subst same
      exact e.critical q busy
    · exact others.guard q same (e.critical q (others.phase q same ▸ acquiring))
  · intro q owns
    by_cases same : q = p
    · subst same
      rw [mine] at owns
      cases owns
    · exact absurd (others.phase q same ▸ owns) (unowned q)
  · intro q r _ owns
    by_cases same : r = p
    · subst same
      rw [mine] at owns
      cases owns
    · exact unowned r (others.phase r same ▸ owns)
  · intro q dir making found
    cases found
    by_cases same : q = p
    · exact same.symm
    · have acquiring := Phase.acquiring_of_replacing (Phase.replacing_of_making (others.phase q same ▸ making))
      exact absurd (e.alone busy acquiring) same
  · intro q inode dir dropping found numbered
    cases found
    by_cases same : q = p
    · subst same
      rw [mine] at dropping
      cases dropping
    · have older := e.opened q _ _ (others.phase q same ▸ dropping)
      rw [← numbered] at older
      exact absurd older (Nat.lt_irrefl _)
  · intro dir found
    cases found
    exact Nat.lt_succ_self _
  · intro q removal inode removing
    by_cases same : q = p
    · subst same
      rw [mine] at removing
      cases removing
    · exact Nat.lt_succ_of_lt (e.opened q removal inode (others.phase q same ▸ removing))

theorem Exclusive.publishPid (e : s.Exclusive) (taken : s.enabled p .publishPid) : (s.next p .publishPid).Exclusive := by
  have others := others taken
  simp only [enabled, decide_eq_true_eq] at taken
  obtain ⟨written, complete⟩ := taken
  obtain ⟨old, found, -⟩ := Option.any_eq_true _ _ |>.mp complete
  have making : (s.phase p).making := by
    rw [written]
    rfl
  have replacing := Phase.replacing_of_making making
  have busy := Phase.acquiring_of_replacing replacing
  have mine : (s.next p .publishPid).phase p = .published := moved_phase
  have made : (s.next p .publishPid).dir = some { old with pidTmp := false, pid := some (some p.val), modified := s.now } := by
    simp only [LockSystem.next, withDir, moved, found, Option.map_some]
  have sole : ∀ q, (s.next p .publishPid).phase q = s.phase q ∧ ¬ (s.phase q).owning ∨ q = p := by
    intro q
    by_cases same : q = p
    · exact .inr same
    · exact .inl ⟨others.phase q same, e.vacant p q replacing⟩
  constructor
  · intro q forced
    rcases sole q with ⟨unmoved, -⟩ | rfl
    · exact e.unforced q (unmoved ▸ forced)
    · rw [mine] at forced
      cases forced
  · intro q acquiring
    rcases sole q with ⟨unmoved, -⟩ | rfl
    · exact e.critical q (unmoved ▸ acquiring)
    · exact e.critical q busy
  · intro q owns
    rcases sole q with ⟨unmoved, free⟩ | rfl
    · exact absurd (unmoved ▸ owns) free
    · exact ⟨_, made, rfl, e.made q old making found⟩
  · intro q r building owns
    rcases sole q with ⟨unmoved, -⟩ | rfl
    · have same := e.alone busy (Phase.acquiring_of_replacing (unmoved ▸ building))
      rw [same, mine] at building
      cases building
    · rw [mine] at building
      cases building
  · intro q dir making found
    rcases sole q with ⟨unmoved, -⟩ | rfl
    · have same := e.alone busy (Phase.acquiring_of_replacing (Phase.replacing_of_making (unmoved ▸ making)))
      rw [same, mine] at making
      cases making
    · rw [mine] at making
      cases making
  · intro q inode dir dropping now numbered
    cases made.symm.trans now
    rcases sole q with ⟨unmoved, -⟩ | rfl
    · exact e.dropped q inode old (unmoved ▸ dropping) found numbered
    · rw [mine] at dropping
      cases dropping
  · intro dir now
    cases made.symm.trans now
    exact e.older old found
  · intro q removal inode removing
    rcases sole q with ⟨unmoved, -⟩ | rfl
    · exact e.opened q removal inode (unmoved ▸ removing)
    · rw [mine] at removing
      cases removing

/-- A directory that a process is removing has no owner. -/
theorem Exclusive.unowned (e : s.Exclusive) {removal : Removal} {dir : LockDir}
    (removing : s.phase p = .removing removal dir.inode) (found : s.dir = some dir) (owns : (s.phase q).owning) : False := by
  cases removal with
  | reclaim =>
    have replacing : (s.phase p).replacing := by
      rw [removing]
      rfl
    exact e.vacant p q replacing owns
  | drop =>
    obtain ⟨owned, now, -, made⟩ := e.owned q owns
    cases found.symm.trans now
    have same : q = p := made.symm.trans (e.dropped p _ dir removing found rfl)
    rw [same, removing] at owns
    cases owns
  | force =>
    have forcing : (s.phase p).forcing := by
      rw [removing]
      rfl
    exact e.unforced p forcing

/-- After a removal the process owns nothing; a reclaim goes on to make the directory. -/
theorem Exclusive.entitled_removed (e : s.Exclusive) {removal : Removal} (was : s.phase p = .opening removal ∨
    ∃ inode, s.phase p = .removing removal inode) : s.Entitled p ((s.removed p removal).phase p) ∧
    (((s.removed p removal).phase p).acquiring → (s.removed p removal).guard = some p) := by
  cases removal with
  | reclaim =>
    have replacing : (s.phase p).replacing := by
      rcases was with opening | ⟨inode, removing⟩
      · rw [opening]
        rfl
      · rw [removing]
        rfl
    simp only [removed, moved_phase]
    exact ⟨⟨nofun, fun _ => (e.vacant p · replacing), nofun, nofun, nofun⟩,
      fun _ => e.critical p (Phase.acquiring_of_replacing replacing)⟩
  | drop | force =>
    simp only [removed, released_phase, moved_phase]
    exact ⟨.idle, nofun⟩

theorem removed_dir {removal : Removal} : (s.removed p removal).dir = s.dir := by
  cases removal <;> rfl

theorem removed_inodes {removal : Removal} : (s.removed p removal).inodes = s.inodes := by
  cases removal <;> rfl

theorem Exclusive.removed (e : s.Exclusive) {removal : Removal} (was : s.phase p = .opening removal ∨
    ∃ inode, s.phase p = .removing removal inode) : (s.removed p removal).Exclusive := by
  obtain ⟨entitled, critical⟩ := e.entitled_removed was
  have dir : (s.removed p removal).dir = s.dir.map id := by
    rw [removed_dir, Option.map_id_fun, id]
  exact e.kept (others_removed removal) entitled critical removed_inodes dir fun _ => ⟨rfl, rfl, rfl⟩

theorem Exclusive.openDir (e : s.Exclusive) : (s.next p .openDir).Exclusive := by
  have others := @others s p .openDir
  simp only [LockSystem.next]
  split
  · next removal dir opening found =>
    have mine : (s.moved p (.removing removal dir.inode)).phase p = .removing removal dir.inode := moved_phase
    have dir' : (s.moved p (.removing removal dir.inode)).dir = s.dir.map id := by
      simp [moved]
    refine e.kept (others_moved _) ?_ ?_ rfl dir' fun _ => ⟨rfl, rfl, rfl⟩
    · rw [mine]
      refine ⟨nofun, ?_, nofun, ?_, ?_⟩
      · intro replacing
        cases removal with
        | reclaim => exact (e.vacant p · (by rw [opening]; rfl))
        | drop | force => cases replacing
      · intro forcing
        cases removal with
        | reclaim | drop => cases forcing
        | force => exact e.unforced p (by rw [opening]; rfl)
      · intro removal' inode same
        cases same
        refine ⟨e.older dir found, ?_⟩
        rintro rfl now there -
        cases found.symm.trans there
        obtain ⟨owned, here, -, made⟩ := e.owned p (by rw [opening]; rfl)
        cases found.symm.trans here
        exact made
    · rw [mine]
      intro busy
      cases removal with
      | reclaim => exact e.critical p (by rw [opening]; rfl)
      | drop | force => cases busy
  · next removal opening absent => exact e.removed (.inl opening)
  · exact e

theorem Exclusive.unlink (e : s.Exclusive) (file : LockFile) : (s.next p (.unlink file)).Exclusive := by
  simp only [LockSystem.next]
  split
  · next removal inode removing =>
    have kept : ∀ dir : LockDir, (dir.unlink s.now file).inode = dir.inode ∧ (dir.unlink s.now file).creator = dir.creator := by
      intro dir
      cases file <;> exact ⟨rfl, rfl⟩
    refine e.shifted (p := p) ⟨fun _ _ => rfl, fun _ _ had => had⟩ e.entitled (e.critical p) rfl ?_ ?_
    · intro dir found
      obtain ⟨old, before, rfl⟩ := Option.map_eq_some_iff.mp found
      refine ⟨old, before, ?_⟩
      split
      · exact ⟨(kept old).1.symm, (kept old).2.symm⟩
      · exact ⟨rfl, rfl⟩
    · intro q old owns found
      have other : old.inode ≠ inode := by
        rintro rfl
        exact e.unowned removing found owns
      exact ⟨old, by simp [withDir, found, other], rfl, rfl⟩
  · exact e

theorem Exclusive.removeDir (e : s.Exclusive) : (s.next p .removeDir).Exclusive := by
  simp only [LockSystem.next]
  split
  · next removal inode removing =>
    obtain ⟨entitled, critical⟩ := e.entitled_removed (.inr ⟨inode, removing⟩)
    have others := others_removed (s := s) (p := p) removal
    refine e.shifted ⟨others.phase, others.guard⟩ entitled critical removed_inodes ?_ ?_
    · intro dir found
      exact ⟨dir, (Option.filter_eq_some_iff.mp found).1, rfl, rfl⟩
    · intro q old owns found
      obtain ⟨dir, now, named, -⟩ := e.owned q owns
      cases found.symm.trans now
      exact ⟨old, by simp [found, LockDir.isEmpty, named], rfl, rfl⟩
  · exact e

/-- What one step preserves. -/
theorem Exclusive.next (e : s.Exclusive) (taken : s.enabled p action) (unforced : action ≠ .removeLock) :
    (s.next p action).Exclusive := by
  have others := others taken
  have unmoved : s.dir = s.dir.map id := by rw [Option.map_id_fun, id]
  have same : ∀ dir : LockDir, (id dir).inode = dir.inode ∧ (id dir).pid = dir.pid ∧ (id dir).creator = dir.creator :=
    fun _ => ⟨rfl, rfl, rfl⟩
  cases action with
  | createDir => exact e.createDir taken
  | publishPid => exact e.publishPid taken
  | openDir => exact e.openDir
  | unlink file => exact e.unlink file
  | removeDir => exact e.removeDir
  | removeLock => exact absurd rfl unforced
  | giveUp =>
    simp only [LockSystem.next]
    split
    · next removal opening => exact e.removed (.inl opening)
    · next removal inode removing => exact e.removed (.inr ⟨inode, removing⟩)
    · exact e
  | tick => exact e.kept others e.entitled (e.critical p) rfl unmoved same
  | beat => exact e.kept others e.entitled (e.critical p) rfl rfl fun _ => ⟨rfl, rfl, rfl⟩
  | spawn | crash | failed =>
    refine e.kept others ?_ ?_ rfl unmoved same
    · simp only [LockSystem.next, released_phase, moved_phase]
      exact ⟨nofun, nofun, nofun, nofun, nofun⟩
    · simp only [LockSystem.next, released_phase, moved_phase]
      nofun
  | inspected =>
    simp only [enabled, decide_eq_true_eq] at taken
    have busy := e.critical p (by rw [taken]; rfl)
    simp only [LockSystem.next]
    split
    · refine e.kept (others_moved _).released ?_ ?_ rfl unmoved same
      · simp only [released_phase, moved_phase]
        exact .idle
      · simp only [released_phase, moved_phase]
        nofun
    all_goals
      next free =>
      refine e.kept (others_moved _) ?_ (fun _ => busy) rfl unmoved same
      rw [moved_phase]
      refine ⟨nofun, fun _ q owns => ?_, nofun, nofun, nofun⟩
      obtain ⟨holder, held⟩ := e.inspected owns
      rw [free] at held
      cases held
  | lockGuard =>
    refine e.kept others ?_ (fun _ => rfl) rfl unmoved same
    simp only [LockSystem.next, moved_phase]
    exact ⟨nofun, nofun, nofun, nofun, nofun⟩
  | alreadyExists =>
    simp only [enabled, decide_eq_true_eq] at taken
    refine e.kept others ?_ (fun _ => e.critical p (by rw [taken.1]; rfl)) rfl unmoved same
    simp only [LockSystem.next, moved_phase]
    exact ⟨nofun, nofun, nofun, nofun, nofun⟩
  | writePid =>
    simp only [enabled, decide_eq_true_eq] at taken
    refine e.kept others ?_ (fun _ => e.critical p (by rw [taken.1]; rfl)) rfl rfl fun _ => ⟨rfl, rfl, rfl⟩
    simp only [LockSystem.next, withDir, moved_phase]
    exact ⟨nofun, fun _ q => e.vacant p q (by rw [taken.1]; rfl), fun _ => by rw [taken.1]; rfl, nofun, nofun⟩
  | writeHost | stamp =>
    simp only [enabled, decide_eq_true_eq] at taken
    refine e.kept others ?_ (fun _ => e.critical p (by rw [taken.1]; rfl)) rfl rfl fun _ => ?_
    · simp only [LockSystem.next, withDir, moved_phase]
      exact ⟨fun _ => by rw [taken.1]; rfl, nofun, nofun, nofun, nofun⟩
    · first
      | exact ⟨rfl, rfl, rfl⟩
      | split <;> exact ⟨rfl, rfl, rfl⟩
  | returned =>
    simp only [enabled, decide_eq_true_eq] at taken
    refine e.kept others ?_ ?_ rfl unmoved same
    · simp only [LockSystem.next, released_phase, moved_phase]
      exact ⟨fun _ => by rw [taken]; rfl, nofun, nofun, nofun, nofun⟩
    · simp only [LockSystem.next, released_phase, moved_phase]
      nofun
  | drop | dropUnguarded =>
    have holding : s.phase p = .holding := by
      simp only [enabled, decide_eq_true_eq] at taken
      first | exact taken.1 | exact taken
    refine e.kept others ?_ ?_ rfl unmoved same
    · simp only [LockSystem.next, moved_phase]
      exact ⟨fun _ => by rw [holding]; rfl, nofun, nofun, nofun, nofun⟩
    · simp only [LockSystem.next, moved_phase]
      nofun

/-- Runs in which nobody calls `remove_lock`. -/
def Unforced (l : Pid × LockAction) (_s _n : LockSystem) : Prop := l.2 ≠ .removeLock

theorem Quiet.exclusive (quiet : s.Quiet) : s.Exclusive := by
  constructor
  case older => exact quiet.older
  all_goals
    intro p
    rcases quiet.outside p with gone | idle
    · rw [gone]
      nofun
    · rw [idle]
      nofun

/-- At most one live process holds the lock. -/
theorem holder_unique {start : LockSystem} (quiet : start.Quiet) (run : Reaches Step Unforced start s)
    (first : s.phase p = .holding) (second : s.phase q = .holding) : p = q := by
  have exclusive : s.Exclusive := by
    refine run.invariant quiet.exclusive ?_
    rintro ⟨p, action⟩ m n kept unforced ⟨taken, rfl⟩
    exact kept.next taken unforced
  obtain ⟨dir, found, named, -⟩ := exclusive.owned p (by rw [first]; rfl)
  obtain ⟨other, same, renamed, -⟩ := exclusive.owned q (by rw [second]; rfl)
  cases found.symm.trans same
  have pids : p.val = q.val := by
    rw [named] at renamed
    exact Option.some.inj (Option.some.inj renamed)
  cases p
  cases q
  cases pids
  rfl

theorem run_reaches {guard : Pid × LockAction → LockSystem → LockSystem → Prop} {steps : List (Pid × LockAction)} :
    ∀ {s : LockSystem}, s.run steps = some n → (∀ l ∈ steps, ∀ m n, guard l m n) → Reaches Step guard s n := by
  induction steps with
  | nil =>
    intro s done _
    cases done
    exact .refl
  | cons step steps ih =>
    intro s done passes
    obtain ⟨p, action⟩ := step
    simp only [run] at done
    split at done
    · next taken =>
      have rest := ih done fun l member => passes l (List.mem_cons_of_mem _ member)
      exact (Reaches.refl.next (passes _ List.mem_cons_self _ _) ⟨taken, rfl⟩).trans rest
    · cases done

/-- A host on which nothing runs yet. -/
def bare : LockSystem := ⟨0, some "alpha", none, 0, none, fun _ => .gone⟩

theorem bare_quiet : bare.Quiet := ⟨fun _ => .inl rfl, rfl, nofun⟩

def writer : Pid := ⟨101, by decide, by decide⟩

def rival : Pid := ⟨102, by decide, by decide⟩

/-- From the directory made to the lock returned. -/
def finishing (p : Pid) : List (Pid × LockAction) :=
  [.createDir, .writePid, .publishPid, .writeHost, .stamp, .returned].map fun action => (p, action)

def removing (p : Pid) : List (Pid × LockAction) :=
  [.openDir, .unlink .pid, .unlink .host, .unlink .heartbeat, .removeDir].map fun action => (p, action)

/-- The writer dies with the lock, and the rival takes it over. -/
def takeover : List (Pid × LockAction) :=
  [(writer, .spawn), (writer, .lockGuard)] ++ finishing writer ++ [(writer, .crash), (rival, .spawn),
    (rival, .lockGuard), (rival, .alreadyExists), (rival, .inspected)] ++ removing rival ++ finishing rival ++ [(writer, .spawn)]

theorem holder_unique_takeover : ∃ s, bare.run takeover = some s ∧ s.phase rival = .holding ∧ s.phase writer ≠ .holding := by
  have ends : (bare.run takeover).isSome := by decide +kernel
  obtain ⟨s, done⟩ := Option.isSome_iff_exists.mp ends
  have holds : (bare.run takeover).map (fun s => s.phase rival) = some .holding := by decide +kernel
  rw [done] at holds
  have unforced : ∀ l ∈ takeover, l.2 ≠ .removeLock := by decide +kernel
  have run : Reaches Step Unforced bare s := run_reaches done fun l member _ _ => unforced l member
  refine ⟨s, done, Option.some.inj holds, fun held => ?_⟩
  exact absurd (holder_unique bare_quiet run held (Option.some.inj holds)) (by decide)

end LockSystem

end Rqmd
