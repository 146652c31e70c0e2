import Mathlib.Logic.Function.Basic
import Rqmd.Lib.Transition

/-! The index-writing commands side by side. Each is cut at the points that matter between processes: taking the
index lock, opening the store, the span in which it stages or commits changes, and the return, where its lock is
dropped after its store. -/

namespace Rqmd
open Transition

inductive WritingCommand where
  | collectionAdd | collectionRemove | collectionRename | update | embed | cleanup | watch | refresh
deriving DecidableEq

inductive Stage where
  /-- `IndexLock::acquire`: fails when another process has the lock. -/
  | acquire
  /-- `IndexLock::try_acquire`: returns the holder when another process has the lock. -/
  | tryAcquire
  /-- Opens the store and looks at the collections; may return or fail here. -/
  | openStore
  /-- Stages or commits changes of the documents rows, the full-text index or the vector file. -/
  | write
deriving DecidableEq

/-- Whether the stage takes the lock. -/
def Stage.locks : Stage → Bool
  | .acquire | .tryAcquire => true
  | .openStore | .write => false

/-- The stages of one run of the command; of `watch`, of one tick that finds a change. An `embed --rebuild` writes
before it opens the store for the pass. -/
def WritingCommand.stages : WritingCommand → List Stage
  | .collectionAdd => [.openStore, .write]
  | .collectionRemove => [.acquire, .openStore, .write]
  | .collectionRename => [.acquire, .openStore, .write]
  | .update => [.acquire, .openStore, .write]
  | .embed => [.acquire, .openStore, .write, .openStore, .write]
  | .cleanup => [.acquire, .openStore, .write]
  | .watch => [.openStore, .tryAcquire, .openStore, .write]
  | .refresh => [.openStore, .tryAcquire, .openStore, .write]

/-- The processes of one index directory, each with its command and the stages left, and the holder of the lock. -/
structure Writers (P : Type) where
  lock : Option P
  running : P → Option (WritingCommand × List Stage)

inductive WriterAction where
  | start (command : WritingCommand)
  | advance
  | leave
deriving DecidableEq

variable {P : Type} [DecidableEq P]

namespace Writers

def set (w : Writers P) (p : P) (now : Option (WritingCommand × List Stage)) : Writers P :=
  { w with running := Function.update w.running p now }

/-- The process is within the span of its writes. -/
def Writing (w : Writers P) (p : P) : Prop := ∃ command rest, w.running p = some (command, .write :: rest)

/-- `leave` is the return of a command, an error that ends it, or the death of its process. -/
inductive Step : P × WriterAction → Writers P → Writers P → Prop
  | start (w : Writers P) (p : P) (command : WritingCommand) (idle : w.running p = none) :
      Step (p, .start command) w (w.set p (some (command, command.stages)))
  | advance (w : Writers P) (p : P) (command : WritingCommand) (stage : Stage) (rest : List Stage)
      (running : w.running p = some (command, stage :: rest)) (free : stage.locks = true → w.lock = none) :
      Step (p, .advance) w { w.set p (some (command, rest)) with lock := if stage.locks then some p else w.lock }
  | leave (w : Writers P) (p : P) :
      Step (p, .leave) w { w.set p none with lock := if w.lock = some p then none else w.lock }

/-- `collection add` is started only while no other of the commands runs, and none is started while it runs. -/
def AddAlone (l : P × WriterAction) (w _n : Writers P) : Prop :=
  ∀ command, l.2 = .start command → ∀ q other rest, w.running q = some (other, rest) →
    command ≠ .collectionAdd ∧ other ≠ .collectionAdd

/-- The invariant: a command that locks has the lock from there on, and an add runs alone. -/
structure Serialized (w : Writers P) : Prop where
  stages : ∀ p command rest, w.running p = some (command, rest) → ∃ passed, command.stages = passed ++ rest ∧
    (passed.any Stage.locks = true → w.lock = some p)
  alone : ∀ p q rest other left, w.running p = some (.collectionAdd, rest) → w.running q = some (other, left) → q = p

variable {w n : Writers P} {p q : P}

theorem locks_of_write {command : WritingCommand} (locking : command ≠ .collectionAdd) {passed rest : List Stage}
    (whole : command.stages = passed ++ .write :: rest) : passed.any Stage.locks = true := by
  rcases passed with _ | ⟨first, _ | ⟨second, passed⟩⟩
  · cases command <;> cases whole
  · cases command
    case collectionAdd => exact absurd rfl locking
    all_goals cases whole
  · cases command
    case collectionAdd => exact absurd rfl locking
    all_goals
      simp only [WritingCommand.stages, List.cons_append, List.cons.injEq] at whole
      simp [← whole.1, ← whole.2.1, Stage.locks]

@[simp] theorem set_running_other {now : Option (WritingCommand × List Stage)} (other : q ≠ p) :
    (w.set p now).running q = w.running q := by
  simp [set, other]

@[simp] theorem set_running {now : Option (WritingCommand × List Stage)} : (w.set p now).running p = now := by
  simp [set]

theorem Serialized.start (z : w.Serialized) (command : WritingCommand) (idle : w.running p = none)
    (alone : AddAlone (p, .start command) w n) : (w.set p (some (command, command.stages))).Serialized := by
  have apart := alone command rfl
  constructor
  · intro q other rest running
    by_cases mine : q = p
    · subst mine
      rw [set_running] at running
      cases running
      exact ⟨[], rfl, nofun⟩
    · rw [set_running_other mine] at running
      exact z.stages q other rest running
  · intro q r rest other left adding running
    by_cases first : q = p
    · by_cases second : r = p
      · exact second.trans first.symm
      · subst first
        rw [set_running] at adding
        cases adding
        rw [set_running_other second] at running
        exact absurd rfl (apart r other left running).1
    · rw [set_running_other first] at adding
      by_cases second : r = p
      · exact absurd rfl (apart q _ rest adding).2
      · rw [set_running_other second] at running
        exact z.alone q r rest other left adding running

theorem Serialized.advance (z : w.Serialized) {command : WritingCommand} {stage : Stage} {rest : List Stage}
    (running : w.running p = some (command, stage :: rest)) (free : stage.locks = true → w.lock = none) :
    Serialized { w.set p (some (command, rest)) with lock := if stage.locks then some p else w.lock } := by
  obtain ⟨passed, whole, locked⟩ := z.stages p command _ running
  constructor
  · intro q other left now
    by_cases mine : q = p
    · subst mine
      simp only [set_running] at now
      cases now
      refine ⟨passed ++ [stage], by simp [whole], fun any => ?_⟩
      by_cases taking : stage.locks
      · exact if_pos taking
      · simp only [if_neg taking]
        simp only [List.any_append, List.any_cons, List.any_nil, Bool.or_false, taking] at any
        exact locked any
    · simp only [set_running_other mine] at now
      obtain ⟨before, theirs, held⟩ := z.stages q other left now
      refine ⟨before, theirs, fun any => ?_⟩
      have notFree := held any
      by_cases taking : stage.locks
      · rw [free taking] at notFree
        cases notFree
      · simp only [if_neg taking]
        exact notFree
  · intro q r adding other left first second
    have was : ∀ s now, ((w.set p (some (command, rest))).running s = some now) → ∃ stages, w.running s = some (now.1, stages) := by
      intro s now found
      by_cases mine : s = p
      · subst mine
        rw [set_running] at found
        cases found
        exact ⟨_, running⟩
      · rw [set_running_other mine] at found
        exact ⟨_, found⟩
    obtain ⟨stages, before⟩ := was q _ first
    obtain ⟨others, beside⟩ := was r _ second
    exact z.alone q r stages other others before beside

theorem Serialized.leave (z : w.Serialized) :
    Serialized { w.set p none with lock := if w.lock = some p then none else w.lock } := by
  have was : ∀ q now, (w.set p none).running q = some now → q ≠ p ∧ w.running q = some now := by
    intro q now found
    by_cases mine : q = p
    · subst mine
      rw [set_running] at found
      cases found
    · rw [set_running_other mine] at found
      exact ⟨mine, found⟩
  constructor
  · intro q other left now
    obtain ⟨mine, before⟩ := was q _ now
    obtain ⟨passed, whole, held⟩ := z.stages q other left before
    refine ⟨passed, whole, fun any => ?_⟩
    have theirs := held any
    have notMine : w.lock ≠ some p := fun same => mine (Option.some.inj (theirs.symm.trans same))
    simp only [if_neg notMine]
    exact theirs
  · intro q r adding other left first second
    exact z.alone q r adding other left (was q _ first).2 (was r _ second).2

/-- What one step preserves. -/
theorem Serialized.step {l : P × WriterAction} (z : w.Serialized) (alone : AddAlone l w n) (step : Step l w n) :
    n.Serialized := by
  cases step with
  | start w p command idle => exact z.start command idle alone
  | advance w p command stage rest running free => exact z.advance running free
  | leave w p => exact z.leave

/-- When every `collection add` runs alone, no two write phases overlap. -/
theorem writes_serialized {start : Writers P} (idle : ∀ p, start.running p = none)
    (run : Reaches Step AddAlone start w) (first : w.Writing p) (second : w.Writing q) : p = q := by
  have initially : start.Serialized := by
    constructor
    · intro p command rest running
      rw [idle p] at running
      cases running
    · intro p q rest other left running
      rw [idle p] at running
      cases running
  have z : w.Serialized := run.invariant initially fun _ _ _ z alone step => z.step alone step
  obtain ⟨command, rest, running⟩ := first
  obtain ⟨other, left, beside⟩ := second
  by_cases adding : command = .collectionAdd
  · subst adding
    exact (z.alone p q _ other _ running beside).symm
  by_cases addingToo : other = .collectionAdd
  · subst addingToo
    exact z.alone q p _ command _ beside running
  obtain ⟨passed, whole, held⟩ := z.stages p command _ running
  obtain ⟨before, theirs, holds⟩ := z.stages q other _ beside
  have mine := held (locks_of_write adding whole)
  have yours := holds (locks_of_write addingToo theirs)
  exact Option.some.inj (mine.symm.trans yours)

/-- Nothing runs on the index. -/
def still : Writers Nat := ⟨none, fun _ => none⟩

theorem writes_serialized_update : ∃ w : Writers Nat, Reaches Step AddAlone still w ∧ w.Writing 1 ∧ ¬ w.Writing 2 := by
  have begin : Reaches Step AddAlone still still := .refl
  have first := begin.next (l := (1, .start .update)) (by rintro _ _ _ _ _ ⟨⟩) (.start _ 1 .update rfl)
  have second := first.next (l := (2, .start .refresh)) ?_ (.start _ 2 .refresh rfl)
  · have locked := second.next (l := (1, .advance)) nofun (.advance _ 1 .update .acquire _ rfl fun _ => rfl)
    have opened := locked.next (l := (1, .advance)) nofun (.advance _ 1 .update .openStore _ rfl nofun)
    refine ⟨_, opened, ⟨.update, [], rfl⟩, fun writing => ?_⟩
    exact absurd (writes_serialized (p := 1) (q := 2) (fun _ => rfl) opened ⟨.update, [], rfl⟩ writing) (by decide)
  · intro command same q other rest running
    cases same
    refine ⟨nofun, ?_⟩
    by_cases mine : q = 1
    · subst mine
      rw [set_running] at running
      cases running
      nofun
    · rw [set_running_other mine] at running
      cases running

/-- `collection add` takes no lock, so it writes beside an update. -/
theorem adds_overlap_update : ∃ w : Writers Nat, Reaches Step always still w ∧ w.Writing 1 ∧ w.Writing 2 := by
  have begin : Reaches Step always still still := .refl
  have first := begin.next (l := (1, .start .update)) trivial (.start _ 1 .update rfl)
  have second := first.next (l := (2, .start .collectionAdd)) trivial (.start _ 2 .collectionAdd rfl)
  have locked := second.next (l := (1, .advance)) trivial (.advance _ 1 .update .acquire _ rfl fun _ => rfl)
  have opened := locked.next (l := (1, .advance)) trivial (.advance _ 1 .update .openStore _ rfl nofun)
  have both := opened.next (l := (2, .advance)) trivial (.advance _ 2 .collectionAdd .openStore _ rfl nofun)
  exact ⟨_, both, ⟨_, _, rfl⟩, ⟨_, _, rfl⟩⟩

end Writers

end Rqmd
