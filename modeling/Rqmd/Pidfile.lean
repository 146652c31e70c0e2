import Mathlib.Logic.Function.Basic
import Rqmd.Lib.Transition

/-! Who removes the pidfile. Daemons of one index write their record once their listener is bound and remove the
file when they end; the commands `stop`, `status` and a launch read it, and remove it once the recorded process
is found gone. Each read, write and removal is a step of its own. -/

namespace Rqmd
open Transition

/-- Where a process stands. A process is named by what it is, not by its pid; `closing` says whether the daemon
has written its record. -/
inductive PidPhase where
  | absent
  | starting
  | serving
  | closing (wrote : Bool)
  | holding (record : Nat)
  | waiting (record : Nat)
  | clearing (record : Nat)
  | ended
deriving DecidableEq

inductive PidAction where
  | startDaemon | bail | writePidfile | failWrite | shutDown | die
  | readPidfile | giveUp | findStale | terminate | kill | findGone
  | removePidfile
deriving DecidableEq

/-- The pidfile, by the process whose record it holds, and the processes. `overtaken` is a history: another
daemon has written since the process last wrote or read the file. -/
structure PidSystem where
  pidfile : Option Nat
  phase : Nat → PidPhase
  overtaken : Nat → Bool

namespace PidSystem

def moved (s : PidSystem) (p : Nat) (phase : PidPhase) : PidSystem := { s with phase := Function.update s.phase p phase }

def enabled (s : PidSystem) (p : Nat) : PidAction → Bool
  | .startDaemon | .readPidfile => s.phase p = .absent
  | .bail | .writePidfile | .failWrite => s.phase p = .starting
  | .shutDown => s.phase p = .serving
  | .die => s.phase p ≠ .absent
  | .giveUp => match s.phase p with
    | .holding _ | .waiting _ => true
    | _ => false
  | .findStale => match s.phase p with
    | .holding record => s.phase record = .ended
    | _ => false
  | .terminate => match s.phase p with
    | .holding _ => true
    | _ => false
  | .kill => match s.phase p with
    | .waiting _ => true
    | _ => false
  | .findGone => match s.phase p with
    | .waiting record => s.phase record = .ended
    | _ => false
  | .removePidfile => match s.phase p with
    | .closing _ | .clearing _ => true
    | _ => false

def next (s : PidSystem) (p : Nat) : PidAction → PidSystem
  | .startDaemon => s.moved p .starting
  | .bail | .giveUp | .die => s.moved p .ended
  | .writePidfile => { s.moved p .serving with pidfile := some p, overtaken := fun q => q != p }
  | .failWrite => s.moved p (.closing false)
  | .shutDown => s.moved p (.closing true)
  | .readPidfile => match s.pidfile with
    | some record => { s.moved p (.holding record) with overtaken := Function.update s.overtaken p false }
    | none => s.moved p .ended
  | .findStale | .findGone => match s.phase p with
    | .holding record | .waiting record => s.moved p (.clearing record)
    | _ => s
  | .terminate => match s.phase p with
    | .holding record => s.moved p (.waiting record)
    | _ => s
  | .kill => match s.phase p with
    | .waiting record => s.moved record .ended
    | _ => s
  | .removePidfile => { s.moved p .ended with pidfile := none }

def Step (l : Nat × PidAction) (s n : PidSystem) : Prop := s.enabled l.1 l.2 ∧ n = s.next l.1 l.2

def run (s : PidSystem) : List (Nat × PidAction) → Option PidSystem
  | [] => some s
  | (p, action) :: rest => if s.enabled p action then (s.next p action).run rest else none

theorem run_reaches {guard : Nat × PidAction → PidSystem → PidSystem → Prop} {steps : List (Nat × PidAction)} {s n : PidSystem}
    (done : s.run steps = some n) (passes : ∀ l ∈ steps, ∀ m n, guard l m n) : Reaches Step guard s n := by
  induction steps generalizing s with
  | nil =>
    cases done
    exact .refl
  | cons l rest ih =>
    obtain ⟨p, action⟩ := l
    rw [run] at done
    by_cases able : s.enabled p action = true
    · rw [if_pos able] at done
      have first : Reaches Step guard s (s.next p action) :=
        Reaches.refl.next (passes (p, action) List.mem_cons_self _ _) ⟨able, rfl⟩
      exact first.trans (ih done fun l member => passes l (List.mem_cons_of_mem _ member))
    · rw [if_neg able] at done
      cases done

/-- No process is at work; an earlier one may have left its record. -/
def Fresh (s : PidSystem) : Prop := ∀ p, s.phase p = .absent ∨ s.phase p = .ended

/-- The record of the process that is being stopped or exits, where it has one. -/
def ownRecord (s : PidSystem) (p : Nat) : Option Nat := match s.phase p with
  | .closing true => some p
  | .clearing record => some record
  | _ => none

/-- A removal comes before another daemon has written since the remover's own write or read; a daemon that ends
without having written finds no pidfile. -/
def Undisturbed (l : Nat × PidAction) (s _n : PidSystem) : Prop :=
  l.2 = .removePidfile → if s.phase l.1 = .closing false then s.pidfile = none else s.overtaken l.1 = false

variable {s n start : PidSystem} {p q record : Nat} {action : PidAction}

/-! ### What holds of the file -/

/-- The file holds, if anything, the record of whoever was not overtaken; of a daemon that still serves it does. -/
structure Kept (s : PidSystem) : Prop where
  serving : ∀ p, s.phase p = .serving → s.overtaken p = false → s.pidfile = some p
  closing : ∀ p, s.phase p = .closing true → s.overtaken p = false → s.pidfile = none ∨ s.pidfile = some p
  command : ∀ c record, s.phase c = .holding record ∨ s.phase c = .waiting record ∨ s.phase c = .clearing record →
    s.overtaken c = false → s.pidfile = none ∨ s.pidfile = some record
  gone : ∀ c record, s.phase c = .clearing record → s.phase record = .ended

@[simp] theorem moved_phase_self (phase : PidPhase) : (s.moved p phase).phase p = phase := Function.update_self ..

theorem moved_phase_other (phase : PidPhase) (other : q ≠ p) : (s.moved p phase).phase q = s.phase q :=
  Function.update_of_ne other ..

theorem kept_of_fresh (fresh : s.Fresh) : s.Kept := by
  constructor
  · intro p here
    rcases fresh p with same | same
    all_goals
      rw [same] at here
      cases here
  · intro p here
    rcases fresh p with same | same
    all_goals
      rw [same] at here
      cases here
  · intro c record here
    rcases fresh c with same | same
    all_goals
      rw [same] at here
      rcases here with here | here | here <;> cases here
  · intro c record here
    rcases fresh c with same | same
    all_goals
      rw [same] at here
      cases here

/-- A process goes on to a phase whose own claims hold. -/
theorem Kept.moved (kept : s.Kept) {phase : PidPhase} (final : s.phase p = .ended → phase = .ended)
    (serving : phase = .serving → s.overtaken p = false → s.pidfile = some p)
    (closing : phase = .closing true → s.overtaken p = false → s.pidfile = none ∨ s.pidfile = some p)
    (command : ∀ record, phase = .holding record ∨ phase = .waiting record ∨ phase = .clearing record →
      s.overtaken p = false → s.pidfile = none ∨ s.pidfile = some record)
    (gone : ∀ record, phase = .clearing record → s.phase record = .ended) : (s.moved p phase).Kept := by
  have stays : ∀ q, s.phase q = .ended → (s.moved p phase).phase q = .ended := by
    intro q past
    by_cases same : q = p
    · rw [same, moved_phase_self]
      exact final (same ▸ past)
    · rw [moved_phase_other _ same]
      exact past
  constructor
  · intro q here fresh
    by_cases same : q = p
    · rw [same, moved_phase_self] at here
      exact same ▸ serving here (same ▸ fresh)
    · rw [moved_phase_other _ same] at here
      exact kept.serving q here fresh
  · intro q here fresh
    by_cases same : q = p
    · rw [same, moved_phase_self] at here
      exact same ▸ closing here (same ▸ fresh)
    · rw [moved_phase_other _ same] at here
      exact kept.closing q here fresh
  · intro q record here fresh
    by_cases same : q = p
    · rw [same, moved_phase_self] at here
      exact command record here (same ▸ fresh)
    · rw [moved_phase_other _ same] at here
      exact kept.command q record here fresh
  · intro q record here
    by_cases same : q = p
    · rw [same, moved_phase_self] at here
      exact stays record (gone record here)
    · rw [moved_phase_other _ same] at here
      exact stays record (kept.gone q record here)

/-- A process goes on to a phase that claims nothing. -/
theorem Kept.moved_quiet (kept : s.Kept) {phase : PidPhase} (final : s.phase p = .ended → phase = .ended)
    (quiet : phase = .starting ∨ phase = .closing false ∨ phase = .ended) : (s.moved p phase).Kept := by
  refine kept.moved final ?_ ?_ ?_ ?_
  all_goals rcases quiet with rfl | rfl | rfl <;> simp

theorem Kept.writePidfile (kept : s.Kept) (able : s.enabled p .writePidfile = true) : (s.next p .writePidfile).Kept := by
  simp only [enabled, decide_eq_true_eq] at able
  have others : ∀ q, (s.next p .writePidfile).overtaken q = false → q = p := by
    intro q fresh
    simpa [PidSystem.next] using fresh
  have own : (s.next p .writePidfile).phase p = .serving := moved_phase_self _
  constructor
  · intro q _ fresh
    rw [others q fresh]
    rfl
  · intro q here fresh
    rw [others q fresh, own] at here
    cases here
  · intro q record here fresh
    rw [others q fresh, own] at here
    rcases here with here | here | here <;> cases here
  · intro q record here
    have other : q ≠ p := by
      intro same
      rw [same, own] at here
      cases here
    have past := kept.gone q record ((moved_phase_other (s := s) .serving other).symm.trans here)
    have apart : record ≠ p := by
      intro same
      rw [same, able] at past
      cases past
    exact (moved_phase_other (s := s) .serving apart).trans past

theorem Kept.readPidfile (kept : s.Kept) (able : s.enabled p .readPidfile = true) : (s.next p .readPidfile).Kept := by
  simp only [enabled, decide_eq_true_eq] at able
  have final : ∀ {phase : PidPhase}, s.phase p = .ended → phase = .ended := by
    intro phase past
    rw [able] at past
    cases past
  cases found : s.pidfile with
  | none =>
    simp only [PidSystem.next, found]
    exact kept.moved_quiet final (.inr (.inr rfl))
  | some record =>
    simp only [PidSystem.next, found]
    -- The history of the reader starts anew, and nobody else's changes.
    have renewed : ({ s with overtaken := Function.update s.overtaken p false } : PidSystem).Kept := by
      have own : ∀ q, s.phase q ≠ .absent → Function.update s.overtaken p false q = s.overtaken q := by
        intro q present
        apply Function.update_of_ne
        intro same
        exact present (same ▸ able)
      constructor
      · intro q here fresh
        exact kept.serving q here ((own q (by rw [here]; exact PidPhase.noConfusion)).symm.trans fresh)
      · intro q here fresh
        exact kept.closing q here ((own q (by rw [here]; exact PidPhase.noConfusion)).symm.trans fresh)
      · intro q other here fresh
        have present : s.phase q ≠ .absent := by
          rcases here with here | here | here
          all_goals
            rw [here]
            exact PidPhase.noConfusion
        exact kept.command q other here ((own q present).symm.trans fresh)
      · exact kept.gone
    apply renewed.moved final
    · intro impossible
      cases impossible
    · intro impossible
      cases impossible
    · intro other here _
      simp only [PidPhase.holding.injEq, reduceCtorEq, or_false] at here
      exact .inr (here ▸ found)
    · intro other impossible
      cases impossible

/-- A command that has a record goes on with it. -/
theorem Kept.goes_on (kept : s.Kept) {phase : PidPhase} (had : s.phase p = .holding record ∨ s.phase p = .waiting record)
    (has : phase = .holding record ∨ phase = .waiting record ∨ phase = .clearing record)
    (gone : phase = .clearing record → s.phase record = .ended) : (s.moved p phase).Kept := by
  have claim := kept.command p record (had.imp id .inl)
  refine kept.moved ?_ ?_ ?_ ?_ ?_
  · intro past
    rcases had with had | had <;> rw [had] at past <;> cases past
  · intro impossible
    rcases has with has | has | has <;> rw [has] at impossible <;> cases impossible
  · intro impossible
    rcases has with has | has | has <;> rw [has] at impossible <;> cases impossible
  · intro other here
    have same : record = other := by
      rcases has with has | has | has <;> rw [has] at here <;> simpa using here
    exact same ▸ claim
  · intro other here
    have same : record = other := by
      rcases has with has | has | has
      · rw [has] at here
        cases here
      · rw [has] at here
        cases here
      · exact PidPhase.clearing.inj (has.symm.trans here)
    exact same ▸ gone (same ▸ here)

/-- A removal that is not disturbed takes away the remover's own record, or nothing. -/
theorem Kept.owned (kept : s.Kept) (able : s.enabled p .removePidfile = true)
    (undisturbed : Undisturbed (p, .removePidfile) s n) : s.pidfile = none ∨ s.pidfile = s.ownRecord p := by
  have guarded := undisturbed rfl
  cases here : s.phase p with
  | closing wrote =>
    cases wrote with
    | false =>
      rw [if_pos here] at guarded
      exact .inl guarded
    | true =>
      rw [if_neg (by rw [here]; decide)] at guarded
      have own : s.ownRecord p = some p := by simp [ownRecord, here]
      rw [own]
      exact kept.closing p here guarded
  | clearing record =>
    rw [if_neg (by rw [here]; exact PidPhase.noConfusion)] at guarded
    have own : s.ownRecord p = some record := by simp [ownRecord, here]
    rw [own]
    exact kept.command p record (.inr (.inr here)) guarded
  | absent | starting | serving | holding | waiting | ended => simp [enabled, here] at able

theorem Kept.removePidfile (kept : s.Kept) (able : s.enabled p .removePidfile = true)
    (undisturbed : Undisturbed (p, .removePidfile) s n) : (s.next p .removePidfile).Kept := by
  have owned := kept.owned able undisturbed
  have later := (show (s.moved p .ended).Kept from kept.moved_quiet (fun _ => rfl) (.inr (.inr rfl)))
  constructor
  · intro q here fresh
    have stands : s.pidfile = some q := later.serving q here fresh
    have other : q ≠ p := by
      intro same
      rw [same] at here
      rw [show (s.next p .removePidfile).phase p = .ended from moved_phase_self _] at here
      cases here
    have serves : s.phase q = .serving := (moved_phase_other (s := s) .ended other).symm.trans here
    -- Nobody removes the record of a daemon that serves: its own process does not, and a command finds it gone first.
    rcases owned with nothing | own
    · rw [nothing] at stands
      cases stands
    · rw [stands] at own
      cases phase : s.phase p with
      | closing wrote =>
        cases wrote with
        | true =>
          simp only [ownRecord, phase, Option.some.injEq] at own
          exact (other own).elim
        | false => simp [ownRecord, phase] at own
      | clearing record =>
        simp only [ownRecord, phase, Option.some.injEq] at own
        have past := kept.gone p record phase
        rw [← own, serves] at past
        cases past
      | absent | starting | serving | holding | waiting | ended => simp [ownRecord, phase] at own
  · exact fun _ _ _ => .inl rfl
  · exact fun _ _ _ _ => .inl rfl
  · exact later.gone

/-- What one step preserves. -/
theorem Kept.next (kept : s.Kept) (able : s.enabled p action = true) (undisturbed : Undisturbed (p, action) s n) :
    (s.next p action).Kept := by
  cases action with
  | writePidfile => exact kept.writePidfile able
  | readPidfile => exact kept.readPidfile able
  | removePidfile => exact kept.removePidfile able undisturbed
  | startDaemon =>
    simp only [enabled, decide_eq_true_eq] at able
    refine kept.moved_quiet (fun past => ?_) (.inl rfl)
    rw [able] at past
    cases past
  | failWrite =>
    simp only [enabled, decide_eq_true_eq] at able
    refine kept.moved_quiet (fun past => ?_) (.inr (.inl rfl))
    rw [able] at past
    cases past
  | bail | giveUp | die => exact kept.moved_quiet (fun _ => rfl) (.inr (.inr rfl))
  | shutDown =>
    simp only [enabled, decide_eq_true_eq] at able
    refine kept.moved ?_ ?_ (fun _ fresh => .inr (kept.serving p able fresh)) ?_ ?_
    · intro past
      rw [able] at past
      cases past
    · intro impossible
      cases impossible
    · intro record impossible
      rcases impossible with impossible | impossible | impossible <;> cases impossible
    · intro record impossible
      cases impossible
  | findStale =>
    simp only [enabled] at able
    cases phase : s.phase p with
    | holding record =>
      simp only [phase, decide_eq_true_eq] at able
      simp only [PidSystem.next, phase]
      exact kept.goes_on (.inl phase) (.inr (.inr rfl)) fun _ => able
    | absent | starting | serving | closing | waiting | clearing | ended => simp [phase] at able
  | findGone =>
    simp only [enabled] at able
    cases phase : s.phase p with
    | waiting record =>
      simp only [phase, decide_eq_true_eq] at able
      simp only [PidSystem.next, phase]
      exact kept.goes_on (.inr phase) (.inr (.inr rfl)) fun _ => able
    | absent | starting | serving | closing | holding | clearing | ended => simp [phase] at able
  | terminate =>
    cases phase : s.phase p with
    | holding record =>
      simp only [PidSystem.next, phase]
      exact kept.goes_on (.inl phase) (.inr (.inl rfl)) (by intro impossible; cases impossible)
    | absent | starting | serving | closing | waiting | clearing | ended => simp [enabled, phase] at able
  | kill =>
    cases phase : s.phase p with
    | waiting record =>
      simp only [PidSystem.next, phase]
      exact kept.moved_quiet (fun _ => rfl) (.inr (.inr rfl))
    | absent | starting | serving | closing | holding | clearing | ended => simp [enabled, phase] at able

/-- In a run whose removals are undisturbed, the pidfile is removed only while it holds the record of the process
being stopped or exiting, and a daemon's record that no later one overwrote stands as long as the daemon serves. -/
theorem pidfile_removed_by_owner (fresh : start.Fresh) (run : Reaches Step Undisturbed start s) :
    (∀ p, s.enabled p .removePidfile = true → Undisturbed (p, .removePidfile) s (s.next p .removePidfile) →
      s.pidfile = none ∨ s.pidfile = s.ownRecord p) ∧
    ∀ p, s.phase p = .serving → s.overtaken p = false → s.pidfile = some p := by
  have kept : s.Kept := by
    refine run.invariant (kept_of_fresh fresh) ?_
    intro l m n kept undisturbed step
    rw [step.2]
    exact kept.next step.1 undisturbed
  exact ⟨fun p able undisturbed => kept.owned able undisturbed, kept.serving⟩

/-- No pidfile and no process. -/
def noPidfile : PidSystem := ⟨none, fun _ => .absent, fun _ => false⟩

/-- Daemon 1 serves, is stopped by command 2 and has removed its record when the command finds it gone. -/
def stopOne : List (Nat × PidAction) :=
  [(1, .startDaemon), (1, .writePidfile), (2, .readPidfile), (2, .terminate), (1, .shutDown)]

theorem stop_removes_own_record : ∃ s, Reaches Step Undisturbed noPidfile s ∧ s.phase 1 = .closing true ∧
    (∀ p, s.enabled p .removePidfile = true → Undisturbed (p, .removePidfile) s (s.next p .removePidfile) →
      s.pidfile = none ∨ s.pidfile = s.ownRecord p) ∧
    ∀ p, s.phase p = .serving → s.overtaken p = false → s.pidfile = some p := by
  have ends : (noPidfile.run stopOne).isSome := by decide
  obtain ⟨s, done⟩ := Option.isSome_iff_exists.mp ends
  have last : (noPidfile.run stopOne).map (fun s => s.phase 1) = some (.closing true) := by decide
  rw [done] at last
  have quiet : ∀ l ∈ stopOne, l.2 ≠ .removePidfile := by decide
  have run : Reaches Step Undisturbed noPidfile s :=
    run_reaches done fun l member _ _ removing => absurd removing (quiet l member)
  exact ⟨s, run, Option.some.inj last, pidfile_removed_by_owner (fun _ => .inl rfl) run⟩

/-- Two daemons of one index, and the older one ends. -/
def olderEnds : List (Nat × PidAction) :=
  [(1, .startDaemon), (1, .writePidfile), (2, .startDaemon), (2, .writePidfile), (1, .shutDown)]

/-- The end of the older daemon takes the record of the one that runs. -/
theorem exit_removes_running_record : ∃ s, Reaches Step always noPidfile s ∧ s.enabled 1 .removePidfile ∧
    s.ownRecord 1 = some 1 ∧ s.phase 2 = .serving ∧ s.pidfile = some 2 ∧ (s.next 1 .removePidfile).pidfile = none := by
  have ends : (noPidfile.run olderEnds).isSome := by decide
  obtain ⟨s, done⟩ := Option.isSome_iff_exists.mp ends
  have last : (noPidfile.run olderEnds).map (fun s => (s.enabled 1 .removePidfile, s.ownRecord 1, s.phase 2, s.pidfile)) =
      some (true, some 1, .serving, some 2) := by decide
  rw [done] at last
  simp only [Option.map_some, Option.some.injEq, Prod.mk.injEq] at last
  exact ⟨s, run_reaches done fun _ _ _ _ => trivial, last.1, last.2.1, last.2.2.1, last.2.2.2, rfl⟩

end PidSystem

end Rqmd
