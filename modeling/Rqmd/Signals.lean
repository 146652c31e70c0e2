import Mathlib.Algebra.Group.Nat.Defs
import Mathlib.Data.List.Nodup
import Mathlib.Logic.Function.Basic
import Rqmd.Lib.Transition

/-! The guards that catch SIGINT, SIGTERM and SIGHUP. Threads install and drop nested guards while signals arrive at any
moment; a handler runs next to every thread, one atomic access at a time. -/

namespace Rqmd.Signals
open Transition

/-- What a signal does when it reaches the process. -/
inductive SigAction where
  | ignored
  | onSignal
  | other (handler : Nat)
deriving DecidableEq

def sigHup : Nat := 1
def sigInt : Nat := 2
def sigTerm : Nat := 15

def caughtSignals : List Nat := [sigInt, sigTerm, sigHup]

def exitSignalBase : Nat := 128

/-- The previous action of each signal that is caught. -/
abbrev Outer := List (Nat × SigAction)

/-- `exitOnRepeat` is what the guard was installed with. -/
structure Catch where
  outer : Option Outer
  previousRepeat : Bool
  exitOnRepeat : Bool
deriving DecidableEq

/-- How far the thread that owns the handlers has come: within `install`, under its guards, within the last `drop`. -/
inductive Stage where
  | resetReceived (exitOnRepeat : Bool)
  | resetCount (exitOnRepeat : Bool)
  | catching (exitOnRepeat : Bool) (left : List Nat) (previous : Outer)
  | guarded (catches : List Catch)
  | clearing (previous : Outer)
  | restoring (left : Outer)
deriving DecidableEq

/-- How far a run of `on_signal` has come. -/
inductive HandlerStep where
  | begun
  | recorded
  | repeated
deriving DecidableEq

structure Handler where
  signal : Nat
  step : HandlerStep
deriving DecidableEq

/-- `caught` and `counted` are the signals whose handlers have written since `received` and `count` were last reset. -/
structure Process where
  actions : Nat → SigAction
  received : Nat
  count : Nat
  exitOnRepeat : Bool
  held : Nat → Bool
  waiting : List (Nat × Bool)
  owner : Option (Nat × Stage)
  handlers : List Handler
  exited : Option Nat
  caught : List Nat
  counted : List Nat

namespace Process

/-- Before any guard is installed. -/
def fresh (actions : Nat → SigAction) : Process :=
  ⟨actions, 0, 0, false, fun _ => false, [], none, [], none, [], []⟩

def pending (p : Process) (thread : Nat) : Option Nat :=
  if p.held thread then (if p.received = 0 then none else some p.received) else none

/-- The guards of a thread, the innermost first. -/
def guards (p : Process) (thread : Nat) : List Catch :=
  match p.owner with
  | some (owner, .guarded catches) => if owner = thread then catches else []
  | _ => []

/-- A thread that is within the installation of its outermost guard. -/
def installing (p : Process) (thread : Nat) : Bool :=
  p.waiting.any (fun waiter => waiter.1 == thread) ||
    match p.owner with
    | some (owner, .resetReceived _) => owner == thread
    | some (owner, .resetCount _) => owner == thread
    | some (owner, .catching _ _ _) => owner == thread
    | _ => false

end Process

inductive SignalEvent where
  | enter (thread : Nat)
  | lock (thread : Nat)
  | advance
  | nest (thread : Nat)
  | drop
  | deliver (signal : Nat)
  | handle
  | returned (signal : Nat)
  | exit (signal : Nat)
deriving DecidableEq

/-- One step of a thread within `Catch`, or of a handler. -/
inductive SignalStep : SignalEvent → Process → Process → Prop
  | enter {p : Process} (thread : Nat) (exitOnRepeat : Bool) (free : p.held thread = false)
      (elsewhere : ∀ stage, p.owner ≠ some (thread, stage)) : SignalStep (.enter thread) p
        { p with held := Function.update p.held thread true, waiting := p.waiting ++ [(thread, exitOnRepeat)] }
  | lock {p : Process} (thread : Nat) (exitOnRepeat : Bool) (front rest : List (Nat × Bool))
      (waits : p.waiting = front ++ (thread, exitOnRepeat) :: rest) (unowned : p.owner = none) :
        SignalStep (.lock thread) p
          { p with waiting := front ++ rest, owner := some (thread, .resetReceived exitOnRepeat) }
  | resetReceived {p : Process} (thread : Nat) (exitOnRepeat : Bool)
      (owned : p.owner = some (thread, .resetReceived exitOnRepeat)) : SignalStep .advance p
        { p with received := 0, caught := [], owner := some (thread, .resetCount exitOnRepeat) }
  | resetCount {p : Process} (thread : Nat) (exitOnRepeat : Bool)
      (owned : p.owner = some (thread, .resetCount exitOnRepeat)) : SignalStep .advance p
        { p with count := 0, counted := [], owner := some (thread, .catching exitOnRepeat caughtSignals []) }
  -- a signal the parent ignored stays ignored
  | skip {p : Process} (thread : Nat) (exitOnRepeat : Bool) (signal : Nat) (left : List Nat) (previous : Outer)
      (owned : p.owner = some (thread, .catching exitOnRepeat (signal :: left) previous))
      (ignored : p.actions signal = .ignored) : SignalStep .advance p
        { p with owner := some (thread, .catching exitOnRepeat left previous) }
  | sigaction {p : Process} (thread : Nat) (exitOnRepeat : Bool) (signal : Nat) (left : List Nat) (previous : Outer)
      (owned : p.owner = some (thread, .catching exitOnRepeat (signal :: left) previous))
      (heeded : p.actions signal ≠ .ignored) : SignalStep .advance p
        { p with
          actions := Function.update p.actions signal .onSignal
          owner := some (thread, .catching exitOnRepeat left (previous ++ [(signal, p.actions signal)])) }
  | swap {p : Process} (thread : Nat) (exitOnRepeat : Bool) (previous : Outer)
      (owned : p.owner = some (thread, .catching exitOnRepeat [] previous)) : SignalStep .advance p
        { p with
          exitOnRepeat := exitOnRepeat
          owner := some (thread, .guarded [⟨some previous, p.exitOnRepeat, exitOnRepeat⟩]) }
  | nest {p : Process} (thread : Nat) (exitOnRepeat : Bool) (catches : List Catch)
      (owned : p.owner = some (thread, .guarded catches)) : SignalStep (.nest thread) p
        { p with
          exitOnRepeat := exitOnRepeat
          owner := some (thread, .guarded (⟨none, p.exitOnRepeat, exitOnRepeat⟩ :: catches)) }
  | dropInner {p : Process} (thread : Nat) (top : Catch) (rest : List Catch)
      (owned : p.owner = some (thread, .guarded (top :: rest))) (inner : top.outer = none) :
        SignalStep .drop p
          { p with exitOnRepeat := top.previousRepeat, owner := some (thread, .guarded rest) }
  | dropOuter {p : Process} (thread : Nat) (top : Catch) (rest : List Catch) (previous : Outer)
      (owned : p.owner = some (thread, .guarded (top :: rest))) (outer : top.outer = some previous) :
        SignalStep .drop p
          { p with
            exitOnRepeat := top.previousRepeat
            held := Function.update p.held thread false
            owner := some (thread, .clearing previous) }
  | clear {p : Process} (thread : Nat) (previous : Outer) (owned : p.owner = some (thread, .clearing previous)) :
      SignalStep .advance p { p with received := 0, caught := [], owner := some (thread, .restoring previous) }
  | restore {p : Process} (thread signal : Nat) (old : SigAction) (left : Outer)
      (owned : p.owner = some (thread, .restoring ((signal, old) :: left))) : SignalStep .advance p
        { p with actions := Function.update p.actions signal old, owner := some (thread, .restoring left) }
  | unlock {p : Process} (thread : Nat) (owned : p.owner = some (thread, .restoring [])) : SignalStep .advance p
      { p with owner := none }
  | deliver {p : Process} (signal : Nat) (heard : p.actions signal = .onSignal) : SignalStep (.deliver signal) p
      { p with handlers := p.handlers ++ [⟨signal, .begun⟩] }
  | record {p : Process} (signal : Nat) (front rest : List Handler)
      (runs : p.handlers = front ++ ⟨signal, .begun⟩ :: rest) : SignalStep .handle p
        { p with
          received := signal
          caught := p.caught ++ [signal]
          handlers := front ++ ⟨signal, .recorded⟩ :: rest }
  | countFirst {p : Process} (signal : Nat) (front rest : List Handler)
      (runs : p.handlers = front ++ ⟨signal, .recorded⟩ :: rest) (earlier : p.count = 0) :
        SignalStep (.returned signal) p
          { p with
            count := (p.count + 1) % 2 ^ 32
            counted := p.counted ++ [signal]
            handlers := front ++ rest }
  | countRepeat {p : Process} (signal : Nat) (front rest : List Handler)
      (runs : p.handlers = front ++ ⟨signal, .recorded⟩ :: rest) (earlier : p.count ≠ 0) :
        SignalStep .handle p
          { p with
            count := (p.count + 1) % 2 ^ 32
            counted := p.counted ++ [signal]
            handlers := front ++ ⟨signal, .repeated⟩ :: rest }
  | exit {p : Process} (signal : Nat) (front rest : List Handler)
      (runs : p.handlers = front ++ ⟨signal, .repeated⟩ :: rest) (ends : p.exitOnRepeat = true) :
        SignalStep (.exit signal) p { p with exited := some (exitSignalBase + signal) }
  | remain {p : Process} (signal : Nat) (front rest : List Handler)
      (runs : p.handlers = front ++ ⟨signal, .repeated⟩ :: rest) (stays : p.exitOnRepeat = false) :
        SignalStep (.returned signal) p { p with handlers := front ++ rest }

/-- No handler outlasts the guard it was caught under until the next is installed; after `_exit` nothing happens. -/
def settled (event : SignalEvent) (p _after : Process) : Prop :=
  p.exited = none ∧ ∀ thread, event = .lock thread → p.handlers = []

/-! ### The handlers -/

/-- `previous` is what was replaced by the handler: for each signal its action at the start. -/
structure Replaced (start actions : Nat → SigAction) (previous : Outer) : Prop where
  sound : ∀ entry ∈ previous, entry.2 = start entry.1 ∧ entry.1 ∈ caughtSignals ∧ start entry.1 ≠ .ignored
  distinct : (previous.map Prod.fst).Nodup
  now : ∀ signal, actions signal = if signal ∈ previous.map Prod.fst then .onSignal else start signal

/-- Of the signals to catch, those not in `left` have been seen to. -/
structure Catching (start actions : Nat → SigAction) (left : List Nat) (previous : Outer) : Prop extends
    Replaced start actions previous where
  apart : ∀ signal ∈ left, signal ∉ previous.map Prod.fst
  once : left.Nodup
  coming : ∀ signal ∈ left, signal ∈ caughtSignals
  complete : ∀ signal ∈ caughtSignals, start signal ≠ .ignored → signal ∈ previous.map Prod.fst ∨ signal ∈ left

variable {start actions : Nat → SigAction} {left : List Nat} {previous : Outer} {signal : Nat}

theorem Replaced.none : Replaced start start [] := by
  refine ⟨fun _ never => absurd never List.not_mem_nil, List.nodup_nil, fun signal => ?_⟩
  rw [List.map_nil, if_neg List.not_mem_nil]

theorem Replaced.actions_nil (replaced : Replaced start actions []) : actions = start := by
  funext signal
  rw [replaced.now, List.map_nil, if_neg List.not_mem_nil]

/-- Only the signals to catch reach the handler, and none that was ignored. -/
theorem Replaced.heard (replaced : Replaced start actions previous) (plain : start signal ≠ .onSignal)
    (heard : actions signal = .onSignal) : signal ∈ caughtSignals ∧ start signal ≠ .ignored := by
  by_cases mine : signal ∈ previous.map Prod.fst
  · obtain ⟨entry, member, rfl⟩ := List.mem_map.mp mine
    exact (replaced.sound entry member).2
  · rw [replaced.now, if_neg mine] at heard
    exact absurd heard plain

theorem Replaced.same (replaced : Replaced start actions previous) (aside : actions signal ≠ .onSignal) :
    actions signal = start signal := by
  have now := replaced.now signal
  split at now
  · exact absurd now aside
  · exact now

/-- Putting one action back. -/
theorem Replaced.restore {old : SigAction} (replaced : Replaced start actions ((signal, old) :: previous)) :
    Replaced start (Function.update actions signal old) previous := by
  have distinct := replaced.distinct
  rw [List.map_cons, List.nodup_cons] at distinct
  refine ⟨fun entry member => replaced.sound entry (List.mem_cons_of_mem _ member), distinct.2, fun other => ?_⟩
  by_cases same : other = signal
  · subst same
    rw [Function.update_self, if_neg distinct.1]
    exact (replaced.sound (other, old) List.mem_cons_self).1
  · have besides : other ∈ ((signal, old) :: previous).map Prod.fst ↔ other ∈ previous.map Prod.fst := by
      rw [List.map_cons, List.mem_cons, or_iff_right same]
    rw [Function.update_of_ne same, replaced.now]
    simp only [besides]

theorem Catching.begin : Catching start start caughtSignals [] := by
  refine ⟨Replaced.none, fun _ _ never => absurd never List.not_mem_nil, by decide, fun _ member => member, ?_⟩
  exact fun signal member _ => .inr member

theorem Catching.skip (catching : Catching start actions (signal :: left) previous)
    (ignored : start signal = .ignored) : Catching start actions left previous := by
  refine ⟨catching.toReplaced, fun other member => catching.apart other (List.mem_cons_of_mem _ member),
    (List.nodup_cons.mp catching.once).2, fun other member => catching.coming other (List.mem_cons_of_mem _ member), ?_⟩
  intro other member heeded
  rcases catching.complete other member heeded with done | coming
  · exact .inl done
  · rcases List.mem_cons.mp coming with same | later
    · exact absurd (same ▸ ignored) heeded
    · exact .inr later

theorem Catching.unseen (catching : Catching start actions (signal :: left) previous) :
    actions signal = start signal := by
  rw [catching.now, if_neg (catching.apart signal List.mem_cons_self)]

theorem Catching.sigaction (catching : Catching start actions (signal :: left) previous)
    (heeded : actions signal ≠ .ignored) :
    Catching start (Function.update actions signal .onSignal) left (previous ++ [(signal, actions signal)]) := by
  have unseen := catching.unseen
  have fresh := catching.apart signal List.mem_cons_self
  have once := List.nodup_cons.mp catching.once
  have names : (previous ++ [(signal, actions signal)]).map Prod.fst = previous.map Prod.fst ++ [signal] := by
    rw [List.map_append, List.map_singleton]
  refine ⟨⟨fun entry member => ?_, ?_, fun other => ?_⟩, fun other member => ?_, once.2,
    fun other member => catching.coming other (List.mem_cons_of_mem _ member), fun other member heard => ?_⟩
  · rcases List.mem_append.mp member with old | new
    · exact catching.sound entry old
    · obtain rfl := List.mem_singleton.mp new
      exact ⟨unseen, catching.coming signal List.mem_cons_self, unseen ▸ heeded⟩
  · rw [names]
    refine List.nodup_append.mpr ⟨catching.distinct, by simp, fun other member last single => ?_⟩
    rw [List.mem_singleton.mp single]
    exact fun same => fresh (same ▸ member)
  · rw [names]
    by_cases same : other = signal
    · subst same
      simp
    · have besides : other ∈ previous.map Prod.fst ++ [signal] ↔ other ∈ previous.map Prod.fst := by
        rw [List.mem_append, List.mem_singleton, or_iff_left same]
      rw [Function.update_of_ne same, catching.now]
      simp only [besides]
  · rw [names]
    have apart := catching.apart other (List.mem_cons_of_mem _ member)
    have different : other ≠ signal := fun same => once.1 (same ▸ member)
    simpa [different] using apart
  · rw [names, List.mem_append]
    rcases catching.complete other member heard with done | coming
    · exact .inl (.inl done)
    · rcases List.mem_cons.mp coming with same | later
      · exact .inl (.inr (List.mem_singleton.mpr same))
      · exact .inr later

/-- Under the guards every signal to catch is caught, but for the ignored ones. -/
theorem Catching.caught (catching : Catching start actions [] previous) (member : signal ∈ caughtSignals)
    (heeded : start signal ≠ .ignored) : actions signal = .onSignal := by
  rcases catching.complete signal member heeded with done | never
  · rw [catching.now, if_pos done]
  · exact absurd never List.not_mem_nil

/-! ### The guards -/

/-- Guards on one thread: each keeps the behaviour of the one it is in, the outermost also the handlers. -/
inductive Nest (start actions : Nat → SigAction) : Bool → List Catch → Prop
  | outermost {previous : Outer} {exitOnRepeat : Bool} (catching : Catching start actions [] previous) :
      Nest start actions exitOnRepeat [⟨some previous, false, exitOnRepeat⟩]
  | inner {previousRepeat exitOnRepeat : Bool} {rest : List Catch} (nest : Nest start actions previousRepeat rest) :
      Nest start actions exitOnRepeat (⟨none, previousRepeat, exitOnRepeat⟩ :: rest)

theorem Nest.catching {repeats : Bool} {catches : List Catch} (nest : Nest start actions repeats catches) :
    ∃ previous, Catching start actions [] previous := by
  induction nest with
  | outermost catching => exact ⟨_, catching⟩
  | inner nest ih => exact ih

theorem Nest.top {repeats : Bool} {catches : List Catch} (nest : Nest start actions repeats catches) :
    ∃ top rest, catches = top :: rest ∧ top.exitOnRepeat = repeats := by
  cases nest with
  | outermost catching => exact ⟨_, _, rfl, rfl⟩
  | inner nest => exact ⟨_, _, rfl, rfl⟩

def Handler.uncounted (handler : Handler) : Bool := handler.step == .recorded

/-- A signal that has been written to `received` is counted, or its handler is about to. -/
def Balanced (handlers : List Handler) (caught counted : List Nat) : Prop :=
  caught.length = counted.length + handlers.countP Handler.uncounted

namespace Stage

/-- What the process is like at each stage of its owner. -/
def Placed (start actions : Nat → SigAction) (repeats : Bool) (handlers : List Handler) (caught counted : List Nat) :
    Stage → Prop
  | resetReceived _ => repeats = false ∧ actions = start ∧ handlers = []
  | resetCount _ => repeats = false ∧ actions = start ∧ handlers = [] ∧ caught = []
  | catching _ left previous => repeats = false ∧ Catching start actions left previous ∧ Balanced handlers caught counted
  | guarded catches => Nest start actions repeats catches ∧ Balanced handlers caught counted
  | clearing previous => repeats = false ∧ Catching start actions [] previous
  | restoring left => repeats = false ∧ Replaced start actions left

/-- The owner has `HELD` set. -/
def holds : Stage → Bool
  | clearing _ => false
  | restoring _ => false
  | _ => true

variable {repeats : Bool} {handlers later : List Handler} {caught counted caught' counted' : List Nat} {stage : Stage}

theorem Placed.replaced (placed : stage.Placed start actions repeats handlers caught counted) :
    ∃ previous, Replaced start actions previous := by
  cases stage with
  | resetReceived _ => exact ⟨[], placed.2.1 ▸ Replaced.none⟩
  | resetCount _ => exact ⟨[], placed.2.1 ▸ Replaced.none⟩
  | catching _ left previous => exact ⟨previous, placed.2.1.toReplaced⟩
  | guarded catches =>
    obtain ⟨previous, catching⟩ := placed.1.catching
    exact ⟨previous, catching.toReplaced⟩
  | clearing previous => exact ⟨previous, placed.2.toReplaced⟩
  | restoring left => exact ⟨left, placed.2⟩

/-- Handlers run only past the resets, and there they keep the balance. -/
theorem Placed.handled (placed : stage.Placed start actions repeats handlers caught counted)
    (begun : actions = start → handlers ≠ [])
    (balance : Balanced handlers caught counted → Balanced later caught' counted') :
    stage.Placed start actions repeats later caught' counted' := by
  cases stage with
  | resetReceived _ => exact absurd placed.2.2 (begun placed.2.1)
  | resetCount _ => exact absurd placed.2.2.1 (begun placed.2.1)
  | catching _ _ _ => exact ⟨placed.1, placed.2.1, balance placed.2.2⟩
  | guarded _ => exact ⟨placed.1, balance placed.2⟩
  | clearing _ => exact placed
  | restoring _ => exact placed

end Stage

namespace Process

/-- What every step keeps. -/
structure Kept (start : Nat → SigAction) (p : Process) : Prop where
  unowned : p.owner = none → p.exitOnRepeat = false ∧ p.actions = start
  placed : ∀ thread stage, p.owner = some (thread, stage) → stage.Placed start p.actions p.exitOnRepeat
    p.handlers p.caught p.counted
  held : ∀ thread, p.held thread = true ↔ thread ∈ p.waiting.map Prod.fst ∨
    ∃ stage, p.owner = some (thread, stage) ∧ stage.holds = true
  queued : (p.waiting.map Prod.fst).Nodup
  aside : ∀ thread stage, p.owner = some (thread, stage) → thread ∉ p.waiting.map Prod.fst
  latest : p.received = p.caught.getLast?.getD 0
  real : ∀ signal ∈ p.caught, signal ∈ caughtSignals
  total : p.count = p.counted.length % 2 ^ 32
  handling : ∀ handler ∈ p.handlers, handler.signal ∈ caughtSignals
  repeating : ∀ handler ∈ p.handlers, handler.step = .repeated → handler.signal ∈ p.counted ∧ 2 ≤ p.counted.length
  exits : ∀ code, p.exited = some code → ∃ signal ∈ p.counted, code = exitSignalBase + signal ∧
    2 ≤ p.counted.length ∧ ∃ thread top rest, p.guards thread = top :: rest ∧ top.exitOnRepeat = true

variable {p : Process} {thread : Nat}

namespace Kept

theorem fresh (start : Nat → SigAction) : (Process.fresh start).Kept start := by
  refine ⟨fun _ => ⟨rfl, rfl⟩, fun _ _ owned => ?_, fun thread => ⟨fun held => ?_, fun holds => ?_⟩, List.nodup_nil,
    fun _ _ owned => ?_, rfl, fun _ never => ?_, rfl, fun _ never => ?_, fun _ never => ?_, fun _ ended => ?_⟩
  · cases owned
  · cases held
  · rcases holds with never | ⟨stage, owned, -⟩
    · exact absurd never List.not_mem_nil
    · cases owned
  · cases owned
  · exact absurd never List.not_mem_nil
  · exact absurd never List.not_mem_nil
  · exact absurd never List.not_mem_nil
  · cases ended

/-- The owner moves on from one stage to the next. -/
theorem advanced {stage : Stage} {actions : Nat → SigAction} {repeats : Bool} (kept : p.Kept start) (next : Stage)
    (live : p.exited = none) (owned : p.owner = some (thread, stage)) (holds : next.holds = stage.holds)
    (placed : next.Placed start actions repeats p.handlers p.caught p.counted) :
    Kept start { p with actions := actions, exitOnRepeat := repeats, owner := some (thread, next) } := by
  refine ⟨fun none => ?_, fun other stage' owned' => ?_, fun other => ?_, kept.queued, fun other stage' owned' => ?_,
    kept.latest, kept.real, kept.total, kept.handling, kept.repeating, fun code ended => ?_⟩
  · cases none
  · obtain ⟨rfl, rfl⟩ := Prod.mk.inj (Option.some.inj owned')
    exact placed
  · rw [kept.held other]
    apply or_congr_right
    constructor
    · rintro ⟨stage', owned', set⟩
      obtain ⟨rfl, rfl⟩ := Prod.mk.inj (Option.some.inj (owned.symm.trans owned'))
      exact ⟨next, rfl, holds.trans set⟩
    · rintro ⟨stage', owned', set⟩
      obtain ⟨rfl, rfl⟩ := Prod.mk.inj (Option.some.inj owned')
      exact ⟨stage, owned, holds.symm.trans set⟩
  · obtain ⟨rfl, rfl⟩ := Prod.mk.inj (Option.some.inj owned')
    exact kept.aside thread stage owned
  · exact absurd (live.symm.trans ended) (by simp)

/-- `RECEIVED` is reset. -/
theorem cleared (kept : p.Kept start) (placed : ∀ thread stage, p.owner = some (thread, stage) →
    stage.Placed start p.actions p.exitOnRepeat p.handlers [] p.counted) :
    Kept start { p with received := 0, caught := [] } :=
  ⟨kept.unowned, placed, kept.held, kept.queued, kept.aside, rfl, fun _ never => absurd never List.not_mem_nil,
    kept.total, kept.handling, kept.repeating, kept.exits⟩

/-- `COUNT` is reset, while no handler runs. -/
theorem recounted (kept : p.Kept start) (live : p.exited = none) (quiet : p.handlers = [])
    (placed : ∀ thread stage, p.owner = some (thread, stage) →
      stage.Placed start p.actions p.exitOnRepeat p.handlers p.caught []) :
    Kept start { p with count := 0, counted := [] } := by
  refine ⟨kept.unowned, placed, kept.held, kept.queued, kept.aside, kept.latest, kept.real, rfl, kept.handling,
    fun handler member => ?_, fun code ended => ?_⟩
  · rw [show handler ∈ p.handlers ↔ handler ∈ [] by rw [quiet]] at member
    exact absurd member List.not_mem_nil
  · exact absurd (live.symm.trans ended) (by simp)

theorem entered {exitOnRepeat : Bool} (kept : p.Kept start) (live : p.exited = none) (free : p.held thread = false)
    (elsewhere : ∀ stage, p.owner ≠ some (thread, stage)) : Kept start
      { p with held := Function.update p.held thread true, waiting := p.waiting ++ [(thread, exitOnRepeat)] } := by
  have names : (p.waiting ++ [(thread, exitOnRepeat)]).map Prod.fst = p.waiting.map Prod.fst ++ [thread] := by
    rw [List.map_append, List.map_singleton]
  have new : thread ∉ p.waiting.map Prod.fst := by
    intro member
    rw [(kept.held thread).mpr (.inl member)] at free
    cases free
  refine ⟨kept.unowned, kept.placed, fun other => ?_, ?_, fun other stage owned => ?_, kept.latest, kept.real,
    kept.total, kept.handling, kept.repeating, fun code ended => ?_⟩
  · simp only [names, List.mem_append, List.mem_singleton]
    by_cases same : other = thread
    · subst same
      simp
    · rw [Function.update_of_ne same, kept.held other, or_iff_left same]
  · rw [names]
    refine List.nodup_append.mpr ⟨kept.queued, by simp, fun other member single last => ?_⟩
    rw [List.mem_singleton.mp last]
    exact fun same => new (same ▸ member)
  · rw [names, List.mem_append, List.mem_singleton]
    rintro (member | rfl)
    · exact kept.aside other stage owned member
    · exact elsewhere stage owned
  · exact absurd (live.symm.trans ended) (by simp)

theorem locked {exitOnRepeat : Bool} {front rest : List (Nat × Bool)} (kept : p.Kept start) (live : p.exited = none)
    (quiet : p.handlers = []) (waits : p.waiting = front ++ (thread, exitOnRepeat) :: rest)
    (unowned : p.owner = none) : Kept start
      { p with waiting := front ++ rest, owner := some (thread, .resetReceived exitOnRepeat) } := by
  have names : p.waiting.map Prod.fst = front.map Prod.fst ++ thread :: rest.map Prod.fst := by
    rw [waits, List.map_append, List.map_cons]
  have once := kept.queued
  rw [names] at once
  have split := List.nodup_middle.mp once
  rw [List.nodup_cons, ← List.map_append] at split
  refine ⟨fun none => ?_, fun other stage owned => ?_, fun other => ?_, split.2, fun other stage owned => ?_,
    kept.latest, kept.real, kept.total, kept.handling, kept.repeating, fun code ended => ?_⟩
  · cases none
  · obtain ⟨rfl, rfl⟩ := Prod.mk.inj (Option.some.inj owned)
    exact ⟨(kept.unowned unowned).1, (kept.unowned unowned).2, quiet⟩
  · rw [kept.held other, names, List.map_append]
    constructor
    · rintro (member | ⟨stage, owned, -⟩)
      · rcases List.mem_append.mp member with before | behind
        · exact .inl (List.mem_append_left _ before)
        · rcases List.mem_cons.mp behind with same | later
          · exact .inr ⟨_, by rw [same], rfl⟩
          · exact .inl (List.mem_append_right _ later)
      · cases unowned.symm.trans owned
    · rintro (member | ⟨stage, owned, -⟩)
      · rcases List.mem_append.mp member with before | behind
        · exact .inl (List.mem_append_left _ before)
        · exact .inl (List.mem_append_right _ (List.mem_cons_of_mem _ behind))
      · obtain ⟨rfl, rfl⟩ := Prod.mk.inj (Option.some.inj owned)
        exact .inl (List.mem_append_right _ List.mem_cons_self)
  · obtain ⟨rfl, rfl⟩ := Prod.mk.inj (Option.some.inj owned)
    exact split.1
  · exact absurd (live.symm.trans ended) (by simp)

/-- The outermost guard is dropped. -/
theorem dropped {top : Catch} {rest : List Catch} {previous : Outer} (kept : p.Kept start) (live : p.exited = none)
    (owned : p.owner = some (thread, .guarded (top :: rest))) (outer : top.outer = some previous) : Kept start
      { p with
        exitOnRepeat := top.previousRepeat
        held := Function.update p.held thread false
        owner := some (thread, .clearing previous) } := by
  have placed := kept.placed thread _ owned
  have cleared : top.previousRepeat = false ∧ Catching start p.actions [] previous := by
    cases placed.1 with
    | outermost catching =>
      obtain rfl := Option.some.inj outer
      exact ⟨rfl, catching⟩
    | inner nest => cases outer
  refine ⟨fun none => ?_, fun other stage owned' => ?_, fun other => ?_, kept.queued, fun other stage owned' => ?_,
    kept.latest, kept.real, kept.total, kept.handling, kept.repeating, fun code ended => ?_⟩
  · cases none
  · obtain ⟨rfl, rfl⟩ := Prod.mk.inj (Option.some.inj owned')
    exact cleared
  · by_cases same : other = thread
    · subst same
      change Function.update p.held other false other = true ↔ _
      rw [Function.update_self]
      refine ⟨fun never => (by cases never), ?_⟩
      rintro (member | ⟨stage, owned', set⟩)
      · exact absurd member (kept.aside other _ owned)
      · obtain ⟨-, rfl⟩ := Prod.mk.inj (Option.some.inj owned')
        cases set
    · change Function.update p.held thread false other = true ↔ _
      rw [Function.update_of_ne same, kept.held other]
      apply or_congr_right
      constructor
      · rintro ⟨stage, owned', -⟩
        exact absurd (Prod.mk.inj (Option.some.inj (owned.symm.trans owned'))).1.symm same
      · rintro ⟨stage, owned', -⟩
        exact absurd (Prod.mk.inj (Option.some.inj owned')).1.symm same
  · obtain ⟨rfl, rfl⟩ := Prod.mk.inj (Option.some.inj owned')
    exact kept.aside thread _ owned
  · exact absurd (live.symm.trans ended) (by simp)

theorem unlocked (kept : p.Kept start) (live : p.exited = none) (owned : p.owner = some (thread, .restoring [])) :
    Kept start { p with owner := none } := by
  have placed := kept.placed thread _ owned
  refine ⟨fun _ => ⟨placed.1, placed.2.actions_nil⟩, fun _ _ never => ?_, fun other => ?_, kept.queued,
    fun _ _ never => ?_, kept.latest, kept.real, kept.total, kept.handling, kept.repeating, fun code ended => ?_⟩
  · cases never
  · rw [kept.held other]
    apply or_congr_right
    constructor
    · rintro ⟨stage, owned', set⟩
      obtain ⟨-, rfl⟩ := Prod.mk.inj (Option.some.inj (owned.symm.trans owned'))
      cases set
    · rintro ⟨stage, never, -⟩
      cases never
  · cases never
  · exact absurd (live.symm.trans ended) (by simp)

/-- The handlers move on, and what they write stays what `received` and `count` say. -/
theorem handled {received count : Nat} {caught counted : List Nat} {handlers : List Handler} (kept : p.Kept start)
    (live : p.exited = none) (begun : p.actions = start → p.handlers ≠ [])
    (balance : Balanced p.handlers p.caught p.counted → Balanced handlers caught counted)
    (latest : received = caught.getLast?.getD 0) (real : ∀ signal ∈ caught, signal ∈ caughtSignals)
    (total : count = counted.length % 2 ^ 32) (more : ∃ new, counted = p.counted ++ new)
    (running : ∀ handler ∈ handlers, handler ∈ p.handlers ∨ (handler.signal ∈ caughtSignals ∧
      (handler.step = .repeated → handler.signal ∈ counted ∧ 2 ≤ counted.length))) :
    Kept start { p with received, count, caught, counted, handlers } := by
  refine ⟨kept.unowned, fun thread stage owned => (kept.placed thread stage owned).handled begun balance, kept.held,
    kept.queued, kept.aside, latest, real, total, fun handler member => ?_, fun handler member again => ?_,
    fun code ended => ?_⟩
  · rcases running handler member with old | new
    · exact kept.handling handler old
    · exact new.1
  · rcases running handler member with old | new
    · obtain ⟨mine, two⟩ := kept.repeating handler old again
      obtain ⟨new, rfl⟩ := more
      have longer : p.counted.length ≤ (p.counted ++ new).length := by
        rw [List.length_append]
        exact Nat.le_add_right _ _
      exact ⟨List.mem_append_left _ mine, Nat.le_trans two longer⟩
    · exact new.2 again
  · exact absurd (live.symm.trans ended) (by simp)

/-- A signal is delivered: the handlers are installed, so their owner is past its resets. -/
theorem delivered {signal : Nat} (plain : ∀ signal, start signal ≠ .onSignal) (kept : p.Kept start)
    (live : p.exited = none) (heard : p.actions signal = .onSignal) :
    Kept start { p with handlers := p.handlers ++ [⟨signal, .begun⟩] } := by
  have hears : p.actions ≠ start := fun same => plain signal (same ▸ heard)
  have mine : signal ∈ caughtSignals := by
    cases owned : p.owner with
    | none => exact absurd (kept.unowned owned).2 hears
    | some place =>
      obtain ⟨previous, replaced⟩ := (kept.placed place.1 place.2 owned).replaced
      exact (replaced.heard (plain signal) heard).1
  apply kept.handled live (fun same => absurd same hears) _ kept.latest kept.real kept.total ⟨[], by simp⟩
  · intro handler member
    rcases List.mem_append.mp member with old | new
    · exact .inl old
    · obtain rfl := List.mem_singleton.mp new
      exact .inr ⟨mine, fun never => (by cases never)⟩
  · intro balance
    unfold Balanced at balance ⊢
    rw [balance, List.countP_append]
    rfl

/-- One handler moves on, or is done. -/
theorem ran {received count : Nat} {caught counted : List Nat} {front rest new : List Handler} {old : Handler}
    (kept : p.Kept start) (live : p.exited = none) (runs : p.handlers = front ++ old :: rest)
    (balance : caught.length + p.counted.length + [old].countP Handler.uncounted =
      p.caught.length + counted.length + new.countP Handler.uncounted)
    (latest : received = caught.getLast?.getD 0) (real : ∀ signal ∈ caught, signal ∈ caughtSignals)
    (total : count = counted.length % 2 ^ 32) (more : ∃ new, counted = p.counted ++ new)
    (running : ∀ handler ∈ new, handler.signal ∈ caughtSignals ∧
      (handler.step = .repeated → handler.signal ∈ counted ∧ 2 ≤ counted.length)) :
    Kept start { p with received, count, caught, counted, handlers := front ++ new ++ rest } := by
  apply kept.handled live (fun _ => by simp [runs]) _ latest real total more
  · intro handler member
    rw [runs]
    rcases List.mem_append.mp member with before | behind
    · rcases List.mem_append.mp before with first | mine
      · exact .inl (List.mem_append_left _ first)
      · exact .inr (running handler mine)
    · exact .inl (List.mem_append_right _ (List.mem_cons_of_mem _ behind))
  · intro balanced
    have split : old :: rest = [old] ++ rest := rfl
    unfold Balanced at balanced ⊢
    rw [runs, split] at balanced
    simp only [List.countP_append] at balanced ⊢
    omega

/-- Only under a guard does a handler end the process. -/
theorem exited {signal : Nat} {front rest : List Handler} (kept : p.Kept start)
    (runs : p.handlers = front ++ ⟨signal, .repeated⟩ :: rest) (ends : p.exitOnRepeat = true) :
    Kept start { p with exited := some (exitSignalBase + signal) } := by
  have repeated := kept.repeating ⟨signal, .repeated⟩ (by simp [runs]) rfl
  have inside : ∃ thread top rest, p.guards thread = top :: rest ∧ top.exitOnRepeat = true := by
    cases owned : p.owner with
    | none => exact absurd (ends.symm.trans (kept.unowned owned).1) (by simp)
    | some place =>
      obtain ⟨thread, stage⟩ := place
      have placed := kept.placed thread stage owned
      rw [ends] at placed
      cases stage with
      | resetReceived _ => cases placed.1
      | resetCount _ => cases placed.1
      | catching _ _ _ => cases placed.1
      | guarded catches =>
        obtain ⟨top, rest, rfl, same⟩ := placed.1.top
        exact ⟨thread, top, rest, by simp [Process.guards, owned], same⟩
      | clearing _ => cases placed.1
      | restoring _ => cases placed.1
  refine ⟨kept.unowned, kept.placed, kept.held, kept.queued, kept.aside, kept.latest, kept.real, kept.total,
    kept.handling, kept.repeating, fun code ended => ?_⟩
  obtain rfl := Option.some.inj ended
  exact ⟨signal, repeated.1, rfl, repeated.2, inside⟩

theorem counting {signal : Nat} (kept : p.Kept start) :
    (p.count + 1) % 2 ^ 32 = (p.counted ++ [signal]).length % 2 ^ 32 := by
  rw [kept.total, List.length_append, List.length_singleton]
  omega

/-- A handler that has recorded its signal is about to count it. -/
theorem records {signal : Nat} {caught counted : List Nat} :
    (caught ++ [signal]).length + counted.length + [(⟨signal, .begun⟩ : Handler)].countP Handler.uncounted =
      caught.length + counted.length + [(⟨signal, .recorded⟩ : Handler)].countP Handler.uncounted := by
  have none : [(⟨signal, .begun⟩ : Handler)].countP Handler.uncounted = 0 := rfl
  have one : [(⟨signal, .recorded⟩ : Handler)].countP Handler.uncounted = 1 := rfl
  rw [none, one, List.length_append, List.length_singleton]
  omega

/-- Once a handler has counted its signal it is no longer about to. -/
theorem counts {signal : Nat} {new : List Handler} {caught counted : List Nat}
    (done : new.countP Handler.uncounted = 0) :
    caught.length + counted.length + [(⟨signal, .recorded⟩ : Handler)].countP Handler.uncounted =
      caught.length + (counted ++ [signal]).length + new.countP Handler.uncounted := by
  have one : [(⟨signal, .recorded⟩ : Handler)].countP Handler.uncounted = 1 := rfl
  rw [one, done, List.length_append, List.length_singleton]
  omega

theorem next {event : SignalEvent} {after : Process} (plain : ∀ signal, start signal ≠ .onSignal) (kept : p.Kept start)
    (settled : settled event p after) (step : SignalStep event p after) : after.Kept start := by
  obtain ⟨live, quiet⟩ := settled
  cases step with
  | enter thread exitOnRepeat free elsewhere => exact kept.entered live free elsewhere
  | lock thread exitOnRepeat front rest waits unowned => exact kept.locked live (quiet thread rfl) waits unowned
  | resetReceived thread exitOnRepeat owned =>
    have placed := kept.placed _ _ owned
    have reset : Kept start { p with received := 0, caught := [] } := by
      apply kept.cleared
      intro other stage owned'
      obtain ⟨rfl, rfl⟩ := Prod.mk.inj (Option.some.inj (owned.symm.trans owned'))
      exact placed
    exact reset.advanced (.resetCount exitOnRepeat) live owned rfl ⟨placed.1, placed.2.1, placed.2.2, rfl⟩
  | resetCount thread exitOnRepeat owned =>
    obtain ⟨alone, same, idle, none⟩ := kept.placed _ _ owned
    have reset : Kept start { p with count := 0, counted := [] } := by
      apply kept.recounted live idle
      intro other stage owned'
      obtain ⟨rfl, rfl⟩ := Prod.mk.inj (Option.some.inj (owned.symm.trans owned'))
      exact ⟨alone, same, idle, none⟩
    have begun : Catching start p.actions caughtSignals [] := by
      rw [same]
      exact Catching.begin
    have balance : Balanced p.handlers p.caught [] := by
      rw [idle, none]
      rfl
    exact reset.advanced (.catching exitOnRepeat caughtSignals []) live owned rfl ⟨alone, begun, balance⟩
  | skip thread exitOnRepeat signal left previous owned ignored =>
    obtain ⟨alone, catching, balance⟩ := kept.placed _ _ owned
    have skipped := catching.skip (catching.unseen ▸ ignored)
    exact kept.advanced (.catching exitOnRepeat left previous) live owned rfl ⟨alone, skipped, balance⟩
  | sigaction thread exitOnRepeat signal left previous owned heeded =>
    obtain ⟨alone, catching, balance⟩ := kept.placed _ _ owned
    exact kept.advanced (.catching exitOnRepeat left _) live owned rfl ⟨alone, catching.sigaction heeded, balance⟩
  | swap thread exitOnRepeat previous owned =>
    obtain ⟨alone, catching, balance⟩ := kept.placed _ _ owned
    have nest : Nest start p.actions exitOnRepeat [⟨some previous, p.exitOnRepeat, exitOnRepeat⟩] := by
      rw [alone]
      exact .outermost catching
    exact kept.advanced (.guarded _) live owned rfl ⟨nest, balance⟩
  | nest thread exitOnRepeat catches owned =>
    obtain ⟨nest, balance⟩ := kept.placed _ _ owned
    exact kept.advanced (.guarded _) live owned rfl ⟨nest.inner, balance⟩
  | dropInner thread top rest owned inner =>
    obtain ⟨placed, balance⟩ := kept.placed _ _ owned
    have nest : Nest start p.actions top.previousRepeat rest := by
      cases placed with
      | outermost catching => cases inner
      | inner nest => exact nest
    exact kept.advanced (.guarded rest) live owned rfl ⟨nest, balance⟩
  | dropOuter thread top rest previous owned outer => exact kept.dropped live owned outer
  | clear thread previous owned =>
    obtain ⟨alone, catching⟩ := kept.placed _ _ owned
    have reset : Kept start { p with received := 0, caught := [] } := by
      apply kept.cleared
      intro other stage owned'
      obtain ⟨rfl, rfl⟩ := Prod.mk.inj (Option.some.inj (owned.symm.trans owned'))
      exact ⟨alone, catching⟩
    exact reset.advanced (.restoring previous) live owned rfl ⟨alone, catching.toReplaced⟩
  | restore thread signal old left owned =>
    obtain ⟨alone, replaced⟩ := kept.placed _ _ owned
    exact kept.advanced (.restoring left) live owned rfl ⟨alone, replaced.restore⟩
  | unlock thread owned => exact kept.unlocked live owned
  | deliver signal heard => exact kept.delivered plain live heard
  | record signal front rest runs =>
    have mine : signal ∈ caughtSignals := kept.handling ⟨signal, .begun⟩ (by simp [runs])
    have moved := @ran _ _ signal p.count (p.caught ++ [signal]) p.counted front rest [⟨signal, .recorded⟩] _ kept live
      runs records (by simp) (List.forall_mem_append.mpr ⟨kept.real, by simpa using mine⟩) kept.total ⟨[], by simp⟩
      (by simpa using mine)
    rwa [List.append_assoc] at moved
  | countFirst signal front rest runs earlier =>
    have moved := @ran _ _ p.received _ p.caught (p.counted ++ [signal]) front rest [] _ kept live runs
      (counts (by simp)) kept.latest kept.real kept.counting ⟨[signal], rfl⟩ (by simp)
    rwa [List.append_nil] at moved
  | countRepeat signal front rest runs earlier =>
    have mine : signal ∈ caughtSignals := kept.handling ⟨signal, .recorded⟩ (by simp [runs])
    have two : 2 ≤ (p.counted ++ [signal]).length := by
      rw [kept.total] at earlier
      rw [List.length_append, List.length_singleton]
      omega
    have moved := @ran _ _ p.received _ p.caught (p.counted ++ [signal]) front rest [⟨signal, .repeated⟩] _ kept live runs
      (counts (by simp [Handler.uncounted])) kept.latest kept.real kept.counting ⟨[signal], rfl⟩
      (by simpa using ⟨mine, by simpa using two⟩)
    rwa [List.append_assoc] at moved
  | exit signal front rest runs ends => exact kept.exited runs ends
  | remain signal front rest runs stays =>
    have moved := @ran _ _ p.received p.count p.caught p.counted front rest [] _ kept live runs (by simp [Handler.uncounted])
      kept.latest kept.real kept.total ⟨[], by simp⟩ (by simp)
    rwa [List.append_nil] at moved

end Kept

/-- A thread with guards is past their installation, and the last to have taken the handlers. -/
theorem guarded_of_guards {top : Catch} {rest : List Catch} (guards : p.guards thread = top :: rest) :
    p.owner = some (thread, .guarded (top :: rest)) := by
  unfold Process.guards at guards
  split at guards
  next owner catches owned =>
    split at guards
    next same => rw [owned, same, guards]
    next => cases guards
  next => cases guards

theorem Kept.pending_of_held (kept : p.Kept start) (held : p.held thread = true) :
    p.pending thread = p.caught.getLast? := by
  unfold pending
  rw [if_pos held, kept.latest]
  cases last : p.caught.getLast? with
  | none => rfl
  | some signal =>
    have member := kept.real signal (List.mem_of_getLast? last)
    have positive : signal ≠ 0 := by
      rintro rfl
      exact absurd member (by decide)
    exact if_neg positive

/-- A thread that neither has a guard nor installs one sees no signal. -/
theorem Kept.pending_of_unguarded (kept : p.Kept start) (unguarded : p.guards thread = [])
    (idle : p.installing thread = false) : p.pending thread = none := by
  have free : ¬p.held thread = true := by
    rw [kept.held thread]
    unfold installing at idle
    rw [Bool.or_eq_false_iff] at idle
    rintro (waits | ⟨stage, owned, set⟩)
    · obtain ⟨waiter, member, rfl⟩ := List.mem_map.mp waits
      have never := List.any_eq_false.mp idle.1 waiter member
      exact never (beq_self_eq_true waiter.1)
    · have placed := kept.placed thread stage owned
      have inside := idle.2
      unfold guards at unguarded
      rw [owned] at inside unguarded
      cases stage with
      | resetReceived _ => simp at inside
      | resetCount _ => simp at inside
      | catching _ _ _ => simp at inside
      | guarded catches =>
        obtain ⟨top, rest, rfl, -⟩ := placed.1.top
        simp at unguarded
      | clearing _ => cases set
      | restoring _ => cases set
  exact if_neg free

end Process

/-- Without a guard every signal does what it did before the first; under one, exactly the signals that were not ignored are
caught, and the innermost guard's thread sees the last one caught since its outermost guard was installed, none before
and none lost. A handler ends the process only from the second signal on and under a guard that exits on repeat, and then
always. -/
theorem guards_exact {start : Nat → SigAction} {p : Process} (plain : ∀ signal, start signal ≠ .onSignal)
    (run : Reaches SignalStep settled (Process.fresh start) p) :
    (p.owner = none → p.actions = start) ∧
    (∀ signal, p.actions signal ≠ start signal → p.actions signal = .onSignal ∧ signal ∈ caughtSignals ∧
      start signal ≠ .ignored) ∧
    (∀ thread, p.guards thread ≠ [] →
      (∀ signal ∈ caughtSignals, start signal ≠ .ignored → p.actions signal = .onSignal) ∧
      p.pending thread = p.caught.getLast? ∧ (p.handlers = [] → p.count = p.caught.length % 2 ^ 32)) ∧
    (∀ thread, p.guards thread = [] → p.installing thread = false → p.pending thread = none) ∧
    (∀ code, p.exited = some code → ∃ signal ∈ p.counted, code = exitSignalBase + signal ∧ 2 ≤ p.counted.length ∧
      ∃ thread top rest, p.guards thread = top :: rest ∧ top.exitOnRepeat = true) ∧
    ∀ thread top rest signal after, p.guards thread = top :: rest → top.exitOnRepeat = true →
      SignalStep (.returned signal) p after → p.counted.length % 2 ^ 32 = 0 := by
  have kept : p.Kept start := by
    apply run.invariant (Process.Kept.fresh start)
    intro event p after kept settled step
    exact kept.next plain settled step
  refine ⟨fun unowned => (kept.unowned unowned).2, fun signal differs => ?_, fun thread guarded => ?_,
    fun thread unguarded idle => kept.pending_of_unguarded unguarded idle, kept.exits, ?_⟩
  · cases owned : p.owner with
    | none => exact absurd (congrFun (kept.unowned owned).2 signal) differs
    | some place =>
      obtain ⟨previous, replaced⟩ := (kept.placed place.1 place.2 owned).replaced
      by_cases heard : p.actions signal = .onSignal
      · exact ⟨heard, replaced.heard (plain signal) heard⟩
      · exact absurd (replaced.same heard) differs
  · obtain ⟨top, rest, guards⟩ := List.exists_cons_of_ne_nil guarded
    have owned := Process.guarded_of_guards guards
    obtain ⟨nest, balance⟩ := kept.placed thread _ owned
    obtain ⟨previous, catching⟩ := nest.catching
    have held := (kept.held thread).mpr (.inr ⟨_, owned, rfl⟩)
    refine ⟨fun signal member heeded => catching.caught member heeded, kept.pending_of_held held, fun idle => ?_⟩
    unfold Balanced at balance
    rw [kept.total, balance, idle]
    rfl
  · intro thread top rest signal after guards exits step
    have owned := Process.guarded_of_guards guards
    obtain ⟨nest, -⟩ := kept.placed thread _ owned
    obtain ⟨top', rest', same, repeats⟩ := nest.top
    obtain ⟨rfl, rfl⟩ := List.cons.inj same
    cases step with
    | countFirst _ front rest runs earlier => exact kept.total.symm.trans earlier
    | remain _ front rest runs stays => exact absurd (exits.symm.trans (repeats.trans stays)) (by simp)

/-- A process in the background of a shell that keeps SIGHUP from it. -/
def nohup : Nat → SigAction := fun signal => if signal = sigHup then .ignored else .other 0

theorem nohup_plain (signal : Nat) : nohup signal ≠ .onSignal := by
  unfold nohup
  split <;> simp

/-- Such a process under one guard that exits on repeat. -/
def underGuard : Process where
  actions := Function.update (Function.update nohup sigInt .onSignal) sigTerm .onSignal
  received := 0
  count := 0
  exitOnRepeat := true
  held := Function.update (fun _ => false) 1 true
  waiting := []
  owner := some (1, .guarded [⟨some [(sigInt, .other 0), (sigTerm, .other 0)], false, true⟩])
  handlers := []
  exited := none
  caught := []
  counted := []

theorem settled_idle {event : SignalEvent} {p after : Process} (live : p.exited = none) (idle : p.handlers = []) :
    settled event p after := ⟨live, fun _ _ => idle⟩

theorem settled_other {event : SignalEvent} {p after : Process} (live : p.exited = none)
    (other : ∀ thread, event ≠ .lock thread) : settled event p after := ⟨live, fun thread same => absurd same (other thread)⟩

theorem reaches_underGuard : Reaches SignalStep settled (Process.fresh nohup) underGuard := by
  have entered := Reaches.refl.next (settled_idle rfl rfl)
    (@SignalStep.enter (Process.fresh nohup) 1 true rfl fun _ never => by cases never)
  have locked := entered.next (settled_idle rfl rfl) (.lock 1 true [] [] rfl rfl)
  have reset := (locked.next (settled_idle rfl rfl) (.resetReceived 1 true rfl)).next (settled_idle rfl rfl)
    (.resetCount 1 true rfl)
  have interrupted := reset.next (settled_idle rfl rfl) (.sigaction 1 true sigInt _ _ rfl (by decide))
  have terminated := interrupted.next (settled_idle rfl rfl) (.sigaction 1 true sigTerm _ _ rfl (by decide))
  have hung := terminated.next (settled_idle rfl rfl) (.skip 1 true sigHup _ _ rfl (by decide))
  exact hung.next (settled_idle rfl rfl) (.swap 1 true _ rfl)

/-- Two signals under the guard: the second ends the process. -/
theorem second_signal_exits : ∃ p : Process, p.exited = some 143 ∧ p.pending 1 = some sigTerm ∧
    ∃ signal ∈ p.counted, 143 = exitSignalBase + signal ∧ 2 ≤ p.counted.length ∧
      ∃ thread top rest, p.guards thread = top :: rest ∧ top.exitOnRepeat = true := by
  have first := ((reaches_underGuard.next (settled_idle rfl rfl) (.deliver sigInt (by decide))).next
    (settled_other rfl (by simp)) (.record sigInt [] [] rfl)).next (settled_other rfl (by simp))
      (.countFirst sigInt [] [] rfl rfl)
  have second := ((first.next (settled_idle rfl rfl) (.deliver sigTerm (by decide))).next
    (settled_other rfl (by simp)) (.record sigTerm [] [] rfl)).next (settled_other rfl (by simp))
      (.countRepeat sigTerm [] [] rfl (by decide))
  have ended := second.next (settled_other rfl (by simp)) (.exit sigTerm [] [] rfl rfl)
  have exact_run := guards_exact nohup_plain ended
  refine ⟨_, rfl, ?_, exact_run.2.2.2.2.1 143 rfl⟩
  exact (exact_run.2.2.1 1 (by decide)).2.1

/-- Where a handler outlasts its guard it counts for the next: the first signal under that one ends the process. -/
theorem stale_count : ∃ p : Process, Reaches SignalStep always (Process.fresh nohup) p ∧ p.exited = some 143 ∧
    p.caught = [sigTerm] := by
  have before : Reaches SignalStep always (Process.fresh nohup) underGuard :=
    reaches_underGuard.mono fun _ _ _ _ _ => trivial
  have stale := (before.next (l := .deliver sigInt) trivial (.deliver sigInt (by decide))).next (l := .handle) trivial
    (.record sigInt [] [] rfl)
  have dropped := (stale.next (l := .drop) trivial (.dropOuter 1 _ [] _ rfl rfl)).next (l := .advance) trivial
    (.clear 1 _ rfl)
  have restored := ((dropped.next (l := .advance) trivial (.restore 1 _ _ _ rfl)).next (l := .advance) trivial
    (.restore 1 _ _ _ rfl)).next (l := .advance) trivial (.unlock 1 rfl)
  have entered := restored.next (l := .enter 1) trivial (.enter 1 true rfl (by simp))
  have locked := entered.next (l := .lock 1) trivial (.lock 1 true [] [] rfl rfl)
  have reset := (locked.next (l := .advance) trivial (.resetReceived 1 true rfl)).next (l := .advance) trivial
    (.resetCount 1 true rfl)
  have counted := reset.next (l := .returned sigInt) trivial (.countFirst sigInt [] [] rfl rfl)
  have interrupted := counted.next (l := .advance) trivial (.sigaction 1 true sigInt _ _ rfl (by decide))
  have terminated := interrupted.next (l := .advance) trivial (.sigaction 1 true sigTerm _ _ rfl (by decide))
  have hung := terminated.next (l := .advance) trivial (.skip 1 true sigHup _ _ rfl (by decide))
  have guarded := hung.next (l := .advance) trivial (.swap 1 true _ rfl)
  have again := ((guarded.next (l := .deliver sigTerm) trivial (.deliver sigTerm (by decide))).next (l := .handle) trivial
    (.record sigTerm [] [] rfl)).next (l := .handle) trivial (.countRepeat sigTerm [] [] rfl (by decide))
  exact ⟨_, again.next (l := .exit sigTerm) trivial (.exit sigTerm [] [] rfl rfl), rfl, rfl⟩

end Rqmd.Signals
