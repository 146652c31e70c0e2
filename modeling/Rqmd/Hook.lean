import Rqmd.Signals

/-! A collection's update hook under its timeout. Signals arrive, the hook and what it started come and go, and time
passes, between any two looks that the runner takes. -/

namespace Rqmd.Hook
open Transition Signals

/-- Times are in milliseconds. -/
structure HookConfig where
  timeout : Nat
  ownProcessGroup : Bool

def pollInterval : Nat := 50
def forwardGrace : Nat := 5000
def sigKill : Nat := 9

inductive ExitStatus where
  | code (number : Nat)
  | signal (number : Nat)
deriving DecidableEq

def ExitStatus.success : ExitStatus → Bool
  | .code number => number == 0
  | .signal _ => false

inductive HookOutcome where
  | succeeded
  | failed (reason : String)
  | timedOut (limit : Nat)
  | interrupted (signal : Nat)
deriving DecidableEq

/-- The hook's own process. Its pid is no other's until it has been waited for. -/
inductive Child where
  | unborn
  | running
  | exited (status : ExitStatus)
  | reaped (status : ExitStatus)
deriving DecidableEq

def Child.unreaped : Child → Bool
  | .running => true
  | .exited _ => true
  | _ => false

/-- SIGKILL cannot be caught. -/
def Child.killed : Child → Child
  | .running => .exited (.signal sigKill)
  | other => other

/-- A call of `kill`: of the group that the hook leads or of the hook, when, and whether its pid was still its own. -/
structure KillCall where
  whole : Bool
  signal : Nat
  time : Nat
  unreaped : Bool
deriving DecidableEq

/-- What the runner does next. -/
inductive Stage where
  | spawning
  | looking (deadline : Nat)
  | trying (deadline : Nat)
  | timing (deadline : Nat)
  | sleeping (deadline wake : Nat)
  | forwarding (signal : Nat)
  | graceLooking (signal deadline : Nat)
  | graceTrying (signal deadline : Nat)
  | graceSleeping (signal deadline wake : Nat)
  | killing (outcome : HookOutcome)
  | killingChild (outcome : HookOutcome)
  | waiting (outcome : HookOutcome)
  | returned (outcome : HookOutcome)
deriving DecidableEq

/-- `others` are the live processes that the hook started, `received` the signals caught since the outermost guard was
installed, and `due` is when the runner last asked to be woken. -/
structure Run where
  now : Nat
  due : Nat
  child : Child
  others : Nat
  received : List Nat
  calls : List KillCall
  waitFailed : Bool
  stage : Stage
deriving DecidableEq

inductive HookEvent where
  | elapse (time : Nat)
  | receive (signal : Nat)
  | fork
  | exit
  | look
deriving DecidableEq

namespace Run

def fresh (start : Nat) (received : List Nat) : Run := ⟨start, start, .unborn, 0, received, [], false, .spawning⟩

def pending (run : Run) : Option Nat := run.received.getLast?

def count (run : Run) : Nat := run.received.length

def outcome (run : Run) : Option HookOutcome :=
  match run.stage with
  | .returned outcome => some outcome
  | _ => none

def goto (run : Run) (stage : Stage) : Run := { run with stage := stage }

def sleep (run : Run) (wake : Nat) (stage : Stage) : Run := { run with due := wake, stage := stage }

/-- `kill(2)`. -/
def call (run : Run) (whole : Bool) (signal : Nat) : Run :=
  { run with
    calls := run.calls ++ [⟨whole, signal, run.now, run.child.unreaped⟩]
    child := if signal = sigKill then run.child.killed else run.child
    others := if whole ∧ signal = sigKill then 0 else run.others }

/-- A hook in the group of the terminal has had its Ctrl-C. -/
def forward (run : Run) (config : HookConfig) (signal : Nat) : Run :=
  if config.ownProcessGroup then run.call true signal
  else if signal ≠ sigInt then run.call false signal
  else run

/-- The first half of `kill`. -/
def killGroup (run : Run) (config : HookConfig) : Run := if config.ownProcessGroup then run.call true sigKill else run

/-- `Child::kill` of the standard library, which leaves a process alone that has been waited for. -/
def killChild (run : Run) : Run := if run.child.unreaped then run.call false sigKill else run

def reap (run : Run) (status : ExitStatus) (outcome : HookOutcome) : Run :=
  { run with child := .reaped status, stage := .returned outcome }

end Run

/-- The steps of `run_hook`, `stop_after_grace`, `forward` and `kill`, and what happens around them. -/
inductive HookStep (config : HookConfig) (display : ExitStatus → String) : HookEvent → Run → Run → Prop
  | elapse {run : Run} (time : Nat) : HookStep config display (.elapse time) run { run with now := run.now + time }
  | receive {run : Run} (signal : Nat) :
    HookStep config display (.receive signal) run { run with received := run.received ++ [signal] }
  | fork {run : Run} (alive : run.child = .running ∨ 0 < run.others) :
    HookStep config display .fork run { run with others := run.others + 1 }
  | childExits {run : Run} (status : ExitStatus) (running : run.child = .running) :
    HookStep config display .exit run { run with child := .exited status }
  | otherExits {run : Run} (alive : 0 < run.others) :
    HookStep config display .exit run { run with others := run.others - 1 }
  | spawnFails {run : Run} (error : String) (stage : run.stage = .spawning) :
    HookStep config display .look run (run.goto (.returned (.failed ("failed to run: " ++ error))))
  | spawned {run : Run} (stage : run.stage = .spawning) :
    HookStep config display .look run { run with child := .running, stage := .looking (run.now + config.timeout) }
  | signalled {run : Run} {deadline : Nat} (signal : Nat) (stage : run.stage = .looking deadline)
      (pending : run.pending = some signal) : HookStep config display .look run (run.goto (.forwarding signal))
  | unsignalled {run : Run} {deadline : Nat} (stage : run.stage = .looking deadline) (pending : run.pending = none) :
    HookStep config display .look run (run.goto (.trying deadline))
  | succeeded {run : Run} {deadline : Nat} (status : ExitStatus) (stage : run.stage = .trying deadline)
      (exited : run.child = .exited status) (success : status.success = true) :
        HookStep config display .look run (run.reap status .succeeded)
  | failed {run : Run} {deadline : Nat} (status : ExitStatus) (stage : run.stage = .trying deadline)
      (exited : run.child = .exited status) (success : status.success = false) :
        HookStep config display .look run (run.reap status (.failed ("exited with " ++ display status)))
  | stillRunning {run : Run} {deadline : Nat} (stage : run.stage = .trying deadline) (running : run.child = .running) :
    HookStep config display .look run (run.goto (.timing deadline))
  | waitFails {run : Run} {deadline : Nat} (error : String) (stage : run.stage = .trying deadline) :
    HookStep config display .look run
      { run with waitFailed := true, stage := .returned (.failed ("failed to wait: " ++ error)) }
  | expired {run : Run} {deadline : Nat} (stage : run.stage = .timing deadline) (past : deadline ≤ run.now) :
    HookStep config display .look run (run.goto (.killing (.timedOut config.timeout)))
  | sleeps {run : Run} {deadline : Nat} (stage : run.stage = .timing deadline) (early : run.now < deadline) :
    HookStep config display .look run
      (run.sleep (min deadline (run.now + pollInterval)) (.sleeping deadline (min deadline (run.now + pollInterval))))
  | wakes {run : Run} {deadline wake : Nat} (stage : run.stage = .sleeping deadline wake) (due : wake ≤ run.now) :
    HookStep config display .look run (run.goto (.looking deadline))
  | forwards {run : Run} {signal : Nat} (stage : run.stage = .forwarding signal) :
    HookStep config display .look run
      ((run.forward config signal).goto (.graceLooking signal (run.now + forwardGrace)))
  | graceGoesOn {run : Run} {signal deadline : Nat} (stage : run.stage = .graceLooking signal deadline)
      (early : run.now < deadline) (once : run.count < 2) :
        HookStep config display .look run (run.goto (.graceTrying signal deadline))
  | graceEnds {run : Run} {signal deadline : Nat} (stage : run.stage = .graceLooking signal deadline)
      (ended : deadline ≤ run.now ∨ 2 ≤ run.count) :
        HookStep config display .look run (run.goto (.killing (.interrupted signal)))
  | graceExited {run : Run} {signal deadline : Nat} (status : ExitStatus)
      (stage : run.stage = .graceTrying signal deadline) (exited : run.child = .exited status) :
        HookStep config display .look run (run.reap status (.interrupted signal))
  | graceWaitFails {run : Run} {signal deadline : Nat} (stage : run.stage = .graceTrying signal deadline) :
    HookStep config display .look run { run with waitFailed := true, stage := .returned (.interrupted signal) }
  | graceSleeps {run : Run} {signal deadline : Nat} (stage : run.stage = .graceTrying signal deadline)
      (running : run.child = .running) : HookStep config display .look run
        (run.sleep (run.now + pollInterval) (.graceSleeping signal deadline (run.now + pollInterval)))
  | graceWakes {run : Run} {signal deadline wake : Nat} (stage : run.stage = .graceSleeping signal deadline wake)
      (due : wake ≤ run.now) : HookStep config display .look run (run.goto (.graceLooking signal deadline))
  | killsGroup {run : Run} {outcome : HookOutcome} (stage : run.stage = .killing outcome) :
    HookStep config display .look run ((run.killGroup config).goto (.killingChild outcome))
  | killsChild {run : Run} {outcome : HookOutcome} (stage : run.stage = .killingChild outcome) :
    HookStep config display .look run (run.killChild.goto (.waiting outcome))
  | waits {run : Run} {outcome : HookOutcome} (status : ExitStatus) (stage : run.stage = .waiting outcome)
      (exited : run.child = .exited status) : HookStep config display .look run (run.reap status outcome)

/-- The runner is at most so late: a sleep and the looks up to the next are over soon after the time they were due. -/
def timely (late : Nat) (event : HookEvent) (run _after : Run) : Prop :=
  run.outcome = none → ∀ time, event = .elapse time → run.now + time ≤ run.due + late

/-! ### What has been signalled -/

/-- The calls that forward a signal. -/
def forwards (config : HookConfig) (signal time : Nat) : List KillCall :=
  if config.ownProcessGroup then [⟨true, signal, time, true⟩]
  else if signal ≠ sigInt then [⟨false, signal, time, true⟩]
  else []

/-- The calls that kill the hook, and everything in its group where it leads one. -/
def kills (config : HookConfig) (group child : Nat) : List KillCall :=
  (if config.ownProcessGroup then [⟨true, sigKill, group, true⟩] else []) ++ [⟨false, sigKill, child, true⟩]

theorem forwards_unreaped {config : HookConfig} {signal time : Nat} :
    ∀ call ∈ forwards config signal time, call.unreaped = true := by
  intro call listed
  unfold forwards at listed
  split at listed
  · rw [List.mem_singleton.mp listed]
  · split at listed
    · rw [List.mem_singleton.mp listed]
    · cases listed

theorem kills_unreaped {config : HookConfig} {group child : Nat} :
    ∀ call ∈ kills config group child, call.unreaped = true := by
  intro call listed
  unfold kills at listed
  rcases List.mem_append.mp listed with first | second
  · split at first
    · rw [List.mem_singleton.mp first]
    · cases first
  · rw [List.mem_singleton.mp second]

/-- Why the hook is killed: its time is over, or it did not end on the signal in the time it had for that, or a second
signal came. `before` are the calls so far. -/
inductive Condemned (config : HookConfig) (start : Nat) (run : Run) (before : List KillCall) : HookOutcome → Prop
  | timeout (past : start + config.timeout ≤ run.now) (silent : before = []) :
    Condemned config start run before (.timedOut config.timeout)
  | interrupted (signal time : Nat) (heard : signal ∈ run.received) (sent : before = forwards config signal time)
      (ended : time + forwardGrace ≤ run.now ∨ 2 ≤ run.count) :
        Condemned config start run before (.interrupted signal)

/-- How the runner can return. -/
inductive Ended (config : HookConfig) (display : ExitStatus → String) (start : Nat) (run : Run) :
    HookOutcome → Prop
  | succeeded (status : ExitStatus) (success : status.success = true) (reaped : run.child = .reaped status)
      (silent : run.calls = []) : Ended config display start run .succeeded
  | notRun (error : String) (unborn : run.child = .unborn) (silent : run.calls = []) :
    Ended config display start run (.failed ("failed to run: " ++ error))
  | failed (status : ExitStatus) (success : status.success = false) (reaped : run.child = .reaped status)
      (silent : run.calls = []) : Ended config display start run (.failed ("exited with " ++ display status))
  | lost (error : String) (waitFailed : run.waitFailed = true) (silent : run.calls = []) :
    Ended config display start run (.failed ("failed to wait: " ++ error))
  | stopped (signal time : Nat) (heard : signal ∈ run.received) (sent : run.calls = forwards config signal time)
      (gone : (∃ status, run.child = .reaped status) ∨ run.waitFailed = true) :
        Ended config display start run (.interrupted signal)
  | killed {outcome : HookOutcome} (before : List KillCall) (group child : Nat)
      (condemned : Condemned config start run before outcome) (sent : run.calls = before ++ kills config group child)
      (reaped : ∃ status, run.child = .reaped status) (whole : config.ownProcessGroup = true → run.others = 0) :
        Ended config display start run outcome

/-! ### What holds at every stage -/

/-- The hook runs, or has ended and not been waited for, and nothing has been signalled. -/
structure Watched (config : HookConfig) (start late : Nat) (run : Run) (deadline : Nat) : Prop where
  unreaped : run.child.unreaped = true
  silent : run.calls = []
  least : start + config.timeout ≤ deadline
  most : deadline ≤ start + config.timeout + late
  due : run.due ≤ deadline

/-- The signal has been forwarded, and the time it gives has begun. -/
structure Granted (config : HookConfig) (start late : Nat) (run : Run) (signal deadline : Nat) : Prop where
  unreaped : run.child.unreaped = true
  heard : signal ∈ run.received
  sent : ∃ time, run.calls = forwards config signal time ∧ deadline = time + forwardGrace ∧
    time ≤ start + config.timeout + 2 * late

/-- By when the runner last asked to be woken, at the latest. -/
def lastDue (config : HookConfig) (start late : Nat) : Nat :=
  start + config.timeout + forwardGrace + pollInterval + 3 * late

/-- What holds of the hook at each stage of its runner. -/
def Placed (config : HookConfig) (display : ExitStatus → String) (start late : Nat) (run : Run) : Prop :=
  match run.stage with
  | .spawning => run.child = .unborn ∧ run.others = 0 ∧ run.calls = [] ∧ run.due = start ∧ start ≤ run.now
  | .looking deadline => Watched config start late run deadline ∧ run.due ≤ run.now
  | .trying deadline => Watched config start late run deadline ∧ run.due ≤ run.now
  | .timing deadline => Watched config start late run deadline ∧ run.due ≤ run.now
  | .sleeping deadline wake => Watched config start late run deadline ∧ run.due = wake
  | .forwarding signal => (∃ deadline, Watched config start late run deadline) ∧ signal ∈ run.received ∧
      run.due ≤ run.now
  | .graceLooking signal deadline => Granted config start late run signal deadline ∧
      run.due ≤ deadline + pollInterval + late ∧ run.due ≤ run.now
  | .graceTrying signal deadline => Granted config start late run signal deadline ∧ run.due ≤ deadline
  | .graceSleeping signal deadline wake => Granted config start late run signal deadline ∧
      run.due ≤ deadline + pollInterval + late ∧ run.due = wake
  | .killing outcome => run.child.unreaped = true ∧ run.due ≤ lastDue config start late ∧
      Condemned config start run run.calls outcome
  | .killingChild outcome => run.child.unreaped = true ∧ run.due ≤ lastDue config start late ∧
      ∃ before group, Condemned config start run before outcome ∧
        run.calls = before ++ (if config.ownProcessGroup then [⟨true, sigKill, group, true⟩] else []) ∧
        (config.ownProcessGroup = true → run.child ≠ .running ∧ run.others = 0)
  | .waiting outcome => (∃ status, run.child = .exited status) ∧ run.due ≤ lastDue config start late ∧
      ∃ before group child, Condemned config start run before outcome ∧
        run.calls = before ++ kills config group child ∧ (config.ownProcessGroup = true → run.others = 0)
  | .returned outcome => Ended config display start run outcome

/-- What the runner's surroundings do leaves its own state alone. -/
structure Around (run after : Run) : Prop where
  stage : after.stage = run.stage
  due : after.due = run.due
  calls : after.calls = run.calls
  waitFailed : after.waitFailed = run.waitFailed
  now : run.now ≤ after.now
  received : ∀ signal ∈ run.received, signal ∈ after.received
  count : run.count ≤ after.count
  child : after.child = run.child ∨ run.child = .running ∧ ∃ status, after.child = .exited status
  quiet : run.child ≠ .running → run.others = 0 → after.others = 0

variable {config : HookConfig} {display : ExitStatus → String} {start late : Nat} {run after : Run}

namespace Around

theorem unreaped (around : Around run after) (here : run.child.unreaped = true) : after.child.unreaped = true := by
  rcases around.child with same | ⟨-, status, exited⟩
  · rwa [same]
  · rw [exited]
    rfl

theorem stopped (around : Around run after) (here : run.child ≠ .running) : after.child = run.child := by
  rcases around.child with same | ⟨running, -⟩
  · exact same
  · exact absurd running here

theorem watched {deadline : Nat} (around : Around run after) (here : Watched config start late run deadline) :
    Watched config start late after deadline where
  unreaped := around.unreaped here.unreaped
  silent := around.calls.trans here.silent
  least := here.least
  most := here.most
  due := around.due ▸ here.due

theorem granted {signal deadline : Nat} (around : Around run after)
    (here : Granted config start late run signal deadline) : Granted config start late after signal deadline where
  unreaped := around.unreaped here.unreaped
  heard := around.received signal here.heard
  sent := by
    rw [around.calls]
    exact here.sent

theorem condemned {before : List KillCall} {outcome : HookOutcome} (around : Around run after)
    (here : Condemned config start run before outcome) : Condemned config start after before outcome := by
  have now := around.now
  have count := around.count
  cases here with
  | timeout past silent => exact .timeout (by omega) silent
  | interrupted signal time heard sent ended =>
    exact .interrupted signal time (around.received signal heard) sent (by omega)

theorem ended {outcome : HookOutcome} (around : Around run after) (here : Ended config display start run outcome) :
    Ended config display start after outcome := by
  have reaped : ∀ {status}, run.child = .reaped status → after.child = .reaped status := by
    intro status was
    rw [around.stopped (by rw [was]; exact Child.noConfusion), was]
  cases here with
  | succeeded status success was silent => exact .succeeded status success (reaped was) (around.calls.trans silent)
  | notRun error unborn silent =>
    refine .notRun error ?_ (around.calls.trans silent)
    rw [around.stopped (by rw [unborn]; exact Child.noConfusion), unborn]
  | failed status success was silent => exact .failed status success (reaped was) (around.calls.trans silent)
  | lost error waitFailed silent => exact .lost error (around.waitFailed.trans waitFailed) (around.calls.trans silent)
  | stopped signal time heard sent gone =>
    refine .stopped signal time (around.received signal heard) (around.calls.trans sent) ?_
    rcases gone with ⟨status, was⟩ | waitFailed
    · exact Or.inl ⟨status, reaped was⟩
    · exact Or.inr (around.waitFailed.trans waitFailed)
  | killed before group child condemned sent was whole =>
    obtain ⟨status, was⟩ := was
    refine .killed before group child (around.condemned condemned) (around.calls.trans sent) ⟨status, reaped was⟩ ?_
    exact fun own => around.quiet (by rw [was]; exact Child.noConfusion) (whole own)

/-- The surroundings keep what holds at the stage. -/
theorem placed (around : Around run after) (here : Placed config display start late run) :
    Placed config display start late after := by
  have now := around.now
  unfold Placed at here ⊢
  rw [around.stage, around.due, around.calls]
  cases stage : run.stage with
  | spawning =>
    rw [stage] at here
    obtain ⟨unborn, none, silent, due, past⟩ := here
    have still : run.child ≠ .running := by
      rw [unborn]
      exact Child.noConfusion
    exact ⟨(around.stopped still).trans unborn, around.quiet still none, silent, due, Nat.le_trans past now⟩
  | looking deadline =>
    rw [stage] at here
    exact ⟨around.watched here.1, Nat.le_trans here.2 now⟩
  | trying deadline =>
    rw [stage] at here
    exact ⟨around.watched here.1, Nat.le_trans here.2 now⟩
  | timing deadline =>
    rw [stage] at here
    exact ⟨around.watched here.1, Nat.le_trans here.2 now⟩
  | sleeping deadline wake =>
    rw [stage] at here
    exact ⟨around.watched here.1, here.2⟩
  | forwarding signal =>
    rw [stage] at here
    obtain ⟨⟨deadline, watched⟩, heard, due⟩ := here
    exact ⟨⟨deadline, around.watched watched⟩, around.received signal heard, Nat.le_trans due now⟩
  | graceLooking signal deadline =>
    rw [stage] at here
    exact ⟨around.granted here.1, here.2.1, Nat.le_trans here.2.2 now⟩
  | graceTrying signal deadline =>
    rw [stage] at here
    exact ⟨around.granted here.1, here.2⟩
  | graceSleeping signal deadline wake =>
    rw [stage] at here
    exact ⟨around.granted here.1, here.2⟩
  | killing outcome =>
    rw [stage] at here
    exact ⟨around.unreaped here.1, here.2.1, around.condemned here.2.2⟩
  | killingChild outcome =>
    rw [stage] at here
    obtain ⟨unreaped, due, before, group, condemned, sent, gone⟩ := here
    refine ⟨around.unreaped unreaped, due, before, group, around.condemned condemned, sent, fun own => ?_⟩
    obtain ⟨still, none⟩ := gone own
    exact ⟨around.stopped still ▸ still, around.quiet still none⟩
  | waiting outcome =>
    rw [stage] at here
    obtain ⟨⟨status, exited⟩, due, before, group, child, condemned, sent, gone⟩ := here
    have still : run.child ≠ .running := by
      rw [exited]
      exact Child.noConfusion
    exact ⟨⟨status, (around.stopped still).trans exited⟩, due, before, group, child, around.condemned condemned, sent,
      fun own => around.quiet still (gone own)⟩
  | returned outcome =>
    rw [stage] at here
    exact around.ended here

end Around

/-! ### The calls -/

@[simp] theorem Child.unreaped_killed (child : Child) : child.killed.unreaped = child.unreaped := by
  cases child <;> rfl

theorem Child.killed_of_unreaped {child : Child} (unreaped : child.unreaped = true) :
    ∃ status, child.killed = .exited status := by
  cases child with
  | unborn => cases unreaped
  | running => exact ⟨_, rfl⟩
  | exited status => exact ⟨status, rfl⟩
  | reaped status => cases unreaped

namespace Run

theorem call_unreaped (run : Run) (whole : Bool) (signal : Nat) :
    (run.call whole signal).child.unreaped = run.child.unreaped := by
  unfold call
  by_cases kill : signal = sigKill
  · simp only [if_pos kill, Child.unreaped_killed]
  · simp only [if_neg kill]

theorem forward_keeps (run : Run) (config : HookConfig) (signal : Nat) :
    (run.forward config signal).child.unreaped = run.child.unreaped ∧
      (run.forward config signal).received = run.received ∧ (run.forward config signal).due = run.due ∧
      (run.forward config signal).now = run.now := by
  unfold forward
  split
  · exact ⟨call_unreaped run true signal, rfl, rfl, rfl⟩
  · split
    · exact ⟨call_unreaped run false signal, rfl, rfl, rfl⟩
    · exact ⟨rfl, rfl, rfl, rfl⟩

theorem forward_calls {run : Run} {config : HookConfig} {signal : Nat} (unreaped : run.child.unreaped = true)
    (silent : run.calls = []) : (run.forward config signal).calls = forwards config signal run.now := by
  unfold forward forwards call
  rw [silent, unreaped]
  by_cases own : config.ownProcessGroup = true
  · rw [if_pos own, if_pos own]
    rfl
  · rw [if_neg own, if_neg own]
    by_cases elsewhere : signal ≠ sigInt
    · rw [if_pos elsewhere, if_pos elsewhere]
      rfl
    · rw [if_neg elsewhere, if_neg elsewhere]
      exact silent

theorem killGroup_calls {run : Run} {config : HookConfig} (unreaped : run.child.unreaped = true) :
    (run.killGroup config).calls =
      run.calls ++ (if config.ownProcessGroup then [⟨true, sigKill, run.now, true⟩] else []) := by
  unfold killGroup call
  rw [unreaped]
  split
  · rfl
  · exact (List.append_nil _).symm

theorem killGroup_keeps (run : Run) (config : HookConfig) :
    (run.killGroup config).child.unreaped = run.child.unreaped ∧ (run.killGroup config).received = run.received ∧
      (run.killGroup config).due = run.due ∧ (run.killGroup config).now = run.now := by
  unfold killGroup
  split
  · exact ⟨call_unreaped run true sigKill, rfl, rfl, rfl⟩
  · exact ⟨rfl, rfl, rfl, rfl⟩

/-- Of the group that the hook leads nothing is left. -/
theorem killGroup_whole {run : Run} {config : HookConfig} (own : config.ownProcessGroup = true) :
    (run.killGroup config).child ≠ .running ∧ (run.killGroup config).others = 0 := by
  unfold killGroup call
  rw [if_pos own]
  refine ⟨?_, rfl⟩
  change run.child.killed ≠ .running
  cases run.child <;> exact Child.noConfusion

end Run

/-! ### The steps of the runner -/

theorem Watched.goto {deadline : Nat} (here : Watched config start late run deadline) (stage : Stage) :
    Watched config start late (run.goto stage) deadline :=
  ⟨here.unreaped, here.silent, here.least, here.most, here.due⟩

theorem Granted.goto {signal deadline : Nat} (here : Granted config start late run signal deadline) (stage : Stage) :
    Granted config start late (run.goto stage) signal deadline :=
  ⟨here.unreaped, here.heard, here.sent⟩

theorem Condemned.still {before : List KillCall} {outcome : HookOutcome}
    (here : Condemned config start run before outcome) (now : after.now = run.now)
    (received : after.received = run.received) : Condemned config start after before outcome := by
  cases here with
  | timeout past silent => exact .timeout (now ▸ past) silent
  | interrupted signal time heard sent ended =>
    have count : after.count = run.count := congrArg List.length received
    exact .interrupted signal time (received ▸ heard) sent (by rwa [now, count])

/-- The runner takes no time but where it sleeps. -/
theorem look_time (step : HookStep config display .look run after) :
    run.outcome = none ∧ after.now = run.now ∧ (after.due = run.due ∨ run.now ≤ after.due) := by
  unfold Run.outcome
  cases step with
  | spawnFails error stage => exact ⟨by rw [stage], rfl, Or.inl rfl⟩
  | spawned stage => exact ⟨by rw [stage], rfl, Or.inl rfl⟩
  | signalled signal stage pending => exact ⟨by rw [stage], rfl, Or.inl rfl⟩
  | unsignalled stage pending => exact ⟨by rw [stage], rfl, Or.inl rfl⟩
  | succeeded status stage exited success => exact ⟨by rw [stage], rfl, Or.inl rfl⟩
  | failed status stage exited success => exact ⟨by rw [stage], rfl, Or.inl rfl⟩
  | stillRunning stage running => exact ⟨by rw [stage], rfl, Or.inl rfl⟩
  | waitFails error stage => exact ⟨by rw [stage], rfl, Or.inl rfl⟩
  | expired stage past => exact ⟨by rw [stage], rfl, Or.inl rfl⟩
  | sleeps stage early =>
    refine ⟨by rw [stage], rfl, Or.inr ?_⟩
    exact Nat.le_min.mpr ⟨Nat.le_of_lt early, Nat.le_add_right _ _⟩
  | wakes stage due => exact ⟨by rw [stage], rfl, Or.inl rfl⟩
  | forwards stage =>
    rename_i signal
    obtain ⟨-, -, due, now⟩ := run.forward_keeps config signal
    exact ⟨by rw [stage], now, Or.inl due⟩
  | graceGoesOn stage early once => exact ⟨by rw [stage], rfl, Or.inl rfl⟩
  | graceEnds stage ended => exact ⟨by rw [stage], rfl, Or.inl rfl⟩
  | graceExited status stage exited => exact ⟨by rw [stage], rfl, Or.inl rfl⟩
  | graceWaitFails stage => exact ⟨by rw [stage], rfl, Or.inl rfl⟩
  | graceSleeps stage running => exact ⟨by rw [stage], rfl, Or.inr (Nat.le_add_right _ _)⟩
  | graceWakes stage due => exact ⟨by rw [stage], rfl, Or.inl rfl⟩
  | killsGroup stage =>
    exact ⟨by rw [stage], (run.killGroup_keeps config).2.2.2, Or.inl (run.killGroup_keeps config).2.2.1⟩
  | killsChild stage =>
    have same : run.killChild.now = run.now ∧ run.killChild.due = run.due := by
      unfold Run.killChild
      split <;> exact ⟨rfl, rfl⟩
    exact ⟨by rw [stage], same.1, Or.inl same.2⟩
  | waits status stage exited => exact ⟨by rw [stage], rfl, Or.inl rfl⟩

/-- What every step keeps. -/
structure Kept (config : HookConfig) (display : ExitStatus → String) (start late : Nat) (run : Run) : Prop where
  placed : Placed config display start late run
  prompt : run.outcome = none → run.now ≤ run.due + late

theorem Kept.fresh (received : List Nat) : Kept config display start late (Run.fresh start received) :=
  ⟨⟨rfl, rfl, rfl, rfl, Nat.le_refl _⟩, fun _ => Nat.le_add_right _ _⟩

theorem placed_looked (kept : Kept config display start late run) (step : HookStep config display .look run after) :
    Placed config display start late after := by
  have here := kept.placed
  have prompt := kept.prompt (look_time step).1
  unfold Placed at here
  cases step with
  | spawnFails error stage =>
    rw [stage] at here
    obtain ⟨unborn, none, silent, due, past⟩ := here
    exact Ended.notRun error unborn silent
  | spawned stage =>
    rw [stage] at here
    obtain ⟨unborn, none, silent, due, past⟩ := here
    refine (show _ ∧ _ from ⟨⟨rfl, silent, ?_, ?_, ?_⟩, ?_⟩)
    · exact Nat.add_le_add_right past _
    · omega
    · change run.due ≤ run.now + config.timeout
      omega
    · change run.due ≤ run.now
      omega
  | signalled signal stage pending =>
    rw [stage] at here
    rename_i deadline
    have heard : signal ∈ run.received := List.mem_of_getLast? pending
    exact (show _ ∧ _ from ⟨⟨deadline, here.1.goto _⟩, heard, here.2⟩)
  | unsignalled stage pending =>
    rw [stage] at here
    exact (show _ ∧ _ from ⟨here.1.goto _, here.2⟩)
  | succeeded status stage exited success =>
    rw [stage] at here
    exact Ended.succeeded status success rfl here.1.silent
  | failed status stage exited success =>
    rw [stage] at here
    exact Ended.failed status success rfl here.1.silent
  | stillRunning stage running =>
    rw [stage] at here
    exact (show _ ∧ _ from ⟨here.1.goto _, here.2⟩)
  | waitFails error stage =>
    rw [stage] at here
    exact Ended.lost error rfl here.1.silent
  | expired stage past =>
    rw [stage] at here
    have least := here.1.least
    have most := here.1.most
    have due := here.1.due
    refine (show _ ∧ _ ∧ _ from ⟨here.1.unreaped, ?_, ?_⟩)
    · change run.due ≤ lastDue config start late
      unfold lastDue
      omega
    · exact .timeout (show start + config.timeout ≤ run.now by omega) here.1.silent
  | sleeps stage early =>
    rw [stage] at here
    refine (show _ ∧ _ from ⟨⟨here.1.unreaped, here.1.silent, here.1.least, here.1.most, ?_⟩, rfl⟩)
    exact Nat.min_le_left _ _
  | wakes stage due =>
    rw [stage] at here
    exact (show _ ∧ _ from ⟨here.1.goto _, here.2.symm ▸ due⟩)
  | forwards stage =>
    rw [stage] at here
    rename_i signal
    obtain ⟨⟨deadline, watched⟩, heard, due⟩ := here
    have most := watched.most
    have soon := watched.due
    obtain ⟨unreaped, received, same, now⟩ := run.forward_keeps config signal
    have sent := @Run.forward_calls run config signal watched.unreaped watched.silent
    refine (show _ ∧ _ ∧ _ from ⟨⟨unreaped.trans watched.unreaped, received ▸ heard, run.now, sent, rfl, ?_⟩, ?_, ?_⟩)
    · omega
    · change (run.forward config signal).due ≤ run.now + forwardGrace + pollInterval + late
      omega
    · change (run.forward config signal).due ≤ (run.forward config signal).now
      omega
  | graceGoesOn stage early once =>
    rw [stage] at here
    exact (show _ ∧ _ from ⟨here.1.goto _, Nat.le_trans here.2.2 (Nat.le_of_lt early)⟩)
  | graceEnds stage ended =>
    rw [stage] at here
    rename_i signal deadline
    obtain ⟨granted, due, past⟩ := here
    obtain ⟨time, sent, given, soon⟩ := granted.sent
    refine (show _ ∧ _ ∧ _ from ⟨granted.unreaped, ?_, ?_⟩)
    · change run.due ≤ lastDue config start late
      unfold lastDue
      omega
    · exact .interrupted signal time granted.heard sent (given ▸ ended)
  | graceExited status stage exited =>
    rw [stage] at here
    obtain ⟨time, sent, -⟩ := here.1.sent
    exact Ended.stopped _ time here.1.heard sent (Or.inl ⟨status, rfl⟩)
  | graceWaitFails stage =>
    rw [stage] at here
    obtain ⟨time, sent, -⟩ := here.1.sent
    exact Ended.stopped _ time here.1.heard sent (Or.inr rfl)
  | graceSleeps stage running =>
    rw [stage] at here
    refine (show _ ∧ _ ∧ _ from ⟨⟨here.1.unreaped, here.1.heard, here.1.sent⟩, ?_, rfl⟩)
    change run.now + pollInterval ≤ _
    omega
  | graceWakes stage due =>
    rw [stage] at here
    exact (show _ ∧ _ ∧ _ from ⟨here.1.goto _, here.2.1, here.2.2.symm ▸ due⟩)
  | killsGroup stage =>
    rw [stage] at here
    obtain ⟨unreaped, due, condemned⟩ := here
    obtain ⟨same, received, dueSame, now⟩ := run.killGroup_keeps config
    refine (show _ ∧ _ ∧ _ from ⟨same.trans unreaped, dueSame ▸ due, run.calls, run.now, condemned.still now received,
      Run.killGroup_calls unreaped, fun own => Run.killGroup_whole own⟩)
  | killsChild stage =>
    rw [stage] at here
    obtain ⟨unreaped, due, before, group, condemned, sent, gone⟩ := here
    obtain ⟨status, exited⟩ := Child.killed_of_unreaped unreaped
    have killed : run.killChild = run.call false sigKill := if_pos unreaped
    rw [killed]
    refine (show _ ∧ _ ∧ _ from ⟨⟨status, exited⟩, due, before, group, run.now, condemned.still rfl rfl, ?_,
      fun own => (gone own).2⟩)
    change run.calls ++ [⟨false, sigKill, run.now, run.child.unreaped⟩] = _
    rw [sent, unreaped, kills, List.append_assoc]
  | waits status stage exited =>
    rw [stage] at here
    obtain ⟨-, due, before, group, child, condemned, sent, gone⟩ := here
    exact Ended.killed before group child (condemned.still rfl rfl) sent ⟨status, rfl⟩ gone

theorem Kept.next {event : HookEvent} (kept : Kept config display start late run) (timed : timely late event run after)
    (step : HookStep config display event run after) : Kept config display start late after := by
  cases event with
  | elapse time =>
    cases step with
    | elapse time =>
      have around : Around run { run with now := run.now + time } :=
        ⟨rfl, rfl, rfl, rfl, Nat.le_add_right _ _, fun _ heard => heard, Nat.le_refl _, Or.inl rfl, fun _ none => none⟩
      exact ⟨around.placed kept.placed, fun going => timed going time rfl⟩
  | receive signal =>
    cases step with
    | receive signal =>
      have longer : run.count ≤ (run.received ++ [signal]).length := by
        rw [List.length_append]
        exact Nat.le_add_right _ _
      have around : Around run { run with received := run.received ++ [signal] } :=
        ⟨rfl, rfl, rfl, rfl, Nat.le_refl _, fun _ heard => List.mem_append_left _ heard, longer, Or.inl rfl,
          fun _ none => none⟩
      exact ⟨around.placed kept.placed, kept.prompt⟩
  | fork =>
    cases step with
    | fork alive =>
      have dead : run.child ≠ .running → run.others = 0 → run.others + 1 = 0 := by
        intro still none
        rcases alive with running | some
        · exact absurd running still
        · omega
      have around : Around run { run with others := run.others + 1 } :=
        ⟨rfl, rfl, rfl, rfl, Nat.le_refl _, fun _ heard => heard, Nat.le_refl _, Or.inl rfl, dead⟩
      exact ⟨around.placed kept.placed, kept.prompt⟩
  | exit =>
    cases step with
    | childExits status running =>
      have around : Around run { run with child := .exited status } :=
        ⟨rfl, rfl, rfl, rfl, Nat.le_refl _, fun _ heard => heard, Nat.le_refl _, Or.inr ⟨running, status, rfl⟩,
          fun _ none => none⟩
      exact ⟨around.placed kept.placed, kept.prompt⟩
    | otherExits alive =>
      have fewer : run.child ≠ .running → run.others = 0 → run.others - 1 = 0 := by
        intro _ none
        rw [none]
      have around : Around run { run with others := run.others - 1 } :=
        ⟨rfl, rfl, rfl, rfl, Nat.le_refl _, fun _ heard => heard, Nat.le_refl _, Or.inl rfl, fewer⟩
      exact ⟨around.placed kept.placed, kept.prompt⟩
  | look =>
    obtain ⟨going, now, due⟩ := look_time step
    have prompt := kept.prompt going
    refine ⟨placed_looked kept step, fun _ => ?_⟩
    rw [now]
    rcases due with same | later
    · rwa [same]
    · exact Nat.le_trans later (Nat.le_add_right _ _)

/-- What the runner reads of the signals is what its guard shows it. -/
theorem Run.hears {actions : Nat → SigAction} {p : Process} {thread : Nat} {top : Catch} {rest : List Catch}
    (kept : p.Kept actions) (guards : p.guards thread = top :: rest) (same : run.received = p.caught) :
    run.pending = p.pending thread ∧ (p.handlers = [] → run.count % 2 ^ 32 = p.count) := by
  have owned := Process.guarded_of_guards guards
  have held := (kept.held thread).mpr (Or.inr ⟨_, owned, rfl⟩)
  have balance := (kept.placed thread _ owned).2
  refine ⟨?_, fun idle => ?_⟩
  · rw [kept.pending_of_held held, Run.pending, same]
  · unfold Signals.Balanced at balance
    rw [idle] at balance
    rw [kept.total, Run.count, same, balance]
    rfl

/-! ### Runs -/

theorem Condemned.calls_unreaped {before : List KillCall} {outcome : HookOutcome}
    (here : Condemned config start run before outcome) : ∀ call ∈ before, call.unreaped = true := by
  cases here with
  | timeout past silent =>
    rw [silent]
    exact fun _ none => absurd none List.not_mem_nil
  | interrupted signal time heard sent ended =>
    rw [sent]
    exact forwards_unreaped

theorem Ended.calls_unreaped {outcome : HookOutcome} (here : Ended config display start run outcome) :
    ∀ call ∈ run.calls, call.unreaped = true := by
  have nothing : run.calls = [] → ∀ call ∈ run.calls, call.unreaped = true := by
    intro silent
    rw [silent]
    exact fun _ none => absurd none List.not_mem_nil
  cases here with
  | succeeded status success reaped silent => exact nothing silent
  | notRun error unborn silent => exact nothing silent
  | failed status success reaped silent => exact nothing silent
  | lost error waitFailed silent => exact nothing silent
  | stopped signal time heard sent gone =>
    rw [sent]
    exact forwards_unreaped
  | killed before group child condemned sent reaped whole =>
    rw [sent]
    intro call listed
    rcases List.mem_append.mp listed with first | second
    · exact condemned.calls_unreaped call first
    · exact kills_unreaped call second

/-- Whatever is signalled is the hook, or the group it leads, and no other process that got its pid. -/
theorem Placed.calls_unreaped (here : Placed config display start late run) :
    ∀ call ∈ run.calls, call.unreaped = true := by
  have nothing : run.calls = [] → ∀ call ∈ run.calls, call.unreaped = true := by
    intro silent
    rw [silent]
    exact fun _ none => absurd none List.not_mem_nil
  have granted : ∀ {signal deadline}, Granted config start late run signal deadline →
      ∀ call ∈ run.calls, call.unreaped = true := by
    intro signal deadline granted
    obtain ⟨time, sent, -⟩ := granted.sent
    rw [sent]
    exact forwards_unreaped
  unfold Placed at here
  cases stage : run.stage with
  | spawning => rw [stage] at here; exact nothing here.2.2.1
  | looking deadline => rw [stage] at here; exact nothing here.1.silent
  | trying deadline => rw [stage] at here; exact nothing here.1.silent
  | timing deadline => rw [stage] at here; exact nothing here.1.silent
  | sleeping deadline wake => rw [stage] at here; exact nothing here.1.silent
  | forwarding signal =>
    rw [stage] at here
    obtain ⟨⟨deadline, watched⟩, -⟩ := here
    exact nothing watched.silent
  | graceLooking signal deadline => rw [stage] at here; exact granted here.1
  | graceTrying signal deadline => rw [stage] at here; exact granted here.1
  | graceSleeping signal deadline wake => rw [stage] at here; exact granted here.1
  | killing outcome => rw [stage] at here; exact here.2.2.calls_unreaped
  | killingChild outcome =>
    rw [stage] at here
    obtain ⟨-, -, before, group, condemned, sent, -⟩ := here
    rw [sent]
    intro call listed
    rcases List.mem_append.mp listed with first | second
    · exact condemned.calls_unreaped call first
    · split at second
      · rw [List.mem_singleton.mp second]
      · cases second
  | waiting outcome =>
    rw [stage] at here
    obtain ⟨-, -, before, group, child, condemned, sent, -⟩ := here
    rw [sent]
    intro call listed
    rcases List.mem_append.mp listed with first | second
    · exact condemned.calls_unreaped call first
    · exact kills_unreaped call second
  | returned outcome => rw [stage] at here; exact Ended.calls_unreaped here

/-- Until it returns the runner has something to do, or sleeps for a while, and it has not slept long. -/
theorem Placed.going (here : Placed config display start late run) (running : run.outcome = none) :
    run.due ≤ lastDue config start late ∧
      ((∃ after, HookStep config display .look run after) ∨ run.now < run.due) := by
  have waits : ∀ {deadline}, Watched config start late run deadline → run.due ≤ lastDue config start late := by
    intro deadline watched
    have most := watched.most
    have due := watched.due
    unfold lastDue
    omega
  have grants : ∀ {signal deadline}, Granted config start late run signal deadline →
      deadline + pollInterval + late ≤ lastDue config start late := by
    intro signal deadline granted
    obtain ⟨time, -, given, soon⟩ := granted.sent
    unfold lastDue
    omega
  unfold Placed at here
  unfold Run.outcome at running
  cases stage : run.stage with
  | spawning =>
    rw [stage] at here
    obtain ⟨-, -, -, due, -⟩ := here
    refine ⟨?_, Or.inl ⟨_, .spawned stage⟩⟩
    unfold lastDue
    omega
  | looking deadline =>
    rw [stage] at here
    refine ⟨waits here.1, Or.inl ?_⟩
    cases pending : run.pending with
    | none => exact ⟨_, .unsignalled stage pending⟩
    | some signal => exact ⟨_, .signalled signal stage pending⟩
  | trying deadline =>
    rw [stage] at here
    refine ⟨waits here.1, Or.inl ?_⟩
    have unreaped := here.1.unreaped
    cases child : run.child with
    | unborn => rw [child] at unreaped; cases unreaped
    | running => exact ⟨_, .stillRunning stage child⟩
    | exited status =>
      cases success : status.success with
      | true => exact ⟨_, .succeeded status stage child success⟩
      | false => exact ⟨_, .failed status stage child success⟩
    | reaped status => rw [child] at unreaped; cases unreaped
  | timing deadline =>
    rw [stage] at here
    refine ⟨waits here.1, Or.inl ?_⟩
    by_cases past : deadline ≤ run.now
    · exact ⟨_, .expired stage past⟩
    · exact ⟨_, .sleeps stage (Nat.not_le.mp past)⟩
  | sleeping deadline wake =>
    rw [stage] at here
    refine ⟨waits here.1, ?_⟩
    by_cases due : wake ≤ run.now
    · exact Or.inl ⟨_, .wakes stage due⟩
    · exact Or.inr (here.2.symm ▸ Nat.not_le.mp due)
  | forwarding signal =>
    rw [stage] at here
    obtain ⟨⟨deadline, watched⟩, -⟩ := here
    exact ⟨waits watched, Or.inl ⟨_, .forwards stage⟩⟩
  | graceLooking signal deadline =>
    rw [stage] at here
    refine ⟨Nat.le_trans here.2.1 (grants here.1), Or.inl ?_⟩
    by_cases ended : deadline ≤ run.now ∨ 2 ≤ run.count
    · exact ⟨_, .graceEnds stage ended⟩
    · exact ⟨_, .graceGoesOn stage (by omega) (by omega)⟩
  | graceTrying signal deadline =>
    rw [stage] at here
    have bound := grants here.1
    refine ⟨by have := here.2; omega, Or.inl ?_⟩
    have unreaped := here.1.unreaped
    cases child : run.child with
    | unborn => rw [child] at unreaped; cases unreaped
    | running => exact ⟨_, .graceSleeps stage child⟩
    | exited status => exact ⟨_, .graceExited status stage child⟩
    | reaped status => rw [child] at unreaped; cases unreaped
  | graceSleeping signal deadline wake =>
    rw [stage] at here
    refine ⟨Nat.le_trans here.2.1 (grants here.1), ?_⟩
    by_cases due : wake ≤ run.now
    · exact Or.inl ⟨_, .graceWakes stage due⟩
    · exact Or.inr (here.2.2.symm ▸ Nat.not_le.mp due)
  | killing outcome =>
    rw [stage] at here
    exact ⟨here.2.1, Or.inl ⟨_, .killsGroup stage⟩⟩
  | killingChild outcome =>
    rw [stage] at here
    exact ⟨here.2.1, Or.inl ⟨_, .killsChild stage⟩⟩
  | waiting outcome =>
    rw [stage] at here
    obtain ⟨⟨status, exited⟩, due, -⟩ := here
    exact ⟨due, Or.inl ⟨_, .waits status stage exited⟩⟩
  | returned outcome =>
    rw [stage] at running
    cases running

/-- Only the hook is ever signalled, and only while its pid is its own. The runner is never stuck, and returns in
bounded time. What it says of the hook is what became of it: a hook that ends in its time is sent nothing; one that does
not is killed, with its whole group where it leads one; one that a signal interrupts gets that signal, once, and is
killed if it outlives its grace or a second signal. -/
theorem hook_exact {received : List Nat}
    (reaches : Reaches (HookStep config display) (timely late) (Run.fresh start received) run) :
    (∀ call ∈ run.calls, call.unreaped = true) ∧
    (run.outcome = none →
      run.now ≤ start + config.timeout + forwardGrace + pollInterval + 4 * late ∧
      ((∃ after, HookStep config display .look run after) ∨ run.now < run.due)) ∧
    ∀ outcome, run.outcome = some outcome → Ended config display start run outcome := by
  have kept : Kept config display start late run := by
    apply reaches.invariant (Kept.fresh received)
    intro event run after kept timed step
    exact kept.next timed step
  refine ⟨kept.placed.calls_unreaped, fun running => ?_, fun outcome returned => ?_⟩
  · obtain ⟨due, goes⟩ := kept.placed.going running
    have prompt := kept.prompt running
    unfold lastDue at due
    exact ⟨by omega, goes⟩
  · have here := kept.placed
    unfold Placed at here
    unfold Run.outcome at returned
    cases stage : run.stage with
    | returned other =>
      rw [stage] at here returned
      have same : other = outcome := Option.some.inj returned
      exact same ▸ here
    | _ => rw [stage] at returned; cases returned

/-- A hook in a group of its own, with as long as one poll takes. -/
def brief : HookConfig := ⟨pollInterval, true⟩

def shown : ExitStatus → String := fun _ => "status"

theorem timely_look {late : Nat} {run after : Run} : timely late .look run after := by
  intro _ time never
  cases never

/-- The hook has started a process, and the runner has looked once and sleeps. -/
theorem reaches_sleeping : Reaches (HookStep brief shown) (timely 0) (Run.fresh 0 [])
    ⟨0, 50, .running, 1, [], [], false, .sleeping 50 50⟩ := by
  have started : Reaches (HookStep brief shown) (timely 0) (Run.fresh 0 []) (Run.fresh 0 []) := Reaches.refl
  have spawned := started.next timely_look (.spawned rfl)
  have forked := spawned.next (l := .fork) (fun _ _ never => by cases never) (.fork (Or.inl rfl))
  have tried := (forked.next timely_look (.unsignalled rfl rfl)).next timely_look (.stillRunning rfl rfl)
  have slept := tried.next timely_look (.sleeps rfl (by decide))
  exact slept

/-- The time is over: nothing is left of the group. -/
theorem hung_hook_killed : ∃ run, run.outcome = some (.timedOut 50) ∧ run.others = 0 ∧
    Ended brief shown 0 run (.timedOut 50) := by
  have woken := (reaches_sleeping.next (l := .elapse 50)
    (fun _ time same => by cases same; decide) (.elapse 50)).next timely_look (.wakes rfl (by decide))
  have tried := (woken.next timely_look (.unsignalled rfl rfl)).next timely_look (.stillRunning rfl rfl)
  have condemned := tried.next timely_look (.expired rfl (by decide))
  have killed := (condemned.next timely_look (.killsGroup rfl)).next timely_look (.killsChild rfl)
  have returned := killed.next timely_look (.waits (.signal sigKill) rfl rfl)
  exact ⟨_, rfl, rfl, (hook_exact returned).2.2 _ rfl⟩

/-- A hook that ends on the signal may leave what it started behind. -/
theorem stragglers : ∃ run, Reaches (HookStep brief shown) (timely 0) (Run.fresh 0 []) run ∧
    run.outcome = some (.interrupted sigTerm) ∧ run.others = 1 := by
  have heard := reaches_sleeping.next (l := .receive sigTerm) (fun _ _ never => by cases never) (.receive sigTerm)
  have woken := (heard.next (l := .elapse 50)
    (fun _ time same => by cases same; decide) (.elapse 50)).next timely_look (.wakes rfl (by decide))
  have forwarded := (woken.next timely_look (.signalled sigTerm rfl rfl)).next timely_look (.forwards rfl)
  have ended := forwarded.next (l := .exit) (fun _ _ never => by cases never) (.childExits (.signal sigTerm) rfl)
  have tried := ended.next timely_look (.graceGoesOn rfl (by decide) (by decide))
  exact ⟨_, tried.next timely_look (.graceExited _ rfl rfl), rfl, rfl⟩

end Rqmd.Hook
