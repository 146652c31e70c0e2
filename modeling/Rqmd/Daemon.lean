import Mathlib.Tactic.Common

/-! Stopping the MCP daemon. The pidfile names a pid, and pids are recycled: every decision rests on what
`/health` and the process table show at some instant, and the table goes on changing between two looks. An
action falls in the instant of the look before it. -/

namespace Rqmd.Daemon

/-! ### What is recorded and what can be seen -/

structure PidRecord where
  pid : Nat
  host : String
  port : Nat
  processStartUnix : Option Nat
deriving DecidableEq

structure HealthResponse where
  pid : Nat
  indexDir : String
deriving DecidableEq

/-- A process: when it started as the system reports it, whether we may signal it and on which loopback ports
it answers `/health/daemon`. -/
structure Process where
  ident : Nat
  start : Option Nat
  ours : Bool
  serves : List Nat
deriving DecidableEq

/-- The process table and the answers of `/health/daemon` over time. Processes exit and pids are used again; a
process stays what it is. -/
structure Surroundings where
  table : Nat → Nat → Option Process
  health : Nat → String → Nat → Option HealthResponse
  steady : ∀ {s t pid other p q}, table s pid = some p → table t other = some q → p.ident = q.ident → p = q

def bareHost (host : String) : String :=
  match host.toList with
  | '[' :: rest => if rest.getLast? = some ']' then String.ofList rest.dropLast else host
  | _ => host

def isLoopback (host : String) : Bool := bareHost host ∈ ["127.0.0.1", "localhost", "::1"]

/-- A pid that may be the daemon's: no process group, not pid 1, not this process. -/
def plausiblePid (own pid : Nat) : Bool := 1 < pid && pid ≤ 2147483647 && pid != own

/-- `content` is the record the file parses to, if it does. -/
def readPidfile (own : Nat) (content : Option PidRecord) : Option PidRecord :=
  content.filter fun record => plausiblePid own record.pid

variable (w : Surroundings)

def pidAlive (t pid : Nat) : Bool := (w.table t pid).isSome

def processStartTime (t pid : Nat) : Option Nat := (w.table t pid).bind Process.start

/-- `kill` of the pid succeeds: it is there, and ours to signal. -/
def signalled (t pid : Nat) : Bool := (w.table t pid).any Process.ours

/-! ### Identity -/

inductive NotOurs where
  | gone
  | noRecordedStart
  | unreadableStart
  | differentStart (actual recorded : Nat)
deriving DecidableEq

def NotOurs.display : NotOurs → String
  | .gone => "the process is no longer running"
  | .noRecordedStart => "the pidfile has no process start time (an older rqmd wrote it, or this platform " ++
      "does not report one), so the pid cannot be told apart from a recycled one"
  | .unreadableStart => "the operating system would not report when the process started"
  | .differentStart actual recorded => "it started at unix time " ++ toString actual ++
      " but the pidfile recorded a daemon that started at " ++ toString recorded ++ ", so the pid was reused by another process"

inductive Identity where
  | confirmed (health : HealthResponse)
  | stale
  | aliveUnresponsive
  | aliveUnverified (why : NotOurs)
  | foreign (health : HealthResponse)
deriving DecidableEq

def startTimeSlackSecs : Nat := 2

def absDiff (a b : Nat) : Nat := max a b - min a b

/-- Why the recorded pid is not, or cannot be shown to be, the daemon, and the instant of the last look. -/
def checkRecordedProcess (t : Nat) (record : PidRecord) : Option NotOurs × Nat :=
  if pidAlive w t record.pid then
    match record.processStartUnix with
    | none => (some .noRecordedStart, t)
    | some recorded =>
      match processStartTime w (t + 1) record.pid with
      | none => (some .unreadableStart, t + 1)
      | some actual =>
        if startTimeSlackSecs < absDiff actual recorded then (some (.differentStart actual recorded), t + 1)
        else (none, t + 1)
  else (some .gone, t)

def identityWithoutHealth (t : Nat) (record : PidRecord) : Identity × Nat :=
  match checkRecordedProcess w t record with
  | (none, u) => (.aliveUnresponsive, u)
  | (some .noRecordedStart, u) => (.aliveUnverified .noRecordedStart, u)
  | (some .unreadableStart, u) => (.aliveUnverified .unreadableStart, u)
  | (some .gone, u) => (.stale, u)
  | (some (.differentStart _ _), u) => (.stale, u)

def verifyIdentity (t : Nat) (record : PidRecord) : Identity × Nat :=
  match w.health t record.host record.port with
  | some health =>
    if health.pid = record.pid then
      if isLoopback record.host then (.confirmed health, t)
      else
        match checkRecordedProcess w (t + 1) record with
        | (none, u) => (.confirmed health, u)
        | (some _, u) => identityWithoutHealth w (u + 1) record
    else (.foreign health, t)
  | none => identityWithoutHealth w (t + 1) record

/-! ### Stopping -/

inductive Action where
  | terminate (pid : Nat)
  | kill (pid : Nat)
  | removePidfile
deriving DecidableEq

/-- Something done at an instant. -/
structure Act where
  instant : Nat
  action : Action
deriving DecidableEq

structure Stopped where
  result : Except String Unit
  acts : List Act

/-- Polls until the pid cannot be signalled, for as many further polls as the timeout leaves room for. -/
def waitForGone (pid : Nat) : Nat → Nat → Bool × Nat
  | 0, t => (!signalled w t pid, t)
  | more + 1, t => if signalled w t pid then waitForGone pid more (t + 1) else (true, t)

/-- After SIGKILL was sent at `t`. -/
def afterKill (record : PidRecord) (graceText : String) (polls t : Nat) : Stopped :=
  match waitForGone w record.pid polls (t + 1) with
  | (true, u) => ⟨.ok (), [⟨t, .kill record.pid⟩, ⟨u, .removePidfile⟩]⟩
  | (false, _) => ⟨.error ("pid " ++ toString record.pid ++ " is still running " ++ graceText ++
      " after SIGKILL — pidfile kept"), [⟨t, .kill record.pid⟩]⟩

/-- The daemon has outlived SIGTERM. Only a pid that is still the recorded daemon is killed. -/
def escalate (record : PidRecord) (graceText : String) (polls t : Nat) : Stopped :=
  match checkRecordedProcess w t record with
  | (none, u) =>
    if signalled w u record.pid then afterKill w record graceText polls u
    else ⟨.error ("failed to send SIGKILL to pid " ++ toString record.pid), [⟨u, .kill record.pid⟩]⟩
  | (some .gone, u) => ⟨.ok (), [⟨u, .removePidfile⟩]⟩
  | (some why, _) => ⟨.error ("pid " ++ toString record.pid ++ " did not exit within " ++ graceText ++
      " after SIGTERM, and --force will not kill it: " ++ why.display ++ " — pidfile kept"), []⟩

/-- After SIGTERM was sent at `t`. -/
def afterTerminate (record : PidRecord) (force : Bool) (graceText : String) (polls killPolls t : Nat) : Stopped :=
  match waitForGone w record.pid polls (t + 1) with
  | (true, u) => ⟨.ok (), [⟨t, .terminate record.pid⟩, ⟨u, .removePidfile⟩]⟩
  | (false, u) =>
    if force then
      let rest := escalate w record graceText killPolls (u + 1)
      ⟨rest.result, ⟨t, .terminate record.pid⟩ :: rest.acts⟩
    else ⟨.error ("pid " ++ toString record.pid ++ " did not exit within " ++ graceText ++
      " after SIGTERM and is still running — pidfile kept; run `rqmd mcp stop --force` to kill it"),
      [⟨t, .terminate record.pid⟩]⟩

def signalTerminate (record : PidRecord) (force : Bool) (graceText : String) (polls killPolls t : Nat) : Stopped :=
  if signalled w t record.pid then afterTerminate w record force graceText polls killPolls t
  else ⟨.error ("failed to send SIGTERM to pid " ++ toString record.pid), [⟨t, .terminate record.pid⟩]⟩

def staleMessage (t : Nat) (record : PidRecord) : String :=
  match (checkRecordedProcess w t record).1 with
  | some (.differentStart actual recorded) => "MCP daemon pidfile was stale — removed it; not signalling pid " ++
      toString record.pid ++ ": " ++ (NotOurs.differentStart actual recorded).display
  | _ => "MCP daemon pidfile was stale (process no longer running) — removed it"

/-- `polls` and `killPolls` are how often the two waits poll after their first look before the grace is over. -/
def stopDaemonWith (own : Nat) (content : Option PidRecord) (pidfilePath : String) (force : Bool) (graceText : String)
    (polls killPolls : Nat) : Stopped :=
  match readPidfile own content with
  | none => ⟨.error "no MCP daemon is running for this index (no pidfile found)", []⟩
  | some record =>
    match verifyIdentity w 0 record with
    | (.stale, t) => ⟨.error (staleMessage w (t + 1) record), [⟨t, .removePidfile⟩]⟩
    | (.aliveUnverified why, _) => ⟨.error ("refusing to signal pid " ++ toString record.pid ++ ": it is running but " ++
        why.display ++ " — pidfile kept; if it is the daemon, stop it yourself, and if not, delete " ++ pidfilePath), []⟩
    | (.foreign health, _) => ⟨.error ("refusing to stop: port " ++ toString record.port ++ " is held by pid " ++
        toString health.pid ++ ", not the recorded pid " ++ toString record.pid ++
        " — the recorded daemon is gone and something else now owns this port"), []⟩
    | (.confirmed _, t) => signalTerminate w record force graceText polls killPolls t
    | (.aliveUnresponsive, t) => signalTerminate w record force graceText polls killPolls t

end Rqmd.Daemon
