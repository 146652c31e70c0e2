import Mathlib.Logic.Function.Basic
import Rqmd.Lib.Transition

/-! The index lock: a directory that names its owner, and a guard file whose `flock` the kernel drops with its
holder. Every call of `lock.rs` is cut into its file-system steps, which the processes of one host interleave. -/

namespace Rqmd
open Transition

/-- The largest `pid_t`. -/
def maxPid : Nat := 2147483647

/-- A process id that `kill(2)` reads as one process. -/
structure Pid where
  val : Nat
  positive : val ≠ 0
  bounded : val ≤ maxPid
deriving DecidableEq

/-- The files of the lock directory. -/
inductive LockFile where
  | pidTmp | pid | host | heartbeat
deriving DecidableEq

/-- The lock directory: of the `pid` file the number its text parses to, of `host` its trimmed text, of
`heartbeat` its modification time. The inode tells a recreated directory from the one before. -/
structure LockDir where
  inode : Nat
  creator : Pid
  pidTmp : Bool
  pid : Option (Option Nat)
  host : Option String
  heartbeat : Option Nat
  modified : Nat
deriving DecidableEq

namespace LockDir

def new (inode : Nat) (creator : Pid) (now : Nat) : LockDir := ⟨inode, creator, false, none, none, none, now⟩

def isEmpty (dir : LockDir) : Bool := !dir.pidTmp && dir.pid.isNone && dir.host.isNone && dir.heartbeat.isNone

def contains (dir : LockDir) : LockFile → Bool
  | .pidTmp => dir.pidTmp
  | .pid => dir.pid.isSome
  | .host => dir.host.isSome
  | .heartbeat => dir.heartbeat.isSome

def unlink (dir : LockDir) (now : Nat) : LockFile → LockDir
  | .pidTmp => { dir with pidTmp := false, modified := now }
  | .pid => { dir with pid := none, modified := now }
  | .host => { dir with host := none, modified := now }
  | .heartbeat => { dir with heartbeat := none, modified := now }

/-- `write_heartbeat`: only a new file touches the directory. -/
def writeHeartbeat (dir : LockDir) (now : Nat) : LockDir :=
  { dir with heartbeat := some now, modified := if dir.heartbeat.isSome then dir.modified else now }

def readPid (dir : LockDir) : Option Nat := dir.pid.join.filter fun pid => pid ≠ 0 ∧ pid ≤ maxPid

def heartbeatAge (dir : LockDir) (now : Nat) : Nat := now - dir.heartbeat.getD dir.modified

end LockDir

/-- What is known about the process holding a lock we could not prove dead. -/
structure Holder where
  pid : Option Nat
  host : Option String
  foreignHost : Bool
  heartbeatAge : Nat
deriving DecidableEq

inductive LockState where
  | absent
  | dead (pid : Option Nat)
  | held (holder : Holder)
deriving DecidableEq

/-- Seconds a directory without a readable pid counts as being made. -/
def unreadablePidGrace : Nat := 5

def inspect (pidIsAlive : Nat → Bool) (localHostname : Option String) (now : Nat) : Option LockDir → LockState
  | none => .absent
  | some dir =>
    let host := dir.host.filter (· ≠ "")
    let foreignHost := match host, localHostname with
      | some theirs, some ours => theirs != ours
      | _, _ => false
    let holder := ⟨dir.readPid, host, foreignHost, dir.heartbeatAge now⟩
    match dir.readPid with
    | none => if now - dir.modified < unreadablePidGrace then .held holder else .dead none
    | some pid => if foreignHost || pidIsAlive pid then .held holder else .dead (some pid)

/-- Whose `remove_dir_all` is under way. -/
inductive Removal where
  | reclaim | drop | force
deriving DecidableEq

/-- Where a process stands in `lock.rs`. -/
inductive Phase where
  | gone
  | idle
  | guarded
  | taken
  | recreating
  | created
  | pidWritten
  | published
  | hosted
  | stamped
  | holding
  | opening (removal : Removal)
  | removing (removal : Removal) (inode : Nat)
deriving DecidableEq

/-- One file-system step of a process, or what happens to it. -/
inductive LockAction where
  | tick | spawn | crash
  | lockGuard | createDir | alreadyExists | inspected
  | writePid | publishPid | writeHost | stamp | returned | failed
  | beat | drop | dropUnguarded | removeLock
  | openDir | unlink (file : LockFile) | removeDir | giveUp
deriving DecidableEq

/-- The lock directory, the guard and the processes of one host. -/
structure LockSystem where
  now : Nat
  localHostname : Option String
  dir : Option LockDir
  inodes : Nat
  guard : Option Pid
  phase : Pid → Phase

namespace LockSystem

def moved (s : LockSystem) (p : Pid) (phase : Phase) : LockSystem := { s with phase := Function.update s.phase p phase }

/-- The process lets go of the guard, where it has it. -/
def released (s : LockSystem) (p : Pid) : LockSystem := { s with guard := if s.guard = some p then none else s.guard }

def withDir (s : LockSystem) (change : LockDir → LockDir) : LockSystem := { s with dir := s.dir.map change }

def pidIsAlive (s : LockSystem) (pid : Nat) : Bool :=
  if valid : pid ≠ 0 ∧ pid ≤ maxPid then s.phase ⟨pid, valid.1, valid.2⟩ ≠ .gone else true

def lockState (s : LockSystem) : LockState := inspect s.pidIsAlive s.localHostname s.now s.dir

/-- After `remove_dir_all`, whether or not it succeeded. -/
def removed (s : LockSystem) (p : Pid) : Removal → LockSystem
  | .reclaim => s.moved p .recreating
  | .drop | .force => (s.moved p .idle).released p

/-- Whether the process can take the step. Under the guard any step of `try_acquire` can fail, and a removal can
give up anywhere. -/
def enabled (s : LockSystem) (p : Pid) : LockAction → Bool
  | .tick => true
  | .spawn => s.phase p = .gone
  | .crash => s.phase p ≠ .gone
  | .lockGuard => s.phase p = .idle ∧ s.guard = none
  | .createDir => (s.phase p = .guarded ∨ s.phase p = .recreating) ∧ s.dir = none
  | .alreadyExists => s.phase p = .guarded ∧ s.dir.isSome
  | .inspected => s.phase p = .taken
  | .writePid => s.phase p = .created ∧ s.dir.isSome
  | .publishPid => s.phase p = .pidWritten ∧ s.dir.any LockDir.pidTmp
  | .writeHost => s.phase p = .published ∧ (s.localHostname = none ∨ s.dir.isSome)
  | .stamp => s.phase p = .hosted ∧ s.dir.isSome
  | .returned => s.phase p = .stamped
  | .failed => s.phase p ∈ [.guarded, .recreating, .created, .pidWritten, .published, .hosted]
  | .beat => s.phase p = .holding
  | .drop => s.phase p = .holding ∧ s.guard = none
  | .dropUnguarded => s.phase p = .holding
  | .removeLock => s.phase p = .idle ∧ s.guard = none
  | .openDir => match s.phase p with
    | .opening _ => true
    | _ => false
  | .unlink _ | .removeDir => match s.phase p with
    | .removing _ _ => true
    | _ => false
  | .giveUp => match s.phase p with
    | .opening _ | .removing _ _ => true
    | _ => false

def next (s : LockSystem) (p : Pid) : LockAction → LockSystem
  | .tick => { s with now := s.now + 1 }
  | .spawn => s.moved p .idle
  | .crash => (s.moved p .gone).released p
  | .lockGuard => { s.moved p .guarded with guard := some p }
  | .createDir => { s.moved p .created with dir := some (.new s.inodes p s.now), inodes := s.inodes + 1 }
  | .alreadyExists => s.moved p .taken
  | .inspected => match s.lockState with
    | .held _ => (s.moved p .idle).released p
    | .absent | .dead _ => s.moved p (.opening .reclaim)
  | .writePid => (s.moved p .pidWritten).withDir fun dir => { dir with pidTmp := true, modified := s.now }
  | .publishPid => (s.moved p .published).withDir fun dir =>
      { dir with pidTmp := false, pid := some (some p.val), modified := s.now }
  | .writeHost => (s.moved p .hosted).withDir fun dir => match s.localHostname with
      | some host => { dir with host := some host, modified := s.now }
      | none => dir
  | .stamp => (s.moved p .stamped).withDir fun dir => dir.writeHeartbeat s.now
  | .returned => (s.moved p .holding).released p
  | .failed => (s.moved p .idle).released p
  | .beat => s.withDir fun dir => dir.writeHeartbeat s.now
  | .drop => { s.moved p (.opening .drop) with guard := some p }
  | .dropUnguarded => s.moved p (.opening .drop)
  | .removeLock => { s.moved p (.opening .force) with guard := some p }
  | .openDir => match s.phase p, s.dir with
    | .opening removal, some dir => s.moved p (.removing removal dir.inode)
    | .opening removal, none => s.removed p removal
    | _, _ => s
  | .unlink file => match s.phase p with
    | .removing _ inode => s.withDir fun dir => if dir.inode = inode then dir.unlink s.now file else dir
    | _ => s
  -- the directory itself goes by its path, and only when it is empty
  | .removeDir => match s.phase p with
    | .removing removal _ => { s.removed p removal with dir := s.dir.filter fun dir => !dir.isEmpty }
    | _ => s
  | .giveUp => match s.phase p with
    | .opening removal | .removing removal _ => s.removed p removal
    | _ => s

def Step (l : Pid × LockAction) (s n : LockSystem) : Prop := s.enabled l.1 l.2 ∧ n = s.next l.1 l.2

/-- The state after a list of steps, where each can be taken. -/
def run (s : LockSystem) : List (Pid × LockAction) → Option LockSystem
  | [] => some s
  | (p, action) :: rest => if s.enabled p action then (s.next p action).run rest else none

/-- No process is in `lock.rs`; of an earlier run the directory may be left, in any shape. -/
structure Quiet (s : LockSystem) : Prop where
  outside : ∀ p, s.phase p = .gone ∨ s.phase p = .idle
  guard : s.guard = none
  older : ∀ dir, s.dir = some dir → dir.inode < s.inodes

end LockSystem

end Rqmd
