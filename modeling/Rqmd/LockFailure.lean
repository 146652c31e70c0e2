import Rqmd.Lock

/-! One call of `try_acquire` whose file operations may fail. What it leaves behind is read back by the `inspect`
of a later call. -/

namespace Rqmd

/-- How the file operations of one call go. `removal` lists the files a failing `remove_dir_all` got rid of,
`host` what a failing write leaves of the host file, and `heartbeat` whether a failing write leaves the file. -/
structure AcquireFaults where
  guard : Bool
  createDir : Bool
  removal : Option (List LockFile)
  recreateDir : Bool
  createTmp : Bool
  writeTmp : Bool
  publish : Bool
  host : Option (Option String)
  heartbeat : Option Bool
deriving DecidableEq

def AcquireFaults.none : AcquireFaults := ⟨false, false, .none, false, false, false, false, .none, .none⟩

inductive AcquireResult where
  | acquired
  | heldBy (holder : Holder)
  | failed
deriving DecidableEq

/-- Who calls, on which host, with which inode a new directory would get, when, and who is alive. -/
structure Caller where
  own : Pid
  localHostname : Option String
  inode : Nat
  now : Nat
  alive : Nat → Bool

namespace Caller

variable (c : Caller)

def state (dir : Option LockDir) : LockState := inspect c.alive c.localHostname c.now dir

def tmpWritten (dir : LockDir) : LockDir := { dir with pidTmp := true, modified := c.now }

def published (dir : LockDir) : LockDir := { dir with pidTmp := false, pid := some (some c.own.val), modified := c.now }

/-- The host file and the heartbeat, once the pid is published. -/
def writeRest (f : AcquireFaults) (dir : LockDir) : AcquireResult × Option LockDir :=
  match c.localHostname, f.host with
  | some _, some left => (.failed, some { dir with host := left })
  | host, _ =>
    let hosted := { dir with host := host.or dir.host }
    match f.heartbeat with
    | some left => (.failed, some (if left then hosted.writeHeartbeat c.now else hosted))
    | none => (.acquired, some (hosted.writeHeartbeat c.now))

def writeMetadata (f : AcquireFaults) (dir : LockDir) : AcquireResult × Option LockDir :=
  if f.createTmp then (.failed, some dir)
  else if f.writeTmp || f.publish then (.failed, some (c.tmpWritten dir))
  else c.writeRest f (c.published dir)

def unlinkAll (dir : LockDir) (files : List LockFile) : LockDir := files.foldl (fun dir file => dir.unlink c.now file) dir

def reclaim (f : AcquireFaults) (dir : LockDir) : AcquireResult × Option LockDir :=
  match f.removal with
  | some files => (.failed, some (c.unlinkAll dir files))
  | none =>
    if f.recreateDir then (.failed, none) else c.writeMetadata f (.new c.inode c.own c.now)

def tryAcquire (f : AcquireFaults) (dir : Option LockDir) : AcquireResult × Option LockDir :=
  if f.guard || f.createDir then (.failed, dir)
  else match dir with
    | none => c.writeMetadata f (.new c.inode c.own c.now)
    | some found => match c.state (some found) with
      | .held holder => (.heldBy holder, some found)
      | _ => c.reclaim f found

end Caller

/-! ### What a directory says -/

/-- The host file names another host than this one. -/
def foreignHost (localHostname : Option String) (dir : LockDir) : Bool :=
  match dir.host.filter (· ≠ ""), localHostname with
  | some theirs, some ours => theirs != ours
  | _, _ => false

section Inspect

variable {alive : Nat → Bool} {localHostname : Option String} {now pid : Nat} {dir : LockDir} {holder : Holder}

theorem inspect_unread (unread : dir.readPid = none) : (∃ holder, inspect alive localHostname now (some dir) = .held holder) ↔
    now - dir.modified < unreadablePidGrace := by
  simp only [inspect, unread]
  by_cases young : now - dir.modified < unreadablePidGrace
  · simp [young]
  · simp [young]

theorem inspect_eq (read : dir.readPid = some pid) : inspect alive localHostname now (some dir) =
    if foreignHost localHostname dir || alive pid then
      .held ⟨some pid, dir.host.filter (· ≠ ""), foreignHost localHostname dir, dir.heartbeatAge now⟩
    else .dead (some pid) := by
  simp only [inspect, read]
  rfl

theorem inspect_read (read : dir.readPid = some pid) : (∃ holder, inspect alive localHostname now (some dir) = .held holder) ↔
    foreignHost localHostname dir = true ∨ alive pid = true := by
  rw [inspect_eq read]
  by_cases held : (foreignHost localHostname dir || alive pid) = true
  · rw [if_pos held]
    simpa using held
  · rw [if_neg held]
    simpa using held

theorem inspect_pid (held : inspect alive localHostname now (some dir) = .held holder) : holder.pid = dir.readPid := by
  cases read : dir.readPid with
  | none =>
    simp only [inspect, read] at held
    by_cases young : now - dir.modified < unreadablePidGrace
    · rw [if_pos young] at held
      rw [← LockState.held.inj held]
    · rw [if_neg young] at held
      cases held
  | some pid =>
    rw [inspect_eq read] at held
    by_cases named : (foreignHost localHostname dir || alive pid) = true
    · rw [if_pos named] at held
      rw [← LockState.held.inj held]
    · rw [if_neg named] at held
      cases held

end Inspect

/-- The directory names the process as a live holder. -/
def NamesHolder (c : Caller) (dir : Option LockDir) : Prop := ∃ holder, c.state dir = .held holder ∧ holder.pid = some c.own.val

def readPidOf (dir : Option LockDir) : Option Nat := dir.bind LockDir.readPid

variable {c : Caller} {f : AcquireFaults} {dir : Option LockDir} {found : LockDir}

/-- A live process is named as holder exactly where its pid can be read. -/
theorem namesHolder_iff (alive : c.alive c.own.val = true) : NamesHolder c dir ↔ readPidOf dir = some c.own.val := by
  cases dir with
  | none => simp [NamesHolder, readPidOf, Caller.state, inspect]
  | some found =>
    constructor
    · intro named
      obtain ⟨holder, held, same⟩ := named
      exact (inspect_pid held).symm.trans same
    · intro read
      obtain ⟨holder, held⟩ := (inspect_read read).mpr (.inr alive)
      exact ⟨holder, held, (inspect_pid held).trans read⟩

/-! ### What a call leaves -/

/-- The pid is published and a later write fails. -/
def AcquireFaults.afterPublish (f : AcquireFaults) (localHostname : Option String) : Bool :=
  !f.createTmp && !f.writeTmp && !f.publish && (localHostname.isSome && f.host.isSome || f.heartbeat.isSome)

/-- The call gets as far as a directory of its own. -/
def Caller.creates (c : Caller) (f : AcquireFaults) (dir : Option LockDir) : Bool :=
  !f.guard && !f.createDir && match c.state dir with
    | .absent => true
    | .dead _ => f.removal.isNone && !f.recreateDir
    | .held _ => false

@[simp] theorem readPid_published (dir : LockDir) : (c.published dir).readPid = some c.own.val := by
  have valid : c.own.val ≠ 0 ∧ c.own.val ≤ maxPid := ⟨c.own.positive, c.own.bounded⟩
  simp [Caller.published, LockDir.readPid, valid]

@[simp] theorem readPid_writeHeartbeat (dir : LockDir) (now : Nat) : (dir.writeHeartbeat now).readPid = dir.readPid := rfl

@[simp] theorem readPid_host (dir : LockDir) (host : Option String) : ({ dir with host := host } : LockDir).readPid = dir.readPid := rfl

theorem writeRest_spec (dir : LockDir) : readPidOf (c.writeRest f dir).2 = dir.readPid ∧
    ((c.writeRest f dir).1 = .acquired ↔ ¬ (c.localHostname.isSome && f.host.isSome || f.heartbeat.isSome) = true) := by
  unfold Caller.writeRest
  cases c.localHostname with
  | none =>
    cases f.heartbeat with
    | none => simp [readPidOf]
    | some left => cases left <;> simp [readPidOf]
  | some ours =>
    cases f.host with
    | some left => simp [readPidOf]
    | none =>
      cases f.heartbeat with
      | none => simp [readPidOf]
      | some left => cases left <;> simp [readPidOf]

/-- A call that fails in its own directory names itself there exactly if the pid was published. -/
theorem writeMetadata_spec (dir : LockDir) (unread : dir.pid = none) (failed : (c.writeMetadata f dir).1 ≠ .acquired) :
    readPidOf (c.writeMetadata f dir).2 = if f.afterPublish c.localHostname then some c.own.val else none := by
  have nothing : dir.readPid = none := by simp [LockDir.readPid, unread]
  unfold Caller.writeMetadata AcquireFaults.afterPublish at *
  cases tmp : f.createTmp with
  | true => simpa [tmp, readPidOf] using nothing
  | false =>
    cases early : f.writeTmp || f.publish with
    | true =>
      rcases Bool.or_eq_true_iff.mp early with failing | failing
      · simpa [tmp, failing, readPidOf, Caller.tmpWritten, LockDir.readPid] using nothing
      · simpa [tmp, failing, readPidOf, Caller.tmpWritten, LockDir.readPid] using nothing
    | false =>
      obtain ⟨written, published⟩ := Bool.or_eq_false_iff.mp early
      simp only [tmp, written, published, Bool.or_self, Bool.false_eq_true, if_false, Bool.not_false, Bool.true_and] at failed ⊢
      obtain ⟨read, acquired⟩ := writeRest_spec (c := c) (f := f) (c.published dir)
      rw [read, readPid_published]
      have late := not_not.mp fun fine => failed (acquired.mpr fine)
      rw [if_pos late]

theorem readPid_unlink (dir : LockDir) (now : Nat) (file : LockFile) :
    (dir.unlink now file).readPid = dir.readPid ∨ (dir.unlink now file).readPid = none := by
  cases file with
  | pid => exact .inr rfl
  | pidTmp | host | heartbeat => exact .inl rfl

theorem readPid_unlinkAll (dir : LockDir) (files : List LockFile) :
    (c.unlinkAll dir files).readPid = dir.readPid ∨ (c.unlinkAll dir files).readPid = none := by
  unfold Caller.unlinkAll
  induction files generalizing dir with
  | nil => exact .inl rfl
  | cons file rest ih =>
    rw [List.foldl_cons]
    rcases ih (dir.unlink c.now file) with same | gone
    · rw [same]
      exact readPid_unlink dir c.now file
    · exact .inr gone

theorem state_ne_absent : c.state (some found) ≠ .absent := by
  unfold Caller.state
  cases read : found.readPid with
  | none =>
    simp only [inspect, read]
    split <;> exact LockState.noConfusion
  | some pid =>
    rw [inspect_eq read]
    split <;> exact LockState.noConfusion

/-- After a call that did not get the lock, the caller's pid stands in the directory if it stood there before or was
published in it. -/
theorem tryAcquire_left (alive : c.alive c.own.val = true) (failed : (c.tryAcquire f dir).1 ≠ .acquired) :
    readPidOf (c.tryAcquire f dir).2 = some c.own.val ↔
      readPidOf dir = some c.own.val ∨ c.creates f dir = true ∧ f.afterPublish c.localHostname = true := by
  unfold Caller.tryAcquire Caller.creates at *
  cases early : f.guard || f.createDir with
  | true =>
    have none : (!f.guard && !f.createDir) = false := by
      rw [← Bool.not_or, early]
      rfl
    simp [none]
  | false =>
    obtain ⟨guard, createDir⟩ := Bool.or_eq_false_iff.mp early
    simp only [guard, createDir, Bool.false_eq_true, if_false, Bool.not_false, Bool.true_and] at failed ⊢
    cases dir with
    | none =>
      simp only at failed ⊢
      rw [writeMetadata_spec (LockDir.new c.inode c.own c.now) rfl failed]
      have absent : c.state none = .absent := rfl
      simp [readPidOf, absent]
    | some found =>
      cases state : c.state (some found) with
      | absent => exact (state_ne_absent state).elim
      | held holder => simp [state]
      | dead pid =>
        have other : readPidOf (some found) ≠ some c.own.val := by
          intro own
          obtain ⟨holder, held, -⟩ := (namesHolder_iff alive).mpr own
          rw [state] at held
          cases held
        simp only [state, other, false_or] at failed ⊢
        unfold Caller.reclaim at failed ⊢
        cases removal : f.removal with
        | some files =>
          simp only [Option.isNone_some, Bool.false_and, Bool.false_eq_true, false_and, iff_false]
          rcases readPid_unlinkAll (c := c) found files with same | gone
          · simpa [readPidOf, same] using other
          · simp [readPidOf, gone]
        | none =>
          simp only [removal] at failed
          cases recreate : f.recreateDir with
          | true => simp [readPidOf]
          | false =>
            simp only [recreate, Bool.false_eq_true, if_false] at failed ⊢
            rw [writeMetadata_spec (LockDir.new c.inode c.own c.now) rfl failed]
            simp

/-! ### The call that comes next -/

/-- A later call on the same host, with nobody but the first caller to hold the lock: no other live process is
named, no other host, and no directory is too young to tell. -/
structure NobodyElse (r c : Caller) (left : Option LockDir) : Prop where
  here : ∀ dir, left = some dir → foreignHost r.localHostname dir = false
  others : ∀ pid, readPidOf left = some pid → r.alive pid = true → pid = c.own.val
  aged : ∀ dir, left = some dir → dir.readPid = none → unreadablePidGrace ≤ r.now - dir.modified

theorem retry_acquires {r : Caller} {left : Option LockDir} (free : ∀ holder, r.state left ≠ .held holder) :
    (r.tryAcquire .none left).1 = .acquired := by
  have made : ∀ dir, (r.writeMetadata .none dir).1 = .acquired := by
    intro dir
    exact (writeRest_spec (c := r) (f := .none) (r.published dir)).2.mpr (by simp [AcquireFaults.none])
  cases left with
  | none => exact made _
  | some dir =>
    have open' : (r.tryAcquire .none (some dir)) = match r.state (some dir) with
        | .held holder => (.heldBy holder, some dir)
        | _ => r.reclaim .none dir := rfl
    cases state : r.state (some dir) with
    | absent => exact (state_ne_absent state).elim
    | held holder => exact (free holder state).elim
    | dead pid =>
      rw [open', state]
      exact made _

/-- The call leaves nothing in the caller's name, and the next one succeeds once there is nobody else. -/
def LeavesNothing (c : Caller) (f : AcquireFaults) (dir : Option LockDir) : Prop :=
  ¬ NamesHolder c (c.tryAcquire f dir).2 ∧
    ∀ r : Caller, NobodyElse r c (c.tryAcquire f dir).2 → (r.tryAcquire .none (c.tryAcquire f dir).2).1 = .acquired

/-- The process 104 of `desk`, alone. -/
def lone (now : Nat) : Caller := ⟨⟨104, by decide, by decide⟩, some "desk", 0, now, fun pid => pid == 104⟩

end Rqmd
