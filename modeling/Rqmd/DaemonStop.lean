import Rqmd.Daemon

/-! What a stop does to whom: SIGTERM and SIGKILL reach only a process that was recognised in the same instant,
and the pidfile goes only once the process is gone or its pid is another's. -/

namespace Rqmd.Daemon

variable {w : Surroundings} {record : PidRecord} {graceText : String} {s t u pid polls killPolls : Nat} {act : Act}

/-- A health answer from loopback names a process that is there and listens on that port. -/
def Surroundings.Honest (w : Surroundings) : Prop :=
  ∀ t host port health, isLoopback host → w.health t host port = some health →
    ∃ p, w.table t health.pid = some p ∧ port ∈ p.serves

/-- The start of the process agrees with the recorded one, within the slack. -/
def StartMatches (record : PidRecord) (p : Process) : Prop :=
  ∃ actual recorded, p.start = some actual ∧ record.processStartUnix = some recorded ∧
    absDiff actual recorded ≤ startTimeSlackSecs

def StartDiffers (record : PidRecord) (p : Process) : Prop :=
  ∃ actual recorded, p.start = some actual ∧ record.processStartUnix = some recorded ∧
    startTimeSlackSecs < absDiff actual recorded

/-! ### Looks -/

theorem check_none (checked : checkRecordedProcess w t record = (none, u)) :
    t ≤ u ∧ ∃ p, w.table u record.pid = some p ∧ StartMatches record p := by
  unfold checkRecordedProcess at checked
  by_cases alive : pidAlive w t record.pid = true
  · rw [if_pos alive] at checked
    cases recorded : record.processStartUnix with
    | none => simp [recorded] at checked
    | some start =>
      cases found : processStartTime w (t + 1) record.pid with
      | none => simp [recorded, found] at checked
      | some actual =>
        simp only [recorded, found] at checked
        by_cases far : startTimeSlackSecs < absDiff actual start
        · simp [far] at checked
        · rw [if_neg far] at checked
          have instant : t + 1 = u := congrArg Prod.snd checked
          obtain ⟨p, present, same⟩ := Option.bind_eq_some_iff.mp found
          exact ⟨by omega, p, instant ▸ present, actual, start, same, recorded, by omega⟩
  · rw [if_neg alive] at checked
    cases checked

theorem check_gone (checked : checkRecordedProcess w t record = (some .gone, u)) :
    t ≤ u ∧ w.table u record.pid = none := by
  unfold checkRecordedProcess at checked
  by_cases alive : pidAlive w t record.pid = true
  · rw [if_pos alive] at checked
    cases recorded : record.processStartUnix with
    | none => simp [recorded] at checked
    | some start =>
      cases found : processStartTime w (t + 1) record.pid with
      | none => simp [recorded, found] at checked
      | some actual =>
        simp only [recorded, found] at checked
        by_cases far : startTimeSlackSecs < absDiff actual start
        · simp [far] at checked
        · simp [far] at checked
  · rw [if_neg alive] at checked
    have instant : t = u := congrArg Prod.snd checked
    rw [← instant]
    exact ⟨Nat.le_refl t, by simpa [pidAlive] using alive⟩

theorem check_different {actual start : Nat} (checked : checkRecordedProcess w t record = (some (.differentStart actual start), u)) :
    ∃ p, w.table u record.pid = some p ∧ StartDiffers record p := by
  unfold checkRecordedProcess at checked
  by_cases alive : pidAlive w t record.pid = true
  · rw [if_pos alive] at checked
    cases recorded : record.processStartUnix with
    | none => simp [recorded] at checked
    | some start' =>
      cases found : processStartTime w (t + 1) record.pid with
      | none => simp [recorded, found] at checked
      | some actual' =>
        simp only [recorded, found] at checked
        by_cases far : startTimeSlackSecs < absDiff actual' start'
        · rw [if_pos far] at checked
          have instant : t + 1 = u := congrArg Prod.snd checked
          obtain ⟨p, present, same⟩ := Option.bind_eq_some_iff.mp found
          exact ⟨p, instant ▸ present, actual', start', same, recorded, far⟩
        · simp [far] at checked
  · rw [if_neg alive] at checked
    cases checked

theorem wait_spec {gone : Bool} (waited : waitForGone w pid polls t = (gone, u)) :
    t ≤ u ∧ (gone = true → signalled w u pid = false) := by
  induction polls generalizing t with
  | zero =>
    have both := Prod.mk.inj waited
    refine ⟨by omega, fun left => ?_⟩
    rw [← both.1] at left
    rw [← both.2]
    simpa using left
  | succ polls ih =>
    rw [waitForGone] at waited
    by_cases there : signalled w t pid = true
    · rw [if_pos there] at waited
      have rest := ih waited
      exact ⟨by omega, rest.2⟩
    · rw [if_neg there] at waited
      have both := Prod.mk.inj waited
      exact ⟨by omega, fun _ => both.2 ▸ by simpa using there⟩

/-- A pid that took a signal and no longer does is gone or another process's. -/
theorem left_of_signalled (sent : signalled w s pid = true) (later : signalled w t pid = false) :
    w.table t pid = none ∨ ∃ p q, w.table s pid = some p ∧ w.table t pid = some q ∧ p.ident ≠ q.ident := by
  unfold signalled at sent later
  cases before : w.table s pid with
  | none => simp [before] at sent
  | some p =>
    cases after : w.table t pid with
    | none => exact .inl rfl
    | some q =>
      refine .inr ⟨p, q, rfl, rfl, fun same => ?_⟩
      have equal : p = q := w.steady before after same
      rw [before, equal] at sent
      rw [after] at later
      simp only [Option.any_some] at sent later
      rw [sent] at later
      cases later

/-! ### Acts -/

/-- The recorded process is gone at `t`, or its pid belongs to another: the one there started at another time, or
is not the one that took a signal at `s`. -/
def Cleared (w : Surroundings) (record : PidRecord) (acts : List Act) (t : Nat) : Prop :=
  w.table t record.pid = none ∨ (∃ p, w.table t record.pid = some p ∧ StartDiffers record p) ∨
    ∃ s p q, s < t ∧ (⟨s, .terminate record.pid⟩ ∈ acts ∨ ⟨s, .kill record.pid⟩ ∈ acts) ∧
      w.table s record.pid = some p ∧ w.table t record.pid = some q ∧ p.ident ≠ q.ident

theorem Cleared.mono {acts more : List Act} (cleared : Cleared w record acts t) (grows : acts ⊆ more) :
    Cleared w record more t := by
  rcases cleared with gone | differs | ⟨s, p, q, before, sent, rest⟩
  · exact .inl gone
  · exact .inr (.inl differs)
  · exact .inr (.inr ⟨s, p, q, before, sent.imp (fun m => grows m) (fun m => grows m), rest⟩)

theorem cleared_of_left {acts : List Act} (before : s < t)
    (sent : ⟨s, .terminate record.pid⟩ ∈ acts ∨ ⟨s, .kill record.pid⟩ ∈ acts) (took : signalled w s record.pid = true)
    (later : signalled w t record.pid = false) : Cleared w record acts t := by
  rcases left_of_signalled took later with gone | ⟨p, q, first, second, apart⟩
  · exact .inl gone
  · exact .inr (.inr ⟨s, p, q, before, sent, first, second, apart⟩)

theorem afterKill_spec (took : signalled w t record.pid = true) (member : act ∈ (afterKill w record graceText polls t).acts) :
    act = ⟨t, .kill record.pid⟩ ∨
      act.action = .removePidfile ∧ Cleared w record (afterKill w record graceText polls t).acts act.instant := by
  unfold afterKill at member ⊢
  cases waited : waitForGone w record.pid polls (t + 1) with
  | mk gone u =>
    have spec := wait_spec waited
    cases gone with
    | true =>
      simp only [waited, List.mem_cons, List.not_mem_nil, or_false] at member
      rcases member with rfl | rfl
      · exact .inl rfl
      · exact .inr ⟨rfl, cleared_of_left (show t < u by omega) (.inr List.mem_cons_self) took (spec.2 rfl)⟩
    | false =>
      simp only [waited, List.mem_singleton] at member
      exact .inl member

theorem escalate_spec (member : act ∈ (escalate w record graceText polls t).acts) :
    (act.action = .kill record.pid ∧ checkRecordedProcess w t record = (none, act.instant)) ∨
      act.action = .removePidfile ∧ Cleared w record (escalate w record graceText polls t).acts act.instant := by
  unfold escalate at member ⊢
  cases checked : checkRecordedProcess w t record with
  | mk verdict u =>
    cases verdict with
    | none =>
      simp only [checked] at member ⊢
      by_cases took : signalled w u record.pid = true
      · rw [if_pos took] at member ⊢
        rcases afterKill_spec took member with same | removed
        · exact .inl ⟨by rw [same], by rw [same]⟩
        · exact .inr removed
      · rw [if_neg took] at member ⊢
        have same := List.mem_singleton.mp member
        exact .inl ⟨by rw [same], by rw [same]⟩
    | some why =>
      cases why with
      | gone =>
        simp only [checked] at member ⊢
        have same := List.mem_singleton.mp member
        rw [same]
        exact .inr ⟨rfl, .inl (check_gone checked).2⟩
      | noRecordedStart => simp [checked] at member
      | unreadableStart => simp [checked] at member
      | differentStart actual recorded => simp [checked] at member

/-- What a stop does from SIGTERM at `t` on. -/
theorem signalTerminate_spec {force : Bool} (member : act ∈ (signalTerminate w record force graceText polls killPolls t).acts) :
    act = ⟨t, .terminate record.pid⟩ ∨
      (act.action = .kill record.pid ∧ force = true ∧ ⟨t, .terminate record.pid⟩ ∈
          (signalTerminate w record force graceText polls killPolls t).acts ∧
        ∃ u, t < u ∧ checkRecordedProcess w u record = (none, act.instant)) ∨
      act.action = .removePidfile ∧
        Cleared w record (signalTerminate w record force graceText polls killPolls t).acts act.instant := by
  unfold signalTerminate at member ⊢
  by_cases took : signalled w t record.pid = true
  · rw [if_pos took] at member ⊢
    unfold afterTerminate at member ⊢
    cases waited : waitForGone w record.pid polls (t + 1) with
    | mk gone u =>
      have spec := wait_spec waited
      cases gone with
      | true =>
        simp only [waited, List.mem_cons, List.not_mem_nil, or_false] at member ⊢
        rcases member with rfl | rfl
        · exact .inl rfl
        · exact .inr (.inr ⟨rfl, cleared_of_left (show t < u by omega) (.inl List.mem_cons_self) took (spec.2 rfl)⟩)
      | false =>
        simp only [waited] at member ⊢
        cases force with
        | false =>
          have same := List.mem_singleton.mp member
          exact .inl same
        | true =>
          simp only [if_true] at member ⊢
          rcases List.mem_cons.mp member with same | later
          · exact .inl same
          · rcases escalate_spec later with killed | removed
            · exact .inr (.inl ⟨killed.1, trivial, List.mem_cons_self, u + 1, by omega, killed.2⟩)
            · exact .inr (.inr ⟨removed.1, removed.2.mono (List.subset_cons_self _ _)⟩)
  · rw [if_neg took] at member
    exact .inl (List.mem_singleton.mp member)

/-! ### Identity -/

/-- The daemon is there at `t`: it listens on the recorded port of loopback, or started when recorded. -/
def Recognised (w : Surroundings) (record : PidRecord) (t : Nat) : Prop :=
  ∃ p, w.table t record.pid = some p ∧ (isLoopback record.host = true ∧ record.port ∈ p.serves ∨ StartMatches record p)

theorem recognised_of_check (checked : checkRecordedProcess w t record = (none, u)) : Recognised w record u := by
  obtain ⟨-, p, present, start⟩ := check_none checked
  exact ⟨p, present, .inr start⟩

/-- Without an answer the identity is what the check of the process says. -/
theorem withoutHealth_cases {identity : Identity} (found : identityWithoutHealth w t record = (identity, u)) :
    (identity = .aliveUnresponsive ∧ Recognised w record u) ∨ (∃ why, identity = .aliveUnverified why) ∨
      identity = .stale ∧ (w.table u record.pid = none ∨ ∃ p, w.table u record.pid = some p ∧ StartDiffers record p) := by
  unfold identityWithoutHealth at found
  cases checked : checkRecordedProcess w t record with
  | mk verdict v =>
    rw [checked] at found
    cases verdict with
    | none =>
      obtain ⟨rfl, rfl⟩ := Prod.mk.inj found
      exact .inl ⟨rfl, recognised_of_check checked⟩
    | some why =>
      cases why with
      | gone =>
        obtain ⟨rfl, rfl⟩ := Prod.mk.inj found
        exact .inr (.inr ⟨rfl, .inl (check_gone checked).2⟩)
      | differentStart actual recorded =>
        obtain ⟨rfl, rfl⟩ := Prod.mk.inj found
        exact .inr (.inr ⟨rfl, .inr (check_different checked)⟩)
      | noRecordedStart =>
        obtain ⟨rfl, rfl⟩ := Prod.mk.inj found
        exact .inr (.inl ⟨_, rfl⟩)
      | unreadableStart =>
        obtain ⟨rfl, rfl⟩ := Prod.mk.inj found
        exact .inr (.inl ⟨_, rfl⟩)

/-- An identity is confirmed by loopback or by the check, foreign, or found without `/health`. -/
theorem verify_cases (honest : w.Honest) {identity : Identity} (found : verifyIdentity w t record = (identity, u)) :
    (∃ health, identity = .confirmed health ∧ Recognised w record u) ∨ (∃ health, identity = .foreign health) ∨
      ∃ v, identityWithoutHealth w v record = (identity, u) := by
  unfold verifyIdentity at found
  cases answered : w.health t record.host record.port with
  | none =>
    rw [answered] at found
    exact .inr (.inr ⟨_, found⟩)
  | some health =>
    simp only [answered] at found
    by_cases own : health.pid = record.pid
    · rw [if_pos own] at found
      by_cases near : isLoopback record.host = true
      · rw [if_pos near] at found
        obtain ⟨rfl, rfl⟩ := Prod.mk.inj found
        obtain ⟨p, present, serves⟩ := honest t _ _ health near answered
        exact .inl ⟨health, rfl, p, own ▸ present, .inl ⟨near, serves⟩⟩
      · rw [if_neg near] at found
        cases checked : checkRecordedProcess w (t + 1) record with
        | mk verdict v =>
          rw [checked] at found
          cases verdict with
          | none =>
            obtain ⟨rfl, rfl⟩ := Prod.mk.inj found
            exact .inl ⟨health, rfl, recognised_of_check checked⟩
          | some why => exact .inr (.inr ⟨_, found⟩)
    · rw [if_neg own] at found
      exact .inr (.inl ⟨health, (Prod.mk.inj found).1.symm⟩)

/-- The verdicts a signal may follow. -/
def Identity.isDaemon : Identity → Bool
  | .confirmed _ => true
  | .aliveUnresponsive => true
  | _ => false

theorem recognised_of_isDaemon (honest : w.Honest) {identity : Identity}
    (found : verifyIdentity w t record = (identity, u)) (daemon : identity.isDaemon = true) : Recognised w record u := by
  rcases verify_cases honest found with confirmed | foreign | ⟨v, without⟩
  · obtain ⟨_, -, recognised⟩ := confirmed
    exact recognised
  · obtain ⟨_, rfl⟩ := foreign
    cases daemon
  · rcases withoutHealth_cases without with unresponsive | unverified | stale
    · exact unresponsive.2
    · obtain ⟨_, rfl⟩ := unverified
      cases daemon
    · rw [stale.1] at daemon
      cases daemon

theorem cleared_of_stale (honest : w.Honest) {acts : List Act} (found : verifyIdentity w t record = (.stale, u)) :
    Cleared w record acts u := by
  rcases verify_cases honest found with ⟨_, impossible, -⟩ | ⟨_, impossible⟩ | ⟨v, without⟩
  · cases impossible
  · cases impossible
  · rcases withoutHealth_cases without with ⟨impossible, -⟩ | ⟨_, impossible⟩ | stale
    · cases impossible
    · cases impossible
    · exact stale.2.imp id .inl

/-! ### The stop -/

/-- What a stop with the record `record` may do, to whom and when. -/
structure Spares (w : Surroundings) (record : PidRecord) (force : Bool) (acts : List Act) : Prop where
  terminate : ∀ t pid, ⟨t, .terminate pid⟩ ∈ acts → pid = record.pid ∧ Recognised w record t ∧
    ∃ identity, verifyIdentity w 0 record = (identity, t) ∧ identity.isDaemon
  kill : ∀ t pid, ⟨t, .kill pid⟩ ∈ acts → pid = record.pid ∧ force = true ∧
    (∃ p, w.table t record.pid = some p ∧ StartMatches record p) ∧
    ∃ s u, ⟨s, .terminate pid⟩ ∈ acts ∧ s < u ∧ checkRecordedProcess w u record = (none, t)
  spared : (verifyIdentity w 0 record).1.isDaemon = false → ∀ t pid, ⟨t, .terminate pid⟩ ∉ acts ∧ ⟨t, .kill pid⟩ ∉ acts
  removes : ∀ t, ⟨t, .removePidfile⟩ ∈ acts → Cleared w record acts t

theorem signalTerminate_spares (honest : w.Honest) {force : Bool} {identity : Identity}
    (found : verifyIdentity w 0 record = (identity, t)) (daemon : identity.isDaemon = true) :
    Spares w record force (signalTerminate w record force graceText polls killPolls t).acts where
  terminate s pid member := by
    rcases signalTerminate_spec member with same | ⟨impossible, -⟩ | ⟨impossible, -⟩
    · obtain ⟨rfl, rest⟩ := Act.mk.inj same
      exact ⟨Action.terminate.inj rest, recognised_of_isDaemon honest found daemon, identity, found, daemon⟩
    · cases impossible
    · cases impossible
  kill s pid member := by
    rcases signalTerminate_spec member with impossible | ⟨same, forced, sent, u, later, checked⟩ | ⟨impossible, -⟩
    · cases impossible
    · have equal : pid = record.pid := Action.kill.inj same
      exact ⟨equal, forced, (check_none checked).2, t, u, equal ▸ sent, later, checked⟩
    · cases impossible
  spared other := by
    rw [found, daemon] at other
    cases other
  removes s member := by
    rcases signalTerminate_spec member with impossible | ⟨impossible, -⟩ | ⟨-, cleared⟩
    · cases impossible
    · cases impossible
    · exact cleared

/-- A stop that only says why. -/
theorem spares_nothing {force : Bool} : Spares w record force [] where
  terminate _ _ member := (List.not_mem_nil member).elim
  kill _ _ member := (List.not_mem_nil member).elim
  spared _ _ _ := ⟨List.not_mem_nil, List.not_mem_nil⟩
  removes _ member := (List.not_mem_nil member).elim

/-- Whatever the pidfile says, whatever `/health` answers and however processes come and go. -/
theorem stop_spares_strangers (w : Surroundings) (honest : w.Honest) (own : Nat) (content : Option PidRecord)
    (pidfilePath : String) (force : Bool) (graceText : String) (polls killPolls : Nat) :
    let acts := (stopDaemonWith w own content pidfilePath force graceText polls killPolls).acts
    (readPidfile own content = none → acts = []) ∧ ∀ record, readPidfile own content = some record → Spares w record force acts := by
  dsimp only
  unfold stopDaemonWith
  cases read : readPidfile own content with
  | none => exact ⟨fun _ => rfl, fun record impossible => (by cases impossible)⟩
  | some record =>
    refine ⟨fun impossible => (by cases impossible), fun other same => ?_⟩
    obtain rfl : record = other := Option.some.inj same
    cases found : verifyIdentity w 0 record with
    | mk identity t =>
      cases identity with
      | confirmed health =>
        simp only [found]
        exact signalTerminate_spares honest found rfl
      | aliveUnresponsive =>
        simp only [found]
        exact signalTerminate_spares honest found rfl
      | aliveUnverified why =>
        simp only [found]
        exact spares_nothing
      | foreign health =>
        simp only [found]
        exact spares_nothing
      | stale =>
        simp only [found]
        constructor
        · intro s pid member
          cases List.mem_singleton.mp member
        · intro s pid member
          cases List.mem_singleton.mp member
        · intro _ s pid
          simp
        · intro s member
          obtain ⟨rfl, -⟩ := Act.mk.inj (List.mem_singleton.mp member)
          exact cleared_of_stale honest found

/-- A daemon on loopback that takes SIGTERM, lingers past the grace and is killed. -/
def lingering : Surroundings where
  table t pid := if pid = 77 ∧ t < 9 then some ⟨1, some 1000, true, [8181]⟩ else none
  health t _ port := if port = 8181 ∧ t < 9 then some ⟨77, "/index"⟩ else none
  steady {s t pid other p q} first second _ := by
    have value : ∀ t pid r, (if pid = 77 ∧ t < 9 then some (⟨1, some 1000, true, [8181]⟩ : Process) else none) = some r →
        (⟨1, some 1000, true, [8181]⟩ : Process) = r := by
      intro t pid r found
      by_cases there : pid = 77 ∧ t < 9
      · rw [if_pos there] at found
        exact Option.some.inj found
      · rw [if_neg there] at found
        cases found
    exact (value _ _ _ first).symm.trans (value _ _ _ second)

theorem lingering_honest : lingering.Honest := by
  intro t host port health _ answered
  simp only [lingering, Option.ite_none_right_eq_some] at answered
  obtain ⟨⟨rfl, early⟩, same⟩ := answered
  have answers : health = ⟨77, "/index"⟩ := (Option.some.inj same).symm
  rw [answers]
  exact ⟨⟨1, some 1000, true, [8181]⟩, if_pos ⟨rfl, early⟩, List.mem_cons_self⟩

theorem stop_spares_lingering :
    (stopDaemonWith lingering 5 (some ⟨77, "127.0.0.1", 8181, some 1000⟩) "/index/mcp.pid" true "5s" 3 3).acts =
        [⟨0, .terminate 77⟩, ⟨6, .kill 77⟩, ⟨9, .removePidfile⟩] ∧
      let acts := (stopDaemonWith lingering 5 (some ⟨77, "127.0.0.1", 8181, some 1000⟩) "/index/mcp.pid" true "5s" 3 3).acts
      (readPidfile 5 (some ⟨77, "127.0.0.1", 8181, some 1000⟩) = none → acts = []) ∧
        ∀ record, readPidfile 5 (some ⟨77, "127.0.0.1", 8181, some 1000⟩) = some record → Spares lingering record true acts :=
  ⟨by decide +kernel, stop_spares_strangers lingering lingering_honest 5 _ "/index/mcp.pid" true "5s" 3 3⟩

end Rqmd.Daemon
