import Rqmd.HttpFront
import Rqmd.Lib.Transition

/-! The idle exit of the HTTP server. Requests begin, are answered and end in any order while one task sleeps and looks;
it ends the server when no request has been in progress for the whole idle period, and then soon. -/

namespace Rqmd
open Transition

/-- Requests in progress, and when one last began or ended. -/
structure Activity where
  inProgress : Nat
  last : Nat
deriving DecidableEq

namespace Activity

def new (now : Nat) : Activity := ⟨0, now⟩

def begin (activity : Activity) (now : Nat) : Activity := ⟨activity.inProgress + 1, now⟩

/-- The drop of a `Busy`. -/
def drop (activity : Activity) (now : Nat) : Activity := ⟨activity.inProgress - 1, now⟩

def idleFor (activity : Activity) (now : Nat) : Option Nat :=
  if activity.inProgress = 0 then some (now - activity.last) else none

/-- One turn of `idle_expired`: how long to sleep before the next, or none where the server has been idle long enough. -/
def idleTurn (activity : Activity) (ttl now : Nat) : Option Nat :=
  match activity.idleFor now with
  | some idle => if ttl ≤ idle then none else some (ttl - idle)
  | none => some ttl

/-- The task returns when the idle period has passed without a request, and else sleeps no longer than to its end. -/
theorem idleTurn_cases {activity : Activity} {ttl now : Nat} (past : activity.last ≤ now) :
    (activity.idleTurn ttl now = none → activity.inProgress = 0 ∧ activity.last + ttl ≤ now) ∧
      ∀ time, activity.idleTurn ttl now = some time → time ≤ ttl ∧
        (activity.inProgress = 0 → now + time ≤ activity.last + ttl) := by
  unfold idleTurn idleFor
  by_cases none : activity.inProgress = 0
  · simp only [none, if_true]
    by_cases long : ttl ≤ now - activity.last
    · rw [if_pos long]
      refine ⟨fun _ => ⟨trivial, by omega⟩, fun time never => ?_⟩
      cases never
    · rw [if_neg long]
      refine ⟨fun never => (by cases never), fun time slept => ?_⟩
      obtain rfl := Option.some.inj slept
      exact ⟨by omega, fun _ => by omega⟩
  · simp only [none, if_false]
    refine ⟨fun never => (by cases never), fun time slept => ?_⟩
    obtain rfl := Option.some.inj slept
    exact ⟨Nat.le_refl _, fun idle => absurd idle id⟩

end Activity

def isMcpPath (path : String) : Bool := path == "/mcp" || "/mcp/".toList.isPrefixOf path.toList

/-- A request that `track_activity` counts. `busy` tells that it holds its `Busy`; `over` that its response has ended. -/
structure OpenRequest where
  post : Bool
  answered : Bool
  ended : Bool
  busy : Bool
deriving DecidableEq

/-- `wake` is when the idle task looks next, and none once it has returned; `touches` are the times the server began and
requests to it began or ended. -/
structure HttpServer where
  now : Nat
  activity : Activity
  requests : List OpenRequest
  wake : Option Nat
  touches : List Nat
deriving DecidableEq

inductive HttpEvent where
  | elapse (time : Nat)
  | request (req : HttpRequest)
  | answer
  | frame
  | finish
  | disconnect
  | look
deriving DecidableEq

namespace HttpServer

def start (now : Nat) : HttpServer := ⟨now, .new now, [], some now, [now]⟩

/-- `track_activity` up to the routes. -/
def begin (server : HttpServer) (post : Bool) : HttpServer :=
  { server with
    activity := server.activity.begin server.now
    requests := server.requests ++ [⟨post, false, false, true⟩]
    touches := server.touches ++ [server.now] }

/-- A `Busy` is dropped, if there is one. -/
def release (server : HttpServer) (busy : Bool) : HttpServer :=
  if busy then { server with
    activity := server.activity.drop server.now
    touches := server.touches ++ [server.now] }
  else server

def look (server : HttpServer) (ttl : Nat) : HttpServer :=
  { server with wake := (server.activity.idleTurn ttl server.now).map (server.now + ·) }

end HttpServer

/-- What can happen next, in any order: time passes, a client asks, a handler answers, a body ends or fails, a client goes
away, the idle task wakes. -/
inductive HttpStep (ttl : Nat) (hosts : List String) : HttpEvent → HttpServer → HttpServer → Prop
  | elapse {server : HttpServer} (time : Nat) :
    HttpStep ttl hosts (.elapse time) server { server with now := server.now + time }
  | elsewhere {server : HttpServer} (req : HttpRequest)
      (aside : hostAllowed hosts req = false ∨ isMcpPath req.path = false) :
        HttpStep ttl hosts (.request req) server server
  | request {server : HttpServer} (req : HttpRequest) (allowed : hostAllowed hosts req = true)
      (mcp : isMcpPath req.path = true) : HttpStep ttl hosts (.request req) server (server.begin req.post)
  -- a POST keeps its `Busy` with the body of its response
  | answer {server : HttpServer} (front rest : List OpenRequest) (post busy : Bool)
      (waiting : server.requests = front ++ ⟨post, false, false, busy⟩ :: rest) : HttpStep ttl hosts .answer server
        (HttpServer.release { server with requests := front ++ ⟨post, true, false, busy && post⟩ :: rest }
          (busy && !post))
  | frame {server : HttpServer} : HttpStep ttl hosts .frame server server
  | finish {server : HttpServer} (front rest : List OpenRequest) (post ended busy : Bool)
      (streaming : server.requests = front ++ ⟨post, true, ended, busy⟩ :: rest) : HttpStep ttl hosts .finish server
        (HttpServer.release { server with requests := front ++ ⟨post, true, true, false⟩ :: rest } busy)
  | disconnect {server : HttpServer} (front rest : List OpenRequest) (gone : OpenRequest)
      (known : server.requests = front ++ gone :: rest) : HttpStep ttl hosts .disconnect server
        (HttpServer.release { server with requests := front ++ rest } gone.busy)
  | look {server : HttpServer} (wake : Nat) (asleep : server.wake = some wake) (due : wake ≤ server.now) :
      HttpStep ttl hosts .look server (server.look ttl)

/-- A timer that is due fires within the time `late`; once the idle task has returned nothing more is accepted. -/
def serving (late : Nat) (event : HttpEvent) (server _after : HttpServer) : Prop :=
  ∃ wake, server.wake = some wake ∧ ∀ time, event = .elapse time → server.now + time ≤ wake + late

/-- A request is in progress until it is answered; a POST until its response has ended. -/
def OpenRequest.inProgress (request : OpenRequest) : Bool := !request.answered || (request.post && !request.ended)

namespace HttpServer

/-- What every step keeps. While no request is in progress the idle task wakes by the end of the idle period. -/
structure Timed (ttl late : Nat) (server : HttpServer) : Prop where
  counted : server.activity.inProgress = server.requests.countP OpenRequest.inProgress
  held : ∀ request ∈ server.requests, request.busy = request.inProgress
  touched : server.activity.last ∈ server.touches
  latest : ∀ time ∈ server.touches, time ≤ server.activity.last
  past : server.activity.last ≤ server.now
  soon : ∀ wake, server.wake = some wake → wake ≤ server.now + ttl
  quiet : ∀ wake, server.wake = some wake → server.activity.inProgress = 0 → wake ≤ server.activity.last + ttl
  prompt : ∀ wake, server.wake = some wake → server.now ≤ wake + late
  exited : server.wake = none → server.activity.inProgress = 0 ∧ server.activity.last + ttl ≤ server.now

variable {ttl late : Nat} {hosts : List String} {server after : HttpServer}

namespace Timed

theorem begun (now : Nat) : (start now).Timed ttl late := by
  refine ⟨rfl, fun _ none => absurd none List.not_mem_nil, List.mem_singleton_self now,
    fun time member => ?_, Nat.le_refl _,
    fun wake woken => ?_, fun wake woken _ => ?_, fun wake woken => ?_, fun none => by cases none⟩
  · exact Nat.le_of_eq (List.mem_singleton.mp member)
  · obtain rfl := Option.some.inj woken
    exact Nat.le_add_right _ _
  · obtain rfl := Option.some.inj woken
    exact Nat.le_add_right _ _
  · obtain rfl := Option.some.inj woken
    exact Nat.le_add_right _ _

theorem elapsed {time : Nat} (timed : server.Timed ttl late) (served : serving late (.elapse time) server after) :
    Timed ttl late { server with now := server.now + time } := by
  obtain ⟨wake, asleep, intime⟩ := served
  refine ⟨timed.counted, timed.held, timed.touched, timed.latest, Nat.le_trans timed.past (Nat.le_add_right _ _),
    fun other woken => ?_, timed.quiet, fun other woken => ?_, fun none => ?_⟩
  · have soon := timed.soon other woken
    change other ≤ server.now + time + ttl
    omega
  · obtain rfl : wake = other := Option.some.inj (asleep.symm.trans woken)
    exact intime time rfl
  · rw [show server.wake = Option.none from none] at asleep
    cases asleep

theorem requested (timed : server.Timed ttl late) (asleep : server.wake ≠ none) (post : Bool) :
    (server.begin post).Timed ttl late := by
  refine ⟨?_, fun request member => ?_, List.mem_append_right _ (List.mem_singleton_self _), fun time member => ?_,
    Nat.le_refl _, timed.soon, fun wake _ none => ?_, timed.prompt, fun none => absurd none asleep⟩
  · change server.activity.inProgress + 1 = (server.requests ++ [_]).countP OpenRequest.inProgress
    rw [List.countP_append, timed.counted]
    rfl
  · rcases List.mem_append.mp member with old | new
    · exact timed.held request old
    · rw [List.mem_singleton.mp new]
      rfl
  · rcases List.mem_append.mp member with old | new
    · exact Nat.le_trans (timed.latest time old) timed.past
    · exact Nat.le_of_eq (List.mem_singleton.mp new)
  · cases none

/-- One request moves on or goes, and lets go of its `Busy` where it was in progress and is so no more. -/
theorem released {front others rest : List OpenRequest} {request : OpenRequest} {busy : Bool}
    (timed : server.Timed ttl late) (asleep : server.wake ≠ none) (known : server.requests = front ++ request :: rest)
    (held : ∀ other ∈ others, other.busy = other.inProgress)
    (count : others.countP OpenRequest.inProgress + busy.toNat = [request].countP OpenRequest.inProgress) :
    (release { server with requests := front ++ others ++ rest } busy).Timed ttl late := by
  have all : ∀ other ∈ front ++ others ++ rest, other.busy = other.inProgress := by
    intro other member
    rw [List.mem_append, List.mem_append] at member
    rcases member with (before | new) | behind
    · exact timed.held other (known ▸ List.mem_append_left _ before)
    · exact held other new
    · exact timed.held other (known ▸ List.mem_append_right _ (List.mem_cons_of_mem _ behind))
  have counted : (front ++ others ++ rest).countP OpenRequest.inProgress + busy.toNat = server.activity.inProgress := by
    have split : request :: rest = [request] ++ rest := rfl
    rw [timed.counted, known, split]
    simp only [List.countP_append]
    omega
  cases busy with
  | false =>
    exact ⟨counted.symm, all, timed.touched, timed.latest, timed.past, timed.soon, timed.quiet, timed.prompt,
      fun none => absurd none asleep⟩
  | true =>
    refine ⟨?_, all, List.mem_append_right _ (List.mem_singleton_self _), fun time member => ?_,
      Nat.le_refl _, timed.soon,
      fun wake woken _ => timed.soon wake woken, timed.prompt, fun none => absurd none asleep⟩
    · change server.activity.inProgress - 1 = _
      rw [← counted]
      rfl
    · rcases List.mem_append.mp member with old | new
      · exact Nat.le_trans (timed.latest time old) timed.past
      · exact Nat.le_of_eq (List.mem_singleton.mp new)

/-- The idle task ends the server or sleeps until the idle period will have passed. -/
theorem looked (timed : server.Timed ttl late) : (server.look ttl).Timed ttl late := by
  have past := timed.past
  have turn := @Activity.idleTurn_cases server.activity ttl server.now past
  have sleeps : ∀ wake, (server.look ttl).wake = some wake →
    ∃ time, server.activity.idleTurn ttl server.now = some time ∧
      wake = server.now + time := by
    intro wake woken
    obtain ⟨time, slept, same⟩ := Option.map_eq_some_iff.mp woken
    exact ⟨time, slept, same.symm⟩
  refine ⟨timed.counted, timed.held, timed.touched, timed.latest, past, fun wake woken => ?_, fun wake woken none => ?_,
    fun wake woken => ?_, fun none => ?_⟩
  · obtain ⟨time, slept, rfl⟩ := sleeps wake woken
    have short := (turn.2 time slept).1
    change server.now + time ≤ server.now + ttl
    omega
  · obtain ⟨time, slept, rfl⟩ := sleeps wake woken
    exact (turn.2 time slept).2 none
  · obtain ⟨time, slept, rfl⟩ := sleeps wake woken
    change server.now ≤ server.now + time + late
    omega
  · exact turn.1 (Option.map_eq_none_iff.mp none)

theorem next {event : HttpEvent} (timed : server.Timed ttl late) (served : serving late event server after)
    (step : HttpStep ttl hosts event server after) : after.Timed ttl late := by
  have asleep : server.wake ≠ none := by
    obtain ⟨wake, asleep, -⟩ := served
    rw [asleep]
    exact Option.some_ne_none wake
  cases step with
  | elapse time => exact timed.elapsed served
  | elsewhere req aside => exact timed
  | request req allowed mcp => exact timed.requested asleep req.post
  | answer front rest post busy waiting =>
    have known : busy = true := by
      have member : (⟨post, false, false, busy⟩ : OpenRequest) ∈ server.requests := by
        rw [waiting]
        exact List.mem_append_right _ List.mem_cons_self
      exact timed.held _ member
    subst known
    have moved := @released ttl late server front [⟨post, true, false, true && post⟩] rest _
      (true && !post) timed asleep waiting
    rw [List.append_assoc] at moved
    apply moved
    · intro other member
      rw [List.mem_singleton.mp member]
      cases post <;> rfl
    · cases post <;> rfl
  | frame => exact timed
  | finish front rest post ended busy streaming =>
    have known : busy = (post && !ended) := by
      have member : (⟨post, true, ended, busy⟩ : OpenRequest) ∈ server.requests := by
        rw [streaming]
        exact List.mem_append_right _ List.mem_cons_self
      have held := timed.held _ member
      simpa [OpenRequest.inProgress] using held
    have moved := @released ttl late server front [⟨post, true, true, false⟩] rest _ busy timed asleep streaming
    rw [List.append_assoc] at moved
    apply moved
    · intro other member
      rw [List.mem_singleton.mp member]
      cases post <;> rfl
    · subst known
      cases post <;> cases ended <;> rfl
  | disconnect front rest gone known =>
    have held : gone.busy = gone.inProgress := by
      apply timed.held
      rw [known]
      exact List.mem_append_right _ List.mem_cons_self
    have moved := @released ttl late server front [] rest gone gone.busy timed asleep known
    rw [List.append_nil] at moved
    apply moved
    · exact fun other none => absurd none List.not_mem_nil
    · rw [held]
      cases progress : gone.inProgress <;> simp [progress]
  | look wake asleep due => exact timed.looked

end Timed

end HttpServer

/-- A POST began and its response is still being sent. -/
def streamingServer : HttpServer := ⟨100, ⟨1, 40⟩, [⟨true, true, false, true⟩], some 200, [0, 40]⟩

/-- The response has ended, and the idle period has passed since. -/
def idleServer : HttpServer := ⟨200, ⟨0, 100⟩, [⟨true, true, true, false⟩], none, [0, 40, 100]⟩

theorem serving_until {server after : HttpServer} {late wake time : Nat} (asleep : server.wake = some wake)
    (intime : server.now + time ≤ wake + late) : serving late (.elapse time) server after := by
  refine ⟨wake, asleep, fun other same => ?_⟩
  cases same
  exact intime

theorem serving_at {event : HttpEvent} {server after : HttpServer} {late wake : Nat} (asleep : server.wake = some wake)
    (still : ∀ time, event ≠ .elapse time) : serving late event server after :=
  ⟨wake, asleep, fun time same => absurd same (still time)⟩

/-- The runs of a server that is idle after a hundred units of time, with timers that are at most five late. -/
abbrev LocalRun : HttpServer → Prop := Reaches (HttpStep 100 ["localhost"]) (serving 5) (HttpServer.start 0)

theorem reaches_streaming : LocalRun streamingServer := by
  have allowed : hostAllowed ["localhost"] ⟨some (some "localhost:8181"), none, true, "/mcp"⟩ = true :=
    by decide +kernel
  have slept : LocalRun ⟨0, ⟨0, 0⟩, [], some 100, [0]⟩ :=
    Reaches.refl.next (serving_at rfl (by simp)) (.look 0 rfl (Nat.le_refl 0))
  have later : LocalRun ⟨40, ⟨0, 0⟩, [], some 100, [0]⟩ :=
    slept.next (serving_until rfl (by decide)) (.elapse 40)
  have begun : LocalRun ⟨40, ⟨1, 40⟩, [⟨true, false, false, true⟩], some 100, [0, 40]⟩ :=
    later.next (serving_at rfl (by simp))
      (.request ⟨some (some "localhost:8181"), none, true, "/mcp"⟩ allowed (by decide +kernel))
  have answered : LocalRun ⟨40, ⟨1, 40⟩, [⟨true, true, false, true⟩], some 100, [0, 40]⟩ :=
    begun.next (serving_at rfl (by simp)) (.answer [] [] true true rfl)
  have waited : LocalRun ⟨100, ⟨1, 40⟩, [⟨true, true, false, true⟩], some 100, [0, 40]⟩ :=
    answered.next (serving_until rfl (by decide)) (.elapse 60)
  exact waited.next (serving_at rfl (by simp)) (.look 100 rfl (Nat.le_refl 100))

theorem reaches_idle : LocalRun idleServer := by
  have refused : hostAllowed ["localhost"] ⟨some (some "elsewhere:8181"), none, true, "/mcp"⟩ = false :=
    by decide +kernel
  have finished : LocalRun ⟨100, ⟨0, 100⟩, [⟨true, true, true, false⟩], some 200, [0, 40, 100]⟩ :=
    reaches_streaming.next (serving_at rfl (by simp)) (.finish [] [] true false true rfl)
  have kept : LocalRun ⟨100, ⟨0, 100⟩, [⟨true, true, true, false⟩], some 200, [0, 40, 100]⟩ :=
    finished.next (serving_at rfl (by simp))
      (.elsewhere ⟨some (some "elsewhere:8181"), none, true, "/mcp"⟩ (.inl refused))
  have later : LocalRun ⟨200, ⟨0, 100⟩, [⟨true, true, true, false⟩], some 200, [0, 40, 100]⟩ :=
    kept.next (serving_until rfl (by decide)) (.elapse 100)
  exact later.next (serving_at rfl (by simp)) (.look 200 rfl (Nat.le_refl 200))

end Rqmd
