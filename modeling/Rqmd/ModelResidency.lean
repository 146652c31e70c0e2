import Mathlib.Logic.Function.Basic
import Rqmd.Lib.Transition

/-! The models of the MCP server. Queries take turns with the store and load the models they call; a periodic sweep that
finds the store free releases those that were not used for a while. -/

namespace Rqmd.Models
open Transition

inductive ModelKind where
  | embed
  | rerank
  | generate
deriving DecidableEq

/-- An error and its causes, the outermost context first. -/
abbrev ErrorChain := List String

def ErrorChain.text (chain : ErrorChain) : String := String.intercalate ": " chain

/-- One of the three models of the backend, with the layers a load of it puts on the GPU. -/
structure ModelSlot (M : Type) where
  model : Option M
  lastUsed : Option Nat
  gpuLayers : Nat

abbrev LlamaBackend (M : Type) := ModelKind → ModelSlot M

variable {M : Type}

/-! ### Loading and releasing -/

def loadWithCpuFallback (what : String) (gpuLayers : Nat) (load : Nat → Except ErrorChain M) :
    Except ErrorChain (M × Nat) :=
  if gpuLayers = 0 then
    match load 0 with
    | .ok value => .ok (value, 0)
    | .error cause => .error ((what ++ " load") :: cause)
  else
    match load gpuLayers with
    | .ok value => .ok (value, gpuLayers)
    | .error gpuErr =>
      match load 0 with
      | .ok value => .ok (value, 0)
      | .error cause =>
        .error ((what ++ " load failed on the GPU (" ++ gpuErr.text ++ ") and again on the CPU") :: cause)

/-- The layer counts such a load tries, each with whether it worked. -/
def attempts (gpuLayers : Nat) (load : Nat → Except ErrorChain M) : List (Nat × Bool) :=
  if gpuLayers = 0 ∨ (load gpuLayers).isOk then [(gpuLayers, (load gpuLayers).isOk)]
  else [(gpuLayers, false), (0, (load 0).isOk)]

/-- What works is the last thing tried, and the CPU is tried only where the GPU failed. -/
theorem loadWithCpuFallback_ok {what : String} {gpuLayers layers : Nat} {load : Nat → Except ErrorChain M} {value : M}
    (loaded : loadWithCpuFallback what gpuLayers load = .ok (value, layers)) :
    (layers = gpuLayers ∨ layers = 0) ∧ load layers = .ok value ∧ (layers, true) ∈ attempts gpuLayers load ∧
      ∀ tried ∈ attempts gpuLayers load, tried.2 = true → tried.1 = layers := by
  unfold loadWithCpuFallback at loaded
  unfold attempts
  by_cases cpu : gpuLayers = 0
  · subst cpu
    rw [if_pos rfl] at loaded
    cases outcome : load 0 with
    | error cause => simp [outcome] at loaded
    | ok found =>
      simp only [outcome, Except.ok.injEq, Prod.mk.injEq] at loaded
      obtain ⟨rfl, rfl⟩ := loaded
      simp [outcome, Except.isOk, Except.toBool]
  · rw [if_neg cpu] at loaded
    cases outcome : load gpuLayers with
    | ok found =>
      simp only [outcome, Except.ok.injEq, Prod.mk.injEq] at loaded
      obtain ⟨rfl, rfl⟩ := loaded
      simp [outcome, Except.isOk, Except.toBool]
    | error gpuErr =>
      cases second : load 0 with
      | error cause => simp [outcome, second] at loaded
      | ok found =>
        simp only [outcome, second, Except.ok.injEq, Prod.mk.injEq] at loaded
        obtain ⟨rfl, rfl⟩ := loaded
        simp [second, cpu, Except.isOk, Except.toBool]

/-- Where nothing worked, nothing that was tried did. -/
theorem loadWithCpuFallback_error {what : String} {gpuLayers : Nat} {load : Nat → Except ErrorChain M}
    {cause : ErrorChain} (failed : loadWithCpuFallback what gpuLayers load = .error cause) :
    ∀ tried ∈ attempts gpuLayers load, tried.2 = false := by
  unfold loadWithCpuFallback at failed
  unfold attempts
  by_cases cpu : gpuLayers = 0
  · subst cpu
    cases outcome : load 0 with
    | error _ => simp [Except.isOk, Except.toBool]
    | ok found => simp [outcome] at failed
  · rw [if_neg cpu] at failed
    cases outcome : load gpuLayers with
    | ok found => simp [outcome] at failed
    | error gpuErr =>
      cases second : load 0 with
      | error _ => simp [cpu, Except.isOk, Except.toBool]
      | ok found => simp [outcome, second] at failed

theorem attempts_layers {gpuLayers : Nat} {load : Nat → Except ErrorChain M} :
    ∀ tried ∈ attempts gpuLayers load, tried.1 = gpuLayers ∨ tried.1 = 0 := by
  unfold attempts
  split <;> simp

namespace ModelKind

def what : ModelKind → String
  | embed => "embed model"
  | rerank => "rerank model"
  | generate => "generate model"

def notLoaded : ModelKind → String
  | embed => "embed model not loaded (ensure_embed was not called)"
  | rerank => "rerank model not loaded (ensure_rerank was not called)"
  | generate => "generate model not loaded (ensure_generate was not called)"

end ModelKind

namespace ModelSlot

/-- `ensure_embed`, `ensure_rerank` and `ensure_generate`. -/
def ensure (kind : ModelKind) (load : Nat → Except ErrorChain M) (now : Nat) (slot : ModelSlot M) :
    Except ErrorChain (ModelSlot M) :=
  if slot.model.isSome then .ok { slot with lastUsed := some now }
  else
    match loadWithCpuFallback kind.what slot.gpuLayers load with
    | .ok (model, layers) => .ok ⟨some model, some now, layers⟩
    | .error cause => .error cause

/-- `embed_model_ref`, `rerank_model_ref` and `generate_model_ref`. -/
def modelRef (kind : ModelKind) (slot : ModelSlot M) : Except ErrorChain M :=
  match slot.model with
  | some model => .ok model
  | none => .error [kind.notLoaded]

end ModelSlot

def isIdle (lastUsed : Option Nat) (now ttl : Nat) : Bool :=
  match lastUsed with
  | none => false
  | some time => decide (ttl ≤ now - time)

def ModelSlot.idle (slot : ModelSlot M) (now ttl : Nat) : Bool := isIdle slot.lastUsed now ttl && slot.model.isSome

/-- The backend after the release, and how many models it released. -/
def releaseIdle (backend : LlamaBackend M) (now ttl : Nat) : LlamaBackend M × Nat :=
  (fun kind =>
      if (backend kind).idle now ttl then { backend kind with model := none, lastUsed := none } else backend kind,
    ([.embed, .rerank, .generate].filter fun kind => (backend kind).idle now ttl).length)

/-! ### The server -/

/-- How often the sweep runs, in seconds. -/
def sweepPeriod : Nat := 60

/-- `calling` is the call of a model in progress and `due` the next tick of the sweep. `missed` and `loads` keep the
record: when a sweep found the store taken or poisoned, and the loads tried, with their layers and outcomes. -/
structure ModelServer (M : Type) where
  now : Nat
  opened : Bool
  backend : LlamaBackend M
  held : Bool
  calling : Option ModelKind
  poisoned : Bool
  due : Nat
  missed : List Nat
  loads : List (ModelKind × Nat × Bool)

inductive ModelEvent (M : Type) where
  | elapse (time : Nat)
  | opens
  | lock
  | call (kind : ModelKind) (load : Nat → Except ErrorChain M)
  | ret
  | unlock
  | panic
  | sweep

namespace ModelServer

/-- The server before its first query, with the layers its configuration asks for. -/
def start (layers : ModelKind → Nat) (now : Nat) : ModelServer M :=
  ⟨now, false, fun kind => ⟨none, none, layers kind⟩, false, none, false, now, [], []⟩

def slot (server : ModelServer M) (kind : ModelKind) : ModelSlot M := server.backend kind

/-- A query calls a model: it is loaded if it is not resident, and the call goes on if there is one. -/
def call (server : ModelServer M) (kind : ModelKind) (load : Nat → Except ErrorChain M) : ModelServer M :=
  let tried := if (server.slot kind).model.isSome then [] else attempts (server.slot kind).gpuLayers load
  let loads := server.loads ++ tried.map fun attempt => (kind, attempt.1, attempt.2)
  match (server.slot kind).ensure kind load server.now with
  | .ok slot =>
    { server with backend := Function.update server.backend kind slot, calling := some kind, loads := loads }
  | .error _ => { server with loads := loads }

def panic (server : ModelServer M) : ModelServer M := { server with held := false, calling := none, poisoned := true }

/-- One tick: the sweep does not wait for the store. -/
def sweep (server : ModelServer M) (ttl : Nat) : ModelServer M :=
  if !server.opened then { server with due := server.due + sweepPeriod }
  else if server.held || server.poisoned then
    { server with due := server.due + sweepPeriod, missed := server.missed ++ [server.now] }
  else
    { server with
      due := server.due + sweepPeriod
      backend := (releaseIdle server.backend server.now ttl).1 }

end ModelServer

/-- What can happen next, in any order. A query holds the store from its lock to its unlock or panic. -/
inductive ModelStep (ttl : Nat) : ModelEvent M → ModelServer M → ModelServer M → Prop
  | elapse {server : ModelServer M} (time : Nat) :
    ModelStep ttl (.elapse time) server { server with now := server.now + time }
  | opens {server : ModelServer M} : ModelStep ttl .opens server { server with opened := true }
  | lock {server : ModelServer M} (opened : server.opened = true) (sound : server.poisoned = false)
      (free : server.held = false) : ModelStep ttl .lock server { server with held := true }
  | call {server : ModelServer M} (kind : ModelKind) (load : Nat → Except ErrorChain M) (held : server.held = true)
      (idle : server.calling = none) : ModelStep ttl (.call kind load) server (server.call kind load)
  | ret {server : ModelServer M} : ModelStep ttl .ret server { server with calling := none }
  | unlock {server : ModelServer M} (idle : server.calling = none) :
    ModelStep ttl .unlock server { server with held := false }
  | panic {server : ModelServer M} (held : server.held = true) : ModelStep ttl .panic server server.panic
  | sweep {server : ModelServer M} (due : server.due ≤ server.now) : ModelStep ttl .sweep server (server.sweep ttl)

/-- A tick that is due comes within the time `late`. -/
def onTime (late : Nat) (event : ModelEvent M) (server _after : ModelServer M) : Prop :=
  ∀ time, event = .elapse time → server.now + time ≤ server.due + late

namespace ModelServer

/-- A load that fell back to the CPU is followed by loads on the CPU only. -/
def FellBack (earlier later : ModelKind × Nat × Bool) : Prop :=
  earlier.1 = later.1 → earlier.2 = (0, true) → later.2.1 = 0

/-- A model last used at `used` was not overlooked: the next tick comes soon enough, or one found the store taken. -/
def Watched (server : ModelServer M) (ttl used : Nat) : Prop :=
  server.due < used + ttl + sweepPeriod ∨ ∃ missed ∈ server.missed, used + ttl ≤ missed

/-- What every step keeps of one slot. -/
structure Tended (ttl : Nat) (layers : ModelKind → Nat) (server : ModelServer M) (kind : ModelKind) : Prop where
  resident : (server.slot kind).model.isSome = (server.slot kind).lastUsed.isSome
  opened : server.opened = false → (server.slot kind).lastUsed = none
  used : server.calling = some kind → (server.slot kind).model.isSome = true
  watched : ∀ used, (server.slot kind).lastUsed = some used → server.Watched ttl used
  configured : (server.slot kind).gpuLayers = layers kind ∨ (server.slot kind).gpuLayers = 0
  loaded : (server.slot kind).model.isSome = true → (kind, (server.slot kind).gpuLayers, true) ∈ server.loads
  fallen : (kind, 0, true) ∈ server.loads → (server.slot kind).gpuLayers = 0

structure Kept (ttl late : Nat) (layers : ModelKind → Nat) (server : ModelServer M) : Prop where
  tended : ∀ kind, server.Tended ttl layers kind
  held : server.calling ≠ none → server.held = true
  opened : server.held = true → server.opened = true
  soon : server.due ≤ server.now + sweepPeriod
  prompt : server.now ≤ server.due + late
  fallback : server.loads.Pairwise FellBack

/-- What a call makes of the slot of its model. -/
structure CalledSlot (tried : List (Nat × Bool)) (now : Nat) (before after : ModelSlot M) : Prop where
  resident : after.model.isSome = true
  used : after.lastUsed = some now
  layers : after.gpuLayers = before.gpuLayers ∨ after.gpuLayers = 0
  kept : before.model.isSome = true → after.gpuLayers = before.gpuLayers
  loaded : before.model.isSome = false → (after.gpuLayers, true) ∈ tried
  worked : ∀ attempt ∈ tried, attempt.2 = true → attempt.1 = after.gpuLayers

/-- The loads a call tries. -/
def triedBy (slot : ModelSlot M) (load : Nat → Except ErrorChain M) : List (Nat × Bool) :=
  if slot.model.isSome then [] else attempts slot.gpuLayers load

theorem triedBy_layers {slot : ModelSlot M} {load : Nat → Except ErrorChain M} :
    ∀ attempt ∈ triedBy slot load, attempt.1 = slot.gpuLayers ∨ attempt.1 = 0 := by
  intro attempt member
  unfold triedBy at member
  split at member
  · cases member
  · exact attempts_layers attempt member

theorem ensure_spec {kind : ModelKind} {load : Nat → Except ErrorChain M} {now : Nat} {slot : ModelSlot M} :
    (∃ after, slot.ensure kind load now = .ok after ∧ CalledSlot (triedBy slot load) now slot after) ∨
      ∃ cause, slot.ensure kind load now = .error cause ∧ ∀ attempt ∈ triedBy slot load, attempt.2 = false := by
  unfold ModelSlot.ensure triedBy
  by_cases resident : slot.model.isSome = true
  · rw [if_pos resident, if_pos resident]
    refine .inl ⟨_, rfl, resident, rfl, .inl rfl, fun _ => rfl, fun absent => ?_,
      fun _ none => absurd none List.not_mem_nil⟩
    rw [resident] at absent
    cases absent
  · rw [if_neg resident, if_neg resident]
    cases outcome : loadWithCpuFallback kind.what slot.gpuLayers load with
    | error cause => exact .inr ⟨cause, rfl, loadWithCpuFallback_error outcome⟩
    | ok loaded =>
      obtain ⟨model, layers⟩ := loaded
      obtain ⟨either, -, among, worked⟩ := loadWithCpuFallback_ok outcome
      exact .inl ⟨_, rfl, rfl, rfl, either, fun present => absurd present resident, fun _ => among, worked⟩

/-- A call changes the slot of its model only, and the record of loads. -/
theorem call_spec (server : ModelServer M) (kind : ModelKind) (load : Nat → Except ErrorChain M) :
    (∃ after, CalledSlot (triedBy (server.slot kind) load) server.now (server.slot kind) after ∧
      server.call kind load = { server with
        backend := Function.update server.backend kind after
        calling := some kind
        loads := server.loads ++ (triedBy (server.slot kind) load).map fun attempt => (kind, attempt.1, attempt.2) }) ∨
    (∀ attempt ∈ triedBy (server.slot kind) load, attempt.2 = false) ∧ server.call kind load = { server with
      loads := server.loads ++ (triedBy (server.slot kind) load).map fun attempt => (kind, attempt.1, attempt.2) } := by
  rcases @ensure_spec M kind load server.now (server.slot kind) with ⟨after, ensured, called⟩ | ⟨cause, failed, none⟩
  · refine .inl ⟨after, called, ?_⟩
    unfold call
    rw [ensured]
    rfl
  · refine .inr ⟨none, ?_⟩
    unfold call
    rw [failed]
    rfl

theorem fallback_attempts {kind : ModelKind} {gpuLayers : Nat} {load : Nat → Except ErrorChain M} :
    ((attempts gpuLayers load).map fun attempt => (kind, attempt.1, attempt.2)).Pairwise FellBack := by
  unfold attempts
  split
  · exact List.pairwise_singleton _ _
  · refine List.pairwise_pair.mpr fun _ fell => ?_
    cases congrArg Prod.snd fell

/-- The loads a call adds to the record keep to the CPU once a load fell back. -/
theorem fallback_call {ttl : Nat} {layers : ModelKind → Nat} {server : ModelServer M} {kind : ModelKind}
    {load : Nat → Except ErrorChain M} (fallback : server.loads.Pairwise FellBack)
      (tended : server.Tended ttl layers kind) :
    (server.loads ++ (triedBy (server.slot kind) load).map fun attempt => (kind, attempt.1, attempt.2)).Pairwise
      FellBack := by
  rw [List.pairwise_append]
  refine ⟨fallback, ?_, fun earlier known later added mine fell => ?_⟩
  · unfold triedBy
    split
    · exact .nil
    · exact fallback_attempts
  · obtain ⟨attempt, member, rfl⟩ := List.mem_map.mp added
    have cpu : (server.slot kind).gpuLayers = 0 := by
      apply tended.fallen
      rw [← fell, ← show earlier.1 = kind from mine]
      exact known
    rcases triedBy_layers attempt member with same | zero
    · exact same.trans cpu
    · exact zero

variable {ttl late : Nat} {layers : ModelKind → Nat} {server after : ModelServer M}

/-- What a step leaves alone stays tended. -/
theorem Tended.carried {kind : ModelKind} (tended : server.Tended ttl layers kind)
    (slot : after.slot kind = server.slot kind)
    (opened : after.opened = false → server.opened = false)
    (calling : after.calling = some kind → server.calling = some kind)
    (watched : ∀ used, (server.slot kind).lastUsed = some used → server.Watched ttl used → after.Watched ttl used)
    (loads : ∀ load, (kind, load) ∈ server.loads → (kind, load) ∈ after.loads)
    (fell : (kind, 0, true) ∈ after.loads → (kind, 0, true) ∈ server.loads) : after.Tended ttl layers kind := by
  refine ⟨?_, fun shut => ?_, fun calls => ?_, fun used last => ?_, ?_, fun resident => ?_, fun fallen => ?_⟩
  · rw [slot]
    exact tended.resident
  · rw [slot]
    exact tended.opened (opened shut)
  · rw [slot]
    exact tended.used (calling calls)
  · rw [slot] at last
    exact watched used last (tended.watched used last)
  · rw [slot]
    exact tended.configured
  · rw [slot] at resident ⊢
    exact loads _ (tended.loaded resident)
  · rw [slot]
    exact tended.fallen (fell fallen)

namespace Kept

theorem started (now : Nat) : (start layers now : ModelServer M).Kept ttl late layers := by
  have tended : ∀ kind, (start layers now : ModelServer M).Tended ttl layers kind := by
    intro kind
    refine ⟨rfl, fun _ => rfl, fun calling => ?_, fun used last => ?_, .inl rfl, fun resident => ?_, fun loaded => ?_⟩
    · cases calling
    · cases last
    · cases resident
    · cases loaded
  exact ⟨tended, fun calling => absurd rfl calling, fun held => (by cases held), Nat.le_add_right _ _,
    Nat.le_add_right _ _, .nil⟩

theorem called {kind : ModelKind} (load : Nat → Except ErrorChain M) (kept : server.Kept ttl late layers)
    (positive : 0 < ttl) (held : server.held = true) : (server.call kind load).Kept ttl late layers := by
  have opened := kept.opened held
  have fallback := @fallback_call M ttl layers server kind load kept.fallback (kept.tended kind)
  have tended := kept.tended kind
  have added : ∀ {other : ModelKind} {entry : Nat × Bool}, (other, entry) ∈ server.loads ++
      (triedBy (server.slot kind) load).map (fun attempt => (kind, attempt.1, attempt.2)) →
        (other, entry) ∈ server.loads ∨ other = kind ∧ entry ∈ triedBy (server.slot kind) load := by
    intro other entry member
    rcases List.mem_append.mp member with known | new
    · exact .inl known
    · obtain ⟨attempt, inside, pair⟩ := List.mem_map.mp new
      obtain ⟨rfl, rfl⟩ := Prod.mk.inj pair
      exact .inr ⟨rfl, inside⟩
  rcases server.call_spec kind load with ⟨slot, called, result⟩ | ⟨failed, result⟩
  · rw [result]
    refine ⟨fun other => ?_, fun _ => held, kept.opened, kept.soon, kept.prompt, fallback⟩
    by_cases mine : other = kind
    · subst mine
      have here : Function.update server.backend other slot other = slot := Function.update_self _ _ _
      have soon := kept.soon
      refine ⟨?_, fun shut => ?_, fun _ => ?_, fun used last => ?_, ?_, fun _ => ?_, fun fallen => ?_⟩
      · simp only [ModelServer.slot, here, called.resident, called.used, Option.isSome_some]
      · exact absurd (opened.symm.trans shut) (by decide)
      · simp only [ModelServer.slot, here, called.resident]
      · simp only [ModelServer.slot, here, called.used] at last
        obtain rfl := Option.some.inj last
        exact .inl (by simp only; omega)
      · simp only [ModelServer.slot, here]
        rcases called.layers with same | zero
        · rw [same]
          exact tended.configured
        · exact .inr zero
      · simp only [ModelServer.slot, here]
        cases before : (server.slot other).model.isSome with
        | true =>
          rw [called.kept before]
          exact List.mem_append_left _ (tended.loaded before)
        | false => exact List.mem_append_right _ (List.mem_map.mpr ⟨_, called.loaded before, rfl⟩)
      · simp only [ModelServer.slot, here]
        rcases added fallen with known | ⟨-, tried⟩
        · rcases called.layers with same | zero
          · exact same.trans (tended.fallen known)
          · exact zero
        · exact (called.worked _ tried rfl).symm
    · refine (kept.tended other).carried ?_ id (fun calls => ?_) (fun _ _ => id) (fun _ => List.mem_append_left _)
        fun fallen => ?_
      · exact Function.update_of_ne mine _ _
      · exact absurd (Option.some.inj calls).symm mine
      · exact (added fallen).resolve_right fun new => mine new.1
  · rw [result]
    refine ⟨fun other => ?_, kept.held, kept.opened, kept.soon, kept.prompt, fallback⟩
    refine (kept.tended other).carried rfl id id (fun _ _ => id) (fun _ => List.mem_append_left _) fun fallen => ?_
    rcases added fallen with known | ⟨-, tried⟩
    · exact known
    · cases failed _ tried

/-- A sweep releases what is idle, or finds the store taken. -/
theorem swept (kept : server.Kept ttl late layers) (due : server.due ≤ server.now) :
    (server.sweep ttl).Kept ttl late layers := by
  have prompt := kept.prompt
  by_cases opened : server.opened = true
  · by_cases taken : (server.held || server.poisoned) = true
    · have result : server.sweep ttl =
          { server with due := server.due + sweepPeriod, missed := server.missed ++ [server.now] } := by
        rw [sweep, if_neg (by simp [opened]), if_pos taken]
      rw [result]
      refine ⟨fun kind => ?_, kept.held, kept.opened, ?_, ?_, kept.fallback⟩
      · refine (kept.tended kind).carried rfl id id (fun used last watched => ?_) (fun _ => id) id
        by_cases early : server.now < used + ttl
        · exact .inl (by simp only; omega)
        · exact .inr ⟨server.now, List.mem_append_right _ (List.mem_singleton_self _), by omega⟩
      · simp only
        omega
      · simp only
        omega
    · have free : server.held = false := by
        simp only [Bool.or_eq_true, not_or, Bool.not_eq_true] at taken
        exact taken.1
      have nothing : server.calling = none := by
        by_contra calling
        rw [kept.held calling] at free
        cases free
      have result : server.sweep ttl = { server with
          due := server.due + sweepPeriod, backend := (releaseIdle server.backend server.now ttl).1 } := by
        rw [sweep, if_neg (by simp [opened]), if_neg taken]
      rw [result]
      refine ⟨fun kind => ?_, kept.held, kept.opened, ?_, ?_, kept.fallback⟩
      · have tended := kept.tended kind
        by_cases idle : (server.slot kind).idle server.now ttl = true
        · have slot : (releaseIdle server.backend server.now ttl).1 kind =
              { server.slot kind with model := none, lastUsed := none } := if_pos idle
          refine ⟨?_, fun _ => ?_, fun calls => ?_, fun used last => ?_, ?_, fun resident => ?_, fun fallen => ?_⟩
          · simp only [ModelServer.slot, slot, Option.isSome_none]
          · simp only [ModelServer.slot, slot]
          · exact absurd (nothing.symm.trans calls) (by simp)
          · simp only [ModelServer.slot, slot] at last
            cases last
          · simp only [ModelServer.slot, slot]
            exact tended.configured
          · simp only [ModelServer.slot, slot] at resident
            cases resident
          · simp only [ModelServer.slot, slot]
            exact tended.fallen fallen
        · have slot : (releaseIdle server.backend server.now ttl).1 kind = server.slot kind := if_neg idle
          refine tended.carried slot id id (fun used last _ => .inl ?_) (fun _ => id) id
          have resident : (server.slot kind).model.isSome = true := by
            rw [tended.resident, last]
            rfl
          have recent : server.now < used + ttl := by
            simp only [ModelSlot.idle, isIdle, last, resident, Bool.and_true, decide_eq_true_eq] at idle
            omega
          simp only
          omega
      · simp only
        omega
      · simp only
        omega
  · have shut : server.opened = false := by simpa using opened
    have result : server.sweep ttl = { server with due := server.due + sweepPeriod } := by
      rw [sweep, if_pos (by simp [shut])]
    rw [result]
    refine ⟨fun kind => ?_, kept.held, kept.opened, ?_, ?_, kept.fallback⟩
    · refine (kept.tended kind).carried rfl id id (fun used last _ => ?_) (fun _ => id) id
      rw [(kept.tended kind).opened shut] at last
      cases last
    · simp only
      omega
    · simp only
      omega

/-- What every step keeps. -/
theorem next {event : ModelEvent M} (kept : server.Kept ttl late layers) (positive : 0 < ttl)
    (passed : onTime late event server after) (step : ModelStep ttl event server after) :
    after.Kept ttl late layers := by
  have soon := kept.soon
  have prompt := kept.prompt
  cases step with
  | elapse time =>
    have bound := passed time rfl
    refine ⟨fun kind => ?_, kept.held, kept.opened, by simp only; omega, bound, kept.fallback⟩
    exact (kept.tended kind).carried rfl id id (fun _ _ => id) (fun _ => id) id
  | opens =>
    refine ⟨fun kind => ?_, kept.held, fun _ => rfl, soon, prompt, kept.fallback⟩
    exact (kept.tended kind).carried rfl (fun shut => by cases shut) id (fun _ _ => id) (fun _ => id) id
  | lock opened sound free =>
    refine ⟨fun kind => ?_, fun _ => rfl, fun _ => opened, soon, prompt, kept.fallback⟩
    exact (kept.tended kind).carried rfl id id (fun _ _ => id) (fun _ => id) id
  | call kind load held idle => exact kept.called load positive held
  | ret =>
    refine ⟨fun kind => ?_, fun calling => absurd rfl calling, kept.opened, soon, prompt, kept.fallback⟩
    exact (kept.tended kind).carried rfl id (fun calls => by cases calls) (fun _ _ => id) (fun _ => id) id
  | unlock idle =>
    refine ⟨fun kind => ?_, fun calling => absurd idle calling, fun held => (by cases held), soon, prompt,
      kept.fallback⟩
    exact (kept.tended kind).carried rfl id id (fun _ _ => id) (fun _ => id) id
  | panic held =>
    refine ⟨fun kind => ?_, fun calling => absurd rfl calling, fun held => (by cases held), soon, prompt, kept.fallback⟩
    exact (kept.tended kind).carried rfl id (fun calls => by cases calls) (fun _ _ => id) (fun _ => id) id
  | sweep due => exact kept.swept due

end Kept

/-- A model goes only by a sweep that finds the store free, and only when it was not used for the time `ttl`. -/
theorem released {event : ModelEvent M} {kind : ModelKind} (kept : server.Kept ttl late layers) (positive : 0 < ttl)
    (step : ModelStep ttl event server after) (resident : (server.slot kind).model.isSome = true)
    (gone : (after.slot kind).model = none) :
    event = .sweep ∧ server.held = false ∧ ∃ used, (server.slot kind).lastUsed = some used ∧
      used + ttl ≤ server.now := by
  have stays : after.slot kind = server.slot kind → False := by
    intro same
    rw [← same, gone] at resident
    cases resident
  cases step with
  | elapse time => exact (stays rfl).elim
  | opens => exact (stays rfl).elim
  | lock opened sound free => exact (stays rfl).elim
  | call called load held idle =>
    rcases server.call_spec called load with ⟨slot, spec, result⟩ | ⟨-, result⟩
    · rw [result] at gone stays
      by_cases mine : kind = called
      · subst mine
        simp only [ModelServer.slot, Function.update_self] at gone
        have present := spec.resident
        rw [gone] at present
        cases present
      · exact (stays (Function.update_of_ne mine _ _)).elim
    · rw [result] at stays
      exact (stays rfl).elim
  | ret => exact (stays rfl).elim
  | unlock idle => exact (stays rfl).elim
  | panic held => exact (stays rfl).elim
  | sweep due =>
    unfold sweep at gone stays
    by_cases shut : (!server.opened) = true
    · rw [if_pos shut] at stays
      exact (stays rfl).elim
    · rw [if_neg shut] at gone stays
      by_cases taken : (server.held || server.poisoned) = true
      · rw [if_pos taken] at stays
        exact (stays rfl).elim
      · rw [if_neg taken] at gone stays
        by_cases idle : (server.slot kind).idle server.now ttl = true
        · have free : server.held = false := by
            simp only [Bool.or_eq_true, not_or, Bool.not_eq_true] at taken
            exact taken.1
          obtain ⟨used, last⟩ := Option.isSome_iff_exists.mp ((kept.tended kind).resident ▸ resident)
          have long : ttl ≤ server.now - used := by
            simpa [ModelSlot.idle, isIdle, last, resident] using idle
          exact ⟨rfl, free, used, last, by omega⟩
        · exact (stays (if_neg idle)).elim

end ModelServer

variable {ttl late now : Nat} {layers : ModelKind → Nat} {server : ModelServer M}

/-- A GPU that has no room. -/
def cpuOnly (gpuLayers : Nat) : Except ErrorChain Nat := if gpuLayers = 0 then .ok 7 else .error ["model load"]

def openedServer : ModelServer Nat := { ModelServer.start (fun _ => 99) 0 with opened := true }

/-- A query has embedded its text, falling back to the CPU. -/
def queriedServer : ModelServer Nat :=
  { { { openedServer with held := true }.call .embed cpuOnly with calling := none } with held := false }

/-- A minute later the sweep is due. -/
def idledServer : ModelServer Nat := { queriedServer.sweep 50 with now := (queriedServer.sweep 50).now + 60 }

end Rqmd.Models
