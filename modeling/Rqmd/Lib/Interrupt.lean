import Mathlib.Data.List.Basic

/-! Programs whose effects can fail or be cut short. A run is driven by a list of fates, one for
each effect it reaches; an exhausted list lets every later effect proceed. Death keeps the state as
the effects performed so far left it, so one triple speaks about a crash at every cut point. -/

namespace Rqmd.Interrupt

/-- What the environment decides about one effect. -/
inductive Fate (φ : Type) where
  | proceed
  | fault (kind : φ)
  | die
deriving DecidableEq, Repr

inductive Outcome (φ σ ε α : Type) where
  | done (value : α) (state : σ) (rest : List (Fate φ))
  | error (reason : ε) (state : σ) (rest : List (Fate φ))
  | died (state : σ)

variable {φ σ ε α β : Type}

/-- The state a run leaves, however it ended. -/
def Outcome.final : Outcome φ σ ε α → σ
  | .done _ state _ | .error _ state _ | .died state => state

def Outcome.completed : Outcome φ σ ε α → Bool
  | .done .. => true
  | _ => false

/-- What a complete run returned, and the state it left. -/
def Outcome.result : Outcome φ σ ε α → Option (α × σ)
  | .done a s _ => some (a, s)
  | _ => none

theorem done_of_result {run : Outcome φ σ ε α} {read : α × σ → β} {b : β} (result : run.result.map read = some b) :
    ∃ a s rest, run = .done a s rest ∧ read (a, s) = b := by
  cases run with
  | done a s rest => exact ⟨a, s, rest, rfl, Option.some.inj result⟩
  | error _ _ _ => cases result
  | died _ => cases result

def Prog (φ σ ε α : Type) := List (Fate φ) → σ → Outcome φ σ ε α

namespace Prog

def bind (p : Prog φ σ ε α) (k : α → Prog φ σ ε β) : Prog φ σ ε β := fun fates s =>
  match p fates s with
  | .done a s rest => k a rest s
  | .error e s rest => .error e s rest
  | .died s => .died s

instance : Monad (Prog φ σ ε) where
  pure a := fun fates s => .done a s fates
  bind := bind

instance : LawfulMonad (Prog φ σ ε) := LawfulMonad.mk' _
  (fun p => by
    funext fates s
    change Prog.bind p pure fates s = p fates s
    unfold Prog.bind
    cases p fates s <;> rfl)
  (fun _ _ => rfl)
  (fun p k h => by
    funext fates s
    change Prog.bind (Prog.bind p k) h fates s = Prog.bind p (fun a => Prog.bind (k a) h) fates s
    unfold Prog.bind
    cases p fates s <;> rfl)

def throw (e : ε) : Prog φ σ ε α := fun fates s => .error e s fates

def query (read : σ → α) : Prog φ σ ε α := fun fates s => .done (read s) s fates

/-- A change of memory: it can be neither refused nor cut. -/
def modify (f : σ → σ) : Prog φ σ ε Unit := fun fates s => .done () (f s) fates

/-- One step on the outside world. A fault the step is not vulnerable to lets it proceed. -/
def effect (vulnerable : φ → Option ε) (run : σ → Except ε α × σ) : Prog φ σ ε α := fun fates s =>
  let perform (rest : List (Fate φ)) : Outcome φ σ ε α :=
    match run s with
    | (.ok a, s) => .done a s rest
    | (.error e, s) => .error e s rest
  match fates with
  | [] => perform []
  | .proceed :: rest => perform rest
  | .fault kind :: rest =>
    match vulnerable kind with
    | some e => .error e s rest
    | none => perform rest
  | .die :: _ => .died s

/-- Ask the environment whether `kind` has been raised. -/
def poll (kind : φ) [DecidableEq φ] : Prog φ σ ε Bool := fun fates s =>
  match fates with
  | [] => .done false s []
  | .proceed :: rest => .done false s rest
  | .fault other :: rest => .done (decide (other = kind)) s rest
  | .die :: _ => .died s

/-- Run `p` and hand its error to the caller; death is not caught. -/
def attempt (p : Prog φ σ ε α) : Prog φ σ ε (Except ε α) := fun fates s =>
  match p fates s with
  | .done a s rest => .done (.ok a) s rest
  | .error e s rest => .done (.error e) s rest
  | .died s => .died s

def ofExcept : Except ε α → Prog φ σ ε α
  | .ok a => pure a
  | .error e => throw e

def forEach (body : β → Prog φ σ ε Unit) : List β → Prog φ σ ε Unit
  | [] => pure ()
  | x :: xs => do
    body x
    forEach body xs

end Prog

/-- Which fates a run may meet. -/
structure Faults (φ : Type) where
  die : Prop
  fault : φ → Prop

def Faults.calm : Faults φ := ⟨False, fun _ => False⟩

def Faults.any : Faults φ := ⟨True, fun _ => True⟩

/-- A run may meet a fault or its death. -/
def Faults.Possible (faults : Faults φ) : Prop := faults.die ∨ ∃ kind, faults.fault kind

def Faults.Allows (faults : Faults φ) : Fate φ → Prop
  | .proceed => True
  | .fault kind => faults.fault kind
  | .die => faults.die

@[simp] theorem any_allows (fate : Fate φ) : Faults.any.Allows fate := by
  cases fate <;> exact trivial

/-- What each way of ending must establish. -/
structure Ends (σ ε α : Type) where
  done : α → σ → Prop
  error : ε → σ → Prop
  died : σ → Prop

/-- One condition on the state, whatever the ending. -/
def Ends.all (keep : σ → Prop) : Ends σ ε α := ⟨fun _ => keep, fun _ => keep, keep⟩

/-- Only completion is possible, with the given result. -/
def Ends.only (done : α → σ → Prop) : Ends σ ε α := ⟨done, fun _ _ => False, fun _ => False⟩

/-- A condition on completed runs. -/
def Ends.ifDone (done : α → σ → Prop) : Ends σ ε α := ⟨done, fun _ _ => True, fun _ => True⟩

def Ends.with (ends : Ends σ ε α) (done : β → σ → Prop) : Ends σ ε β := ⟨done, ends.error, ends.died⟩

def Outcome.Meets (faults : Faults φ) (ends : Ends σ ε α) : Outcome φ σ ε α → Prop
  | .done a s rest => ends.done a s ∧ ∀ fate ∈ rest, faults.Allows fate
  | .error e s rest => ends.error e s ∧ ∀ fate ∈ rest, faults.Allows fate
  | .died s => ends.died s

/-- Every run of `p` from `s` under allowed fates ends as `ends` demands. -/
def wp (faults : Faults φ) (p : Prog φ σ ε α) (ends : Ends σ ε α) (s : σ) : Prop :=
  ∀ fates, (∀ fate ∈ fates, faults.Allows fate) → (p fates s).Meets faults ends

variable {faults : Faults φ} {ends other : Ends σ ε α} {s : σ}

theorem Outcome.Meets.mono {o : Outcome φ σ ε α} (met : o.Meets faults ends)
    (done : ∀ a s, ends.done a s → other.done a s) (error : ∀ e s, ends.error e s → other.error e s)
    (died : ∀ s, ends.died s → other.died s) : o.Meets faults other := by
  cases o with
  | done a s rest => exact ⟨done a s met.1, met.2⟩
  | error e s rest => exact ⟨error e s met.1, met.2⟩
  | died s => exact died s met

theorem wp_mono {p : Prog φ σ ε α} (proved : wp faults p ends s)
    (done : ∀ a s, ends.done a s → other.done a s) (error : ∀ e s, ends.error e s → other.error e s)
    (died : ∀ s, ends.died s → other.died s) : wp faults p other s :=
  fun fates allowed => (proved fates allowed).mono done error died

/-- Weaken the completion condition only. -/
theorem wp_done {p : Prog φ σ ε α} {done : α → σ → Prop} {ends : Ends σ ε β}
    (proved : wp faults p (ends.with done) s) {weaker : α → σ → Prop}
    (weaken : ∀ a s, done a s → weaker a s) : wp faults p (ends.with weaker) s :=
  wp_mono proved weaken (fun _ _ => id) (fun _ => id)

/-- Two facts about the same run. -/
theorem wp_and {p : Prog φ σ ε α} (left : wp faults p ends s) (right : wp faults p other s) :
    wp faults p ⟨fun a s => ends.done a s ∧ other.done a s,
      fun e s => ends.error e s ∧ other.error e s, fun s => ends.died s ∧ other.died s⟩ s := by
  intro fates allowed
  have first := left fates allowed
  have second := right fates allowed
  cases run : p fates s with
  | done a s rest =>
    rw [run] at first second
    exact ⟨⟨first.1, second.1⟩, first.2⟩
  | error e s rest =>
    rw [run] at first second
    exact ⟨⟨first.1, second.1⟩, first.2⟩
  | died s =>
    rw [run] at first second
    exact ⟨first, second⟩

theorem wp_pure {a : α} (met : ends.done a s) : wp faults (pure a : Prog φ σ ε α) ends s :=
  fun _ allowed => ⟨met, allowed⟩

theorem wp_throw {e : ε} (met : ends.error e s) : wp faults (Prog.throw e : Prog φ σ ε α) ends s :=
  fun _ allowed => ⟨met, allowed⟩

theorem wp_query {read : σ → α} (met : ends.done (read s) s) :
    wp faults (Prog.query read : Prog φ σ ε α) ends s :=
  fun _ allowed => ⟨met, allowed⟩

theorem wp_modify {f : σ → σ} {ends : Ends σ ε Unit} (met : ends.done () (f s)) :
    wp faults (Prog.modify f : Prog φ σ ε Unit) ends s :=
  fun _ allowed => ⟨met, allowed⟩

theorem wp_ofExcept {result : Except ε α} (ok : ∀ a, result = .ok a → ends.done a s)
    (error : ∀ e, result = .error e → ends.error e s) :
    wp faults (Prog.ofExcept result : Prog φ σ ε α) ends s := by
  cases result with
  | ok a => exact wp_pure (ok a rfl)
  | error e => exact wp_throw (error e rfl)

theorem wp_ite {p q : Prog φ σ ε α} {c : Prop} [Decidable c] (yes : wp faults p ends s) (no : wp faults q ends s) :
    wp faults (if c then p else q) ends s := by
  by_cases holds : c
  · rwa [if_pos holds]
  · rwa [if_neg holds]

theorem wp_bind {p : Prog φ σ ε α} {k : α → Prog φ σ ε β} {ends : Ends σ ε β}
    (first : wp faults p (ends.with fun a => wp faults (k a) ends) s) : wp faults (p >>= k) ends s := by
  intro fates allowed
  have met := first fates allowed
  change (Prog.bind p k fates s).Meets faults ends
  unfold Prog.bind
  cases run : p fates s with
  | done a s rest =>
    rw [run] at met
    exact met.1 rest met.2
  | error e s rest =>
    rw [run] at met
    exact met
  | died s =>
    rw [run] at met
    exact met

/-- An effect meets its ends when its own result does, and, where the fates allow it, when the
state it never reached does. -/
theorem wp_effect {vulnerable : φ → Option ε} {run : σ → Except ε α × σ}
    (ok : ∀ a after, run s = (.ok a, after) → ends.done a after)
    (failed : ∀ e after, run s = (.error e, after) → ends.error e after)
    (refused : ∀ kind e, faults.fault kind → vulnerable kind = some e → ends.error e s)
    (cut : faults.die → ends.died s) : wp faults (Prog.effect vulnerable run) ends s := by
  have perform : ∀ rest : List (Fate φ), (∀ fate ∈ rest, faults.Allows fate) →
      (match run s with
        | (.ok a, s) => Outcome.done a s rest
        | (.error e, s) => Outcome.error e s rest : Outcome φ σ ε α).Meets faults ends := by
    intro rest allowed
    rcases result : run s with ⟨answer, after⟩
    cases answer with
    | ok a => exact ⟨ok a after result, allowed⟩
    | error e => exact ⟨failed e after result, allowed⟩
  intro fates allowed
  match fates with
  | [] => exact perform [] (by simp)
  | .proceed :: rest => exact perform rest fun fate member => allowed fate (List.mem_cons_of_mem _ member)
  | .die :: rest => exact cut (allowed .die List.mem_cons_self)
  | .fault kind :: rest =>
    have tail : ∀ fate ∈ rest, faults.Allows fate := fun fate member =>
      allowed fate (List.mem_cons_of_mem _ member)
    simp only [Prog.effect]
    cases hit : vulnerable kind with
    | some e => exact ⟨refused kind e (allowed (.fault kind) List.mem_cons_self) hit, tail⟩
    | none => exact perform rest tail

theorem wp_poll [DecidableEq φ] {kind : φ} {ends : Ends σ ε Bool} (quiet : ends.done false s)
    (raised : faults.fault kind → ends.done true s) (cut : faults.die → ends.died s) :
    wp faults (Prog.poll kind : Prog φ σ ε Bool) ends s := by
  intro fates allowed
  match fates with
  | [] => exact ⟨quiet, by simp⟩
  | .proceed :: rest => exact ⟨quiet, fun fate member => allowed fate (List.mem_cons_of_mem _ member)⟩
  | .die :: rest => exact cut (allowed .die List.mem_cons_self)
  | .fault found :: rest =>
    refine ⟨?_, fun fate member => allowed fate (List.mem_cons_of_mem _ member)⟩
    by_cases same : found = kind
    · simpa only [same, decide_true] using raised (same ▸ allowed (.fault found) List.mem_cons_self)
    · simpa only [same, decide_false] using quiet

theorem wp_attempt {p : Prog φ σ ε α} {ends : Ends σ ε (Except ε α)}
    (inner : wp faults p ⟨fun a => ends.done (.ok a), fun e => ends.done (.error e), ends.died⟩ s) :
    wp faults p.attempt ends s := by
  intro fates allowed
  have met := inner fates allowed
  unfold Prog.attempt
  cases run : p fates s with
  | done a s rest =>
    rw [run] at met
    exact met
  | error e s rest =>
    rw [run] at met
    exact met
  | died s =>
    rw [run] at met
    exact met

/-- The loop rule: `keep` is indexed by the elements still to come. -/
theorem wp_forEach {body : β → Prog φ σ ε Unit} {ends : Ends σ ε Unit} (keep : List β → σ → Prop)
    (step : ∀ x xs s, keep (x :: xs) s → wp faults (body x) (ends.with fun _ => keep xs) s)
    (stop : ∀ s, keep [] s → ends.done () s) (xs : List β) (s : σ) (start : keep xs s) :
    wp faults (Prog.forEach body xs) ends s := by
  induction xs generalizing s with
  | nil => exact wp_pure (stop s start)
  | cons x xs ih => exact wp_bind (wp_done (step x xs s start) fun _ s kept => ih s kept)

/-- What a triple says about one run. -/
theorem wp_final {p : Prog φ σ ε α} {keep : σ → Prop} (proved : wp faults p (Ends.all keep) s)
    {fates : List (Fate φ)} (allowed : ∀ fate ∈ fates, faults.Allows fate) : keep (p fates s).final := by
  have met := proved fates allowed
  cases run : p fates s with
  | done a s rest =>
    rw [run] at met
    exact met.1
  | error e s rest =>
    rw [run] at met
    exact met.1
  | died s =>
    rw [run] at met
    exact met

/-- What a triple says about a completed run. -/
theorem wp_completed {p : Prog φ σ ε α} {done : α → σ → Prop} (proved : wp faults p (Ends.ifDone done) s)
    {fates : List (Fate φ)} (allowed : ∀ fate ∈ fates, faults.Allows fate) (ended : (p fates s).completed = true) :
    ∃ a, done a (p fates s).final := by
  have met := proved fates allowed
  cases run : p fates s with
  | done a s rest =>
    rw [run] at met
    exact ⟨a, met.1⟩
  | error e s rest =>
    rw [run] at ended
    cases ended
  | died s =>
    rw [run] at ended
    cases ended

/-- An invariant of a program, as the first part of a completed run. -/
theorem wp_ifDone {p : Prog φ σ ε α} {keep : σ → Prop} {k : α → σ → Prop} (kept : wp faults p (Ends.all keep) s)
    (rest : ∀ a t, keep t → k a t) : wp faults p (Ends.ifDone k) s :=
  wp_mono kept rest (fun _ _ _ => trivial) fun _ _ => trivial

/-- A program that does not come to its end takes the rest with it. -/
theorem final_of_stopped {p : Prog φ σ ε α} {k : α → Prog φ σ ε β} {fates : List (Fate φ)}
    (stopped : (p fates s).completed = false) : ((p >>= k) fates s).final = (p fates s).final ∧
      ((p >>= k) fates s).completed = false := by
  change (Prog.bind p k fates s).final = _ ∧ (Prog.bind p k fates s).completed = false
  unfold Prog.bind
  cases run : p fates s with
  | done a s rest =>
    rw [run] at stopped
    cases stopped
  | error e s rest => exact ⟨rfl, rfl⟩
  | died s => exact ⟨rfl, rfl⟩

/-- After a program that came to its end the rest runs on. -/
theorem final_of_completed {p : Prog φ σ ε α} {k : α → Prog φ σ ε β} {fates : List (Fate φ)} {done : α → σ → Prop}
    {keep : σ → Prop} (proved : wp Faults.any p (Ends.ifDone done) s)
    (rest : ∀ a t, done a t → wp Faults.any (k a) (Ends.all keep) t) (completed : (p fates s).completed = true) :
    keep ((p >>= k) fates s).final := by
  have met := proved fates fun fate _ => any_allows fate
  change keep (Prog.bind p k fates s).final
  unfold Prog.bind
  cases run : p fates s with
  | done a t more =>
    rw [run] at met
    exact wp_final (rest a t met.1) fun fate _ => any_allows fate
  | error e t more =>
    rw [run] at completed
    cases completed
  | died t =>
    rw [run] at completed
    cases completed

theorem bind_done {p : Prog φ σ ε α} {k : α → Prog φ σ ε β} {fates rest : List (Fate φ)} {a : α} {t : σ}
    (ran : p fates s = .done a t rest) : (p >>= k) fates s = k a rest t := by
  change Prog.bind p k fates s = _
  unfold Prog.bind
  rw [ran]

/-- The next effect is neither cut nor refused. -/
def performed (refused : φ → Bool) : List (Fate φ) → Bool
  | [] | .proceed :: _ => true
  | .fault kind :: _ => !refused kind
  | .die :: _ => false

section Performed

variable {vulnerable : φ → Option ε} {run : σ → Except ε α × σ} {refused : φ → Bool} {fates : List (Fate φ)}

theorem effect_performed {a : α} {t : σ} (ran : run s = (.ok a, t)) (same : ∀ kind, (vulnerable kind).isSome = refused kind)
    (next : performed refused fates = true) : Prog.effect vulnerable run fates s = .done a t fates.tail := by
  have none : ∀ kind, refused kind = false → vulnerable kind = none := by
    intro kind spared
    rw [← same kind] at spared
    simpa using spared
  cases fates with
  | nil => simp only [Prog.effect, ran, List.tail_nil]
  | cons fate rest =>
    cases fate with
    | proceed => simp only [Prog.effect, ran, List.tail_cons]
    | fault kind =>
      have spared : refused kind = false := by simpa [performed] using next
      simp only [Prog.effect, none kind spared, ran, List.tail_cons]
    | die => cases next

theorem effect_stopped (same : ∀ kind, (vulnerable kind).isSome = refused kind)
    (next : performed refused fates = false) : (Prog.effect vulnerable run fates s).final = s ∧
      (Prog.effect vulnerable run fates s).completed = false := by
  cases fates with
  | nil => cases next
  | cons fate rest =>
    cases fate with
    | proceed => cases next
    | fault kind =>
      have hit : refused kind = true := by simpa [performed] using next
      rw [← same kind] at hit
      obtain ⟨e, broken⟩ := Option.isSome_iff_exists.mp hit
      simp only [Prog.effect, broken]
      exact ⟨rfl, rfl⟩
    | die => exact ⟨rfl, rfl⟩

end Performed

/-- With no fault allowed a triple is about the one undisturbed run. -/
theorem wp_calm {p : Prog φ σ ε α} {done : α → σ → Prop}
    (proved : wp Faults.calm p (Ends.only done) s) :
    ∃ a after rest, p [] s = .done a after rest ∧ done a after := by
  have met := proved [] (by simp)
  cases run : p [] s with
  | done a after rest =>
    rw [run] at met
    exact ⟨a, after, rest, rfl, met.1⟩
  | error e after rest =>
    rw [run] at met
    exact met.1.elim
  | died after =>
    rw [run] at met
    exact met.elim

/-! ### Invariants of programs -/

/-- However a run from a state with `keep` ends, `keep` holds. -/
def Preserves (faults : Faults φ) (keep : σ → Prop) (p : Prog φ σ ε α) : Prop :=
  ∀ s, keep s → wp faults p (Ends.all keep) s

namespace Preserves

variable {keep : σ → Prop}

theorem pure (a : α) : Preserves faults keep (pure a : Prog φ σ ε α) := fun _ kept => wp_pure kept

theorem throw (e : ε) : Preserves faults keep (Prog.throw e : Prog φ σ ε α) := fun _ kept => wp_throw kept

theorem query (read : σ → α) : Preserves faults keep (Prog.query read : Prog φ σ ε α) := fun _ kept => wp_query kept

theorem ofExcept (result : Except ε α) : Preserves faults keep (Prog.ofExcept result : Prog φ σ ε α) :=
  fun _ kept => wp_ofExcept (fun _ _ => kept) fun _ _ => kept

theorem poll [DecidableEq φ] (kind : φ) : Preserves faults keep (Prog.poll kind : Prog φ σ ε Bool) :=
  fun _ kept => wp_poll kept (fun _ => kept) fun _ => kept

theorem modify {f : σ → σ} (closed : ∀ s, keep s → keep (f s)) :
    Preserves faults keep (Prog.modify f : Prog φ σ ε Unit) := fun s kept => wp_modify (closed s kept)

theorem effect {vulnerable : φ → Option ε} {run : σ → Except ε α × σ} (closed : ∀ s, keep s → keep (run s).2) :
    Preserves faults keep (Prog.effect vulnerable run) := by
  intro s kept
  have after := closed s kept
  apply wp_effect
  · intro a t result
    rwa [result] at after
  · intro e t result
    rwa [result] at after
  · exact fun _ _ _ _ => kept
  · exact fun _ => kept

theorem bind {p : Prog φ σ ε α} {k : α → Prog φ σ ε β} (first : Preserves faults keep p)
    (rest : ∀ a, Preserves faults keep (k a)) : Preserves faults keep (p >>= k) :=
  fun s kept => wp_bind (wp_mono (first s kept) (fun a t here => rest a t here) (fun _ _ => id) fun _ => id)

/-- A first part that keeps more than the whole has to. -/
theorem through {strong : σ → Prop} {p : Prog φ σ ε α} {k : α → Prog φ σ ε β} (first : Preserves faults strong p)
    (weaker : ∀ s, strong s → keep s) (here : strong s)
    (rest : ∀ a t, strong t → wp faults (k a) (Ends.all keep) t) : wp faults (p >>= k) (Ends.all keep) s :=
  wp_bind (wp_mono (first s here) rest (fun _ => weaker) weaker)

theorem attempt {p : Prog φ σ ε α} (body : Preserves faults keep p) : Preserves faults keep p.attempt :=
  fun s kept => wp_attempt (wp_mono (body s kept) (fun _ _ => id) (fun _ _ => id) fun _ => id)

theorem ite {p q : Prog φ σ ε α} {c : Prop} [Decidable c] (yes : Preserves faults keep p)
    (no : Preserves faults keep q) : Preserves faults keep (if c then p else q) := by
  by_cases holds : c
  · rwa [if_pos holds]
  · rwa [if_neg holds]

/-- A step that is taken in one case only, before the rest that follows in both. -/
theorem skipIf {p : Prog φ σ ε β} {k : β → Prog φ σ ε α} {c : Prop} [Decidable c] (b : β)
    (step : Preserves faults keep p) (rest : ∀ b, Preserves faults keep (k b)) :
    Preserves faults keep (if c then k b else p >>= k) := ite (rest b) (bind step rest)

theorem onlyIf {p : Prog φ σ ε β} {k : β → Prog φ σ ε α} {c : Prop} [Decidable c] (b : β)
    (step : Preserves faults keep p) (rest : ∀ b, Preserves faults keep (k b)) :
    Preserves faults keep (if c then p >>= k else k b) := ite (bind step rest) (rest b)

theorem forEachIn {body : β → Prog φ σ ε Unit} (xs : List β) (each : ∀ x ∈ xs, Preserves faults keep (body x)) :
    Preserves faults keep (Prog.forEach body xs) := by
  induction xs with
  | nil => exact pure ()
  | cons x xs ih =>
    have rest := ih fun y member => each y (List.mem_cons_of_mem _ member)
    exact bind (each x List.mem_cons_self) fun _ => rest

theorem forEach {body : β → Prog φ σ ε Unit} (each : ∀ x, Preserves faults keep (body x)) (xs : List β) :
    Preserves faults keep (Prog.forEach body xs) := forEachIn xs fun x _ => each x

end Preserves

end Rqmd.Interrupt
