import Mathlib.Logic.Relation

/-! Runs of a labelled transition relation. A run takes the steps its guard wide; what every such step
preserves holds in every state the run reaches. -/

namespace Rqmd.Transition

variable {L S T : Type}

/-- A step of some label that `guard` lets through. -/
def Taken (step guard : L → S → S → Prop) (m n : S) : Prop := ∃ l, guard l m n ∧ step l m n

/-- The states a run from `start` reaches. -/
def Reaches (step guard : L → S → S → Prop) (start : S) : S → Prop := Relation.ReflTransGen (Taken step guard) start

def always : L → S → S → Prop := fun _ _ _ => True

variable {step guard : L → S → S → Prop} {start m n : S}

theorem Reaches.refl : Reaches step guard start start := Relation.ReflTransGen.refl

theorem Reaches.next (run : Reaches step guard start m) {l : L} (passed : guard l m n) (taken : step l m n) :
    Reaches step guard start n := run.tail ⟨l, passed, taken⟩

theorem Reaches.trans (first : Reaches step guard start m) (second : Reaches step guard m n) :
    Reaches step guard start n := Relation.ReflTransGen.trans first second

/-- The induction over a run. -/
theorem Reaches.invariant {keep : S → Prop} (run : Reaches step guard start m) (initially : keep start)
    (kept : ∀ l m n, keep m → guard l m n → step l m n → keep n) : keep m := by
  induction run with
  | refl => exact initially
  | tail _ taken ih =>
    obtain ⟨l, passed, moved⟩ := taken
    exact kept l _ _ ih passed moved

/-- A run that keeps to a narrower guard. -/
theorem Reaches.mono {wider : L → S → S → Prop} (run : Reaches step guard start m)
    (wide : ∀ l m n, guard l m n → step l m n → wider l m n) : Reaches step wider start m := by
  induction run with
  | refl => exact .refl
  | tail _ taken ih =>
    obtain ⟨l, passed, moved⟩ := taken
    exact ih.next (wide l _ _ passed moved) moved

end Rqmd.Transition
