import Rqmd.Indexing

/-! The files of the collections as they change while the program runs. -/

namespace Rqmd

/-- A file as a walk finds it and `prepare` would read it. -/
structure FoundFile where
  stat : Option FileStat
  doc : PreparedDoc
deriving DecidableEq

/-- The files that the walks of the collections would find and the clock, moment by moment. -/
structure Timeline where
  file : Nat → CollectionName → String → Option FoundFile
  clock : Nat → Int

namespace Timeline

def stat (tl : Timeline) (t : Nat) (c : CollectionName) (path : String) : Option FileStat :=
  (tl.file t c path).bind FoundFile.stat

/-- The file at the path is the same one from the first moment to the last. -/
def Unchanged (tl : Timeline) (c : CollectionName) (path : String) (first last : Nat) : Prop :=
  ∀ t, first ≤ t → t ≤ last → tl.file t c path = tl.file last c path

/-- A stat that is old enough to be trusted does not come back with another file: one that is found with it before
the check and after it has not changed since the check. -/
def NoReturn (tl : Timeline) : Prop :=
  ∀ c path first checked last x, first ≤ checked → checked ≤ last → tl.file last c path = some x →
    tl.stat first c path = x.stat → (∀ stat, x.stat = some stat → trustedStat (tl.clock checked) stat = some stat) →
    tl.Unchanged c path checked last

/-- The clock never goes back, and a file that has changed is stamped with the clock of the change, at most a trust
window too early. -/
structure Stamped (tl : Timeline) : Prop where
  monotone : ∀ u v, u ≤ v → tl.clock u ≤ tl.clock v
  stamps : ∀ t c path x stat, tl.file (t + 1) c path = some x → tl.file (t + 1) c path ≠ tl.file t c path →
    x.stat = some stat → tl.clock (t + 1) - mtimeTrustWindow ≤ stat.2 ∧ stat.2 ≤ tl.clock (t + 1)

variable {tl : Timeline} {c : CollectionName} {path : String} {first last u v : Nat}

theorem Unchanged.within (same : tl.Unchanged c path first last) (after : first ≤ u) (ordered : u ≤ v) (before : v ≤ last) :
    tl.Unchanged c path u v := by
  intro t late early
  have here := same t (by omega) (by omega)
  have there := same v (by omega) before
  rw [here, there]

/-- A file whose stamp was old at some moment has not changed since. -/
theorem Stamped.unchanged (stamped : tl.Stamped) {x : FoundFile} {stat : FileStat} (ordered : first ≤ last)
    (found : tl.file last c path = some x) (has : x.stat = some stat)
    (old : trustedStat (tl.clock first) stat = some stat) : tl.Unchanged c path first last := by
  have age : mtimeTrustWindow < tl.clock first - stat.2 := by
    unfold trustedStat at old
    by_cases trusted : 0 ≤ stat.2 ∧ mtimeTrustWindow < tl.clock first - stat.2
    · exact trusted.2
    · rw [if_neg trusted] at old
      cases old
  obtain ⟨n, rfl⟩ := Nat.exists_eq_add_of_le ordered
  induction n with
  | zero =>
    intro t late early
    rw [show t = first by omega]
    rfl
  | succ n ih =>
    -- a change in the last step would have left a later stamp
    have still : tl.file (first + n + 1) c path = tl.file (first + n) c path := by
      by_contra changed
      have stamp := stamped.stamps (first + n) c path x stat found changed has
      have clock := stamped.monotone first (first + n + 1) (by omega)
      omega
    have before : tl.file (first + n) c path = some x := still.symm.trans found
    intro t late early
    by_cases here : t = first + (n + 1)
    · rw [here]
    · rw [ih (by omega) before t late (by omega)]
      exact still.symm

end Timeline

end Rqmd
