import Mathlib.Data.List.Pairwise

/-! Tables of rows under unique constraints. A constraint says which two rows may not stand in one
table; the table carries the proof that none of its rows do, so every operation that builds a table
has to keep it. -/

namespace Rqmd

/-- The unique constraints of a row type, as the relation between two rows that break one. -/
class Constraint (ρ : Type) where
  clash : ρ → ρ → Prop
  refl : ∀ a, clash a a
  symm : ∀ {a b}, clash a b → clash b a
  dec : DecidableRel clash

instance (ρ : Type) [Constraint ρ] : DecidableRel fun a b : ρ => Constraint.clash a b := Constraint.dec

structure Table (ρ : Type) [Constraint ρ] where
  rows : List ρ
  apart : rows.Pairwise fun a b => ¬ Constraint.clash a b

namespace Table

variable {ρ : Type} [Constraint ρ]

instance : Membership ρ (Table ρ) := ⟨fun t r => r ∈ t.rows⟩

@[simp] theorem mem_rows {t : Table ρ} {r : ρ} : r ∈ t.rows ↔ r ∈ t := Iff.rfl

@[ext] theorem ext {t u : Table ρ} (same : t.rows = u.rows) : t = u := by
  cases t
  cases u
  cases same
  rfl

def empty : Table ρ := ⟨[], .nil⟩

instance : EmptyCollection (Table ρ) := ⟨empty⟩

@[simp] theorem not_mem_empty (r : ρ) : ¬ r ∈ (∅ : Table ρ) := List.not_mem_nil

instance : Std.Symm fun a b : ρ => ¬ Constraint.clash a b :=
  ⟨fun _ _ safe clash => safe (Constraint.symm clash)⟩

/-- Two rows of a table that break a constraint are one row. -/
theorem eq_of_clash {t : Table ρ} {a b : ρ} (left : a ∈ t) (right : b ∈ t)
    (clash : Constraint.clash a b) : a = b := by
  by_contra distinct
  exact t.apart.forall left right distinct clash

def find? (t : Table ρ) (p : ρ → Bool) : Option ρ := t.rows.find? p

def any (t : Table ρ) (p : ρ → Bool) : Bool := t.rows.any p

def select (t : Table ρ) (p : ρ → Bool) : List ρ := t.rows.filter p

@[simp] theorem mem_select {t : Table ρ} {p : ρ → Bool} {r : ρ} : r ∈ t.select p ↔ r ∈ t ∧ p r :=
  List.mem_filter

@[simp] theorem any_eq_true {t : Table ρ} {p : ρ → Bool} : t.any p = true ↔ ∃ r ∈ t, p r :=
  List.any_eq_true

theorem find?_some {t : Table ρ} {p : ρ → Bool} {r : ρ} (found : t.find? p = some r) : r ∈ t ∧ p r :=
  ⟨List.mem_of_find?_eq_some found, List.find?_some found⟩

theorem find?_none {t : Table ρ} {p : ρ → Bool} (absent : t.find? p = none) : ∀ r ∈ t, ¬ p r :=
  List.find?_eq_none.mp absent

/-- A key that only one row can carry is found at the row that carries it. -/
theorem find?_eq_some {t : Table ρ} {p : ρ → Bool} (key : ∀ a b, p a → p b → Constraint.clash a b)
    {r : ρ} (member : r ∈ t) (hit : p r) : t.find? p = some r := by
  cases found : t.find? p with
  | none => exact (find?_none found r member hit).elim
  | some other =>
    obtain ⟨inside, same⟩ := find?_some found
    rw [eq_of_clash inside member (key other r same hit)]

/-- `DELETE … WHERE p`. -/
def deleteWhere (t : Table ρ) (p : ρ → Bool) : Table ρ :=
  ⟨t.rows.filter fun r => !p r, t.apart.filter _⟩

@[simp] theorem mem_deleteWhere {t : Table ρ} {p : ρ → Bool} {r : ρ} :
    r ∈ t.deleteWhere p ↔ r ∈ t ∧ ¬ p r := by
  change r ∈ t.rows.filter _ ↔ _
  simp

/-- `INSERT` of a row no constraint keeps out. -/
def append (t : Table ρ) (r : ρ) (fresh : ∀ a ∈ t.rows, ¬ Constraint.clash a r) : Table ρ :=
  ⟨t.rows ++ [r], List.pairwise_append.mpr ⟨t.apart, List.pairwise_singleton .., by simpa using fresh⟩⟩

@[simp] theorem mem_append {t : Table ρ} {r x : ρ} (fresh : ∀ a ∈ t.rows, ¬ Constraint.clash a r) :
    x ∈ t.append r fresh ↔ x ∈ t ∨ x = r := by
  change x ∈ t.rows ++ [r] ↔ _
  simp

def insert? (t : Table ρ) (r : ρ) : Option (Table ρ) :=
  if fresh : ∀ a ∈ t.rows, ¬ Constraint.clash a r then some (t.append r fresh) else none

theorem mem_insert? {t u : Table ρ} {r x : ρ} (inserted : t.insert? r = some u) : x ∈ u ↔ x ∈ t ∨ x = r := by
  unfold insert? at inserted
  split at inserted
  · next fresh =>
    rw [← Option.some.inj inserted]
    exact mem_append fresh
  · cases inserted

/-- `UPDATE` by a change of row that makes no two rows clash. -/
def amend (t : Table ρ) (f : ρ → ρ)
    (keeps : ∀ a ∈ t.rows, ∀ b ∈ t.rows, Constraint.clash (f a) (f b) → Constraint.clash a b) : Table ρ :=
  ⟨t.rows.map f, by
    rw [List.pairwise_map]
    exact t.apart.imp_of_mem fun left right safe clash => safe (keeps _ left _ right clash)⟩

@[simp] theorem mem_amend {t : Table ρ} {f : ρ → ρ}
    {keeps : ∀ a ∈ t.rows, ∀ b ∈ t.rows, Constraint.clash (f a) (f b) → Constraint.clash a b} {x : ρ} :
    x ∈ t.amend f keeps ↔ ∃ r ∈ t, f r = x := by
  change x ∈ t.rows.map f ↔ _
  simp

/-- `UPDATE` when the constraints may refuse the result. -/
def amend? (t : Table ρ) (f : ρ → ρ) : Option (Table ρ) :=
  if keeps : ∀ a ∈ t.rows, ∀ b ∈ t.rows, Constraint.clash (f a) (f b) → Constraint.clash a b then
    some (t.amend f keeps)
  else none

theorem mem_amend? {t u : Table ρ} {f : ρ → ρ} {x : ρ} (amended : t.amend? f = some u) : x ∈ u ↔ ∃ r ∈ t, f r = x := by
  unfold amend? at amended
  split at amended
  · rw [← Option.some.inj amended]
    exact mem_amend
  · cases amended

/-- A change that leaves the constrained columns alone. -/
def Keeps (f : ρ → ρ) : Prop := ∀ a b, Constraint.clash (f a) (f b) → Constraint.clash a b

def amendKeys (t : Table ρ) (f : ρ → ρ) (keeps : Keeps f) : Table ρ :=
  t.amend f fun a _ b _ => keeps a b

@[simp] theorem mem_amendKeys {t : Table ρ} {f : ρ → ρ} {keeps : Keeps f} {x : ρ} :
    x ∈ t.amendKeys f keeps ↔ ∃ r ∈ t, f r = x := mem_amend

end Table

end Rqmd
