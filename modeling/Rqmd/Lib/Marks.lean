import Mathlib.Data.List.Infix

/-! Texts with marks woven in. A mark is a lead and a body without leads; no body is the front of another. Marks are
deleted in one pass, and a mark that another one has been put into is never whole again. -/

namespace Marks

/-- The lead of every mark, and the bodies behind it. -/
structure Scheme (α : Type) where
  lead : α
  bodies : List (List α)
  plain : ∀ body ∈ bodies, lead ∉ body
  apart : ∀ body ∈ bodies, ∀ other ∈ bodies, body <+: other → body = other

variable {α : Type}

/-- The second text is the first one with marks put in. -/
inductive Woven (m : Scheme α) : List α → List α → Prop
  | nil : Woven m [] []
  | plain (c : α) {text out : List α} (later : Woven m text out) : Woven m (c :: text) (c :: out)
  | mark {body : List α} (known : body ∈ m.bodies) {text out : List α} (later : Woven m text out) :
      Woven m text (m.lead :: (body ++ out))

/-- Some lead is not followed by a body. -/
def Broken (m : Scheme α) (text : List α) : Prop :=
  ∃ before after, text = before ++ m.lead :: after ∧ ∀ body ∈ m.bodies, ¬body <+: after

/-- Between the two texts lies the inside of a mark. -/
def Cuts (m : Scheme α) (left right : List α) : Prop :=
  ∃ before front back after, left = before ++ front ∧ right = back ++ after ∧ front ≠ [] ∧ back ≠ [] ∧
    ∃ body ∈ m.bodies, front ++ back = m.lead :: body

variable {m : Scheme α} {text text' out out' left right body rest : List α}

theorem Woven.refl (text : List α) : Woven m text text := by
  induction text with
  | nil => exact .nil
  | cons c text later => exact .plain c later

theorem Woven.append (first : Woven m text out) (second : Woven m text' out') : Woven m (text ++ text') (out ++ out') := by
  induction first with
  | nil => exact second
  | plain c _ later => exact .plain c later
  | mark known _ later =>
    rw [List.cons_append, List.append_assoc]
    exact .mark known later

theorem Woven.mark_behind (woven : Woven m text out) (known : body ∈ m.bodies) :
    Woven m text (out ++ m.lead :: body) := by
  have single := Woven.mark known (@Woven.nil α m)
  have joined := woven.append single
  rwa [List.append_nil, List.append_nil] at joined

/-! ### Broken marks stay broken -/

theorem within_front (plain : m.lead ∉ body) (front : body <+: left ++ m.lead :: rest) : body <+: left := by
  rcases List.prefix_or_prefix_of_prefix front (List.prefix_append left _) with shorter | longer
  · exact shorter
  · obtain ⟨tail, whole⟩ := longer
    cases tail with
    | nil =>
      rw [List.append_nil] at whole
      rw [whole]
    | cons c tail =>
      rw [← whole, List.prefix_append_right_inj, List.cons_prefix_cons] at front
      have inside : m.lead ∈ left ++ c :: tail := by
        rw [front.1]
        exact List.mem_append_right _ List.mem_cons_self
      exact absurd (whole ▸ inside) plain

/-- A body in a woven text was there before. -/
theorem Woven.body_front (woven : Woven m text out) (plain : m.lead ∉ body) (front : body <+: out) : body <+: text := by
  induction body generalizing text out with
  | nil => exact List.nil_prefix
  | cons c body later =>
    cases woven with
    | nil => exact absurd (List.prefix_nil.mp front) (List.cons_ne_nil _ _)
    | plain d inner =>
      rw [List.cons_prefix_cons] at front ⊢
      exact ⟨front.1, later inner (fun inside => plain (List.mem_cons_of_mem c inside)) front.2⟩
    | mark known inner =>
      rw [List.cons_prefix_cons] at front
      exact absurd (front.1 ▸ List.mem_cons_self) plain

theorem Woven.image {before after : List α} {c : α} (woven : Woven m (before ++ c :: after) out) :
    ∃ before' after', out = before' ++ c :: after' ∧ Woven m after after' := by
  generalize whole : before ++ c :: after = text at woven
  induction woven generalizing before with
  | nil => exact absurd whole (by simp)
  | plain d inner later =>
    cases before with
    | nil =>
      obtain ⟨rfl, rfl⟩ := List.cons.inj whole
      exact ⟨[], _, rfl, inner⟩
    | cons e before =>
      obtain ⟨before', after', rfl, woven⟩ := later (List.cons.inj whole).2
      exact ⟨d :: before', after', rfl, woven⟩
  | @mark body known text out inner later =>
    obtain ⟨before', after', rfl, woven⟩ := later whole
    refine ⟨m.lead :: (body ++ before'), after', ?_, woven⟩
    rw [List.cons_append, List.append_assoc]

theorem Broken.woven (broken : Broken m text) (woven : Woven m text out) : Broken m out := by
  obtain ⟨before, after, rfl, bare⟩ := broken
  obtain ⟨before', after', same, inner⟩ := woven.image
  exact ⟨before', after', same, fun body known front => bare body known (inner.body_front (m.plain body known) front)⟩

theorem Cuts.extend (cuts : Cuts m left right) (before : List α) : Cuts m (before ++ left) right := by
  obtain ⟨front, cut, back, after, rfl, whole⟩ := cuts
  exact ⟨before ++ front, cut, back, after, by rw [List.append_assoc], whole⟩

/-- A mark put inside another one breaks it. -/
theorem Cuts.broken (cuts : Cuts m left right) (woven : Woven m left out) (rest : List α) :
    Broken m (out ++ m.lead :: rest) := by
  obtain ⟨before, front, back, after, rfl, -, some, more, body, known, whole⟩ := cuts
  cases front with
  | nil => exact absurd rfl some
  | cons c front =>
    rw [List.cons_append] at whole
    obtain ⟨rfl, split⟩ := List.cons.inj whole
    obtain ⟨before', after', rfl, inner⟩ := woven.image
    refine ⟨before', after' ++ m.lead :: rest, by rw [List.append_assoc, List.cons_append], fun other among starts => ?_⟩
    have early := inner.body_front (m.plain other among) (within_front (m.plain other among) starts)
    have same := m.apart other among body known (early.trans ⟨back, split⟩)
    have lengths := early.length_le
    rw [same, ← split, List.length_append] at lengths
    have proper := List.length_pos_iff.mpr more
    omega

/-- Where no mark is cut, the text can be cut with what is woven in. -/
theorem Woven.split (woven : Woven m text (left ++ right)) (whole : ¬Cuts m left right) :
    ∃ first second, text = first ++ second ∧ Woven m first left ∧ Woven m second right := by
  generalize same : left ++ right = out at woven
  induction woven generalizing left with
  | nil =>
    obtain ⟨rfl, rfl⟩ := List.append_eq_nil_iff.mp same
    exact ⟨[], [], rfl, .nil, .nil⟩
  | @plain c text out inner later =>
    cases left with
    | nil =>
      rw [List.nil_append] at same
      exact ⟨[], c :: text, rfl, .nil, same ▸ .plain c inner⟩
    | cons d left =>
      obtain ⟨rfl, tails⟩ := List.cons.inj same
      have uncut : ¬Cuts m left right := by
        rintro ⟨before, front, back, after, rfl, cut⟩
        exact whole ⟨d :: before, front, back, after, rfl, cut⟩
      obtain ⟨first, second, rfl, start, stop⟩ := later uncut tails
      exact ⟨d :: first, second, rfl, .plain d start, stop⟩
  | @mark body known text out inner later =>
    cases left with
    | nil =>
      rw [List.nil_append] at same
      exact ⟨[], text, rfl, .nil, same ▸ .mark known inner⟩
    | cons d left =>
      obtain ⟨rfl, tails⟩ := List.cons.inj same
      rcases List.append_eq_append_iff.mp tails with ⟨back, split, tail⟩ | ⟨left', split, tail⟩
      · -- the cut lies in the mark or right behind it
        cases back with
        | nil =>
          rw [List.append_nil] at split
          refine ⟨[], text, rfl, ?_, tail ▸ inner⟩
          have single := Woven.mark known (@Woven.nil α m)
          rwa [List.append_nil, split] at single
        | cons e back =>
          refine absurd ⟨[], m.lead :: left, e :: back, out, rfl, tail, List.cons_ne_nil _ _, List.cons_ne_nil _ _, body,
            known, ?_⟩ whole
          rw [List.cons_append, split]
      · have uncut : ¬Cuts m left' right := by
          rintro ⟨before, front, back, after, rfl, cut⟩
          refine whole ⟨m.lead :: (body ++ before), front, back, after, ?_, cut⟩
          rw [split, List.cons_append, List.append_assoc]
        obtain ⟨first, second, rfl, start, stop⟩ := later uncut tail.symm
        refine ⟨first, second, rfl, ?_, stop⟩
        rw [split]
        exact .mark known start

/-! ### Deleting marks -/

variable [DecidableEq α]

/-- Deletes every mark; `skip` counts what is left of the last one. -/
def strip (m : Scheme α) : Nat → List α → List α
  | _, [] => []
  | skip + 1, _ :: text => strip m skip text
  | 0, c :: text =>
    if c = m.lead then
      match m.bodies.find? fun body => body.isPrefixOf text with
      | some body => strip m body.length text
      | none => c :: strip m 0 text
    else c :: strip m 0 text

theorem find_body (known : body ∈ m.bodies) (rest : List α) :
    m.bodies.find? (fun other => other.isPrefixOf (body ++ rest)) = some body := by
  have mine : body.isPrefixOf (body ++ rest) = true := List.isPrefixOf_iff_prefix.mpr (List.prefix_append body rest)
  cases found : m.bodies.find? fun other => other.isPrefixOf (body ++ rest) with
  | none => exact absurd mine (List.find?_eq_none.mp found body known)
  | some other =>
    have among := List.mem_of_find?_eq_some found
    have hit := List.find?_some found
    have front := List.isPrefixOf_iff_prefix.mp hit
    rcases List.prefix_or_prefix_of_prefix front (List.prefix_append body rest) with shorter | longer
    · rw [m.apart other among body known shorter]
    · rw [m.apart body known other among longer]

theorem strip_skip (m : Scheme α) (front rest : List α) : strip m front.length (front ++ rest) = strip m 0 rest := by
  induction front with
  | nil => rfl
  | cons c front later =>
    rw [List.length_cons, List.cons_append, strip, later]

/-- The marks put into a text without leads are deleted again. -/
theorem strip_woven (woven : Woven m text out) (plain : m.lead ∉ text) : strip m 0 out = text := by
  induction woven with
  | nil => rfl
  | plain c _ later =>
    have other : c ≠ m.lead := fun same => plain (same ▸ List.mem_cons_self)
    rw [strip, if_neg other, later fun inside => plain (List.mem_cons_of_mem c inside)]
  | mark known _ later =>
    rw [strip, if_pos rfl, find_body known]
    dsimp only
    rw [strip_skip, later plain]

/-- A lead without a body is not deleted. -/
theorem Broken.lead_mem (broken : Broken m text) : m.lead ∈ strip m 0 text := by
  obtain ⟨before, after, rfl, bare⟩ := broken
  have skipped : ∀ skip ≤ before.length, m.lead ∈ strip m skip (before ++ m.lead :: after) := by
    induction before with
    | nil =>
      intro skip none
      rw [Nat.le_zero.mp none, List.nil_append, strip, if_pos rfl]
      have absent : m.bodies.find? (fun body => body.isPrefixOf after) = Option.none :=
        List.find?_eq_none.mpr fun body known front => bare body known (List.isPrefixOf_iff_prefix.mp front)
      rw [absent]
      exact List.mem_cons_self
    | cons c before later =>
      intro skip short
      cases skip with
      | succ skip =>
        rw [List.cons_append, strip]
        exact later skip (Nat.le_of_succ_le_succ short)
      | zero =>
        have onward := later 0 (Nat.zero_le _)
        rw [List.cons_append, strip]
        split
        · split
          · next body found =>
            have known := List.mem_of_find?_eq_some found
            have hit := List.find?_some found
            have front := List.isPrefixOf_iff_prefix.mp hit
            exact later body.length (within_front (m.plain body known) front).length_le
          · exact List.mem_cons_of_mem c onward
        · exact List.mem_cons_of_mem c onward
  exact skipped 0 (Nat.zero_le _)

end Marks
