import Mathlib.Data.List.Basic
import Mathlib.Data.List.Infix

/-! SQL's `LIKE` with the escape character `\`: `%` stands for any text and `_` for one character, and the case of
ASCII letters is folded. -/

namespace Like

/-- The first replaced by the first two, everywhere. -/
def double (c : Char) (text : List Char) : List Char := text.flatMap fun d => if d = c then ['\\', d] else [d]

/-- A text as a pattern that matches it literally. The escape character goes first. -/
def escape (text : List Char) : List Char := double '_' (double '%' (double '\\' text))

def special (c : Char) : Bool := c == '\\' || c == '%' || c == '_'

/-- A character that passes the test, then the rest. -/
def follow (test : Char → Bool) (rest : List Char → Bool) : List Char → Bool
  | c :: text => test c && rest text
  | [] => false

def sameLetter (c d : Char) : Bool := c.toLower == d.toLower

/-- `text LIKE pattern ESCAPE '\'`. -/
def like : List Char → List Char → Bool
  | [] => List.isEmpty
  | c :: pattern =>
    if c = '%' then fun text => text.tails.any (like pattern)
    else if c = '_' then follow (fun _ => true) (like pattern)
    else if c = '\\' then
      match pattern with
      | wanted :: pattern => follow (sameLetter wanted) (like pattern)
      | [] => fun _ => false
    else follow (sameLetter c) (like pattern)

/-- Two texts up to the case of ASCII letters. -/
def fold (text : List Char) : List Char := text.map Char.toLower

theorem escape_eq (text : List Char) : escape text = text.flatMap fun c => if special c then ['\\', c] else [c] := by
  unfold escape double
  rw [List.flatMap_assoc, List.flatMap_assoc]
  apply List.flatMap_congr
  intro c _
  by_cases slash : c = '\\'
  · rw [slash]
    decide
  · by_cases percent : c = '%'
    · rw [percent]
      decide
    · by_cases line : c = '_'
      · rw [line]
        decide
      · simp [slash, percent, line, special]

theorem escape_cons (c : Char) (text : List Char) :
    escape (c :: text) = (if special c then ['\\', c] else [c]) ++ escape text := by
  rw [escape_eq, escape_eq, List.flatMap_cons]

theorem like_percent (pattern text : List Char) :
    like ('%' :: pattern) text = true ↔ ∃ front rest, text = front ++ rest ∧ like pattern rest = true := by
  have step : like ('%' :: pattern) text = text.tails.any (like pattern) := by
    cases pattern <;> rfl
  rw [step, List.any_eq_true]
  constructor
  · intro found
    obtain ⟨rest, tail, hit⟩ := found
    obtain ⟨front, parts⟩ := (List.mem_tails rest text).mp tail
    exact ⟨front, rest, parts.symm, hit⟩
  · intro found
    obtain ⟨front, rest, parts, hit⟩ := found
    exact ⟨rest, (List.mem_tails rest text).mpr ⟨front, parts.symm⟩, hit⟩

theorem follow_iff {c : Char} {rest : List Char → Bool} {text : List Char} :
    follow (sameLetter c) rest text = true ↔ ∃ d tail, text = d :: tail ∧ c.toLower = d.toLower ∧ rest tail = true := by
  cases text with
  | nil => simp [follow]
  | cons d tail => simp [follow, sameLetter]

theorem like_plain {c : Char} (plain : special c = false) (pattern text : List Char) :
    like (c :: pattern) text = true ↔ ∃ d rest, text = d :: rest ∧ c.toLower = d.toLower ∧ like pattern rest = true := by
  simp only [special, Bool.or_eq_false_iff, beq_eq_false_iff_ne] at plain
  have step : like (c :: pattern) = follow (sameLetter c) (like pattern) := by
    cases pattern <;> simp only [like, if_neg plain.1.2, if_neg plain.2, if_neg plain.1.1]
  rw [step]
  exact follow_iff

theorem like_escaped (c : Char) (pattern text : List Char) :
    like ('\\' :: c :: pattern) text = true ↔
      ∃ d rest, text = d :: rest ∧ c.toLower = d.toLower ∧ like pattern rest = true := by
  rw [like, if_neg (by decide), if_neg (by decide), if_pos rfl]
  exact follow_iff

/-- An escaped text in front of a pattern matches the text itself. -/
theorem like_escape_append (needle pattern text : List Char) :
    like (escape needle ++ pattern) text = true ↔
      ∃ front rest, text = front ++ rest ∧ fold front = fold needle ∧ like pattern rest = true := by
  induction needle generalizing text with
  | nil =>
    constructor
    · intro hit
      exact ⟨[], text, rfl, rfl, hit⟩
    · intro found
      obtain ⟨front, rest, parts, same, hit⟩ := found
      have none : front = [] := List.map_eq_nil_iff.mp same
      rw [parts, none]
      exact hit
  | cons c needle later =>
    have step : like (escape (c :: needle) ++ pattern) text = true ↔
        ∃ d rest, text = d :: rest ∧ c.toLower = d.toLower ∧ like (escape needle ++ pattern) rest = true := by
      rw [escape_cons]
      by_cases kind : special c
      · rw [if_pos kind]
        exact like_escaped c _ text
      · rw [if_neg kind]
        exact like_plain (by simpa using kind) _ text
    rw [step]
    constructor
    · intro found
      obtain ⟨d, tail, parts, same, hit⟩ := found
      obtain ⟨front, rest, whole, folds, last⟩ := (later tail).mp hit
      refine ⟨d :: front, rest, by rw [parts, whole, List.cons_append], ?_, last⟩
      rw [fold, fold, List.map_cons, List.map_cons, same]
      exact congrArg (d.toLower :: ·) folds
    · intro found
      obtain ⟨front, rest, parts, folds, last⟩ := found
      cases front with
      | nil => cases folds
      | cons d front =>
        obtain ⟨same, tail⟩ := List.cons.inj folds
        exact ⟨d, front ++ rest, parts, same.symm, (later _).mpr ⟨front, rest, rfl, tail, last⟩⟩

theorem like_nil (text : List Char) : like [] text = true ↔ text = [] := by
  rw [like, List.isEmpty_iff]

/-- `LIKE` with an escaped text alone compares up to the case of ASCII letters. -/
theorem like_escape (needle text : List Char) : like (escape needle) text = true ↔ fold text = fold needle := by
  have whole := like_escape_append needle [] text
  rw [List.append_nil] at whole
  rw [whole]
  constructor
  · intro found
    obtain ⟨front, rest, parts, folds, last⟩ := found
    rw [(like_nil rest).mp last, List.append_nil] at parts
    rw [parts, folds]
  · intro same
    exact ⟨text, [], (List.append_nil text).symm, same, (like_nil []).mpr rfl⟩

/-- `LIKE` with a wildcard behind the escaped text asks for a text in front. -/
theorem like_escape_percent (needle text : List Char) :
    like (escape needle ++ ['%']) text = true ↔ ∃ front rest, text = front ++ rest ∧ fold front = fold needle := by
  rw [like_escape_append]
  constructor
  · intro found
    obtain ⟨front, rest, parts, folds, _⟩ := found
    exact ⟨front, rest, parts, folds⟩
  · intro found
    obtain ⟨front, rest, parts, folds⟩ := found
    refine ⟨front, rest, parts, folds, (like_percent [] rest).mpr ⟨rest, [], ?_, (like_nil []).mpr rfl⟩⟩
    exact (List.append_nil rest).symm

/-- `LIKE` with a wildcard and a plain character before the escaped text asks for it behind such a character. -/
theorem like_percent_escape {c : Char} (plain : special c = false) (same : ∀ d : Char, c.toLower = d.toLower → d = c)
    (needle text : List Char) :
    like ('%' :: c :: escape needle) text = true ↔ ∃ front rest, text = front ++ c :: rest ∧ fold rest = fold needle := by
  rw [like_percent]
  constructor
  · intro found
    obtain ⟨front, tail, parts, hit⟩ := found
    obtain ⟨d, rest, whole, alike, last⟩ := (like_plain plain _ tail).mp hit
    rw [whole, same d alike] at parts
    exact ⟨front, rest, parts, (like_escape needle rest).mp last⟩
  · intro found
    obtain ⟨front, rest, parts, folds⟩ := found
    exact ⟨front, c :: rest, parts, (like_plain plain _ _).mpr ⟨c, rest, rfl, rfl, (like_escape needle rest).mpr folds⟩⟩

end Like
