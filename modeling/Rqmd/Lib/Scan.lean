import Rqmd.Lib.Text

/-! Scans for a pattern. What a scan of the front of a text finds, and what it misses of the whole: only
matches that run past the front. -/

namespace Text

variable {pattern : List Char → Option Nat} {skip offset : Nat} {cs more : List Char} {p : Nat} {mark : Char}

theorem offset_le_of_mem_findIter (found : p ∈ findIter pattern skip offset cs) : offset ≤ p := by
  induction cs generalizing skip offset with
  | nil => simp [findIter] at found
  | cons c cs later =>
    cases skip with
    | succ skip =>
      have := @later skip _ found
      omega
    | zero =>
      rw [findIter] at found
      split at found
      · rcases List.mem_cons.mp found with here | behind
        · omega
        · have := later behind
          omega
      · have := later found
        omega

/-- A match starts where the text from there on matches. -/
theorem mem_findIter (found : p ∈ findIter pattern skip offset cs) :
    ∃ front rest, cs = front ++ rest ∧ p = offset + byteLength front ∧ rest ≠ [] ∧ (pattern rest).isSome = true := by
  induction cs generalizing skip offset with
  | nil => simp [findIter] at found
  | cons c cs later =>
    have onward : ∀ {skip}, p ∈ findIter pattern skip (offset + c.utf8Size) cs →
        ∃ front rest, c :: cs = front ++ rest ∧ p = offset + byteLength front ∧ rest ≠ [] ∧
          (pattern rest).isSome = true := by
      intro skip behind
      obtain ⟨front, rest, whole, place, some, matches'⟩ := later behind
      exact ⟨c :: front, rest, by rw [whole, List.cons_append], by rw [place, byteLength_cons]; omega, some, matches'⟩
    cases skip with
    | succ skip => exact @onward skip found
    | zero =>
      rw [findIter] at found
      split at found
      · next n matched =>
        rcases List.mem_cons.mp found with here | behind
        · exact ⟨[], c :: cs, rfl, here, List.cons_ne_nil c cs, by rw [matched]; rfl⟩
        · exact onward behind
      · exact onward found

theorem findIter_of_none {c : Char} (unmatched : pattern (c :: cs) = none) :
    findIter pattern 0 offset (c :: cs) = findIter pattern 0 (offset + c.utf8Size) cs := by
  rw [findIter, unmatched]

theorem mem_findIter_here {c : Char} {n : Nat} (matched : pattern (c :: cs) = some n) :
    offset ∈ findIter pattern 0 offset (c :: cs) := by
  rw [findIter, matched]
  exact List.mem_cons_self

/-- A scan whose matches in a front all end within it goes on right behind the front. -/
theorem findIter_append_of_within {front : List Char}
    (within : ∀ a b n, front = a ++ b → b ≠ [] → pattern (b ++ more) = some n → n ≤ b.length)
    (skipped : skip ≤ front.length) :
    ∃ found, findIter pattern skip offset (front ++ more) =
        found ++ findIter pattern 0 (offset + byteLength front) more ∧
      ∀ p ∈ found, p < offset + byteLength front := by
  induction front generalizing skip offset with
  | nil =>
    have zero : skip = 0 := Nat.le_zero.mp skipped
    exact ⟨[], by rw [zero]; rfl, fun p none => absurd none List.not_mem_nil⟩
  | cons c front later =>
    have size := c.utf8Size_pos
    have inner : ∀ a b n, front = a ++ b → b ≠ [] → pattern (b ++ more) = some n → n ≤ b.length :=
      fun a b n parts => within (c :: a) b n (by rw [parts, List.cons_append])
    rw [List.length_cons] at skipped
    have onward : ∀ skip ≤ front.length, ∃ found, findIter pattern skip (offset + c.utf8Size) (front ++ more) =
        found ++ findIter pattern 0 (offset + byteLength (c :: front)) more ∧
          ∀ p ∈ found, p < offset + byteLength (c :: front) := by
      intro skip enough
      obtain ⟨found, split, early⟩ := @later skip (offset + c.utf8Size) inner enough
      have place : offset + c.utf8Size + byteLength front = offset + byteLength (c :: front) := by
        rw [byteLength_cons]
        omega
      rw [place] at split early
      exact ⟨found, split, early⟩
    cases skip with
    | succ skip => exact onward skip (by omega)
    | zero =>
      rw [List.cons_append, findIter]
      cases matched : pattern (c :: (front ++ more)) with
      | none => exact onward 0 (Nat.zero_le _)
      | some n =>
        have ends := within [] (c :: front) n rfl (List.cons_ne_nil c front) matched
        rw [List.length_cons] at ends
        obtain ⟨found, split, early⟩ := onward (n - 1) (by omega)
        refine ⟨offset :: found, by simp only [split, List.cons_append], fun p member => ?_⟩
        rcases List.mem_cons.mp member with here | behind
        · rw [here, byteLength_cons]
          omega
        · exact early p behind

/-! ### Patterns that start with a mark -/

/-- Every match starts with the mark and takes it. -/
structure Marked (mark : Char) (pattern : List Char → Option Nat) : Prop where
  head : ∀ {cs n}, pattern cs = some n → cs.head? = some mark
  takes : ∀ {cs n}, pattern cs = some n → 0 < n

theorem Marked.none_of_ne (marked : Marked mark pattern) {c : Char} (other : c ≠ mark) : pattern (c :: cs) = none := by
  cases matched : pattern (c :: cs) with
  | none => rfl
  | some n => exact absurd (Option.some.inj (marked.head matched)) other

/-- A stretch without the mark is passed over. -/
theorem Marked.findIter_clear (marked : Marked mark pattern) {front : List Char} (clear : mark ∉ front) :
    findIter pattern 0 offset (front ++ more) = findIter pattern 0 (offset + byteLength front) more := by
  induction front generalizing offset with
  | nil => rfl
  | cons c front later =>
    rw [List.mem_cons, not_or] at clear
    rw [List.cons_append, findIter, marked.none_of_ne (fun same => clear.1 same.symm)]
    simp only
    rw [later clear.2, byteLength_cons, Nat.add_assoc]

/-- A front without the mark behind what is skipped has no matches. -/
theorem Marked.behind_of_mem (marked : Marked mark pattern) (clear : mark ∉ cs.drop skip)
    (found : p ∈ findIter pattern skip offset (cs ++ more)) : offset + byteLength cs ≤ p := by
  induction cs generalizing skip offset with
  | nil => exact offset_le_of_mem_findIter found
  | cons c cs later =>
    rw [byteLength_cons]
    cases skip with
    | succ skip =>
      have := @later skip _ clear found
      omega
    | zero =>
      simp only [List.drop_zero, List.mem_cons, not_or] at clear
      rw [List.cons_append, findIter, marked.none_of_ne (fun same => clear.1 same.symm)] at found
      have := @later 0 _ clear.2 found
      omega

theorem Marked.findIter_none (marked : Marked mark pattern) (clear : mark ∉ cs.drop skip) :
    findIter pattern skip offset cs = [] := by
  refine List.eq_nil_iff_forall_not_mem.mpr fun p found => ?_
  obtain ⟨front, rest, whole, place, some, _⟩ := mem_findIter found
  have behind := @Marked.behind_of_mem _ _ _ _ [] _ _ marked clear (by rwa [List.append_nil])
  have size := byteLength_pos some
  rw [whole, byteLength_append] at behind
  omega

/-- A match starts at a mark. -/
theorem Marked.mem_findIter (marked : Marked mark pattern) (found : p ∈ findIter pattern skip offset cs) :
    ∃ front tail, cs = front ++ mark :: tail ∧ p = offset + byteLength front ∧
      (pattern (mark :: tail)).isSome = true := by
  obtain ⟨front, rest, whole, place, some, matched⟩ := Text.mem_findIter found
  cases rest with
  | nil => exact absurd rfl some
  | cons c tail =>
    obtain ⟨n, matched⟩ := Option.isSome_iff_exists.mp matched
    have same : c = mark := Option.some.inj (marked.head matched)
    subst same
    exact ⟨front, tail, whole, place, by rw [matched]; rfl⟩

/-! ### The front of a text and the whole -/

/-- A pattern whose matches in a front stay matches in the whole, of the same length or up to the last mark
of the front, and whose other matches in the whole run past the last mark of the front. -/
structure Steady (mark : Char) (pattern : List Char → Option Nat) : Prop extends Marked mark pattern where
  grows : ∀ {cs n} more, pattern cs = some n →
    ∃ m, pattern (cs ++ more) = some m ∧ (m = n ∨ n ≤ m ∧ mark ∉ cs.drop n)
  late : ∀ {cs m} more, pattern cs = none → pattern (cs ++ more) = some m → mark ∉ cs.tail

/-- What a scan of the front finds, a scan of the whole finds, and it finds one match more at most: one at
the last mark of the front. The induction is on the front, both scans at the same place or both past its
last mark. -/
theorem Steady.findIter_append (steady : Steady mark pattern) :
    (p ∈ findIter pattern skip offset cs → p ∈ findIter pattern skip offset (cs ++ more)) ∧
      (p ∈ findIter pattern skip offset (cs ++ more) → p < offset + byteLength cs →
        p ∈ findIter pattern skip offset cs ∨
          ∃ front tail, cs = front ++ mark :: tail ∧ mark ∉ tail ∧ p = offset + byteLength front) := by
  induction cs generalizing skip offset with
  | nil =>
    refine ⟨fun found => by simp [findIter] at found, fun found inside => ?_⟩
    have := offset_le_of_mem_findIter found
    rw [byteLength_nil] at inside
    omega
  | cons c cs later =>
    have onward : ∀ {skip}, p ∈ findIter pattern skip (offset + c.utf8Size) (cs ++ more) →
        p < offset + byteLength (c :: cs) →
        p ∈ findIter pattern skip (offset + c.utf8Size) cs ∨
          ∃ front tail, c :: cs = front ++ mark :: tail ∧ mark ∉ tail ∧ p = offset + byteLength front := by
      intro skip found inside
      rw [byteLength_cons] at inside
      rcases later.2 found (by omega) with old | ⟨front, tail, whole, clear, place⟩
      · exact .inl old
      · exact .inr ⟨c :: front, tail, by rw [whole, List.cons_append], clear, by
          rw [place, byteLength_cons]
          omega⟩
    cases skip with
    | succ skip => exact ⟨(@later skip _).1, @onward skip⟩
    | zero =>
      rw [List.cons_append, findIter, findIter]
      cases matched : pattern (c :: cs) with
      | none =>
        cases whole : pattern (c :: (cs ++ more)) with
        | none => exact ⟨later.1, onward⟩
        | some m =>
          -- a match that the front is too short for: the front has no mark behind it
          have clear : mark ∉ cs := steady.late more matched whole
          have start : c = mark := Option.some.inj (steady.head whole)
          refine ⟨fun found => ?_, fun found inside => ?_⟩
          · simp only at found
            rw [@Marked.findIter_none _ 0 _ _ _ steady.toMarked clear] at found
            simp at found
          · rcases List.mem_cons.mp found with here | behind
            · exact .inr ⟨[], cs, by rw [start, List.nil_append], clear, here⟩
            · have away : mark ∉ cs.drop (m - 1) := fun member => clear (List.mem_of_mem_drop member)
              have := steady.behind_of_mem away behind
              rw [byteLength_cons] at inside
              omega
      | some n =>
        obtain ⟨m, whole, same | ⟨longer, clear⟩⟩ := steady.grows more matched
        · rw [List.cons_append] at whole
          rw [whole, same]
          simp only [List.mem_cons]
          refine ⟨fun found => found.imp_right later.1, fun found inside => ?_⟩
          rcases found with here | behind
          · exact .inl (.inl here)
          · rcases onward behind inside with old | new
            · exact .inl (.inr old)
            · exact .inr new
        · -- both matches reach the last mark of the front
          have size := steady.takes matched
          have dropped : mark ∉ cs.drop (n - 1) := by
            obtain ⟨k, rfl⟩ : ∃ k, n = k + 1 := ⟨n - 1, by omega⟩
            exact clear
          have away : mark ∉ cs.drop (m - 1) := by
            have split : cs.drop (m - 1) = (cs.drop (n - 1)).drop (m - n) := by
              rw [List.drop_drop]
              congr 1
              omega
            rw [split]
            exact fun member => dropped (List.mem_of_mem_drop member)
          rw [List.cons_append] at whole
          rw [whole]
          simp only [List.mem_cons]
          refine ⟨fun found => ?_, fun found inside => ?_⟩
          · rcases found with here | behind
            · exact .inl here
            · rw [steady.findIter_none dropped] at behind
              simp at behind
          · rcases found with here | behind
            · exact .inl (.inl here)
            · have := steady.behind_of_mem away behind
              rw [byteLength_cons] at inside
              omega

/-- A pattern whose matches never change with what follows; a front it only matches with more behind holds
no `clear` and no match. -/
structure Rigid (clear : Char) (pattern : List Char → Option Nat) : Prop where
  same : ∀ {cs n} more, pattern cs = some n → pattern (cs ++ more) = some n
  late : ∀ {cs m} more, pattern cs = none → pattern (cs ++ more) = some m →
    clear ∉ cs ∧ ∀ rest, rest <:+ cs → pattern rest = none

/-- The matches in a front are the first of those in the whole; the others stand behind every `clear`. -/
theorem Rigid.findIter_append {clear : Char} (rigid : Rigid clear pattern) (skip offset : Nat) (cs more : List Char) :
    ∃ extra, findIter pattern skip offset (cs ++ more) = findIter pattern skip offset cs ++ extra ∧
      ∀ e ∈ extra, ∀ front tail, cs = front ++ clear :: tail → offset + byteLength front < e := by
  induction cs generalizing skip offset with
  | nil => exact ⟨findIter pattern skip offset more, rfl, fun e _ front tail whole => by simp at whole⟩
  | cons c cs later =>
    have onward : ∀ skip, ∃ extra, findIter pattern skip (offset + c.utf8Size) (cs ++ more) =
        findIter pattern skip (offset + c.utf8Size) cs ++ extra ∧
          ∀ e ∈ extra, ∀ front tail, c :: cs = front ++ clear :: tail → offset + byteLength front < e := by
      intro skip
      obtain ⟨extra, split, behind⟩ := later skip (offset + c.utf8Size)
      refine ⟨extra, split, fun e member front tail whole => ?_⟩
      have early : offset + c.utf8Size ≤ e :=
        offset_le_of_mem_findIter (split ▸ List.mem_append_right _ member)
      have size := c.utf8Size_pos
      cases front with
      | nil =>
        rw [byteLength_nil]
        omega
      | cons d front =>
        rw [List.cons_append, List.cons.injEq] at whole
        have := behind e member front tail whole.2
        rw [byteLength_cons, ← whole.1]
        omega
    cases skip with
    | succ skip => exact onward skip
    | zero =>
      rw [List.cons_append, findIter, findIter]
      cases matched : pattern (c :: cs) with
      | none =>
        cases whole : pattern (c :: (cs ++ more)) with
        | none => exact onward 0
        | some m =>
          obtain ⟨away, quiet⟩ := rigid.late more matched whole
          have none : findIter pattern 0 (offset + c.utf8Size) cs = [] := by
            refine List.eq_nil_iff_forall_not_mem.mpr fun p found => ?_
            obtain ⟨front, rest, parts, _, _, matched'⟩ := mem_findIter found
            rw [quiet rest ⟨c :: front, by rw [parts, List.cons_append]⟩] at matched'
            simp at matched'
          refine ⟨_, by simp only [none]; exact (List.nil_append _).symm, fun e _ front tail parts => ?_⟩
          exact absurd (parts ▸ List.mem_append_right front List.mem_cons_self) away
      | some n =>
        have whole := rigid.same more matched
        rw [List.cons_append] at whole
        rw [whole]
        obtain ⟨extra, split, behind⟩ := onward (n - 1)
        exact ⟨extra, by simp only [split, List.cons_append], behind⟩

/-- What stands before a character stands before its last place. -/
theorem prefix_of_clear {c : Char} {front back last rest : List Char} (whole : front ++ c :: back = last ++ c :: rest)
    (clear : c ∉ rest) : ∃ gap, last = front ++ gap := by
  rcases List.append_eq_append_iff.mp whole with ⟨gap, longer, _⟩ | ⟨gap, _, behind⟩
  · exact ⟨gap, longer⟩
  · cases gap with
    | nil =>
      next shorter => exact ⟨[], by rw [shorter, List.append_nil, List.append_nil]⟩
    | cons d gap =>
      have tail := (List.cons.inj behind).2
      exact absurd (tail ▸ List.mem_append_right gap List.mem_cons_self) clear

/-- A character stands behind a stretch without it. -/
theorem stretch_le_offset {c : Char} {front tail stretch after : List Char} (clear : c ∉ stretch)
    (whole : front ++ c :: tail = stretch ++ after) : byteLength stretch ≤ byteLength front := by
  induction stretch generalizing front with
  | nil => exact Nat.zero_le _
  | cons d stretch later =>
    rw [List.mem_cons, not_or] at clear
    cases front with
    | nil => exact absurd (List.cons.inj whole).1 clear.1
    | cons e front =>
      have parts := List.cons.inj whole
      have := later clear.2 parts.2
      rw [byteLength_cons, byteLength_cons, parts.1]
      omega

/-- No offset of a character lies in a stretch without it. -/
theorem offset_outside {c : Char} {front tail before stretch after : List Char} (clear : c ∉ stretch)
    (whole : front ++ c :: tail = before ++ (stretch ++ after)) :
    byteLength front < byteLength before ∨ byteLength before + byteLength stretch ≤ byteLength front := by
  induction before generalizing front with
  | nil =>
    have := stretch_le_offset clear whole
    rw [byteLength_nil]
    omega
  | cons b before later =>
    have size := b.utf8Size_pos
    cases front with
    | nil =>
      rw [byteLength_nil, byteLength_cons]
      omega
    | cons e front =>
      have parts := List.cons.inj whole
      have := later parts.2
      rw [byteLength_cons, byteLength_cons, parts.1]
      omega

end Text
