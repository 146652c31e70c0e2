import Rqmd.Lib.Scan
import Rqmd.ChunkSpans

/-! The break points of a text. The best break of a window is the greatest of all matches in it that lie
outside the fences, by score and then by position; every match starts at a line break. -/

namespace Rqmd.Chunking
open Text

/-! ### The best break of a window -/

/-- The order of `max_by`, ties included. -/
def BreakPoint.AtMost (a b : BreakPoint) : Prop := a.score < b.score ∨ (a.score = b.score ∧ a.pos ≤ b.pos)

theorem BreakPoint.AtMost.trans {a b c : BreakPoint} (left : a.AtMost b) (right : b.AtMost c) : a.AtMost c := by
  simp only [AtMost] at left right ⊢
  omega

theorem BreakPoint.atMost_of_beats {a b : BreakPoint} (beaten : a.beats b = true) : b.AtMost a := by
  simp only [beats, Bool.or_eq_true, Bool.and_eq_true, decide_eq_true_eq, beq_iff_eq] at beaten
  simp only [AtMost]
  omega

theorem BreakPoint.atMost_of_not_beats {a b : BreakPoint} (unbeaten : ¬ a.beats b = true) : a.AtMost b := by
  simp only [beats, Bool.or_eq_true, Bool.and_eq_true, decide_eq_true_eq, beq_iff_eq] at unbeaten
  simp only [AtMost]
  omega

def takeBetter (best : Option BreakPoint) (b : BreakPoint) : Option BreakPoint :=
  match best with
  | some a => if a.beats b then some a else some b
  | none => some b

/-- A break in a window that no other candidate there is above. -/
structure IsBest (candidates : List BreakPoint) (windowStart windowEnd : Nat) (b : BreakPoint) : Prop where
  member : b ∈ candidates
  inside : windowStart ≤ b.pos ∧ b.pos < windowEnd
  greatest : ∀ c ∈ candidates, windowStart ≤ c.pos → c.pos < windowEnd → c.AtMost b

variable {candidates others : List BreakPoint} {windowStart windowEnd : Nat}

theorem IsBest.pos_eq {a b : BreakPoint} (left : IsBest candidates windowStart windowEnd a)
    (right : IsBest candidates windowStart windowEnd b) : a.pos = b.pos := by
  have above := right.greatest a left.member left.inside.1 left.inside.2
  have below := left.greatest b right.member right.inside.1 right.inside.2
  simp only [BreakPoint.AtMost] at above below
  omega

theorem takeBetter_fold (xs : List BreakPoint) (best : Option BreakPoint) {b : BreakPoint}
    (same : xs.foldl takeBetter best = some b) :
    (b ∈ xs ∨ best = some b) ∧ (∀ c ∈ xs, c.AtMost b) ∧ ∀ a, best = some a → a.AtMost b := by
  induction xs generalizing best with
  | nil =>
    refine ⟨.inr same, fun c member => by simp at member, fun a old => ?_⟩
    have equal : a = b := Option.some.inj (old.symm.trans same)
    exact .inr ⟨by rw [equal], by rw [equal]⟩
  | cons c rest later =>
    obtain ⟨found, greatest, above⟩ := later (takeBetter best c) same
    have next : takeBetter best c = best ∨ takeBetter best c = some c := by
      cases best with
      | none => exact .inr rfl
      | some a =>
        by_cases beaten : a.beats c
        · exact .inl (if_pos beaten)
        · exact .inr (if_neg beaten)
    have first : c.AtMost b := by
      cases best with
      | none => exact above c rfl
      | some a =>
        by_cases beaten : a.beats c
        · exact (BreakPoint.atMost_of_beats beaten).trans (above a (if_pos beaten))
        · exact above c (if_neg beaten)
    refine ⟨?_, fun d member => ?_, fun a old => ?_⟩
    · rcases found with member | kept
      · exact .inl (List.mem_cons_of_mem c member)
      · rcases next with old | new
        · exact .inr (old ▸ kept)
        · have equal : c = b := Option.some.inj (new ▸ kept)
          exact .inl (equal ▸ List.mem_cons_self)
    · rcases List.mem_cons.mp member with same | behind
      · exact same ▸ first
      · exact greatest d behind
    · subst old
      by_cases beaten : a.beats c
      · exact above a (if_pos beaten)
      · exact (BreakPoint.atMost_of_not_beats beaten).trans first

theorem takeBetter_fold_some (xs : List BreakPoint) (a : BreakPoint) : (xs.foldl takeBetter (some a)).isSome = true := by
  induction xs generalizing a with
  | nil => rfl
  | cons c rest later =>
    have next : takeBetter (some a) c = some a ∨ takeBetter (some a) c = some c := by
      by_cases beaten : a.beats c
      · exact .inl (if_pos beaten)
      · exact .inr (if_neg beaten)
    rw [List.foldl_cons]
    rcases next with old | new
    · rw [old]
      exact later a
    · rw [new]
      exact later c

theorem bestBreak_eq :
    bestBreakInWindow candidates windowStart windowEnd =
      ((candidates.filter fun b => windowStart ≤ b.pos && b.pos < windowEnd).foldl takeBetter none).map BreakPoint.pos := rfl

theorem bestBreak_none_iff :
    bestBreakInWindow candidates windowStart windowEnd = none ↔
      ∀ c ∈ candidates, ¬ (windowStart ≤ c.pos ∧ c.pos < windowEnd) := by
  rw [bestBreak_eq, Option.map_eq_none_iff]
  have filtered : candidates.filter (fun b => windowStart ≤ b.pos && b.pos < windowEnd) = [] ↔
      ∀ c ∈ candidates, ¬ (windowStart ≤ c.pos ∧ c.pos < windowEnd) := by
    rw [List.filter_eq_nil_iff]
    simp
  rw [← filtered]
  cases candidates.filter (fun b => windowStart ≤ b.pos && b.pos < windowEnd) with
  | nil => simp
  | cons c rest =>
    have taken := takeBetter_fold_some rest c
    rw [List.foldl_cons]
    change List.foldl takeBetter (some c) rest = none ↔ _
    constructor
    · intro impossible
      rw [impossible] at taken
      simp at taken
    · intro impossible
      simp at impossible

theorem bestBreak_some_iff {pos : Nat} :
    bestBreakInWindow candidates windowStart windowEnd = some pos ↔
      ∃ b, IsBest candidates windowStart windowEnd b ∧ b.pos = pos := by
  have forward : ∀ {pos}, bestBreakInWindow candidates windowStart windowEnd = some pos →
      ∃ b, IsBest candidates windowStart windowEnd b ∧ b.pos = pos := by
    intro pos found
    rw [bestBreak_eq] at found
    obtain ⟨b, chosen, place⟩ := Option.map_eq_some_iff.mp found
    obtain ⟨member | impossible, greatest, _⟩ := takeBetter_fold _ _ chosen
    · obtain ⟨member, window⟩ := List.mem_filter.mp member
      refine ⟨b, ⟨member, by simpa using window, fun c inside early late => ?_⟩, place⟩
      exact greatest c (List.mem_filter.mpr ⟨inside, by simp [early, late]⟩)
    · simp at impossible
  refine ⟨forward, ?_⟩
  rintro ⟨b, best, rfl⟩
  cases found : bestBreakInWindow candidates windowStart windowEnd with
  | none => exact absurd best.inside (bestBreak_none_iff.mp found b best.member)
  | some pos =>
    obtain ⟨a, also, rfl⟩ := forward found
    rw [also.pos_eq best]

/-- Two lists of candidates have one best break when each has its candidates outdone in the other. -/
theorem IsBest.of_outdone {b : BreakPoint} (best : IsBest candidates windowStart windowEnd b)
    (contained : ∀ c ∈ candidates, c ∈ others)
    (outdone : ∀ c ∈ others, ∃ d ∈ candidates, d.pos = c.pos ∧ c.score ≤ d.score) :
    IsBest others windowStart windowEnd b where
  member := contained b best.member
  inside := best.inside
  greatest c member early late := by
    obtain ⟨d, among, place, above⟩ := outdone c member
    have most := best.greatest d among (by omega) (by omega)
    simp only [BreakPoint.AtMost] at most ⊢
    omega

/-! ### The breaks a text has -/

/-- The matches of the patterns outside the fences, each with its score. -/
def foundBreaks (text : List Char) (fences : List Span) : List BreakPoint :=
  breakPatterns.flatMap fun (pattern, score) =>
    ((findIter pattern 0 0 text).filter fun pos => !insideFence pos fences).map fun pos => BreakPoint.mk pos score

variable {text : List Char} {fences : List Span}

theorem mem_foundBreaks {b : BreakPoint} :
    b ∈ foundBreaks text fences ↔
      ∃ pattern, (pattern, b.score) ∈ breakPatterns ∧ b.pos ∈ findIter pattern 0 0 text ∧
        insideFence b.pos fences = false := by
  simp only [foundBreaks, List.mem_flatMap, List.mem_map, List.mem_filter, Prod.exists]
  constructor
  · rintro ⟨pattern, score, listed, pos, ⟨found, outside⟩, rfl⟩
    exact ⟨pattern, listed, found, by simpa using outside⟩
  · rintro ⟨pattern, listed, found, outside⟩
    exact ⟨pattern, b.score, listed, b.pos, ⟨found, by simp [outside]⟩, rfl⟩

theorem score_pos {pattern : List Char → Option Nat} {score : Int} (listed : (pattern, score) ∈ breakPatterns) :
    0 < score := by
  simp only [breakPatterns, List.mem_cons, Prod.mk.injEq, List.not_mem_nil, or_false] at listed
  omega

theorem mem_note {seen : List BreakPoint} {found b : BreakPoint} (positive : 0 < found.score)
    (member : b ∈ note seen found) : b ∈ seen ∨ b = found := by
  induction seen with
  | nil =>
    have score : max (-1) found.score = found.score := by omega
    rw [note, List.mem_singleton, score] at member
    exact .inr member
  | cons a rest later =>
    rw [note] at member
    split at member
    · next place =>
      rcases List.mem_cons.mp member with new | old
      · by_cases higher : found.score ≤ a.score
        · rw [Int.max_eq_left higher] at new
          exact .inl (new ▸ List.mem_cons_self)
        · rw [Int.max_eq_right (by omega), place] at new
          exact .inr new
      · exact .inl (List.mem_cons_of_mem a old)
    · rcases List.mem_cons.mp member with same | behind
      · exact .inl (same ▸ List.mem_cons_self)
      · exact (later behind).imp_left (List.mem_cons_of_mem a)

theorem note_outdoes {seen : List BreakPoint} {found b : BreakPoint} (either : b ∈ seen ∨ b = found) :
    ∃ c ∈ note seen found, c.pos = b.pos ∧ b.score ≤ c.score := by
  induction seen with
  | nil =>
    rcases either with impossible | same
    · simp at impossible
    · exact ⟨_, List.mem_singleton.mpr rfl, by rw [same], by rw [same]; exact Int.le_max_right _ _⟩
  | cons a rest later =>
    rw [note]
    split
    · next place =>
      rcases either with member | same
      · rcases List.mem_cons.mp member with first | behind
        · exact ⟨_, List.mem_cons_self, by rw [first], by rw [first]; exact Int.le_max_left _ _⟩
        · exact ⟨b, List.mem_cons_of_mem _ behind, rfl, Int.le_refl _⟩
      · exact ⟨_, List.mem_cons_self, by rw [same, ← place], by rw [same]; exact Int.le_max_right _ _⟩
    · by_cases first : b = a
      · exact ⟨a, List.mem_cons_self, by rw [first], by rw [first]⟩
      · have rest : b ∈ rest ∨ b = found :=
          either.imp_left fun member => (List.mem_cons.mp member).resolve_left first
        obtain ⟨c, behind, place, above⟩ := later rest
        exact ⟨c, List.mem_cons_of_mem _ behind, place, above⟩

theorem mem_notes {found seen : List BreakPoint} (positive : ∀ c ∈ found, 0 < c.score) {b : BreakPoint}
    (member : b ∈ found.foldl note seen) : b ∈ seen ∨ b ∈ found := by
  induction found generalizing seen with
  | nil => exact .inl member
  | cons c rest later =>
    rcases later (fun d behind => positive d (List.mem_cons_of_mem c behind)) member with noted | behind
    · rcases mem_note (positive c List.mem_cons_self) noted with old | same
      · exact .inl old
      · exact .inr (same ▸ List.mem_cons_self)
    · exact .inr (List.mem_cons_of_mem c behind)

theorem notes_outdo {found seen : List BreakPoint} {b : BreakPoint} (either : b ∈ seen ∨ b ∈ found) :
    ∃ c ∈ found.foldl note seen, c.pos = b.pos ∧ b.score ≤ c.score := by
  induction found generalizing seen b with
  | nil =>
    rcases either with old | impossible
    · exact ⟨b, old, rfl, Int.le_refl _⟩
    · simp at impossible
  | cons d rest later =>
    rw [List.foldl_cons]
    by_cases behind : b ∈ rest
    · exact later (.inr behind)
    · have now : b ∈ seen ∨ b = d :=
        either.imp_right fun member => (List.mem_cons.mp member).resolve_right behind
      obtain ⟨c, noted, place, above⟩ := note_outdoes now
      obtain ⟨e, kept, place', above'⟩ := later (.inl noted)
      exact ⟨e, kept, place'.trans place, Int.le_trans above above'⟩

theorem scanBreakPoints_subset {b : BreakPoint} (member : b ∈ scanBreakPoints text fences) :
    b ∈ foundBreaks text fences := by
  have positive : ∀ c ∈ foundBreaks text fences, 0 < c.score := by
    intro c found
    obtain ⟨_, listed, _⟩ := mem_foundBreaks.mp found
    exact score_pos listed
  have noted : b ∈ (foundBreaks text fences).foldl note [] := (List.mem_insertionSort _).mp member
  exact (mem_notes positive noted).resolve_left List.not_mem_nil

theorem scanBreakPoints_outdo {b : BreakPoint} (found : b ∈ foundBreaks text fences) :
    ∃ c ∈ scanBreakPoints text fences, c.pos = b.pos ∧ b.score ≤ c.score := by
  obtain ⟨c, noted, above⟩ := @notes_outdo _ [] _ (Or.inr found)
  exact ⟨c, (List.mem_insertionSort _).mpr noted, above⟩

/-- The best break of a window is one among all the matches. -/
theorem isBest_found {b : BreakPoint} (best : IsBest (scanBreakPoints text fences) windowStart windowEnd b) :
    IsBest (foundBreaks text fences) windowStart windowEnd b :=
  best.of_outdone (fun _ => scanBreakPoints_subset) fun _ => scanBreakPoints_outdo

theorem bestBreak_scan_none_iff :
    bestBreakInWindow (scanBreakPoints text fences) windowStart windowEnd = none ↔
      ∀ c ∈ foundBreaks text fences, ¬ (windowStart ≤ c.pos ∧ c.pos < windowEnd) := by
  rw [bestBreak_none_iff]
  constructor
  · intro none c found inside
    obtain ⟨d, noted, place, _⟩ := scanBreakPoints_outdo found
    exact none d noted (by omega)
  · exact fun none c noted => none c (scanBreakPoints_subset noted)

/-! ### The patterns start at a line break -/

/-- A pattern for a mark of a fixed shape that has a line break at its start and none but at its end. -/
theorem steady_of_shape {pattern : List Char → Option Nat} {shape : List Char → Prop}
    (matches' : ∀ cs n, pattern cs = some n ↔ ∃ front rest, cs = front ++ rest ∧ shape front ∧ n = front.length)
    (line : ∀ front, shape front → front.head? = some '\n' ∧ '\n' ∉ front.tail.dropLast) : Steady '\n' pattern where
  head {cs n} matched := by
    obtain ⟨front, rest, rfl, shaped, _⟩ := (matches' cs n).mp matched
    rw [List.head?_append, (line front shaped).1]
    rfl
  takes {cs n} matched := by
    obtain ⟨front, rest, _, shaped, rfl⟩ := (matches' cs n).mp matched
    cases front with
    | nil => simpa using (line [] shaped).1
    | cons c front => simp
  grows {cs n} more matched := by
    obtain ⟨front, rest, rfl, shaped, size⟩ := (matches' cs n).mp matched
    exact ⟨n, (matches' _ n).mpr ⟨front, rest ++ more, by rw [List.append_assoc], shaped, size⟩, .inl rfl⟩
  late {cs m} more unmatched matched := by
    obtain ⟨front, rest, whole, shaped, size⟩ := (matches' _ m).mp matched
    rcases List.append_eq_append_iff.mp whole with ⟨gap, long, _⟩ | ⟨gap, short, _⟩
    · cases gap with
      | nil =>
        rw [List.append_nil] at long
        have now := (matches' cs m).mpr ⟨front, [], by rw [long, List.append_nil], shaped, size⟩
        rw [now] at unmatched
        simp at unmatched
      | cons c gap =>
        -- the front is a part of the mark, its last character left out
        have clear := (line front shaped).2
        intro member
        refine clear ?_
        cases cs with
        | nil => simp at member
        | cons d cs =>
          rw [long, List.cons_append, List.tail_cons, List.dropLast_append_of_ne_nil (List.cons_ne_nil c gap)]
          exact List.mem_append_left _ member
    · have now := (matches' cs m).mpr ⟨front, gap, short, shaped, size⟩
      rw [now] at unmatched
      simp at unmatched

theorem headingBreak_iff (level : Nat) (cs : List Char) (n : Nat) :
    headingBreak level cs = some n ↔ ∃ front rest, cs = front ++ rest ∧
      (∃ c, front = '\n' :: (List.replicate level '#' ++ [c]) ∧ c ≠ '#') ∧ n = front.length := by
  constructor
  · intro matched
    unfold headingBreak at matched
    split at matched
    · next rest =>
      split at matched
      · next c tail dropped =>
        split at matched
        · next marks =>
          rw [Bool.and_eq_true, List.all_eq_true] at marks
          have size : level ≤ rest.length := by
            by_contra short
            rw [List.drop_eq_nil_of_le (by omega)] at dropped
            simp at dropped
          have hashes : rest.take level = List.replicate level '#' := by
            refine List.eq_replicate_iff.mpr ⟨by rw [List.length_take]; omega, fun d member => ?_⟩
            simpa using marks.1 d member
          have whole : rest = List.replicate level '#' ++ c :: tail := by
            rw [← hashes, ← dropped, List.take_append_drop]
          refine ⟨'\n' :: (List.replicate level '#' ++ [c]), tail, by rw [whole]; simp, ⟨c, rfl, by simpa using marks.2⟩, ?_⟩
          have same := Option.some.inj matched
          simp only [List.length_cons, List.length_append, List.length_replicate, List.length_nil]
          omega
        · simp at matched
      · simp at matched
    · simp at matched
  · rintro ⟨front, rest, rfl, ⟨c, rfl, other⟩, size⟩
    have dropped : (List.replicate level '#' ++ [c] ++ rest).drop level = c :: rest := by
      rw [List.append_assoc, List.drop_append_of_le_length (by simp), List.drop_eq_nil_of_le (by simp)]
      rfl
    have taken : (List.replicate level '#' ++ [c] ++ rest).take level = List.replicate level '#' := by
      rw [List.append_assoc, List.take_append_of_le_length (by simp), List.take_of_length_le (by simp)]
    rw [size]
    simp only [List.cons_append, headingBreak, dropped, taken]
    rw [if_pos (by simp [other])]
    simp

theorem steady_headingBreak (level : Nat) : Steady '\n' (headingBreak level) := by
  refine steady_of_shape (headingBreak_iff level) fun front shaped => ?_
  obtain ⟨c, rfl, _⟩ := shaped
  refine ⟨rfl, ?_⟩
  rw [List.tail_cons, List.dropLast_concat]
  intro member
  exact absurd (List.eq_of_mem_replicate member) (by decide)

theorem steady_fenceBreak : Steady '\n' fenceBreak := by
  refine @steady_of_shape _ (fun front => front = ['\n', '`', '`', '`']) (fun cs n => ?_) fun front same => ?_
  · constructor
    · intro matched
      unfold fenceBreak at matched
      split at matched
      · next rest => exact ⟨_, rest, rfl, rfl, (Option.some.inj matched).symm⟩
      · simp at matched
    · rintro ⟨front, rest, rfl, rfl, rfl⟩
      rfl
  · rw [same]
    decide

theorem steady_bulletBreak : Steady '\n' bulletBreak := by
  refine @steady_of_shape _ (fun front => ∃ mark c, front = ['\n', mark, c] ∧
    (mark == '-' || mark == '*') = true ∧ isWhiteSpace c = true) (fun cs n => ?_) fun front shaped => ?_
  · constructor
    · intro matched
      unfold bulletBreak at matched
      split at matched
      · next mark c rest =>
        split at matched
        · next marked =>
          rw [Bool.and_eq_true] at marked
          exact ⟨['\n', mark, c], rest, rfl, ⟨mark, c, rfl, marked⟩, (Option.some.inj matched).symm⟩
        · simp at matched
      · simp at matched
    · rintro ⟨front, rest, rfl, ⟨mark, c, rfl, marked⟩, rfl⟩
      exact if_pos (by rw [marked.1, marked.2]; rfl)
  · obtain ⟨mark, c, rfl, marked, _⟩ := shaped
    refine ⟨rfl, fun member => ?_⟩
    have same : '\n' = mark := by simpa using member
    subst same
    exact absurd marked (by decide)

theorem steady_lineBreak : Steady '\n' lineBreak := by
  refine @steady_of_shape _ (fun front => front = ['\n']) (fun cs n => ?_) fun front same => ?_
  · constructor
    · intro matched
      unfold lineBreak at matched
      split at matched
      · next rest => exact ⟨_, rest, rfl, rfl, (Option.some.inj matched).symm⟩
      · simp at matched
    · rintro ⟨front, rest, rfl, rfl, rfl⟩
      rfl
  · rw [same]
    decide

theorem numberedBreak_iff (cs : List Char) (n : Nat) :
    numberedBreak cs = some n ↔ ∃ front rest, cs = front ++ rest ∧
      (∃ digits c, front = '\n' :: (digits ++ ['.', c]) ∧ digits ≠ [] ∧ (∀ d ∈ digits, isDecimalDigit d = true) ∧
        isWhiteSpace c = true) ∧ n = front.length := by
  constructor
  · intro matched
    unfold numberedBreak at matched
    split at matched
    · next rest =>
      split at matched
      · next c tail dropped =>
        dsimp only at matched
        split at matched
        · next marks =>
          rw [Bool.and_eq_true, bne_iff_ne, ne_eq, List.length_eq_zero_iff] at marks
          have whole : rest = rest.takeWhile isDecimalDigit ++ '.' :: c :: tail := by
            rw [← dropped, List.takeWhile_append_dropWhile]
          refine ⟨'\n' :: (rest.takeWhile isDecimalDigit ++ ['.', c]), tail, ?_,
            ⟨_, c, rfl, marks.1, fun d member => List.mem_takeWhile_imp member, marks.2⟩, ?_⟩
          · conv => lhs; rw [whole]
            simp
          · have same := Option.some.inj matched
            simp only [List.length_cons, List.length_append, List.length_nil]
            omega
        · simp at matched
      · simp at matched
    · simp at matched
  · rintro ⟨front, rest, rfl, ⟨digits, c, rfl, some, numeric, space⟩, size⟩
    have point : isDecimalDigit '.' = false := by decide
    have whole : digits ++ ['.', c] ++ rest = digits ++ '.' :: c :: rest := by simp
    have dropped : (digits ++ ['.', c] ++ rest).dropWhile isDecimalDigit = '.' :: c :: rest := by
      rw [whole, List.dropWhile_append_of_pos numeric, List.dropWhile_cons_of_neg (by simp [point])]
    have taken : (digits ++ ['.', c] ++ rest).takeWhile isDecimalDigit = digits := by
      rw [whole, List.takeWhile_append_of_pos numeric, List.takeWhile_cons_of_neg (by simp [point]), List.append_nil]
    have counted : digits.length ≠ 0 := fun none => some (List.length_eq_zero_iff.mp none)
    rw [size]
    simp only [List.cons_append, numberedBreak, dropped, taken]
    rw [if_pos (by simp [counted, space])]
    simp

theorem steady_numberedBreak : Steady '\n' numberedBreak := by
  refine steady_of_shape numberedBreak_iff fun front shaped => ?_
  obtain ⟨digits, c, rfl, _, numeric, _⟩ := shaped
  refine ⟨rfl, fun member => ?_⟩
  have split : digits ++ ['.', c] = (digits ++ ['.']) ++ [c] := by simp
  rw [List.tail_cons, split, List.dropLast_concat, List.mem_append] at member
  rcases member with digit | point
  · exact absurd (numeric _ digit) (by decide)
  · exact absurd (List.mem_singleton.mp point) (by decide)

/-- The front of a list that satisfies a predicate, when more is put behind. -/
theorem takeWhile_append_cases {α : Type} (keep : α → Bool) (xs more : List α) :
    (xs ++ more).takeWhile keep = xs.takeWhile keep ∨
      (xs.takeWhile keep = xs ∧ (xs ++ more).takeWhile keep = xs ++ more.takeWhile keep) := by
  by_cases whole : (xs.takeWhile keep).length = xs.length
  · have same : xs.takeWhile keep = xs := (List.takeWhile_prefix keep).eq_of_length whole
    exact .inr ⟨same, by rw [List.takeWhile_append, if_pos whole]⟩
  · exact .inl (by rw [List.takeWhile_append, if_neg whole])

theorem paragraphBreak_some_iff {cs : List Char} {n : Nat} :
    paragraphBreak cs = some n ↔ 2 ≤ (cs.takeWhile (· = '\n')).length ∧ (cs.takeWhile (· = '\n')).length = n := by
  simp only [paragraphBreak, Option.ite_none_right_eq_some, Option.some.injEq]

theorem paragraphBreak_none {cs : List Char} (unmatched : paragraphBreak cs = none) :
    (cs.takeWhile (· = '\n')).length < 2 := by
  by_contra long
  have matched := paragraphBreak_some_iff.mpr ⟨Nat.le_of_not_lt long, rfl⟩
  rw [unmatched] at matched
  simp at matched

theorem steady_paragraphBreak : Steady '\n' paragraphBreak where
  head {cs n} matched := by
    cases cs with
    | nil => simp [paragraphBreak] at matched
    | cons c cs =>
      by_cases newline : c = '\n'
      · rw [newline]
        rfl
      · simp [paragraphBreak, newline] at matched
  takes {cs n} matched := by
    have run := paragraphBreak_some_iff.mp matched
    omega
  grows {cs n} more matched := by
    have run := paragraphBreak_some_iff.mp matched
    rcases takeWhile_append_cases (fun c => decide (c = '\n')) cs more with same | ⟨all, longer⟩
    · exact ⟨n, paragraphBreak_some_iff.mpr (by rwa [same]), .inl rfl⟩
    · rw [all] at run
      refine ⟨_, paragraphBreak_some_iff.mpr ⟨?_, rfl⟩, .inr ⟨?_, ?_⟩⟩
      · rw [longer, List.length_append]
        omega
      · rw [longer, List.length_append]
        omega
      · rw [List.drop_eq_nil_of_le (by omega)]
        exact List.not_mem_nil
  late {cs m} more unmatched matched := by
    have short := paragraphBreak_none unmatched
    have run := paragraphBreak_some_iff.mp matched
    rcases takeWhile_append_cases (fun c => decide (c = '\n')) cs more with same | ⟨all, _⟩
    · rw [same] at run
      omega
    · rw [all] at short
      have none : cs.tail = [] := List.length_eq_zero_iff.mp (by rw [List.length_tail]; omega)
      rw [none]
      exact List.not_mem_nil

theorem throughLastNewline_some_iff {cs : List Char} {n : Nat} :
    throughLastNewline cs = some n ↔
      ∃ front back, cs.takeWhile isWhiteSpace = front ++ '\n' :: back ∧ '\n' ∉ back ∧ n = front.length + 1 := by
  unfold throughLastNewline
  dsimp only
  generalize cs.takeWhile isWhiteSpace = space
  -- the last newline stands before a stretch without one
  have last : ∀ front back, '\n' ∉ back →
      ((front ++ '\n' :: back).reverse.takeWhile fun c => decide (c ≠ '\n')).length = back.length := by
    intro front back clear
    have plain : ∀ c ∈ back.reverse, decide (c ≠ '\n') = true := by
      intro c member
      rw [List.mem_reverse] at member
      exact decide_eq_true fun same => clear (same ▸ member)
    rw [List.reverse_append, List.reverse_cons, List.append_assoc, List.takeWhile_append_of_pos plain,
      List.singleton_append, List.takeWhile_cons_of_neg (by simp), List.append_nil, List.length_reverse]
  constructor
  · intro found
    split at found
    · next member =>
      obtain ⟨as, bs, whole, clear⟩ := List.eq_append_cons_of_mem (List.mem_reverse.mpr member)
      have parts : space = bs.reverse ++ '\n' :: as.reverse := by
        rw [← List.reverse_reverse space, whole]
        simp
      have away : '\n' ∉ as.reverse := fun inside => clear (List.mem_reverse.mp inside)
      refine ⟨bs.reverse, as.reverse, parts, away, ?_⟩
      have size := Option.some.inj found
      rw [parts, last _ _ away, List.length_append, List.length_cons] at size
      omega
    · simp at found
  · rintro ⟨front, back, rfl, clear, rfl⟩
    rw [if_pos (by simp), last _ _ clear, List.length_append, List.length_cons]
    congr 1
    omega

theorem throughLastNewline_none {cs : List Char} (unmatched : throughLastNewline cs = none) :
    '\n' ∉ cs.takeWhile isWhiteSpace := by
  intro member
  unfold throughLastNewline at unmatched
  dsimp only at unmatched
  rw [if_pos member] at unmatched
  simp at unmatched

def isRuleMark (a : Char) : Bool := a == '-' || a == '*' || a == '_'

theorem ruleBreak_iff {cs : List Char} {n : Nat} :
    ruleBreak cs = some n ↔ ∃ a rest k, cs = '\n' :: a :: a :: a :: rest ∧ isRuleMark a = true ∧
      throughLastNewline rest = some k ∧ n = k + 4 := by
  constructor
  · intro matched
    unfold ruleBreak at matched
    split at matched
    · next a b c rest =>
      split at matched
      · next marks =>
        rw [Bool.and_eq_true, Bool.and_eq_true, beq_iff_eq, beq_iff_eq] at marks
        obtain ⟨⟨rfl, rfl⟩, mark⟩ := marks
        obtain ⟨k, found, size⟩ := Option.map_eq_some_iff.mp matched
        exact ⟨a, rest, k, rfl, mark, found, size.symm⟩
      · simp at matched
    · simp at matched
  · rintro ⟨a, rest, k, rfl, mark, found, rfl⟩
    have marks : (a == a && a == a && (a == '-' || a == '*' || a == '_')) = true := by
      rw [← isRuleMark, mark, beq_self_eq_true]
      rfl
    simp only [ruleBreak]
    rw [if_pos marks, found]
    rfl

theorem steady_ruleBreak : Steady '\n' ruleBreak where
  head {cs n} matched := by
    obtain ⟨a, rest, k, rfl, _⟩ := ruleBreak_iff.mp matched
    rfl
  takes {cs n} matched := by
    obtain ⟨_, _, _, _, _, _, rfl⟩ := ruleBreak_iff.mp matched
    omega
  grows {cs n} more matched := by
    obtain ⟨a, rest, k, rfl, mark, found, rfl⟩ := ruleBreak_iff.mp matched
    obtain ⟨front, back, space, clear, rfl⟩ := throughLastNewline_some_iff.mp found
    rcases takeWhile_append_cases isWhiteSpace rest more with same | ⟨all, longer⟩
    · refine ⟨_, ruleBreak_iff.mpr ⟨a, rest ++ more, front.length + 1, rfl, mark, ?_, rfl⟩, .inl rfl⟩
      exact throughLastNewline_some_iff.mpr ⟨front, back, by rw [same, space], clear, rfl⟩
    · -- the white space goes on past the front, perhaps through further newlines
      rw [all] at space
      have dropped : ('\n' :: a :: a :: a :: rest).drop (front.length + 1 + 4) = back := by
        rw [space]
        simp [List.drop_append]
      have far : ∃ k, throughLastNewline (rest ++ more) = some k ∧ front.length + 1 ≤ k := by
        cases onward : throughLastNewline (rest ++ more) with
        | none =>
          have clear' := throughLastNewline_none onward
          rw [longer, space] at clear'
          simp at clear'
        | some k =>
          obtain ⟨front', back', space', clear', rfl⟩ := throughLastNewline_some_iff.mp onward
          refine ⟨_, rfl, ?_⟩
          rw [longer, space, List.append_assoc, List.cons_append] at space'
          obtain ⟨gap, further⟩ := prefix_of_clear space' clear'
          rw [further, List.length_append]
          omega
      obtain ⟨k, onward, late⟩ := far
      refine ⟨k + 4, ruleBreak_iff.mpr ⟨a, rest ++ more, k, rfl, mark, onward, rfl⟩, .inr ⟨by omega, ?_⟩⟩
      rwa [dropped]
  late {cs m} more unmatched matched := by
    obtain ⟨a, rest, k, whole, mark, found, rfl⟩ := ruleBreak_iff.mp matched
    have plain : a ≠ '\n' := by
      rintro rfl
      exact absurd mark (by decide)
    have parts : cs ++ more = ['\n', a, a, a] ++ rest := whole
    rcases List.append_eq_append_iff.mp parts with ⟨gap, long, _⟩ | ⟨gap, short, behind⟩
    · intro member
      cases cs with
      | nil => simp at member
      | cons d cs =>
        have tail := (List.cons.inj long).2
        have among : '\n' ∈ [a, a, a] := tail ▸ List.mem_append_left gap member
        simp [plain.symm] at among
    · subst short
      have none : throughLastNewline gap = none := by
        cases now : throughLastNewline gap with
        | none => rfl
        | some k =>
          have matched' := ruleBreak_iff.mpr ⟨a, gap, k, rfl, mark, now, rfl⟩
          rw [show ['\n', a, a, a] ++ gap = '\n' :: a :: a :: a :: gap from rfl, matched'] at unmatched
          simp at unmatched
      have clear := throughLastNewline_none none
      rcases takeWhile_append_cases isWhiteSpace gap more with same | ⟨all, _⟩
      · rw [behind] at found
        obtain ⟨front, back, space, _⟩ := throughLastNewline_some_iff.mp found
        rw [same] at space
        rw [space] at clear
        simp at clear
      · rw [all] at clear
        simp [clear, plain.symm]

/-- Every break pattern starts at a line break, and what it finds in a front stays found. -/
theorem steady_breakPatterns {pattern : List Char → Option Nat} {score : Int}
    (listed : (pattern, score) ∈ breakPatterns) : Steady '\n' pattern := by
  simp only [breakPatterns, List.mem_cons, Prod.mk.injEq, List.not_mem_nil, or_false] at listed
  rcases listed with ⟨rfl, _⟩ | ⟨rfl, _⟩ | ⟨rfl, _⟩ | ⟨rfl, _⟩ | ⟨rfl, _⟩ | ⟨rfl, _⟩ | ⟨rfl, _⟩ | ⟨rfl, _⟩ | ⟨rfl, _⟩ |
    ⟨rfl, _⟩ | ⟨rfl, _⟩ | ⟨rfl, _⟩
  iterate 6 exact steady_headingBreak _
  · exact steady_fenceBreak
  · exact steady_ruleBreak
  · exact steady_paragraphBreak
  · exact steady_bulletBreak
  · exact steady_numberedBreak
  · exact steady_lineBreak

end Rqmd.Chunking
