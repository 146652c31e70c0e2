import Mathlib.Algebra.Order.Ring.Nat
import Rqmd.FirstChunk

/-! The score a heading gives the line break before it. A match of a heading pattern takes the character behind the
marks, and where that is the next line break the scan has passed it before it can match there. -/

namespace Rqmd.Chunking
open Text

/-- The score of a heading in `BREAK_PATTERNS`. -/
def headingScore (level : Nat) : Int := 110 - 10 * level

/-- A line break and the marks of a heading. -/
def bareHeading (level : Nat) : List Char := '\n' :: List.replicate level '#'

/-- Lines one after the other that hold nothing but the marks. -/
def bareHeadings (level count : Nat) : List Char := (List.replicate count (bareHeading level)).flatten

/-- A heading behind `front`, its line break outside the fences. -/
structure HeadingAt (text : List Char) (level : Nat) (front : List Char) : Prop where
  levels : 1 ≤ level ∧ level ≤ 6
  follows : ∃ c tail, text = front ++ (bareHeading level ++ c :: tail) ∧ c ≠ '#'
  outside : insideFence (byteLength front) (scanCodeFences text) = false

/-- Every heading gives the line break before it its score, and the break points are the line breaks outside the
fences, each once and in order. -/
structure BreakScoresLocal (text : List Char) : Prop where
  headings : ∀ level front, HeadingAt text level front →
    ∃ b ∈ scanBreakPoints text (scanCodeFences text), b.pos = byteLength front ∧ headingScore level ≤ b.score
  positions : ∀ pos, pos ∈ (scanBreakPoints text (scanCodeFences text)).map BreakPoint.pos ↔
    (∃ front tail, text = front ++ '\n' :: tail ∧ byteLength front = pos) ∧
      insideFence pos (scanCodeFences text) = false
  increasing : ((scanBreakPoints text (scanCodeFences text)).map BreakPoint.pos).Pairwise (· < ·)

variable {text front before tail : List Char} {fences : List Span} {level count offset p : Nat} {c : Char}

@[simp] theorem length_bareHeading : (bareHeading level).length = level + 1 := by simp [bareHeading]

@[simp] theorem byteLength_bareHeading : byteLength (bareHeading level) = level + 1 := by
  have marks : ∀ count, byteLength (List.replicate count '#') = count := by
    intro count
    induction count with
    | zero => rfl
    | succ count later =>
      rw [List.replicate_succ, byteLength_cons, later]
      exact Nat.add_comm 1 count
  rw [bareHeading, byteLength_cons, marks]
  exact Nat.add_comm 1 level

theorem bareHeadings_succ : bareHeadings level (count + 1) = bareHeading level ++ bareHeadings level count := by
  rw [bareHeadings, List.replicate_succ, List.flatten_cons, bareHeadings]

theorem bareHeadings_snoc : bareHeadings level (count + 1) = bareHeadings level count ++ bareHeading level := by
  rw [bareHeadings, List.replicate_succ', List.flatten_append, List.flatten_singleton, bareHeadings]

/-- The bare headings right before a place, and what stands before them. -/
theorem exists_bareHeadings (level : Nat) (front : List Char) :
    ∃ before count, front = before ++ bareHeadings level count ∧ ¬ bareHeading level <:+ before := by
  induction whole : front.length using Nat.strongRecOn generalizing front with
  | ind size later =>
    by_cases more : bareHeading level <:+ front
    · obtain ⟨rest, parts⟩ := more
      have shorter : rest.length < size := by
        rw [← whole, ← parts, List.length_append, length_bareHeading]
        omega
      obtain ⟨before, count, split, last⟩ := later rest.length shorter rest rfl
      exact ⟨before, count + 1, by rw [bareHeadings_snoc, ← List.append_assoc, ← split, parts], last⟩
    · exact ⟨front, 0, (List.append_nil front).symm, more⟩

/-! ### The scan for one level -/

theorem headingBreak_bare (other : c ≠ '#') : headingBreak level (bareHeading level ++ c :: tail) = some (level + 2) := by
  refine (headingBreak_iff level _ _).mpr ⟨bareHeading level ++ [c], tail, by simp, ⟨c, rfl, other⟩, ?_⟩
  rw [List.length_append, length_bareHeading]
  rfl

/-- Behind a line that is no bare heading the scan stands at the next line break. -/
theorem findIter_heading_before (last : ¬ bareHeading level <:+ before) (rest : List Char) :
    ∃ found, findIter (headingBreak level) 0 offset (before ++ '\n' :: rest) =
        found ++ findIter (headingBreak level) 0 (offset + byteLength before) ('\n' :: rest) ∧
      ∀ p ∈ found, p < offset + byteLength before := by
  refine findIter_append_of_within (fun a b n parts some matched => ?_) (Nat.zero_le _)
  obtain ⟨mark, behind, whole, ⟨c, shape, other⟩, size⟩ := (headingBreak_iff level _ n).mp matched
  have marks : mark = bareHeading level ++ [c] := shape
  rw [size]
  rcases List.append_eq_append_iff.mp whole with ⟨gap, long, rest'⟩ | ⟨gap, short, _⟩
  · -- the match would run past the line break, which is no mark of a heading
    cases gap with
    | nil => exact Nat.le_of_eq (by rw [long, List.append_nil])
    | cons d gap =>
      have newline : d = '\n' := ((List.cons.inj rest').1).symm
      subst newline
      have ends : b ++ '\n' :: gap = bareHeading level ++ [c] := long.symm.trans marks
      cases b with
      | nil => exact absurd rfl some
      | cons e b =>
        rcases List.eq_nil_or_concat gap with none | ⟨inner, z, more⟩
        · -- the last character of the match is the line break: what stands before it is a bare heading
          subst none
          have same := (List.append_inj' ends rfl).1
          exact absurd ⟨a, by rw [parts, same]⟩ last
        · have inside : (e :: b) ++ '\n' :: inner = bareHeading level := by
            rw [more, List.concat_eq_append, ← List.cons_append, ← List.append_assoc] at ends
            exact (List.append_inj' ends rfl).1
          have second : '\n' ∈ List.replicate level '#' := by
            have tails := (List.cons.inj inside).2
            rw [← tails]
            exact List.mem_append_right _ List.mem_cons_self
          exact absurd (List.eq_of_mem_replicate second) (by decide)
  · rw [short, List.length_append]
    omega

/-- One bare heading before another line break: it is found, and that line break is passed over. -/
theorem findIter_heading_bare (rest : List Char) :
    findIter (headingBreak level) 0 offset (bareHeading level ++ '\n' :: rest) =
      offset :: findIter (headingBreak level) 0 (offset + level + 2) rest := by
  have matched : headingBreak level (bareHeading level ++ '\n' :: rest) = some (level + 2) := headingBreak_bare (by decide)
  have skips : ∀ (count offset : Nat) (more : List Char),
      findIter (headingBreak level) (count + 1) offset (List.replicate count '#' ++ '\n' :: more) =
        findIter (headingBreak level) 0 (offset + count + 1) more := by
    intro count
    induction count with
    | zero => exact fun offset more => rfl
    | succ count later =>
      intro offset more
      rw [List.replicate_succ, List.cons_append, findIter, later]
      congr 1
      have one : ('#').utf8Size = 1 := rfl
      omega
  rw [bareHeading, List.cons_append] at matched ⊢
  rw [findIter, matched]
  simp only [List.cons.injEq, true_and]
  rw [show level + 2 - 1 = level + 1 by omega, skips]
  congr 1
  have one : ('\n').utf8Size = 1 := rfl
  omega

theorem bareHeadings_newline (level count : Nat) (c : Char) (tail : List Char) :
    ∃ rest, bareHeadings level count ++ (bareHeading level ++ c :: tail) = '\n' :: rest := by
  cases count with
  | zero => exact ⟨_, rfl⟩
  | succ count =>
    rw [bareHeadings_succ]
    exact ⟨_, rfl⟩

/-- Of headings one right after the other the scan finds every second one. -/
theorem mem_findIter_bareHeadings (other : c ≠ '#') (count : Nat) :
    offset + count * (level + 1) ∈ findIter (headingBreak level) 0 offset
        (bareHeadings level count ++ (bareHeading level ++ c :: tail)) ↔ count % 2 = 0 := by
  induction count using Nat.twoStepInduction generalizing offset with
  | zero =>
    have matched : headingBreak level (bareHeading level ++ c :: tail) = some (level + 2) := headingBreak_bare other
    have found := @mem_findIter_here (headingBreak level) offset (List.replicate level '#' ++ c :: tail) '\n' _ matched
    rw [Nat.zero_mul, Nat.add_zero]
    exact ⟨fun _ => rfl, fun _ => found⟩
  | one =>
    have scan := @findIter_heading_bare level offset (List.replicate level '#' ++ c :: tail)
    have shape : bareHeadings level 1 ++ (bareHeading level ++ c :: tail) =
        bareHeading level ++ '\n' :: (List.replicate level '#' ++ c :: tail) := by
      rw [bareHeadings_succ, bareHeadings, List.replicate_zero, List.flatten_nil, List.append_nil]
      rfl
    rw [shape, scan, Nat.one_mul]
    refine ⟨fun found => ?_, fun impossible => absurd impossible (by decide)⟩
    rcases List.mem_cons.mp found with here | behind
    · omega
    · have := offset_le_of_mem_findIter behind
      omega
  | more count later _ =>
    obtain ⟨rest, newline⟩ := bareHeadings_newline level count c tail
    have marks : '\n' ∉ List.replicate level '#' := fun member => absurd (List.eq_of_mem_replicate member) (by decide)
    have size : byteLength (List.replicate level '#') = level := by
      have whole := @byteLength_bareHeading level
      rw [bareHeading, byteLength_cons] at whole
      have one : ('\n').utf8Size = 1 := rfl
      omega
    have shape : bareHeadings level (count + 2) ++ (bareHeading level ++ c :: tail) =
        bareHeading level ++ '\n' :: (List.replicate level '#' ++
          (bareHeadings level count ++ (bareHeading level ++ c :: tail))) := by
      rw [bareHeadings_succ, bareHeadings_succ, List.append_assoc, List.append_assoc]
      rfl
    have clear := @Marked.findIter_clear (headingBreak level) (offset + level + 2)
      (bareHeadings level count ++ (bareHeading level ++ c :: tail)) '\n' (steady_headingBreak level).toMarked _ marks
    rw [shape, findIter_heading_bare, clear, size]
    have rest := @later (offset + level + 2 + level)
    have place : offset + level + 2 + level + count * (level + 1) = offset + (count + 2) * (level + 1) := by
      rw [Nat.add_mul count 2, Nat.two_mul]
      omega
    rw [place] at rest
    rw [List.mem_cons, rest, Nat.add_mod_right]
    refine or_iff_right fun here => ?_
    have : 0 < (count + 2) * (level + 1) := Nat.mul_pos (Nat.succ_pos _) (Nat.succ_pos _)
    omega

/-- A heading is found when an even number of bare headings stands right before it. -/
theorem mem_findIter_heading (other : c ≠ '#') (last : ¬ bareHeading level <:+ before) (count : Nat) :
    byteLength (before ++ bareHeadings level count) ∈ findIter (headingBreak level) 0 0
        (before ++ bareHeadings level count ++ (bareHeading level ++ c :: tail)) ↔ count % 2 = 0 := by
  have size : byteLength (bareHeadings level count) = count * (level + 1) := by
    induction count with
    | zero => rw [Nat.zero_mul]; rfl
    | succ count later => rw [bareHeadings_succ, byteLength_append, byteLength_bareHeading, later, Nat.succ_mul, Nat.add_comm]
  obtain ⟨rest, newline⟩ := bareHeadings_newline level count c tail
  obtain ⟨found, split, early⟩ := @findIter_heading_before before level 0 last rest
  rw [List.append_assoc, newline, split, ← newline, byteLength_append, size, Nat.zero_add]
  rw [List.mem_append, mem_findIter_bareHeadings other]
  refine or_iff_right fun inside => ?_
  have := early _ inside
  omega

/-! ### The score of a break point -/

theorem marks_level {d : Char} {rest : List Char} {a b : Nat}
    (same : List.replicate a '#' ++ c :: tail = List.replicate b '#' ++ d :: rest) (left : c ≠ '#') (right : d ≠ '#') :
    a = b := by
  induction a generalizing b with
  | zero =>
    cases b with
    | zero => rfl
    | succ b =>
      rw [List.replicate_succ] at same
      exact absurd (List.cons.inj same).1 left
  | succ a later =>
    cases b with
    | zero =>
      rw [List.replicate_succ] at same
      exact absurd (List.cons.inj same).1.symm right
    | succ b =>
      rw [List.replicate_succ, List.replicate_succ] at same
      rw [later (List.cons.inj same).2]

theorem headingBreak_level {k : Nat} (other : c ≠ '#')
    (matched : (headingBreak k (bareHeading level ++ c :: tail)).isSome = true) : k = level := by
  obtain ⟨n, found⟩ := Option.isSome_iff_exists.mp matched
  obtain ⟨mark, rest, whole, ⟨d, shape, different⟩, _⟩ := (headingBreak_iff k _ n).mp found
  rw [shape, bareHeading, List.cons_append, List.cons_append, List.append_assoc] at whole
  exact (marks_level (List.cons.inj whole).2 other different).symm

/-- At a heading no pattern but its own gives more than a line break. -/
theorem headingBreak_of_score {pattern : List Char → Option Nat} {score : Int} (listed : (pattern, score) ∈ breakPatterns)
    (levels : 1 ≤ level ∧ level ≤ 6) (other : c ≠ '#') (enough : headingScore level ≤ score)
    (matched : (pattern (bareHeading level ++ c :: tail)).isSome = true) : pattern = headingBreak level := by
  have marked : ∃ rest, bareHeading level ++ c :: tail = '\n' :: '#' :: rest := by
    obtain ⟨k, rfl⟩ : ∃ k, level = k + 1 := ⟨level - 1, by omega⟩
    exact ⟨_, rfl⟩
  simp only [breakPatterns, List.mem_cons, Prod.mk.injEq, List.not_mem_nil, or_false] at listed
  have heading : ∀ k, pattern = headingBreak k → pattern = headingBreak level := by
    intro k same
    rw [same] at matched ⊢
    rw [headingBreak_level other matched]
  rcases listed with ⟨same, _⟩ | ⟨same, _⟩ | ⟨same, _⟩ | ⟨same, _⟩ | ⟨same, _⟩ | ⟨same, _⟩ | rest
  iterate 6 exact heading _ same
  obtain ⟨rest', start⟩ := marked
  rw [start] at matched
  rcases rest with ⟨rfl, _⟩ | ⟨rfl, _⟩ | ⟨rfl, _⟩ | ⟨rfl, _⟩ | ⟨rfl, _⟩ | ⟨_, low⟩
  · simp [fenceBreak] at matched
  · have none : ruleBreak ('\n' :: '#' :: rest') = Option.none := by
      unfold ruleBreak
      split
      · next a b c _ shape =>
        have first := (List.cons.inj (List.cons.inj shape).2).1
        rw [← first, if_neg (by simp)]
      · rfl
    rw [none] at matched
    cases matched
  · simp [paragraphBreak] at matched
  · have none : bulletBreak ('\n' :: '#' :: rest') = Option.none := by
      unfold bulletBreak
      split
      · next mark c _ shape =>
        have first := (List.cons.inj (List.cons.inj shape).2).1
        rw [← first]
        rfl
      · rfl
    rw [none] at matched
    cases matched
  · have hash : isDecimalDigit '#' = false := by decide +kernel
    simp [numberedBreak, hash] at matched
  · rw [headingScore] at enough
    omega

theorem headingBreak_listed (levels : 1 ≤ level ∧ level ≤ 6) : (headingBreak level, headingScore level) ∈ breakPatterns := by
  obtain ⟨low, high⟩ := levels
  have cases' : level = 1 ∨ level = 2 ∨ level = 3 ∨ level = 4 ∨ level = 5 ∨ level = 6 := by omega
  rcases cases' with rfl | rfl | rfl | rfl | rfl | rfl <;> simp [breakPatterns, headingScore]

/-- A heading's line break has its score when the scan for its level finds it. -/
theorem scored_iff_found (heading : HeadingAt text level front) :
    (∃ b ∈ scanBreakPoints text (scanCodeFences text), b.pos = byteLength front ∧ headingScore level ≤ b.score) ↔
      byteLength front ∈ findIter (headingBreak level) 0 0 text := by
  constructor
  · rintro ⟨b, noted, place, enough⟩
    obtain ⟨pattern, listed, found, _⟩ := mem_foundBreaks.mp (scanBreakPoints_subset noted)
    obtain ⟨c, tail, whole, other⟩ := heading.follows
    obtain ⟨before, rest, parts, offset, _, matched⟩ := mem_findIter found
    have same : byteLength before = byteLength front := by omega
    have rest_eq : rest = bareHeading level ++ c :: tail := by
      have left := dropBytes_append_length before rest
      have right := dropBytes_append_length front (bareHeading level ++ c :: tail)
      rw [← parts, same] at left
      rw [← whole] at right
      exact left.symm.trans right
    rw [rest_eq] at matched
    rw [headingBreak_of_score listed heading.levels other enough matched, place] at found
    exact found
  · intro found
    have member : ⟨byteLength front, headingScore level⟩ ∈ foundBreaks text (scanCodeFences text) :=
      mem_foundBreaks.mpr ⟨headingBreak level, headingBreak_listed heading.levels, found, heading.outside⟩
    obtain ⟨b, noted, place, above⟩ := scanBreakPoints_outdo member
    exact ⟨b, noted, place, above⟩

/-! ### The positions of the break points -/

theorem note_positions (seen : List BreakPoint) (found : BreakPoint) :
    (note seen found).map BreakPoint.pos = if found.pos ∈ seen.map BreakPoint.pos then seen.map BreakPoint.pos
      else seen.map BreakPoint.pos ++ [found.pos] := by
  induction seen with
  | nil => rfl
  | cons b rest later =>
    rw [note]
    by_cases here : b.pos = found.pos
    · rw [if_pos here, if_pos (by rw [List.map_cons, here]; exact List.mem_cons_self)]
      rfl
    · rw [if_neg here, List.map_cons, later, List.map_cons]
      by_cases behind : found.pos ∈ rest.map BreakPoint.pos
      · rw [if_pos behind, if_pos (List.mem_cons_of_mem _ behind)]
      · rw [if_neg behind, if_neg (by rw [List.mem_cons, not_or]; exact ⟨Ne.symm here, behind⟩), List.cons_append]

theorem notes_distinct (found seen : List BreakPoint) (distinct : (seen.map BreakPoint.pos).Nodup) :
    ((found.foldl note seen).map BreakPoint.pos).Nodup := by
  induction found generalizing seen with
  | nil => exact distinct
  | cons b rest later =>
    apply later
    rw [note_positions]
    split
    · exact distinct
    · next new =>
      refine List.nodup_append.mpr ⟨distinct, List.nodup_singleton _, fun p member q last => ?_⟩
      rw [List.mem_singleton.mp last]
      exact fun same => new (same ▸ member)

theorem scanBreakPoints_increasing (text : List Char) (fences : List Span) :
    ((scanBreakPoints text fences).map BreakPoint.pos).Pairwise (· < ·) := by
  have total : Std.Total fun a b : BreakPoint => a.pos ≤ b.pos := ⟨fun a b => Nat.le_total a.pos b.pos⟩
  have onward : IsTrans BreakPoint fun a b => a.pos ≤ b.pos := ⟨fun _ _ _ => Nat.le_trans⟩
  have sorted : (scanBreakPoints text fences).Pairwise fun a b => a.pos ≤ b.pos := List.pairwise_insertionSort _ _
  have perm : (scanBreakPoints text fences).Perm ((foundBreaks text fences).foldl note []) := List.perm_insertionSort _ _
  have distinct : ((scanBreakPoints text fences).map BreakPoint.pos).Nodup :=
    (perm.map BreakPoint.pos).nodup_iff.mpr (notes_distinct _ [] List.nodup_nil)
  have ordered := List.pairwise_map.mpr sorted
  exact ordered.imp₂ (fun _ _ below apart => Nat.lt_of_le_of_ne below apart) distinct

theorem mem_scanBreakPoints_pos :
    p ∈ (scanBreakPoints text fences).map BreakPoint.pos ↔
      (∃ front tail, text = front ++ '\n' :: tail ∧ byteLength front = p) ∧ insideFence p fences = false := by
  constructor
  · intro member
    obtain ⟨b, noted, rfl⟩ := List.mem_map.mp member
    have found := scanBreakPoints_subset noted
    obtain ⟨front, tail, parts, place⟩ := found_at_line found
    obtain ⟨_, _, _, outside⟩ := mem_foundBreaks.mp found
    exact ⟨⟨front, tail, parts, place.symm⟩, outside⟩
  · rintro ⟨⟨front, tail, parts, rfl⟩, outside⟩
    obtain ⟨b, noted, place, _⟩ := scanBreakPoints_outdo (line_found parts outside)
    exact List.mem_map.mpr ⟨b, noted, place⟩

/-! ### When the scores are local -/

/-- Break scores are local when every heading outside the fences stands behind an even number of lines that hold
nothing but the marks of its level. -/
theorem break_scores_local_iff (text : List Char) :
    BreakScoresLocal text ↔ ∀ level before count, HeadingAt text level (before ++ bareHeadings level count) →
      ¬ bareHeading level <:+ before → count % 2 = 0 := by
  constructor
  · intro scores level before count heading last
    have found := (scored_iff_found heading).mp (scores.headings level _ heading)
    obtain ⟨c, tail, whole, other⟩ := heading.follows
    rw [whole] at found
    exact (mem_findIter_heading other last count).mp found
  · intro even
    refine ⟨fun level front heading => ?_, fun _ => mem_scanBreakPoints_pos, scanBreakPoints_increasing _ _⟩
    obtain ⟨before, count, rfl, last⟩ := exists_bareHeadings level front
    obtain ⟨c, tail, whole, other⟩ := heading.follows
    have found := (@mem_findIter_heading before tail level c other last count).mpr (even level before count heading last)
    rw [← whole] at found
    exact (scored_iff_found heading).mpr found

/-- A heading behind an empty one. -/
theorem heading_passed_over : ¬ BreakScoresLocal "\n#\n#x".toList := by
  intro scores
  have heading : HeadingAt "\n#\n#x".toList 1 ['\n', '#'] :=
    ⟨⟨by decide, by decide⟩, ⟨'x', [], by decide, by decide⟩, by decide⟩
  obtain ⟨b, noted, place, enough⟩ := scores.headings 1 _ heading
  have points : scanBreakPoints "\n#\n#x".toList (scanCodeFences "\n#\n#x".toList) = [⟨0, 100⟩, ⟨2, 1⟩] := by
    decide +kernel
  rw [points] at noted
  simp only [List.mem_cons, List.not_mem_nil, or_false] at noted
  rcases noted with rfl | rfl
  · exact absurd place (by decide)
  · exact absurd enough (by decide)

end Rqmd.Chunking
