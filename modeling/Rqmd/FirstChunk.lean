import Rqmd.Breaks
import Rqmd.Rounds
import Rqmd.TableHeaders

/-! The fast path for the first chunk. It scans the text up to the end of the first window, and so misses the
marks that start at the last line break of this front and run past its end. -/

namespace Rqmd.Chunking
open Text

/-! ### Fences of a front -/

theorem rigid_fenceMark : Rigid '\n' fenceMark where
  same {cs n} more matched := by
    unfold fenceMark at matched
    split at matched
    · exact matched
    · simp at matched
  late {cs m} more unmatched matched := by
    have none : ∀ rest : List Char, rest.length < 3 → fenceMark rest = Option.none := by
      intro rest short
      unfold fenceMark
      split
      · simp at short
        omega
      · rfl
    have short : cs.length < 3 ∧ '\n' ∉ cs := by
      rcases cs with _ | ⟨a, _ | ⟨b, _ | ⟨c, rest⟩⟩⟩
      · simp
      · unfold fenceMark at matched
        split at matched
        · next tail whole =>
          have first := (List.cons.inj whole).1
          simp [first]
        · simp at matched
      · unfold fenceMark at matched
        split at matched
        · next tail whole =>
          have first := (List.cons.inj whole).1
          have second := (List.cons.inj (List.cons.inj whole).2).1
          simp [first, second]
        · simp at matched
      · unfold fenceMark at matched unmatched
        split at matched
        · next tail whole =>
          have first := (List.cons.inj whole).1
          have second := (List.cons.inj (List.cons.inj whole).2).1
          have third := (List.cons.inj (List.cons.inj (List.cons.inj whole).2).2).1
          rw [first, second, third] at unmatched
          simp at unmatched
        · simp at matched
    refine ⟨short.2, fun rest suffix => none rest ?_⟩
    have := suffix.length_le
    omega

theorem insideFence_behind {length p : Nat} {marks : List Nat} (behind : ∀ e ∈ marks, p < e) :
    insideFence p (pairFences length marks) = false := by
  induction marks using pairFences.induct with
  | case1 start close rest later =>
    have first := behind start List.mem_cons_self
    have others := later fun e member => behind e (List.mem_cons_of_mem _ (List.mem_cons_of_mem _ member))
    simp only [pairFences, insideFence, List.any_cons, Bool.or_eq_false_iff]
    exact ⟨by simp; omega, others⟩
  | case2 start =>
    have first := behind start List.mem_cons_self
    simp [pairFences, insideFence]
    omega
  | case3 => rfl

/-- Marks behind an offset do not change whether it is inside a fence: an open fence is closed behind it
either way. -/
theorem insideFence_pairFences {short long p : Nat} (inside : p < short) (longer : short ≤ long) {marks extra : List Nat}
    (behind : ∀ e ∈ extra, p < e) :
    insideFence p (pairFences long (marks ++ extra)) = insideFence p (pairFences short marks) := by
  induction marks using pairFences.induct with
  | case1 start close rest later =>
    simp only [List.cons_append, pairFences, insideFence, List.any_cons] at later ⊢
    rw [later]
  | case2 start =>
    cases extra with
    | nil =>
      have both : p < long := by omega
      simp [pairFences, insideFence, inside, both]
    | cons e rest =>
      have close := behind e List.mem_cons_self
      have others := @insideFence_behind long _ _ fun d member => behind d (List.mem_cons_of_mem e member)
      have closed : p < e + 3 := by omega
      simp only [insideFence] at others
      simp only [List.singleton_append, pairFences, insideFence, List.any_cons, others, List.any_nil]
      simp [inside, closed]
  | case3 =>
    rw [List.nil_append, insideFence_behind behind]
    rfl

/-- A line break of a front is inside a fence of the front exactly when it is inside one of the whole. -/
theorem insideFence_front {front back before after : List Char} (parts : front = before ++ '\n' :: after) :
    insideFence (byteLength before) (scanCodeFences (front ++ back)) =
      insideFence (byteLength before) (scanCodeFences front) := by
  obtain ⟨extra, split, behind⟩ := rigid_fenceMark.findIter_append 0 0 front back
  have inside : byteLength before < byteLength front := by
    rw [parts, byteLength_append]
    have := byteLength_pos (List.cons_ne_nil '\n' after)
    omega
  simp only [scanCodeFences, split]
  refine insideFence_pairFences inside (by rw [byteLength_append]; omega) fun e member => ?_
  have := behind e member before after parts
  omega

/-! ### Breaks of a front -/

theorem mem_findIter_lineBreak {front tail : List Char} {offset : Nat} :
    offset + byteLength front ∈ findIter lineBreak 0 offset (front ++ '\n' :: tail) := by
  induction front generalizing offset with
  | nil => exact List.mem_cons_self
  | cons c front later =>
    have onward := @later (offset + c.utf8Size)
    rw [byteLength_cons, ← Nat.add_assoc, List.cons_append, findIter]
    split
    · next n matched =>
      have one : n = 1 := by
        unfold lineBreak at matched
        split at matched
        · exact (Option.some.inj matched).symm
        · simp at matched
      rw [one]
      exact List.mem_cons_of_mem _ onward
    · exact onward

/-- Every line break outside the fences is a break. -/
theorem line_found {text front tail : List Char} {fences : List Span} (parts : text = front ++ '\n' :: tail)
    (outside : insideFence (byteLength front) fences = false) :
    ⟨byteLength front, 1⟩ ∈ foundBreaks text fences := by
  have found := @mem_findIter_lineBreak front tail 0
  rw [Nat.zero_add, ← parts] at found
  exact mem_foundBreaks.mpr ⟨lineBreak, by simp [breakPatterns], found, outside⟩

/-- A break stands at a line break of the text. -/
theorem found_at_line {text : List Char} {fences : List Span} {b : BreakPoint} (found : b ∈ foundBreaks text fences) :
    ∃ front tail, text = front ++ '\n' :: tail ∧ b.pos = byteLength front := by
  obtain ⟨pattern, listed, place, _⟩ := mem_foundBreaks.mp found
  obtain ⟨front, tail, whole, pos, _⟩ := (steady_breakPatterns listed).mem_findIter place
  exact ⟨front, tail, whole, by omega⟩

theorem found_boundary {text : List Char} {fences : List Span} {b : BreakPoint} (found : b ∈ foundBreaks text fences) :
    isCharBoundary text b.pos = true := by
  obtain ⟨front, tail, whole, place⟩ := found_at_line found
  rw [whole, place]
  exact isCharBoundary_append _ _

variable {front back : List Char} {b : BreakPoint}

theorem found_of_front (found : b ∈ foundBreaks front (scanCodeFences front)) :
    b ∈ foundBreaks (front ++ back) (scanCodeFences (front ++ back)) := by
  obtain ⟨before, after, parts, pos⟩ := found_at_line found
  obtain ⟨pattern, listed, place, outside⟩ := mem_foundBreaks.mp found
  have wider := (@Steady.findIter_append _ 0 0 front back _ _ (steady_breakPatterns listed)).1 place
  refine mem_foundBreaks.mpr ⟨pattern, listed, wider, ?_⟩
  rwa [pos, insideFence_front parts, ← pos]

/-- A pattern matches at an offset of the whole, and not in a scan of the front alone. -/
def MissedIn (front text : List Char) (b : BreakPoint) : Prop :=
  ∃ pattern, (pattern, b.score) ∈ breakPatterns ∧ b.pos ∈ findIter pattern 0 0 text ∧
    b.pos ∉ findIter pattern 0 0 front

theorem front_or_missed (found : b ∈ foundBreaks (front ++ back) (scanCodeFences (front ++ back)))
    (inside : b.pos < byteLength front) :
    insideFence b.pos (scanCodeFences front) = false ∧
      (b ∈ foundBreaks front (scanCodeFences front) ∨ MissedIn front (front ++ back) b) := by
  obtain ⟨pattern, listed, place, outside⟩ := mem_foundBreaks.mp found
  have steady := steady_breakPatterns listed
  have line : ∃ before after, front = before ++ '\n' :: after ∧ b.pos = byteLength before := by
    rcases steady.findIter_append.2 place (by omega) with old | ⟨before, after, parts, _, pos⟩
    · obtain ⟨before, after, parts, pos, _⟩ := steady.mem_findIter old
      exact ⟨before, after, parts, by omega⟩
    · exact ⟨before, after, parts, by omega⟩
  obtain ⟨before, after, parts, pos⟩ := line
  have apart : insideFence b.pos (scanCodeFences front) = false := by
    rwa [pos, ← @insideFence_front _ back _ _ parts, ← pos]
  refine ⟨apart, ?_⟩
  by_cases old : b.pos ∈ findIter pattern 0 0 front
  · exact .inl (mem_foundBreaks.mpr ⟨pattern, listed, old, apart⟩)
  · exact .inr ⟨pattern, listed, place, old⟩

/-- A match the front misses stands at its last line break. -/
theorem missed_at_last (missed : MissedIn front (front ++ back) b) (inside : b.pos < byteLength front) :
    ∃ before after, front = before ++ '\n' :: after ∧ '\n' ∉ after ∧ b.pos = byteLength before := by
  obtain ⟨pattern, listed, place, new⟩ := missed
  rcases (steady_breakPatterns listed).findIter_append.2 place (by omega) with old | ⟨before, after, parts, clear, pos⟩
  · exact absurd old new
  · exact ⟨before, after, parts, clear, by omega⟩

theorem missed_found (missed : MissedIn front (front ++ back) b) (inside : b.pos < byteLength front)
    (outside : insideFence b.pos (scanCodeFences front) = false) :
    b ∈ foundBreaks (front ++ back) (scanCodeFences (front ++ back)) := by
  obtain ⟨before, after, parts, _, pos⟩ := missed_at_last missed inside
  obtain ⟨pattern, listed, place, _⟩ := missed
  refine mem_foundBreaks.mpr ⟨pattern, listed, place, ?_⟩
  rwa [pos, insideFence_front parts, ← pos]

/-- No break of the front stands behind one that it misses. -/
theorem le_of_missed {c : BreakPoint} (missed : MissedIn front (front ++ back) b) (inside : b.pos < byteLength front)
    (found : c ∈ foundBreaks front (scanCodeFences front)) : c.pos ≤ b.pos := by
  obtain ⟨before, after, parts, clear, pos⟩ := missed_at_last missed inside
  obtain ⟨before', after', parts', pos'⟩ := found_at_line found
  obtain ⟨gap, longer⟩ := prefix_of_clear (parts'.symm.trans parts) clear
  rw [pos, pos', longer, byteLength_append]
  omega

theorem missed_pos_eq {c : BreakPoint} (left : MissedIn front (front ++ back) b) (inside : b.pos < byteLength front)
    (right : MissedIn front (front ++ back) c) (inside' : c.pos < byteLength front) : b.pos = c.pos := by
  obtain ⟨before, after, parts, clear, pos⟩ := missed_at_last left inside
  obtain ⟨before', after', parts', clear', pos'⟩ := missed_at_last right inside'
  obtain ⟨gap, longer⟩ := prefix_of_clear (parts'.symm.trans parts) clear
  obtain ⟨gap', longer'⟩ := prefix_of_clear (parts.symm.trans parts') clear'
  have size := congrArg byteLength longer
  have size' := congrArg byteLength longer'
  rw [byteLength_append] at size size'
  omega

/-! ### The best break of the front and of the whole -/

variable {windowStart windowEnd : Nat}

/-- The window is without a break in the front exactly when it is in the whole. -/
theorem front_none_iff (window : windowEnd ≤ byteLength front) :
    bestBreakInWindow (scanBreakPoints front (scanCodeFences front)) windowStart windowEnd = none ↔
      bestBreakInWindow (scanBreakPoints (front ++ back) (scanCodeFences (front ++ back))) windowStart windowEnd =
        none := by
  rw [bestBreak_scan_none_iff, bestBreak_scan_none_iff]
  constructor
  · intro empty c found inside
    obtain ⟨outside, either⟩ := front_or_missed found (by omega)
    have line : ∃ before after, front = before ++ '\n' :: after ∧ c.pos = byteLength before := by
      rcases either with old | missed
      · exact found_at_line old
      · obtain ⟨before, after, parts, _, pos⟩ := missed_at_last missed (by omega)
        exact ⟨before, after, parts, pos⟩
    obtain ⟨before, after, parts, pos⟩ := line
    exact empty _ (line_found parts (by rwa [← pos])) (by simp only; omega)
  · exact fun empty c found => empty c (found_of_front found)

/-- The break taken from a scan of the front is the one of the whole exactly when it is above every break of
the window that the front misses, or is at the same line break. -/
theorem best_of_front_iff (window : windowEnd ≤ byteLength front) :
    bestBreakInWindow (scanBreakPoints front (scanCodeFences front)) windowStart windowEnd =
        bestBreakInWindow (scanBreakPoints (front ++ back) (scanCodeFences (front ++ back))) windowStart windowEnd ↔
      ∀ b, MissedIn front (front ++ back) b → windowStart ≤ b.pos → b.pos < windowEnd →
        insideFence b.pos (scanCodeFences front) = false →
        ∃ best ∈ scanBreakPoints front (scanCodeFences front),
          bestBreakInWindow (scanBreakPoints front (scanCodeFences front)) windowStart windowEnd = some best.pos ∧
            (b.pos = best.pos ∨ b.score < best.score) := by
  cases near : bestBreakInWindow (scanBreakPoints front (scanCodeFences front)) windowStart windowEnd with
  | none =>
    rw [(@front_none_iff _ back _ _ window).mp near]
    refine ⟨fun _ b missed early late outside => ?_, fun _ => rfl⟩
    obtain ⟨before, after, parts, _, pos⟩ := missed_at_last missed (by omega)
    have line := line_found parts (by rwa [← pos])
    exact absurd ⟨by simp only; omega, by simp only; omega⟩ (bestBreak_scan_none_iff.mp near _ line)
  | some place =>
    obtain ⟨a, best, rfl⟩ := bestBreak_some_iff.mp near
    have foundBest := isBest_found best
    have wide := @found_of_front _ back _ foundBest.member
    cases far : bestBreakInWindow (scanBreakPoints (front ++ back) (scanCodeFences (front ++ back)))
        windowStart windowEnd with
    | none => exact absurd best.inside (bestBreak_scan_none_iff.mp far a wide)
    | some place =>
      obtain ⟨d, greatest, rfl⟩ := bestBreak_some_iff.mp far
      have whole := isBest_found greatest
      have within := whole.inside
      have split := (front_or_missed whole.member (by omega)).2
      have outside := (front_or_missed whole.member (by omega)).1
      rw [Option.some.injEq]
      constructor
      · intro same b missed early late apart
        refine ⟨a, best.member, rfl, ?_⟩
        by_cases here : b.pos = a.pos
        · exact .inl here
        · have below := whole.greatest b (missed_found missed (by omega) apart) early late
          rcases split with old | new
          · have most := foundBest.greatest d old within.1 within.2
            have before := le_of_missed missed (by omega) old
            simp only [BreakPoint.AtMost] at below most
            right
            omega
          · have equal := missed_pos_eq missed (by omega) new (by omega)
            omega
      · intro beaten
        rcases split with old | new
        · have most := foundBest.greatest d old within.1 within.2
          have below := whole.greatest a wide foundBest.inside.1 foundBest.inside.2
          simp only [BreakPoint.AtMost] at most below
          omega
        · obtain ⟨c, listed, chosen, here | below⟩ := beaten d new within.1 within.2 outside
          · rw [here]
            exact Option.some.inj chosen
          · have most := whole.greatest c (found_of_front (scanBreakPoints_subset listed))
            have place := Option.some.inj chosen
            have inside := foundBest.inside
            have above := most (by omega) (by omega)
            simp only [BreakPoint.AtMost] at above
            omega

/-! ### The first chunk -/

/-- The end of the first window. -/
def firstWindowEnd (text : List Char) : Nat := min (chunkSizeChars + chunkWindowChars / 2) (byteLength text)

/-- The front of a text that the fast path scans. -/
def scannedFront (text : List Char) : List Char := takeBytes (snapCharBoundaryForward text (firstWindowEnd text)) text

def frontBreaks (text : List Char) : List BreakPoint :=
  scanBreakPoints (scannedFront text) (scanCodeFences (scannedFront text))

/-- A mark of the first window, outside the fences, that runs past the scanned front: only a scan of the
whole text finds it. -/
structure RunsPast (text : List Char) (b : BreakPoint) : Prop where
  missed : MissedIn (scannedFront text) text b
  early : chunkSizeChars - chunkWindowChars / 2 ≤ b.pos
  late : b.pos < firstWindowEnd text
  outside : insideFence b.pos (scanCodeFences (scannedFront text)) = false

theorem takeBytes_inj {text : List Char} {m n : Nat} (left : isCharBoundary text m = true)
    (right : isCharBoundary text n = true) : takeBytes m text = takeBytes n text ↔ m = n := by
  constructor
  · intro same
    have size := congrArg byteLength same
    rwa [isCharBoundary_iff.mp left, isCharBoundary_iff.mp right] at size
  · exact fun same => by rw [same]

theorem scannedFront_spec (text : List Char) :
    scannedFront text ++ dropBytes (snapCharBoundaryForward text (firstWindowEnd text)) text = text ∧
      firstWindowEnd text ≤ byteLength (scannedFront text) := by
  obtain ⟨boundary, behind, _, _⟩ := snapForward_spec text (show firstWindowEnd text ≤ byteLength text from Nat.min_le_right _ _)
  refine ⟨takeBytes_append_dropBytes _ _, ?_⟩
  rw [scannedFront, isCharBoundary_iff.mp boundary]
  exact behind

/-- The first of the chunks of a long text ends at the cut of its first window. -/
theorem head_chunkDocument {text : List Char} (long : chunkSizeChars < byteLength text) :
    (chunkDocument text).head?.map Chunk.text = some (String.ofList (takeBytes (snapCharBoundaryForward text
      ((bestBreakInWindow (scanBreakPoints text (scanCodeFences text)) (chunkSizeChars - chunkWindowChars / 2)
        (firstWindowEnd text)).getD chunkSizeChars)) text)) := by
  have more : 0 + chunkSizeChars < byteLength text := by omega
  have cut := @chunkEnd_eq _ (scanBreakPoints text (scanCodeFences text)) _ more
  rw [rawCut, Nat.zero_add] at cut
  rw [chunkDocument, if_neg (by omega), List.head?_map, documentSpans, breakSpans, if_neg (by omega),
    head_spansFrom (by omega), roundSpan_cut more, Option.map_some, Option.map_some, carryTableHeader_around,
    tableAround_zero]
  simp only [chunkAt, slice_zero, cut, firstWindowEnd]

theorem firstChunk_long {text : List Char} (long : chunkSizeChars < byteLength text) :
    firstChunk text = takeBytes (snapCharBoundaryForward text
      ((bestBreakInWindow (frontBreaks text) (chunkSizeChars - chunkWindowChars / 2)
        (firstWindowEnd text)).getD chunkSizeChars)) text := by
  have inside : (bestBreakInWindow (frontBreaks text) (chunkSizeChars - chunkWindowChars / 2)
      (firstWindowEnd text)).getD chunkSizeChars ≤ byteLength text := by
    cases found : bestBreakInWindow (frontBreaks text) (chunkSizeChars - chunkWindowChars / 2) (firstWindowEnd text) with
    | none => exact Nat.le_of_lt long
    | some pos =>
      have window := bestBreak_mem found
      have bound : firstWindowEnd text ≤ byteLength text := Nat.min_le_right _ _
      rw [Option.getD_some]
      omega
  rw [firstChunk, if_neg (by omega)]
  change takeBytes (snapCharBoundaryForward text (min ((bestBreakInWindow (frontBreaks text)
    (chunkSizeChars - chunkWindowChars / 2) (firstWindowEnd text)).getD chunkSizeChars) (byteLength text))) text = _
  rw [Nat.min_eq_left inside]

/-- The fast path gives the first chunk when both scans have the same best break. -/
theorem first_chunk_same_iff {text : List Char} (long : chunkSizeChars < byteLength text) :
    (chunkDocument text).head?.map Chunk.text = some (String.ofList (firstChunk text)) ↔
      bestBreakInWindow (frontBreaks text) (chunkSizeChars - chunkWindowChars / 2) (firstWindowEnd text) =
        bestBreakInWindow (scanBreakPoints text (scanCodeFences text)) (chunkSizeChars - chunkWindowChars / 2)
          (firstWindowEnd text) := by
  obtain ⟨parts, window⟩ := scannedFront_spec text
  have empty := @front_none_iff _ (dropBytes (snapCharBoundaryForward text (firstWindowEnd text)) text)
    (chunkSizeChars - chunkWindowChars / 2) _ window
  rw [parts, ← frontBreaks] at empty
  rw [head_chunkDocument long, firstChunk_long long, Option.some.injEq, String.ofList_inj]
  cases near : bestBreakInWindow (frontBreaks text) (chunkSizeChars - chunkWindowChars / 2) (firstWindowEnd text) with
  | none =>
    rw [empty.mp near]
    exact ⟨fun _ => rfl, fun _ => rfl⟩
  | some place =>
    cases far : bestBreakInWindow (scanBreakPoints text (scanCodeFences text)) (chunkSizeChars - chunkWindowChars / 2)
        (firstWindowEnd text) with
    | none =>
      rw [empty.mpr far] at near
      simp at near
    | some place' =>
      obtain ⟨a, best, rfl⟩ := bestBreak_some_iff.mp near
      obtain ⟨d, greatest, rfl⟩ := bestBreak_some_iff.mp far
      have wide := @found_of_front _ (dropBytes (snapCharBoundaryForward text (firstWindowEnd text)) text) _
        (isBest_found best).member
      rw [parts] at wide
      have left := found_boundary wide
      have right := found_boundary (isBest_found greatest).member
      rw [Option.getD_some, Option.getD_some, snapForward_of_boundary left, snapForward_of_boundary right,
        takeBytes_inj right left, Option.some.injEq]
      exact eq_comm

/-- The fast path gives the first of the chunks exactly when no mark that runs past the scanned front would
be taken instead of the best break of the front. -/
theorem first_chunk_agrees_iff (text : List Char) :
    (chunkDocument text).head?.map Chunk.text = some (String.ofList (firstChunk text)) ↔
      (chunkSizeChars < byteLength text → ∀ b, RunsPast text b →
        ∃ best ∈ frontBreaks text,
          bestBreakInWindow (frontBreaks text) (chunkSizeChars - chunkWindowChars / 2) (firstWindowEnd text) =
            some best.pos ∧ (b.pos = best.pos ∨ b.score < best.score)) := by
  by_cases long : chunkSizeChars < byteLength text
  · obtain ⟨parts, window⟩ := scannedFront_spec text
    have agree := @best_of_front_iff _ (dropBytes (snapCharBoundaryForward text (firstWindowEnd text)) text)
      (chunkSizeChars - chunkWindowChars / 2) _ window
    rw [parts, ← frontBreaks] at agree
    rw [first_chunk_same_iff long, agree]
    exact ⟨fun all _ b past => all b past.missed past.early past.late past.outside,
      fun all b missed early late outside => all long b ⟨missed, early, late, outside⟩⟩
  · rw [chunkDocument, firstChunk, if_pos (by omega), if_pos (by omega)]
    exact ⟨fun _ impossible => absurd impossible long, fun _ => rfl⟩

/-! ### A heading behind the window -/

theorem marked_fenceMark : Marked '`' fenceMark where
  head {cs n} matched := by
    unfold fenceMark at matched
    split at matched
    · rfl
    · simp at matched
  takes {cs n} matched := by
    unfold fenceMark at matched
    split at matched
    · have same := Option.some.inj matched
      omega
    · simp at matched

theorem scanCodeFences_none {text : List Char} (clear : '`' ∉ text) : scanCodeFences text = [] := by
  have none : findIter fenceMark 0 0 text = [] := marked_fenceMark.findIter_none (by rwa [List.drop_zero])
  rw [scanCodeFences, none, pairFences]

/-- Two lines and a heading, whose line break is the last byte of the first window. -/
def headingAcross (first second heading : List Char) : List Char :=
  first ++ '\n' :: '\n' :: (second ++ '\n' :: '#' :: heading)

theorem score_le {pattern : List Char → Option Nat} {score : Int} (listed : (pattern, score) ∈ breakPatterns) :
    score ≤ 100 := by
  simp only [breakPatterns, List.mem_cons, Prod.mk.injEq, List.not_mem_nil, or_false] at listed
  omega

/-- A line break at the very end is a plain one. -/
theorem score_of_line {pattern : List Char → Option Nat} {score : Int} (listed : (pattern, score) ∈ breakPatterns)
    (matched : (pattern ['\n']).isSome = true) : score = 1 := by
  simp only [breakPatterns, List.mem_cons, Prod.mk.injEq, List.not_mem_nil, or_false] at listed
  rcases listed with ⟨rfl, _⟩ | ⟨rfl, _⟩ | ⟨rfl, _⟩ | ⟨rfl, _⟩ | ⟨rfl, _⟩ | ⟨rfl, _⟩ | ⟨rfl, _⟩ | ⟨rfl, _⟩ | ⟨rfl, _⟩ |
    ⟨rfl, _⟩ | ⟨rfl, _⟩ | ⟨rfl, rfl⟩
  case inr.inr.inr.inr.inr.inr.inr.inr.inr.inr.inr => rfl
  all_goals exact absurd matched (by decide)

section HeadingAcross
variable {first second heading : List Char}

theorem byteLength_headingAcross (early : byteLength first = 3300) (late : byteLength second = 697) :
    byteLength (headingAcross first second heading) = 4001 + byteLength heading := by
  have newline : '\n'.utf8Size = 1 := rfl
  have hash : '#'.utf8Size = 1 := rfl
  simp only [headingAcross, byteLength_append, byteLength_cons, early, late, newline, hash]
  omega

theorem firstWindowEnd_headingAcross (early : byteLength first = 3300) (late : byteLength second = 697) :
    firstWindowEnd (headingAcross first second heading) = 4000 := by
  have size : chunkSizeChars + chunkWindowChars / 2 = 4000 := rfl
  rw [firstWindowEnd, byteLength_headingAcross early late, size]
  omega

theorem scannedFront_headingAcross (early : byteLength first = 3300) (late : byteLength second = 697) :
    scannedFront (headingAcross first second heading) = first ++ '\n' :: '\n' :: (second ++ ['\n']) := by
  have newline : '\n'.utf8Size = 1 := rfl
  have size : byteLength (first ++ '\n' :: '\n' :: (second ++ ['\n'])) = 4000 := by
    simp only [byteLength_append, byteLength_cons, byteLength_nil, early, late, newline]
  have whole : headingAcross first second heading =
      (first ++ '\n' :: '\n' :: (second ++ ['\n'])) ++ '#' :: heading := by
    simp [headingAcross]
  have window := @firstWindowEnd_headingAcross _ _ heading early late
  have boundary : isCharBoundary (headingAcross first second heading) 4000 = true := by
    rw [whole, ← size]
    exact isCharBoundary_append _ _
  rw [scannedFront, window, snapForward_of_boundary boundary]
  conv => lhs; rw [whole, ← size]
  exact takeBytes_append_length _ _

/-- The paragraph break is the best of the front, the heading the best of the whole. -/
theorem headingAcross_cut_early (early : byteLength first = 3300) (late : byteLength second = 697)
    (plain : '\n' ∉ first ∧ '\n' ∉ second) (unfenced : '`' ∉ headingAcross first second heading)
    (proper : (∃ rest, second = 'b' :: rest) ∧ ∃ c rest, heading = c :: rest ∧ c ≠ '#') :
    (chunkDocument (headingAcross first second heading)).head?.map Chunk.text ≠
      some (String.ofList (firstChunk (headingAcross first second heading))) := by
  have size : chunkSizeChars = 3600 := rfl
  have half : chunkWindowChars / 2 = 400 := rfl
  have newline : '\n'.utf8Size = 1 := rfl
  have length := @byteLength_headingAcross _ _ heading early late
  obtain ⟨⟨word, rfl⟩, c, rest, rfl, other⟩ := proper
  have front := @scannedFront_headingAcross _ _ (c :: rest) early late
  have inFront : '`' ∉ first ++ '\n' :: '\n' :: (('b' :: word) ++ ['\n']) := by
    simp only [headingAcross, List.mem_append, List.mem_cons, List.not_mem_nil, not_or] at unfenced ⊢
    tauto
  rw [Ne, first_chunk_same_iff (by omega), firstWindowEnd_headingAcross early late, size, half, frontBreaks, front,
    scanCodeFences_none unfenced, scanCodeFences_none inFront]
  intro same
  have heading : ⟨3999, 100⟩ ∈ foundBreaks (headingAcross first ('b' :: word) (c :: rest)) [] := by
    refine mem_foundBreaks.mpr ⟨headingBreak 1, by simp [breakPatterns], ?_, rfl⟩
    have between : headingBreak 1 ('\n' :: ('b' :: word ++ '\n' :: '#' :: c :: rest)) = none := by
      cases word <;> rfl
    have here : headingBreak 1 ('\n' :: '#' :: c :: rest) = some 3 := by
      simp [headingBreak, other]
    rw [headingAcross, (steady_headingBreak 1).findIter_clear plain.1, findIter_of_none rfl, findIter_of_none between,
      (steady_headingBreak 1).findIter_clear plain.2, early, late, newline]
    exact mem_findIter_here here
  have paragraph : ⟨3300, 20⟩ ∈ foundBreaks (first ++ '\n' :: '\n' :: (('b' :: word) ++ ['\n'])) [] := by
    refine mem_foundBreaks.mpr ⟨paragraphBreak, by simp [breakPatterns], ?_, rfl⟩
    rw [steady_paragraphBreak.findIter_clear plain.1, early]
    exact mem_findIter_here (n := 2) rfl
  cases far : bestBreakInWindow (scanBreakPoints (headingAcross first ('b' :: word) (c :: rest)) []) (3600 - 400) 4000 with
  | none => exact bestBreak_scan_none_iff.mp far _ heading (by decide)
  | some place =>
    rw [far] at same
    obtain ⟨a, best, rfl⟩ := bestBreak_some_iff.mp same
    obtain ⟨d, greatest, place⟩ := bestBreak_some_iff.mp far
    have least := (isBest_found best).greatest _ paragraph (by decide) (by decide)
    have above := (isBest_found greatest).greatest _ heading (by decide) (by decide)
    have inside := greatest.inside
    obtain ⟨_, highest, _⟩ := mem_foundBreaks.mp (isBest_found greatest).member
    have bounded := score_le highest
    -- the heading's line break ends the front, where only the plain line break matches
    obtain ⟨pattern, listed, found, _⟩ := mem_foundBreaks.mp (isBest_found best).member
    obtain ⟨before, after, parts, pos, matched⟩ := (steady_breakPatterns listed).mem_findIter found
    have total := congrArg byteLength parts
    simp only [byteLength_append, byteLength_cons, byteLength_nil, newline, early] at total late
    simp only [BreakPoint.AtMost] at above least
    have none : after = [] := by
      by_contra some
      have := byteLength_pos some
      omega
    rw [none] at matched
    have low := score_of_line listed matched
    omega

end HeadingAcross

/-- The best break of the front is the paragraph at byte 3300, that of the whole the heading at byte 3999. -/
theorem first_chunk_stops_short :
    (chunkDocument (headingAcross (List.replicate 3300 'a') (List.replicate 697 'b') [' '])).head?.map Chunk.text ≠
      some (String.ofList (firstChunk (headingAcross (List.replicate 3300 'a') (List.replicate 697 'b') [' ']))) := by
  have one : ∀ n c, c.utf8Size = 1 → byteLength (List.replicate n c) = n := by
    intro n c small
    rw [byteLength_replicate, small, Nat.mul_one]
  have away : ∀ n (c d : Char), d ≠ c → d ∉ List.replicate n c :=
    fun n c d other member => other (List.eq_of_mem_replicate member)
  have unfenced : '`' ∉ headingAcross (List.replicate 3300 'a') (List.replicate 697 'b') [' '] := by
    simp only [headingAcross, List.mem_append, List.mem_cons, List.not_mem_nil, not_or, or_false]
    exact ⟨away _ _ _ (by decide), by decide, by decide, away _ _ _ (by decide), by decide, by decide, by decide⟩
  exact headingAcross_cut_early (one _ _ (by decide)) (one _ _ (by decide)) ⟨away _ _ _ (by decide), away _ _ _ (by decide)⟩
    unfenced ⟨⟨_, List.replicate_succ⟩, _, _, rfl, by decide⟩

end Rqmd.Chunking
