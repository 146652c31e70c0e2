import Rqmd.FirstChunk

/-! The chunks of a document. A cut falls inside a short fence only where a window holds no break, and text
is lost only where a chunk that carries a table header skips a row longer than the overlap. -/

namespace Rqmd.Chunking
open Text

def documentBreaks (text : List Char) : List BreakPoint := scanBreakPoints text (scanCodeFences text)

def documentTables (text : List Char) : List PipeTable := scanTables text (scanCodeFences text)

/-- The chunks of a document, each with the bytes of the text it holds, a carried header aside. -/
def placedDocument (text : List Char) : List (Chunk × Span) :=
  (documentSpans text).map fun span =>
    (carryTableHeader text (documentTables text) span, ⟨(carryTableHeader text (documentTables text) span).pos, span.stop⟩)

variable {text : List Char}

theorem placedDocument_fst (text : List Char) : (placedDocument text).map Prod.fst = chunkDocument text := by
  rw [placedDocument, List.map_map, chunkDocument]
  by_cases short : byteLength text ≤ chunkSizeChars
  · rw [if_pos short, documentSpans, breakSpans_short short]
    simp [carryTableHeader_around, chunkAt, slice_whole]
  · rw [if_neg short]
    rfl

/-- The text of a chunk is the header it carries and the bytes it holds. -/
theorem placedDocument_content {placed : Chunk × Span} (member : placed ∈ placedDocument text) :
    placed.2.start = placed.1.pos ∧
      placed.1.text = String.ofList
        (repeatedHeader text (documentTables text) placed.1.pos ++ slice text placed.2.start placed.2.stop) := by
  obtain ⟨span, inside, rfl⟩ := List.mem_map.mp member
  have cuts := (breakSpans_slides text (documentBreaks text)).cuts span inside
  exact ⟨rfl, (shaped_carryTableHeader (scanTables_apart text (scanCodeFences text)) cuts).content⟩

/-! ### Cuts and fences -/

/-- An offset strictly inside a fence that fits in one chunk. -/
def InsideShortFence (text : List Char) (p : Nat) : Prop :=
  ∃ fence ∈ scanCodeFences text, fence.stop - fence.start ≤ chunkSizeChars ∧ fence.start < p ∧ p < fence.stop

/-- A break that was found is where the chunk ends, outside every fence. -/
theorem chunkEnd_of_break {start pos : Nat} (more : start + chunkSizeChars < byteLength text)
    (found : bestBreakInWindow (documentBreaks text) (start + chunkSizeChars - chunkWindowChars / 2)
      (min (start + chunkSizeChars + chunkWindowChars / 2) (byteLength text)) = some pos) :
    chunkEnd text (documentBreaks text) start = pos ∧ ¬ InsideShortFence text pos := by
  obtain ⟨b, best, rfl⟩ := bestBreak_some_iff.mp found
  have member := (isBest_found best).member
  obtain ⟨_, _, _, outside⟩ := mem_foundBreaks.mp member
  refine ⟨?_, ?_⟩
  · rw [chunkEnd_eq more, rawCut, found, Option.getD_some, snapForward_of_boundary (found_boundary member)]
  · rintro ⟨fence, listed, _, behind, before⟩
    rw [insideFence, List.any_eq_false] at outside
    exact outside fence listed (by simp [behind, before])

theorem chunkEnd_of_none {start : Nat} (more : start + chunkSizeChars < byteLength text)
    (none : bestBreakInWindow (documentBreaks text) (start + chunkSizeChars - chunkWindowChars / 2)
      (min (start + chunkSizeChars + chunkWindowChars / 2) (byteLength text)) = none) :
    chunkEnd text (documentBreaks text) start = snapCharBoundaryForward text (start + chunkSizeChars) := by
  rw [chunkEnd_eq more, rawCut, none, Option.getD_none]

/-- The ends of the chunks that are not the last are the cuts of the rounds that are not. -/
theorem forall_cuts_iff (keep : Nat → Prop) :
    (∀ placed ∈ (placedDocument text).dropLast, keep placed.2.stop) ↔
      ∀ start, Round text (documentBreaks text) start → start + chunkSizeChars < byteLength text →
        keep (chunkEnd text (documentBreaks text) start) := by
  have spans : (∀ placed ∈ (placedDocument text).dropLast, keep placed.2.stop) ↔
      ∀ span ∈ (documentSpans text).dropLast, keep span.stop := by
    rw [placedDocument, ← List.map_dropLast]
    simp only [List.forall_mem_map]
  rw [spans, forall_dropLast_iff, documentSpans, ← documentBreaks, breakSpans_isChain_iff fun a _ => keep a.stop]
  refine forall_congr' fun start => forall_congr' fun _ => forall_congr' fun more => ?_
  rw [roundSpan_cut more]

/-- No chunk but the last ends inside a short fence exactly when every window without a break has its hard
cut outside the short fences. -/
theorem no_cut_in_fence_iff (text : List Char) :
    (∀ placed ∈ (placedDocument text).dropLast, ¬ InsideShortFence text placed.2.stop) ↔
      ∀ start, Round text (documentBreaks text) start → start + chunkSizeChars < byteLength text →
        bestBreakInWindow (documentBreaks text) (start + chunkSizeChars - chunkWindowChars / 2)
          (min (start + chunkSizeChars + chunkWindowChars / 2) (byteLength text)) = none →
        ¬ InsideShortFence text (snapCharBoundaryForward text (start + chunkSizeChars)) := by
  rw [forall_cuts_iff fun stop => ¬ InsideShortFence text stop]
  refine forall_congr' fun start => forall_congr' fun _ => forall_congr' fun more => ?_
  cases found : bestBreakInWindow (documentBreaks text) (start + chunkSizeChars - chunkWindowChars / 2)
      (min (start + chunkSizeChars + chunkWindowChars / 2) (byteLength text)) with
  | none => simp only [chunkEnd_of_none more found, forall_const]
  | some pos =>
    obtain ⟨here, outside⟩ := chunkEnd_of_break more found
    simp only [here, reduceCtorEq, false_implies, iff_true]
    exact outside

/-- A text of one line with a fence in it. -/
def fencedLine (first inner : List Char) : List Char :=
  first ++ '`' :: '`' :: '`' :: (inner ++ ['`', '`', '`'])

/-- The fence stands across the first window, which holds no break. -/
theorem fencedLine_cut_inside {first inner : List Char} (early : byteLength first = 3100) (size : byteLength inner = 1000)
    (oneLine : '\n' ∉ first ∧ '\n' ∉ inner) (plain : '`' ∉ first ∧ '`' ∉ inner)
    (cut : isCharBoundary (fencedLine first inner) 3600 = true) :
    ¬ ∀ placed ∈ (placedDocument (fencedLine first inner)).dropLast,
      ¬ InsideShortFence (fencedLine first inner) placed.2.stop := by
  have mark : '`'.utf8Size = 1 := rfl
  have chunk : chunkSizeChars = 3600 := rfl
  have length : byteLength (fencedLine first inner) = 4106 := by
    simp only [fencedLine, byteLength_append, byteLength_cons, byteLength_nil, early, size, mark]
  have more : 0 + chunkSizeChars < byteLength (fencedLine first inner) := by omega
  have empty : bestBreakInWindow (documentBreaks (fencedLine first inner)) (0 + chunkSizeChars - chunkWindowChars / 2)
      (min (0 + chunkSizeChars + chunkWindowChars / 2) (byteLength (fencedLine first inner))) = none := by
    refine bestBreak_scan_none_iff.mpr fun b found _ => ?_
    obtain ⟨front, tail, parts, _⟩ := found_at_line found
    have newline : '\n' ∈ fencedLine first inner := parts ▸ List.mem_append_right front List.mem_cons_self
    simp [fencedLine, oneLine] at newline
  have fence : ⟨3100, 4106⟩ ∈ scanCodeFences (fencedLine first inner) := by
    have open' : findIter fenceMark 0 0 (fencedLine first inner) =
        3100 :: findIter fenceMark 0 3103 (inner ++ ['`', '`', '`']) := by
      rw [fencedLine, marked_fenceMark.findIter_clear plain.1, early]
      rfl
    have close : findIter fenceMark 0 3103 (inner ++ ['`', '`', '`']) = [4103] := by
      rw [marked_fenceMark.findIter_clear plain.2, size]
      rfl
    rw [scanCodeFences, open', close]
    exact List.mem_cons_self
  rw [forall_cuts_iff fun stop => ¬ InsideShortFence (fencedLine first inner) stop]
  intro all
  refine all 0 .refl more ⟨_, fence, by decide, ?_⟩
  rw [chunkEnd_of_none more empty, Nat.zero_add, chunk, snapForward_of_boundary cut]
  exact ⟨by decide, by decide⟩

theorem byteLength_replicate_one (n : Nat) {c : Char} (ascii : c.utf8Size = 1) :
    byteLength (List.replicate n c) = n := by
  rw [byteLength_replicate, ascii, Nat.mul_one]

/-- A fence of 1006 bytes is cut at byte 3600. -/
theorem fence_is_cut :
    ¬ ∀ placed ∈ (placedDocument (fencedLine (List.replicate 3100 'a') (List.replicate 1000 'b'))).dropLast,
      ¬ InsideShortFence (fencedLine (List.replicate 3100 'a') (List.replicate 1000 'b')) placed.2.stop := by
  have away : ∀ n (c d : Char), d ≠ c → d ∉ List.replicate n c :=
    fun n c d other member => other (List.eq_of_mem_replicate member)
  have parts : fencedLine (List.replicate 3100 'a') (List.replicate 1000 'b') =
      (List.replicate 3100 'a' ++ '`' :: '`' :: '`' :: List.replicate 497 'b') ++
        (List.replicate 503 'b' ++ ['`', '`', '`']) := by
    rw [fencedLine, show 1000 = 497 + 503 from rfl, ← List.replicate_append_replicate]
    simp only [List.append_assoc, List.cons_append]
  have cut : isCharBoundary (fencedLine (List.replicate 3100 'a') (List.replicate 1000 'b')) 3600 = true := by
    have size : byteLength (List.replicate 3100 'a' ++ '`' :: '`' :: '`' :: List.replicate 497 'b') = 3600 := by
      simp only [byteLength_append, byteLength_cons, byteLength_replicate_one _ (show 'a'.utf8Size = 1 from rfl),
        byteLength_replicate_one _ (show 'b'.utf8Size = 1 from rfl)]
      rfl
    rw [parts, ← size]
    exact isCharBoundary_append _ _
  exact fencedLine_cut_inside (byteLength_replicate_one _ rfl) (byteLength_replicate_one _ rfl)
    ⟨away _ _ _ (by decide), away _ _ _ (by decide)⟩ ⟨away _ _ _ (by decide), away _ _ _ (by decide)⟩ cut

/-! ### Text no chunk holds -/

/-- A chunk that starts in a data row of a table is moved to the next row and carries the header, when the
header is short and another row starts before the chunk and the table end. -/
def SkipsTo (text : List Char) (span : Span) (row : Nat) : Prop :=
  ∃ table ∈ documentTables text, table.start < span.start ∧ table.dataStart ≤ span.start ∧ span.start < table.stop ∧
    byteLength (slice text table.start table.dataStart) ≤ maxTableHeaderChars ∧
    row = rowStart text span.start ∧ row < span.stop ∧ row < table.stop

theorem documentTables_apart (text : List Char) : Apart text (documentTables text) := scanTables_apart _ _

/-- Where the bytes of a chunk start: at its own start, at the first row of the table whose header it starts
in, or at the row it skips to. -/
theorem place_cases (span : Span) :
    (carryTableHeader text (documentTables text) span).pos = span.start ∨
      (∃ table ∈ documentTables text, table.start < span.start ∧ span.start < table.dataStart ∧ span.start < table.stop ∧
        (carryTableHeader text (documentTables text) span).pos = table.start) ∨
      SkipsTo text span (carryTableHeader text (documentTables text) span).pos := by
  rw [carryTableHeader_around]
  cases found : tableAround (documentTables text) span.start with
  | none => exact .inl rfl
  | some table =>
    obtain ⟨member, around⟩ := tableAround_some found
    simp only
    split
    · next header => exact .inr (.inl ⟨table, member, around.1, header, around.2, rfl⟩)
    · split
      · exact .inl rfl
      · next small =>
        split
        · exact .inl rfl
        · next moved =>
          rw [not_or] at moved
          exact .inr (.inr ⟨table, member, around.1, by omega, around.2, by omega, rfl, by simp only; omega, by simp only; omega⟩)

theorem SkipsTo.place {span : Span} {row : Nat} (skips : SkipsTo text span row) :
    (carryTableHeader text (documentTables text) span).pos = row := by
  obtain ⟨table, member, behind, data, before, small, rfl, inside, another⟩ := skips
  rw [carryTableHeader_around, (documentTables_apart text).around member ⟨behind, before⟩]
  simp only
  rw [if_neg (by omega), if_neg (by omega), if_neg (by omega)]

theorem place_le {span : Span} {p : Nat} (own : span.start ≤ p) (near : ∀ row, SkipsTo text span row → row ≤ p) :
    (carryTableHeader text (documentTables text) span).pos ≤ p := by
  rcases @place_cases text span with same | ⟨table, _, behind, _, _, first⟩ | skips
  · rwa [same]
  · rw [first]
    omega
  · exact near _ skips

/-- Spans that each start by the end of the one before hold every byte from the first to the last. -/
theorem covered_of_chain {spans : List Span} {start stop i : Nat} (first : spans.head?.map Span.start = some start)
    (last : spans.getLast?.map Span.stop = some stop) (chain : spans.IsChain fun a b => b.start ≤ a.stop)
    (early : start ≤ i) (late : i < stop) : ∃ s ∈ spans, s.start ≤ i ∧ i < s.stop := by
  induction spans generalizing start with
  | nil => simp at first
  | cons a rest later =>
    have here : a.start = start := Option.some.inj first
    by_cases inside : i < a.stop
    · exact ⟨a, List.mem_cons_self, by omega, inside⟩
    · cases rest with
      | nil =>
        have whole : a.stop = stop := Option.some.inj last
        omega
      | cons b rest =>
        obtain ⟨touches, onward⟩ := List.isChain_cons_cons.mp chain
        rw [List.getLast?_cons_cons] at last
        obtain ⟨s, member, holds⟩ := later rfl last onward (by omega)
        exact ⟨s, List.mem_cons_of_mem a member, holds⟩

/-- The chunk of a later round starts behind the end of the one before the one before it, wherever its
header moves it. -/
theorem place_behind {breakPoints : List BreakPoint} {start row : Nat} {span : Span} (round : Round text breakPoints start)
    (more : start + chunkSizeChars < byteLength text)
    (skips : SkipsTo text (roundSpan text breakPoints
      (nextStart text (chunkEnd text breakPoints start))) row)
    (late : chunkEnd text breakPoints start < row) (member : span ∈ breakSpans text breakPoints) :
    span.stop ≤ chunkEnd text breakPoints start ∨
      chunkEnd text breakPoints start < (carryTableHeader text (documentTables text) span).pos := by
  obtain ⟨other, whole⟩ := mem_breakSpans member
  rcases round.total other with after | before
  · rcases Relation.ReflTransGen.cases_head after with same | ⟨next, turn, after⟩
    · -- the span of the round itself
      left
      rw [whole, ← same, roundSpan_cut more]
    · rw [turn.2] at after
      rcases Relation.ReflTransGen.cases_head after with same | ⟨third, turn', after⟩
      · rw [whole, ← same, skips.place]
        exact .inr late
      · -- a later one: it starts far behind, and its table is not the one before
        right
        have size : chunkSizeChars = 3600 := rfl
        have overlap : chunkOverlapChars = 540 := rfl
        obtain ⟨_, far, _, bound⟩ := chunkEnd_spec breakPoints more
        obtain ⟨_, far', _, bound'⟩ := chunkEnd_spec breakPoints turn'.1
        have close := (nextStart_spec text bound (by omega)).2.2
        have close' := (nextStart_spec text bound' (by omega)).2.2
        have second : Round text breakPoints third :=
          ((round.tail ⟨more, rfl⟩).tail ⟨turn'.1, rfl⟩).trans (by rw [← turn'.2])
        have starts := (roundSpan_mono second after).1
        rw [turn'.2] at starts
        rcases @place_cases text span with own | ⟨table, listed, behind, header, inside, first⟩ | skips'
        · omega
        · obtain ⟨table', listed', behind', data', inside', _, _, _, another⟩ := skips
          simp only [roundSpan] at behind' data' inside'
          rw [first]
          by_contra early
          have unique := @Apart.unique _ _ (documentTables_apart text) _ _
            (max table.start (nextStart text (chunkEnd text breakPoints start))) listed listed' ⟨by omega, by omega⟩
            ⟨by omega, by omega⟩
          rw [unique] at header
          omega
        · have behind := skips'
          obtain ⟨_, _, _, _, _, _, row', _, _⟩ := behind
          have boundary := (other.inside (by rintro rfl; simp at more)).1
          have onward := (rowStart_spec boundary).2.1
          rw [row']
          omega
  · left
    have stops := (roundSpan_mono other before).2
    rw [roundSpan_cut more, ← whole] at stops
    exact stops

/-- The first byte behind a chunk is held by none when the next chunk skips it. -/
theorem byte_lost {start row : Nat} (round : Round text (documentBreaks text) start)
    (more : start + chunkSizeChars < byteLength text)
    (skips : SkipsTo text (roundSpan text (documentBreaks text)
      (nextStart text (chunkEnd text (documentBreaks text) start))) row)
    (late : chunkEnd text (documentBreaks text) start < row) :
    chunkEnd text (documentBreaks text) start < byteLength text ∧
      ¬ ∃ placed ∈ placedDocument text, placed.2.start ≤ chunkEnd text (documentBreaks text) start ∧
        chunkEnd text (documentBreaks text) start < placed.2.stop := by
  have next := @next_inside _ (documentBreaks text) _ more
  refine ⟨?_, ?_⟩
  · obtain ⟨_, _, _, _, _, _, _, before, _⟩ := skips
    by_cases last : byteLength text ≤ nextStart text (chunkEnd text (documentBreaks text) start) + chunkSizeChars
    · rw [roundSpan_last last] at before
      exact Nat.lt_trans late before
    · have bound := (chunkEnd_spec (documentBreaks text) (Nat.lt_of_not_le last)).2.2.2
      rw [roundSpan_cut (Nat.lt_of_not_le last)] at before
      simp only at before
      omega
  · rintro ⟨placed, member, begins, holds⟩
    obtain ⟨span, among, rfl⟩ := List.mem_map.mp member
    simp only at begins holds
    rcases place_behind round more skips late among with before | behind <;> omega

/-- Every byte is held by a chunk exactly when no chunk skips to a row behind the end of the chunk before. -/
theorem no_text_lost_iff (text : List Char) :
    (∀ i < byteLength text, ∃ placed ∈ placedDocument text, placed.2.start ≤ i ∧ i < placed.2.stop) ↔
      ∀ start, Round text (documentBreaks text) start → start + chunkSizeChars < byteLength text →
        ∀ row, SkipsTo text (roundSpan text (documentBreaks text)
            (nextStart text (chunkEnd text (documentBreaks text) start))) row →
          row ≤ chunkEnd text (documentBreaks text) start := by
  constructor
  · intro covered start round more row skips
    by_contra late
    have lost := byte_lost round more skips (Nat.lt_of_not_le late)
    exact lost.2 (covered _ lost.1)
  · intro near i inside
    have slides := breakSpans_slides text (documentBreaks text)
    have zero : ∀ span : Span, span.start = 0 → (carryTableHeader text (documentTables text) span).pos = 0 := by
      intro span start
      rw [carryTableHeader_around, start, tableAround_zero]
      exact start
    have first : ((placedDocument text).map Prod.snd).head?.map Span.start = some 0 := by
      have head := slides.first
      rw [placedDocument, documentSpans, ← documentBreaks, List.map_map, List.head?_map, Option.map_map]
      cases found : (breakSpans text (documentBreaks text)).head? with
      | none => simp [found] at head
      | some span =>
        rw [found] at head
        exact congrArg some (zero span (Option.some.inj head))
    have last : ((placedDocument text).map Prod.snd).getLast?.map Span.stop = some (byteLength text) := by
      rw [placedDocument, List.map_map, List.getLast?_map, Option.map_map]
      exact slides.last
    have chain : ((placedDocument text).map Prod.snd).IsChain fun a b => b.start ≤ a.stop := by
      rw [placedDocument, List.map_map, List.isChain_map]
      refine (@breakSpans_isChain_iff _ (documentBreaks text)
        fun a b => (carryTableHeader text (documentTables text) b).pos ≤ a.stop).mpr fun start round more => ?_
      have next := @next_inside _ (documentBreaks text) _ more
      rw [roundSpan_cut more]
      exact place_le (by simp only [roundSpan]; omega) (near start round more)
    obtain ⟨span, member, holds⟩ := covered_of_chain first last chain (Nat.zero_le i) inside
    obtain ⟨placed, among, rfl⟩ := List.mem_map.mp member
    exact ⟨placed, among, holds⟩

/-! ### The order of the chunks -/

/-- The next row is the first line start from an offset on. -/
theorem rowStart_le {p q : Nat} (boundary : isCharBoundary text p = true) (boundary' : isCharBoundary text q = true)
    (order : p ≤ q) (newline : (takeBytes q text).getLast? = some '\n') : rowStart text p ≤ q := by
  unfold rowStart
  split
  · exact order
  · next middle =>
    have whole := takeBytes_eq_append_slice boundary boundary' order
    have size := byteLength_slice boundary boundary' order
    have some : slice text p q ≠ [] := by
      intro none
      rw [none, List.append_nil] at whole
      exact middle (whole ▸ newline)
    rw [whole, List.getLast?_append_of_ne_nil _ some] at newline
    have parts : dropBytes p text = slice text p q ++ dropBytes (q - p) (dropBytes p text) :=
      (takeBytes_append_dropBytes _ _).symm
    obtain ⟨line, ending⟩ := List.getLast?_eq_some_iff.mp newline
    rw [ending, List.append_assoc, List.singleton_append] at parts
    have length : byteLength (slice text p q) = byteLength line + 1 := by
      rw [ending, byteLength_append]
      rfl
    cases found : findChar '\n' (dropBytes p text) with
    | none =>
      rw [findChar, if_pos (parts ▸ List.mem_append_right line List.mem_cons_self)] at found
      simp at found
    | some i =>
      obtain ⟨before, after, split, here, clear⟩ := findChar_some found
      have first := stretch_le_offset clear (parts.symm.trans split)
      simp only
      omega

/-- Two offsets with no line start behind the first and by the second have the same next row. -/
theorem rowStart_eq {p q : Nat} (boundary : isCharBoundary text p = true) (boundary' : isCharBoundary text q = true)
    (order : p ≤ q) (before : q ≤ rowStart text p) (inside : rowStart text p < byteLength text) :
    rowStart text q = rowStart text p := by
  obtain ⟨row, _, newline⟩ := rowStart_spec boundary
  obtain ⟨row', behind', newline'⟩ := rowStart_spec boundary'
  have upper := rowStart_le boundary' row before (newline inside)
  have lower := rowStart_le boundary row' (by omega) (newline' (by omega))
  omega

/-- Carrying headers keeps the chunks in order. The cases are those of the later chunk, and then what the
earlier one does at the same table. -/
theorem place_mono {a b : Span} (cuts : a.Cuts text) (cuts' : b.Cuts text) (order : a.start < b.start)
    (stops : a.stop ≤ b.stop) :
    (carryTableHeader text (documentTables text) a).pos ≤ (carryTableHeader text (documentTables text) b).pos := by
  have apart := documentTables_apart text
  have early : (carryTableHeader text (documentTables text) a).pos ≤ b.start ∨
      ∃ row, SkipsTo text a row ∧ (carryTableHeader text (documentTables text) a).pos = row ∧ b.start < row := by
    rcases @place_cases text a with own | ⟨_, _, behind, _, _, first⟩ | skips
    · exact .inl (by omega)
    · exact .inl (by omega)
    · by_cases near : (carryTableHeader text (documentTables text) a).pos ≤ b.start
      · exact .inl near
      · exact .inr ⟨_, skips, rfl, Nat.lt_of_not_le near⟩
  rcases early with near | ⟨row, skips, place, far⟩
  · rcases @place_cases text b with own | ⟨table, listed, behind, header, inside, first⟩ | skips'
    · omega
    · rw [first]
      -- `b` starts in a header: so does `a`, or it starts and stays in front of the table
      by_cases before : a.start ≤ table.start
      · rcases @place_cases text a with own | ⟨_, _, behind', _, _, first'⟩ | skips
        · omega
        · omega
        · by_contra late
          obtain ⟨table', listed', behind', data', inside', _, _, _, another⟩ := skips
          have unique := @Apart.unique _ _ apart _ _ (max table.start a.start) listed listed' ⟨by omega, by omega⟩
            ⟨by omega, by omega⟩
          rw [unique] at header
          omega
      · have around := @Apart.around _ _ apart _ a.start listed ⟨by omega, by omega⟩
        have here : (carryTableHeader text (documentTables text) a).pos = table.start := by
          rw [carryTableHeader_around, around]
          simp only
          rw [if_pos (by omega)]
          rfl
        omega
    · obtain ⟨_, _, _, _, _, _, row', _, _⟩ := skips'
      have onward := (rowStart_spec cuts'.1).2.1
      omega
  · -- both start in one row, which both leave
    obtain ⟨table, listed, behind, data, inside, small, here, before, another⟩ := skips
    have bound := le_length_of_boundary cuts.2.1
    have same := rowStart_eq cuts.1 cuts'.1 (Nat.le_of_lt order) (by omega) (by omega)
    have skips' : SkipsTo text b row :=
      ⟨table, listed, by omega, by omega, by omega, small, by omega, by omega, another⟩
    rw [place, skips'.place]

/-! ### A long row -/

theorem findChar_append {c : Char} {front rest : List Char} (clear : c ∉ front) :
    findChar c (front ++ c :: rest) = some (byteLength front) := by
  have plain : ∀ d ∈ front, decide (d ≠ c) = true := fun d member => decide_eq_true fun same => clear (same ▸ member)
  rw [findChar, if_pos (List.mem_append_right front List.mem_cons_self), List.takeWhile_append_of_pos plain,
    List.takeWhile_cons_of_neg (by simp), List.append_nil]

/-- A table whose first data row is long, in three parts. -/
def longRow (first second third : List Char) : List Char :=
  ['|', 'a', '|'] ++ '\n' :: (['|', '-', '|'] ++ '\n' ::
    (('|' :: (first ++ second ++ third)) ++ '\n' :: (['|', 'b', '|'] ++ ['\n'])))

section LongRow
variable {first second third : List Char}

theorem longRow_plain (left : '`' ∉ first) (middle : '`' ∉ second) (right : '`' ∉ third) :
    '`' ∉ longRow first second third := by
  simp [longRow, left, middle, right]

theorem longRow_lines (oneLine : '\n' ∉ first ∧ '\n' ∉ second ∧ '\n' ∉ third) :
    splitInclusive (longRow first second third) =
      [['|', 'a', '|', '\n'], ['|', '-', '|', '\n'], '|' :: (first ++ second ++ third ++ ['\n']),
        ['|', 'b', '|', '\n']] := by
  have row : '\n' ∉ '|' :: (first ++ second ++ third) := by simp [oneLine]
  rw [longRow, splitInclusive_line (by decide), splitInclusive_line (by decide), splitInclusive_line row,
    splitInclusive_line (by decide)]
  rfl

theorem longRow_table (sizes : byteLength first = 3051 ∧ byteLength second = 540 ∧ byteLength third = 409)
    (oneLine : '\n' ∉ first ∧ '\n' ∉ second ∧ '\n' ∉ third) (plain : '`' ∉ longRow first second third) :
    documentTables (longRow first second third) = [⟨0, 8, 4014⟩] := by
  have size : byteLength ('|' :: (first ++ second ++ third ++ ['\n'])) = 4002 := by
    simp only [byteLength_cons, byteLength_append, byteLength_nil, sizes]
    rfl
  have row : isTableRow ('|' :: (first ++ second ++ third ++ ['\n'])) = true := rfl
  rw [documentTables, scanCodeFences_none plain, scanTables, longRow_lines oneLine]
  generalize '|' :: (first ++ second ++ third ++ ['\n']) = line at size row
  have header : isTableRow ['|', 'a', '|', '\n'] = true := rfl
  have dashes : isTableRow ['|', '-', '|', '\n'] = true := rfl
  have last : isTableRow ['|', 'b', '|', '\n'] = true := rfl
  have none : ∀ p, insideFence p [] = false := fun _ => rfl
  have separator : isSeparatorRow ['|', '-', '|', '\n'] = true := by decide
  simp only [scanRows, header, dashes, row, last, none, Bool.not_false, Bool.and_self, if_true, List.nil_append,
    List.cons_append, flushRun, separator, size]
  rfl

/-- The window of the first chunk holds no break, and the second chunk skips to the end of the row. -/
theorem longRow_loses_text (sizes : byteLength first = 3051 ∧ byteLength second = 540 ∧ byteLength third = 409)
    (oneLine : '\n' ∉ first ∧ '\n' ∉ second ∧ '\n' ∉ third) (plain : '`' ∉ longRow first second third) :
    ¬ ∀ i < byteLength (longRow first second third),
      ∃ placed ∈ placedDocument (longRow first second third), placed.2.start ≤ i ∧ i < placed.2.stop := by
  have size : chunkSizeChars = 3600 := rfl
  have half : chunkWindowChars / 2 = 400 := rfl
  have front : byteLength (['|', 'a', '|', '\n', '|', '-', '|', '\n', '|'] ++ first) = 3060 := by
    rw [byteLength_append, sizes.1]
    rfl
  have whole : longRow first second third = (['|', 'a', '|', '\n', '|', '-', '|', '\n', '|'] ++ first) ++
      (second ++ third ++ '\n' :: ['|', 'b', '|', '\n']) := by
    simp [longRow]
  have cut : longRow first second third = (['|', 'a', '|', '\n', '|', '-', '|', '\n', '|'] ++ first ++ second) ++
      (third ++ '\n' :: ['|', 'b', '|', '\n']) := by
    simp [longRow]
  have length : byteLength (longRow first second third) = 4014 := by
    rw [whole, byteLength_append, front, byteLength_append, byteLength_append, sizes.2.1, sizes.2.2]
    rfl
  have more : 0 + chunkSizeChars < byteLength (longRow first second third) := by omega
  have boundary : isCharBoundary (longRow first second third) 3060 = true := by
    rw [whole, ← front]
    exact isCharBoundary_append _ _
  have boundary' : isCharBoundary (longRow first second third) 3600 = true := by
    have size' : byteLength (['|', 'a', '|', '\n', '|', '-', '|', '\n', '|'] ++ first ++ second) = 3600 := by
      rw [byteLength_append, front, sizes.2.1]
    rw [cut, ← size']
    exact isCharBoundary_append _ _
  have empty : bestBreakInWindow (documentBreaks (longRow first second third)) (0 + chunkSizeChars - chunkWindowChars / 2)
      (min (0 + chunkSizeChars + chunkWindowChars / 2) (byteLength (longRow first second third))) = none := by
    refine bestBreak_scan_none_iff.mpr fun b found inside => ?_
    obtain ⟨before, after, parts, place⟩ := found_at_line found
    have within : '\n' ∉ first ++ second ++ third := by simp [oneLine]
    have split : before ++ '\n' :: after = ['|', 'a', '|', '\n', '|', '-', '|', '\n', '|'] ++
        (first ++ second ++ third ++ '\n' :: ['|', 'b', '|', '\n']) := by
      rw [← parts]
      simp [longRow]
    have outside := offset_outside within split
    have header : byteLength ['|', 'a', '|', '\n', '|', '-', '|', '\n', '|'] = 9 := rfl
    simp only [byteLength_append, sizes] at outside
    omega
  have stop : chunkEnd (longRow first second third) (documentBreaks (longRow first second third)) 0 = 3600 := by
    rw [chunkEnd_of_none more empty, Nat.zero_add, size, snapForward_of_boundary boundary']
  have next : nextStart (longRow first second third) 3600 = 3060 := by
    have back : 3600 - chunkOverlapChars = 3060 := rfl
    simp only [nextStart, back, snapBackward_of_boundary boundary]
    rfl
  have row : rowStart (longRow first second third) 3060 = 4010 := by
    have within : '\n' ∉ second ++ third := by simp [oneLine]
    have taken : (takeBytes 3060 (longRow first second third)).getLast? ≠ some '\n' := by
      rw [whole, ← front, takeBytes_append_length]
      intro last
      have some : first ≠ [] := by
        rintro rfl
        simp at sizes
      rw [List.getLast?_append_of_ne_nil _ some] at last
      exact oneLine.1 (List.mem_of_getLast? last)
    have dropped : dropBytes 3060 (longRow first second third) = (second ++ third) ++ '\n' :: ['|', 'b', '|', '\n'] := by
      rw [whole, ← front, dropBytes_append_length]
    rw [rowStart, if_neg taken, dropped, findChar_append within, byteLength_append, sizes.2.1, sizes.2.2]
  have skips : SkipsTo (longRow first second third)
      (roundSpan (longRow first second third) (documentBreaks (longRow first second third)) 3060) 4010 := by
    refine ⟨⟨0, 8, 4014⟩, by rw [longRow_table sizes oneLine plain]; exact List.mem_singleton_self _, show 0 < 3060 by decide,
      show 8 ≤ 3060 by decide, show 3060 < 4014 by decide, ?_, row.symm, ?_, by decide⟩
    · have short := byteLength_takeBytes_le 8 (longRow first second third)
      rw [slice_zero]
      exact Nat.le_trans short (by decide)
    · rw [roundSpan_last (by omega), length]
      decide
  intro covered
  have lost := @byte_lost _ 0 _ .refl more (by rwa [stop, next]) (by rw [stop]; decide)
  exact lost.2 (covered _ lost.1)

end LongRow

/-- Bytes 3600 to 4010 of a row of 4000 bytes are in no chunk. -/
theorem long_row_is_lost :
    ¬ ∀ i < byteLength (longRow (List.replicate 3051 'x') (List.replicate 540 'x') (List.replicate 409 'x')),
      ∃ placed ∈ placedDocument (longRow (List.replicate 3051 'x') (List.replicate 540 'x') (List.replicate 409 'x')),
        placed.2.start ≤ i ∧ i < placed.2.stop := by
  have away : ∀ n (d : Char), d ≠ 'x' → d ∉ List.replicate n 'x' :=
    fun n d other member => other (List.eq_of_mem_replicate member)
  have plain := longRow_plain (away 3051 '`' (by decide)) (away 540 '`' (by decide)) (away 409 '`' (by decide))
  exact longRow_loses_text ⟨byteLength_replicate_one _ rfl, byteLength_replicate_one _ rfl, byteLength_replicate_one _ rfl⟩
    ⟨away _ _ (by decide), away _ _ (by decide), away _ _ (by decide)⟩ plain

end Rqmd.Chunking
