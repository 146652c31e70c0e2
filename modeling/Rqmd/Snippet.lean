import Rqmd.ChunkSpans
import Rqmd.Search

/-! Snippets. The best line is looked for in a window around a chunk and numbered by counting the lines in
front of the window; a window that starts a line is numbered one too low. -/

namespace Rqmd.Chunking
open Text

structure SnippetResult where
  line : Nat
  snippet : List Char
deriving DecidableEq

/-- The values `build_snippet_result` makes a snippet of. -/
structure SnippetView where
  bestLine : Nat
  start : Nat
  snippetLines : List (List Char)
  absoluteStart : Nat
  linesBefore : Nat
  linesAfter : Nat
  line : Nat
deriving DecidableEq

/-- `&text[start..stop]`, where `none` stands for the panic. -/
def checkedSlice (text : List Char) (start stop : Nat) : Option (List Char) :=
  if isCharBoundary text start && isCharBoundary text stop && start ≤ stop then some (slice text start stop) else none

theorem checkedSlice_some {text : List Char} {p q : Nat} (left : isCharBoundary text p = true)
    (right : isCharBoundary text q = true) (order : p ≤ q) : checkedSlice text p q = some (slice text p q) := by
  simp [checkedSlice, left, right, order]

theorem checkedSlice_none {text : List Char} {p q : Nat} (backwards : q < p) : checkedSlice text p q = none := by
  simp [checkedSlice, Nat.not_le_of_lt backwards]

/-- The lines to show, `none` when `lines[start..end]` panics. -/
def buildSnippetView (lines : List (List Char)) (bestLine lineOffset totalLines : Nat) : Option SnippetView :=
  let start := bestLine - 1
  let stop := min (bestLine + 3) lines.length
  if start ≤ stop ∧ stop ≤ lines.length then
    let snippetLines := (lines.drop start).take (stop - start)
    let absoluteStart := lineOffset + start + 1
    some {
      bestLine, start, snippetLines, absoluteStart
      linesBefore := absoluteStart - 1
      linesAfter := totalLines - (absoluteStart + snippetLines.length - 1)
      line := lineOffset + bestLine + 1 }
  else none

def SnippetView.header (view : SnippetView) : List Char :=
  ("@@ -" ++ toString view.absoluteStart ++ "," ++ toString view.snippetLines.length ++ " @@ (" ++
    toString view.linesBefore ++ " before, " ++ toString view.linesAfter ++ " after)").toList

def SnippetView.render (view : SnippetView) (maxLen : Nat) : Option SnippetResult :=
  let snippetText := List.intercalate ['\n'] view.snippetLines
  if maxLen < byteLength snippetText then
    let cut := snapCharBoundaryBackward snippetText (maxLen - 3)
    (checkedSlice snippetText 0 cut).map fun shown =>
      ⟨view.line, view.header ++ '\n' :: (shown ++ ['.', '.', '.'])⟩
  else some ⟨view.line, view.header ++ '\n' :: snippetText⟩

/-- The first line with the highest score, and this score. -/
def bestLineFrom (score : List Char → Int) : Nat → Nat × Int → List (List Char) → Nat × Int
  | _, best, [] => best
  | i, best, line :: rest =>
    bestLineFrom score (i + 1) (if score line > best.2 then (i, score line) else best) rest

def lineScore (lowercase : String → String) (queryTerms : List (List Char)) (line : List Char) : Int :=
  queryTerms.countP fun term => occursIn (String.ofList term) (lowercase (String.ofList line))

/-- The part of the body that is searched. -/
def searchRegion (body : List Char) (chunkPos chunkLen : Nat) : Span :=
  if 0 < chunkPos then
    let searchLen := if 0 < chunkLen then chunkLen else chunkSizeChars
    ⟨snapCharBoundaryBackward body (chunkPos - 100),
      snapCharBoundaryForward body (min (chunkPos + searchLen + 100) (byteLength body))⟩
  else ⟨0, byteLength body⟩

def snippetView (lowercase : String → String) (body : List Char) (query : String) (chunkPos chunkLen : Nat) :
    Option SnippetView := do
  let totalLines := (lines body).length
  let region := searchRegion body chunkPos chunkLen
  let before ← checkedSlice body 0 region.start
  let lineOffset := if 0 < chunkPos then (lines before).length - 1 else 0
  let searchBody ← checkedSlice body region.start region.stop
  let queryTerms := splitWhitespace (lowercase query)
  let best := bestLineFrom (lineScore lowercase queryTerms) 0 (0, -1) (lines searchBody)
  if 0 < chunkPos ∧ best.2 ≤ 0 then
    -- nothing matched in the window: the line the chunk starts in
    if region.start < chunkPos then
      let leading ← checkedSlice body region.start chunkPos
      buildSnippetView (lines searchBody) ((lines leading).length - 1) lineOffset totalLines
    else buildSnippetView (lines searchBody) 0 lineOffset totalLines
  else buildSnippetView (lines searchBody) best.1 lineOffset totalLines

def extractSnippet (lowercase : String → String) (body : List Char) (query : String) (maxLen chunkPos chunkLen : Nat) :
    Option SnippetResult :=
  (snippetView lowercase body query chunkPos chunkLen).bind fun view => view.render maxLen

/-! ### Lines and newlines -/

theorem splitInclusive_length (text : List Char) :
    (splitInclusive text).length =
      text.count '\n' + if text ≠ [] ∧ text.getLast? ≠ some '\n' then 1 else 0 := by
  induction text with
  | nil => rfl
  | cons c cs later =>
    by_cases newline : c = '\n'
    · subst newline
      rw [splitInclusive, if_pos rfl, List.length_cons, later, List.count_cons_self]
      cases cs with
      | nil => rfl
      | cons d cs => simp; omega
    · rw [splitInclusive, if_neg newline, List.count_cons_of_ne newline]
      cases cs with
      | nil => simp [splitInclusive, newline]
      | cons d cs =>
        have parts : ∃ line lines, splitInclusive (d :: cs) = line :: lines := by
          cases split : splitInclusive (d :: cs) with
          | nil =>
            have whole := flatten_splitInclusive (d :: cs)
            rw [split] at whole
            simp at whole
          | cons line lines => exact ⟨line, lines, rfl⟩
        obtain ⟨line, lines, split⟩ := parts
        rw [split] at later ⊢
        simpa using later

theorem lines_length (text : List Char) :
    (lines text).length = text.count '\n' + if text ≠ [] ∧ text.getLast? ≠ some '\n' then 1 else 0 := by
  rw [lines, List.length_map, splitInclusive_length]

/-- Every piece but the last holds one newline. -/
theorem splitInclusive_counts (text : List Char) :
    (splitInclusive text).IsChain fun piece _ => piece.count '\n' = 1 := by
  induction text with
  | nil => exact List.isChain_nil
  | cons c cs later =>
    by_cases newline : c = '\n'
    · subst newline
      rw [splitInclusive, if_pos rfl]
      exact List.isChain_cons.mpr ⟨fun _ _ => rfl, later⟩
    · rw [splitInclusive, if_neg newline]
      cases split : splitInclusive cs with
      | nil => exact List.isChain_singleton _
      | cons line lines =>
        rw [split] at later
        obtain ⟨first, rest⟩ := List.isChain_cons.mp later
        refine List.isChain_cons.mpr ⟨fun next member => ?_, rest⟩
        rw [List.count_cons_of_ne newline]
        exact first next member

/-- A part of a text has no more lines than the text behind the newlines in front of it. -/
theorem lines_of_part (before window after : List Char) :
    before.count '\n' + (lines window).length ≤ (lines (before ++ (window ++ after))).length := by
  rw [lines_length, lines_length, List.count_append, List.count_append]
  by_cases empty : window = []
  · rw [empty]
    simp only [List.count_nil, ne_eq, not_true, false_and, if_false]
    omega
  · cases after with
    | nil =>
      have last : (before ++ (window ++ [])).getLast? = window.getLast? := by
        rw [List.append_nil, List.getLast?_append_of_ne_nil _ empty]
      have some : before ++ (window ++ []) ≠ [] := by simp [empty]
      simp only [last, some, empty, ne_eq, not_false_eq_true, true_and, List.count_nil]
      omega
    | cons d rest =>
      have last : (before ++ (window ++ d :: rest)).getLast? = (d :: rest).getLast? := by
        rw [List.getLast?_append_of_ne_nil _ (by simp), List.getLast?_append_of_ne_nil _ (List.cons_ne_nil d rest)]
      have some : before ++ (window ++ d :: rest) ≠ [] := by simp
      simp only [last, some, ne_eq, not_false_eq_true, true_and]
      by_cases newline : (d :: rest).getLast? = Option.some '\n'
      · have counted := List.count_pos_iff.mpr (List.mem_of_getLast? newline)
        split <;> omega
      · rw [if_pos newline]
        split <;> omega

/-! ### Numbers of lines -/

/-- The number of the line that holds the byte at `offset`. -/
def lineAt (body : List Char) (offset : Nat) : Nat := (takeBytes offset body).count '\n' + 1

/-- The offsets at which pieces in a row start. -/
def pieceOffsets : Nat → List (List Char) → List Nat
  | _, [] => []
  | offset, piece :: rest => offset :: pieceOffsets (offset + byteLength piece) rest

theorem pieceOffsets_length (offset : Nat) (pieces : List (List Char)) :
    (pieceOffsets offset pieces).length = pieces.length := by
  induction pieces generalizing offset with
  | nil => rfl
  | cons piece rest later => rw [pieceOffsets, List.length_cons, List.length_cons, later]

/-- The pieces of a part are in lines that follow each other. The induction moves a piece to the front. -/
theorem lineAt_piece {pieces : List (List Char)} {before after : List Char} {j offset : Nat}
    (single : pieces.IsChain fun piece _ => piece.count '\n' = 1)
    (place : (pieceOffsets (byteLength before) pieces)[j]? = some offset) :
    lineAt (before ++ (pieces.flatten ++ after)) offset = before.count '\n' + j + 1 := by
  induction pieces generalizing before j with
  | nil => simp [pieceOffsets] at place
  | cons piece rest later =>
    obtain ⟨first, onward⟩ := List.isChain_cons.mp single
    cases j with
    | zero =>
      have here : byteLength before = offset := Option.some.inj place
      rw [lineAt, ← here, takeBytes_append_length, Nat.add_zero]
    | succ j =>
      rw [pieceOffsets, List.getElem?_cons_succ, ← byteLength_append] at place
      have counted : piece.count '\n' = 1 := by
        cases rest with
        | nil => simp [pieceOffsets] at place
        | cons next rest => exact first next rfl
      have moved := later onward place
      rw [List.flatten_cons, List.append_assoc, ← List.append_assoc, moved, List.count_append, counted]
      omega

/-- The lines a snippet shows are those its numbers say: each line shown begins in the body line it is
numbered as, the best one is among them, and the counts add up. -/
structure Truthful (body : List Char) (region : Span) (view : SnippetView) : Prop where
  shown : view.snippetLines =
    ((lines (slice body region.start region.stop)).drop view.start).take view.snippetLines.length
  numbered : ∀ i < view.snippetLines.length, ∃ offset,
    (pieceOffsets region.start (splitInclusive (slice body region.start region.stop)))[view.start + i]? = some offset ∧
      view.absoluteStart + i = lineAt body offset
  best : view.snippetLines ≠ [] →
    view.start ≤ view.bestLine ∧ view.bestLine < view.start + view.snippetLines.length ∧ ∃ offset,
      (pieceOffsets region.start (splitInclusive (slice body region.start region.stop)))[view.bestLine]? = some offset ∧
        view.line = lineAt body offset
  total : view.linesBefore + view.snippetLines.length + view.linesAfter = (lines body).length

/-- A region between boundaries inside a body. -/
structure Region (body : List Char) (region : Span) : Prop where
  starts : isCharBoundary body region.start = true
  stops : isCharBoundary body region.stop = true
  order : region.start ≤ region.stop

theorem region_parts (body : List Char) (region : Span) :
    body = takeBytes region.start body ++ (slice body region.start region.stop ++
      dropBytes (region.stop - region.start) (dropBytes region.start body)) := by
  rw [slice, takeBytes_append_dropBytes, takeBytes_append_dropBytes]

theorem Region.lineAt_line {body : List Char} {region : Span} (inside : Region body region) {j offset : Nat}
    (place : (pieceOffsets region.start (splitInclusive (slice body region.start region.stop)))[j]? = some offset) :
    lineAt body offset = (takeBytes region.start body).count '\n' + j + 1 := by
  have single := splitInclusive_counts (slice body region.start region.stop)
  rw [← isCharBoundary_iff.mp inside.starts] at place
  have line := @lineAt_piece _ (takeBytes region.start body)
    (dropBytes (region.stop - region.start) (dropBytes region.start body)) _ _ single (by rwa [isCharBoundary_iff.mp inside.starts] at place ⊢)
  rw [flatten_splitInclusive, ← region_parts] at line
  exact line

theorem Region.checked {body : List Char} {region : Span} (inside : Region body region) :
    checkedSlice body region.start region.stop = some (slice body region.start region.stop) := by
  have order := inside.order
  rw [checkedSlice, inside.starts, inside.stops]
  exact if_pos (by simp [order])

/-! ### The view -/

/-- The best line is a line, or the first of none. -/
theorem bestLineFrom_lt (score : List Char → Int) (rest : List (List Char)) (i : Nat) (best : Nat × Int) :
    (bestLineFrom score i best rest).1 < i + rest.length ∨ (bestLineFrom score i best rest).1 = best.1 := by
  induction rest generalizing i best with
  | nil => exact .inr rfl
  | cons line rest later =>
    rw [bestLineFrom, List.length_cons]
    split
    · rcases later (i + 1) (i, score line) with behind | here
      · exact .inl (by omega)
      · simp only at here
        exact .inl (by omega)
    · rcases later (i + 1) best with behind | here
      · exact .inl (by omega)
      · exact .inr here

/-- `build_snippet_result` on a best line among the lines, or on no lines. -/
theorem buildSnippetView_some {shown : List (List Char)} {bestLine lineOffset totalLines : Nat}
    (among : bestLine < shown.length ∨ bestLine = 0) :
    ∃ view, buildSnippetView shown bestLine lineOffset totalLines = some view ∧
      view.bestLine = bestLine ∧ view.start = bestLine - 1 ∧
      view.snippetLines = (shown.drop view.start).take view.snippetLines.length ∧
      view.snippetLines.length = min (bestLine + 3) shown.length - (bestLine - 1) ∧
      view.absoluteStart = lineOffset + view.start + 1 ∧ view.linesBefore = view.absoluteStart - 1 ∧
      view.linesAfter = totalLines - (view.absoluteStart + view.snippetLines.length - 1) ∧
      view.line = lineOffset + bestLine + 1 := by
  have count : ((shown.drop (bestLine - 1)).take (min (bestLine + 3) shown.length - (bestLine - 1))).length =
      min (bestLine + 3) shown.length - (bestLine - 1) := by
    rw [List.length_take, List.length_drop]
    omega
  have order : bestLine - 1 ≤ min (bestLine + 3) shown.length ∧ min (bestLine + 3) shown.length ≤ shown.length := by
    omega
  refine ⟨_, if_pos order, rfl, rfl, ?_, count, rfl, rfl, rfl, rfl⟩
  dsimp only
  rw [count]

/-- With the offset counted right everything shown is numbered right, and the other way round. -/
theorem truthful_iff {body : List Char} {region : Span} {view : SnippetView} {bestLine lineOffset : Nat}
    (inside : Region body region)
    (among : bestLine < (lines (slice body region.start region.stop)).length ∨ bestLine = 0)
    (most : lineOffset ≤ (takeBytes region.start body).count '\n')
    (built : buildSnippetView (lines (slice body region.start region.stop)) bestLine lineOffset (lines body).length =
      some view) :
    Truthful body region view ↔
      (lines (slice body region.start region.stop) ≠ [] → lineOffset = (takeBytes region.start body).count '\n') := by
  obtain ⟨view', same, best, start, shown, count, absolute, before, after, line⟩ :=
    @buildSnippetView_some _ _ lineOffset (lines body).length among
  rw [built, Option.some.injEq] at same
  subst same
  have offsets : (pieceOffsets region.start (splitInclusive (slice body region.start region.stop))).length =
      (lines (slice body region.start region.stop)).length := by
    rw [pieceOffsets_length, lines, List.length_map]
  have located : ∀ j < (lines (slice body region.start region.stop)).length, ∃ offset,
      (pieceOffsets region.start (splitInclusive (slice body region.start region.stop)))[j]? = some offset ∧
        lineAt body offset = (takeBytes region.start body).count '\n' + j + 1 := by
    intro j early
    have place := List.getElem?_eq_getElem (offsets ▸ early)
    exact ⟨_, place, inside.lineAt_line place⟩
  constructor
  · intro truthful some
    have counted := List.length_pos_iff.mpr some
    obtain ⟨offset, place, number⟩ := truthful.numbered 0 (by omega)
    have right := inside.lineAt_line place
    omega
  · intro right
    have part := lines_of_part (takeBytes region.start body) (slice body region.start region.stop)
      (dropBytes (region.stop - region.start) (dropBytes region.start body))
    rw [← region_parts] at part
    by_cases none : lines (slice body region.start region.stop) = []
    · have zero : view.snippetLines.length = 0 := by
        rw [count, none, List.length_nil]
        omega
      have noLines : view.snippetLines = [] := List.length_eq_zero_iff.mp zero
      rw [none, List.length_nil] at among part
      exact ⟨shown, fun i early => by omega, fun some => absurd noLines some, by omega⟩
    · have same := right none
      have counted := List.length_pos_iff.mpr none
      refine ⟨shown, fun i early => ?_, fun _ => ⟨by omega, by omega, ?_⟩, by omega⟩
      · obtain ⟨offset, place, number⟩ := located (view.start + i) (by omega)
        exact ⟨offset, place, by omega⟩
      · obtain ⟨offset, place, number⟩ := located view.bestLine (by omega)
        exact ⟨offset, place, by omega⟩

/-! ### The region of a chunk -/

theorem searchRegion_start (body : List Char) (chunkPos chunkLen : Nat) :
    (searchRegion body chunkPos chunkLen).start = snapCharBoundaryBackward body (chunkPos - 100) := by
  unfold searchRegion
  split
  · rfl
  · next first =>
    have zero : chunkPos - 100 = 0 := by omega
    rw [zero, snapBackward_of_boundary (isCharBoundary_zero body)]

/-- The region holds the start of the chunk, and something in front of it when the chunk is not the first. -/
theorem searchRegion_spec {body : List Char} {chunkPos : Nat} (chunkLen : Nat)
    (inside : isCharBoundary body chunkPos = true) :
    Region body (searchRegion body chunkPos chunkLen) ∧ (searchRegion body chunkPos chunkLen).start ≤ chunkPos ∧
      chunkPos ≤ (searchRegion body chunkPos chunkLen).stop ∧
      (0 < chunkPos → (searchRegion body chunkPos chunkLen).start < chunkPos) := by
  have bound := le_length_of_boundary inside
  by_cases first : 0 < chunkPos
  · obtain ⟨starts, before, _⟩ := snapBackward_spec body (show chunkPos - 100 ≤ byteLength body by omega)
    generalize reach : min (chunkPos + (if 0 < chunkLen then chunkLen else chunkSizeChars) + 100) (byteLength body) = edge
    obtain ⟨stops, behind, _, _⟩ := snapForward_spec body (show edge ≤ byteLength body by omega)
    have region : searchRegion body chunkPos chunkLen =
        ⟨snapCharBoundaryBackward body (chunkPos - 100), snapCharBoundaryForward body edge⟩ := by
      rw [searchRegion, if_pos first]
      simp only [reach]
    have order : snapCharBoundaryBackward body (chunkPos - 100) < chunkPos := by
      by_cases near : chunkPos < 100
      · omega
      · omega
    rw [region]
    exact ⟨⟨starts, stops, by simp only; omega⟩, by simp only; omega, by simp only; omega, fun _ => order⟩
  · have zero : chunkPos = 0 := by omega
    have region : searchRegion body chunkPos chunkLen = ⟨0, byteLength body⟩ := by
      rw [searchRegion, if_neg first]
    rw [region]
    exact ⟨⟨isCharBoundary_zero body, isCharBoundary_length body, Nat.zero_le _⟩, Nat.zero_le _, bound,
      fun impossible => absurd impossible first⟩

/-- Counting the lines in front of the region counts its newlines, but one too few when the last of them
ends there. -/
theorem counted_lines (before : List Char) :
    (lines before).length - 1 ≤ before.count '\n' ∧
      ((lines before).length - 1 = before.count '\n' ↔ before.getLast? ≠ some '\n') := by
  rw [lines_length]
  by_cases newline : before.getLast? = some '\n'
  · have counted := List.count_pos_iff.mpr (List.mem_of_getLast? newline)
    rw [if_neg fun both => both.2 newline]
    exact ⟨by omega, fun same => by omega, fun other => absurd newline other⟩
  · by_cases none : before = []
    · subst none
      exact ⟨Nat.le_refl 0, fun _ => newline, fun _ => rfl⟩
    · rw [if_pos ⟨none, newline⟩]
      exact ⟨by omega, fun _ => newline, fun _ => by omega⟩

theorem slice_front (body : List Char) (start : Nat) {mid stop : Nat} (order : mid ≤ stop) :
    ∃ rest, slice body start stop = slice body start mid ++ rest := by
  have parts := takeBytes_append_dropBytes (mid - start) (slice body start stop)
  rw [show takeBytes (mid - start) (slice body start stop) = slice body start mid from
    takeBytes_takeBytes (by omega) _] at parts
  exact ⟨_, parts.symm⟩

theorem render_some (view : SnippetView) (maxLen : Nat) :
    ∃ shown, view.render maxLen = some ⟨view.line, view.header ++ '\n' :: shown⟩ := by
  unfold SnippetView.render
  dsimp only
  split
  · next long =>
    obtain ⟨cut, _, _⟩ := snapBackward_spec (List.intercalate ['\n'] view.snippetLines)
      (show maxLen - 3 ≤ byteLength (List.intercalate ['\n'] view.snippetLines) by omega)
    have region : Region (List.intercalate ['\n'] view.snippetLines)
        ⟨0, snapCharBoundaryBackward (List.intercalate ['\n'] view.snippetLines) (maxLen - 3)⟩ :=
      ⟨isCharBoundary_zero _, cut, Nat.zero_le _⟩
    exact ⟨_, by rw [region.checked]; rfl⟩
  · exact ⟨_, rfl⟩

/-- A snippet is always made, and its numbers are right exactly when the region around the chunk does not
start a line other than the first. -/
theorem snippet_truthful_iff (lowercase : String → String) (body : List Char) (query : String)
    (maxLen chunkPos chunkLen : Nat) (inside : isCharBoundary body chunkPos = true) :
    ∃ view, snippetView lowercase body query chunkPos chunkLen = some view ∧
      (∃ shown, extractSnippet lowercase body query maxLen chunkPos chunkLen =
        some ⟨view.line, view.header ++ '\n' :: shown⟩) ∧
      (Truthful body (searchRegion body chunkPos chunkLen) view ↔
        (takeBytes (snapCharBoundaryBackward body (chunkPos - 100)) body).getLast? ≠ some '\n') := by
  obtain ⟨region, before, behind, apart⟩ := searchRegion_spec chunkLen inside
  have front : Region body ⟨0, (searchRegion body chunkPos chunkLen).start⟩ :=
    ⟨isCharBoundary_zero body, region.starts, Nat.zero_le _⟩
  have leading : Region body ⟨(searchRegion body chunkPos chunkLen).start, chunkPos⟩ := ⟨region.starts, inside, before⟩
  -- whatever line is taken for the best one, the view is as truthful as the count of the lines in front
  have finish : ∀ bestLine, (bestLine < (lines (slice body (searchRegion body chunkPos chunkLen).start
      (searchRegion body chunkPos chunkLen).stop)).length ∨ bestLine = 0) →
      ∃ view, buildSnippetView (lines (slice body (searchRegion body chunkPos chunkLen).start
          (searchRegion body chunkPos chunkLen).stop)) bestLine
          (if 0 < chunkPos then (lines (slice body 0 (searchRegion body chunkPos chunkLen).start)).length - 1 else 0)
          (lines body).length = some view ∧
        (Truthful body (searchRegion body chunkPos chunkLen) view ↔
          (takeBytes (snapCharBoundaryBackward body (chunkPos - 100)) body).getLast? ≠ some '\n') := by
    intro bestLine among
    have place := searchRegion_start body chunkPos chunkLen
    have counted := counted_lines (takeBytes (searchRegion body chunkPos chunkLen).start body)
    obtain ⟨view, built, _⟩ := @buildSnippetView_some _ _
      (if 0 < chunkPos then (lines (slice body 0 (searchRegion body chunkPos chunkLen).start)).length - 1 else 0)
      (lines body).length among
    refine ⟨view, built, ?_⟩
    rw [slice_zero] at built
    rw [← place]
    by_cases first : 0 < chunkPos
    · have size := byteLength_slice region.starts region.stops region.order
      have order := apart first
      have some : lines (slice body (searchRegion body chunkPos chunkLen).start (searchRegion body chunkPos chunkLen).stop) ≠ [] := by
        intro none
        have empty := congrArg List.flatten (List.map_eq_nil_iff.mp none)
        rw [flatten_splitInclusive] at empty
        rw [empty] at size
        simp only [List.flatten_nil, byteLength_nil] at size
        omega
      rw [if_pos first] at built
      rw [truthful_iff region among counted.1 built, ← counted.2]
      exact ⟨fun right => right some, fun right _ => right⟩
    · have zero : (searchRegion body chunkPos chunkLen).start = 0 := by omega
      have none : takeBytes 0 body = [] := takeBytes_append_length [] body
      rw [if_neg first] at built
      rw [truthful_iff region among (Nat.zero_le _) built, zero, none]
      simp
  have viewed : ∃ view, snippetView lowercase body query chunkPos chunkLen = some view ∧
      (Truthful body (searchRegion body chunkPos chunkLen) view ↔
        (takeBytes (snapCharBoundaryBackward body (chunkPos - 100)) body).getLast? ≠ some '\n') := by
    unfold snippetView
    dsimp only
    rw [front.checked, region.checked]
    simp only [Option.bind_eq_bind, Option.bind_some]
    split
    · split
      · rw [leading.checked]
        refine finish _ ?_
        obtain ⟨rest, whole⟩ := slice_front body (searchRegion body chunkPos chunkLen).start behind
        have part := lines_of_part [] (slice body (searchRegion body chunkPos chunkLen).start chunkPos) rest
        rw [List.nil_append, ← whole, List.count_nil] at part
        dsimp only
        omega
      · exact finish 0 (.inr rfl)
    · refine finish _ ?_
      have among := bestLineFrom_lt (lineScore lowercase (splitWhitespace (lowercase query)))
        (lines (slice body (searchRegion body chunkPos chunkLen).start (searchRegion body chunkPos chunkLen).stop)) 0 (0, -1)
      rwa [Nat.zero_add] at among
  obtain ⟨view, found, truthful⟩ := viewed
  obtain ⟨shown, rendered⟩ := render_some view maxLen
  exact ⟨view, found, ⟨shown, by rw [extractSnippet, found, Option.bind_some, rendered]⟩, truthful⟩

theorem second_word_truthful :
    ∃ view, snippetView (fun text => text) ['a', '\n', 'b'] "b" 2 0 = some view ∧
      Truthful ['a', '\n', 'b'] (searchRegion ['a', '\n', 'b'] 2 0) view := by
  obtain ⟨view, found, _, truthful⟩ :=
    snippet_truthful_iff (fun text => text) ['a', '\n', 'b'] "b" 500 2 0 (by decide)
  exact ⟨view, found, truthful.mpr (by decide)⟩

/-- A short first line and a long second one. -/
def twoLines : List Char := 'x' :: '\n' :: List.replicate 150 'a'

/-- The region starts the second line, which is numbered as the first. -/
theorem second_line_numbered_first :
    ∃ view, snippetView (fun text => text) twoLines "a" 102 50 = some view ∧
      ¬ Truthful twoLines (searchRegion twoLines 102 50) view := by
  have viewed : snippetView (fun text => text) twoLines "a" 102 50 =
      some ⟨0, 0, [List.replicate 150 'a'], 1, 0, 1, 1⟩ := by decide +kernel
  refine ⟨_, viewed, fun truthful => ?_⟩
  obtain ⟨offset, place, number⟩ := truthful.numbered 0 (by decide)
  have second : (pieceOffsets (searchRegion twoLines 102 50).start (splitInclusive
      (slice twoLines (searchRegion twoLines 102 50).start (searchRegion twoLines 102 50).stop)))[0]? = some 2 := by
    decide +kernel
  have same : 2 = offset := Option.some.inj (second.symm.trans place)
  rw [← same] at number
  have line : lineAt twoLines 2 = 2 := by decide +kernel
  rw [line] at number
  exact absurd number (by decide)

end Rqmd.Chunking
