import Mathlib.Data.List.Sort
import Rqmd.Lib.Select
import Rqmd.Lib.Text
import Rqmd.Embedding

/-! The chunker. A text longer than one chunk is cut at the best break near each chunk's ideal end, and a
chunk that starts inside a pipe table carries the table's header rows. Offsets are in bytes. -/

namespace Rqmd.Chunking
open Text

def chunkWindowChars : Nat := 800

def maxTableHeaderChars : Nat := chunkWindowChars

/-- The bytes `start..stop` of a text. -/
structure Span where
  start : Nat
  stop : Nat
deriving DecidableEq

structure BreakPoint where
  pos : Nat
  score : Int
deriving DecidableEq

/-! ### Break patterns

Each gives the number of characters its match takes at the start of a text. -/

/-- The digit zeros of Unicode, each the first of ten `Decimal_Number` characters. -/
def digitZeros : List Nat :=
  [0x30, 0x660, 0x6F0, 0x7C0, 0x966, 0x9E6, 0xA66, 0xAE6, 0xB66, 0xBE6, 0xC66, 0xCE6, 0xD66, 0xDE6, 0xE50, 0xED0,
    0xF20, 0x1040, 0x1090, 0x17E0, 0x1810, 0x1946, 0x19D0, 0x1A80, 0x1A90, 0x1B50, 0x1BB0, 0x1C40, 0x1C50, 0xA620,
    0xA8D0, 0xA900, 0xA9D0, 0xA9F0, 0xAA50, 0xABF0, 0xFF10, 0x104A0, 0x10D30, 0x10D40, 0x11066, 0x110F0, 0x11136,
    0x111D0, 0x112F0, 0x11450, 0x114D0, 0x11650, 0x116C0, 0x116D0, 0x116DA, 0x11730, 0x118E0, 0x11950, 0x11BF0,
    0x11C50, 0x11D50, 0x11DA0, 0x11F50, 0x16A60, 0x16AC0, 0x16B50, 0x16D70, 0x1CCF0, 0x1D7CE, 0x1D7D8, 0x1D7E2,
    0x1D7EC, 0x1D7F6, 0x1E140, 0x1E2F0, 0x1E4F0, 0x1E5F1, 0x1E950, 0x1FBF0]

def isDecimalDigit (c : Char) : Bool := digitZeros.any fun first => first ≤ c.toNat && c.toNat < first + 10

/-- `\n#{level}[^#]` -/
def headingBreak (level : Nat) (text : List Char) : Option Nat :=
  match text with
  | '\n' :: rest =>
    match rest.drop level with
    | c :: _ => if (rest.take level).all (· == '#') && c != '#' then some (level + 2) else none
    | [] => none
  | _ => none

/-- `` \n``` `` -/
def fenceBreak : List Char → Option Nat
  | '\n' :: '`' :: '`' :: '`' :: _ => some 4
  | _ => none

/-- The characters of the white space at the start up to its last newline. -/
def throughLastNewline (text : List Char) : Option Nat :=
  let space := text.takeWhile isWhiteSpace
  if '\n' ∈ space then some (space.length - (space.reverse.takeWhile (· ≠ '\n')).length) else none

/-- `\n(?:---|\*\*\*|___)\s*\n` -/
def ruleBreak (text : List Char) : Option Nat :=
  match text with
  | '\n' :: a :: b :: c :: rest =>
    if a == b && b == c && (a == '-' || a == '*' || a == '_') then (throughLastNewline rest).map (· + 4) else none
  | _ => none

/-- `\n\n+` -/
def paragraphBreak (text : List Char) : Option Nat :=
  let run := (text.takeWhile (· = '\n')).length
  if 2 ≤ run then some run else none

/-- `\n[-*]\s` -/
def bulletBreak : List Char → Option Nat
  | '\n' :: mark :: c :: _ => if (mark == '-' || mark == '*') && isWhiteSpace c then some 3 else none
  | _ => none

/-- `\n\d+\.\s` -/
def numberedBreak (text : List Char) : Option Nat :=
  match text with
  | '\n' :: rest =>
    match rest.dropWhile isDecimalDigit with
    | '.' :: c :: _ =>
      let digits := (rest.takeWhile isDecimalDigit).length
      if digits != 0 && isWhiteSpace c then some (digits + 3) else none
    | _ => none
  | _ => none

/-- `\n` -/
def lineBreak : List Char → Option Nat
  | '\n' :: _ => some 1
  | _ => none

def breakPatterns : List ((List Char → Option Nat) × Int) :=
  [(headingBreak 1, 100), (headingBreak 2, 90), (headingBreak 3, 80), (headingBreak 4, 70), (headingBreak 5, 60),
    (headingBreak 6, 50), (fenceBreak, 80), (ruleBreak, 60), (paragraphBreak, 20), (bulletBreak, 5),
    (numberedBreak, 5), (lineBreak, 1)]

/-! ### Fences and break points -/

def fenceMark : List Char → Option Nat
  | '`' :: '`' :: '`' :: _ => some 3
  | _ => none

/-- The marks taken in pairs, the last of an odd number with the end of the text. -/
def pairFences (length : Nat) : List Nat → List Span
  | start :: close :: rest => ⟨start, close + 3⟩ :: pairFences length rest
  | [start] => [⟨start, length⟩]
  | [] => []

def scanCodeFences (text : List Char) : List Span := pairFences (byteLength text) (findIter fenceMark 0 0 text)

def insideFence (pos : Nat) (fences : List Span) : Bool := fences.any fun f => f.start < pos && pos < f.stop

/-- The entry of a position keeps the highest score it was seen with. -/
def note (seen : List BreakPoint) (found : BreakPoint) : List BreakPoint :=
  match seen with
  | [] => [⟨found.pos, max (-1) found.score⟩]
  | b :: rest =>
    if b.pos = found.pos then { b with score := max b.score found.score } :: rest else b :: note rest found

def scanBreakPoints (text : List Char) (fences : List Span) : List BreakPoint :=
  let found := breakPatterns.flatMap fun (pattern, score) =>
    ((findIter pattern 0 0 text).filter fun pos => !insideFence pos fences).map fun pos => BreakPoint.mk pos score
  (found.foldl note []).insertionSort fun a b => a.pos ≤ b.pos

/-- The order of `max_by`: the score, then the position. -/
def BreakPoint.beats (a b : BreakPoint) : Bool := b.score < a.score || (a.score == b.score && b.pos < a.pos)

def bestBreakInWindow (breakPoints : List BreakPoint) (windowStart windowEnd : Nat) : Option Nat :=
  ((breakPoints.filter fun b => windowStart ≤ b.pos && b.pos < windowEnd).foldl
    (fun best b => match best with
      | some a => if a.beats b then some a else some b
      | none => some b) none).map BreakPoint.pos

/-! ### Tables -/

/-- A pipe table: `start..dataStart` its header and separator rows, `dataStart..stop` its data rows. -/
structure PipeTable where
  start : Nat
  dataStart : Nat
  stop : Nat
deriving DecidableEq

def isTableRow (line : List Char) : Bool := (line.dropWhile isWhiteSpace).head? == some '|'

def isSeparatorRow (line : List Char) : Bool :=
  let cells := ((trimMatches (· = '|') (trimMatches isWhiteSpace line)).splitOn '|').map (trimMatches isWhiteSpace)
  cells.all fun c => !c.isEmpty && c.contains '-' && c.all fun ch => ch == '-' || ch == ':'

/-- The table a run of pipe rows makes, each row with its offset. -/
def flushRun (run : List (Nat × List Char)) : List PipeTable :=
  match run with
  | first :: second :: rest =>
    if isSeparatorRow second.2 then
      let last := rest.getLastD second
      let stop := last.1 + byteLength last.2
      [⟨first.1, (rest.head?.map Prod.fst).getD stop, stop⟩]
    else []
  | _ => []

def scanRows (fences : List Span) : Nat → List (Nat × List Char) → List (List Char) → List PipeTable
  | _, run, [] => flushRun run
  | offset, run, line :: rest =>
    if isTableRow line && !insideFence offset fences then
      scanRows fences (offset + byteLength line) (run ++ [(offset, line)]) rest
    else flushRun run ++ scanRows fences (offset + byteLength line) [] rest

def scanTables (text : List Char) (fences : List Span) : List PipeTable :=
  scanRows fences 0 [] (splitInclusive text)

/-- The start of the next row, or of this one when `pos` starts it. -/
def rowStart (text : List Char) (pos : Nat) : Nat :=
  if (takeBytes pos text).getLast? = some '\n' then pos
  else match findChar '\n' (dropBytes pos text) with
    | some i => pos + i + 1
    | none => byteLength text

def chunkAt (text : List Char) (span : Span) : Chunk := ⟨String.ofList (slice text span.start span.stop), span.start⟩

/-- The chunk made of one span of the text. -/
def carryTableHeader (text : List Char) (tables : List PipeTable) (span : Span) : Chunk :=
  match tables.find? fun t => t.start < span.start && span.start < t.stop with
  | none => chunkAt text span
  | some table =>
    if span.start < table.dataStart then chunkAt text ⟨table.start, span.stop⟩
    else
      let header := slice text table.start table.dataStart
      if byteLength header > maxTableHeaderChars then chunkAt text span
      else
        let row := rowStart text span.start
        if row ≥ span.stop ∨ row ≥ table.stop then chunkAt text span
        else ⟨String.ofList (header ++ slice text row span.stop), row⟩

/-! ### The sliding window -/

def forwardFrom (text : List Char) : Nat → Nat → Nat
  | 0, p => p
  | steps + 1, p => if isCharBoundary text p then p else forwardFrom text steps (p + 1)

def snapCharBoundaryForward (text : List Char) (pos : Nat) : Nat :=
  let p := min pos (byteLength text)
  forwardFrom text (byteLength text - p) p

def backwardFrom (text : List Char) : Nat → Nat
  | 0 => 0
  | p + 1 => if isCharBoundary text (p + 1) then p + 1 else backwardFrom text p

def snapCharBoundaryBackward (text : List Char) (pos : Nat) : Nat := backwardFrom text (min pos (byteLength text))

/-- Where the chunk that starts at `start` ends, when it is not the last. -/
def chunkEnd (text : List Char) (breakPoints : List BreakPoint) (start : Nat) : Nat :=
  let idealEnd := min (start + chunkSizeChars) (byteLength text)
  let windowStart := idealEnd - chunkWindowChars / 2
  let windowEnd := min (idealEnd + chunkWindowChars / 2) (byteLength text)
  let breakAt := (bestBreakInWindow breakPoints windowStart windowEnd).getD idealEnd
  snapCharBoundaryForward text (min breakAt (byteLength text))

/-- Where the chunk after one that ends at `stop` starts. -/
def nextStart (text : List Char) (stop : Nat) : Nat :=
  let start := snapCharBoundaryBackward text (stop - chunkOverlapChars)
  if start ≥ stop then stop else start

/-- The spans the loop takes from `start` on, in at most `rounds` rounds. -/
def spansFrom (text : List Char) (breakPoints : List BreakPoint) : Nat → Nat → List Span
  | 0, _ => []
  | rounds + 1, start =>
    if start < byteLength text then
      if min (start + chunkSizeChars) (byteLength text) = byteLength text then [⟨start, byteLength text⟩]
      else
        let stop := chunkEnd text breakPoints start
        ⟨start, stop⟩ :: spansFrom text breakPoints rounds (nextStart text stop)
    else []

def breakSpans (text : List Char) (breakPoints : List BreakPoint) : List Span :=
  if byteLength text ≤ chunkSizeChars then [⟨0, byteLength text⟩]
  else spansFrom text breakPoints (byteLength text + 1) 0

def chunkFromBreakPoints (text : List Char) (breakPoints : List BreakPoint) : List Chunk :=
  (breakSpans text breakPoints).map (chunkAt text)

def documentSpans (text : List Char) : List Span := breakSpans text (scanBreakPoints text (scanCodeFences text))

def chunkDocument (text : List Char) : List Chunk :=
  if byteLength text ≤ chunkSizeChars then [⟨String.ofList text, 0⟩]
  else (documentSpans text).map (carryTableHeader text (scanTables text (scanCodeFences text)))

/-- The first chunk, from a scan of the text up to the end of its window. -/
def firstChunk (text : List Char) : List Char :=
  if byteLength text ≤ chunkSizeChars then text
  else
    let windowStart := chunkSizeChars - chunkWindowChars / 2
    let windowEnd := min (chunkSizeChars + chunkWindowChars / 2) (byteLength text)
    let scanned := takeBytes (snapCharBoundaryForward text windowEnd) text
    let breakPoints := scanBreakPoints scanned (scanCodeFences scanned)
    let breakAt := (bestBreakInWindow breakPoints windowStart windowEnd).getD chunkSizeChars
    takeBytes (snapCharBoundaryForward text (min breakAt (byteLength text))) text

/-! ### Source code

`declarations` stands for the parsers: the starts of the declarations of a text in the language of an
extension, none where no grammar, no parse or no declaration is to be had. -/

def declarationBreaks (positions : List Nat) : List BreakPoint :=
  ((positions.insertionSort (· ≤ ·)).dedup).map fun pos => ⟨pos, 100⟩

def sourceBreaks (declarations : String → String → List Nat) (path text : String) : Option (List BreakPoint) :=
  (pathExtension path).bind fun ext =>
    if declarations ext text = [] then none else some (declarationBreaks (declarations ext text))

def chunkDocumentForPath (declarations : String → String → List Nat) (path text : String) : List Chunk :=
  match sourceBreaks declarations path text with
  | some breakPoints => chunkFromBreakPoints text.toList breakPoints
  | none => chunkDocument text.toList

def absDiff (a b : Nat) : Nat := (a - b) + (b - a)

/-- The first of the chunks that start nearest to `pos`. -/
def nearestChunk (chunks : List Chunk) (pos : Nat) : String × Nat :=
  match chunks with
  | [] => ("", 0)
  | first :: rest =>
    let nearest := Select.minBy (fun c => absDiff c.pos pos) first rest
    (nearest.text, nearest.pos)

end Rqmd.Chunking
