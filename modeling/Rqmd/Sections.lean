import Rqmd.Frontmatter
import Rqmd.TableHeaders

/-! The section a vector hit shows. The stored offset is one of the indexed text; the section is the chunk of
the raw file that starts nearest to it. -/

namespace Rqmd.Chunking
open Text

variable (declarations : String → String → List Nat) (path text : String)

/-! ### The chunks of a text and the bytes they hold -/

def pathSpans : List Span :=
  breakSpans text.toList
    ((sourceBreaks declarations path text).getD (scanBreakPoints text.toList (scanCodeFences text.toList)))

def pathTables : List PipeTable := scanTables text.toList (scanCodeFences text.toList)

def pathChunk (span : Span) : Chunk :=
  if (sourceBreaks declarations path text).isSome then chunkAt text.toList span
  else carryTableHeader text.toList (pathTables text) span

/-- The header a chunk repeats in front of the bytes at `pos`. -/
def pathHeader (pos : Nat) : List Char :=
  if (sourceBreaks declarations path text).isSome then [] else repeatedHeader text.toList (pathTables text) pos

/-- The chunks of a text, each with the bytes of the text it holds, a repeated header aside. -/
def placedChunks : List (Chunk × Span) :=
  (pathSpans declarations path text).map fun span =>
    (pathChunk declarations path text span, ⟨(pathChunk declarations path text span).pos, span.stop⟩)

variable {declarations path text}

theorem pathSpans_slides (declarations : String → String → List Nat) (path text : String) :
    Slides text.toList 0 (pathSpans declarations path text) := breakSpans_slides _ _

theorem shaped_pathChunk {span : Span} (member : span ∈ pathSpans declarations path text) :
    Shaped text.toList (pathHeader declarations path text) span (pathChunk declarations path text span) := by
  have cuts := (pathSpans_slides declarations path text).cuts span member
  by_cases source : (sourceBreaks declarations path text).isSome
  · simp only [pathChunk, if_pos source]
    exact shaped_chunkAt cuts (by simp only [pathHeader, if_pos source])
  · have header : pathHeader declarations path text = repeatedHeader text.toList (pathTables text) := by
      funext pos
      simp only [pathHeader, if_neg source]
    simp only [pathChunk, if_neg source, header]
    exact shaped_carryTableHeader (scanTables_apart _ _) cuts

theorem chunkDocumentForPath_eq :
    chunkDocumentForPath declarations path text =
      (pathSpans declarations path text).map (pathChunk declarations path text) := by
  unfold chunkDocumentForPath
  cases source : sourceBreaks declarations path text with
  | some breakPoints => simp [pathSpans, source, chunkFromBreakPoints, pathChunk]
  | none =>
    simp only [pathSpans, source, Option.getD_none, chunkDocument]
    split
    · next short =>
      simp [breakSpans_short short, pathChunk, source, carryTableHeader_around, chunkAt, slice_whole]
    · exact List.map_congr_left fun span _ => by simp [pathChunk, source, pathTables]

theorem placedChunks_fst :
    (placedChunks declarations path text).map Prod.fst = chunkDocumentForPath declarations path text := by
  rw [chunkDocumentForPath_eq, placedChunks, List.map_map]
  rfl

/-- What is known of a chunk and its bytes. -/
theorem placed_shaped {placed : Chunk × Span} (member : placed ∈ placedChunks declarations path text) :
    placed.2.start = placed.1.pos ∧
      Shaped text.toList (pathHeader declarations path text) placed.2 placed.1 := by
  obtain ⟨span, inside, rfl⟩ := List.mem_map.mp member
  have shaped := shaped_pathChunk inside
  exact ⟨rfl, shaped.content, shaped.boundary, shaped.ends, shaped.order, shaped.proper⟩

/-- The offset of a chunk and the end of its bytes determine its text, and the other way round. -/
theorem placed_text_iff {a b : Chunk × Span} (left : a ∈ placedChunks declarations path text)
    (right : b ∈ placedChunks declarations path text) (same : a.1.pos = b.1.pos) :
    a.1.text = b.1.text ↔ a.2.stop = b.2.stop := by
  obtain ⟨_, shapedA⟩ := placed_shaped left
  obtain ⟨_, shapedB⟩ := placed_shaped right
  rw [shapedA.content, shapedB.content, ← same]
  constructor
  · intro texts
    have slices := List.append_cancel_left (String.ofList_injective texts)
    have lengthA := byteLength_slice shapedA.boundary shapedA.ends shapedA.order
    have lengthB := byteLength_slice (same ▸ shapedB.boundary) shapedB.ends (same ▸ shapedB.order)
    rw [slices] at lengthA
    have orderA := shapedA.order
    have orderB := shapedB.order
    omega
  · intro stops
    rw [stops]

theorem placed_stops_ordered :
    (placedChunks declarations path text).Pairwise fun a b => a.2.stop ≤ b.2.stop := by
  have chain : (pathSpans declarations path text).IsChain fun a b => a.stop ≤ b.stop :=
    (pathSpans_slides declarations path text).chain.imp fun _ _ follows => follows.2.2.1
  have ordered : IsTrans Span fun a b => a.stop ≤ b.stop := ⟨fun _ _ _ => le_trans⟩
  exact List.pairwise_map.mpr (List.isChain_iff_pairwise.mp chain)

/-! ### The nearest chunk -/

/-- The first of the chunks that start nearest to `pos`, with its bytes. -/
def nearestPlaced (declarations : String → String → List Nat) (path text : String) (pos : Nat) : Chunk × Span :=
  match placedChunks declarations path text with
  | [] => (⟨"", 0⟩, ⟨0, 0⟩)
  | first :: rest => Select.minBy (fun placed => absDiff placed.1.pos pos) first rest

theorem placedChunks_ne_nil : placedChunks declarations path text ≠ [] := by
  have first := (pathSpans_slides declarations path text).first
  intro none
  rw [List.map_eq_nil_iff.mp none] at first
  simp at first

theorem nearestChunk_eq (pos : Nat) :
    nearestChunk (chunkDocumentForPath declarations path text) pos =
      ((nearestPlaced declarations path text pos).1.text, (nearestPlaced declarations path text pos).1.pos) := by
  rw [← placedChunks_fst, nearestPlaced]
  cases placedChunks declarations path text with
  | nil => rfl
  | cons first rest =>
    simp only [nearestChunk, List.map_cons]
    rw [Select.minBy_map (fun c : Chunk => absDiff c.pos pos) Prod.fst]

/-- Where the nearest chunk stands among the chunks. -/
theorem nearestPlaced_spec (declarations : String → String → List Nat) (path text : String) (pos : Nat) :
    ∃ before after, placedChunks declarations path text = before ++ nearestPlaced declarations path text pos :: after ∧
      (∀ p ∈ before, absDiff (nearestPlaced declarations path text pos).1.pos pos < absDiff p.1.pos pos) ∧
      ∀ p ∈ after, absDiff (nearestPlaced declarations path text pos).1.pos pos ≤ absDiff p.1.pos pos := by
  unfold nearestPlaced
  cases found : placedChunks declarations path text with
  | nil => exact absurd found placedChunks_ne_nil
  | cons first rest => exact Select.minBy_spec _ first rest

theorem nearestPlaced_mem (declarations : String → String → List Nat) (path text : String) (pos : Nat) :
    nearestPlaced declarations path text pos ∈ placedChunks declarations path text := by
  obtain ⟨before, after, place, _⟩ := nearestPlaced_spec declarations path text pos
  rw [place]
  exact List.mem_append_right _ List.mem_cons_self

/-- In a text longer than a chunk, the chunk nearest to the start is one that a window ended. -/
theorem nearestPlaced_zero (long : chunkSizeChars < byteLength text.toList) :
    (nearestPlaced declarations path text 0).2.stop < 4003 := by
  obtain ⟨before, after, parts, greater, least⟩ := nearestPlaced_spec declarations path text 0
  have size : chunkSizeChars = 3600 := rfl
  have more : 0 + chunkSizeChars < byteLength text.toList := by omega
  cases before with
  | nil =>
    -- the nearest chunk is the first, which ends in the first window
    unfold placedChunks pathSpans breakSpans at parts
    rw [if_neg (by omega), spansFrom, if_pos (by omega), if_neg (by omega)] at parts
    have first := (List.cons.inj parts).1
    have short := (chunkEnd_spec ((sourceBreaks declarations path text).getD
      (scanBreakPoints text.toList (scanCodeFences text.toList))) more).2.2.1
    rw [← first]
    simpa using short
  | cons first before =>
    have nearer := greater first List.mem_cons_self
    have start : first.1.pos = 0 := by
      unfold placedChunks pathSpans breakSpans at parts
      rw [if_neg (by omega), spansFrom, if_pos (by omega), if_neg (by omega)] at parts
      rw [← (List.cons.inj parts).1]
      simp only [pathChunk]
      split
      · rfl
      · simp [carryTableHeader_around, chunkAt]
    rw [start] at nearer
    exact absurd nearer (Nat.not_lt_zero _)

/-! ### The path a section is cut by -/

theorem takeWhile_before {p : Char → Bool} {l r : List Char} {c : Char} (stop : p c = false) :
    (l ++ c :: r).takeWhile p = l.takeWhile p := by
  induction l with
  | nil => simp [stop]
  | cons a l ih =>
    by_cases goes : p a = true
    · simp [goes, ih]
    · simp [goes]

/-- The collection in front of a path leaves its extension alone. -/
theorem pathExtension_filepath (collection : CollectionName) (path : String) :
    pathExtension (filepath collection path) = pathExtension path := by
  have reversed : (filepath collection path).toList.reverse = path.toList.reverse ++ '/' :: collection.text.toList.reverse := by
    simp [filepath, String.toList_append]
  unfold pathExtension
  rw [reversed, takeWhile_before (by decide)]

theorem placedChunks_filepath (collection : CollectionName) (path text : String) :
    placedChunks declarations (filepath collection path) text = placedChunks declarations path text := by
  have source : sourceBreaks declarations (filepath collection path) text = sourceBreaks declarations path text := by
    unfold sourceBreaks
    rw [pathExtension_filepath]
  have chunk : pathChunk declarations (filepath collection path) text = pathChunk declarations path text := by
    funext span
    unfold pathChunk
    rw [source]
  unfold placedChunks pathSpans
  rw [source, chunk]

/-! ### What a hit shows -/

/-- The section `search_vec_multi` shows for a hit whose stored offset is `pos`. -/
def shownSection (declarations : String → String → List Nat) (collection : CollectionName) (path raw : String)
    (pos : Nat) : String × Nat :=
  nearestChunk (chunkDocumentForPath declarations (filepath collection path) raw) pos

def bodyBytes (raw : String) : Nat := byteLength (Frontmatter.split raw.toList).2

def frontMatterBytes (raw : String) : Nat := byteLength raw.toList - bodyBytes raw

/-- The byte `o` of the raw file is one that the bytes `region` of the indexed text came from: the body
stands behind the front matter, and the terms behind the body were taken from the front matter. -/
def CameFrom (raw : String) (region : Span) (o : Nat) : Prop :=
  (frontMatterBytes raw + region.start ≤ o ∧ o < frontMatterBytes raw + min region.stop (bodyBytes raw)) ∨
    (bodyBytes raw + 1 < region.stop ∧ o < frontMatterBytes raw)

/-- A hit on the chunk `matched` of a file shows that chunk when the file is indexed as it is, and otherwise
a section that overlaps where the chunk came from. -/
def ShowsMatch (declarations : String → String → List Nat) (collection : CollectionName) (path raw : String)
    (matched : Chunk × Span) : Prop :=
  let shown := shownSection declarations collection path raw matched.1.pos
  (raw = indexedText raw → shown = (matched.1.text, matched.1.pos)) ∧
    (raw ≠ indexedText raw → ∃ region,
      (⟨shown.1, shown.2⟩, region) ∈ placedChunks declarations (filepath collection path) raw ∧
        ∃ o, region.start ≤ o ∧ o < region.stop ∧ CameFrom raw matched.2 o)

variable {collection : CollectionName} {raw : String}

theorem shownSection_eq (pos : Nat) :
    shownSection declarations collection path raw pos =
      ((nearestPlaced declarations path raw pos).1.text, (nearestPlaced declarations path raw pos).1.pos) := by
  have same : nearestPlaced declarations (filepath collection path) raw pos = nearestPlaced declarations path raw pos := by
    unfold nearestPlaced
    rw [placedChunks_filepath]
  rw [shownSection, nearestChunk_eq, same]

/-- A section is one chunk: its text and offset determine the bytes it holds. -/
theorem placed_unique {chunk : Chunk} {a b : Span} (left : (chunk, a) ∈ placedChunks declarations path text)
    (right : (chunk, b) ∈ placedChunks declarations path text) : a = b := by
  have stops : a.stop = b.stop := (placed_text_iff left right rfl).mp rfl
  have starts : a.start = b.start := ((placed_shaped left).1).trans ((placed_shaped right).1).symm
  cases a
  cases b
  simp_all

/-- The chunk nearest to the offset of a chunk of the same text is the first with that offset. -/
theorem nearest_is_first {i : Nat} {matched : Chunk × Span}
    (place : (placedChunks declarations path text)[i]? = some matched) :
    (nearestPlaced declarations path text matched.1.pos).1.pos = matched.1.pos ∧
      ∃ first ≤ i, (placedChunks declarations path text)[first]? =
          some (nearestPlaced declarations path text matched.1.pos) ∧
        ∀ j < first, ∀ p, (placedChunks declarations path text)[j]? = some p → p.1.pos ≠ matched.1.pos := by
  obtain ⟨before, after, parts, greater, least⟩ := nearestPlaced_spec declarations path text matched.1.pos
  have zero : ∀ c : Nat, absDiff c matched.1.pos = 0 ↔ c = matched.1.pos := by
    intro c
    unfold absDiff
    omega
  have self := (zero matched.1.pos).mpr rfl
  have position : before.length ≤ i := by
    by_contra early
    have inside : before[i]? = some matched := by
      rw [parts, List.getElem?_append_left (by omega)] at place
      exact place
    have := greater matched (List.mem_of_getElem? inside)
    omega
  have nearest : absDiff (nearestPlaced declarations path text matched.1.pos).1.pos matched.1.pos = 0 := by
    rw [parts, List.getElem?_append_right position] at place
    rcases List.mem_cons.mp (List.mem_of_getElem? place) with same | behind
    · rw [← same]
      exact self
    · have := least matched behind
      omega
  refine ⟨(zero _).mp nearest, before.length, position, ?_, fun j early p placed same => ?_⟩
  · conv => lhs; rw [parts]
    simp
  · rw [parts, List.getElem?_append_left early] at placed
    have := greater p (List.mem_of_getElem? placed)
    have := (zero p.1.pos).mpr same
    omega

theorem placed_stops_le {j k : Nat} {a b : Chunk × Span} (order : j < k)
    (left : (placedChunks declarations path text)[j]? = some a)
    (right : (placedChunks declarations path text)[k]? = some b) : a.2.stop ≤ b.2.stop := by
  obtain ⟨inA, atA⟩ := List.getElem?_eq_some_iff.mp left
  obtain ⟨inB, atB⟩ := List.getElem?_eq_some_iff.mp right
  have := List.pairwise_iff_getElem.mp placed_stops_ordered j k inA inB order
  rwa [atA, atB] at this

/-- The hit shows the matched chunk unless an earlier chunk of the text has its offset and ends before it. -/
theorem shows_whole_iff {i : Nat} {matched : Chunk × Span}
    (place : (placedChunks declarations path text)[i]? = some matched) :
    ((nearestPlaced declarations path text matched.1.pos).1.text,
      (nearestPlaced declarations path text matched.1.pos).1.pos) = (matched.1.text, matched.1.pos) ↔
      ∀ j < i, ∀ earlier, (placedChunks declarations path text)[j]? = some earlier →
        earlier.1.pos = matched.1.pos → earlier.2.stop = matched.2.stop := by
  obtain ⟨start, first, early, found, lone⟩ := nearest_is_first place
  have texts := placed_text_iff (List.mem_of_getElem? found) (List.mem_of_getElem? place) start
  constructor
  · intro shown j before earlier placed same
    have stops := texts.mp (Prod.mk.inj shown).1
    have upper := placed_stops_le before placed place
    rcases Nat.lt_trichotomy first j with later | equal | sooner
    · have := placed_stops_le later found placed
      omega
    · rw [equal, placed] at found
      rw [Option.some.inj found, stops]
    · exact absurd same (lone j sooner earlier placed)
  · intro alone
    have stops : (nearestPlaced declarations path text matched.1.pos).2.stop = matched.2.stop := by
      rcases Nat.lt_or_eq_of_le early with before | equal
      · exact alone first before _ found start
      · rw [equal, place] at found
        rw [← Option.some.inj found]
    rw [texts.mpr stops, start]

/-! ### The place of a chunk in the raw file -/

/-- The front matter is shorter than what the raw file's chunk `near` holds from the stored offset on, and
longer than the gap between the matched bytes and that chunk; or both reach into it. -/
def Reaches (raw : String) (matched near : Span) : Prop :=
  (matched.start < bodyBytes raw ∧ frontMatterBytes raw + matched.start < near.stop ∧
      near.start < frontMatterBytes raw + min matched.stop (bodyBytes raw)) ∨
    (bodyBytes raw + 1 < matched.stop ∧ near.start < frontMatterBytes raw)

theorem bodyBytes_le (raw : String) : bodyBytes raw ≤ byteLength (indexedText raw).toList := by
  obtain ⟨terms, parts⟩ := indexedText_prefix raw
  rw [parts, byteLength_append]
  exact Nat.le_add_right _ _

theorem overlaps_iff {matched near : Span} (some : near.start < near.stop)
    (order : matched.start < bodyBytes raw → matched.start < matched.stop) :
    (∃ o, near.start ≤ o ∧ o < near.stop ∧ CameFrom raw matched o) ↔ Reaches raw matched near := by
  unfold CameFrom Reaches
  constructor
  · rintro ⟨o, lower, upper, ⟨behind, before⟩ | ⟨terms, front⟩⟩
    · exact .inl ⟨by omega, by omega, by omega⟩
    · exact .inr ⟨terms, by omega⟩
  · rintro (⟨body, long, close⟩ | ⟨terms, front⟩)
    · have := order body
      exact ⟨max near.start (frontMatterBytes raw + matched.start), by omega, by omega, .inl ⟨by omega, by omega⟩⟩
    · exact ⟨near.start, by omega, some, .inr ⟨terms, front⟩⟩

/-- A section of the raw file overlaps where the matched bytes came from when the nearest chunk does. -/
theorem shows_place_iff {i : Nat} {matched : Chunk × Span} (stripped : raw ≠ indexedText raw)
    (place : (placedChunks declarations path (indexedText raw))[i]? = some matched) :
    (∃ region, (⟨(shownSection declarations collection path raw matched.1.pos).1,
        (shownSection declarations collection path raw matched.1.pos).2⟩, region) ∈
          placedChunks declarations (filepath collection path) raw ∧
        ∃ o, region.start ≤ o ∧ o < region.stop ∧ CameFrom raw matched.2 o) ↔
      Reaches raw matched.2 (nearestPlaced declarations path raw matched.1.pos).2 := by
  have member := nearestPlaced_mem declarations path raw matched.1.pos
  obtain ⟨starts, shaped⟩ := placed_shaped member
  obtain ⟨matchedStarts, matchedShaped⟩ := placed_shaped (List.mem_of_getElem? place)
  have nonEmpty : raw.toList ≠ [] := by
    intro none
    have empty : raw = "" := String.toList_inj.mp none
    exact stripped (empty ▸ (by decide : "" = indexedText ""))
  have near : (nearestPlaced declarations path raw matched.1.pos).2.start <
      (nearestPlaced declarations path raw matched.1.pos).2.stop := by
    have := shaped.proper nonEmpty
    omega
  have order : matched.2.start < bodyBytes raw → matched.2.start < matched.2.stop := by
    intro inBody
    have bound := bodyBytes_le raw
    have text : (indexedText raw).toList ≠ [] := by
      intro none
      rw [none, byteLength_nil] at bound
      omega
    have := matchedShaped.proper text
    omega
  rw [← overlaps_iff near order, shownSection_eq, placedChunks_filepath]
  constructor
  · rintro ⟨region, shown, overlap⟩
    have same : region = (nearestPlaced declarations path raw matched.1.pos).2 := placed_unique shown member
    rwa [same] at overlap
  · exact fun overlap => ⟨_, member, overlap⟩

def noteLine : List Char := "note: text\n".toList

/-- `count` lines of front matter before a one-line body. -/
def manyNotes (count : Nat) : String :=
  String.ofList ("---\n".toList ++ (List.replicate count noteLine).flatten ++ "---\nshort body\n".toList)

theorem toList_manyNotes (count : Nat) : (manyNotes count).toList =
    "---\n".toList ++ ((List.replicate count noteLine).flatten ++ "---\nshort body\n".toList) := by
  unfold manyNotes
  simp only [String.toList_ofList, List.append_assoc]

theorem splitInclusive_notes (count : Nat) (rest : List Char) :
    splitInclusive ((List.replicate count noteLine).flatten ++ rest) = List.replicate count noteLine ++ splitInclusive rest := by
  induction count with
  | zero => rfl
  | succ count ih =>
    have line : noteLine = "note: text".toList ++ ['\n'] := by decide
    have cut := splitInclusive_line (show '\n' ∉ "note: text".toList by decide)
      ((List.replicate count noteLine).flatten ++ rest)
    rw [List.replicate_succ, List.flatten_cons, List.cons_append, ← ih, List.append_assoc]
    rw [line] at cut ⊢
    simpa using cut

theorem untilClosing_notes (count : Nat) (rest : List (List Char)) :
    Frontmatter.untilClosing (List.replicate count noteLine ++ "---\n".toList :: rest) =
      some ((List.replicate count noteLine).flatten, rest.flatten) := by
  induction count with
  | zero => rfl
  | succ count ih =>
    have open' : Frontmatter.isClosing noteLine = false := by decide
    rw [List.replicate_succ, List.cons_append, Frontmatter.untilClosing, open', ih]
    rfl

theorem scan_notes (count : Nat) :
    (List.replicate count "note: text".toList).foldl Frontmatter.Scan.line ⟨none, [], none⟩ = ⟨none, [], none⟩ := by
  have still : Frontmatter.Scan.line ⟨none, [], none⟩ "note: text".toList = ⟨none, [], none⟩ := by decide
  induction count with
  | zero => rfl
  | succ count ih => rw [List.replicate_succ, List.foldl_cons, still, ih]

theorem parseBlock_notes (count : Nat) :
    Frontmatter.parseBlock (List.replicate count noteLine).flatten = ⟨none, []⟩ := by
  have pieces := splitInclusive_notes count []
  have line : lineOf noteLine = "note: text".toList := by decide
  have lines : Text.lines (List.replicate count noteLine).flatten = List.replicate count "note: text".toList := by
    rw [List.append_nil] at pieces
    rw [Text.lines, pieces, splitInclusive, List.append_nil, List.map_replicate, line]
  simp only [Frontmatter.parseBlock, lines, scan_notes]

theorem split_notes (count : Nat) :
    Frontmatter.split (manyNotes count).toList = (some ⟨none, []⟩, "short body\n".toList) := by
  have behind : splitInclusive "---\nshort body\n".toList = ["---\n".toList, "short body\n".toList] := by decide
  have pieces : splitInclusive (manyNotes count).toList = "---\n".toList ::
      (List.replicate count noteLine ++ "---\n".toList :: ["short body\n".toList]) := by
    have opening := splitInclusive_line (show '\n' ∉ "---".toList by decide)
      ((List.replicate count noteLine).flatten ++ "---\nshort body\n".toList)
    rw [splitInclusive_notes, behind] at opening
    rw [toList_manyNotes]
    exact opening
  have fenced : Frontmatter.fenced (manyNotes count).toList =
      some ((List.replicate count noteLine).flatten, "short body\n".toList) := by
    rw [Frontmatter.fenced, pieces]
    simp only
    rw [if_pos (by decide), untilClosing_notes]
    rfl
  rw [Frontmatter.split, fenced]
  simp only [parseBlock_notes]

theorem byteLength_notes (count : Nat) : byteLength (manyNotes count).toList = 11 * count + 19 := by
  have lines : byteLength (List.replicate count noteLine).flatten = 11 * count := by
    induction count with
    | zero => rfl
    | succ count ih =>
      have line : byteLength noteLine = 11 := by decide
      rw [List.replicate_succ, List.flatten_cons, byteLength_append, ih, line]
      omega
  have head : byteLength "---\n".toList = 4 := by decide
  have tail : byteLength "---\nshort body\n".toList = 15 := by decide
  rw [toList_manyNotes, byteLength_append, byteLength_append, lines, head, tail]
  omega

theorem indexedText_notes (count : Nat) : indexedText (manyNotes count) = "short body\n" := by
  simp only [indexedText, split_notes, List.isEmpty_nil, if_true]
  exact String.ofList_toList

theorem place_notes (count : Nat) : (placedChunks (fun _ _ => []) "a.md" (indexedText (manyNotes count)))[0]? =
    some (⟨"short body\n", 0⟩, ⟨0, 11⟩) := by
  rw [indexedText_notes]
  decide +kernel

/-- From 400 lines on, the front matter is longer than the first chunk of the raw file. -/
theorem notes_missed (collection : CollectionName) {count : Nat} (many : 400 ≤ count) :
    ¬ ShowsMatch (fun _ _ => []) collection "a.md" (manyNotes count) (⟨"short body\n", 0⟩, ⟨0, 11⟩) := by
  have length := byteLength_notes count
  have body : bodyBytes (manyNotes count) = 11 := by
    rw [bodyBytes, split_notes]
    decide
  have stripped : manyNotes count ≠ indexedText (manyNotes count) := by
    intro same
    have short := congrArg (fun s : String => byteLength s.toList) same
    have eleven : byteLength "short body\n".toList = 11 := by decide
    simp only [length, indexedText_notes, eleven] at short
    omega
  have size : chunkSizeChars = 3600 := rfl
  have near := @nearestPlaced_zero (fun _ _ => []) "a.md" (manyNotes count) (by omega)
  intro shows
  have reaches := (shows_place_iff stripped (place_notes count)).mp (shows.2 stripped)
  unfold Reaches frontMatterBytes at reaches
  simp only [body, length] at reaches
  omega

end Rqmd.Chunking
