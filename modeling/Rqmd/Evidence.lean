import Rqmd.Document
import Rqmd.Hybrid
import Rqmd.SearchPages
import Rqmd.Sections

/-! What a further section of a file adds. The picker cuts the text the sections before it show off a chunk by
offsets and text lengths; these are those of the bytes shown as long as no chunk repeats a table header. -/

namespace Rqmd.Chunking
open Text

/-! ### Intervals -/

/-- What is left of an interval without another. -/
def without (s o : Span) : List Span :=
  if o.start < s.stop ∧ s.start < o.stop then
    [⟨s.start, o.start⟩, ⟨o.stop, s.stop⟩].filter fun p => p.start < p.stop
  else [s]

def Span.Holds (s : Span) (i : Nat) : Prop := s.start ≤ i ∧ i < s.stop

theorem holds_without {s o : Span} {i : Nat} :
    (∃ p ∈ without s o, p.Holds i) ↔ s.Holds i ∧ ¬ o.Holds i := by
  unfold without Span.Holds
  split
  · simp only [List.mem_filter, List.mem_cons, List.not_mem_nil, or_false, decide_eq_true_eq]
    constructor
    · rintro ⟨p, ⟨rfl | rfl, _⟩, early, late⟩
      · simp only at early late
        omega
      · simp only at early late
        omega
    · rintro ⟨inside, outside⟩
      by_cases before : i < o.start
      · exact ⟨_, ⟨.inl rfl, by simp only; omega⟩, by simp only; omega, before⟩
      · exact ⟨_, ⟨.inr rfl, by simp only; omega⟩, by simp only; omega, inside.2⟩
  · next apart =>
    simp only [List.mem_singleton, exists_eq_left]
    omega

/-- What is left of intervals without others. -/
def withoutAll (spans others : List Span) : List Span := others.foldl (fun left o => left.flatMap fun s => without s o) spans

/-! ### What a chunk shows -/

section Shown
variable (declarations : String → String → List Nat) (path text : String)

/-- The header rows a chunk repeats, where they stand in the text. -/
def headerSpan (pos : Nat) : Option Span :=
  if (sourceBreaks declarations path text).isSome then none
  else match tableAround (pathTables text) pos with
    | some table =>
      if table.dataStart ≤ pos ∧ byteLength (slice text.toList table.start table.dataStart) ≤ maxTableHeaderChars ∧
        (takeBytes pos text.toList).getLast? = some '\n' then some ⟨table.start, table.dataStart⟩ else none
    | none => none

def RepeatsHeader (chunk : Chunk) : Prop := (headerSpan declarations path text chunk.pos).isSome = true

/-- The bytes of the text a chunk holds, the repeated header aside. -/
def bodySpan (chunk : Chunk) : Span :=
  ⟨chunk.pos, chunk.pos + (byteLength chunk.text.toList - byteLength (pathHeader declarations path text chunk.pos))⟩

/-- All bytes of the text a chunk shows. -/
def shownSpans (chunk : Chunk) : List Span :=
  match headerSpan declarations path text chunk.pos with
  | some header =>
    if header.stop = chunk.pos then [⟨header.start, (bodySpan declarations path text chunk).stop⟩]
    else [header, bodySpan declarations path text chunk]
  | none => [bodySpan declarations path text chunk]

/-- The parts of the text a chunk shows and none of the earlier ones does. -/
def newSpans (chunk : Chunk) (earlier : List Chunk) : List Span :=
  withoutAll (shownSpans declarations path text chunk) (earlier.flatMap (shownSpans declarations path text))

/-- A query term occurs in text that is new with a chunk. -/
def NewMatch (lowercase : String → String) (terms : List String) (chunk : Chunk) (earlier : List Chunk) : Prop :=
  ∃ s ∈ newSpans declarations path text chunk earlier, ∃ t ∈ terms,
    occursIn t (lowercase (String.ofList (slice text.toList s.start s.stop))) = true

end Shown

variable {declarations : String → String → List Nat} {path text : String}

theorem pathHeader_eq (pos : Nat) :
    pathHeader declarations path text pos = match headerSpan declarations path text pos with
      | some header => slice text.toList header.start header.stop
      | none => [] := by
  unfold pathHeader headerSpan repeatedHeader
  by_cases source : (sourceBreaks declarations path text).isSome
  · rw [if_pos source, if_pos source]
  · rw [if_neg source, if_neg source]
    cases tableAround (pathTables text) pos with
    | none => rfl
    | some table =>
      dsimp only
      split <;> rfl

theorem shownSpans_bare {chunk : Chunk} (none : headerSpan declarations path text chunk.pos = Option.none) :
    shownSpans declarations path text chunk = [⟨chunk.pos, chunk.pos + byteLength chunk.text.toList⟩] := by
  rw [shownSpans, bodySpan, pathHeader_eq, none]
  rfl

theorem shownSpans_headed {chunk : Chunk} {header : Span}
    (repeated : headerSpan declarations path text chunk.pos = some header) (apart : header.stop ≠ chunk.pos) :
    shownSpans declarations path text chunk = [header, ⟨chunk.pos, chunk.pos +
      (byteLength chunk.text.toList - byteLength (slice text.toList header.start header.stop))⟩] := by
  rw [shownSpans, bodySpan, pathHeader_eq, repeated]
  exact if_neg apart

theorem bodySpan_placed {placed : Chunk × Span} (member : placed ∈ placedChunks declarations path text) :
    bodySpan declarations path text placed.1 = placed.2 := by
  obtain ⟨start, shaped⟩ := placed_shaped member
  have length := byteLength_slice shaped.boundary shaped.ends shaped.order
  have order := shaped.order
  have size := congrArg (fun shown => byteLength shown.toList) shaped.content
  simp only [String.toList_ofList, byteLength_append, length] at size
  have stop : placed.1.pos + (byteLength placed.1.text.toList - byteLength (pathHeader declarations path text placed.1.pos)) =
      placed.2.stop := by omega
  rw [bodySpan, stop, ← start]

/-- A chunk without a repeated header shows the bytes from its place on, and these are its text. -/
theorem plain_chunk {placed : Chunk × Span} (member : placed ∈ placedChunks declarations path text)
    (plain : ¬ RepeatsHeader declarations path text placed.1) :
    shownSpans declarations path text placed.1 = [placed.2] ∧
      placed.1.text.toList = slice text.toList placed.1.pos placed.2.stop ∧
      placed.2.stop = placed.1.pos + byteLength placed.1.text.toList := by
  have none : headerSpan declarations path text placed.1.pos = Option.none := by
    rwa [RepeatsHeader, Bool.not_eq_true, Option.isSome_eq_false_iff, Option.isNone_iff_eq_none] at plain
  have bare : pathHeader declarations path text placed.1.pos = [] := by rw [pathHeader_eq, none]
  obtain ⟨_, shaped⟩ := placed_shaped member
  have content := shaped.content
  have body := bodySpan_placed member
  rw [bare, List.nil_append] at content
  refine ⟨by rw [shownSpans, none, body], by rw [content, String.toList_ofList], ?_⟩
  have length := byteLength_slice shaped.boundary shaped.ends shaped.order
  have order := shaped.order
  rw [content, String.toList_ofList, length]
  omega

/-- Of two chunks the one that starts earlier ends no later. -/
theorem stops_mono {a b : Chunk × Span} (left : a ∈ placedChunks declarations path text)
    (right : b ∈ placedChunks declarations path text) (order : a.1.pos < b.1.pos) : a.2.stop ≤ b.2.stop := by
  have slides := pathSpans_slides declarations path text
  have chain : (pathSpans declarations path text).IsChain fun a b => a.start < b.start ∧ a.stop ≤ b.stop :=
    slides.chain.imp fun _ _ follows => ⟨follows.1, follows.2.2.1⟩
  have ordered : IsTrans Span fun a b => a.start < b.start ∧ a.stop ≤ b.stop :=
    ⟨fun _ _ _ one other => ⟨one.1.trans other.1, one.2.trans other.2⟩⟩
  have either := (List.isChain_iff_pairwise.mp chain).imp (S := fun a b : Span => (a.start < b.start ∧ a.stop ≤ b.stop) ∨
    (b.start < a.start ∧ b.stop ≤ a.stop)) fun order => Or.inl order
  have symmetric : Std.Symm fun a b : Span => (a.start < b.start ∧ a.stop ≤ b.stop) ∨ (b.start < a.start ∧ b.stop ≤ a.stop) :=
    ⟨fun _ _ => Or.symm⟩
  obtain ⟨span, listed, rfl⟩ := List.mem_map.mp left
  obtain ⟨span', listed', rfl⟩ := List.mem_map.mp right
  simp only at order ⊢
  by_cases same : span = span'
  · rw [same]
  · rcases either.forall listed listed' same with before | behind
    · exact before.2
    · -- the other way round the places would be in the other order
      have places : (pathChunk declarations path text span').pos ≤ (pathChunk declarations path text span).pos := by
        by_cases source : (sourceBreaks declarations path text).isSome
        · simp only [pathChunk, if_pos source, chunkAt]
          omega
        · simp only [pathChunk, if_neg source]
          exact place_mono (slides.cuts span' listed') (slides.cuts span listed) behind.1 behind.2
      omega

/-! ### The cut of the picker -/

/-- The interval of the text that a cover of a chunk at `pos` leaves. -/
def leftOver (pos : Nat) (cover : Nat × Nat) : List Span :=
  if cover.1 < cover.2 then [⟨pos + cover.1, pos + cover.2⟩] else []

/-- One step of the cover takes the bytes of the other chunk away. -/
theorem leftOver_coverStep {chunk other : Chunk} {cover : Nat × Nat} (bound : cover.2 ≤ byteLength chunk.text.toList)
    (later : chunk.pos < other.pos →
      chunk.pos + byteLength chunk.text.toList ≤ other.pos + byteLength other.text.toList) :
    (leftOver chunk.pos cover).flatMap (fun s => without s ⟨other.pos, other.pos + byteLength other.text.toList⟩) =
      leftOver chunk.pos (coverStep chunk cover other) := by
  obtain ⟨lower, upper⟩ := cover
  dsimp only at bound
  by_cases some : lower < upper
  · have one : leftOver chunk.pos (lower, upper) = [⟨chunk.pos + lower, chunk.pos + upper⟩] := if_pos some
    rw [one, List.flatMap_singleton]
    unfold without coverStep leftOver
    dsimp only
    by_cases before : other.pos ≤ chunk.pos ∧ chunk.pos < other.pos + byteLength other.text.toList
    · rw [if_pos before]
      by_cases meets : chunk.pos + lower < other.pos + byteLength other.text.toList
      · rw [if_pos ⟨by omega, meets⟩, List.filter_cons_of_neg (by simp; omega)]
        by_cases rest : other.pos + byteLength other.text.toList < chunk.pos + upper
        · rw [List.filter_cons_of_pos (by simpa using rest), if_pos (by dsimp only; omega)]
          have same : chunk.pos + max lower (min (other.pos + byteLength other.text.toList - chunk.pos)
              (byteLength chunk.text.toList)) = other.pos + byteLength other.text.toList := by omega
          simp only [List.filter_nil, same]
        · rw [List.filter_cons_of_neg (by simpa using rest), if_neg (by dsimp only; omega)]
          rfl
      · rw [if_neg (by omega), if_pos (by dsimp only; omega)]
        have same : max lower (min (other.pos + byteLength other.text.toList - chunk.pos)
            (byteLength chunk.text.toList)) = lower := by omega
        simp only [same]
    · rw [if_neg before]
      by_cases behind : chunk.pos < other.pos ∧ other.pos < chunk.pos + byteLength chunk.text.toList
      · rw [if_pos behind]
        have far := later behind.1
        by_cases meets : other.pos < chunk.pos + upper
        · rw [if_pos ⟨meets, by omega⟩]
          by_cases rest : chunk.pos + lower < other.pos
          · rw [List.filter_cons_of_pos (by simpa using rest), List.filter_cons_of_neg (by simp; omega),
              if_pos (by dsimp only; omega)]
            have same : chunk.pos + min upper (other.pos - chunk.pos) = other.pos := by omega
            simp only [List.filter_nil, same]
          · rw [List.filter_cons_of_neg (by simpa using rest), List.filter_cons_of_neg (by simp; omega),
              if_neg (by dsimp only; omega)]
            rfl
        · rw [if_neg (by omega), if_pos (by dsimp only; omega)]
          have same : min upper (other.pos - chunk.pos) = upper := by omega
          simp only [same]
      · rw [if_neg behind, if_neg (by omega), if_pos some]
  · have none : leftOver chunk.pos (lower, upper) = [] := if_neg some
    have shrinks : ¬ (coverStep chunk (lower, upper) other).1 < (coverStep chunk (lower, upper) other).2 := by
      unfold coverStep
      dsimp only
      split
      · dsimp only
        omega
      · split
        · dsimp only
          omega
        · exact some
    rw [none, leftOver, if_neg shrinks]
    rfl

/-- A plain chunk and plain earlier ones: the cover leaves just what is new. -/
theorem newSpans_plain {chunk : Chunk × Span} (member : chunk ∈ placedChunks declarations path text)
    (plain : ¬ RepeatsHeader declarations path text chunk.1) (some : 0 < byteLength chunk.1.text.toList)
    {earlier : List Chunk} (members : ∀ o ∈ earlier, ∃ span, (o, span) ∈ placedChunks declarations path text)
    (plains : ∀ o ∈ earlier, ¬ RepeatsHeader declarations path text o) :
    newSpans declarations path text chunk.1 earlier =
      leftOver chunk.1.pos (earlier.foldl (coverStep chunk.1) (0, byteLength chunk.1.text.toList)) := by
  have onward : ∀ cover : Nat × Nat,
      cover.1 ≤ byteLength chunk.1.text.toList ∧ cover.2 ≤ byteLength chunk.1.text.toList →
      withoutAll (leftOver chunk.1.pos cover) (earlier.flatMap (shownSpans declarations path text)) =
        leftOver chunk.1.pos (earlier.foldl (coverStep chunk.1) cover) := by
    induction earlier with
    | nil => exact fun _ _ => rfl
    | cons o rest later =>
      intro cover bounds
      obtain ⟨span, listed⟩ := members o List.mem_cons_self
      obtain ⟨shown, _, stop⟩ := plain_chunk listed (plains o List.mem_cons_self)
      obtain ⟨start, _⟩ := placed_shaped listed
      obtain ⟨_, _, stop'⟩ := plain_chunk member plain
      have span' : span = ⟨o.pos, o.pos + byteLength o.text.toList⟩ := by
        cases span
        simp only at start stop
        rw [start, stop]
      have order : chunk.1.pos < o.pos →
          chunk.1.pos + byteLength chunk.1.text.toList ≤ o.pos + byteLength o.text.toList := by
        intro before
        have stops := stops_mono member listed before
        simp only at stops stop
        omega
      have step := leftOver_coverStep bounds.2 order
      rw [List.flatMap_cons, shown, List.foldl_cons, ← later (fun d inside => members d (List.mem_cons_of_mem o inside))
        (fun d inside => plains d (List.mem_cons_of_mem o inside)) _ (coverStep_bounds o bounds).2, ← step, span']
      rfl
  obtain ⟨shown, _, stop⟩ := plain_chunk member plain
  obtain ⟨start, _⟩ := placed_shaped member
  have whole : [chunk.2] = leftOver chunk.1.pos (0, byteLength chunk.1.text.toList) := by
    rw [leftOver, if_pos some, Nat.add_zero, ← stop, ← start]
  rw [newSpans, shown, whole, onward _ ⟨Nat.zero_le _, Nat.le_refl _⟩]

/-- The ends of the cover of a plain chunk by plain ones are boundaries. -/
theorem cover_boundary {chunk : Chunk × Span} (member : chunk ∈ placedChunks declarations path text)
    (plain : ¬ RepeatsHeader declarations path text chunk.1) {earlier : List Chunk}
    (members : ∀ o ∈ earlier, ∃ span, (o, span) ∈ placedChunks declarations path text)
    (plains : ∀ o ∈ earlier, ¬ RepeatsHeader declarations path text o) {cover : Nat × Nat}
    (starts : isCharBoundary text.toList (chunk.1.pos + cover.1) = true)
    (stops : isCharBoundary text.toList (chunk.1.pos + cover.2) = true) :
    isCharBoundary text.toList (chunk.1.pos + (earlier.foldl (coverStep chunk.1) cover).1) = true ∧
      isCharBoundary text.toList (chunk.1.pos + (earlier.foldl (coverStep chunk.1) cover).2) = true := by
  induction earlier generalizing cover with
  | nil => exact ⟨starts, stops⟩
  | cons o rest later =>
    obtain ⟨span, listed⟩ := members o List.mem_cons_self
    obtain ⟨_, _, stop⟩ := plain_chunk listed (plains o List.mem_cons_self)
    obtain ⟨_, shaped⟩ := placed_shaped listed
    obtain ⟨_, _, stop'⟩ := plain_chunk member plain
    obtain ⟨_, shaped'⟩ := placed_shaped member
    have finish := shaped.ends
    have finish' := shaped'.ends
    have start := shaped.boundary
    simp only at stop finish start
    rw [stop] at finish
    rw [stop'] at finish'
    rw [List.foldl_cons]
    refine later (fun d inside => members d (List.mem_cons_of_mem o inside))
      (fun d inside => plains d (List.mem_cons_of_mem o inside)) ?_ ?_
    · unfold coverStep
      dsimp only
      split
      · next before =>
        dsimp only
        rcases Nat.le_total cover.1 (min (o.pos + byteLength o.text.toList - chunk.1.pos) (byteLength chunk.1.text.toList)) with
          low | high
        · rw [Nat.max_eq_right low]
          rcases Nat.le_total (o.pos + byteLength o.text.toList - chunk.1.pos) (byteLength chunk.1.text.toList) with
            short | long
          · rw [Nat.min_eq_left short, show chunk.1.pos + (o.pos + byteLength o.text.toList - chunk.1.pos) =
              o.pos + byteLength o.text.toList by omega]
            exact finish
          · rw [Nat.min_eq_right long]
            exact finish'
        · rw [Nat.max_eq_left high]
          exact starts
      · split
        · exact starts
        · exact starts
    · unfold coverStep
      dsimp only
      split
      · exact stops
      · split
        · next behind =>
          dsimp only
          rcases Nat.le_total cover.2 (o.pos - chunk.1.pos) with low | high
          · rw [Nat.min_eq_left low]
            exact stops
          · rw [Nat.min_eq_right high, show chunk.1.pos + (o.pos - chunk.1.pos) = o.pos by omega]
            exact start
        · exact stops

theorem uncoveredText_eq (chunk : Chunk) (earlier : List Chunk) :
    uncoveredText chunk earlier =
      (let text := chunk.text.toList
       let cover := earlier.foldl (coverStep chunk) (0, byteLength text)
       let stop := max cover.2 cover.1
       if isCharBoundary text cover.1 && isCharBoundary text stop then slice text cover.1 stop else text) := rfl

/-- A term that is not the empty one does not occur in nothing. -/
theorem not_occursIn_empty {term : String} (word : term ≠ "") : occursIn term "" = false := by
  have letters : term.toList ≠ [] := fun nothing => word (String.toList_injective (by simpa using nothing))
  cases chars : term.toList with
  | nil => exact absurd chars letters
  | cons c cs => simp [occursIn, chars]

/-- The test of the picker on plain chunks is whether a term occurs in what is new. -/
theorem fresh_iff {lowercase : String → String} (empty : lowercase "" = "") {terms : List String}
    (words : ∀ t ∈ terms, t ≠ "") {chunk : Chunk × Span} (member : chunk ∈ placedChunks declarations path text)
    (plain : ¬ RepeatsHeader declarations path text chunk.1) (some : 0 < byteLength chunk.1.text.toList)
    {earlier : List Chunk} (members : ∀ o ∈ earlier, ∃ span, (o, span) ∈ placedChunks declarations path text)
    (plains : ∀ o ∈ earlier, ¬ RepeatsHeader declarations path text o) :
    (terms.any fun t => occursIn t (lowercase (String.ofList (uncoveredText chunk.1 earlier)))) = true ↔
      NewMatch declarations path text lowercase terms chunk.1 earlier := by
  obtain ⟨_, content, stop⟩ := plain_chunk member plain
  obtain ⟨_, shaped⟩ := placed_shaped member
  have bounds := @coverFold_bounds chunk.1 earlier (0, byteLength chunk.1.text.toList)
    ⟨Nat.zero_le _, Nat.le_refl _⟩
  have ends : isCharBoundary text.toList (chunk.1.pos + byteLength chunk.1.text.toList) = true := by
    rw [← stop]
    exact shaped.ends
  have boundaries : isCharBoundary text.toList (chunk.1.pos +
        (earlier.foldl (coverStep chunk.1) (0, byteLength chunk.1.text.toList)).1) = true ∧
      isCharBoundary text.toList (chunk.1.pos +
        (earlier.foldl (coverStep chunk.1) (0, byteLength chunk.1.text.toList)).2) = true :=
    cover_boundary member plain members plains shaped.boundary ends
  have spans := newSpans_plain member plain some members plains
  have uncovered := uncoveredText_eq chunk.1 earlier
  dsimp only at uncovered
  generalize earlier.foldl (coverStep chunk.1) (0, byteLength chunk.1.text.toList) = cover at bounds boundaries spans uncovered
  have reach : chunk.1.pos + cover.1 ≤ chunk.2.stop ∧ chunk.1.pos + cover.2 ≤ chunk.2.stop := by omega
  have first : isCharBoundary chunk.1.text.toList cover.1 = true := by
    rw [content, isCharBoundary_slice shaped.boundary reach.1]
    exact boundaries.1
  have second : isCharBoundary chunk.1.text.toList cover.2 = true := by
    rw [content, isCharBoundary_slice shaped.boundary reach.2]
    exact boundaries.2
  rw [NewMatch, spans]
  by_cases some' : cover.1 < cover.2
  · have inner : slice chunk.1.text.toList cover.1 cover.2 =
        slice text.toList (chunk.1.pos + cover.1) (chunk.1.pos + cover.2) := by
      rw [content]
      exact slice_slice shaped.boundary boundaries.1 boundaries.2 (Nat.le_of_lt some') reach.2
    rw [Nat.max_eq_left (Nat.le_of_lt some'), first, second, Bool.and_self, if_pos rfl, inner] at uncovered
    rw [uncovered, leftOver, if_pos some']
    simp only [List.any_eq_true, List.mem_singleton, exists_eq_left]
  · have nothing : slice chunk.1.text.toList cover.1 cover.1 = [] := by
      have size := byteLength_slice first first (Nat.le_refl _)
      by_contra long
      have positive := byteLength_pos long
      omega
    rw [Nat.max_eq_right (Nat.le_of_not_lt some'), first, Bool.and_self, if_pos rfl, nothing] at uncovered
    rw [uncovered, leftOver, if_neg some', String.ofList_nil, empty]
    constructor
    · intro found
      obtain ⟨t, term, occurs⟩ := List.any_eq_true.mp found
      rw [not_occursIn_empty (words t term)] at occurs
      cases occurs
    · rintro ⟨s, impossible, _⟩
      simp at impossible

/-! ### The turns of the picker -/

section Turns
variable (lowercase : String → String) (terms : List String) (n : Nat)

/-- The chunks picked when the chunks of `front` have had their turn. -/
def picks (front : List ScoredChunk) : List Chunk := pickChunks lowercase terms n front []

/-- A later turn only adds to the picks. -/
theorem pickChunks_extends (rest : List ScoredChunk) (picked : List Chunk) :
    ∃ after, pickChunks lowercase terms n rest picked = picked ++ after := by
  induction rest generalizing picked with
  | nil => exact ⟨[], (List.append_nil _).symm⟩
  | cons c rest later =>
    rw [pickChunks]
    split
    · exact ⟨[], (List.append_nil _).symm⟩
    · dsimp only
      split
      · obtain ⟨after, whole⟩ := later (picked ++ [c.chunk])
        exact ⟨c.chunk :: after, by rw [whole, List.append_assoc, List.singleton_append]⟩
      · exact later picked

/-- Chunks without a hit are not picked any more. -/
theorem pickChunks_stopped {rest : List ScoredChunk} {picked : List Chunk} (some : picked ≠ [])
    (none : ∀ c ∈ rest, c.hits = 0) : pickChunks lowercase terms n rest picked = picked := by
  cases rest with
  | nil => rfl
  | cons c rest => rw [pickChunks, if_pos (.inr ⟨some, none c List.mem_cons_self⟩)]

/-- In the order of the hits the picker takes one chunk after the other. -/
theorem pickChunks_append {front rest : List ScoredChunk} (sorted : (front ++ rest).Pairwise fun a b => b.hits ≤ a.hits)
    (picked : List Chunk) :
    pickChunks lowercase terms n (front ++ rest) picked =
      pickChunks lowercase terms n rest (pickChunks lowercase terms n front picked) := by
  induction front generalizing picked with
  | nil => rfl
  | cons c front later =>
    obtain ⟨first, onward⟩ := List.pairwise_cons.mp sorted
    rw [List.cons_append, pickChunks, pickChunks]
    split
    · next stop =>
      rcases stop with full | ⟨some, none⟩
      · cases rest with
        | nil => rfl
        | cons d rest => rw [pickChunks, if_pos (.inl full)]
      · refine (pickChunks_stopped lowercase terms n some fun d member => ?_).symm
        have fewer := first d (List.mem_append_right front member)
        omega
    · dsimp only
      split
      · exact later onward _
      · exact later onward _

/-- The test a chunk has to pass behind the first pick. -/
def Accepts (c : ScoredChunk) (earlier : List Chunk) : Prop :=
  c.hits ≠ 0 ∧ (terms.any fun t => occursIn t (lowercase (String.ofList (uncoveredText c.chunk earlier)))) = true

variable {lowercase terms n}

theorem picks_snoc {front : List ScoredChunk} {c : ScoredChunk}
    (sorted : (front ++ [c]).Pairwise fun a b => b.hits ≤ a.hits) (some : picks lowercase terms n front ≠ [])
    (room : (picks lowercase terms n front).length < n) :
    (Accepts lowercase terms c (picks lowercase terms n front) →
        picks lowercase terms n (front ++ [c]) = picks lowercase terms n front ++ [c.chunk]) ∧
      (¬ Accepts lowercase terms c (picks lowercase terms n front) →
        picks lowercase terms n (front ++ [c]) = picks lowercase terms n front) := by
  have turn : picks lowercase terms n (front ++ [c]) =
      pickChunks lowercase terms n [c] (picks lowercase terms n front) := pickChunks_append lowercase terms n sorted []
  generalize picks lowercase terms n front = earlier at some room turn ⊢
  rw [turn, pickChunks]
  by_cases none : c.hits = 0
  · rw [if_pos (.inr ⟨some, none⟩)]
    exact ⟨fun accepted => absurd none accepted.1, fun _ => rfl⟩
  · rw [if_neg (by rw [not_or]; exact ⟨by omega, fun both => none both.2⟩)]
    dsimp only
    by_cases fresh : (terms.any fun t => occursIn t (lowercase (String.ofList (uncoveredText c.chunk earlier)))) = true
    · rw [if_pos (.inr fresh)]
      exact ⟨fun _ => rfl, fun refused => absurd ⟨none, fresh⟩ refused⟩
    · rw [if_neg (by rw [not_or]; exact ⟨some, fresh⟩)]
      exact ⟨fun accepted => absurd accepted.2 fresh, fun _ => rfl⟩

end Turns

/-! ### The sections of a file -/

/-- The chunks of a file in the order of their turns. -/
def ranking (lowercase : String → String) (terms : List String) (chunks : List Chunk) : List ScoredChunk :=
  (chunks.zipIdx.map fun (c, i) =>
    ScoredChunk.mk (terms.countP fun t => occursIn t (lowercase c.text)) i c).insertionSort ScoredChunk.before

theorem ranking_sorted (lowercase : String → String) (terms : List String) (chunks : List Chunk) :
    (ranking lowercase terms chunks).Pairwise fun a b => b.hits ≤ a.hits := by
  have total : Std.Total ScoredChunk.before := ⟨fun a b => by unfold ScoredChunk.before; omega⟩
  have ordered : IsTrans ScoredChunk ScoredChunk.before :=
    ⟨fun a b c one other => by unfold ScoredChunk.before at one other ⊢; omega⟩
  refine (List.pairwise_insertionSort ScoredChunk.before _).imp fun before => ?_
  unfold ScoredChunk.before at before
  omega

theorem ranking_mem {lowercase : String → String} {terms : List String} {chunks : List Chunk} {s : ScoredChunk}
    (member : s ∈ ranking lowercase terms chunks) : s.chunk ∈ chunks := by
  rw [ranking, List.mem_insertionSort] at member
  obtain ⟨⟨c, i⟩, inside, rfl⟩ := List.mem_map.mp member
  exact List.mem_of_getElem? (List.mem_zipIdx_iff_getElem?.mp inside)

theorem ranking_length (lowercase : String → String) (terms : List String) (chunks : List Chunk) :
    (ranking lowercase terms chunks).length = chunks.length := by
  rw [ranking, List.length_insertionSort, List.length_map, List.length_zipIdx]

section Selection
variable {lowercase : String → String} {terms : List String} {n : Nat}

theorem pickChunks_length {scored : List ScoredChunk} {picked : List Chunk} (few : picked.length ≤ n) :
    (pickChunks lowercase terms n scored picked).length ≤ n := by
  induction scored generalizing picked with
  | nil => exact few
  | cons c rest later =>
    rw [pickChunks]
    split
    · exact few
    · next going =>
      rw [not_or] at going
      dsimp only
      split
      · refine later ?_
        rw [List.length_append, List.length_singleton]
        omega
      · exact later few

theorem mem_pickChunks {scored : List ScoredChunk} {picked : List Chunk} {c : Chunk}
    (member : c ∈ pickChunks lowercase terms n scored picked) : c ∈ picked ∨ ∃ s ∈ scored, s.chunk = c := by
  induction scored generalizing picked with
  | nil => exact .inl member
  | cons s rest later =>
    rw [pickChunks] at member
    split at member
    · exact .inl member
    · dsimp only at member
      split at member
      · rcases later member with picked' | ⟨t, behind, same⟩
        · rcases List.mem_append.mp picked' with old | new
          · exact .inl old
          · exact .inr ⟨s, List.mem_cons_self, (List.mem_singleton.mp new).symm⟩
        · exact .inr ⟨t, List.mem_cons_of_mem s behind, same⟩
      · rcases later member with old | ⟨t, behind, same⟩
        · exact .inl old
        · exact .inr ⟨t, List.mem_cons_of_mem s behind, same⟩

theorem picks_some {ranked : List ScoredChunk} (some : ranked ≠ []) (room : 1 ≤ n) : picks lowercase terms n ranked ≠ [] := by
  cases ranked with
  | nil => exact absurd rfl some
  | cons c rest =>
    rw [picks, pickChunks, if_neg (by simp; omega)]
    dsimp only
    rw [if_pos (.inl rfl)]
    obtain ⟨after, whole⟩ := pickChunks_extends lowercase terms n rest ([] ++ [c.chunk])
    rw [whole]
    simp

/-- Every pick but the first had its turn behind the picks before it. The induction takes the last turn off. -/
theorem turn_of_pick {ranked : List ScoredChunk} (sorted : ranked.Pairwise fun a b => b.hits ≤ a.hits)
    {before after : List Chunk} {pick : Chunk} (whole : picks lowercase terms n ranked = before ++ pick :: after)
    (some : before ≠ []) :
    ∃ front c back, ranked = front ++ c :: back ∧ picks lowercase terms n front = before ∧ c.chunk = pick ∧
      before.length < n ∧ Accepts lowercase terms c before := by
  induction ranked using List.reverseRecOn generalizing after with
  | nil =>
    rw [picks, pickChunks] at whole
    simp at whole
  | append_singleton front c later =>
    have earlier : front.Pairwise fun a b => b.hits ≤ a.hits := (List.pairwise_append.mp sorted).1
    have onward : ∀ {rest}, picks lowercase terms n front = before ++ pick :: rest →
        ∃ front' c' back, front ++ [c] = front' ++ c' :: back ∧ picks lowercase terms n front' = before ∧ c'.chunk = pick ∧
          before.length < n ∧ Accepts lowercase terms c' before := by
      intro rest whole'
      obtain ⟨front', c', back, parts, found⟩ := later earlier whole'
      exact ⟨front', c', back ++ [c], by rw [parts, List.append_assoc, List.cons_append], found⟩
    have few : (picks lowercase terms n front).length ≤ n := pickChunks_length (Nat.zero_le n)
    have turn : picks lowercase terms n (front ++ [c]) =
        pickChunks lowercase terms n [c] (picks lowercase terms n front) := pickChunks_append lowercase terms n sorted []
    by_cases first : picks lowercase terms n front = []
    · -- the first pick has none before it
      obtain ⟨c', rest, same⟩ := List.exists_cons_of_ne_nil some
      have size := congrArg List.length (turn.symm.trans whole)
      rw [first, pickChunks] at size
      split at size
      · simp at size
      · dsimp only at size
        rw [if_pos (.inl rfl), pickChunks, same] at size
        simp at size
    · by_cases room : (picks lowercase terms n front).length < n
      · have snoc := picks_snoc sorted first room
        by_cases accepted : Accepts lowercase terms c (picks lowercase terms n front)
        · have parts := (snoc.1 accepted).symm.trans whole
          rcases List.eq_nil_or_concat after with none | ⟨rest, last, same⟩
          · rw [none] at parts
            have ends := List.append_inj' parts rfl
            have same : c.chunk = pick := (List.cons.inj ends.2).1
            rw [ends.1] at accepted room
            exact ⟨front, c, [], rfl, ends.1, same, room, accepted⟩
          · rw [same, List.concat_eq_append, ← List.cons_append, ← List.append_assoc] at parts
            exact onward (List.append_inj' parts rfl).1
        · exact onward ((snoc.2 accepted).symm.trans whole)
      · have full : (picks lowercase terms n front).length = n := by omega
        rw [turn, pickChunks, if_pos (.inl full)] at whole
        exact onward whole

end Selection

section Evidence
variable (declarations : String → String → List Nat) (path text : String) (lowercase : String → String)
  (terms : List String) (n : Nat)

/-- The selection is as large as it may be: the first pick, then every chunk with new evidence as long as there
is room, and no other. -/
structure AddsEvidence (ranked : List ScoredChunk) (selected : List Chunk) : Prop where
  least : selected ≠ []
  most : selected.length ≤ n
  adds : ∀ before pick after, selected = before ++ pick :: after → before ≠ [] →
    NewMatch declarations path text lowercase terms pick before
  complete : ∀ front c back, ranked = front ++ c :: back → picks lowercase terms n front ≠ [] →
    (picks lowercase terms n front).length < n →
    picks lowercase terms n (front ++ [c]) = picks lowercase terms n front →
    ¬ NewMatch declarations path text lowercase terms c.chunk (picks lowercase terms n front)

/-- At the turn of a chunk: one without a hit adds nothing, and where it or an earlier pick repeats a table
header, the cut of the picker holds a term exactly when the new text does. -/
def CutsRight (c : ScoredChunk) (earlier : List Chunk) : Prop :=
  (c.hits = 0 → ¬ NewMatch declarations path text lowercase terms c.chunk earlier) ∧
    (c.hits ≠ 0 →
      RepeatsHeader declarations path text c.chunk ∨ (∃ o ∈ earlier, RepeatsHeader declarations path text o) →
      ((terms.any fun t => occursIn t (lowercase (String.ofList (uncoveredText c.chunk earlier)))) = true ↔
        NewMatch declarations path text lowercase terms c.chunk earlier))

variable {declarations path text lowercase terms n}

theorem accepts_iff (empty : lowercase "" = "") (words : ∀ t ∈ terms, t ≠ "") {c : ScoredChunk} {earlier : List Chunk}
    (member : c.chunk ∈ chunkDocumentForPath declarations path text)
    (members : ∀ o ∈ earlier, o ∈ chunkDocumentForPath declarations path text) (some : text.toList ≠ [])
    (right : CutsRight declarations path text lowercase terms c earlier) :
    Accepts lowercase terms c earlier ↔ NewMatch declarations path text lowercase terms c.chunk earlier := by
  have placed : ∀ o ∈ chunkDocumentForPath declarations path text,
      ∃ span, (o, span) ∈ placedChunks declarations path text := by
    intro o listed
    rw [← placedChunks_fst] at listed
    obtain ⟨⟨_, span⟩, inside, rfl⟩ := List.mem_map.mp listed
    exact ⟨span, inside⟩
  by_cases none : c.hits = 0
  · exact ⟨fun accepted => absurd none accepted.1, fun found => absurd found (right.1 none)⟩
  · have test : (terms.any fun t => occursIn t (lowercase (String.ofList (uncoveredText c.chunk earlier)))) = true ↔
        NewMatch declarations path text lowercase terms c.chunk earlier := by
      by_cases header : RepeatsHeader declarations path text c.chunk ∨ ∃ o ∈ earlier, RepeatsHeader declarations path text o
      · exact right.2 none header
      · rw [not_or] at header
        obtain ⟨span, inside⟩ := placed c.chunk member
        obtain ⟨_, _, stop⟩ := plain_chunk inside header.1
        obtain ⟨_, shaped⟩ := placed_shaped inside
        have proper := shaped.proper some
        exact fresh_iff empty words inside header.1 (by simp only at proper stop ⊢; omega)
          (fun o listed => placed o (members o listed)) fun o listed repeats => header.2 ⟨o, listed, repeats⟩
    exact ⟨fun accepted => test.mp accepted.2, fun found => ⟨none, test.mpr found⟩⟩

theorem sorted_until {ranked : List ScoredChunk} (sorted : ranked.Pairwise fun a b => b.hits ≤ a.hits)
    {front back : List ScoredChunk} {c : ScoredChunk} (parts : ranked = front ++ c :: back) :
    (front ++ [c]).Pairwise fun a b => b.hits ≤ a.hits := by
  rw [parts, ← List.singleton_append, ← List.append_assoc] at sorted
  exact (List.pairwise_append.mp sorted).1

/-- Where every pick adds evidence and none is left out, a chunk is accepted at its turn for what is new. -/
theorem AddsEvidence.turn {ranked : List ScoredChunk}
    (evidence : AddsEvidence declarations path text lowercase terms n ranked (picks lowercase terms n ranked))
    (sorted : ranked.Pairwise fun a b => b.hits ≤ a.hits) {front back : List ScoredChunk} {c : ScoredChunk}
    (parts : ranked = front ++ c :: back) (some : picks lowercase terms n front ≠ [])
    (room : (picks lowercase terms n front).length < n) :
    Accepts lowercase terms c (picks lowercase terms n front) ↔
      NewMatch declarations path text lowercase terms c.chunk (picks lowercase terms n front) := by
  have snoc := picks_snoc (sorted_until sorted parts) some room
  constructor
  · intro accepted
    have whole : picks lowercase terms n ranked =
        pickChunks lowercase terms n back (picks lowercase terms n (front ++ [c])) := by
      have split : ranked = (front ++ [c]) ++ back := by rw [parts, List.append_assoc, List.singleton_append]
      rw [split] at sorted ⊢
      exact pickChunks_append lowercase terms n sorted []
    obtain ⟨after, onward⟩ := pickChunks_extends lowercase terms n back (picks lowercase terms n (front ++ [c]))
    rw [onward, snoc.1 accepted, List.append_assoc, List.singleton_append] at whole
    exact evidence.adds _ c.chunk after whole some
  · intro found
    by_contra refused
    exact evidence.complete front c back parts some room (snoc.2 refused) found

/-- The chunks `best_chunks` returns. -/
def selection {V S : Type} (engine : Engine V S) (path text : String) (terms : List String) (n : Nat) : List Chunk :=
  (bestChunks engine path text terms n).map fun c => ⟨c.1, c.2⟩

theorem selection_eq {V S : Type} {engine : Engine V S}
    (chunked : engine.chunkDocumentForPath = chunkDocumentForPath declarations) :
    selection engine path text terms n =
      if terms = [] then (chunkDocumentForPath declarations path text).take 1
      else picks engine.lowercase terms n (ranking engine.lowercase terms (chunkDocumentForPath declarations path text)) := by
  have back : ∀ chunks : List Chunk, (chunks.map fun c => (c.text, c.pos)).map (fun c => Chunk.mk c.1 c.2) = chunks := by
    intro chunks
    rw [List.map_map]
    exact List.map_id chunks
  have some : chunkDocumentForPath declarations path text ≠ [] := by
    rw [← placedChunks_fst]
    intro none
    exact placedChunks_ne_nil (List.map_eq_nil_iff.mp none)
  unfold selection bestChunks
  rw [chunked]
  cases found : chunkDocumentForPath declarations path text with
  | nil => exact absurd found some
  | cons first rest =>
    dsimp only
    by_cases none : terms = []
    · rw [if_pos none, if_pos none]
      rfl
    · rw [if_neg none, if_neg none]
      exact back _

end Evidence

/-! ### A header and an overlap -/

/-- An engine that folds no case and knows no grammar. -/
def plainEngine : Engine String Rat :=
  { sampleEngine with
    chunkDocumentForPath := chunkDocumentForPath fun _ _ => []
    lowercase := fun text => text }

def tableRow (words : List Char) : List Char := '|' :: (List.replicate 98 '😀' ++ words ++ ['\n'])

/-- A table of two chunks. The word of the row before the last stands at the end of the first chunk. -/
def tallTable : List Char :=
  ['|', 'h', '|', '\n', '|', '-', '|', '\n'] ++ tableRow ['a', 'l', 'p', 'h', 'a'] ++
    (List.replicate 8 (tableRow [])).flatten ++ tableRow ['z', 'e', 't', 'a'] ++ ['|'] ++ List.replicate 30 '😀' ++ ['\n']

def firstRows : Chunk := ⟨String.ofList (slice tallTable 0 3956), 0⟩

def lastRows : Chunk := ⟨String.ofList (['|', 'h', '|', '\n', '|', '-', '|', '\n'] ++ slice tallTable 3559 4079), 3559⟩

/-- What the scans of the table find, in one evaluation. -/
theorem tallTable_scans :
    breakSpans tallTable (scanBreakPoints tallTable (scanCodeFences tallTable)) = [⟨0, 3956⟩, ⟨3414, 4079⟩] ∧
      scanTables tallTable (scanCodeFences tallTable) = [⟨0, 8, 4079⟩] ∧ rowStart tallTable 3414 = 3559 ∧
      slice tallTable 0 8 = ['|', 'h', '|', '\n', '|', '-', '|', '\n'] ∧ byteLength (slice tallTable 0 3956) = 3956 ∧
      (takeBytes 3559 tallTable).getLast? = some '\n' ∧
      byteLength (['|', 'h', '|', '\n', '|', '-', '|', '\n'] ++ slice tallTable 3559 4079) = 528 ∧
      isCharBoundary (['|', 'h', '|', '\n', '|', '-', '|', '\n'] ++ slice tallTable 3559 4079) 397 = true ∧
      isCharBoundary (['|', 'h', '|', '\n', '|', '-', '|', '\n'] ++ slice tallTable 3559 4079) 528 = true := by
  decide +kernel

theorem tallTable_tables : scanTables tallTable (scanCodeFences tallTable) = [⟨0, 8, 4079⟩] := tallTable_scans.2.1

theorem tallTable_source : sourceBreaks (fun _ _ => []) "t.md" (String.ofList tallTable) = none := by
  unfold sourceBreaks
  cases pathExtension "t.md" <;> rfl

theorem tallTable_chunks :
    chunkDocumentForPath (fun _ _ => []) "t.md" (String.ofList tallTable) = [firstRows, lastRows] := by
  have source := tallTable_source
  obtain ⟨spans, _, row, header, _⟩ := tallTable_scans
  have small : ¬ byteLength (slice tallTable 0 8) > maxTableHeaderChars := by rw [header]; decide
  rw [chunkDocumentForPath_eq, pathSpans, source, Option.getD_none, String.toList_ofList, spans]
  simp only [List.map_cons, List.map_nil, pathChunk, source, Option.isSome_none, Bool.false_eq_true, if_false, pathTables,
    String.toList_ofList, tallTable_tables, carryTableHeader_around]
  have first : tableAround [⟨0, 8, 4079⟩] 0 = none := rfl
  have second : tableAround [⟨0, 8, 4079⟩] 3414 = some ⟨0, 8, 4079⟩ := rfl
  rw [first, second]
  simp only [row]
  rw [if_neg (by decide), if_neg small, if_neg (by decide), header]
  rfl

theorem tallTable_ranking :
    ranking plainEngine.lowercase ["alpha", "zeta"] [firstRows, lastRows] = [⟨2, 0, firstRows⟩, ⟨1, 1, lastRows⟩] := by
  have first : (["alpha", "zeta"].countP fun t => occursIn t (plainEngine.lowercase firstRows.text)) = 2 := by
    simp only [occursIn, plainEngine, firstRows, String.toList_ofList]
    decide +kernel
  have second : (["alpha", "zeta"].countP fun t => occursIn t (plainEngine.lowercase lastRows.text)) = 1 := by
    simp only [occursIn, plainEngine, lastRows, String.toList_ofList]
    decide +kernel
  rw [ranking, List.zipIdx_cons, List.zipIdx_cons, List.zipIdx_nil]
  simp only [List.map_cons, List.map_nil, first, second]
  simp [List.insertionSort, ScoredChunk.before]

theorem firstRows_text : firstRows.text.toList = slice tallTable 0 3956 := String.toList_ofList

theorem lastRows_text :
    lastRows.text.toList = ['|', 'h', '|', '\n', '|', '-', '|', '\n'] ++ slice tallTable 3559 4079 := String.toList_ofList

theorem firstRows_shown : shownSpans (fun _ _ => []) "t.md" (String.ofList tallTable) firstRows = [⟨0, 3956⟩] := by
  have none : headerSpan (fun _ _ => []) "t.md" (String.ofList tallTable) firstRows.pos = Option.none := by
    rw [headerSpan, tallTable_source, pathTables, String.toList_ofList, tallTable_tables,
      show tableAround [⟨0, 8, 4079⟩] firstRows.pos = Option.none from rfl]
    rfl
  obtain ⟨_, _, _, _, length, _⟩ := tallTable_scans
  rw [shownSpans_bare none, firstRows_text, length, show firstRows.pos = 0 from rfl]

theorem lastRows_shown :
    shownSpans (fun _ _ => []) "t.md" (String.ofList tallTable) lastRows = [⟨0, 8⟩, ⟨3559, 4079⟩] := by
  obtain ⟨_, _, _, head, _, line, length, _⟩ := tallTable_scans
  have header : byteLength (slice tallTable 0 8) = 8 := by
    rw [head]
    decide
  have repeated : headerSpan (fun _ _ => []) "t.md" (String.ofList tallTable) lastRows.pos = some ⟨0, 8⟩ := by
    rw [headerSpan, tallTable_source, pathTables, String.toList_ofList, tallTable_tables,
      show tableAround [⟨0, 8, 4079⟩] lastRows.pos = some ⟨0, 8, 4079⟩ from rfl]
    dsimp only
    rw [if_neg (by decide), if_pos ⟨show 8 ≤ 3559 by decide, by rw [header]; decide, line⟩]
  rw [shownSpans_headed repeated (show 8 ≠ 3559 by decide), lastRows_text, length, String.toList_ofList, header,
    show lastRows.pos = 3559 from rfl]

/-- What is new with the second chunk is its last line and the line break before. -/
theorem lastRows_new :
    newSpans (fun _ _ => []) "t.md" (String.ofList tallTable) lastRows [firstRows] = [⟨3956, 4079⟩] := by
  rw [newSpans, lastRows_shown, List.flatMap_singleton, firstRows_shown]
  decide

/-- The picker takes as many bytes off as the two chunks overlap, but its cut starts within the repeated header. -/
theorem lastRows_cut :
    uncoveredText lastRows [firstRows] =
      slice (['|', 'h', '|', '\n', '|', '-', '|', '\n'] ++ slice tallTable 3559 4079) 397 528 := by
  obtain ⟨_, _, _, _, front, _, back, start, stop⟩ := tallTable_scans
  have first : byteLength firstRows.text.toList = 3956 := firstRows_text ▸ front
  have last : byteLength lastRows.text.toList = 528 := lastRows_text ▸ back
  have step : coverStep lastRows (0, 528) firstRows = (397, 528) := by
    rw [coverStep, first, last, show firstRows.pos = 0 from rfl, show lastRows.pos = 3559 from rfl]
    decide
  have starts : isCharBoundary lastRows.text.toList 397 = true := lastRows_text ▸ start
  have stops : isCharBoundary lastRows.text.toList 528 = true := lastRows_text ▸ stop
  rw [uncoveredText_eq]
  dsimp only
  rw [List.foldl_cons, List.foldl_nil, last, step]
  dsimp only
  rw [show max 528 397 = 528 from rfl, starts, stops, Bool.and_self, if_pos rfl, lastRows_text]

end Rqmd.Chunking
