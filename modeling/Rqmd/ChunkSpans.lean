import Mathlib.Data.List.Chain
import Rqmd.Chunking

/-! The spans of the sliding window: they start at the start of the text, each begins inside the one before
it and ends no earlier, and the last ends the text. -/

namespace Rqmd.Chunking
open Text

variable {text : List Char} {breakPoints : List BreakPoint}

/-! ### Snapping to a character boundary -/

/-- Four consecutive offsets of a text hold a boundary. -/
theorem exists_boundary (text : List Char) {p : Nat} (inside : p + 3 ≤ byteLength text) :
    ∃ q, p ≤ q ∧ q ≤ p + 3 ∧ isCharBoundary text q = true := by
  have close := lt_byteLength_takeBytes inside
  have upper := byteLength_takeBytes_le (p + 3) text
  exact ⟨byteLength (takeBytes (p + 3) text), by omega, upper, isCharBoundary_takeBytes _ _⟩

theorem forwardFrom_spec (text : List Char) {steps p : Nat} (room : p + steps = byteLength text) :
    isCharBoundary text (forwardFrom text steps p) = true ∧ p ≤ forwardFrom text steps p ∧
      ∀ q, p ≤ q → isCharBoundary text q = true → forwardFrom text steps p ≤ q := by
  induction steps generalizing p with
  | zero =>
    have whole : p = byteLength text := by omega
    subst whole
    exact ⟨isCharBoundary_length text, le_refl _, fun q later _ => later⟩
  | succ steps ih =>
    by_cases here : isCharBoundary text p = true
    · rw [forwardFrom, if_pos here]
      exact ⟨here, le_refl _, fun q later _ => later⟩
    · obtain ⟨boundary, behind, least⟩ := @ih (p + 1) (by omega)
      rw [forwardFrom, if_neg here]
      refine ⟨boundary, by omega, fun q later found => least q ?_ found⟩
      by_contra early
      have same : q = p := by omega
      exact here (same ▸ found)

/-- Snapping forward moves by three bytes at most. -/
theorem snapForward_spec (text : List Char) {p : Nat} (inside : p ≤ byteLength text) :
    isCharBoundary text (snapCharBoundaryForward text p) = true ∧ p ≤ snapCharBoundaryForward text p ∧
      snapCharBoundaryForward text p ≤ p + 3 ∧ snapCharBoundaryForward text p ≤ byteLength text := by
  have at' : min p (byteLength text) = p := Nat.min_eq_left inside
  have room : p + (byteLength text - p) = byteLength text := by omega
  have spec := forwardFrom_spec text room
  simp only [snapCharBoundaryForward, at']
  refine ⟨spec.1, spec.2.1, ?_, le_length_of_boundary spec.1⟩
  by_cases wide : p + 3 ≤ byteLength text
  · obtain ⟨q, later, close, boundary⟩ := exists_boundary text wide
    have := spec.2.2 q later boundary
    omega
  · have := le_length_of_boundary spec.1
    omega

theorem backwardFrom_spec (text : List Char) (p : Nat) :
    isCharBoundary text (backwardFrom text p) = true ∧ backwardFrom text p ≤ p ∧
      ∀ q, q ≤ p → isCharBoundary text q = true → q ≤ backwardFrom text p := by
  induction p with
  | zero => exact ⟨isCharBoundary_zero text, le_refl _, fun q before _ => before⟩
  | succ p ih =>
    by_cases here : isCharBoundary text (p + 1) = true
    · rw [backwardFrom, if_pos here]
      exact ⟨here, le_refl _, fun q before _ => before⟩
    · obtain ⟨boundary, before, greatest⟩ := ih
      rw [backwardFrom, if_neg here]
      refine ⟨boundary, by omega, fun q early found => greatest q ?_ found⟩
      by_contra late
      have same : q = p + 1 := by omega
      exact here (same ▸ found)

/-- Snapping backward moves by three bytes at most. -/
theorem snapBackward_spec (text : List Char) {p : Nat} (inside : p ≤ byteLength text) :
    isCharBoundary text (snapCharBoundaryBackward text p) = true ∧ snapCharBoundaryBackward text p ≤ p ∧
      p ≤ snapCharBoundaryBackward text p + 3 := by
  have at' : min p (byteLength text) = p := Nat.min_eq_left inside
  obtain ⟨boundary, before, greatest⟩ := backwardFrom_spec text p
  simp only [snapCharBoundaryBackward, at']
  refine ⟨boundary, before, ?_⟩
  by_cases early : p < 3
  · omega
  · obtain ⟨q, later, close, found⟩ := exists_boundary text (show p - 3 + 3 ≤ byteLength text by omega)
    have := greatest q (by omega) found
    omega

theorem snapForward_of_boundary {text : List Char} {p : Nat} (boundary : isCharBoundary text p = true) :
    snapCharBoundaryForward text p = p := by
  have inside := le_length_of_boundary boundary
  have room : p + (byteLength text - p) = byteLength text := by omega
  have spec := forwardFrom_spec text room
  have least := spec.2.2 p (Nat.le_refl p) boundary
  simp only [snapCharBoundaryForward, Nat.min_eq_left inside]
  omega

theorem snapBackward_of_boundary {text : List Char} {p : Nat} (boundary : isCharBoundary text p = true) :
    snapCharBoundaryBackward text p = p := by
  have inside := le_length_of_boundary boundary
  have spec := backwardFrom_spec text p
  have greatest := spec.2.2 p (Nat.le_refl p) boundary
  simp only [snapCharBoundaryBackward, Nat.min_eq_left inside]
  omega

/-! ### One window -/

/-- A fold that keeps its value or takes the element it sees ends with one of the elements. -/
theorem foldl_takes {α : Type} {step : Option α → α → Option α}
    (takes : ∀ best c, step best c = best ∨ step best c = some c) (candidates : List α) (best : Option α) {b : α}
    (same : candidates.foldl step best = some b) : b ∈ candidates ∨ best = some b := by
  induction candidates generalizing best with
  | nil => exact .inr same
  | cons c rest ih =>
    rcases ih (step best c) same with later | kept
    · exact .inl (List.mem_cons_of_mem _ later)
    · rcases takes best c with old | new
      · exact .inr (old ▸ kept)
      · have equal : c = b := Option.some.inj (new ▸ kept)
        exact .inl (equal ▸ List.mem_cons_self)

theorem bestBreak_mem {windowStart windowEnd pos : Nat}
    (found : bestBreakInWindow breakPoints windowStart windowEnd = some pos) :
    windowStart ≤ pos ∧ pos < windowEnd := by
  unfold bestBreakInWindow at found
  obtain ⟨b, chosen, rfl⟩ := Option.map_eq_some_iff.mp found
  have member := foldl_takes ?_ _ _ chosen
  · rcases member with member | impossible
    · simpa using (List.mem_filter.mp member).2
    · simp at impossible
  · intro best c
    cases best with
    | none => exact .inr rfl
    | some a =>
      by_cases beaten : a.beats c
      · exact .inl (if_pos beaten)
      · exact .inr (if_neg beaten)

/-- A chunk that is not the last ends in the window around its ideal end. -/
theorem chunkEnd_spec (breakPoints : List BreakPoint) {start : Nat} (more : start + chunkSizeChars < byteLength text) :
    isCharBoundary text (chunkEnd text breakPoints start) = true ∧
      start + 3200 ≤ chunkEnd text breakPoints start ∧ chunkEnd text breakPoints start < start + 4003 ∧
      chunkEnd text breakPoints start ≤ byteLength text := by
  have size : chunkSizeChars = 3600 := rfl
  have half : chunkWindowChars / 2 = 400 := rfl
  have ideal : min (start + chunkSizeChars) (byteLength text) = start + 3600 := by omega
  unfold chunkEnd
  simp only [ideal, half]
  generalize cut : (bestBreakInWindow breakPoints (start + 3600 - 400)
    (min (start + 3600 + 400) (byteLength text))).getD (start + 3600) = breakAt
  have window : start + 3200 ≤ breakAt ∧ breakAt < start + 4000 ∧ breakAt ≤ byteLength text := by
    cases found : bestBreakInWindow breakPoints (start + 3600 - 400)
        (min (start + 3600 + 400) (byteLength text)) with
    | none =>
      rw [found, Option.getD_none] at cut
      omega
    | some pos =>
      rw [found, Option.getD_some] at cut
      have := bestBreak_mem found
      omega
  have inside : min breakAt (byteLength text) = breakAt := Nat.min_eq_left window.2.2
  rw [inside]
  obtain ⟨boundary, behind, close, bound⟩ := snapForward_spec text window.2.2
  exact ⟨boundary, by omega, by omega, bound⟩

/-- The next chunk starts before the end of this one, by the overlap and three bytes at most. -/
theorem nextStart_spec (text : List Char) {stop : Nat} (inside : stop ≤ byteLength text) (long : chunkOverlapChars ≤ stop) :
    isCharBoundary text (nextStart text stop) = true ∧ nextStart text stop + 540 ≤ stop ∧
      stop ≤ nextStart text stop + 543 := by
  have overlap : chunkOverlapChars = 540 := rfl
  obtain ⟨boundary, before, close⟩ := snapBackward_spec text (show stop - chunkOverlapChars ≤ byteLength text by omega)
  have progress : ¬ snapCharBoundaryBackward text (stop - chunkOverlapChars) ≥ stop := by omega
  simp only [nextStart, if_neg progress]
  exact ⟨boundary, by omega, by omega⟩

/-! ### The run -/

/-- How a span stands to the one before it. -/
def Span.Follows (a b : Span) : Prop :=
  a.start < b.start ∧ b.start ≤ a.stop ∧ a.stop ≤ b.stop ∧ a.start + 3200 ≤ a.stop ∧ a.stop < a.start + 4003

def Span.Cuts (text : List Char) (s : Span) : Prop :=
  isCharBoundary text s.start = true ∧ isCharBoundary text s.stop = true ∧ s.start ≤ s.stop ∧
    (text ≠ [] → s.start < s.stop)

/-- Spans that take a text from `start` to its end. -/
structure Slides (text : List Char) (start : Nat) (spans : List Span) : Prop where
  first : spans.head?.map Span.start = some start
  last : spans.getLast?.map Span.stop = some (byteLength text)
  cuts : ∀ s ∈ spans, s.Cuts text
  chain : spans.IsChain Span.Follows

theorem Slides.one {start : Nat} (boundary : isCharBoundary text start = true) (inside : start < byteLength text) :
    Slides text start [⟨start, byteLength text⟩] where
  first := rfl
  last := rfl
  cuts s member := by
    rw [List.mem_singleton.mp member]
    exact ⟨boundary, isCharBoundary_length text, Nat.le_of_lt inside, fun _ => inside⟩
  chain := List.isChain_singleton _

/-- One round of the loop in front of the rest. -/
theorem Slides.cons {start next stop : Nat} {spans : List Span} (boundary : isCharBoundary text start = true)
    (rest : Slides text next spans) (cut : isCharBoundary text stop = true) (order : start < next)
    (overlap : next ≤ stop) (long : start + 3200 ≤ stop) (short : stop < start + 4003)
    (onward : ∀ s ∈ spans.head?, stop ≤ s.stop) : Slides text start (⟨start, stop⟩ :: spans) where
  first := rfl
  last := by
    have last := rest.last
    cases spans with
    | nil => simp at last
    | cons s spans => rwa [List.getLast?_cons_cons]
  cuts s member := by
    rcases List.mem_cons.mp member with rfl | inside
    · exact ⟨boundary, cut, by simp only; omega, fun _ => by simp only; omega⟩
    · exact rest.cuts s inside
  chain := by
    refine List.isChain_cons.mpr ⟨fun s member => ?_, rest.chain⟩
    have first := rest.first
    have head : spans.head? = some s := member
    rw [head, Option.map_some, Option.some.injEq] at first
    have := onward s member
    exact ⟨by simp only; omega, by simp only; omega, this, long, short⟩

/-- The first span of a run ends with the text or near its ideal end. -/
theorem head_stop {start rounds : Nat} (inside : start < byteLength text) :
    ∀ s ∈ (spansFrom text breakPoints (rounds + 1) start).head?,
      s.stop = byteLength text ∨ start + 3200 ≤ s.stop := by
  intro s member
  rw [spansFrom, if_pos inside] at member
  split at member
  · have same : s = ⟨start, byteLength text⟩ := (Option.some.inj member).symm
    exact .inl (by rw [same])
  · next more =>
    have same : s = ⟨start, chunkEnd text breakPoints start⟩ := (Option.some.inj member).symm
    rw [same]
    exact .inr (chunkEnd_spec breakPoints (by omega)).2.1

/-- The loop reaches the end of the text. The induction is on the rounds left, of which there are more
than bytes. -/
theorem spansFrom_slides {rounds start : Nat} (boundary : isCharBoundary text start = true)
    (inside : start < byteLength text) (enough : byteLength text ≤ start + rounds) :
    Slides text start (spansFrom text breakPoints rounds start) := by
  induction rounds generalizing start with
  | zero => omega
  | succ rounds ih =>
    rw [spansFrom, if_pos inside]
    split
    · exact Slides.one boundary inside
    · next more =>
      obtain ⟨cut, long, short, bound⟩ := chunkEnd_spec breakPoints (show start + chunkSizeChars < byteLength text by omega)
      have overlap : chunkOverlapChars = 540 := rfl
      have size : chunkSizeChars = 3600 := rfl
      obtain ⟨next, early, late⟩ := nextStart_spec text bound (by omega)
      cases rounds with
      | zero => omega
      | succ rounds =>
        have rest := ih next (by omega) (by omega)
        refine Slides.cons boundary rest cut (by omega) (by omega) long short fun s member => ?_
        -- the next span ends with the text, or a full window behind its start
        rcases head_stop (show nextStart text _ < byteLength text by omega) s member with whole | behind
        · rwa [whole]
        · omega

theorem breakSpans_short (short : byteLength text ≤ chunkSizeChars) :
    breakSpans text breakPoints = [⟨0, byteLength text⟩] := by
  rw [breakSpans, if_pos short]

theorem breakSpans_slides (text : List Char) (breakPoints : List BreakPoint) :
    Slides text 0 (breakSpans text breakPoints) := by
  unfold breakSpans
  split
  · cases text with
    | nil =>
      exact ⟨rfl, rfl, fun s member => by
        rw [List.mem_singleton.mp member]
        exact ⟨rfl, rfl, Nat.le_refl _, fun some => absurd rfl some⟩, List.isChain_singleton _⟩
    | cons c cs => exact Slides.one (isCharBoundary_zero _) (byteLength_pos (List.cons_ne_nil c cs))
  · next long => exact spansFrom_slides (isCharBoundary_zero text) (by omega) (by omega)

/-! ### The chunks of any break list -/

/-- Whoever is not the last of a chain stands to somebody behind it. -/
theorem exists_next {α : Type} {rel : α → α → Prop} {xs : List α} (chain : xs.IsChain rel) {x : α}
    (early : x ∈ xs.dropLast) : ∃ y ∈ xs, rel x y := by
  induction xs with
  | nil => simp at early
  | cons a xs later =>
    cases xs with
    | nil => simp at early
    | cons b rest =>
      have related := List.isChain_cons_cons.mp chain
      rw [List.dropLast_cons_cons, List.mem_cons] at early
      by_cases first : x = a
      · exact ⟨b, List.mem_cons_of_mem a List.mem_cons_self, first ▸ related.1⟩
      · obtain ⟨y, member, follows⟩ := later related.2 (early.resolve_left first)
        exact ⟨y, List.mem_cons_of_mem a member, follows⟩

theorem forall_dropLast_iff {α : Type} {keep : α → Prop} {xs : List α} :
    (∀ x ∈ xs.dropLast, keep x) ↔ xs.IsChain fun a _ => keep a := by
  constructor
  · intro all
    induction xs with
    | nil => exact List.isChain_nil
    | cons a xs later =>
      cases xs with
      | nil => exact List.isChain_singleton a
      | cons b rest =>
        rw [List.dropLast_cons_cons] at all
        refine List.isChain_cons_cons.mpr ⟨all a List.mem_cons_self, later fun x early => ?_⟩
        exact all x (List.mem_cons_of_mem a early)
  · intro chain x early
    obtain ⟨_, _, kept⟩ := exists_next chain early
    exact kept

/-- The rounds beyond the ones the text has bytes for are never run. -/
theorem spansFrom_enough {rounds start : Nat} (enough : byteLength text ≤ start + rounds) (more : Nat) :
    spansFrom text breakPoints (rounds + more) start = spansFrom text breakPoints rounds start := by
  induction rounds generalizing start with
  | zero =>
    have past : ¬ start < byteLength text := by omega
    cases more with
    | zero => rfl
    | succ more =>
      simp only [spansFrom]
      exact if_neg past
  | succ rounds later =>
    rw [Nat.add_right_comm, spansFrom, spansFrom]
    by_cases inside : start < byteLength text
    · rw [if_pos inside, if_pos inside]
      split
      · rfl
      · next long =>
        have size : chunkSizeChars = 3600 := rfl
        have overlap : chunkOverlapChars = 540 := rfl
        obtain ⟨_, far, _, bound⟩ := chunkEnd_spec breakPoints (show start + chunkSizeChars < byteLength text by omega)
        have next := nextStart_spec text bound (by omega)
        have onward := @later (nextStart text (chunkEnd text breakPoints start)) (by omega)
        simp only [onward]
    · rw [if_neg inside, if_neg inside]

/-- The end of a chunk that is a piece of the text. -/
def chunkStop (chunk : Chunk) : Nat := chunk.pos + byteLength chunk.text.toList

theorem chunkStop_chunkAt {span : Span} (cuts : span.Cuts text) : chunkStop (chunkAt text span) = span.stop := by
  have length := byteLength_slice cuts.1 cuts.2.1 cuts.2.2.1
  have order := cuts.2.2.1
  simp only [chunkStop, chunkAt, String.toList_ofList, length]
  omega

/-- Pieces that take a text from its start to its end, overlapping or touching. -/
structure CoversText (text : List Char) (chunks : List Chunk) : Prop where
  slices : ∀ c ∈ chunks, isCharBoundary text c.pos = true ∧ isCharBoundary text (chunkStop c) = true ∧
    c.text = String.ofList (slice text c.pos (chunkStop c))
  first : chunks.head?.map Chunk.pos = some 0
  last : chunks.getLast?.map chunkStop = some (byteLength text)
  starts : chunks.Pairwise fun a b => a.pos < b.pos
  overlap : chunks.IsChain fun a b => b.pos ≤ chunkStop a
  sizes : ∀ c ∈ chunks.dropLast, chunkSizeChars - chunkWindowChars / 2 ≤ byteLength c.text.toList ∧
    byteLength c.text.toList < chunkSizeChars + chunkWindowChars / 2 + 3

theorem Slides.coversText {spans : List Span} (slides : Slides text 0 spans) :
    CoversText text (spans.map (chunkAt text)) where
  slices c member := by
    obtain ⟨span, inside, rfl⟩ := List.mem_map.mp member
    have cuts := slides.cuts span inside
    rw [chunkStop_chunkAt cuts]
    exact ⟨cuts.1, cuts.2.1, rfl⟩
  first := by
    rw [List.head?_map, Option.map_map]
    exact slides.first
  last := by
    have last := slides.last
    rw [List.getLast?_map, Option.map_map]
    cases found : spans.getLast? with
    | none => simp [found] at last
    | some span =>
      have cuts := slides.cuts span (List.mem_of_getLast? found)
      rw [found] at last
      simpa [chunkStop_chunkAt cuts] using last
  starts := by
    have chain : spans.IsChain fun a b : Span => a.start < b.start := slides.chain.imp fun _ _ follows => follows.1
    have ordered : IsTrans Span fun a b => a.start < b.start := ⟨fun _ _ _ => lt_trans⟩
    exact List.pairwise_map.mpr (List.isChain_iff_pairwise.mp chain)
  overlap := by
    refine (List.isChain_map _).mpr (slides.chain.imp_of_mem_imp fun a b left _ follows => ?_)
    rw [chunkStop_chunkAt (slides.cuts a left)]
    exact follows.2.1
  sizes c early := by
    rw [← List.map_dropLast] at early
    obtain ⟨span, before, rfl⟩ := List.mem_map.mp early
    obtain ⟨_, _, follows⟩ := exists_next slides.chain before
    have cuts := slides.cuts span (List.dropLast_subset _ before)
    have length := byteLength_slice cuts.1 cuts.2.1 cuts.2.2.1
    have size : chunkSizeChars = 3600 := rfl
    have window : chunkWindowChars = 800 := rfl
    simp only [chunkAt, String.toList_ofList, length]
    have long := follows.2.2.2.1
    have short := follows.2.2.2.2
    omega

/-- The loop ends, however many rounds it is given, and the chunks cover the text. -/
theorem chunkFromBreakPoints_covers (text : List Char) (breakPoints : List BreakPoint) :
    (∀ more, spansFrom text breakPoints (byteLength text + 1 + more) 0 =
      spansFrom text breakPoints (byteLength text + 1) 0) ∧
      CoversText text (chunkFromBreakPoints text breakPoints) :=
  ⟨spansFrom_enough (by omega), (breakSpans_slides text breakPoints).coversText⟩

end Rqmd.Chunking
