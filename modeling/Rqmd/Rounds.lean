import Mathlib.Logic.Relation
import Rqmd.ChunkSpans

/-! The rounds of the sliding window: the starts the loop comes to, and what two chunks in a row are. A round
whose raw cut falls inside the last character takes the rest of the text and is still not the last. -/

namespace Rqmd.Chunking
open Text

variable {text : List Char} {breakPoints : List BreakPoint}

/-- One turn of the loop, from the start of a chunk that is not the last to the start of the next. -/
def Turn (text : List Char) (breakPoints : List BreakPoint) (start next : Nat) : Prop :=
  start + chunkSizeChars < byteLength text ∧ next = nextStart text (chunkEnd text breakPoints start)

/-- The loop comes to a round that starts at `start`. -/
def Round (text : List Char) (breakPoints : List BreakPoint) (start : Nat) : Prop :=
  Relation.ReflTransGen (Turn text breakPoints) 0 start

/-- The chunk of the round that starts at `start`. -/
def roundSpan (text : List Char) (breakPoints : List BreakPoint) (start : Nat) : Span :=
  ⟨start, if byteLength text ≤ start + chunkSizeChars then byteLength text else chunkEnd text breakPoints start⟩

theorem roundSpan_last {start : Nat} (last : byteLength text ≤ start + chunkSizeChars) :
    roundSpan text breakPoints start = ⟨start, byteLength text⟩ := by
  rw [roundSpan, if_pos last]

theorem roundSpan_cut {start : Nat} (more : start + chunkSizeChars < byteLength text) :
    roundSpan text breakPoints start = ⟨start, chunkEnd text breakPoints start⟩ := by
  rw [roundSpan, if_neg (Nat.not_le.mpr more)]

/-- The next round starts where this one has brought the loop, inside the text. -/
theorem next_inside {start : Nat} (more : start + chunkSizeChars < byteLength text) :
    isCharBoundary text (nextStart text (chunkEnd text breakPoints start)) = true ∧
      start < nextStart text (chunkEnd text breakPoints start) ∧
      nextStart text (chunkEnd text breakPoints start) + 540 ≤ chunkEnd text breakPoints start ∧
      chunkEnd text breakPoints start ≤ byteLength text := by
  have overlap : chunkOverlapChars = 540 := rfl
  obtain ⟨_, long, _, bound⟩ := chunkEnd_spec breakPoints more
  obtain ⟨boundary, early, late⟩ := nextStart_spec text bound (by omega)
  exact ⟨boundary, by omega, early, bound⟩

theorem Round.inside {start : Nat} (some : text ≠ []) (round : Round text breakPoints start) :
    isCharBoundary text start = true ∧ start < byteLength text := by
  induction round with
  | refl => exact ⟨isCharBoundary_zero text, byteLength_pos some⟩
  | tail _ turn _ =>
    have next := @next_inside _ breakPoints _ turn.1
    rw [turn.2]
    exact ⟨next.1, by omega⟩

/-- What holds of every later round holds of this one and of all that come after the next. -/
theorem forall_rounds_iff {keep : Nat → Prop} {start : Nat} (more : start + chunkSizeChars < byteLength text) :
    (∀ s, Relation.ReflTransGen (Turn text breakPoints) start s → keep s) ↔
      keep start ∧
        ∀ s, Relation.ReflTransGen (Turn text breakPoints) (nextStart text (chunkEnd text breakPoints start)) s → keep s := by
  constructor
  · intro all
    exact ⟨all start .refl, fun s later => all s (later.head ⟨more, rfl⟩)⟩
  · intro parts s round
    rcases Relation.ReflTransGen.cases_head round with same | ⟨next, turn, later⟩
    · exact same ▸ parts.1
    · exact parts.2 s (turn.2 ▸ later)

/-- Without a turn there is one round. -/
theorem forall_rounds_last {keep : Nat → Prop} {start : Nat} (last : byteLength text ≤ start + chunkSizeChars) :
    (∀ s, Relation.ReflTransGen (Turn text breakPoints) start s → keep s) ↔ keep start := by
  constructor
  · exact fun all => all start .refl
  · intro now s round
    rcases Relation.ReflTransGen.cases_head round with same | ⟨next, turn, _⟩
    · exact same ▸ now
    · have := turn.1
      omega

theorem head_spansFrom {rounds start : Nat} (inside : start < byteLength text) :
    (spansFrom text breakPoints (rounds + 1) start).head? = some (roundSpan text breakPoints start) := by
  rw [spansFrom, if_pos inside]
  split
  · next last => rw [roundSpan_last (by omega), List.head?_cons]
  · next more => rw [roundSpan_cut (by omega), List.head?_cons]

/-- A relation holds between every chunk and the next exactly when it does in every round with a next one.
The induction is on the rounds left. -/
theorem spansFrom_isChain_iff (rel : Span → Span → Prop) {rounds start : Nat} (inside : start < byteLength text)
    (enough : byteLength text ≤ start + rounds) :
    (spansFrom text breakPoints rounds start).IsChain rel ↔
      ∀ s, Relation.ReflTransGen (Turn text breakPoints) start s → s + chunkSizeChars < byteLength text →
        rel (roundSpan text breakPoints s)
          (roundSpan text breakPoints (nextStart text (chunkEnd text breakPoints s))) := by
  induction rounds generalizing start with
  | zero => omega
  | succ rounds later =>
    rw [spansFrom, if_pos inside]
    split
    · next last =>
      rw [forall_rounds_last (by omega)]
      exact ⟨fun _ more => by omega, fun _ => List.isChain_singleton _⟩
    · next long =>
      have more : start + chunkSizeChars < byteLength text := by omega
      have next := @next_inside _ breakPoints _ more
      have size : chunkSizeChars = 3600 := rfl
      have far := (chunkEnd_spec breakPoints more).2.1
      rw [forall_rounds_iff more, List.isChain_cons, later (by omega) (by omega)]
      cases rounds with
      | zero => omega
      | succ rounds =>
        rw [head_spansFrom (by omega), ← roundSpan_cut more]
        simp [more]

theorem breakSpans_isChain_iff (rel : Span → Span → Prop) :
    (breakSpans text breakPoints).IsChain rel ↔
      ∀ start, Round text breakPoints start → start + chunkSizeChars < byteLength text →
        rel (roundSpan text breakPoints start)
          (roundSpan text breakPoints (nextStart text (chunkEnd text breakPoints start))) := by
  unfold breakSpans
  split
  · next short =>
    have only : byteLength text ≤ 0 + chunkSizeChars := by omega
    unfold Round
    rw [forall_rounds_last only]
    exact ⟨fun _ more => by omega, fun _ => List.isChain_singleton _⟩
  · next long => exact spansFrom_isChain_iff rel (by omega) (by omega)

/-- A span of the run is that of a round. -/
theorem mem_spansFrom {rounds start : Nat} {span : Span} (member : span ∈ spansFrom text breakPoints rounds start) :
    Relation.ReflTransGen (Turn text breakPoints) start span.start ∧ span = roundSpan text breakPoints span.start := by
  induction rounds generalizing start with
  | zero => simp [spansFrom] at member
  | succ rounds later =>
    rw [spansFrom] at member
    split at member
    · split at member
      · next last =>
        rw [List.mem_singleton.mp member]
        exact ⟨.refl, (roundSpan_last (by omega)).symm⟩
      · next long =>
        rcases List.mem_cons.mp member with same | behind
        · rw [same]
          exact ⟨.refl, (roundSpan_cut (by omega)).symm⟩
        · obtain ⟨round, whole⟩ := later behind
          exact ⟨round.head ⟨by omega, rfl⟩, whole⟩
    · simp at member

theorem mem_breakSpans {span : Span} (member : span ∈ breakSpans text breakPoints) :
    Round text breakPoints span.start ∧ span = roundSpan text breakPoints span.start := by
  unfold breakSpans at member
  split at member
  · next short =>
    rw [List.mem_singleton.mp member]
    exact ⟨.refl, (roundSpan_last (by omega)).symm⟩
  · exact mem_spansFrom member

/-- Of two rounds one is before the other. -/
theorem Round.total {a b : Nat} (left : Round text breakPoints a) (right : Round text breakPoints b) :
    Relation.ReflTransGen (Turn text breakPoints) a b ∨ Relation.ReflTransGen (Turn text breakPoints) b a :=
  Relation.ReflTransGen.total_of_right_unique (fun _ _ _ one other => one.2.trans other.2.symm) left right

/-- Later rounds start and end no earlier. -/
theorem roundSpan_mono {a b : Nat} (round : Round text breakPoints a)
    (later : Relation.ReflTransGen (Turn text breakPoints) a b) :
    a ≤ b ∧ (roundSpan text breakPoints a).stop ≤ (roundSpan text breakPoints b).stop := by
  have follows := (breakSpans_isChain_iff Span.Follows).mp (breakSpans_slides text breakPoints).chain
  induction later with
  | refl => exact ⟨Nat.le_refl _, Nat.le_refl _⟩
  | tail behind turn ih =>
    have step := follows _ (round.trans behind) turn.1
    have starts := step.1
    have stops := step.2.2.1
    rw [← turn.2] at starts stops
    simp only [roundSpan] at starts
    exact ⟨by omega, by omega⟩

/-! ### Where a round cuts -/

/-- The cut of a round before it is moved to a character boundary: the best break of its window, or else
the ideal end. -/
def rawCut (text : List Char) (breakPoints : List BreakPoint) (start : Nat) : Nat :=
  (bestBreakInWindow breakPoints (start + chunkSizeChars - chunkWindowChars / 2)
    (min (start + chunkSizeChars + chunkWindowChars / 2) (byteLength text))).getD (start + chunkSizeChars)

theorem rawCut_inside {start : Nat} (more : start + chunkSizeChars < byteLength text) :
    rawCut text breakPoints start < byteLength text := by
  unfold rawCut
  cases found : bestBreakInWindow breakPoints (start + chunkSizeChars - chunkWindowChars / 2)
      (min (start + chunkSizeChars + chunkWindowChars / 2) (byteLength text)) with
  | none => exact more
  | some pos =>
    have window := bestBreak_mem found
    rw [Option.getD_some]
    omega

theorem chunkEnd_eq {start : Nat} (more : start + chunkSizeChars < byteLength text) :
    chunkEnd text breakPoints start = snapCharBoundaryForward text (rawCut text breakPoints start) := by
  have ideal : min (start + chunkSizeChars) (byteLength text) = start + chunkSizeChars := by omega
  have inside := @rawCut_inside _ breakPoints _ more
  unfold chunkEnd
  simp only [ideal]
  rw [← rawCut, Nat.min_eq_left (by omega)]

theorem byteLength_dropLast_lt (some : text ≠ []) : byteLength text.dropLast < byteLength text := by
  have parts := congrArg byteLength (List.dropLast_concat_getLast some)
  have size := (text.getLast some).utf8Size_pos
  simp only [byteLength_append, byteLength_cons, byteLength_nil] at parts
  omega

theorem isCharBoundary_dropLast (text : List Char) : isCharBoundary text (byteLength text.dropLast) = true := by
  by_cases none : text = []
  · rw [none]
    rfl
  · have cut := isCharBoundary_append text.dropLast [text.getLast none]
    rwa [List.dropLast_concat_getLast] at cut

/-- The one boundary behind the start of the last character is the end. -/
theorem boundary_behind_last {q : Nat} (boundary : isCharBoundary text q = true)
    (behind : byteLength text.dropLast < q) : q = byteLength text := by
  by_cases none : text = []
  · subst none
    have := le_length_of_boundary boundary
    simp only [byteLength_nil] at this
    omega
  · have cut := isCharBoundary_dropBytes (isCharBoundary_dropLast text) (Nat.le_of_lt behind)
    have rest : dropBytes (byteLength text.dropLast) text = [text.getLast none] := by
      conv => lhs; arg 2; rw [← List.dropLast_concat_getLast none]
      exact dropBytes_append_length _ _
    have whole := congrArg byteLength (List.dropLast_concat_getLast none)
    rw [byteLength_append] at whole
    rw [rest, boundary, isCharBoundary_iff, takeBytes] at cut
    split at cut
    · simp only [takeBytes, byteLength_cons, byteLength_nil] at cut whole
      omega
    · rw [byteLength_nil] at cut
      omega

/-- A round that is not the last takes the rest of the text exactly when its raw cut falls inside the last
character. -/
theorem chunkEnd_eq_length_iff {start : Nat} (more : start + chunkSizeChars < byteLength text) :
    chunkEnd text breakPoints start = byteLength text ↔ byteLength text.dropLast < rawCut text breakPoints start := by
  have inside := @rawCut_inside _ breakPoints _ more
  have some : text ≠ [] := by
    rintro rfl
    simp at more
  rw [chunkEnd_eq more]
  obtain ⟨boundary, behind, _, _⟩ := snapForward_spec text (Nat.le_of_lt inside)
  constructor
  · intro whole
    by_contra early
    have room : rawCut text breakPoints start + (byteLength text - rawCut text breakPoints start) = byteLength text := by
      omega
    have least := (forwardFrom_spec text room).2.2 (byteLength text.dropLast) (by omega) (isCharBoundary_dropLast text)
    have shorter := byteLength_dropLast_lt some
    simp only [snapCharBoundaryForward, Nat.min_eq_left (Nat.le_of_lt inside)] at whole
    omega
  · exact fun late => boundary_behind_last boundary (by omega)

/-! ### Redundant chunks -/

/-- A round that takes the rest of the text is followed by a chunk inside its own. -/
theorem next_ends_later_iff {start : Nat} (more : start + chunkSizeChars < byteLength text) :
    (roundSpan text breakPoints start).stop <
        (roundSpan text breakPoints (nextStart text (chunkEnd text breakPoints start))).stop ↔
      rawCut text breakPoints start ≤ byteLength text.dropLast := by
  have next := @next_inside _ breakPoints _ more
  have bound := next.2.2.2
  rw [roundSpan_cut more, ← Nat.not_lt, ← chunkEnd_eq_length_iff more]
  by_cases last : byteLength text ≤ nextStart text (chunkEnd text breakPoints start) + chunkSizeChars
  · rw [roundSpan_last last]
    simp only
    omega
  · have long := (chunkEnd_spec breakPoints (Nat.lt_of_not_le last)).2.1
    have late := (nextStart_spec text bound (by
      have far := (chunkEnd_spec breakPoints more).2.1
      have overlap : chunkOverlapChars = 540 := rfl
      omega)).2.2
    rw [roundSpan_cut (Nat.lt_of_not_le last)]
    simp only
    have inner := (chunkEnd_spec breakPoints (Nat.lt_of_not_le last)).2.2.2
    have size : chunkSizeChars = 3600 := rfl
    omega

/-- What two spans in a row do, their chunks do. -/
theorem chunks_isChain_iff (rel : Nat → Nat → Prop) :
    ((chunkFromBreakPoints text breakPoints).IsChain fun a b => rel (chunkStop a) (chunkStop b)) ↔
      (breakSpans text breakPoints).IsChain fun a b => rel a.stop b.stop := by
  have cuts := (breakSpans_slides text breakPoints).cuts
  rw [chunkFromBreakPoints, List.isChain_map]
  constructor
  · intro chain
    refine chain.imp_of_mem_imp fun a b left right related => ?_
    rwa [chunkStop_chunkAt (cuts a left), chunkStop_chunkAt (cuts b right)] at related
  · intro chain
    refine chain.imp_of_mem_imp fun a b left right related => ?_
    rwa [chunkStop_chunkAt (cuts a left), chunkStop_chunkAt (cuts b right)]

/-- Each chunk ends behind the one before it exactly when no round is cut inside the last character. -/
theorem chunks_end_later_iff (text : List Char) (breakPoints : List BreakPoint) :
    ((chunkFromBreakPoints text breakPoints).IsChain fun a b => chunkStop a < chunkStop b) ↔
      ∀ start, Round text breakPoints start → start + chunkSizeChars < byteLength text →
        rawCut text breakPoints start ≤ byteLength text.dropLast := by
  rw [chunks_isChain_iff fun a b => a < b, breakSpans_isChain_iff]
  refine forall_congr' fun start => forall_congr' fun _ => forall_congr' fun more => ?_
  exact next_ends_later_iff more

theorem byteLength_replicate (n : Nat) (c : Char) : byteLength (List.replicate n c) = n * c.utf8Size := by
  induction n with
  | zero => simp
  | succ n ih =>
    rw [List.replicate_succ, byteLength_cons, ih, Nat.succ_mul]
    omega

/-- A text of one line whose last character lies across the ideal end of its first chunk. -/
def longWord : List Char := List.replicate 3599 'a' ++ ['é']

theorem longWord_repeats_its_end :
    ¬ (chunkFromBreakPoints longWord []).IsChain fun a b => chunkStop a < chunkStop b := by
  have size : byteLength longWord = 3601 := by
    rw [longWord, byteLength_append, byteLength_replicate]
    decide
  have front : byteLength longWord.dropLast = 3599 := by
    rw [longWord, List.dropLast_concat, byteLength_replicate]
    decide
  have more : 0 + chunkSizeChars < byteLength longWord := by
    rw [size]
    decide
  intro chain
  rw [chunks_isChain_iff fun a b => a < b, breakSpans_isChain_iff] at chain
  have early := (next_ends_later_iff more).mp (chain 0 .refl more)
  rw [front] at early
  exact absurd early (by decide)

end Rqmd.Chunking
