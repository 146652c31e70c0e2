import Mathlib.Data.List.Dedup
import Mathlib.Order.Bounds.Basic
import Rqmd.Boundaries
import Rqmd.ChunkSpans

/-! Where the chunks of a source file end: at the last declaration that begins in the window around their full size. -/

namespace Rqmd.Chunking
open Text

variable {language : Language} {root : SyntaxNode}

/-! ### The best break of a window -/

theorem foldl_step_ne_none {step : Option BreakPoint → BreakPoint → Option BreakPoint}
    (step_some : ∀ a b, step (some a) b = if a.beats b then some a else some b) (breaks : List BreakPoint) :
    ∀ best, breaks.foldl step (some best) ≠ none := by
  induction breaks with
  | nil => exact fun best => Option.some_ne_none best
  | cons b rest ih =>
    intro best
    rw [List.foldl_cons, step_some]
    split
    · exact ih best
    · exact ih b

/-- Among breaks of one score the last of all is taken. -/
theorem foldl_latest {score : Int} {step : Option BreakPoint → BreakPoint → Option BreakPoint}
    (step_none : ∀ b, step none b = some b)
    (step_some : ∀ a b, step (some a) b = if a.beats b then some a else some b) (breaks : List BreakPoint) :
    ∀ best, (∀ a ∈ best, a.score = score) → (∀ b ∈ breaks, b.score = score) →
      (breaks.foldl step best = none → breaks = []) ∧ ∀ last, breaks.foldl step best = some last →
        (∀ a ∈ best, a.pos ≤ last.pos) ∧ ∀ b ∈ breaks, b.pos ≤ last.pos := by
  induction breaks with
  | nil =>
    intro best _ _
    refine ⟨fun _ => rfl, fun last found => ⟨fun a held => ?_, fun b none => absurd none List.not_mem_nil⟩⟩
    rw [Option.mem_def] at held
    obtain rfl : a = last := Option.some.inj (held.symm.trans found)
    exact Nat.le_refl _
  | cons b rest ih =>
    intro best equal scores
    have alike : b.score = score := scores b List.mem_cons_self
    -- the break the step keeps is at neither of its two before the other
    have kept : ∃ c, step best b = some c ∧ c.score = score ∧ b.pos ≤ c.pos ∧ ∀ a ∈ best, a.pos ≤ c.pos := by
      cases best with
      | none => exact ⟨b, step_none b, alike, Nat.le_refl _, fun a none => by cases none⟩
      | some a =>
        have same : a.score = score := equal a rfl
        rw [step_some]
        by_cases beaten : a.beats b = true
        · have behind : b.pos < a.pos := by simpa [BreakPoint.beats, same, alike] using beaten
          refine ⟨a, if_pos beaten, same, behind.le, fun c held => ?_⟩
          exact Nat.le_of_eq (congrArg BreakPoint.pos (Option.some.inj held).symm)
        · have ahead : a.pos ≤ b.pos := by simpa [BreakPoint.beats, same, alike] using beaten
          refine ⟨b, if_neg beaten, alike, Nat.le_refl _, fun c held => ?_⟩
          exact (Nat.le_of_eq (congrArg BreakPoint.pos (Option.some.inj held).symm)).trans ahead
    obtain ⟨c, next, score, later, latest⟩ := kept
    obtain ⟨-, onward⟩ := ih (some c) (fun a held => Option.some.inj held ▸ score)
      fun d member => scores d (List.mem_cons_of_mem _ member)
    rw [List.foldl_cons, next]
    refine ⟨fun none => ?_, fun last found => ?_⟩
    · exact absurd none (foldl_step_ne_none step_some rest c)
    · obtain ⟨first, others⟩ := onward last found
      refine ⟨fun a held => (latest a held).trans (first c rfl), fun d member => ?_⟩
      rcases List.mem_cons.mp member with rfl | below
      · exact later.trans (first c rfl)
      · exact others d below

theorem mem_declarationBreaks {positions : List Nat} {b : BreakPoint} :
    b ∈ declarationBreaks positions ↔ b.pos ∈ positions ∧ b.score = 100 := by
  unfold declarationBreaks
  rw [List.mem_map]
  constructor
  · rintro ⟨pos, inside, rfl⟩
    exact ⟨(List.mem_insertionSort _).mp (List.mem_dedup.mp inside), rfl⟩
  · rintro ⟨inside, score⟩
    refine ⟨b.pos, List.mem_dedup.mpr ((List.mem_insertionSort _).mpr inside), ?_⟩
    rw [← score]

/-- The positions a window admits. -/
def inWindow (positions : List Nat) (windowStart windowEnd : Nat) : Set Nat :=
  {pos | pos ∈ positions ∧ windowStart ≤ pos ∧ pos < windowEnd}

theorem bestBreak_declarations (positions : List Nat) (windowStart windowEnd : Nat) :
    (∃ pos, bestBreakInWindow (declarationBreaks positions) windowStart windowEnd = some pos ∧
      IsGreatest (inWindow positions windowStart windowEnd) pos) ∨
    bestBreakInWindow (declarationBreaks positions) windowStart windowEnd = none ∧
      inWindow positions windowStart windowEnd = ∅ := by
  have inside : ∀ b, b ∈ (declarationBreaks positions).filter (fun b => windowStart ≤ b.pos && b.pos < windowEnd) ↔
      b.pos ∈ inWindow positions windowStart windowEnd ∧ b.score = 100 := by
    intro b
    rw [List.mem_filter, mem_declarationBreaks]
    simp [inWindow]
    tauto
  have scores : ∀ b ∈ (declarationBreaks positions).filter (fun b => windowStart ≤ b.pos && b.pos < windowEnd),
      b.score = 100 := fun b member => ((inside b).mp member).2
  cases found : bestBreakInWindow (declarationBreaks positions) windowStart windowEnd with
  | none =>
    refine .inr ⟨rfl, Set.eq_empty_of_forall_notMem fun pos admitted => ?_⟩
    have missed := Option.map_eq_none_iff.mp found
    have nothing := (foldl_latest (fun _ => rfl) (fun _ _ => rfl) _ _ (fun a none => by cases none) scores).1 missed
    have member := (inside ⟨pos, 100⟩).mpr ⟨admitted, rfl⟩
    rw [nothing] at member
    cases member
  | some pos =>
    obtain ⟨last, chosen, rfl⟩ := Option.map_eq_some_iff.mp found
    have latest := (foldl_latest (fun _ => rfl) (fun _ _ => rfl) _ _ (fun a none => by cases none) scores).2 last chosen
    have among := foldl_takes (fun best c => ?_) _ _ chosen
    · rcases among with member | impossible
      · refine .inl ⟨last.pos, rfl, ((inside last).mp member).1, fun pos admitted => ?_⟩
        exact latest.2 _ ((inside ⟨pos, 100⟩).mpr ⟨admitted, rfl⟩)
      · cases impossible
    · cases best with
      | none => exact .inr rfl
      | some a =>
        by_cases beaten : a.beats c
        · exact .inl (if_pos beaten)
        · exact .inr (if_neg beaten)

/-! ### The spans -/

/-- A span that others follow was cut at the end of its window. -/
theorem spansFrom_stop {text : List Char} {breakPoints : List BreakPoint} {rounds : Nat} {span next : Span}
    {rest : List Span} : ∀ {start : Nat} {front : List Span},
      spansFrom text breakPoints rounds start = front ++ span :: next :: rest →
        span.start + chunkSizeChars < byteLength text ∧ span.stop = chunkEnd text breakPoints span.start := by
  induction rounds with
  | zero =>
    intro start front spans
    simp [spansFrom] at spans
  | succ rounds ih =>
    intro start front spans
    rw [spansFrom] at spans
    split at spans
    · split at spans
      · cases front with
        | nil => simp at spans
        | cons first front => simp at spans
      · next more =>
        cases front with
        | nil =>
          obtain ⟨rfl, -⟩ := List.cons.inj spans
          exact ⟨by simp only; omega, rfl⟩
        | cons first front => exact ih (List.cons.inj spans).2
    · simp at spans

/-- How a chunk that is not the last ends: at the last declaration that begins in the window around its full size, or
at its full size where none begins there. -/
def EndsAt (begins : Nat → Prop) (text : List Char) (span : Span) : Prop :=
  let window := {pos | begins pos ∧ span.start + 3200 ≤ pos ∧ pos < min (span.start + 4000) (byteLength text)}
  (∃ pos, IsGreatest window pos ∧ span.stop = snapCharBoundaryForward text pos) ∨
    window = ∅ ∧ span.stop = snapCharBoundaryForward text (span.start + chunkSizeChars)

theorem breakSpans_end {text : List Char} {positions : List Nat} {front rest : List Span} {span next : Span}
    (spans : breakSpans text (declarationBreaks positions) = front ++ span :: next :: rest) :
    EndsAt (· ∈ positions) text span := by
  unfold breakSpans at spans
  split at spans
  · cases front with
    | nil => simp at spans
    | cons first front => simp at spans
  · obtain ⟨more, stop⟩ := spansFrom_stop spans
    have size : chunkSizeChars = 3600 := rfl
    have half : chunkWindowChars / 2 = 400 := rfl
    have ideal : min (span.start + chunkSizeChars) (byteLength text) = span.start + 3600 := by omega
    have early : span.start + 3600 - 400 = span.start + 3200 := by omega
    have late : span.start + 3600 + 400 = span.start + 4000 := by omega
    unfold chunkEnd at stop
    simp only [ideal, half, early, late] at stop
    rcases bestBreak_declarations positions (span.start + 3200) (min (span.start + 4000) (byteLength text)) with
      ⟨pos, found, greatest⟩ | ⟨none, empty⟩
    · have bound : pos < min (span.start + 4000) (byteLength text) := greatest.1.2.2
      rw [found, Option.getD_some, Nat.min_eq_left (by omega)] at stop
      exact .inl ⟨pos, greatest, stop⟩
    · rw [none, Option.getD_none, Nat.min_eq_left (by omega), ← size] at stop
      exact .inr ⟨empty, stop⟩

/-- The spans of a source file. -/
def sourceSpans (language : Language) (root : SyntaxNode) (text : List Char) : List Span :=
  breakSpans text (declarationBreaks (language.collectBoundaries root))

theorem sourceSpans_end {text : List Char} {front rest : List Span} {span next : Span}
    (spans : sourceSpans language root text = front ++ span :: next :: rest) :
    EndsAt (Begins language root) text span := by
  have begins : (· ∈ language.collectBoundaries root) = Begins language root :=
    funext fun _ => propext mem_collectBoundaries
  exact begins ▸ breakSpans_end spans

variable {compiled : List Language} {parse : Language → String → Option SyntaxNode} {path text ext : String}

theorem sourceBreaks_tree (extension : pathExtension path = some ext) (known : languageFor compiled ext = some language)
    (parsed : parse language text = some root) :
    sourceBreaks (treeDeclarations compiled parse) path text =
      if language.collectBoundaries root = [] then none
      else some (declarationBreaks (language.collectBoundaries root)) := by
  simp [sourceBreaks, extension, treeDeclarations, known, parsed]

/-- A file with a tree is cut at its declarations, and as prose where it has none. -/
theorem source_chunks_exact (extension : pathExtension path = some ext)
    (known : languageFor compiled ext = some language) (parsed : parse language text = some root) :
    ((∀ pos, ¬ Begins language root pos) →
      chunkDocumentForPath (treeDeclarations compiled parse) path text = chunkDocument text.toList) ∧
    ((∃ pos, Begins language root pos) →
      chunkDocumentForPath (treeDeclarations compiled parse) path text =
          (sourceSpans language root text.toList).map (chunkAt text.toList) ∧
        Slides text.toList 0 (sourceSpans language root text.toList) ∧
          ∀ front span next rest, sourceSpans language root text.toList = front ++ span :: next :: rest →
            EndsAt (Begins language root) text.toList span) := by
  have breaks := sourceBreaks_tree extension known parsed
  unfold chunkDocumentForPath
  refine ⟨fun nowhere => ?_, fun somewhere => ⟨?_, ?_, ?_⟩⟩
  · have nothing : language.collectBoundaries root = [] :=
      List.eq_nil_iff_forall_not_mem.mpr fun pos found => nowhere pos (mem_collectBoundaries.mp found)
    rw [breaks, if_pos nothing]
  · obtain ⟨pos, begins⟩ := somewhere
    have found : language.collectBoundaries root ≠ [] := List.ne_nil_of_mem (mem_collectBoundaries.mpr begins)
    rw [breaks, if_neg found]
    rfl
  · exact breakSpans_slides _ _
  · intro front span next rest spans
    exact sourceSpans_end spans

/-- A function of a Rust file, its comment on the line above; other code fills the rest. -/
def commentedFunction : SyntaxNode :=
  ⟨"source_file", 0, 5000, 0, 60, 0,
    [⟨"use_declaration", 0, 3499, 0, 40, 20, []⟩, ⟨"line_comment", 3500, 3560, 41, 42, 0, []⟩,
      ⟨"function_item", 3560, 4900, 42, 60, 1, []⟩]⟩

def fiveThousandChars : List Char := List.replicate 5000 'a'

def fiveThousand : String := String.ofList fiveThousandChars

theorem source_chunks_commented :
    ((∀ pos, ¬ Begins rustLanguage commentedFunction pos) →
      chunkDocumentForPath (treeDeclarations registry fun _ _ => some commentedFunction) "src/lib.rs" fiveThousand =
        chunkDocument fiveThousand.toList) ∧
    ((∃ pos, Begins rustLanguage commentedFunction pos) →
      chunkDocumentForPath (treeDeclarations registry fun _ _ => some commentedFunction) "src/lib.rs" fiveThousand =
          (sourceSpans rustLanguage commentedFunction fiveThousand.toList).map (chunkAt fiveThousand.toList) ∧
        Slides fiveThousand.toList 0 (sourceSpans rustLanguage commentedFunction fiveThousand.toList) ∧
          ∀ front span next rest,
            sourceSpans rustLanguage commentedFunction fiveThousand.toList = front ++ span :: next :: rest →
              EndsAt (Begins rustLanguage commentedFunction) fiveThousand.toList span) := by
  have extension : pathExtension "src/lib.rs" = some "rs" := by decide +kernel
  have known : languageFor registry "rs" = some rustLanguage := by decide +kernel
  exact source_chunks_exact extension known rfl

end Rqmd.Chunking
