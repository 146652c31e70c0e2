import Rqmd.Lib.Marks
import Rqmd.Lib.Scan
import Rqmd.Snippet

/-! Highlighting query terms. Each term is searched in a lowercased copy of what the terms before it left, and its places
there are taken as places of the original, wherever they fall. -/

namespace Rqmd.Output
open Chunking Text Marks

/-- The escape sequences: yellow, bold and reset. -/
def ansi : Scheme Char where
  lead := '\x1b'
  bodies := [['[', '3', '3', 'm'], ['[', '1', 'm'], ['[', '0', 'm']]
  plain := by decide
  apart := by decide

def yellow : List Char := ['\x1b', '[', '3', '3', 'm']

def bold : List Char := ['\x1b', '[', '1', 'm']

def reset : List Char := ['\x1b', '[', '0', 'm']

/-- `to_lowercase`, which leaves no text empty. -/
structure Lowercase where
  apply : List Char → List Char
  nonempty : ∀ text, text ≠ [] → apply text ≠ []

variable (lowercase : Lowercase)

def literalAt (pattern text : List Char) : Option Nat := if pattern.isPrefixOf text then some pattern.length else none

/-- The places the loop finds a term at; a lowercased term is never empty, so each search goes on behind a match. -/
def termPlaces (lowerTerm lowerResult : List Char) : List Nat := findIter (literalAt lowerTerm) 0 0 lowerResult

/-- What is highlighted for a place in the lowercased copy. -/
def highlightRange (result : List Char) (termLen rawStart : Nat) : Span :=
  let start := snapCharBoundaryBackward result (min rawStart (byteLength result))
  ⟨start, max (snapCharBoundaryBackward result (min (rawStart + termLen) (byteLength result))) start⟩

def highlightRanges (result term : List Char) : List Span :=
  (termPlaces (lowercase.apply term) (lowercase.apply result)).map (highlightRange result (byteLength term))

/-- The ranges behind `last`, each between its sequences; `none` stands for the panic of a slice. -/
def wrapFrom (result : List Char) : Nat → List Span → Option (List Char)
  | last, [] => checkedSlice result last (byteLength result)
  | last, range :: ranges => do
    let before ← checkedSlice result last range.start
    let shown ← checkedSlice result range.start range.stop
    let after ← wrapFrom result range.stop ranges
    some (before ++ (yellow ++ (bold ++ (shown ++ (reset ++ after)))))

def highlightTerm (result term : List Char) : Option (List Char) :=
  wrapFrom result 0 (highlightRanges lowercase result term)

def highlightTermsUnconditional (text : List Char) (query : String) : Option (List Char) :=
  let terms := (splitWhitespace query).filter fun t => decide (3 ≤ t.length)
  terms.foldlM (highlightTerm lowercase) text

/-! ### When a pass goes well -/

/-- A place strictly inside an escape sequence. -/
def InsideSequence (result : List Char) (n : Nat) : Prop := Cuts ansi (takeBytes n result) (dropBytes n result)

/-- No range starts in front of the end of the one before it. -/
def InOrder : Nat → List Span → Prop
  | _, [] => True
  | last, range :: ranges => last ≤ range.start ∧ InOrder range.stop ranges

/-- The ranges of a term follow each other and stay clear of the sequences put in before. -/
def Clean (result term : List Char) : Prop :=
  InOrder 0 (highlightRanges lowercase result term) ∧
    ∀ range ∈ highlightRanges lowercase result term,
      ¬InsideSequence result range.start ∧ ¬InsideSequence result range.stop

/-- Every term finds a text it can highlight cleanly. -/
def Undisturbed : List (List Char) → List Char → Prop
  | [], _ => True
  | term :: terms, result =>
    Clean lowercase result term ∧ ∀ next, highlightTerm lowercase result term = some next → Undisturbed terms next

/-! ### Slices -/

variable {lowercase : Lowercase} {result text out acc term : List Char} {last : Nat} {ranges : List Span} {range : Span}

/-- A range of the text. -/
structure OnBoundaries (result : List Char) (range : Span) : Prop where
  start : isCharBoundary result range.start = true
  stop : isCharBoundary result range.stop = true
  order : range.start ≤ range.stop

theorem highlightRange_spec (result : List Char) (termLen rawStart : Nat) :
    OnBoundaries result (highlightRange result termLen rawStart) := by
  have start := snapBackward_spec result (Nat.min_le_right rawStart (byteLength result))
  have stop := snapBackward_spec result (Nat.min_le_right (rawStart + termLen) (byteLength result))
  refine ⟨start.1, ?_, Nat.le_max_right _ _⟩
  unfold highlightRange
  dsimp only
  rcases Nat.le_total (snapCharBoundaryBackward result (min (rawStart + termLen) (byteLength result)))
    (snapCharBoundaryBackward result (min rawStart (byteLength result))) with less | more
  · rw [Nat.max_eq_right less]
    exact start.1
  · rw [Nat.max_eq_left more]
    exact stop.1

theorem highlightRanges_spec (lowercase : Lowercase) (result term : List Char) :
    ∀ range ∈ highlightRanges lowercase result term, OnBoundaries result range := by
  intro range inside
  obtain ⟨raw, -, rfl⟩ := List.mem_map.mp inside
  exact highlightRange_spec result _ raw

/-- One turn of the loop, when its range does not start too early. -/
theorem wrapFrom_cons (boundary : isCharBoundary result last = true) (spec : OnBoundaries result range)
    (order : last ≤ range.start) (ranges : List Span) :
    wrapFrom result last (range :: ranges) = (wrapFrom result range.stop ranges).map fun after =>
      slice result last range.start ++ (yellow ++ (bold ++ (slice result range.start range.stop ++ (reset ++ after)))) := by
  rw [wrapFrom, checkedSlice_some boundary spec.start order, checkedSlice_some spec.start spec.stop spec.order]
  cases wrapFrom result range.stop ranges with
  | none => rfl
  | some after => rfl

/-- The slices are taken without a panic exactly when the ranges are in order. -/
theorem wrapFrom_isSome (boundary : isCharBoundary result last = true)
    (spec : ∀ range ∈ ranges, OnBoundaries result range) : (wrapFrom result last ranges).isSome = true ↔ InOrder last ranges := by
  induction ranges generalizing last with
  | nil =>
    rw [wrapFrom, checkedSlice_some boundary (isCharBoundary_length result) (le_length_of_boundary boundary)]
    simp [InOrder]
  | cons range ranges later =>
    have own := spec range List.mem_cons_self
    have others := fun other inside => spec other (List.mem_cons_of_mem range inside)
    by_cases order : last ≤ range.start
    · rw [wrapFrom_cons boundary own order, Option.isSome_map, later own.stop others, InOrder]
      exact (and_iff_right order).symm
    · rw [wrapFrom, checkedSlice_none (Nat.lt_of_not_le order), InOrder]
      simp [order]

/-! ### The sequences put in -/

theorem opening_woven {text out : List Char} (woven : Woven ansi text out) : Woven ansi text (yellow ++ (bold ++ out)) :=
  Woven.mark (show ['[', '3', '3', 'm'] ∈ ansi.bodies by decide)
    (Woven.mark (show ['[', '1', 'm'] ∈ ansi.bodies by decide) woven)

theorem reset_woven {text out : List Char} (woven : Woven ansi text out) : Woven ansi text (reset ++ out) :=
  Woven.mark (show ['[', '0', 'm'] ∈ ansi.bodies by decide) woven

/-- What a turn of the loop writes, from the end of the range before. -/
theorem turn_woven {first second third piece shown after : List Char} (before : Woven ansi first piece)
    (wrapped : Woven ansi second shown) (behind : Woven ansi third after) :
    Woven ansi (first ++ (second ++ third)) (piece ++ (yellow ++ (bold ++ (shown ++ (reset ++ after))))) :=
  before.append (opening_woven (wrapped.append (reset_woven behind)))

theorem InOrder.of_some (boundary : isCharBoundary result last = true)
    (spec : ∀ range ∈ ranges, OnBoundaries result range) (found : wrapFrom result last ranges = some out) :
    InOrder last ranges :=
  (wrapFrom_isSome boundary spec).mp (by rw [found]; rfl)

/-- A pass only puts sequences in. -/
theorem wrapFrom_woven (boundary : isCharBoundary result last = true) (spec : ∀ range ∈ ranges, OnBoundaries result range)
    (found : wrapFrom result last ranges = some out) : Woven ansi (dropBytes last result) out := by
  induction ranges generalizing last out with
  | nil =>
    rw [wrapFrom, checkedSlice_some boundary (isCharBoundary_length result) (le_length_of_boundary boundary),
      slice_to_end boundary] at found
    rw [← Option.some.inj found]
    exact .refl _
  | cons range ranges later =>
    have own := spec range List.mem_cons_self
    have others := fun other inside => spec other (List.mem_cons_of_mem range inside)
    have order := (InOrder.of_some boundary spec found).1
    rw [wrapFrom_cons boundary own order] at found
    obtain ⟨after, rest, rfl⟩ := Option.map_eq_some_iff.mp found
    rw [dropBytes_eq_slice boundary own.start order, dropBytes_eq_slice own.start own.stop own.order]
    exact turn_woven (.refl _) (.refl _) (later own.stop others rest)

/-- A pass that cuts no sequence keeps the text below. -/
theorem wrapFrom_text (boundary : isCharBoundary result last = true) (spec : ∀ range ∈ ranges, OnBoundaries result range)
    (clear : ∀ range ∈ ranges, ¬InsideSequence result range.start ∧ ¬InsideSequence result range.stop)
    (woven : Woven ansi text (dropBytes last result)) (found : wrapFrom result last ranges = some out) :
    Woven ansi text out := by
  induction ranges generalizing last text out with
  | nil =>
    rw [wrapFrom, checkedSlice_some boundary (isCharBoundary_length result) (le_length_of_boundary boundary),
      slice_to_end boundary] at found
    rw [← Option.some.inj found]
    exact woven
  | cons range ranges later =>
    have own := spec range List.mem_cons_self
    have others := fun other inside => spec other (List.mem_cons_of_mem range inside)
    have uncut := clear range List.mem_cons_self
    have clear' := fun other inside => clear other (List.mem_cons_of_mem range inside)
    have order := (InOrder.of_some boundary spec found).1
    rw [wrapFrom_cons boundary own order] at found
    obtain ⟨after, rest, rfl⟩ := Option.map_eq_some_iff.mp found
    rw [dropBytes_eq_slice boundary own.start order] at woven
    have apart : ¬Cuts ansi (slice result last range.start) (dropBytes range.start result) := by
      intro cut
      have longer := cut.extend (takeBytes last result)
      rw [← takeBytes_eq_append_slice boundary own.start order] at longer
      exact uncut.1 longer
    obtain ⟨first, second, rfl, before, woven⟩ := woven.split apart
    rw [dropBytes_eq_slice own.start own.stop own.order] at woven
    have apart' : ¬Cuts ansi (slice result range.start range.stop) (dropBytes range.stop result) := by
      intro cut
      have longer := cut.extend (takeBytes range.start result)
      rw [← takeBytes_eq_append_slice own.start own.stop own.order] at longer
      exact uncut.2 longer
    obtain ⟨second, third, rfl, shown, woven⟩ := woven.split apart'
    exact turn_woven before shown (later own.stop others clear' woven rest)

/-- A pass that cuts a sequence breaks it, wherever the cut is. -/
theorem wrapFrom_broken (boundary : isCharBoundary result last = true)
    (spec : ∀ range ∈ ranges, OnBoundaries result range) (front : Woven ansi (takeBytes last result) acc)
    (cut : ∃ range ∈ ranges, InsideSequence result range.start ∨ InsideSequence result range.stop)
    (found : wrapFrom result last ranges = some out) : Broken ansi (acc ++ out) := by
  induction ranges generalizing last acc out with
  | nil =>
    obtain ⟨_, inside, -⟩ := cut
    exact absurd inside List.not_mem_nil
  | cons range ranges later =>
    have own := spec range List.mem_cons_self
    have others := fun other inside => spec other (List.mem_cons_of_mem range inside)
    have order := (InOrder.of_some boundary spec found).1
    rw [wrapFrom_cons boundary own order] at found
    obtain ⟨after, rest, rfl⟩ := Option.map_eq_some_iff.mp found
    have start : Woven ansi (takeBytes range.start result) (acc ++ slice result last range.start) := by
      rw [takeBytes_eq_append_slice boundary own.start order]
      exact front.append (.refl _)
    have stop : Woven ansi (takeBytes range.stop result)
        (acc ++ slice result last range.start ++ (yellow ++ (bold ++ slice result range.start range.stop))) := by
      rw [takeBytes_eq_append_slice own.start own.stop own.order]
      exact start.append (opening_woven (.refl _))
    by_cases early : InsideSequence result range.start
    · have broken := early.broken start
        (['[', '3', '3', 'm'] ++ (bold ++ (slice result range.start range.stop ++ (reset ++ after))))
      rw [List.append_assoc] at broken
      exact broken
    · by_cases late : InsideSequence result range.stop
      · have broken := late.broken stop (['[', '0', 'm'] ++ after)
        simp only [List.append_assoc] at broken
        exact broken
      · have onward : ∃ range ∈ ranges, InsideSequence result range.start ∨ InsideSequence result range.stop := by
          obtain ⟨other, inside, cut⟩ := cut
          rcases List.mem_cons.mp inside with rfl | inside
          · exact absurd cut (not_or.mpr ⟨early, late⟩)
          · exact ⟨other, inside, cut⟩
        have behind : Woven ansi (takeBytes range.stop result) (acc ++ slice result last range.start ++
            (yellow ++ (bold ++ slice result range.start range.stop)) ++ reset) :=
          stop.mark_behind (show ['[', '0', 'm'] ∈ ansi.bodies by decide)
        have broken := later own.stop others behind onward rest
        simp only [List.append_assoc] at broken
        exact broken

/-! ### Passes -/

theorem highlightTerm_some : (highlightTerm lowercase result term).isSome = true ↔
    InOrder 0 (highlightRanges lowercase result term) :=
  wrapFrom_isSome (isCharBoundary_zero result) (highlightRanges_spec lowercase result term)

theorem highlightTerm_broken (broken : Broken ansi result) (found : highlightTerm lowercase result term = some out) :
    Broken ansi out := by
  have woven := wrapFrom_woven (isCharBoundary_zero result) (highlightRanges_spec lowercase result term) found
  rw [dropBytes_zero] at woven
  exact broken.woven woven

/-- What has been broken is never whole again. -/
theorem highlight_broken {terms : List (List Char)} (broken : Broken ansi result)
    (found : terms.foldlM (highlightTerm lowercase) result = some out) : Broken ansi out := by
  induction terms generalizing result with
  | nil =>
    rw [← Option.some.inj found]
    exact broken
  | cons term terms later =>
    rw [List.foldlM_cons] at found
    obtain ⟨next, step, rest⟩ := Option.bind_eq_some_iff.mp found
    exact later (highlightTerm_broken broken step) rest

/-- Over a text with sequences put in, the remaining terms give back the text exactly when nothing disturbs them. -/
theorem highlight_iff {terms : List (List Char)} (plain : '\x1b' ∉ text) (woven : Woven ansi text result) :
    (∃ out, terms.foldlM (highlightTerm lowercase) result = some out ∧ strip ansi 0 out = text) ↔
      Undisturbed lowercase terms result := by
  induction terms generalizing result with
  | nil => exact iff_of_true ⟨result, rfl, strip_woven woven plain⟩ trivial
  | cons term terms later =>
    have spec := highlightRanges_spec lowercase result term
    have start := isCharBoundary_zero result
    have whole : Woven ansi text (dropBytes 0 result) := by
      rw [dropBytes_zero]
      exact woven
    rw [Undisturbed]
    constructor
    · rintro ⟨out, found, stripped⟩
      rw [List.foldlM_cons] at found
      obtain ⟨next, step, rest⟩ := Option.bind_eq_some_iff.mp found
      have order := highlightTerm_some.mp (by rw [step]; rfl)
      have clear : ∀ range ∈ highlightRanges lowercase result term,
          ¬InsideSequence result range.start ∧ ¬InsideSequence result range.stop := by
        by_contra cut
        have some : ∃ range ∈ highlightRanges lowercase result term,
            InsideSequence result range.start ∨ InsideSequence result range.stop := by
          by_contra none
          refine cut fun range inside => not_or.mp fun either => none ⟨range, inside, either⟩
        have front : Woven ansi (takeBytes 0 result) [] := by
          rw [takeBytes_zero]
          exact .nil
        have broken := wrapFrom_broken start spec front some step
        have lead := (highlight_broken broken rest).lead_mem
        rw [stripped] at lead
        exact plain lead
      refine ⟨⟨order, clear⟩, fun other same => ?_⟩
      rw [step] at same
      obtain rfl := Option.some.inj same
      exact (later (wrapFrom_text start spec clear whole step)).mp ⟨out, rest, stripped⟩
    · rintro ⟨⟨order, clear⟩, onward⟩
      obtain ⟨next, step⟩ := Option.isSome_iff_exists.mp (highlightTerm_some.mpr order)
      obtain ⟨out, rest, stripped⟩ := (later (wrapFrom_text start spec clear whole step)).mpr (onward next step)
      refine ⟨out, ?_, stripped⟩
      rw [List.foldlM_cons]
      exact Option.bind_eq_some_iff.mpr ⟨next, step, rest⟩

/-- Highlighting takes every slice and can be undone, exactly when in every pass the ranges follow each other and none
of their ends lies inside a sequence that an earlier pass put in. -/
theorem highlight_reversible_iff (lowercase : Lowercase) (text : List Char) (query : String) (plain : '\x1b' ∉ text) :
    (∃ out, highlightTermsUnconditional lowercase text query = some out ∧ strip ansi 0 out = text) ↔
      Undisturbed lowercase ((splitWhitespace query).filter fun t => decide (3 ≤ t.length)) text :=
  highlight_iff plain (.refl text)

/-- Letters of ASCII and the Kelvin sign, which is three bytes and lowercased to one. -/
def sampleLowercase : Lowercase where
  apply text := text.map fun c => if c = '\u212a' then 'k' else c.toLower
  nonempty _ some none := some (List.map_eq_nil_iff.mp none)

theorem word_highlighted :
    '\x1b' ∉ "a word".toList ∧
      ((∃ out, highlightTermsUnconditional sampleLowercase "a word".toList "Word" = some out ∧
          strip ansi 0 out = "a word".toList) ↔
        Undisturbed sampleLowercase ((splitWhitespace "Word").filter fun t => decide (3 ≤ t.length)) "a word".toList) :=
  ⟨by decide +kernel, highlight_reversible_iff sampleLowercase "a word".toList "Word" (by decide +kernel)⟩

/-- Three Kelvin signs are nine bytes, the three letters they are found at are three; and a term can be found inside the
sequence another one brought. -/
theorem highlighting_disturbed :
    highlightTermsUnconditional sampleLowercase "kkkkkk".toList "\u212a\u212a\u212a" = none ∧
      ∃ out, highlightTermsUnconditional sampleLowercase "abc".toList "abc 33m" = some out ∧
        strip ansi 0 out ≠ "abc".toList := by
  have panics : highlightTermsUnconditional sampleLowercase "kkkkkk".toList "\u212a\u212a\u212a" = none := by decide +kernel
  have written : (highlightTermsUnconditional sampleLowercase "abc".toList "abc 33m").map (strip ansi 0) ≠
      some "abc".toList ∧ (highlightTermsUnconditional sampleLowercase "abc".toList "abc 33m").isSome = true := by
    decide +kernel
  obtain ⟨out, found⟩ := Option.isSome_iff_exists.mp written.2
  refine ⟨panics, out, found, fun same => written.1 ?_⟩
  rw [found, Option.map_some, same]

/-! ### Terms that do not shrink -/

/-- While a match is skipped, the places lie behind it. -/
theorem skipped_of_mem_findIter {pattern : List Char → Option Nat} {skip offset p : Nat} {cs : List Char}
    (found : p ∈ findIter pattern skip offset cs) : offset + byteLength (cs.take skip) ≤ p := by
  induction skip generalizing offset cs with
  | zero =>
    have behind := offset_le_of_mem_findIter found
    rwa [List.take_zero, byteLength_nil, Nat.add_zero]
  | succ skip later =>
    cases cs with
    | nil => simp [findIter] at found
    | cons c cs =>
      have behind := later found
      rw [List.take_succ_cons, byteLength_cons]
      omega

theorem termPlaces_apart {pattern : List Char} (some : pattern ≠ []) (skip offset : Nat) (cs : List Char) :
    (findIter (literalAt pattern) skip offset cs).Pairwise fun p q => p + byteLength pattern ≤ q := by
  induction cs generalizing skip offset with
  | nil => exact .nil
  | cons c cs later =>
    cases skip with
    | succ skip => exact later skip _
    | zero =>
      rw [findIter]
      split
      · next n matched =>
        refine List.pairwise_cons.mpr ⟨fun q behind => ?_, later _ _⟩
        unfold literalAt at matched
        split at matched
        · next front =>
          obtain ⟨rest, whole⟩ := List.isPrefixOf_iff_prefix.mp front
          obtain rfl := Option.some.inj matched
          cases pattern with
          | nil => exact absurd rfl some
          | cons d pattern =>
            obtain ⟨rfl, rfl⟩ := List.cons.inj whole
            have skipped := skipped_of_mem_findIter behind
            rw [List.length_cons, Nat.add_sub_cancel, List.append_eq, List.take_left] at skipped
            rw [byteLength_cons]
            omega
        · cases matched
      · exact later _ _

theorem snapBackward_mono {p q : Nat} (le : p ≤ q) : snapCharBoundaryBackward text (min p (byteLength text)) ≤
    snapCharBoundaryBackward text (min q (byteLength text)) := by
  have first := backwardFrom_spec text (min (min p (byteLength text)) (byteLength text))
  have second := backwardFrom_spec text (min (min q (byteLength text)) (byteLength text))
  exact second.2.2 _ (first.2.1.trans (by omega)) first.1

/-- The ranges of a term that is not longer than its lowercase form follow each other. -/
theorem inOrder_of_short (short : byteLength term ≤ byteLength (lowercase.apply term)) (some : term ≠ []) :
    InOrder 0 (highlightRanges lowercase result term) := by
  have apart := termPlaces_apart (lowercase.nonempty term some) 0 0 (lowercase.apply result)
  unfold highlightRanges termPlaces
  have ordered : ∀ (places : List Nat) (last : Nat),
      (places.Pairwise fun p q => p + byteLength (lowercase.apply term) ≤ q) →
      (∀ p ∈ places, last ≤ (highlightRange result (byteLength term) p).start) →
      InOrder last (places.map (highlightRange result (byteLength term))) := by
    intro places
    induction places with
    | nil => exact fun _ _ _ => trivial
    | cons p places later =>
      intro last apart behind
      obtain ⟨first, others⟩ := List.pairwise_cons.mp apart
      refine ⟨behind p List.mem_cons_self, later _ others fun q inside => ?_⟩
      have spaced := first q inside
      exact Nat.max_le.mpr ⟨snapBackward_mono (by omega), snapBackward_mono (by omega)⟩
  exact ordered _ 0 apart fun _ _ => Nat.zero_le _

/-- So only a term that is longer than its lowercase form can make the slices fail. -/
theorem highlight_total_of_short (lowercase : Lowercase) (text : List Char) (query : String)
    (short : ∀ term ∈ splitWhitespace query, byteLength term ≤ byteLength (lowercase.apply term)) :
    (highlightTermsUnconditional lowercase text query).isSome = true := by
  have passes : ∀ (terms : List (List Char)) (result : List Char),
      (∀ term ∈ terms, byteLength term ≤ byteLength (lowercase.apply term) ∧ term ≠ []) →
      (terms.foldlM (highlightTerm lowercase) result).isSome = true := by
    intro terms
    induction terms with
    | nil => exact fun _ _ => rfl
    | cons term terms later =>
      intro result each
      have own := each term List.mem_cons_self
      obtain ⟨next, step⟩ := Option.isSome_iff_exists.mp
        (highlightTerm_some.mpr (@inOrder_of_short lowercase result term own.1 own.2))
      rw [List.foldlM_cons, step]
      exact later next fun other inside => each other (List.mem_cons_of_mem term inside)
  refine passes _ text fun term inside => ?_
  obtain ⟨among, long⟩ := List.mem_filter.mp inside
  refine ⟨short term among, fun none => ?_⟩
  rw [none] at long
  exact absurd long (by decide)

end Rqmd.Output
