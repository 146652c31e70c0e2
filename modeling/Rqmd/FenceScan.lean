import Rqmd.Frontmatter
import Rqmd.Snippet

/-! The split of a file at its front matter, by the byte offsets the scan works with. They fall between the lines, and
nothing but the two delimiter lines is lost. -/

namespace Rqmd.Frontmatter
open Chunking Text

/-! ### The scan -/

/-- The loop from the start `pos` of a line; `none` stands for the panic of a slice or for too little fuel. -/
def closingFrom (raw : List Char) (afterOpen : Nat) : Nat → Nat → Option (Option Frontmatter × List Char)
  | 0, _ => none
  | fuel + 1, pos => do
    let rest ← checkedSlice raw pos (byteLength raw)
    let lineEnd := (findChar '\n' rest).map (pos + ·)
    let line ← checkedSlice raw pos (lineEnd.getD (byteLength raw))
    if line.rdropWhile (· = '\r') = fence then
      let block ← checkedSlice raw afterOpen pos
      let bodyStart := (lineEnd.map (· + 1)).getD (byteLength raw)
      let body ← checkedSlice raw bodyStart (byteLength raw)
      some (some (parseBlock block), body)
    else
      match lineEnd with
      | some stop => closingFrom raw afterOpen fuel (stop + 1)
      | none => some (none, raw)

/-- `split`. Every line takes one turn of the loop, and there are no more lines than characters. -/
def splitOffsets (raw : List Char) : Option (Option Frontmatter × List Char) :=
  if (lines raw).head? ≠ some fence then some (none, raw)
  else
    match findChar '\n' raw with
    | some i => closingFrom raw (i + 1) (raw.length + 1) (i + 1)
    | none => some (none, raw)

/-! ### Offsets and lines -/

variable {raw : List Char} {pieces : List (List Char)}

theorem checkedSlice_parts (before mid after : List Char) :
    checkedSlice (before ++ (mid ++ after)) (byteLength before) (byteLength before + byteLength mid) = some mid := by
  have start := isCharBoundary_append before (mid ++ after)
  have stop := isCharBoundary_append (before ++ mid) after
  rw [byteLength_append, List.append_assoc] at stop
  rw [checkedSlice_some start stop (Nat.le_add_right _ _)]
  have size : byteLength mid = byteLength before + byteLength mid - byteLength before := by omega
  rw [slice_of_parts rfl size]

/-- A slice up to the end. -/
theorem checkedSlice_rest (before rest : List Char) :
    checkedSlice (before ++ rest) (byteLength before) (byteLength (before ++ rest)) = some rest := by
  have parts := checkedSlice_parts before rest []
  rwa [List.append_nil, ← byteLength_append] at parts

theorem findChar_append {c : Char} {line : List Char} (absent : c ∉ line) (rest : List Char) :
    findChar c (line ++ c :: rest) = some (byteLength line) := by
  have all : ∀ d ∈ line, decide (d ≠ c) = true :=
    fun d inside => decide_eq_true (ne_of_mem_of_not_mem inside absent)
  have found : c ∈ line ++ c :: rest := List.mem_append_right _ List.mem_cons_self
  rw [findChar, if_pos found, List.takeWhile_append_of_pos all]
  simp

theorem findChar_absent {c : Char} {text : List Char} (absent : c ∉ text) : findChar c text = none := if_neg absent

theorem withoutNewline_line (line : List Char) : withoutNewline (line ++ ['\n']) = line := by
  rw [withoutNewline, List.getLast?_concat, if_pos rfl, List.dropLast_concat]

theorem withoutNewline_last {line : List Char} (whole : '\n' ∉ line) : withoutNewline line = line :=
  if_neg fun last => whole (List.mem_of_getLast? last)

theorem isClosing_iff (piece : List Char) :
    isClosing piece = true ↔ (withoutNewline piece).rdropWhile (· = '\r') = fence := beq_iff_eq

theorem splitInclusive_last {line : List Char} (whole : '\n' ∉ line) (some : line ≠ []) : splitInclusive line = [line] := by
  induction line with
  | nil => exact absurd rfl some
  | cons c line later =>
    rw [List.mem_cons, not_or] at whole
    rw [splitInclusive, if_neg fun same => whole.1 same.symm]
    cases line with
    | nil => rfl
    | cons d line => rw [later whole.2 (List.cons_ne_nil _ _)]

/-! ### The scan reads lines -/

/-- What the scan returns on the lines that are left, when those of `gone` belong to the block already. -/
def outcome (raw gone : List Char) : Option (List Char × List Char) → Option Frontmatter × List Char
  | some (block, body) => (some (parseBlock (gone ++ block)), body)
  | none => (none, raw)

theorem split_eq (raw : List Char) : split raw = outcome raw [] (fenced raw) := by
  unfold split
  cases fenced raw with
  | none => rfl
  | some pair => rfl

theorem outcome_behind (raw gone line : List Char) (closed : Option (List Char × List Char)) :
    outcome raw gone (closed.map fun pair => (line ++ pair.1, pair.2)) = outcome raw (gone ++ line) closed := by
  cases closed with
  | none => rfl
  | some pair =>
    change (some (parseBlock (gone ++ (line ++ pair.1))), pair.2) = (some (parseBlock (gone ++ line ++ pair.1)), pair.2)
    rw [List.append_assoc]

variable {opening gone rest line after : List Char}

/-- One turn on a line that ends. -/
theorem closingFrom_line (fuel : Nat) (parts : raw = opening ++ (gone ++ (line ++ '\n' :: after))) (whole : '\n' ∉ line) :
    closingFrom raw (byteLength opening) (fuel + 1) (byteLength (opening ++ gone)) =
      if line.rdropWhile (· = '\r') = fence then some (some (parseBlock gone), after)
      else closingFrom raw (byteLength opening) fuel (byteLength (opening ++ (gone ++ (line ++ ['\n'])))) := by
  have restSlice : checkedSlice raw (byteLength (opening ++ gone)) (byteLength raw) = some (line ++ '\n' :: after) := by
    rw [parts, ← List.append_assoc]
    exact checkedSlice_rest _ _
  have lineSlice : checkedSlice raw (byteLength (opening ++ gone)) (byteLength (opening ++ gone) + byteLength line) =
      some line := by
    rw [parts, ← List.append_assoc]
    exact checkedSlice_parts _ line _
  have blockSlice : checkedSlice raw (byteLength opening) (byteLength (opening ++ gone)) = some gone := by
    rw [parts, byteLength_append]
    exact checkedSlice_parts opening gone _
  have next : byteLength (opening ++ (gone ++ (line ++ ['\n']))) = byteLength (opening ++ gone) + byteLength line + 1 := by
    have newline : byteLength ['\n'] = 1 := rfl
    simp only [byteLength_append]
    omega
  have bodySlice : checkedSlice raw (byteLength (opening ++ (gone ++ (line ++ ['\n'])))) (byteLength raw) = some after := by
    have behind := checkedSlice_rest (opening ++ (gone ++ (line ++ ['\n']))) after
    have same : opening ++ (gone ++ (line ++ ['\n'])) ++ after = raw := by
      rw [parts]
      simp
    rwa [same] at behind
  rw [closingFrom, restSlice, Option.bind_eq_bind, Option.bind_some, findChar_append whole]
  dsimp only [Option.map_some, Option.getD_some]
  rw [lineSlice, Option.bind_some, blockSlice, ← next, bodySlice]
  rfl

/-- One turn on a line without an end. -/
theorem closingFrom_last (fuel : Nat) (parts : raw = opening ++ (gone ++ rest)) (whole : '\n' ∉ rest) :
    closingFrom raw (byteLength opening) (fuel + 1) (byteLength (opening ++ gone)) =
      if rest.rdropWhile (· = '\r') = fence then some (some (parseBlock gone), []) else some (none, raw) := by
  have restSlice : checkedSlice raw (byteLength (opening ++ gone)) (byteLength raw) = some rest := by
    rw [parts, ← List.append_assoc]
    exact checkedSlice_rest _ _
  have blockSlice : checkedSlice raw (byteLength opening) (byteLength (opening ++ gone)) = some gone := by
    rw [parts, byteLength_append]
    exact checkedSlice_parts opening gone _
  have bodySlice : checkedSlice raw (byteLength raw) (byteLength raw) = some [] := by
    have behind := checkedSlice_rest raw []
    rwa [List.append_nil] at behind
  rw [closingFrom, restSlice, Option.bind_eq_bind, Option.bind_some, findChar_absent whole]
  dsimp only [Option.map_none, Option.getD_none]
  rw [restSlice, Option.bind_some, blockSlice, bodySlice]
  rfl

/-- The loop finds the first closing line. Each line takes a turn, and the block grows by it. -/
theorem closingFrom_eq (fuel : Nat) : ∀ gone rest : List Char,
    raw = opening ++ (gone ++ rest) → (splitInclusive rest).length < fuel →
    closingFrom raw (byteLength opening) fuel (byteLength (opening ++ gone)) =
      some (outcome raw gone (untilClosing (splitInclusive rest))) := by
  induction fuel with
  | zero => exact fun _ _ _ impossible => absurd impossible (Nat.not_lt_zero _)
  | succ fuel later =>
    intro gone rest parts enough
    by_cases ended : '\n' ∈ rest
    · obtain ⟨line, after, cut, whole⟩ := List.eq_append_cons_of_mem ended
      subst cut
      have closing := isClosing_iff (line ++ ['\n'])
      rw [withoutNewline_line] at closing
      rw [splitInclusive_line whole, List.length_cons] at enough
      rw [closingFrom_line fuel parts whole, splitInclusive_line whole, untilClosing]
      by_cases fenceLine : line.rdropWhile (· = '\r') = fence
      · rw [if_pos fenceLine, if_pos (closing.mpr fenceLine), flatten_splitInclusive, outcome, List.append_nil]
      · have behind : raw = opening ++ ((gone ++ (line ++ ['\n'])) ++ after) := by
          rw [parts]
          simp
        rw [if_neg fenceLine, if_neg (mt closing.mp fenceLine), later _ after behind (by omega)]
        exact congrArg some (outcome_behind raw gone (line ++ ['\n']) _).symm
    · have closing := isClosing_iff rest
      rw [withoutNewline_last ended] at closing
      rw [closingFrom_last fuel parts ended]
      by_cases fenceLine : rest.rdropWhile (· = '\r') = fence
      · have some : rest ≠ [] := by
          intro none
          rw [none] at fenceLine
          cases fenceLine
        rw [if_pos fenceLine, splitInclusive_last ended some, untilClosing, if_pos (closing.mpr fenceLine), outcome,
          List.append_nil, List.flatten_nil]
      · rw [if_neg fenceLine]
        by_cases some : rest = []
        · rw [some]
          rfl
        · rw [splitInclusive_last ended some, untilClosing, if_neg (mt closing.mp fenceLine)]
          rfl

theorem splitInclusive_size (text : List Char) : (splitInclusive text).length ≤ text.length := by
  induction text with
  | nil => exact Nat.le_refl _
  | cons c text later =>
    rw [splitInclusive, List.length_cons]
    split
    · rw [List.length_cons]
      omega
    · cases pieces : splitInclusive text with
      | nil =>
        rw [List.length_cons]
        exact Nat.succ_le_succ (Nat.zero_le _)
      | cons piece pieces' =>
        rw [pieces] at later
        exact Nat.le_succ_of_le later

/-- The scan by offsets never cuts inside a character, and it is the split by lines. -/
theorem splitOffsets_eq (raw : List Char) : splitOffsets raw = some (split raw) := by
  rw [split_eq, splitOffsets, fenced]
  by_cases ended : '\n' ∈ raw
  · obtain ⟨line, rest, cut, whole⟩ := List.eq_append_cons_of_mem ended
    have first : splitInclusive raw = (line ++ ['\n']) :: splitInclusive rest := cut ▸ splitInclusive_line whole rest
    have found : findChar '\n' raw = some (byteLength line) := cut ▸ findChar_append whole rest
    have inside : '\n' ∈ line ++ ['\n'] := List.mem_append_right _ List.mem_cons_self
    rw [lines, first, List.map_cons, List.head?_cons, found]
    by_cases opens : lineOf (line ++ ['\n']) = fence
    · have place : byteLength (line ++ ['\n'] ++ []) = byteLength line + 1 := by
        rw [List.append_nil, byteLength_append]
        rfl
      have opening : byteLength (line ++ ['\n']) = byteLength line + 1 := byteLength_append _ _
      have parts : raw = line ++ ['\n'] ++ ([] ++ rest) := by
        rw [cut]
        simp
      have size : (splitInclusive rest).length < raw.length + 1 := by
        have few := splitInclusive_size rest
        rw [cut, List.length_append, List.length_cons]
        omega
      have scan := closingFrom_eq (raw.length + 1) [] rest parts size
      rw [place, opening] at scan
      rw [if_neg (by simp [opens])]
      dsimp only
      rw [if_pos ⟨opens, inside⟩]
      exact scan
    · rw [if_pos (by simpa using opens)]
      dsimp only
      rw [if_neg fun both => opens both.1]
      rfl
  · have alone : ∀ opening rest, splitInclusive raw = opening :: rest → '\n' ∉ opening := by
      intro opening rest pieces newline
      apply ended
      rw [← flatten_splitInclusive raw, pieces]
      exact List.mem_append_left _ newline
    have none : outcome raw [] (fenced raw) = (.none, raw) := by
      unfold fenced
      cases pieces : splitInclusive raw with
      | nil => rfl
      | cons opening rest =>
        dsimp only
        rw [if_neg fun both => alone opening rest pieces both.2]
        rfl
    rw [fenced] at none
    rw [findChar_absent ended, none]
    exact ite_self _

/-! ### What is split off -/

/-- The text opens with a delimiter line, and some later line closes the block. -/
def Fenced (raw : List Char) : Prop :=
  ∃ opening rest, splitInclusive raw = opening :: rest ∧ lineOf opening = fence ∧
    ∃ closing ∈ rest, (withoutNewline closing).rdropWhile (· = '\r') = fence

/-- The lines of a text, each with its end, with the two delimiter lines told apart. -/
structure Delimited (raw opening : List Char) (between : List (List Char)) (closing : List Char)
    (behind : List (List Char)) : Prop where
  lines : splitInclusive raw = opening :: (between ++ closing :: behind)
  opens : lineOf opening = fence
  closes : (withoutNewline closing).rdropWhile (· = '\r') = fence
  first : ∀ line ∈ between, (withoutNewline line).rdropWhile (· = '\r') ≠ fence

variable {opening closing : List Char} {between behind : List (List Char)}

theorem untilClosing_first (closes : isClosing closing = true) (first : ∀ line ∈ between, isClosing line = false) :
    untilClosing (between ++ closing :: behind) = some (between.flatten, behind.flatten) := by
  induction between with
  | nil => exact if_pos closes
  | cons line between later =>
    have open' : ¬isClosing line = true := Bool.eq_false_iff.mp (first line List.mem_cons_self)
    rw [List.cons_append, untilClosing, if_neg open', later fun other inside => first other (List.mem_cons_of_mem _ inside)]
    rfl

theorem untilClosing_none (none : ∀ line ∈ pieces, isClosing line = false) : untilClosing pieces = .none := by
  induction pieces with
  | nil => rfl
  | cons line pieces later =>
    have open' : ¬isClosing line = true := Bool.eq_false_iff.mp (none line List.mem_cons_self)
    rw [untilClosing, if_neg open', later fun other inside => none other (List.mem_cons_of_mem _ inside)]
    rfl

/-- Only the last line has no end. -/
theorem opening_ends {rest : List (List Char)} (lines : splitInclusive raw = opening :: rest) (more : rest ≠ []) :
    '\n' ∈ opening := by
  by_cases ended : '\n' ∈ raw
  · obtain ⟨line, after, cut, whole⟩ := List.eq_append_cons_of_mem ended
    rw [cut, splitInclusive_line whole, List.cons.injEq] at lines
    rw [← lines.1]
    exact List.mem_append_right _ List.mem_cons_self
  · by_cases some : raw = []
    · rw [some] at lines
      cases lines
    · rw [splitInclusive_last ended some, List.cons.injEq] at lines
      exact absurd lines.2.symm more

theorem Fenced.delimited (fenced : Fenced raw) :
    ∃ opening between closing behind, Delimited raw opening between closing behind := by
  obtain ⟨opening, rest, lines, opens, closing, inside, closes⟩ := fenced
  have some : (rest.find? isClosing).isSome = true :=
    List.find?_isSome.mpr ⟨closing, inside, (isClosing_iff closing).mpr closes⟩
  obtain ⟨first, found⟩ := Option.isSome_iff_exists.mp some
  obtain ⟨closes', between, behind, parts, before⟩ := List.find?_eq_some_iff_append.mp found
  refine ⟨opening, between, first, behind, by rw [lines, parts], opens, (isClosing_iff first).mp closes', ?_⟩
  intro line member
  have open' := before line member
  rw [Bool.not_eq_true'] at open'
  exact mt (isClosing_iff line).mpr (Bool.eq_false_iff.mp open')

theorem Delimited.fenced (delimited : Delimited raw opening between closing behind) :
    Frontmatter.fenced raw = some (between.flatten, behind.flatten) := by
  have ends := opening_ends delimited.lines (List.append_ne_nil_of_right_ne_nil _ (List.cons_ne_nil _ _))
  have first : ∀ line ∈ between, isClosing line = false :=
    fun line inside => Bool.eq_false_iff.mpr (mt (isClosing_iff line).mp (delimited.first line inside))
  rw [Frontmatter.fenced, delimited.lines]
  dsimp only
  rw [if_pos ⟨delimited.opens, ends⟩, untilClosing_first ((isClosing_iff closing).mpr delimited.closes) first]

/-- The delimiter lines, the block and the body are the whole text. -/
theorem Delimited.text (delimited : Delimited raw opening between closing behind) :
    raw = opening ++ (between.flatten ++ (closing ++ behind.flatten)) := by
  have whole := flatten_splitInclusive raw
  rw [delimited.lines, List.flatten_cons, List.flatten_append, List.flatten_cons] at whole
  exact whole.symm

theorem fenced_none (bare : ¬Fenced raw) : fenced raw = none := by
  unfold fenced
  cases lines : splitInclusive raw with
  | nil => rfl
  | cons opening rest =>
    dsimp only
    by_cases opens : lineOf opening = fence ∧ '\n' ∈ opening
    · rw [if_pos opens]
      apply untilClosing_none
      intro line inside
      apply Bool.eq_false_iff.mpr
      intro closes
      exact bare ⟨opening, rest, lines, opens.1, line, inside, (isClosing_iff line).mp closes⟩
    · exact if_neg opens

/-- A block is split off exactly where the first line opens it and a later line closes it. It is the text between the
first line and the first line that closes it, the body is the text behind; any other text is all body. -/
theorem split_exact (raw : List Char) :
    ∃ found body, splitOffsets raw = some (found, body) ∧ (found.isSome = true ↔ Fenced raw) ∧
      (Fenced raw → ∃ opening between closing behind, Delimited raw opening between closing behind ∧
        found = some (parseBlock between.flatten) ∧ body = behind.flatten ∧
        raw = opening ++ (between.flatten ++ (closing ++ body))) ∧
      (¬Fenced raw → body = raw) := by
  by_cases some : Fenced raw
  · obtain ⟨opening, between, closing, behind, delimited⟩ := some.delimited
    have result : splitOffsets raw = Option.some (Option.some (parseBlock between.flatten), behind.flatten) := by
      rw [splitOffsets_eq, split, delimited.fenced]
    refine ⟨_, _, result, iff_of_true rfl some, fun _ => ?_, fun bare => absurd some bare⟩
    exact ⟨opening, between, closing, behind, delimited, rfl, rfl, delimited.text⟩
  · have result : splitOffsets raw = Option.some (none, raw) := by
      rw [splitOffsets_eq, split, fenced_none some]
    refine ⟨_, _, result, iff_of_false (fun impossible => ?_) some, fun fenced => absurd fenced some, fun _ => rfl⟩
    cases impossible

example : splitOffsets "---\r\ntags: é\n----\r\n---\r\r\nbody".toList =
    some (some ⟨none, ["é"]⟩, "body".toList) := by
  decide +kernel

end Rqmd.Frontmatter
