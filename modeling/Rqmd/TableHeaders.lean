import Rqmd.ChunkSpans

/-! Chunks with carried table headers. Tables lie apart, so the header a chunk carries follows from the
offset it ends up with, and the chunk from that offset and the end of its span. -/

namespace Rqmd.Chunking
open Text

variable {text : List Char} {tables : List PipeTable}

/-! ### The tables of a text -/

/-- Rows collected so far: each starts at a boundary, behind the rows before it, and ends by `offset`. -/
structure RowRun (text : List Char) (lower offset : Nat) (run : List (Nat × List Char)) : Prop where
  bounded : lower ≤ offset
  rows : ∀ row ∈ run, isCharBoundary text row.1 = true ∧ lower ≤ row.1 ∧ row.1 + byteLength row.2 ≤ offset
  ordered : run.Pairwise fun a b => a.1 ≤ b.1

/-- Tables with starts at boundaries, each ending before the next begins. -/
structure Apart (text : List Char) (tables : List PipeTable) : Prop where
  starts : ∀ t ∈ tables, isCharBoundary text t.start = true ∧ t.start ≤ t.stop
  apart : tables.Pairwise fun a b => a.stop ≤ b.start

theorem RowRun.none {offset : Nat} : RowRun text offset offset [] where
  bounded := Nat.le_refl _
  rows _ member := by simp at member
  ordered := List.Pairwise.nil

theorem RowRun.snoc {lower offset : Nat} {run : List (Nat × List Char)} (rows : RowRun text lower offset run)
    (boundary : isCharBoundary text offset = true) (line : List Char) :
    RowRun text lower (offset + byteLength line) (run ++ [(offset, line)]) where
  bounded := Nat.le_trans rows.bounded (Nat.le_add_right _ _)
  rows row member := by
    rcases List.mem_append.mp member with old | new
    · have := rows.rows row old
      exact ⟨this.1, this.2.1, by omega⟩
    · rw [List.mem_singleton.mp new]
      exact ⟨boundary, rows.bounded, Nat.le_refl _⟩
  ordered := by
    refine List.pairwise_append.mpr ⟨rows.ordered, List.pairwise_singleton _ _, fun a old b new => ?_⟩
    rw [List.mem_singleton.mp new]
    have := (rows.rows a old).2.2
    simp only
    omega

theorem mem_flushRun {lower offset : Nat} {run : List (Nat × List Char)} (rows : RowRun text lower offset run)
    {t : PipeTable} (member : t ∈ flushRun run) :
    isCharBoundary text t.start = true ∧ lower ≤ t.start ∧ t.start ≤ t.stop ∧ t.stop ≤ offset := by
  match run, rows, member with
  | first :: second :: rest, rows, member =>
    simp only [flushRun] at member
    split at member
    · rw [List.mem_singleton] at member
      have last : rest.getLastD second ∈ second :: rest := by
        cases rest with
        | nil => exact List.mem_cons_self
        | cons row rest =>
          have inside := List.getLast_mem (List.cons_ne_nil row rest)
          rw [List.getLastD_eq_getLast?, List.getLast?_eq_some_getLast (List.cons_ne_nil row rest), Option.getD_some]
          exact List.mem_cons_of_mem _ inside
      have start := rows.rows first List.mem_cons_self
      have stop := rows.rows _ (List.mem_cons_of_mem first last)
      have order := List.rel_of_pairwise_cons rows.ordered last
      rw [member]
      exact ⟨start.1, start.2.1, by simp only; omega, stop.2.2⟩
    · simp at member
  | [], _, member => simp [flushRun] at member
  | [_], _, member => simp [flushRun] at member

theorem pairwise_flushRun (run : List (Nat × List Char)) :
    (flushRun run).Pairwise fun a b : PipeTable => a.stop ≤ b.start := by
  match run with
  | [] => exact List.Pairwise.nil
  | [_] => exact List.Pairwise.nil
  | first :: second :: rest =>
    simp only [flushRun]
    split
    · exact List.pairwise_singleton _ _
    · exact List.Pairwise.nil

/-- The scan goes over the rows left; `before` is the text read so far. -/
theorem scanRows_apart (fences : List Span) {rows : List (List Char)} {before : List Char} {lower offset : Nat}
    {run : List (Nat × List Char)} (whole : text = before ++ rows.flatten) (read : byteLength before = offset)
    (collected : RowRun text lower offset run) :
    Apart text (scanRows fences offset run rows) ∧ ∀ t ∈ scanRows fences offset run rows, lower ≤ t.start := by
  induction rows generalizing before lower offset run with
  | nil =>
    refine ⟨⟨fun t member => ?_, pairwise_flushRun run⟩, fun t member => (mem_flushRun collected member).2.1⟩
    have table := mem_flushRun collected member
    exact ⟨table.1, table.2.2.1⟩
  | cons line rest ih =>
    have onward : text = (before ++ line) ++ rest.flatten := by simpa using whole
    have longer : byteLength (before ++ line) = offset + byteLength line := by rw [byteLength_append, read]
    rw [scanRows]
    split
    · have boundary : isCharBoundary text offset = true := by
        rw [whole, ← read]
        exact isCharBoundary_append _ _
      exact ih onward longer (collected.snoc boundary line)
    · obtain ⟨apart, behind⟩ := ih onward longer RowRun.none
      have bounded := collected.bounded
      refine ⟨⟨fun t member => ?_, ?_⟩, fun t member => ?_⟩
      · rcases List.mem_append.mp member with now | later
        · have table := mem_flushRun collected now
          exact ⟨table.1, table.2.2.1⟩
        · exact apart.starts t later
      · refine List.pairwise_append.mpr ⟨pairwise_flushRun run, apart.apart, fun a now b later => ?_⟩
        have := (mem_flushRun collected now).2.2.2
        have := behind b later
        omega
      · rcases List.mem_append.mp member with now | later
        · exact (mem_flushRun collected now).2.1
        · have := behind t later
          omega

theorem scanTables_apart (text : List Char) (fences : List Span) : Apart text (scanTables text fences) := by
  have whole : text = [] ++ (splitInclusive text).flatten := by simp
  exact (scanRows_apart fences whole rfl RowRun.none).1

/-! ### The chunk of a span -/

/-- The table whose rows hold an offset behind its first. -/
def tableAround (tables : List PipeTable) (pos : Nat) : Option PipeTable :=
  tables.find? fun t => t.start < pos && pos < t.stop

/-- The header a chunk that starts at `pos` carries: one at the start of a data row. -/
def repeatedHeader (text : List Char) (tables : List PipeTable) (pos : Nat) : List Char :=
  match tableAround tables pos with
  | some table =>
    let header := slice text table.start table.dataStart
    if table.dataStart ≤ pos ∧ byteLength header ≤ maxTableHeaderChars ∧ (takeBytes pos text).getLast? = some '\n'
    then header else []
  | none => []

theorem tableAround_some {pos : Nat} {table : PipeTable} (found : tableAround tables pos = some table) :
    table ∈ tables ∧ table.start < pos ∧ pos < table.stop := by
  refine ⟨List.mem_of_find?_eq_some found, ?_⟩
  simpa using List.find?_some found

@[simp] theorem tableAround_zero : tableAround tables 0 = none := by simp [tableAround]

/-- No two tables hold one offset. -/
theorem Apart.unique (apart : Apart text tables) {a b : PipeTable} {pos : Nat} (left : a ∈ tables) (right : b ∈ tables)
    (inA : a.start ≤ pos ∧ pos < a.stop) (inB : b.start ≤ pos ∧ pos < b.stop) : a = b := by
  by_contra different
  have either : tables.Pairwise fun a b : PipeTable => a.stop ≤ b.start ∨ b.stop ≤ a.start :=
    apart.apart.imp fun order => .inl order
  have symmetric : Std.Symm fun a b : PipeTable => a.stop ≤ b.start ∨ b.stop ≤ a.start := ⟨fun _ _ => Or.symm⟩
  rcases either.forall left right different with order | order <;> omega

theorem Apart.around (apart : Apart text tables) {table : PipeTable} {pos : Nat} (member : table ∈ tables)
    (inside : table.start < pos ∧ pos < table.stop) : tableAround tables pos = some table := by
  cases found : tableAround tables pos with
  | none =>
    have outside := List.find?_eq_none.mp found table member
    simp [inside] at outside
  | some other =>
    obtain ⟨also, inOther⟩ := tableAround_some found
    rw [apart.unique also member ⟨Nat.le_of_lt inOther.1, inOther.2⟩ ⟨Nat.le_of_lt inside.1, inside.2⟩]

theorem Apart.not_around_start (apart : Apart text tables) {table : PipeTable} (member : table ∈ tables)
    (some : table.start < table.stop) : tableAround tables table.start = none := by
  cases found : tableAround tables table.start with
  | none => rfl
  | some other =>
    obtain ⟨also, inOther⟩ := tableAround_some found
    have same := apart.unique also member ⟨Nat.le_of_lt inOther.1, inOther.2⟩ ⟨Nat.le_refl _, some⟩
    rw [same] at inOther
    omega

theorem rowStart_spec {pos : Nat} (boundary : isCharBoundary text pos = true) :
    isCharBoundary text (rowStart text pos) = true ∧ pos ≤ rowStart text pos ∧
      (rowStart text pos < byteLength text → (takeBytes (rowStart text pos) text).getLast? = some '\n') := by
  unfold rowStart
  split
  · next newline => exact ⟨boundary, Nat.le_refl _, fun _ => newline⟩
  · cases found : findChar '\n' (dropBytes pos text) with
    | none => exact ⟨isCharBoundary_length text, le_length_of_boundary boundary, fun impossible => by simp at impossible⟩
    | some i =>
      obtain ⟨before, after, rest, length, _⟩ := findChar_some found
      have whole : text = (takeBytes pos text ++ before ++ ['\n']) ++ after := by
        calc text = takeBytes pos text ++ dropBytes pos text := (takeBytes_append_dropBytes pos text).symm
          _ = takeBytes pos text ++ (before ++ '\n' :: after) := by rw [rest]
          _ = _ := by simp
      have size : byteLength (takeBytes pos text ++ before ++ ['\n']) = pos + i + 1 := by
        have newline : byteLength ['\n'] = 1 := rfl
        rw [byteLength_append, byteLength_append, isCharBoundary_iff.mp boundary, length, newline]
      have cut : takeBytes (pos + i + 1) text = takeBytes pos text ++ before ++ ['\n'] := by
        conv => lhs; rw [whole, ← size]
        exact takeBytes_append_length _ _
      refine ⟨?_, by simp only; omega, fun _ => by simp only; rw [cut, List.getLast?_concat]⟩
      rw [isCharBoundary_iff]
      simp only
      rw [cut, size]

theorem carryTableHeader_around {span : Span} :
    carryTableHeader text tables span = match tableAround tables span.start with
      | none => chunkAt text span
      | some table =>
        if span.start < table.dataStart then chunkAt text ⟨table.start, span.stop⟩
        else if byteLength (slice text table.start table.dataStart) > maxTableHeaderChars then chunkAt text span
        else if rowStart text span.start ≥ span.stop ∨ rowStart text span.start ≥ table.stop then chunkAt text span
        else ⟨String.ofList (slice text table.start table.dataStart ++
          slice text (rowStart text span.start) span.stop), rowStart text span.start⟩ := rfl

/-- A chunk that ends with the span it was made from: the header its offset calls for, and the text from
there to the end. -/
structure Shaped (text : List Char) (header : Nat → List Char) (span : Span) (chunk : Chunk) : Prop where
  content : chunk.text = String.ofList (header chunk.pos ++ slice text chunk.pos span.stop)
  boundary : isCharBoundary text chunk.pos = true
  ends : isCharBoundary text span.stop = true
  order : chunk.pos ≤ span.stop
  proper : text ≠ [] → chunk.pos < span.stop

theorem shaped_chunkAt {header : Nat → List Char} {span : Span} (cuts : span.Cuts text) (bare : header span.start = []) :
    Shaped text header span (chunkAt text span) where
  content := by simp [chunkAt, bare]
  boundary := cuts.1
  ends := cuts.2.1
  order := cuts.2.2.1
  proper := cuts.2.2.2

/-- Carrying headers keeps the shape: the cases are those of `carryTableHeader`. -/
theorem shaped_carryTableHeader (apart : Apart text tables) {span : Span} (cuts : span.Cuts text) :
    Shaped text (repeatedHeader text tables) span (carryTableHeader text tables span) := by
  have bound := le_length_of_boundary cuts.2.1
  rw [carryTableHeader_around]
  cases found : tableAround tables span.start with
  | none => exact shaped_chunkAt cuts (by simp [repeatedHeader, found])
  | some table =>
    obtain ⟨member, inside⟩ := tableAround_some found
    obtain ⟨row, behind, newline⟩ := rowStart_spec cuts.1
    simp only
    split
    · -- the span starts inside the header: the chunk is extended back to the table's first row
      have start : Span.Cuts text ⟨table.start, span.stop⟩ :=
        ⟨(apart.starts table member).1, cuts.2.1, by have := cuts.2.2.1; simp only; omega,
          fun _ => by have := cuts.2.2.1; simp only; omega⟩
      have bare : repeatedHeader text tables table.start = [] := by
        simp [repeatedHeader, apart.not_around_start member (by omega)]
      have shaped := shaped_chunkAt start bare
      exact ⟨shaped.content, shaped.boundary, shaped.ends, shaped.order, shaped.proper⟩
    · next data =>
      split
      · next oversized =>
        refine shaped_chunkAt cuts ?_
        simp [repeatedHeader, found, Nat.not_le.mpr oversized]
      · next small =>
        split
        · -- no row starts in the rest of the span, so its own start is no row start either
          next beyond =>
          refine shaped_chunkAt cuts ?_
          have midRow : (takeBytes span.start text).getLast? ≠ some '\n' := by
            intro newline
            rw [rowStart, if_pos newline] at beyond
            have := cuts.2.2.2 (by rintro rfl; simp [takeBytes] at newline)
            omega
          simp [repeatedHeader, found, midRow]
        · next moved =>
          rw [not_or] at moved
          have around := apart.around member (show table.start < rowStart text span.start ∧ _ from ⟨by omega, by omega⟩)
          exact {
            content := by
              simp only [repeatedHeader, around]
              rw [if_pos ⟨by omega, by omega, newline (by omega)⟩]
            boundary := row
            ends := cuts.2.1
            order := by simp only; omega
            proper := fun _ => by simp only; omega }

end Rqmd.Chunking
