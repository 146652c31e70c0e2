import Rqmd.Lib.Csv
import Rqmd.Snippet

/-! The CSV output of search results. A field goes between quotes when it holds a comma, a quote or a newline; a CR
alone does not count, though a reader ends a record at it. -/

namespace Rqmd.Output
open Csv Chunking Text

def needsQuotes (s : List Char) : Bool := s.contains ',' || s.contains '"' || s.contains '\n'

def csvField (s : List Char) : List Char := if needsQuotes s then quote s else s

/-- A text that stands for itself in any field: a document id or a formatted score. -/
abbrev PlainText := { s : List Char // ∀ c ∈ s, isSpecial c = false }

/-- The values of one line of `print_csv`. -/
structure CsvRow where
  docid : PlainText
  score : PlainText
  file : List Char
  title : List Char
  context : List Char
  line : Nat
  content : List Char

/-- The fields that go through `csv_field`. -/
def CsvRow.texts (row : CsvRow) : List (List Char) := [row.file, row.title, row.context, row.content]

def CsvRow.fields (row : CsvRow) : List (List Char) :=
  ['#' :: row.docid.1, row.score.1, row.file, row.title, row.context, row.line.repr.toList, row.content]

def CsvRow.codes (row : CsvRow) : List (List Char) :=
  ['#' :: row.docid.1, row.score.1, csvField row.file, csvField row.title, csvField row.context, row.line.repr.toList,
    csvField row.content]

def printRow (row : CsvRow) : List Char := List.intercalate [','] row.codes ++ ['\n']

def csvHeader : List (List Char) :=
  ["docid", "score", "file", "title", "context", "line", "snippet"].map String.toList

def printRows (rows : List CsvRow) : List Char :=
  List.intercalate [','] csvHeader ++ '\n' :: rows.flatMap printRow

/-- A result as the searches return it; its document id is six hexadecimal digits. -/
structure CsvResult (S : Type) extends SearchResult S where
  docid_plain : ∀ c ∈ docid.toList, isSpecial c = false

variable {S : Type}

/-- The row of a result, `none` when its snippet panics. `formatScore` is `format!("{:.4}")`. -/
def csvRow (formatScore : S → PlainText) (lowercase : String → String) (showFull : Bool) (query : String)
    (r : CsvResult S) : Option CsvRow :=
  (extractSnippet lowercase r.body.toList query 500 r.bestChunkPos r.bestChunk.length).map fun snippetInfo =>
    { docid := ⟨r.docid.toList, r.docid_plain⟩
      score := formatScore r.score
      file := r.file.toList
      title := r.title.toList
      context := (r.context.getD "").toList
      line := snippetInfo.line
      content := if showFull then r.body.toList else snippetInfo.snippet }

def printCsv (formatScore : S → PlainText) (lowercase : String → String) (results : List (CsvResult S)) (showFull : Bool)
    (query : String) : Option (List Char) :=
  (results.mapM (csvRow formatScore lowercase showFull query)).map printRows

/-! ### Fields -/

variable {text : List Char}

theorem ordinary_of_all (all : (text.all fun c => !isSpecial c) = true) : ∀ c ∈ text, isSpecial c = false :=
  fun c inside => (Bool.not_eq_true' _).mp (List.all_eq_true.mp all c inside)

/-- A CR is told from a line end only between quotes. -/
def KeepsReturns (text : List Char) : Prop := '\r' ∈ text → needsQuotes text = true

theorem not_needsQuotes (plain : needsQuotes text = false) : ',' ∉ text ∧ '"' ∉ text ∧ '\n' ∉ text := by
  simpa [needsQuotes, and_assoc] using plain

theorem csvField_encodes (kept : KeepsReturns text) : Encodes (csvField text) text := by
  by_cases quotes : needsQuotes text = true
  · rw [csvField, if_pos quotes]
    exact .quoted text
  · obtain ⟨comma, quote, newline⟩ := not_needsQuotes (Bool.eq_false_iff.mpr quotes)
    rw [csvField, if_neg quotes]
    refine .plain text fun c inside => ordinary_iff.mpr ⟨?_, ?_, ?_, ?_⟩
    · exact ne_of_mem_of_not_mem inside comma
    · exact ne_of_mem_of_not_mem inside quote
    · exact ne_of_mem_of_not_mem inside newline
    · exact ne_of_mem_of_not_mem inside fun found => quotes (kept found)

theorem lost_iff : ¬KeepsReturns text ↔ '\r' ∈ text ∧ needsQuotes text = false := by
  unfold KeepsReturns
  rw [Classical.not_imp, Bool.not_eq_true]

/-- The field is written without quotes and a reader stops at its first CR. -/
theorem csvField_cut (lost : ¬KeepsReturns text) : Cut (csvField text) text := by
  obtain ⟨found, plain⟩ := lost_iff.mp lost
  obtain ⟨comma, quote, newline⟩ := not_needsQuotes plain
  obtain ⟨front, rest, split, first⟩ := List.eq_append_cons_of_mem found
  have within : ∀ c ∈ front, c ∈ text := fun c inside => by
    rw [split]
    exact List.mem_append_left _ inside
  refine ⟨front, rest, ?_, fun c inside => ordinary_iff.mpr ⟨?_, ?_, ?_, ?_⟩, fun same => ?_⟩
  · rw [csvField, plain]
    exact split
  · exact ne_of_mem_of_not_mem (within c inside) comma
  · exact ne_of_mem_of_not_mem (within c inside) quote
  · exact ne_of_mem_of_not_mem (within c inside) newline
  · exact ne_of_mem_of_not_mem inside first
  · exact first (same ▸ found)

theorem csvField_encodes_iff : Encodes (csvField text) text ↔ KeepsReturns text := by
  refine ⟨fun encodes => ?_, csvField_encodes⟩
  by_contra lost
  obtain ⟨found, plain⟩ := lost_iff.mp lost
  rw [csvField, plain] at encodes
  rcases encodes_iff.mp encodes with ⟨-, ordinary⟩ | quoted
  · exact absurd (ordinary '\r' found) (by decide)
  · have opening : '"' ∈ text := by
      have code : text = quote text := quoted
      rw [code]
      exact List.mem_cons_self
    exact (not_needsQuotes plain).2.1 opening

theorem plain_encodes (text : PlainText) : Encodes text.1 text.1 := .plain text.1 text.2

theorem docid_encodes (docid : PlainText) : Encodes ('#' :: docid.1) ('#' :: docid.1) := by
  refine .plain _ fun c inside => ?_
  rcases List.mem_cons.mp inside with rfl | later
  · rfl
  · exact docid.2 c later

theorem digits_encode (n : Nat) : Encodes n.repr.toList n.repr.toList := by
  refine .plain _ fun c inside => ?_
  rw [Nat.toList_repr] at inside
  have digit := Nat.isDigit_of_mem_toDigits (by decide) (by decide) inside
  refine ordinary_iff.mpr ⟨?_, ?_, ?_, ?_⟩
  · exact fun same => absurd (same ▸ digit) (by decide)
  · exact fun same => absurd (same ▸ digit) (by decide)
  · exact fun same => absurd (same ▸ digit) (by decide)
  · exact fun same => absurd (same ▸ digit) (by decide)

/-! ### Rows -/

def CsvRow.KeepsReturns (row : CsvRow) : Prop := ∀ text ∈ row.texts, Output.KeepsReturns text

variable {row : CsvRow}

theorem CsvRow.encodes_iff : List.Forall₂ Encodes row.codes row.fields ↔ row.KeepsReturns := by
  simp only [codes, fields, CsvRow.KeepsReturns, texts, List.forall₂_cons, List.Forall₂.nil, and_true, docid_encodes,
    plain_encodes, digits_encode, csvField_encodes_iff, true_and, List.forall_mem_cons, List.not_mem_nil, false_imp_iff,
    implies_true]

theorem csvField_either (text : List Char) : Encodes (csvField text) text ∨ Cut (csvField text) text := by
  by_cases kept : KeepsReturns text
  · exact .inl (csvField_encodes kept)
  · exact .inr (csvField_cut kept)

theorem CsvRow.either (row : CsvRow) :
    List.Forall₂ (fun code field => Encodes code field ∨ Cut code field) row.codes row.fields := by
  simp only [codes, fields, List.forall₂_cons, List.Forall₂.nil, and_true, csvField_either, docid_encodes, plain_encodes,
    digits_encode, true_or]

/-- After any records, rows are read back as their fields exactly when none of them loses a CR. -/
theorem run_rows_iff (records : List (List (List Char))) (rows : List CsvRow) :
    ((⟨.start false, records, [], []⟩ : Reader).run (rows.flatMap printRow)).bind Reader.finish =
        some (records ++ rows.map CsvRow.fields) ↔ ∀ row ∈ rows, row.KeepsReturns := by
  induction rows generalizing records with
  | nil =>
    rw [List.flatMap_nil, Reader.run, Option.bind_some, List.map_nil, List.append_nil]
    simp [Reader.finish]
  | cons row rows later =>
    rw [List.flatMap_cons, List.map_cons, List.forall_mem_cons]
    by_cases kept : row.KeepsReturns
    · have first : (⟨.start false, records, [], []⟩ : Reader).run (printRow row) =
          some ⟨.start false, records ++ [row.fields], [], []⟩ :=
        Reader.run_record ⟨.inl rfl, rfl⟩ (CsvRow.encodes_iff.mpr kept) (List.cons_ne_nil _ _)
      have onward := later (records ++ [row.fields])
      rw [Reader.run_append, first, Option.bind_some, List.append_cons records row.fields (rows.map _), onward]
      exact (and_iff_right kept).symm
    · obtain ⟨s, left, record, run, read, other⟩ := @Reader.run_cut_record ⟨.start false, records, [], []⟩ row.codes
        row.fields ⟨.inl rfl, rfl⟩ row.either (fun sound => kept (CsvRow.encodes_iff.mp sound))
        (['\n'] ++ rows.flatMap printRow)
      refine ⟨fun decoded => absurd ?_ other, fun all => absurd all.1 kept⟩
      rw [printRow, List.append_assoc, run] at decoded
      have begins := Reader.run_finish_records left decoded
      rw [read, List.nil_append, List.prefix_append_right_inj, List.cons_prefix_cons] at begins
      exact begins.1

theorem header_encodes : List.Forall₂ Encodes csvHeader csvHeader := by
  refine List.forall₂_same.mpr fun name inside => .plain name fun c within => ?_
  have ordinary : (csvHeader.all fun name => name.all fun c => !isSpecial c) = true := by decide +kernel
  exact ordinary_of_all (List.all_eq_true.mp ordinary name inside) c within

/-- What is printed reads back as the header and the fields of every row, exactly when no text holds a CR without a
comma, a quote or a newline beside it. -/
theorem csv_decodes_iff (rows : List CsvRow) :
    decode (printRows rows) = some (csvHeader :: rows.map CsvRow.fields) ↔
      ∀ row ∈ rows, ∀ text ∈ row.texts, '\r' ∈ text → ',' ∈ text ∨ '"' ∈ text ∨ '\n' ∈ text := by
  have quotes : (∀ row ∈ rows, row.KeepsReturns) ↔
      ∀ row ∈ rows, ∀ text ∈ row.texts, '\r' ∈ text → ',' ∈ text ∨ '"' ∈ text ∨ '\n' ∈ text := by
    simp only [CsvRow.KeepsReturns, KeepsReturns, needsQuotes, Bool.or_eq_true, List.contains_iff_mem, or_assoc]
  have header : Reader.init.run (List.intercalate [','] csvHeader ++ ['\n']) = some ⟨.start false, [csvHeader], [], []⟩ :=
    Reader.run_record ⟨.inl rfl, rfl⟩ header_encodes (List.cons_ne_nil _ _)
  have body := run_rows_iff [csvHeader] rows
  rw [← quotes, ← body, decode, printRows, List.append_cons, Reader.run_append, header, Option.bind_some]
  rfl

def returnTitle : CsvResult Nat where
  file := "rqmd://notes/a.md"
  title := "a\rb"
  body := "words"
  bestChunk := "words"
  bestChunkPos := 0
  score := 0
  docid := "0a1b2c"
  collection := "notes"
  path := "a.md"
  context := none
  docid_plain := ordinary_of_all (by decide +kernel)

def sampleScore : Nat → PlainText := fun _ => ⟨['0'], ordinary_of_all rfl⟩

/-- A title that holds a CR and none of the characters that bring quotes. -/
theorem return_splits_record :
    ∃ rows text, [returnTitle].mapM (csvRow sampleScore id false "words") = some rows ∧
      printCsv sampleScore id [returnTitle] false "words" = some text ∧
      decode text ≠ some (csvHeader :: rows.map CsvRow.fields) := by
  have lost : ((printCsv sampleScore id [returnTitle] false "words").bind decode ≠
      ([returnTitle].mapM (csvRow sampleScore id false "words")).map fun rows => csvHeader :: rows.map CsvRow.fields) ∧
      ([returnTitle].mapM (csvRow sampleScore id false "words")).isSome = true := by
    decide +kernel
  obtain ⟨rows, made⟩ := Option.isSome_iff_exists.mp lost.2
  have printed : printCsv sampleScore id [returnTitle] false "words" = some (printRows rows) := by
    rw [printCsv, made]
    rfl
  refine ⟨rows, printRows rows, made, printed, ?_⟩
  have other := lost.1
  rw [printed, made] at other
  exact other

end Rqmd.Output
