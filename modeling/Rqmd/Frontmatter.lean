import Rqmd.Lib.Text
import Rqmd.Indexing

/-! The front matter of a file: a scan for `title`, `tags` and `aliases`, and the text that is indexed
without it. -/

namespace Rqmd
open Text

structure Frontmatter where
  title : Option String
  terms : List String
deriving DecidableEq

namespace Frontmatter

def fence : List Char := ['-', '-', '-']

def unquote (s : List Char) : List Char :=
  match s with
  | first :: rest =>
    if rest ≠ [] ∧ (first = '"' ∨ first = '\'') ∧ rest.getLast? = some first then rest.dropLast else s
  | [] => []

def flowListItems (value : List Char) : List (List Char) :=
  match value with
  | '[' :: rest =>
    if rest.getLast? = some ']' then
      ((rest.dropLast.splitOn ',').map (trimMatches isWhiteSpace)).filter fun item => !item.isEmpty
    else [value]
  | _ => [value]

/-- `list_key`: the key whose block list the next indented lines go on with. -/
structure Scan where
  title : Option String
  terms : List String
  listKey : Option (List Char)
deriving DecidableEq

def isListKey (key : List Char) : Bool := key == "tags".toList || key == "aliases".toList

def Scan.addTerms (scan : Scan) (values : List (List Char)) : Scan :=
  { scan with terms := scan.terms ++ (values.filter fun v => !v.isEmpty).map String.ofList }

/-- A line `key: value`. -/
def Scan.keyValue (scan : Scan) (key value : List Char) : Scan :=
  if value.isEmpty then { scan with listKey := some key }
  else
    let scan := { scan with listKey := none }
    if key = "title".toList then
      if scan.title.isNone && !(unquote value).isEmpty then
        { scan with title := some (String.ofList (unquote value)) }
      else scan
    else if isListKey key then scan.addTerms ((flowListItems value).map unquote)
    else scan

def Scan.line (scan : Scan) (line : List Char) : Scan :=
  let trimmed := line.rdropWhile (· = '\r')
  if (trimMatches isWhiteSpace trimmed).isEmpty then scan
  else if trimmed.head? = some ' ' ∨ trimmed.head? = some '-' then
    match scan.listKey, trimMatches isWhiteSpace trimmed with
    | some key, '-' :: item =>
      if isListKey key then scan.addTerms [unquote (trimMatches isWhiteSpace item)] else scan
    | _, _ => scan
  else if ':' ∈ trimmed then
    scan.keyValue (trimMatches isWhiteSpace (trimmed.takeWhile (· ≠ ':')))
      (trimMatches isWhiteSpace (trimmed.dropWhile (· ≠ ':')).tail)
  else { scan with listKey := none }

def parseBlock (block : List Char) : Frontmatter :=
  let scan := (lines block).foldl Scan.line ⟨none, [], none⟩
  ⟨scan.title, scan.terms⟩

def isClosing (piece : List Char) : Bool := (withoutNewline piece).rdropWhile (· = '\r') == fence

/-- The lines before the closing fence and the text after it. -/
def untilClosing : List (List Char) → Option (List Char × List Char)
  | [] => none
  | piece :: rest =>
    if isClosing piece then some ([], rest.flatten)
    else (untilClosing rest).map fun (block, body) => (piece ++ block, body)

/-- The block between the fences and the text behind them. -/
def fenced (raw : List Char) : Option (List Char × List Char) :=
  match splitInclusive raw with
  | opening :: rest => if lineOf opening = fence ∧ '\n' ∈ opening then untilClosing rest else none
  | [] => none

def split (raw : List Char) : Option Frontmatter × List Char :=
  match fenced raw with
  | some (block, body) => (some (parseBlock block), body)
  | none => (none, raw)

theorem untilClosing_suffix {pieces : List (List Char)} {block body : List Char}
    (closed : untilClosing pieces = some (block, body)) : ∃ front, pieces.flatten = front ++ body := by
  induction pieces generalizing block with
  | nil => simp [untilClosing] at closed
  | cons piece rest ih =>
    rw [untilClosing] at closed
    split at closed
    · have same : rest.flatten = body := (Prod.mk.inj (Option.some.inj closed)).2
      exact ⟨piece, by rw [List.flatten_cons, same]⟩
    · obtain ⟨⟨inner, after⟩, found, pair⟩ := Option.map_eq_some_iff.mp closed
      have same : after = body := (Prod.mk.inj pair).2
      rw [same] at found
      obtain ⟨front, parts⟩ := ih found
      exact ⟨piece ++ front, by rw [List.flatten_cons, parts, List.append_assoc]⟩

/-- The body is the end of the file. -/
theorem split_suffix (raw : List Char) : ∃ front, raw = front ++ (split raw).2 := by
  unfold split
  cases found : fenced raw with
  | none => exact ⟨[], rfl⟩
  | some pair =>
    obtain ⟨block, body⟩ := pair
    have whole := flatten_splitInclusive raw
    unfold fenced at found
    cases pieces : splitInclusive raw with
    | nil => simp [pieces] at found
    | cons opening rest =>
      rw [pieces] at found whole
      simp only at found
      split at found
      · obtain ⟨front, parts⟩ := untilClosing_suffix found
        exact ⟨opening ++ front, by rw [← whole, List.flatten_cons, parts, List.append_assoc]⟩
      · simp at found

end Frontmatter

/-- `frontmatter_terms` -/
def frontmatterTerms (raw : String) : String :=
  match (Frontmatter.split raw.toList).1 with
  | some found => String.intercalate " " found.terms
  | none => ""

def firstHeading (body : List Char) : Option String :=
  (lines body).findSome? fun line =>
    match line.dropWhile isWhiteSpace with
    | '#' :: rest =>
      let heading := trimMatches isWhiteSpace (rest.dropWhile (· = '#'))
      if heading.isEmpty then none else some (String.ofList heading)
    | _ => none

/-- The text the index stores for a file: its body, and the terms of its front matter after it. -/
def indexedText (raw : String) : String :=
  match Frontmatter.split raw.toList with
  | (some found, body) =>
    if found.terms.isEmpty then String.ofList body
    else String.ofList body ++ "\n" ++ String.intercalate " " found.terms
  | (none, body) => String.ofList body

/-- The indexed text starts with the body. -/
theorem indexedText_prefix (raw : String) :
    ∃ terms, (indexedText raw).toList = (Frontmatter.split raw.toList).2 ++ terms := by
  unfold indexedText
  split
  · next found body same =>
    rw [same]
    split
    · exact ⟨[], by simp⟩
    · exact ⟨_, by rw [String.append_assoc, String.toList_append, String.toList_ofList]⟩
  · next body same =>
    rw [same]
    exact ⟨[], by simp⟩

/-- `prepare`, for a file whose name without extension is `stem`. -/
def prepare (stem raw : String) : PreparedDoc :=
  let (found, body) := Frontmatter.split raw.toList
  ⟨((found.bind Frontmatter.title).or (firstHeading body)).getD stem, indexedText raw, raw⟩

end Rqmd
