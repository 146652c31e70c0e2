import Rqmd.DocumentWindow
import Rqmd.Lib.Decimal
import Rqmd.MultiGetReport

/-! References to documents. A hit shows the address and the docid of its document; `get` and `similar` on the command
line and the `get` tool of the server read them back, the tool also with the lines to show. -/

namespace Rqmd
open Like Select Text

namespace Db

def getActiveDocumentByFilepath (db : Db) (collection path : String) : Option Document :=
  (db.getDocumentAt collection path).filter Document.active

end Db

/-! ### The command line -/

structure PathSpec where
  collection : List Char
  path : List Char
deriving DecidableEq

namespace PathSpec

def parse (s : List Char) : Option PathSpec :=
  let s := trimScheme s.length s
  if s.head? = some '#' then some ⟨[], s⟩ else (splitOnce '/' s).map fun (col, path) => ⟨col, path⟩

def isDocid (spec : PathSpec) : Bool := spec.path.head? == some '#'

def docidHex (spec : PathSpec) : String := String.ofList (spec.path.dropWhile (· == '#'))

end PathSpec

/-- The document `run_get` prints and `run_similar` starts from. -/
def runGet (db : Db) (pathArg : List Char) : Except Failure Document :=
  match PathSpec.parse pathArg with
  | none => .error ("cannot parse path: " ++ String.ofList pathArg)
  | some spec =>
    if spec.isDocid then
      match db.getDocumentByDocidPrefix spec.docidHex with
      | some doc => .ok doc
      | none => .error ("no document found with docid #" ++ spec.docidHex)
    else
      match db.getActiveDocumentByFilepath (String.ofList spec.collection) (String.ofList spec.path) with
      | some doc => .ok doc
      | none => .error ("not found: " ++ String.ofList pathArg)

/-! ### The server -/

namespace Mcp

def parseUsize (text : List Char) : Option Nat := Decimal.parse (2 ^ 64) text

/-- "file.md:100:40" is the path with its first line and its number of lines; what the caller says besides goes first. -/
def parseFileSpec (s : List Char) (fromLine maxLines : Option Nat) : List Char × Option Nat × Option Nat :=
  match (rsplitOnce ':' s).bind fun (rest, last) => (parseUsize last).map fun n => (rest, n) with
  | none => (s, fromLine, maxLines)
  | some (rest, n2) =>
    match rsplitOnce ':' rest with
    | some (pre, n1Str) =>
      match parseUsize n1Str with
      | some n1 => (pre, fromLine.or (some n1), maxLines.or (some n2))
      | none => (rest, fromLine.or (some n2), maxLines)
    | none => (rest, fromLine.or (some n2), maxLines)

/-- A line with its number, four places wide at least. -/
def numberedLine (number : Nat) (line : List Char) : List Char :=
  let digits := Nat.toDigits 10 number
  List.replicate (4 - digits.length) ' ' ++ digits ++ ": ".toList ++ line ++ ['\n']

def documentReply (doc : Document) (fromLine maxLines : Option Nat) : List Char :=
  let window := capBody doc.raw.toList fromLine maxLines maxDocBytes
  let numbered := window.lines.zipIdx.flatMap fun (line, i) => numberedLine (window.start + i + 1) line
  ("# " ++ doc.title ++ "\n── rqmd://" ++ doc.filepath ++ " ──\n\n").toList ++ numbered ++ window.truncationNote

def getDocument (db : Db) (lookup : List Char) (fromLine maxLines : Option Nat) : Except Failure (List Char) :=
  let reply := fun found : Option Document =>
    match found with
    | some doc => .ok (documentReply doc fromLine maxLines)
    | none => .error ("Document not found: " ++ String.ofList lookup)
  if lookup.head? = some '#' then
    reply (db.getDocumentByDocidPrefix (String.ofList (lookup.dropWhile (· == '#'))))
  else
    match splitOnce '/' lookup with
    | some (col, path) => reply (db.getActiveDocumentByFilepath (String.ofList col) (String.ofList path))
    | none => .error ("Cannot parse path: " ++ String.ofList lookup)

def getBlocking (db : Db) (file : List Char) (fromLine maxLines : Option Nat) : Except Failure (List Char) :=
  let (lookup, fromLine, maxLines) := parseFileSpec file fromLine maxLines
  getDocument db lookup fromLine maxLines

end Mcp

/-! ### Addresses -/

def scheme : List Char := "rqmd://".toList

variable {db : Db} {d : Document} {text rest : List Char}

namespace Db

/-- An active row is found at its collection and path. -/
theorem getActiveDocumentByFilepath_stored (stored : d ∈ db.documents) (active : d.active = true) :
    db.getActiveDocumentByFilepath d.collection.text d.path = some d := by
  unfold getActiveDocumentByFilepath
  rw [getDocumentAt_iff.mpr ⟨stored, rfl, rfl⟩]
  exact Option.filter_eq_some_iff.mpr ⟨rfl, active⟩

/-- A docid of an active document leads to the first one that has it. -/
theorem getDocumentByDocidPrefix_exists {hex : String} (given : hex ≠ "") (stored : d ∈ db.documents)
    (active : d.active = true) (has : HasDocid hex d) : ∃ e, db.getDocumentByDocidPrefix hex = some e := by
  have notEmpty : ¬hex.isEmpty = true := by simpa using given
  unfold getDocumentByDocidPrefix
  rw [if_neg notEmpty]
  have member : d ∈ (db.documents.select fun d => like (escape hex.toList ++ ['%']) d.hash.toList &&
      d.active).insertionSort documentOrder := by
    rw [List.mem_insertionSort, Table.mem_select, Bool.and_eq_true, like_escape_percent]
    exact ⟨stored, has, active⟩
  exact Option.isSome_iff_exists.mp (List.isSome_head?.mpr (List.ne_nil_of_mem member))

end Db

theorem trimScheme_other (fuel : Nat) (other : scheme.isPrefixOf text = false) : trimScheme fuel text = text := by
  have none : stripPrefix "rqmd://" text = Option.none := by
    unfold stripPrefix
    exact if_neg (Bool.eq_false_iff.mp other)
  cases fuel with
  | zero => rfl
  | succ fuel => rw [trimScheme, none]

theorem trimScheme_scheme (fuel : Nat) : trimScheme (fuel + 1) (scheme ++ text) = trimScheme fuel text := by
  have some : stripPrefix "rqmd://" (scheme ++ text) = Option.some text := rfl
  rw [trimScheme, some]

theorem filepath_toList (d : Document) : d.filepath.toList = d.collection.text.toList ++ '/' :: d.path.toList := by
  simp [Document.filepath, filepath, String.toList_append]

/-- An address whose path is relative does not look like one with the scheme. -/
theorem scheme_not_prefix (relative : d.path.toList.head? ≠ some '/') :
    scheme.isPrefixOf d.filepath.toList = false := by
  rw [Bool.eq_false_iff]
  intro starts
  obtain ⟨rest, same⟩ := List.isPrefixOf_iff_prefix.mp starts
  have begins : scheme ++ rest = "rqmd:".toList ++ '/' :: ('/' :: rest) := rfl
  rw [begins, filepath_toList] at same
  have pieces := first_piece_injective (by decide) d.collection.oneSegment same
  rw [← pieces.2] at relative
  exact relative rfl

theorem splitOnce_filepath (d : Document) :
    splitOnce '/' d.filepath.toList = some (d.collection.text.toList, d.path.toList) := by
  rw [filepath_toList, splitOnce_append d.collection.oneSegment]

theorem head_filepath (unmarked : d.collection.text.toList.head? ≠ some '#') :
    d.filepath.toList.head? ≠ some '#' := by
  rw [filepath_toList]
  cases name : d.collection.text.toList with
  | nil => simp
  | cons c rest =>
    rw [name] at unmarked
    simpa using unmarked

/-- How the command line reads an address, with the scheme and without. -/
theorem parse_filepath (unmarked : d.collection.text.toList.head? ≠ some '#')
    (relative : d.path.toList.head? ≠ some '/') :
    PathSpec.parse d.filepath.toList = some ⟨d.collection.text.toList, d.path.toList⟩ ∧
      PathSpec.parse (scheme ++ d.filepath.toList) = some ⟨d.collection.text.toList, d.path.toList⟩ := by
  have other := scheme_not_prefix relative
  have head := head_filepath unmarked
  have split := splitOnce_filepath d
  have length : (scheme ++ d.filepath.toList).length = (6 + d.filepath.toList.length) + 1 := by
    rw [List.length_append]
    change 7 + _ = _
    omega
  constructor
  · unfold PathSpec.parse
    rw [trimScheme_other _ other]
    simp only [if_neg head, split, Option.map_some]
  · unfold PathSpec.parse
    rw [length, trimScheme_scheme, trimScheme_other _ other]
    simp only [if_neg head, split, Option.map_some]

/-! ### Line suffixes -/

namespace Mcp

theorem parseUsize_clean {digits : List Char} {n : Nat} (read : parseUsize digits = some n) :
    ':' ∉ digits ∧ '/' ∉ digits := by
  unfold parseUsize Decimal.parse at read
  dsimp only at read
  generalize body : (if digits.head? = some '+' then digits.tail else digits) = unsigned at read
  split at read
  next number =>
    have digit := List.all_eq_true.mp number.2.1
    rw [← body] at digit
    have clean : ∀ c ∈ digits, c = '+' ∨ c.isDigit = true := by
      intro c member
      by_cases signed : digits.head? = some '+'
      · rw [if_pos signed] at digit
        obtain ⟨tail, rfl⟩ := List.head?_eq_some_iff.mp signed
        rcases List.mem_cons.mp member with plus | later
        · exact .inl plus
        · exact .inr (digit c later)
      · rw [if_neg signed] at digit
        exact .inr (digit c member)
    constructor
    · intro member
      rcases clean ':' member with plus | digit
      · cases plus
      · cases digit
    · intro member
      rcases clean '/' member with plus | digit
      · cases plus
      · cases digit
  next => cases read

/-- The file ends in a line number. -/
def Numbered (file : List Char) : Prop :=
  ∃ front digits n, file = front ++ ':' :: digits ∧ parseUsize digits = some n

variable {file front digits : List Char} {fromLine maxLines : Option Nat} {m n : Nat}

theorem numbered_split (read : parseUsize digits = some n) :
    ((rsplitOnce ':' (front ++ ':' :: digits)).bind fun piece => (parseUsize piece.2).map fun n => (piece.1, n)) =
      some (front, n) := by
  rw [rsplitOnce_some.mpr ⟨rfl, (parseUsize_clean read).1⟩, Option.bind_some, read, Option.map_some]

theorem unnumbered_split (plain : ¬Numbered file) :
    ((rsplitOnce ':' file).bind fun piece => (parseUsize piece.2).map fun n => (piece.1, n)) = none := by
  cases split : rsplitOnce ':' file with
  | none => rfl
  | some piece =>
    obtain ⟨front, digits⟩ := piece
    have parts := rsplitOnce_some.mp split
    rw [Option.bind_some]
    cases read : parseUsize digits with
    | none => rfl
    | some n => exact absurd ⟨front, digits, n, parts.1, read⟩ plain

theorem parseFileSpec_plain (plain : ¬Numbered file) :
    parseFileSpec file fromLine maxLines = (file, fromLine, maxLines) := by
  unfold parseFileSpec
  rw [unnumbered_split plain]

/-- One number: the first line, behind a file that ends in none. -/
theorem parseFileSpec_line (plain : ¬Numbered file) (read : parseUsize digits = some n) :
    parseFileSpec (file ++ ':' :: digits) fromLine maxLines = (file, fromLine.or (some n), maxLines) := by
  unfold parseFileSpec
  rw [numbered_split read]
  cases split : rsplitOnce ':' file with
  | none => simp only [split]
  | some piece =>
    obtain ⟨front, before⟩ := piece
    have parts := rsplitOnce_some.mp split
    have unread : parseUsize before = none := by
      cases other : parseUsize before with
      | none => rfl
      | some k => exact absurd ⟨front, before, k, parts.1, other⟩ plain
    simp only [split, unread]

/-- Two numbers: the first line and the number of lines, behind any file. -/
theorem parseFileSpec_lines {count : List Char} (read : parseUsize digits = some n) (counted : parseUsize count = some m) :
    parseFileSpec (file ++ ':' :: digits ++ ':' :: count) fromLine maxLines =
      (file, fromLine.or (some n), maxLines.or (some m)) := by
  have split := @rsplitOnce_some ':' (file ++ ':' :: digits) file digits
  unfold parseFileSpec
  rw [numbered_split counted]
  simp only [split.mpr ⟨rfl, (parseUsize_clean read).1⟩, read]

/-- What `parse_file_spec` takes off a file has no slash. -/
theorem parseFileSpec_lookup (file : List Char) (fromLine maxLines : Option Nat) :
    ∃ tail, file = (parseFileSpec file fromLine maxLines).1 ++ tail ∧ '/' ∉ tail := by
  by_cases numbered : Numbered file
  · obtain ⟨front, digits, n, rfl, read⟩ := numbered
    by_cases again : Numbered front
    · obtain ⟨before, digits', k, rfl, read'⟩ := again
      refine ⟨':' :: digits' ++ ':' :: digits, ?_, ?_⟩
      · rw [parseFileSpec_lines read' read, List.append_assoc]
      · have first := (parseUsize_clean read').2
        have second := (parseUsize_clean read).2
        simp [first, second]
    · refine ⟨':' :: digits, ?_, ?_⟩
      · rw [parseFileSpec_line again read]
      · simpa using (parseUsize_clean read).2
  · exact ⟨[], by rw [parseFileSpec_plain numbered, List.append_nil], List.not_mem_nil⟩

/-- A document's address is looked up as it stands where it does not end in a number, and only there. -/
theorem parseFileSpec_whole_iff : (parseFileSpec file fromLine maxLines).1 = file ↔ ¬Numbered file := by
  constructor
  · rintro whole ⟨front, digits, n, rfl, read⟩
    have shorter : (parseFileSpec (front ++ ':' :: digits) fromLine maxLines).1.length ≤ front.length := by
      by_cases again : Numbered front
      · obtain ⟨before, digits', k, rfl, read'⟩ := again
        rw [parseFileSpec_lines read' read, List.length_append]
        exact Nat.le_add_right _ _
      · rw [parseFileSpec_line again read]
    rw [whole, List.length_append, List.length_cons] at shorter
    omega
  · intro plain
    rw [parseFileSpec_plain plain]

variable {db : Db} {d : Document}

theorem getDocument_stored (stored : d ∈ db.documents) (active : d.active = true)
    (unmarked : d.collection.text.toList.head? ≠ some '#') :
    getDocument db d.filepath.toList fromLine maxLines = .ok (documentReply d fromLine maxLines) := by
  unfold getDocument
  rw [if_neg (head_filepath unmarked), splitOnce_filepath d]
  simp only [String.ofList_toList, Db.getActiveDocumentByFilepath_stored stored active]

/-- The tool does not know the scheme: no stored path begins with the slash that is left of it. -/
theorem getDocument_scheme (relative : ∀ e ∈ db.documents, e.path.toList.head? ≠ some '/') (rest : List Char) :
    getDocument db (scheme ++ rest) fromLine maxLines =
      .error ("Document not found: " ++ String.ofList (scheme ++ rest)) := by
  have split : splitOnce '/' (scheme ++ rest) = some ("rqmd:".toList, '/' :: rest) :=
    @splitOnce_append '/' "rqmd:".toList (by decide) ('/' :: rest)
  have absent : db.getActiveDocumentByFilepath (String.ofList "rqmd:".toList) (String.ofList ('/' :: rest)) = none := by
    unfold Db.getActiveDocumentByFilepath
    cases found : db.getDocumentAt (String.ofList "rqmd:".toList) (String.ofList ('/' :: rest)) with
    | none => rfl
    | some e =>
      obtain ⟨member, -, path⟩ := Db.getDocumentAt_iff.mp found
      have begins := relative e member
      rw [path, String.toList_ofList] at begins
      exact absurd rfl begins
  have head : (scheme ++ rest).head? ≠ some '#' := by
    change some 'r' ≠ some '#'
    decide
  unfold getDocument
  rw [if_neg head, split]
  simp only [absent]

/-- Both slashes of the scheme stay in what the tool looks up. -/
theorem parseFileSpec_scheme (rest : List Char) (fromLine maxLines : Option Nat) :
    ∃ lookup, (parseFileSpec (scheme ++ rest) fromLine maxLines).1 = scheme ++ lookup := by
  obtain ⟨tail, whole, clean⟩ := parseFileSpec_lookup (scheme ++ rest) fromLine maxLines
  generalize (parseFileSpec (scheme ++ rest) fromLine maxLines).1 = lookup at whole
  rcases List.append_eq_append_iff.mp whole with longer | shorter
  · obtain ⟨more, same, -⟩ := longer
    exact ⟨more, same⟩
  · obtain ⟨cut, same, ends⟩ := shorter
    cases cut with
    | nil => exact ⟨[], by rw [List.append_nil, ← same.trans (List.append_nil _)]⟩
    | cons c cut =>
      -- the last character of the scheme is a slash
      have last : (lookup ++ c :: cut).getLast? = some '/' := by rw [← same]; rfl
      rw [List.getLast?_append_of_ne_nil _ (List.cons_ne_nil _ _)] at last
      have inside := List.mem_of_getLast? last
      rw [ends] at clean
      exact absurd (List.mem_append_left _ inside) clean

end Mcp

/-! ### Reading back -/

/-- What begins with a hash sign is a docid. -/
theorem parse_marked {path : List Char} (marked : path.head? = some '#') :
    PathSpec.parse path = some ⟨[], path⟩ := by
  obtain ⟨tail, rfl⟩ := List.head?_eq_some_iff.mp marked
  have other : scheme.isPrefixOf ('#' :: tail) = false := rfl
  unfold PathSpec.parse
  rw [trimScheme_other _ other]
  exact if_pos rfl

/-- A path that begins with a hash sign is read as a docid, whatever its collection. -/
theorem runGet_marked {s col path : List Char} (parsed : PathSpec.parse s = some ⟨col, path⟩)
    (marked : path.head? = some '#') : runGet db s = runGet db path := by
  unfold runGet
  rw [parsed, parse_marked marked]
  have docid : ∀ other, PathSpec.isDocid ⟨other, path⟩ = true := fun _ => beq_iff_eq.mpr marked
  simp only [docid, if_true]
  rfl

theorem runGet_stored (stored : d ∈ db.documents) (active : d.active = true) {s : List Char}
    (parsed : PathSpec.parse s = some ⟨d.collection.text.toList, d.path.toList⟩)
    (unmarked : d.path.toList.head? ≠ some '#') : runGet db s = .ok d := by
  have address : PathSpec.isDocid ⟨d.collection.text.toList, d.path.toList⟩ = false :=
    Bool.eq_false_iff.mpr fun marked => unmarked (beq_iff_eq.mp marked)
  unfold runGet
  rw [parsed]
  simp only [address, Bool.false_eq_true, if_false, String.ofList_toList,
    Db.getActiveDocumentByFilepath_stored stored active]

/-- Both readers of a docid take the same document. -/
theorem docid_read {docid : List Char} {e : Document} (plain : ∀ c ∈ docid, c.isAlphanum = true)
    (found : db.getDocumentByDocidPrefix (String.ofList docid) = some e) (fromLine maxLines : Option Nat) :
    runGet db ('#' :: docid) = .ok e ∧
      Mcp.getBlocking db ('#' :: docid) fromLine maxLines = .ok (Mcp.documentReply e fromLine maxLines) := by
  have unmarked : docid.dropWhile (· == '#') = docid := by
    cases docid with
    | nil => rfl
    | cons c rest =>
      have first := plain c List.mem_cons_self
      have other : (c == '#') = false := by
        rw [beq_eq_false_iff_ne]
        rintro rfl
        cases first
      exact List.dropWhile_cons_of_neg (by simp [other])
  have stripped : ('#' :: docid).dropWhile (· == '#') = docid := by
    rw [List.dropWhile_cons_of_pos rfl, unmarked]
  have unnumbered : ¬Mcp.Numbered ('#' :: docid) := by
    rintro ⟨front, digits, n, same, -⟩
    have colon : ':' ∈ '#' :: docid := same ▸ List.mem_append_right _ List.mem_cons_self
    rcases List.mem_cons.mp colon with never | member
    · cases never
    · cases plain ':' member
  constructor
  · unfold runGet
    rw [parse_marked rfl]
    have docid' : PathSpec.isDocid ⟨[], '#' :: docid⟩ = true := rfl
    have hex : PathSpec.docidHex ⟨[], '#' :: docid⟩ = String.ofList docid := congrArg String.ofList stripped
    simp only [docid', if_true, hex, found]
  · unfold Mcp.getBlocking Mcp.getDocument
    rw [Mcp.parseFileSpec_plain unnumbered]
    simp only [List.head?_cons, if_true, stripped, found]

/-- The docid that a hit shows is one of its document. -/
theorem docid_shown (hashed : d.hash ≠ "") :
    docidFromHash d.hash ≠ "" ∧ HasDocid (docidFromHash d.hash) d := by
  constructor
  · intro none
    have empty : takeBytes 6 d.hash.toList = [] := by
      have same := congrArg String.toList none
      rwa [docidFromHash, String.toList_ofList] at same
    cases hash : d.hash.toList with
    | nil => exact hashed (String.toList_eq_nil_iff.mp hash)
    | cons c rest =>
      have small : c.utf8Size ≤ 6 := Nat.le_trans (Char.utf8Size_le_four c) (by decide)
      rw [hash, takeBytes, if_pos small] at empty
      cases empty
  · refine ⟨takeBytes 6 d.hash.toList, dropBytes 6 d.hash.toList, (takeBytes_append_dropBytes 6 _).symm, ?_⟩
    rw [docidFromHash, String.toList_ofList]

theorem shown_file {S : Type} (score : S) : (resultFromDoc db d score).file.toList = scheme ++ d.filepath.toList :=
  String.toList_append

/-- What a search shows of a hit reads back. On the command line an address, with the scheme or without, leads to its
document unless a name in it begins with a hash sign; then the path is taken for a docid. In the `get` tool an address
without the scheme leads there unless it ends in a number, and with a first line and a number of lines behind it in any
case; with the scheme, as the tools themselves show it, it never does. A docid leads to the first document that has it,
in both. -/
theorem references_read_back {S : Type} (score : S) (stored : d ∈ db.documents) (active : d.active = true)
    (relative : ∀ e ∈ db.documents, e.path.toList.head? ≠ some '/') (hashed : d.hash ≠ "")
    (hex : ∀ c ∈ d.hash.toList, c.isAlphanum = true) :
    (d.collection.text.toList.head? ≠ some '#' →
      (d.path.toList.head? ≠ some '#' →
        runGet db d.filepath.toList = .ok d ∧ runGet db (resultFromDoc db d score).file.toList = .ok d) ∧
      (d.path.toList.head? = some '#' → runGet db d.filepath.toList = runGet db d.path.toList ∧
        runGet db (resultFromDoc db d score).file.toList = runGet db d.path.toList) ∧
      ∀ fromLine maxLines,
        (¬Mcp.Numbered d.filepath.toList →
          Mcp.getBlocking db d.filepath.toList fromLine maxLines = .ok (Mcp.documentReply d fromLine maxLines)) ∧
        ∀ digits count n m, Mcp.parseUsize digits = some n → Mcp.parseUsize count = some m →
          Mcp.getBlocking db (d.filepath.toList ++ ':' :: digits ++ ':' :: count) fromLine maxLines =
            .ok (Mcp.documentReply d (fromLine.or (some n)) (maxLines.or (some m)))) ∧
    (∀ fromLine maxLines, ((Mcp.parseFileSpec d.filepath.toList fromLine maxLines).1 = d.filepath.toList ↔
        ¬Mcp.Numbered d.filepath.toList) ∧
      ∃ lookup, Mcp.getBlocking db (resultFromDoc db d score).file.toList fromLine maxLines =
        .error ("Document not found: " ++ lookup)) ∧
    ∃ e, (e ∈ db.documents ∧ e.active = true ∧ HasDocid (resultFromDoc db d score).docid e ∧
        ∀ f ∈ db.documents, f.active = true → HasDocid (resultFromDoc db d score).docid f → Db.documentOrder e f) ∧
      ∀ fromLine maxLines, runGet db ('#' :: (resultFromDoc db d score).docid.toList) = .ok e ∧
        Mcp.getBlocking db ('#' :: (resultFromDoc db d score).docid.toList) fromLine maxLines =
          .ok (Mcp.documentReply e fromLine maxLines) := by
  rw [shown_file score]
  change _ ∧ _ ∧ ∃ e, (_ ∧ _ ∧ HasDocid (docidFromHash d.hash) e ∧ ∀ f ∈ db.documents, _ →
    HasDocid (docidFromHash d.hash) f → _) ∧ ∀ fromLine maxLines, runGet db ('#' :: (docidFromHash d.hash).toList) = _ ∧
      Mcp.getBlocking db ('#' :: (docidFromHash d.hash).toList) _ _ = _
  refine ⟨fun unmarked => ?_, fun fromLine maxLines => ⟨Mcp.parseFileSpec_whole_iff, ?_⟩, ?_⟩
  · have parsed := parse_filepath unmarked (relative d stored)
    refine ⟨fun plain => ⟨runGet_stored stored active parsed.1 plain, runGet_stored stored active parsed.2 plain⟩,
      fun marked => ⟨runGet_marked parsed.1 marked, runGet_marked parsed.2 marked⟩, fun fromLine maxLines => ⟨?_, ?_⟩⟩
    · intro plain
      unfold Mcp.getBlocking
      rw [Mcp.parseFileSpec_plain plain]
      exact Mcp.getDocument_stored stored active unmarked
    · intro digits count n m read counted
      unfold Mcp.getBlocking
      rw [Mcp.parseFileSpec_lines read counted]
      exact Mcp.getDocument_stored stored active unmarked
  · obtain ⟨lookup, same⟩ := Mcp.parseFileSpec_scheme d.filepath.toList fromLine maxLines
    have missing := @Mcp.getDocument_scheme (Mcp.parseFileSpec (scheme ++ d.filepath.toList) fromLine maxLines).2.1
      (Mcp.parseFileSpec (scheme ++ d.filepath.toList) fromLine maxLines).2.2 db relative lookup
    rw [← same] at missing
    exact ⟨_, missing⟩
  · obtain ⟨given, has⟩ := docid_shown hashed
    obtain ⟨e, found⟩ := Db.getDocumentByDocidPrefix_exists given stored active has
    have first := Db.getDocumentByDocidPrefix_eq_some.mp found
    have plain : ∀ c ∈ (docidFromHash d.hash).toList, c.isAlphanum = true := by
      intro c member
      rw [docidFromHash, String.toList_ofList] at member
      apply hex c
      rw [← takeBytes_append_dropBytes 6 d.hash.toList]
      exact List.mem_append_left _ member
    have read : db.getDocumentByDocidPrefix (String.ofList (docidFromHash d.hash).toList) = some e := by
      rw [String.ofList_toList]
      exact found
    exact ⟨e, ⟨first.2.1, first.2.2.1, first.2.2.2.1, first.2.2.2.2⟩, docid_read plain read⟩

/-- A collection named `notes`. -/
def memosName : CollectionName := ⟨"memos", by decide, by decide⟩

def plainNote : Document := ⟨1, memosName, "a.md", "A", "a1b2c3d4", true, "one\ntwo\n", none, none⟩

def markedNote : Document := ⟨2, memosName, "#todo.md", "Todo", "b1b2c3d4", true, "later\n", none, none⟩

def numberedNote : Document := ⟨3, memosName, "log:5", "Log", "c1b2c3d4", true, "now\n", none, none⟩

def notesDb : Db where
  documents := ⟨[plainNote, markedNote, numberedNote], by decide⟩
  sequence := 3
  content := ⟨[⟨"a1b2c3d4", "one\ntwo\n"⟩, ⟨"b1b2c3d4", "later\n"⟩, ⟨"c1b2c3d4", "now\n"⟩], by decide⟩
  vectors := ∅
  collections := ∅
  config := ∅
  nextVid := none
  bounded := by
    intro d member
    change d ∈ [plainNote, markedNote, numberedNote] at member
    revert d
    decide
  referenced := by
    intro d member
    change d ∈ [plainNote, markedNote, numberedNote] at member
    change ∃ c ∈ [_, _, _], _
    revert d
    decide

theorem plain_note_read_back :
    runGet notesDb "rqmd://memos/a.md".toList = .ok plainNote ∧
      Mcp.getBlocking notesDb "memos/a.md:2:1".toList none none =
        .ok (Mcp.documentReply plainNote (some 2) (some 1)) ∧
      ∃ lookup, Mcp.getBlocking notesDb "rqmd://memos/a.md".toList none none =
        .error ("Document not found: " ++ lookup) := by
  have relative : ∀ e ∈ notesDb.documents, e.path.toList.head? ≠ some '/' := by
    intro e member
    change e ∈ [plainNote, markedNote, numberedNote] at member
    revert e
    decide
  have hex : ∀ c ∈ plainNote.hash.toList, c.isAlphanum = true := List.all_eq_true.mp rfl
  have read := @references_read_back notesDb plainNote Unit () List.mem_cons_self rfl relative (by decide) hex
  have address := read.1 (by decide)
  exact ⟨(address.1 (by decide)).2, (address.2.2 none none).2 ['2'] ['1'] 2 1 rfl rfl, (read.2.1 none none).2⟩

/-- Addresses that a search shows and that do not lead back. -/
example :
    runGet notesDb "rqmd://memos/#todo.md".toList = .error "no document found with docid #todo.md" ∧
      Mcp.getBlocking notesDb "memos/log:5".toList none none = .error "Document not found: memos/log" ∧
      Mcp.getBlocking notesDb "rqmd://memos/a.md".toList none none =
        .error "Document not found: rqmd://memos/a.md" := by
  decide +kernel

end Rqmd
