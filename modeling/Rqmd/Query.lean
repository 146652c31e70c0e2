import Rqmd.Lib.Text
import Rqmd.Types

/-! The query language: a plain query to expand, or a document of typed lines; and the lines a generation
model answers an expansion prompt with. -/

namespace Rqmd
open Text

inductive QueryType where
  | lex
  | vec
  | hyde
  | original
deriving DecidableEq

structure SubQuery where
  qtype : QueryType
  text : String
deriving DecidableEq

structure ParsedQuery where
  intent : Option String
  subqueries : List SubQuery
  expandText : Option String
deriving DecidableEq

def stripPrefix (stem : String) (line : List Char) : Option (List Char) :=
  if stem.toList.isPrefixOf line then some (line.drop stem.toList.length) else none

def trimmed (text : List Char) : List Char := trimMatches isWhiteSpace text

/-- The text behind a prefix of the line, trimmed. -/
def fieldOf (stem : String) (line : List Char) : Option String :=
  (stripPrefix stem line).map fun rest => String.ofList (trimmed rest)

def queryLines (raw : String) : List (List Char) :=
  ((lines raw.toList).map trimmed).filter fun line => !line.isEmpty

def isTypedLine (line : List Char) : Bool :=
  ["lex:", "vec:", "hyde:", "intent:"].any fun stem => (stripPrefix stem line).isSome

/-- One line of a query document. A second `intent:` line and a line without a typed prefix are passed over. -/
def parseTypedLine (parsed : ParsedQuery) (line : List Char) : ParsedQuery :=
  match fieldOf "intent:" line, fieldOf "lex:" line, fieldOf "vec:" line, fieldOf "hyde:" line with
  | some text, _, _, _ => { parsed with intent := parsed.intent.or (some text) }
  | none, some text, _, _ => { parsed with subqueries := parsed.subqueries ++ [⟨.lex, text⟩] }
  | none, none, some text, _ => { parsed with subqueries := parsed.subqueries ++ [⟨.vec, text⟩] }
  | none, none, none, some text => { parsed with subqueries := parsed.subqueries ++ [⟨.hyde, text⟩] }
  | none, none, none, none => parsed

def parseQueryDocument (found : List (List Char)) : ParsedQuery := found.foldl parseTypedLine ⟨none, [], none⟩

def parseQuery (raw : String) : ParsedQuery :=
  match queryLines raw with
  | [] => ⟨none, [], some ""⟩
  | [line] =>
    if isTypedLine line then parseQueryDocument [line]
    else ⟨none, [], some ((fieldOf "expand:" line).getD (String.ofList line))⟩
  | found =>
    if found.any isTypedLine then parseQueryDocument found
    else ⟨none, [], some (String.intercalate " " (found.map String.ofList))⟩

/-! ### The language guard -/

inductive Script where
  | latin
  | cjk
  | other
deriving DecidableEq

def scriptOf (c : Char) : Script :=
  let n := c.toNat
  if (0x3040 ≤ n && n ≤ 0x30FF) || (0x3400 ≤ n && n ≤ 0x4DBF) || (0x4E00 ≤ n && n ≤ 0x9FFF) ||
    (0xAC00 ≤ n && n ≤ 0xD7AF) then .cjk
  else if c.isAlpha || (0xC0 ≤ n && n ≤ 0x24F) then .latin
  else .other

/-- A CJK character counts double. `alphabetic` is the Unicode property. -/
def dominantScript (alphabetic : Char → Bool) (text : String) : Script :=
  let letters := text.toList.filter alphabetic
  let latin := letters.countP fun c => scriptOf c = .latin
  let cjk := 2 * letters.countP fun c => scriptOf c = .cjk
  let other := letters.countP fun c => scriptOf c = .other
  if latin ≤ cjk ∧ other ≤ cjk ∧ 0 < cjk then .cjk
  else if other ≤ latin ∧ 0 < latin then .latin
  else .other

def expansionLanguageMismatch (alphabetic : Char → Bool) (query line : String) : Bool :=
  match dominantScript alphabetic query, dominantScript alphabetic line with
  | .latin, .cjk => true
  | .cjk, .latin => true
  | _, _ => false

/-! ### Expansion lines -/

/-- The kind and text of one line of the expansion. -/
def expansionField (line : List Char) : Option SubQuery :=
  match fieldOf "lex:" line, fieldOf "vec:" line, fieldOf "hyde:" line with
  | some text, _, _ => some ⟨.lex, text⟩
  | none, some text, _ => some ⟨.vec, text⟩
  | none, none, some text => some ⟨.hyde, text⟩
  | none, none, none => none

/-- The searches the lines ask for, one place a line: a line that is malformed, repeats the query or an
earlier line of its kind, or is in another script, asks for none. -/
def expansionLegs (alphabetic : Char → Bool) (query : String) : List (List Char) → List SubQuery → List (Option SubQuery)
  | [], _ => []
  | line :: rest, seen =>
    match expansionField (trimmed line) with
    | some sub =>
      if sub.text ≠ "" ∧ sub.text ≠ String.ofList (trimmed query.toList) ∧
          expansionLanguageMismatch alphabetic query sub.text = false ∧ sub ∉ seen then
        some sub :: expansionLegs alphabetic query rest (sub :: seen)
      else none :: expansionLegs alphabetic query rest seen
    | none => none :: expansionLegs alphabetic query rest seen

def buildExpansionPrompt (query : String) (intent : Option String) : String :=
  let intentBlock := match intent with
    | some i => if i = "" then "" else "Context: " ++ i ++ "\n"
    | none => ""
  "<|im_start|>system\nYou are a search query expansion assistant. " ++
    "Given a user query, emit exactly three lines:\n" ++
    "lex: <keyword or phrase for BM25 search>\n" ++
    "vec: <natural language question for vector search>\n" ++
    "hyde: <a 50-100 word hypothetical passage that would answer the query>\n" ++
    "Write all three lines in the same language as the query.\n" ++
    "Output only those three lines. No explanation.<|im_end|>\n<|im_start|>user\n" ++
    intentBlock ++ "Query: " ++ query ++ "<|im_end|>\n<|im_start|>assistant\n"

end Rqmd
