import Mathlib.Tactic.Tauto
import Rqmd.Chunking

/-! The declarations of a source file, where its chunks may begin. The tree is walked with a stack of its own; a
declaration begins at the comments and attributes on the lines right above it. -/

namespace Rqmd.Chunking

/-- A node of a syntax tree, as far as the chunker reads it. -/
structure SyntaxNode where
  kind : String
  startByte : Nat
  endByte : Nat
  startRow : Nat
  endRow : Nat
  endColumn : Nat
  children : List SyntaxNode

/-- One supported language. -/
structure Language where
  extensions : List String
  kinds : List String
  leading : List String
  outermostOnly : Bool
  marker : String
deriving DecidableEq

/-! ### The registry -/

def legacyMarker : String := "ast_chunking:1"

def jsTsKinds : List String :=
  ["function_declaration", "generator_function_declaration", "class_declaration", "method_definition",
    "interface_declaration", "type_alias_declaration", "enum_declaration"]

def javaKinds : List String :=
  ["class_declaration", "interface_declaration", "enum_declaration", "record_declaration", "method_declaration",
    "constructor_declaration"]

def pyKinds : List String := ["function_definition", "class_definition"]

def goKinds : List String := ["function_declaration", "method_declaration", "type_declaration"]

def rustKinds : List String :=
  ["function_item", "struct_item", "enum_item", "union_item", "trait_item", "impl_item", "mod_item", "type_item",
    "macro_definition"]

def csharpKinds : List String :=
  ["class_declaration", "interface_declaration", "struct_declaration", "enum_declaration", "record_declaration",
    "method_declaration", "constructor_declaration"]

def kotlinKinds : List String :=
  ["class_declaration", "object_declaration", "function_declaration", "secondary_constructor"]

def swiftKinds : List String :=
  ["class_declaration", "protocol_declaration", "function_declaration", "init_declaration", "deinit_declaration"]

def hclKinds : List String := ["block"]

def sqlKinds : List String := ["statement"]

def rustLanguage : Language :=
  ⟨["rs"], rustKinds, ["line_comment", "block_comment", "attribute_item"], false, "ast_chunking:1\nast_language:rust:1"⟩

/-- The languages of a build with every grammar, in order; a build holds those of its features. -/
def registry : List Language :=
  [⟨["ts"], jsTsKinds, [], false, legacyMarker⟩, ⟨["tsx"], jsTsKinds, [], false, legacyMarker⟩,
    ⟨["js", "jsx", "mjs", "cjs"], jsTsKinds, [], false, legacyMarker⟩, ⟨["java"], javaKinds, [], false, legacyMarker⟩,
    ⟨["py"], pyKinds, [], false, legacyMarker⟩,
    ⟨["go"], goKinds, ["comment"], false, "ast_chunking:1\nast_language:go:1"⟩, rustLanguage,
    ⟨["cs"], csharpKinds, ["comment"], false, "ast_chunking:1\nast_language:csharp:1"⟩,
    ⟨["kt", "kts"], kotlinKinds, ["line_comment", "block_comment"], false, "ast_chunking:1\nast_language:kotlin:1"⟩,
    ⟨["swift"], swiftKinds, ["comment", "multiline_comment"], false, "ast_chunking:1\nast_language:swift:1"⟩,
    ⟨["tf", "tfvars", "hcl"], hclKinds, ["comment"], true, "ast_chunking:1\nast_language:hcl:1"⟩,
    ⟨["sql"], sqlKinds, ["comment", "marginalia"], true, "ast_chunking:1\nast_language:sql:1"⟩]

/-! ### One list of siblings

The siblings above a declaration are taken nearest first. -/

/-- A comment that shares a line with the code before it belongs to that code. -/
def trailsPreviousCode (comment : SyntaxNode) : List SyntaxNode → Bool
  | [] => false
  | previous :: _ => previous.endColumn != 0 && previous.endRow == comment.startRow

/-- Where a chunk may begin for a declaration that begins at `start`. -/
def boundaryStart (leading : List String) (start : Nat) : List SyntaxNode → Nat
  | [] => start
  | comment :: above =>
    if leading.contains comment.kind && !trailsPreviousCode comment above then
      boundaryStart leading comment.startByte above
    else start

namespace Language

variable (language : Language)

def declares (node : SyntaxNode) : Bool := language.kinds.contains node.kind

/-- Nothing inside such a declaration is a boundary. -/
def closes (node : SyntaxNode) : Bool := language.declares node && language.outermostOnly

/-- The loop over the children of a node: the boundaries found so far, and the stack. -/
def visitChildren (above : List SyntaxNode) : List SyntaxNode → List Nat × List SyntaxNode → List Nat × List SyntaxNode
  | [], found => found
  | child :: rest, (out, stack) =>
    if language.declares child then
      let out := out ++ [boundaryStart language.leading child.startByte above]
      if language.outermostOnly then visitChildren (child :: above) rest (out, stack)
      else visitChildren (child :: above) rest (out, child :: stack)
    else visitChildren (child :: above) rest (out, child :: stack)

/-! ### The stack -/

mutual

def weightOf : SyntaxNode → Nat
  | ⟨_, _, _, _, _, _, children⟩ => weight children + 1

/-- How many nodes there are in these trees. -/
def weight : List SyntaxNode → Nat
  | [] => 0
  | first :: rest => weightOf first + weight rest

end

theorem weight_children (node : SyntaxNode) : weight node.children < weightOf node := by
  cases node
  rw [weightOf]
  exact Nat.lt_succ_self _

theorem weight_visitChildren (children : List SyntaxNode) : ∀ (above : List SyntaxNode)
    (found : List Nat × List SyntaxNode),
      weight (language.visitChildren above children found).2 ≤ weight children + weight found.2 := by
  induction children with
  | nil =>
    intro above found
    simp [visitChildren]
  | cons child rest ih =>
    rintro above ⟨out, stack⟩
    have pushed : weight (child :: stack) = weightOf child + weight stack := by rw [weight]
    have whole : weight (child :: rest) = weightOf child + weight rest := by rw [weight]
    simp only [visitChildren]
    split
    · split
      · have := ih (child :: above) (out ++ [boundaryStart language.leading child.startByte above], stack)
        simp only at this
        omega
      · have := ih (child :: above) (out ++ [boundaryStart language.leading child.startByte above], child :: stack)
        simp only at this
        omega
    · have := ih (child :: above) (out, child :: stack)
      simp only at this
      omega

/-- The loop over the stack. -/
def collectFrom : List SyntaxNode → List Nat → List Nat
  | [], out => out
  | node :: stack, out =>
    collectFrom (language.visitChildren [] node.children (out, stack)).2
      (language.visitChildren [] node.children (out, stack)).1
termination_by stack => weight stack
decreasing_by
  have lighter := weight_children node
  have visited := language.weight_visitChildren node.children [] (out, stack)
  have whole : weight (node :: stack) = weightOf node + weight stack := by rw [weight]
  simp only at visited
  omega

def collectBoundaries (root : SyntaxNode) : List Nat :=
  if language.declares root then
    if language.outermostOnly then [root.startByte] else language.collectFrom [root] [root.startByte]
  else language.collectFrom [root] []

end Language

/-! ### Chunks -/

def languageFor (compiled : List Language) (ext : String) : Option Language :=
  compiled.find? fun language => language.extensions.contains ext

/-- `parse` stands for the parsers: none where the grammar is refused or the parse is overdue. -/
def chunkSource (compiled : List Language) (parse : Language → String → Option SyntaxNode) (text ext : String) :
    Option (List Chunk) := do
  let language ← languageFor compiled ext
  let root ← parse language text
  let positions := language.collectBoundaries root
  if positions.isEmpty then none else some (chunkFromBreakPoints text.toList (declarationBreaks positions))

/-- The starts of the declarations of a text, none where there is no tree. -/
def treeDeclarations (compiled : List Language) (parse : Language → String → Option SyntaxNode) (ext text : String) :
    List Nat :=
  match languageFor compiled ext with
  | some language => ((parse language text).map language.collectBoundaries).getD []
  | none => []

theorem chunkDocumentForPath_trees (compiled : List Language) (parse : Language → String → Option SyntaxNode)
    (path text : String) :
    chunkDocumentForPath (treeDeclarations compiled parse) path text =
      ((pathExtension path).bind (chunkSource compiled parse text)).getD (chunkDocument text.toList) := by
  cases extension : pathExtension path with
  | none => simp [chunkDocumentForPath, sourceBreaks, extension]
  | some ext =>
    cases known : languageFor compiled ext with
    | none => simp [chunkDocumentForPath, sourceBreaks, extension, treeDeclarations, chunkSource, known]
    | some language =>
      cases parsed : parse language text with
      | none => simp [chunkDocumentForPath, sourceBreaks, extension, treeDeclarations, chunkSource, known, parsed]
      | some root =>
        by_cases nothing : language.collectBoundaries root = []
        · simp [chunkDocumentForPath, sourceBreaks, extension, treeDeclarations, chunkSource, known, parsed, nothing]
        · simp [chunkDocumentForPath, sourceBreaks, extension, treeDeclarations, chunkSource, known, parsed, nothing]

variable {language : Language} {root node : SyntaxNode} {pos : Nat}

/-! ### The declarations of a tree -/

/-- A comment or attribute that no code precedes on its line; `above` are the siblings before it, nearest first. -/
def Rides (leading : List String) (comment : SyntaxNode) (above : List SyntaxNode) : Prop :=
  comment.kind ∈ leading ∧ ∀ previous ∈ above.head?, previous.endColumn = 0 ∨ previous.endRow ≠ comment.startRow

/-- The longest run of siblings right above that ride, and those above it. -/
structure Run (leading : List String) (run rest : List SyntaxNode) : Prop where
  rides : ∀ near comment far, run = near ++ comment :: far → Rides leading comment (far ++ rest)
  longest : ∀ comment far, rest = comment :: far → ¬ Rides leading comment far

/-- The first node of a run, or the declaration itself. -/
def topOf (run : List SyntaxNode) (decl : SyntaxNode) : SyntaxNode := run.getLast?.getD decl

/-- The nodes whose children the walk looks at. -/
inductive Visited (language : Language) : SyntaxNode → SyntaxNode → Prop
  | here {node : SyntaxNode} : Visited language node node
  | under {node child parent : SyntaxNode} (member : child ∈ node.children) (opened : language.closes child = false)
      (inside : Visited language child parent) : Visited language node parent

/-- A declaration among the children of a node at or below this one, with the run above it. -/
structure Declared (language : Language) (node : SyntaxNode) (run : List SyntaxNode) (decl : SyntaxNode) : Prop where
  kind : language.declares decl = true
  place : ∃ parent rest after, Visited language node parent ∧
    parent.children = (run ++ rest).reverse ++ decl :: after ∧ Run language.leading run rest

/-- A declaration inside the tree begins here. -/
def BeginsIn (language : Language) (node : SyntaxNode) (pos : Nat) : Prop :=
  ∃ run decl, Declared language node run decl ∧ pos = (topOf run decl).startByte

/-- A declaration of the tree begins here, the root included. -/
def Begins (language : Language) (root : SyntaxNode) (pos : Nat) : Prop :=
  language.declares root = true ∧ pos = root.startByte ∨ language.closes root = false ∧ BeginsIn language root pos

/-! ### What one loop does -/

theorem rides_iff {leading : List String} {comment : SyntaxNode} {above : List SyntaxNode} :
    (leading.contains comment.kind && !trailsPreviousCode comment above) = true ↔ Rides leading comment above := by
  rw [Bool.and_eq_true, List.contains_iff_mem]
  apply and_congr_right
  intro _
  cases above with
  | nil => simp [trailsPreviousCode]
  | cons previous above =>
    simp [trailsPreviousCode]

theorem boundaryStart_spec (leading : List String) (above : List SyntaxNode) : ∀ decl : SyntaxNode,
    ∃ run rest, above = run ++ rest ∧ Run leading run rest ∧
      boundaryStart leading decl.startByte above = (topOf run decl).startByte := by
  induction above with
  | nil =>
    intro decl
    refine ⟨[], [], rfl, ⟨fun near comment far none => ?_, fun comment far none => by cases none⟩, rfl⟩
    simp at none
  | cons comment above ih =>
    intro decl
    by_cases riding : Rides leading comment above
    · obtain ⟨run, rest, split, longest, start⟩ := ih comment
      refine ⟨comment :: run, rest, by rw [split, List.cons_append],
        ⟨fun near other far place => ?_, longest.longest⟩, ?_⟩
      · cases near with
        | nil =>
          obtain ⟨rfl, rfl⟩ := List.cons.inj place
          exact split ▸ riding
        | cons first near => exact longest.rides near other far (List.cons.inj place).2
      · have top : topOf (comment :: run) decl = topOf run comment := by
          simp [topOf, List.getLast?_cons]
        rw [boundaryStart, if_pos (rides_iff.mpr riding), start, top]
    · refine ⟨[], comment :: above, rfl, ⟨fun near other far none => ?_, fun other far same => ?_⟩, ?_⟩
      · simp at none
      · obtain ⟨rfl, rfl⟩ := List.cons.inj same
        exact riding
      · rw [boundaryStart, if_neg fun rides => riding (rides_iff.mp rides)]
        rfl

/-- The run above a declaration is determined. -/
theorem Run.unique {leading : List String} {run rest run' rest' : List SyntaxNode} (one : Run leading run rest)
    (other : Run leading run' rest') (same : run ++ rest = run' ++ rest') : run = run' := by
  rcases List.append_eq_append_iff.mp same with more | less
  · obtain ⟨extra, rfl, rfl⟩ := more
    cases extra with
    | nil => simp
    | cons comment extra =>
      have riding := other.rides run comment extra rfl
      exact absurd riding (one.longest comment (extra ++ rest') rfl)
  · obtain ⟨extra, rfl, rfl⟩ := less
    cases extra with
    | nil => simp
    | cons comment extra =>
      have riding := one.rides run' comment extra rfl
      exact absurd riding (other.longest comment (extra ++ rest) rfl)

namespace Language

theorem mem_visitChildren_out (children : List SyntaxNode) : ∀ (above : List SyntaxNode)
    (found : List Nat × List SyntaxNode), pos ∈ (language.visitChildren above children found).1 ↔
      pos ∈ found.1 ∨ ∃ front decl after, children = front ++ decl :: after ∧ language.declares decl = true ∧
        pos = boundaryStart language.leading decl.startByte (front.reverse ++ above) := by
  induction children with
  | nil =>
    intro above found
    simp [visitChildren]
  | cons child rest ih =>
    rintro above ⟨out, stack⟩
    -- a declaration among the children is the first or stands behind it
    have split : (∃ front decl after, child :: rest = front ++ decl :: after ∧ language.declares decl = true ∧
          pos = boundaryStart language.leading decl.startByte (front.reverse ++ above)) ↔
        (language.declares child = true ∧ pos = boundaryStart language.leading child.startByte above) ∨
          ∃ front decl after, rest = front ++ decl :: after ∧ language.declares decl = true ∧
            pos = boundaryStart language.leading decl.startByte (front.reverse ++ child :: above) := by
      constructor
      · rintro ⟨front, decl, after, place, declared, start⟩
        cases front with
        | nil =>
          obtain ⟨rfl, rfl⟩ := List.cons.inj place
          exact .inl ⟨declared, start⟩
        | cons first front =>
          obtain ⟨rfl, rfl⟩ := List.cons.inj place
          exact .inr ⟨front, decl, after, rfl, declared, by simpa using start⟩
      · rintro (⟨declared, start⟩ | ⟨front, decl, after, rfl, declared, start⟩)
        · exact ⟨[], child, rest, rfl, declared, start⟩
        · exact ⟨child :: front, decl, after, rfl, declared, by simpa using start⟩
    rw [split]
    simp only [visitChildren]
    by_cases declared : language.declares child = true
    · simp only [if_pos declared]
      have noted : pos ∈ out ++ [boundaryStart language.leading child.startByte above] ↔
          pos ∈ out ∨ pos = boundaryStart language.leading child.startByte above := by simp
      split
      · rw [ih, noted]
        simp only [declared, true_and, or_assoc]
      · rw [ih, noted]
        simp only [declared, true_and, or_assoc]
    · simp only [if_neg declared]
      rw [ih]
      simp only [declared, Bool.false_eq_true, false_and, false_or]

theorem mem_visitChildren_stack (children : List SyntaxNode) : ∀ (above : List SyntaxNode)
    (found : List Nat × List SyntaxNode), node ∈ (language.visitChildren above children found).2 ↔
      node ∈ found.2 ∨ node ∈ children ∧ language.closes node = false := by
  induction children with
  | nil =>
    intro above found
    simp [visitChildren]
  | cons child rest ih =>
    rintro above ⟨out, stack⟩
    have split : node ∈ child :: rest ∧ language.closes node = false ↔
        (node = child ∧ language.closes child = false) ∨ node ∈ rest ∧ language.closes node = false := by
      rw [List.mem_cons, or_and_right]
      exact or_congr_left (and_congr_right fun same => by rw [same])
    rw [split]
    simp only [visitChildren]
    split
    · next declared =>
      split
      · next outermost =>
        have closed : language.closes child = true := by simp [closes, declared, outermost]
        rw [ih]
        simp [closed]
      · next nested =>
        have opened : language.closes child = false := by simpa [closes, declared] using nested
        rw [ih]
        simp only [opened, and_true, List.mem_cons]
        exact ⟨fun known => by tauto, fun known => by tauto⟩
    · next plain =>
      have opened : language.closes child = false := by simp [closes, plain]
      rw [ih]
      simp only [opened, and_true, List.mem_cons]
      exact ⟨fun known => by tauto, fun known => by tauto⟩

end Language

/-! ### The whole walk -/

/-- A declaration inside a tree is among the children of its root or inside one that is opened. -/
theorem beginsIn_iff : BeginsIn language node pos ↔
    (∃ front decl after, node.children = front ++ decl :: after ∧ language.declares decl = true ∧
      pos = boundaryStart language.leading decl.startByte (front.reverse ++ [])) ∨
    ∃ child ∈ node.children, language.closes child = false ∧ BeginsIn language child pos := by
  constructor
  · rintro ⟨run, decl, ⟨declared, parent, rest, after, visited, place, longest⟩, start⟩
    cases visited with
    | here =>
      refine .inl ⟨(run ++ rest).reverse, decl, after, place, declared, ?_⟩
      obtain ⟨run', rest', split, other, begins⟩ := boundaryStart_spec language.leading (run ++ rest) decl
      rw [List.append_nil, List.reverse_reverse, begins, start, longest.unique other split]
    | under member opened inside =>
      exact .inr ⟨_, member, opened, run, decl, ⟨declared, parent, rest, after, inside, place, longest⟩, start⟩
  · rintro (⟨front, decl, after, place, declared, start⟩ | ⟨child, member, opened, run, decl, inside, start⟩)
    · obtain ⟨run, rest, split, longest, begins⟩ := boundaryStart_spec language.leading (front.reverse ++ []) decl
      refine ⟨run, decl, ⟨declared, node, rest, after, .here, ?_, longest⟩, start.trans begins⟩
      rw [← split, List.append_nil, List.reverse_reverse, place]
    · obtain ⟨declared, parent, rest, after, visited, place, longest⟩ := inside
      exact ⟨run, decl, ⟨declared, parent, rest, after, .under member opened visited, place, longest⟩, start⟩

/-- The loop over the stack, at any point: what is found already, and what begins inside the nodes on the stack. -/
theorem mem_collectFrom (stack : List SyntaxNode) (out : List Nat) :
    pos ∈ language.collectFrom stack out ↔ pos ∈ out ∨ ∃ node ∈ stack, BeginsIn language node pos := by
  induction stack, out using @Language.collectFrom.induct language with
  | case1 out => simp [Language.collectFrom]
  | case2 node stack out ih =>
    have pushed : (∃ next ∈ (language.visitChildren [] node.children (out, stack)).2, BeginsIn language next pos) ↔
        (∃ next ∈ stack, BeginsIn language next pos) ∨
          ∃ child ∈ node.children, language.closes child = false ∧ BeginsIn language child pos := by
      simp only [language.mem_visitChildren_stack, or_and_right, exists_or, and_assoc]
    rw [Language.collectFrom, ih, language.mem_visitChildren_out, pushed, List.exists_mem_cons_iff,
      @beginsIn_iff language node pos, or_assoc, or_assoc]
    exact or_congr_right (or_congr_right or_comm)

theorem mem_collectBoundaries : pos ∈ language.collectBoundaries root ↔ Begins language root pos := by
  unfold Language.collectBoundaries Begins
  by_cases declared : language.declares root = true
  · by_cases outermost : language.outermostOnly = true
    · simp [declared, outermost, Language.closes]
    · simp [declared, outermost, Language.closes, mem_collectFrom]
  · simp [declared, Language.closes, mem_collectFrom]


end Rqmd.Chunking
