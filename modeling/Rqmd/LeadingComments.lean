import Rqmd.SourceChunks

/-! The comments right above a declaration stay with it. In a tree whose nodes lie in order, nothing begins between the
first of them and the declaration; so a chunk ends there only at its full size, or inside what the declaration itself
begins with. -/

namespace Rqmd.Chunking
open Text

variable {language : Language} {root node parent child decl : SyntaxNode} {run rest after : List SyntaxNode} {pos : Nat}

/-- The children of a node lie in order inside it; declarations have text, and comments declare nothing. -/
structure Neat (language : Language) (node : SyntaxNode) : Prop where
  ordered : node.children.Pairwise fun a b => a.endByte ≤ b.startByte
  forward : ∀ child ∈ node.children, child.startByte ≤ child.endByte
  within : ∀ child ∈ node.children, node.startByte ≤ child.startByte ∧ child.endByte ≤ node.endByte
  solid : ∀ child ∈ node.children, language.declares child = true → child.startByte < child.endByte
  bare : ∀ child ∈ node.children, child.kind ∈ language.leading → ∀ pos, ¬ BeginsIn language child pos

/-- All nodes the walk looks into are neat. -/
def Tidy (language : Language) (root : SyntaxNode) : Prop := ∀ node, Visited language root node → Neat language node

theorem Neat.apart (neat : Neat language node) {a b : SyntaxNode} (left : a ∈ node.children)
    (right : b ∈ node.children) :
    a = b ∨ a.endByte ≤ b.startByte ∨ b.endByte ≤ a.startByte := by
  by_cases same : a = b
  · exact .inl same
  · have symmetric : Std.Symm fun a b : SyntaxNode => a.endByte ≤ b.startByte ∨ b.endByte ≤ a.startByte :=
      ⟨fun _ _ => Or.symm⟩
    have either : node.children.Pairwise fun a b => a.endByte ≤ b.startByte ∨ b.endByte ≤ a.startByte :=
      neat.ordered.imp Or.inl
    exact .inr (either.forall left right same)

namespace Tidy

theorem inside (tidy : Tidy language node) (member : child ∈ node.children) (opened : language.closes child = false) :
    Tidy language child := fun _ reached => tidy _ (.under member opened reached)

theorem visited (tidy : Tidy language node) (reached : Visited language node parent) :
    node.startByte ≤ parent.startByte ∧ parent.endByte ≤ node.endByte := by
  induction reached with
  | here => exact ⟨Nat.le_refl _, Nat.le_refl _⟩
  | under member opened inside ih =>
    have within := ih (tidy.inside member opened)
    have bounds := (tidy _ .here).within _ member
    omega

end Tidy

/-! ### Siblings -/

theorem top_split (run rest after : List SyntaxNode) (decl : SyntaxNode) :
    ∃ tail, (run ++ rest).reverse ++ decl :: after = rest.reverse ++ topOf run decl :: tail := by
  rcases List.eq_nil_or_concat run with rfl | ⟨near, top, rfl⟩
  · exact ⟨after, by simp [topOf]⟩
  · exact ⟨near.reverse ++ decl :: after, by simp [topOf]⟩

theorem top_mem (run rest after : List SyntaxNode) (decl : SyntaxNode) :
    topOf run decl ∈ (run ++ rest).reverse ++ decl :: after := by
  obtain ⟨tail, split⟩ := top_split run rest after decl
  rw [split]
  exact List.mem_append_right _ List.mem_cons_self

/-- What begins inside a tree begins with one of its nodes. -/
theorem begins_within (tidy : Tidy language node) (begins : BeginsIn language node pos) :
    node.startByte ≤ pos ∧ pos ≤ node.endByte := by
  obtain ⟨run, decl, ⟨-, parent, rest, after, reached, place, -⟩, rfl⟩ := begins
  have bounds := tidy.visited reached
  have top := top_mem run rest after decl
  rw [← place] at top
  have inside := (tidy parent reached).within _ top
  have forward := (tidy parent reached).forward _ top
  omega

theorem declared_within (tidy : Tidy language node) (declared : Declared language node run decl) :
    node.startByte ≤ (topOf run decl).startByte ∧ decl.startByte < decl.endByte ∧ decl.endByte ≤ node.endByte := by
  obtain ⟨kind, parent, rest, after, reached, place, -⟩ := declared
  have bounds := tidy.visited reached
  have top := top_mem run rest after decl
  have member : decl ∈ (run ++ rest).reverse ++ decl :: after := List.mem_append_right _ List.mem_cons_self
  rw [← place] at top member
  have above := (tidy parent reached).within _ top
  have own := (tidy parent reached).within _ member
  have solid := (tidy parent reached).solid _ member kind
  omega

/-- No run ends inside another. -/
theorem nothing_between {leading : List String} {run' rest' between remaining : List SyntaxNode}
    (whole : Run leading run rest) (whole' : Run leading run' rest') (runs : run.reverse = between ++ remaining)
    (front : rest'.reverse = rest.reverse ++ between) : between = [] := by
  rcases List.eq_nil_or_concat between with rfl | ⟨far, comment, rfl⟩
  · rfl
  · have here : run = remaining.reverse ++ comment :: far.reverse := by
      rw [← List.reverse_reverse run, runs]
      simp
    have above : rest' = comment :: (far.reverse ++ rest) := by
      rw [← List.reverse_reverse rest', front]
      simp
    exact absurd (whole.rides _ _ _ here) (whole'.longest _ _ above)

/-- Of two declarations among siblings, neither begins between the run above the other and the other itself. -/
theorem siblings_apart {siblings run' rest' after' : List SyntaxNode} {decl' : SyntaxNode} {leading : List String}
    (ordered : siblings.Pairwise fun a b => a.endByte ≤ b.startByte)
    (forward : ∀ node ∈ siblings, node.startByte ≤ node.endByte) (solid : decl.startByte < decl.endByte)
    (place : siblings = (run ++ rest).reverse ++ decl :: after) (whole : Run leading run rest)
    (place' : siblings = (run' ++ rest').reverse ++ decl' :: after') (whole' : Run leading run' rest') :
    (topOf run' decl').startByte ≤ (topOf run decl).startByte ∨ decl.startByte < (topOf run' decl').startByte := by
  obtain ⟨tail, split⟩ := top_split run rest after decl
  obtain ⟨tail', split'⟩ := top_split run' rest' after' decl'
  have same : rest'.reverse ++ topOf run' decl' :: tail' = rest.reverse ++ topOf run decl :: tail := by
    rw [← split, ← split', ← place, ← place']
  have first : (topOf run' decl').startByte ≤ (topOf run' decl').endByte :=
    forward _ (place' ▸ top_mem run' rest' after' decl')
  rcases List.append_eq_append_iff.mp same with earlier | later
  · obtain ⟨between, front, cut⟩ := earlier
    cases between with
    | nil => exact .inl (Nat.le_of_eq (congrArg SyntaxNode.startByte (List.cons.inj cut).1))
    | cons top between =>
      obtain ⟨rfl, -⟩ := List.cons.inj cut
      -- the other run begins among the siblings before this one
      have apart := List.pairwise_append.mp (place.trans split ▸ ordered)
      have inside : topOf run' decl' ∈ rest.reverse := by
        rw [front]
        exact List.mem_append_right _ List.mem_cons_self
      have before := apart.2.2 _ inside _ List.mem_cons_self
      exact .inl (first.trans before)
  · obtain ⟨between, front, cut⟩ := later
    have whole_split : between ++ topOf run' decl' :: tail' = run.reverse ++ decl :: after := by
      apply (List.append_right_inj rest.reverse).mp
      rw [← List.append_assoc, ← front, ← split', ← place', place, List.reverse_append, List.append_assoc]
    have equal : between = [] → (topOf run' decl').startByte ≤ (topOf run decl).startByte := by
      rintro rfl
      exact Nat.le_of_eq (congrArg SyntaxNode.startByte (List.cons.inj cut).1.symm)
    rcases List.append_eq_append_iff.mp whole_split with inRun | behind
    · obtain ⟨remaining, runs, -⟩ := inRun
      exact .inl (equal (nothing_between whole whole' runs front))
    · obtain ⟨more, runs, cut'⟩ := behind
      cases more with
      | nil => exact .inl (equal (nothing_between whole whole' (by rw [runs, List.append_nil, List.append_nil]) front))
      | cons head more =>
        obtain ⟨rfl, tails⟩ := List.cons.inj cut'
        have apart := List.pairwise_append.mp (place ▸ ordered)
        have inside : topOf run' decl' ∈ after := by
          rw [tails]
          exact List.mem_append_right _ List.mem_cons_self
        have before := (List.pairwise_cons.mp apart.2.1).1 _ inside
        exact .inr (solid.trans_le before)

/-- What begins inside a node begins among its children, or inside one of them. -/
theorem beginsIn_cases (begins : BeginsIn language node pos) :
    (∃ run decl rest after, node.children = (run ++ rest).reverse ++ decl :: after ∧ Run language.leading run rest ∧
      pos = (topOf run decl).startByte) ∨
    ∃ child ∈ node.children, language.closes child = false ∧ BeginsIn language child pos := by
  obtain ⟨run, decl, ⟨declared, parent, rest, after, reached, place, whole⟩, start⟩ := begins
  cases reached with
  | here => exact .inl ⟨run, decl, rest, after, place, whole, start⟩
  | under member opened inside =>
    exact .inr ⟨_, member, opened, run, decl, ⟨declared, parent, rest, after, inside, place, whole⟩, start⟩

/-- Nothing begins between the run above a declaration and the declaration, but what it begins with itself. -/
theorem kept_together (tidy : Tidy language node) (declared : Declared language node run decl)
    (begins : BeginsIn language node pos) (behind : (topOf run decl).startByte < pos) (before : pos ≤ decl.startByte) :
    language.closes decl = false ∧ BeginsIn language decl pos := by
  obtain ⟨kind, parent, rest, after, reached, place, whole⟩ := declared
  induction reached with
  | here =>
    rename_i node
    have neat := tidy node .here
    have own : decl ∈ node.children := place ▸ List.mem_append_right _ List.mem_cons_self
    have solid := neat.solid decl own kind
    rcases beginsIn_cases begins with ⟨run', decl', rest', after', place', whole', rfl⟩ |
      ⟨child, member, opened, deeper⟩
    · have apart := siblings_apart neat.ordered neat.forward solid place whole place' whole'
      omega
    · have bounds := begins_within (tidy.inside member opened) deeper
      obtain ⟨tail, split⟩ := top_split run rest after decl
      have order := List.pairwise_append.mp (place.trans split ▸ neat.ordered)
      have later := (List.pairwise_append.mp (place ▸ neat.ordered)).2.1
      have inside := member
      rw [place, List.mem_append, List.mem_reverse, List.mem_append, List.mem_cons] at inside
      rcases inside with (inRun | above) | same | below
      · obtain ⟨near, far, here⟩ := List.append_of_mem inRun
        exact absurd deeper (neat.bare child member (whole.rides near child far here).1 pos)
      · have early := order.2.2 child (List.mem_reverse.mpr above) _ List.mem_cons_self
        omega
      · exact same ▸ ⟨opened, deeper⟩
      · have late := (List.pairwise_cons.mp later).1 child below
        omega
  | under member opened inside ih =>
    rename_i node child parent
    have neat := tidy node .here
    have within := declared_within (tidy.inside member opened) ⟨kind, parent, rest, after, inside, place, whole⟩
    rcases beginsIn_cases begins with ⟨run', decl', rest', after', place', -, rfl⟩ | ⟨other, member', opened', deeper⟩
    · have top : topOf run' decl' ∈ node.children := place' ▸ top_mem run' rest' after' decl'
      have forward := neat.forward _ top
      rcases neat.apart top member with same | early | late
      · rw [same] at behind
        omega
      · omega
      · omega
    · have bounds := begins_within (tidy.inside member' opened') deeper
      rcases neat.apart member' member with rfl | early | late
      · exact ih (tidy.inside member opened) deeper place
      · omega
      · omega

theorem Visited.trans {inner : SyntaxNode} (outer : Visited language node parent)
    (reached : Visited language parent inner) :
    Visited language node inner := by
  induction outer with
  | here => exact reached
  | under member opened inside ih => exact .under member opened (ih reached)

/-- A declaration that is looked into is tidy itself. -/
theorem Declared.tidy (declared : Declared language root run decl) (tidy : Tidy language root)
    (opened : language.closes decl = false) : Tidy language decl := by
  obtain ⟨-, parent, rest, after, reached, place, -⟩ := declared
  intro node below
  have own : decl ∈ parent.children := place ▸ List.mem_append_right _ List.mem_cons_self
  exact tidy node (reached.trans (.under own opened below))

/-- Where something begins in the window of a chunk, the chunk does not end between the run above a declaration and the
declaration, unless that begins with another. -/
theorem comments_stay {text : List Char} {span next : Span} {front others : List Span} (tidy : Tidy language root)
    (whole : ∀ pos, Begins language root pos → isCharBoundary text pos = true)
    (spans : sourceSpans language root text = front ++ span :: next :: others)
    (somewhere : ∃ pos, Begins language root pos ∧ span.start + 3200 ≤ pos ∧
      pos < min (span.start + 4000) (byteLength text))
    (declared : Declared language root run decl)
    (alone : language.closes decl = false → ¬ BeginsIn language decl decl.startByte) :
    span.stop ≤ (topOf run decl).startByte ∨ decl.startByte < span.stop := by
  rcases sourceSpans_end spans with ⟨pos, greatest, stop⟩ | ⟨empty, -⟩
  · obtain ⟨begins, -, -⟩ := greatest.1
    rw [snapForward_of_boundary (whole pos begins)] at stop
    rw [stop]
    by_contra between
    have within := declared_within tidy declared
    rcases begins with ⟨-, first⟩ | ⟨-, inside⟩
    · omega
    · obtain ⟨opened, deeper⟩ := kept_together tidy declared inside (by omega) (by omega)
      have bounds := begins_within (declared.tidy tidy opened) deeper
      have same : pos = decl.startByte := by omega
      exact alone opened (same ▸ deeper)
  · obtain ⟨pos, admitted⟩ := somewhere
    have member : pos ∈ {pos | Begins language root pos ∧ span.start + 3200 ≤ pos ∧
        pos < min (span.start + 4000) (byteLength text)} := admitted
    rw [empty] at member
    exact member.elim

def useLine : SyntaxNode := ⟨"use_declaration", 0, 3499, 0, 40, 20, []⟩

def commentLine : SyntaxNode := ⟨"line_comment", 3500, 3560, 41, 42, 0, []⟩

def functionItem : SyntaxNode := ⟨"function_item", 3560, 4900, 42, 60, 1, []⟩

theorem declared_functionItem : Declared rustLanguage commentedFunction [commentLine] functionItem := by
  refine ⟨by decide +kernel, commentedFunction, [useLine], [], .here, rfl, ⟨fun near comment far same => ?_, ?_⟩⟩
  · cases near with
    | nil =>
      obtain ⟨rfl, rfl⟩ := List.cons.inj same
      refine ⟨by decide +kernel, fun previous above => .inr ?_⟩
      obtain rfl := Option.some.inj above
      decide
    | cons first near => simp at same
  · intro comment far same riding
    obtain ⟨rfl, -⟩ := List.cons.inj same
    exact absurd riding.1 (by decide +kernel)

theorem tidy_commentedFunction : Tidy rustLanguage commentedFunction := by
  have children : commentedFunction.children = [useLine, commentLine, functionItem] := rfl
  have bare : ∀ leaf ∈ [useLine, commentLine, functionItem], leaf.children = [] := by
    simp [useLine, commentLine, functionItem]
  intro node reached
  cases reached with
  | here =>
    refine ⟨?_, ?_, ?_, ?_, ?_⟩
    · rw [children]
      simp [useLine, commentLine, functionItem]
    · rw [children]
      simp [useLine, commentLine, functionItem]
    · rw [children]
      simp [useLine, commentLine, functionItem, commentedFunction]
    · rw [children]
      simp [useLine, commentLine, functionItem]
    · intro child member _ pos begins
      have none := bare child (children ▸ member)
      rcases beginsIn_cases begins with ⟨run, decl, rest, after, place, -⟩ | ⟨inner, inside, -⟩
      · simp [none] at place
      · simp [none] at inside
  | under member opened inside =>
    have none := bare _ (children ▸ member)
    cases inside with
    | here =>
      refine ⟨by simp [none], by simp [none], by simp [none], by simp [none], by simp [none]⟩
    | under deeper _ _ => simp [none] at deeper

theorem comment_stays : (⟨0, 3500⟩ : Span).stop ≤ (topOf [commentLine] functionItem).startByte ∨
    functionItem.startByte < (⟨0, 3500⟩ : Span).stop := by
  have found : rustLanguage.collectBoundaries commentedFunction = [3500] := by decide +kernel
  have only : ∀ pos, Begins rustLanguage commentedFunction pos ↔ pos = 3500 := by
    intro pos
    rw [← mem_collectBoundaries, found, List.mem_singleton]
  have spans : sourceSpans rustLanguage commentedFunction fiveThousandChars =
      [] ++ ⟨0, 3500⟩ :: ⟨2960, 5000⟩ :: [] := by
    decide +kernel
  have boundary : isCharBoundary fiveThousandChars 3500 = true := by decide +kernel
  have length : byteLength fiveThousandChars = 5000 := by decide +kernel
  have childless : functionItem.children = [] := rfl
  refine comments_stay tidy_commentedFunction (fun pos begins => ?_) spans ⟨3500, (only 3500).mpr rfl, ?_, ?_⟩
    declared_functionItem fun _ begins => ?_
  · rw [(only pos).mp begins]
    exact boundary
  · decide
  · rw [length]
    decide
  · rcases beginsIn_cases begins with ⟨run, decl, rest, after, place, -⟩ | ⟨inner, inside, -⟩
    · simp [childless] at place
    · simp [childless] at inside

end Rqmd.Chunking
