import Rqmd.Lib.Table

/-! The rows the index stores and the values its commands pass around. -/

namespace Rqmd

/-- The Unicode `White_Space` characters, which `str::trim` removes. -/
def isWhiteSpace (c : Char) : Bool :=
  let n := c.toNat
  (9 ≤ n && n ≤ 13) || n == 32 || n == 0x85 || n == 0xA0 || n == 0x1680 ||
    (0x2000 ≤ n && n ≤ 0x200A) || n == 0x2028 || n == 0x2029 || n == 0x202F || n == 0x205F || n == 0x3000

/-- A name `validate_collection_name` accepts. -/
structure CollectionName where
  text : String
  nonEmpty : text.toList.all isWhiteSpace = false
  oneSegment : '/' ∉ text.toList
deriving DecidableEq

@[ext] theorem CollectionName.ext {a b : CollectionName} (same : a.text = b.text) : a = b := by
  cases a
  cases b
  cases same
  rfl

abbrev Failure := String

def validateCollectionName (name : String) : Except Failure CollectionName :=
  if nonEmpty : name.toList.all isWhiteSpace = false then
    if oneSegment : '/' ∉ name.toList then .ok ⟨name, nonEmpty, oneSegment⟩
    else .error ("invalid collection name '" ++ name ++ "': must not contain '/'")
  else .error ("invalid collection name '" ++ name ++ "': must not be empty")

structure Collection where
  name : CollectionName
  path : String
  pattern : String
  ignore : List String
  includeByDefault : Bool
  updateCommand : Option String
  allowHidden : Bool
  respectGitignore : Bool
  maxFileBytes : Option Nat
  embedIgnore : List String
  embedMaxBytes : Option Nat
deriving DecidableEq

/-- `(size, mtime_ns)`. -/
abbrev FileStat := Int × Int

/-- A `documents` row. -/
structure Document where
  id : Nat
  collection : CollectionName
  path : String
  title : String
  hash : String
  active : Bool
  raw : String
  stat : Option FileStat
  prevHash : Option String
deriving DecidableEq

/-- `"collection/path"`, the key of a document in the full-text index. -/
def filepath (collection : CollectionName) (path : String) : String := collection.text ++ "/" ++ path

def Document.filepath (d : Document) : String := Rqmd.filepath d.collection d.path

structure ContentRow where
  hash : String
  doc : String
deriving DecidableEq

/-- A `content_vectors` row. -/
structure VectorRow where
  hash : String
  seq : Nat
  pos : Nat
  model : String
  embedFingerprint : String
  totalChunks : Nat
  vid : Nat
  chunkHash : Option String
  vectorKey : Option String
deriving DecidableEq

structure ConfigRow where
  key : String
  value : String
deriving DecidableEq

instance : Constraint Document where
  clash a b := a.id = b.id ∨ (a.collection = b.collection ∧ a.path = b.path)
  refl _ := .inl rfl
  symm := Or.imp Eq.symm fun same => ⟨same.1.symm, same.2.symm⟩
  dec _ _ := inferInstanceAs (Decidable (_ ∨ _))

instance : Constraint ContentRow where
  clash a b := a.hash = b.hash
  refl _ := rfl
  symm := Eq.symm
  dec _ _ := inferInstanceAs (Decidable (_ = _))

instance : Constraint VectorRow where
  clash a b := (a.hash = b.hash ∧ a.seq = b.seq) ∨ a.vid = b.vid
  refl _ := .inr rfl
  symm := Or.imp (fun same => ⟨same.1.symm, same.2.symm⟩) Eq.symm
  dec _ _ := inferInstanceAs (Decidable (_ ∨ _))

instance : Constraint Collection where
  clash a b := a.name = b.name
  refl _ := rfl
  symm := Eq.symm
  dec _ _ := inferInstanceAs (Decidable (_ = _))

instance : Constraint ConfigRow where
  clash a b := a.key = b.key
  refl _ := rfl
  symm := Eq.symm
  dec _ _ := inferInstanceAs (Decidable (_ = _))

private theorem split_at_slash (u v r t : List Char) (left : '/' ∉ u) (right : '/' ∉ v)
    (same : u ++ '/' :: r = v ++ '/' :: t) : u = v ∧ r = t := by
  induction u generalizing v with
  | nil =>
    cases v with
    | nil => simpa using same
    | cons x xs =>
      simp only [List.nil_append, List.cons_append, List.cons.injEq] at same
      exact absurd (same.1 ▸ List.mem_cons_self) right
  | cons a as ih =>
    cases v with
    | nil =>
      simp only [List.nil_append, List.cons_append, List.cons.injEq] at same
      exact absurd (same.1 ▸ List.mem_cons_self) left
    | cons x xs =>
      simp only [List.cons_append, List.cons.injEq] at same
      obtain ⟨rest, tail⟩ := ih xs (fun inside => left (List.mem_cons_of_mem _ inside))
        (fun inside => right (List.mem_cons_of_mem _ inside)) same.2
      exact ⟨by rw [same.1, rest], tail⟩

/-- A collection name has no slash, so the first slash of a filepath ends it. -/
theorem filepath_injective {c d : CollectionName} {p q : String} (same : filepath c p = filepath d q) :
    c = d ∧ p = q := by
  have lists : c.text.toList ++ '/' :: p.toList = d.text.toList ++ '/' :: q.toList := by
    simpa [filepath, String.toList_append] using congrArg String.toList same
  obtain ⟨names, paths⟩ := split_at_slash _ _ _ _ c.oneSegment d.oneSegment lists
  exact ⟨CollectionName.ext (String.toList_inj.mp names), String.toList_inj.mp paths⟩

/-- Row ids and filepaths name the same row. -/
theorem Document.filepath_clash {a b : Document} (same : a.filepath = b.filepath) : Constraint.clash a b :=
  .inr (filepath_injective same)

/-- A change of the columns no unique constraint looks at. -/
theorem Document.keeps {f : Document → Document}
    (same : ∀ d, (f d).id = d.id ∧ (f d).collection = d.collection ∧ (f d).path = d.path) :
    Table.Keeps f := by
  intro a b clash
  obtain ⟨idA, nameA, pathA⟩ := same a
  obtain ⟨idB, nameB, pathB⟩ := same b
  change (f a).id = (f b).id ∨ _ at clash
  rwa [idA, idB, nameA, nameB, pathA, pathB] at clash

end Rqmd
