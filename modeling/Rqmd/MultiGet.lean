import Rqmd.Lib.Like
import Rqmd.Lib.Select
import Rqmd.Scope

/-! Resolving a `multi-get` pattern: a comma-separated list of docids, globs and path fragments. -/

namespace Rqmd
open Like Select Text

/-! ### The statements -/

namespace Db

/-- Of several collections; of all when none is named. -/
def inCollections (collections : List String) (d : Document) : Bool :=
  collections.isEmpty || collections.contains d.collection.text

def listDocumentsMulti (db : Db) (collections : List String) : List Document :=
  (db.documents.select fun d => d.active && inCollections collections d).insertionSort documentOrder

/-- The active document with this prefix of its hash, the first one by collection and path. -/
def getDocumentByDocidPrefix (db : Db) (docid : String) : Option Document :=
  if docid.isEmpty then none
  else ((db.documents.select fun d => like (escape docid.toList ++ ['%']) d.hash.toList && d.active).insertionSort
    documentOrder).head?

/-- `NEEDLE_CLAUSE`. -/
def needleClause (needle : String) (d : Document) : Bool :=
  d.path == needle || d.filepath == needle || like ('%' :: '/' :: escape needle.toList) d.path.toList ||
    like ('%' :: '/' :: escape needle.toList) d.filepath.toList

def findDocumentsByNeedleBatch (db : Db) (collections : List String) (needles : List String) : List Document :=
  (db.documents.select fun d => d.active && needles.any (fun needle => needleClause needle d) &&
    inCollections collections d).insertionSort documentOrder

def needleBatch : Nat := 250

def findDocumentsByNeedles (db : Db) (collections : List String) (needles : List String) : List Document :=
  match chunks needleBatch needles with
  | [] => []
  | [batch] => db.findDocumentsByNeedleBatch collections batch
  | batches => dedupByKey Document.id
      ((batches.flatMap (db.findDocumentsByNeedleBatch collections)).insertionSort documentOrder)

end Db

/-! ### The index of the matched documents -/

/-- What follows each slash of a text. -/
def slashSuffixes : List Char → List (List Char)
  | [] => []
  | c :: rest => if c = '/' then rest :: slashSuffixes rest else slashSuffixes rest

/-- The positions of the documents under each key, as the pairs that were pushed. -/
structure NeedleIndex where
  exact : List (List Char × Nat)
  suffix : List (List Char × Nat)

namespace NeedleIndex

def keys (d : Document) : List (List Char) := [d.path.toList, d.filepath.toList]

def new (docs : List Document) : NeedleIndex where
  exact := docs.zipIdx.flatMap fun (d, i) => (keys d).map fun key => (key, i)
  suffix := docs.zipIdx.flatMap fun (d, i) => (keys d).flatMap fun key => (slashSuffixes (fold key)).map fun rest => (rest, i)

def get (pairs : List (List Char × Nat)) (key : List Char) : List Nat := (pairs.filter fun p => p.1 == key).map Prod.snd

/-- The positions of the documents a needle matches. -/
def hits (index : NeedleIndex) (needle : String) : List Nat :=
  dedupByKey id ((get index.exact needle.toList ++ get index.suffix (fold needle.toList)).insertionSort (· ≤ ·))

def count (index : NeedleIndex) (needle : String) : Nat := (index.hits needle).length

end NeedleIndex

/-! ### The pattern -/

/-- One entry of a pattern. -/
inductive Entry where
  | docid (hex : String)
  | glob (pattern : String)
  | path (needle : String)
deriving DecidableEq

/-- `trim_start_matches("rqmd://")`. -/
def trimScheme : Nat → List Char → List Char
  | 0, text => text
  | fuel + 1, text =>
    match stripPrefix "rqmd://" text with
    | some rest => trimScheme fuel rest
    | none => text

def globCharacter (c : Char) : Bool := c == '*' || c == '?' || c == '[' || c == '\x7b'

def Entry.classify (entry : List Char) : Entry :=
  if entry.head? = some '#' then .docid (String.ofList entry.tail)
  else
    let rest := String.ofList (trimScheme entry.length entry)
    if entry.any globCharacter then .glob rest else .path rest

/-- The entries of a pattern, as written and as classified. -/
def patternEntries (pattern : String) : List (String × Entry) :=
  (((pattern.toList.splitOn ',').map trimmed).filter fun p => !p.isEmpty).map fun p => (String.ofList p, Entry.classify p)

def Entry.docid? : Entry → Option String
  | .docid hex => some hex
  | _ => none

def Entry.glob? : Entry → Option String
  | .glob pattern => some pattern
  | _ => none

def Entry.path? : Entry → Option String
  | .path needle => some needle
  | _ => none

/-! ### The report -/

structure AmbiguousEntry where
  entry : String
  found : Nat
deriving DecidableEq

structure MultiGetReport where
  documents : List Document
  unmatched : List String
  ambiguous : List AmbiguousEntry
deriving DecidableEq

def maxDistinctPathEntries : Nat := 5000

/-- The first of each. -/
def distinct (needles : List String) : List String := needles.reverse.dedup.reverse

/-- One turn of the last loop, with the entries seen so far. -/
def MultiGetReport.note (state : MultiGetReport × List String) (entry : (String × Entry) × Nat) :
    MultiGetReport × List String :=
  let (report, seen) := state
  let ((written, kind), found) := entry
  let ambiguous := kind.path?.isSome && decide (1 < found)
  if (found = 0 ∨ ambiguous) ∧ written ∉ seen then
    if found = 0 then ({ report with unmatched := report.unmatched ++ [written] }, written :: seen)
    else ({ report with ambiguous := report.ambiguous ++ [⟨written, found⟩] }, written :: seen)
  else state

/-- Compile a glob; `newGlob` is the matcher of `Glob::new`, if the pattern has one. -/
def compileGlob (newGlob : String → Option (String → Bool)) (pattern : String) : Except Failure (String → Bool) :=
  match newGlob pattern with
  | some isMatch => .ok isMatch
  | none => .error ("invalid glob pattern: " ++ pattern)

section Resolve
variable (newGlob : String → Option (String → Bool)) (db : Db) (collections : List String)

/-- How many documents an entry has matched, given what the path entries of the pattern have found. -/
def Entry.count (matched listing : List Document) : Entry → Nat
  | .docid hex => if (db.getDocumentByDocidPrefix hex).isSome then 1 else 0
  | .glob pattern => match newGlob pattern with
    | some isMatch => listing.countP fun d => isMatch d.filepath
    | none => 0
  | .path needle => (NeedleIndex.new matched).count needle

def resolveEntries (entries : List (String × Entry)) : Except Failure MultiGetReport := do
  let byDocid := (entries.filterMap fun e => e.2.docid?).filterMap db.getDocumentByDocidPrefix
  let needles := distinct (entries.filterMap fun e => e.2.path?)
  if maxDistinctPathEntries < needles.length then
    throw ("too many distinct path entries (" ++ toString needles.length ++ "); at most " ++
      toString maxDistinctPathEntries ++ " per call")
  let matched := db.findDocumentsByNeedles collections needles
  let globs := entries.filterMap fun e => e.2.glob?
  let matchers ← globs.mapM (compileGlob newGlob)
  let listing := if globs.isEmpty then [] else db.listDocumentsMulti collections
  let globbed := listing.filter fun d => matchers.any fun isMatch => isMatch d.filepath
  let docs := dedupByKey Document.id ((byDocid ++ matched ++ globbed).insertionSort Db.documentOrder)
  let counted := entries.map fun e => (e, e.2.count newGlob db matched listing)
  return (counted.foldl MultiGetReport.note (⟨docs, [], []⟩, [])).1

def resolveMultiGetReport (pattern : String) : Except Failure MultiGetReport :=
  resolveEntries newGlob db collections (patternEntries pattern)

end Resolve

/-! ### The needle clause and the index -/

theorem slash_toLower {c : Char} : c.toLower = '/' ↔ c = '/' := by
  constructor
  · intro same
    unfold Char.toLower at same
    split at same
    · next upper =>
      have value := congrArg Char.val same
      simp only at value
      have low := upper.1
      have high := upper.2
      rw [show ('/' : Char).val = 47 from rfl, show ('a' : Char).val - ('A' : Char).val = 32 from rfl] at value
      rw [show ('A' : Char).val = 65 from rfl] at low
      rw [show ('Z' : Char).val = 90 from rfl] at high
      have moved := congrArg UInt32.toNat value
      rw [ge_iff_le, UInt32.le_iff_toNat_le] at low
      rw [UInt32.le_iff_toNat_le] at high
      rw [UInt32.toNat_add] at moved
      simp only [UInt32.reduceToNat] at low high moved
      omega
    · exact same
  · intro same
    rw [same]
    rfl

/-- The text ends with the needle behind a slash, up to the case of ASCII letters. -/
def EndsWithPart (needle text : String) : Prop :=
  ∃ front rest, text.toList = front ++ '/' :: rest ∧ fold rest = fold needle.toList

theorem like_part {needle text : String} :
    like ('%' :: '/' :: escape needle.toList) text.toList = true ↔ EndsWithPart needle text := by
  apply like_percent_escape (by decide)
  intro d same
  exact slash_toLower.mp (same.symm.trans (by decide))

theorem needleClause_iff {needle : String} {d : Document} :
    Db.needleClause needle d = true ↔
      (d.path = needle ∨ d.filepath = needle) ∨ EndsWithPart needle d.path ∨ EndsWithPart needle d.filepath := by
  simp only [Db.needleClause, Bool.or_eq_true, beq_iff_eq, like_part, or_assoc]

theorem mem_slashSuffixes {text rest : List Char} : rest ∈ slashSuffixes text ↔ ∃ front, text = front ++ '/' :: rest := by
  induction text with
  | nil => simp [slashSuffixes]
  | cons c tail later =>
    have onward : (∃ front, c :: tail = front ++ '/' :: rest) ↔
        (c = '/' ∧ tail = rest) ∨ ∃ front, tail = front ++ '/' :: rest := by
      constructor
      · intro found
        obtain ⟨front, parts⟩ := found
        cases front with
        | nil => exact .inl (List.cons.inj parts)
        | cons b front => exact .inr ⟨front, (List.cons.inj parts).2⟩
      · intro found
        rcases found with here | behind
        · exact ⟨[], by rw [here.1, here.2]; rfl⟩
        · obtain ⟨front, parts⟩ := behind
          exact ⟨c :: front, by rw [parts, List.cons_append]⟩
    rw [onward, slashSuffixes, ← later]
    by_cases slash : c = '/'
    · rw [if_pos slash, List.mem_cons]
      exact or_congr_left ⟨fun same => ⟨slash, same.symm⟩, fun both => both.2.symm⟩
    · rw [if_neg slash]
      exact ⟨.inr, fun found => found.resolve_left fun both => slash both.1⟩

/-- A suffix of the folded text is a folded suffix of the text. -/
theorem mem_slashSuffixes_fold {needle text : String} :
    fold needle.toList ∈ slashSuffixes (fold text.toList) ↔ EndsWithPart needle text := by
  rw [mem_slashSuffixes, EndsWithPart]
  constructor
  · intro found
    obtain ⟨front, parts⟩ := found
    obtain ⟨before, after, whole, _, folds⟩ := List.map_eq_append_iff.mp parts
    obtain ⟨c, rest, behind, slash, same⟩ := List.map_eq_cons_iff.mp folds
    refine ⟨before, rest, ?_, same⟩
    rw [whole, behind, slash_toLower.mp slash]
  · intro found
    obtain ⟨front, rest, parts, folds⟩ := found
    refine ⟨fold front, ?_⟩
    rw [parts, fold, List.map_append, List.map_cons, ← fold, ← fold, folds]
    rfl

namespace NeedleIndex

theorem mem_get {pairs : List (List Char × Nat)} {key : List Char} {i : Nat} : i ∈ get pairs key ↔ (key, i) ∈ pairs := by
  simp only [get, List.mem_map, List.mem_filter, beq_iff_eq]
  constructor
  · intro found
    obtain ⟨p, ⟨inside, same⟩, position⟩ := found
    rw [← same, ← position]
    exact inside
  · intro inside
    exact ⟨(key, i), ⟨inside, rfl⟩, rfl⟩

theorem mem_pushed {docs : List Document} {needle : String} {i : Nat} :
    i ∈ get (new docs).exact needle.toList ++ get (new docs).suffix (fold needle.toList) ↔
      ∃ d, (d, i) ∈ docs.zipIdx ∧ Db.needleClause needle d = true := by
  have either : ∀ d : Document, Db.needleClause needle d = true ↔
      needle.toList ∈ keys d ∨ ∃ key ∈ keys d, fold needle.toList ∈ slashSuffixes (fold key) := by
    intro d
    rw [needleClause_iff, ← mem_slashSuffixes_fold, ← mem_slashSuffixes_fold]
    simp only [keys, List.mem_cons, List.not_mem_nil, or_false, exists_eq_or_imp, exists_eq_left, String.toList_inj]
    rw [eq_comm, @eq_comm _ d.filepath]
  rw [List.mem_append, mem_get, mem_get]
  simp only [new, List.mem_flatMap, List.mem_map, Prod.mk.injEq, Prod.exists]
  constructor
  · intro found
    rcases found with exact_ | suffix
    · obtain ⟨d, j, inside, key, member, same, position⟩ := exact_
      subst same position
      exact ⟨d, inside, (either d).mpr (.inl member)⟩
    · obtain ⟨d, j, inside, key, member, rest, tail, same, position⟩ := suffix
      subst same position
      exact ⟨d, inside, (either d).mpr (.inr ⟨key, member, tail⟩)⟩
  · intro found
    obtain ⟨d, inside, hit⟩ := found
    rcases (either d).mp hit with member | behind
    · exact .inl ⟨d, i, inside, _, member, rfl, rfl⟩
    · obtain ⟨key, member, tail⟩ := behind
      exact .inr ⟨d, i, inside, key, member, _, tail, rfl, rfl⟩

/-- The hash maps find the positions at which the clause holds. -/
theorem hits_eq (docs : List Document) (needle : String) :
    (new docs).hits needle = (docs.zipIdx.filter fun p => Db.needleClause needle p.1).map Prod.snd := by
  have order : ∀ l : List Nat, ∀ a ∈ l, ∀ b ∈ l, a ≤ b → b ≤ a → a = b := fun _ _ _ _ _ => Nat.le_antisymm
  have sorted : ((get (new docs).exact needle.toList ++ get (new docs).suffix (fold needle.toList)).insertionSort
      (· ≤ ·)).Pairwise (· ≤ ·) := List.pairwise_insertionSort _ _
  apply eq_of_strict (order _) (dedupByKey_strict sorted (order _))
  · have rising : docs.zipIdx.Pairwise fun a b => a.2 < b.2 := by
      rw [List.pairwise_iff_getElem]
      intro i j left right before
      simpa [List.getElem_zipIdx] using before
    rw [List.pairwise_map]
    exact (rising.sublist List.filter_sublist).imp fun before => ⟨Nat.le_of_lt before, Nat.ne_of_lt before⟩
  · intro i
    rw [mem_dedupByKey (fun a _ b _ (same : id a = id b) => same), List.mem_insertionSort, mem_pushed]
    simp only [List.mem_map, List.mem_filter, Prod.exists]
    constructor
    · intro found
      obtain ⟨d, inside, hit⟩ := found
      exact ⟨d, i, ⟨inside, hit⟩, rfl⟩
    · intro found
      obtain ⟨d, j, ⟨inside, hit⟩, same⟩ := found
      exact ⟨d, same ▸ inside, hit⟩

theorem count_eq (docs : List Document) (needle : String) :
    (new docs).count needle = docs.countP (Db.needleClause needle) := by
  have fronts : docs = docs.zipIdx.map Prod.fst := (List.zipIdx_map_fst 0 docs).symm
  rw [count, hits_eq, List.length_map, ← List.countP_eq_length_filter]
  conv_rhs => rw [fronts, List.countP_map]
  rfl

end NeedleIndex

end Rqmd
