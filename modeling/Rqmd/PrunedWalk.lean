import Mathlib.Data.List.Sort
import Rqmd.Lib.Forest

/-! The walk of a collection's folder. It does not go into a folder whose name alone excludes every file below it, and
the files it finds are those of a walk through everything. -/

namespace Rqmd.Walking

/-- A file name as the system has it, UTF-8 or not. -/
inductive OsName where
  | utf8 (name : String)
  | other (bytes : List UInt8)
deriving DecidableEq

def OsName.toStr : OsName → Option String
  | .utf8 name => some name
  | .other _ => none

/-- A path below the root of a collection. -/
abbrev RelPath := List OsName

/-- A compiled glob set, by the paths it matches. -/
abbrev GlobSet := RelPath → Bool

/-- The files of a folder, each with its size, and the folders in it. -/
abbrev Folder := Forest OsName Nat

/-- How a collection's tree is walked when no `.gitignore` is respected. -/
structure WalkOptions where
  allowHidden : Bool
  maxFileBytes : Nat
deriving DecidableEq

/-- The files to index, how many more were too large, and the folders the built-in rule left out. -/
structure Candidates where
  files : List RelPath
  tooLarge : Nat
  excludedDirs : List String
deriving DecidableEq

def builtinExcludedDirs : List String := ["node_modules", "vendor", "dist", "build", "target", ".cache"]

def isBuiltinExcludedDir (name : String) : Bool := builtinExcludedDirs.contains name

def componentExcluded (name : String) (allowHidden : Bool) : Bool :=
  (!allowHidden && name.toList.head? == some '.') || isBuiltinExcludedDir name

def prunesDir (name : OsName) (allowHidden : Bool) : Bool :=
  match name.toStr with
  | none => true
  | some s => componentExcluded s allowHidden

/-- Text that is not UTF-8 cannot be indexed. -/
def excludesComponent (allowHidden : Bool) (component : OsName) : Bool :=
  match component.toStr with
  | some s => componentExcluded s allowHidden
  | none => true

def isExcluded (rel : RelPath) (ignore : GlobSet) (allowHidden : Bool) : Bool :=
  rel.any (excludesComponent allowHidden) || ignore rel

namespace Pruner

/-- False for a folder the walk should not descend into. The path is never that of the root. -/
def keep (allowHidden isDir : Bool) (path : RelPath) : Bool :=
  !isDir || !(path.getLast?.any fun name => prunesDir name allowHidden)

/-- The built-in names among the folders the walk rejects. A folder it comes to has no other than UTF-8 names above it. -/
def found (allowHidden : Bool) : RelPath → Folder → List String
  | _, .nil => []
  | place, .leaf _ _ rest => found allowHidden place rest
  | place, .branch name below rest =>
    (if keep allowHidden true (place ++ [name]) then found allowHidden (place ++ [name]) below
      else if name.toStr.any isBuiltinExcludedDir then ["/".intercalate ((place ++ [name]).filterMap OsName.toStr)] else []) ++
      found allowHidden place rest

end Pruner

def walkPaths (allowHidden : Bool) (folder : Folder) : List (RelPath × Option Nat) :=
  folder.walk (Pruner.keep allowHidden) []

/-- The body of the loop of `collect_candidates`. -/
def collectOne (includeSet ignore : GlobSet) (opts : WalkOptions) (found : Candidates) (entry : RelPath × Option Nat) :
    Candidates :=
  match entry.2 with
  | none => found
  | some size =>
    if isExcluded entry.1 ignore opts.allowHidden then found
    else if !includeSet entry.1 then found
    else if size > opts.maxFileBytes then { found with tooLarge := found.tooLarge + 1 }
    else { found with files := found.files ++ [entry.1] }

def collectFrom (includeSet ignore : GlobSet) (opts : WalkOptions) (entries : List (RelPath × Option Nat)) : Candidates :=
  entries.foldl (collectOne includeSet ignore opts) ⟨[], 0, []⟩

def collectCandidates (folder : Folder) (includeSet ignore : GlobSet) (opts : WalkOptions) : Candidates :=
  { collectFrom includeSet ignore opts (walkPaths opts.allowHidden folder) with
    excludedDirs := ((Pruner.found opts.allowHidden [] folder).insertionSort (· ≤ ·)).dedup }

variable {folder : Folder} {includeSet ignore : GlobSet} {opts : WalkOptions}

/-- The file passes the rules and the include set. -/
def chosen (includeSet ignore : GlobSet) (opts : WalkOptions) (entry : RelPath × Option Nat) : Bool :=
  entry.2.isSome && !isExcluded entry.1 ignore opts.allowHidden && includeSet entry.1

/-- The file is no larger than the limit. -/
def fits (opts : WalkOptions) (entry : RelPath × Option Nat) : Bool := entry.2.all fun size => size ≤ opts.maxFileBytes

theorem collectFrom_eq (entries : List (RelPath × Option Nat)) : ∀ found : Candidates,
    entries.foldl (collectOne includeSet ignore opts) found =
      ⟨found.files ++ ((entries.filter (chosen includeSet ignore opts)).filter (fits opts)).map Prod.fst,
        found.tooLarge + ((entries.filter (chosen includeSet ignore opts)).filter fun entry => !fits opts entry).length,
        found.excludedDirs⟩ := by
  induction entries with
  | nil => intro found; simp
  | cons entry entries later =>
    intro found
    obtain ⟨path, item⟩ := entry
    rw [List.foldl_cons, later]
    cases item with
    | none => simp [collectOne, chosen]
    | some size =>
      by_cases excluded : isExcluded path ignore opts.allowHidden = true
      · simp [collectOne, chosen, excluded]
      · by_cases included : includeSet path = true
        · by_cases large : size ≤ opts.maxFileBytes
          · simp [collectOne, chosen, fits, excluded, included, large, Nat.not_lt.mpr large]
          · simp [collectOne, chosen, fits, excluded, included, large, Nat.lt_of_not_le large]
            omega
        · simp [collectOne, chosen, excluded, included]

theorem excludesComponent_of_prunesDir {name : OsName} {allowHidden : Bool} (pruned : prunesDir name allowHidden = true) :
    excludesComponent allowHidden name = true := by
  cases name with
  | utf8 s => exact pruned
  | other bytes => rfl

/-- A folder the walk does not go into holds no file the rules keep. -/
theorem isExcluded_of_keep {isDir : Bool} {path rel : RelPath} {allowHidden : Bool}
    (pruned : Pruner.keep allowHidden isDir path = false) (below : path <+: rel) : isExcluded rel ignore allowHidden = true := by
  have rejected : path.getLast?.any (fun name => prunesDir name allowHidden) = true := by
    simp only [Pruner.keep, Bool.or_eq_false_iff, Bool.not_eq_false'] at pruned
    exact pruned.2
  obtain ⟨name, last, prunes⟩ := Option.any_eq_true _ _ |>.mp rejected
  have inside : name ∈ rel := below.subset (List.mem_of_getLast? last)
  have excluded : rel.any (excludesComponent allowHidden) = true :=
    List.any_eq_true.mpr ⟨name, inside, excludesComponent_of_prunesDir prunes⟩
  rw [isExcluded, excluded, Bool.true_or]

/-- What the loop takes from the pruning walk it takes from a walk through everything. -/
theorem chosen_walkPaths (folder : Folder) (includeSet ignore : GlobSet) (opts : WalkOptions) :
    (walkPaths opts.allowHidden folder).filter (chosen includeSet ignore opts) =
      (folder.walk (fun _ _ => true) []).filter (chosen includeSet ignore opts) := by
  apply Forest.filter_walk
  intro isDir path pruned entry below
  rw [chosen, isExcluded_of_keep pruned below, Bool.not_true, Bool.and_false, Bool.false_and]

/-- The rules on a file of the tree. -/
def passes (includeSet ignore : GlobSet) (opts : WalkOptions) (file : RelPath × Nat) : Bool :=
  !isExcluded file.1 ignore opts.allowHidden && includeSet file.1 && decide (file.2 ≤ opts.maxFileBytes)

theorem chosen_files (includeSet ignore : GlobSet) (opts : WalkOptions) (entries : List (RelPath × Option Nat)) :
    ((entries.filter (chosen includeSet ignore opts)).filter (fits opts)).map Prod.fst =
      ((entries.filterMap fun entry => entry.2.map fun size => (entry.1, size)).filter
        (passes includeSet ignore opts)).map Prod.fst := by
  induction entries with
  | nil => rfl
  | cons entry entries later =>
    obtain ⟨path, item⟩ := entry
    cases item with
    | none => simpa [chosen] using later
    | some size =>
      by_cases passed : passes includeSet ignore opts (path, size) = true
      · have both : chosen includeSet ignore opts (path, some size) = true ∧ fits opts (path, some size) = true := by
          simpa [passes, chosen, fits] using passed
        rw [List.filter_cons_of_pos both.1, List.filter_cons_of_pos both.2, List.map_cons, later]
        simp [passed]
      · have either : ¬ (chosen includeSet ignore opts (path, some size) = true ∧ fits opts (path, some size) = true) := by
          simpa [passes, chosen, fits] using passed
        have dropped : (((path, some size) :: entries).filter (chosen includeSet ignore opts)).filter (fits opts) =
            (entries.filter (chosen includeSet ignore opts)).filter (fits opts) := by
          simp only [List.filter_filter]
          exact List.filter_cons_of_neg (by simpa [and_comm] using either)
        rw [dropped, later]
        simp [passed]

/-- The candidates are the files of the whole tree that pass the rules, the include set and the size limit, which is what
the same loop makes of a walk that prunes nothing. -/
theorem pruned_walk_exact (folder : Folder) (includeSet ignore : GlobSet) (opts : WalkOptions) :
    (collectCandidates folder includeSet ignore opts).files =
        ((folder.leaves []).filter (passes includeSet ignore opts)).map Prod.fst ∧
      collectFrom includeSet ignore opts (walkPaths opts.allowHidden folder) =
        collectFrom includeSet ignore opts (folder.walk (fun _ _ => true) []) := by
  have same := chosen_walkPaths folder includeSet ignore opts
  constructor
  · have files : (collectFrom includeSet ignore opts (walkPaths opts.allowHidden folder)).files =
        (((walkPaths opts.allowHidden folder).filter (chosen includeSet ignore opts)).filter (fits opts)).map Prod.fst := by
      rw [collectFrom, collectFrom_eq, List.nil_append]
    change (collectFrom includeSet ignore opts (walkPaths opts.allowHidden folder)).files = _
    rw [files, same, chosen_files, Forest.filterMap_walk]
  · rw [collectFrom, collectFrom, collectFrom_eq, collectFrom_eq, same]

end Rqmd.Walking
