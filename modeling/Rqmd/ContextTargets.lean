import Rqmd.Rename

/-! The targets of `context add`. A qualified target is stored as it was typed, while a lookup spells the directories above
a path itself, each with a slash behind it; another spelling is stored under a key that no lookup tries. -/

namespace Rqmd.Targets
open Text Db

def contextKey (path : String) : String := "context:" ++ path

/-- The text shown for a target, and the key its context is stored under. -/
def resolveContextTarget (db : Db) (path : String) : Except Failure (String × String) :=
  if path = "/" ∨ keyHasPrefix "rqmd://" path = true then .ok (path, contextKey path)
  else
    match db.listCollections.find? (·.name.text == path) with
    | some c => .ok ("rqmd://" ++ path ++ "/", collectionContextKey c.name)
    | none => .error ("'" ++ path ++ "' is not a known collection and not a qualified rqmd:// path.\n" ++
        "Add the collection first, or use the qualified form: rqmd context add rqmd://" ++ path ++ "/ \"...\"")

/-- `context add`. -/
def addContext (db : Db) (path text : String) : Except Failure Db :=
  (resolveContextTarget db path).map fun target => db.setConfig target.2 text

theorem addContext_stored {db after : Db} {path text : String} (added : addContext db path text = .ok after) :
    ∃ shown key, resolveContextTarget db path = .ok (shown, key) ∧ after.getConfig key = some text := by
  unfold addContext at added
  cases resolved : resolveContextTarget db path with
  | error e =>
    rw [resolved] at added
    cases added
  | ok target =>
    rw [resolved] at added
    refine ⟨target.1, target.2, rfl, ?_⟩
    rw [← Except.ok.inj added]
    refine getConfig_eq_some.mpr ?_
    change _ ∈ _ ++ [_]
    exact List.mem_append_right _ List.mem_cons_self

/-! ### The keys of a lookup -/

/-- The keys a lookup tries from these directories on. -/
def upwardKeys (c : CollectionName) : List (List Char) → List String
  | [] => [collectionContextKey c ++ directoryKey [], "context:/"]
  | component :: above => (collectionContextKey c ++ directoryKey (component :: above)) :: upwardKeys c above

def consultedKeys (c : CollectionName) (relPath : String) : List String := upwardKeys c (parents relPath)

variable {db : Db} {c : CollectionName} {above : List (List Char)} {key text relPath target : String}

theorem contextUpwards_eq (db : Db) (c : CollectionName) (above : List (List Char)) :
    db.contextUpwards c.text above = (upwardKeys c above).findSome? db.getConfig := by
  induction above with
  | nil =>
    rw [contextUpwards_nil, upwardKeys]
    simp only [List.findSome?_cons, List.findSome?_nil]
    cases db.getConfig (collectionContextKey c ++ directoryKey []) with
    | some _ => rfl
    | none =>
      cases db.getConfig "context:/" with
      | some _ => rfl
      | none => rfl
  | cons component above later =>
    rw [contextUpwards_cons, upwardKeys, List.findSome?_cons, later]
    cases db.getConfig (collectionContextKey c ++ directoryKey (component :: above)) with
    | some _ => rfl
    | none => rfl

/-- A lookup answers with the first of its keys that is stored. -/
theorem getContextForPath_eq (db : Db) (c : CollectionName) (relPath : String) :
    db.getContextForPath c.text relPath = (consultedKeys c relPath).findSome? db.getConfig :=
  contextUpwards_eq db c (parents relPath)

theorem mem_upwardKeys : key ∈ upwardKeys c above ↔
    key = "context:/" ∨ ∃ up, up <:+ above ∧ key = collectionContextKey c ++ directoryKey up := by
  induction above with
  | nil => simp [upwardKeys, or_comm]
  | cons component above later =>
    rw [upwardKeys, List.mem_cons, later]
    constructor
    · rintro (own | slash | ⟨up, lies, same⟩)
      · exact .inr ⟨component :: above, List.suffix_rfl, own⟩
      · exact .inl slash
      · exact .inr ⟨up, lies.trans (List.suffix_cons _ _), same⟩
    · rintro (slash | ⟨up, lies, same⟩)
      · exact .inr (.inl slash)
      · rcases List.suffix_cons_iff.mp lies with whole | part
        · exact .inl (whole ▸ same)
        · exact .inr (.inr ⟨up, part, same⟩)

/-- The keys in front of those of a directory belong to directories below it. -/
theorem upwardKeys_append (c : CollectionName) (front above : List (List Char)) :
    ∃ before, upwardKeys c (front ++ above) = before ++ upwardKeys c above ∧
      ∀ key ∈ before, ∃ up, up <:+ front ++ above ∧ above.length < up.length ∧
        key = collectionContextKey c ++ directoryKey up := by
  induction front with
  | nil => exact ⟨[], rfl, fun _ inside => absurd inside (List.not_mem_nil)⟩
  | cons component front later =>
    obtain ⟨before, split, each⟩ := later
    refine ⟨(collectionContextKey c ++ directoryKey (component :: (front ++ above))) :: before, ?_, fun key inside => ?_⟩
    · rw [List.cons_append, upwardKeys, split]
      rfl
    · rcases List.mem_cons.mp inside with rfl | other
      · refine ⟨component :: (front ++ above), List.suffix_rfl, ?_, rfl⟩
        rw [List.length_cons, List.length_append]
        omega
      · obtain ⟨up, lies, longer, same⟩ := each key other
        exact ⟨up, lies.trans (List.suffix_cons _ _), longer, same⟩

/-! ### Paths and targets as texts -/

/-- The name of a directory or a file. -/
def IsComponent (part : List Char) : Prop := part ≠ [] ∧ '/' ∉ part ∧ part ≠ ['.'] ∧ part ≠ ['.', '.']

/-- A path a document can be indexed under. -/
def PossiblePath (relPath : String) : Prop := ∀ part ∈ relPath.toList.splitOn '/', IsComponent part

/-- The spelling of a directory of a collection, given from the directory itself upwards. -/
def directoryTarget (c : CollectionName) (up : List (List Char)) : String :=
  "rqmd://" ++ c.text ++ "/" ++ directoryKey up

def dirText (dirs : List (List Char)) : List Char := dirs.flatMap fun d => d ++ ['/']

theorem dirText_cons (d : List Char) (dirs : List (List Char)) : dirText (d :: dirs) = d ++ '/' :: dirText dirs := by
  rw [dirText, List.flatMap_cons, List.append_assoc]
  rfl

theorem dirText_append (front back : List (List Char)) : dirText (front ++ back) = dirText front ++ dirText back :=
  List.flatMap_append

theorem intercalate_concat (dirs : List (List Char)) (last : List Char) :
    ['/'].intercalate (dirs ++ [last]) = dirText dirs ++ last := by
  induction dirs with
  | nil => exact List.intercalate_singleton
  | cons d dirs later =>
    rw [List.cons_append, List.intercalate_cons_of_ne_nil (by simp), later, dirText_cons]
    simp only [List.append_assoc, List.cons_append, List.nil_append]

theorem directoryKey_toList (up : List (List Char)) : (directoryKey up).toList = dirText up.reverse := by
  cases up with
  | nil => rfl
  | cons component above =>
    have texts : ((component :: above).reverse.map String.ofList).map String.toList = above.reverse ++ [component] := by
      rw [List.map_map, List.reverse_cons]
      exact List.map_id'' (fun _ => String.toList_ofList) _
    rw [directoryKey, String.toList_append, String.toList_intercalate, texts, List.reverse_cons, dirText_append,
      dirText_cons]
    have joined := intercalate_concat above.reverse component
    change ['/'].intercalate (above.reverse ++ [component]) ++ ['/'] = _
    rw [joined, List.append_assoc]
    rfl

theorem split_unique {front front' rest rest' : List Char} (left : '/' ∉ front) (right : '/' ∉ front')
    (same : front ++ '/' :: rest = front' ++ '/' :: rest') : front = front' ∧ rest = rest' := by
  have first := splitOnce_append left rest
  have second := splitOnce_append right rest'
  rw [same, second] at first
  have pairs := Option.some.inj first
  exact ⟨(congrArg Prod.fst pairs).symm, (congrArg Prod.snd pairs).symm⟩

/-- A path is the directories above it and a last part without a slash. -/
theorem path_split (relPath : String) : ∃ last, '/' ∉ last ∧ relPath.toList.splitOn '/' = (parents relPath).reverse ++ [last] ∧
    relPath.toList = dirText (parents relPath).reverse ++ last := by
  cases shape : (relPath.toList.splitOn '/').reverse with
  | nil => exact absurd (List.reverse_eq_nil_iff.mp shape) (List.splitOn_ne_nil '/' _)
  | cons last above =>
    have parts : relPath.toList.splitOn '/' = above.reverse ++ [last] := by
      rw [← List.reverse_reverse (List.splitOn _ _), shape, List.reverse_cons]
    have up : parents relPath = above := by
      rw [parents, shape, List.tail_cons]
    have plain : '/' ∉ last := Text.not_mem_of_mem_splitOn (by rw [parts]; simp)
    refine ⟨last, plain, by rw [up, parts], ?_⟩
    rw [up, ← intercalate_concat, ← parts, List.intercalate_splitOn]

/-- Directories are the front of a path as texts exactly when they are its first components. -/
theorem dirText_front {xs ys : List (List Char)} {last : List Char} (left : ∀ x ∈ xs, '/' ∉ x) (right : ∀ y ∈ ys, '/' ∉ y)
    (plain : '/' ∉ last) : dirText xs <+: dirText ys ++ last ↔ xs <+: ys := by
  induction xs generalizing ys with
  | nil => simp [dirText]
  | cons x xs later =>
    have inner : ∀ x ∈ xs, '/' ∉ x := fun z inside => left z (List.mem_cons_of_mem x inside)
    cases ys with
    | nil =>
      refine ⟨fun front => ?_, fun front => absurd (List.prefix_nil.mp front) (List.cons_ne_nil _ _)⟩
      have slash : '/' ∈ dirText [] ++ last := front.subset (by simp [dirText])
      exact absurd slash plain
    | cons y ys =>
      have first : '/' ∉ x := left x List.mem_cons_self
      have second : '/' ∉ y := right y List.mem_cons_self
      have others : ∀ y ∈ ys, '/' ∉ y := fun z inside => right z (List.mem_cons_of_mem y inside)
      rw [dirText_cons, dirText_cons, List.cons_prefix_cons, ← later inner others, List.append_assoc, List.cons_append]
      constructor
      · intro front
        obtain ⟨rest, same⟩ := front
        rw [List.append_assoc, List.cons_append] at same
        obtain ⟨names, tails⟩ := split_unique first second same
        exact ⟨names, rest, tails⟩
      · rintro ⟨rfl, rest, tails⟩
        exact ⟨rest, by rw [List.append_assoc, List.cons_append, tails]⟩

/-! ### What a target stands for -/

def withSlash (text : List Char) : List Char := if text.getLast? = some '/' then text else text ++ ['/']

/-- The address of a document. -/
def address (c : CollectionName) (relPath : String) : String := "rqmd://" ++ filepath c relPath

/-- The root stands for every document, another target for the document it names and those in the directory it names. -/
def AtOrBelow (target : String) (c : CollectionName) (relPath : String) : Prop :=
  target = "/" ∨ address c relPath = target ∨ withSlash target.toList <+: (address c relPath).toList

/-- A context stored under the key can be read for the target: some lookup tries the key, only lookups at or below the
target do, and these answer with its text unless a nearer target has a context. -/
structure ContextReadable (target key : String) : Prop where
  consulted : ∃ c relPath, PossiblePath relPath ∧ key ∈ consultedKeys c relPath
  within : ∀ c relPath, PossiblePath relPath → key ∈ consultedKeys c relPath → AtOrBelow target c relPath
  returned : ∀ (db : Db) c relPath text, PossiblePath relPath → AtOrBelow target c relPath →
    db.getConfig key = some text →
    (∀ nearer, AtOrBelow nearer c relPath → target.length < nearer.length → db.getConfig (contextKey nearer) = none) →
    db.getContextForPath c.text relPath = some text

variable {up : List (List Char)}

theorem contextKey_directory (c : CollectionName) (up : List (List Char)) :
    contextKey (directoryTarget c up) = collectionContextKey c ++ directoryKey up := by
  apply String.toList_inj.mp
  simp [contextKey, directoryTarget, collectionContextKey, String.toList_append]

theorem contextKey_inj {a b : String} (same : contextKey a = contextKey b) : a = b := append_cancel same

theorem directoryTarget_toList (c : CollectionName) (up : List (List Char)) :
    (directoryTarget c up).toList = "rqmd://".toList ++ (c.text.toList ++ '/' :: dirText up.reverse) := by
  rw [directoryTarget, String.toList_append, String.toList_append, String.toList_append, directoryKey_toList]
  simp only [List.append_assoc]
  rfl

theorem address_toList (c : CollectionName) (relPath : String) :
    (address c relPath).toList = "rqmd://".toList ++ (c.text.toList ++ '/' :: relPath.toList) := by
  rw [address, filepath, String.toList_append, String.toList_append, String.toList_append]
  simp only [List.append_assoc]
  rfl

theorem directoryTarget_ends (c : CollectionName) (up : List (List Char)) :
    withSlash (directoryTarget c up).toList = (directoryTarget c up).toList := by
  have slash : ∃ front, (directoryTarget c up).toList = front ++ ['/'] := by
    rw [directoryTarget_toList]
    cases up with
    | nil => exact ⟨"rqmd://".toList ++ c.text.toList, (List.append_assoc _ _ _).symm⟩
    | cons component above =>
      refine ⟨"rqmd://".toList ++ (c.text.toList ++ '/' :: (dirText above.reverse ++ component)), ?_⟩
      rw [List.reverse_cons, dirText_append, dirText_cons]
      simp only [List.append_assoc, List.cons_append]
      rfl
  obtain ⟨front, text⟩ := slash
  rw [text]
  exact if_pos List.getLast?_concat

theorem directoryTarget_ne_root (c : CollectionName) (up : List (List Char)) : directoryTarget c up ≠ "/" := by
  intro same
  have lists := congrArg String.toList same
  rw [directoryTarget_toList] at lists
  simp at lists

theorem parents_plain (relPath : String) : ∀ part ∈ (parents relPath).reverse, '/' ∉ part := by
  obtain ⟨last, -, parts, -⟩ := path_split relPath
  intro part inside
  exact Text.not_mem_of_mem_splitOn (parts ▸ List.mem_append_left _ inside)

/-- A document lies at or below a directory when the directory is one of those above it. -/
theorem atOrBelow_directory {d : CollectionName} (plain : ∀ part ∈ up, '/' ∉ part) :
    AtOrBelow (directoryTarget c up) d relPath ↔ d = c ∧ up <:+ parents relPath := by
  obtain ⟨last, single, -, text⟩ := path_split relPath
  have reversed : ∀ part ∈ up.reverse, '/' ∉ part := fun part inside => plain part (List.mem_reverse.mp inside)
  have front := dirText_front reversed (parents_plain relPath) single
  have byText : (directoryTarget c up).toList <+: (address d relPath).toList ↔ d = c ∧ up <:+ parents relPath := by
    rw [directoryTarget_toList, address_toList, List.prefix_append_right_inj, ← List.reverse_prefix, ← front, ← text]
    constructor
    · rintro ⟨rest, same⟩
      rw [List.append_assoc, List.cons_append] at same
      obtain ⟨names, paths⟩ := split_unique c.oneSegment d.oneSegment same
      exact ⟨CollectionName.ext (String.toList_inj.mp names).symm, rest, paths⟩
    · rintro ⟨rfl, rest, paths⟩
      exact ⟨rest, by rw [List.append_assoc, List.cons_append, paths]⟩
  rw [AtOrBelow, directoryTarget_ends, byText]
  constructor
  · rintro (root | same | below)
    · exact absurd root (directoryTarget_ne_root c up)
    · exact byText.mp (same ▸ List.prefix_rfl)
    · exact below
  · exact fun below => .inr (.inr below)

/-- The keys of a lookup in front of a directory's are those of nearer targets. -/
theorem before_directory (lies : up <:+ parents relPath) : ∃ before, consultedKeys c relPath = before ++ upwardKeys c up ∧
    ∀ key ∈ before, ∃ nearer, AtOrBelow nearer c relPath ∧ (directoryTarget c up).length < nearer.length ∧
      key = contextKey nearer := by
  obtain ⟨front, whole⟩ := lies
  obtain ⟨before, split, each⟩ := upwardKeys_append c front up
  refine ⟨before, by rw [consultedKeys, ← whole, split], fun key inside => ?_⟩
  obtain ⟨longer, suffix, more, same⟩ := each key inside
  rw [whole] at suffix
  have plain : ∀ part ∈ longer, '/' ∉ part := fun part within =>
    parents_plain relPath part (List.mem_reverse.mpr (suffix.subset within))
  refine ⟨directoryTarget c longer, (atOrBelow_directory plain).mpr ⟨rfl, suffix⟩, ?_, ?_⟩
  · obtain ⟨extra, split⟩ := List.suffix_of_suffix_length_le ⟨front, whole⟩ suffix (Nat.le_of_lt more)
    have some : 0 < (dirText extra.reverse).length := by
      cases extra with
      | nil =>
        rw [← split] at more
        exact absurd more (Nat.lt_irrefl _)
      | cons component extra =>
        rw [List.reverse_cons, dirText_append, dirText_cons, List.length_append, List.length_append, List.length_cons]
        omega
    rw [← String.length_toList, ← String.length_toList, directoryTarget_toList, directoryTarget_toList, ← split,
      List.reverse_append, dirText_append]
    simp only [List.length_append, List.length_cons]
    omega
  · rw [contextKey_directory, same]

/-- Any directories are those above some path. -/
theorem exists_path (parts : ∀ part ∈ up, IsComponent part) : ∃ relPath, PossiblePath relPath ∧ parents relPath = up := by
  have name : IsComponent ['a'] := by
    unfold IsComponent
    decide
  have each : ∀ part ∈ up.reverse ++ [['a']], IsComponent part := by
    intro part inside
    rcases List.mem_append.mp inside with above | last
    · exact parts part (List.mem_reverse.mp above)
    · rw [List.mem_singleton.mp last]
      exact name
  have plain : ∀ part ∈ up.reverse ++ [['a']], '/' ∉ part := fun part inside => (each part inside).2.1
  have split : (['/'].intercalate (up.reverse ++ [['a']])).splitOn '/' = up.reverse ++ [['a']] :=
    List.splitOn_intercalate '/' plain (by simp)
  refine ⟨String.ofList (['/'].intercalate (up.reverse ++ [['a']])), ?_, ?_⟩
  · rw [PossiblePath, String.toList_ofList, split]
    exact each
  · rw [parents, String.toList_ofList, split]
    simp

theorem directory_readable (parts : ∀ part ∈ up, IsComponent part) :
    ContextReadable (directoryTarget c up) (collectionContextKey c ++ directoryKey up) := by
  have plain : ∀ part ∈ up, '/' ∉ part := fun part inside => (parts part inside).2.1
  refine ⟨?_, ?_, ?_⟩
  · obtain ⟨relPath, possible, lies⟩ := exists_path parts
    exact ⟨c, relPath, possible, mem_upwardKeys.mpr (.inr ⟨up, lies ▸ List.suffix_rfl, rfl⟩)⟩
  · intro d relPath _ found
    rcases mem_upwardKeys.mp found with slash | ⟨other, suffix, same⟩
    · have mine := keyHasPrefix_append (collectionContextKey c) (directoryKey up)
      rw [slash, slash_in_key] at mine
      cases mine
    · have target : directoryTarget c up = directoryTarget d other :=
        contextKey_inj (by rw [contextKey_directory, contextKey_directory, same])
      have plain' : ∀ part ∈ other, '/' ∉ part := fun part within =>
        parents_plain relPath part (List.mem_reverse.mpr (suffix.subset within))
      rw [target]
      exact (atOrBelow_directory plain').mpr ⟨rfl, suffix⟩
  · intro db d relPath text _ below stored none
    obtain ⟨rfl, lies⟩ := (atOrBelow_directory plain).mp below
    obtain ⟨before, split, each⟩ := @before_directory d relPath up lies
    have unset : before.findSome? db.getConfig = Option.none := by
      refine List.findSome?_eq_none_iff.mpr fun key inside => ?_
      obtain ⟨nearer, at', longer, same⟩ := each key inside
      rw [same]
      exact none nearer at' longer
    have first : (upwardKeys d up).findSome? db.getConfig = some text := by
      cases up with
      | nil => rw [upwardKeys, List.findSome?_cons, stored]
      | cons component above => rw [upwardKeys, List.findSome?_cons, stored]
    rw [getContextForPath_eq, split, List.findSome?_append, unset, first]
    rfl

theorem root_readable : ContextReadable "/" (contextKey "/") := by
  refine ⟨?_, fun _ _ _ _ => .inl rfl, ?_⟩
  · obtain ⟨relPath, possible, -⟩ := @exists_path [] fun _ inside => absurd inside List.not_mem_nil
    exact ⟨⟨"a", by decide +kernel, by decide +kernel⟩, relPath, possible, mem_upwardKeys.mpr (.inl rfl)⟩
  · intro db c relPath text _ _ stored none
    have plain : ∀ part ∈ ([] : List (List Char)), '/' ∉ part := fun _ inside => absurd inside List.not_mem_nil
    have top : ([] : List (List Char)) <:+ parents relPath := List.nil_suffix
    obtain ⟨before, split, each⟩ := @before_directory c relPath [] top
    have wide : "/".length < (directoryTarget c []).length := by
      rw [← String.length_toList (s := directoryTarget c []), directoryTarget_toList, List.length_append, List.length_append,
        List.length_cons]
      have scheme : "rqmd://".toList.length = 7 := by decide +kernel
      have slash : "/".length = 1 := by decide +kernel
      omega
    have unset : before.findSome? db.getConfig = Option.none := by
      refine List.findSome?_eq_none_iff.mpr fun key inside => ?_
      obtain ⟨nearer, at', longer, same⟩ := each key inside
      rw [same]
      exact none nearer at' (wide.trans longer)
    have collection : db.getConfig (collectionContextKey c ++ directoryKey []) = Option.none := by
      rw [← contextKey_directory]
      exact none _ ((atOrBelow_directory plain).mpr ⟨rfl, top⟩) wide
    change db.getConfig "context:/" = _ at stored
    rw [getContextForPath_eq, split, List.findSome?_append, unset, upwardKeys, List.findSome?_cons, collection,
      List.findSome?_cons, stored]
    rfl

/-- A key that is tried for a path is spelled as the lookup spells it. -/
theorem spelled_of_consulted (other : target ≠ "/") (possible : PossiblePath relPath)
    (found : contextKey target ∈ consultedKeys c relPath) :
    ∃ up, (∀ part ∈ up, IsComponent part) ∧ target = directoryTarget c up := by
  rcases mem_upwardKeys.mp found with slash | ⟨up, suffix, same⟩
  · exact absurd (contextKey_inj (b := "/") slash) other
  · obtain ⟨last, -, parts, -⟩ := path_split relPath
    refine ⟨up, fun part inside => possible part ?_, contextKey_inj (by rw [same, contextKey_directory])⟩
    rw [parts]
    exact List.mem_append_left _ (List.mem_reverse.mpr (suffix.subset inside))

/-- An accepted target has a context that can be read exactly when a qualified one is spelled with a collection name and
directories, each with a slash behind it. -/
theorem context_readable_iff (db : Db) {target display key : String}
    (accepted : resolveContextTarget db target = .ok (display, key)) :
    ContextReadable display key ↔ (keyHasPrefix "rqmd://" target = true →
      ∃ c up, (∀ part ∈ up, IsComponent part) ∧ target = directoryTarget c up) := by
  unfold resolveContextTarget at accepted
  split at accepted
  · next typed =>
    obtain ⟨rfl, rfl⟩ := Prod.mk.inj (Except.ok.inj accepted)
    by_cases root : target = "/"
    · refine iff_of_true (root ▸ root_readable) fun qualified => ?_
      rw [root] at qualified
      exact absurd qualified (by decide +kernel)
    · have qualified := typed.resolve_left root
      constructor
      · intro readable _
        obtain ⟨c, relPath, possible, found⟩ := readable.consulted
        exact ⟨c, spelled_of_consulted root possible found⟩
      · intro spelled
        obtain ⟨c, up, parts, same⟩ := spelled qualified
        rw [same, contextKey_directory]
        exact directory_readable parts
  · next typed =>
    split at accepted
    · next c found =>
      obtain ⟨rfl, rfl⟩ := Prod.mk.inj (Except.ok.inj accepted)
      have hit := List.find?_some found
      have name : c.name.text = target := beq_iff_eq.mp hit
      refine iff_of_true ?_ fun qualified => absurd (.inr qualified) typed
      have readable := @directory_readable c.name [] fun _ inside => absurd inside List.not_mem_nil
      have shown : directoryTarget c.name [] = "rqmd://" ++ target ++ "/" := by
        rw [directoryTarget, directoryKey, String.append_empty, name]
      rw [shown, directoryKey, String.append_empty] at readable
      exact readable
    · cases accepted

/-- A collection named with its slash. -/
theorem notes_context_readable :
    resolveContextTarget Db.empty "rqmd://notes/" = .ok ("rqmd://notes/", "context:rqmd://notes/") ∧
      (ContextReadable "rqmd://notes/" "context:rqmd://notes/" ↔ (keyHasPrefix "rqmd://" "rqmd://notes/" = true →
        ∃ c up, (∀ part ∈ up, IsComponent part) ∧ "rqmd://notes/" = directoryTarget c up)) := by
  have accepted : resolveContextTarget Db.empty "rqmd://notes/" =
      .ok ("rqmd://notes/", "context:rqmd://notes/") := by
    decide +kernel
  exact ⟨accepted, context_readable_iff Db.empty accepted⟩

/-- Without the slash the context is stored under a key that no lookup tries. -/
theorem slashless_context_unreadable :
    resolveContextTarget Db.empty "rqmd://notes" = .ok ("rqmd://notes", "context:rqmd://notes") ∧
      ¬ContextReadable "rqmd://notes" "context:rqmd://notes" := by
  refine ⟨by decide +kernel, fun readable => ?_⟩
  obtain ⟨c, relPath, possible, found⟩ := readable.consulted
  have key : "context:rqmd://notes" = contextKey "rqmd://notes" := by decide +kernel
  rw [key] at found
  obtain ⟨up, -, same⟩ := spelled_of_consulted (by decide +kernel) possible found
  have lists := congrArg String.toList same
  rw [directoryTarget_toList] at lists
  have slash : '/' ∈ c.text.toList ++ '/' :: dirText up.reverse := List.mem_append_right _ List.mem_cons_self
  have text : "rqmd://notes".toList = "rqmd://".toList ++ "notes".toList := by decide +kernel
  rw [text, List.append_cancel_left_eq] at lists
  rw [← lists] at slash
  exact absurd slash (by decide +kernel)

end Rqmd.Targets
