import Rqmd.SearchPages

/-! Renaming a collection. Its rows and context keys change in one statement each; its full-text entries are
deleted by path and written again under the new name, together with every entry no active document has. -/

namespace Rqmd
open Interrupt

variable {V : Type} {env : Env V} {old new c : CollectionName}

/-! ### Context keys -/

namespace Db

variable {db after : Db}

theorem getConfig_eq_some {key value : String} : db.getConfig key = some value ↔ ⟨key, value⟩ ∈ db.config := by
  constructor
  · intro found
    obtain ⟨row, hit, rfl⟩ := Option.map_eq_some_iff.mp found
    obtain ⟨member, same⟩ := Table.find?_some hit
    rw [← beq_iff_eq.mp same]
    exact member
  · intro member
    have unique : ∀ a b : ConfigRow, (a.key == key) = true → (b.key == key) = true → Constraint.clash a b := by
      intro a b first second
      exact (beq_iff_eq.mp first).trans (beq_iff_eq.mp second).symm
    rw [getConfig, Table.find?_eq_some unique member (beq_self_eq_true key)]
    rfl

theorem keyHasPrefix_append (stem rest : String) : keyHasPrefix stem (stem ++ rest) = true := by
  rw [keyHasPrefix, String.toList_append]
  exact List.isPrefixOf_iff_prefix.mpr (List.prefix_append _ _)

theorem keyHasPrefix_iff {stem key : String} : keyHasPrefix stem key = true ↔ ∃ rest, key = stem ++ rest := by
  constructor
  · intro front
    obtain ⟨rest, split⟩ := List.isPrefixOf_iff_prefix.mp front
    refine ⟨String.ofList rest, String.toList_inj.mp ?_⟩
    rw [String.toList_append, String.toList_ofList, split]
  · intro split
    obtain ⟨rest, rfl⟩ := split
    exact keyHasPrefix_append stem rest

theorem append_cancel {stem a b : String} (same : stem ++ a = stem ++ b) : a = b := by
  have lists := congrArg String.toList same
  rw [String.toList_append, String.toList_append] at lists
  exact String.toList_inj.mp (List.append_cancel_left lists)

theorem renameContext_mine (rest value : String) :
    renameContext old new ⟨collectionContextKey old ++ rest, value⟩ = ⟨collectionContextKey new ++ rest, value⟩ := by
  have mine := keyHasPrefix_append (collectionContextKey old) rest
  simp only [renameContext, mine, if_true, String.toList_append, List.drop_left, String.ofList_toList]

theorem renameContext_other {row : ConfigRow} (other : keyHasPrefix (collectionContextKey old) row.key = false) :
    renameContext old new row = row := by
  simp [renameContext, other]

/-- The rows a rename finds when it moves the keys: a row is gone when a key of the collection becomes its key. -/
def keptContexts (db : Db) (old new : CollectionName) : Table ConfigRow :=
  db.config.deleteWhere fun row => !keyHasPrefix (collectionContextKey old) row.key &&
    ((db.config.select fun row => keyHasPrefix (collectionContextKey old) row.key).map (renameContext old new)).any
      fun m => m.key == row.key

theorem mem_keptContexts {row : ConfigRow} : row ∈ db.keptContexts old new ↔ row ∈ db.config ∧
    (keyHasPrefix (collectionContextKey old) row.key = false →
      ∀ rest value, ⟨collectionContextKey old ++ rest, value⟩ ∈ db.config → row.key ≠ collectionContextKey new ++ rest) := by
  rw [keptContexts, Table.mem_deleteWhere]
  apply and_congr_right
  intro _
  rw [Bool.and_eq_true, not_and, Bool.not_eq_true']
  apply imp_congr_right
  intro _
  constructor
  · intro free rest value member same
    apply free
    apply List.any_eq_true.mpr
    have chosen : ⟨collectionContextKey old ++ rest, value⟩ ∈
        db.config.select fun row => keyHasPrefix (collectionContextKey old) row.key :=
      Table.mem_select.mpr ⟨member, keyHasPrefix_append _ rest⟩
    refine ⟨_, List.mem_map_of_mem chosen, ?_⟩
    rw [renameContext_mine, same]
    exact beq_self_eq_true _
  · intro free taken
    obtain ⟨moved, inside, same⟩ := List.any_eq_true.mp taken
    obtain ⟨⟨key, value⟩, chosen, rfl⟩ := List.mem_map.mp inside
    obtain ⟨member, mine⟩ := Table.mem_select.mp chosen
    obtain ⟨rest, rfl⟩ := keyHasPrefix_iff.mp mine
    rw [renameContext_mine] at same
    exact free rest value member (beq_iff_eq.mp same).symm

theorem renameContexts_rows : (db.renameContexts old new).rows = (db.keptContexts old new).rows.map (renameContext old new) := by
  have keeps : ∀ a ∈ (db.keptContexts old new).rows, ∀ b ∈ (db.keptContexts old new).rows,
      Constraint.clash (renameContext old new a) (renameContext old new b) → Constraint.clash a b := by
    -- a moved key meets no key that stays, for that row was dropped
    have apart : ∀ rest value (b : ConfigRow), ⟨collectionContextKey old ++ rest, value⟩ ∈ db.keptContexts old new →
        b ∈ db.keptContexts old new → keyHasPrefix (collectionContextKey old) b.key = false →
        collectionContextKey new ++ rest ≠ b.key := by
      intro rest value b mine theirs other same
      exact (mem_keptContexts.mp theirs).2 other rest value (mem_keptContexts.mp mine).1 same.symm
    intro a left b right clash
    change (renameContext old new a).key = (renameContext old new b).key at clash
    obtain ⟨keyA, valueA⟩ := a
    obtain ⟨keyB, valueB⟩ := b
    change keyA = keyB
    cases mineA : keyHasPrefix (collectionContextKey old) keyA with
    | true =>
      obtain ⟨restA, rfl⟩ := keyHasPrefix_iff.mp mineA
      rw [renameContext_mine] at clash
      cases mineB : keyHasPrefix (collectionContextKey old) keyB with
      | true =>
        obtain ⟨restB, rfl⟩ := keyHasPrefix_iff.mp mineB
        rw [renameContext_mine] at clash
        rw [append_cancel clash]
      | false =>
        rw [renameContext_other mineB] at clash
        exact absurd clash (apart restA valueA _ left right mineB)
    | false =>
      rw [renameContext_other mineA] at clash
      cases mineB : keyHasPrefix (collectionContextKey old) keyB with
      | true =>
        obtain ⟨restB, rfl⟩ := keyHasPrefix_iff.mp mineB
        rw [renameContext_mine] at clash
        exact absurd clash.symm (apart restB valueB _ right left mineA)
      | false =>
        rw [renameContext_other mineB] at clash
        exact clash
  change (((db.keptContexts old new).amend? (renameContext old new)).getD (db.keptContexts old new)).rows = _
  rw [Table.amend?, dif_pos keeps]
  rfl

theorem mem_renameContexts {row : ConfigRow} : row ∈ db.renameContexts old new ↔
    ∃ r ∈ db.keptContexts old new, renameContext old new r = row := by
  rw [← Table.mem_rows, renameContexts_rows, List.mem_map]
  rfl

/-- Under the new name a key answers for the old one; what was stored there before is left where the old name has
nothing. -/
theorem getConfig_moved (contexts : after.config = db.renameContexts old new) (rest : String) :
    after.getConfig (collectionContextKey new ++ rest) =
      (db.getConfig (collectionContextKey old ++ rest)).or (db.getConfig (collectionContextKey new ++ rest)) := by
  apply Option.ext
  intro value
  rw [getConfig_eq_some, contexts, mem_renameContexts, Option.or_eq_some_iff, getConfig_eq_some, getConfig_eq_some]
  constructor
  · intro made
    obtain ⟨row, kept, moved⟩ := made
    obtain ⟨key, stored⟩ := row
    obtain ⟨member, free⟩ := mem_keptContexts.mp kept
    cases mine : keyHasPrefix (collectionContextKey old) key with
    | true =>
      obtain ⟨tail, rfl⟩ := keyHasPrefix_iff.mp mine
      rw [renameContext_mine, ConfigRow.mk.injEq] at moved
      rw [← append_cancel moved.1, ← moved.2]
      exact .inl member
    | false =>
      rw [renameContext_other mine, ConfigRow.mk.injEq] at moved
      rw [← moved.1, ← moved.2]
      refine .inr ⟨?_, member⟩
      apply Option.eq_none_iff_forall_not_mem.mpr
      intro other found
      exact free mine rest other (getConfig_eq_some.mp found) moved.1
  · intro before
    rcases before with moved | ⟨none, stored⟩
    · refine ⟨⟨collectionContextKey old ++ rest, value⟩, mem_keptContexts.mpr ⟨moved, ?_⟩, renameContext_mine rest value⟩
      intro other
      rw [keyHasPrefix_append] at other
      cases other
    · have other : keyHasPrefix (collectionContextKey old) (collectionContextKey new ++ rest) = false := by
        by_contra mine
        have same : new = old := contextKey_disjoint (Bool.of_not_eq_false mine) (keyHasPrefix_append _ rest)
        rw [same, ← getConfig_eq_some, none] at stored
        cases stored
      refine ⟨⟨collectionContextKey new ++ rest, value⟩, mem_keptContexts.mpr ⟨stored, ?_⟩, renameContext_other other⟩
      intro _ tail was member same
      rw [← append_cancel same, ← getConfig_eq_some, none] at member
      cases member

/-- Every other key answers as before. -/
theorem getConfig_elsewhere (contexts : after.config = db.renameContexts old new) {key : String}
    (notOld : keyHasPrefix (collectionContextKey old) key = false)
    (notNew : keyHasPrefix (collectionContextKey new) key = false) : after.getConfig key = db.getConfig key := by
  apply Option.ext
  intro value
  rw [getConfig_eq_some, contexts, mem_renameContexts, getConfig_eq_some]
  constructor
  · intro made
    obtain ⟨row, kept, moved⟩ := made
    obtain ⟨was, stored⟩ := row
    cases mine : keyHasPrefix (collectionContextKey old) was with
    | true =>
      obtain ⟨tail, rfl⟩ := keyHasPrefix_iff.mp mine
      rw [renameContext_mine, ConfigRow.mk.injEq] at moved
      rw [← moved.1, keyHasPrefix_append] at notNew
      cases notNew
    | false =>
      rw [renameContext_other mine] at moved
      rw [← moved]
      exact (mem_keptContexts.mp kept).1
  · intro stored
    refine ⟨⟨key, value⟩, mem_keptContexts.mpr ⟨stored, ?_⟩, renameContext_other notOld⟩
    intro _ rest was member same
    change key = _ at same
    rw [same, keyHasPrefix_append] at notNew
    cases notNew

/-- The directories above a path, deepest first: each is given by its components, and stands for those above it. -/
def parents (relPath : String) : List (List Char) := (relPath.toList.splitOn '/').reverse.tail

/-- What the key of a directory adds to the key of its collection. -/
def directoryKey : List (List Char) → String
  | [] => ""
  | component :: above => String.intercalate "/" ((component :: above).reverse.map String.ofList) ++ "/"

/-- The key under which the context of the directory a path lies in is stored. -/
def contextKey (collection : CollectionName) (relPath : String) : String :=
  collectionContextKey collection ++ directoryKey (parents relPath)

theorem contextUpwards_nil : db.contextUpwards c.text [] =
    (db.getConfig (collectionContextKey c ++ directoryKey [])).or (db.getConfig "context:/") := by
  rw [contextUpwards, getContextForCollection, directoryKey, String.append_empty]
  rfl

theorem contextUpwards_cons (component : List Char) (above : List (List Char)) :
    db.contextUpwards c.text (component :: above) =
      (db.getConfig (collectionContextKey c ++ directoryKey (component :: above))).or (db.contextUpwards c.text above) := by
  rw [contextUpwards, directoryKey, collectionContextKey]
  simp only [String.append_assoc]

theorem slash_in_key : keyHasPrefix (collectionContextKey c) "context:/" = false := by
  by_contra mine
  obtain ⟨rest, split⟩ := keyHasPrefix_iff.mp (Bool.of_not_eq_false mine)
  have lists := congrArg String.toList split
  simp [collectionContextKey, String.toList_append] at lists

/-- A directory of a path lies directly under another one, and that is where some path lies. -/
theorem parents_up {relPath : String} {component : List Char} {above : List (List Char)}
    (lies : parents relPath = component :: above) : ∃ upper, parents upper = above := by
  have parts : ∃ last, relPath.toList.splitOn '/' = above.reverse ++ [component] ++ [last] := by
    cases shape : (relPath.toList.splitOn '/').reverse with
    | nil => exact absurd (List.reverse_eq_nil_iff.mp shape) (List.splitOn_ne_nil '/' _)
    | cons last rest =>
      rw [parents, shape, List.tail_cons] at lies
      refine ⟨last, ?_⟩
      rw [← List.reverse_reverse (List.splitOn _ _), shape, lies]
      simp
  obtain ⟨last, parts⟩ := parts
  have plain : ∀ part ∈ above.reverse ++ [component], '/' ∉ part := by
    intro part member
    have inside : part ∈ relPath.toList.splitOn '/' := by
      rw [parts]
      exact List.mem_append_left _ member
    exact Text.not_mem_of_mem_splitOn inside
  refine ⟨String.ofList (['/'].intercalate (above.reverse ++ [component])), ?_⟩
  rw [parents, String.toList_ofList, List.splitOn_intercalate '/' plain (by simp)]
  simp

/-- What is left under the new name, where the old one has nothing to put in its place, says what the old name
answered there. -/
def LeftoversAgree (db : Db) (old new : CollectionName) : Prop :=
  ∀ relPath value, db.getConfig (contextKey new relPath) = some value → db.getConfig (contextKey old relPath) = none →
    db.getContextForPath old.text relPath = some value

/-- The context stored for the directory of a path is the one its lookup finds first. -/
theorem getContextForPath_stored {relPath value : String} (stored : db.getConfig (contextKey c relPath) = some value) :
    db.getContextForPath c.text relPath = some value := by
  change db.contextUpwards c.text (parents relPath) = some value
  unfold contextKey at stored
  cases lies : parents relPath with
  | nil =>
    rw [lies] at stored
    rw [contextUpwards_nil, stored, Option.some_or]
  | cons component above =>
    rw [lies] at stored
    rw [contextUpwards_cons, stored, Option.some_or]

theorem leftovers_none (fresh : ∀ row ∈ db.config, keyHasPrefix (collectionContextKey new) row.key = false) :
    db.LeftoversAgree old new := by
  intro relPath value left _
  have unused := fresh _ (getConfig_eq_some.mp left)
  change keyHasPrefix (collectionContextKey new) (contextKey new relPath) = false at unused
  rw [contextKey, keyHasPrefix_append] at unused
  cases unused

theorem contexts_level (contexts : after.config = db.renameContexts old new) (agree : db.LeftoversAgree old new)
    {relPath : String} {fallback : Option String}
    (lookup : db.getContextForPath old.text relPath = (db.getConfig (contextKey old relPath)).or fallback) :
    (after.getConfig (contextKey new relPath)).or fallback = db.getContextForPath old.text relPath := by
  have moved : after.getConfig (contextKey new relPath) =
      (db.getConfig (contextKey old relPath)).or (db.getConfig (contextKey new relPath)) := getConfig_moved contexts _
  rw [moved]
  cases mine : db.getConfig (contextKey old relPath) with
  | some value => rw [lookup, mine, Option.some_or, Option.some_or]
  | none =>
    cases left : db.getConfig (contextKey new relPath) with
    | some value => rw [agree relPath value left mine, Option.none_or, Option.some_or]
    | none => rw [lookup, mine, Option.none_or]

/-- The lookup under the new name goes up through the same directories as the one under the old name did. -/
theorem contexts_moved (contexts : after.config = db.renameContexts old new) (agree : db.LeftoversAgree old new)
    (relPath : String) : after.getContextForPath new.text relPath = db.getContextForPath old.text relPath := by
  have upwards : ∀ above p, parents p = above → after.contextUpwards new.text above = db.getContextForPath old.text p := by
    intro above
    induction above with
    | nil =>
      intro p lies
      have top : after.getConfig "context:/" = db.getConfig "context:/" :=
        getConfig_elsewhere contexts slash_in_key slash_in_key
      have lookup : db.getContextForPath old.text p =
          (db.getConfig (contextKey old p)).or (db.getConfig "context:/") := by
        change db.contextUpwards old.text (parents p) = _
        rw [contextKey, lies, contextUpwards_nil]
      rw [contextUpwards_nil, top, ← contexts_level contexts agree lookup, contextKey, lies]
    | cons component above up =>
      intro p lies
      obtain ⟨upper, above_upper⟩ := parents_up lies
      have lookup : db.getContextForPath old.text p =
          (db.getConfig (contextKey old p)).or (db.getContextForPath old.text upper) := by
        change db.contextUpwards old.text (parents p) = _
        rw [contextKey, lies, contextUpwards_cons, ← above_upper]
        rfl
      rw [contextUpwards_cons, up upper above_upper, ← contexts_level contexts agree lookup, contextKey, lies]
  exact upwards _ relPath rfl

theorem contexts_moved_iff (contexts : after.config = db.renameContexts old new) :
    (∀ p, after.getContextForPath new.text p = db.getContextForPath old.text p) ↔ db.LeftoversAgree old new := by
  constructor
  · intro answers p value left mine
    have stored : after.getConfig (contextKey new p) = some value := by
      have moved := getConfig_moved contexts (directoryKey (parents p))
      change after.getConfig (contextKey new p) =
        (db.getConfig (contextKey old p)).or (db.getConfig (contextKey new p)) at moved
      rw [moved, mine, left, Option.none_or]
    rw [← answers p]
    exact getContextForPath_stored stored
  · exact contexts_moved contexts

/-- A rename changes no answer for a third collection. -/
theorem contexts_elsewhere (contexts : after.config = db.renameContexts old new) (notOld : c ≠ old) (notNew : c ≠ new)
    (relPath : String) : after.getContextForPath c.text relPath = db.getContextForPath c.text relPath := by
  have foreign : ∀ other : CollectionName, c ≠ other → ∀ rest,
      keyHasPrefix (collectionContextKey other) (collectionContextKey c ++ rest) = false := by
    intro other different rest
    by_contra theirs
    exact different (contextKey_disjoint (Bool.of_not_eq_false theirs) (keyHasPrefix_append _ rest))
  have key : ∀ rest, after.getConfig (collectionContextKey c ++ rest) = db.getConfig (collectionContextKey c ++ rest) :=
    fun rest => getConfig_elsewhere contexts (foreign old notOld rest) (foreign new notNew rest)
  have top : after.getConfig "context:/" = db.getConfig "context:/" :=
    getConfig_elsewhere contexts slash_in_key slash_in_key
  have upwards : ∀ above, after.contextUpwards c.text above = db.contextUpwards c.text above := by
    intro above
    induction above with
    | nil => rw [contextUpwards_nil, contextUpwards_nil, key, top]
    | cons component above up => rw [contextUpwards_cons, contextUpwards_cons, key, up]
  exact upwards _

end Db

/-! ### Rows -/

namespace Db

variable {db after : Db}

theorem renameCollection_taken (taken : db.nameTaken new = true) :
    db.renameCollection old new = .error ("collection '" ++ new.text ++ "' already exists") := by
  rw [renameCollection, dif_neg]
  rw [taken]
  decide

structure RowsRenamed (db : Db) (old new : CollectionName) (after : Db) : Prop where
  unused : ∀ d ∈ db.documents, d.collection ≠ new
  documents : ∀ x, x ∈ after.documents ↔ ∃ d ∈ db.documents, moveDocument old new d = x
  config : after.config = db.renameContexts old new

theorem rows_renamed (ok : db.renameCollection old new = .ok after) : db.RowsRenamed old new after := by
  unfold renameCollection at ok
  split at ok
  · next free =>
    split at ok
    · cases ok
    · simp only [Except.ok.injEq] at ok
      rw [← ok]
      refine ⟨?_, ?_, rfl⟩
      · intro d member same
        have taken : db.nameTaken new = true := by
          rw [nameTaken, Bool.or_eq_true]
          exact .inr (Table.any_eq_true.mpr ⟨d, member, beq_iff_eq.mpr same⟩)
        rw [taken] at free
        cases free
      · intro x
        change x ∈ db.documents.rows.map (moveDocument old new) ↔ _
        exact List.mem_map
  · cases ok

/-- An active document of a collection other than the renamed one is at the filepath. -/
def HeldElsewhere (db : Db) (old : CollectionName) (path : String) : Prop :=
  ∃ d ∈ db.documents, d.collection ≠ old ∧ d.active = true ∧ d.filepath = path

instance (db : Db) (old : CollectionName) (path : String) : Decidable (db.HeldElsewhere old path) :=
  inferInstanceAs (Decidable (∃ d ∈ db.documents.rows, d.collection ≠ old ∧ d.active = true ∧ d.filepath = path))

namespace RowsRenamed

variable (renamed : db.RowsRenamed old new after)

include renamed

theorem moved {d : Document} (member : d ∈ db.documents) (mine : d.collection = old) :
    { d with collection := new } ∈ after.documents := by
  refine (renamed.documents _).mpr ⟨d, member, ?_⟩
  rw [moveDocument, if_pos mine]

theorem stays {d : Document} (member : d ∈ db.documents) (other : d.collection ≠ old) : d ∈ after.documents := by
  refine (renamed.documents _).mpr ⟨d, member, ?_⟩
  rw [moveDocument, if_neg other]

/-- The documents of the new name are those of the old one with the collection changed. -/
theorem documents_moved (x : Document) : (x ∈ after.documents ∧ x.collection = new) ↔
    ∃ d ∈ db.documents, d.collection = old ∧ { d with collection := new } = x := by
  constructor
  · intro held
    obtain ⟨member, named⟩ := held
    obtain ⟨d, was, same⟩ := (renamed.documents x).mp member
    by_cases mine : d.collection = old
    · rw [moveDocument, if_pos mine] at same
      exact ⟨d, was, mine, same⟩
    · rw [moveDocument, if_neg mine] at same
      rw [← same] at named
      exact absurd named (renamed.unused d was)
  · intro made
    obtain ⟨d, was, mine, same⟩ := made
    rw [← same]
    exact ⟨renamed.moved was mine, rfl⟩

/-- Of the indexed paths a rename deletes those no other collection holds. -/
theorem mem_renameDeletes {indexed : List String} {path : String} (inside : path ∈ indexed) {rows : List StoredDoc}
    (listed : ∀ q, q ∈ rows.map StoredDoc.filepath ↔
      ∃ x ∈ after.documents, x.active = true ∧ x.collection = new ∧ x.filepath = q) :
    path ∈ renameDeletes rows after.activeFilepaths indexed ↔ ¬ db.HeldElsewhere old path := by
  have live : ∀ q, q ∈ after.activeFilepaths ↔ ∃ x ∈ after.documents, x.active = true ∧ x.filepath = q := by
    intro q
    simp only [activeFilepaths, List.mem_map, Table.mem_select, and_assoc]
  simp only [renameDeletes, List.mem_append, listed, List.mem_filter, inside, true_and, Bool.not_eq_true',
    List.contains_eq_mem, decide_eq_false_iff_not, live]
  constructor
  · intro deleted held
    obtain ⟨d, member, other, active, place⟩ := held
    rcases deleted with ⟨x, _, _, named, at_path⟩ | stale
    · have same := (filepath_injective (at_path.trans place.symm)).1
      exact renamed.unused d member (same.symm.trans named)
    · exact stale ⟨d, renamed.stays member other, active, place⟩
  · intro free
    by_cases held : ∃ x ∈ after.documents, x.active = true ∧ x.filepath = path
    · left
      obtain ⟨x, member, active, place⟩ := held
      refine ⟨x, member, active, ?_, place⟩
      obtain ⟨d, was, same⟩ := (renamed.documents x).mp member
      by_cases mine : d.collection = old
      · rw [← same, moveDocument, if_pos mine]
      · rw [moveDocument, if_neg mine] at same
        rw [← same] at active place
        exact absurd ⟨d, was, mine, active, place⟩ free
    · exact .inr held

end RowsRenamed

end Db

/-! ### Entries -/

namespace FtsIndex

variable {index : FtsIndex}

/-- Whether a delete by `path` takes the entry: the phrase of the path stands in the entry's own, and an entry of its
id is stored at that path. -/
def hits (env : Env V) (entries : List FtsEntry) (path : String) (e : FtsEntry) : Bool :=
  phraseMatches (env.pathTerms path) (env.pathTerms e.filepath) &&
    entries.any fun other => other.filepath == path && other.docId == e.docId

/-- Nothing is staged, and a writer that was not taken has changed nothing. -/
structure Unstaged (index : FtsIndex) : Prop where
  staged : index.staged = []
  writer : index.writer = false → index.working = index.committed

theorem hits_of_ids {path : String} {e : FtsEntry} :
    (phraseMatches (env.pathTerms path) (env.pathTerms e.filepath) &&
      (index.committedDocIdsAt env path).contains e.docId) = hits env index.committed path e := by
  rw [Bool.eq_iff_iff]
  simp only [hits, Bool.and_eq_true, List.contains_eq_mem, decide_eq_true_eq, committedDocIdsAt, List.mem_map,
    List.mem_filter, List.any_eq_true, beq_iff_eq]
  apply and_congr_right
  intro found
  constructor
  · intro collected
    obtain ⟨other, ⟨inside, _, place⟩, same⟩ := collected
    exact ⟨other, inside, place, same⟩
  · intro stored
    obtain ⟨other, inside, place, same⟩ := stored
    have terms : env.pathTerms path ≠ [] := by
      intro none
      rw [none] at found
      cases found
    refine ⟨other, ⟨inside, ?_, place⟩, same⟩
    rw [place]
    exact phrase_matches_self _ terms

theorem working_deleted_unstaged (unstaged : index.Unstaged) (path : String) :
    (index.deleted env path).working = index.working.filter fun e => !hits env index.committed path e := by
  rw [working_deleted]
  apply List.filter_congr
  intro e _
  have own : (index.takeStaged path).1 = [] := by
    rw [takeStaged, unstaged.staged]
    rfl
  rw [own, List.append_nil, hits_of_ids]

theorem unstaged_deleted (unstaged : index.Unstaged) (path : String) : (index.deleted env path).Unstaged := by
  have kept : (index.takeStaged path).2.staged = [] := by
    simp only [takeStaged]
    rw [unstaged.staged]
    rfl
  simp only [deleted]
  split
  · exact unstaged
  · split
    · exact ⟨kept, unstaged.writer⟩
    · refine ⟨kept, ?_⟩
      intro idle
      cases idle

/-- What the deletes of a rename leave of the stored entries. -/
def survivors (env : Env V) (entries : List FtsEntry) (paths : List String) : List FtsEntry :=
  entries.filter fun e => !paths.any fun path => hits env entries path e

theorem deletes_spec (unstaged : index.Unstaged) (paths : List String) :
    (paths.foldl (deleted env) index).Unstaged ∧ (paths.foldl (deleted env) index).committed = index.committed ∧
      (paths.foldl (deleted env) index).frontmatterField = index.frontmatterField ∧
      (paths.foldl (deleted env) index).working =
        index.working.filter fun e => !paths.any fun path => hits env index.committed path e := by
  induction paths generalizing index with
  | nil => exact ⟨unstaged, rfl, rfl, by simp⟩
  | cons path paths later =>
    obtain ⟨clean, stored, field, left⟩ := later (@unstaged_deleted V env index unstaged path)
    rw [List.foldl_cons]
    refine ⟨clean, stored.trans (committed_deleted path), field.trans (frontmatterField_deleted path), ?_⟩
    rw [left, working_deleted_unstaged unstaged, committed_deleted, List.filter_filter]
    apply List.filter_congr
    intro e _
    rw [List.any_cons, Bool.not_or, Bool.and_comm]

/-- The entry a stored document is written as. -/
def entryOfStored (env : Env V) (index : FtsIndex) (doc : StoredDoc) : FtsEntry :=
  index.entryOf env doc.filepath doc.title doc.doc doc.frontmatter doc.id

def insertStored (env : Env V) (index : FtsIndex) (doc : StoredDoc) : FtsIndex :=
  index.insertEntry (index.entryOfStored env doc)

theorem inserts_spec (docs : List StoredDoc) :
    (docs.foldl (insertStored env) index).working = index.working ++ docs.map (index.entryOfStored env) ∧
      (docs.foldl (insertStored env) index).committed = index.committed ∧
      (docs = [] ∨ (docs.foldl (insertStored env) index).writer = true) := by
  induction docs generalizing index with
  | nil => exact ⟨by simp, rfl, .inl rfl⟩
  | cons doc docs later =>
    obtain ⟨written, stored, busy⟩ := @later (index.insertStored env doc)
    rw [List.foldl_cons]
    refine ⟨?_, stored, .inr ?_⟩
    · rw [written, List.map_cons]
      exact List.append_assoc _ _ _
    · rcases busy with none | taken
      · rw [none]
        rfl
      · exact taken

end FtsIndex

/-! ### The command -/

namespace FtsIndex

/-- The working entries once the deletes and the inserts of a rename are staged. A writer that was not taken by then
has nothing to commit. -/
theorem staged_rename (entries : List FtsEntry) (field : Bool) (paths : List String) (docs : List StoredDoc) :
    (docs.foldl (insertStored env) (paths.foldl (deleted env) (opened entries field))).working =
        survivors env entries paths ++ docs.map ((opened entries field).entryOfStored env) ∧
      ((docs.foldl (insertStored env) (paths.foldl (deleted env) (opened entries field))).writer = false →
        (docs.foldl (insertStored env) (paths.foldl (deleted env) (opened entries field))).committed =
          (docs.foldl (insertStored env) (paths.foldl (deleted env) (opened entries field))).working) := by
  have start : (opened entries field).Unstaged := ⟨rfl, fun _ => rfl⟩
  obtain ⟨clean, _, sameField, left⟩ := @deletes_spec V env _ start paths
  obtain ⟨written, stored, busy⟩ := @inserts_spec V env (paths.foldl (deleted env) (opened entries field)) docs
  have writes : (paths.foldl (deleted env) (opened entries field)).entryOfStored env =
      (opened entries field).entryOfStored env := by
    funext doc
    simp only [entryOfStored, entryOf, sameField]
  refine ⟨?_, ?_⟩
  · rw [written, left, writes]
    rfl
  · intro idle
    rcases busy with none | taken
    · rw [none] at idle ⊢
      exact (clean.writer idle).symm
    · rw [taken] at idle
      cases idle

end FtsIndex

theorem wp_forEach_fts {β : Type} {body : β → Command V Unit} {f : FtsIndex → β → FtsIndex}
    (step : ∀ x s, wp Faults.any (body x) (Ends.ifDone fun _ t => t = { s with fts := f s.fts x }) s) (xs : List β)
    (s : Store V) :
    wp Faults.any (Prog.forEach body xs) (Ends.ifDone fun _ t => t = { s with fts := xs.foldl f s.fts }) s := by
  induction xs generalizing s with
  | nil => exact wp_pure rfl
  | cons x xs later =>
    apply wp_bind
    apply wp_mono (step x s)
    · intro _ t made
      rw [made, List.foldl_cons]
      exact later _
    · exact fun _ _ _ => trivial
    · exact fun _ _ => trivial

theorem wp_deletes (paths : List String) (s : Store V) :
    wp Faults.any (Prog.forEach (Store.deleteByFilepath env) paths)
      (Ends.ifDone fun _ t => t = { s with fts := paths.foldl (FtsIndex.deleted env) s.fts }) s := by
  apply wp_forEach_fts
  intro path s
  exact Store.wp_deleteByFilepath rfl (fun _ _ => ⟨trivial, trivial⟩) fun _ => ⟨trivial, trivial⟩

theorem wp_inserts (docs : List StoredDoc) (s : Store V) :
    wp Faults.any (Prog.forEach (Store.insertStored env) docs)
      (Ends.ifDone fun _ t => t = { s with fts := docs.foldl (FtsIndex.insertStored env) s.fts }) s := by
  apply wp_forEach_fts
  intro doc s
  exact Store.wp_insertDocument rfl (fun _ _ => trivial) fun _ => trivial

/-- The stored documents a rename writes again. -/
def Db.renamedDocs (env : Env V) (db : Db) (new : CollectionName) : List StoredDoc :=
  db.storedDocs env fun d => d.active && d.collection == new

/-- What a rename that succeeds leaves on disk. -/
structure Renames (env : Env V) (old new : CollectionName) (before after : Disk V) : Prop where
  rows : before.db.renameCollection old new = .ok after.db
  entries : after.entries =
    FtsIndex.survivors env before.entries (renameDeletes (after.db.renamedDocs env new) after.db.activeFilepaths
      (before.entries.map FtsEntry.filepath)) ++
      (after.db.renamedDocs env new).map ((before.open false).fts.entryOfStored env)

theorem wp_renameCollection (d : Disk V) :
    wp Faults.any (Store.renameCollection env old new) (Ends.ifDone fun _ t => Renames env old new d t.disk)
      (d.open false) := by
  unfold Store.renameCollection
  apply wp_bind
  apply wp_query
  apply wp_bind
  apply wp_ofExcept
  · intro db rows
    dsimp only
    apply wp_bind
    apply wp_query
    apply wp_bind
    apply wp_mono (wp_deletes _ _)
    · intro _ deleted made
      rw [made]
      apply wp_bind
      apply wp_mono (wp_inserts _ _)
      · intro _ written made
        rw [made]
        apply wp_bind
        apply Store.wp_sqlWrite
        · intro a after ok
          simp only [Except.ok.injEq, Prod.mk.injEq] at ok
          rw [← ok.2]
          have staged := @FtsIndex.staged_rename V env d.entries d.frontmatterField
            (renameDeletes (db.renamedDocs env new) db.activeFilepaths (d.entries.map FtsEntry.filepath))
            (db.renamedDocs env new)
          apply Store.wp_ftsCommit
          · intro idle
            exact ⟨rows, (staged.2 idle).trans staged.1⟩
          · intro _
            exact ⟨rows, staged.1⟩
          · exact fun _ _ _ => ⟨trivial, trivial⟩
          · exact fun _ _ => ⟨trivial, trivial⟩
        · intro e failed
          cases failed
        · exact fun _ _ => trivial
        · exact fun _ => trivial
      · exact fun _ _ _ => trivial
      · exact fun _ _ => trivial
    · exact fun _ _ _ => trivial
    · exact fun _ _ => trivial
  · exact fun _ _ => trivial

/-! ### What became of the entries -/

/-- The entries stored at a filepath. -/
def entriesAt (entries : List FtsEntry) (path : String) : List FtsEntry := entries.filter (·.filepath == path)

theorem mem_entriesAt {entries : List FtsEntry} {path : String} {e : FtsEntry} :
    e ∈ entriesAt entries path ↔ e ∈ entries ∧ e.filepath = path := by
  rw [entriesAt, List.mem_filter, beq_iff_eq]

theorem entriesAt_append (left right : List FtsEntry) (path : String) :
    entriesAt (left ++ right) path = entriesAt left path ++ entriesAt right path := List.filter_append _ _

theorem phraseMatches_termless (query : List (Nat × String)) : phraseMatches query [] = false := by
  cases query with
  | nil => rfl
  | cons head tail => simp [phraseMatches]

namespace Db

variable {db : Db}

/-- The row of `documents JOIN content` of a document. -/
def storedDoc (env : Env V) (db : Db) (d : Document) : StoredDoc :=
  ⟨d.filepath, d.title, (db.getContent d.hash).getD "", env.frontmatterTerms d.raw, d.id⟩

/-- Every document has its content, so the join drops none. -/
theorem storedDocs_eq (keep : Document → Bool) : db.storedDocs env keep = (db.documents.select keep).map (db.storedDoc env) := by
  unfold storedDocs
  rw [← List.filterMap_eq_map]
  apply List.filterMap_congr
  intro d member
  obtain ⟨row, inside, same⟩ := db.referenced d (Table.mem_select.mp member).1
  cases found : db.getContent d.hash with
  | some doc => simp [storedDoc, found]
  | none =>
    rw [getContent, Option.map_eq_none_iff] at found
    exact absurd (beq_iff_eq.mpr same) (Table.find?_none found row inside)

theorem listed_renamed (q : String) : q ∈ (db.renamedDocs env new).map StoredDoc.filepath ↔
    ∃ x ∈ db.documents, x.active = true ∧ x.collection = new ∧ x.filepath = q := by
  rw [renamedDocs, storedDocs_eq, List.map_map]
  simp only [List.mem_map, Table.mem_select, Bool.and_eq_true, beq_iff_eq, and_assoc, Function.comp_apply, storedDoc]

end Db

namespace Renames

variable {d t : Disk V} (renames : Renames env old new d t)

include renames

theorem rowsRenamed : d.db.RowsRenamed old new t.db := Db.rows_renamed renames.rows

/-- The entries the rename keeps. -/
def kept (env : Env V) (new : CollectionName) (d t : Disk V) : List FtsEntry :=
  FtsIndex.survivors env d.entries
    (renameDeletes (t.db.renamedDocs env new) t.db.activeFilepaths (d.entries.map FtsEntry.filepath))

theorem mem_kept {e : FtsEntry} : e ∈ kept env new d t ↔ e ∈ d.entries ∧
    ∀ other ∈ d.entries, ¬ d.db.HeldElsewhere old other.filepath → other.docId = e.docId →
      phraseMatches (env.pathTerms other.filepath) (env.pathTerms e.filepath) = false := by
  rw [kept, FtsIndex.survivors, List.mem_filter]
  apply and_congr_right
  intro _
  have deleted : ∀ other ∈ d.entries, other.filepath ∈ renameDeletes (t.db.renamedDocs env new) t.db.activeFilepaths
      (d.entries.map FtsEntry.filepath) ↔ ¬ d.db.HeldElsewhere old other.filepath := fun other member =>
    renames.rowsRenamed.mem_renameDeletes (List.mem_map_of_mem member) Db.listed_renamed
  constructor
  · intro spared other member free same
    by_contra found
    have taken : FtsIndex.hits env d.entries other.filepath e = true := by
      rw [FtsIndex.hits, Bool.of_not_eq_false found, Bool.true_and]
      apply List.any_eq_true.mpr
      exact ⟨other, member, by simp [same]⟩
    have hit : (renameDeletes (t.db.renamedDocs env new) t.db.activeFilepaths (d.entries.map FtsEntry.filepath)).any
        (fun path => FtsIndex.hits env d.entries path e) = true :=
      List.any_eq_true.mpr ⟨_, (deleted other member).mpr free, taken⟩
    rw [hit] at spared
    cases spared
  · intro apart
    by_contra hit
    rw [Bool.not_eq_true, Bool.not_eq_false'] at hit
    obtain ⟨path, inside, taken⟩ := List.any_eq_true.mp hit
    rw [FtsIndex.hits, Bool.and_eq_true] at taken
    obtain ⟨found, stored⟩ := taken
    obtain ⟨other, member, same⟩ := List.any_eq_true.mp stored
    rw [Bool.and_eq_true, beq_iff_eq, beq_iff_eq] at same
    rw [← same.1] at inside found
    rw [apart other member ((deleted other member).mp inside) same.2] at found
    cases found

/-- An entry no other collection holds is kept exactly when its own path has no term. -/
theorem kept_unheld {e : FtsEntry} (free : ¬ d.db.HeldElsewhere old e.filepath) :
    e ∈ kept env new d t ↔ e ∈ d.entries ∧ env.pathTerms e.filepath = [] := by
  rw [renames.mem_kept]
  apply and_congr_right
  intro member
  constructor
  · intro apart
    by_contra terms
    have found := apart e member free rfl
    rw [phrase_matches_self _ terms] at found
    cases found
  · intro none other _ _ _
    rw [none]
    exact phraseMatches_termless _

/-- The entry a document of the renamed collection is written as. -/
def written (env : Env V) (d t : Disk V) (x : Document) : FtsEntry :=
  (d.open false).fts.entryOfStored env (t.db.storedDoc env x)

theorem entries_eq : t.entries = kept env new d t ++
    (t.db.documents.select fun x => x.active && x.collection == new).map (written env d t) := by
  have rewritten : (t.db.renamedDocs env new).map ((d.open false).fts.entryOfStored env) =
      (t.db.documents.select fun x => x.active && x.collection == new).map (written env d t) := by
    rw [Db.renamedDocs, Db.storedDocs_eq, List.map_map]
    rfl
  rw [renames.entries, rewritten]
  rfl

/-- Under another name nothing is written. -/
theorem entriesAt_foreign {path : String} {c : CollectionName} (foreign : c ≠ new) :
    entriesAt t.entries (filepath c path) = entriesAt (kept env new d t) (filepath c path) := by
  rw [renames.entries_eq, entriesAt_append, List.append_right_eq_self]
  apply List.eq_nil_iff_forall_not_mem.mpr
  intro e member
  obtain ⟨made, place⟩ := mem_entriesAt.mp member
  obtain ⟨x, chosen, rfl⟩ := List.mem_map.mp made
  have named : x.active = true ∧ x.collection = new := by
    simpa using (Table.mem_select.mp chosen).2
  exact foreign ((filepath_injective place).1.symm.trans named.2)

/-- An active document of the renamed collection is written once. -/
theorem entriesAt_renamed {r : Document} (member : r ∈ d.db.documents) (mine : r.collection = old)
    (active : r.active = true) : entriesAt t.entries (filepath new r.path) =
      entriesAt (kept env new d t) (filepath new r.path) ++ [written env d t { r with collection := new }] := by
  rw [renames.entries_eq, entriesAt_append]
  congr 1
  have moved := renames.rowsRenamed.moved member mine
  have only : (t.db.documents.select fun x => x.active && x.collection == new).filter
      (fun x => x.filepath == filepath new r.path) = [{ r with collection := new }] := by
    rw [Table.select, List.filter_filter]
    apply Db.select_one moved
    · simp [Document.filepath, active]
    · intro x inside chosen
      rw [Bool.and_eq_true, beq_iff_eq] at chosen
      exact Db.same_filepath inside moved chosen.1
  rw [entriesAt, List.filter_map]
  change ((t.db.documents.select fun x => x.active && x.collection == new).filter
    (fun x => x.filepath == filepath new r.path)).map (written env d t) = _
  rw [only]
  rfl

end Renames

/-! ### Faithful renames -/

/-- A rename changed the name and nothing else. -/
structure RenamedFaithfully (old new : CollectionName) (before after : Disk V) : Prop where
  documents : ∀ x, (x ∈ after.db.documents ∧ x.collection = new) ↔
    ∃ r ∈ before.db.documents, r.collection = old ∧ { r with collection := new } = x
  entries : ∀ r ∈ before.db.documents, r.collection = old → r.active = true →
    (∃ e, entriesAt after.entries (filepath new r.path) = [e] ∧ e.docId = r.id) ∧
      entriesAt after.entries (filepath old r.path) = []
  others : ∀ r ∈ before.db.documents, r.collection ≠ old → r.active = true →
    entriesAt after.entries r.filepath = entriesAt before.entries r.filepath
  contexts : ∀ relPath,
    after.db.getContextForPath new.text relPath = before.db.getContextForPath old.text relPath
  contextsElsewhere : ∀ c : CollectionName, c ≠ old → c ≠ new → ∀ relPath,
    after.db.getContextForPath c.text relPath = before.db.getContextForPath c.text relPath

/-- What a rename needs to be faithful. A path without a term is never deleted from the index; a delete takes more
than its own path when entries share an id; and a context key left under the new name is replaced only by one of
the old name. -/
structure Renamable (env : Env V) (old new : CollectionName) (d : Disk V) : Prop where
  termed : ∀ r ∈ d.db.documents, r.collection = old → r.active = true → ∀ e ∈ d.entries,
    e.filepath = filepath old r.path ∨ e.filepath = filepath new r.path → env.pathTerms e.filepath ≠ []
  apart : ∀ e ∈ d.entries, d.db.HeldElsewhere old e.filepath → ∀ other ∈ d.entries,
    ¬ d.db.HeldElsewhere old other.filepath → other.docId = e.docId →
      phraseMatches (env.pathTerms other.filepath) (env.pathTerms e.filepath) = false
  leftovers : d.db.LeftoversAgree old new

namespace Renames

variable {d t : Disk V} (renames : Renames env old new d t)

include renames

/-- No other collection holds a path of the renamed one, under either name. -/
theorem unheld {c : CollectionName} (mine : c = old ∨ c = new) (path : String) :
    ¬ d.db.HeldElsewhere old (filepath c path) := by
  intro held
  obtain ⟨r, member, other, _, place⟩ := held
  have same := (filepath_injective place).1
  rcases mine with rfl | rfl
  · exact other same
  · exact renames.rowsRenamed.unused r member same

/-- Nothing is left at a path of the renamed collection exactly when every entry there has a term in its path. -/
theorem kept_nothing_iff {c : CollectionName} (mine : c = old ∨ c = new) (path : String) :
    entriesAt (kept env new d t) (filepath c path) = [] ↔
      ∀ e ∈ d.entries, e.filepath = filepath c path → env.pathTerms e.filepath ≠ [] := by
  rw [List.eq_nil_iff_forall_not_mem]
  constructor
  · intro gone e member place none
    have free : ¬ d.db.HeldElsewhere old e.filepath := by
      rw [place]
      exact renames.unheld mine path
    exact gone e (mem_entriesAt.mpr ⟨(renames.kept_unheld free).mpr ⟨member, none⟩, place⟩)
  · intro terms e found
    obtain ⟨stays, place⟩ := mem_entriesAt.mp found
    have free : ¬ d.db.HeldElsewhere old e.filepath := by
      rw [place]
      exact renames.unheld mine path
    obtain ⟨member, none⟩ := (renames.kept_unheld free).mp stays
    exact terms e member place none

theorem entries_iff {r : Document} (member : r ∈ d.db.documents) (mine : r.collection = old) (active : r.active = true) :
    ((∃ e, entriesAt t.entries (filepath new r.path) = [e] ∧ e.docId = r.id) ∧
        entriesAt t.entries (filepath old r.path) = []) ↔
      ∀ e ∈ d.entries, e.filepath = filepath old r.path ∨ e.filepath = filepath new r.path →
        env.pathTerms e.filepath ≠ [] := by
  have different : old ≠ new := by
    rw [← mine]
    exact renames.rowsRenamed.unused r member
  rw [renames.entriesAt_renamed member mine active, renames.entriesAt_foreign different,
    renames.kept_nothing_iff (.inl rfl)]
  have one : (∃ e, entriesAt (kept env new d t) (filepath new r.path) ++ [written env d t { r with collection := new }] = [e] ∧
      e.docId = r.id) ↔ entriesAt (kept env new d t) (filepath new r.path) = [] := by
    constructor
    · intro single
      obtain ⟨e, same, _⟩ := single
      have length := congrArg List.length same
      rw [List.length_append] at length
      apply List.eq_nil_of_length_eq_zero
      simpa using length
    · intro none
      rw [none]
      exact ⟨_, rfl, rfl⟩
  rw [one, renames.kept_nothing_iff (.inr rfl)]
  constructor
  · intro both e inside place
    rcases place with before | behind
    · exact both.2 e inside before
    · exact both.1 e inside behind
  · intro both
    exact ⟨fun e inside place => both e inside (.inr place), fun e inside place => both e inside (.inl place)⟩

theorem others_iff : (∀ r ∈ d.db.documents, r.collection ≠ old → r.active = true →
      entriesAt t.entries r.filepath = entriesAt d.entries r.filepath) ↔
    ∀ e ∈ d.entries, d.db.HeldElsewhere old e.filepath → ∀ other ∈ d.entries,
      ¬ d.db.HeldElsewhere old other.filepath → other.docId = e.docId →
        phraseMatches (env.pathTerms other.filepath) (env.pathTerms e.filepath) = false := by
  have place_kept : ∀ r ∈ d.db.documents, entriesAt t.entries r.filepath = entriesAt (kept env new d t) r.filepath :=
    fun r member => renames.entriesAt_foreign (renames.rowsRenamed.unused r member)
  constructor
  · intro untouched e member held
    obtain ⟨r, row, other, active, place⟩ := held
    have before : e ∈ entriesAt d.entries r.filepath := mem_entriesAt.mpr ⟨member, place.symm⟩
    rw [← untouched r row other active, place_kept r row] at before
    exact (renames.mem_kept.mp (mem_entriesAt.mp before).1).2
  · intro apart r row other active
    rw [place_kept r row, entriesAt, entriesAt, kept, FtsIndex.survivors, List.filter_filter]
    apply List.filter_congr
    intro e member
    by_cases place : e.filepath = r.filepath
    · have held : d.db.HeldElsewhere old e.filepath := ⟨r, row, other, active, place.symm⟩
      have stays : e ∈ kept env new d t := renames.mem_kept.mpr ⟨member, apart e member held⟩
      rw [kept, FtsIndex.survivors, List.mem_filter] at stays
      rw [stays.2, Bool.and_true]
    · simp [place]

theorem faithful_iff : RenamedFaithfully old new d t ↔ Renamable env old new d := by
  have contexts := Db.contexts_moved_iff renames.rowsRenamed.config
  constructor
  · intro faithful
    refine ⟨?_, renames.others_iff.mp faithful.others, contexts.mp faithful.contexts⟩
    intro r member mine active
    exact (renames.entries_iff member mine active).mp (faithful.entries r member mine active)
  · intro renamable
    refine ⟨renames.rowsRenamed.documents_moved, ?_, renames.others_iff.mpr renamable.apart,
      contexts.mpr renamable.leftovers, ?_⟩
    · intro r member mine active
      exact (renames.entries_iff member mine active).mpr (renamable.termed r member mine active)
    · intro c notOld notNew
      exact Db.contexts_elsewhere renames.rowsRenamed.config notOld notNew

end Renames

/-- A rename into a name that is taken stops before it writes anything. -/
theorem wp_renameTaken {d : Disk V} (taken : d.db.nameTaken new = true) :
    wp Faults.any (Store.renameCollection env old new)
      ⟨fun _ _ => False, fun _ t => t = d.open false, fun _ => False⟩ (d.open false) := by
  have refused : (d.open false).db.renameCollection old new =
      .error ("collection '" ++ new.text ++ "' already exists") := Db.renameCollection_taken taken
  unfold Store.renameCollection
  apply wp_bind
  apply wp_query
  rw [refused]
  apply wp_bind
  apply wp_ofExcept
  · intro db rows
    cases rows
  · exact fun _ _ => rfl

def desk : CollectionName := ⟨"desk", by decide, by decide⟩

/-- A rename that succeeds is faithful exactly when the disk it starts from is renamable. One into a name that is
taken fails and does nothing. -/
theorem rename_is_faithful_iff (env : Env V) (old new : CollectionName) (d : Disk V) (fates : List (Fate FaultKind)) :
    (d.db.nameTaken new = true → ∃ reason rest,
      Store.renameCollection env old new fates (d.open false) = .error reason (d.open false) rest) ∧
    ∀ t rest, Store.renameCollection env old new fates (d.open false) = .done () t rest →
      (RenamedFaithfully old new d t.disk ↔ Renamable env old new d) := by
  constructor
  · intro taken
    have met := @wp_renameTaken V env old new d taken fates fun fate _ => any_allows fate
    cases run : Store.renameCollection env old new fates (d.open false) with
    | done a t rest =>
      rw [run] at met
      exact met.1.elim
    | error reason t rest =>
      rw [run] at met
      rw [met.1]
      exact ⟨reason, rest, rfl⟩
    | died t =>
      rw [run] at met
      exact met.elim
  · intro t rest done
    have met := @wp_renameCollection V env old new d fates fun fate _ => any_allows fate
    rw [done] at met
    exact Renames.faithful_iff met.1

/-- Three collections hold one file each; one is renamed to a name nothing was ever stored under. -/
theorem notes_renamed_faithfully :
    (∃ t rest, Store.renameCollection sampleEnv notes desk [] (tiedDisk.open false) = .done () t rest ∧
      RenamedFaithfully notes desk tiedDisk t.disk) ∧
    ∃ reason rest, Store.renameCollection sampleEnv notes Db.work [] (tiedDisk.open false) =
      .error reason (tiedDisk.open false) rest := by
  have ended : (Store.renameCollection sampleEnv notes desk [] (tiedDisk.open false)).result.map (fun _ => true) =
      some true := by
    decide +kernel
  obtain ⟨_, t, rest, run, _⟩ := done_of_result ended
  have renamable : Renamable sampleEnv notes desk tiedDisk := by
    refine ⟨?_, ?_, Db.leftovers_none ?_⟩
    · have termed : ∀ r ∈ tiedDisk.db.documents.rows, r.collection = notes → r.active = true → ∀ e ∈ tiedDisk.entries,
          e.filepath = filepath notes r.path ∨ e.filepath = filepath desk r.path →
            sampleEnv.pathTerms e.filepath ≠ [] := by
        decide +kernel
      exact termed
    · decide +kernel
    · have fresh : ∀ row ∈ tiedDisk.db.config.rows, Db.keyHasPrefix (Db.collectionContextKey desk) row.key = false := by
        decide +kernel
      exact fresh
  have taken : tiedDisk.db.nameTaken Db.work = true := by decide +kernel
  exact ⟨⟨t, rest, run, ((rename_is_faithful_iff sampleEnv notes desk tiedDisk []).2 t rest run).mpr renamable⟩,
    (rename_is_faithful_iff sampleEnv notes Db.work tiedDisk []).1 taken⟩

def myNotes : CollectionName := ⟨"my-notes", by decide, by decide⟩

/-- A rename died before its full-text commit, and the renamed file was edited: its entries under both names carry
its id, and the phrase of the old path stands in the new one. -/
def overlapDisk : Disk String := (Disk.empty : Disk String).after sampleEnv
  [(.add notesCollection (notesWalk (.ok (notesDoc "alpha"))), []),
    (.add Db.workCollection (notesWalk (.ok (notesDoc "alpha"))), []),
    (.rename notes "my-notes", cutAfter 5),
    (.add { notesCollection with name := myNotes } (notesWalk (.ok (notesDoc "beta"))), [])]

def dash : CollectionName := ⟨"-", by decide, by decide⟩

/-- A collection and a file whose names have no letter and no digit. -/
def dashDisk : Disk String := (Disk.empty : Disk String).after sampleEnv
  [(.add { notesCollection with name := dash } ⟨[notesFile "+" (.ok (notesDoc "alpha"))], List.nodup_singleton _⟩, [])]

/-- A context is stored for a directory of a collection that does not exist. -/
def leftoverDisk : Disk String :=
  let disk := (Disk.empty : Disk String).after sampleEnv [(.add notesCollection (shelfWalk "alpha"), [])]
  { disk with db := (disk.db.setConfig "context:rqmd://notes/" "mine").setConfig "context:rqmd://desk/shelf/" "left" }

/-- Three renames that succeed: one takes the entry of another collection's document, one leaves the entry under the
old name, and after one a leftover context answers. -/
theorem renames_are_unfaithful :
    (∃ t rest, Store.renameCollection sampleEnv Db.work desk [] (overlapDisk.open false) = .done () t rest ∧
      ¬ RenamedFaithfully Db.work desk overlapDisk t.disk) ∧
    (∃ t rest, Store.renameCollection sampleEnv dash desk [] (dashDisk.open false) = .done () t rest ∧
      ¬ RenamedFaithfully dash desk dashDisk t.disk) ∧
    ∃ t rest, Store.renameCollection sampleEnv notes desk [] (leftoverDisk.open false) = .done () t rest ∧
      ¬ RenamedFaithfully notes desk leftoverDisk t.disk := by
  have overlap : (Store.renameCollection sampleEnv Db.work desk [] (overlapDisk.open false)).result.map
      (fun left => entriesAt left.2.disk.entries "my-notes/a.md") = some [] := by
    decide +kernel
  have termless : (Store.renameCollection sampleEnv dash desk [] (dashDisk.open false)).result.map
      (fun left => (entriesAt left.2.disk.entries "-/+").length) = some 1 := by
    decide +kernel
  have leftover : (Store.renameCollection sampleEnv notes desk [] (leftoverDisk.open false)).result.map
      (fun left => left.2.disk.db.getContextForPath "desk" "shelf/a.md") = some (some "left") := by
    decide +kernel
  refine ⟨?_, ?_, ?_⟩
  · obtain ⟨_, t, rest, run, taken⟩ := done_of_result overlap
    refine ⟨t, rest, run, ?_⟩
    intro faithful
    have held : ∃ r ∈ overlapDisk.db.documents.rows, r.collection ≠ Db.work ∧ r.active = true ∧
        r.filepath = "my-notes/a.md" ∧ entriesAt overlapDisk.entries r.filepath ≠ [] := by
      decide +kernel
    obtain ⟨r, member, other, active, place, stored⟩ := held
    have untouched := faithful.others r member other active
    rw [place] at untouched stored
    rw [← untouched] at stored
    exact stored taken
  · obtain ⟨_, t, rest, run, left⟩ := done_of_result termless
    refine ⟨t, rest, run, ?_⟩
    intro faithful
    have held : ∃ r ∈ dashDisk.db.documents.rows, r.collection = dash ∧ r.active = true ∧
        filepath dash r.path = "-/+" := by
      decide +kernel
    obtain ⟨r, member, mine, active, place⟩ := held
    have gone := (faithful.entries r member mine active).2
    rw [place] at gone
    change (entriesAt t.disk.entries "-/+").length = 1 at left
    rw [gone] at left
    cases left
  · obtain ⟨_, t, rest, run, answer⟩ := done_of_result leftover
    refine ⟨t, rest, run, ?_⟩
    intro faithful
    have same := faithful.contexts "shelf/a.md"
    change t.disk.db.getContextForPath "desk" "shelf/a.md" = some "left" at answer
    have before : leftoverDisk.db.getContextForPath "notes" "shelf/a.md" = some "mine" := by
      decide +kernel
    change t.disk.db.getContextForPath "desk" "shelf/a.md" =
      leftoverDisk.db.getContextForPath "notes" "shelf/a.md" at same
    rw [answer, before] at same
    exact absurd same (by decide)

end Rqmd
