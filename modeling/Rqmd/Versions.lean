import Rqmd.Commands
import Rqmd.Contents
import Rqmd.Frontmatter
import Rqmd.Holding

/-! Incremental indexing over a history of files. What the index holds of a file is told by two of its versions: the one
that last changed its text, and the one last read. -/

namespace Rqmd
open Interrupt

variable {V : Type} {env : Env V} {c d : CollectionName} {p q : String} {s t : Store V}

/-- A file is read and indexed, the documents a walk does not find are taken out, or one process ends and the next opens
the index. -/
inductive Edit where
  | index (collection : CollectionName) (relPath stem raw : String)
  | prune (collection : CollectionName) (walk : Walk)
  | restart

def Edit.command (env : Env V) : Edit → Command V Unit
  | .index collection relPath stem raw => do
    let _ ← Store.indexDocumentFtsOnlyWithRaw env collection relPath (prepare stem raw)
    pure ()
  | .prune collection walk => do
    let _ ← pruneMissing env collection walk
    pure ()
  | .restart => do
    Store.flush
    Store.reopen false

/-- The edits in turn, and the flush that makes them durable. -/
def incremental (env : Env V) (edits : List Edit) : Command V Unit := do
  Prog.forEach (Edit.command env) edits
  Store.flush

/-- The store an undisturbed run of the edits leaves. -/
def Disk.edited (env : Env V) (edits : List Edit) (d : Disk V) : Store V := (incremental env edits [] (d.open false)).final

/-! ### Versions of a file -/

/-- `written` is the version that last changed the file's text, `read` the one last read. `replaced` tells that an entry
of the file was to be taken out since its first version; until then the file is there. -/
structure Version where
  written : PreparedDoc
  read : PreparedDoc
  active : Bool
  replaced : Bool
  there : replaced = false → active = true

namespace Version

def first (doc : PreparedDoc) : Version := ⟨doc, doc, true, false, fun _ => rfl⟩

/-- The file is read again. A version with the text of the last change leaves all but `read` as it is. -/
def reread (doc : PreparedDoc) (v : Version) : Version :=
  if v.written.indexedText = doc.indexedText then { v with read := doc } else ⟨doc, doc, true, true, fun _ => rfl⟩

def gone (v : Version) : Version := if v.active then { v with active := false, replaced := true, there := fun kept => Bool.noConfusion kept } else v

end Version

def Edit.version (c : CollectionName) (p : String) (before : Option Version) : Edit → Option Version
  | .index d q stem raw =>
    if d = c ∧ q = p then
      match before with
      | some v => some (v.reread (prepare stem raw))
      | none => some (.first (prepare stem raw))
    else before
  | .prune d walk => if d = c ∧ walk.files ≠ [] ∧ p ∉ walk.paths then before.map Version.gone else before
  | .restart => before

/-- What the edits have made of the file at a path. -/
def versionOf (edits : List Edit) (c : CollectionName) (p : String) : Option Version :=
  edits.foldl (fun before edit => edit.version c p before) none

def Edit.text : Edit → Option String
  | .index _ _ stem raw => some (prepare stem raw).indexedText
  | _ => none

/-- The texts the edits index. -/
def textsOf (edits : List Edit) : List String := edits.filterMap Edit.text

/-- No two texts of the history have one digest. -/
def DigestsApart (env : Env V) (edits : List Edit) : Prop :=
  ∀ first ∈ textsOf edits, ∀ second ∈ textsOf edits, env.contentHash first = env.contentHash second → first = second

/-- The entry of a prepared file under a schema with or without the front matter field. -/
def entryUnder (env : Env V) (field : Bool) (c : CollectionName) (p : String) (doc : PreparedDoc) (id : Nat) : FtsEntry :=
  Store.entryFor env (FtsIndex.opened [] field) c p doc id

theorem entryFor_field {index : FtsIndex} {field : Bool} (same : index.frontmatterField = field) (doc : PreparedDoc) (id : Nat) :
    Store.entryFor env index c p doc id = entryUnder env field c p doc id := by
  unfold entryUnder Store.entryFor FtsIndex.entryOf
  rw [same]
  rfl

/-! ### What one edit does -/

/-- The same rows, whatever the full-text index holds. -/
structure Contents.SameRows (k j : Contents) : Prop where
  rows : k.rows = j.rows
  sequence : k.sequence = j.sequence

namespace Contents.SameRows

variable {k j l : Contents} {doc : PreparedDoc}

theorem trans (first : k.SameRows j) (second : j.SameRows l) : k.SameRows l :=
  ⟨first.rows.trans second.rows, first.sequence.trans second.sequence⟩

theorem symm (same : k.SameRows j) : j.SameRows k := ⟨same.rows.symm, same.sequence.symm⟩

theorem rowAt (same : k.SameRows j) : k.rowAt c p = j.rowAt c p := by
  unfold Contents.rowAt
  rw [same.rows]

theorem index (same : k.SameRows j) : (k.index env c p doc).SameRows (j.index env c p doc) := by
  unfold Contents.index
  rw [same.rowAt]
  cases j.rowAt c p with
  | none =>
    dsimp only [Contents.enter]
    exact ⟨by rw [same.rows, same.sequence], congrArg (· + 1) same.sequence⟩
  | some row =>
    dsimp only
    split
    · exact ⟨congrArg (List.map _) same.rows, same.sequence⟩
    · exact ⟨congrArg (List.map _) same.rows, same.sequence⟩

theorem sweep (same : k.SameRows j) (present : List String) : (k.sweep env c present).SameRows (j.sweep env c present) := by
  have gone : k.missing c present = j.missing c present := by
    unfold Contents.missing
    rw [same.rows]
  refine ⟨?_, same.sequence⟩
  unfold Contents.sweep
  rw [gone, same.rows]

end Contents.SameRows

theorem rowAt_contents : s.db.rowAt c p = (s.contents.rowAt c p).map Db.view := by
  rw [contents_rowAt, Option.map_map]
  rfl

/-- A complete indexing of one file. -/
structure IndexStep (env : Env V) (c : CollectionName) (p : String) (doc : PreparedDoc) (s t : Store V) : Prop where
  placed : Placed t
  clean : t.hnswDirty = s.hnswDirty
  contents : t.contents = s.contents.index env c p doc
  content : ∀ row ∈ t.db.content, row ∈ s.db.content ∨ row = Store.contentRow env doc
  working : ∀ e ∈ t.fts.working, e ∈ s.fts.working ∨ ∃ v, t.db.rowAt c p = some v ∧ v.id = e.docId
  others : ∀ d q, (d, q) ≠ (c, p) → t.slot d q = s.slot d q
  unchanged : (∃ v, s.db.rowAt c p = some v ∧ v.hash = env.contentHash doc.indexedText) → t.slot c p = s.slot c p
  written : ¬ (∃ v, s.db.rowAt c p = some v ∧ v.hash = env.contentHash doc.indexedText) →
    ∃ id, Store.IdOf s.db c p id ∧ t.slot c p = (s.slot c p).rewritten (env.pathTerms (filepath c p)).isEmpty
      (Store.writtenView env doc id) (Store.entryFor env s.fts c p doc id)

theorem wp_indexStep {doc : PreparedDoc} (placed : Placed s) :
    wp Faults.calm (Store.indexDocumentFtsOnlyWithRaw env c p doc) (Ends.only fun _ t => IndexStep env c p doc s t) s := by
  have rows := @wp_index_contents V env c p s doc
  have slots : wp Faults.calm (Store.indexDocumentFtsOnlyWithRaw env c p doc) (Ends.only fun _ t =>
      t.contents = s.contents.index env c p doc → IndexStep env c p doc s t) s := by
    apply Store.wp_indexDocument
    · intro db unmoved same contents
      have known := Store.classify_unchanged.mp same
      refine ⟨placed.unmoved unmoved, rfl, contents, unmoved.content, fun _ => .inl, ?_, ?_, ?_⟩
      · exact fun d q _ => slot_of_rows (unmoved.rows d q)
      · exact fun _ => slot_of_rows (unmoved.rows c p)
      · exact fun fresh => absurd known fresh
    · intro db id written own changed contents
      have fresh := fun known => changed (Store.classify_unchanged.mpr known)
      refine ⟨placed.indexed own written, rfl, contents, written.content, ?_, ?_, ?_, ?_⟩
      · intro e member
        rcases List.mem_append.mp member with old | new
        · rw [FtsIndex.working_deleted] at old
          exact .inl (List.mem_filter.mp old).1
        · rw [List.mem_singleton.mp new]
          exact .inr ⟨_, written.row, rfl⟩
      · exact fun d q elsewhere => slot_indexed_other placed own written elsewhere
      · exact fun known => absurd known fresh
      · exact fun _ => ⟨id, own, slot_indexed_self placed own written⟩
    · exact fun impossible => impossible.elim False.elim False.elim
    · exact False.elim
  refine wp_mono (wp_and rows slots) ?_ (fun _ _ both => both.1.elim) fun _ both => both.1.elim
  intro _ t both
  exact both.2 both.1.1

/-- A complete sweep. -/
structure PruneStep (env : Env V) (c : CollectionName) (walk : Walk) (s t : Store V) : Prop where
  placed : Placed t
  clean : t.hnswDirty = s.hnswDirty
  contents : t.contents = if walk.files = [] then s.contents else s.contents.sweep env c walk.paths
  content : t.db.content = s.db.content
  slots : ∀ d q, t.slot d q = if c = d ∧ walk.files ≠ [] ∧ q ∉ walk.paths then
    (s.slot d q).swept (env.pathTerms (filepath d q)).isEmpty else s.slot d q

theorem preserves_pruneMissing_content (walk : Walk) :
    Preserves Faults.calm (fun t : Store V => t.db.content = s.db.content) (pruneMissing env c walk) := by
  unfold pruneMissing
  refine .ite (.pure 0) (.bind ?_ fun removed => .bind (.forEach (fun path => ?_) removed) fun _ => .pure _)
  · unfold Store.deactivateMissingDocuments
    refine .bind (.query _) fun missing => .bind (.forEach (fun chunk => ?_) _) fun _ => .pure _
    intro t same
    exact Store.wp_sqlExecute same False.elim False.elim
  · unfold Store.removeStaleEntry Store.removeFromFts
    refine .bind (.attempt (preserves_deleteByFilepath (fun _ _ same => same) _)) fun result => ?_
    cases result with
    | ok _ => exact .pure ()
    | error _ => exact .modify fun _ same => same

theorem wp_pruneStep {walk : Walk} (placed : Placed s) :
    wp Faults.calm (pruneMissing env c walk) (Ends.only fun _ t => PruneStep env c walk s t) s := by
  by_cases none : walk.files = []
  · have nothing : (pruneMissing env c walk : Command V Nat) = pure 0 := if_pos (by rw [none, List.isEmpty_nil])
    rw [nothing]
    refine wp_pure ⟨placed, rfl, (if_pos none).symm, rfl, fun d q => (if_neg ?_).symm⟩
    exact fun both => both.2.1 none
  · have rows := @wp_sweep_contents V env c walk none s
    have slots := @wp_pruneMissing_calm V env s c walk none placed
    have content := @preserves_pruneMissing_content V env c s walk s rfl
    refine wp_mono (wp_and (wp_and rows slots) content) ?_ (fun _ _ both => both.1.1.elim) fun _ both => both.1.1.elim
    intro _ t all
    obtain ⟨⟨⟨contents, _⟩, placedT, _, clean, slots⟩, stored⟩ := all
    refine ⟨placedT, clean, contents.trans (if_neg none).symm, stored, fun d q => ?_⟩
    rw [slots d q]
    by_cases swept : d = c ∧ q ∉ walk.paths
    · rw [if_pos swept, if_pos ⟨swept.1.symm, none, swept.2⟩, swept.1]
    · rw [if_neg swept, if_neg fun all => swept ⟨all.1.symm, all.2.2⟩]

/-- The same rows and entries, with nothing left to write. -/
structure Rested (s t : Store V) : Prop where
  placed : Placed t
  clean : t.hnswDirty = false
  db : t.db = s.db
  working : t.fts.working = s.fts.working
  field : t.fts.frontmatterField = s.fts.frontmatterField
  slots : t.slot = s.slot
  even : t.fts.working = t.fts.committed

theorem Placed.reopened (placed : Placed s) : Placed (s.disk.open false) where
  located := ⟨placed.located.committed, placed.located.committed, fun _ none => absurd none List.not_mem_nil, fun _ => .inl⟩
  committed := placed.committed
  working := placed.committed
  staged _ none := absurd none List.not_mem_nil
  idle _ := rfl

theorem working_settled : s.settled.fts.working = s.fts.working := by
  unfold Store.settled
  split <;> rfl

theorem wp_flush_calm {ends : Ends (Store V) Failure Unit} (clean : s.hnswDirty = false) (done : ends.done () s.settled) :
    wp Faults.calm Store.flush ends s := by
  apply Store.wp_flush
  · rw [Store.flushed, if_neg (by simp [clean])]
    exact done
  · intro dirty
    rw [clean] at dirty
    cases dirty
  · exact False.elim
  · exact False.elim
  · exact False.elim

theorem rested_settled (placed : Placed s) (clean : s.hnswDirty = false) : Rested s s.settled := by
  obtain ⟨settled, even, slots⟩ := placed.settled
  refine ⟨settled, ?_, Store.settled_db, working_settled, ?_, funext fun d => funext fun q => slots d q, even⟩
  · rw [Store.settled_hnswDirty, clean]
  · unfold Store.settled
    split <;> rfl

theorem Rested.reopened (rested : Rested s t) : Rested s (t.disk.open false) where
  placed := rested.placed.reopened
  clean := rfl
  db := rested.db
  working := rested.even.symm.trans rested.working
  field := rested.field
  slots := (Store.disk_slot rested.even).trans rested.slots
  even := rfl

theorem wp_restart (placed : Placed s) (clean : s.hnswDirty = false) :
    wp Faults.calm (Edit.command env .restart) (Ends.only fun _ t => Rested s t) s :=
  wp_bind (wp_flush_calm clean (wp_modify (rested_settled placed clean).reopened))

/-! ### The index and the versions -/

/-- The row and the entries of a file are those of its version. A path without a term keeps the entries it was to lose. -/
structure Version.Shows (env : Env V) (field : Bool) (c : CollectionName) (p : String) (v : Version) (row : Document)
    (entries : List FtsEntry) : Prop where
  title : row.title = v.written.title
  hash : row.hash = env.contentHash v.written.indexedText
  active : row.active = v.active
  raw : row.raw = v.read.raw
  plain : (env.pathTerms (filepath c p) ≠ [] ∨ v.replaced = false) →
    entries = if v.active then [entryUnder env field c p v.written row.id] else []
  surplus : env.pathTerms (filepath c p) = [] → v.replaced = true → (if v.active then 1 else 0) < entries.length

namespace Version

variable {field : Bool} {v : Version} {row : Document} {entries : List FtsEntry} {doc : PreparedDoc}

theorem Shows.some_left (shown : v.Shows env field c p row entries) (termless : env.pathTerms (filepath c p) = []) :
    0 < entries.length := by
  cases replaced : v.replaced with
  | true =>
    have more := shown.surplus termless replaced
    omega
  | false =>
    rw [shown.plain (.inr replaced), if_pos (v.there replaced)]
    exact Nat.one_pos

theorem shows_first {id : Nat} : (first doc).Shows env field c p (Contents.created env c p doc id)
    [entryUnder env field c p doc id] :=
  ⟨rfl, rfl, rfl, rfl, fun _ => rfl, fun _ replaced => Bool.noConfusion replaced⟩

theorem shows_same (shown : v.Shows env field c p row entries) (same : v.written.indexedText = doc.indexedText) :
    (v.reread doc).Shows env field c p { row with raw := doc.raw } entries := by
  rw [reread, if_pos same]
  exact ⟨shown.title, shown.hash, shown.active, rfl, shown.plain, shown.surplus⟩

theorem shows_changed (shown : v.Shows env field c p row entries) (changed : v.written.indexedText ≠ doc.indexedText) :
    (v.reread doc).Shows env field c p (Contents.revised env doc row)
      ((if (env.pathTerms (filepath c p)).isEmpty then entries else []) ++ [entryUnder env field c p doc row.id]) := by
  rw [reread, if_neg changed]
  refine ⟨rfl, rfl, rfl, rfl, fun either => ?_, fun termless _ => ?_⟩
  · have terms : env.pathTerms (filepath c p) ≠ [] := either.resolve_right fun kept => Bool.noConfusion kept
    rw [if_neg (by simpa using terms)]
    rfl
  · have some := shown.some_left termless
    have kept : (env.pathTerms (filepath c p)).isEmpty = true := List.isEmpty_iff.mpr termless
    rw [if_pos kept, List.length_append, List.length_singleton]
    change 1 < _
    omega

theorem shows_gone (shown : v.Shows env field c p row entries) (active : v.active = true) :
    v.gone.Shows env field c p { row with active := false }
      (if (env.pathTerms (filepath c p)).isEmpty then entries else []) := by
  rw [gone, if_pos active]
  refine ⟨shown.title, shown.hash, rfl, shown.raw, fun either => ?_, fun termless _ => ?_⟩
  · have terms : env.pathTerms (filepath c p) ≠ [] := either.resolve_right fun kept => Bool.noConfusion kept
    rw [if_neg (by simpa using terms)]
    rfl
  · have some := shown.some_left termless
    have kept : (env.pathTerms (filepath c p)).isEmpty = true := List.isEmpty_iff.mpr termless
    rw [if_pos kept]
    exact some

end Version

/-- The index holds of every file what its version says, and nothing else. -/
structure Store.Mirrors (env : Env V) (field : Bool) (edits : List Edit) (s : Store V) : Prop where
  placed : Placed s
  clean : s.hnswDirty = false
  schema : s.fts.frontmatterField = field
  owned : ∀ e ∈ s.fts.working, ∃ c p v, s.db.rowAt c p = some v ∧ v.id = e.docId
  content : ∀ row ∈ s.db.content, ∃ text ∈ textsOf edits, row = ⟨env.contentHash text, text⟩
  files : ∀ c p, Option.Rel (fun v row => v.Shows env field c p row (s.slot c p).entries) (versionOf edits c p)
    (s.contents.rowAt c p)

theorem versionOf_append (edits : List Edit) (edit : Edit) (c : CollectionName) (p : String) :
    versionOf (edits ++ [edit]) c p = edit.version c p (versionOf edits c p) := by
  unfold versionOf
  rw [List.foldl_append]
  rfl

theorem textsOf_append (edits later : List Edit) : textsOf (edits ++ later) = textsOf edits ++ textsOf later :=
  List.filterMap_append

theorem DigestsApart.before {edits later : List Edit} (apart : DigestsApart env (edits ++ later)) : DigestsApart env edits := by
  intro first inside second there same
  apply apart first _ second _ same
  · exact textsOf_append edits later ▸ List.mem_append_left _ inside
  · exact textsOf_append edits later ▸ List.mem_append_left _ there

/-- The text of a version is one the history indexed. -/
theorem written_indexed {edits : List Edit} {v : Version} (found : versionOf edits c p = some v) :
    v.written.indexedText ∈ textsOf edits := by
  induction edits using List.reverseRecOn generalizing v with
  | nil => cases found
  | append_singleton edits edit earlier =>
    rw [versionOf_append] at found
    rw [textsOf_append, List.mem_append]
    cases edit with
    | restart => exact .inl (earlier found)
    | prune d walk =>
      left
      dsimp only [Edit.version] at found
      by_cases swept : d = c ∧ walk.files ≠ [] ∧ p ∉ walk.paths
      · rw [if_pos swept] at found
        obtain ⟨old, there, rfl⟩ := Option.map_eq_some_iff.mp found
        have same : old.gone.written = old.written := by
          unfold Version.gone
          split <;> rfl
        rw [same]
        exact earlier there
      · rw [if_neg swept] at found
        exact earlier found
    | index d q stem raw =>
      dsimp only [Edit.version] at found
      by_cases here : d = c ∧ q = p
      · rw [if_pos here] at found
        cases before : versionOf edits c p with
        | none =>
          rw [before] at found
          cases found
          exact .inr List.mem_cons_self
        | some old =>
          rw [before] at found
          cases found
          by_cases same : old.written.indexedText = (prepare stem raw).indexedText
          · have kept := earlier before
            rw [Version.reread, if_pos same]
            exact .inl kept
          · rw [Version.reread, if_neg same]
            exact .inr List.mem_cons_self
      · rw [if_neg here] at found
        exact .inl (earlier found)

def Edit.place : Edit → Option (CollectionName × String)
  | .index c p _ _ => some (c, p)
  | _ => none

/-- A file with a version has been indexed. -/
theorem version_placed {edits : List Edit} {v : Version} (found : versionOf edits c p = some v) :
    (c, p) ∈ edits.filterMap Edit.place := by
  induction edits using List.reverseRecOn generalizing v with
  | nil => cases found
  | append_singleton edits edit earlier =>
    rw [versionOf_append] at found
    rw [List.filterMap_append, List.mem_append]
    cases edit with
    | restart => exact .inl (earlier found)
    | prune d walk =>
      left
      dsimp only [Edit.version] at found
      split at found
      · obtain ⟨old, there, _⟩ := Option.map_eq_some_iff.mp found
        exact earlier there
      · exact earlier found
    | index d q stem raw =>
      dsimp only [Edit.version] at found
      by_cases here : d = c ∧ q = p
      · right
        rw [← here.1, ← here.2]
        exact List.mem_cons_self
      · rw [if_neg here] at found
        exact .inl (earlier found)

/-- Where every file is indexed once and none is taken out, every version is a first one. -/
theorem version_once {edits : List Edit} {v : Version} (distinct : (edits.filterMap Edit.place).Nodup)
    (kept : ∀ d walk, Edit.prune d walk ∉ edits) (found : versionOf edits c p = some v) : ∃ doc, v = .first doc := by
  induction edits using List.reverseRecOn generalizing v with
  | nil => cases found
  | append_singleton edits edit earlier =>
    rw [List.filterMap_append, List.nodup_append] at distinct
    have before : ∀ w, versionOf edits c p = some w → ∃ doc, w = .first doc := fun w version =>
      earlier distinct.1 (fun d walk inside => kept d walk (List.mem_append_left _ inside)) version
    rw [versionOf_append] at found
    cases edit with
    | restart => exact before v found
    | prune d walk => exact absurd (List.mem_append_right edits List.mem_cons_self) (kept d walk)
    | index d q stem raw =>
      dsimp only [Edit.version] at found
      by_cases here : d = c ∧ q = p
      · rw [if_pos here] at found
        cases version : versionOf edits c p with
        | none =>
          rw [version] at found
          cases found
          exact ⟨_, rfl⟩
        | some old =>
          have place : (c, p) ∈ [Edit.index d q stem raw].filterMap Edit.place := by
            rw [here.1, here.2]
            exact List.mem_cons_self
          exact absurd rfl (distinct.2.2 _ (version_placed version) _ place)
      · rw [if_neg here] at found
        exact before v found

section Steps

variable {field : Bool} {edits : List Edit} {stem raw : String}

/-- What a row or a version at another path says is not touched by an edit of this one. -/
theorem version_index_other (elsewhere : (d, q) ≠ (c, p)) (before : Option Version) :
    (Edit.index c p stem raw).version d q before = before := by
  apply if_neg
  intro here
  exact elsewhere (by rw [here.1, here.2])

theorem field_index {k : Contents} {doc : PreparedDoc} :
    (k.index env c p doc).fts.frontmatterField = k.fts.frontmatterField := by
  unfold Contents.index Contents.enter
  cases k.rowAt c p with
  | none => exact FtsIndex.frontmatterField_deleted _
  | some row =>
    dsimp only
    by_cases same : row.hash = env.contentHash doc.indexedText
    · rw [if_pos same]
      rfl
    · rw [if_neg same]
      exact FtsIndex.frontmatterField_deleted _

/-- The indexed file itself. -/
theorem Store.Mirrors.index_self (mirrors : s.Mirrors env field edits)
    (apart : DigestsApart env (edits ++ [.index c p stem raw])) (step : IndexStep env c p (prepare stem raw) s t) :
    Option.Rel (fun v row => v.Shows env field c p row (t.slot c p).entries)
      ((Edit.index c p stem raw).version c p (versionOf edits c p))
      (some (s.contents.indexedRow env c p (prepare stem raw))) := by
  have before := mirrors.files c p
  dsimp only [Edit.version]
  rw [if_pos ⟨rfl, rfl⟩]
  unfold Contents.indexedRow
  cases version : versionOf edits c p with
  | none =>
    cases found : s.contents.rowAt c p with
    | some row =>
      rw [version, found] at before
      cases before
    | none =>
      have absent : s.db.rowAt c p = none := by
        rw [rowAt_contents, found]
        rfl
      obtain ⟨id, own, slot⟩ := step.written fun known => by
        obtain ⟨v, there, _⟩ := known
        rw [absent] at there
        cases there
      have next : id = s.db.sequence + 1 := own.2 absent
      have empty : (s.slot c p).entries = [] := by
        simp only [Store.slot, Store.entriesAt, absent]
      rw [slot, Slot.rewritten, empty, ite_self, entryFor_field mirrors.schema, next]
      exact .some Version.shows_first
  | some v =>
    cases found : s.contents.rowAt c p with
    | none =>
      rw [version, found] at before
      cases before
    | some row =>
      rw [version, found] at before
      cases before with
      | some shown =>
        have inside : s.db.rowAt c p = some (Db.view row) := by
          rw [rowAt_contents, found]
          rfl
        by_cases same : v.written.indexedText = (prepare stem raw).indexedText
        · have hash : row.hash = env.contentHash (prepare stem raw).indexedText := shown.hash.trans (congrArg _ same)
          dsimp only
          rw [if_pos hash, step.unchanged ⟨_, inside, hash⟩]
          exact .some (Version.shows_same shown same)
        · have hash : row.hash ≠ env.contentHash (prepare stem raw).indexedText := by
            intro equal
            apply same
            apply apart _ _ _ _ (shown.hash.symm.trans equal)
            · exact textsOf_append edits _ ▸ List.mem_append_left _ (written_indexed version)
            · exact textsOf_append edits _ ▸ List.mem_append_right _ List.mem_cons_self
          obtain ⟨id, own, slot⟩ := step.written fun known => by
            obtain ⟨v, there, equal⟩ := known
            rw [inside] at there
            cases there
            exact hash equal
          have kept : row.id = id := own.1 _ inside
          dsimp only
          rw [if_neg hash, slot, Slot.rewritten, entryFor_field mirrors.schema, ← kept]
          exact .some (Version.shows_changed shown same)

theorem Store.Mirrors.index (mirrors : s.Mirrors env field edits) (apart : DigestsApart env (edits ++ [.index c p stem raw]))
    (step : IndexStep env c p (prepare stem raw) s t) : t.Mirrors env field (edits ++ [.index c p stem raw]) := by
  have slotRow : ∀ d q, (s.slot d q).row = s.db.rowAt d q := fun _ _ => rfl
  have slotRow' : ∀ d q, (t.slot d q).row = t.db.rowAt d q := fun _ _ => rfl
  refine ⟨step.placed, step.clean.trans mirrors.clean, ?_, ?_, ?_, ?_⟩
  · have same := congrArg (fun k => k.fts.frontmatterField) step.contents
    exact same.trans (field_index.trans mirrors.schema)
  · intro e member
    rcases step.working e member with old | new
    · obtain ⟨d, q, v, found, same⟩ := mirrors.owned e old
      by_cases here : (d, q) = (c, p)
      · cases here
        by_cases known : ∃ v, s.db.rowAt c p = some v ∧ v.hash = env.contentHash (prepare stem raw).indexedText
        · refine ⟨c, p, v, ?_, same⟩
          rw [← slotRow', step.unchanged known, slotRow, found]
        · obtain ⟨id, own, slot⟩ := step.written known
          refine ⟨c, p, _, (slotRow' c p).symm.trans (congrArg Slot.row slot), ?_⟩
          exact (own.1 v found).symm.trans same
      · refine ⟨d, q, v, ?_, same⟩
        rw [← slotRow', step.others d q here, slotRow, found]
    · obtain ⟨v, found, same⟩ := new
      exact ⟨c, p, v, found, same⟩
  · intro row member
    rcases step.content row member with old | new
    · obtain ⟨text, inside, same⟩ := mirrors.content row old
      exact ⟨text, textsOf_append edits _ ▸ List.mem_append_left _ inside, same⟩
    · exact ⟨_, textsOf_append edits _ ▸ List.mem_append_right _ List.mem_cons_self, new⟩
  · intro d q
    rw [versionOf_append, step.contents]
    by_cases here : (d, q) = (c, p)
    · cases here
      rw [Contents.rowAt_index]
      exact mirrors.index_self apart step
    · rw [version_index_other here, Contents.rowAt_index_other here, step.others d q here]
      exact mirrors.files d q

theorem rowAt_pruned {walk : Walk} (step : PruneStep env c walk s t) :
    t.contents.rowAt d q = (s.contents.rowAt d q).map fun row =>
      if (c = d ∧ walk.files ≠ [] ∧ q ∉ walk.paths) ∧ row.active = true then { row with active := false } else row := by
  rw [step.contents]
  by_cases none : walk.files = []
  · have same : (fun row : Document => if (c = d ∧ walk.files ≠ [] ∧ q ∉ walk.paths) ∧ row.active = true then
        { row with active := false } else row) = id := by
      funext row
      exact if_neg fun both => both.1.2.1 none
    rw [if_pos none, same, Option.map_id_fun]
    rfl
  · rw [if_neg none, Contents.rowAt_sweep]
    cases found : s.contents.rowAt d q with
    | none => rfl
    | some row =>
      obtain ⟨_, name, path⟩ := Contents.rowAt_some found
      have inside : s.db.rowAt d q = some (Db.view row) := by
        rw [rowAt_contents, found]
        rfl
      have missing : (row.collection = c ∧ row.path ∈ s.contents.missing c walk.paths) ↔
          (c = d ∧ walk.files ≠ [] ∧ q ∉ walk.paths) ∧ row.active = true := by
        rw [← contents_missing, missing_iff, name, path]
        constructor
        · intro gone
          obtain ⟨rfl, outside, v, there, active⟩ := gone
          rw [inside] at there
          cases there
          exact ⟨⟨rfl, none, outside⟩, active⟩
        · intro gone
          obtain ⟨⟨rfl, _, outside⟩, active⟩ := gone
          exact ⟨rfl, outside, _, inside, active⟩
      simp only [Option.map_some]
      congr 1
      by_cases gone : row.collection = c ∧ row.path ∈ s.contents.missing c walk.paths
      · rw [if_pos gone, if_pos (missing.mp gone)]
      · rw [if_neg gone, if_neg fun both => gone (missing.mpr both)]

theorem fts_swept (removed : List String) (index : FtsIndex) :
    (removed.foldl (fun fts p => fts.deleted env (filepath c p)) index).frontmatterField = index.frontmatterField ∧
      ∀ e ∈ (removed.foldl (fun fts p => fts.deleted env (filepath c p)) index).working, e ∈ index.working := by
  induction removed generalizing index with
  | nil => exact ⟨rfl, fun _ => id⟩
  | cons path removed later =>
    obtain ⟨field, fewer⟩ := later (index.deleted env (filepath c path))
    refine ⟨field.trans (FtsIndex.frontmatterField_deleted _), fun e member => ?_⟩
    have kept := fewer e member
    rw [FtsIndex.working_deleted] at kept
    exact (List.mem_filter.mp kept).1

theorem PruneStep.fts {walk : Walk} (step : PruneStep env c walk s t) :
    t.fts.frontmatterField = s.fts.frontmatterField ∧ ∀ e ∈ t.fts.working, e ∈ s.fts.working := by
  have same : t.fts = _ := congrArg Contents.fts step.contents
  rw [same]
  by_cases none : walk.files = []
  · rw [if_pos none]
    exact ⟨rfl, fun _ => id⟩
  · rw [if_neg none]
    exact fts_swept _ _

theorem Store.Mirrors.prune {walk : Walk} (mirrors : s.Mirrors env field edits) (step : PruneStep env c walk s t) :
    t.Mirrors env field (edits ++ [.prune c walk]) := by
  refine ⟨step.placed, step.clean.trans mirrors.clean, step.fts.1.trans mirrors.schema, ?_, ?_, ?_⟩
  · intro e member
    obtain ⟨d, q, v, found, same⟩ := mirrors.owned e (step.fts.2 e member)
    rw [rowAt_contents] at found
    obtain ⟨row, there, view⟩ := Option.map_eq_some_iff.mp found
    have now := @rowAt_pruned V env c d q s t walk step
    rw [there, Option.map_some] at now
    refine ⟨d, q, _, by rw [rowAt_contents, now, Option.map_some], ?_⟩
    rw [← same, ← view]
    split <;> rfl
  · intro row member
    obtain ⟨text, inside, same⟩ := mirrors.content row (step.content ▸ member)
    exact ⟨text, textsOf_append edits _ ▸ List.mem_append_left _ inside, same⟩
  · intro d q
    have before := mirrors.files d q
    rw [versionOf_append, rowAt_pruned step, step.slots d q]
    dsimp only [Edit.version]
    by_cases swept : c = d ∧ walk.files ≠ [] ∧ q ∉ walk.paths
    · rw [if_pos swept, if_pos swept]
      cases version : versionOf edits d q with
      | none =>
        cases found : s.contents.rowAt d q with
        | none => exact .none
        | some row =>
          rw [version, found] at before
          cases before
      | some v =>
        cases found : s.contents.rowAt d q with
        | none =>
          rw [version, found] at before
          cases before
        | some row =>
          rw [version, found] at before
          cases before with
          | some shown =>
            have inside : s.db.rowAt d q = some (Db.view row) := by
              rw [rowAt_contents, found]
              rfl
            have slot : (s.slot d q).row = some (Db.view row) := inside
            simp only [Option.map_some]
            by_cases active : v.active = true
            · have live : (Db.view row).active = true := shown.active.trans active
              rw [if_pos ⟨swept, shown.active.trans active⟩, Slot.swept, slot]
              dsimp only
              rw [if_pos live]
              exact .some (Version.shows_gone shown active)
            · have dead : ¬ (Db.view row).active = true := fun live => active (shown.active.symm.trans live)
              rw [if_neg fun both => active (shown.active.symm.trans both.2), Slot.swept, slot]
              dsimp only
              rw [if_neg dead, Version.gone, if_neg active]
              exact .some shown
    · have same : (fun row : Document => if (c = d ∧ walk.files ≠ [] ∧ q ∉ walk.paths) ∧ row.active = true then
          { row with active := false } else row) = id := by
        funext row
        exact if_neg fun both => swept both.1
      rw [if_neg swept, if_neg swept, same, Option.map_id_fun]
      exact before

theorem Rested.contents (rested : Rested s t) : t.contents.SameRows s.contents := by
  unfold Store.contents
  rw [rested.db]
  exact ⟨rfl, rfl⟩

theorem Store.Mirrors.rested (mirrors : s.Mirrors env field edits) (rested : Rested s t) : t.Mirrors env field edits := by
  refine ⟨rested.placed, rested.clean, rested.field.trans mirrors.schema, ?_, ?_, ?_⟩
  · intro e member
    rw [rested.working] at member
    rw [rested.db]
    exact mirrors.owned e member
  · intro row member
    exact mirrors.content row (rested.db ▸ member)
  · intro d q
    rw [rested.contents.rowAt, rested.slots]
    exact mirrors.files d q

theorem Store.Mirrors.restart (mirrors : s.Mirrors env field edits) : s.Mirrors env field (edits ++ [.restart]) := by
  refine ⟨mirrors.placed, mirrors.clean, mirrors.schema, mirrors.owned, fun row member => ?_, fun d q => ?_⟩
  · obtain ⟨text, inside, same⟩ := mirrors.content row member
    exact ⟨text, textsOf_append edits _ ▸ List.mem_append_left _ inside, same⟩
  · rw [versionOf_append]
    exact mirrors.files d q

/-! ### Whole histories -/

/-- What an edit makes of the rows. -/
def Edit.contents (env : Env V) (k : Contents) : Edit → Contents
  | .index c p stem raw => k.index env c p (prepare stem raw)
  | .prune c walk => if walk.files = [] then k else k.sweep env c walk.paths
  | .restart => k

theorem Edit.sameRows {k j : Contents} (same : k.SameRows j) (edit : Edit) :
    (edit.contents env k).SameRows (edit.contents env j) := by
  cases edit with
  | index c p stem raw => exact same.index
  | prune c walk =>
    dsimp only [Edit.contents]
    split
    · exact same
    · exact same.sweep walk.paths
  | restart => exact same

theorem sameRows_edits {k j : Contents} (same : k.SameRows j) (edits : List Edit) :
    (edits.foldl (Edit.contents env) k).SameRows (edits.foldl (Edit.contents env) j) := by
  induction edits generalizing k j with
  | nil => exact same
  | cons edit edits later => exact later (edit.sameRows same)

theorem wp_edit {edit : Edit} (mirrors : s.Mirrors env field edits) (apart : DigestsApart env (edits ++ [edit])) :
    wp Faults.calm (edit.command env) (Ends.only fun _ t => t.Mirrors env field (edits ++ [edit]) ∧
      t.contents.SameRows (edit.contents env s.contents)) s := by
  cases edit with
  | index c p stem raw =>
    refine wp_bind (wp_mono (wp_indexStep mirrors.placed) ?_ (fun _ _ => False.elim) fun _ => False.elim)
    intro outcome t step
    refine wp_pure ⟨mirrors.index apart step, ?_⟩
    rw [step.contents]
    exact ⟨rfl, rfl⟩
  | prune c walk =>
    refine wp_bind (wp_mono (wp_pruneStep mirrors.placed) ?_ (fun _ _ => False.elim) fun _ => False.elim)
    intro removed t step
    refine wp_pure ⟨mirrors.prune step, ?_⟩
    rw [step.contents]
    exact ⟨rfl, rfl⟩
  | restart =>
    refine wp_mono (wp_restart mirrors.placed mirrors.clean) ?_ (fun _ _ => False.elim) fun _ => False.elim
    intro _ t rested
    exact ⟨(mirrors.rested rested).restart, rested.contents⟩

/-- After every history the index mirrors the versions. -/
theorem wp_incremental (start : s.Mirrors env field []) (apart : DigestsApart env edits) :
    wp Faults.calm (incremental env edits) (Ends.only fun _ t => t.Mirrors env field edits ∧
      t.fts.working = t.fts.committed ∧ t.contents.SameRows (edits.foldl (Edit.contents env) s.contents)) s := by
  apply wp_bind
  apply wp_forEach fun rest t => ∃ done, done ++ rest = edits ∧ t.Mirrors env field done ∧
    t.contents.SameRows (done.foldl (Edit.contents env) s.contents)
  · intro edit rest t reached
    obtain ⟨done, whole, mirrors, rows⟩ := reached
    have so : (done ++ [edit]) ++ rest = edits := by rw [List.append_assoc, List.singleton_append, whole]
    refine wp_mono (wp_edit mirrors (DigestsApart.before (so ▸ apart))) ?_ (fun _ _ => False.elim) fun _ => False.elim
    intro _ u step
    refine ⟨done ++ [edit], so, step.1, ?_⟩
    rw [List.foldl_append]
    exact step.2.trans (edit.sameRows rows)
  · intro t reached
    obtain ⟨done, whole, mirrors, rows⟩ := reached
    rw [List.append_nil] at whole
    rw [← whole]
    have rested := rested_settled mirrors.placed mirrors.clean
    exact wp_flush_calm mirrors.clean ⟨mirrors.rested rested, rested.even, rested.contents.trans rows⟩
  · exact ⟨[], rfl, start, ⟨rfl, rfl⟩⟩

/-- An index with nothing in it. -/
structure Disk.Blank (d : Disk V) : Prop where
  documents : d.db.documents = ∅
  content : d.db.content = ∅
  entries : d.entries = []

theorem Disk.Blank.mirrors {d : Disk V} (blank : d.Blank) : (d.open false).Mirrors env d.frontmatterField [] := by
  have working : (d.open false).fts.working = [] := blank.entries
  have committed : (d.open false).fts.committed = [] := blank.entries
  have nowhere : ∀ {P : FtsEntry → Prop}, ∀ e ∈ ([] : List FtsEntry), P e := fun e none => absurd none List.not_mem_nil
  refine ⟨⟨⟨?_, ?_, ?_, fun _ => .inl⟩, ?_, ?_, ?_, fun _ => rfl⟩, rfl, rfl, ?_, ?_, ?_⟩
  · exact committed ▸ nowhere
  · exact working ▸ nowhere
  · exact fun _ none => absurd none List.not_mem_nil
  · exact committed ▸ nowhere
  · exact working ▸ nowhere
  · exact fun _ none => absurd none List.not_mem_nil
  · exact working ▸ nowhere
  · intro row member
    have inside : row ∈ d.db.content := member
    rw [blank.content] at inside
    exact absurd inside (Table.not_mem_empty row)
  · intro c p
    have absent : (d.open false).contents.rowAt c p = none := by
      unfold Store.contents Contents.rowAt
      change (d.db.documents.rows.map Document.unmarked).find? _ = none
      rw [blank.documents]
      rfl
    rw [absent]
    exact .none

/-- What an undisturbed history leaves of a blank index. -/
theorem Disk.Blank.edited {d : Disk V} (blank : d.Blank) (apart : DigestsApart env edits) :
    (d.edited env edits).Mirrors env d.frontmatterField edits ∧
      (d.edited env edits).fts.working = (d.edited env edits).fts.committed ∧
      (d.edited env edits).contents.SameRows (edits.foldl (Edit.contents env) (d.open false).contents) := by
  have start : (d.open false).Mirrors env d.frontmatterField [] := blank.mirrors
  obtain ⟨_, t, rest, run, reached⟩ := wp_calm (wp_incremental start apart)
  have final : d.edited env edits = t := by
    unfold Disk.edited
    rw [run]
    rfl
  rw [final]
  exact reached

end Steps

end Rqmd
