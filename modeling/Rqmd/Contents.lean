import Rqmd.Convergence
import Rqmd.VectorRows

/-! What an undisturbed update pass makes of the documents and the full-text index, as a function of them and of the
files it walks. -/

namespace Rqmd
open Interrupt

variable {V : Type} {env : Env V} {c d : CollectionName} {p q : String}

/-- The documents without their marks, the counter of their ids and the full-text index. -/
structure Contents where
  rows : List Document
  sequence : Nat
  fts : FtsIndex
deriving DecidableEq

def Store.contents (s : Store V) : Contents := ⟨s.db.documents.rows.map Document.unmarked, s.db.sequence, s.fts⟩

def Document.standsAt (c : CollectionName) (p : String) (row : Document) : Bool := row.collection == c && row.path == p

namespace Contents

def rowAt (k : Contents) (c : CollectionName) (p : String) : Option Document := k.rows.find? (Document.standsAt c p)

/-- The row at the path is changed. -/
def amend (c : CollectionName) (p : String) (f : Document → Document) (k : Contents) : Contents :=
  { k with rows := k.rows.map fun row => if row.standsAt c p then f row else row }

/-- The entries of the path are replaced by one for the id. -/
def enter (env : Env V) (c : CollectionName) (p : String) (doc : PreparedDoc) (id : Nat) (k : Contents) : Contents :=
  { k with fts := (k.fts.deleted env (filepath c p)).insertEntry (Store.entryFor env k.fts c p doc id) }

def revised (env : Env V) (doc : PreparedDoc) (row : Document) : Document :=
  { row with title := doc.title, hash := env.contentHash doc.indexedText, active := true, raw := doc.raw }

def created (env : Env V) (c : CollectionName) (p : String) (doc : PreparedDoc) (id : Nat) : Document :=
  ⟨id, c, p, doc.title, env.contentHash doc.indexedText, true, doc.raw, none, none⟩

/-- A document is indexed: unchanged, updated or new. -/
def index (env : Env V) (c : CollectionName) (p : String) (doc : PreparedDoc) (k : Contents) : Contents :=
  match k.rowAt c p with
  | some row =>
    if row.hash = env.contentHash doc.indexedText then k.amend c p fun row => { row with raw := doc.raw }
    else (k.amend c p (revised env doc)).enter env c p doc row.id
  | none =>
    enter env c p doc (k.sequence + 1)
      { k with rows := k.rows ++ [created env c p doc (k.sequence + 1)], sequence := k.sequence + 1 }

/-- One file of a walk. -/
def visit (env : Env V) (c : CollectionName) (cache : List (String × FileStat)) (k : Contents) (file : WalkedFile) :
    Contents :=
  if cached cache file then k
  else
    match file.prepared with
    | .error _ => k
    | .ok doc => (k.index env c file.relPath doc).amend c file.relPath fun row =>
        { row with stat := file.stat.bind (trustedStat file.now) }

def missing (c : CollectionName) (present : List String) (k : Contents) : List String :=
  (k.rows.filter fun row => row.collection == c && row.active && !present.contains row.path).map Document.path

/-- The rows whose files are gone are deactivated and their entries deleted. -/
def sweep (env : Env V) (c : CollectionName) (present : List String) (k : Contents) : Contents :=
  { k with
    rows := k.rows.map fun row =>
      if row.collection = c ∧ row.path ∈ k.missing c present then { row with active := false } else row
    fts := (k.missing c present).foldl (fun fts p => fts.deleted env (filepath c p)) k.fts }

def commit (k : Contents) : Contents := { k with fts := if k.fts.writer then k.fts.commitStaged else k.fts }

/-- A whole pass. -/
def pass (env : Env V) (c : CollectionName) (cache : List (String × FileStat)) (walk : Walk) (k : Contents) : Contents :=
  let visited := walk.files.foldl (visit env c cache) k
  (if walk.files.isEmpty then visited else visited.sweep env c walk.paths).commit

/-! ### Rows by path -/

variable {k : Contents} {f : Document → Document} {doc : PreparedDoc}

theorem standsAt_iff {row : Document} : row.standsAt c p = true ↔ row.collection = c ∧ row.path = p := by
  unfold Document.standsAt
  rw [Bool.and_eq_true, beq_iff_eq, beq_iff_eq]

theorem rowAt_some {row : Document} (found : k.rowAt c p = some row) :
    row ∈ k.rows ∧ row.collection = c ∧ row.path = p :=
  ⟨List.mem_of_find?_eq_some found, standsAt_iff.mp (List.find?_some found)⟩

/-- The change leaves the place of a row alone. -/
def Placing (f : Document → Document) : Prop := ∀ row, (f row).collection = row.collection ∧ (f row).path = row.path

theorem placing_revised : Placing (revised env doc) := fun _ => ⟨rfl, rfl⟩

theorem placing_raw (raw : String) : Placing fun row => { row with raw := raw } := fun _ => ⟨rfl, rfl⟩

theorem placing_stat (stat : Option FileStat) : Placing fun row => { row with stat := stat } := fun _ => ⟨rfl, rfl⟩

theorem stands_placing (placing : Placing f) (row : Document) : (f row).standsAt d q = row.standsAt d q := by
  unfold Document.standsAt
  rw [(placing row).1, (placing row).2]

theorem rowAt_amend_self (placing : Placing f) : (k.amend c p f).rowAt c p = (k.rowAt c p).map f := by
  unfold rowAt amend
  rw [List.find?_map]
  have same : (Document.standsAt c p ∘ fun row => if row.standsAt c p then f row else row) = Document.standsAt c p := by
    funext row
    simp only [Function.comp_apply]
    by_cases here : row.standsAt c p = true
    · rw [if_pos here, stands_placing placing]
    · rw [if_neg here]
  rw [same]
  cases found : k.rows.find? (Document.standsAt c p) with
  | none => rfl
  | some row => simp only [Option.map_some, if_pos (List.find?_some found)]

theorem rowAt_amend_other (placing : Placing f) (elsewhere : (d, q) ≠ (c, p)) :
    (k.amend c p f).rowAt d q = k.rowAt d q := by
  unfold rowAt amend
  rw [List.find?_map]
  have same : (Document.standsAt d q ∘ fun row => if row.standsAt c p then f row else row) = Document.standsAt d q := by
    funext row
    simp only [Function.comp_apply]
    by_cases here : row.standsAt c p = true
    · rw [if_pos here, stands_placing placing]
    · rw [if_neg here]
  rw [same]
  cases found : k.rows.find? (Document.standsAt d q) with
  | none => rfl
  | some row =>
    have stands := standsAt_iff.mp (List.find?_some found)
    have other : ¬ row.standsAt c p = true := by
      intro here
      have there := standsAt_iff.mp here
      exact elsewhere (by rw [← stands.1, ← stands.2, there.1, there.2])
    simp only [Option.map_some, if_neg other]

theorem created_stands (id : Nat) : (created env c p doc id).standsAt c p = true := standsAt_iff.mpr ⟨rfl, rfl⟩

theorem rowAt_index_other (elsewhere : (d, q) ≠ (c, p)) : (k.index env c p doc).rowAt d q = k.rowAt d q := by
  unfold index
  cases k.rowAt c p with
  | none =>
    change (k.rows ++ [_]).find? _ = _
    rw [List.find?_append]
    have other : (created env c p doc (k.sequence + 1)).standsAt d q = false := by
      rw [Bool.eq_false_iff]
      intro here
      have place := standsAt_iff.mp here
      exact elsewhere (by rw [← place.1, ← place.2]; rfl)
    rw [List.find?_cons, other]
    exact Option.or_none ..
  | some row =>
    dsimp only
    by_cases same : row.hash = env.contentHash doc.indexedText
    · rw [if_pos same]
      exact rowAt_amend_other (placing_raw doc.raw) elsewhere
    · rw [if_neg same]
      exact rowAt_amend_other placing_revised elsewhere

/-- The row at the path once the document is indexed there. -/
def indexedRow (env : Env V) (c : CollectionName) (p : String) (doc : PreparedDoc) (k : Contents) : Document :=
  match k.rowAt c p with
  | some row => if row.hash = env.contentHash doc.indexedText then { row with raw := doc.raw } else revised env doc row
  | none => created env c p doc (k.sequence + 1)

theorem rowAt_index : (k.index env c p doc).rowAt c p = some (k.indexedRow env c p doc) := by
  unfold index indexedRow
  cases found : k.rowAt c p with
  | none =>
    change (k.rows ++ [_]).find? _ = _
    rw [List.find?_append, show k.rows.find? (Document.standsAt c p) = none from found]
    rw [List.find?_cons, created_stands]
    rfl
  | some row =>
    dsimp only
    by_cases same : row.hash = env.contentHash doc.indexedText
    · rw [if_pos same, if_pos same, rowAt_amend_self (placing_raw doc.raw), found]
      rfl
    · rw [if_neg same, if_neg same]
      change (k.amend c p (revised env doc)).rowAt c p = _
      rw [rowAt_amend_self placing_revised, found]
      rfl

/-- The row of a path that was read has the text. -/
theorem rowAt_index_self : ∃ row, (k.index env c p doc).rowAt c p = some row ∧
    row.hash = env.contentHash doc.indexedText ∧ row.raw = doc.raw := by
  refine ⟨_, rowAt_index, ?_⟩
  unfold indexedRow
  cases k.rowAt c p with
  | none => exact ⟨rfl, rfl⟩
  | some row =>
    dsimp only
    by_cases same : row.hash = env.contentHash doc.indexedText
    · rw [if_pos same]
      exact ⟨same, rfl⟩
    · rw [if_neg same]
      exact ⟨rfl, rfl⟩

theorem rowAt_sweep (present : List String) : (k.sweep env c present).rowAt d q = (k.rowAt d q).map fun row =>
    if row.collection = c ∧ row.path ∈ k.missing c present then { row with active := false } else row := by
  unfold rowAt sweep
  rw [List.find?_map]
  congr 2
  funext row
  simp only [Function.comp_apply]
  by_cases gone : row.collection = c ∧ row.path ∈ k.missing c present
  · rw [if_pos gone]
    rfl
  · rw [if_neg gone]

end Contents

/-! ### The steps of a pass -/

variable {s : Store V}

theorem contents_rowAt : s.contents.rowAt c p = (s.db.getDocumentByFilepath c p).map Document.unmarked := by
  change List.find? _ (s.db.documents.rows.map Document.unmarked) = _
  rw [List.find?_map]
  rfl

/-- The row with the id of the row at a path is the row at the path. -/
theorem standsAt_iff_id {row other : Document} (found : s.db.getDocumentByFilepath c p = some row)
    (member : other ∈ s.db.documents) : other.standsAt c p = true ↔ other.id = row.id := by
  obtain ⟨inside, name, path⟩ := Db.mem_lookup found
  unfold Document.standsAt
  rw [Bool.and_eq_true, beq_iff_eq, beq_iff_eq]
  constructor
  · intro here
    rw [Table.eq_of_clash member inside (.inr ⟨here.1.trans name.symm, here.2.trans path.symm⟩)]
  · intro same
    rw [Db.same_id member inside same]
    exact ⟨name, path⟩

theorem contents_upsertContent (hash doc : String) :
    ({ s with db := s.db.upsertContent hash doc } : Store V).contents = s.contents := by
  have sequence : (s.db.upsertContent hash doc).sequence = s.db.sequence := by
    unfold Db.upsertContent
    split <;> rfl
  simp only [Store.contents, Db.documents_upsertContent, sequence]

/-- `set_document_raw` finds its row by id. -/
theorem contents_setRaw {row : Document} (found : s.db.getDocumentByFilepath c p = some row) (raw : String) :
    ({ s with db := s.db.setDocumentRaw row.id raw } : Store V).contents =
      s.contents.amend c p fun row => { row with raw := raw } := by
  unfold Store.contents Contents.amend
  simp only [Contents.mk.injEq, List.map_map]
  refine ⟨?_, rfl, trivial⟩
  change (s.db.documents.rows.map _).map _ = _
  rw [List.map_map]
  apply List.map_congr_left
  intro other member
  have same := standsAt_iff_id found member
  have plain : other.unmarked.standsAt c p = other.standsAt c p := rfl
  simp only [Function.comp_apply, plain]
  by_cases here : other.id = row.id
  · rw [if_pos here, if_pos (same.mpr here)]
    rfl
  · rw [if_neg here, if_neg fun stands => here (same.mp stands)]

theorem contents_setStat (stat : Option FileStat) :
    ({ s with db := s.db.setDocumentStat c p stat } : Store V).contents =
      s.contents.amend c p fun row => { row with stat := stat } := by
  unfold Store.contents Contents.amend
  simp only [Contents.mk.injEq, List.map_map]
  refine ⟨?_, rfl, trivial⟩
  change (s.db.documents.rows.map _).map _ = _
  rw [List.map_map]
  apply List.map_congr_left
  intro other _
  simp only [Function.comp_apply, Document.standsAt, Bool.and_eq_true, beq_iff_eq]
  have plain : (other.unmarked.collection = c ∧ other.unmarked.path = p) ↔ (other.collection = c ∧ other.path = p) := Iff.rfl
  by_cases here : other.collection = c ∧ other.path = p
  · rw [if_pos here, if_pos (plain.mpr here)]
    rfl
  · rw [if_neg here, if_neg fun stands => here (plain.mp stands)]

theorem contents_updated {row : Document} {title hash : String} {id : Nat} {after : Db}
    (found : s.db.getDocumentByFilepath c p = some row) (written : s.db.upsertDocument c p title hash = .ok (id, after)) :
    id = row.id ∧ ({ s with db := after } : Store V).contents =
      s.contents.amend c p fun row => { row with title := title, hash := hash, active := true } := by
  unfold Db.upsertDocument at written
  split at written
  · split at written
    · next other here =>
      rw [found] at here
      cases here
      simp only [Except.ok.injEq, Prod.mk.injEq] at written
      obtain ⟨rfl, rfl⟩ := written
      refine ⟨rfl, ?_⟩
      unfold Store.contents Contents.amend
      simp only [Contents.mk.injEq, List.map_map]
      refine ⟨?_, trivial, trivial⟩
      change (s.db.documents.rows.map (s.db.revise c p title hash)).map _ = _
      rw [List.map_map]
      apply List.map_congr_left
      intro other _
      simp only [Function.comp_apply, Document.standsAt, Bool.and_eq_true, beq_iff_eq, Db.revise]
      have plain : (other.unmarked.collection = c ∧ other.unmarked.path = p) ↔ (other.collection = c ∧ other.path = p) :=
        Iff.rfl
      by_cases here : other.collection = c ∧ other.path = p
      · rw [if_pos here, if_pos (plain.mpr here)]
        rfl
      · rw [if_neg here, if_neg fun stands => here (plain.mp stands)]
    · next absent =>
      rw [found] at absent
      cases absent
  · cases written

theorem contents_new {title hash : String} {id : Nat} {after : Db} (absent : s.db.getDocumentByFilepath c p = none)
    (written : s.db.upsertDocument c p title hash = .ok (id, after)) :
    id = s.db.sequence + 1 ∧ ({ s with db := after } : Store V).contents = { s.contents with
      rows := s.contents.rows ++ [⟨s.db.sequence + 1, c, p, title, hash, true, "", none, none⟩]
      sequence := s.db.sequence + 1 } := by
  unfold Db.upsertDocument at written
  split at written
  · split at written
    · next other here =>
      rw [absent] at here
      cases here
    · simp only [Except.ok.injEq, Prod.mk.injEq] at written
      obtain ⟨rfl, rfl⟩ := written
      refine ⟨rfl, ?_⟩
      unfold Store.contents
      simp only [Contents.mk.injEq]
      refine ⟨?_, trivial, trivial⟩
      change (s.db.documents.rows ++ [_]).map _ = _
      rw [List.map_append]
      rfl
  · cases written

theorem Contents.amend_amend {k : Contents} {f g : Document → Document}
    (keeps : ∀ row : Document, (f row).standsAt c p = row.standsAt c p) :
    (k.amend c p f).amend c p g = k.amend c p fun row => g (f row) := by
  unfold amend
  simp only [List.map_map]
  congr 1
  apply List.map_congr_left
  intro row _
  by_cases here : row.standsAt c p = true
  · simp only [Function.comp_apply, if_pos here, keeps]
  · simp only [Function.comp_apply, if_neg here]

theorem Contents.amend_new {k : Contents} {f : Document → Document} {row : Document} {n : Nat}
    (absent : k.rowAt c p = none) (here : row.standsAt c p = true) :
    ({ k with rows := k.rows ++ [row], sequence := n } : Contents).amend c p f =
      { k with rows := k.rows ++ [f row], sequence := n } := by
  unfold amend
  simp only [List.map_append, List.map_cons, List.map_nil, if_pos here]
  congr 2
  have none := List.find?_eq_none.mp absent
  have same := List.map_congr_left (l := k.rows) (f := fun other => if other.standsAt c p then f other else other)
    (g := id) fun other member => if_neg (none other member)
  rw [same, List.map_id]

/-- The rest of an indexing once the row is written. -/
theorem wp_entered {doc : PreparedDoc} {outcome : IndexOutcome} {row : Document} {k : Contents}
    (found : s.db.getDocumentByFilepath c p = some row)
    (same : (s.contents.amend c p fun row => { row with raw := doc.raw }).enter env c p doc row.id = k) :
    wp Faults.calm (do
      Store.sqlExecute "set document raw" (fun db => db.setDocumentRaw row.id doc.raw) []
      Store.addDocumentWithFrontmatter env (filepath c p) doc.title doc.indexedText (env.frontmatterTerms doc.raw) row.id
      pure outcome : Command V IndexOutcome) (Ends.only fun _ t => t.contents = k ∧ t.hnswDirty = s.hnswDirty) s := by
  unfold Store.addDocumentWithFrontmatter
  refine wp_bind (Store.wp_sqlExecute ?_ False.elim False.elim)
  refine wp_bind (wp_bind (Store.wp_deleteByFilepath ?_ False.elim False.elim))
  refine Store.wp_insertDocument ?_ False.elim False.elim
  refine wp_pure ⟨?_, rfl⟩
  rw [← same, ← contents_setRaw found doc.raw]
  unfold Contents.enter Store.entryFor FtsIndex.entryOf Store.contents
  simp only [FtsIndex.frontmatterField_deleted]

theorem wp_index_contents {doc : PreparedDoc} : wp Faults.calm (Store.indexDocumentFtsOnlyWithRaw env c p doc)
    (Ends.only fun _ t => t.contents = s.contents.index env c p doc ∧ t.hnswDirty = s.hnswDirty) s := by
  unfold Store.indexDocumentFtsOnlyWithRaw
  refine wp_bind (wp_query ?_)
  refine wp_bind (Store.wp_sqlExecute ?_ False.elim False.elim)
  simp only [List.append_nil]
  generalize stored : s.db.upsertContent (env.contentHash doc.indexedText) doc.indexedText = db
  have lookup : db.getDocumentByFilepath c p = s.db.getDocumentByFilepath c p := by
    rw [← stored, Db.lookup_upsertContent]
  have contents : ({ s with db := db } : Store V).contents = s.contents := by
    rw [← stored, contents_upsertContent]
  have known : db.content.any (·.hash == env.contentHash doc.indexedText) = true := by
    rw [← stored]
    exact Db.upsertContent_known _ _
  have view := @contents_rowAt V c p s
  obtain ⟨id, after, run, upserted⟩ := @Db.upsertDocument_ok db c p doc.title _ known
  obtain ⟨new, there, same, _⟩ := upserted.row
  have write : ∀ k : Contents, ((({ s with db := after } : Store V).contents.amend c p fun row =>
      { row with raw := doc.raw }).enter env c p doc id = k) → ∀ outcome : IndexOutcome, wp Faults.calm (do
        let docId ← Store.sqlWrite "upsert document"
          (fun db => db.upsertDocument c p doc.title (env.contentHash doc.indexedText)) fun docId => [.documentWritten docId]
        Store.sqlExecute "set document raw" (fun db => db.setDocumentRaw docId doc.raw) []
        Store.addDocumentWithFrontmatter env (filepath c p) doc.title doc.indexedText (env.frontmatterTerms doc.raw) docId
        pure outcome : Command V IndexOutcome) (Ends.only fun _ t => t.contents = k ∧ t.hnswDirty = s.hnswDirty)
        { s with db := db } := by
    intro k equal outcome
    refine wp_bind (Store.wp_sqlWrite ?_ (fun _ refused => ?_) False.elim False.elim)
    · intro docId written done
      rw [run] at done
      simp only [Except.ok.injEq, Prod.mk.injEq] at done
      obtain ⟨rfl, rfl⟩ := done
      rw [← same] at equal ⊢
      exact @wp_entered V env c p { s with db := after, log := s.log ++ [.documentWritten new.id] } doc outcome new k there
        equal
    · rw [run] at refused
      cases refused
  unfold Contents.index
  rw [view]
  cases found : s.db.getDocumentByFilepath c p with
  | none =>
    obtain ⟨id', rows⟩ := @contents_new V c p { s with db := db } _ _ _ _ (lookup.trans found) run
    have sequence : db.sequence = s.db.sequence := congrArg Contents.sequence contents
    have absent : s.contents.rowAt c p = none := by
      rw [view, found]
      rfl
    rw [if_neg (by intro impossible; cases impossible)]
    apply write
    have stands : (⟨s.db.sequence + 1, c, p, doc.title, env.contentHash doc.indexedText, true, "", none, none⟩ :
        Document).standsAt c p = true := by
      simp [Document.standsAt]
    rw [rows, contents, id', sequence, Contents.amend_new absent stands]
    rfl
  | some row =>
    by_cases unchanged : row.hash = env.contentHash doc.indexedText
    · have classified : Store.classify (some row) (env.contentHash doc.indexedText) = .unchanged := if_pos unchanged
      rw [if_pos classified]
      refine wp_bind (wp_query ?_)
      dsimp only
      rw [lookup, found]
      refine wp_bind (Store.wp_sqlExecute ?_ False.elim False.elim)
      simp only [List.append_nil]
      refine wp_pure ⟨?_, rfl⟩
      have set := @contents_setRaw V c p { s with db := db } row (lookup.trans found) doc.raw
      rw [contents] at set
      refine set.trans ?_
      dsimp only [Option.map_some]
      rw [if_pos (show row.unmarked.hash = _ from unchanged)]
    · have classified : Store.classify (some row) (env.contentHash doc.indexedText) ≠ .unchanged := by
        rw [show Store.classify (some row) (env.contentHash doc.indexedText) = .updated from if_neg unchanged]
        intro impossible
        cases impossible
      rw [if_neg classified]
      apply write
      obtain ⟨id', rows⟩ := @contents_updated V c p { s with db := db } _ _ _ _ _ (lookup.trans found) run
      have merged := @Contents.amend_amend c p s.contents
        (fun row => { row with title := doc.title, hash := env.contentHash doc.indexedText, active := true })
        (fun row => { row with raw := doc.raw }) fun _ => rfl
      rw [rows, contents, id', merged]
      dsimp only [Option.map_some]
      rw [if_neg (show row.unmarked.hash ≠ _ from unchanged)]
      rfl

theorem wp_visit (cache : List (String × FileStat)) (file : WalkedFile) (tally : UpdateTally) (s : Store V) :
    wp Faults.calm (indexFile env c cache file tally)
      (Ends.only fun _ t => t.contents = s.contents.visit env c cache file ∧ t.hnswDirty = s.hnswDirty) s := by
  unfold indexFile Contents.visit
  by_cases hit : cached cache file = true
  · rw [if_pos hit, if_pos hit]
    exact wp_pure ⟨rfl, rfl⟩
  · rw [if_neg hit, if_neg hit]
    cases file.prepared with
    | error reason => exact wp_pure ⟨rfl, rfl⟩
    | ok doc =>
      refine wp_bind (wp_attempt (wp_mono wp_index_contents ?_ (fun _ _ => False.elim) fun _ => False.elim))
      intro outcome t indexed
      refine wp_bind (Store.wp_sqlExecute ?_ False.elim False.elim)
      simp only [List.append_nil]
      refine wp_pure ⟨?_, indexed.2⟩
      rw [contents_setStat, indexed.1]

theorem wp_visits (cache : List (String × FileStat)) (files : List WalkedFile) (tally : UpdateTally) (s : Store V) :
    wp Faults.calm (indexFiles env c cache files tally)
      (Ends.only fun r t => r.2 = false ∧ t.contents = files.foldl (Contents.visit env c cache) s.contents ∧
        t.hnswDirty = s.hnswDirty) s := by
  induction files generalizing tally s with
  | nil => exact wp_pure ⟨rfl, rfl, rfl⟩
  | cons file files ih =>
    unfold indexFiles
    refine wp_bind (wp_poll ?_ False.elim False.elim)
    refine wp_bind (wp_mono (wp_visit cache file tally s) ?_ (fun _ _ => False.elim) fun _ => False.elim)
    intro tally' t visited
    refine wp_mono (ih tally' t) ?_ (fun _ _ => False.elim) fun _ => False.elim
    intro r u rest
    rw [visited.1, visited.2] at rest
    exact rest

theorem contents_missing (present : List String) :
    s.db.missingDocuments c present = s.contents.missing c present := by
  unfold Db.missingDocuments Contents.missing Table.select
  change _ = ((s.db.documents.rows.map Document.unmarked).filter _).map _
  rw [List.filter_map, List.map_map]
  rfl

theorem contents_deactivated (chunks : List (List String)) (s : Store V) :
    (Store.deactivated c s chunks).contents = { s.contents with
      rows := s.contents.rows.map fun row =>
        if row.collection = c ∧ row.path ∈ chunks.flatten then { row with active := false } else row } := by
  induction chunks generalizing s with
  | nil =>
    have same := List.map_congr_left (l := s.contents.rows) (f := fun row : Document =>
      if row.collection = c ∧ row.path ∈ ([] : List (List String)).flatten then { row with active := false } else row)
      (g := id) fun row _ => if_neg fun both => List.not_mem_nil both.2
    rw [same, List.map_id]
    rfl
  | cons chunk chunks ih =>
    rw [Store.deactivated_cons, ih]
    have first : (Store.deactivated c s [chunk]).contents.rows = s.contents.rows.map fun row =>
        if row.collection = c ∧ row.path ∈ chunk then { row with active := false } else row := by
      change (s.db.documents.rows.map _).map _ = (s.db.documents.rows.map _).map _
      rw [List.map_map, List.map_map]
      apply List.map_congr_left
      intro row _
      have plain : (row.unmarked.collection = c ∧ row.unmarked.path ∈ chunk) ↔ (row.collection = c ∧ row.path ∈ chunk) :=
        Iff.rfl
      simp only [Function.comp_apply]
      by_cases here : row.collection = c ∧ row.path ∈ chunk
      · rw [if_pos here, if_pos (plain.mpr here)]
        rfl
      · rw [if_neg here, if_neg fun stands => here (plain.mp stands)]
    rw [first, List.map_map]
    simp only [Contents.mk.injEq]
    refine ⟨List.map_congr_left fun row _ => ?_, rfl, rfl⟩
    simp only [Function.comp_apply]
    by_cases name : row.collection = c <;> by_cases head : row.path ∈ chunk <;>
      by_cases tail : row.path ∈ chunks.flatten <;> simp [name, head, tail]

theorem wp_sweep_contents {walk : Walk} (some : walk.files ≠ []) (s : Store V) : wp Faults.calm (pruneMissing env c walk)
    (Ends.only fun _ t => t.contents = s.contents.sweep env c walk.paths ∧ t.hnswDirty = s.hnswDirty) s := by
  unfold pruneMissing
  rw [if_neg (by simpa using some)]
  refine wp_bind (Store.wp_deactivateMissing ?_ False.elim False.elim)
  intro chunks all
  rw [contents_missing] at all ⊢
  refine wp_bind (wp_forEach (fun rest (t : Store V) => t.hnswDirty = s.hnswDirty ∧ ∃ done, done ++ rest =
    s.contents.missing c walk.paths ∧ t.contents = ⟨(Store.deactivated c s chunks).contents.rows, s.contents.sequence,
      done.foldl (fun fts p => fts.deleted env (filepath c p)) s.fts⟩) ?_ ?_ _ _ ⟨rfl, [], rfl, ?_⟩)
  · intro path rest t here
    obtain ⟨dirty, done, split, contents⟩ := here
    refine Store.wp_removeStaleEntry ?_ False.elim False.elim
    refine ⟨dirty, done ++ [path], by rw [← split, List.append_assoc, List.singleton_append], ?_⟩
    have fts : t.fts = done.foldl (fun fts p => fts.deleted env (filepath c p)) s.fts := congrArg Contents.fts contents
    have rows : t.contents.rows = (Store.deactivated c s chunks).contents.rows := by rw [contents]
    have sequence : t.contents.sequence = s.contents.sequence := by rw [contents]
    rw [List.foldl_append, ← fts, ← rows, ← sequence]
    rfl
  · intro t here
    obtain ⟨dirty, done, split, contents⟩ := here
    rw [List.append_nil] at split
    refine wp_pure ⟨?_, dirty⟩
    rw [contents, contents_deactivated, all, split]
    rfl
  · rw [contents_deactivated]
    rfl

/-- An undisturbed pass makes of the contents what `Contents.pass` does. -/
theorem wp_pass_contents {full : Bool} {hookFailure : Option String} {walk : Walk} (clean : s.hnswDirty = false) :
    wp Faults.calm (updateOneCollection env c full (.walked hookFailure walk))
      (Ends.only fun _ t => t.contents =
        s.contents.pass env c (if full then [] else s.db.loadDocStatCache c) walk) s := by
  unfold updateOneCollection
  refine wp_bind (wp_query ?_)
  generalize (if full then [] else s.db.loadDocStatCache c) = cache
  refine wp_bind (wp_mono (wp_visits cache walk.files _ s) ?_ (fun _ _ => False.elim) fun _ => False.elim)
  intro r t visited
  obtain ⟨tally, stopped⟩ := r
  obtain ⟨going, contents, dirty⟩ := visited
  dsimp only at going
  subst going
  have finish : ∀ (u : Store V) (o : CollectionOutcome), u.hnswDirty = false → u.contents.commit =
      s.contents.pass env c cache walk → wp Faults.calm (do Store.flush; pure o : Command V CollectionOutcome)
        (Ends.only fun _ t => t.contents = s.contents.pass env c cache walk) u := by
    intro u o cleanU same
    refine wp_bind (Store.wp_flush (wp_pure ?_) ?_ False.elim False.elim False.elim)
    · rw [Store.flushed, if_neg (by simp [cleanU]), ← same]
      unfold Store.settled Contents.commit
      by_cases writer : u.fts.writer = true
      · rw [if_pos writer, if_pos (show u.contents.fts.writer = true from writer)]
        rfl
      · rw [if_neg writer, if_neg (show ¬ u.contents.fts.writer = true from writer)]
        rfl
    · intro dirtyU
      rw [cleanU] at dirtyU
      cases dirtyU
  by_cases none : walk.files = []
  · have nothing : (pruneMissing env c walk : Command V Nat) = pure 0 := by
      unfold pruneMissing
      exact if_pos (by rw [none, List.isEmpty_nil])
    refine wp_bind ?_
    rw [nothing]
    refine wp_pure (finish t _ (dirty.trans clean) ?_)
    rw [contents]
    dsimp only [Contents.pass]
    rw [if_pos (by rw [none, List.isEmpty_nil])]
  · refine wp_bind (wp_mono (wp_sweep_contents none t) ?_ (fun _ _ => False.elim) fun _ => False.elim)
    intro removed u swept
    refine finish u _ (swept.2.trans (dirty.trans clean)) ?_
    rw [swept.1, contents]
    dsimp only [Contents.pass]
    rw [if_neg (by simpa using none)]

end Rqmd
