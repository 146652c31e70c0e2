import Rqmd.Backing
import Rqmd.Commands

/-! One document through the update commands. Its row changes at most once in a pass, and then as an edit changes
it; nothing else a pass does touches the row, the vectors or the rules. -/

namespace Rqmd
open Interrupt

variable {V : Type} {env : Env V} {c d : CollectionName} {p q : String} {u s t : Store V}

namespace Db

variable {db after : Db}

/-- What the row of a document says of its texts. -/
structure Trail where
  hash : String
  prevHash : Option String
  active : Bool
deriving DecidableEq

def trail (row : Document) : Trail := ⟨row.hash, row.prevHash, row.active⟩

def trailAt (db : Db) (c : CollectionName) (p : String) : Option Trail := (db.getDocumentByFilepath c p).map trail

/-- The row after an edit to the text with this hash. -/
def edited (db : Db) (old : Option Trail) (hash : String) : Trail :=
  ⟨hash, old.bind fun t =>
    if db.hashHasAnyVector hash then none else if db.hashHasAnyVector t.hash then some t.hash else t.prevHash, true⟩

/-- What SQLite's `length` counts of a text. -/
def beforeNul (text : String) : List Char := text.toList.takeWhile (· ≠ Char.ofNat 0)

/-- An edit to this text clears the mark of a document that has a donor to name: SQLite's `length` stops at the
NUL the text begins with. -/
def DropsDonor (env : Env V) (db : Db) (c : CollectionName) (p text : String) : Prop :=
  beforeNul text = [] ∧ db.hashHasAnyVector (env.contentHash text) = false ∧
    ∃ old, db.trailAt c p = some old ∧ old.hash ≠ env.contentHash text ∧
      (db.hashHasAnyVector old.hash = true ∨ old.prevHash ≠ none)

/-- Every text stands under its hash. -/
def Hashed (env : Env V) (db : Db) : Prop := ∀ row ∈ db.content, row.hash = env.contentHash row.doc

/-- No rule keeps a document from being embedded. -/
def Ruleless (db : Db) : Prop := ∀ col ∈ db.collections, col.embedIgnore = [] ∧ col.embedMaxBytes = none

theorem trailAt_mapDocuments (f : Document → Document)
    (same : ∀ d, (f d).id = d.id ∧ (f d).collection = d.collection ∧ (f d).path = d.path)
    (hash : ∀ d, (f d).hash = d.hash) (blind : ∀ d, trail (f d) = trail d) :
    (db.mapDocuments f same hash).trailAt c p = db.trailAt c p := by
  unfold trailAt
  rw [lookup_mapDocuments, Option.map_map]
  congr 1
  funext row
  exact blind row

@[simp] theorem trailAt_setDocumentRaw (id : Nat) (raw : String) : (db.setDocumentRaw id raw).trailAt c p = db.trailAt c p :=
  trailAt_mapDocuments _ _ _ fun d => by split <;> rfl

@[simp] theorem trailAt_setDocumentStat (d : CollectionName) (q : String) (stat : Option FileStat) :
    (db.setDocumentStat d q stat).trailAt c p = db.trailAt c p :=
  trailAt_mapDocuments _ _ _ fun d => by split <;> rfl

@[simp] theorem trailAt_upsertContent (hash doc : String) : (db.upsertContent hash doc).trailAt c p = db.trailAt c p := by
  simp [trailAt]

theorem trailAt_deactivate {paths : List String} (spared : d = c → db.trailAt c p ≠ none → p ∉ paths) :
    (db.deactivate d paths).trailAt c p = db.trailAt c p := by
  unfold trailAt deactivate
  rw [lookup_mapDocuments]
  cases found : db.getDocumentByFilepath c p with
  | none => rfl
  | some row =>
    obtain ⟨-, rfl, rfl⟩ := mem_lookup found
    have apart : ¬ (row.collection = d ∧ row.path ∈ paths) := by
      rintro ⟨same, listed⟩
      exact spared same.symm (by simp [trailAt, found]) listed
    simp [apart]

theorem hashed_upsertContent (hashed : db.Hashed env) (text : String) :
    (db.upsertContent (env.contentHash text) text).Hashed env := by
  intro row member
  rcases (unmoved_upsertContent (env.contentHash text) text).content row member with old | rfl
  · exact hashed row old
  · rfl

/-- The content row an edit writes is the one its text has. -/
theorem contentHasLength_upsertContent (hash text : String) :
    (db.upsertContent hash text).contentHasLength hash = !(beforeNul text).isEmpty := by
  have known := @upsertContent_known db hash text
  obtain ⟨row, member, same⟩ := Table.any_eq_true.mp known
  have whose : ∀ other ∈ (db.upsertContent hash text).content, other.hash = hash → other.doc = text := by
    intro other inside equal
    unfold upsertContent at inside
    split at inside
    · next fresh =>
      rcases (Table.mem_append fresh).mp inside with old | rfl
      · exact absurd equal (fresh other old)
      · rfl
    · obtain ⟨old, stored, rfl⟩ : ∃ old ∈ db.content.rows,
          (if old.hash = hash then { old with doc := text } else old) = other := List.mem_map.mp inside
      by_cases here : old.hash = hash
      · simp only [if_pos here]
      · rw [if_neg here] at equal
        exact absurd equal here
  unfold contentHasLength
  rw [Bool.eq_iff_iff, Table.any_eq_true]
  constructor
  · intro held
    obtain ⟨other, inside, both⟩ := held
    rw [Bool.and_eq_true, beq_iff_eq] at both
    rw [← whose other inside both.1]
    exact both.2
  · intro long
    refine ⟨row, member, ?_⟩
    rw [Bool.and_eq_true, whose row member (beq_iff_eq.mp same)]
    exact ⟨same, long⟩

@[simp] theorem hashHasAnyVector_upsertContent (hash text other : String) :
    (db.upsertContent hash text).hashHasAnyVector other = db.hashHasAnyVector other := by
  have vectors := (@unmoved_upsertContent db hash text).vectors
  simp only [hashHasAnyVector, vectors]

/-- What `upsert_document` does to the row when the text has changed. -/
theorem trailAt_upserted {title text : String} {id : Nat}
    (done : Upserted (db.upsertContent (env.contentHash text) text) c p title (env.contentHash text) id after)
    (changed : ∀ old, db.trailAt c p = some old → old.hash ≠ env.contentHash text) (keeps : ¬ db.DropsDonor env c p text) :
    after.trailAt c p = some (db.edited (db.trailAt c p) (env.contentHash text)) := by
  obtain ⟨row, found, -, hash, active, -⟩ := done.row
  have mark := done.mark row found
  rw [lookup_upsertContent] at mark
  have shape : after.trailAt c p = some ⟨env.contentHash text, row.prevHash, true⟩ := by
    simp [trailAt, found, trail, hash, active]
  rw [shape, mark]
  unfold edited
  cases before : db.getDocumentByFilepath c p with
  | none => simp [trailAt, before]
  | some old =>
    have trailed : db.trailAt c p = some (trail old) := by simp [trailAt, before]
    have apart : old.hash ≠ env.contentHash text := changed _ trailed
    simp only [trailed, Option.bind_some, supersede, if_neg apart, hashHasAnyVector_upsertContent,
      contentHasLength_upsertContent, trail, Bool.not_eq_false', List.isEmpty_iff]
    by_cases own : db.hashHasAnyVector (env.contentHash text) = true
    · simp [own]
    · by_cases nul : beforeNul text = []
      · -- the text has no length for SQLite, but there is no mark to lose
        rw [Bool.not_eq_true] at own
        have nothing : db.hashHasAnyVector old.hash = false ∧ old.prevHash = none := by
          by_contra some
          refine keeps ⟨nul, own, _, trailed, apart, ?_⟩
          by_cases known : db.hashHasAnyVector old.hash = true
          · exact .inl known
          · right
            intro none
            exact some ⟨by simpa using known, none⟩
        simp [own, nul, nothing]
      · simp [own, nul]

theorem trailAt_upserted_other {title text hash : String} {id : Nat}
    (done : Upserted (db.upsertContent hash text) d q title hash id after) (apart : ¬ (d = c ∧ q = p)) :
    after.trailAt c p = db.trailAt c p := by
  have elsewhere : (c, p) ≠ (d, q) := by
    intro same
    rw [Prod.mk.injEq] at same
    exact apart ⟨same.1.symm, same.2.symm⟩
  unfold trailAt
  rw [done.others c p elsewhere, lookup_upsertContent]

end Db

/-! ### The statements of a pass -/

namespace Store

/-- Where an update that started at `u` stands. As long as the document is `fresh` its row is what it was; later it may
have been edited to one of the offered texts. -/
structure Aged (env : Env V) (c : CollectionName) (p : String) (offered : String → Prop) (u : Store V) (fresh : Prop)
    (t : Store V) : Prop where
  vectors : t.db.vectors = u.db.vectors
  index : t.hnsw = u.hnsw
  file : t.hnswFile.getD .empty = u.hnsw.inner
  hashed : t.db.Hashed env
  ruleless : t.db.Ruleless
  trail : t.db.trailAt c p = u.db.trailAt c p ∨ ¬ fresh ∧ ∃ text, offered text ∧
    (∀ old, u.db.trailAt c p = some old → old.hash ≠ env.contentHash text) ∧
      t.db.trailAt c p = some (u.db.edited (u.db.trailAt c p) (env.contentHash text))

namespace Aged

variable {offered : String → Prop} {fresh later : Prop}

theorem mono (here : Aged env c p offered u fresh t) (wide : later → fresh) : Aged env c p offered u later t :=
  ⟨here.vectors, here.index, here.file, here.hashed, here.ruleless,
    here.trail.imp_right fun edit => ⟨fun still => edit.1 (wide still), edit.2⟩⟩

theorem same (here : Aged env c p offered u fresh t) (still : fresh) : t.db.trailAt c p = u.db.trailAt c p :=
  here.trail.resolve_right fun edit => edit.1 still

/-- A change that leaves the row alone. -/
theorem withDb {db : Db} {fts : FtsIndex} {log : List Event} (here : Aged env c p offered u fresh t)
    (vectors : db.vectors = t.db.vectors) (hashed : db.Hashed env) (ruleless : db.Ruleless)
    (trail : db.trailAt c p = t.db.trailAt c p) :
    Aged env c p offered u fresh { t with db := db, fts := fts, log := log } := by
  refine ⟨vectors.trans here.vectors, here.index, here.file, hashed, ruleless, ?_⟩
  change db.trailAt c p = _ ∨ _ ∧ ∃ text, _ ∧ _ ∧ db.trailAt c p = _
  rw [trail]
  exact here.trail

theorem rowsAndVectors : RowsAndVectors (Aged env c p offered u fresh) :=
  ⟨fun _ _ _ _ here => ⟨here.vectors, here.index, here.file, here.hashed, here.ruleless, here.trail⟩⟩

theorem logged (here : Aged env c p offered u fresh t) (log : List Event) :
    Aged env c p offered u fresh { t with log := log } :=
  ⟨here.vectors, here.index, here.file, here.hashed, here.ruleless, here.trail⟩

theorem setRaw (here : Aged env c p offered u fresh t) (id : Nat) (raw : String) (log : List Event) :
    Aged env c p offered u fresh { t with db := t.db.setDocumentRaw id raw, log := log } :=
  here.withDb rfl here.hashed here.ruleless (Db.trailAt_setDocumentRaw id raw)

theorem setStat (here : Aged env c p offered u fresh t) (d : CollectionName) (q : String) (stat : Option FileStat)
    (log : List Event) : Aged env c p offered u fresh { t with db := t.db.setDocumentStat d q stat, log := log } :=
  here.withDb rfl here.hashed here.ruleless (Db.trailAt_setDocumentStat d q stat)

/-- The row of a file is written; it is the document's own, still fresh, or another's. -/
theorem upserted {db : Db} {title text : String} {id : Nat} (log : List Event) (here : Aged env c p offered u fresh t)
    (mine : d = c ∧ q = p → fresh ∧ offered text ∧ ¬ u.db.DropsDonor env c p text)
    (changed : classify (t.db.getDocumentByFilepath d q) (env.contentHash text) ≠ .unchanged)
    (done : Db.Upserted (t.db.upsertContent (env.contentHash text) text) d q title (env.contentHash text) id db) :
    Aged env c p offered u (fresh ∧ ¬ (d = c ∧ q = p)) { t with db := db, log := log } := by
  have beside := @Db.beside_upsertContent t.db (env.contentHash text) text
  have hashed : db.Hashed env := by
    intro row member
    rw [done.content] at member
    exact Db.hashed_upsertContent here.hashed text row member
  have ruleless : db.Ruleless := by
    unfold Db.Ruleless
    rw [done.collections, beside.collections]
    exact here.ruleless
  have vectors : db.vectors = t.db.vectors := done.vectors.trans beside.vectors
  by_cases own : d = c ∧ q = p
  · obtain ⟨still, offer, keeps⟩ := mine own
    obtain ⟨rfl, rfl⟩ := own
    have fixed := here.same still
    have apart : ∀ old, t.db.trailAt d q = some old → old.hash ≠ env.contentHash text := by
      intro old found equal
      obtain ⟨row, inside, rfl⟩ := Option.map_eq_some_iff.mp found
      exact changed (classify_unchanged.mpr ⟨Db.view row, by simp [Db.rowAt, inside], equal⟩)
    have safe : ¬ t.db.DropsDonor env d q text := by
      unfold Db.DropsDonor Db.hashHasAnyVector at keeps ⊢
      rwa [fixed, here.vectors]
    refine ⟨vectors.trans here.vectors, here.index, here.file, hashed, ruleless, .inr ⟨fun both => both.2 ⟨rfl, rfl⟩, text, offer, ?_, ?_⟩⟩
    · rw [← fixed]
      exact apart
    · have edit := Db.trailAt_upserted done apart safe
      unfold Db.edited Db.hashHasAnyVector at edit ⊢
      rwa [fixed, here.vectors] at edit
  · exact (here.mono And.left).withDb vectors hashed ruleless (Db.trailAt_upserted_other done own)

end Aged

variable {offered : String → Prop} {fresh : Prop}

theorem wp_indexDocument_aged {doc : PreparedDoc} (here : Aged env c p offered u fresh s)
    (mine : d = c ∧ q = p → fresh ∧ offered doc.indexedText ∧ ¬ u.db.DropsDonor env c p doc.indexedText) :
    wp Faults.any (indexDocumentFtsOnlyWithRaw env d q doc)
      (Ends.all (Aged env c p offered u (fresh ∧ ¬ (d = c ∧ q = p)))) s := by
  have start : Aged env c p offered u (fresh ∧ ¬ (d = c ∧ q = p)) s := here.mono And.left
  have vectors := (@Db.beside_upsertContent s.db (env.contentHash doc.indexedText) doc.indexedText).vectors
  have collections := (@Db.beside_upsertContent s.db (env.contentHash doc.indexedText) doc.indexedText).collections
  have content : Aged env c p offered u (fresh ∧ ¬ (d = c ∧ q = p))
      { s with db := s.db.upsertContent (env.contentHash doc.indexedText) doc.indexedText } := by
    refine start.withDb vectors (Db.hashed_upsertContent here.hashed doc.indexedText) ?_ (Db.trailAt_upsertContent _ _)
    unfold Db.Ruleless
    rw [collections]
    exact here.ruleless
  unfold indexDocumentFtsOnlyWithRaw
  refine wp_bind (wp_query ?_)
  refine wp_bind (wp_sqlExecute ?_ (fun _ _ => start) fun _ => start)
  simp only [List.append_nil]
  by_cases same : classify (s.db.getDocumentByFilepath d q) (env.contentHash doc.indexedText) = .unchanged
  · rw [if_pos same]
    refine wp_bind (wp_query ?_)
    simp only [Db.lookup_upsertContent]
    cases s.db.getDocumentByFilepath d q with
    | none => exact wp_throw content
    | some existing =>
      refine wp_bind (wp_sqlExecute ?_ (fun _ _ => content) fun _ => content)
      exact wp_pure (content.setRaw existing.id doc.raw _)
  · rw [if_neg same]
    refine wp_bind (wp_sqlWrite ?_ (fun _ _ => content) (fun _ _ => content) fun _ => content)
    intro docId db result
    obtain ⟨id, after, run, upserted⟩ :=
      @Db.upsertDocument_ok (s.db.upsertContent (env.contentHash doc.indexedText) doc.indexedText) d q doc.title _
        (Db.upsertContent_known (env.contentHash doc.indexedText) doc.indexedText)
    rw [run] at result
    obtain ⟨rfl, rfl⟩ := Prod.mk.inj (Except.ok.inj result)
    have row := here.upserted (s.log ++ [.documentWritten id]) mine same upserted
    have rest : Preserves Faults.any (Aged env c p offered u (fresh ∧ ¬ (d = c ∧ q = p))) (do
        sqlExecute "set document raw" (fun db => db.setDocumentRaw id doc.raw) []
        addDocumentWithFrontmatter env (filepath d q) doc.title doc.indexedText (env.frontmatterTerms doc.raw) id
        pure (classify (s.db.getDocumentByFilepath d q) (env.contentHash doc.indexedText)) : Command V IndexOutcome) := by
      refine .bind (fun t aged => wp_sqlExecute (aged.setRaw id doc.raw _) (fun _ _ => aged) fun _ => aged) fun _ => ?_
      exact .bind (preserves_addDocument Aged.rowsAndVectors.ftsBlind) fun _ => .pure _
    exact rest _ row

/-- What follows the indexing of a file, in `update` and in `collection add`. -/
theorem wp_indexed_aged {doc : PreparedDoc} {stat : Option FileStat} {β : Type} {refused : Failure → β}
    {done : IndexOutcome → β}
    (here : Aged env c p offered u fresh s)
    (mine : d = c ∧ q = p → fresh ∧ offered doc.indexedText ∧ ¬ u.db.DropsDonor env c p doc.indexedText) :
    wp Faults.any (do
      match ← (indexDocumentFtsOnlyWithRaw env d q doc).attempt with
      | .error e =>
        warn
        pure (refused e)
      | .ok outcome =>
        sqlExecute "record document stat" (fun db => db.setDocumentStat d q stat) []
        pure (done outcome) : Command V β)
      (Ends.all (Aged env c p offered u (fresh ∧ ¬ (d = c ∧ q = p)))) s := by
  have indexed := @wp_indexDocument_aged V env c d p q u s offered fresh doc here mine
  refine wp_bind (wp_attempt (wp_mono indexed (fun outcome t aged => ?_) (fun e t aged => ?_) fun _ => id))
  · refine wp_bind (wp_sqlExecute ?_ (fun _ _ => aged) fun _ => aged)
    exact wp_pure (aged.setStat d q stat _)
  · exact wp_bind (wp_modify (wp_pure (aged.logged _)))

end Store

/-! ### The files of a walk -/

variable {offered : String → Prop} {fresh : Prop}

/-- What a walk of the document's collection must offer: the document's file, with texts an edit may take it to. -/
structure Walk.Offers (env : Env V) (c : CollectionName) (p : String) (offered : String → Prop) (db : Db) (walk : Walk) :
    Prop where
  texts : ∀ file ∈ walk.files, file.relPath = p → ∀ doc, file.prepared = .ok doc →
    offered doc.indexedText ∧ ¬ db.DropsDonor env c p doc.indexedText
  present : db.trailAt c p ≠ none → p ∈ walk.paths
  source : ∀ text, offered text → p ∈ walk.paths

theorem wp_indexFile_aged {cache : List (String × FileStat)} {file : WalkedFile} {tally : UpdateTally}
    (here : Store.Aged env c p offered u fresh s)
    (mine : d = c ∧ file.relPath = p → fresh ∧ ∀ doc, file.prepared = .ok doc →
      offered doc.indexedText ∧ ¬ u.db.DropsDonor env c p doc.indexedText) :
    wp Faults.any (indexFile env d cache file tally)
      (Ends.all (Store.Aged env c p offered u (fresh ∧ ¬ (d = c ∧ file.relPath = p)))) s := by
  unfold indexFile
  refine wp_ite ?_ ?_
  · exact wp_pure (here.mono And.left)
  · cases prepared : file.prepared with
    | error reason => exact wp_pure (here.mono And.left)
    | ok doc =>
      exact Store.wp_indexed_aged here fun own => ⟨(mine own).1, (mine own).2 doc prepared⟩

/-- The loop: a document whose file is still to come is fresh. -/
theorem wp_indexFiles_aged {cache : List (String × FileStat)} (files : List WalkedFile) :
    ∀ (tally : UpdateTally) (s : Store V), (files.map WalkedFile.relPath).Nodup →
    Store.Aged env c p offered u (fresh ∧ (d = c → p ∈ files.map WalkedFile.relPath)) s → (d = c → fresh) →
    (d = c → ∀ file ∈ files, file.relPath = p → ∀ doc, file.prepared = .ok doc →
      offered doc.indexedText ∧ ¬ u.db.DropsDonor env c p doc.indexedText) →
    wp Faults.any (indexFiles env d cache files tally) (Ends.all (Store.Aged env c p offered u (fresh ∧ d ≠ c))) s := by
  induction files with
  | nil =>
    intro tally s _ here _ _
    exact wp_pure (here.mono fun both => ⟨both.1, fun own => absurd own both.2⟩)
  | cons file files ih =>
    intro tally s distinct here still texts
    rw [List.map_cons, List.nodup_cons] at distinct
    have onward : ∀ t, Store.Aged env c p offered u (fresh ∧ (d = c → p ∈ (file :: files).map WalkedFile.relPath)) t →
        Store.Aged env c p offered u (fresh ∧ d ≠ c) t := fun t aged =>
      aged.mono fun both => ⟨both.1, fun own => absurd own both.2⟩
    have stopped : ∀ t, Store.Aged env c p offered u ((fresh ∧ (d = c → p ∈ (file :: files).map WalkedFile.relPath)) ∧
        ¬ (d = c ∧ file.relPath = p)) t → Store.Aged env c p offered u (fresh ∧ d ≠ c) t := fun t aged =>
      aged.mono fun both => ⟨⟨both.1, fun own => absurd own both.2⟩, fun own => both.2 own.1⟩
    unfold indexFiles
    refine wp_bind (wp_poll ?_ (fun _ => wp_pure (onward s here)) fun _ => onward s here)
    have own : d = c ∧ file.relPath = p → (fresh ∧ (d = c → p ∈ (file :: files).map WalkedFile.relPath)) ∧
        ∀ doc, file.prepared = .ok doc → offered doc.indexedText ∧ ¬ u.db.DropsDonor env c p doc.indexedText := by
      intro own
      refine ⟨⟨still own.1, fun _ => ?_⟩, texts own.1 file List.mem_cons_self own.2⟩
      rw [List.map_cons, own.2]
      exact List.mem_cons_self
    refine wp_bind (wp_mono (wp_indexFile_aged here own) (fun tally t aged => ?_) (fun _ => stopped) stopped)
    refine ih tally t distinct.2 (aged.mono fun both => ⟨⟨both.1, fun mine => ?_⟩, fun mine => ?_⟩) still
      fun mine other later => texts mine other (List.mem_cons_of_mem _ later)
    · rw [List.map_cons]
      exact List.mem_cons_of_mem _ (both.2 mine)
    · exact distinct.1 (mine.2 ▸ both.2 mine.1)

/-! ### The sweep -/

namespace Store

theorem Aged.deactivate {paths : List String} (here : Aged env c p offered u fresh t)
    (spared : d = c → t.db.trailAt c p ≠ none → p ∉ paths) (log : List Event) :
    Aged env c p offered u fresh { t with db := t.db.deactivate d paths, log := log } :=
  here.withDb rfl here.hashed here.ruleless (Db.trailAt_deactivate spared)

theorem Aged.deactivated (chunks : List (List String)) : ∀ {t : Store V}, Aged env c p offered u fresh t →
    (d = c → t.db.trailAt c p ≠ none → p ∉ chunks.flatten) → Aged env c p offered u fresh (deactivated d t chunks) := by
  induction chunks with
  | nil =>
    intro t here _
    unfold Store.deactivated
    exact here.logged _
  | cons chunk chunks ih =>
    intro t here spared
    rw [deactivated_cons]
    have first : ∀ paths : List String, (∀ path ∈ paths, path ∈ (chunk :: chunks).flatten) → d = c → t.db.trailAt c p ≠ none → p ∉ paths :=
      fun paths inside own recorded listed => spared own recorded (inside p listed)
    have head : ∀ path ∈ chunk, path ∈ (chunk :: chunks).flatten := by
      intro path member
      simp [member]
    have tail : ∀ path ∈ chunks.flatten, path ∈ (chunk :: chunks).flatten := by
      intro path member
      rw [List.flatten_cons]
      exact List.mem_append_right _ member
    have same : (t.db.deactivate d chunk).trailAt c p = t.db.trailAt c p := Db.trailAt_deactivate (first chunk head)
    have next : Aged env c p offered u fresh (Store.deactivated d t [chunk]) := here.deactivate (first chunk head) _
    refine ih next fun own recorded => first chunks.flatten tail own ?_
    change (t.db.deactivate d chunk).trailAt c p ≠ none at recorded
    rwa [same] at recorded

theorem Aged.flushed (here : Aged env c p offered u fresh t) : Aged env c p offered u fresh t.flushed := by
  refine ⟨?_, ?_, ?_, ?_, ?_, ?_⟩
  · rw [flushed_db]
    exact here.vectors
  · rw [flushed_hnsw]
    exact here.index
  · rcases @flushed_saves V t with same | written
    · rw [same]
      exact here.file
    · rw [written, Option.getD_some, here.index]
  · rw [flushed_db]
    exact here.hashed
  · rw [flushed_db]
    exact here.ruleless
  · rw [flushed_db]
    exact here.trail

end Store

/-! ### The collections -/

/-- The walk does not take the document away. -/
theorem wp_pruneMissing_aged {walk : Walk} (here : Store.Aged env c p offered u fresh s)
    (offers : d = c → walk.Offers env c p offered u.db) :
    wp Faults.any (pruneMissing env d walk) (Ends.ifDone fun _ => Store.Aged env c p offered u fresh) s := by
  unfold pruneMissing
  refine wp_ite (wp_pure here) ?_
  have spared : d = c → s.db.trailAt c p ≠ none → p ∉ s.db.missingDocuments d walk.paths := by
    intro own recorded listed
    have inWalk : p ∈ walk.paths := by
      rcases here.trail with same | ⟨-, text, offer, -⟩
      · exact (offers own).present (same ▸ recorded)
      · exact (offers own).source text offer
    have gone : p ∉ walk.paths := by
      obtain ⟨row, member, rfl⟩ := List.mem_map.mp listed
      simpa using (Bool.and_eq_true_iff.mp (Table.mem_select.mp member).2).2
    exact gone inWalk
  refine wp_bind (Store.wp_deactivateMissing (fun chunks all => ?_) (fun _ _ _ _ _ => trivial) fun _ _ _ _ => trivial)
  have swept : Store.Aged env c p offered u fresh (Store.deactivated d s chunks) :=
    here.deactivated chunks fun own recorded => all.symm ▸ spared own recorded
  have stale : Preserves Faults.any (Store.Aged env c p offered u fresh) (Prog.forEach
      (fun path => Store.removeStaleEntry env (filepath d path)) (s.db.missingDocuments d walk.paths)) :=
    Preserves.forEach (fun path => Store.Aged.rowsAndVectors.removeStaleEntry _) _
  exact wp_bind (wp_ifDone (stale _ swept) fun _ _ aged => wp_pure aged)

theorem wp_updateOne_aged {full : Bool} {scan : Scan} (here : Store.Aged env c p offered u fresh s) (still : d = c → fresh)
    (offers : d = c → ∀ hookFailure walk, scan = .walked hookFailure walk → walk.Offers env c p offered u.db) :
    wp Faults.any (updateOneCollection env d full scan)
      (Ends.ifDone fun _ => Store.Aged env c p offered u (fresh ∧ d ≠ c)) s := by
  have onward : Store.Aged env c p offered u (fresh ∧ d ≠ c) s := here.mono And.left
  cases scan with
  | directoryMissing => exact wp_pure onward
  | hookInterrupted => exact wp_pure onward
  | invalidMask hookFailure => exact wp_pure onward
  | walked hookFailure walk =>
    unfold updateOneCollection
    refine wp_bind (wp_query ?_)
    have files := @wp_indexFiles_aged V env c d p u offered fresh (if full then [] else s.db.loadDocStatCache d) walk.files .start s
      walk.distinct (here.mono And.left) still fun own => (offers own hookFailure walk rfl).texts
    refine wp_bind (wp_ifDone files ?_)
    intro (tally, stopped) t aged
    have flush : ∀ (answer : CollectionOutcome) (v : Store V), Store.Aged env c p offered u (fresh ∧ d ≠ c) v →
        wp Faults.any (do
          Store.flush
          pure answer : Command V CollectionOutcome)
          (Ends.ifDone fun _ => Store.Aged env c p offered u (fresh ∧ d ≠ c)) v :=
      fun answer v aged => wp_bind (Store.wp_flush_done (wp_pure aged.flushed))
    cases stopped with
    | true => exact wp_bind (wp_pure (flush _ t aged))
    | false =>
      refine wp_bind (wp_mono (wp_pruneMissing_aged aged fun own => offers own hookFailure walk rfl) ?_ (fun _ _ _ => trivial)
        fun _ _ => trivial)
      exact fun removed v swept => flush _ v swept

theorem wp_updateEach_aged {full : Bool} {scan : CollectionName → Scan} (cols : List Collection) :
    ∀ (clean : Bool) (s : Store V), (cols.map Collection.name).Nodup →
    Store.Aged env c p offered u (c ∈ cols.map Collection.name) s →
    (∀ hookFailure walk, scan c = .walked hookFailure walk → walk.Offers env c p offered u.db) →
    wp Faults.any (updateEach env full scan cols clean) (Ends.ifDone fun _ => Store.Aged env c p offered u False) s := by
  induction cols with
  | nil =>
    intro clean s _ here _
    exact wp_pure (here.mono False.elim)
  | cons col cols ih =>
    intro clean s distinct here offers
    rw [List.map_cons, List.nodup_cons] at distinct
    unfold updateEach
    refine wp_bind (wp_poll ?_ (fun _ => wp_throw trivial) fun _ => trivial)
    have own : col.name = c → c ∈ (col :: cols).map Collection.name := by
      rintro rfl
      rw [List.map_cons]
      exact List.mem_cons_self
    have one := @wp_updateOne_aged V env c col.name p u s offered _ full (scan col.name) here own fun same => same ▸ offers
    refine wp_bind (wp_mono one (fun outcome t aged => ?_) (fun _ _ _ => trivial) fun _ _ => trivial)
    refine wp_ite (wp_throw trivial) (ih _ t distinct.2 (aged.mono fun later => ⟨?_, ?_⟩) offers)
    · rw [List.map_cons]
      exact List.mem_cons_of_mem _ later
    · intro same
      exact distinct.1 (same ▸ later)

end Rqmd
