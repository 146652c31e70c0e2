import Rqmd.Indexing

/-! What each statement does to the `documents` rows, read through the lookup by path. -/

namespace Rqmd.Db

variable {db after : Db} {c d : CollectionName} {p q : String}

theorem lookup_mem {row : Document} (member : row ∈ db.documents) :
    db.getDocumentByFilepath row.collection row.path = some row := by
  refine Table.find?_eq_some ?_ member (by simp)
  intro a b left right
  simp only [Bool.and_eq_true, beq_iff_eq] at left right
  exact .inr ⟨left.1.trans right.1.symm, left.2.trans right.2.symm⟩

theorem mem_lookup {row : Document} (found : db.getDocumentByFilepath c p = some row) :
    row ∈ db.documents ∧ row.collection = c ∧ row.path = p := by
  obtain ⟨member, hit⟩ := Table.find?_some found
  simp only [Bool.and_eq_true, beq_iff_eq] at hit
  exact ⟨member, hit.1, hit.2⟩

theorem lookup_iff {row : Document} :
    db.getDocumentByFilepath c p = some row ↔ row ∈ db.documents ∧ row.collection = c ∧ row.path = p := by
  refine ⟨mem_lookup, ?_⟩
  rintro ⟨member, rfl, rfl⟩
  exact lookup_mem member

/-- Two rows with one id are one row. -/
theorem same_id {a b : Document} (left : a ∈ db.documents) (right : b ∈ db.documents) (same : a.id = b.id) :
    a = b := Table.eq_of_clash left right (.inl same)

theorem same_filepath {a b : Document} (left : a ∈ db.documents) (right : b ∈ db.documents)
    (same : a.filepath = b.filepath) : a = b :=
  Table.eq_of_clash left right (Document.filepath_clash same)

theorem lookup_mapDocuments (f : Document → Document)
    (same : ∀ d, (f d).id = d.id ∧ (f d).collection = d.collection ∧ (f d).path = d.path)
    (hash : ∀ d, (f d).hash = d.hash) :
    (db.mapDocuments f same hash).getDocumentByFilepath c p = (db.getDocumentByFilepath c p).map f := by
  change List.find? _ (List.map f db.documents.rows) = _
  rw [List.find?_map]
  congr 2
  funext row
  simp only [Function.comp_apply, (same row).2.1, (same row).2.2]

@[simp] theorem documents_upsertContent (hash doc : String) :
    (db.upsertContent hash doc).documents = db.documents := by
  unfold upsertContent
  split <;> rfl

@[simp] theorem lookup_upsertContent (hash doc : String) :
    (db.upsertContent hash doc).getDocumentByFilepath c p = db.getDocumentByFilepath c p := by
  simp [getDocumentByFilepath]

/-- After `upsert_content` the hash has a row, so the document that refers to it can be written. -/
theorem upsertContent_known (hash doc : String) :
    (db.upsertContent hash doc).content.any (·.hash == hash) = true := by
  unfold upsertContent
  split
  · next fresh =>
    exact Table.any_eq_true.mpr ⟨⟨hash, doc⟩, List.mem_append_right _ (List.mem_singleton_self _), by simp⟩
  · next taken =>
    simp only [not_forall, not_not] at taken
    obtain ⟨old, inside, clash⟩ := taken
    have same : old.hash = hash := clash
    refine Table.any_eq_true.mpr ⟨if old.hash = hash then { old with doc := doc } else old,
      List.mem_map.mpr ⟨old, inside, rfl⟩, ?_⟩
    simp [same]

/-- What `upsert_document` did: the row under the path is active with the new hash and keeps its id,
no other row changed, and nothing but `documents` was touched. -/
structure Upserted (db : Db) (c : CollectionName) (p title hash : String) (id : Nat) (after : Db) : Prop where
  row : ∃ row, after.getDocumentByFilepath c p = some row ∧ row.id = id ∧ row.hash = hash ∧
    row.active = true ∧ row.title = title
  mark : ∀ row, after.getDocumentByFilepath c p = some row →
    row.prevHash = (db.getDocumentByFilepath c p).bind fun old => db.supersede old hash
  kept : ∀ old, db.getDocumentByFilepath c p = some old → old.id = id
  fresh : db.getDocumentByFilepath c p = none → id = db.sequence + 1
  others : ∀ d q, (d, q) ≠ (c, p) → after.getDocumentByFilepath d q = db.getDocumentByFilepath d q
  content : after.content = db.content
  vectors : after.vectors = db.vectors
  collections : after.collections = db.collections
  config : after.config = db.config
  nextVid : after.nextVid = db.nextVid
  sequence : db.sequence ≤ after.sequence

theorem upsertDocument_ok {title hash : String} (known : db.content.any (·.hash == hash) = true) :
    ∃ id after, db.upsertDocument c p title hash = .ok (id, after) ∧ Upserted db c p title hash id after := by
  unfold upsertDocument
  rw [dif_pos known]
  split
  · next old found =>
    obtain ⟨member, name, path⟩ := mem_lookup found
    refine ⟨_, _, rfl, ?_⟩
    have lookup : ∀ d q, List.find? (fun row : Document => row.collection == d && row.path == q)
        (List.map (db.revise c p title hash) db.documents.rows) =
        (db.getDocumentByFilepath d q).map (db.revise c p title hash) := by
      intro d q
      rw [List.find?_map]
      congr 2
      funext row
      simp only [Function.comp_apply, (revise_keys db c p title hash row).2.1,
        (revise_keys db c p title hash row).2.2]
    refine
      { row := ⟨db.revise c p title hash old, ?_, (revise_keys db c p title hash old).1, ?_, ?_, ?_⟩
        mark := ?_, kept := ?_, fresh := ?_, others := ?_, content := rfl, vectors := rfl, collections := rfl
        config := rfl, nextVid := rfl, sequence := le_refl _ }
    · exact (lookup c p).trans (by rw [found]; rfl)
    · simp [revise, name, path]
    · simp [revise, name, path]
    · simp [revise, name, path]
    · intro row same
      have revised : some (db.revise c p title hash old) = some row := by
        rw [← same]
        exact ((lookup c p).trans (by rw [found]; rfl)).symm
      rw [← Option.some.inj revised, found]
      simp [revise, name, path]
    · intro other same
      rw [found] at same
      rw [Option.some.inj same]
    · intro absent
      rw [found] at absent
      cases absent
    · intro d q different
      refine (lookup d q).trans ?_
      cases row : db.getDocumentByFilepath d q with
      | none => rfl
      | some other =>
        obtain ⟨_, name', path'⟩ := mem_lookup row
        have elsewhere : ¬ (other.collection = c ∧ other.path = p) := by
          rintro ⟨rfl, rfl⟩
          exact different (by rw [← name', ← path'])
        simp [revise, elsewhere]
  · next absent =>
    refine ⟨_, _, rfl, ?_⟩
    refine
      { row := ⟨⟨db.sequence + 1, c, p, title, hash, true, "", none, none⟩, ?_, rfl, rfl, rfl, rfl⟩
        mark := ?_, kept := ?_, fresh := fun _ => rfl, others := ?_, content := rfl, vectors := rfl
        collections := rfl, config := rfl, nextVid := rfl, sequence := Nat.le_succ _ }
    · exact lookup_iff.mpr ⟨List.mem_append_right _ (List.mem_singleton_self _), rfl, rfl⟩
    · intro row found
      have new := (mem_lookup found).1
      rcases List.mem_append.mp new with before | here
      · have old := lookup_iff.mpr ⟨before, (mem_lookup found).2⟩
        rw [absent] at old
        cases old
      · rw [List.mem_singleton.mp here, absent]
        rfl
    · intro old found
      rw [absent] at found
      cases found
    · intro d q different
      change List.find? _ (db.documents.rows ++ [_]) = _
      rw [List.find?_append]
      have miss : (c == d && p == q) = false := by
        by_contra hit
        simp only [Bool.not_eq_false, Bool.and_eq_true, beq_iff_eq] at hit
        exact different (by rw [hit.1, hit.2])
      simp [miss, getDocumentByFilepath, Table.find?]

theorem upserted_of_ok {path title hash : String} {id : Nat}
    (written : db.upsertDocument c path title hash = .ok (id, after)) : Upserted db c path title hash id after := by
  by_cases known : db.content.any (·.hash == hash) = true
  · obtain ⟨other, later, ok, done⟩ := @upsertDocument_ok db c path title hash known
    rw [ok] at written
    cases written
    exact done
  · unfold upsertDocument at written
    rw [dif_neg known] at written
    cases written

/-- What a row says of its file: its id, the hash of its text, and whether the file is still there. -/
structure RowView where
  id : Nat
  hash : String
  active : Bool
deriving DecidableEq

def view (row : Document) : RowView := ⟨row.id, row.hash, row.active⟩

def rowAt (db : Db) (c : CollectionName) (p : String) : Option RowView := (db.getDocumentByFilepath c p).map view

theorem rowAt_eq_some {v : RowView} : db.rowAt c p = some v ↔
    ∃ row ∈ db.documents, row.collection = c ∧ row.path = p ∧ view row = v := by
  simp only [rowAt, Option.map_eq_some_iff, lookup_iff]
  constructor
  · rintro ⟨row, ⟨member, name, path⟩, same⟩
    exact ⟨row, member, name, path, same⟩
  · rintro ⟨row, member, name, path, same⟩
    exact ⟨row, ⟨member, name, path⟩, same⟩

theorem rowAt_mem {row : Document} (member : row ∈ db.documents) :
    db.rowAt row.collection row.path = some (view row) :=
  rowAt_eq_some.mpr ⟨row, member, rfl, rfl, rfl⟩

/-- An id stands at one path. -/
theorem rowAt_id {v w : RowView} (left : db.rowAt c p = some v) (right : db.rowAt d q = some w)
    (same : v.id = w.id) : c = d ∧ p = q ∧ v = w := by
  obtain ⟨a, inA, rfl, rfl, rfl⟩ := rowAt_eq_some.mp left
  obtain ⟨b, inB, rfl, rfl, rfl⟩ := rowAt_eq_some.mp right
  rw [same_id inA inB same]
  exact ⟨rfl, rfl, rfl⟩

theorem rowAt_bounded {v : RowView} (found : db.rowAt c p = some v) : v.id ≤ db.sequence := by
  obtain ⟨row, member, -, -, rfl⟩ := rowAt_eq_some.mp found
  exact db.bounded row member

/-- A change of documents alone, with at most the content row `stored` written beside it. -/
structure Beside (db : Db) (stored : ContentRow) (after : Db) : Prop where
  vectors : after.vectors = db.vectors
  collections : after.collections = db.collections
  config : after.config = db.config
  nextVid : after.nextVid = db.nextVid
  content : ∀ row ∈ after.content, row ∈ db.content ∨ row = stored
  known : ∀ row ∈ db.content, ∃ other ∈ after.content, other.hash = row.hash
  sequence : db.sequence ≤ after.sequence

theorem Beside.refl (db : Db) (stored : ContentRow) : Beside db stored db :=
  ⟨rfl, rfl, rfl, rfl, fun _ => .inl, fun row member => ⟨row, member, rfl⟩, le_refl _⟩

theorem Beside.trans {middle : Db} {stored : ContentRow} (first : Beside db stored middle)
    (second : Beside middle stored after) : Beside db stored after where
  vectors := second.vectors.trans first.vectors
  collections := second.collections.trans first.collections
  config := second.config.trans first.config
  nextVid := second.nextVid.trans first.nextVid
  content row member := (second.content row member).elim (first.content row) .inr
  known row member := by
    obtain ⟨other, inside, same⟩ := first.known row member
    obtain ⟨last, found, equal⟩ := second.known other inside
    exact ⟨last, found, equal.trans same⟩
  sequence := first.sequence.trans second.sequence

theorem beside_mapDocuments (f : Document → Document)
    (same : ∀ d, (f d).id = d.id ∧ (f d).collection = d.collection ∧ (f d).path = d.path)
    (hash : ∀ d, (f d).hash = d.hash) (stored : ContentRow) : Beside db stored (db.mapDocuments f same hash) :=
  ⟨rfl, rfl, rfl, rfl, fun _ => .inl, fun row member => ⟨row, member, rfl⟩, le_refl _⟩

theorem beside_upsertContent (hash doc : String) : Beside db ⟨hash, doc⟩ (db.upsertContent hash doc) := by
  unfold upsertContent
  split
  · next fresh =>
    refine ⟨rfl, rfl, rfl, rfl, fun row => (Table.mem_append fresh).mp, ?_, le_refl _⟩
    exact fun row member => ⟨row, List.mem_append_left _ member, rfl⟩
  · next taken =>
    refine ⟨rfl, rfl, rfl, rfl, ?_, ?_, le_refl _⟩
    · intro row member
      obtain ⟨old, inside, rfl⟩ : ∃ old ∈ db.content.rows,
          (if old.hash = hash then { old with doc := doc } else old) = row := List.mem_map.mp member
      split
      · next same => exact .inr (by rw [← same])
      · exact .inl inside
    · intro row member
      refine ⟨if row.hash = hash then { row with doc := doc } else row, List.mem_map.mpr ⟨row, member, rfl⟩, ?_⟩
      split <;> rfl

theorem Upserted.beside {title hash : String} {id : Nat} (written : Upserted db c p title hash id after)
    (stored : ContentRow) : Beside db stored after where
  vectors := written.vectors
  collections := written.collections
  config := written.config
  nextVid := written.nextVid
  content _ member := .inl (written.content ▸ member)
  known _ member := ⟨_, written.content.symm ▸ member, rfl⟩
  sequence := written.sequence

/-- A change that leaves every row's view alone. -/
structure Unmoved (db : Db) (stored : ContentRow) (after : Db) : Prop extends Beside db stored after where
  rows : ∀ c p, after.rowAt c p = db.rowAt c p
  counter : after.sequence = db.sequence

/-- The row at one path has become `v`; no other moved. -/
structure Written (db : Db) (stored : ContentRow) (c : CollectionName) (p : String) (v : RowView) (after : Db) :
    Prop extends Beside db stored after where
  row : after.rowAt c p = some v
  others : ∀ d q, (d, q) ≠ (c, p) → after.rowAt d q = db.rowAt d q

theorem Unmoved.refl (db : Db) (stored : ContentRow) : Unmoved db stored db :=
  ⟨Beside.refl db stored, fun _ _ => rfl, rfl⟩

theorem Unmoved.trans {middle : Db} {stored : ContentRow} (first : Unmoved db stored middle)
    (second : Unmoved middle stored after) : Unmoved db stored after :=
  ⟨first.toBeside.trans second.toBeside, fun c p => (second.rows c p).trans (first.rows c p),
    second.counter.trans first.counter⟩

theorem Unmoved.written {middle : Db} {stored : ContentRow} {v : RowView} (first : Unmoved db stored middle)
    (second : Written middle stored c p v after) : Written db stored c p v after :=
  ⟨first.toBeside.trans second.toBeside, second.row,
    fun d q different => (second.others d q different).trans (first.rows d q)⟩

theorem Written.unmoved {middle : Db} {stored : ContentRow} {v : RowView} (first : Written db stored c p v middle)
    (second : Unmoved middle stored after) : Written db stored c p v after :=
  ⟨first.toBeside.trans second.toBeside, (second.rows c p).trans first.row,
    fun d q different => (second.rows d q).trans (first.others d q different)⟩

theorem unmoved_upsertContent (hash doc : String) : Unmoved db ⟨hash, doc⟩ (db.upsertContent hash doc) := by
  refine ⟨beside_upsertContent hash doc, fun c p => by simp [rowAt], ?_⟩
  unfold upsertContent
  split <;> rfl

/-- Columns outside the view. -/
theorem unmoved_mapDocuments (f : Document → Document)
    (same : ∀ d, (f d).id = d.id ∧ (f d).collection = d.collection ∧ (f d).path = d.path)
    (hash : ∀ d, (f d).hash = d.hash) (active : ∀ d, (f d).active = d.active) (stored : ContentRow) :
    Unmoved db stored (db.mapDocuments f same hash) := by
  refine ⟨beside_mapDocuments f same hash stored, fun c p => ?_, rfl⟩
  simp only [rowAt, lookup_mapDocuments, Option.map_map]
  congr 1
  funext row
  simp [view, (same row).1, hash row, active row]

theorem unmoved_setDocumentRaw (id : Nat) (raw : String) (stored : ContentRow) :
    Unmoved db stored (db.setDocumentRaw id raw) :=
  unmoved_mapDocuments _ _ _ (fun d => by split <;> rfl) stored

theorem unmoved_setDocumentStat (c : CollectionName) (p : String) (stat : Option FileStat) (stored : ContentRow) :
    Unmoved db stored (db.setDocumentStat c p stat) :=
  unmoved_mapDocuments _ _ _ (fun d => by split <;> rfl) stored

theorem Upserted.written {title hash : String} {id : Nat} (done : Upserted db c p title hash id after)
    (stored : ContentRow) : Written db stored c p ⟨id, hash, true⟩ after := by
  refine ⟨done.beside stored, ?_, fun d q different => by simp [rowAt, done.others d q different]⟩
  obtain ⟨row, found, rfl, rfl, active, -⟩ := done.row
  simp [rowAt, found, view, active]

theorem beside_deactivate (paths : List String) (stored : ContentRow) : Beside db stored (db.deactivate c paths) :=
  beside_mapDocuments _ _ _ stored

/-- What the sweep does to one row. -/
theorem rowAt_deactivate (paths : List String) :
    (db.deactivate c paths).rowAt d q =
      (db.rowAt d q).map fun v => if d = c ∧ q ∈ paths then { v with active := false } else v := by
  simp only [rowAt, deactivate, lookup_mapDocuments]
  cases found : db.getDocumentByFilepath d q with
  | none => rfl
  | some row =>
    obtain ⟨-, rfl, rfl⟩ := mem_lookup found
    simp only [Option.map_some, Option.some.injEq]
    split <;> rfl

end Rqmd.Db
