import Rqmd.Embed

/-! What a checkpoint does to the vector rows, and what the pending predicate reads of the database. -/

namespace Rqmd

variable {V : Type} {env : Env V} {backend : Backend} {excluded : List Nat}

/-- The row a pending chunk gets. -/
def PendingVectorMeta.row (m : PendingVectorMeta) : VectorRow :=
  ⟨m.hash, m.seq, m.pos, m.model, m.fingerprint, m.totalChunks, m.vid, some m.chunkHash, some m.vectorKey⟩

/-- The row stands where the pending chunk's row goes. -/
def PendingVectorMeta.Replaces (m : PendingVectorMeta) (row : VectorRow) : Prop := row.hash = m.hash ∧ row.seq = m.seq

instance (m : PendingVectorMeta) (row : VectorRow) : Decidable (m.Replaces row) :=
  inferInstanceAs (Decidable (_ ∧ _))

def Document.unmarked (d : Document) : Document := { d with prevHash := none }

/-- What two documents alike but for the mark share. -/
structure Document.Alike (d e : Document) : Prop where
  id : d.id = e.id
  collection : d.collection = e.collection
  hash : d.hash = e.hash
  path : d.path = e.path
  active : d.active = e.active

theorem Document.alike {d e : Document} (same : d.unmarked = e.unmarked) : d.Alike e := by
  simp only [Document.unmarked, Document.mk.injEq] at same
  exact ⟨same.1, same.2.1, same.2.2.2.2.1, same.2.2.1, same.2.2.2.2.2.1⟩

namespace Db

variable {db after : Db}

/-- Nothing outside the vectors changed but donor marks and the floor. -/
structure SameTexts (db after : Db) : Prop where
  documents : after.documents.rows.map Document.unmarked = db.documents.rows.map Document.unmarked
  content : after.content = db.content
  collections : after.collections = db.collections
  config : after.config = db.config

theorem SameTexts.refl (db : Db) : SameTexts db db := ⟨rfl, rfl, rfl, rfl⟩

theorem SameTexts.trans {middle : Db} (first : SameTexts db middle) (second : SameTexts middle after) :
    SameTexts db after :=
  ⟨second.documents.trans first.documents, second.content.trans first.content,
    second.collections.trans first.collections, second.config.trans first.config⟩

theorem sameTexts_clearPrevHash (hash : String) : SameTexts db (db.clearPrevHash hash) := by
  refine ⟨?_, rfl, rfl, rfl⟩
  change (db.documents.rows.map _).map _ = _
  rw [List.map_map]
  apply List.map_congr_left
  intro d _
  simp only [Function.comp_apply]
  split <;> rfl

/-- Each document is still there, up to its mark. -/
theorem SameTexts.after_document (same : SameTexts db after) {doc : Document} (stored : doc ∈ db.documents) :
    ∃ later ∈ after.documents, later.unmarked = doc.unmarked := by
  have there : doc.unmarked ∈ after.documents.rows.map Document.unmarked :=
    same.documents.symm ▸ List.mem_map_of_mem stored
  exact List.mem_map.mp there

theorem SameTexts.before_document (same : SameTexts db after) {later : Document} (stored : later ∈ after.documents) :
    ∃ doc ∈ db.documents, later.unmarked = doc.unmarked := by
  have there : later.unmarked ∈ db.documents.rows.map Document.unmarked := same.documents ▸ List.mem_map_of_mem stored
  obtain ⟨doc, inside, equal⟩ := List.mem_map.mp there
  exact ⟨doc, inside, equal.symm⟩

/-- A question about the documents that does not look at the marks. -/
theorem SameTexts.filter {α : Type} (same : SameTexts db after) (p : Document → Bool) (f : Document → α)
    (blind : ∀ d, p d.unmarked = p d) (reads : ∀ d, f d.unmarked = f d) :
    (after.documents.rows.filter p).map f = (db.documents.rows.filter p).map f := by
  have through : ∀ rows : List Document, (rows.filter p).map f = ((rows.map Document.unmarked).filter p).map f := by
    intro rows
    rw [List.filter_map, List.map_map]
    have kept : p ∘ Document.unmarked = p := funext blind
    have read : f ∘ Document.unmarked = f := funext reads
    rw [kept, read]
  rw [through after.documents.rows, through db.documents.rows, same.documents]

/-- Every document is kept, its donor mark too unless its hash is one that may lose it. -/
def Marks (loses : String → Prop) (db after : Db) : Prop :=
  ∀ d ∈ db.documents, d ∈ after.documents ∨ d.unmarked ∈ after.documents ∧ loses d.hash

theorem Marks.refl (loses : String → Prop) (db : Db) : Marks loses db db := fun _ => .inl

theorem Marks.mono {loses more : String → Prop} (marks : Marks loses db after) (wide : ∀ hash, loses hash → more hash) :
    Marks more db after := fun d member => (marks d member).imp_right (And.imp_right (wide d.hash))

theorem Marks.trans {loses : String → Prop} {middle : Db} (first : Marks loses db middle)
    (second : Marks loses middle after) : Marks loses db after := by
  intro d member
  rcases first d member with kept | ⟨cleared, theirs⟩
  · exact second d kept
  · rcases second d.unmarked cleared with still | ⟨again, -⟩
    · exact .inr ⟨still, theirs⟩
    · exact .inr ⟨again, theirs⟩

theorem mem_mapDocuments {f : Document → Document}
    {same : ∀ d, (f d).id = d.id ∧ (f d).collection = d.collection ∧ (f d).path = d.path}
    {hash : ∀ d, (f d).hash = d.hash} {d : Document} :
    d ∈ (db.mapDocuments f same hash).documents ↔ ∃ old ∈ db.documents, f old = d :=
  @Table.mem_amendKeys _ _ _ _ (Document.keeps same) _

theorem marks_clearPrevHash (hash : String) : Marks (· = hash) db (db.clearPrevHash hash) := by
  intro d member
  have mapped : (if d.hash = hash then { d with prevHash := none } else d) ∈ (db.clearPrevHash hash).documents :=
    mem_mapDocuments.mpr ⟨d, member, rfl⟩
  by_cases same : d.hash = hash
  · rw [if_pos same] at mapped
    exact .inr ⟨mapped, same⟩
  · rw [if_neg same] at mapped
    exact .inl mapped

theorem SameTexts.flagged (same : SameTexts db after) (hash : String) (excluded : List Nat) :
    (after.flagged hash excluded).map Document.path = (db.flagged hash excluded).map Document.path :=
  same.filter _ _ (fun _ => rfl) fun _ => rfl

theorem groupFlag_paths (db : Db) (hash : String) (excluded : List Nat) (group : AstFingerprint) :
    db.groupFlag hash excluded group =
      ((db.flagged hash excluded).map Document.path).any (pathHasExtension group.extensions) := by
  simp [groupFlag, List.any_map, Function.comp_def]

theorem allAst_paths (db : Db) (hash : String) (excluded : List Nat) (ast : List AstFingerprint) :
    db.allAst hash excluded ast =
      (!((db.flagged hash excluded).map Document.path).isEmpty &&
        ((db.flagged hash excluded).map Document.path).all (pathHasExtension (ast.flatMap AstFingerprint.extensions))) := by
  simp [allAst, List.all_map, Function.comp_def]

/-- The pending predicate reads the paths of the flagged documents and the fingerprints of the hash. -/
theorem hashNeedsEmbed_congr {hash base : String} {ast : List AstFingerprint}
    (paths : (after.flagged hash excluded).map Document.path = (db.flagged hash excluded).map Document.path)
    (rows : ∀ fp, after.hashHasVectorWithFingerprint hash fp = db.hashHasVectorWithFingerprint hash fp) :
    after.hashNeedsEmbed hash base ast excluded = db.hashNeedsEmbed hash base ast excluded := by
  unfold hashNeedsEmbed
  simp only [groupFlag_paths, allAst_paths, paths, rows]

/-! ### Checkpoint rows -/

/-- A row without its identity columns, as `upsert_vector_meta` gets it. -/
def bareRow (m : PendingVectorMeta) : VectorRow :=
  ⟨m.hash, m.seq, m.pos, m.model, m.fingerprint, m.totalChunks, m.vid, none, none⟩

theorem upsertVectorMeta_vectors {new : VectorRow} (ok : db.upsertVectorMeta new = .ok after) :
    ∃ vectors, after = { db with vectors := vectors } ∧
      (((∃ v ∈ db.vectors, v.hash = new.hash ∧ v.seq = new.seq) ∧ ∀ r, r ∈ vectors ↔
          ∃ v ∈ db.vectors, (if v.hash = new.hash ∧ v.seq = new.seq then overwriteVector v new else v) = r) ∨
        ((∀ v ∈ db.vectors, ¬ (v.hash = new.hash ∧ v.seq = new.seq)) ∧
          ∀ r, r ∈ vectors ↔ r ∈ db.vectors ∨ r = { new with chunkHash := none, vectorKey := none })) := by
  unfold upsertVectorMeta at ok
  by_cases taken : (db.vectors.any fun v => v.hash == new.hash && v.seq == new.seq) = true
  · simp only [taken, if_true] at ok
    split at ok
    · next vectors amended =>
      cases ok
      refine ⟨vectors, rfl, .inl ⟨by simpa using taken, fun r => Table.mem_amend? amended⟩⟩
    · cases ok
  · simp only [taken] at ok
    split at ok
    · next vectors inserted =>
      cases ok
      refine ⟨vectors, rfl, .inr ⟨by simpa using taken, fun r => Table.mem_insert? inserted⟩⟩
    · cases ok

theorem identify_bare (m : PendingVectorMeta) : identify m.hash m.seq m.chunkHash m.vectorKey
    { bareRow m with chunkHash := none, vectorKey := none } = m.row := by
  simp [identify, bareRow, PendingVectorMeta.row]

theorem identify_overwritten (m : PendingVectorMeta) (v : VectorRow) (here : m.Replaces v) :
    identify m.hash m.seq m.chunkHash m.vectorKey (overwriteVector v (bareRow m)) = m.row := by
  obtain ⟨hash, seq⟩ := here
  simp [identify, overwriteVector, bareRow, PendingVectorMeta.row, hash, seq]

theorem identify_elsewhere (m : PendingVectorMeta) (v : VectorRow) (elsewhere : ¬ m.Replaces v) :
    identify m.hash m.seq m.chunkHash m.vectorKey v = v := if_neg elsewhere

/-- One chunk's row takes the place of the one at its hash and seq. -/
theorem writeMeta_vectors {m : PendingVectorMeta} (ok : Store.writeMeta db m = .ok after) :
    ∃ vectors, after = { db with vectors := vectors } ∧
      ∀ row, row ∈ vectors ↔ row = m.row ∨ (row ∈ db.vectors ∧ ¬ m.Replaces row) := by
  unfold Store.writeMeta at ok
  cases upserted : db.upsertVectorMeta (bareRow m) with
  | error e =>
    rw [bareRow] at upserted
    rw [upserted] at ok
    cases ok
  | ok middle =>
    obtain ⟨vectors, rfl, rows⟩ := upsertVectorMeta_vectors upserted
    rw [bareRow] at upserted
    rw [upserted] at ok
    cases ok
    refine ⟨_, rfl, fun row => ?_⟩
    have through : row ∈ ({ db with vectors := vectors } : Db).vectors.amendKeys _
        (VectorRow.keeps (identify_keys m.hash m.seq m.chunkHash m.vectorKey)) ↔
        ∃ r ∈ vectors, identify m.hash m.seq m.chunkHash m.vectorKey r = row := Table.mem_amendKeys
    refine through.trans ?_
    rcases rows with ⟨⟨old, inside, there⟩, rows⟩ | ⟨free, rows⟩
    · constructor
      · rintro ⟨r, member, rfl⟩
        obtain ⟨v, stored, rfl⟩ := (rows r).mp member
        split
        · next here => exact .inl (identify_overwritten m v here)
        · next elsewhere =>
          rw [identify_elsewhere m v elsewhere]
          exact .inr ⟨stored, elsewhere⟩
      · rintro (rfl | ⟨stored, elsewhere⟩)
        · refine ⟨_, (rows _).mpr ⟨old, inside, rfl⟩, ?_⟩
          rw [if_pos there]
          exact identify_overwritten m old there
        · refine ⟨row, (rows row).mpr ⟨row, stored, if_neg elsewhere⟩, identify_elsewhere m row elsewhere⟩
    · constructor
      · rintro ⟨r, member, rfl⟩
        rcases (rows r).mp member with stored | rfl
        · have elsewhere : ¬ m.Replaces r := free r stored
          rw [identify_elsewhere m r elsewhere]
          exact .inr ⟨stored, elsewhere⟩
        · exact .inl (identify_bare m)
      · rintro (rfl | ⟨stored, elsewhere⟩)
        · exact ⟨_, (rows _).mpr (.inr rfl), identify_bare m⟩
        · exact ⟨row, (rows row).mpr (.inl stored), identify_elsewhere m row elsewhere⟩

/-- What writing the rows of a checkpoint did. -/
structure Wrote (metas : List PendingVectorMeta) (db after : Db) : Prop where
  source : ∀ row ∈ after.vectors, (∃ m ∈ metas, row = m.row) ∨
    (row ∈ db.vectors ∧ ∀ m ∈ metas, ¬ m.Replaces row)
  kept : ∀ row ∈ db.vectors, (∀ m ∈ metas, ¬ m.Replaces row) → row ∈ after.vectors
  written : metas.Pairwise (fun a b => ¬ b.Replaces a.row) → ∀ m ∈ metas, m.row ∈ after.vectors
  placed : ∀ m ∈ metas, ∃ row ∈ after.vectors, row.hash = m.hash
  marks : Marks (· ∈ metas.map PendingVectorMeta.hash) db after
  texts : SameTexts db after
  floor : after.nextVid = db.nextVid

theorem wrote_metas (metas : List PendingVectorMeta) : ∀ (embedded : List String) (db after : Db),
    Store.writeMetas metas embedded db = .ok after → Wrote metas db after := by
  induction metas with
  | nil =>
    intro embedded db after ok
    cases ok
    exact ⟨fun row member => .inr ⟨member, fun _ none => absurd none List.not_mem_nil⟩, fun _ member _ => member,
      fun _ _ none => absurd none List.not_mem_nil, fun _ none => absurd none List.not_mem_nil, .refl _ _, .refl _, rfl⟩
  | cons m metas ih =>
    intro embedded db after ok
    unfold Store.writeMetas at ok
    have cleared : ∃ middle, (if embedded.contains m.hash then db else db.clearPrevHash m.hash) = middle ∧
        middle.vectors = db.vectors ∧ middle.nextVid = db.nextVid ∧ SameTexts db middle ∧ Marks (· = m.hash) db middle := by
      refine ⟨_, rfl, ?_⟩
      split
      · exact ⟨rfl, rfl, .refl db, .refl _ db⟩
      · exact ⟨rfl, rfl, sameTexts_clearPrevHash m.hash, marks_clearPrevHash m.hash⟩
    obtain ⟨middle, shape, vectors, floor, texts, marks⟩ := cleared
    rw [shape] at ok
    change (Store.writeMeta middle m >>= fun db => Store.writeMetas metas (m.hash :: embedded) db) = .ok after at ok
    cases wrote : Store.writeMeta middle m with
    | error e =>
      rw [wrote] at ok
      cases ok
    | ok next =>
      rw [wrote] at ok
      obtain ⟨stored, rfl, rows⟩ := writeMeta_vectors wrote
      have rest := ih _ _ _ ok
      have first : SameTexts middle { middle with vectors := stored } := ⟨rfl, rfl, rfl, rfl⟩
      have marked : Marks (· ∈ m.hash :: metas.map PendingVectorMeta.hash) db after :=
        (marks.mono fun _ same => same ▸ List.mem_cons_self).trans
          ((rest.marks : Marks _ middle after).mono fun _ => List.mem_cons_of_mem _)
      refine ⟨?_, ?_, ?_, ?_, marked, texts.trans (first.trans rest.texts), rest.floor.trans floor⟩
      · intro row member
        rcases rest.source row member with ⟨other, inside, rfl⟩ | ⟨there, apart⟩
        · exact .inl ⟨other, List.mem_cons_of_mem _ inside, rfl⟩
        · rcases (rows row).mp there with rfl | ⟨old, elsewhere⟩
          · exact .inl ⟨m, List.mem_cons_self, rfl⟩
          · refine .inr ⟨vectors ▸ old, fun other inside => ?_⟩
            rcases List.mem_cons.mp inside with rfl | later
            · exact elsewhere
            · exact apart other later
      · intro row member apart
        refine rest.kept row ((rows row).mpr (.inr ⟨vectors.symm ▸ member, apart m List.mem_cons_self⟩)) ?_
        exact fun other inside => apart other (List.mem_cons_of_mem _ inside)
      · intro distinct other inside
        rw [List.pairwise_cons] at distinct
        rcases List.mem_cons.mp inside with rfl | later
        · exact rest.kept _ ((rows _).mpr (.inl rfl)) distinct.1
        · exact rest.written distinct.2 other later
      · intro other inside
        rcases List.mem_cons.mp inside with rfl | later
        · by_cases again : ∃ next ∈ metas, next.Replaces other.row
          · obtain ⟨next, later, same⟩ := again
            obtain ⟨row, stored, theirs⟩ := rest.placed next later
            exact ⟨row, stored, theirs.trans same.1.symm⟩
          · have apart : ∀ next ∈ metas, ¬ next.Replaces other.row := fun next later same => again ⟨next, later, same⟩
            exact ⟨other.row, rest.kept _ ((rows _).mpr (.inl rfl)) apart, rfl⟩
        · exact rest.placed other later

/-- Rows with vids and places of their own are all accepted. -/
theorem writeMetas_ok (metas : List PendingVectorMeta) : ∀ (embedded : List String) (db : Db),
    metas.Pairwise (fun a b => a.vid ≠ b.vid ∧ ¬ b.Replaces a.row) →
    (∀ m ∈ metas, ∀ row ∈ db.vectors, row.vid ≠ m.vid ∧ ¬ m.Replaces row) →
    ∃ after, Store.writeMetas metas embedded db = .ok after := by
  induction metas with
  | nil => exact fun _ db _ _ => ⟨db, rfl⟩
  | cons m metas ih =>
    intro embedded db distinct fresh
    rw [List.pairwise_cons] at distinct
    obtain ⟨middle, shape, vectors⟩ : ∃ middle, (if embedded.contains m.hash then db else db.clearPrevHash m.hash) = middle ∧
        middle.vectors = db.vectors := by
      refine ⟨_, rfl, ?_⟩
      split <;> rfl
    have own : ∀ row ∈ middle.vectors, row.vid ≠ m.vid ∧ ¬ m.Replaces row := fun row member =>
      fresh m List.mem_cons_self row (vectors ▸ member)
    obtain ⟨next, wrote⟩ : ∃ next, Store.writeMeta middle m = .ok next := by
      have free : ¬ (middle.vectors.any fun v => v.hash == m.hash && v.seq == m.seq) = true := by
        intro taken
        obtain ⟨row, member, same⟩ := Table.any_eq_true.mp taken
        exact (own row member).2 (by simpa [PendingVectorMeta.Replaces] using same)
      have apart : ∀ a ∈ middle.vectors.rows, ¬ Constraint.clash a { bareRow m with chunkHash := none, vectorKey := none } := by
        intro row member clash
        exact clash.elim (own row member).2 (own row member).1
      unfold Store.writeMeta upsertVectorMeta
      have inserted : middle.vectors.insert? { bareRow m with chunkHash := none, vectorKey := none } =
          some (middle.vectors.append _ apart) := by
        unfold Table.insert?
        rw [dif_pos apart]
      simp only [bareRow] at inserted
      simp only [free, inserted]
      exact ⟨_, rfl⟩
    obtain ⟨stored, same, rows⟩ := writeMeta_vectors wrote
    have rest : ∀ other ∈ metas, ∀ row ∈ next.vectors, row.vid ≠ other.vid ∧ ¬ other.Replaces row := by
      intro other inside row member
      rw [same] at member
      rcases (rows row).mp member with rfl | ⟨old, -⟩
      · exact distinct.1 other inside
      · exact fresh other (List.mem_cons_of_mem _ inside) row (vectors ▸ old)
    obtain ⟨after, done⟩ := ih (m.hash :: embedded) next distinct.2 rest
    refine ⟨after, ?_⟩
    unfold Store.writeMetas
    rw [shape]
    change (Store.writeMeta middle m >>= fun db => Store.writeMetas metas (m.hash :: embedded) db) = .ok after
    rw [wrote]
    exact done

theorem mem_deleteVectors (hashes : List String) : ∀ (db : Db) (row : VectorRow),
    row ∈ (hashes.foldl deleteVectorsForHash db).vectors ↔ row ∈ db.vectors ∧ row.hash ∉ hashes := by
  induction hashes with
  | nil => simp
  | cons hash hashes ih =>
    intro db row
    rw [List.foldl_cons, ih]
    simp only [deleteVectorsForHash, Table.mem_deleteWhere, beq_iff_eq, List.mem_cons, not_or]
    exact and_assoc

theorem texts_deleteVectors (hashes : List String) : ∀ db : Db,
    SameTexts db (hashes.foldl deleteVectorsForHash db) ∧
      (hashes.foldl deleteVectorsForHash db).nextVid = db.nextVid ∧
      (hashes.foldl deleteVectorsForHash db).documents = db.documents := by
  induction hashes with
  | nil => exact fun db => ⟨.refl db, rfl, rfl⟩
  | cons hash hashes ih =>
    intro db
    have first : SameTexts db (db.deleteVectorsForHash hash) := ⟨rfl, rfl, rfl, rfl⟩
    have rest := ih (db.deleteVectorsForHash hash)
    exact ⟨first.trans rest.1, rest.2⟩

theorem mem_vidsForHash {hash : String} {vid : Nat} :
    vid ∈ db.vidsForHash hash ↔ ∃ row ∈ db.vectors, row.vid = vid ∧ row.hash = hash := by
  simp only [vidsForHash, vectorsOf, List.mem_map, List.mem_insertionSort, Table.mem_select, beq_iff_eq]
  constructor
  · rintro ⟨row, ⟨member, theirs⟩, same⟩
    exact ⟨row, member, same, theirs⟩
  · rintro ⟨row, member, same, theirs⟩
    exact ⟨row, ⟨member, theirs⟩, same⟩

theorem mem_backfillVectorKeys {model : String} {fingerprints : List String} {keyFor : String → String} {row : VectorRow} :
    row ∈ (db.backfillVectorKeys model fingerprints keyFor).vectors ↔
      ∃ old ∈ db.vectors, backfill model fingerprints keyFor old = row := by
  change row ∈ db.vectors.amendKeys _ (VectorRow.keeps (backfill_keys model fingerprints keyFor)) ↔ _
  exact Table.mem_amendKeys

/-- What the transaction of a checkpoint did. -/
structure Checkpointed (metas : List PendingVectorMeta) (deletes : List String) (nextVid : Nat) (db after : Db) :
    Prop where
  source : ∀ row ∈ after.vectors, (∃ m ∈ metas, row = m.row) ∨
    (row ∈ db.vectors ∧ row.hash ∉ deletes ∧ ∀ m ∈ metas, ¬ m.Replaces row)
  kept : ∀ row ∈ db.vectors, row.hash ∉ deletes → (∀ m ∈ metas, ¬ m.Replaces row) → row ∈ after.vectors
  written : metas.Pairwise (fun a b => ¬ b.Replaces a.row) → ∀ m ∈ metas, m.row ∈ after.vectors
  placed : ∀ m ∈ metas, ∃ row ∈ after.vectors, row.hash = m.hash
  marks : Marks (· ∈ metas.map PendingVectorMeta.hash) db after
  texts : SameTexts db after
  floor : after.nextVid.getD 0 = max (db.nextVid.getD 0) nextVid

/-- The transaction of a checkpoint is accepted when what it leaves standing is apart from what it writes. -/
theorem checkpointRows_ok {metas : List PendingVectorMeta} {deletes : List String} (nextVid : Nat)
    (distinct : metas.Pairwise fun a b => a.vid ≠ b.vid ∧ ¬ b.Replaces a.row)
    (fresh : ∀ m ∈ metas, ∀ row ∈ db.vectors, row.hash ∉ deletes → row.vid ≠ m.vid ∧ ¬ m.Replaces row) :
    ∃ after, Store.checkpointRows metas deletes nextVid db = .ok after := by
  have left : ∀ m ∈ metas, ∀ row ∈ (deletes.foldl deleteVectorsForHash db).vectors, row.vid ≠ m.vid ∧ ¬ m.Replaces row := by
    intro m inside row member
    have kept := (mem_deleteVectors deletes db row).mp member
    exact fresh m inside row kept.1 kept.2
  obtain ⟨middle, written⟩ := writeMetas_ok metas [] _ distinct left
  refine ⟨middle.persistNextVidFloor nextVid, ?_⟩
  unfold Store.checkpointRows
  rw [written]
  rfl

theorem checkpointed {metas : List PendingVectorMeta} {deletes : List String} {nextVid : Nat}
    (ok : Store.checkpointRows metas deletes nextVid db = .ok after) :
    Checkpointed metas deletes nextVid db after := by
  unfold Store.checkpointRows at ok
  cases written : Store.writeMetas metas [] (deletes.foldl deleteVectorsForHash db) with
  | error e =>
    rw [written] at ok
    cases ok
  | ok middle =>
    rw [written] at ok
    cases ok
    have wrote := wrote_metas metas [] _ _ written
    have gone := texts_deleteVectors deletes db
    have raised : (middle.persistNextVidFloor nextVid).vectors = middle.vectors ∧
        (middle.persistNextVidFloor nextVid).documents = middle.documents ∧
        SameTexts middle (middle.persistNextVidFloor nextVid) ∧
        (middle.persistNextVidFloor nextVid).nextVid.getD 0 = max (middle.nextVid.getD 0) nextVid := by
      unfold persistNextVidFloor
      split
      · next below => exact ⟨rfl, rfl, ⟨rfl, rfl, rfl, rfl⟩, by simp only [Option.getD_some]; omega⟩
      · next above => exact ⟨rfl, rfl, .refl _, by omega⟩
    obtain ⟨vectors, documents, texts, floor⟩ := raised
    have marks : Marks (· ∈ metas.map PendingVectorMeta.hash) db (middle.persistNextVidFloor nextVid) := by
      intro d member
      rw [documents]
      exact wrote.marks d ((gone.2.2).symm ▸ member)
    refine ⟨?_, ?_, ?_, ?_, marks, gone.1.trans (wrote.texts.trans texts), ?_⟩
    · intro row member
      rcases wrote.source row (vectors ▸ member) with new | ⟨old, apart⟩
      · exact .inl new
      · obtain ⟨stored, other⟩ := (mem_deleteVectors deletes db row).mp old
        exact .inr ⟨stored, other, apart⟩
    · intro row stored other apart
      rw [vectors]
      exact wrote.kept row ((mem_deleteVectors deletes db row).mpr ⟨stored, other⟩) apart
    · intro distinct m member
      rw [vectors]
      exact wrote.written distinct m member
    · rw [vectors]
      exact wrote.placed
    · rw [floor, wrote.floor, gone.2.1]

/-- A checkpoint leaves the rows of the hashes it does not write alone. -/
theorem Checkpointed.untouched {metas : List PendingVectorMeta} {deletes : List String} {nextVid : Nat}
    (done : Checkpointed metas deletes nextVid db after) {hash : String} (kept : hash ∉ deletes)
    (other : ∀ m ∈ metas, m.hash ≠ hash) (row : VectorRow) (theirs : row.hash = hash) :
    row ∈ after.vectors ↔ row ∈ db.vectors := by
  subst theirs
  constructor
  · intro member
    rcases done.source row member with ⟨m, inside, rfl⟩ | ⟨stored, -, -⟩
    · exact absurd rfl (other m inside)
    · exact stored
  · intro stored
    exact done.kept row stored kept fun m inside same => other m inside same.1.symm

end Db

theorem needsEmbed_congr {db after : Db} {hash : String} (texts : Db.SameTexts db after)
    (rows : ∀ row : VectorRow, row.hash = hash → (row ∈ after.vectors ↔ row ∈ db.vectors)) :
    needsEmbed env backend excluded after hash = needsEmbed env backend excluded db hash := by
  refine Db.hashNeedsEmbed_congr (texts.flagged hash excluded) fun fp => ?_
  rw [Bool.eq_iff_iff]
  simp only [Db.hashHasVectorWithFingerprint, Table.any_eq_true, Bool.and_eq_true, beq_iff_eq]
  constructor
  · rintro ⟨row, member, same, mark⟩
    exact ⟨row, (rows row same).mp member, same, mark⟩
  · rintro ⟨row, member, same, mark⟩
    exact ⟨row, (rows row same).mpr member, same, mark⟩

end Rqmd
