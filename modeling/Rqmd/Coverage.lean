import Rqmd.EmbedRuns

/-! What the saved file and the memory of a session hold for the hashes that count as embedded. A checkpoint
saves the file before it writes the rows that name the new vectors, and what an embed pass takes out of the
memory belongs to hashes that do not count as embedded. -/

namespace Rqmd

variable {V : Type} {env : Env V} {backend : Backend} {excluded : List Nat} {m n : Session V}
  {reported : Db → String → Prop}

/-- The vids the saved vector file holds. -/
def Disk.savedVids (d : Disk V) : List Nat := (d.hnswFile.getD .empty).keys

/-- Which hashes count as embedded depends on their own rows and on what a checkpoint leaves alone. -/
def Stable (reported : Db → String → Prop) : Prop :=
  ∀ db after hash, Db.SameTexts db after →
    (∀ row : VectorRow, row.hash = hash → (row ∈ after.vectors ↔ row ∈ db.vectors)) →
    reported after hash → reported db hash

/-- The rows of the hashes that count as embedded are backed by the file and by the memory; the memory also
holds what the next checkpoint will record. -/
structure Session.Covered (reported : Db → String → Prop) (m : Session V) : Prop where
  allotted : m.Allotted
  file : ∀ row ∈ m.store.db.vectors, reported m.store.db row.hash → row.vid ∈ m.store.disk.savedVids
  memory : ∀ row ∈ m.store.db.vectors, reported m.store.db row.hash → row.vid ∈ m.store.hnsw.inner.keys
  batch : ∀ a ∈ m.batch, a.vid ∈ m.store.hnsw.inner.keys
  pending : ∀ p ∈ m.pending, p.vid ∈ m.store.hnsw.inner.keys ∧
    ∀ row ∈ m.store.db.vectors, row.hash = p.hash → p.hash ∈ m.superseded

namespace Session.Covered

/-- A step that leaves rows and file alone and takes no key away. -/
theorem grown {index : VectorIndex V} {log : List Event} {batch : List AddedVector} (covered : m.Covered reported)
    (allotted : (⟨{ m.store with hnsw := index, log := log }, batch, m.pending, m.superseded⟩ : Session V).Allotted)
    (more : ∀ vid ∈ m.store.hnsw.inner.keys, vid ∈ index.inner.keys)
    (added : ∀ a ∈ batch, a ∈ m.batch ∨ a.vid ∈ index.inner.keys) :
    Covered reported ⟨{ m.store with hnsw := index, log := log }, batch, m.pending, m.superseded⟩ := by
  refine ⟨allotted, covered.file, ?_, ?_, ?_⟩
  · exact fun row member counts => more _ (covered.memory row member counts)
  · exact fun a member => (added a member).elim (fun old => more _ (covered.batch a old)) id
  · exact fun p member => ⟨more _ (covered.pending p member).1, (covered.pending p member).2⟩

/-- A change of the database that leaves the vector rows alone or drops some, and reports no hash whose rows
are not backed. -/
theorem withDb {db : Db} {fts : FtsIndex} {dirty : Bool} {log : List Event} (covered : m.Covered reported)
    (allotted : (m.withStore { m.store with db := db, fts := fts, hnswDirty := dirty, log := log }).Allotted)
    (rows : ∀ row ∈ db.vectors, row ∈ m.store.db.vectors)
    (backed : ∀ row ∈ db.vectors, reported db row.hash → reported m.store.db row.hash ∨
      row.vid ∈ m.store.disk.savedVids ∧ row.vid ∈ m.store.hnsw.inner.keys) :
    (m.withStore { m.store with db := db, fts := fts, hnswDirty := dirty, log := log }).Covered reported := by
  refine ⟨allotted, ?_, ?_, covered.batch, ?_⟩
  · intro row member counts
    rcases backed row member counts with before | ⟨saved, -⟩
    · exact covered.file row (rows row member) before
    · exact saved
  · intro row member counts
    rcases backed row member counts with before | ⟨-, present⟩
    · exact covered.memory row (rows row member) before
    · exact present
  · exact fun p member => ⟨(covered.pending p member).1, fun row inside => (covered.pending p member).2 row (rows row inside)⟩

/-- Vectors leave the memory that no counted row, no pending chunk and no chunk in hand names. -/
theorem evicted {vids : List Nat} (covered : m.Covered reported)
    (theirs : ∀ vid ∈ vids, ∃ row ∈ m.store.db.vectors, row.vid = vid ∧ ¬ reported m.store.db row.hash) :
    (m.withStore { m.store with hnsw := Store.removeVids m.store.hnsw vids }).Covered reported := by
  have stays : ∀ vid ∈ m.store.hnsw.inner.keys, (∀ row ∈ m.store.db.vectors, row.vid = vid → reported m.store.db row.hash) →
      vid ∈ (Store.removeVids m.store.hnsw vids).inner.keys := by
    intro vid present apart
    apply Store.mem_keys_removeVids.mpr
    refine ⟨present, fun gone => ?_⟩
    obtain ⟨row, inside, same, uncounted⟩ := theirs vid gone
    exact uncounted (apart row inside same)
  have allotted : (m.withStore { m.store with hnsw := Store.removeVids m.store.hnsw vids }).Allotted :=
    covered.allotted.withStore rfl (fun _ => .inl) (Nat.le_of_eq (Store.removeVids_nextVid _ _).symm)
  refine ⟨allotted, covered.file, ?_, ?_, ?_⟩
  · intro row member counts
    refine stays _ (covered.memory row member counts) fun other inside same => ?_
    have equal : other = row := Table.eq_of_clash inside member (.inr same)
    exact equal ▸ counts
  · exact fun a member => stays _ (covered.batch a member) fun row inside same =>
      absurd same ((covered.allotted.batch a member).2.1 row inside)
  · exact fun p member => ⟨stays _ (covered.pending p member).1 fun row inside same =>
      absurd same ((covered.allotted.pending p member).2 row inside), (covered.pending p member).2⟩

theorem rolledBack (covered : m.Covered reported) : m.rolledBack.Covered reported := by
  have stays : ∀ vid ∈ m.store.hnsw.inner.keys, (∀ a ∈ m.batch, vid ≠ a.vid) →
      vid ∈ m.rolledBack.store.hnsw.inner.keys := by
    intro vid present apart
    apply Store.mem_keys_removeVids.mpr
    refine ⟨present, fun gone => ?_⟩
    obtain ⟨a, inside, same⟩ := List.mem_map.mp gone
    exact apart a inside same.symm
  refine ⟨covered.allotted.rolledBack, covered.file, ?_, fun a none => absurd none List.not_mem_nil, ?_⟩
  · intro row member counts
    exact stays _ (covered.memory row member counts) fun a inside => (covered.allotted.batch a inside).2.1 row member
  · intro p member
    have here := covered.pending p member
    exact ⟨stays _ here.1 fun a inside => (covered.allotted.batch a inside).2.2 p member, here.2⟩

/-- Superseding a hash takes only its own vids out of the memory. -/
theorem embedded {hash relPath : String} (covered : m.Covered reported) (uncounted : ¬ reported m.store.db hash) :
    (m.embedded env hash relPath).Covered reported := by
  have stays : ∀ vid ∈ m.store.hnsw.inner.keys, (∀ row ∈ m.store.db.vectors, row.hash = hash → row.vid ≠ vid) →
      vid ∈ (m.embedded env hash relPath).store.hnsw.inner.keys := by
    intro vid present apart
    simp only [Session.embedded]
    split
    · apply Store.mem_keys_removeVids.mpr
      refine ⟨present, fun gone => ?_⟩
      obtain ⟨row, inside, same, theirs⟩ := Db.mem_vidsForHash.mp gone
      exact apart row inside theirs same
    · exact present
  have known : ∀ row ∈ m.store.db.vectors, row.hash = hash → m.store.db.hashHasAnyVector hash = true :=
    fun row member same => Table.any_eq_true.mpr ⟨row, member, by simpa using same⟩
  refine ⟨covered.allotted.embedded, covered.file, ?_, fun a none => absurd none List.not_mem_nil, ?_⟩
  · intro row member counts
    refine stays _ (covered.memory row member counts) fun other inside theirs same => ?_
    have equal : other = row := Table.eq_of_clash inside member (.inr same)
    rw [equal] at theirs
    exact uncounted (theirs ▸ counts)
  · intro p member
    rcases List.mem_append.mp member with old | new
    · have here := covered.pending p old
      refine ⟨stays _ here.1 fun row inside _ => (covered.allotted.pending p old).2 row inside, ?_⟩
      intro row inside same
      have listed := here.2 row inside same
      simp only [Session.embedded]
      split
      · exact List.mem_insert_of_mem listed
      · exact listed
    · obtain ⟨theirs, a, inside, same, -⟩ := batchMetas_source new
      refine ⟨?_, fun row there rowHash => ?_⟩
      · rw [same]
        exact stays _ (covered.batch a inside) fun row there _ => (covered.allotted.batch a inside).2.1 row there
      · simp only [Session.embedded, known row there (rowHash.trans theirs), if_true]
        exact theirs ▸ List.mem_insert_self

theorem saved (covered : m.Covered reported) :
    (m.withStore { m.store with hnswFile := some m.store.hnsw.inner, log := m.store.log ++ [.hnswSaved] }).Covered
      reported := by
  have allotted : (m.withStore { m.store with
      hnswFile := some m.store.hnsw.inner, log := m.store.log ++ [.hnswSaved] }).Allotted :=
    covered.allotted.withStore rfl (fun _ => .inl) (Nat.le_refl _)
  exact ⟨allotted, covered.memory, covered.memory, covered.batch, covered.pending⟩

/-- A hash the checkpoint writes has only the rows the checkpoint wrote; another keeps its rows. -/
theorem committed {db : Db} (covered : m.Covered reported) (stable : Stable reported)
    (saved : m.store.hnswFile = some m.store.hnsw.inner)
    (rows : Store.checkpointRows m.pending m.superseded m.store.hnsw.nextVid m.store.db = .ok db) :
    (m.committed db).Covered reported := by
  have done := Db.checkpointed rows
  have present : ∀ row ∈ db.vectors, reported db row.hash → row.vid ∈ m.store.hnsw.inner.keys := by
    intro row member counts
    rcases done.source row member with ⟨p, inside, rfl⟩ | ⟨old, kept, apart⟩
    · exact (covered.pending p inside).1
    · have other : ∀ p ∈ m.pending, p.hash ≠ row.hash := by
        intro p inside same
        exact kept (same ▸ (covered.pending p inside).2 row old same.symm)
      have before : reported m.store.db row.hash :=
        stable _ _ _ done.texts (fun r theirs => done.untouched kept other r theirs) counts
      exact covered.memory row old before
  have file : (m.committed db).store.disk.savedVids = m.store.hnsw.inner.keys := by
    simp [Session.committed, Disk.savedVids, Store.disk, saved]
  refine ⟨covered.allotted.committed rows, ?_, present, covered.batch, fun p none => absurd none List.not_mem_nil⟩
  intro row member counts
  rw [file]
  exact present row member counts

/-- An embed pass embeds hashes that do not count as embedded. -/
theorem embedStep (covered : m.Covered reported) (stable : Stable reported)
    (uncounted : ∀ hash, needsEmbed env backend excluded m.store.db hash = true → ¬ reported m.store.db hash)
    (step : EmbedStep env backend excluded m n) : n.Covered reported := by
  have allotted := covered.allotted.embedStep step
  cases step with
  | aside fts dirty log quiet => exact ⟨allotted, covered.file, covered.memory, covered.batch, covered.pending⟩
  | unmarked hash =>
    have before : ∀ other, reported (m.store.db.clearPrevHash hash) other → reported m.store.db other :=
      fun other => stable _ _ other (Db.sameTexts_clearPrevHash hash) fun _ _ => Iff.rfl
    exact covered.withDb allotted (fun _ => id) fun row _ counts => .inl (before _ counts)
  | added chunk vector vid index source given =>
    obtain ⟨absent, -, rfl⟩ := VectorIndex.add_some given
    refine covered.grown allotted (fun _ => List.mem_cons_of_mem _) fun a member => ?_
    rcases List.mem_append.mp member with old | new
    · exact .inl old
    · rw [List.mem_singleton.mp new]
      exact .inr List.mem_cons_self
  | refused vector index given =>
    have inner := (VectorIndex.add_none given).1
    exact covered.grown allotted (fun _ there => inner.symm ▸ there) fun _ => .inl
  | rolledBack => exact covered.rolledBack
  | embedded hash relPath pending first => exact covered.embedded (uncounted hash pending)
  | saved writable => exact covered.saved
  | committed db saved rows => exact covered.committed stable saved rows

theorem passes {start : Session V} (covered : start.Covered reported) (stable : Stable reported)
    (uncounted : ∀ db hash, needsEmbed env backend excluded db hash = true → ¬ reported db hash)
    (run : Passes env backend excluded start m) : m.Covered reported := by
  induction run with
  | refl => exact covered
  | tail _ step ih => exact ih.embedStep stable (uncounted _) step

/-- What is covered on disk is covered in a session opened on it. -/
theorem opened {d : Disk V} {readOnly : Bool} (file : ∀ row ∈ d.db.vectors, reported d.db row.hash → row.vid ∈ d.savedVids) :
    (Session.of (d.open readOnly)).Covered reported := by
  refine ⟨Session.Allotted.opened (d.open readOnly) readOnly, file, ?_, fun _ none => absurd none List.not_mem_nil,
    fun _ none => absurd none List.not_mem_nil⟩
  intro row member counts
  change row.vid ∈ (openHnsw d.hnswFile d.db readOnly).inner.keys
  rw [openHnsw_inner]
  exact file row member counts

end Session.Covered

end Rqmd
