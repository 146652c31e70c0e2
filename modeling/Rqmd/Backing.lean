import Rqmd.EmbedOutcome

/-! Complete commands leave every vector row with its vector in the saved file. Within an embed pass the rows of
the hashes on the list to go are the only exception. -/

namespace Rqmd
open Interrupt

variable {V : Type} {env : Env V} {backend : Backend} {excluded : List Nat} {m n : Session V} {s : Store V}

/-- Fewer hashes count. -/
theorem Session.Covered.mono {reported other : Db → String → Prop} (covered : m.Covered reported)
    (fewer : ∀ row ∈ m.store.db.vectors, other m.store.db row.hash → reported m.store.db row.hash) : m.Covered other :=
  ⟨covered.allotted, fun row member counts => covered.file row member (fewer row member counts),
    fun row member counts => covered.memory row member (fewer row member counts), covered.batch, covered.pending⟩

/-- File and memory hold the vectors of the reported hashes, but for those whose rows the next checkpoint deletes. -/
def Session.BackedFor (reported : Db → String → Prop) (m : Session V) : Prop :=
  m.Covered fun db hash => hash ∉ m.superseded ∧ reported db hash

namespace Session.BackedFor

variable {reported : Db → String → Prop}

/-- The hash whose new vectors wait has its old rows on the list to go. -/
theorem embedded {hash relPath : String} (backed : m.BackedFor reported) :
    (m.embedded env hash relPath).BackedFor reported := by
  have apart : m.Covered fun db other => (other ∉ m.superseded ∧ reported db other) ∧ other ≠ hash :=
    Covered.mono backed fun _ _ => And.left
  have next : (m.embedded env hash relPath).Covered
      fun db other => (other ∉ m.superseded ∧ reported db other) ∧ other ≠ hash :=
    apart.embedded fun both => both.2 rfl
  refine next.mono fun row member both => ?_
  obtain ⟨listed, counts⟩ := both
  change row.hash ∉ (if m.store.db.hashHasAnyVector hash then m.superseded.insert hash else m.superseded) at listed
  by_cases known : m.store.db.hashHasAnyVector hash = true
  · rw [if_pos known, List.mem_insert_iff, not_or] at listed
    exact ⟨⟨listed.2, counts⟩, listed.1⟩
  · rw [if_neg known] at listed
    refine ⟨⟨listed, counts⟩, fun same => known ?_⟩
    exact Table.any_eq_true.mpr ⟨row, member, beq_iff_eq.mpr same⟩

/-- A checkpoint deletes the rows on the list; those it writes name vectors the memory holds. -/
theorem committed {db : Db} (backed : m.BackedFor reported) (stable : Stable reported)
    (saved : m.store.hnswFile = some m.store.hnsw.inner)
    (rows : Store.checkpointRows m.pending m.superseded m.store.hnsw.nextVid m.store.db = .ok db) :
    (m.committed db).BackedFor reported := by
  have done := Db.checkpointed rows
  have present : ∀ row ∈ db.vectors, reported db row.hash → row.vid ∈ m.store.hnsw.inner.keys := by
    intro row member counts
    rcases done.source row member with ⟨p, inside, rfl⟩ | ⟨old, kept, -⟩
    · exact (backed.pending p inside).1
    · have other : ∀ p ∈ m.pending, p.hash ≠ row.hash := by
        intro p inside same
        exact kept (same ▸ (backed.pending p inside).2 row old same.symm)
      have before : reported m.store.db row.hash :=
        stable _ _ _ done.texts (fun r theirs => done.untouched kept other r theirs) counts
      exact backed.memory row old ⟨kept, before⟩
  have file : (m.committed db).store.disk.savedVids = m.store.hnsw.inner.keys := by
    simp [Session.committed, Disk.savedVids, Store.disk, saved]
  refine ⟨backed.allotted.committed rows, ?_, fun row member counts => present row member counts.2, backed.batch,
    fun p none => absurd none List.not_mem_nil⟩
  intro row member counts
  rw [file]
  exact present row member counts.2

theorem step (backed : m.BackedFor reported) (stable : Stable reported) (step : EmbedStep env backend excluded m n) :
    n.BackedFor reported := by
  have allotted := backed.allotted.embedStep step
  cases step with
  | aside fts dirty log quiet => exact ⟨allotted, backed.file, backed.memory, backed.batch, backed.pending⟩
  | unmarked hash =>
    have before : ∀ other, reported (m.store.db.clearPrevHash hash) other → reported m.store.db other :=
      fun other => stable _ _ other (Db.sameTexts_clearPrevHash hash) fun _ _ => Iff.rfl
    exact Covered.withDb backed allotted (fun _ => id) fun row _ counts => .inl ⟨counts.1, before _ counts.2⟩
  | added chunk vector vid index source given =>
    obtain ⟨absent, -, rfl⟩ := VectorIndex.add_some given
    refine Covered.grown backed allotted (fun _ => List.mem_cons_of_mem _) fun a member => ?_
    rcases List.mem_append.mp member with old | new
    · exact .inl old
    · rw [List.mem_singleton.mp new]
      exact .inr List.mem_cons_self
  | refused vector index given =>
    have inner := (VectorIndex.add_none given).1
    exact Covered.grown backed allotted (fun _ there => inner.symm ▸ there) fun _ => .inl
  | rolledBack => exact Covered.rolledBack backed
  | embedded hash relPath pending first => exact backed.embedded
  | saved writable => exact Covered.saved backed
  | committed db saved rows => exact backed.committed stable saved rows

theorem passes {start : Session V} (backed : start.BackedFor reported) (stable : Stable reported)
    (run : Passes env backend excluded start m) : m.BackedFor reported := by
  induction run with
  | refl => exact backed
  | tail _ step ih => exact ih.step stable step

end Session.BackedFor

/-- File and memory hold the vectors of all rows but those the next checkpoint deletes. -/
def Session.Backed (m : Session V) : Prop := m.Covered fun _ hash => hash ∉ m.superseded

theorem Session.backed_iff : m.Backed ↔ m.BackedFor fun _ _ => True :=
  ⟨fun backed => Covered.mono backed fun _ _ => And.left,
    fun backed => Covered.mono backed fun _ _ listed => ⟨listed, trivial⟩⟩

theorem Session.Backed.passes {start : Session V} (backed : start.Backed) (run : Passes env backend excluded start m) :
    m.Backed :=
  backed_iff.mpr ((backed_iff.mp backed).passes (fun _ _ _ _ _ _ => trivial) run)

/-- Every vector row has its vector in the saved file. -/
def Disk.Backed (d : Disk V) : Prop := ∀ row ∈ d.db.vectors, row.vid ∈ d.savedVids

/-- A session opened on such a disk. -/
theorem Disk.Backed.opened {d : Disk V} {readOnly : Bool} (backed : d.Backed) :
    (Session.of (d.open readOnly)).Backed := .opened fun row member _ => backed row member

theorem backed_keyed (backed : (Session.of s).Backed) :
    (Session.of { s with db := s.db.keyed env backend }).Backed := by
  have allotted : (Session.of { s with db := s.db.keyed env backend }).Allotted :=
    backed.allotted.step (Step.keyed (.of s) _ _ _ : Step env _ _ _)
  have before : ∀ row ∈ (s.db.keyed env backend).vectors, ∃ old ∈ s.db.vectors, row.vid = old.vid := by
    intro row member
    obtain ⟨old, inside, rfl⟩ := Db.mem_backfillVectorKeys.mp member
    exact ⟨old, inside, (Db.backfill_keys _ _ _ old).2.2⟩
  refine ⟨allotted, fun row member _ => ?_, fun row member _ => ?_, fun _ none => absurd none List.not_mem_nil,
    fun _ none => absurd none List.not_mem_nil⟩
  · obtain ⟨old, inside, same⟩ := before row member
    rw [same]
    exact backed.file old inside List.not_mem_nil
  · obtain ⟨old, inside, same⟩ := before row member
    rw [same]
    exact backed.memory old inside List.not_mem_nil

/-- A completed reclaim deletes rows together with their vectors. -/
theorem Store.Reclaimed.backed {hashes : List String} {t : Store V} (reclaimed : Store.Reclaimed hashes s t)
    (saved : s.disk.Backed) (held : ∀ row ∈ s.db.vectors, row.vid ∈ s.hnsw.inner.keys) : t.disk.Backed := by
  intro row member
  obtain ⟨before, kept⟩ := (reclaimed.rows row).mp member
  refine reclaimed.saved (saved row before) (held row before) fun other inside same => ?_
  have one : other = row := Table.eq_of_clash inside before (.inr same)
  exact one ▸ kept

theorem WorkLeft.backed {cols : List Collection} {u mid t : Store V} {taken : List Place} {result : EmbedRun × EmbedFlow}
    (work : WorkLeft env backend cols u taken result mid t) (backed : (Session.of u).Backed) : t.disk.Backed := by
  have after : (Session.of mid).Backed := backed.passes work.steps
  exact work.reclaimed.backed (fun row member => after.file row member List.not_mem_nil)
    fun row member => after.memory row member List.not_mem_nil

end Rqmd
