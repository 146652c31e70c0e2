import Rqmd.VectorRows
import Rqmd.Moves

/-! Where vector ids come from. Through every step of every command the allocator stays past each id that a
row, a pending chunk or the document in hand holds. -/

namespace Rqmd
open Transition

variable {V : Type} {env : Env V} {backend : Backend} {excluded : List Nat} {m n : Session V}

namespace VectorIndex

variable {index after : VectorIndex V} {vector : V} {vid : Nat}

theorem add_some (given : index.add vector = (some vid, after)) :
    ∃ absent : vid ∉ index.inner.keys, index.nextVid ≤ vid ∧
      after = ⟨index.inner.insert vid vector absent, vid + 1, index.readOnly⟩ := by
  unfold add at given
  split at given
  · simp at given
  · exact addRetrying_some given

theorem add_none (given : index.add vector = (none, after)) :
    after.inner = index.inner ∧ index.nextVid ≤ after.nextVid ∧ after.readOnly = index.readOnly := by
  unfold add at given
  split at given
  · simp only [Prod.mk.injEq, true_and] at given
    subst given
    exact ⟨rfl, Nat.le_refl _, rfl⟩
  · exact addRetrying_inner given

theorem add_readOnly {answer : Option Nat} (result : index.add vector = (answer, after)) :
    after.readOnly = index.readOnly := by
  cases answer with
  | none => exact (add_none result).2.2
  | some vid =>
    obtain ⟨_, _, rfl⟩ := add_some result
    rfl

/-- A vector the index holds keeps its place when another is added. -/
theorem getVector_add {held : V} {other : Nat} (result : index.add vector = (some vid, after))
    (there : index.getVector other = some held) : after.getVector other = some held := by
  obtain ⟨absent, -, rfl⟩ := add_some result
  have present : other ∈ index.inner.keys := by
    apply Vectors.get?_isSome.mp
    rw [show index.inner.get? other = some held from there]
    rfl
  have apart : vid ≠ other := fun same => absent (same ▸ present)
  change (index.inner.insert vid vector absent).get? other = some held
  rw [Vectors.get?_insert, if_neg apart]
  exact there

/-- A present key is skipped, so adding a vector leaves every other lookup alone. -/
theorem get?_add (result : index.add vector = (some vid, after)) (other : Nat) :
    after.inner.get? other = if vid = other then some vector else index.inner.get? other := by
  obtain ⟨absent, -, rfl⟩ := add_some result
  change (index.inner.insert vid vector absent).get? other = _
  exact Vectors.get?_insert

theorem ensureNextVidAtLeast_nextVid (index : VectorIndex V) (floor : Nat) :
    (index.ensureNextVidAtLeast floor).nextVid = max index.nextVid floor := by
  unfold ensureNextVidAtLeast
  split
  · next below => exact (Nat.max_eq_right (Nat.le_of_lt below)).symm
  · next above => exact (Nat.max_eq_left (Nat.le_of_not_lt above)).symm

@[simp] theorem ensureNextVidAtLeast_inner (index : VectorIndex V) (floor : Nat) :
    (index.ensureNextVidAtLeast floor).inner = index.inner := by
  unfold ensureNextVidAtLeast
  split <;> rfl

@[simp] theorem ensureNextVidAtLeast_readOnly (index : VectorIndex V) (floor : Nat) :
    (index.ensureNextVidAtLeast floor).readOnly = index.readOnly := by
  unfold ensureNextVidAtLeast
  split <;> rfl

end VectorIndex

namespace Store

variable {index : VectorIndex V} {vids : List Nat} {vid : Nat}

@[simp] theorem removeVids_readOnly (index : VectorIndex V) (vids : List Nat) :
    (removeVids index vids).readOnly = index.readOnly := by
  induction vids generalizing index with
  | nil => rfl
  | cons vid vids ih => exact ih (index.remove vid)

@[simp] theorem removeVids_nextVid (index : VectorIndex V) (vids : List Nat) :
    (removeVids index vids).nextVid = index.nextVid := by
  induction vids generalizing index with
  | nil => rfl
  | cons vid vids ih => exact ih (index.remove vid)

theorem get?_removeVids (index : VectorIndex V) (vids : List Nat) (vid : Nat) :
    (removeVids index vids).inner.get? vid = if vid ∈ vids then none else index.inner.get? vid := by
  induction vids generalizing index with
  | nil => simp [removeVids]
  | cons first vids ih =>
    have rest := ih (index.remove first)
    change (removeVids (index.remove first) vids).inner.get? vid = _
    rw [rest, VectorIndex.remove, Vectors.get?_remove]
    by_cases later : vid ∈ vids
    · simp [later]
    · by_cases here : first = vid
      · simp [here]
      · simp [later, here, Ne.symm here]

theorem mem_keys_removeVids : vid ∈ (removeVids index vids).inner.keys ↔ vid ∈ index.inner.keys ∧ vid ∉ vids := by
  rw [← Vectors.get?_isSome, get?_removeVids]
  by_cases gone : vid ∈ vids
  · simp [gone]
  · simp [gone, Vectors.get?_isSome]

end Store

/-! ### The allocator of an opened index -/

section Opening

variable {file : Option (Vectors V)} {db : Db} {readOnly : Bool}

theorem openHnsw_inner : (openHnsw file db readOnly).inner = file.getD .empty := by
  unfold openHnsw
  cases file <;> cases db.maxVectorVid <;> cases db.nextVid <;> simp [VectorIndex.load, VectorIndex.new]

theorem openHnsw_readOnly (vectors : Vectors V) : (openHnsw (some vectors) db readOnly).readOnly = readOnly := by
  unfold openHnsw
  cases db.maxVectorVid <;> cases db.nextVid <;> simp [VectorIndex.load]

theorem openHnsw_writable : (openHnsw file db false).readOnly = false := by
  cases file with
  | some vectors => exact openHnsw_readOnly vectors
  | none =>
    unfold openHnsw
    cases db.maxVectorVid <;> cases db.nextVid <;> simp [VectorIndex.new]

/-- The maximum of the file's size, the successor of the largest recorded vid and the floor. -/
theorem openHnsw_nextVid : (openHnsw file db readOnly).nextVid =
    max (max (file.getD .empty).size ((db.maxVectorVid.map (· + 1)).getD 0)) (db.nextVid.getD 0) := by
  unfold openHnsw
  cases file <;> cases db.maxVectorVid <;> cases db.nextVid <;>
    simp [VectorIndex.ensureNextVidAtLeast_nextVid, VectorIndex.load, VectorIndex.new, Vectors.size, Vectors.empty]

theorem row_below_openHnsw {row : VectorRow} (member : row ∈ db.vectors) :
    row.vid < (openHnsw file db readOnly).nextVid := by
  rw [openHnsw_nextVid]
  have inside : row.vid ∈ db.vectors.rows.map VectorRow.vid := List.mem_map_of_mem member
  cases largest : db.maxVectorVid with
  | none =>
    have empty : db.vectors.rows.map VectorRow.vid = [] := List.max?_eq_none_iff.mp largest
    rw [empty] at inside
    exact absurd inside List.not_mem_nil
  | some top =>
    have bound : row.vid ≤ top := (List.max?_eq_some_iff.mp largest).2 _ inside
    simp only [Option.map_some, Option.getD_some]
    omega

theorem floor_le_openHnsw : db.nextVid.getD 0 ≤ (openHnsw file db readOnly).nextVid := by
  rw [openHnsw_nextVid]
  exact Nat.le_max_right _ _

end Opening

/-! ### The allocation invariant -/

/-- The allocator is past the floor and past every id in use, and no id has two uses. -/
structure Session.Allotted (m : Session V) : Prop where
  floor : m.store.db.nextVid.getD 0 ≤ m.store.hnsw.nextVid
  rows : ∀ row ∈ m.store.db.vectors, row.vid < m.store.hnsw.nextVid
  pending : ∀ p ∈ m.pending, p.vid < m.store.hnsw.nextVid ∧ ∀ row ∈ m.store.db.vectors, row.vid ≠ p.vid
  batch : ∀ a ∈ m.batch, a.vid < m.store.hnsw.nextVid ∧ (∀ row ∈ m.store.db.vectors, row.vid ≠ a.vid) ∧
    ∀ p ∈ m.pending, p.vid ≠ a.vid

theorem batchMetas_source {hash relPath : String} {batch : List AddedVector} {p : PendingVectorMeta}
    (member : p ∈ batchMetas env hash relPath batch) : p.hash = hash ∧ ∃ a ∈ batch, p.vid = a.vid ∧
      p.model = a.backend.model ∧ p.vectorKey = a.key env := by
  obtain ⟨i, bound, rfl⟩ := List.mem_mapIdx.mp member
  exact ⟨rfl, batch[i], List.getElem_mem bound, rfl, rfl, rfl⟩

namespace Session.Allotted

/-- A step that touches neither the ids nor the allocator. -/
theorem withStore {s : Store V} (allotted : m.Allotted) (floor : s.db.nextVid = m.store.db.nextVid)
    (rows : ∀ row ∈ s.db.vectors, row ∈ m.store.db.vectors ∨ ∃ old ∈ m.store.db.vectors, row.vid = old.vid)
    (next : m.store.hnsw.nextVid ≤ s.hnsw.nextVid) : (m.withStore s).Allotted := by
  have known : ∀ row ∈ s.db.vectors, ∃ old ∈ m.store.db.vectors, row.vid = old.vid := fun row member =>
    (rows row member).elim (fun old => ⟨row, old, rfl⟩) id
  refine ⟨?_, ?_, ?_, ?_⟩
  · have := allotted.floor
    change s.db.nextVid.getD 0 ≤ s.hnsw.nextVid
    rw [floor]
    omega
  · intro row member
    obtain ⟨old, inside, same⟩ := known row member
    have := allotted.rows old inside
    change row.vid < s.hnsw.nextVid
    omega
  · intro p member
    have here := allotted.pending p member
    refine ⟨Nat.lt_of_lt_of_le here.1 next, fun row inside => ?_⟩
    obtain ⟨old, there, same⟩ := known row inside
    exact same ▸ here.2 old there
  · intro a member
    have here := allotted.batch a member
    refine ⟨Nat.lt_of_lt_of_le here.1 next, fun row inside => ?_, here.2.2⟩
    obtain ⟨old, there, same⟩ := known row inside
    exact same ▸ here.2.1 old there

theorem added {chunk : Chunk} {vector : V} {vid : Nat} {index : VectorIndex V} (allotted : m.Allotted)
    (given : m.store.hnsw.add vector = (some vid, index)) : (m.added backend chunk vid index).Allotted := by
  obtain ⟨absent, later, rfl⟩ := VectorIndex.add_some given
  have floor := allotted.floor
  refine ⟨?_, ?_, ?_, ?_⟩
  · change m.store.db.nextVid.getD 0 ≤ vid + 1
    omega
  · intro row member
    have := allotted.rows row member
    change row.vid < vid + 1
    omega
  · intro p member
    have here := allotted.pending p member
    exact ⟨by change p.vid < vid + 1; omega, here.2⟩
  · intro a member
    rcases List.mem_append.mp member with old | new
    · have here := allotted.batch a old
      exact ⟨by change a.vid < vid + 1; omega, here.2⟩
    · rw [List.mem_singleton.mp new]
      refine ⟨Nat.lt_succ_self vid, fun row inside => ?_, fun p inside => ?_⟩
      · have := allotted.rows row inside
        change row.vid ≠ vid
        omega
      · have := (allotted.pending p inside).1
        change p.vid ≠ vid
        omega

theorem embedded {hash relPath : String} (allotted : m.Allotted) : (m.embedded env hash relPath).Allotted := by
  have next : (m.embedded env hash relPath).store.hnsw.nextVid = m.store.hnsw.nextVid := by
    simp only [Session.embedded]
    split
    · exact Store.removeVids_nextVid _ _
    · rfl
  refine ⟨next ▸ allotted.floor, fun row member => next ▸ allotted.rows row member, ?_,
    fun a none => absurd none List.not_mem_nil⟩
  intro p member
  rw [next]
  rcases List.mem_append.mp member with old | new
  · exact allotted.pending p old
  · obtain ⟨-, a, inside, same, -⟩ := batchMetas_source new
    have here := allotted.batch a inside
    exact same ▸ ⟨here.1, here.2.1⟩

theorem rolledBack (allotted : m.Allotted) : m.rolledBack.Allotted := by
  have next : m.rolledBack.store.hnsw.nextVid = m.store.hnsw.nextVid := Store.removeVids_nextVid _ _
  refine ⟨next ▸ allotted.floor, fun row member => next ▸ allotted.rows row member, ?_,
    fun a none => absurd none List.not_mem_nil⟩
  exact fun p member => next ▸ allotted.pending p member

theorem committed {db : Db} (allotted : m.Allotted)
    (rows : Store.checkpointRows m.pending m.superseded m.store.hnsw.nextVid m.store.db = .ok db) :
    (m.committed db).Allotted := by
  have done := Db.checkpointed rows
  have floor := allotted.floor
  refine ⟨?_, ?_, fun p none => absurd none List.not_mem_nil, ?_⟩
  · change db.nextVid.getD 0 ≤ m.store.hnsw.nextVid
    rw [done.floor]
    omega
  · intro row member
    rcases done.source row member with ⟨p, inside, rfl⟩ | ⟨old, -, -⟩
    · exact (allotted.pending p inside).1
    · exact allotted.rows row old
  · intro a member
    have here := allotted.batch a member
    refine ⟨here.1, fun row inside => ?_, fun p none => absurd none List.not_mem_nil⟩
    rcases done.source row inside with ⟨p, waiting, rfl⟩ | ⟨old, -, -⟩
    · exact here.2.2 p waiting
    · exact here.2.1 row old

theorem embedStep (allotted : m.Allotted) (step : EmbedStep env backend excluded m n) : n.Allotted := by
  cases step with
  | aside fts dirty log quiet => exact allotted.withStore rfl (fun _ => .inl) (Nat.le_refl _)
  | unmarked hash => exact allotted.withStore rfl (fun _ => .inl) (Nat.le_refl _)
  | added chunk vector vid index source given => exact allotted.added given
  | refused vector index given =>
    exact allotted.withStore rfl (fun _ => .inl) (VectorIndex.add_none given).2.1
  | rolledBack => exact allotted.rolledBack
  | embedded hash relPath pending first => exact allotted.embedded
  | saved writable => exact allotted.withStore rfl (fun _ => .inl) (Nat.le_refl _)
  | committed db saved rows => exact allotted.committed rows

theorem opened (s : Store V) (readOnly : Bool) : (Session.of (s.disk.open readOnly)).Allotted :=
  ⟨floor_le_openHnsw, fun _ member => row_below_openHnsw member, fun _ none => absurd none List.not_mem_nil,
    fun _ none => absurd none List.not_mem_nil⟩

theorem step {kind : StepKind} (allotted : m.Allotted) (step : Step env kind m n) : n.Allotted := by
  cases step with
  | embed backend excluded m n step => exact allotted.embedStep step
  | aside m db fts dirty log vectors floor quiet =>
    exact allotted.withStore floor (fun _ member => .inl (vectors ▸ member)) (Nat.le_refl _)
  | saved m writable => exact allotted.withStore rfl (fun _ => .inl) (Nat.le_refl _)
  | dropped m db gone log vectors documents floor quiet =>
    refine allotted.withStore floor (fun row member => .inl ?_) (Nat.le_refl _)
    have inside : row ∈ db.vectors := member
    rw [vectors] at inside
    exact (Table.mem_deleteWhere.mp inside).1
  | keyed m model fingerprints keyFor =>
    refine allotted.withStore rfl (fun row member => .inr ?_) (Nat.le_refl _)
    obtain ⟨old, inside, rfl⟩ := Db.mem_backfillVectorKeys.mp member
    exact ⟨old, inside, (Db.backfill_keys model fingerprints keyFor old).2.2⟩
  | evicted m hashes vids theirs =>
    exact allotted.withStore rfl (fun _ => .inl) (Nat.le_of_eq (Store.removeVids_nextVid _ _).symm)
  | fileRemoved m idle => exact allotted.withStore rfl (fun _ => .inl) (Nat.le_refl _)
  | opened m readOnly => exact opened _ _

end Session.Allotted

/-- Everywhere on every run. -/
theorem allotted_of_reaches {guard : StepKind → Session V → Session V → Prop} {start : Session V}
    (allotted : start.Allotted) (run : Reaches (Step env) guard start m) : m.Allotted :=
  run.invariant allotted fun _ _ _ kept _ step => kept.step step

end Rqmd
