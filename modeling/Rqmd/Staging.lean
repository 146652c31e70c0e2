import Rqmd.Fts

/-! How a delete by path and an insert change the entries of one document id. The ids in play are
those some relation `sits` places at a filepath. -/

namespace Rqmd

/-- The entries a document id has. -/
def entriesOf (entries : List FtsEntry) (id : Nat) : List FtsEntry := entries.filter fun e => e.docId == id

@[simp] theorem mem_entriesOf {entries : List FtsEntry} {id : Nat} {e : FtsEntry} :
    e ∈ entriesOf entries id ↔ e ∈ entries ∧ e.docId = id := by
  simp [entriesOf]

theorem entriesOf_append (left right : List FtsEntry) (id : Nat) :
    entriesOf (left ++ right) id = entriesOf left id ++ entriesOf right id := by
  simp [entriesOf]

theorem entriesOf_singleton (e : FtsEntry) (id : Nat) :
    entriesOf [e] id = if e.docId = id then [e] else [] := by
  by_cases same : e.docId = id <;> simp [entriesOf, same]

namespace FtsIndex

variable {V : Type} {env : Env V} {index : FtsIndex} {sits : Nat → String → Prop}

/-- A complete `delete_by_filepath`. -/
def deleted (env : Env V) (index : FtsIndex) (filepath : String) : FtsIndex :=
  if (env.pathTerms filepath).isEmpty then index
  else
    let ids := index.committedDocIdsAt env filepath ++ (index.takeStaged filepath).1
    if ids.isEmpty then (index.takeStaged filepath).2
    else (index.takeStaged filepath).2.deleteQuery env filepath ids

/-- Every entry of a placed id stands at its place, and each working entry is one a delete can find. -/
structure Located (index : FtsIndex) (sits : Nat → String → Prop) : Prop where
  committed : ∀ e ∈ index.committed, ∀ fp, sits e.docId fp → e.filepath = fp
  working : ∀ e ∈ index.working, ∀ fp, sits e.docId fp → e.filepath = fp
  staged : ∀ x ∈ index.staged, ∀ fp, sits x.2 fp → x.1 = fp
  known : ∀ e ∈ index.working, e ∈ index.committed ∨ (e.filepath, e.docId) ∈ index.staged

@[simp] theorem committed_deleted (filepath : String) :
    (index.deleted env filepath).committed = index.committed := by
  simp only [deleted]
  split
  · rfl
  · split <;> rfl

@[simp] theorem frontmatterField_deleted (filepath : String) :
    (index.deleted env filepath).frontmatterField = index.frontmatterField := by
  simp only [deleted]
  split
  · rfl
  · split <;> rfl

theorem working_deleted (filepath : String) :
    (index.deleted env filepath).working = index.working.filter fun e =>
      !(phraseMatches (env.pathTerms filepath) (env.pathTerms e.filepath) &&
        (index.committedDocIdsAt env filepath ++ (index.takeStaged filepath).1).contains e.docId) := by
  simp only [deleted]
  split
  · next termless =>
    have empty : env.pathTerms filepath = [] := by simpa using termless
    exact (List.filter_eq_self.mpr fun e _ => by simp [empty, phraseMatches]).symm
  · split
    · next none =>
      have empty : index.committedDocIdsAt env filepath ++ (index.takeStaged filepath).1 = [] := by
        simpa using none
      rw [empty]
      exact (List.filter_eq_self.mpr fun e _ => by simp).symm
    · rfl

theorem staged_deleted (filepath : String) (terms : env.pathTerms filepath ≠ []) :
    (index.deleted env filepath).staged = index.staged.filter fun s => s.1 != filepath := by
  simp only [deleted]
  rw [if_neg (by simpa using terms)]
  split <;> rfl

theorem deleted_termless {filepath : String} (termless : env.pathTerms filepath = []) :
    index.deleted env filepath = index := by
  simp [deleted, termless]

/-- The ids a delete collects belong to entries stored or staged under exactly its path. -/
theorem collected (located : index.Located sits) {filepath fp : String} {id : Nat} (placed : sits id fp)
    (member : id ∈ index.committedDocIdsAt env filepath ++ (index.takeStaged filepath).1) : filepath = fp := by
  rcases List.mem_append.mp member with found | own
  · simp only [committedDocIdsAt, List.mem_map, List.mem_filter, Bool.and_eq_true, beq_iff_eq] at found
    obtain ⟨e, ⟨inside, -, path⟩, rfl⟩ := found
    exact path.symm.trans (located.committed e inside fp placed)
  · simp only [takeStaged, List.mem_map, List.mem_filter, beq_iff_eq] at own
    obtain ⟨x, ⟨inside, path⟩, rfl⟩ := own
    exact path.symm.trans (located.staged x inside fp placed)

/-- A delete leaves the entries of an id placed elsewhere alone. -/
theorem entriesOf_deleted_other (located : index.Located sits) {filepath fp : String} {id : Nat}
    (placed : sits id fp) (elsewhere : filepath ≠ fp) :
    entriesOf (index.deleted env filepath).working id = entriesOf index.working id := by
  rw [working_deleted]
  simp only [entriesOf, List.filter_filter]
  refine List.filter_congr fun e _ => ?_
  by_cases same : e.docId = id
  · have outside : e.docId ∉ index.committedDocIdsAt env filepath ++ (index.takeStaged filepath).1 := by
      rw [same]
      exact fun member => elsewhere (collected located placed member)
    simp only [same] at outside ⊢
    simp [outside]
  · simp [same]

/-- A delete by a path with terms removes every entry of the id placed there. -/
theorem entriesOf_deleted_self (located : index.Located sits) {filepath : String} {id : Nat}
    (placed : sits id filepath) (terms : env.pathTerms filepath ≠ []) :
    entriesOf (index.deleted env filepath).working id = [] := by
  rw [List.eq_nil_iff_forall_not_mem]
  intro e member
  rw [mem_entriesOf, working_deleted, List.mem_filter] at member
  obtain ⟨⟨inside, kept⟩, rfl⟩ := member
  have path := located.working e inside filepath placed
  have hit : phraseMatches (env.pathTerms filepath) (env.pathTerms e.filepath) = true := by
    rw [path]
    exact phrase_matches_self _ terms
  have collected : e.docId ∈ index.committedDocIdsAt env filepath ++ (index.takeStaged filepath).1 := by
    rcases located.known e inside with stored | staged
    · refine List.mem_append_left _ ?_
      simp only [committedDocIdsAt, List.mem_map, List.mem_filter, Bool.and_eq_true, beq_iff_eq]
      exact ⟨e, ⟨stored, hit, path⟩, rfl⟩
    · refine List.mem_append_right _ ?_
      simp only [takeStaged, List.mem_map, List.mem_filter, beq_iff_eq]
      exact ⟨(e.filepath, e.docId), ⟨staged, path⟩, rfl⟩
  simp [hit, collected] at kept

theorem located_deleted (located : index.Located sits) (filepath : String) :
    (index.deleted env filepath).Located sits := by
  by_cases termless : env.pathTerms filepath = []
  · rwa [deleted_termless termless]
  · refine ⟨?_, ?_, ?_, ?_⟩
    · simpa using located.committed
    · intro e member
      rw [working_deleted] at member
      exact located.working e (List.mem_filter.mp member).1
    · intro x member
      rw [staged_deleted _ termless] at member
      exact located.staged x (List.mem_filter.mp member).1
    · intro e member
      rw [working_deleted, List.mem_filter] at member
      obtain ⟨inside, kept⟩ := member
      rw [staged_deleted _ termless, committed_deleted]
      rcases located.known e inside with stored | staged
      · exact .inl stored
      · by_cases path : e.filepath = filepath
        · -- an entry staged under this very path is deleted, so it is not a working one
          have own : e.docId ∈ (index.takeStaged filepath).1 := by
            simp only [takeStaged, List.mem_map, List.mem_filter, beq_iff_eq]
            exact ⟨(e.filepath, e.docId), ⟨staged, path⟩, rfl⟩
          rw [path] at kept
          simp [phrase_matches_self _ termless, own] at kept
        · exact .inr (List.mem_filter.mpr ⟨staged, by simpa using path⟩)

theorem located_insert (located : index.Located sits) (entry : FtsEntry)
    (place : ∀ fp, sits entry.docId fp → entry.filepath = fp) : (index.insertEntry entry).Located sits := by
  refine ⟨located.committed, ?_, ?_, ?_⟩
  · intro e member
    rcases List.mem_append.mp member with inside | new
    · exact located.working e inside
    · rw [List.mem_singleton.mp new]
      exact place
  · intro x member
    rcases List.mem_append.mp member with inside | new
    · exact located.staged x inside
    · rw [List.mem_singleton.mp new]
      exact place
  · intro e member
    rcases List.mem_append.mp member with inside | new
    · exact (located.known e inside).imp_right (List.mem_append_left _)
    · rw [List.mem_singleton.mp new]
      exact .inr (List.mem_append_right _ (List.mem_singleton_self _))

theorem located_commit (located : index.Located sits) : index.commitStaged.Located sits :=
  ⟨located.working, located.working, fun _ member => absurd member List.not_mem_nil, fun _ => .inl⟩

theorem located_mono {other : Nat → String → Prop} (located : index.Located sits)
    (fewer : ∀ id fp, other id fp → sits id fp) : index.Located other :=
  ⟨fun e member fp placed => located.committed e member fp (fewer _ _ placed),
    fun e member fp placed => located.working e member fp (fewer _ _ placed),
    fun x member fp placed => located.staged x member fp (fewer _ _ placed), located.known⟩

end FtsIndex

end Rqmd
