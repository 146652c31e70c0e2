import Rqmd.UpdateSteps

/-! One path at a time: a slot is the row of a path with the full-text entries of its id. The steps of
an update pass act on the slot of the file they are at and leave every other slot alone. -/

namespace Rqmd
open Interrupt

variable {V : Type} {env : Env V} {s : Store V} {c d : CollectionName} {p q : String}

/-- The id of some row, and the filepath it stands at. -/
def Db.Sits (db : Db) (id : Nat) (fp : String) : Prop :=
  ∃ c p v, db.rowAt c p = some v ∧ v.id = id ∧ filepath c p = fp

theorem Db.sits_unique {db : Db} {id : Nat} {fp : String} {v : Db.RowView} (sits : db.Sits id fp)
    (found : db.rowAt c p = some v) (same : v.id = id) : fp = filepath c p := by
  obtain ⟨d, q, w, place, rfl, rfl⟩ := sits
  obtain ⟨rfl, rfl, -⟩ := Db.rowAt_id found place same
  rfl

structure Slot where
  row : Option Db.RowView
  entries : List FtsEntry
deriving DecidableEq

def Store.entriesAt (s : Store V) (entries : List FtsEntry) (c : CollectionName) (p : String) : List FtsEntry :=
  match s.db.rowAt c p with
  | none => []
  | some v => entriesOf entries v.id

/-- The row at a path and the entries the next commit will leave it. -/
def Store.slot (s : Store V) (c : CollectionName) (p : String) : Slot :=
  ⟨s.db.rowAt c p, s.entriesAt s.fts.working c p⟩

/-- Entries stand where their rows do, no entry has an id yet to be given, and without a writer nothing
is staged. -/
structure Placed (s : Store V) : Prop where
  located : s.fts.Located s.db.Sits
  committed : ∀ e ∈ s.fts.committed, e.docId ≤ s.db.sequence
  working : ∀ e ∈ s.fts.working, e.docId ≤ s.db.sequence
  staged : ∀ x ∈ s.fts.staged, x.2 ≤ s.db.sequence
  idle : s.fts.writer = false → s.fts.working = s.fts.committed

/-- The slot of a row that is written with the entry made for it. -/
def Slot.rewritten (termless : Bool) (slot : Slot) (v : Db.RowView) (entry : FtsEntry) : Slot :=
  ⟨some v, (if termless then slot.entries else []) ++ [entry]⟩

theorem slot_of_rows {db : Db} (rows : db.rowAt c p = s.db.rowAt c p) :
    ({ s with db := db } : Store V).slot c p = s.slot c p := by
  simp [Store.slot, Store.entriesAt, rows]

theorem sits_of_rows {db after : Db} (rows : ∀ c p, (after.rowAt c p).map Db.RowView.id = (db.rowAt c p).map Db.RowView.id)
    {id : Nat} {fp : String} : after.Sits id fp ↔ db.Sits id fp := by
  have half : ∀ {a b : Db}, (∀ c p, (a.rowAt c p).map Db.RowView.id = (b.rowAt c p).map Db.RowView.id) →
      a.Sits id fp → b.Sits id fp := by
    rintro a b same ⟨c, p, v, found, rfl, rfl⟩
    have row := same c p
    rw [found] at row
    obtain ⟨w, other, id⟩ := Option.map_eq_some_iff.mp row.symm
    exact ⟨c, p, w, other, id, rfl⟩
  exact ⟨half rows, half fun c p => (rows c p).symm⟩

theorem Placed.withRows {db : Db} (placed : Placed s)
    (rows : ∀ c p, (db.rowAt c p).map Db.RowView.id = (s.db.rowAt c p).map Db.RowView.id)
    (sequence : s.db.sequence ≤ db.sequence) (log : List Event) :
    Placed { s with db := db, log := log } where
  located := FtsIndex.located_mono placed.located fun _ _ => (sits_of_rows rows).mp
  committed e member := (placed.committed e member).trans sequence
  working e member := (placed.working e member).trans sequence
  staged x member := (placed.staged x member).trans sequence
  idle := placed.idle

theorem Placed.unmoved {db : Db} {stored : ContentRow} (placed : Placed s) (unmoved : Db.Unmoved s.db stored db) :
    Placed { s with db := db } :=
  placed.withRows (fun c p => by rw [unmoved.rows c p]) (le_of_eq unmoved.counter.symm) s.log

theorem Placed.deleted (placed : Placed s) (filepath : String) :
    Placed { s with fts := s.fts.deleted env filepath } where
  located := FtsIndex.located_deleted placed.located filepath
  committed e member := placed.committed e (by simpa using member)
  working e member := by
    rw [FtsIndex.working_deleted] at member
    exact placed.working e (List.mem_filter.mp member).1
  staged x member := by
    by_cases termless : env.pathTerms filepath = []
    · rw [FtsIndex.deleted_termless termless] at member
      exact placed.staged x member
    · rw [FtsIndex.staged_deleted _ termless] at member
      exact placed.staged x (List.mem_filter.mp member).1
  idle := by
    simp only [FtsIndex.deleted]
    split
    · exact placed.idle
    · split
      · exact placed.idle
      · intro writer
        cases writer

theorem slot_deleted_other (placed : Placed s) {filepath' : String} (elsewhere : filepath' ≠ filepath c p) :
    ({ s with fts := s.fts.deleted env filepath' } : Store V).slot c p = s.slot c p := by
  simp only [Store.slot, Store.entriesAt, Slot.mk.injEq, true_and]
  split
  · rfl
  · next v found =>
    exact FtsIndex.entriesOf_deleted_other placed.located ⟨c, p, v, found, rfl, rfl⟩ elsewhere

theorem slot_deleted_self (placed : Placed s) :
    ({ s with fts := s.fts.deleted env (filepath c p) } : Store V).slot c p =
      ⟨(s.slot c p).row, if env.pathTerms (filepath c p) = [] then (s.slot c p).entries else []⟩ := by
  by_cases termless : env.pathTerms (filepath c p) = []
  · rw [FtsIndex.deleted_termless termless, if_pos termless]
  · rw [if_neg termless]
    simp only [Store.slot, Store.entriesAt, Slot.mk.injEq, true_and]
    split
    · rfl
    · next v found =>
      exact FtsIndex.entriesOf_deleted_self placed.located ⟨c, p, v, found, rfl, rfl⟩ termless

section Indexing

variable {doc : PreparedDoc} {db : Db} {id : Nat}

/-- The ids of the rows after a write: those before it, and the written one at its path. -/
theorem sits_written {stored : ContentRow} {v : Db.RowView} {other : Nat} {fp : String}
    (written : Db.Written s.db stored c p v db) (sits : db.Sits other fp) :
    s.db.Sits other fp ∨ (other = v.id ∧ fp = filepath c p) := by
  obtain ⟨d, q, w, found, rfl, rfl⟩ := sits
  by_cases here : (d, q) = (c, p)
  · simp only [Prod.mk.injEq] at here
    obtain ⟨rfl, rfl⟩ := here
    rw [written.row] at found
    cases found
    exact .inr ⟨rfl, rfl⟩
  · rw [written.others d q here] at found
    exact .inl ⟨d, q, w, found, rfl, rfl⟩

/-- An entry that already carries the id of the row being written stands at that row's path. -/
theorem owned_place (placed : Placed s) (own : Store.IdOf s.db c p id) {e : FtsEntry}
    (member : e ∈ s.fts.committed ∨ e ∈ s.fts.working) (same : e.docId = id) : e.filepath = filepath c p := by
  have bound : e.docId ≤ s.db.sequence := member.elim (placed.committed e) (placed.working e)
  cases found : s.db.rowAt c p with
  | none =>
    have := own.2 found
    omega
  | some v =>
    have sits : s.db.Sits e.docId (filepath c p) := ⟨c, p, v, found, (own.1 v found).trans same.symm, rfl⟩
    exact member.elim (fun inside => placed.located.committed e inside _ sits)
      fun inside => placed.located.working e inside _ sits

theorem owned_staged (placed : Placed s) (own : Store.IdOf s.db c p id) {x : String × Nat}
    (member : x ∈ s.fts.staged) (same : x.2 = id) : x.1 = filepath c p := by
  have bound := placed.staged x member
  cases found : s.db.rowAt c p with
  | none =>
    have := own.2 found
    omega
  | some v =>
    exact placed.located.staged x member _ ⟨c, p, v, found, (own.1 v found).trans same.symm, rfl⟩

/-- Writing a row keeps every entry placed. -/
theorem Placed.written {stored : ContentRow} {hash : String} {active : Bool} (placed : Placed s)
    (own : Store.IdOf s.db c p id) (written : Db.Written s.db stored c p ⟨id, hash, active⟩ db) (log : List Event) :
    Placed { s with db := db, log := log } where
  located := by
    refine ⟨?_, ?_, ?_, placed.located.known⟩
    · intro e member fp sits
      rcases sits_written written sits with before | ⟨same, rfl⟩
      · exact placed.located.committed e member fp before
      · exact owned_place placed own (.inl member) same
    · intro e member fp sits
      rcases sits_written written sits with before | ⟨same, rfl⟩
      · exact placed.located.working e member fp before
      · exact owned_place placed own (.inr member) same
    · intro x member fp sits
      rcases sits_written written sits with before | ⟨same, rfl⟩
      · exact placed.located.staged x member fp before
      · exact owned_staged placed own member same
  committed e member := (placed.committed e member).trans written.sequence
  working e member := (placed.working e member).trans written.sequence
  staged x member := (placed.staged x member).trans written.sequence
  idle := placed.idle

theorem Placed.insert (placed : Placed s) {entry : FtsEntry} (bound : entry.docId ≤ s.db.sequence)
    (place : ∀ fp, s.db.Sits entry.docId fp → entry.filepath = fp) :
    Placed { s with fts := s.fts.insertEntry entry } where
  located := FtsIndex.located_insert placed.located entry place
  committed := placed.committed
  working e member := by
    rcases List.mem_append.mp member with inside | new
    · exact placed.working e inside
    · rw [List.mem_singleton.mp new]
      exact bound
  staged x member := by
    rcases List.mem_append.mp member with inside | new
    · exact placed.staged x inside
    · rw [List.mem_singleton.mp new]
      exact bound
  idle writer := by cases writer

/-- The row as written, before its entries are replaced. -/
def Store.rowWritten (s : Store V) (db : Db) (id : Nat) : Store V :=
  { s with db := db, log := s.log ++ [.documentWritten id] }

theorem Placed.rowWritten (placed : Placed s) (own : Store.IdOf s.db c p id)
    (written : Db.Written s.db (Store.contentRow env doc) c p (Store.writtenView env doc id) db) :
    Placed (s.rowWritten db id) := placed.written own written _

theorem Placed.indexed (placed : Placed s) (own : Store.IdOf s.db c p id)
    (written : Db.Written s.db (Store.contentRow env doc) c p (Store.writtenView env doc id) db) :
    Placed (Store.indexed env c p doc s db id) := by
  have row := placed.rowWritten own written
  have removed := @Placed.deleted _ env _ row (filepath c p)
  have bound : id ≤ db.sequence := Db.rowAt_bounded written.row
  refine Placed.insert removed bound ?_
  intro fp sits
  exact (Db.sits_unique sits written.row rfl).symm

/-- The entries an id about to be written has are those of the slot it is written at. -/
theorem entries_of_own (placed : Placed s) (own : Store.IdOf s.db c p id) :
    entriesOf s.fts.working id = (s.slot c p).entries := by
  simp only [Store.slot, Store.entriesAt]
  split
  · next absent =>
    rw [List.eq_nil_iff_forall_not_mem]
    intro e member
    obtain ⟨inside, rfl⟩ := mem_entriesOf.mp member
    have := placed.working e inside
    have := own.2 absent
    omega
  · next v found => rw [own.1 v found]

theorem slot_rowWritten_other (written : Db.Written s.db (Store.contentRow env doc) c p (Store.writtenView env doc id) db)
    (elsewhere : (d, q) ≠ (c, p)) : (s.rowWritten db id).slot d q = s.slot d q :=
  slot_of_rows (written.others d q elsewhere)

theorem slot_rowWritten_self (placed : Placed s) (own : Store.IdOf s.db c p id)
    (written : Db.Written s.db (Store.contentRow env doc) c p (Store.writtenView env doc id) db) :
    (s.rowWritten db id).slot c p = ⟨some (Store.writtenView env doc id), (s.slot c p).entries⟩ := by
  rw [← entries_of_own placed own]
  simp [Store.slot, Store.entriesAt, Store.rowWritten, written.row, Store.writtenView]

theorem slot_insert (entry : FtsEntry) : ({ s with fts := s.fts.insertEntry entry } : Store V).slot c p =
    ⟨(s.slot c p).row, (s.slot c p).entries ++
      if ∃ v, s.db.rowAt c p = some v ∧ v.id = entry.docId then [entry] else []⟩ := by
  simp only [Store.slot, Store.entriesAt, Slot.mk.injEq, true_and]
  split
  · next absent =>
    rw [if_neg]
    · rfl
    · rintro ⟨v, found, -⟩
      rw [absent] at found
      cases found
  · next v found =>
    change entriesOf (s.fts.working ++ [entry]) v.id = _
    rw [entriesOf_append, entriesOf_singleton]
    by_cases same : entry.docId = v.id
    · rw [if_pos same, if_pos ⟨v, found, same.symm⟩]
    · rw [if_neg same, if_neg]
      rintro ⟨w, equal, id⟩
      rw [found] at equal
      cases equal
      exact same id.symm

theorem slot_indexed_other (placed : Placed s) (own : Store.IdOf s.db c p id)
    (written : Db.Written s.db (Store.contentRow env doc) c p (Store.writtenView env doc id) db)
    (elsewhere : (d, q) ≠ (c, p)) : (Store.indexed env c p doc s db id).slot d q = s.slot d q := by
  have row := placed.rowWritten own written
  have apart : filepath c p ≠ filepath d q := by
    intro same
    obtain ⟨rfl, rfl⟩ := filepath_injective same
    exact elsewhere rfl
  refine (@slot_insert V { s.rowWritten db id with fts := s.fts.deleted env (filepath c p) } _ _ _).trans ?_
  have untouched : ({ s.rowWritten db id with fts := s.fts.deleted env (filepath c p) } : Store V).slot d q = _ :=
    slot_deleted_other row apart
  rw [if_neg]
  · simp only [List.append_nil]
    exact untouched.trans (slot_rowWritten_other written elsewhere)
  · rintro ⟨v, found, same⟩
    obtain ⟨rfl, rfl, -⟩ := Db.rowAt_id found written.row same
    exact elsewhere rfl

theorem slot_indexed_self (placed : Placed s) (own : Store.IdOf s.db c p id)
    (written : Db.Written s.db (Store.contentRow env doc) c p (Store.writtenView env doc id) db) :
    (Store.indexed env c p doc s db id).slot c p =
      (s.slot c p).rewritten (env.pathTerms (filepath c p)).isEmpty (Store.writtenView env doc id)
        (Store.entryFor env s.fts c p doc id) := by
  have row := placed.rowWritten own written
  refine (@slot_insert V { s.rowWritten db id with fts := s.fts.deleted env (filepath c p) } _ _ _).trans ?_
  have removed : ({ s.rowWritten db id with fts := s.fts.deleted env (filepath c p) } : Store V).slot c p = _ :=
    slot_deleted_self row
  rw [slot_rowWritten_self placed own written] at removed
  rw [if_pos ⟨_, written.row, rfl⟩]
  have rows := congrArg Slot.row removed
  have entries := congrArg Slot.entries removed
  simp only at rows entries
  unfold Slot.rewritten
  rw [Slot.mk.injEq]
  refine ⟨rows, ?_⟩
  rw [entries]
  simp [List.isEmpty_iff]

end Indexing

section Sweep

variable {chunks : List (List String)}

/-- A row the sweep marks as gone. -/
def Db.RowView.gone (v : Db.RowView) : Db.RowView := { v with active := false }

theorem Placed.deactivated (placed : Placed s) (chunks : List (List String)) :
    Placed (Store.deactivated c s chunks) := by
  refine placed.withRows ?_ (Store.beside_deactivated c s chunks ⟨"", ""⟩).sequence _
  intro d q
  rw [Store.rowAt_deactivated, Option.map_map]
  congr 1
  funext v
  simp only [Function.comp_apply]
  split <;> rfl

theorem slot_deactivated : (Store.deactivated c s chunks).slot d q =
    ⟨(s.slot d q).row.map fun v => if d = c ∧ q ∈ chunks.flatten then v.gone else v, (s.slot d q).entries⟩ := by
  have row := Store.rowAt_deactivated c d q s chunks
  simp only [Store.slot, Store.entriesAt, row, Slot.mk.injEq]
  refine ⟨rfl, ?_⟩
  cases s.db.rowAt d q with
  | none => rfl
  | some v =>
    simp only [Option.map_some]
    split <;> rfl

theorem slot_deleted (placed : Placed s) : ({ s with fts := s.fts.deleted env (filepath c p) } : Store V).slot d q =
    ⟨(s.slot d q).row, if (d, q) = (c, p) ∧ env.pathTerms (filepath c p) ≠ [] then [] else (s.slot d q).entries⟩ := by
  by_cases here : (d, q) = (c, p)
  · simp only [Prod.mk.injEq] at here
    obtain ⟨rfl, rfl⟩ := here
    rw [slot_deleted_self placed]
    by_cases termless : env.pathTerms (filepath d q) = [] <;> simp [termless]
  · rw [slot_deleted_other placed, if_neg fun both => here both.1]
    intro same
    obtain ⟨rfl, rfl⟩ := filepath_injective same
    exact here rfl

end Sweep

end Rqmd
