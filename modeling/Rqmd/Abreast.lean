import Rqmd.Rebuild
import Rqmd.Trails

/-! A full-text index abreast of the rows: each active row has one entry, with a text of its hash, and there are no
others. What each step of an update makes of that. -/

namespace Rqmd
open Interrupt

variable {V : Type} {env : Env V} {s t : Store V} {d : Disk V} {c b : CollectionName} {p q : String} {db : Db}

/-- An active row has one entry, with a text of its hash, or may lack it; a row that is not active has none. -/
structure Slot.Good (env : Env V) (lacking : Prop) (slot : Slot) : Prop where
  active : ∀ v, slot.row = some v → v.active = true →
    (∃ e, slot.entries = [e] ∧ e.Tells env v.hash) ∨ lacking ∧ slot.entries = []
  gone : ∀ v, slot.row = some v → v.active = false → slot.entries = []

/-- The entries the next commit will make durable are those of the active rows, as far as these may not lack theirs. -/
structure Store.Abreast (env : Env V) (lacking : Prop) (s : Store V) : Prop where
  placed : Placed s
  hashed : s.db.Hashed env
  termed : ∀ c p v, s.db.rowAt c p = some v → v.active = true → env.pathTerms (filepath c p) ≠ []
  owned : ∀ e ∈ s.fts.working, ∃ fp, s.db.Sits e.docId fp
  slots : ∀ c p, (s.slot c p).Good env lacking

def Disk.Abreast (env : Env V) (lacking : Prop) (d : Disk V) : Prop := (d.open false).Abreast env lacking

variable {lacking wider : Prop}

theorem Slot.Good.mono {slot : Slot} (good : slot.Good env lacking) (wide : lacking → wider) :
    slot.Good env wider :=
  ⟨fun v row active => (good.active v row active).imp_right (And.imp_left wide), good.gone⟩

namespace Store.Abreast

/-- What neither rows nor entries depend on may change. -/
theorem carried (here : s.Abreast env lacking) (fts : t.fts = s.fts) (rows : ∀ c p, t.db.rowAt c p = s.db.rowAt c p)
    (sequence : s.db.sequence ≤ t.db.sequence) (hashed : t.db.Hashed env) (wide : lacking → wider) :
    t.Abreast env wider := by
  have ids : ∀ c p, (t.db.rowAt c p).map Db.RowView.id = (s.db.rowAt c p).map Db.RowView.id := fun c p => by rw [rows]
  have placed := here.placed.withRows ids sequence t.log
  have slots : ∀ c p, t.slot c p = s.slot c p := by
    intro c p
    simp only [Store.slot, Store.entriesAt, rows, fts]
  refine ⟨⟨?_, ?_, ?_, ?_, ?_⟩, hashed, ?_, ?_, ?_⟩
  · rw [fts]
    exact placed.located
  · rw [fts]
    exact placed.committed
  · rw [fts]
    exact placed.working
  · rw [fts]
    exact placed.staged
  · rw [fts]
    exact placed.idle
  · intro c p v found active
    rw [rows] at found
    exact here.termed c p v found active
  · intro e member
    rw [fts] at member
    obtain ⟨fp, sits⟩ := here.owned e member
    exact ⟨fp, (sits_of_rows ids).mpr sits⟩
  · intro c p
    rw [slots]
    exact (here.slots c p).mono wide

theorem hashed_beside {doc : PreparedDoc} {after : Db} (hashed : db.Hashed env)
    (beside : Db.Beside db (Store.contentRow env doc) after) : after.Hashed env := by
  intro row member
  rcases beside.content row member with old | new
  · exact hashed row old
  · rw [new]
    rfl

theorem unmoved {doc : PreparedDoc} (here : s.Abreast env lacking)
    (unmoved : Db.Unmoved s.db (Store.contentRow env doc) db) : Abreast env lacking { s with db := db } :=
  here.carried rfl unmoved.rows (Nat.le_of_eq unmoved.counter.symm) (hashed_beside here.hashed unmoved.toBeside) id

/-- A document is indexed: its entry replaces the one its path had. -/
theorem indexed {doc : PreparedDoc} {id : Nat} (here : s.Abreast env lacking) (own : Store.IdOf s.db c p id)
    (written : Db.Written s.db (Store.contentRow env doc) c p (Store.writtenView env doc id) db)
    (terms : env.pathTerms (filepath c p) ≠ []) : Abreast env lacking (Store.indexed env c p doc s db id) := by
  refine ⟨here.placed.indexed own written, hashed_beside here.hashed written.toBeside, ?_, ?_, ?_⟩
  · intro d q v found active
    change db.rowAt d q = some v at found
    by_cases place : (d, q) = (c, p)
    · obtain ⟨rfl, rfl⟩ := Prod.mk.inj place
      exact terms
    · rw [written.others d q place] at found
      exact here.termed d q v found active
  · intro e member
    rcases List.mem_append.mp member with kept | new
    · change e ∈ (s.fts.deleted env (filepath c p)).working at kept
      rw [FtsIndex.working_deleted] at kept
      obtain ⟨fp, d, q, v, found, same, place⟩ := here.owned e (List.mem_filter.mp kept).1
      by_cases at' : (d, q) = (c, p)
      · obtain ⟨rfl, rfl⟩ := Prod.mk.inj at'
        exact ⟨fp, d, q, _, written.row, (own.1 v found).symm.trans same, place⟩
      · exact ⟨fp, d, q, v, (written.others d q at').trans found, same, place⟩
    · rw [List.mem_singleton.mp new]
      exact ⟨filepath c p, c, p, _, written.row, rfl, rfl⟩
  · intro d q
    by_cases place : (d, q) = (c, p)
    · obtain ⟨rfl, rfl⟩ := Prod.mk.inj place
      rw [slot_indexed_self here.placed own written]
      have full : (env.pathTerms (filepath d q)).isEmpty = false := by simpa using terms
      refine ⟨fun v row _ => .inl ⟨Store.entryFor env s.fts d q doc id, ?_, ?_⟩, fun v row gone => ?_⟩
      · simp only [Slot.rewritten, full, Bool.false_eq_true, if_false, List.nil_append]
      · obtain rfl : Store.writtenView env doc id = v := Option.some.inj row
        exact ⟨doc.indexedText, rfl, rfl⟩
      · obtain rfl : Store.writtenView env doc id = v := Option.some.inj row
        cases gone
    · rw [slot_indexed_other here.placed own written place]
      exact here.slots d q

theorem settled (here : s.Abreast env lacking) : s.settled.Abreast env lacking := by
  obtain ⟨placed, even, slots⟩ := here.placed.settled
  have working : s.settled.fts.working = s.fts.working := by
    unfold Store.settled
    split <;> rfl
  refine ⟨placed, ?_, ?_, ?_, ?_⟩
  · rw [Store.settled_db]
    exact here.hashed
  · rw [Store.settled_db]
    exact here.termed
  · rw [Store.settled_db, working]
    exact here.owned
  · intro c p
    rw [slots]
    exact here.slots c p

/-- With nothing staged the process leaves what it has. -/
theorem disk (here : s.Abreast env lacking) (even : s.fts.working = s.fts.committed) : s.disk.Abreast env lacking := by
  refine ⟨Disk.placed_open (Disk.indexed_disk here.placed), here.hashed, here.termed, ?_, ?_⟩
  · intro e member
    change e ∈ s.fts.committed at member
    rw [← even] at member
    exact here.owned e member
  · intro c p
    change (s.disk.slot c p).Good env lacking
    rw [Store.disk_slot even]
    exact here.slots c p

/-- Whether it is opened to read or to write. -/
theorem opened {readOnly : Bool} (here : d.Abreast env lacking) : (d.open readOnly).Abreast env lacking :=
  here.carried rfl (fun _ _ => rfl) (Nat.le_refl _) here.hashed id

end Store.Abreast

/-! ### On disk -/

/-- The entries are those of the active rows, as far as these may not lack theirs. -/
structure Disk.Paired (env : Env V) (lacking : Prop) (d : Disk V) : Prop where
  hashed : d.db.Hashed env
  termed : ∀ row ∈ d.db.documents, row.active = true → env.pathTerms row.filepath ≠ []
  owned : ∀ e ∈ d.entries, ∃ row ∈ d.db.documents, row.id = e.docId ∧ e.filepath = row.filepath
  active : ∀ row ∈ d.db.documents, row.active = true →
    (∃ e, entriesOf d.entries row.id = [e] ∧ e.Tells env row.hash) ∨ lacking ∧ entriesOf d.entries row.id = []
  gone : ∀ row ∈ d.db.documents, row.active = false → entriesOf d.entries row.id = []

namespace Disk

theorem Abreast.paired (here : d.Abreast env lacking) : d.Paired env lacking := by
  have slot : ∀ row ∈ d.db.documents, ((d.open false).slot row.collection row.path).Good env lacking ∧
      ((d.open false).slot row.collection row.path).row = some (Db.view row) ∧
      ((d.open false).slot row.collection row.path).entries = entriesOf d.entries row.id := fun row member =>
    ⟨here.slots row.collection row.path, Db.rowAt_mem member, slot_some (Db.rowAt_mem member)⟩
  refine ⟨here.hashed, fun row member active => here.termed _ _ _ (Db.rowAt_mem member) active, fun e member => ?_,
    fun row member active => ?_, fun row member gone => ?_⟩
  · obtain ⟨fp, sits⟩ := here.owned e member
    have place : e.filepath = fp := here.placed.located.committed e member fp sits
    obtain ⟨b, q, v, found, same, at'⟩ := sits
    obtain ⟨row, inside, rfl, rfl, rfl⟩ := Db.rowAt_eq_some.mp found
    exact ⟨row, inside, same, place.trans at'.symm⟩
  · obtain ⟨good, found, entries⟩ := slot row member
    rw [← entries]
    exact good.active _ found active
  · obtain ⟨good, found, entries⟩ := slot row member
    rw [← entries]
    exact good.gone _ found gone

theorem Paired.abreast (here : d.Paired env lacking) : d.Abreast env lacking := by
  have indexed : d.Indexed := by
    refine ⟨fun e member row inside same => ?_, fun e member => ?_⟩
    · obtain ⟨owner, stored, own, place⟩ := here.owned e member
      rw [place, Db.same_id stored inside (own.trans same)]
    · obtain ⟨owner, stored, own, -⟩ := here.owned e member
      rw [← own]
      exact d.db.bounded owner stored
  refine ⟨placed_open indexed, here.hashed, fun b q v found active => ?_, fun e member => ?_, fun b q => ⟨?_, ?_⟩⟩
  · obtain ⟨row, inside, rfl, rfl, rfl⟩ := Db.rowAt_eq_some.mp found
    exact here.termed row inside active
  · obtain ⟨owner, stored, own, place⟩ := here.owned e member
    exact ⟨_, _, _, _, Db.rowAt_mem stored, own, rfl⟩
  · intro v found active
    have entries : ((d.open false).slot b q).entries = entriesOf d.entries v.id := slot_some found
    obtain ⟨row, inside, rfl, rfl, rfl⟩ := Db.rowAt_eq_some.mp found
    rw [entries]
    exact here.active row inside active
  · intro v found gone
    have entries : ((d.open false).slot b q).entries = entriesOf d.entries v.id := slot_some found
    obtain ⟨row, inside, rfl, rfl, rfl⟩ := Db.rowAt_eq_some.mp found
    rw [entries]
    exact here.gone row inside gone

theorem Paired.mono (here : d.Paired env lacking) (wide : lacking → wider) : d.Paired env wider :=
  ⟨here.hashed, here.termed, here.owned, fun row member active =>
    (here.active row member active).imp_right (And.imp_left wide),
    here.gone⟩

/-- Rows and entries are all that counts. -/
theorem Paired.congr {e : Disk V} (here : d.Paired env lacking) (rows : e.db = d.db) (entries : e.entries = d.entries) :
    e.Paired env lacking := by
  obtain ⟨hashed, termed, owned, active, gone⟩ := here
  constructor <;> rw [rows]
  · exact hashed
  · exact termed
  · rwa [entries]
  · rwa [entries]
  · rwa [entries]

end Disk

/-! ### The sweep -/

/-- Rows of the collection are marked as gone, and the entries of those at `rest` are still there. -/
structure Store.Sweeping (env : Env V) (lacking : Prop) (c : CollectionName) (rest : List String) (s : Store V) :
    Prop where
  placed : Placed s
  hashed : s.db.Hashed env
  termed : ∀ c p v, s.db.rowAt c p = some v → v.active = true → env.pathTerms (filepath c p) ≠ []
  owned : ∀ e ∈ s.fts.working, ∃ fp, s.db.Sits e.docId fp
  slots : ∀ b q, ¬ (b = c ∧ q ∈ rest) → (s.slot b q).Good env lacking
  gone : ∀ q ∈ rest, env.pathTerms (filepath c q) ≠ [] ∧ ∀ v, s.db.rowAt c q = some v → v.active = false

namespace Store.Sweeping

theorem begun (here : s.Abreast env lacking) {chunks : List (List String)} {present : List String}
    (all : chunks.flatten = s.db.missingDocuments c present) :
    Sweeping env lacking c (s.db.missingDocuments c present) (Store.deactivated c s chunks) := by
  have beside := Store.beside_deactivated c s chunks (Store.contentRow env ⟨"", "", ""⟩)
  have rows : ∀ b q, (Store.deactivated c s chunks).db.rowAt b q = (s.db.rowAt b q).map fun v =>
      if b = c ∧ q ∈ s.db.missingDocuments c present then v.gone else v := by
    intro b q
    rw [Store.rowAt_deactivated, all]
    rfl
  have lived : ∀ b q v, (Store.deactivated c s chunks).db.rowAt b q = some v → v.active = true →
      ∃ w, s.db.rowAt b q = some w ∧ w.active = true := by
    intro b q v found active
    rw [rows] at found
    obtain ⟨w, before, same⟩ := Option.map_eq_some_iff.mp found
    by_cases swept : b = c ∧ q ∈ s.db.missingDocuments c present
    · rw [if_pos swept] at same
      rw [← same] at active
      cases active
    · rw [if_neg swept] at same
      exact ⟨w, before, same ▸ active⟩
  refine ⟨here.placed.deactivated chunks, Store.Abreast.hashed_beside here.hashed beside, ?_, ?_, ?_, ?_⟩
  · intro b q v found active
    obtain ⟨w, before, live⟩ := lived b q v found active
    exact here.termed b q w before live
  · intro e member
    obtain ⟨fp, b, q, v, found, same, place⟩ := here.owned e member
    refine ⟨fp, b, q, _, (rows b q).trans (by rw [found]; rfl), ?_, place⟩
    split
    · exact same
    · exact same
  · intro b q outside
    rw [slot_deactivated, all]
    simp only [if_neg outside, Option.map_id']
    exact here.slots b q
  · intro q missing
    obtain ⟨-, v, found, active⟩ := missing_iff.mp missing
    refine ⟨here.termed c q v found active, fun w after => ?_⟩
    rw [rows, found] at after
    simp only [Option.map_some, true_and, missing, if_true, Option.some.injEq] at after
    rw [← after]
    rfl

/-- The entry of the next row goes. -/
theorem deleted {path : String} {rest : List String} (here : Sweeping env lacking c (path :: rest) s) :
    Sweeping env lacking c rest { s with fts := s.fts.deleted env (filepath c path) } := by
  obtain ⟨terms, gone⟩ := here.gone path List.mem_cons_self
  refine ⟨here.placed.deleted (filepath c path), here.hashed, here.termed, fun e member => ?_, fun b q outside => ?_,
    fun q later => here.gone q (List.mem_cons_of_mem _ later)⟩
  · change e ∈ (s.fts.deleted env (filepath c path)).working at member
    rw [FtsIndex.working_deleted] at member
    exact here.owned e (List.mem_filter.mp member).1
  · rw [slot_deleted here.placed]
    by_cases place : (b, q) = (c, path)
    · obtain ⟨rfl, rfl⟩ := Prod.mk.inj place
      rw [if_pos ⟨rfl, terms⟩]
      refine ⟨fun v row active => ?_, fun _ _ _ => rfl⟩
      rw [gone v row] at active
      cases active
    · rw [if_neg fun both => place both.1]
      refine here.slots b q fun inside => ?_
      rcases List.mem_cons.mp inside.2 with same | later
      · exact place (by rw [inside.1, same])
      · exact outside ⟨inside.1, later⟩

theorem ended (here : Sweeping env lacking c [] s) : s.Abreast env lacking :=
  ⟨here.placed, here.hashed, here.termed, here.owned, fun b q => here.slots b q fun inside => List.not_mem_nil inside.2⟩

end Store.Sweeping

end Rqmd
