import Rqmd.Abreast

/-! How far the full-text index follows the rows while an update runs. The entries to be committed follow file by file,
unless a full-text write failed and was passed over; the committed ones do where no row changed since the commit. -/

namespace Rqmd
open Interrupt

variable {V : Type} {env : Env V} {faults : Faults FaultKind} {s t : Store V} {d : Disk V} {c : CollectionName}
  {db after : Db} {base events : List Event} {due : Db → Prop}

/-! ### The record of a run -/

/-- A change of rows that the full-text index must follow. -/
def Event.changesRows : Event → Bool
  | .documentWritten _ | .documentsDeactivated _ | .collectionPurged | .collectionRenamed => true
  | _ => false

/-- Rows were changed after the last full-text commit. -/
def rowsWait (events : List Event) : Bool :=
  events.foldl (fun waiting e => !decide (e = .ftsCommitted) && (waiting || e.changesRows)) false

/-- Neither a change of rows nor a full-text commit nor a warning. -/
def Event.neutral (e : Event) : Bool := !e.changesRows && !decide (e = .ftsCommitted) && !decide (e = .warned)

theorem rowsWait_snoc (events : List Event) (e : Event) :
    rowsWait (events ++ [e]) = (!decide (e = .ftsCommitted) && (rowsWait events || e.changesRows)) := by
  simp [rowsWait, List.foldl_append]

theorem rowsWait_neutral (extra : List Event) (neutral : ∀ e ∈ extra, e.neutral = true) :
    ∀ events, rowsWait (events ++ extra) = rowsWait events := by
  induction extra with
  | nil => exact fun events => by rw [List.append_nil]
  | cons e extra ih =>
    intro events
    have split : events ++ e :: extra = events ++ [e] ++ extra := by simp
    have first := neutral e List.mem_cons_self
    simp only [Event.neutral, Bool.and_eq_true, Bool.not_eq_true', decide_eq_false_iff_not] at first
    rw [split, ih (fun e member => neutral e (List.mem_cons_of_mem _ member)), rowsWait_snoc]
    simp [first.1.1, first.1.2]

theorem not_warned_neutral {extra : List Event} (neutral : ∀ e ∈ extra, e.neutral = true) : Event.warned ∉ extra := by
  intro member
  exact absurd (neutral _ member) (by decide)

/-! ### Following -/

/-- The next complete update rebuilds the index, if a document is active by then. -/
structure Db.RebuildDue (db : Db) : Prop where
  version : db.getConfig ftsTokenizerConfigKey ≠ some ftsTokenizerVersion
  split : (db.getConfig rawSplitSchemaKey).isSome = true

/-- A condition on the settings alone. -/
def Db.Lasting (due : Db → Prop) : Prop := ∀ db after : Db, after.config = db.config → due db → due after

theorem Db.rebuildDue_lasting : Db.Lasting Db.RebuildDue := by
  intro db after config due
  have same : ∀ key, after.getConfig key = db.getConfig key := by
    intro key
    unfold Db.getConfig
    rw [config]
  refine ⟨?_, ?_⟩
  · rw [same]
    exact due.version
  · rw [same]
    exact due.split

/-- What a command leaves that began with the log `base`: where it passed nothing over, and no change of rows waits or
it met no fault, the entries are abreast of the rows. They may lack an active row where it is `due`. -/
def Disk.Halted (env : Env V) (faults : Faults FaultKind) (due : Db → Prop) (base : List Event) (d : Disk V) : Prop :=
  ∃ events, d.log = base ++ events ∧ (.warned ∈ events → faults.Possible) ∧
    (.warned ∉ events → rowsWait events = false ∨ ¬ faults.Possible → d.Abreast env (due d.db))

/-- A command that wrote nothing. -/
theorem Disk.Halted.untouched (here : d.Abreast env (due d.db)) : d.Halted env faults due d.log :=
  ⟨[], (List.append_nil _).symm, fun none => absurd none List.not_mem_nil, fun _ _ => here⟩

namespace Store

/-- Where a command stands. Unless it passed a failure over, what it has staged is `good`; and the disk is abreast of the
rows until one of them changes. -/
structure Tracked (env : Env V) (faults : Faults FaultKind) (due : Db → Prop) (base : List Event)
    (good : Store V → Prop)
    (events : List Event) (s : Store V) : Prop where
  log : s.log = base ++ events
  excused : .warned ∈ events → faults.Possible
  writable : s.hnsw.readOnly = false
  working : .warned ∉ events → good s
  disk : .warned ∉ events → rowsWait events = false → s.disk.Abreast env (due s.db)

/-- The entries to be committed follow the rows. -/
def Follows (env : Env V) (faults : Faults FaultKind) (due : Db → Prop) (base : List Event) (s : Store V) : Prop :=
  ∃ events, s.Tracked env faults due base (fun s => s.Abreast env (due s.db)) events

/-- Those committed do, too. -/
def AtRest (env : Env V) (faults : Faults FaultKind) (due : Db → Prop) (base : List Event) (s : Store V) : Prop :=
  ∃ events, s.Tracked env faults due base (fun s => s.Abreast env (due s.db) ∧ s.fts.working = s.fts.committed) events

/-- A step that touches neither rows nor entries. -/
structure Untouched (env : Env V) (due : Db → Prop) (extra : List Event) (s t : Store V) : Prop where
  fts : t.fts = s.fts
  writable : t.hnsw.readOnly = s.hnsw.readOnly
  rows : ∀ c p, t.db.rowAt c p = s.db.rowAt c p
  sequence : s.db.sequence ≤ t.db.sequence
  hashed : s.db.Hashed env → t.db.Hashed env
  due : due s.db → due t.db
  log : t.log = s.log ++ extra
  neutral : ∀ e ∈ extra, e.neutral = true

section Tracked

variable {good other : Store V → Prop}

theorem Tracked.mono (here : s.Tracked env faults due base good events) (weaker : good s → other s) :
    s.Tracked env faults due base other events :=
  ⟨here.log, here.excused, here.writable, fun none => weaker (here.working none), here.disk⟩

theorem Tracked.halted (here : s.Tracked env faults due base good events) (faulty : faults.Possible) :
    s.disk.Halted env faults due base :=
  ⟨events, here.log, here.excused, fun none calm => here.disk none (calm.resolve_right fun not => not faulty)⟩

/-- A failure was passed over with a warning: nothing is known from here on. -/
theorem Tracked.warned (here : s.Tracked env faults due base good events) (faulty : faults.Possible)
    (extra : List Event)
    (writable : t.hnsw = s.hnsw) (log : t.log = s.log ++ extra) (found : .warned ∈ extra) :
    t.Tracked env faults due base other (events ++ extra) := by
  have found : .warned ∈ events ++ extra := List.mem_append_right _ found
  refine ⟨by rw [log, here.log, List.append_assoc], fun _ => faulty, ?_, fun none => absurd found none,
    fun none => absurd found none⟩
  rw [writable]
  exact here.writable

/-- Rows have changed, and their entries are not yet committed. -/
theorem Tracked.torn (here : s.Tracked env faults due base good events) (faulty : faults.Possible) (extra : List Event)
    (e : Event) (changes : e.changesRows = true) (log : t.log = s.log ++ extra ++ [e]) :
    t.disk.Halted env faults due base := by
  have waits : rowsWait (events ++ extra ++ [e]) = true := by
    have other : decide (e = .ftsCommitted) = false := by
      rw [decide_eq_false_iff_not]
      intro same
      rw [same] at changes
      cases changes
    rw [rowsWait_snoc, changes, other]
    simp
  refine ⟨events ++ extra ++ [e], ?_, fun _ => faulty, fun _ calm => ?_⟩
  · change t.log = _
    rw [log, here.log]
    simp
  · rcases calm with none | not
    · rw [waits] at none
      cases none
    · exact absurd faulty not

theorem Tracked.carried {extra : List Event} (here : s.Tracked env faults due base good events)
    (beside : Untouched env due extra s t) (same : good s → other t) :
      t.Tracked env faults due base other (events ++ extra) := by
  have unwarned : .warned ∉ events ++ extra → .warned ∉ events := fun none found => none (List.mem_append_left _ found)
  refine ⟨by rw [beside.log, here.log, List.append_assoc], fun found => ?_, ?_, fun none => ?_, fun none calm => ?_⟩
  · rcases List.mem_append.mp found with before | now
    · exact here.excused before
    · exact absurd now (not_warned_neutral beside.neutral)
  · rw [beside.writable]
    exact here.writable
  · exact same (here.working (unwarned none))
  · rw [rowsWait_neutral extra beside.neutral] at calm
    have before : (s.disk.open false).Abreast env (due s.db) := here.disk (unwarned none) calm
    have opened : (t.disk.open false).fts = (s.disk.open false).fts := by
      change FtsIndex.opened t.fts.committed t.fts.frontmatterField = FtsIndex.opened s.fts.committed s.fts.frontmatterField
      rw [beside.fts]
    exact before.carried opened beside.rows beside.sequence (beside.hashed before.hashed) beside.due

end Tracked

theorem Untouched.refl (s : Store V) : Untouched env due [] s s :=
  ⟨rfl, rfl, fun _ _ => rfl, Nat.le_refl _, id, id, (List.append_nil _).symm, fun _ none =>
    absurd none List.not_mem_nil⟩

theorem Untouched.unmoved {doc : PreparedDoc} (lasting : Db.Lasting due)
    (unmoved : Db.Unmoved s.db (Store.contentRow env doc) db) :
    Untouched env due [] s { s with db := db } where
  fts := rfl
  writable := rfl
  rows := unmoved.rows
  sequence := Nat.le_of_eq unmoved.counter.symm
  hashed hashed := Abreast.hashed_beside hashed unmoved.toBeside
  due := lasting _ _ unmoved.config
  log := (List.append_nil _).symm
  neutral _ none := absurd none List.not_mem_nil

theorem Follows.carried {extra : List Event} (here : s.Follows env faults due base)
    (beside : Untouched env due extra s t) :
    t.Follows env faults due base := by
  obtain ⟨events, tracked⟩ := here
  exact ⟨events ++ extra, tracked.carried beside fun abreast =>
    abreast.carried beside.fts beside.rows beside.sequence (beside.hashed abreast.hashed) beside.due⟩

theorem AtRest.carried {extra : List Event} (here : s.AtRest env faults due base)
    (beside : Untouched env due extra s t) :
    t.AtRest env faults due base := by
  obtain ⟨events, tracked⟩ := here
  refine ⟨events ++ extra, tracked.carried beside fun both => ⟨?_, ?_⟩⟩
  · exact both.1.carried beside.fts beside.rows beside.sequence (beside.hashed both.1.hashed) beside.due
  · rw [beside.fts]
    exact both.2

theorem Follows.halted (here : s.Follows env faults due base) (faulty : faults.Possible) :
    s.disk.Halted env faults due base := by
  obtain ⟨events, tracked⟩ := here
  exact tracked.halted faulty

theorem AtRest.follows (here : s.AtRest env faults due base) : s.Follows env faults due base := by
  obtain ⟨events, tracked⟩ := here
  exact ⟨events, tracked.mono And.left⟩

theorem AtRest.halted (here : s.AtRest env faults due base) : s.disk.Halted env faults due base := by
  obtain ⟨events, tracked⟩ := here
  exact ⟨events, tracked.log, tracked.excused, fun none _ => (tracked.working none).1.disk (tracked.working none).2⟩

/-- The store a command begins with. -/
theorem AtRest.opened {readOnly : Bool} (abreast : d.Abreast env (due d.db)) (writable : readOnly = false) :
    (d.open readOnly).AtRest env faults due d.log := by
  refine ⟨[], (List.append_nil _).symm, fun none => absurd none List.not_mem_nil, ?_, fun _ =>
    ⟨Abreast.opened abreast, rfl⟩,
    fun _ _ => abreast⟩
  rw [writable]
  exact openHnsw_writable

theorem Follows.indexed {doc : PreparedDoc} {p : String} {id : Nat} (lasting : Db.Lasting due)
    (here : s.Follows env faults due base) (own : Store.IdOf s.db c p id) (terms : env.pathTerms (filepath c p) ≠ [])
    (written : Db.Written s.db (Store.contentRow env doc) c p (Store.writtenView env doc id) db) :
    (Store.indexed env c p doc s db id).Follows env faults due base := by
  obtain ⟨events, tracked⟩ := here
  have unwarned : .warned ∉ events ++ [Event.documentWritten id] → .warned ∉ events :=
    fun none found => none (List.mem_append_left _ found)
  refine ⟨events ++ [.documentWritten id], ?_, fun found => ?_, tracked.writable, fun none => ?_, fun none calm => ?_⟩
  · change s.log ++ _ = _
    rw [tracked.log, List.append_assoc]
  · rcases List.mem_append.mp found with before | now
    · exact tracked.excused before
    · cases List.mem_singleton.mp now
  · have abreast := tracked.working (unwarned none)
    have later : due s.db → due db := lasting _ _ written.config
    exact (abreast.indexed own written terms).carried rfl (fun _ _ => rfl) (Nat.le_refl _)
      (Abreast.hashed_beside abreast.hashed written.toBeside) later
  · rw [rowsWait_snoc] at calm
    simp [Event.changesRows] at calm

theorem Follows.settled (here : s.Follows env faults due base) : s.settled.AtRest env faults due base := by
  obtain ⟨events, tracked⟩ := here
  have working : .warned ∉ events → s.settled.Abreast env (due s.db) ∧
      s.settled.fts.working = s.settled.fts.committed := fun none =>
    ⟨(tracked.working none).settled, (tracked.working none).placed.settled.2.1⟩
  by_cases writer : s.fts.writer = true
  · have shape : s.settled = s.committed := by
      unfold Store.settled
      rw [if_pos writer]
    have unwarned : .warned ∉ events ++ [Event.ftsCommitted] → .warned ∉ events :=
      fun none found => none (List.mem_append_left _ found)
    rw [shape] at working ⊢
    refine ⟨events ++ [.ftsCommitted], ?_, fun found => ?_, tracked.writable, fun none => working (unwarned none),
      fun none _ => (working (unwarned none)).1.disk (working (unwarned none)).2⟩
    · change s.log ++ _ = _
      rw [tracked.log, List.append_assoc]
    · rcases List.mem_append.mp found with before | now
      · exact tracked.excused before
      · cases List.mem_singleton.mp now
  · have shape : s.settled = s := by
      unfold Store.settled
      rw [if_neg writer]
    rw [shape] at working ⊢
    exact ⟨events, tracked.log, tracked.excused, tracked.writable, working, tracked.disk⟩

end Store

end Rqmd
