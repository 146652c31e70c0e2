import Rqmd.Convergence

/-! Histories of update passes. Every pass opens the index, brings one collection in step with the files
its walk found, and closes it again. -/

namespace Rqmd
open Interrupt

variable {V : Type} {env : Env V}

/-- One complete pass: the collection, whether every file is re-read, and what the walk finds. -/
structure Pass where
  collection : CollectionName
  full : Bool
  walk : Walk

namespace Disk

variable {d : Disk V} {c : CollectionName} {p q : String}

def pass (env : Env V) (d : Disk V) (pass : Pass) : Disk V :=
  d.run (updateOneCollection env pass.collection pass.full (.walked none pass.walk)) []

def passes (env : Env V) (d : Disk V) (history : List Pass) : Disk V := history.foldl (pass env) d

/-- Entries stand under the filepaths of their rows, and none has an id yet to be given. -/
structure Indexed (d : Disk V) : Prop where
  located : ∀ e ∈ d.entries, ∀ row ∈ d.db.documents, e.docId = row.id → e.filepath = row.filepath
  bounded : ∀ e ∈ d.entries, e.docId ≤ d.db.sequence

/-- The index holds one entry for each active row of the collection and none for its other rows. -/
def InStep (d : Disk V) (c : CollectionName) : Prop :=
  ∀ row ∈ d.db.documents, row.collection = c → (entriesOf d.entries row.id).length = if row.active then 1 else 0

/-- `InStep` for every row that a delete by path can find: its filepath has an index term. -/
def FoundInStep (env : Env V) (d : Disk V) : Prop :=
  ∀ row ∈ d.db.documents, env.pathTerms row.filepath ≠ [] →
    (entriesOf d.entries row.id).length = if row.active then 1 else 0

def Live (d : Disk V) (c : CollectionName) (path : String) : Prop :=
  ∃ row ∈ d.db.documents, row.collection = c ∧ row.path = path ∧ row.active = true

/-- The active rows of the collection are its walked readable files, each with the hash of the file's
indexed text, and the full-text index agrees with the rows. -/
structure Converged (env : Env V) (c : CollectionName) (walk : Walk) (d : Disk V) : Prop where
  paths : ∀ path, d.Live c path ↔ ∃ file ∈ walk.files, file.relPath = path ∧ ∃ doc, file.prepared = .ok doc
  hashes : ∀ row ∈ d.db.documents, row.collection = c → row.active = true → ∀ file ∈ walk.files,
    file.relPath = row.path → ∀ doc, file.prepared = .ok doc → row.hash = env.contentHash doc.indexedText
  inStep : d.InStep c

/-- The pass takes the file's recorded size and mtime for proof that it did not change. -/
def Trusts (d : Disk V) (pass : Pass) (file : WalkedFile) : Prop :=
  pass.full = false ∧ file.stat.isSome = true ∧ ∃ row ∈ d.db.documents, row.collection = pass.collection ∧
    row.path = file.relPath ∧ row.active = true ∧ row.stat = file.stat

/-- An inactive row of the file's path already has the hash of its text. -/
def Remembers (env : Env V) (d : Disk V) (c : CollectionName) (file : WalkedFile) : Prop :=
  ∃ doc, file.prepared = .ok doc ∧ ∃ row ∈ d.db.documents, row.collection = c ∧ row.path = file.relPath ∧
    row.active = false ∧ row.hash = env.contentHash doc.indexedText

/-- What a pass over `walk` makes of `before`. A file that is not read, because its stat is trusted or
because reading fails, keeps its row. -/
structure CaughtUp (env : Env V) (pass : Pass) (before after : Disk V) : Prop where
  paths : ∀ path, (∀ file ∈ pass.walk.files, file.relPath = path → ¬ before.Remembers env pass.collection file) →
    (after.Live pass.collection path ↔ ∃ file ∈ pass.walk.files, file.relPath = path ∧
      ((∃ doc, file.prepared = .ok doc) ∨ before.Live pass.collection path))
  hashes : ∀ row ∈ after.db.documents, row.collection = pass.collection → row.active = true →
    ∀ file ∈ pass.walk.files, file.relPath = row.path → ∀ doc, file.prepared = .ok doc →
      ¬ before.Trusts pass file → row.hash = env.contentHash doc.indexedText
  kept : ∀ file ∈ pass.walk.files, (before.Trusts pass file ∨ ∃ reason, file.prepared = .error reason) →
    after.db.rowAt pass.collection file.relPath = before.db.rowAt pass.collection file.relPath
  inStep : FoundInStep env after

def slot (d : Disk V) (c : CollectionName) (p : String) : Slot := (d.open false).slot c p

theorem slot_row : (d.slot c p).row = d.db.rowAt c p := rfl

theorem slot_some {v : Db.RowView} (found : d.db.rowAt c p = some v) :
    (d.slot c p).entries = entriesOf d.entries v.id := by
  change (d.open false).entriesAt _ c p = _
  simp only [Store.entriesAt]
  rw [show (d.open false).db.rowAt c p = some v from found]
  rfl

theorem foundInStep_iff : FoundInStep env d ↔ ∀ c q, env.pathTerms (filepath c q) ≠ [] → (d.slot c q).InStep := by
  constructor
  · intro even c q terms v found
    rw [slot_some found]
    obtain ⟨row, member, rfl, rfl, rfl⟩ := Db.rowAt_eq_some.mp found
    exact even row member terms
  · intro even row member terms
    have found := Db.rowAt_mem member
    have count := even row.collection row.path terms (Db.view row) found
    rwa [slot_some found] at count

theorem live_iff : d.Live c p ↔ ∃ v, (d.slot c p).row = some v ∧ v.active = true := by
  constructor
  · rintro ⟨row, member, rfl, rfl, active⟩
    exact ⟨_, Db.rowAt_mem member, active⟩
  · rintro ⟨v, found, active⟩
    obtain ⟨row, member, name, path, rfl⟩ := Db.rowAt_eq_some.mp found
    exact ⟨row, member, name, path, active⟩

theorem remembers_iff {file : WalkedFile} {doc : PreparedDoc} (prepared : file.prepared = .ok doc) :
    d.Remembers env c file ↔ (d.slot c file.relPath).Remembers env doc := by
  constructor
  · rintro ⟨other, read, row, member, rfl, path, gone, hash⟩
    rw [prepared] at read
    cases read
    exact ⟨_, path ▸ Db.rowAt_mem member, gone, hash⟩
  · rintro ⟨v, found, gone, hash⟩
    obtain ⟨row, member, name, path, rfl⟩ := Db.rowAt_eq_some.mp found
    exact ⟨doc, prepared, row, member, name, path, gone, hash⟩

theorem placed_open (indexed : d.Indexed) : Placed (d.open false) := by
  have at' : ∀ e ∈ d.entries, ∀ fp, d.db.Sits e.docId fp → e.filepath = fp := by
    rintro e member fp ⟨c, p, v, found, same, rfl⟩
    obtain ⟨row, inside, rfl, rfl, rfl⟩ := Db.rowAt_eq_some.mp found
    exact indexed.located e member row inside same.symm
  exact ⟨⟨at', at', fun _ member => absurd member List.not_mem_nil, fun _ => .inl⟩, indexed.bounded,
    indexed.bounded, fun _ member => absurd member List.not_mem_nil, fun _ => rfl⟩

theorem indexed_disk {s : Store V} (placed : Placed s) : s.disk.Indexed := by
  refine ⟨fun e member row inside same => ?_, placed.committed⟩
  exact placed.located.committed e member _ ⟨_, _, _, Db.rowAt_mem inside, same.symm, rfl⟩

def cacheOf (d : Disk V) (pass : Pass) : List (String × FileStat) :=
  if pass.full then [] else d.db.loadDocStatCache pass.collection

theorem pass_passed (indexed : d.Indexed) (next : Pass) : (d.pass env next).Indexed ∧
    Passed env next.collection (d.cacheOf next) next.walk d.slot (d.pass env next).slot := by
  have calm := @wp_update_calm V env (d.open false) next.collection next.full none next.walk (placed_open indexed) rfl
  obtain ⟨o, t, rest, ended, placed, even, passed⟩ := wp_calm calm
  have left : d.pass env next = t.disk := by
    unfold Disk.pass Disk.run
    rw [ended]
    rfl
  rw [left]
  refine ⟨indexed_disk placed, ?_⟩
  have same : (t.disk).slot = t.slot := by
    funext c p
    simp only [slot, Store.slot, Store.entriesAt, Disk.open, FtsIndex.opened, Store.disk, even]
  rw [same]
  exact passed

theorem trusts_iff {next : Pass} {file : WalkedFile} :
    cached (d.cacheOf next) file = true ↔ d.Trusts next file := cached_iff

/-- Whatever it finds, a pass leaves the rows that deletes can find in step. -/
theorem passed_inStep {cache : List (String × FileStat)} {walk : Walk} {after : Disk V}
    (passed : Passed env c cache walk d.slot after.slot) (even : FoundInStep env d) : FoundInStep env after := by
  rw [foundInStep_iff] at even ⊢
  intro b q terms
  by_cases name : b = c
  · subst name
    by_cases walked : q ∈ walk.paths
    · obtain ⟨file, member, rfl⟩ := List.mem_map.mp walked
      exact (passed.walked file member).inStep (even b file.relPath terms) terms
    · by_cases none : walk.files = []
      · rw [passed.empty none q]
        exact even b q terms
      · rw [passed.missing none q walked]
        have kept : (env.pathTerms (filepath b q)).isEmpty = false := by simpa using terms
        rw [kept]
        exact Slot.swept_inStep (even b q terms)
  · rw [passed.others b q name]
    exact even b q terms

theorem caughtUp {next : Pass} (indexed : d.Indexed) (even : FoundInStep env d) (some : next.walk.files ≠ []) :
    CaughtUp env next d (d.pass env next) := by
  have passed := (@pass_passed V env d indexed next).2
  have missed : ∀ file, ¬ d.Trusts next file → cached (d.cacheOf next) file = false := by
    intro file fresh
    rw [← Bool.not_eq_true, trusts_iff]
    exact fresh
  refine ⟨?_, ?_, ?_, ?_⟩
  · intro path fresh
    rw [live_iff]
    by_cases walked : path ∈ next.walk.paths
    · obtain ⟨file, member, rfl⟩ := List.mem_map.mp walked
      have settles := passed.walked file member
      have only : ∀ other ∈ next.walk.files, other.relPath = file.relPath → other = file :=
        fun other inside same => List.inj_on_of_nodup_map next.walk.distinct inside member same
      by_cases trusted : d.Trusts next file
      · rw [settles.skipped (.inl (trusts_iff.mpr trusted)), ← live_iff]
        exact ⟨fun live => ⟨file, member, rfl, .inr live⟩, fun _ => by
          obtain ⟨-, -, row, inside, name, path, active, -⟩ := trusted
          exact ⟨row, inside, name, path, active⟩⟩
      · cases prepared : file.prepared with
        | error reason =>
          rw [settles.skipped (.inr ⟨reason, prepared⟩), ← live_iff]
          constructor
          · exact fun live => ⟨file, member, rfl, .inr live⟩
          · rintro ⟨other, inside, same, ⟨doc, read⟩ | live⟩
            · rw [only other inside same, prepared] at read
              cases read
            · exact live
        | ok doc =>
          have live := settles.active (missed file trusted) prepared
            fun old => fresh file member rfl ((remembers_iff prepared).mpr old)
          exact ⟨fun _ => ⟨file, member, rfl, .inl ⟨doc, prepared⟩⟩, fun _ => live⟩
    · rw [passed.missing some path walked]
      constructor
      · rintro ⟨v, row, active⟩
        rw [Slot.swept_gone row] at active
        cases active
      · rintro ⟨file, member, rfl, -⟩
        exact absurd (List.mem_map_of_mem member) walked
  · rintro row inside name - file member path doc prepared fresh
    obtain ⟨v, found, hash⟩ := (passed.walked file member).hash (missed file fresh) prepared
    have here : ((d.pass env next).slot next.collection file.relPath).row = Option.some (Db.view row) :=
      path ▸ name ▸ Db.rowAt_mem inside
    rw [here] at found
    cases found
    exact hash
  · rintro file member skipped
    have settles := passed.walked file member
    exact congrArg Slot.row (settles.skipped (skipped.imp_left trusts_iff.mpr))
  · exact passed_inStep passed even

/-- What holds between the passes of a history. -/
theorem passes_inStep (history : List Pass) : ∀ d : Disk V, d.Indexed → FoundInStep env d →
    (d.passes env history).Indexed ∧ FoundInStep env (d.passes env history) := by
  induction history with
  | nil =>
    intro d indexed even
    exact ⟨indexed, even⟩
  | cons next history ih =>
    intro d indexed even
    have step := @pass_passed V env d indexed next
    exact ih (d.pass env next) step.1 (passed_inStep step.2 even)

def empty : Disk V := ⟨Db.empty, [], true, none, []⟩

theorem indexed_empty : (empty : Disk V).Indexed :=
  ⟨fun _ member => absurd member List.not_mem_nil, fun _ member => absurd member List.not_mem_nil⟩

theorem foundInStep_empty : FoundInStep env (empty : Disk V) :=
  fun row member => absurd member (Table.not_mem_empty row)

end Disk

/-! ### One file -/

def notes : CollectionName := ⟨"notes", by decide, by decide⟩

def notesFile (path : String) (prepared : Except SkipReason PreparedDoc) : WalkedFile :=
  ⟨path, some (5, 1000000000), 9000000000, prepared⟩

def notesDoc (text : String) : PreparedDoc := ⟨"a", text, text⟩

def notesWalk (prepared : Except SkipReason PreparedDoc) : Walk := ⟨[notesFile "a.md" prepared], List.nodup_singleton _⟩

namespace Disk

/-- Every pass of every history catches up with the files it reads. -/
theorem passes_catch_up (start : Disk V) (indexed : start.Indexed) (even : FoundInStep env start)
    (before : List Pass) (next : Pass) (some : next.walk.files ≠ []) :
    CaughtUp env next (start.passes env before) (start.passes env (before ++ [next])) := by
  have here := @passes_inStep V env before start indexed even
  have last : start.passes env (before ++ [next]) = (start.passes env before).pass env next := by
    simp [passes]
  rw [last]
  exact caughtUp here.1 here.2 some

theorem passes_catch_up_notes :
    CaughtUp sampleEnv ⟨notes, true, notesWalk (.ok (notesDoc "gamma"))⟩
      (empty.passes sampleEnv [⟨notes, false, notesWalk (.ok (notesDoc "alpha"))⟩])
      (empty.passes sampleEnv ([⟨notes, false, notesWalk (.ok (notesDoc "alpha"))⟩] ++
        [⟨notes, true, notesWalk (.ok (notesDoc "gamma"))⟩])) :=
  passes_catch_up empty indexed_empty foundInStep_empty _ _ (by decide)

/-- A file that stays on disk while it cannot be read keeps its row, and so does one whose text changed
under an unchanged size and mtime. -/
theorem passes_keep_unread_rows :
    (¬ Converged sampleEnv notes (notesWalk (.error .permissionDenied))
      (empty.passes sampleEnv [⟨notes, true, notesWalk (.ok (notesDoc "alpha"))⟩,
        ⟨notes, true, notesWalk (.error .permissionDenied)⟩])) ∧
    ¬ Converged sampleEnv notes (notesWalk (.ok (notesDoc "gamma")))
      (empty.passes sampleEnv [⟨notes, false, notesWalk (.ok (notesDoc "alpha"))⟩,
        ⟨notes, false, notesWalk (.ok (notesDoc "gamma"))⟩]) := by
  constructor
  · intro converged
    have row : (empty.passes sampleEnv [⟨notes, true, notesWalk (.ok (notesDoc "alpha"))⟩,
        ⟨notes, true, notesWalk (.error .permissionDenied)⟩]).db.rowAt notes "a.md" =
        some ⟨1, sampleHash "alpha", true⟩ := by decide
    obtain ⟨file, member, -, doc, prepared⟩ := (converged.paths "a.md").mp (live_iff.mpr ⟨_, row, rfl⟩)
    rw [List.mem_singleton.mp member] at prepared
    cases prepared
  · intro converged
    have found : (empty.passes sampleEnv [⟨notes, false, notesWalk (.ok (notesDoc "alpha"))⟩,
        ⟨notes, false, notesWalk (.ok (notesDoc "gamma"))⟩]).db.rowAt notes "a.md" =
        some ⟨1, sampleHash "alpha", true⟩ := by decide
    obtain ⟨row, inside, name, path, same⟩ := Db.rowAt_eq_some.mp found
    have active : row.active = true := congrArg Db.RowView.active same
    have old : row.hash = sampleHash "alpha" := congrArg Db.RowView.hash same
    have new := converged.hashes row inside name active _ (List.mem_singleton_self _) path.symm _ rfl
    rw [old] at new
    exact absurd new (by decide)

end Disk

end Rqmd
