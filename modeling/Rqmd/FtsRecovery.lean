import Rqmd.EntriesKept
import Rqmd.RemovalStops
import Rqmd.RenameStops

/-! The full-text index over whole histories. Commands may be cut and refused wherever no change of rows waits for its
full-text commit; then the next update of all collections that completes leaves the entries of the active rows. -/

namespace Rqmd
open Interrupt

variable {V : Type} {env : Env V} {faults : Faults FaultKind} {d : Disk V}

/-- Every active row has one entry, at its filepath and with a text of its hash, and there are no others. -/
structure Disk.Current (env : Env V) (d : Disk V) : Prop where
  active : ∀ row ∈ d.db.documents, row.active = true →
    ∃ e, entriesOf d.entries row.id = [e] ∧ e.filepath = row.filepath ∧ e.Tells env row.hash
  owned : ∀ e ∈ d.entries, ∃ row ∈ d.db.documents, row.active = true ∧ row.id = e.docId

theorem Disk.Current.paired (current : d.Current env) (hashed : d.db.Hashed env)
    (termed : ∀ row ∈ d.db.documents, row.active = true → env.pathTerms row.filepath ≠ []) : d.Paired env False := by
  refine ⟨hashed, termed, fun e member => ?_, fun row member active => .inl ?_, fun row member gone => ?_⟩
  · obtain ⟨row, stored, active, own⟩ := current.owned e member
    obtain ⟨only, entries, place, -⟩ := current.active row stored active
    have found : e ∈ entriesOf d.entries row.id := mem_entriesOf.mpr ⟨member, own.symm⟩
    rw [entries, List.mem_singleton] at found
    exact ⟨row, stored, own, found ▸ place⟩
  · obtain ⟨e, entries, -, tells⟩ := current.active row member active
    exact ⟨e, entries, tells⟩
  · apply List.eq_nil_iff_forall_not_mem.mpr
    intro e found
    obtain ⟨inside, own⟩ := mem_entriesOf.mp found
    obtain ⟨other, stored, active, same⟩ := current.owned e inside
    rw [Db.same_id stored member (same.trans own), gone] at active
    cases active

theorem Disk.Paired.current (paired : d.Paired env False) : d.Current env := by
  refine ⟨fun row member active => ?_, fun e member => ?_⟩
  · obtain ⟨e, entries, tells⟩ := (paired.active row member active).resolve_right And.left
    have inside : e ∈ entriesOf d.entries row.id := by
      rw [entries]
      exact List.mem_singleton_self e
    obtain ⟨stored, own⟩ := mem_entriesOf.mp inside
    obtain ⟨owner, known, same, place⟩ := paired.owned e stored
    rw [Db.same_id known member (same.trans own)] at place
    exact ⟨e, entries, place, tells⟩
  · obtain ⟨row, stored, own, -⟩ := paired.owned e member
    refine ⟨row, stored, ?_, own⟩
    by_contra gone
    have found : e ∈ entriesOf d.entries row.id := mem_entriesOf.mpr ⟨member, own.symm⟩
    rw [paired.gone row stored (by simpa using gone)] at found
    cases found

/-- The paths the command is to index have index terms. -/
def Invocation.Termed (env : Env V) (db : Db) : Invocation → Prop
  | .update _ _ scan => ∀ c, (scan c).Termed env c
  | .add col walk => ∀ file ∈ walk.files, env.pathTerms (filepath col.name file.relPath) ≠ []
  | .rename old new => ∀ name, validateCollectionName new = .ok name → ∀ row ∈ db.documents, row.collection = old →
      row.active = true → env.pathTerms (filepath name row.path) ≠ []
  | _ => True

/-- Since `before` no failed full-text write was passed over, and no change of rows waits for its commit. -/
def Disk.Through (before after : Disk V) : Prop :=
  ∃ events, after.log = before.log ++ events ∧ .warned ∉ events ∧ rowsWait events = false

/-- The run met neither a fault nor its death, or what it was to commit is committed. -/
def Disk.Spared (before after : Disk V) (fates : List (Fate FaultKind)) : Prop :=
  (∀ fate ∈ fates, fate = .proceed) ∨ before.Through after

/-- Every command of the history indexes paths with terms and is spared. -/
def Disk.Attended (env : Env V) : Disk V → History → Prop
  | _, [] => True
  | d, (invocation, fates) :: history => invocation.Termed env d.db ∧
      d.Spared (d.run (invocation.command env) fates) fates ∧
        (d.run (invocation.command env) fates).Attended env history

theorem wp_command_halts {invocation : Invocation} (here : d.Abreast env d.db.RebuildDue) (owned : d.db.Owned)
    (terms : invocation.Termed env d.db) (fates : List (Fate FaultKind))
      (allowed : ∀ fate ∈ fates, faults.Allows fate) :
    (d.run (invocation.command env) fates).Halted env faults Db.RebuildDue d.log := by
  have every : ∀ fate ∈ fates, (Faults.any : Faults FaultKind).Allows fate := fun fate _ => any_allows fate
  cases invocation with
  | update collection full scan =>
    have ended : wp faults (runUpdate env collection full scan)
        (Ends.all fun t => t.disk.Halted env faults Db.RebuildDue d.log) (d.open false) :=
      wp_mono (wp_runUpdate_halts here owned terms) (fun _ _ => And.left) (fun _ _ => id) fun _ => id
    exact wp_final ended allowed
  | add col walk => exact wp_final (wp_addCollection_halts here terms) allowed
  | remove name => exact wp_final (wp_removeCollection_halts here) allowed
  | rename old new => exact wp_final (wp_runRename_halts here terms) allowed
  | set name ignore maxBytes => exact wp_final (wp_setCollection_halts here) every
  | embed backend collection rebuild => exact wp_final (wp_runEmbed_halts here) every
  | cleanup => exact wp_final (wp_runCleanup_halts here) every

/-- What halts with nothing waiting is abreast of its rows. -/
theorem Disk.Halted.abreast {due : Db → Prop} {after : Disk V} {fates : List (Fate FaultKind)}
    (halts : ∀ faults : Faults FaultKind, (∀ fate ∈ fates, faults.Allows fate) → after.Halted env faults due d.log)
    (spared : d.Spared after fates) : after.Abreast env (due after.db) := by
  rcases spared with calm | through
  · have allowed : ∀ fate ∈ fates, (Faults.calm : Faults FaultKind).Allows fate := by
      intro fate member
      rw [calm fate member]
      exact trivial
    have quiet : ¬ (Faults.calm : Faults FaultKind).Possible := by
      intro possible
      rcases possible with dead | ⟨kind, raised⟩
      · exact dead
      · exact raised
    obtain ⟨events, -, excused, abreast⟩ := halts Faults.calm allowed
    exact abreast (fun found => quiet (excused found)) (.inr quiet)
  · obtain ⟨events, log, unwarned, calm⟩ := through
    obtain ⟨others, same, -, abreast⟩ := halts Faults.any fun fate _ => any_allows fate
    obtain rfl := List.append_cancel_left (log.symm.trans same)
    exact abreast unwarned (.inl calm)

/-- The run lemma: the invariant of the histories. -/
theorem abreast_after (history : History) : ∀ d : Disk V, d.Abreast env d.db.RebuildDue → d.db.Owned →
    d.Attended env history → (d.after env history).Abreast env (d.after env history).db.RebuildDue := by
  induction history with
  | nil => exact fun _ here _ _ => here
  | cons entry history ih =>
    intro d here owned attended
    obtain ⟨terms, spared, later⟩ := attended
    refine ih _ ?_ ?_ later
    · exact Disk.Halted.abreast (fun faults => wp_command_halts here owned terms entry.2) spared
    · exact Disk.owned_after [entry] d owned

/-- An attended history that leads to the disk. -/
def Disk.Leads (env : Env V) (d : Disk V) (history : History) (left : Disk V) : Prop :=
  d.Attended env history ∧ d.after env history = left

theorem Disk.Leads.next {left : Disk V} {invocation : Invocation} {fates : List (Fate FaultKind)} (history : History) :
    ∀ {d : Disk V}, d.Leads env history left → invocation.Termed env left.db →
      left.Spared (left.run (invocation.command env) fates) fates →
      d.Leads env (history ++ [(invocation, fates)]) (left.run (invocation.command env) fates) := by
  induction history with
  | nil =>
    intro d leads terms spared
    obtain ⟨-, rfl⟩ := leads
    exact ⟨⟨terms, spared, trivial⟩, rfl⟩
  | cons entry history ih =>
    intro d leads terms spared
    obtain ⟨attended, same⟩ := leads
    obtain ⟨later, after⟩ := ih ⟨attended.2.2, same⟩ terms spared
    exact ⟨⟨attended.1, attended.2.1, later⟩, after⟩

/-- An update over one collection. -/
def editOf (name : CollectionName) (text : String) (c : CollectionName) : Scan :=
  if c = name then .walked none (notesWalk (.ok (notesDoc text))) else .directoryMissing

theorem termed_editOf {name : CollectionName} {text : String}
    (terms : sampleEnv.pathTerms (filepath name "a.md") ≠ []) (c : CollectionName) :
    (editOf name text c).Termed sampleEnv c := by
  intro file member
  unfold editOf at member
  by_cases mine : c = name
  · rw [if_pos mine] at member
    rw [List.mem_singleton.mp member, mine]
    exact terms
  · rw [if_neg mine] at member
    cases member

def addNotes : History := [(.add notesCollection (notesWalk (.ok (notesDoc "alpha"))), [])]

/-- An update dies right after its full-text commit. -/
def editNotes : History := addNotes ++ [(.update none true (editOf notes "beta"), cutAfter 10)]

/-- A rename dies right after its own. -/
def moveNotes : History := editNotes ++ [(.rename notes "desk", cutAfter 6)]

def startedNotes : Disk String :=
  (Disk.empty : Disk String).run
    ((Invocation.add notesCollection (notesWalk (.ok (notesDoc "alpha")))).command sampleEnv) []

def cutNotes : Disk String := startedNotes.run ((Invocation.update none true (editOf notes "beta")).command sampleEnv)
    (cutAfter 10)

def movedNotes : Disk String := cutNotes.run ((Invocation.rename notes "desk").command sampleEnv) (cutAfter 6)

theorem leads_movedNotes : (Disk.empty : Disk String).Leads sampleEnv moveNotes movedNotes := by
  have terms : sampleEnv.pathTerms (filepath notes "a.md") ≠ [] ∧ sampleEnv.pathTerms (filepath desk "a.md") ≠ [] := by
    decide +kernel
  have added : (Disk.empty : Disk String).Leads sampleEnv addNotes startedNotes := by
    have start : (Disk.empty : Disk String).Leads sampleEnv [] Disk.empty := ⟨trivial, rfl⟩
    refine start.next [] (fun file member => ?_) (.inl fun _ none => absurd none List.not_mem_nil)
    rw [List.mem_singleton.mp member]
    exact terms.1
  have edited : (Disk.empty : Disk String).Leads sampleEnv editNotes cutNotes := by
    have log : cutNotes.log = startedNotes.log ++ [.documentWritten 1, .ftsCommitted] := by decide +kernel
    have through : startedNotes.Through cutNotes := ⟨[.documentWritten 1, .ftsCommitted], log, by decide, by decide⟩
    exact added.next addNotes (termed_editOf terms.1) (.inr through)
  have log : movedNotes.log = cutNotes.log ++ [.collectionRenamed, .ftsCommitted] := by decide +kernel
  have through : cutNotes.Through movedNotes := ⟨[.collectionRenamed, .ftsCommitted], log, by decide, by decide⟩
  refine edited.next editNotes (fun name valid row member _ _ => ?_) (.inr through)
  have named : validateCollectionName "desk" = .ok desk := by decide +kernel
  obtain rfl : desk = name := Except.ok.inj (named.symm.trans valid)
  have places : ∀ row ∈ cutNotes.db.documents.rows, row.path = "a.md" := by decide +kernel
  have here : row.path = "a.md" := places row member
  rw [here]
  exact terms.2

end Rqmd
