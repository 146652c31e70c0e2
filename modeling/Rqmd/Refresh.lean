import Rqmd.Commands
import Rqmd.Consistency
import Rqmd.Holding

/-! The pass behind `refresh: true` of the server's search tools, and what a refresh without a note says about
the index. -/

namespace Rqmd
open Interrupt

variable {V : Type} {env : Env V}

inductive RefreshOutcome where
  | refreshed
  | locked
  | rebuildPending
  | timedOut
deriving DecidableEq

def RefreshOutcome.notice : RefreshOutcome → Option String
  | .refreshed => none
  | .locked => some ("refresh skipped because another process is updating the index; results may not include recent " ++
      "edits.")
  | .rebuildPending => some ("refresh skipped because the full-text index needs a rebuild (run `rqmd update`); results " ++
      "may not include recent edits.")
  | .timedOut => some "refresh stopped at the tool timeout; results may not include all recent edits."

/-- The collections asked for; a name that matches none is skipped. -/
def requestedCollections (db : Db) (requested : Option (List String)) : List Collection :=
  match requested with
  | some names => db.listCollections.filter fun c => names.contains c.name.text
  | none => db.listCollections

/-- The passes in turn; the deadline stands in for a signal. -/
def refreshEach (env : Env V) (scan : CollectionName → Scan) : List Collection → Command V RefreshOutcome
  | [] => pure .refreshed
  | col :: cols => do
    let outcome ← updateOneCollection env col.name false (scan col.name)
    if outcome.interrupted then pure .timedOut else refreshEach env scan cols

/-- `lock` is what `try_acquire` answers: whether the lock was free. -/
def refreshIndex (env : Env V) (requested : Option (List String)) (lock : Except Failure Bool)
    (scan : CollectionName → Scan) : Command V RefreshOutcome := do
  Store.reopen true
  if ← Prog.query fun s => Store.ftsRebuildPending s.db then
    pure .rebuildPending
  else
    let cols ← Prog.query fun s => requestedCollections s.db requested
    if cols.isEmpty then
      pure .refreshed
    else
      let free ← Prog.ofExcept lock
      if free then
        Store.reopen true
        refreshEach env scan cols
      else
        pure .locked

/-! ### The files -/

/-- The files of a collection while a refresh runs: what its scan finds, the text each file holds, if it is one, and
which paths are on disk. -/
structure CollectionFiles where
  scan : Scan
  text : String → Option PreparedDoc
  onDisk : String → Prop
  noHook : scan ≠ .hookInterrupted
  present : ∀ file ∈ scan.files, onDisk file.relPath
  reads : ∀ file ∈ scan.files, ∀ doc, file.prepared = .ok doc → text file.relPath = some doc
  missing : scan = .directoryMissing → ∀ path, ¬ onDisk path

/-- Every walked file is indexed at its text, and no active row is of a file that is gone. -/
structure UpToDate (env : Env V) (files : CollectionFiles) (slots : String → Slot) : Prop where
  walked : ∀ file ∈ files.scan.files, ∃ doc, files.text file.relPath = some doc ∧
    (slots file.relPath).Holds env (env.contentHash doc.indexedText)
  gone : ∀ path v, (slots path).row = some v → v.active = true → files.onDisk path

/-- What a pass needs to bring a collection up to date: each file is indexed at its text already, or is not skipped by
its stat, can be read and has a text that no row of its path has; and files are gone only where the walk found some. -/
structure Ready (env : Env V) (files : CollectionFiles) (cache : List (String × FileStat)) (slots : String → Slot) :
    Prop where
  walked : ∀ file ∈ files.scan.files, ∃ doc, files.text file.relPath = some doc ∧
    ((slots file.relPath).Holds env (env.contentHash doc.indexedText) ∨
      (cached cache file = false ∧ file.prepared = .ok doc ∧ ¬ (slots file.relPath).Knows env doc))
  gone : files.scan.files = [] → ∀ path v, (slots path).row = some v → v.active = true → files.onDisk path

variable {c : CollectionName} {files : CollectionFiles}

theorem upToDate_iff {cache : List (String × FileStat)} {before after : String → Slot}
    (makes : Scan.Makes env c cache files.scan before after) : UpToDate env files after ↔ Ready env files cache before := by
  have held : ∀ file ∈ files.scan.files, ∀ doc, files.text file.relPath = some doc →
      ((after file.relPath).Holds env (env.contentHash doc.indexedText) ↔
        (before file.relPath).Holds env (env.contentHash doc.indexedText) ∨
          (cached cache file = false ∧ ∃ doc, file.prepared = .ok doc ∧ ¬ (before file.relPath).Knows env doc)) := by
    intro file member doc text
    have made := makes.walked file member
    apply holds_iff made.1 made.2
    intro other prepared
    have read := files.reads file member other prepared
    rw [text] at read
    rw [Option.some.inj read]
  constructor
  · intro current
    constructor
    · intro file member
      obtain ⟨doc, text, holds⟩ := current.walked file member
      refine ⟨doc, text, ((held file member doc text).mp holds).imp id fun fresh => ?_⟩
      obtain ⟨miss, other, prepared, unknown⟩ := fresh
      have read := files.reads file member other prepared
      rw [text] at read
      cases read
      exact ⟨miss, prepared, unknown⟩
    · intro empty
      rw [← makes.empty empty]
      exact current.gone
  · intro ready
    constructor
    · intro file member
      obtain ⟨doc, text, either⟩ := ready.walked file member
      refine ⟨doc, text, (held file member doc text).mpr (either.imp id fun fresh => ?_)⟩
      exact ⟨fresh.1, doc, fresh.2.1, fresh.2.2⟩
    · intro path v row active
      by_cases empty : files.scan.files = []
      · rw [makes.empty empty] at row
        exact ready.gone empty path v row active
      · by_cases walked : path ∈ files.scan.files.map WalkedFile.relPath
        · obtain ⟨file, member, rfl⟩ := List.mem_map.mp walked
          exact files.present file member
        · rw [makes.gone empty path walked v row] at active
          cases active

/-- The passes of a refresh, each over its own collection. -/
theorem wp_refreshEach {scan : CollectionName → Scan} (noHook : ∀ c, scan c ≠ .hookInterrupted) (cols : List Collection)
    (distinct : (cols.map Collection.name).Nodup) (s : Store V) (placed : Placed s) (clean : s.hnswDirty = false) :
    wp Faults.calm (refreshEach env scan cols)
      (Ends.only fun o t => o = .refreshed ∧ PassedEach env scan (cols.map Collection.name) s t) s := by
  induction cols generalizing s with
  | nil => exact wp_pure ⟨rfl, .refl placed clean⟩
  | cons col cols ih =>
    rw [List.map_cons, List.nodup_cons] at distinct
    unfold refreshEach
    refine wp_bind (wp_mono (wp_scanned (noHook col.name) placed clean) ?_ (fun _ _ => False.elim) fun _ => False.elim)
    intro o t pass
    simp only [Ends.with, pass.1, Bool.false_eq_true, if_false]
    refine wp_mono (ih distinct.2 t pass.2.placed pass.2.clean) ?_ (fun _ _ => False.elim) fun _ => False.elim
    exact fun answer u rest => ⟨rest.1, pass.2.cons distinct.1 rest.2⟩

theorem collections_distinct (db : Db) (requested : Option (List String)) :
    ((requestedCollections db requested).map Collection.name).Nodup := by
  cases requested with
  | none => exact db.names_distinct
  | some names => exact db.names_distinct.sublist (List.Sublist.map _ (List.filter_sublist ..))

/-- A note indexed at "alpha" by the commands `collection add` and `update`. -/
def alphaDisk : Disk String := (Disk.empty : Disk String).after sampleEnv
  [(.add notesCollection (notesWalk (.ok (notesDoc "alpha"))), []),
    (.update none false fun _ => .walked none (notesWalk (.ok (notesDoc "alpha"))), [])]

def rewrittenFile (readable : Bool) : WalkedFile :=
  ⟨"a.md", some (4, 8000000000), 12000000000, if readable then .ok (notesDoc "beta") else .error .permissionDenied⟩

/-- The note rewritten to "beta". -/
def rewrittenFiles (readable : Bool) : CollectionFiles where
  scan := .walked none ⟨[rewrittenFile readable], List.nodup_singleton _⟩
  text := fun path => if path = "a.md" then some (notesDoc "beta") else none
  onDisk := fun path => path = "a.md"
  noHook := by
    intro impossible
    cases impossible
  present := by
    intro file member
    rw [List.mem_singleton.mp member]
    rfl
  reads := by
    intro file member doc prepared
    rw [List.mem_singleton.mp member] at prepared ⊢
    cases readable with
    | true =>
      cases prepared
      rfl
    | false => cases prepared
  missing := by
    intro impossible
    cases impossible

def missingFiles : CollectionFiles where
  scan := .directoryMissing
  text := fun _ => none
  onDisk := fun _ => False
  noHook := by
    intro impossible
    cases impossible
  present := by
    intro file member
    cases member
  reads := by
    intro file member
    cases member
  missing := fun _ _ here => here

/-- The undisturbed refresh of the note's collection. -/
def alphaRefresh (files : CollectionFiles) : Outcome FaultKind (Store String) Failure RefreshOutcome :=
  refreshIndex sampleEnv none (.ok true) (fun _ => files.scan) [] (alphaDisk.open true)

theorem alpha_indexed : alphaDisk.Indexed := by
  constructor
  · change ∀ e ∈ alphaDisk.entries, ∀ row ∈ alphaDisk.db.documents.rows, e.docId = row.id → e.filepath = row.filepath
    decide +kernel
  · decide +kernel

theorem alpha_row : (alphaDisk.slot notes "a.md").row = some ⟨1, sampleHash "alpha", true⟩ := by decide +kernel

end Rqmd
