import Rqmd.Commands
import Rqmd.Consistency
import Rqmd.Contents
import Rqmd.Holding
import Rqmd.Timeline

/-! The stat skip. A pass that skips files by their recorded size and mtime is compared with one that reads them all,
over a timeline of the files. -/

namespace Rqmd
open Interrupt

variable {V : Type} {env : Env V} {c d : CollectionName} {p q : String}

/-! ### Contents without stats -/

def Document.unstamped (row : Document) : Document := { row with stat := none }

namespace Contents

variable {k j : Contents} {f : Document → Document} {doc : PreparedDoc}

def unstamped (k : Contents) : Contents := { k with rows := k.rows.map Document.unstamped }

theorem rowAt_unstamped : k.unstamped.rowAt c p = (k.rowAt c p).map Document.unstamped := by
  unfold rowAt unstamped
  rw [List.find?_map]
  rfl

theorem unstamped_amend (plain : ∀ row, (f row).unstamped = f row.unstamped) :
    (k.amend c p f).unstamped = k.unstamped.amend c p f := by
  unfold amend unstamped
  simp only [List.map_map]
  congr 1
  apply List.map_congr_left
  intro row _
  have stands : row.unstamped.standsAt c p = row.standsAt c p := rfl
  simp only [Function.comp_apply, stands]
  by_cases here : row.standsAt c p = true
  · rw [if_pos here, if_pos here, plain]
  · rw [if_neg here, if_neg here]

theorem unstamped_stamp (stat : Option FileStat) :
    (k.amend c p fun row => { row with stat := stat }).unstamped = k.unstamped := by
  unfold amend unstamped
  simp only [List.map_map]
  congr 1
  apply List.map_congr_left
  intro row _
  simp only [Function.comp_apply]
  by_cases here : row.standsAt c p = true
  · rw [if_pos here]
    rfl
  · rw [if_neg here]

theorem unstamped_index : (k.index env c p doc).unstamped = k.unstamped.index env c p doc := by
  unfold index
  rw [rowAt_unstamped]
  cases found : k.rowAt c p with
  | none =>
    dsimp only [Option.map_none, unstamped, enter]
    rw [List.map_append]
    rfl
  | some row =>
    dsimp only [Option.map_some]
    have hash : row.unstamped.hash = row.hash := rfl
    rw [hash]
    by_cases same : row.hash = env.contentHash doc.indexedText
    · rw [if_pos same, if_pos same]
      exact unstamped_amend fun _ => rfl
    · rw [if_neg same, if_neg same]
      have revision := @unstamped_amend c p k (revised env doc) fun _ => rfl
      unfold enter
      rw [← revision]
      rfl

/-- One file, read whatever is recorded of it. -/
def reread (env : Env V) (c : CollectionName) (k : Contents) (file : WalkedFile) : Contents :=
  match file.prepared with
  | .error _ => k
  | .ok doc => k.index env c file.relPath doc

theorem unstamped_visit (cache : List (String × FileStat)) (file : WalkedFile) :
    (k.visit env c cache file).unstamped =
      if cached cache file then k.unstamped else k.unstamped.reread env c file := by
  unfold visit reread
  by_cases hit : cached cache file = true
  · rw [if_pos hit, if_pos hit]
  · rw [if_neg hit, if_neg hit]
    cases file.prepared with
    | error reason => rfl
    | ok doc =>
      dsimp only
      rw [unstamped_stamp, unstamped_index]

theorem missing_unstamped (present : List String) : k.unstamped.missing c present = k.missing c present := by
  unfold missing unstamped
  rw [List.filter_map, List.map_map]
  rfl

theorem unstamped_sweep (present : List String) :
    (k.sweep env c present).unstamped = k.unstamped.sweep env c present := by
  unfold sweep
  rw [missing_unstamped]
  unfold unstamped
  simp only [List.map_map]
  congr 1
  apply List.map_congr_left
  intro row _
  have plain : (row.unstamped.collection = c ∧ row.unstamped.path ∈ k.missing c present) ↔
      (row.collection = c ∧ row.path ∈ k.missing c present) := Iff.rfl
  simp only [Function.comp_apply]
  by_cases gone : row.collection = c ∧ row.path ∈ k.missing c present
  · rw [if_pos gone, if_pos (plain.mpr gone)]
    rfl
  · rw [if_neg gone, if_neg fun stands => gone (plain.mp stands)]

theorem unstamped_commit : k.commit.unstamped = k.unstamped.commit := rfl

/-! ### A file whose row has its text -/

/-- No two rows stand at one path. -/
def Apart (k : Contents) : Prop := (k.rows.map fun row => (row.collection, row.path)).Nodup

/-- The row of the file's path has the file's text. -/
def Knows (env : Env V) (c : CollectionName) (k : Contents) (file : WalkedFile) : Prop :=
  ∀ doc, file.prepared = .ok doc → ∃ row, k.rowAt c file.relPath = some row ∧
    row.hash = env.contentHash doc.indexedText ∧ row.raw = doc.raw

/-- Reading a file whose text is known changes nothing but stats. -/
theorem reread_known {file : WalkedFile} (apart : k.Apart) (known : k.Knows env c file) : k.reread env c file = k := by
  unfold reread
  cases prepared : file.prepared with
  | error reason => rfl
  | ok doc =>
    obtain ⟨row, found, hash, raw⟩ := known doc prepared
    obtain ⟨member, place⟩ := rowAt_some found
    dsimp only [index]
    rw [found]
    dsimp only
    rw [if_pos hash]
    unfold amend
    have same := List.map_congr_left (l := k.rows) (f := fun other : Document =>
      if other.standsAt c file.relPath then { other with raw := doc.raw } else other) (g := id) fun other inside => ?_
    · rw [same, List.map_id]
    · by_cases here : other.standsAt c file.relPath = true
      · have stands := standsAt_iff.mp here
        have one : other = row := by
          apply List.inj_on_of_nodup_map apart inside member
          rw [stands.1, stands.2, place.1, place.2]
        rw [if_pos here, one, ← raw]
        rfl
      · rw [if_neg here]
        rfl

/-! ### Rows apart -/

theorem apart_amend (placing : Placing f) (apart : k.Apart) : (k.amend c p f).Apart := by
  unfold Apart amend at *
  rw [List.map_map]
  have same : ((fun row : Document => (row.collection, row.path)) ∘ fun row => if row.standsAt c p then f row else row) =
      fun row => (row.collection, row.path) := by
    funext row
    simp only [Function.comp_apply]
    by_cases here : row.standsAt c p = true
    · rw [if_pos here, (placing row).1, (placing row).2]
    · rw [if_neg here]
  rwa [same]

theorem apart_index (apart : k.Apart) : (k.index env c p doc).Apart := by
  unfold index
  cases found : k.rowAt c p with
  | none =>
    unfold Apart at *
    change ((k.rows ++ [_]).map _).Nodup
    rw [List.map_append, List.nodup_append]
    refine ⟨apart, List.nodup_singleton _, ?_⟩
    intro place inside other last
    obtain ⟨row, member, rfl⟩ := List.mem_map.mp inside
    rw [List.mem_singleton.mp last]
    intro same
    simp only [Prod.mk.injEq] at same
    exact List.find?_eq_none.mp found row member (standsAt_iff.mpr same)
  | some row =>
    dsimp only
    by_cases same : row.hash = env.contentHash doc.indexedText
    · rw [if_pos same]
      exact apart_amend (placing_raw doc.raw) apart
    · rw [if_neg same]
      exact @apart_amend c p k (revised env doc) placing_revised apart

variable {cache : List (String × FileStat)} {file : WalkedFile}

theorem rowAt_visit_other (elsewhere : (d, q) ≠ (c, file.relPath)) :
    (k.visit env c cache file).rowAt d q = k.rowAt d q := by
  unfold visit
  by_cases hit : cached cache file = true
  · rw [if_pos hit]
  · rw [if_neg hit]
    cases file.prepared with
    | error reason => rfl
    | ok doc =>
      dsimp only
      rw [rowAt_amend_other (placing_stat _) elsewhere, rowAt_index_other elsewhere]

theorem apart_visit (apart : k.Apart) : (k.visit env c cache file).Apart := by
  unfold visit
  by_cases hit : cached cache file = true
  · rwa [if_pos hit]
  · rw [if_neg hit]
    cases file.prepared with
    | error reason => exact apart
    | ok doc => exact apart_amend (placing_stat _) (apart_index apart)

/-! ### A pass that skips and one that does not -/

theorem cached_nil (file : WalkedFile) : cached [] file = false := by
  cases stat : file.stat <;> simp [cached, stat]

theorem visits_agree (files : List WalkedFile) (distinct : (files.map WalkedFile.relPath).Nodup) (k j : Contents)
    (same : k.unstamped = j.unstamped) (apart : k.Apart)
    (known : ∀ file ∈ files, cached cache file = true → k.Knows env c file) :
    (files.foldl (visit env c cache) k).unstamped = (files.foldl (visit env c []) j).unstamped := by
  induction files generalizing k j with
  | nil => exact same
  | cons file files ih =>
    rw [List.map_cons, List.nodup_cons] at distinct
    apply ih distinct.2
    · rw [unstamped_visit, unstamped_visit, cached_nil, if_neg (Bool.false_ne_true), ← same]
      by_cases hit : cached cache file = true
      · rw [if_pos hit]
        have there : k.unstamped.Knows env c file := by
          intro doc prepared
          obtain ⟨row, found, hash, raw⟩ := known file List.mem_cons_self hit doc prepared
          exact ⟨row.unstamped, by rw [rowAt_unstamped, found]; rfl, hash, raw⟩
        have apart' : k.unstamped.Apart := by
          unfold Apart unstamped
          rw [List.map_map]
          exact apart
        exact (reread_known apart' there).symm
      · rw [if_neg hit]
    · exact apart_visit apart
    · intro other member hit doc prepared
      have elsewhere : (c, other.relPath) ≠ (c, file.relPath) := by
        intro clash
        simp only [Prod.mk.injEq, true_and] at clash
        exact distinct.1 (clash ▸ List.mem_map_of_mem member)
      rw [rowAt_visit_other elsewhere]
      exact known other (List.mem_cons_of_mem _ member) hit doc prepared

/-- If every file that is skipped has its text in its row, skipping it makes no difference but in stats. -/
theorem pass_agrees (walk : Walk) (k : Contents) (apart : k.Apart)
    (known : ∀ file ∈ walk.files, cached cache file = true → k.Knows env c file) :
    (k.pass env c cache walk).unstamped = (k.pass env c [] walk).unstamped := by
  have same := visits_agree walk.files walk.distinct k k rfl apart known
  unfold pass
  dsimp only
  rw [unstamped_commit, unstamped_commit]
  by_cases none : walk.files.isEmpty = true
  · rw [if_pos none, if_pos none, same]
  · rw [if_neg none, if_neg none, unstamped_sweep, unstamped_sweep, same]

end Contents

/-! ### Passes over a timeline -/

/-- An update pass with the moments at which it stats and reads the file of a path and checks the age of its stamp. -/
structure TimedPass where
  collection : CollectionName
  full : Bool
  scan : Scan
  began : Nat
  ended : Nat
  read : String → Nat
  checked : String → Nat

namespace TimedPass

/-- The pass meets the files of the timeline; none is written while it is read. -/
structure TakenFrom (pass : TimedPass) (tl : Timeline) : Prop where
  ordered : pass.began ≤ pass.ended
  moments : ∀ file ∈ pass.scan.files, pass.began ≤ pass.read file.relPath ∧
    pass.read file.relPath ≤ pass.checked file.relPath ∧ pass.checked file.relPath ≤ pass.ended
  found : ∀ file ∈ pass.scan.files, ∃ x, tl.file (pass.read file.relPath) pass.collection file.relPath = some x ∧
    file.stat = x.stat ∧ ∀ doc, file.prepared = .ok doc → doc = x.doc
  clock : ∀ file ∈ pass.scan.files, file.now = tl.clock (pass.checked file.relPath)

/-- No file is written to another text between its reading and the check of its stamp under a stat that the check
trusts. -/
def Unraced (pass : TimedPass) (tl : Timeline) : Prop :=
  ∀ file ∈ pass.scan.files, ∀ x y stat, tl.file (pass.read file.relPath) pass.collection file.relPath = some x →
    tl.file (pass.checked file.relPath) pass.collection file.relPath = some y → x.stat = some stat → y.stat = some stat →
    trustedStat (tl.clock (pass.checked file.relPath)) stat = some stat → x.doc = y.doc

/-- Each pass begins after the one before it has ended. -/
def InOrder : Nat → List TimedPass → Prop
  | _, [] => True
  | now, pass :: later => now ≤ pass.began ∧ InOrder pass.ended later

/-- The pass on a disk, undisturbed. -/
def on (env : Env V) (d : Disk V) (pass : TimedPass) : Disk V :=
  d.run (updateOneCollection env pass.collection pass.full pass.scan) []

end TimedPass

def Disk.timed (env : Env V) (d : Disk V) (history : List TimedPass) : Disk V := history.foldl (TimedPass.on env) d

/-- The columns of a row but for its stat and its mark. -/
def Document.shown (row : Document) : Document := row.unmarked.unstamped

/-- The same rows, but for stats and marks, and the same full-text entries. -/
def Disk.Agrees (d e : Disk V) : Prop :=
  d.db.documents.rows.map Document.shown = e.db.documents.rows.map Document.shown ∧ d.entries = e.entries

/-- A recorded stat tells the text: whenever from now on the file has it, the row has the file's text. -/
def Contents.Faithful (env : Env V) (tl : Timeline) (now : Nat) (k : Contents) : Prop :=
  ∀ c p row stat, k.rowAt c p = some row → row.active = true → row.stat = some stat → ∀ t x, now ≤ t →
    tl.file t c p = some x → x.stat = some stat → row.hash = env.contentHash x.doc.indexedText ∧ row.raw = x.doc.raw

def Disk.Faithful (env : Env V) (tl : Timeline) (now : Nat) (d : Disk V) : Prop :=
  (d.open false).contents.Faithful env tl now

namespace Contents

variable {k j : Contents} {tl : Timeline} {now later : Nat} {cache : List (String × FileStat)}

theorem Faithful.mono (faithful : k.Faithful env tl now) (ordered : now ≤ later) : k.Faithful env tl later :=
  fun c p row stat found active has t x late => faithful c p row stat found active has t x (ordered.trans late)

theorem Faithful.of_rows (faithful : k.Faithful env tl now) (rows : j.rows = k.rows) : j.Faithful env tl now := by
  intro c p row stat found
  have same : k.rowAt c p = some row := by
    unfold rowAt at found ⊢
    rwa [← rows]
  exact faithful c p row stat same

/-- The row of a file that is read: its text is the file's, and its stat is recorded when the check trusts it. -/
theorem rowAt_visit_self {file : WalkedFile} {doc : PreparedDoc} (miss : cached cache file = false)
    (prepared : file.prepared = .ok doc) : ∃ row, (k.visit env c cache file).rowAt c file.relPath = some row ∧
      row.hash = env.contentHash doc.indexedText ∧ row.raw = doc.raw ∧
      row.stat = file.stat.bind (trustedStat file.now) := by
  unfold visit
  rw [miss, if_neg Bool.false_ne_true, prepared]
  obtain ⟨row, found, hash, raw⟩ := @rowAt_index_self V env c file.relPath k doc
  dsimp only
  rw [rowAt_amend_self (placing_stat _), found]
  exact ⟨_, rfl, hash, raw, rfl⟩

theorem trusted_bind {now : Int} {stat found : FileStat} {file : Option FileStat}
    (recorded : file.bind (trustedStat now) = some stat) (has : file = some found) :
    found = stat ∧ trustedStat now stat = some stat := by
  rw [has] at recorded
  change trustedStat now found = some stat at recorded
  unfold trustedStat at recorded ⊢
  by_cases trusted : 0 ≤ found.2 ∧ mtimeTrustWindow < now - found.2
  · rw [if_pos trusted] at recorded
    cases recorded
    exact ⟨rfl, if_pos trusted⟩
  · rw [if_neg trusted] at recorded
    cases recorded

theorem faithful_visit {pass : TimedPass} {file : WalkedFile} (stamped : tl.Stamped) (taken : pass.TakenFrom tl)
    (unraced : pass.Unraced tl) (member : file ∈ pass.scan.files) (faithful : k.Faithful env tl pass.ended) :
    (k.visit env pass.collection cache file).Faithful env tl pass.ended := by
  by_cases skip : cached cache file = true ∨ ∃ reason, file.prepared = .error reason
  · have same : k.visit env pass.collection cache file = k := by
      unfold visit
      rcases skip with hit | failed
      · exact if_pos hit
      · obtain ⟨reason, failed⟩ := failed
        rw [failed, ite_self]
    rwa [same]
  · rw [not_or, Bool.not_eq_true] at skip
    obtain ⟨miss, readable⟩ := skip
    cases prepared : file.prepared with
    | error reason => exact absurd ⟨reason, prepared⟩ readable
    | ok doc =>
      intro d q row stat found active has t x late there same
      by_cases here : (d, q) = (pass.collection, file.relPath)
      · simp only [Prod.mk.injEq] at here
        obtain ⟨rfl, rfl⟩ := here
        obtain ⟨row', found', hash, raw, recorded⟩ := @rowAt_visit_self V env pass.collection k cache file doc miss prepared
        rw [found] at found'
        cases found'
        obtain ⟨y, read, stat', text⟩ := taken.found file member
        obtain ⟨_, ordered, early⟩ := taken.moments file member
        rw [has] at recorded
        cases shape : file.stat with
        | none =>
          rw [shape] at recorded
          cases recorded
        | some other =>
          obtain ⟨rfl, trusted⟩ := trusted_bind recorded.symm shape
          rw [taken.clock file member] at trusted
          -- the file has not changed since the check, and had the same text when it was read
          have still := stamped.unchanged (early.trans late) there same trusted
          have check := (still _ (le_refl _) (early.trans late)).trans there
          have one := unraced file member y x other read check (stat'.symm.trans shape) same trusted
          rw [hash, raw, text doc prepared, one]
          exact ⟨rfl, rfl⟩
      · rw [rowAt_visit_other here] at found
        exact faithful d q row stat found active has t x late there same

theorem faithful_sweep (present : List String) (faithful : k.Faithful env tl now) :
    (k.sweep env c present).Faithful env tl now := by
  intro d q row stat found active
  rw [rowAt_sweep] at found
  obtain ⟨old, there, same⟩ := Option.map_eq_some_iff.mp found
  by_cases gone : old.collection = c ∧ old.path ∈ k.missing c present
  · rw [if_pos gone] at same
    rw [← same] at active
    cases active
  · rw [if_neg gone] at same
    rw [← same] at active ⊢
    exact faithful d q old stat there active

/-- What stands between a pass and its walk. -/
def scanned (env : Env V) (c : CollectionName) (cache : List (String × FileStat)) : Scan → Contents → Contents
  | .walked _ walk, k => k.pass env c cache walk
  | _, k => k

theorem faithful_scanned {pass : TimedPass} (stamped : tl.Stamped) (taken : pass.TakenFrom tl) (unraced : pass.Unraced tl)
    (began : now ≤ pass.began) (faithful : k.Faithful env tl now) :
    (k.scanned env pass.collection cache pass.scan).Faithful env tl pass.ended := by
  have start : k.Faithful env tl pass.ended := faithful.mono (began.trans taken.ordered)
  have visits : ∀ files : List WalkedFile, (∀ file ∈ files, file ∈ pass.scan.files) → ∀ k : Contents,
      k.Faithful env tl pass.ended → (files.foldl (visit env pass.collection cache) k).Faithful env tl pass.ended := by
    intro files
    induction files with
    | nil => exact fun _ _ kept => kept
    | cons file files ih =>
      intro inside k kept
      apply ih fun other member => inside other (List.mem_cons_of_mem _ member)
      exact faithful_visit stamped taken unraced (inside file List.mem_cons_self) kept
  cases shape : pass.scan with
  | directoryMissing => exact start
  | hookInterrupted => exact start
  | invalidMask hookFailure => exact start
  | walked hookFailure walk =>
    have all := visits walk.files (by rw [shape]; exact fun _ => id) k start
    dsimp only [scanned, Contents.pass]
    apply Faithful.of_rows (k := if walk.files.isEmpty then walk.files.foldl (visit env pass.collection cache) k
      else (walk.files.foldl (visit env pass.collection cache) k).sweep env pass.collection walk.paths) _ rfl
    by_cases none : walk.files.isEmpty = true
    · rwa [if_pos none]
    · rw [if_neg none]
      exact faithful_sweep walk.paths all

end Contents

namespace Disk

variable {d : Disk V} {tl : Timeline} {now : Nat}

/-- An undisturbed pass on a disk. -/
theorem run_contents (d : Disk V) (c : CollectionName) (full : Bool) (scan : Scan) :
    ∃ t : Store V, d.run (updateOneCollection env c full scan) [] = t.disk ∧
      t.contents = (d.open false).contents.scanned env c (if full then [] else d.db.loadDocStatCache c) scan := by
  have idle : ∀ outcome, updateOneCollection env c full scan [] (d.open false) = .done outcome (d.open false) [] →
      (d.open false).contents = (d.open false).contents.scanned env c (if full then [] else d.db.loadDocStatCache c) scan →
      ∃ t : Store V, d.run (updateOneCollection env c full scan) [] = t.disk ∧
        t.contents = (d.open false).contents.scanned env c (if full then [] else d.db.loadDocStatCache c) scan := by
    intro outcome ended same
    refine ⟨d.open false, ?_, same⟩
    unfold Disk.run
    rw [ended]
    rfl
  cases scan with
  | directoryMissing => exact idle _ rfl rfl
  | hookInterrupted => exact idle _ rfl rfl
  | invalidMask hookFailure => exact idle _ rfl rfl
  | walked hookFailure walk =>
    obtain ⟨outcome, t, rest, ended, contents⟩ :=
      wp_calm (@wp_pass_contents V env c (d.open false) full hookFailure walk rfl)
    refine ⟨t, ?_, contents⟩
    unfold Disk.run
    rw [ended]
    rfl

theorem contents_apart (d : Disk V) : (d.open false).contents.Apart := by
  change ((d.db.documents.rows.map Document.unmarked).map _).Nodup
  rw [List.map_map, List.nodup_iff_pairwise_ne, List.pairwise_map]
  apply d.db.documents.apart.imp
  intro a b apart same
  simp only [Function.comp_apply, Prod.mk.injEq] at same
  exact apart (.inr same)

theorem faithful_on {pass : TimedPass} (stamped : tl.Stamped) (taken : pass.TakenFrom tl) (unraced : pass.Unraced tl)
    (began : now ≤ pass.began) (faithful : d.Faithful env tl now) : (pass.on env d).Faithful env tl pass.ended := by
  obtain ⟨t, left, contents⟩ := @run_contents V env d pass.collection pass.full pass.scan
  have kept : t.contents.Faithful env tl pass.ended := by
    rw [contents]
    exact Contents.faithful_scanned stamped taken unraced began faithful
  unfold TimedPass.on Disk.Faithful
  rw [left]
  exact kept.of_rows rfl

/-- A cached file that a pass meets later has its text in its row. -/
theorem known_of_cached {pass : TimedPass} (taken : pass.TakenFrom tl) (began : now ≤ pass.began)
    (faithful : d.Faithful env tl now) {file : WalkedFile} (member : file ∈ pass.scan.files)
    (hit : cached (d.db.loadDocStatCache pass.collection) file = true) :
    (d.open false).contents.Knows env pass.collection file := by
  obtain ⟨_, some, row, inside, name, path, active, stat⟩ := (@cached_iff pass.collection d.db false file).mp hit
  obtain ⟨found, has⟩ := Option.isSome_iff_exists.mp some
  obtain ⟨x, read, same, text⟩ := taken.found file member
  have there : (d.open false).contents.rowAt pass.collection file.relPath = Option.some row.unmarked := by
    rw [contents_rowAt, show (d.open false).db.getDocumentByFilepath pass.collection file.relPath = Option.some row from
      Db.lookup_iff.mpr ⟨inside, name, path⟩]
    rfl
  have late := (taken.moments file member).1
  have told := faithful _ _ row.unmarked found there active (stat.trans has) _ x (began.trans late) read (same.symm.trans has)
  intro doc prepared
  rw [text doc prepared]
  exact ⟨row.unmarked, there, told⟩

end Disk

theorem Disk.faithful_empty (tl : Timeline) (now : Nat) : (Disk.empty : Disk V).Faithful env tl now := by
  intro c p row stat found
  cases found

/-- The note as it is from `written` on, with the text it had before. -/
def rewrittenTimeline (before after : FoundFile) (written : Nat) (clock : Nat → Int) : Timeline where
  file := fun t c path => if c = notes ∧ path = "a.md" then some (if t < written then before else after) else none
  clock := clock

/-- A pass over the note, which it finds at `x`. -/
def notePass (x : FoundFile) (clock : Nat → Int) (read checked : Nat) : TimedPass where
  collection := notes
  full := false
  scan := .walked none ⟨[⟨"a.md", x.stat, clock checked, .ok x.doc⟩], List.nodup_singleton _⟩
  began := read
  ended := checked
  read := fun _ => read
  checked := fun _ => checked

theorem notePass_takenFrom {tl : Timeline} {x : FoundFile} {read checked : Nat} (ordered : read ≤ checked)
    (there : tl.file read notes "a.md" = some x) : (notePass x tl.clock read checked).TakenFrom tl where
  ordered := ordered
  moments := fun _ _ => ⟨le_refl _, ordered, le_refl _⟩
  found := by
    intro file member
    rw [List.mem_singleton.mp member]
    exact ⟨x, there, rfl, fun doc prepared => (Except.ok.inj prepared).symm⟩
  clock := by
    intro file member
    rw [List.mem_singleton.mp member]
    rfl

theorem rewritten_stamped {before after : FoundFile} {written : Nat} {clock : Nat → Int}
    (monotone : ∀ u v, u ≤ v → clock u ≤ clock v) (stamp : ∀ stat, after.stat = some stat →
      clock written - mtimeTrustWindow ≤ stat.2 ∧ stat.2 ≤ clock written) :
    (rewrittenTimeline before after written clock).Stamped where
  monotone := monotone
  stamps := by
    intro t c path x stat found changed has
    dsimp only [rewrittenTimeline] at found changed ⊢
    by_cases note : c = notes ∧ path = "a.md"
    · rw [if_pos note] at found
      rw [if_pos note, if_pos note] at changed
      by_cases now : t + 1 = written
      · rw [if_neg (by omega)] at found
        cases found
        rw [now]
        exact stamp stat has
      · have same : (t + 1 < written) = (t < written) := by
          apply propext
          omega
        simp only [same] at changed
        exact absurd rfl changed
    · rw [if_neg note] at found
      cases found

def alphaFile (stat : FileStat) : FoundFile := ⟨some stat, notesDoc "alpha"⟩

def gammaFile (stat : FileStat) : FoundFile := ⟨some stat, notesDoc "gamma"⟩

/-- The note is rewritten under a new stamp between two passes. -/
def slowClock (t : Nat) : Int := 9000000000 + 10000000000 * t

def restampedTimeline : Timeline := rewrittenTimeline (alphaFile (5, 1000000000)) (gammaFile (5, 19000000000)) 1 slowClock

/-- On a file system with stamps of two seconds. -/
def coarseClock (t : Nat) : Int :=
  if t = 0 then 500000000 else if t = 1 then 1900000000 else if t = 2 then 2100000000 else 9000000000

def racedTimeline : Timeline := rewrittenTimeline (alphaFile (5, 0)) (gammaFile (5, 0)) 1 coarseClock

end Rqmd
