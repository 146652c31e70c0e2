import Mathlib.Data.List.Nodup
import Rqmd.Lib.Transition

/-! A resident reader. `Store::open` loads the full-text index and the vector file and then records their
mtimes; `reload_if_stale` reads the mtimes first and loads after. Another process commits either file at any
step in between. -/

namespace Rqmd
open Transition

/-- What a commit put into a file, and the mtime it gave it. -/
structure Commit (C : Type) where
  content : C
  mtime : Nat

section File

variable {C : Type} {file : List (Commit C)} {snapshot : Option C} {seen : Option Nat}

/-- The mtime of a file given by its commits, the latest first; without one there is no file. -/
def mtimeOf (file : List (Commit C)) : Option Nat := file.head?.map Commit.mtime

def contentOf (file : List (Commit C)) : Option C := file.head?.map Commit.content

/-- The snapshot is at least as late as the recorded mtime. -/
def Current (file : List (Commit C)) (snapshot : Option C) (seen : Option Nat) : Prop :=
  ∃ later between old, file = later ++ (between ++ old) ∧ snapshot = contentOf (between ++ old) ∧ seen = mtimeOf old

/-- The recorded mtime is one the file had. -/
def Had (file : List (Commit C)) (seen : Option Nat) : Prop := ∃ later old, file = later ++ old ∧ seen = mtimeOf old

theorem Current.commit (current : Current file snapshot seen) (c : Commit C) : Current (c :: file) snapshot seen := by
  obtain ⟨later, between, old, whole, loaded, recorded⟩ := current
  exact ⟨c :: later, between, old, by rw [whole, List.cons_append], loaded, recorded⟩

theorem Had.commit (had : Had file seen) (c : Commit C) : Had (c :: file) seen := by
  obtain ⟨later, old, whole, recorded⟩ := had
  exact ⟨c :: later, old, by rw [whole, List.cons_append], recorded⟩

theorem had_now : Had file (mtimeOf file) := ⟨[], file, rfl, rfl⟩

/-- A file loaded after its mtime was read. -/
theorem Had.load (had : Had file seen) : Current file (contentOf file) seen := by
  obtain ⟨later, old, whole, recorded⟩ := had
  exact ⟨[], later, old, by rw [whole, List.nil_append], by rw [whole], recorded⟩

/-- When the recorded mtime is the file's, the snapshot is the file's. -/
theorem Current.latest (current : Current file snapshot seen) (distinct : (file.map Commit.mtime).Nodup)
    (same : seen = mtimeOf file) : snapshot = contentOf file := by
  obtain ⟨later, between, old, whole, loaded, recorded⟩ := current
  have none : later ++ between = [] := by
    by_contra some
    obtain ⟨first, rest, front⟩ := List.exists_cons_of_ne_nil some
    rw [recorded, whole, ← List.append_assoc, front] at same
    rw [whole, ← List.append_assoc, front] at distinct
    cases old with
    | nil => cases same
    | cons c old =>
      have stamps : c.mtime = first.mtime := Option.some.inj same
      rw [List.cons_append, List.map_cons, List.nodup_cons] at distinct
      exact distinct.1 (stamps ▸ List.mem_map_of_mem (List.mem_append_right _ List.mem_cons_self))
  obtain ⟨noneLater, noneBetween⟩ := List.append_eq_nil_iff.mp none
  rw [loaded, whole, noneLater, List.nil_append]

end File

/-- What a reader keeps of the two files. -/
structure Resident (F H : Type) where
  fts : Option F
  hnsw : Option H
  lastSeenTantivyMetaMtime : Option Nat
  lastSeenHnswMtime : Option Nat

/-- Where the reader stands in `Store::open` or `reload_if_stale`. -/
inductive ReaderPhase (F H : Type) where
  | closed
  | ftsOpened (fts : Option F)
  | hnswLoaded (fts : Option F) (hnsw : Option H)
  | metaStamped (fts : Option F) (hnsw : Option H) (metaMtime : Option Nat)
  | ready (r : Resident F H)
  | metaChecked (r : Resident F H) (metaMtime : Option Nat)
  | hnswChecked (r : Resident F H) (metaMtime hnswMtime : Option Nat)
  | ftsReloaded (r : Resident F H) (metaMtime hnswMtime : Option Nat)
  | hnswReloaded (r : Resident F H) (metaMtime hnswMtime : Option Nat)
  | returned (r : Resident F H) (reloaded : Bool)

/-- The two files, the reader, and whether no commit landed since its last `reload_if_stale` began. -/
structure ReaderSystem (F H : Type) where
  tantivyMeta : List (Commit F)
  hnswFile : List (Commit H)
  reader : ReaderPhase F H
  alone : Bool

inductive ReaderAction where
  | commitFts | saveHnsw
  | openFts | loadHnsw | stampMeta | stampHnsw
  | checkMeta | checkHnsw | unchanged | reloadFts | reloadFailed | reloadHnsw | record
  | close

variable {F H : Type}

namespace ReaderPhase

/-- A reader outside both functions, with what it keeps. -/
def resident : ReaderPhase F H → Option (Resident F H)
  | .ready r | .returned r _ => some r
  | _ => none

end ReaderPhase

namespace ReaderSystem

inductive Step : ReaderAction → ReaderSystem F H → ReaderSystem F H → Prop
  | commitFts (s : ReaderSystem F H) (c : Commit F) (new : c.mtime ∉ s.tantivyMeta.map Commit.mtime) :
      Step .commitFts s { s with tantivyMeta := c :: s.tantivyMeta, alone := false }
  | saveHnsw (s : ReaderSystem F H) (c : Commit H) (new : c.mtime ∉ s.hnswFile.map Commit.mtime) :
      Step .saveHnsw s { s with hnswFile := c :: s.hnswFile, alone := false }
  | openFts (s : ReaderSystem F H) (at_closed : s.reader = .closed) :
      Step .openFts s { s with reader := .ftsOpened (contentOf s.tantivyMeta) }
  | loadHnsw (s : ReaderSystem F H) (fts : Option F) (opened : s.reader = .ftsOpened fts) :
      Step .loadHnsw s { s with reader := .hnswLoaded fts (contentOf s.hnswFile) }
  | stampMeta (s : ReaderSystem F H) (fts : Option F) (hnsw : Option H) (loaded : s.reader = .hnswLoaded fts hnsw) :
      Step .stampMeta s { s with reader := .metaStamped fts hnsw (mtimeOf s.tantivyMeta) }
  | stampHnsw (s : ReaderSystem F H) (fts : Option F) (hnsw : Option H) (metaMtime : Option Nat)
      (stamped : s.reader = .metaStamped fts hnsw metaMtime) :
      Step .stampHnsw s { s with reader := .ready ⟨fts, hnsw, metaMtime, mtimeOf s.hnswFile⟩ }
  | checkMeta (s : ReaderSystem F H) (r : Resident F H) (outside : s.reader.resident = some r) :
      Step .checkMeta s { s with reader := .metaChecked r (mtimeOf s.tantivyMeta), alone := true }
  | checkHnsw (s : ReaderSystem F H) (r : Resident F H) (metaMtime : Option Nat)
      (checked : s.reader = .metaChecked r metaMtime) :
      Step .checkHnsw s { s with reader := .hnswChecked r metaMtime (mtimeOf s.hnswFile) }
  | unchanged (s : ReaderSystem F H) (r : Resident F H) (metaMtime hnswMtime : Option Nat)
      (checked : s.reader = .hnswChecked r metaMtime hnswMtime)
      (same : metaMtime = r.lastSeenTantivyMetaMtime ∧ hnswMtime = r.lastSeenHnswMtime) :
      Step .unchanged s { s with reader := .returned r false }
  | reloadFts (s : ReaderSystem F H) (r : Resident F H) (metaMtime hnswMtime : Option Nat)
      (checked : s.reader = .hnswChecked r metaMtime hnswMtime)
      (stale : ¬ (metaMtime = r.lastSeenTantivyMetaMtime ∧ hnswMtime = r.lastSeenHnswMtime)) :
      Step .reloadFts s { s with
        reader := .ftsReloaded { r with fts := contentOf s.tantivyMeta } metaMtime hnswMtime }
  | reloadFailed (s : ReaderSystem F H) (r : Resident F H) (metaMtime hnswMtime : Option Nat)
      (checked : s.reader = .hnswChecked r metaMtime hnswMtime)
      (stale : ¬ (metaMtime = r.lastSeenTantivyMetaMtime ∧ hnswMtime = r.lastSeenHnswMtime)) :
      Step .reloadFailed s { s with reader := .ready r }
  | reloadHnsw (s : ReaderSystem F H) (r : Resident F H) (metaMtime hnswMtime : Option Nat)
      (reloaded : s.reader = .ftsReloaded r metaMtime hnswMtime) :
      Step .reloadHnsw s { s with
        reader := .hnswReloaded { r with hnsw := contentOf s.hnswFile } metaMtime hnswMtime }
  | record (s : ReaderSystem F H) (r : Resident F H) (metaMtime hnswMtime : Option Nat)
      (reloaded : s.reader = .hnswReloaded r metaMtime hnswMtime) :
      Step .record s { s with
        reader := .returned { r with lastSeenTantivyMetaMtime := metaMtime, lastSeenHnswMtime := hnswMtime } true }
  | close (s : ReaderSystem F H) (r : Resident F H) (outside : s.reader.resident = some r) :
      Step .close s { s with reader := .closed }

/-- No commit lands between the loading of a file in `Store::open` and the reading of its mtime. -/
def Undisturbed (l : ReaderAction) (s _n : ReaderSystem F H) : Prop :=
  match l, s.reader with
  | .commitFts, .ftsOpened _ | .commitFts, .hnswLoaded _ _ => False
  | .saveHnsw, .hnswLoaded _ _ | .saveHnsw, .metaStamped _ _ _ => False
  | _, _ => True

variable {s n : ReaderSystem F H}

/-- What the reader keeps is at least as late as the mtimes it recorded. -/
def Kept (s : ReaderSystem F H) (r : Resident F H) : Prop :=
  Current s.tantivyMeta r.fts r.lastSeenTantivyMetaMtime ∧ Current s.hnswFile r.hnsw r.lastSeenHnswMtime

/-- What the reader keeps is what the files hold. -/
def Latest (s : ReaderSystem F H) (r : Resident F H) : Prop :=
  r.fts = contentOf s.tantivyMeta ∧ r.hnsw = contentOf s.hnswFile

/-- The mtimes read so far, at which the files stand when the call is alone. -/
def Checked (s : ReaderSystem F H) (metaMtime hnswMtime : Option Nat) : Prop :=
  Had s.tantivyMeta metaMtime ∧ Had s.hnswFile hnswMtime ∧
    (s.alone = true → metaMtime = mtimeOf s.tantivyMeta ∧ hnswMtime = mtimeOf s.hnswFile)

/-- What holds in each place of the two functions. -/
def Placed (s : ReaderSystem F H) : ReaderPhase F H → Prop
  | .closed => True
  | .ftsOpened fts => fts = contentOf s.tantivyMeta
  | .hnswLoaded fts hnsw => fts = contentOf s.tantivyMeta ∧ hnsw = contentOf s.hnswFile
  | .metaStamped fts hnsw metaMtime => Current s.tantivyMeta fts metaMtime ∧ hnsw = contentOf s.hnswFile
  | .ready r => s.Kept r
  | .metaChecked r metaMtime =>
    s.Kept r ∧ Had s.tantivyMeta metaMtime ∧ (s.alone = true → metaMtime = mtimeOf s.tantivyMeta)
  | .hnswChecked r metaMtime hnswMtime => s.Kept r ∧ s.Checked metaMtime hnswMtime
  | .ftsReloaded r metaMtime hnswMtime => Current s.tantivyMeta r.fts metaMtime ∧
    (s.alone = true → r.fts = contentOf s.tantivyMeta) ∧ s.Checked metaMtime hnswMtime
  | .hnswReloaded r metaMtime hnswMtime =>
    Current s.tantivyMeta r.fts metaMtime ∧ Current s.hnswFile r.hnsw hnswMtime ∧ (s.alone = true → s.Latest r)
  | .returned r _ => s.Kept r ∧ (s.alone = true → s.Latest r)

structure Tracked (s : ReaderSystem F H) : Prop where
  tantivyMeta : (s.tantivyMeta.map Commit.mtime).Nodup
  hnswFile : (s.hnswFile.map Commit.mtime).Nodup
  placed : s.Placed s.reader

theorem current_now {C : Type} {file : List (Commit C)} : Current file (contentOf file) (mtimeOf file) :=
  had_now.load

theorem Tracked.commitFts (t : s.Tracked) (c : Commit F) (new : c.mtime ∉ s.tantivyMeta.map Commit.mtime)
    (undisturbed : Undisturbed .commitFts s n) :
    Tracked { s with tantivyMeta := c :: s.tantivyMeta, alone := false } := by
  refine ⟨List.nodup_cons.mpr ⟨new, t.tantivyMeta⟩, t.hnswFile, ?_⟩
  have placed := t.placed
  simp only [Undisturbed] at undisturbed
  change Placed _ s.reader
  cases place : s.reader with
  | closed => trivial
  | ftsOpened fts => simp [place] at undisturbed
  | hnswLoaded fts hnsw => simp [place] at undisturbed
  | metaStamped fts hnsw metaMtime =>
    rw [place] at placed
    exact ⟨placed.1.commit c, placed.2⟩
  | ready r =>
    rw [place] at placed
    exact ⟨placed.1.commit c, placed.2⟩
  | metaChecked r metaMtime =>
    rw [place] at placed
    exact ⟨⟨placed.1.1.commit c, placed.1.2⟩, placed.2.1.commit c, nofun⟩
  | hnswChecked r metaMtime hnswMtime =>
    rw [place] at placed
    exact ⟨⟨placed.1.1.commit c, placed.1.2⟩, placed.2.1.commit c, placed.2.2.1, nofun⟩
  | ftsReloaded r metaMtime hnswMtime =>
    rw [place] at placed
    exact ⟨placed.1.commit c, nofun, placed.2.2.1.commit c, placed.2.2.2.1, nofun⟩
  | hnswReloaded r metaMtime hnswMtime =>
    rw [place] at placed
    exact ⟨placed.1.commit c, placed.2.1, nofun⟩
  | returned r reloaded =>
    rw [place] at placed
    exact ⟨⟨placed.1.1.commit c, placed.1.2⟩, nofun⟩

theorem Tracked.saveHnsw (t : s.Tracked) (c : Commit H) (new : c.mtime ∉ s.hnswFile.map Commit.mtime)
    (undisturbed : Undisturbed .saveHnsw s n) :
    Tracked { s with hnswFile := c :: s.hnswFile, alone := false } := by
  refine ⟨t.tantivyMeta, List.nodup_cons.mpr ⟨new, t.hnswFile⟩, ?_⟩
  have placed := t.placed
  simp only [Undisturbed] at undisturbed
  change Placed _ s.reader
  cases place : s.reader with
  | closed => trivial
  | ftsOpened fts =>
    rw [place] at placed
    exact placed
  | hnswLoaded fts hnsw => simp [place] at undisturbed
  | metaStamped fts hnsw metaMtime => simp [place] at undisturbed
  | ready r =>
    rw [place] at placed
    exact ⟨placed.1, placed.2.commit c⟩
  | metaChecked r metaMtime =>
    rw [place] at placed
    exact ⟨⟨placed.1.1, placed.1.2.commit c⟩, placed.2.1, nofun⟩
  | hnswChecked r metaMtime hnswMtime =>
    rw [place] at placed
    exact ⟨⟨placed.1.1, placed.1.2.commit c⟩, placed.2.1, placed.2.2.1.commit c, nofun⟩
  | ftsReloaded r metaMtime hnswMtime =>
    rw [place] at placed
    exact ⟨placed.1, nofun, placed.2.2.1, placed.2.2.2.1.commit c, nofun⟩
  | hnswReloaded r metaMtime hnswMtime =>
    rw [place] at placed
    exact ⟨placed.1, placed.2.1.commit c, nofun⟩
  | returned r reloaded =>
    rw [place] at placed
    exact ⟨⟨placed.1.1, placed.1.2.commit c⟩, nofun⟩

/-- A reader between two calls keeps something. -/
theorem Tracked.kept (t : s.Tracked) {r : Resident F H} (outside : s.reader.resident = some r) : s.Kept r := by
  have placed := t.placed
  cases place : s.reader with
  | ready r' =>
    rw [place] at outside placed
    cases outside
    exact placed
  | returned r' reloaded =>
    rw [place] at outside placed
    cases outside
    exact placed.1
  | _ =>
    rw [place] at outside
    cases outside

/-- What one step preserves. -/
theorem Tracked.step {action : ReaderAction} (t : s.Tracked) (undisturbed : Undisturbed action s n) (step : Step action s n) :
    n.Tracked := by
  have placed := t.placed
  cases step with
  | commitFts s c new => exact t.commitFts c new undisturbed
  | saveHnsw s c new => exact t.saveHnsw c new undisturbed
  | openFts s at_closed => exact ⟨t.tantivyMeta, t.hnswFile, rfl⟩
  | loadHnsw s fts opened =>
    rw [opened] at placed
    exact ⟨t.tantivyMeta, t.hnswFile, placed, rfl⟩
  | stampMeta s fts hnsw loaded =>
    rw [loaded] at placed
    have current : Current s.tantivyMeta fts (mtimeOf s.tantivyMeta) := placed.1 ▸ current_now
    exact ⟨t.tantivyMeta, t.hnswFile, current, placed.2⟩
  | stampHnsw s fts hnsw metaMtime stamped =>
    rw [stamped] at placed
    have current : Current s.hnswFile hnsw (mtimeOf s.hnswFile) := placed.2 ▸ current_now
    exact ⟨t.tantivyMeta, t.hnswFile, placed.1, current⟩
  | checkMeta s r outside => exact ⟨t.tantivyMeta, t.hnswFile, t.kept outside, had_now, fun _ => rfl⟩
  | checkHnsw s r metaMtime checked =>
    rw [checked] at placed
    obtain ⟨kept, had, alone⟩ := placed
    exact ⟨t.tantivyMeta, t.hnswFile, kept, had, had_now, fun quiet => ⟨alone quiet, rfl⟩⟩
  | unchanged s r metaMtime hnswMtime checked same =>
    rw [checked] at placed
    obtain ⟨kept, -, -, alone⟩ := placed
    refine ⟨t.tantivyMeta, t.hnswFile, kept, fun quiet => ?_⟩
    obtain ⟨metaNow, hnswNow⟩ := alone quiet
    have fts := kept.1.latest t.tantivyMeta (same.1.symm.trans metaNow)
    have hnsw := kept.2.latest t.hnswFile (same.2.symm.trans hnswNow)
    exact ⟨fts, hnsw⟩
  | reloadFts s r metaMtime hnswMtime checked stale =>
    rw [checked] at placed
    obtain ⟨-, had⟩ := placed
    exact ⟨t.tantivyMeta, t.hnswFile, had.1.load, fun _ => rfl, had⟩
  | reloadFailed s r metaMtime hnswMtime checked stale =>
    rw [checked] at placed
    exact ⟨t.tantivyMeta, t.hnswFile, placed.1⟩
  | reloadHnsw s r metaMtime hnswMtime reloaded =>
    rw [reloaded] at placed
    obtain ⟨current, fresh, had⟩ := placed
    exact ⟨t.tantivyMeta, t.hnswFile, current, had.2.1.load, fun quiet => ⟨fresh quiet, rfl⟩⟩
  | record s r metaMtime hnswMtime reloaded =>
    rw [reloaded] at placed
    exact ⟨t.tantivyMeta, t.hnswFile, ⟨placed.1, placed.2.1⟩, placed.2.2⟩
  | close s r outside => exact ⟨t.tantivyMeta, t.hnswFile, trivial⟩

/-- An index with one commit of each file, and no reader. -/
def published : ReaderSystem String String := ⟨[⟨"alpha", 1⟩], [⟨"alpha", 1⟩], .closed, false⟩

/-- A second commit of the full-text index. -/
def edited : Commit String := ⟨"beta", 2⟩

end ReaderSystem

end Rqmd
