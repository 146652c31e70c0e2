import Rqmd.Refresh
import Rqmd.Timeline

/-! `rqmd watch`. A tick compares the files of each collection with what the last tick saw and runs an update pass
over those that differ. -/

namespace Rqmd
open Interrupt

variable {V : Type} {env : Env V}

/-- A file as the fingerprint sees it: its path, its stat and the time of the check. -/
structure LookedFile where
  relPath : String
  stat : Option FileStat
  now : Int

/-- What the fingerprint of a collection is made from; no two files have one path. -/
inductive Look where
  | invalidMask
  | found (files : List LookedFile) (distinct : (files.map LookedFile.relPath).Nodup)

def Look.files : Look → List LookedFile
  | .invalidMask => []
  | .found files _ => files

/-- The sorted paths with their stats, of which the source keeps a hash; none stands for its 0. -/
abbrev Fingerprint := Option (List (String × Option FileStat))

instance : DecidableEq (Option Fingerprint) := fun _ _ => inferInstance

def LookedFile.settled (file : LookedFile) : Bool :=
  match file.stat with
  | none => true
  | some stat => (trustedStat file.now stat).isSome

/-- The fingerprint, and whether every stamp is old enough for the stat-skip to trust. -/
def fingerprint : Look → Fingerprint × Bool
  | .invalidMask => (none, true)
  | .found files _ =>
    (some ((files.map fun file => (file.relPath, file.stat)).insertionSort fun a b => a.1 ≤ b.1), files.all LookedFile.settled)

inductive Deferral where
  | locked
  | rebuildPending
deriving DecidableEq

structure Watcher where
  collection : Option CollectionName
  seen : CollectionName → Option Fingerprint
  deferred : Option Deferral
  deferrals : Nat

/-- `u32::MAX`, where the count of deferrals stays. -/
def maxDeferrals : Nat := 4294967295

namespace Watcher

def start (collection : Option CollectionName) : Watcher := ⟨collection, fun _ => none, none, 0⟩

def currentCollections (watcher : Watcher) (db : Db) : List Collection :=
  match watcher.collection with
  | some name => db.listCollections.filter fun c => c.name = name
  | none => db.listCollections

def retain (watcher : Watcher) (cols : List Collection) : Watcher :=
  { watcher with seen := fun name => if cols.any (·.name == name) then watcher.seen name else none }

def due (watcher : Watcher) (look : CollectionName → Look) (cols : List Collection) : List Collection :=
  cols.filter fun col => watcher.seen col.name ≠ some (fingerprint (look col.name)).1

def defer (watcher : Watcher) (why : Deferral) : Watcher :=
  { watcher with deferred := some why, deferrals := min (watcher.deferrals + 1) maxDeferrals }

/-- A file stamped within the last moments is looked at again next tick. -/
def record (watcher : Watcher) (name : CollectionName) (print : Fingerprint × Bool) : Watcher :=
  if print.2 then { watcher with seen := fun other => if other = name then some print.1 else watcher.seen other }
  else watcher

end Watcher

/-- The passes over the collections that are due. -/
def watchEach (env : Env V) (look : CollectionName → Look) (scan : CollectionName → Scan) :
    List Collection → Watcher → Command V Watcher
  | [], watcher => pure watcher
  | col :: cols, watcher => do
    let outcome ← updateOneCollection env col.name false (scan col.name)
    if outcome.interrupted then
      Prog.throw "interrupted"
    else
      watchEach env look scan cols (watcher.record col.name (fingerprint (look col.name)))

/-- Check the collections once and index the ones that changed; the flag is false where a pass was due but deferred.
`lock` is what `try_acquire` answers: whether the lock was free. -/
def tick (env : Env V) (watcher : Watcher) (look : CollectionName → Look) (lock : Except Failure Bool)
    (scan : CollectionName → Scan) : Command V (Bool × Watcher) := do
  if ← Prog.poll .signal then
    Prog.throw "interrupted"
  else
    let cols ← Prog.query fun s => watcher.currentCollections s.db
    let kept := watcher.retain cols
    let due := kept.due look cols
    if due.isEmpty then
      pure (true, kept)
    else
      Store.reopen true
      if ← Prog.query fun s => Store.ftsRebuildPending s.db then
        pure (false, kept.defer .rebuildPending)
      else
        let free ← Prog.ofExcept lock
        if free then
          Store.reopen false
          let watched ← watchEach env look scan due kept
          Store.reclaimOrphanedVectors
          pure (true, { watched with deferred := none, deferrals := 0 })
        else
          pure (false, kept.defer .locked)

/-! ### What a tick makes of the index -/

variable {s : Store V} {watcher : Watcher} {look : CollectionName → Look} {scan : CollectionName → Scan}

theorem Db.sequence_deleteVectors (hashes : List String) : ∀ db : Db,
    (hashes.foldl deleteVectorsForHash db).sequence = db.sequence := by
  induction hashes with
  | nil => exact fun _ => rfl
  | cons hash hashes ih => exact fun db => ih (db.deleteVectorsForHash hash)

/-- Reclaiming vectors concerns no document and no full-text entry. -/
theorem keeps_reclaim (slots : CollectionName → String → Slot) :
    Preserves Faults.calm (fun t : Store V => Placed t ∧ t.fts.working = t.fts.committed ∧ t.slot = slots)
      Store.reclaimOrphanedVectors := by
  unfold Store.reclaimOrphanedVectors Store.reclaimVectorsOf
  apply Preserves.bind (Preserves.query _)
  intro hashes
  apply Preserves.ite (Preserves.pure ())
  apply Preserves.bind
  · apply Preserves.forEach
    intro hash
    unfold Store.evictHash Store.evictHnswVectors
    apply Preserves.bind (Preserves.query _)
    intro vids
    apply Preserves.ite (Preserves.pure ())
    apply Preserves.bind (Preserves.query _)
    intro readOnly
    apply Preserves.ite (Preserves.throw _)
    apply Preserves.modify
    intro t here
    exact ⟨⟨here.1.located, here.1.committed, here.1.working, here.1.staged, here.1.idle⟩, here.2.1, here.2.2⟩
  intro _
  apply Preserves.bind
  · intro t here
    obtain ⟨placed, even, same⟩ := here.1.settled
    have slots' : t.settled.slot = slots := by
      rw [← here.2.2]
      exact funext fun d => funext fun q => same d q
    refine Store.wp_flush ?_ (fun _ _ _ => ⟨placed, even, slots'⟩) False.elim False.elim False.elim
    unfold Store.flushed
    by_cases dirty : t.hnswDirty = true
    · rw [if_pos dirty]
      exact ⟨⟨placed.located, placed.committed, placed.working, placed.staged, placed.idle⟩, even, slots'⟩
    · rw [if_neg dirty]
      exact ⟨placed, even, slots'⟩
  · intro _ t here
    refine Store.wp_sqlExecute ?_ False.elim False.elim
    have documents : ∀ c p, (hashes.foldl Db.deleteVectorsForHash t.db).rowAt c p = t.db.rowAt c p := by
      intro c p
      unfold Db.rowAt Db.getDocumentByFilepath
      rw [(Db.texts_deleteVectors hashes t.db).2.2]
    have sequence := Db.sequence_deleteVectors hashes t.db
    refine ⟨here.1.withRows (fun c p => by rw [documents]) (le_of_eq sequence.symm) _, here.2.1, ?_⟩
    rw [← here.2.2]
    exact funext fun d => funext fun q => slot_of_rows (documents d q)

/-- The watcher after the passes over `cols`. -/
def Watcher.recorded (look : CollectionName → Look) (cols : List Collection) (watcher : Watcher) : Watcher :=
  cols.foldl (fun watcher col => watcher.record col.name (fingerprint (look col.name))) watcher

/-- A fingerprint is recorded for a collection that was passed over with every stamp settled. -/
theorem Watcher.seen_recorded {cols : List Collection} {c : CollectionName} {print : Fingerprint}
    (seen : (watcher.recorded look cols).seen c = some print) : watcher.seen c = some print ∨
      (c ∈ cols.map Collection.name ∧ (fingerprint (look c)).2 = true ∧ (fingerprint (look c)).1 = print) := by
  induction cols generalizing watcher with
  | nil => exact .inl seen
  | cons col cols ih =>
    rcases ih seen with before | later
    · dsimp only [record] at before
      by_cases settled : (fingerprint (look col.name)).2 = true
      · rw [if_pos settled] at before
        dsimp only at before
        by_cases here : c = col.name
        · rw [if_pos here] at before
          rw [here]
          exact .inr ⟨List.mem_cons_self, settled, Option.some.inj before⟩
        · rw [if_neg here] at before
          exact .inl before
      · rw [if_neg settled] at before
        exact .inl before
    · exact .inr ⟨List.mem_cons_of_mem _ later.1, later.2⟩

theorem wp_watchEach (noHook : ∀ c, scan c ≠ .hookInterrupted) (cols : List Collection)
    (distinct : (cols.map Collection.name).Nodup) (watcher : Watcher) (s : Store V) (placed : Placed s)
    (clean : s.hnswDirty = false) : wp Faults.calm (watchEach env look scan cols watcher)
      (Ends.only fun w t => w = watcher.recorded look cols ∧ PassedEach env scan (cols.map Collection.name) s t) s := by
  induction cols generalizing watcher s with
  | nil => exact wp_pure ⟨rfl, .refl placed clean⟩
  | cons col cols ih =>
    rw [List.map_cons, List.nodup_cons] at distinct
    unfold watchEach
    refine wp_bind (wp_mono (wp_scanned (noHook col.name) placed clean) ?_ (fun _ _ => False.elim) fun _ => False.elim)
    intro o t pass
    simp only [Ends.with, pass.1, Bool.false_eq_true, if_false]
    have rest := ih distinct.2 (watcher.record col.name (fingerprint (look col.name))) t pass.2.placed pass.2.clean
    refine wp_mono rest ?_ (fun _ _ => False.elim) fun _ => False.elim
    exact fun w u passed => ⟨passed.1, pass.2.cons distinct.1 passed.2⟩

/-- What a tick makes of the watcher and the index: `names` are the collections it passed over. -/
structure Ticked (env : Env V) (watcher : Watcher) (look : CollectionName → Look) (lock : Except Failure Bool)
    (scan : CollectionName → Scan) (d : Disk V) (names : List CollectionName) (after : Watcher) (t : Store V) : Prop where
  indexed : t.disk.Indexed
  others : ∀ c, c ∉ names → t.disk.slot c = d.slot c
  each : ∀ c ∈ names, Scan.Makes env c (d.db.loadDocStatCache c) (scan c) (d.slot c) (t.disk.slot c)
  passed : ∀ c ∈ names, Store.ftsRebuildPending d.db = false ∧ lock = .ok true ∧ c ∈ ((watcher.retain
    (watcher.currentCollections d.db)).due look (watcher.currentCollections d.db)).map Collection.name
  seen : ∀ c print, after.seen c = some print → watcher.seen c = some print ∨
    (c ∈ names ∧ (fingerprint (look c)).2 = true ∧ (fingerprint (look c)).1 = print)

theorem Watcher.seen_retain {cols : List Collection} {c : CollectionName} {print : Fingerprint}
    (seen : (watcher.retain cols).seen c = some print) : watcher.seen c = some print := by
  dsimp only [retain] at seen
  by_cases listed : cols.any (·.name == c) = true
  · rwa [if_pos listed] at seen
  · rw [if_neg listed] at seen
    cases seen

theorem Watcher.due_distinct (db : Db) (look : CollectionName → Look) :
    (((watcher.retain (watcher.currentCollections db)).due look (watcher.currentCollections db)).map
      Collection.name).Nodup := by
  have current : (watcher.currentCollections db).Sublist db.listCollections := by
    unfold currentCollections
    cases watcher.collection with
    | none => exact List.Sublist.refl _
    | some name => exact List.filter_sublist
  have due : ((watcher.retain (watcher.currentCollections db)).due look (watcher.currentCollections db)).Sublist
      (watcher.currentCollections db) := List.filter_sublist
  exact db.names_distinct.sublist ((due.trans current).map Collection.name)

theorem wp_tick {d : Disk V} {lock : Except Failure Bool} (indexed : d.Indexed) (noHook : ∀ c, scan c ≠ .hookInterrupted) :
    wp Faults.calm (tick env watcher look lock scan)
      (Ends.ifDone fun r t => ∃ names, Ticked env watcher look lock scan d names r.2 t) (d.open true) := by
  have opened : (d.open true).disk = d := rfl
  have idle : ∀ after : Watcher, (∀ c print, after.seen c = some print → watcher.seen c = some print) →
      Ticked env watcher look lock scan d [] after (d.open true) := by
    intro after older
    refine ⟨indexed, fun c _ => by rw [opened], ?_, ?_, fun c print seen => .inl (older c print seen)⟩
    · exact fun c member => absurd member List.not_mem_nil
    · exact fun c member => absurd member List.not_mem_nil
  have distinct := @Watcher.due_distinct watcher d.db look
  unfold tick Store.reopen
  refine wp_bind (wp_poll ?_ False.elim False.elim)
  refine wp_bind (wp_query ?_)
  change wp _ (if ((watcher.retain (watcher.currentCollections d.db)).due look
    (watcher.currentCollections d.db)).isEmpty then _ else _) _ _
  have kept : ∀ c print, (watcher.retain (watcher.currentCollections d.db)).seen c = some print →
      watcher.seen c = some print := fun _ _ => Watcher.seen_retain
  apply wp_ite
  · exact wp_pure ⟨[], idle _ kept⟩
  refine wp_bind (wp_modify ?_)
  rw [opened]
  refine wp_bind (wp_query ?_)
  change wp _ (if Store.ftsRebuildPending d.db then _ else _) _ _
  by_cases pending : Store.ftsRebuildPending d.db = true
  · rw [if_pos pending]
    exact wp_pure ⟨[], idle _ kept⟩
  rw [if_neg pending]
  refine wp_bind (wp_ofExcept (fun free locked => ?_) fun _ _ => trivial)
  simp only [Ends.with]
  cases free with
  | false => exact wp_pure ⟨[], idle _ kept⟩
  | true =>
    rw [if_pos rfl]
    refine wp_bind (wp_modify ?_)
    rw [opened]
    refine wp_bind (wp_mono (wp_watchEach noHook _ distinct _ (d.open false) (Disk.placed_opened indexed false) rfl) ?_
      (fun _ _ => False.elim) fun _ => False.elim)
    intro after t passed
    obtain ⟨rfl, passed⟩ := passed
    refine wp_bind (wp_mono (keeps_reclaim t.slot t ⟨passed.placed, passed.even rfl, rfl⟩) ?_ (fun _ _ _ => trivial)
      fun _ _ => trivial)
    intro _ u ended
    obtain ⟨placed, even, same⟩ := ended
    have slots : u.disk.slot = t.slot := (Store.disk_slot even).trans same
    refine wp_pure ⟨((watcher.retain (watcher.currentCollections d.db)).due look
      (watcher.currentCollections d.db)).map Collection.name, Disk.indexed_disk placed, ?_, ?_, ?_, ?_⟩
    · intro c outside
      rw [slots]
      exact (passed.others c outside).1
    · intro c member
      rw [slots]
      exact passed.each c member
    · intro c member
      exact ⟨Bool.eq_false_iff.mpr pending, locked, member⟩
    · intro c print seen
      exact (Watcher.seen_recorded seen).imp_left (kept c print)

/-! ### Runs -/

/-- A tick and what it meets. It looks at the files until `passing`, when its passes begin. -/
structure Tick where
  began : Nat
  passing : Nat
  ended : Nat
  look : CollectionName → Look
  lock : Except Failure Bool
  scan : CollectionName → Scan
  fates : List (Fate FaultKind)

/-- The tick meets the files of the timeline, each at some moment of it, and its walks find every file that is there
all the while. -/
structure Tick.TakenFrom (tick : Tick) (tl : Timeline) : Prop where
  looks : tick.began ≤ tick.passing
  passes : tick.passing ≤ tick.ended
  looked : ∀ c, ∀ file ∈ (tick.look c).files, ∃ u v, tick.began ≤ u ∧ u ≤ v ∧ v ≤ tick.passing ∧
    file.stat = tl.stat u c file.relPath ∧ file.now = tl.clock v
  stats : ∀ c, ∀ file ∈ (tick.scan c).files, ∃ u v, tick.passing ≤ u ∧ u ≤ v ∧ v ≤ tick.ended ∧
    file.stat = tl.stat u c file.relPath ∧ file.now = tl.clock v
  reads : ∀ c, ∀ file ∈ (tick.scan c).files, ∀ doc, file.prepared = .ok doc → ∃ u x, tick.passing ≤ u ∧
    u ≤ tick.ended ∧ tl.file u c file.relPath = some x ∧ x.doc = doc
  walks : ∀ c path, (∀ t, tick.passing ≤ t → t ≤ tick.ended → (tl.file t c path).isSome) →
    path ∈ (tick.scan c).files.map WalkedFile.relPath
  noHook : ∀ c, tick.scan c ≠ .hookInterrupted

structure Watching (V : Type) where
  watcher : Watcher
  disk : Disk V
  now : Nat

/-- The loop goes on after a tick that returns; an error ends the watch. Files change at any moment. -/
inductive Ticks (env : Env V) (tl : Timeline) : Tick → Watching V → Watching V → Prop
  | ticked (step : Tick) (m : Watching V) (flag : Bool) (after : Watcher) (t : Store V) (rest : List (Fate FaultKind))
      (later : m.now ≤ step.began) (taken : step.TakenFrom tl)
      (ended : tick env m.watcher step.look step.lock step.scan step.fates (m.disk.open true) = .done (flag, after) t rest) :
      Ticks env tl step m ⟨after, t.disk, step.ended⟩

/-- The collections the tick passes over. -/
def Watching.Passes (m : Watching V) (step : Tick) (c : CollectionName) : Prop :=
  Store.ftsRebuildPending m.disk.db = false ∧ step.lock = .ok true ∧
    c ∈ ((m.watcher.retain (m.watcher.currentCollections m.disk.db)).due step.look
      (m.watcher.currentCollections m.disk.db)).map Collection.name

/-- No write of the tick fails, and where it will record a fingerprint its pass takes in every file that stays: the
file is indexed at its text before, or it is not skipped by its stat, can be read and has a text that no row of its
path has. -/
structure Tick.Serves (env : Env V) (tl : Timeline) (step : Tick) (m _after : Watching V) : Prop where
  quiet : ∀ fate ∈ step.fates, Faults.calm.Allows fate
  takes : ∀ c, m.Passes step c → (fingerprint (step.look c)).2 = true → ∀ file ∈ (step.scan c).files, ∀ x,
    tl.file step.ended c file.relPath = some x → tl.Unchanged c file.relPath step.passing step.ended →
    (m.disk.slot c file.relPath).Holds env (env.contentHash x.doc.indexedText) ∨
      (cached (m.disk.db.loadDocStatCache c) file = false ∧ (∃ doc, file.prepared = .ok doc) ∧
        ¬ (m.disk.slot c file.relPath).Knows env x.doc)

/-- The look that finds the files of one moment. -/
structure Look.Shows (look : Look) (tl : Timeline) (t : Nat) (c : CollectionName) : Prop where
  there : ∀ file ∈ look.files, ∃ x, tl.file t c file.relPath = some x ∧ file.stat = x.stat
  all : ∀ path x, tl.file t c path = some x → ∃ file ∈ look.files, file.relPath = path

/-- Where the recorded fingerprint is that of the files of some moment from now on, those files are indexed at their
content. -/
def Watching.Truthful (env : Env V) (tl : Timeline) (m : Watching V) : Prop :=
  ∀ c print, m.watcher.seen c = some print → ∀ t, m.now ≤ t → ∀ look : Look, look.Shows tl t c →
    (fingerprint look).1 = print → ∀ path x, tl.file t c path = some x →
      (m.disk.slot c path).Holds env (env.contentHash x.doc.indexedText)

/-- A file that was found settled with the stat is indexed at its content whenever it has that stat. -/
def Watching.Vouches (env : Env V) (tl : Timeline) (m : Watching V) (c : CollectionName) (path : String)
    (stat : Option FileStat) : Prop :=
  ∃ u v, u ≤ v ∧ v ≤ m.now ∧ tl.stat u c path = stat ∧
    (∀ found, stat = some found → trustedStat (tl.clock v) found = some found) ∧
    ∀ t x, m.now ≤ t → tl.file t c path = some x → x.stat = stat →
      (m.disk.slot c path).Holds env (env.contentHash x.doc.indexedText)

structure Watching.Kept (env : Env V) (tl : Timeline) (m : Watching V) : Prop where
  indexed : m.disk.Indexed
  vouched : ∀ c entries, m.watcher.seen c = some (some entries) → ∀ entry ∈ entries, m.Vouches env tl c entry.1 entry.2

theorem mem_fingerprint {look : Look} {entries : List (String × Option FileStat)}
    (print : (fingerprint look).1 = some entries) {path : String} {stat : Option FileStat} :
    (path, stat) ∈ entries ↔ ∃ file ∈ look.files, file.relPath = path ∧ file.stat = stat := by
  cases look with
  | invalidMask => cases print
  | found files distinct =>
    rw [← Option.some.inj print, List.mem_insertionSort, List.mem_map]
    simp only [Prod.mk.injEq]
    rfl

theorem settled_trusted {look : Look} (settled : (fingerprint look).2 = true) {file : LookedFile}
    (member : file ∈ look.files) {stat : FileStat} (found : file.stat = some stat) :
    trustedStat file.now stat = some stat := by
  cases look with
  | invalidMask => cases member
  | found files distinct =>
    have old := List.all_eq_true.mp settled file member
    unfold LookedFile.settled at old
    rw [found] at old
    unfold trustedStat at old ⊢
    by_cases trusted : 0 ≤ stat.2 ∧ mtimeTrustWindow < file.now - stat.2
    · rw [if_pos trusted]
    · simp only [if_neg trusted] at old
      cases old

variable {tl : Timeline} {step : Tick} {m : Watching V} {c : CollectionName} {path : String}

/-- What a pass makes of a file that stays as it is while the pass runs. -/
theorem holds_after {cache : List (String × FileStat)} {before after : String → Slot} {x : FoundFile}
    (taken : step.TakenFrom tl) (makes : Scan.Makes env c cache (step.scan c) before after)
    (there : tl.file step.ended c path = some x) (stays : tl.Unchanged c path step.passing step.ended) :
    ∃ file ∈ (step.scan c).files, file.relPath = path ∧
      ((after path).Holds env (env.contentHash x.doc.indexedText) ↔
        (before path).Holds env (env.contentHash x.doc.indexedText) ∨
          (cached cache file = false ∧ ∃ doc, file.prepared = .ok doc ∧ ¬ (before path).Knows env doc)) ∧
      ∀ doc, file.prepared = .ok doc → doc = x.doc := by
  have found : path ∈ (step.scan c).files.map WalkedFile.relPath := by
    apply taken.walks c path
    intro t late early
    rw [stays t late early, there]
    rfl
  obtain ⟨file, member, rfl⟩ := List.mem_map.mp found
  have read : ∀ doc, file.prepared = .ok doc → doc = x.doc := by
    intro doc prepared
    obtain ⟨u, y, late, early, here, same⟩ := taken.reads c file member doc prepared
    rw [stays u late early, there] at here
    rw [← same, Option.some.inj here]
  have made := makes.walked file member
  refine ⟨file, member, rfl, holds_iff made.1 made.2 fun doc prepared => ?_, read⟩
  rw [read doc prepared]

/-- One tick. -/
theorem kept_step (settles : tl.NoReturn) {after : Watching V} (kept : m.Kept env tl) (serves : step.Serves env tl m after)
    (moved : Ticks env tl step m after) : after.Kept env tl := by
  cases moved with
  | ticked flag watcher t rest later taken ended =>
    have met := @wp_tick V env m.watcher step.look step.scan m.disk step.lock kept.indexed taken.noHook step.fates serves.quiet
    rw [ended] at met
    obtain ⟨names, ticked⟩ := met.1
    have looks := taken.looks
    have passes := taken.passes
    refine ⟨ticked.indexed, fun c entries seen entry member => ?_⟩
    rcases ticked.seen c _ seen with before | recorded
    · obtain ⟨u, v, ordered, past, found, old, holds⟩ := kept.vouched c entries before entry member
      refine ⟨u, v, ordered, show v ≤ step.ended by omega, found, old, ?_⟩
      intro t' x late there same
      have held := holds t' x (show m.now ≤ t' by have : step.ended ≤ t' := late; omega) there same
      change (t.disk.slot c entry.1).Holds _ _
      by_cases passed : c ∈ names
      · have late' : step.ended ≤ t' := late
        have stays := settles c entry.1 u v t' x ordered (by omega) there (found.trans same.symm)
          (fun stat has => old stat (same ▸ has))
        have here : tl.file step.ended c entry.1 = some x := (stays step.ended (by omega) late').trans there
        obtain ⟨file, _, _, iff, _⟩ := holds_after taken (ticked.each c passed) here
          (stays.within (by omega) passes late')
        exact iff.mpr (.inl held)
      · rw [ticked.others c passed]
        exact held
    · obtain ⟨passed, settled, print⟩ := recorded
      obtain ⟨looked, inside, place, stamp⟩ := (mem_fingerprint print).mp member
      obtain ⟨u, v, began, ordered, early, stat, clock⟩ := taken.looked c looked inside
      rw [place, stamp] at stat
      have old : ∀ found, entry.2 = some found → trustedStat (tl.clock v) found = some found := by
        intro found has
        rw [← clock]
        exact settled_trusted settled inside (stamp.trans has)
      refine ⟨u, v, ordered, show v ≤ step.ended by omega, stat.symm, old, ?_⟩
      intro t' x late there same
      have late' : step.ended ≤ t' := late
      have stays := settles c entry.1 u v t' x ordered (by omega) there (stat.symm.trans same.symm)
        (fun found has => old found (same ▸ has))
      have here : tl.file step.ended c entry.1 = some x := (stays step.ended (by omega) late').trans there
      have during := stays.within (show v ≤ step.passing by omega) passes late'
      obtain ⟨file, walked, same', iff, read⟩ := holds_after taken (ticked.each c passed) here during
      change (t.disk.slot c entry.1).Holds _ _
      apply iff.mpr
      have takes := serves.takes c (ticked.passed c passed) settled file walked x (same' ▸ here) (same' ▸ during)
      rw [same'] at takes
      refine takes.imp id fun fresh => ?_
      obtain ⟨miss, readable, unknown⟩ := fresh
      obtain ⟨doc, prepared⟩ := readable
      refine ⟨miss, doc, prepared, ?_⟩
      rw [read doc prepared]
      exact unknown

/-- In every run of a watch whose ticks serve the files they record, a recorded fingerprint that is still that of the
files vouches for them: each is indexed at its content. -/
theorem watch_records_indexed (env : Env V) (tl : Timeline) (settles : tl.NoReturn) (collection : Option CollectionName)
    (d : Disk V) (indexed : d.Indexed) (began : Nat) {m : Watching V}
    (run : Transition.Reaches (Ticks env tl) (Tick.Serves env tl) ⟨.start collection, d, began⟩ m) :
    m.Truthful env tl := by
  have kept : m.Kept env tl := by
    apply run.invariant
    · refine ⟨indexed, fun c entries seen => ?_⟩
      cases seen
    · exact fun step m after here serves moved => kept_step settles here serves moved
  intro c print seen t late look shows same path x there
  obtain ⟨file, member, rfl⟩ := shows.all path x there
  obtain ⟨y, here, stat⟩ := shows.there file member
  rw [there] at here
  cases here
  cases print with
  | none =>
    cases look with
    | invalidMask => cases member
    | found files distinct => cases same
  | some entries =>
    have entry : (file.relPath, file.stat) ∈ entries := (mem_fingerprint same).mpr ⟨file, member, rfl, rfl⟩
    obtain ⟨u, v, _, _, _, _, holds⟩ := kept.vouched c entries seen _ entry
    exact holds t x late there stat.symm

/-- The note stays at "beta" and its stamp is old. -/
def betaTimeline : Timeline where
  file := fun _ c path => if c = notes ∧ path = "a.md" then some ⟨some (4, 8000000000), notesDoc "beta"⟩ else none
  clock := fun _ => 12000000000

/-- A tick over the note, which can be read or not. -/
def betaTick (readable : Bool) : Tick where
  began := 0
  passing := 0
  ended := 0
  look := fun c =>
    if c = notes then .found [⟨"a.md", some (4, 8000000000), 12000000000⟩] (List.nodup_singleton _) else .found [] List.nodup_nil
  lock := .ok true
  scan := fun c => if c = notes then (rewrittenFiles readable).scan else .walked none ⟨[], List.nodup_nil⟩
  fates := []

theorem beta_noReturn : betaTimeline.NoReturn := fun _ _ _ _ _ _ _ _ _ _ _ _ _ _ => rfl

theorem beta_takenFrom (readable : Bool) : (betaTick readable).TakenFrom betaTimeline where
  looks := le_refl _
  passes := le_refl _
  looked := by
    intro c file member
    refine ⟨0, 0, le_refl _, le_refl _, le_refl _, ?_⟩
    by_cases here : c = notes
    · subst here
      rw [List.mem_singleton.mp member]
      exact ⟨rfl, rfl⟩
    · dsimp only [betaTick] at member
      rw [if_neg here] at member
      cases member
  stats := by
    intro c file member
    refine ⟨0, 0, le_refl _, le_refl _, le_refl _, ?_⟩
    by_cases here : c = notes
    · subst here
      rw [List.mem_singleton.mp member]
      exact ⟨rfl, rfl⟩
    · dsimp only [betaTick] at member
      rw [if_neg here] at member
      cases member
  reads := by
    intro c file member doc prepared
    by_cases here : c = notes
    · subst here
      rw [List.mem_singleton.mp member] at prepared ⊢
      cases readable with
      | true => exact ⟨0, _, le_refl _, le_refl _, rfl, Except.ok.inj prepared⟩
      | false => cases prepared
    · dsimp only [betaTick] at member
      rw [if_neg here] at member
      cases member
  walks := by
    intro c path there
    have here := there 0 (le_refl _) (le_refl _)
    dsimp only [betaTimeline] at here
    by_cases note : c = notes ∧ path = "a.md"
    · obtain ⟨rfl, rfl⟩ := note
      exact List.mem_singleton.mpr rfl
    · rw [if_neg note] at here
      cases here
  noHook := by
    intro c
    dsimp only [betaTick]
    by_cases here : c = notes
    · rw [if_pos here]
      exact (rewrittenFiles readable).noHook
    · rw [if_neg here]
      intro impossible
      cases impossible

/-- The tick that finds the rewritten note records a fingerprint that vouches for it. -/
theorem watch_records_rewritten : ∃ m : Watching String, m.watcher.seen notes = some (some [("a.md", some (4, 8000000000))]) ∧
    m.Truthful sampleEnv betaTimeline := by
  have done : (tick sampleEnv (.start none) (betaTick true).look (.ok true) (betaTick true).scan []
      (alphaDisk.open true)).result.map (fun ended => ended.1.2.seen notes) =
        some (some (some [("a.md", some (4, 8000000000))])) := by
    decide +kernel
  obtain ⟨r, t, rest, ended, told⟩ := done_of_result done
  obtain ⟨flag, after⟩ := r
  have step : Ticks sampleEnv betaTimeline (betaTick true) ⟨.start none, alphaDisk, 0⟩ ⟨after, t.disk, 0⟩ :=
    .ticked _ _ flag after t rest (le_refl _) (beta_takenFrom true) ended
  refine ⟨⟨after, t.disk, 0⟩, told, ?_⟩
  apply watch_records_indexed sampleEnv betaTimeline beta_noReturn none alphaDisk alpha_indexed 0
  refine Transition.Reaches.next .refl ⟨fun _ none => absurd none List.not_mem_nil, ?_⟩ step
  intro c passes _ file member x there _
  have only : c = notes := by
    by_contra other
    dsimp only [betaTick] at member
    rw [if_neg other] at member
    cases member
  subst only
  rw [List.mem_singleton.mp member] at there ⊢
  cases there
  refine .inr ⟨by decide +kernel, ⟨_, rfl⟩, ?_⟩
  intro known
  obtain ⟨v, found, hash⟩ := known
  have row : (alphaDisk.slot notes "a.md").row = some v := found
  rw [alpha_row] at row
  cases row
  exact absurd hash (by decide)

/-- The tick that cannot read the rewritten note records its fingerprint all the same. -/
theorem watch_records_unread : ∃ m : Watching String, Transition.Reaches (Ticks sampleEnv betaTimeline) Transition.always
    ⟨.start none, alphaDisk, 0⟩ m ∧ ¬ m.Truthful sampleEnv betaTimeline := by
  have done : (tick sampleEnv (.start none) (betaTick false).look (.ok true) (betaTick false).scan []
      (alphaDisk.open true)).result.map (fun ended => (ended.1.2.seen notes, (ended.2.disk.slot notes "a.md").row)) =
        some (some (some [("a.md", some (4, 8000000000))]), some ⟨1, sampleHash "alpha", true⟩) := by
    decide +kernel
  obtain ⟨r, t, rest, ended, told⟩ := done_of_result done
  obtain ⟨flag, after⟩ := r
  simp only [Prod.mk.injEq] at told
  obtain ⟨seen, row⟩ := told
  refine ⟨⟨after, t.disk, 0⟩, Transition.Reaches.next .refl trivial (.ticked _ _ flag after t rest (le_refl _)
    (beta_takenFrom false) ended), fun truthful => ?_⟩
  have shows : ((betaTick false).look notes).Shows betaTimeline 0 notes := by
    constructor
    · intro file member
      rw [List.mem_singleton.mp member]
      exact ⟨_, rfl, rfl⟩
    · intro path x there
      dsimp only [betaTimeline] at there
      by_cases note : notes = notes ∧ path = "a.md"
      · exact ⟨_, List.mem_singleton_self _, note.2.symm⟩
      · rw [if_neg note] at there
        cases there
  have held := truthful notes _ seen 0 (le_refl _) _ shows (by decide) "a.md" _ rfl
  obtain ⟨v, found, _, hash, _⟩ := held
  have here : (t.disk.slot notes "a.md").row = some v := found
  rw [row] at here
  cases here
  exact absurd hash (by decide)

end Rqmd
