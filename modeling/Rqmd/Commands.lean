import Rqmd.EmbedRuns
import Rqmd.Statements
import Rqmd.UpdateSteps

/-! The commands of the program and the histories they make. Every run of every command, complete, failed or
cut, is a run of steps. -/

namespace Rqmd
open Interrupt Transition

variable {V α β : Type} {env : Env V} {start : Session V} {s : Store V}

/-- One command line. The walks of an update and the backend of an embed are the world's. -/
inductive Invocation where
  | update (collection : Option CollectionName) (full : Bool) (scan : CollectionName → Scan)
  | add (col : Collection) (walk : Walk)
  | remove (name : CollectionName)
  | rename (old : CollectionName) (new : String)
  | set (name : CollectionName) (ignore : Option (List String)) (maxBytes : Option (Option Nat))
  | embed (backend : Backend) (collection : Option CollectionName) (rebuild : Bool)
  | cleanup

def Invocation.command (env : Env V) : Invocation → Command V Unit
  | .update collection full scan => runUpdate env collection full scan
  | .add col walk => addCollection env col walk
  | .remove name => removeCollection env name
  | .rename old new => runRename env old new
  | .set name ignore maxBytes => setCollection name ignore maxBytes
  | .embed backend collection rebuild => runEmbed env backend collection rebuild
  | .cleanup => runCleanup env

abbrev History := List (Invocation × List (Fate FaultKind))

/-- The disk after the commands of a history, each under its own fates. -/
def Disk.after (env : Env V) (d : Disk V) (history : History) : Disk V :=
  history.foldl (fun d entry => d.run (entry.1.command env) entry.2) d

/-- Steps lead to the store, with nothing in hand. -/
def Idle (env : Env V) (start : Session V) (s : Store V) : Prop := Reaches (Step env) always start (.of s)

/-- Steps lead to a session over the store. -/
def Led (env : Env V) (start : Session V) (s : Store V) : Prop := ∃ m, Reaches (Step env) always start m ∧ m.store = s

theorem Idle.led (idle : Idle env start s) : Led env start s := ⟨_, idle, rfl⟩

theorem Idle.next {kind : StepKind} {t : Store V} (idle : Idle env start s) (step : Step env kind (.of s) (.of t)) :
    Idle env start t := Reaches.next idle trivial step

/-- Every effect of the command is a step, and none leaves anything in hand. -/
def Moves (env : Env V) (p : Command V α) : Prop := ∀ start, Preserves Faults.any (Idle env start) p

/-! ### Statements -/

/-- The statement leaves the vector rows and the floor alone. -/
def Db.Aside (db after : Db) : Prop := after.vectors = db.vectors ∧ after.nextVid = db.nextVid

/-- The statement deletes vector rows and changes no document. -/
def Db.Drops (db after : Db) : Prop :=
  (∃ gone, after.vectors = db.vectors.deleteWhere gone) ∧ after.documents = db.documents ∧ after.nextVid = db.nextVid

namespace Db

variable {db after : Db}

theorem aside_upsertContent (hash doc : String) : db.Aside (db.upsertContent hash doc) := by
  unfold upsertContent
  split <;> exact ⟨rfl, rfl⟩

theorem aside_upsertDocument {c : CollectionName} {path title hash : String} {id : Nat}
    (ok : db.upsertDocument c path title hash = .ok (id, after)) : db.Aside after := by
  unfold upsertDocument at ok
  split at ok
  · split at ok
    · simp only [Except.ok.injEq, Prod.mk.injEq] at ok
      rw [← ok.2]
      exact ⟨rfl, rfl⟩
    · simp only [Except.ok.injEq, Prod.mk.injEq] at ok
      rw [← ok.2]
      exact ⟨rfl, rfl⟩
  · cases ok

theorem aside_upsertCollection (c : Collection) : db.Aside (db.upsertCollection c) := by
  unfold upsertCollection
  split <;> exact ⟨rfl, rfl⟩

theorem aside_renameCollection {old new : CollectionName} (ok : db.renameCollection old new = .ok after) :
    db.Aside after := by
  unfold renameCollection at ok
  split at ok
  · split at ok
    · cases ok
    · simp only [Except.ok.injEq] at ok
      rw [← ok]
      exact ⟨rfl, rfl⟩
  · cases ok

theorem aside_deleteDocuments (name : CollectionName) : db.Aside (db.deleteDocuments name) := ⟨rfl, rfl⟩

theorem aside_deleteCollection (name : CollectionName) : db.Aside (db.deleteCollection name) := ⟨rfl, rfl⟩

theorem aside_deleteContexts (name : CollectionName) : db.Aside (db.deleteContexts name) := ⟨rfl, rfl⟩

theorem aside_deleteUnreferencedContent : db.Aside db.deleteUnreferencedContent := ⟨rfl, rfl⟩

theorem aside_setCollectionEmbedRules (name : CollectionName) (ignore : List String) (maxBytes : Option Nat) :
    db.Aside (db.setCollectionEmbedRules name ignore maxBytes) := ⟨rfl, rfl⟩

theorem drops_where (gone : VectorRow → Bool) : db.Drops { db with vectors := db.vectors.deleteWhere gone } :=
  ⟨⟨gone, rfl⟩, rfl, rfl⟩

theorem drops_all : db.Drops db.clearAllVectors := by
  refine ⟨⟨fun _ => true, ?_⟩, rfl, rfl⟩
  apply Table.ext
  change [] = db.vectors.rows.filter fun _ => !true
  simp

theorem drops_hashes (hashes : List String) : ∀ db : Db, db.Drops (hashes.foldl deleteVectorsForHash db) := by
  induction hashes with
  | nil =>
    refine fun db => ⟨⟨fun _ => false, ?_⟩, rfl, rfl⟩
    apply Table.ext
    change db.vectors.rows = db.vectors.rows.filter fun _ => !false
    simp
  | cons hash hashes ih =>
    intro db
    obtain ⟨⟨gone, rows⟩, documents, floor⟩ := ih (db.deleteVectorsForHash hash)
    refine ⟨⟨fun v => v.hash == hash || gone v, ?_⟩, documents, floor⟩
    rw [List.foldl_cons, rows]
    apply Table.ext
    change (db.vectors.rows.filter _).filter _ = db.vectors.rows.filter _
    rw [List.filter_filter]
    exact List.filter_congr fun v _ => by simp [Bool.and_comm]

end Db

section Statements

theorem idle_aside {db : Db} {fts : FtsIndex} {dirty : Bool} {log : List Event} (idle : Idle env start s)
    (aside : s.db.Aside db) (quiet : ∀ e ∈ log, e.quiet = true) :
    Idle env start { s with db := db, fts := fts, hnswDirty := dirty, log := s.log ++ log } :=
  idle.next (.aside (.of s) db fts dirty log aside.1 aside.2 quiet)

theorem moves_sqlExecute {context : Failure} {f : Db → Db} {events : List Event} (aside : ∀ db, Db.Aside db (f db))
    (quiet : ∀ e ∈ events, e.quiet = true) : Moves env (Store.sqlExecute context f events) :=
  fun _ s idle => Store.wp_sqlExecute (idle_aside idle (aside s.db) quiet) (fun _ _ => idle) fun _ => idle

theorem moves_silent {context : Failure} {f : Db → Db} (aside : ∀ db, Db.Aside db (f db)) :
    Moves env (Store.sqlExecute context f []) := moves_sqlExecute aside fun _ none => absurd none List.not_mem_nil

theorem moves_drop {context : Failure} {f : Db → Db} {events : List Event} (drops : ∀ db, Db.Drops db (f db))
    (quiet : ∀ e ∈ events, e.quiet = true) : Moves env (Store.sqlExecute context f events) :=
  fun _ s idle => by
    obtain ⟨⟨gone, rows⟩, documents, floor⟩ := drops s.db
    exact Store.wp_sqlExecute (idle.next (.dropped (.of s) (f s.db) gone events rows documents floor quiet))
      (fun _ _ => idle) fun _ => idle

end Statements

/-! ### Passes -/

theorem PassStatement.aside {c : CollectionName} {offered : String → String → Prop} {db after : Db}
    (statement : PassStatement c offered db after) : db.Aside after := by
  cases statement with
  | content hash doc => exact db.aside_upsertContent hash doc
  | document _ path title hash id offer changed written => exact Db.aside_upsertDocument written
  | raw id raw => exact ⟨rfl, rfl⟩
  | stat path stat => exact ⟨rfl, rfl⟩
  | deactivated paths => exact ⟨rfl, rfl⟩

theorem keptBySave_idle : KeptBySave (Idle env start) where
  aside s fts log quiet idle := @idle_aside V env start s s.db fts s.hnswDirty log idle ⟨rfl, rfl⟩ quiet
  saved s writable idle := idle.next (.saved (.of s) writable)
  clean s idle := by
    have step := @idle_aside V env start s s.db s.fts false [] idle ⟨rfl, rfl⟩ fun _ none => absurd none List.not_mem_nil
    simpa only [List.append_nil] using step

/-- The statements of a pass are steps. -/
theorem passKeeps_idle (c : CollectionName) : PassKeeps c (fun _ _ => True) (Idle env start) :=
  ⟨keptBySave_idle, fun s db log statement quiet idle =>
    @idle_aside V env start s db s.fts s.hnswDirty log idle statement.aside quiet⟩

theorem moves_flush : Moves env (Store.flush) := fun _ => keptBySave_idle.flush

/-! ### Reclaims -/

theorem idle_evicted {hashes : List String} {vids : List Nat} (idle : Idle env start s)
    (theirs : ∀ vid ∈ vids, ∃ row ∈ s.db.vectors, row.vid = vid ∧ row.hash ∈ hashes) :
    Idle env start { s with hnsw := Store.removeVids s.hnsw vids, hnswDirty := true } := by
  have gone := idle.next (.evicted (.of s) hashes vids theirs)
  have dirty := @idle_aside V env start _ s.db s.fts true [] gone ⟨rfl, rfl⟩ fun _ none => absurd none List.not_mem_nil
  simpa only [List.append_nil, Session.of] using dirty

theorem wp_evict {hashes : List String} {vids : List Nat} (idle : Idle env start s)
    (theirs : ∀ vid ∈ vids, ∃ row ∈ s.db.vectors, row.vid = vid ∧ row.hash ∈ hashes) :
    wp Faults.any (Store.evictHnswVectors vids) (Ends.all (Idle env start)) s := by
  unfold Store.evictHnswVectors
  by_cases none : vids.isEmpty = true
  · rw [if_pos none]
    exact wp_pure idle
  · rw [if_neg none]
    refine wp_bind (wp_query ?_)
    simp only [Ends.with]
    split
    · exact wp_throw idle
    · exact wp_modify (idle_evicted idle theirs)

theorem moves_evictHash (hash : String) : Moves env (Store.evictHash hash) := by
  intro start s idle
  unfold Store.evictHash
  refine wp_bind (wp_query (@wp_evict V env start s [hash] _ idle fun vid member => ?_))
  obtain ⟨row, stored, same, theirs⟩ := Db.mem_vidsForHash.mp member
  exact ⟨row, stored, same, List.mem_singleton.mpr theirs⟩

theorem moves_reclaim (hashes : List String) : Moves env (Store.reclaimVectorsOf hashes) := by
  intro start
  unfold Store.reclaimVectorsOf
  refine .ite (.pure ()) (.bind (.forEach (fun hash => moves_evictHash hash start) hashes) fun _ => ?_)
  exact .bind (moves_flush start) fun _ => moves_drop (Db.drops_hashes hashes) (by decide) start

theorem moves_reclaimOrphaned : Moves env (Store.reclaimOrphanedVectors) := fun start =>
  .bind (.query _) fun hashes => moves_reclaim hashes start

/-! ### Whole commands -/

theorem moves_reopen (readOnly : Bool) : Moves env (Store.reopen readOnly) := fun _ =>
  .modify fun s idle => idle.next (.opened (.of s) readOnly)

theorem moves_setConfig (key value : String) :
    Moves env (Store.sqlExecute "set config" (fun db => db.setConfig key value) []) :=
  moves_silent fun _ => ⟨rfl, rfl⟩

theorem moves_rebuildFtsIfNeeded : Moves env (Store.rebuildFtsIfNeeded env) := fun start =>
  keptBySave_idle.rebuildFtsIfNeeded (moves_setConfig _ _ start)

theorem moves_updateEach (full : Bool) (scan : CollectionName → Scan) (cols : List Collection) :
    ∀ clean, Moves env (updateEach env full scan cols clean) := by
  induction cols with
  | nil => exact fun clean start => .pure _
  | cons col cols ih =>
    intro clean start
    unfold updateEach
    refine .bind (.poll _) fun raised => .ite (.throw _) ?_
    refine .bind ((passKeeps_idle col.name).update full (scan col.name)) fun outcome => .ite (.throw _) ?_
    exact ih _ start

theorem moves_runUpdate (collection : Option CollectionName) (full : Bool) (scan : CollectionName → Scan) :
    Moves env (runUpdate env collection full scan) := by
  intro start
  unfold runUpdate
  refine .bind (moves_reopen true start) fun _ => .bind (.query _) fun selected => .bind (.ofExcept _) fun cols => ?_
  refine .ite (.pure ()) (.bind (moves_reopen false start) fun _ => ?_)
  refine .bind (moves_updateEach full scan cols true start) fun clean => ?_
  refine .bind (moves_reclaimOrphaned start) fun _ => .onlyIf () (moves_setConfig _ _ start) fun _ => ?_
  exact .bind (.query _) fun known => .ite (moves_rebuildFtsIfNeeded start) (.pure ())

theorem moves_addCollection (col : Collection) (walk : Walk) : Moves env (addCollection env col walk) := by
  intro start
  unfold addCollection
  refine .bind (moves_reopen false start) fun _ => .bind (.query _) fun existing => ?_
  refine .bind (moves_silent (fun db => db.aside_upsertCollection _) start) fun _ => ?_
  refine .bind (.forEach (fun file => ?_) walk.files) fun _ => moves_flush start
  exact (passKeeps_idle col.name).addFile fun _ _ _ => trivial

theorem moves_purgeCollection (name : CollectionName) : Moves env (purgeCollection name) := by
  intro start
  unfold purgeCollection
  refine .bind (.query _) fun filepaths => ?_
  have purged : ∀ e ∈ [Event.collectionPurged], e.quiet = true := by decide
  refine .bind (moves_sqlExecute (fun db => db.aside_deleteDocuments name) purged start) fun _ => ?_
  refine .bind (moves_drop (fun _ => Db.drops_where _) (fun _ none => absurd none List.not_mem_nil) start) fun _ => ?_
  refine .bind (moves_silent (fun _ => Db.aside_deleteUnreferencedContent) start) fun _ => ?_
  refine .bind (moves_silent (fun db => db.aside_deleteCollection name) start) fun _ => ?_
  exact .bind (moves_silent (fun db => db.aside_deleteContexts name) start) fun _ => .pure _

theorem moves_removeCollection (name : CollectionName) : Moves env (removeCollection env name) := by
  intro start
  unfold removeCollection
  refine .bind (moves_reopen false start) fun _ => .bind (.query _) fun known => .ite (.throw _) ?_
  refine .bind (moves_purgeCollection name start) fun filepaths => ?_
  refine .bind (.forEach (fun path => keptBySave_idle.removeStaleEntry path) filepaths) fun _ => ?_
  exact .bind (moves_reclaimOrphaned start) fun _ => moves_flush start

theorem moves_renameCollection (old new : CollectionName) : Moves env (Store.renameCollection env old new) := fun _ =>
  keptBySave_idle.renameCollection fun _ _ renamed idle =>
    idle_aside idle (Db.aside_renameCollection renamed) (by decide)

theorem moves_runRename (old : CollectionName) (new : String) : Moves env (runRename env old new) := by
  intro start
  unfold runRename
  refine .bind (.ofExcept _) fun name => .bind (moves_reopen false start) fun _ => ?_
  refine .bind (.query _) fun known => .ite (.throw _) (.bind (.query _) fun taken => .ite (.throw _) ?_)
  exact moves_renameCollection old name start

theorem moves_setCollection (name : CollectionName) (ignore : Option (List String)) (maxBytes : Option (Option Nat)) :
    Moves env (setCollection name ignore maxBytes) := by
  intro start
  unfold setCollection
  refine .ite (.throw _) (.bind (moves_reopen true start) fun _ => .bind (.query _) fun found => ?_)
  cases found with
  | none => exact .throw _
  | some col => exact moves_silent (fun db => db.aside_setCollectionEmbedRules _ _ _) start

theorem moves_runCleanup : Moves env (runCleanup env) := by
  intro start
  unfold runCleanup
  refine .bind (moves_reopen false start) fun _ => .bind (moves_reclaimOrphaned start) fun _ => ?_
  refine .bind (.query _) fun excluded => .bind (.bind (.query _) fun hashes => moves_reclaim hashes start) fun _ => ?_
  exact moves_silent (fun _ => Db.aside_deleteUnreferencedContent) start

/-! ### `embed` -/

theorem reaches_of_passes {backend : Backend} {excluded : List Nat} {m n : Session V}
    (passes : Passes env backend excluded m n) (here : Reaches (Step env) always start m) :
    Reaches (Step env) always start n := by
  induction passes with
  | refl => exact here
  | tail _ step ih => exact ih.next trivial (.embed backend excluded _ _ step)

theorem idle_opened (idle : Idle env start s) (readOnly : Bool) : Idle env start (s.disk.open readOnly) :=
  idle.next (.opened (.of s) readOnly)

theorem wp_embedCollections {backend : Backend} {cols : List Collection} {rebuild : Bool} (idle : Idle env start s)
    (writable : s.hnsw.readOnly = false) :
    wp Faults.any (embedCollections env backend cols rebuild) (Ends.all (Led env start)) s := by
  have pass : ∀ (t : Store V) (next : EmbedRun × EmbedFlow → Command V Unit), Idle env start t → t.hnsw.readOnly = false →
      (∀ result, Moves env (next result)) →
      wp Faults.any (embedPass env backend cols >>= next) (Ends.all (Led env start)) t := by
    intro t next here open' rest
    have left : ∀ u, Left env backend (t.db.excludedDocs env.globs) (.of t) u → Led env start u := by
      intro u reached
      obtain ⟨m, passes, same⟩ := reached
      exact ⟨m, reaches_of_passes passes here, same⟩
    refine wp_bind (wp_mono (wp_embedPass open') ?_ (fun _ u => left u) left)
    intro result u ended
    have after : Idle env start u := reaches_of_passes ended.1 here
    exact wp_mono (rest result start u after) (fun _ _ => Idle.led) (fun _ _ => Idle.led) fun _ => Idle.led
  have rest : ∀ result : EmbedRun × EmbedFlow, Moves env (do
      Store.reclaimOrphanedVectors
      Prog.ofExcept (finishEmbed result.1 result.2) : Command V Unit) :=
    fun result start => .bind (moves_reclaimOrphaned start) fun _ => .ofExcept _
  unfold embedCollections
  cases rebuild with
  | true => exact pass s _ idle writable rest
  | false =>
    refine wp_bind (Store.wp_sqlExecute ?_ (fun _ _ => idle.led) fun _ => idle.led)
    simp only [List.append_nil]
    exact pass _ _ (idle.next (.keyed (.of s) _ _ _)) writable rest

theorem moves_clearScoped (name : CollectionName) : Moves env (clearScoped name) := by
  intro start
  unfold clearScoped
  refine .bind (moves_reopen false start) fun _ => fun s idle => wp_bind (wp_query ?_)
  have theirs : ∀ vid ∈ s.db.rebuildableVidsForCollection name, ∃ row ∈ s.db.vectors, row.vid = vid ∧
      row.hash ∈ s.db.vectors.rows.map VectorRow.hash := by
    intro vid member
    obtain ⟨row, inside, same⟩ := List.mem_map.mp member
    have stored := (Table.mem_select.mp inside).1
    exact ⟨row, stored, same, List.mem_map_of_mem stored⟩
  refine wp_bind (wp_mono (wp_evict idle theirs) (fun _ t here => ?_) (fun _ _ => id) fun _ => id)
  refine Preserves.bind (moves_drop (fun _ => Db.drops_where _) ?_ start) (fun _ => moves_flush start) t here
  exact fun _ none => absurd none List.not_mem_nil

theorem moves_clearUnscoped : Moves env clearUnscoped := by
  intro start
  unfold clearUnscoped
  refine .bind (.effect fun s idle => idle.next (.fileRemoved (.of s) ⟨rfl, rfl⟩)) fun _ => ?_
  have quiet : ∀ e ∈ [Event.vectorsCleared], e.quiet = true := by decide
  exact .bind (moves_reopen true start) fun _ => moves_drop (fun _ => Db.drops_all) quiet start

theorem wp_runEmbed {backend : Backend} {collection : Option CollectionName} {rebuild : Bool} (idle : Idle env start s) :
    wp Faults.any (runEmbed env backend collection rebuild) (Ends.all (Led env start)) s := by
  have led : ∀ {p : Command V Unit} {t : Store V}, Moves env p → Idle env start t →
      wp Faults.any p (Ends.all (Led env start)) t := fun moves here =>
    wp_mono (moves start _ here) (fun _ _ => Idle.led) (fun _ _ => Idle.led) fun _ => Idle.led
  have through : ∀ {p : Command V Unit} {k : Unit → Command V Unit} {t : Store V}, Moves env p → Idle env start t →
      (∀ u, Idle env start u → wp Faults.any (k ()) (Ends.all (Led env start)) u) →
      wp Faults.any (p >>= k) (Ends.all (Led env start)) t := fun moves here rest =>
    wp_bind (wp_mono (moves start _ here) (fun _ u => rest u) (fun _ _ => Idle.led) fun _ => Idle.led)
  have embed : ∀ (t : Store V) (cols : List Collection) (rebuild : Bool), Idle env start t → wp Faults.any (do
      Store.reopen false
      embedCollections env backend cols rebuild : Command V Unit) (Ends.all (Led env start)) t :=
    fun t cols rebuild here => wp_bind (wp_modify (wp_embedCollections (idle_opened here false) openHnsw_writable))
  unfold runEmbed
  refine wp_bind (wp_modify (wp_bind (wp_query (wp_bind (wp_ofExcept ?_ fun _ _ => (idle_opened idle true).led)))))
  intro cols _
  have here := idle_opened idle true
  simp only [Ends.with]
  split
  · exact wp_pure here.led
  · split
    · cases collection with
      | some name => exact through (moves_clearScoped name) here fun u after => embed u cols true after
      | none => exact through moves_clearUnscoped here fun u after => embed u cols true after
    · refine wp_bind (wp_modify (wp_bind (wp_query ?_)))
      have again := idle_opened here true
      simp only [Ends.with]
      split
      · exact wp_pure again.led
      · exact embed _ cols false again

/-! ### Histories -/

/-- Steps lead to the store an invocation ends in, wherever it is cut. -/
theorem invocation_led (d : Disk V) (invocation : Invocation) (fates : List (Fate FaultKind)) :
    Led env (.of (d.open false)) (invocation.command env fates (d.open false)).final := by
  have idle : Idle env (.of (d.open false)) (d.open false) := .refl
  have moved : ∀ p : Command V Unit, Moves env p → wp Faults.any p (Ends.all (Led env (.of (d.open false)))) (d.open false) :=
    fun p moves => wp_mono (moves _ _ idle) (fun _ _ => Idle.led) (fun _ _ => Idle.led) fun _ => Idle.led
  have ends : wp Faults.any (invocation.command env) (Ends.all (Led env (.of (d.open false)))) (d.open false) := by
    cases invocation with
    | update collection full scan => exact moved _ (moves_runUpdate collection full scan)
    | add col walk => exact moved _ (moves_addCollection col walk)
    | remove name => exact moved _ (moves_removeCollection name)
    | rename old new => exact moved _ (moves_runRename old new)
    | set name ignore maxBytes => exact moved _ (moves_setCollection name ignore maxBytes)
    | embed backend collection rebuild => exact wp_runEmbed idle
    | cleanup => exact moved _ moves_runCleanup
  exact @wp_final _ _ _ _ _ _ _ _ ends fates fun fate _ => any_allows fate

/-- The steps an invocation takes, however it ends. -/
theorem invocation_steps (d : Disk V) (invocation : Invocation) (fates : List (Fate FaultKind)) :
    ∃ m, Reaches (Step env) always (.of (d.open false)) m ∧ m.store.disk = d.run (invocation.command env) fates := by
  obtain ⟨m, run, same⟩ := @invocation_led V env d invocation fates
  exact ⟨m, run, by rw [same]; rfl⟩

/-- A history of commands, each complete, failed or cut, is a run of steps. -/
theorem history_steps (history : History) : ∀ d : Disk V,
    ∃ m, Reaches (Step env) always (.of (d.open false)) m ∧ m.store.disk = d.after env history := by
  induction history with
  | nil => exact fun d => ⟨_, .refl, rfl⟩
  | cons entry history ih =>
    intro d
    obtain ⟨m, run, same⟩ := @invocation_steps V env d entry.1 entry.2
    obtain ⟨n, rest, last⟩ := ih (d.run (entry.1.command env) entry.2)
    have opened : Reaches (Step env) always (.of (d.open false)) (.of ((d.run (entry.1.command env) entry.2).open false)) :=
      same ▸ run.next trivial (.opened m false)
    exact ⟨n, opened.trans rest, last⟩

end Rqmd
