import Rqmd.Donors

/-! The commands that keep an index up, run to their end one after another: every document that waits to be embedded
keeps its donor. -/

namespace Rqmd
open Interrupt Transition

variable {V : Type} {env : Env V} {backend : Backend} {c : CollectionName} {p : String} {d : Disk V} {s t u : Store V}
  {donor : Option String}

/-- Where a command that started on `d` may end. -/
structure Store.Rests (env : Env V) (c : CollectionName) (p : String) (d : Disk V) (donor : Option String) (t : Store V) :
    Prop where
  kept : t.db.Kept env c p (d.db.donorAfter t.db c p donor)
  backed : t.disk.Backed

/-- What a command starts on. -/
structure Disk.Sound (env : Env V) (c : CollectionName) (p : String) (d : Disk V) (donor : Option String) : Prop where
  kept : d.db.Kept env c p donor
  backed : d.Backed

namespace Store.Rests

theorem idle (sound : d.Sound env c p donor) (db : t.db = d.db) (file : t.hnswFile = d.hnswFile) :
    t.Rests env c p d donor := by
  refine ⟨?_, ?_⟩
  · rw [db, Db.donorAfter_same rfl]
    exact sound.kept
  · intro row member
    change row ∈ t.db.vectors at member
    change row.vid ∈ (t.hnswFile.getD .empty).keys
    rw [db] at member
    rw [file]
    exact sound.backed row member

/-- Steps that write none of what matters here. -/
theorem aside (here : s.Rests env c p d donor) (documents : t.db.documents = s.db.documents)
    (vectors : t.db.vectors = s.db.vectors) (hashed : t.db.Hashed env) (collections : t.db.collections = s.db.collections)
    (file : t.hnswFile = s.hnswFile) : t.Rests env c p d donor := by
  have trail : t.db.trailAt c p = s.db.trailAt c p := Db.trailAt_congr documents
  have same : d.db.donorAfter t.db c p donor = d.db.donorAfter s.db c p donor := by
    unfold Db.donorAfter
    rw [trail]
  have present : ∀ hash, t.db.hashHasAnyVector hash = s.db.hashHasAnyVector hash := by
    intro hash
    simp only [Db.hashHasAnyVector, vectors]
  refine ⟨?_, ?_⟩
  · rw [same]
    refine here.kept.withVectors trail hashed ?_ fun row found bare => ?_
    · unfold Db.Ruleless
      rw [collections]
      exact here.kept.ruleless
    · rw [present] at bare
      exact ⟨bare, fun v _ known => (present v).trans known⟩
  · intro row member
    change row ∈ t.db.vectors at member
    change row.vid ∈ (t.hnswFile.getD .empty).keys
    rw [vectors] at member
    rw [file]
    exact here.backed row member

theorem rowsAndVectors : RowsAndVectors (Store.Rests env c p d donor) := ⟨fun _ _ _ _ here => ⟨here.kept, here.backed⟩⟩

theorem reclaimed (kept : s.db.Kept env c p (d.db.donorAfter s.db c p donor)) (backed : s.disk.Backed)
    (held : ∀ row ∈ s.db.vectors, row.vid ∈ s.hnsw.inner.keys) (gone : Reclaimed s.db.orphanedVectorHashes s t) :
    t.Rests env c p d donor := by
  have trail : t.db.trailAt c p = s.db.trailAt c p := Db.trailAt_congr gone.documents
  have same : d.db.donorAfter t.db c p donor = d.db.donorAfter s.db c p donor := by
    unfold Db.donorAfter
    rw [trail]
  exact ⟨same ▸ gone.kept kept, gone.backed backed held⟩

end Store.Rests

/-! ### After the last reclaim -/

theorem preserves_setConfig_rests (key value : String) : Preserves Faults.any (Store.Rests env c p d donor)
    (Store.sqlExecute "set config" (fun db => db.setConfig key value) []) := fun _ here =>
  Store.wp_sqlExecute (here.aside rfl rfl here.kept.hashed rfl rfl) (fun _ _ => here) fun _ => here

/-! ### `update` -/

theorem selectCollections_distinct {db : Db} {name : Option CollectionName} {cols : List Collection}
    (selected : selectCollections db name = .ok cols) : (cols.map Collection.name).Nodup := by
  cases name with
  | none =>
    obtain rfl := Except.ok.inj selected
    have apart := db.collections.apart
    rw [List.Nodup, List.pairwise_map]
    exact apart.imp fun different same => different same
  | some name =>
    simp only [selectCollections] at selected
    split at selected
    · obtain rfl := Except.ok.inj selected
      exact List.nodup_singleton _
    · cases selected

theorem Disk.Sound.aged {offered : String → Prop} {fresh : Prop} {readOnly : Bool} (sound : d.Sound env c p donor) :
    Store.Aged env c p offered (d.open readOnly) fresh (d.open readOnly) :=
  ⟨rfl, rfl, openHnsw_inner.symm, sound.kept.hashed, sound.kept.ruleless, .inl rfl⟩

/-- The files a pass went over, before the reclaim. -/
theorem Disk.Sound.after {offered : String → Prop} {fresh : Prop} (sound : d.Sound env c p donor)
    (start : u.db = d.db ∧ u.hnsw.inner = d.hnswFile.getD .empty) (here : Store.Aged env c p offered u fresh t)
    (texts : ∀ text, offered text → text ≠ "") :
    t.Rests env c p d donor ∧ ∀ row ∈ t.db.vectors, row.vid ∈ t.hnsw.inner.keys := by
  have kept : t.db.Kept env c p (u.db.donorAfter t.db c p donor) := here.kept (start.1 ▸ sound.kept) texts
  have held : ∀ row ∈ t.db.vectors, row.vid ∈ (d.hnswFile.getD .empty).keys := by
    intro row member
    rw [here.vectors, start.1] at member
    exact sound.backed row member
  refine ⟨⟨start.1 ▸ kept, fun row member => ?_⟩, fun row member => ?_⟩
  · change row.vid ∈ (t.hnswFile.getD .empty).keys
    rw [here.file, start.2]
    exact held row member
  · rw [here.index, start.2]
    exact held row member

theorem wp_runUpdate_rests {collection : Option CollectionName} {full : Bool} {scan : CollectionName → Scan}
    {offered : String → Prop} (sound : d.Sound env c p donor) (texts : ∀ text, offered text → text ≠ "")
    (offers : ∀ hookFailure walk, scan c = .walked hookFailure walk → walk.Offers env c p offered d.db) :
    wp Faults.any (runUpdate env collection full scan) (Ends.ifDone fun _ => Store.Rests env c p d donor) (d.open false) := by
  unfold runUpdate
  refine wp_bind (wp_modify (wp_bind (wp_query (wp_bind (wp_ofExcept (fun cols selected => ?_) fun _ _ => trivial)))))
  refine wp_ite (wp_pure (.idle sound rfl rfl)) (wp_bind (wp_modify ?_))
  have distinct := selectCollections_distinct selected
  have aged : Store.Aged env c p offered (d.open false) (c ∈ cols.map Collection.name) (d.open false) :=
    sound.aged
  refine wp_bind (wp_mono (wp_updateEach_aged cols true _ distinct aged offers) (fun clean t here => ?_) (fun _ _ _ => trivial)
    fun _ _ => trivial)
  obtain ⟨rests, held⟩ := sound.after ⟨rfl, openHnsw_inner⟩ here texts
  have writable : t.hnsw.readOnly = false := by
    rw [here.index]
    exact openHnsw_writable
  refine wp_bind (Store.wp_reclaimOrphanedVectors writable fun v gone _ _ => ?_)
  have after : v.Rests env c p d donor := .reclaimed rests.kept rests.backed held gone
  have rest : Preserves Faults.any (Store.Rests env c p d donor) (do
      if collection.isNone && clean then
        Store.sqlExecute "set config" (fun db => db.setConfig rawSplitSchemaKey "1") []
      else
        pure ()
      if collection.isNone && (← Prog.query fun s => (s.db.getConfig rawSplitSchemaKey).isSome) then
        Store.rebuildFtsIfNeeded env
      else
        pure () : Command V Unit) := by
    refine .onlyIf () (preserves_setConfig_rests _ _) fun _ => ?_
    exact .bind (.query _) fun known => .ite
      (Store.Rests.rowsAndVectors.rebuildFtsIfNeeded (preserves_setConfig_rests _ _)) (.pure ())
  exact wp_ifDone (rest v after) fun _ _ => id

/-! ### `collection add` -/

theorem wp_addFile_aged {offered : String → Prop} {fresh : Prop} {name : CollectionName} {file : WalkedFile}
    (here : Store.Aged env c p offered u fresh s)
    (mine : name = c ∧ file.relPath = p → fresh ∧ ∀ doc, file.prepared = .ok doc →
      offered doc.indexedText ∧ ¬ u.db.DropsDonor env c p doc.indexedText) :
    wp Faults.any (addFile env name file)
      (Ends.ifDone fun _ => Store.Aged env c p offered u (fresh ∧ ¬ (name = c ∧ file.relPath = p))) s := by
  unfold addFile
  cases prepared : file.prepared with
  | error reason => exact wp_pure (here.mono And.left)
  | ok doc =>
    have indexed := @Store.wp_indexDocument_aged V env c name p file.relPath u s offered fresh doc here fun own =>
      ⟨(mine own).1, (mine own).2 doc prepared⟩
    refine wp_bind (wp_attempt (wp_mono indexed (fun outcome t aged => ?_) (fun e t aged => ?_) fun _ _ => trivial))
    · exact Store.wp_sqlExecute (aged.setStat name file.relPath _ _) (fun _ _ => trivial) fun _ => trivial
    · exact wp_modify (aged.logged _)

theorem ruleless_upsertCollection {db : Db} {col : Collection} (ruleless : db.Ruleless) :
    (db.upsertCollection (readded (db.findCollection col.name) col)).Ruleless := by
  have own : (readded (db.findCollection col.name) col).embedIgnore = [] ∧
      (readded (db.findCollection col.name) col).embedMaxBytes = none := by
    cases found : db.findCollection col.name with
    | none => exact ⟨rfl, rfl⟩
    | some old => exact ruleless old (Table.find?_some found).1
  intro other member
  unfold Db.upsertCollection at member
  split at member
  · next fresh =>
    rcases (Table.mem_append fresh).mp member with before | rfl
    · exact ruleless other before
    · exact own
  · obtain ⟨old, inside, rfl⟩ : ∃ old ∈ db.collections.rows,
        (if old.name = (readded (db.findCollection col.name) col).name then readded (db.findCollection col.name) col else old) =
          other := List.mem_map.mp member
    by_cases same : old.name = (readded (db.findCollection col.name) col).name
    · rw [if_pos same]
      exact own
    · rw [if_neg same]
      exact ruleless old inside

theorem wp_addCollection_rests {col : Collection} {walk : Walk} {offered : String → Prop} (sound : d.Sound env c p donor)
    (texts : ∀ text, offered text → text ≠ "") (offers : col.name = c → walk.Offers env c p offered d.db) :
    wp Faults.any (addCollection env col walk) (Ends.ifDone fun _ => Store.Rests env c p d donor) (d.open false) := by
  unfold addCollection
  refine wp_bind (wp_modify (wp_bind (wp_query ?_)))
  have start : Store.Aged env c p offered (d.open false) True (d.open false) := sound.aged
  have listed : Store.Aged env c p offered (d.open false) True { d.open false with
      db := d.db.upsertCollection (readded (d.db.findCollection col.name) col) } := by
    refine start.withDb (d.db.aside_upsertCollection _).1 ?_ (ruleless_upsertCollection sound.kept.ruleless) ?_
    · have same : (d.db.upsertCollection (readded (d.db.findCollection col.name) col)).content = d.db.content := by
        unfold Db.upsertCollection
        split <;> rfl
      unfold Db.Hashed
      rw [same]
      exact sound.kept.hashed
    · have same : (d.db.upsertCollection (readded (d.db.findCollection col.name) col)).documents = d.db.documents := by
        unfold Db.upsertCollection
        split <;> rfl
      exact Db.trailAt_congr same
  refine wp_bind (Store.wp_sqlExecute ?_ (fun _ _ => trivial) fun _ => trivial)
  refine wp_bind (wp_forEach (fun files t => (files.map WalkedFile.relPath).Nodup ∧ (∀ file ∈ files, file ∈ walk.files) ∧
    Store.Aged env c p offered (d.open false) (col.name = c → p ∈ files.map WalkedFile.relPath) t) ?_ ?_ walk.files _
    ⟨walk.distinct, fun _ => id, (listed.logged _).mono fun _ => trivial⟩)
  · intro file files t step
    obtain ⟨distinct, inside, here⟩ := step
    rw [List.map_cons, List.nodup_cons] at distinct
    have own : col.name = c ∧ file.relPath = p → (col.name = c → p ∈ (file :: files).map WalkedFile.relPath) ∧
        ∀ doc, file.prepared = .ok doc → offered doc.indexedText ∧ ¬ d.db.DropsDonor env c p doc.indexedText := by
      intro own
      refine ⟨fun _ => ?_, (offers own.1).texts file (inside file List.mem_cons_self) own.2⟩
      rw [List.map_cons, own.2]
      exact List.mem_cons_self
    refine wp_mono (wp_addFile_aged here own) (fun _ v aged => ?_) (fun _ _ _ => trivial) fun _ _ => trivial
    refine ⟨distinct.2, fun other later => inside other (List.mem_cons_of_mem _ later), aged.mono fun mine => ⟨fun same => ?_, ?_⟩⟩
    · rw [List.map_cons]
      exact List.mem_cons_of_mem _ (mine same)
    · exact fun both => distinct.1 (both.2 ▸ mine both.1)
  · intro t rested
    have here := rested.2.2
    exact Store.wp_flush_done (sound.after ⟨rfl, openHnsw_inner⟩ here.flushed texts).1

/-! ### `cleanup` -/

theorem excludedDocs_ruleless {db : Db} (ruleless : db.Ruleless) (globs : List String → String → Bool) :
    db.excludedDocs globs = [] := by
  unfold Db.excludedDocs
  rw [List.map_eq_nil_iff, List.filter_eq_nil_iff]
  intro doc _
  cases found : db.findCollection doc.collection with
  | none => simp
  | some col =>
    obtain ⟨noGlobs, noCap⟩ := ruleless col (Table.find?_some found).1
    cases db.getContent doc.hash with
    | none => simp
    | some text => simp [Db.Collection.excludes, noGlobs, noCap]

theorem wp_runCleanup_rests (sound : d.Sound env c p donor) :
    wp Faults.any (runCleanup env) (Ends.ifDone fun _ => Store.Rests env c p d donor) (d.open false) := by
  unfold runCleanup
  have start : (d.open false).Rests env c p d donor := .idle sound rfl rfl
  have held : ∀ row ∈ d.db.vectors, row.vid ∈ (openHnsw d.hnswFile d.db false).inner.keys := by
    intro row member
    rw [openHnsw_inner]
    exact sound.backed row member
  refine wp_bind (wp_modify (wp_bind (Store.wp_reclaimOrphanedVectors openHnsw_writable fun t gone _ _ => ?_)))
  have rests : t.Rests env c p d donor := .reclaimed start.kept start.backed held gone
  refine wp_bind (wp_query ?_)
  have none : t.db.excludedOnlyVectorHashes (t.db.excludedDocs env.globs) = [] := by
    rw [excludedDocs_ruleless rests.kept.ruleless]
    rfl
  have sweep : wp Faults.any (Store.sqlExecute "sweep content" Db.deleteUnreferencedContent [])
      (Ends.ifDone fun _ => Store.Rests env c p d donor) t := by
    refine Store.wp_sqlExecute (rests.aside rfl rfl ?_ rfl rfl) (fun _ _ => trivial) fun _ => trivial
    exact fun row member => rests.kept.hashed row (Table.mem_deleteWhere.mp member).1
  unfold Store.reclaimExcludedVectors
  refine wp_bind (wp_bind (wp_query ?_))
  rw [none]
  exact wp_pure sweep

/-! ### `embed` -/

/-- `embed` without `--rebuild`, up to its report. -/
def runEmbedWork (env : Env V) (backend : Backend) (collection : Option CollectionName) :
    Command V (Option (EmbedRun × EmbedFlow)) := do
  Store.reopen true
  let selected ← Prog.query fun s => selectCollections s.db collection
  let cols ← Prog.ofExcept selected
  if cols.isEmpty then
    pure none
  else
    Store.reopen true
    if (← Prog.query fun s => pendingEmbedCount env backend s.db) = 0 then
      pure none
    else
      Store.reopen false
      some <$> embedWork env backend cols false

/-- The report of a run: what failed, or why it stopped early. -/
def embedReport : Option (EmbedRun × EmbedFlow) → Except Failure Unit
  | none => .ok ()
  | some result => finishEmbed result.1 result.2

theorem runEmbed_eq (collection : Option CollectionName) : runEmbed env backend collection false =
    runEmbedWork env backend collection >>= fun work => Prog.ofExcept (embedReport work) := by
  unfold runEmbed runEmbedWork
  simp only [bind_assoc, Bool.false_eq_true, if_false]
  congr 1
  funext _
  congr 1
  funext selected
  congr 1
  funext cols
  split
  · rfl
  · simp only [bind_assoc]
    congr 1
    funext _
    congr 1
    funext count
    split
    · rfl
    · simp only [bind_assoc, embedCollections_eq, map_eq_pure_bind, pure_bind]
      rfl

/-- The report changes nothing. -/
theorem final_report {work : Command V (Option (EmbedRun × EmbedFlow))} {fates : List (Fate FaultKind)}
    (ended : (work fates s).completed = true) :
    ((work >>= fun result => Prog.ofExcept (embedReport result)) fates s).final = (work fates s).final := by
  change (Prog.bind work (fun result => Prog.ofExcept (embedReport result)) fates s).final = _
  unfold Prog.bind
  cases run : work fates s with
  | done result t rest =>
    change ((Prog.ofExcept (embedReport result) : Command V Unit) rest t).final = t
    cases embedReport result <;> rfl
  | error e t rest =>
    rw [run] at ended
    cases ended
  | died t =>
    rw [run] at ended
    cases ended

theorem Db.Kept.keyed {db : Db} (kept : db.Kept env c p donor) : (db.keyed env backend).Kept env c p donor := by
  have present : ∀ hash, (db.keyed env backend).hashHasAnyVector hash = db.hashHasAnyVector hash := by
    intro hash
    rw [Bool.eq_iff_iff, Db.hashHasAnyVector_iff, Db.hashHasAnyVector_iff]
    constructor
    · intro ⟨row, member, same⟩
      obtain ⟨old, inside, rfl⟩ := Db.mem_backfillVectorKeys.mp member
      exact ⟨old, inside, (Db.backfill_keys _ _ _ old).1.symm.trans same⟩
    · intro ⟨row, member, same⟩
      exact ⟨_, Db.mem_backfillVectorKeys.mpr ⟨row, member, rfl⟩, (Db.backfill_keys _ _ _ row).1.trans same⟩
  refine kept.withVectors rfl kept.hashed kept.ruleless fun row found bare => ?_
  rw [present] at bare
  exact ⟨bare, fun v _ known => (present v).trans known⟩

theorem donorAfter_hash {db after : Db} (same : (after.trailAt c p).map Db.Trail.hash = (db.trailAt c p).map Db.Trail.hash) :
    db.donorAfter after c p donor = donor := by
  unfold Db.donorAfter
  cases before : db.trailAt c p with
  | none => rfl
  | some old =>
    cases later : after.trailAt c p with
    | none => rfl
    | some new =>
      rw [before, later] at same
      have equal : new.hash = old.hash := Option.some.inj same
      simp [equal]

theorem wp_runEmbedWork_rests {collection : Option CollectionName} (sound : d.Sound env c p donor) (chunked : env.Chunked)
    (apart : env.ApartFromEmpty) : wp Faults.any (runEmbedWork env backend collection)
      (Ends.ifDone fun _ => Store.Rests env c p d donor) (d.open false) := by
  unfold runEmbedWork
  refine wp_bind (wp_modify (wp_bind (wp_query (wp_bind (wp_ofExcept (fun cols selected => ?_) fun _ _ => trivial)))))
  refine wp_ite (wp_pure (.idle sound rfl rfl)) (wp_bind (wp_modify (wp_bind (wp_query ?_))))
  refine wp_ite (wp_pure (.idle sound rfl rfl)) (wp_bind (wp_modify ?_))
  change wp Faults.any (some <$> embedWork env backend cols false) _ (d.open false)
  rw [map_eq_pure_bind]
  refine wp_bind (wp_mono (wp_embedWork chunked openHnsw_writable) ?_ (fun _ _ _ => trivial) fun _ _ => trivial)
  intro result t ⟨taken, mid, work⟩
  have keyed : (d.db.keyed env backend).Kept env c p donor := sound.kept.keyed
  obtain ⟨passed, hash⟩ := work.pass.kept keyed apart
  have kept : t.db.Kept env c p donor := work.reclaimed.kept passed
  have same : (t.db.trailAt c p).map Db.Trail.hash = (d.db.trailAt c p).map Db.Trail.hash := by
    rw [Db.trailAt_congr work.reclaimed.documents]
    exact hash
  refine wp_pure ⟨?_, work.backed (backed_keyed sound.backed.opened)⟩
  rw [donorAfter_hash same]
  exact kept

/-! ### Runs of commands -/

/-- The texts a walk offers for the file at `p`. -/
def Walk.Offered (walk : Walk) (p text : String) : Prop :=
  ∃ file ∈ walk.files, file.relPath = p ∧ ∃ doc, file.prepared = .ok doc ∧ doc.indexedText = text

namespace Invocation

/-- The command walks the collection and finds this. -/
def Walks (c : CollectionName) (walk : Walk) : Invocation → Prop
  | .update _ _ scan => ∃ hookFailure, scan c = .walked hookFailure walk
  | .add col found => col.name = c ∧ found = walk
  | _ => False

/-- The commands that neither take collections or vectors away nor set rules. -/
def upkeep : Invocation → Bool
  | .update .. | .add .. | .cleanup => true
  | .embed _ _ rebuild => !rebuild
  | .remove _ | .rename _ _ | .set _ _ _ => false

/-- The command runs to its end; an embed run also when it has failures to report or stops early. -/
def Ended (env : Env V) (d : Disk V) (fates : List (Fate FaultKind)) : Invocation → Prop
  | .embed backend collection _ => ((runEmbedWork env backend collection) fates (d.open false)).completed = true
  | invocation => ((invocation.command env) fates (d.open false)).completed = true

instance (env : Env V) (d : Disk V) (fates : List (Fate FaultKind)) : ∀ invocation : Invocation,
    Decidable (invocation.Ended env d fates)
  | .update .. | .add .. | .remove _ | .rename .. | .set .. | .embed .. | .cleanup => inferInstanceAs (Decidable (_ = true))

/-- The document's file stays present once it is recorded, and is never empty. -/
structure Attends (c : CollectionName) (p : String) (d : Disk V) (invocation : Invocation) : Prop where
  upkeep : invocation.upkeep = true
  present : ∀ walk, invocation.Walks c walk → d.db.trailAt c p ≠ none → p ∈ walk.paths
  texts : ∀ walk, invocation.Walks c walk → ∀ text, walk.Offered p text → text ≠ ""

/-- No walk offers a text whose edit would clear the mark of a donor. -/
def SparesDonor (env : Env V) (c : CollectionName) (p : String) (d : Disk V) (invocation : Invocation) : Prop :=
  ∀ walk, invocation.Walks c walk → ∀ text, walk.Offered p text → ¬ d.db.DropsDonor env c p text

end Invocation

theorem Walk.offers {walk : Walk} {offered : String → Prop} (exactly : ∀ text, offered text ↔ walk.Offered p text)
    (present : d.db.trailAt c p ≠ none → p ∈ walk.paths)
    (spares : ∀ text, walk.Offered p text → ¬ d.db.DropsDonor env c p text) : walk.Offers env c p offered d.db := by
  refine ⟨fun file member path doc prepared => ?_, present, fun text offer => ?_⟩
  · have here : walk.Offered p doc.indexedText := ⟨file, member, path, doc, prepared, rfl⟩
    exact ⟨(exactly _).mpr here, spares _ here⟩
  · obtain ⟨file, member, rfl, -⟩ := (exactly text).mp offer
    exact List.mem_map_of_mem member

/-- One command. -/
theorem sound_command {invocation : Invocation} {fates : List (Fate FaultKind)} (sound : d.Sound env c p donor)
    (chunked : env.Chunked) (apart : env.ApartFromEmpty) (attends : invocation.Attends c p d)
    (spares : invocation.SparesDonor env c p d) (ended : invocation.Ended env d fates) :
    (d.run (invocation.command env) fates).Sound env c p
      (d.db.donorAfter (d.run (invocation.command env) fates).db c p donor) := by
  have finish : ∀ {α : Type} {command : Command V α}, (command fates (d.open false)).completed = true →
      wp Faults.any command (Ends.ifDone fun _ => Store.Rests env c p d donor) (d.open false) →
      (command fates (d.open false)).final.Rests env c p d donor := by
    intro α command completed proved
    obtain ⟨-, rests⟩ := wp_completed proved (fun fate _ => any_allows fate) completed
    exact rests
  have rests : ((invocation.command env) fates (d.open false)).final.Rests env c p d donor := by
    cases invocation with
    | update collection full scan =>
      let offered : String → Prop := fun text => ∃ walk, (∃ hookFailure, scan c = .walked hookFailure walk) ∧ walk.Offered p text
      refine finish ended (@wp_runUpdate_rests V env c p d donor collection full scan offered sound ?_ ?_)
      · intro text ⟨walk, walked, offer⟩
        exact attends.texts walk walked text offer
      · intro hookFailure walk found
        refine Walk.offers (fun text => ⟨fun offer => ?_, fun offer => ⟨walk, ⟨hookFailure, found⟩, offer⟩⟩)
          (attends.present walk ⟨hookFailure, found⟩) (spares walk ⟨hookFailure, found⟩)
        obtain ⟨other, ⟨_, walked⟩, there⟩ := offer
        rw [found] at walked
        cases walked
        exact there
    | add col walk =>
      let offered : String → Prop := fun text => col.name = c ∧ walk.Offered p text
      refine finish ended (@wp_addCollection_rests V env c p d donor col walk offered sound ?_ ?_)
      · intro text ⟨own, offer⟩
        exact attends.texts walk ⟨own, rfl⟩ text offer
      · intro own
        exact Walk.offers (fun text => ⟨And.right, fun offer => ⟨own, offer⟩⟩) (attends.present walk ⟨own, rfl⟩)
          (spares walk ⟨own, rfl⟩)
    | embed backend collection rebuild =>
      have plain : rebuild = false := by simpa [Invocation.upkeep] using attends.upkeep
      subst plain
      change ((runEmbed env backend collection false) fates (d.open false)).final.Rests env c p d donor
      rw [runEmbed_eq, final_report ended]
      exact finish ended (wp_runEmbedWork_rests sound chunked apart)
    | cleanup => exact finish ended (wp_runCleanup_rests sound)
    | remove name => cases attends.upkeep
    | rename old new => cases attends.upkeep
    | set name ignore maxBytes => cases attends.upkeep
  exact ⟨rests.kept, rests.backed⟩

/-- A disk and the last text of one document that had vectors when an edit superseded it. -/
structure Watched (V : Type) where
  disk : Disk V
  donor : Option String

/-- One command after another, each run to its end. -/
inductive Upkeep (env : Env V) (c : CollectionName) (p : String) : Invocation × List (Fate FaultKind) →
    Watched V → Watched V → Prop
  | ran (w : Watched V) (invocation : Invocation) (fates : List (Fate FaultKind)) (attends : invocation.Attends c p w.disk)
      (ended : invocation.Ended env w.disk fates) :
      Upkeep env c p (invocation, fates) w ⟨w.disk.run (invocation.command env) fates,
        w.disk.db.donorAfter (w.disk.run (invocation.command env) fates).db c p w.donor⟩

def donorSpared (env : Env V) (c : CollectionName) (p : String) (entry : Invocation × List (Fate FaultKind))
    (w _after : Watched V) : Prop := entry.1.SparesDonor env c p w.disk

/-- The document waits for its vectors with its donor in place. -/
def Watched.DonorKept (c : CollectionName) (p : String) (w : Watched V) : Prop :=
  ∀ row, w.disk.db.trailAt c p = some row → w.disk.db.hashHasAnyVector row.hash = false → ∀ v, w.donor = some v →
    w.disk.db.hashHasAnyVector v = true ∧ ∀ vector ∈ w.disk.db.vectors, vector.hash = v → vector.vid ∈ w.disk.savedVids

/-- In every run in which no edit clears the mark of a donor, a document without vectors has its donor: the last of its
texts that had vectors when an edit superseded it still has its rows, and they are in the vector file. -/
theorem donor_kept {w : Watched V} (chunked : env.Chunked) (apart : env.ApartFromEmpty)
    (run : Reaches (Upkeep env c p) (donorSpared env c p) ⟨Disk.empty, none⟩ w) : w.DonorKept c p := by
  have start : (Disk.empty : Disk V).Sound env c p none := by
    refine ⟨⟨fun row none => absurd none (Table.not_mem_empty row), fun col none => absurd none (Table.not_mem_empty col),
      fun _ => rfl, fun row found => ?_, fun row found => ?_⟩, fun row none => absurd none (Table.not_mem_empty row)⟩
    · cases found
    · cases found
  have sound : w.disk.Sound env c p w.donor := by
    refine @Reaches.invariant _ _ _ _ _ _ (fun w : Watched V => w.disk.Sound env c p w.donor) run start ?_
    intro entry m n here spared step
    cases step with
    | ran _ invocation fates attends ended => exact sound_command here chunked apart attends spared ended
  intro row found bare v named
  refine ⟨((sound.kept.spares row found).named bare v named).2, fun vector member _ => sound.backed vector member⟩

/-! ### A text that begins with NUL -/

/-- The watch after one more command that nothing disturbs. -/
def Watched.next (env : Env V) (c : CollectionName) (p : String) (w : Watched V) (invocation : Invocation) : Watched V :=
  ⟨w.disk.run (invocation.command env) [], w.disk.db.donorAfter (w.disk.run (invocation.command env) []).db c p w.donor⟩

/-- The commands below walk the notes and find one file. -/
theorem attends_notes {d : Disk String} {invocation : Invocation} {text : String} (upkeep : invocation.upkeep = true)
    (some : text ≠ "") (walks : ∀ walk, invocation.Walks notes walk → walk = notesWalk (.ok (notesDoc text))) :
    invocation.Attends notes "a.md" d := by
  refine ⟨upkeep, fun walk found _ => ?_, fun walk found other offer => ?_⟩
  · rw [walks walk found]
    exact List.mem_singleton_self _
  · obtain ⟨file, member, -, doc, prepared, rfl⟩ := walks walk found ▸ offer
    rw [List.mem_singleton.mp member] at prepared
    cases prepared
    exact some

theorem spares_notes {d : Disk String} {invocation : Invocation} {text : String} (long : Db.beforeNul text ≠ [])
    (walks : ∀ walk, invocation.Walks notes walk → walk = notesWalk (.ok (notesDoc text))) :
    invocation.SparesDonor sampleEnv notes "a.md" d := by
  intro walk found other offer drops
  obtain ⟨file, member, -, doc, prepared, rfl⟩ := walks walk found ▸ offer
  rw [List.mem_singleton.mp member] at prepared
  cases prepared
  exact long drops.1

/-- The notes are added, embedded, and edited. -/
def editedWatch (text : String) : Watched String :=
  (((⟨Disk.empty, none⟩ : Watched String).next sampleEnv notes "a.md" (.add notesCollection (notesWalk (.ok (notesDoc "alpha"))))).next
    sampleEnv notes "a.md" (.embed gemma none false)).next sampleEnv notes "a.md"
      (.update none true fun _ => .walked none (notesWalk (.ok (notesDoc text))))

theorem walks_update {text : String} {walk : Walk} (found : (Invocation.update none true fun _ => .walked none
    (notesWalk (.ok (notesDoc text)))).Walks notes walk) : walk = notesWalk (.ok (notesDoc text)) := by
  obtain ⟨hookFailure, same⟩ := found
  cases same
  rfl

theorem reaches_edited {guard : Invocation × List (Fate FaultKind) → Watched String → Watched String → Prop} {text : String}
    (some : text ≠ "") (completed : ((runUpdate sampleEnv none true fun _ => .walked none (notesWalk (.ok (notesDoc text)))) []
      ((((⟨Disk.empty, none⟩ : Watched String).next sampleEnv notes "a.md"
        (.add notesCollection (notesWalk (.ok (notesDoc "alpha"))))).next sampleEnv notes "a.md"
          (.embed gemma none false)).disk.open false)).completed = true)
    (add : ∀ m n, guard (.add notesCollection (notesWalk (.ok (notesDoc "alpha"))), []) m n)
    (embed : ∀ m n, guard (.embed gemma none false, []) m n)
    (update : ∀ m n, guard (.update none true fun _ => .walked none (notesWalk (.ok (notesDoc text))), []) m n) :
    Reaches (Upkeep sampleEnv notes "a.md") guard ⟨Disk.empty, none⟩ (editedWatch text) := by
  have added : Reaches (Upkeep sampleEnv notes "a.md") guard ⟨Disk.empty, none⟩ _ :=
    Reaches.refl.next (add _ _) (.ran _ (.add notesCollection (notesWalk (.ok (notesDoc "alpha")))) []
      (attends_notes rfl (by decide) fun walk found => found.2.symm) (by decide +kernel))
  have embedded := added.next (embed _ _) (.ran _ (.embed gemma none false) []
    ⟨rfl, fun _ none => none.elim, fun _ none => none.elim⟩ (by decide +kernel))
  exact embedded.next (update _ _) (.ran _ _ [] (attends_notes rfl some fun _ => walks_update) completed)

/-- The edit to the notes' second text runs to its end. -/
theorem donor_kept_edited : (editedWatch "beta").DonorKept notes "a.md" := by
  have run : Reaches (Upkeep sampleEnv notes "a.md") (donorSpared sampleEnv notes "a.md") ⟨Disk.empty, none⟩ (editedWatch "beta") := by
    refine reaches_edited (by decide) (by decide +kernel) (fun m _ => ?_) (fun m _ => ?_) fun m _ => ?_
    · exact @spares_notes m.disk _ "alpha" (by decide) fun walk found => found.2.symm
    · exact fun _ none => none.elim
    · exact @spares_notes m.disk _ "beta" (by decide) fun _ => walks_update
  refine donor_kept (fun _ _ => List.cons_ne_nil _ _) (fun text same => ?_) run
  change sampleHash text = sampleHash "" at same
  unfold sampleHash at same
  split at same
  · exact absurd same (by decide)
  · split at same
    · exact absurd same (by decide)
    · split at same
      · exact absurd same (by decide)
      · exact same

/-- A text that begins with NUL has no length for SQLite: the edit clears the mark, and the reclaim at the end of the
update takes the vectors of the text before. -/
theorem donor_lost : Reaches (Upkeep sampleEnv notes "a.md") always ⟨Disk.empty, none⟩ (editedWatch "\x00beta") ∧
    ¬ (editedWatch "\x00beta").DonorKept notes "a.md" := by
  refine ⟨reaches_edited (by decide) (by decide +kernel) (fun _ _ => trivial) (fun _ _ => trivial) fun _ _ => trivial, ?_⟩
  intro kept
  have trail : (editedWatch "\x00beta").disk.db.trailAt notes "a.md" = some ⟨"\x00beta", none, true⟩ := by decide +kernel
  have bare : (editedWatch "\x00beta").disk.db.hashHasAnyVector "\x00beta" = false := by decide +kernel
  have named : (editedWatch "\x00beta").donor = some (sampleHash "alpha") := by decide +kernel
  have gone : (editedWatch "\x00beta").disk.db.hashHasAnyVector (sampleHash "alpha") = false := by decide +kernel
  have held := (kept _ trail bare _ named).1
  rw [gone] at held
  cases held

end Rqmd
