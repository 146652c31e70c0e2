import Rqmd.Holding
import Rqmd.Upkeep
import Rqmd.Whole

/-! Texts that come back. A reclaim that is cut after the flush leaves rows whose vectors are gone; they do no harm until
their text is indexed again, when the rows alone make it count as embedded. -/

namespace Rqmd
open Interrupt Transition

variable {V : Type} {env : Env V} {backend : Backend} {d : Disk V} {s t : Store V}
  {offered : String → String → Prop} {c : CollectionName}

/-! ### Indexing -/

namespace Db

variable {db mid after : Db}

theorem Within.refl (db : Db) : db.Within offered db :=
  ⟨fun row stored => ⟨row, stored, rfl, rfl, rfl⟩, fun doc stored active => .inl ⟨doc, stored, active, rfl, rfl⟩⟩

theorem Within.trans (first : db.Within offered mid) (second : mid.Within offered after) : db.Within offered after := by
  constructor
  · intro row stored
    obtain ⟨between, there, hash, vid, print⟩ := second.vectors row stored
    obtain ⟨old, before, hash', vid', print'⟩ := first.vectors between there
    exact ⟨old, before, hash'.trans hash, vid'.trans vid, print'.trans print⟩
  · intro doc stored active
    rcases second.documents doc stored active with ⟨between, there, on, path, hash⟩ | offer
    · rw [← path, ← hash]
      exact first.documents between there on
    · exact .inr offer

theorem Within.of_map {f : Document → Document} (vectors : after.vectors = db.vectors)
    (documents : ∀ doc, doc ∈ after.documents → ∃ old ∈ db.documents, f old = doc)
    (each : ∀ old, (f old).active = true → old.active = true ∧ (f old).path = old.path ∧ (f old).hash = old.hash ∨
      offered (f old).path (f old).hash) : db.Within offered after := by
  refine ⟨fun row stored => ⟨row, vectors ▸ stored, rfl, rfl, rfl⟩, fun doc stored active => ?_⟩
  obtain ⟨old, before, rfl⟩ := documents doc stored
  rcases each old active with ⟨on, path, hash⟩ | offer
  · exact .inl ⟨old, before, on, path.symm, hash.symm⟩
  · exact .inr offer

theorem within_mapDocuments {f : Document → Document}
    {same : ∀ doc, (f doc).id = doc.id ∧ (f doc).collection = doc.collection ∧ (f doc).path = doc.path}
    {hash : ∀ doc, (f doc).hash = doc.hash} (active : ∀ doc, (f doc).active = true → doc.active = true) :
    db.Within offered (db.mapDocuments f same hash) := by
  refine .of_map (f := f) rfl (fun doc stored => ?_) fun old on => .inl ⟨active old on, (same old).2.2, hash old⟩
  change doc ∈ db.documents.amendKeys f (Document.keeps same) at stored
  exact Table.mem_amendKeys.mp stored

theorem hashAt_upserted {path title hash : String} {id : Nat} (done : Upserted db c path title hash id after)
    (e : CollectionName) (q : String) :
    after.hashAt e q = db.hashAt e q ∨ (e, q) = (c, path) ∧ after.hashAt e q = some hash := by
  unfold hashAt
  by_cases own : (e, q) = (c, path)
  · cases own
    obtain ⟨row, found, -, same, -⟩ := done.row
    exact .inr ⟨rfl, by rw [found, Option.map_some, same]⟩
  · rw [done.others e q own]
    exact .inl rfl

theorem within_upserted {path title hash : String} {id : Nat} (done : Upserted db c path title hash id after)
    (offer : offered path hash) : db.Within offered after := by
  refine ⟨fun row stored => ⟨row, done.vectors ▸ stored, rfl, rfl, rfl⟩, fun doc stored active => ?_⟩
  have found := lookup_mem stored
  by_cases own : (doc.collection, doc.path) = (c, path)
  · obtain ⟨row, there, -, same, -⟩ := done.row
    rw [(Prod.mk.inj own).1, (Prod.mk.inj own).2] at found
    have one : row = doc := Option.some.inj (there.symm.trans found)
    rw [← one, same, one, (Prod.mk.inj own).2]
    exact .inr offer
  · rw [done.others _ _ own] at found
    exact .inl ⟨doc, (mem_lookup found).1, active, rfl, rfl⟩

theorem hashAt_mapDocuments {f : Document → Document}
    {same : ∀ doc, (f doc).id = doc.id ∧ (f doc).collection = doc.collection ∧ (f doc).path = doc.path}
    {hash : ∀ doc, (f doc).hash = doc.hash} (e : CollectionName) (q : String) :
    (db.mapDocuments f same hash).hashAt e q = db.hashAt e q := by
  unfold hashAt
  rw [lookup_mapDocuments, Option.map_map]
  congr 1
  funext doc
  exact hash doc

end Db

/-- What a pass makes of the rows: it makes active what it reads anew, and nothing else. -/
theorem PassStatement.effect {db after : Db} (statement : PassStatement c offered db after) :
    (db.Within Db.unoffered after ∧ ∀ e q, after.hashAt e q = db.hashAt e q) ∨
      ∃ path hash, offered path hash ∧ db.hashAt c path ≠ some hash ∧
        (∀ made : String → String → Prop, made path hash → db.Within made after) ∧
        ∀ e q, after.hashAt e q = db.hashAt e q ∨ (e, q) = (c, path) ∧ after.hashAt e q = some hash := by
  cases statement with
  | content hash doc =>
    have rows : (db.upsertContent hash doc).vectors = db.vectors := (db.aside_upsertContent hash doc).1
    refine .inl ⟨?_, fun e q => by simp [Db.hashAt]⟩
    refine Db.within_of_same (fun row stored => rows ▸ stored) fun doc stored active => ?_
    rw [Db.documents_upsertContent] at stored
    exact ⟨doc, stored, active, rfl, rfl⟩
  | document _ path title hash id offer changed written =>
    have done := Db.upserted_of_ok written
    exact .inr ⟨path, hash, offer, changed, fun _ => Db.within_upserted done, Db.hashAt_upserted done⟩
  | raw id raw =>
    refine .inl ⟨Db.within_mapDocuments fun doc active => ?_, Db.hashAt_mapDocuments⟩
    split at active <;> exact active
  | stat path stat =>
    refine .inl ⟨Db.within_mapDocuments fun doc active => ?_, Db.hashAt_mapDocuments⟩
    split at active <;> exact active
  | deactivated paths =>
    refine .inl ⟨Db.within_mapDocuments fun doc active => ?_, Db.hashAt_mapDocuments⟩
    split at active
    · cases active
    · exact active

/-- Where a pass that started on the disk stands: the vectors are as they were, and what was made active since are offered
texts that were not recorded at their path. -/
structure Store.Grown (d : Disk V) (offered : CollectionName → String → String → Prop) (s : Store V) : Prop where
  within : d.db.Within (fun path hash => ∃ c, offered c path hash ∧ d.db.hashAt c path ≠ some hash) s.db
  recorded : ∀ c path, s.db.hashAt c path = d.db.hashAt c path ∨
    ∃ hash, s.db.hashAt c path = some hash ∧ offered c path hash
  memory : s.hnsw.inner = d.hnswFile.getD .empty
  file : s.hnswFile.getD .empty = d.hnswFile.getD .empty

/-- The text was not recorded at the path, but the index has rows for it: one lost its vector, and one is current at the
path. -/
structure Disk.Returns (env : Env V) (backend : Backend) (d : Disk V) (c : CollectionName) (path hash : String) : Prop where
  new : d.db.hashAt c path ≠ some hash
  lost : ∃ row ∈ d.db.vectors, row.hash = hash ∧ row.vid ∉ d.savedVids
  current : d.db.CurrentAt env backend path hash

namespace Store.Grown

variable {offered : CollectionName → String → String → Prop}

theorem opened (d : Disk V) (readOnly : Bool) : Grown d offered (d.open readOnly) :=
  ⟨.refl _, fun _ _ => .inl rfl, openHnsw_inner, rfl⟩

theorem withDb {db : Db} {log : List Event} (here : Grown d offered s) (within : s.db.Within Db.unoffered db)
    (recorded : ∀ e q, db.hashAt e q = s.db.hashAt e q) : Grown d offered { s with db := db, log := log } := by
  refine ⟨here.within.trans (within.mono fun _ _ none => none.elim), fun e q => ?_, here.memory, here.file⟩
  change db.hashAt e q = _ ∨ ∃ hash, db.hashAt e q = _ ∧ _
  rw [recorded]
  exact here.recorded e q

/-- A pass that offers one text for each path. -/
theorem passKeeps (single : ∀ path hash other, offered c path hash → offered c path other → hash = other) :
    PassKeeps c (offered c) (Grown d offered) where
  aside _ _ _ _ here := ⟨here.within, here.recorded, here.memory, here.file⟩
  saved _ _ here := ⟨here.within, here.recorded, here.memory, here.memory⟩
  clean _ here := ⟨here.within, here.recorded, here.memory, here.file⟩
  rows s db log statement _ here := by
    rcases statement.effect with ⟨within, recorded⟩ | ⟨path, hash, offer, changed, within, recorded⟩
    · exact here.withDb within recorded
    · have new : d.db.hashAt c path ≠ some hash := by
        rcases here.recorded c path with same | ⟨other, there, offer'⟩
        · exact same ▸ changed
        · exact absurd (single path other hash offer' offer ▸ there) changed
      refine ⟨here.within.trans (within _ ⟨c, offer, new⟩), fun e q => ?_, here.memory, here.file⟩
      rcases recorded e q with same | ⟨own, written⟩
      · change db.hashAt e q = _ ∨ ∃ hash, db.hashAt e q = _ ∧ _
        rw [same]
        exact here.recorded e q
      · cases own
        exact .inr ⟨hash, written, offer⟩

/-- When no offered text returns, every reported text has its vectors. -/
theorem whole (here : Grown d offered s) (start : d.Whole env backend)
    (fresh : ∀ c path hash, offered c path hash → ¬ d.Returns env backend c path hash) : s.Whole env backend := by
  intro row stored reported
  obtain ⟨old, before, same, vid, -⟩ := here.within.vectors row stored
  have saved : row.vid ∈ d.savedVids := by
    rcases here.within.reported reported with known | ⟨path, ⟨c, offer, new⟩, current⟩
    · rw [← vid]
      exact start old before (same.symm ▸ known)
    · by_contra gone
      exact fresh c path row.hash offer ⟨new, ⟨old, before, same, vid.symm ▸ gone⟩, current⟩
  refine ⟨?_, ?_⟩
  · change row.vid ∈ (s.hnswFile.getD .empty).keys
    rw [here.file]
    exact saved
  · rw [here.memory]
    exact saved

end Store.Grown

/-- Two conditions a pass keeps. -/
theorem PassKeeps.and {keep other : Store V → Prop} (left : PassKeeps c offered keep) (right : PassKeeps c offered other) :
    PassKeeps c offered fun s => keep s ∧ other s where
  aside s fts log quiet here := ⟨left.aside s fts log quiet here.1, right.aside s fts log quiet here.2⟩
  saved s writable here := ⟨left.saved s writable here.1, right.saved s writable here.2⟩
  clean s here := ⟨left.clean s here.1, right.clean s here.2⟩
  rows s db log statement quiet here :=
    ⟨left.rows s db log statement quiet here.1, right.rows s db log statement quiet here.2⟩

/-- A walk offers one text at a path. -/
theorem Walk.offers_single {walk : Walk} {path hash other : String} {file found : WalkedFile} (first : file ∈ walk.files)
    (second : found ∈ walk.files) (offer : file.Offers env path hash) (again : found.Offers env path other) :
    hash = other := by
  obtain ⟨here, doc, prepared, rfl⟩ := offer
  obtain ⟨there, text, made, rfl⟩ := again
  have one : file = found := List.inj_on_of_nodup_map walk.distinct first second (here.trans there.symm)
  rw [one, made] at prepared
  cases prepared
  rfl

theorem Scan.reads_single {cache : List (String × FileStat)} {scan : Scan} {path hash other : String}
    (reads : ReadsFrom env cache scan.files path hash) (again : ReadsFrom env cache scan.files path other) :
    hash = other := by
  obtain ⟨file, member, -, offer⟩ := reads
  obtain ⟨found, inside, -, offer'⟩ := again
  cases scan with
  | walked hookFailure walk => exact Walk.offers_single member inside offer offer'
  | directoryMissing => exact absurd member List.not_mem_nil
  | hookInterrupted => exact absurd member List.not_mem_nil
  | invalidMask hookFailure => exact absurd member List.not_mem_nil

/-- The texts an update reads: those of the files of its collections that the recorded stats do not cover. -/
def updateReads (env : Env V) (db : Db) (collection : Option CollectionName) (full : Bool) (scan : CollectionName → Scan)
    (c : CollectionName) (path hash : String) : Prop :=
  (∃ cols, selectCollections db collection = .ok cols ∧ ∃ col ∈ cols, col.name = c) ∧
    ReadsFrom env (db.passCache full c) (scan c).files path hash

/-- The collections in turn, each with the stats it had at the start. -/
theorem wp_updateEach_grown {collection : Option CollectionName} {full : Bool} {scan : CollectionName → Scan}
    (cols : List Collection) : ∀ (clean : Bool) (s : Store V), (cols.map Collection.name).Nodup →
    (∀ col ∈ cols, ∃ all, selectCollections d.db collection = .ok all ∧ ∃ other ∈ all, other.name = col.name) →
    Store.Grown d (updateReads env d.db collection full scan) s →
    (∀ col ∈ cols, s.db.loadDocStatCache col.name = d.db.loadDocStatCache col.name) →
    wp Faults.any (updateEach env full scan cols clean)
      (Ends.all (Store.Grown d (updateReads env d.db collection full scan))) s := by
  induction cols with
  | nil => exact fun _ _ _ _ here _ => wp_pure here
  | cons col cols ih =>
    intro clean s distinct selected here caches
    unfold updateEach
    refine wp_bind (wp_poll ?_ (fun _ => wp_throw here) fun _ => here)
    have cache : s.db.passCache full col.name = d.db.passCache full col.name := by
      unfold Db.passCache
      rw [caches col List.mem_cons_self]
    have others : PassKeeps col.name (ReadsFrom env (s.db.passCache full col.name) (scan col.name).files)
        fun t : Store V => ∀ e, e ≠ col.name → t.db.loadDocStatCache e = s.db.loadDocStatCache e :=
      (KeptByPass.statCaches s.db.loadDocStatCache).passKeeps.narrow fun _ _ _ => trivial
    have single : ∀ path hash other, updateReads env d.db collection full scan col.name path hash →
        updateReads env d.db collection full scan col.name path other → hash = other :=
      fun path hash other reads again => Scan.reads_single reads.2 again.2
    have reads : PassKeeps col.name (ReadsFrom env (s.db.passCache full col.name) (scan col.name).files)
        (Store.Grown d (updateReads env d.db collection full scan)) :=
      (Store.Grown.passKeeps single).narrow fun path hash there => ⟨selected col List.mem_cons_self, cache ▸ there⟩
    have pass := @wp_updateOne_kept V env col.name Faults.any _ s full (scan col.name) ⟨here, fun _ _ => rfl⟩
      (reads.and others)
    refine wp_bind (wp_mono pass (fun outcome t after => ?_) (fun _ _ after => after.1) fun _ after => after.1)
    have rest : ∀ other ∈ cols, ∃ all, selectCollections d.db collection = .ok all ∧
        ∃ third ∈ all, third.name = other.name := fun other member => selected other (List.mem_cons_of_mem _ member)
    refine wp_ite (wp_throw after.1) (ih _ t (List.nodup_cons.mp distinct).2 rest after.1 fun other member => ?_)
    have apart : other.name ≠ col.name := fun same =>
      (List.nodup_cons.mp distinct).1 (same ▸ List.mem_map_of_mem member)
    exact (after.2 other.name apart).trans (caches other (List.mem_cons_of_mem _ member))

/-! ### Commands that do not embed -/

namespace Store.Whole

theorem setConfig (key value : String) : Preserves Faults.any (Store.Whole (V := V) env backend)
    (Store.sqlExecute "set config" (fun db => db.setConfig key value) []) := execute fun _ =>
  Db.within_of_same (fun _ stored => stored) fun doc stored active => ⟨doc, stored, active, rfl, rfl⟩

end Store.Whole

theorem wp_runUpdate_whole {collection : Option CollectionName} {full : Bool} {scan : CollectionName → Scan}
    (start : d.Whole env backend)
    (fresh : ∀ c path hash, updateReads env d.db collection full scan c path hash → ¬ d.Returns env backend c path hash) :
    wp Faults.any (runUpdate env collection full scan) (Ends.all (Store.Whole env backend)) (d.open false) := by
  unfold runUpdate
  refine wp_bind (wp_modify (wp_bind (wp_query (wp_bind (wp_ofExcept (fun cols selected => ?_) fun _ _ => .opened start)))))
  refine wp_ite (wp_pure (.opened start)) (wp_bind (wp_modify ?_))
  have loop : wp Faults.any (updateEach env full scan cols true) (Ends.all (Store.Whole env backend)) (d.open false) := by
    have grown := @wp_updateEach_grown V env d collection full scan cols true (d.open false)
      (selectCollections_distinct selected) (fun col member => ⟨cols, selected, col, member, rfl⟩) (.opened d false)
      fun _ _ => rfl
    have ended : ∀ t : Store V, Store.Grown d (updateReads env d.db collection full scan) t → t.Whole env backend :=
      fun t here => here.whole start fresh
    exact wp_mono grown (fun _ => ended) (fun _ => ended) ended
  refine wp_bind (wp_mono loop (fun clean t whole => ?_) (fun _ _ => id) fun _ => id)
  have rest : Preserves Faults.any (Store.Whole (V := V) env backend) (do
      Store.reclaimOrphanedVectors
      if collection.isNone && clean then
        Store.sqlExecute "set config" (fun db => db.setConfig rawSplitSchemaKey "1") []
      else
        pure ()
      if collection.isNone && (← Prog.query fun s => (s.db.getConfig rawSplitSchemaKey).isSome) then
        Store.rebuildFtsIfNeeded env
      else
        pure () : Command V Unit) := by
    refine .bind Store.Whole.reclaimOrphaned fun _ => .onlyIf () (Store.Whole.setConfig _ _) fun _ => ?_
    exact .bind (.query _) fun known => .ite
      (Store.Whole.keptBySave.rebuildFtsIfNeeded (Store.Whole.setConfig _ _)) (.pure ())
  exact rest t whole

/-- The texts a new collection reads: those of all its files. -/
def addReads (env : Env V) (col : Collection) (walk : Walk) (c : CollectionName) (path hash : String) : Prop :=
  c = col.name ∧ ∃ file ∈ walk.files, file.Offers env path hash

theorem wp_addCollection_whole {col : Collection} {walk : Walk} (start : d.Whole env backend)
    (fresh : ∀ c path hash, addReads env col walk c path hash → ¬ d.Returns env backend c path hash) :
    wp Faults.any (addCollection env col walk) (Ends.all (Store.Whole env backend)) (d.open false) := by
  have keeps : PassKeeps col.name (addReads env col walk col.name) (Store.Grown d (addReads env col walk)) := by
    apply Store.Grown.passKeeps
    intro path hash other reads again
    obtain ⟨-, file, member, offer⟩ := reads
    obtain ⟨-, found, inside, offer'⟩ := again
    exact Walk.offers_single member inside offer offer'
  have upserted : Preserves Faults.any (Store.Grown d (addReads env col walk))
      (Store.sqlExecute "upsert collection"
        (fun db => db.upsertCollection (readded (d.db.findCollection col.name) col)) []) := by
    intro s here
    have same : (s.db.upsertCollection (readded (d.db.findCollection col.name) col)).documents = s.db.documents ∧
        (s.db.upsertCollection (readded (d.db.findCollection col.name) col)).vectors = s.db.vectors := by
      unfold Db.upsertCollection
      split <;> exact ⟨rfl, rfl⟩
    refine Store.wp_sqlExecute (here.withDb ?_ fun e q => ?_) (fun _ _ => here) fun _ => here
    · refine Db.within_of_same (fun row stored => same.2 ▸ stored) fun doc stored active => ?_
      exact ⟨doc, same.1 ▸ stored, active, rfl, rfl⟩
    · unfold Db.hashAt Db.getDocumentByFilepath
      rw [same.1]
  have each : ∀ file ∈ walk.files,
      Preserves Faults.any (Store.Grown d (addReads env col walk)) (addFile env col.name file) :=
    fun file member => keeps.addFile fun path hash there => ⟨rfl, file, member, there⟩
  have grown : wp Faults.any (addCollection env col walk) (Ends.all (Store.Grown d (addReads env col walk)))
      (d.open false) := by
    unfold addCollection
    refine wp_bind (wp_modify (wp_bind (wp_query ?_)))
    exact Preserves.bind upserted (fun _ => .bind (.forEachIn walk.files each) fun _ => keeps.flush) _ (.opened d false)
  have ended : ∀ t : Store V, Store.Grown d (addReads env col walk) t → t.Whole env backend :=
    fun t here => here.whole start fresh
  exact wp_mono grown (fun _ => ended) (fun _ => ended) ended

/-! ### `embed --cleanup` -/

/-- `embed --cleanup` up to the reclaim of the excluded texts. -/
def cleanupOrphans : Command V Unit := do
  Store.reopen false
  Store.reclaimOrphanedVectors

def cleanupExcluded (env : Env V) : Command V Unit := do
  let excluded ← Prog.query fun s => s.db.excludedDocs env.globs
  Store.reclaimExcludedVectors excluded

/-- `embed --cleanup` up to the sweep of the content. -/
def cleanupVectors (env : Env V) : Command V Unit := do
  cleanupOrphans
  cleanupExcluded env

def sweepContent : Command V Unit := Store.sqlExecute "sweep content" Db.deleteUnreferencedContent []

theorem runCleanup_eq : runCleanup env = cleanupVectors (V := V) env >>= fun _ => sweepContent := by
  unfold runCleanup cleanupVectors cleanupOrphans cleanupExcluded sweepContent
  simp only [bind_assoc]

/-- The run comes into the reclaim of the excluded texts and not out of it. -/
def CutInExcluded (env : Env V) (d : Disk V) (fates : List (Fate FaultKind)) : Prop :=
  (cleanupOrphans fates (d.open false)).completed = true ∧ ((cleanupVectors env) fates (d.open false)).completed = false

theorem Store.Reclaimed.excludedOnly {hashes : List String} {excluded : List Nat} {hash : String}
    (done : Store.Reclaimed hashes s t) (only : hash ∈ t.db.excludedOnlyVectorHashes excluded) :
    hash ∈ s.db.excludedOnlyVectorHashes excluded := by
  have fewer : ∀ other, t.db.hashHasAnyVector other = true → s.db.hashHasAnyVector other = true := by
    intro other known
    obtain ⟨row, stored, theirs⟩ := Db.hashHasAnyVector_iff.mp known
    exact Db.hashHasAnyVector_iff.mpr ⟨row, ((done.rows row).mp stored).1, theirs⟩
  unfold Db.excludedOnlyVectorHashes at only ⊢
  by_cases none : excluded.isEmpty = true
  · rw [if_pos none] at only
    exact absurd only List.not_mem_nil
  · rw [if_neg none] at only ⊢
    simp only [List.mem_dedup, List.mem_map, Table.mem_select] at only ⊢
    obtain ⟨row, ⟨stored, alone⟩, rfl⟩ := only
    refine ⟨row, ⟨((done.rows row).mp stored).1, ?_⟩, rfl⟩
    unfold Db.excludedOnly at alone ⊢
    rw [done.documents] at alone
    simp only [Bool.and_eq_true, Bool.not_eq_true', ← Bool.not_eq_true, Table.any_eq_true] at alone ⊢
    refine ⟨alone.1, fun waiting => alone.2 ?_⟩
    obtain ⟨doc, there, waits⟩ := waiting
    exact ⟨doc, there, waits.1, fun known => waits.2 (fewer doc.hash known)⟩

theorem wp_cleanupOrphans_whole (start : d.Whole env backend) :
    wp Faults.any cleanupOrphans ⟨fun _ t => t.Whole env backend ∧
        Store.Reclaimed d.db.orphanedVectorHashes (d.open false) t ∧ t.hnsw.readOnly = false,
      fun _ t => t.Whole env backend, fun t => t.Whole env backend⟩ (d.open false) := by
  unfold cleanupOrphans
  refine wp_bind (wp_modify ?_)
  have drained : wp Faults.any Store.reclaimOrphanedVectors (Ends.ifDone fun _ t =>
      Store.Reclaimed d.db.orphanedVectorHashes (d.open false) t ∧ t.hnsw.readOnly = false) (d.open false) :=
    Store.wp_reclaimOrphanedVectors openHnsw_writable fun t done _ mode => ⟨done, mode⟩
  have both := wp_and (Store.Whole.reclaimOrphaned (d.open false) (.opened start)) drained
  exact wp_mono both (fun _ _ => id) (fun _ _ => And.left) fun _ => And.left

theorem sweepContent_whole : Preserves Faults.any (Store.Whole (V := V) env backend) sweepContent :=
  Store.Whole.execute fun _ =>
    Db.within_of_same (fun _ stored => stored) fun doc stored active => ⟨doc, stored, active, rfl, rfl⟩

/-- A cleanup is safe wherever it is cut but for the reclaim of excluded texts that are reported embedded. -/
theorem runCleanup_whole {fates : List (Fate FaultKind)} (start : d.Whole env backend)
    (spared : CutInExcluded env d fates → ∀ hash ∈ d.db.excludedOnlyVectorHashes (d.db.excludedDocs env.globs),
      ¬ d.db.Reported env backend hash) : ((runCleanup env) fates (d.open false)).final.Whole env backend := by
  have orphans := @wp_cleanupOrphans_whole V env backend d start
  by_cases cut : CutInExcluded env d fates
  · have all : wp Faults.any (runCleanup env) (Ends.all (Store.Whole env backend)) (d.open false) := by
      rw [runCleanup_eq]
      unfold cleanupVectors cleanupExcluded
      simp only [bind_assoc]
      refine wp_bind (wp_mono orphans (fun _ t here => ?_) (fun _ _ => id) fun _ => id)
      obtain ⟨whole, done, -⟩ := here
      refine wp_bind (wp_query ?_)
      have same : t.db.excludedDocs env.globs = d.db.excludedDocs env.globs := done.texts.excludedDocs
      rw [same]
      have within : d.db.Within Db.unoffered t.db := by
        refine Db.within_of_same (fun row stored => ((done.rows row).mp stored).1) fun doc there active => ?_
        exact ⟨doc, done.documents ▸ there, active, rfl, rfl⟩
      have drained : wp Faults.any (Store.reclaimExcludedVectors (d.db.excludedDocs env.globs))
          (Ends.all (Store.Whole env backend)) t := by
        unfold Store.reclaimExcludedVectors
        refine wp_bind (wp_query (whole.reclaimed fun hash listed reported => ?_))
        exact spared cut hash (done.excludedOnly listed) (within.reportedOnly reported)
      exact wp_bind (wp_mono drained (fun _ u => sweepContent_whole u) (fun _ _ => id) fun _ => id)
    exact wp_final all fun fate _ => any_allows fate
  · rw [runCleanup_eq]
    by_cases came : (cleanupOrphans fates (d.open false)).completed = true
    · have through : ((cleanupVectors env) fates (d.open false)).completed = true := by
        by_contra stopped
        exact cut ⟨came, by simpa using stopped⟩
      have drained : wp Faults.any (cleanupVectors env) (Ends.ifDone fun _ => Store.Whole env backend) (d.open false) := by
        unfold cleanupVectors cleanupExcluded
        refine wp_bind (wp_mono orphans (fun _ t here => ?_) (fun _ _ _ => trivial) fun _ _ => trivial)
        obtain ⟨whole, -, mode⟩ := here
        unfold Store.reclaimExcludedVectors
        refine wp_bind (wp_query (wp_bind (wp_query (Store.wp_reclaimVectorsOf mode fun u done _ _ => ?_))))
        exact whole.reclaimedDone done
      exact final_of_completed drained (fun _ t whole => sweepContent_whole t whole) through
    · have stopped : (cleanupOrphans fates (d.open false)).completed = false := by simpa using came
      have inner := final_of_stopped (k := fun _ : Unit => cleanupExcluded env) stopped
      have outer := final_of_stopped (k := fun _ : Unit => (sweepContent : Command V Unit)) inner.2
      have ended : (cleanupOrphans fates (d.open false)).final.Whole env backend := by
        refine wp_final (wp_mono orphans (fun _ _ here => here.1) (fun _ _ => id) fun _ => id) fun fate _ => any_allows fate
      have same : ((cleanupVectors env >>= fun _ => sweepContent) fates (d.open false)).final =
          (cleanupOrphans fates (d.open false)).final := outer.1.trans inner.1
      rw [same]
      exact ended

/-! ### The other commands -/

theorem removeCollection_whole (name : CollectionName) :
    Preserves Faults.any (Store.Whole (V := V) env backend) (removeCollection env name) := by
  have sweep : ∀ {context : Failure} {f : Db → Db} {events : List Event},
      (∀ db, ∀ row ∈ (f db).vectors, row ∈ db.vectors) → (∀ db, ∀ doc ∈ (f db).documents, doc ∈ db.documents) →
      Preserves Faults.any (Store.Whole (V := V) env backend) (Store.sqlExecute context f events) := by
    intro context f events vectors documents
    refine Store.Whole.execute fun db => Db.within_of_same (vectors db) fun doc stored active => ?_
    exact ⟨doc, documents db doc stored, active, rfl, rfl⟩
  unfold removeCollection purgeCollection
  refine .bind (.modify fun s whole => .opened whole.disk) fun _ => .bind (.query _) fun known => .ite (.throw _) ?_
  refine .bind (.bind (.query _) fun filepaths => ?_) fun filepaths => ?_
  · refine .bind (sweep (fun _ _ => id) fun _ _ stored => (Table.mem_deleteWhere.mp stored).1) fun _ => ?_
    refine .bind (sweep (fun _ _ stored => (Table.mem_deleteWhere.mp stored).1) fun _ _ => id) fun _ => ?_
    refine .bind (sweep (fun _ _ => id) fun _ _ => id) fun _ => .bind (sweep (fun _ _ => id) fun _ _ => id) fun _ => ?_
    exact .bind (sweep (fun _ _ => id) fun _ _ => id) fun _ => .pure _
  · refine .bind (.forEach (fun path => Store.Whole.keptBySave.removeStaleEntry path) filepaths) fun _ => ?_
    exact .bind Store.Whole.reclaimOrphaned fun _ => Store.Whole.keptBySave.flush

theorem setCollection_whole (name : CollectionName) (ignore : Option (List String)) (maxBytes : Option (Option Nat)) :
    Preserves Faults.any (Store.Whole (V := V) env backend) (setCollection name ignore maxBytes) := by
  unfold setCollection
  refine .ite (.throw _) (.bind (.modify fun s whole => .opened whole.disk) fun _ => .bind (.query _) fun found => ?_)
  cases found with
  | none => exact .throw _
  | some col =>
    exact Store.Whole.execute fun _ =>
      Db.within_of_same (fun _ stored => stored) fun doc stored active => ⟨doc, stored, active, rfl, rfl⟩

theorem Db.within_renameCollection {db after : Db} {old new : CollectionName}
    (ok : db.renameCollection old new = .ok after) : db.Within Db.unoffered after := by
  unfold Db.renameCollection at ok
  split at ok
  · split at ok
    · cases ok
    · simp only [Except.ok.injEq] at ok
      subst ok
      refine .of_map (f := Db.moveDocument old new) rfl (fun doc stored => ?_) fun doc active => ?_
      · have rows : doc ∈ db.documents.rows.map (Db.moveDocument old new) := stored
        exact List.mem_map.mp rows
      · refine .inl ⟨?_, (Db.moveDocument_fixed old new doc).2⟩
        unfold Db.moveDocument at active
        split at active <;> exact active
  · cases ok

theorem runRename_whole (old : CollectionName) (new : String) :
    Preserves Faults.any (Store.Whole (V := V) env backend) (runRename env old new) := by
  unfold runRename
  refine .bind (.ofExcept _) fun name => .bind (.modify fun s whole => .opened whole.disk) fun _ => ?_
  refine .bind (.query _) fun known => .ite (.throw _) (.bind (.query _) fun taken => .ite (.throw _) ?_)
  exact Store.Whole.keptBySave.renameCollection fun _ _ renamed whole => whole.within (Db.within_renameCollection renamed)

/-! ### `embed` -/

/-- `embed` up to the reclaim that follows its pass. -/
def embedThrough (env : Env V) (backend : Backend) (collection : Option CollectionName) (rebuild : Bool) :
    Command V (Option (EmbedRun × EmbedFlow)) := do
  Store.reopen true
  let selected ← Prog.query fun s => selectCollections s.db collection
  let cols ← Prog.ofExcept selected
  if cols.isEmpty then
    pure none
  else if rebuild then
    match collection with
    | some name => clearScoped name
    | none => clearUnscoped
    Store.reopen false
    some <$> embedPass env backend cols
  else
    Store.reopen true
    if (← Prog.query fun s => pendingEmbedCount env backend s.db) = 0 then
      pure none
    else
      Store.reopen false
      backfillVectorKeys env backend
      some <$> embedPass env backend cols

/-- The reclaim and the report. -/
def embedRest : Option (EmbedRun × EmbedFlow) → Command V Unit
  | none => pure ()
  | some result => do
    Store.reclaimOrphanedVectors
    Prog.ofExcept (finishEmbed result.1 result.2)

theorem runEmbed_through (collection : Option CollectionName) (rebuild : Bool) :
    runEmbed env backend collection rebuild = embedThrough env backend collection rebuild >>= embedRest := by
  unfold runEmbed embedThrough embedCollections
  simp only [bind_assoc]
  congr 1
  funext _
  congr 1
  funext selected
  congr 1
  funext cols
  split
  · rfl
  · split
    · cases collection with
      | some name =>
        simp only [bind_assoc, if_true, map_eq_pure_bind, pure_bind]
        rfl
      | none =>
        simp only [bind_assoc, if_true, map_eq_pure_bind, pure_bind]
        rfl
    · simp only [bind_assoc]
      congr 1
      funext _
      congr 1
      funext count
      split
      · rfl
      · simp only [bind_assoc, map_eq_pure_bind, pure_bind]
        rfl

theorem embedRest_whole (result : Option (EmbedRun × EmbedFlow)) :
    Preserves Faults.any (Store.Whole (V := V) env backend) (embedRest result) := by
  cases result with
  | none => exact .pure ()
  | some result => exact .bind Store.Whole.reclaimOrphaned fun _ => .ofExcept _

/-- Filling in keys changes neither texts nor ids nor fingerprints. -/
theorem Db.within_keyed (db : Db) (current : Backend) : db.Within Db.unoffered (db.keyed env current) := by
  refine ⟨fun row stored => ?_, fun doc stored active => .inl ⟨doc, stored, active, rfl, rfl⟩⟩
  obtain ⟨old, before, rfl⟩ := Db.mem_backfillVectorKeys.mp stored
  exact ⟨old, before, (Db.backfill_keys _ _ _ old).1.symm, (Db.backfill_keys _ _ _ old).2.2.symm,
    (Db.backfill_print _ _ _ old).symm⟩

theorem wp_embedPass_whole {current : Backend} {cols : List Collection} (whole : s.Whole env backend)
    (allotted : (Session.of s).Allotted) (writable : s.hnsw.readOnly = false) :
    wp Faults.any (some <$> embedPass env current cols) (Ends.ifDone fun _ => Store.Whole env backend) s := by
  rw [map_eq_pure_bind]
  refine wp_bind (wp_mono (wp_embedPass writable) (fun result t ended => wp_pure ?_) (fun _ _ _ => trivial)
    fun _ _ => trivial)
  exact whole.passes allotted ended.1

/-- The vectors no other collection uses leave the memory, then the rows go, and the file follows. -/
theorem wp_clearScoped_whole (start : d.Whole env backend) (name : CollectionName) :
    wp Faults.any (clearScoped name) (Ends.ifDone fun _ => Store.Whole env backend) (d.open true) := by
  unfold clearScoped
  refine wp_bind (wp_modify (wp_bind (wp_query (wp_bind (Store.wp_evictHnswVectors openHnsw_writable ?_)))))
  refine wp_bind (Store.wp_sqlExecute ?_ (fun _ _ => trivial) fun _ => trivial)
  refine wp_ifDone (Store.Whole.keptBySave.flush _ ?_) fun _ _ => id
  have within : d.db.Within Db.unoffered (d.db.clearVectorsForCollection name) :=
    Db.within_of_same (fun row stored => (Db.mem_cleared.mp stored).1)
      fun doc stored active => ⟨doc, stored, active, rfl, rfl⟩
  intro row stored reported
  obtain ⟨before, used⟩ := Db.mem_cleared.mp stored
  have opened : (d.open false).Whole env backend := .opened start
  obtain ⟨saved, held⟩ := opened row before (within.reportedOnly reported)
  refine ⟨saved, Store.mem_keys_removeVids.mpr ⟨held, fun gone => ?_⟩⟩
  obtain ⟨other, inside, free, same⟩ := Db.mem_rebuildableVids.mp gone
  have one : other = row := Table.eq_of_clash inside before (.inr same)
  exact used (one ▸ free)

theorem wp_clearUnscoped_whole :
    wp Faults.any clearUnscoped (Ends.ifDone fun _ => Store.Whole env backend) (d.open true) := by
  unfold clearUnscoped
  refine wp_bind (wp_effect (fun _ t ran => ?_) (fun _ _ _ => trivial) (fun _ _ _ _ => trivial) fun _ => trivial)
  refine wp_bind (wp_modify (Store.wp_sqlExecute ?_ (fun _ _ => trivial) fun _ => trivial))
  exact fun row stored => absurd stored (Table.not_mem_empty row)

theorem wp_embedThrough_whole {current : Backend} {collection : Option CollectionName} {rebuild : Bool}
    (start : d.Whole env backend) : wp Faults.any (embedThrough env current collection rebuild)
      (Ends.ifDone fun _ => Store.Whole env backend) (d.open false) := by
  have fresh : ∀ {t : Store V} {cols : List Collection}, t.Whole env backend → wp Faults.any (do
      Store.reopen false
      some <$> embedPass env current cols : Command V (Option (EmbedRun × EmbedFlow)))
        (Ends.ifDone fun _ => Store.Whole env backend) t := fun whole =>
    wp_bind (wp_modify (wp_embedPass_whole (.opened whole.disk) (Session.Allotted.opened _ false) openHnsw_writable))
  unfold embedThrough
  refine wp_bind (wp_modify (wp_bind (wp_query (wp_bind (wp_ofExcept (fun cols selected => ?_) fun _ _ => trivial)))))
  refine wp_ite (wp_pure (.opened start)) (wp_ite ?_ ?_)
  · cases collection with
    | some name =>
      refine wp_bind (wp_mono (wp_clearScoped_whole start name) (fun _ t whole => fresh whole) (fun _ _ => id) fun _ => id)
    | none =>
      refine wp_bind (wp_mono wp_clearUnscoped_whole (fun _ t whole => fresh whole) (fun _ _ => id) fun _ => id)
  · refine wp_bind (wp_modify (wp_bind (wp_query (wp_ite (wp_pure (.opened start)) (wp_bind (wp_modify ?_))))))
    refine wp_bind (Store.wp_sqlExecute ?_ (fun _ _ => trivial) fun _ => trivial)
    have whole : (d.open false).Whole env backend := .opened start
    have allotted : (Session.of (d.open false)).Allotted := Session.Allotted.opened (d.open false) false
    refine wp_embedPass_whole (whole.within (d.db.within_keyed current)) ?_ openHnsw_writable
    rw [List.append_nil]
    exact allotted.step (Step.keyed (.of (d.open false)) _ _ _ : Step env _ _ _)

/-! ### Runs of commands -/

namespace Invocation

/-- An embed run comes to the reclaim that follows its pass. -/
def Through (env : Env V) (d : Disk V) (fates : List (Fate FaultKind)) : Invocation → Prop
  | .embed current collection rebuild => ((embedThrough env current collection rebuild) fates (d.open false)).completed = true
  | _ => True

/-- No text comes back that has rows without vectors, one of them current; and no reclaim of excluded texts is cut that
takes one reported embedded. -/
def Spares (env : Env V) (backend : Backend) (d : Disk V) (fates : List (Fate FaultKind)) : Invocation → Prop
  | .update collection full scan =>
    ∀ c path hash, updateReads env d.db collection full scan c path hash → ¬ d.Returns env backend c path hash
  | .add col walk => ∀ c path hash, addReads env col walk c path hash → ¬ d.Returns env backend c path hash
  | .cleanup => CutInExcluded env d fates →
    ∀ hash ∈ d.db.excludedOnlyVectorHashes (d.db.excludedDocs env.globs), ¬ d.db.Reported env backend hash
  | _ => True

end Invocation

/-- One command, cut anywhere but in an embed pass. -/
theorem whole_command {invocation : Invocation} {fates : List (Fate FaultKind)} (start : d.Whole env backend)
    (through : invocation.Through env d fates) (spares : invocation.Spares env backend d fates) :
    (d.run (invocation.command env) fates).Whole env backend := by
  have opened : (d.open false).Whole env backend := .opened start
  have ends : ∀ {command : Command V Unit}, wp Faults.any command (Ends.all (Store.Whole env backend)) (d.open false) →
      (command fates (d.open false)).final.Whole env backend := fun all => wp_final all fun fate _ => any_allows fate
  have final : ((invocation.command env) fates (d.open false)).final.Whole env backend := by
    cases invocation with
    | update collection full scan => exact ends (wp_runUpdate_whole start spares)
    | add col walk => exact ends (wp_addCollection_whole start spares)
    | remove name => exact ends (removeCollection_whole name _ opened)
    | rename old new => exact ends (runRename_whole old new _ opened)
    | set name ignore maxBytes => exact ends (setCollection_whole name ignore maxBytes _ opened)
    | embed current collection rebuild =>
      change ((runEmbed env current collection rebuild) fates (d.open false)).final.Whole env backend
      rw [runEmbed_through]
      exact final_of_completed (wp_embedThrough_whole start) embedRest_whole through
    | cleanup => exact runCleanup_whole start spares
  exact final.disk

/-- One command after another. Each may be cut anywhere, an embed run once its pass is over. -/
inductive Ran (env : Env V) : Invocation × List (Fate FaultKind) → Disk V → Disk V → Prop
  | ran (d : Disk V) (invocation : Invocation) (fates : List (Fate FaultKind)) (through : invocation.Through env d fates) :
      Ran env (invocation, fates) d (d.run (invocation.command env) fates)

def returnless (env : Env V) (backend : Backend) (entry : Invocation × List (Fate FaultKind)) (d _after : Disk V) : Prop :=
  entry.1.Spares env backend d entry.2

/-- In a run in which no text comes back whose rows outlived their vectors, every text reported embedded has its vectors
in the saved file. -/
theorem whole_of_run {start : Disk V} (whole : start.Whole env backend)
    (run : Reaches (Ran env) (returnless env backend) start d) : d.Whole env backend := by
  refine run.invariant whole ?_
  intro entry m n here spares step
  cases step with
  | ran _ invocation fates through => exact whole_command here through spares

theorem Ran.next {start : Disk V} (run : Reaches (Ran env) (returnless env backend) start d) (invocation : Invocation)
    (fates : List (Fate FaultKind)) (spares : invocation.Spares env backend d fates) (through : invocation.Through env d fates) :
    Reaches (Ran env) (returnless env backend) start (d.run (invocation.command env) fates) :=
  Reaches.next (l := (invocation, fates)) run spares (.ran d invocation fates through)

theorem Disk.whole_empty : (Disk.empty : Disk V).Whole env backend := fun row none => absurd none (Table.not_mem_empty row)

/-- Where every row has its vector no text returns. -/
theorem Disk.Backed.spares (backed : d.Backed) {path hash : String} : ¬ d.Returns env backend c path hash := by
  intro returns
  obtain ⟨row, stored, -, gone⟩ := returns.lost
  exact gone (backed row stored)

/-! ### A text that is edited and restored -/

def notesUpdate (text : String) : Invocation := .update none true fun _ => .walked none (notesWalk (.ok (notesDoc text)))

def addedNotes : Disk String :=
  (Disk.empty : Disk String).run ((Invocation.add notesCollection (notesWalk (.ok (notesDoc "alpha")))).command sampleEnv) []

def embeddedNotes : Disk String := addedNotes.run ((Invocation.embed gemma none false).command sampleEnv) []

def editedNotes : Disk String := embeddedNotes.run ((notesUpdate "beta").command sampleEnv) []

/-- Death in the reclaim after the pass, between the save and the deletion of the rows. -/
def cutAtReclaim : List (Fate FaultKind) := List.replicate 10 .proceed ++ [.die]

/-- The edited text is embedded; the reclaim of the text before is cut. -/
def reclaimedNotes : Disk String := editedNotes.run ((Invocation.embed gemma none false).command sampleEnv) cutAtReclaim

/-- The edit is undone. -/
def restoredNotes : Disk String := reclaimedNotes.run ((notesUpdate "alpha").command sampleEnv) []

instance (d : Disk V) : Decidable d.Backed :=
  inferInstanceAs (Decidable (∀ row ∈ d.db.vectors.rows, row.vid ∈ d.savedVids))

theorem backed_empty : (Disk.empty : Disk String).Backed := fun row none => absurd none (Table.not_mem_empty row)

theorem reaches_reclaimed : Reaches (Ran sampleEnv) (returnless sampleEnv gemma) Disk.empty reclaimedNotes := by
  have add : Reaches (Ran sampleEnv) (returnless sampleEnv gemma) Disk.empty addedNotes :=
    Ran.next .refl _ [] (fun _ _ _ _ => backed_empty.spares) trivial
  have passed : ((embedThrough sampleEnv gemma none false) [] (addedNotes.open false)).completed = true := by decide +kernel
  have embed : Reaches (Ran sampleEnv) (returnless sampleEnv gemma) Disk.empty embeddedNotes :=
    Ran.next add (.embed gemma none false) [] trivial passed
  have backed : embeddedNotes.Backed := by decide +kernel
  have edit : Reaches (Ran sampleEnv) (returnless sampleEnv gemma) Disk.empty editedNotes :=
    Ran.next embed (notesUpdate "beta") [] (fun _ _ _ _ => backed.spares) trivial
  have through : ((embedThrough sampleEnv gemma none false) cutAtReclaim (editedNotes.open false)).completed = true := by
    decide +kernel
  exact Ran.next edit (.embed gemma none false) cutAtReclaim trivial through

theorem whole_of_run_reclaimed : reclaimedNotes.Whole sampleEnv gemma :=
  whole_of_run Disk.whole_empty reaches_reclaimed

/-- The edit is undone: the text counts as embedded by the row the cut reclaim left, and its vector is gone. -/
theorem whole_lost : Reaches (Ran sampleEnv) always Disk.empty restoredNotes ∧ ¬ restoredNotes.Whole sampleEnv gemma := by
  constructor
  · have reclaimed : Reaches (Ran sampleEnv) always Disk.empty reclaimedNotes :=
      reaches_reclaimed.mono fun _ _ _ _ _ => trivial
    exact reclaimed.next trivial (.ran _ (notesUpdate "alpha") [] trivial)
  · intro whole
    have lost : ∃ row ∈ restoredNotes.db.vectors.rows,
        (∃ doc ∈ restoredNotes.db.documents.rows, doc.active = true ∧ doc.hash = row.hash) ∧
        needsEmbed sampleEnv gemma [] restoredNotes.db row.hash = false ∧ row.vid ∉ restoredNotes.savedVids := by
      decide +kernel
    obtain ⟨row, stored, active, embedded, gone⟩ := lost
    exact gone (whole row stored ⟨active, embedded⟩)

end Rqmd
