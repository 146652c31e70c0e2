import Rqmd.Statements
import Rqmd.Pending

/-! Every document belongs to a collection the index lists, after any commands, wherever they were cut. Embedding
keeps whatever is said of texts, documents and collections alone. -/

namespace Rqmd
open Interrupt

variable {V : Type} {env : Env V} {faults : Faults FaultKind} {c : CollectionName} {holds : Db → Prop}

/-- A condition on texts, documents and collections alone. -/
def OnTexts (holds : Db → Prop) : Prop := ∀ db after, Db.SameTexts db after → holds db → holds after

/-- What leaves the rows alone keeps a condition on them. -/
theorem keptBySave_rows (holds : Db → Prop) : KeptBySave fun s : Store V => holds s.db :=
  ⟨⟨fun _ _ _ _ => id⟩, fun _ _ => id, fun _ => id⟩

theorem preserves_rows {context : Failure} {f : Db → Db} {events : List Event} (closed : ∀ db, holds db → holds (f db)) :
    Preserves faults (fun s : Store V => holds s.db) (Store.sqlExecute context f events) := fun s here =>
  Store.wp_sqlExecute (closed s.db here) (fun _ _ => here) fun _ => here

theorem preserves_reopen {readOnly : Bool} :
    Preserves faults (fun s : Store V => holds s.db) (Store.reopen readOnly) := .modify fun _ => id

/-! ### Embedding -/

/-- What `embed --rebuild` clears before its pass. -/
def clearVectors : Option CollectionName → Command V Unit
  | some name => clearScoped name
  | none => clearUnscoped

theorem runEmbed_cleared (backend : Backend) (collection : Option CollectionName) (rebuild : Bool) :
    runEmbed env backend collection rebuild = (do
      Store.reopen true
      let selected ← Prog.query fun s => selectCollections s.db collection
      let cols ← Prog.ofExcept selected
      if cols.isEmpty then
        pure ()
      else if rebuild then
        clearVectors collection
        Store.reopen false
        embedCollections env backend cols true
      else
        Store.reopen true
        if (← Prog.query fun s => pendingEmbedCount env backend s.db) = 0 then
          pure ()
        else
          Store.reopen false
          embedCollections env backend cols false : Command V Unit) := by
  cases collection <;> rfl

namespace OnTexts

variable (bound : OnTexts holds)

include bound

theorem execute {context : Failure} {f : Db → Db} {events : List Event} (texts : ∀ db, Db.SameTexts db (f db)) :
    Preserves faults (fun s : Store V => holds s.db) (Store.sqlExecute context f events) :=
  preserves_rows fun db => bound db _ (texts db)

omit bound in
theorem evict (vids : List Nat) : Preserves faults (fun s : Store V => holds s.db) (Store.evictHnswVectors vids) := by
  unfold Store.evictHnswVectors
  exact .ite (.pure ()) (.bind (.query _) fun _ => .ite (.throw _) (.modify fun _ => id))

theorem reclaim (hashes : List String) :
    Preserves faults (fun s : Store V => holds s.db) (Store.reclaimVectorsOf hashes) := by
  unfold Store.reclaimVectorsOf Store.evictHash
  refine .ite (.pure ()) (.bind ?_ fun _ => .bind (keptBySave_rows holds).flush fun _ => ?_)
  · exact .forEach (fun hash => .bind (.query _) fun vids => evict vids) hashes
  · exact bound.execute fun db => (Db.texts_deleteVectors hashes db).1

theorem reclaimOrphaned : Preserves faults (fun s : Store V => holds s.db) Store.reclaimOrphanedVectors :=
  .bind (.query _) fun hashes => bound.reclaim hashes

theorem embedPass {backend : Backend} {cols : List Collection} {s : Store V} (here : holds s.db)
    (writable : s.hnsw.readOnly = false) :
    wp Faults.any (embedPass env backend cols) (Ends.all fun t => holds t.db) s := by
  have left : ∀ t : Store V, Left env backend (s.db.excludedDocs env.globs) (.of s) t → holds t.db := by
    intro t passed
    obtain ⟨m, run, rfl⟩ := passed
    exact bound _ _ (texts_of_passes run) here
  exact wp_mono (wp_embedPass writable) (fun _ t ended => left t ended.1.left) (fun _ => left) left

theorem embedCollections {backend : Backend} {cols : List Collection} {rebuild : Bool} {s : Store V} (here : holds s.db)
    (writable : s.hnsw.readOnly = false) :
    wp Faults.any (embedCollections env backend cols rebuild) (Ends.all fun t => holds t.db) s := by
  have onward : ∀ t : Store V, holds t.db → t.hnsw.readOnly = false → wp Faults.any (do
      let result ← Rqmd.embedPass env backend cols
      Store.reclaimOrphanedVectors
      Prog.ofExcept (finishEmbed result.1 result.2) : Command V Unit) (Ends.all fun t => holds t.db) t := by
    intro t here writable
    refine wp_bind (wp_mono (bound.embedPass here writable) (fun result u after => ?_) (fun _ _ => id) fun _ => id)
    exact Preserves.bind bound.reclaimOrphaned (fun _ => .ofExcept _) u after
  unfold Rqmd.embedCollections
  cases rebuild with
  | true => exact onward s here writable
  | false =>
    refine wp_bind (Store.wp_sqlExecute ?_ (fun _ _ => here) fun _ => here)
    exact onward _ (bound _ _ keyed_same.1 here) writable

theorem clearVectors (collection : Option CollectionName) :
    Preserves faults (fun s : Store V => holds s.db) (clearVectors collection) := by
  cases collection with
  | some name =>
    refine .bind preserves_reopen fun _ => .bind (.query _) fun vids => .bind (evict vids) fun _ => ?_
    exact .bind (bound.execute fun _ => ⟨rfl, rfl, rfl, rfl⟩) fun _ => (keptBySave_rows holds).flush
  | none =>
    refine .bind (.effect fun _ => id) fun _ => .bind preserves_reopen fun _ => ?_
    exact bound.execute fun _ => ⟨rfl, rfl, rfl, rfl⟩

theorem runEmbed (backend : Backend) (collection : Option CollectionName) (rebuild : Bool) :
    Preserves Faults.any (fun s : Store V => holds s.db) (runEmbed env backend collection rebuild) := by
  rw [runEmbed_cleared]
  refine .bind preserves_reopen fun _ => .bind (.query _) fun selected => .bind (.ofExcept _) fun cols => ?_
  have work : ∀ rebuild, Preserves Faults.any (fun s : Store V => holds s.db) (do
      Store.reopen false
      Rqmd.embedCollections env backend cols rebuild : Command V Unit) := by
    intro rebuild s here
    exact wp_bind (wp_modify (bound.embedCollections here openHnsw_writable))
  refine .ite (.pure ()) (.ite ?_ (.bind preserves_reopen fun _ => .bind (.query _) fun count => .ite (.pure ()) (work _)))
  exact .bind (bound.clearVectors collection) fun _ => work true

end OnTexts

/-! ### Documents and their collections -/

namespace Db

variable {db after : Db}

/-- Every document belongs to a collection the index lists. -/
def Owned (db : Db) : Prop := ∀ doc ∈ db.documents, ∃ col ∈ db.collections, col.name = doc.collection

/-- The same collections; a document in none of those before is in `c`. -/
structure Adds (c : CollectionName) (db after : Db) : Prop where
  collections : ∀ col ∈ db.collections, ∃ other ∈ after.collections, other.name = col.name
  documents : ∀ doc ∈ after.documents, doc.collection = c ∨ ∃ old ∈ db.documents, old.collection = doc.collection

theorem Owned.adds (owned : db.Owned) (adds : db.Adds c after) (listed : ∃ col ∈ db.collections, col.name = c) :
    after.Owned ∧ ∃ col ∈ after.collections, col.name = c := by
  have still : ∀ name, (∃ col ∈ db.collections, col.name = name) → ∃ col ∈ after.collections, col.name = name := by
    intro name known
    obtain ⟨col, inside, rfl⟩ := known
    exact adds.collections col inside
  refine ⟨fun doc stored => ?_, still c listed⟩
  rcases adds.documents doc stored with new | old
  · exact new ▸ still c listed
  · obtain ⟨before, there, same⟩ := old
    exact same ▸ still _ (owned before there)

theorem adds_mapDocuments {f : Document → Document}
    {same : ∀ d, (f d).id = d.id ∧ (f d).collection = d.collection ∧ (f d).path = d.path}
    {hash : ∀ d, (f d).hash = d.hash} : db.Adds c (db.mapDocuments f same hash) := by
  refine ⟨fun col inside => ⟨col, inside, rfl⟩, fun doc stored => .inr ?_⟩
  have rows : doc ∈ db.documents.rows.map f := stored
  obtain ⟨old, inside, rfl⟩ := List.mem_map.mp rows
  exact ⟨old, inside, (same old).2.1.symm⟩

theorem owned_onTexts : OnTexts Owned := by
  intro db after texts owned doc stored
  obtain ⟨old, inside, same⟩ := texts.before_document stored
  rw [(Document.alike same).collection, texts.collections]
  exact owned old inside

/-- The collections of a pass are listed too. -/
def OwnedWith (cols : List Collection) (db : Db) : Prop :=
  db.Owned ∧ ∀ col ∈ cols, ∃ other ∈ db.collections, other.name = col.name

theorem OwnedWith.adds {cols : List Collection} {col : Collection} (owned : db.OwnedWith cols) (member : col ∈ cols)
    (adds : db.Adds col.name after) : after.OwnedWith cols := by
  refine ⟨(owned.1.adds adds (owned.2 col member)).1, fun other inside => ?_⟩
  obtain ⟨known, there, same⟩ := owned.2 other inside
  obtain ⟨later, found, equal⟩ := adds.collections known there
  exact ⟨later, found, equal.trans same⟩

theorem owned_setConfig (key value : String) (owned : db.Owned) : (db.setConfig key value).Owned := owned

theorem ownedWith_upsertCollection (col : Collection) (owned : db.Owned) : (db.upsertCollection col).OwnedWith [col] := by
  have still : ∀ name, (∃ old ∈ db.collections, old.name = name) ∨ name = col.name →
      ∃ other ∈ (db.upsertCollection col).collections, other.name = name := by
    intro name known
    unfold upsertCollection
    split
    · next fresh =>
      rcases known with ⟨old, inside, same⟩ | rfl
      · exact ⟨old, (Table.mem_append fresh).mpr (.inl inside), same⟩
      · exact ⟨col, (Table.mem_append fresh).mpr (.inr rfl), rfl⟩
    · next taken =>
      simp only [not_forall, not_not] at taken
      obtain ⟨clashing, there, clash⟩ := taken
      have equal : clashing.name = col.name := clash
      obtain ⟨old, inside, same⟩ : ∃ old ∈ db.collections, old.name = name := by
        rcases known with old | rfl
        · exact old
        · exact ⟨clashing, there, equal⟩
      refine ⟨if old.name = col.name then col else old, List.mem_map.mpr ⟨old, inside, rfl⟩, ?_⟩
      split
      · next own => exact own.symm.trans same
      · exact same
  have documents : (db.upsertCollection col).documents = db.documents := by
    unfold upsertCollection
    split <;> rfl
  refine ⟨fun doc stored => still _ (.inl (owned doc (documents ▸ stored))), fun other member => ?_⟩
  rw [List.mem_singleton.mp member]
  exact still _ (.inr rfl)

/-- No document is left in the collection. -/
def OwnedApart (name : CollectionName) (db : Db) : Prop := db.Owned ∧ ∀ doc ∈ db.documents, doc.collection ≠ name

theorem ownedApart_deleteCollection {name : CollectionName} (owned : db.OwnedApart name) :
    (db.deleteCollection name).OwnedApart name := by
  refine ⟨fun doc stored => ?_, owned.2⟩
  obtain ⟨col, inside, same⟩ := owned.1 doc stored
  refine ⟨col, Table.mem_deleteWhere.mpr ⟨inside, fun gone => ?_⟩, same⟩
  exact owned.2 doc stored (same.symm.trans (beq_iff_eq.mp gone))

theorem owned_setEmbedRules (name : CollectionName) (ignore : List String) (maxBytes : Option Nat) (owned : db.Owned) :
    (db.setCollectionEmbedRules name ignore maxBytes).Owned := by
  intro doc stored
  obtain ⟨col, inside, same⟩ := owned doc stored
  refine ⟨withEmbedRules name ignore maxBytes col, List.mem_map.mpr ⟨col, inside, rfl⟩, ?_⟩
  unfold withEmbedRules
  split <;> exact same

theorem owned_renameCollection {old new : CollectionName} (ok : db.renameCollection old new = .ok after)
    (owned : db.Owned) : after.Owned := by
  unfold renameCollection at ok
  split at ok
  · split at ok
    · cases ok
    · next collections amended =>
      simp only [Except.ok.injEq] at ok
      subst ok
      intro doc stored
      have rows : doc ∈ db.documents.rows.map (moveDocument old new) := stored
      obtain ⟨before, there, rfl⟩ := List.mem_map.mp rows
      obtain ⟨col, inside, same⟩ := owned before there
      refine ⟨_, (Table.mem_amend? amended).mpr ⟨col, inside, rfl⟩, ?_⟩
      unfold moveDocument
      by_cases moved : before.collection = old
      · simp [moved, same]
      · simp [moved, same]
  · cases ok

end Db

theorem PassStatement.adds {offered : String → String → Prop} {db after : Db} (statement : PassStatement c offered db after) :
    db.Adds c after := by
  cases statement with
  | content hash doc =>
    have beside := @Db.beside_upsertContent db hash doc
    refine ⟨fun col inside => ⟨col, beside.collections.symm ▸ inside, rfl⟩, fun doc stored => .inr ?_⟩
    rw [Db.documents_upsertContent] at stored
    exact ⟨doc, stored, rfl⟩
  | document _ path title hash id offer changed written =>
    have done := Db.upserted_of_ok written
    refine ⟨fun col inside => ⟨col, done.collections.symm ▸ inside, rfl⟩, fun doc stored => ?_⟩
    by_cases here : (doc.collection, doc.path) = (c, path)
    · exact .inl (Prod.mk.inj here).1
    · have before := done.others doc.collection doc.path here
      rw [Db.lookup_iff.mpr ⟨stored, rfl, rfl⟩] at before
      obtain ⟨inside, -⟩ := Db.mem_lookup before.symm
      exact .inr ⟨doc, inside, rfl⟩
  | raw id raw => exact Db.adds_mapDocuments
  | stat path stat => exact Db.adds_mapDocuments
  | deactivated paths => exact Db.adds_mapDocuments

/-! ### Commands -/

theorem passKeeps_ownedWith {cols : List Collection} {col : Collection} (member : col ∈ cols) :
    PassKeeps col.name (fun _ _ => True) fun s : Store V => s.db.OwnedWith cols :=
  ⟨keptBySave_rows _, fun _ _ _ statement _ owned => owned.adds member statement.adds⟩

theorem preserves_updateEach_owned {full : Bool} {scan : CollectionName → Scan} {all : List Collection}
    (cols : List Collection) : ∀ clean, (∀ col ∈ cols, col ∈ all) →
    Preserves Faults.any (fun s : Store V => s.db.OwnedWith all) (updateEach env full scan cols clean) := by
  induction cols with
  | nil => exact fun _ _ => .pure _
  | cons col cols ih =>
    intro clean among
    have pass : Preserves Faults.any (fun s : Store V => s.db.OwnedWith all)
        (updateOneCollection env col.name full (scan col.name)) :=
      (passKeeps_ownedWith (among col List.mem_cons_self)).update full (scan col.name)
    unfold updateEach
    refine .bind (.poll _) fun stopped => .ite (.throw _) (.bind pass fun outcome => .ite (.throw _) ?_)
    exact ih _ fun other member => among other (List.mem_cons_of_mem _ member)

theorem selectCollections_listed {db : Db} {collection : Option CollectionName} {cols : List Collection}
    (selected : selectCollections db collection = .ok cols) : ∀ col ∈ cols, col ∈ db.collections := by
  cases collection with
  | none =>
    cases selected
    exact fun _ => id
  | some name =>
    cases found : db.findCollection name with
    | none =>
      simp only [selectCollections, found] at selected
      cases selected
    | some col =>
      simp only [selectCollections, found] at selected
      cases selected
      intro other member
      rw [List.mem_singleton.mp member]
      exact (Table.find?_some found).1

theorem runUpdate_owned (collection : Option CollectionName) (full : Bool) (scan : CollectionName → Scan) :
    Preserves Faults.any (fun s : Store V => s.db.Owned) (runUpdate env collection full scan) := by
  intro s owned
  unfold runUpdate
  refine wp_bind (wp_modify (wp_bind (wp_query (wp_bind (wp_ofExcept (fun cols selected => ?_) fun _ _ => owned)))))
  refine wp_ite (wp_pure owned) (wp_bind (wp_modify ?_))
  have start : s.db.OwnedWith cols :=
    ⟨owned, fun col member => ⟨col, selectCollections_listed selected col member, rfl⟩⟩
  refine (preserves_updateEach_owned cols true fun _ => id).through (fun _ => And.left) start fun clean t after => ?_
  have config : ∀ key value, Preserves Faults.any (fun s : Store V => s.db.Owned)
      (Store.sqlExecute "set config" (fun db => db.setConfig key value) []) :=
    fun key value => preserves_rows fun db => db.owned_setConfig key value
  have rest : Preserves Faults.any (fun s : Store V => s.db.Owned) (do
      Store.reclaimOrphanedVectors
      if collection.isNone && clean then
        Store.sqlExecute "set config" (fun db => db.setConfig rawSplitSchemaKey "1") []
      else
        pure ()
      if collection.isNone && (← Prog.query fun s => (s.db.getConfig rawSplitSchemaKey).isSome) then
        Store.rebuildFtsIfNeeded env
      else
        pure () : Command V Unit) := by
    refine .bind Db.owned_onTexts.reclaimOrphaned fun _ => .onlyIf () (config _ _) fun _ => ?_
    exact .bind (.query _) fun known => .ite ((keptBySave_rows Db.Owned).rebuildFtsIfNeeded (config _ _)) (.pure ())
  exact rest t after.1

theorem addCollection_owned (col : Collection) (walk : Walk) :
    Preserves Faults.any (fun s : Store V => s.db.Owned) (addCollection env col walk) := by
  intro s owned
  unfold addCollection
  refine wp_bind (wp_modify (wp_bind (wp_query (wp_bind (Store.wp_sqlExecute ?_ (fun _ _ => owned) fun _ => owned)))))
  have listed : (readded (s.db.findCollection col.name) col).name = col.name := by
    unfold readded
    split <;> rfl
  have keeps : PassKeeps (readded (s.db.findCollection col.name) col).name (fun _ _ => True) fun t : Store V =>
      t.db.OwnedWith [readded (s.db.findCollection col.name) col] := passKeeps_ownedWith List.mem_cons_self
  rw [listed] at keeps
  have files : Preserves Faults.any (fun t : Store V => t.db.OwnedWith [readded (s.db.findCollection col.name) col])
      (Prog.forEach (addFile env col.name) walk.files) :=
    .forEach (fun file => keeps.addFile fun _ _ _ => trivial) walk.files
  refine files.through (fun _ => And.left) ?_ fun _ t after => (keptBySave_rows Db.Owned).flush t after.1
  exact Db.ownedWith_upsertCollection _ owned

/-- The documents of the collection go before its entry does. -/
theorem removeCollection_owned (name : CollectionName) :
    Preserves Faults.any (fun s : Store V => s.db.Owned) (removeCollection env name) := by
  have apart : ∀ {context : Failure} {f : Db → Db} {events : List Event},
      (∀ db, Db.OwnedApart name db → Db.OwnedApart name (f db)) →
      Preserves Faults.any (fun s : Store V => s.db.OwnedApart name) (Store.sqlExecute context f events) := preserves_rows
  unfold removeCollection purgeCollection
  refine .bind preserves_reopen fun _ => .bind (.query _) fun known => .ite (.throw _) (.bind ?_ fun filepaths => ?_)
  · refine .bind (.query _) fun filepaths => fun s owned => ?_
    refine wp_bind (Store.wp_sqlExecute ?_ (fun _ _ => owned) fun _ => owned)
    have gone : ({ s with db := s.db.deleteDocuments name, log := s.log ++ [.collectionPurged] } : Store V).db.OwnedApart
        name := by
      refine ⟨fun doc stored => owned doc (Table.mem_deleteWhere.mp stored).1, fun doc stored own => ?_⟩
      exact (Table.mem_deleteWhere.mp stored).2 (beq_iff_eq.mpr own)
    refine Preserves.through (apart fun _ => id) (fun _ => And.left) gone fun _ t here => ?_
    refine Preserves.through (apart fun _ => id) (fun _ => And.left) here fun _ t here => ?_
    refine Preserves.through (apart fun _ => Db.ownedApart_deleteCollection) (fun _ => And.left) here fun _ t here => ?_
    exact Preserves.through (apart fun _ => id) (fun _ => And.left) here fun _ t here => wp_pure here.1
  · refine .bind (.forEach (fun path => (keptBySave_rows Db.Owned).removeStaleEntry path) filepaths) fun _ => ?_
    exact .bind Db.owned_onTexts.reclaimOrphaned fun _ => (keptBySave_rows Db.Owned).flush

theorem setCollection_owned (name : CollectionName) (ignore : Option (List String)) (maxBytes : Option (Option Nat)) :
    Preserves Faults.any (fun s : Store V => s.db.Owned) (setCollection name ignore maxBytes) := by
  unfold setCollection
  refine .ite (.throw _) (.bind preserves_reopen fun _ => .bind (.query _) fun found => ?_)
  cases found with
  | none => exact .throw _
  | some col => exact preserves_rows fun db => db.owned_setEmbedRules name _ _

theorem runRename_owned (old : CollectionName) (new : String) :
    Preserves Faults.any (fun s : Store V => s.db.Owned) (runRename env old new) := by
  unfold runRename
  refine .bind (.ofExcept _) fun name => .bind preserves_reopen fun _ => ?_
  refine .bind (.query _) fun known => .ite (.throw _) (.bind (.query _) fun taken => .ite (.throw _) ?_)
  exact (keptBySave_rows Db.Owned).renameCollection fun _ _ renamed owned => Db.owned_renameCollection renamed owned

theorem runCleanup_owned : Preserves Faults.any (fun s : Store V => s.db.Owned) (runCleanup env) := by
  unfold runCleanup Store.reclaimExcludedVectors
  refine .bind preserves_reopen fun _ => .bind Db.owned_onTexts.reclaimOrphaned fun _ => .bind (.query _) fun excluded => ?_
  exact .bind (.bind (.query _) fun hashes => Db.owned_onTexts.reclaim hashes) fun _ => preserves_rows fun _ => id

theorem Invocation.command_owned (invocation : Invocation) :
    Preserves Faults.any (fun s : Store V => s.db.Owned) (invocation.command env) := by
  cases invocation with
  | update collection full scan => exact runUpdate_owned collection full scan
  | add col walk => exact addCollection_owned col walk
  | remove name => exact removeCollection_owned name
  | rename old new => exact runRename_owned old new
  | set name ignore maxBytes => exact setCollection_owned name ignore maxBytes
  | embed backend collection rebuild => exact Db.owned_onTexts.runEmbed backend collection rebuild
  | cleanup => exact runCleanup_owned

/-- After any history every document belongs to a listed collection. -/
theorem Disk.owned_after (history : History) : ∀ d : Disk V, d.db.Owned → (d.after env history).db.Owned := by
  induction history with
  | nil => exact fun _ => id
  | cons entry history ih =>
    intro d owned
    refine ih _ ?_
    have ended : wp Faults.any (entry.1.command env) (Ends.all fun s : Store V => s.db.Owned) (d.open false) :=
      entry.1.command_owned _ owned
    exact wp_final ended fun fate (_ : fate ∈ entry.2) => any_allows fate

end Rqmd
