import Rqmd.Ownership
import Rqmd.Purge
import Rqmd.Tracking

/-! An update or an addition under any fates. However it ends, the committed entries follow the rows, unless a row was
changed after the last commit or a failed full-text write was passed over. -/

namespace Rqmd
open Interrupt

variable {V α : Type} {env : Env V} {faults : Faults FaultKind} {s t : Store V} {c : CollectionName}
  {base : List Event} {due : Db → Prop}

namespace Store

/-- The command goes on from a store of this kind, or leaves what it may leave. -/
def leading (env : Env V) (faults : Faults FaultKind) (due : Db → Prop) (base : List Event) (keep : Store V → Prop) :
    Ends (Store V) Failure α :=
  ⟨fun _ => keep, fun _ t => t.disk.Halted env faults due base, fun t => t.disk.Halted env faults due base⟩

def following (env : Env V) (faults : Faults FaultKind) (due : Db → Prop) (base : List Event) :
    Ends (Store V) Failure α :=
  leading env faults due base (Follows env faults due base)

def resting (env : Env V) (faults : Faults FaultKind) (due : Db → Prop) (base : List Event) :
    Ends (Store V) Failure α :=
  leading env faults due base (AtRest env faults due base)

end Store

theorem possible_of_fault {kind : FaultKind} (raised : faults.fault kind) : faults.Possible := .inr ⟨kind, raised⟩

/-! ### One file -/

theorem halfway_halted {p : String} {doc : PreparedDoc} (lasting : Db.Lasting due)
    (here : s.Follows env faults due base) (faulty : faults.Possible)
    (half : Store.Halfway env c p doc s t) : t.disk.Halted env faults due base := by
  cases half with
  | before db unmoved => exact (here.carried (.unmoved lasting unmoved)).halted faulty
  | after db id fts own changed written torn =>
    obtain ⟨events, tracked⟩ := here
    exact tracked.torn faulty [] (.documentWritten id) rfl (by simp)

theorem halfway_warned {p : String} {doc : PreparedDoc} (here : s.Follows env faults due base)
    (faulty : faults.Possible)
    (half : Store.Halfway env c p doc s t) : t.warned.Follows env faults due base := by
  obtain ⟨events, tracked⟩ := here
  cases half with
  | before db unmoved => exact ⟨_, tracked.warned faulty [.warned] rfl rfl (by decide)⟩
  | after db id fts own changed written torn =>
    refine ⟨_, tracked.warned faulty [.documentWritten id, .warned] rfl ?_ (by simp)⟩
    simp [Store.warned]

theorem stopped_halted {p : String} {doc : PreparedDoc} (lasting : Db.Lasting due)
    (here : s.Follows env faults due base) (faulty : faults.Possible)
    (terms : env.pathTerms (filepath c p) ≠ []) (stop : Store.Stopped env c p doc s t) :
      t.disk.Halted env faults due base := by
  cases stop with
  | halfway _ half => exact halfway_halted lasting here faulty half
  | indexed db id written own changed => exact (here.indexed lasting own terms written).halted faulty

theorem wp_indexFile_follows {cache : List (String × FileStat)} {file : WalkedFile} {tally : UpdateTally}
    (lasting : Db.Lasting due) (here : s.Follows env faults due base)
    (terms : env.pathTerms (filepath c file.relPath) ≠ []) :
    wp faults (indexFile env c cache file tally) (Store.following env faults due base) s := by
  apply wp_indexFile
  · exact fun _ _ => here
  · exact fun doc _ _ _ db unmoved _ => here.carried (.unmoved lasting unmoved)
  · exact fun doc _ _ db id written own _ _ => here.indexed lasting own terms written
  · intro raised doc _ _ u half _
    have faulty : faults.Possible := raised.elim possible_of_fault possible_of_fault
    exact halfway_warned here faulty half
  · exact fun raised doc _ _ u stop _ => stopped_halted lasting here (possible_of_fault raised) terms stop
  · exact fun dead doc _ _ u stop => stopped_halted lasting here (.inl dead) terms stop

theorem wp_indexFiles_follows {cache : List (String × FileStat)} (lasting : Db.Lasting due) (files : List WalkedFile)
    (terms : ∀ file ∈ files, env.pathTerms (filepath c file.relPath) ≠ []) (tally : UpdateTally) (s : Store V)
    (here : s.Follows env faults due base) :
    wp faults (indexFiles env c cache files tally) (Store.following env faults due base) s := by
  induction files generalizing tally s with
  | nil => exact wp_pure here
  | cons file files ih =>
    have later := ih fun other member => terms other (List.mem_cons_of_mem _ member)
    unfold indexFiles
    refine wp_bind (wp_poll ?_ (fun _ => wp_pure here) fun dead => here.halted (.inl dead))
    refine wp_bind (wp_mono (wp_indexFile_follows lasting here (terms file List.mem_cons_self)) ?_
      (fun _ _ => id) fun _ => id)
    exact fun tally t next => later tally t next

/-! ### The sweep -/

/-- The rows are marked as gone; the entries of those at `rest` are still to go. -/
def Store.Sweeps (env : Env V) (faults : Faults FaultKind) (due : Db → Prop) (base : List Event) (c : CollectionName)
    (rest : List String) (s : Store V) : Prop :=
  ∃ events, s.Tracked env faults due base (fun s => s.Sweeping env (due s.db) c rest) events

theorem rowsWait_deactivated {events : List Event} {chunks : List (List String)}
    (calm : rowsWait (events ++ chunks.map .documentsDeactivated) = false) : chunks = [] := by
  by_contra some
  have split := List.dropLast_append_getLast some
  rw [← split, List.map_append, List.map_singleton, ← List.append_assoc, rowsWait_snoc] at calm
  simp [Event.changesRows] at calm

theorem deactivated_nothing : Store.deactivated c s [] = s := by simp [Store.deactivated]

theorem deactivated_halted {chunks : List (List String)} (here : s.Follows env faults due base)
    (faulty : faults.Possible) :
    (Store.deactivated c s chunks).disk.Halted env faults due base := by
  by_cases none : chunks = []
  · rw [none, deactivated_nothing]
    exact here.halted faulty
  · obtain ⟨events, tracked⟩ := here
    have split := List.dropLast_append_getLast none
    apply tracked.torn faulty (chunks.dropLast.map .documentsDeactivated)
      (.documentsDeactivated (chunks.getLast none)) rfl
    change s.log ++ chunks.map .documentsDeactivated = _
    conv => lhs; rw [← split, List.map_append, List.map_singleton, ← List.append_assoc]

theorem deactivated_sweeps {chunks : List (List String)} {present : List String} (lasting : Db.Lasting due)
    (here : s.Follows env faults due base) (all : chunks.flatten = s.db.missingDocuments c present) :
    (Store.deactivated c s chunks).Sweeps env faults due base c (s.db.missingDocuments c present) := by
  obtain ⟨events, tracked⟩ := here
  have beside := Store.beside_deactivated c s chunks (Store.contentRow env ⟨"", "", ""⟩)
  have unwarned : .warned ∉ events ++ chunks.map .documentsDeactivated → .warned ∉ events :=
    fun none found => none (List.mem_append_left _ found)
  refine ⟨events ++ chunks.map .documentsDeactivated, ?_, fun found => ?_, tracked.writable,
    fun none => ?_, fun none calm => ?_⟩
  · change s.log ++ _ = _
    rw [tracked.log, List.append_assoc]
  · rcases List.mem_append.mp found with before | now
    · exact tracked.excused before
    · obtain ⟨chunk, -, same⟩ := List.mem_map.mp now
      cases same
  · have abreast := tracked.working (unwarned none)
    have wide : s.Abreast env (due (Store.deactivated c s chunks).db) :=
      abreast.carried rfl (fun _ _ => rfl) (Nat.le_refl _) abreast.hashed (lasting _ _ beside.config)
    exact .begun wide all
  · have nothing := rowsWait_deactivated calm
    subst nothing
    rw [deactivated_nothing]
    rw [List.map_nil, List.append_nil] at calm
    exact tracked.disk (unwarned none) calm

/-- A delete that is performed or passed over with a warning. -/
theorem wp_removeStale_tracked {filepath : String} {good next : Store V → Prop}
    (here : ∃ events, s.Tracked env faults due base good events)
    (deleted : good s → next { s with fts := s.fts.deleted env filepath }) :
    wp faults (Store.removeStaleEntry env filepath) (Store.leading env faults due base
      fun t => ∃ events, t.Tracked env faults due base next events) s := by
  obtain ⟨events, tracked⟩ := here
  apply Store.wp_removeStaleEntry
  · have same : Store.disk { s with fts := s.fts.deleted env filepath } = s.disk := by
      simp only [Store.disk, FtsIndex.committed_deleted, FtsIndex.frontmatterField_deleted]
    refine ⟨events, tracked.log, tracked.excused, tracked.writable,
      fun none => deleted (tracked.working none), fun none calm => ?_⟩
    rw [same]
    exact tracked.disk none calm
  · intro raised
    have faulty := possible_of_fault raised
    exact ⟨⟨_, tracked.warned faulty [.warned] rfl rfl (by decide)⟩,
      ⟨_, tracked.warned faulty [.warned] rfl rfl (by decide)⟩⟩
  · exact fun dead => ⟨tracked.halted (.inl dead), tracked.halted (.inl dead)⟩

theorem wp_pruneMissing_follows {walk : Walk} (lasting : Db.Lasting due) (here : s.Follows env faults due base) :
    wp faults (pruneMissing env c walk) (Store.following env faults due base) s := by
  unfold pruneMissing
  refine wp_ite (wp_pure here) (wp_bind (Store.wp_deactivateMissing (fun chunks all => ?_) ?_ ?_))
  · refine wp_bind (wp_forEach (fun rest t => t.Sweeps env faults due base c rest) ?_ ?_ _ _
      (deactivated_sweeps lasting here all))
    · exact fun path rest t swept => wp_removeStale_tracked swept Store.Sweeping.deleted
    · intro t swept
      obtain ⟨events, tracked⟩ := swept
      exact wp_pure ⟨events, tracked.mono Store.Sweeping.ended⟩
  · exact fun raised chunks _ _ _ => deactivated_halted here (possible_of_fault raised)
  · exact fun dead chunks _ _ => deactivated_halted here (.inl dead)

/-! ### The flush -/

theorem Store.AtRest.renamed (here : s.AtRest env faults due base) : s.renamed.AtRest env faults due base :=
  here.carried ⟨rfl, rfl, fun _ _ => rfl, Nat.le_refl _, id, id, rfl, by decide⟩

theorem Store.AtRest.saved (here : s.AtRest env faults due base) : s.saved.AtRest env faults due base :=
  here.carried ⟨rfl, rfl, fun _ _ => rfl, Nat.le_refl _, id, id, rfl, by decide⟩

theorem Store.Follows.flushed (here : s.Follows env faults due base) : s.flushed.AtRest env faults due base := by
  unfold Store.flushed
  split
  · exact here.settled.saved
  · exact here.settled

theorem Store.Follows.writable (here : s.Follows env faults due base) : s.hnsw.readOnly = false := by
  obtain ⟨_, tracked⟩ := here
  exact tracked.writable

theorem wp_flush_rests (here : s.Follows env faults due base) :
    wp faults Store.flush (Store.resting env faults due base) s := by
  apply Store.wp_flush
  · exact here.flushed
  · intro _ readOnly
    rw [here.writable] at readOnly
    cases readOnly
  · exact fun raised _ => ⟨here.halted (possible_of_fault raised), here.settled.halted⟩
  · exact fun _ _ _ _ => ⟨here.settled.halted, here.settled.renamed.halted⟩
  · exact fun dead => ⟨here.halted (.inl dead), here.settled.halted, fun _ _ => here.settled.renamed.halted⟩

/-! ### The passes -/

/-- The paths of the walked files have index terms. -/
def Scan.Termed (env : Env V) (c : CollectionName) (scan : Scan) : Prop :=
  ∀ file ∈ scan.files, env.pathTerms (filepath c file.relPath) ≠ []

theorem wp_updateOne_rests {full : Bool} {scan : Scan} (lasting : Db.Lasting due) (here : s.AtRest env faults due base)
    (terms : scan.Termed env c) :
    wp faults (updateOneCollection env c full scan) (Store.resting env faults due base) s := by
  cases scan with
  | directoryMissing => exact wp_pure here
  | hookInterrupted => exact wp_pure here
  | invalidMask hookFailure => exact wp_pure here
  | walked hookFailure walk =>
    unfold updateOneCollection
    refine wp_bind (wp_query ?_)
    refine wp_bind (wp_mono (wp_indexFiles_follows lasting walk.files terms _ s here.follows) ?_
      (fun _ _ => id) fun _ => id)
    intro result t next
    have finish : ∀ u : Store V, u.Follows env faults due base → ∀ o : CollectionOutcome,
        wp faults (do Store.flush; pure o : Command V CollectionOutcome) (Store.resting env faults due base) u :=
      fun u last o => wp_bind (wp_mono (wp_flush_rests last) (fun _ _ rested => wp_pure rested)
        (fun _ _ => id) fun _ => id)
    have swept : wp faults (pruneMissing env c walk) (Store.following env faults due base) t :=
      wp_pruneMissing_follows lasting next
    refine wp_ite (finish t next _) (wp_bind (wp_mono swept ?_ (fun _ _ => id) fun _ => id))
    exact fun removed u last => finish u last _

theorem wp_updateEach_rests {full : Bool} {scan : CollectionName → Scan} (lasting : Db.Lasting due)
    (terms : ∀ c, (scan c).Termed env c)
    (cols : List Collection) (clean : Bool) (s : Store V) (here : s.AtRest env faults due base) :
    wp faults (updateEach env full scan cols clean) (Store.resting env faults due base) s := by
  induction cols generalizing clean s with
  | nil => exact wp_pure here
  | cons col cols ih =>
    unfold updateEach
    refine wp_bind (wp_poll ?_ (fun _ => wp_throw here.halted) fun _ => here.halted)
    refine wp_bind (wp_mono (wp_updateOne_rests lasting here (terms col.name)) ?_ (fun _ _ => id) fun _ => id)
    exact fun outcome t next => wp_ite (wp_throw next.halted) (ih _ t next)

/-! ### After the passes -/

theorem Db.sequence_cleared (hashes : List String) (db : Db) :
    (hashes.foldl deleteVectorsForHash db).sequence = db.sequence := by
  induction hashes generalizing db with
  | nil => rfl
  | cons hash hashes ih => exact ih (db.deleteVectorsForHash hash)

theorem untouched_reclaimed (lasting : Db.Lasting due) (hashes : List String) (s : Store V) :
    s.Untouched env due [] { s with db := hashes.foldl Db.deleteVectorsForHash s.db, log := s.log ++ [] } := by
  obtain ⟨texts, -, documents⟩ := Db.texts_deleteVectors hashes s.db
  refine ⟨rfl, rfl, fun c p => ?_, Nat.le_of_eq (Db.sequence_cleared hashes s.db).symm, fun hashed => ?_,
    lasting _ _ texts.config, rfl, fun _ none => absurd none List.not_mem_nil⟩
  · simp only [Db.rowAt, Db.getDocumentByFilepath, documents]
  · unfold Db.Hashed
    rw [texts.content]
    exact hashed

/-- A reclaim flushes only what the update would flush, and deletes rows of vectors. -/
theorem wp_reclaim_leads {keep : Store V → Prop} (lasting : Db.Lasting due) (hashes : List String) (here : keep s)
    (follows : ∀ t, keep t → t.Follows env faults due base) (rests : ∀ t, t.AtRest env faults due base → keep t)
    (beside : ∀ t u : Store V, t.Untouched env due [] u → keep t → keep u) :
    wp faults (Store.reclaimVectorsOf hashes) (Store.leading env faults due base keep) s := by
  unfold Store.reclaimVectorsOf
  refine wp_ite (wp_pure here) (wp_bind (wp_forEach (fun _ => keep) ?_ ?_ _ _ here))
  · intro hash rest t kept
    have writable := (follows t kept).writable
    refine wp_bind (wp_query (Store.wp_evictHnswVectors writable ?_))
    exact beside t _ ⟨rfl, Store.removeVids_readOnly _ _, fun _ _ => rfl, Nat.le_refl _, id, id,
      (List.append_nil _).symm,
      fun _ none => absurd none List.not_mem_nil⟩ kept
  · intro t kept
    refine wp_bind (wp_mono (wp_flush_rests (follows t kept)) ?_ (fun _ _ => id) fun _ => id)
    intro _ u rested
    apply Store.wp_sqlExecute
    · exact rests _ (rested.carried (untouched_reclaimed lasting hashes u))
    · exact fun _ _ => rested.halted
    · exact fun _ => rested.halted

theorem wp_reclaimOrphaned_rests (lasting : Db.Lasting due) (here : s.AtRest env faults due base) :
    wp faults Store.reclaimOrphanedVectors (Store.resting env faults due base) s :=
  wp_bind (wp_query (wp_reclaim_leads lasting _ here (fun _ => Store.AtRest.follows)
    (fun _ => id) fun _ _ beside rest =>
    rest.carried beside))

theorem wp_reclaimOrphaned_follows (lasting : Db.Lasting due) (here : s.Follows env faults due base) :
    wp faults Store.reclaimOrphanedVectors (Store.following env faults due base) s :=
  wp_bind (wp_query (wp_reclaim_leads lasting _ here (fun _ => id)
    (fun _ => Store.AtRest.follows) fun _ _ beside next =>
    next.carried beside))

/-! ### The rebuild -/

namespace Db

variable {db : Db} {key value : String}

theorem getConfig_setConfig_self : (db.setConfig key value).getConfig key = some value :=
  getConfig_eq_some.mpr (List.mem_append_right _ (List.mem_singleton_self _))

theorem getConfig_setConfig_other {other : String} (apart : other ≠ key) :
    (db.setConfig key value).getConfig other = db.getConfig other := by
  apply Option.ext
  intro found
  rw [getConfig_eq_some, getConfig_eq_some]
  change ⟨other, found⟩ ∈ (db.config.deleteWhere (·.key == key)).rows ++ [_] ↔ _
  rw [List.mem_append, List.mem_singleton]
  constructor
  · intro either
    rcases either with kept | new
    · exact (Table.mem_deleteWhere.mp kept).1
    · exact absurd (congrArg ConfigRow.key new) apart
  · intro member
    exact .inl (Table.mem_deleteWhere.mpr ⟨member, by simpa using apart⟩)

theorem RebuildDue.split_done (due : db.RebuildDue) : (db.setConfig rawSplitSchemaKey "1").RebuildDue := by
  refine ⟨?_, ?_⟩
  · rw [getConfig_setConfig_other (by decide)]
    exact due.version
  · rw [getConfig_setConfig_self]
    rfl

/-- The stored text of a document has the hash of the document. -/
theorem hash_getContent {row : Document} (hashed : db.Hashed env) (member : row ∈ db.documents) :
    env.contentHash ((db.getContent row.hash).getD "") = row.hash := by
  obtain ⟨stored, inside, same⟩ := db.referenced row member
  have found : db.getContentRow row.hash = some stored := by
    unfold getContentRow
    refine Table.find?_eq_some ?_ inside (by simpa using same)
    intro a b left right
    exact (beq_iff_eq.mp left).trans (beq_iff_eq.mp right).symm
  rw [getContent, found, Option.map_some, Option.getD_some, ← hashed stored inside, same]

end Db

theorem untouched_config {key value : String} (later : due s.db → due (s.db.setConfig key value)) :
    s.Untouched env due [] { s with db := s.db.setConfig key value, log := s.log ++ [] } :=
  ⟨rfl, rfl, fun _ _ => rfl, Nat.le_refl _, id, later, rfl, fun _ none => absurd none List.not_mem_nil⟩

/-- A rebuild pairs every active row with an entry. -/
theorem paired_rebuilt {lacking : Prop} (here : s.disk.Paired env lacking) {d : Disk V}
    (documents : d.db.documents = s.db.documents) (content : d.db.content = s.db.content)
    (entries : d.entries = s.rebuilt env) : d.Paired env False := by
  have tells : ∀ row ∈ s.db.documents, ((s.db.storedDoc env row).entry env).Tells env row.hash := fun row member =>
    ⟨_, Db.hash_getContent here.hashed member, rfl⟩
  refine ⟨?_, ?_, fun e member => ?_, fun row member active => .inl ?_, fun row member gone => ?_⟩
  · unfold Db.Hashed
    rw [content]
    exact here.hashed
  · rw [documents]
    exact here.termed
  · rw [entries, Store.rebuilt, Db.storedDocs_eq, List.map_map] at member
    obtain ⟨row, chosen, rfl⟩ := List.mem_map.mp member
    refine ⟨row, ?_, rfl, rfl⟩
    rw [documents]
    exact (Table.mem_select.mp chosen).1
  · rw [documents] at member
    rw [entries, entriesOf_rebuilt member, if_pos active]
    exact ⟨_, rfl, tells row member⟩
  · rw [documents] at member
    rw [entries, entriesOf_rebuilt member, gone]
    rfl

/-- Before its commit a rebuild has kept the entries or emptied the index. -/
inductive Store.Refilling (env : Env V) (docs : List StoredDoc) (s t : Store V) : Prop
  | before (log : t.log = s.log) (kept : t.fts.committed = s.fts.committed ∨ t.fts.committed = [])
  | after (log : t.log = s.log ++ [.ftsCommitted]) (written : t.fts.committed = docs.map (StoredDoc.entry env))

theorem wp_rebuildFts_refills (docs : List StoredDoc) (s : Store V) : wp faults (Store.rebuildFts env docs)
    ⟨fun _ t => t.db = s.db ∧ t.log = s.log ++ [.ftsCommitted] ∧ t.fts.committed = docs.map (StoredDoc.entry env),
      fun _ t => t.db = s.db ∧ faults.Possible ∧ s.Refilling env docs t,
      fun t => t.db = s.db ∧ faults.Possible ∧ s.Refilling env docs t⟩ s := by
  have rows : RowsAndVectors fun t : Store V => t.db = s.db := ⟨fun _ _ _ _ same => same⟩
  have frame : wp faults (Store.rebuildFts env docs) (Ends.all fun t => t.db = s.db) s := rows.rebuildFts docs s rfl
  have stops : ∀ u t : Store V, u.log = s.log → (u.fts.committed = s.fts.committed ∨ u.fts.committed = []) →
      u.fts.frontmatterField = true → u.RebuildStops env docs t → s.Refilling env docs t := by
    intro u t log entries current stop
    cases stop with
    | before same kept =>
      refine .before (same.trans log) ?_
      rw [kept current]
      exact entries
    | after same written => exact .after (by rw [same, log]) written
  have refills : wp faults (Store.rebuildFts env docs)
      ⟨fun _ t => t.log = s.log ++ [.ftsCommitted] ∧ t.fts.committed = docs.map (StoredDoc.entry env),
        fun _ t => faults.Possible ∧ s.Refilling env docs t, fun t => faults.Possible ∧ s.Refilling env docs t⟩ s := by
    rw [rebuildFts_eq]
    refine wp_bind (wp_query ?_)
    simp only [Ends.with]
    by_cases current : s.fts.frontmatterField = true
    · rw [if_pos current]
      refine wp_refill current (fun t log written => ⟨log, written⟩) ?_ ?_
      · exact fun raised t stop _ => ⟨possible_of_fault raised, stops s t rfl (.inl rfl) current stop⟩
      · exact fun dead t stop => ⟨.inl dead, stops s t rfl (.inl rfl) current stop⟩
    · rw [if_neg current]
      have start : s.Refilling env docs s := .before rfl (.inl rfl)
      refine wp_bind (Store.wp_ftsWrite ?_ (fun raised _ => ⟨possible_of_fault raised, start⟩) fun dead =>
        ⟨.inl dead, start⟩)
      refine wp_refill rfl (fun t log written => ⟨log, written⟩) ?_ ?_
      · exact fun raised t stop _ => ⟨possible_of_fault raised, stops { s with fts := FtsIndex.recreated } t rfl
          (.inr rfl) rfl stop⟩
      · exact fun dead t stop => ⟨.inl dead, stops { s with fts := FtsIndex.recreated } t rfl (.inr rfl) rfl stop⟩
  exact wp_mono (wp_and frame refills) (fun _ _ both => both) (fun _ _ both => both) fun _ both => both

theorem refilling_halted (here : s.AtRest env faults Db.RebuildDue base) (pending : s.db.RebuildDue)
    (rows : t.db = s.db)
    (refilling : s.Refilling env (s.db.storedDocs env (·.active)) t) : t.disk.Halted env faults Db.RebuildDue base := by
  obtain ⟨events, tracked⟩ := here
  have before : .warned ∉ events → s.disk.Paired env s.db.RebuildDue := fun none =>
    ((tracked.working none).1.disk (tracked.working none).2).paired
  have still : t.db.RebuildDue := rows ▸ pending
  cases refilling with
  | before log kept =>
    refine ⟨events, log.trans tracked.log, tracked.excused, fun none _ => ?_⟩
    apply Disk.Paired.abreast
    rcases kept with same | emptied
    · exact ((before none).congr rows same).mono fun _ => still
    · refine ⟨?_, ?_, fun e member => ?_, fun row member _ => .inr ⟨still, ?_⟩, fun row member _ => ?_⟩
      · change t.db.Hashed env
        rw [rows]
        exact (before none).hashed
      · change ∀ row ∈ t.db.documents, _
        rw [rows]
        exact (before none).termed
      · change e ∈ t.fts.committed at member
        rw [emptied] at member
        cases member
      · change entriesOf t.fts.committed row.id = []
        rw [emptied]
        rfl
      · change entriesOf t.fts.committed row.id = []
        rw [emptied]
        rfl
  | after log written =>
    have committed : .warned ∉ events ++ [Event.ftsCommitted] → .warned ∉ events := fun none found =>
      none (List.mem_append_left _ found)
    refine ⟨events ++ [.ftsCommitted], ?_, fun found => ?_, fun none _ => ?_⟩
    · change t.log = _
      rw [log, tracked.log, List.append_assoc]
    · rcases List.mem_append.mp found with old | now
      · exact tracked.excused old
      · cases List.mem_singleton.mp now
    · have paired : t.disk.Paired env False :=
        paired_rebuilt (before (committed none)) (congrArg Db.documents rows) (congrArg Db.content rows) written
      exact (paired.mono False.elim).abreast

theorem wp_rebuildIfNeeded_finishes (here : s.AtRest env faults Db.RebuildDue base)
    (split : (s.db.getConfig rawSplitSchemaKey).isSome = true) :
    wp faults (Store.rebuildFtsIfNeeded env) ⟨fun _ t => t.disk.Halted env faults (fun _ => False) base,
      fun _ t => t.disk.Halted env faults Db.RebuildDue base, fun t =>
        t.disk.Halted env faults Db.RebuildDue base⟩ s := by
  unfold Store.rebuildFtsIfNeeded
  refine wp_bind (wp_query ?_)
  simp only [Ends.with]
  by_cases pending : Store.ftsRebuildPending s.db = true
  · rw [if_pos pending]
    have due : s.db.RebuildDue := by
      refine ⟨fun current => ?_, split⟩
      rw [Store.ftsRebuildPending, if_pos current] at pending
      cases pending
    refine wp_bind (wp_query (wp_bind (wp_mono (wp_rebuildFts_refills _ s) ?_ ?_ ?_)))
    · intro _ t both
      obtain ⟨rows, log, written⟩ := both
      have documents : t.db.documents = s.db.documents := congrArg Db.documents rows
      have content : t.db.content = s.db.content := congrArg Db.content rows
      have stopped : t.disk.Halted env faults Db.RebuildDue base := refilling_halted here due rows (.after log written)
      apply Store.wp_sqlExecute
      · obtain ⟨events, tracked⟩ := here
        refine ⟨events ++ [.ftsCommitted], ?_, fun found => ?_, fun none _ => ?_⟩
        · change t.log ++ [] = _
          rw [List.append_nil, log, tracked.log, List.append_assoc]
        · rcases List.mem_append.mp found with old | now
          · exact tracked.excused old
          · cases List.mem_singleton.mp now
        · have quiet : .warned ∉ events := fun found => none (List.mem_append_left _ found)
          have before := ((tracked.working quiet).1.disk (tracked.working quiet).2).paired
          exact (paired_rebuilt before documents content written).abreast
      · exact fun _ _ => stopped
      · exact fun _ => stopped
    · exact fun _ t left => refilling_halted here due left.1 left.2.2
    · exact fun t left => refilling_halted here due left.1 left.2.2
  · rw [if_neg pending]
    obtain ⟨events, tracked⟩ := here
    refine wp_pure ⟨events, tracked.log, tracked.excused, fun none _ => ?_⟩
    have paired := ((tracked.working none).1.disk (tracked.working none).2).paired
    refine Disk.Paired.abreast ⟨paired.hashed, paired.termed, paired.owned, fun row member active => ?_, paired.gone⟩
    -- with a document active, the version of the index is current
    have current : s.db.getConfig ftsTokenizerConfigKey = some ftsTokenizerVersion := by
      by_contra old
      apply pending
      rw [Store.ftsRebuildPending, if_neg old]
      exact Table.any_eq_true.mpr ⟨row, member, active⟩
    exact (paired.active row member active).imp_right fun lacking => absurd current lacking.1.version

/-! ### The command -/

theorem Store.AtRest.finished (here : s.AtRest env faults due base) (settled : ¬ due s.db) :
    s.disk.Halted env faults (fun _ => False) base := by
  obtain ⟨events, tracked⟩ := here
  refine ⟨events, tracked.log, tracked.excused, fun none _ => ?_⟩
  exact (((tracked.working none).1.disk (tracked.working none).2).paired.mono settled).abreast

theorem Disk.Halted.mono {d : Disk V} {wider : Db → Prop} (here : d.Halted env faults due base)
    (wide : due d.db → wider d.db) : d.Halted env faults wider base := by
  obtain ⟨events, log, excused, paired⟩ := here
  exact ⟨events, log, excused, fun none calm => ((paired none calm).paired.mono wide).abreast⟩

/-- However an update ends; a complete one over all collections brings the index up to date. -/
theorem wp_runUpdate_halts {d : Disk V} {collection : Option CollectionName} {full : Bool}
    {scan : CollectionName → Scan}
    (here : d.Abreast env d.db.RebuildDue) (owned : d.db.Owned) (terms : ∀ c, (scan c).Termed env c) :
    wp faults (runUpdate env collection full scan) ⟨fun _ t => t.disk.Halted env faults Db.RebuildDue d.log ∧
        (collection = none → t.disk.Halted env faults (fun _ => False) d.log),
      fun _ t => t.disk.Halted env faults Db.RebuildDue d.log, fun t => t.disk.Halted env faults Db.RebuildDue d.log⟩
      (d.open false) := by
  have start : (d.open false).AtRest env faults Db.RebuildDue d.log := .opened here rfl
  have whole : d.Halted env faults Db.RebuildDue d.log := start.halted
  unfold runUpdate
  refine wp_bind (wp_modify (wp_bind (wp_query (wp_bind (wp_ofExcept (fun cols selected => ?_) fun _ _ => whole)))))
  dsimp only [Ends.with]
  by_cases none : cols.isEmpty = true
  · rw [if_pos none]
    refine wp_pure ⟨whole, fun every => ?_⟩
    -- without a collection there is no document
    rw [every] at selected
    have all : d.db.collections.rows = cols := Except.ok.inj selected
    have paired := here.paired
    refine ⟨[], (List.append_nil _).symm, fun none => absurd none List.not_mem_nil, fun _ _ => ?_⟩
    refine Disk.Paired.abreast ⟨paired.hashed, paired.termed, paired.owned, fun row member _ => ?_, paired.gone⟩
    obtain ⟨col, inside, -⟩ := owned row member
    have member : col ∈ cols := all ▸ inside
    rw [List.isEmpty_iff.mp none] at member
    cases member
  · rw [if_neg none]
    have finish : ∀ u : Store V, u.AtRest env faults Db.RebuildDue d.log → wp faults (do
        if collection.isNone && (← Prog.query fun s => (s.db.getConfig rawSplitSchemaKey).isSome) then
          Store.rebuildFtsIfNeeded env
        else
          pure () : Command V Unit) ⟨fun _ t => t.disk.Halted env faults Db.RebuildDue d.log ∧
            (collection = Option.none → t.disk.Halted env faults (fun _ => False) d.log),
          fun _ t => t.disk.Halted env faults Db.RebuildDue d.log,
          fun t => t.disk.Halted env faults Db.RebuildDue d.log⟩ u := by
      intro u rest
      refine wp_bind (wp_query ?_)
      dsimp only [Ends.with]
      by_cases due : (collection.isNone && (u.db.getConfig rawSplitSchemaKey).isSome) = true
      · rw [if_pos due]
        have split := (Bool.and_eq_true _ _ ▸ due).2
        refine wp_mono (wp_rebuildIfNeeded_finishes rest split) ?_ (fun _ _ => id) fun _ => id
        intro _ t finished
        have done : t.disk.Halted env faults (fun _ => False) d.log := finished
        exact ⟨done.mono False.elim, fun _ => done⟩
      · rw [if_neg due]
        refine wp_pure ⟨rest.halted, fun every => rest.finished fun rebuild => ?_⟩
        rw [every, rebuild.split] at due
        exact due rfl
    refine wp_bind (wp_modify (wp_bind ?_))
    refine wp_mono (wp_updateEach_rests Db.rebuildDue_lasting terms cols true _ start) ?_ (fun _ _ => id) fun _ => id
    intro clean t rest
    refine wp_bind (wp_mono (wp_reclaimOrphaned_rests Db.rebuildDue_lasting rest) ?_ (fun _ _ => id) fun _ => id)
    intro _ u rest
    refine wp_ite (wp_bind (Store.wp_sqlExecute ?_ (fun _ _ => rest.halted) fun _ => rest.halted)) (finish u rest)
    exact finish _ (rest.carried (untouched_config Db.RebuildDue.split_done))

/-! ### `collection add` -/

/-- Adding a file is indexing it without a cache. -/
theorem addFile_eq (file : WalkedFile) (tally : UpdateTally) : addFile env c file = (do
    let _ ← indexFile env c [] file tally
    pure () : Command V Unit) := by
  have miss : cached [] file = false := by
    cases known : file.stat <;> simp [cached, known]
  unfold addFile indexFile
  rw [if_neg (by simp [miss])]
  cases file.prepared with
  | error reason => rfl
  | ok doc =>
    simp only [bind_assoc]
    congr 1
    funext result
    cases result with
    | ok outcome => simp only [bind_assoc, pure_bind, bind_pure_unit]
    | error e => simp only [bind_assoc, pure_bind, bind_pure_unit]

theorem wp_addFile_follows {file : WalkedFile} (lasting : Db.Lasting due) (here : s.Follows env faults due base)
    (terms : env.pathTerms (filepath c file.relPath) ≠ []) :
    wp faults (addFile env c file) (Store.following env faults due base) s := by
  rw [addFile_eq file .start]
  refine wp_bind (wp_mono (wp_indexFile_follows lasting here terms) ?_ (fun _ _ => id) fun _ => id)
  exact fun _ t next => wp_pure next

theorem untouched_upsertCollection (lasting : Db.Lasting due) (col : Collection) :
    s.Untouched env due [] { s with db := s.db.upsertCollection col, log := s.log ++ [] } := by
  have parts : (s.db.upsertCollection col).documents = s.db.documents ∧
    (s.db.upsertCollection col).content = s.db.content ∧
      (s.db.upsertCollection col).config = s.db.config ∧ (s.db.upsertCollection col).sequence = s.db.sequence := by
    unfold Db.upsertCollection
    split <;> exact ⟨rfl, rfl, rfl, rfl⟩
  obtain ⟨documents, content, config, sequence⟩ := parts
  refine ⟨rfl, rfl, fun c p => ?_, Nat.le_of_eq sequence.symm, fun hashed => ?_, lasting _ _ config, rfl,
    fun _ none => absurd none List.not_mem_nil⟩
  · simp only [Db.rowAt, Db.getDocumentByFilepath, documents]
  · unfold Db.Hashed
    rw [content]
    exact hashed

/-- However an addition ends. -/
theorem wp_addCollection_halts {d : Disk V} {col : Collection} {walk : Walk} (here : d.Abreast env d.db.RebuildDue)
    (terms : ∀ file ∈ walk.files, env.pathTerms (filepath col.name file.relPath) ≠ []) :
    wp faults (addCollection env col walk) (Ends.all fun t => t.disk.Halted env faults Db.RebuildDue d.log)
      (d.open false) := by
  have start : (d.open false).AtRest env faults Db.RebuildDue d.log := .opened here rfl
  unfold addCollection
  refine wp_bind (wp_modify (wp_bind
    (wp_query (wp_bind (Store.wp_sqlExecute ?_ (fun _ _ => start.halted) fun _ => start.halted)))))
  have listed := start.follows.carried
    (untouched_upsertCollection Db.rebuildDue_lasting (readded (d.db.findCollection col.name) col))
  refine wp_bind (wp_forEach (fun files t => (∀ file ∈ files, file ∈ walk.files) ∧
    t.Follows env faults Db.RebuildDue d.log)
    ?_ ?_ walk.files _ ⟨fun _ => id, listed⟩)
  · intro file files t step
    refine wp_mono (wp_addFile_follows Db.rebuildDue_lasting step.2 (terms file (step.1 file List.mem_cons_self))) ?_
      (fun _ _ => id) fun _ => id
    exact fun _ u next => ⟨fun other later => step.1 other (List.mem_cons_of_mem _ later), next⟩
  · intro t step
    exact wp_mono (wp_flush_rests step.2) (fun _ _ rests => rests.halted) (fun _ _ => id) fun _ => id

end Rqmd
