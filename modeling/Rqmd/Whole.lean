import Rqmd.Backing

/-! Every vector row of a text that counts as embedded has its vector in the saved file. Reclaims keep that wherever
they are cut, as long as they take texts that do not count, and so does an embed pass that comes to its end. -/

namespace Rqmd
open Interrupt

variable {V : Type} {env : Env V} {backend : Backend} {s t : Store V} {hash : String}

/-! ### Texts reported embedded -/

/-- The fingerprints `hash_needs_embed` takes for current on a document at the path. -/
def currentPrints (env : Env V) (backend : Backend) (path : String) : List String :=
  let groups := (expectedAstFingerprints env.toHashes env.grammars backend.model).filter fun group =>
    Db.pathHasExtension group.extensions path
  if groups.isEmpty then [expectedFingerprint env.toHashes env.grammars backend.model]
  else groups.map AstFingerprint.fingerprint

namespace Db

variable {db after : Db}

/-- An active document is on the hash, and `hash_needs_embed` reports it embedded. -/
def Reported (env : Env V) (backend : Backend) (db : Db) (hash : String) : Prop :=
  (∃ doc ∈ db.documents, doc.active = true ∧ doc.hash = hash) ∧ needsEmbed env backend [] db hash = false

/-- The hash has a row whose fingerprint is current at the path. -/
def CurrentAt (env : Env V) (backend : Backend) (db : Db) (path hash : String) : Prop :=
  ∃ row ∈ db.vectors, row.hash = hash ∧ row.embedFingerprint ∈ currentPrints env backend path

theorem hasVectorWithFingerprint_iff {print : String} : db.hashHasVectorWithFingerprint hash print = true ↔
    ∃ row ∈ db.vectors, row.hash = hash ∧ row.embedFingerprint = print := by
  simp only [hashHasVectorWithFingerprint, Table.any_eq_true, Bool.and_eq_true, beq_iff_eq]

theorem mem_flagged {doc : Document} :
    doc ∈ db.flagged hash [] ↔ doc ∈ db.documents ∧ doc.active = true ∧ doc.hash = hash := by
  simp only [flagged, Table.mem_select, Bool.and_eq_true, beq_iff_eq, List.contains_nil, Bool.not_false, and_true]
  exact and_congr_right fun _ => And.comm

theorem currentAt_iff {path : String} : db.CurrentAt env backend path hash ↔
    (∃ group ∈ expectedAstFingerprints env.toHashes env.grammars backend.model,
        pathHasExtension group.extensions path = true ∧
          db.hashHasVectorWithFingerprint hash group.fingerprint = true) ∨
      (∀ group ∈ expectedAstFingerprints env.toHashes env.grammars backend.model,
        pathHasExtension group.extensions path = false) ∧
        db.hashHasVectorWithFingerprint hash (expectedFingerprint env.toHashes env.grammars backend.model) = true := by
  unfold CurrentAt currentPrints
  simp only [hasVectorWithFingerprint_iff]
  by_cases none : ∀ group ∈ expectedAstFingerprints env.toHashes env.grammars backend.model,
      pathHasExtension group.extensions path = false
  · have empty : ((expectedAstFingerprints env.toHashes env.grammars backend.model).filter fun group =>
        pathHasExtension group.extensions path).isEmpty = true := by
      rw [List.isEmpty_iff, List.filter_eq_nil_iff]
      exact fun group member held => by simp [none group member] at held
    simp only [empty, if_true, List.mem_singleton]
    constructor
    · exact fun row => .inr ⟨none, row⟩
    · rintro (⟨group, member, held, -⟩ | ⟨-, row⟩)
      · rw [none group member] at held
        cases held
      · exact row
  · have some : ¬ ((expectedAstFingerprints env.toHashes env.grammars backend.model).filter fun group =>
        pathHasExtension group.extensions path).isEmpty = true := by
      rw [List.isEmpty_iff, List.filter_eq_nil_iff]
      intro all
      exact none fun group member => by simpa using all group member
    simp only [some, Bool.false_eq_true, if_false, List.mem_map, List.mem_filter]
    constructor
    · rintro ⟨row, stored, theirs, group, ⟨member, held⟩, print⟩
      exact .inl ⟨group, member, held, row, stored, theirs, print.symm⟩
    · rintro (⟨group, member, held, row, stored, theirs, print⟩ | ⟨all, -⟩)
      · exact ⟨row, stored, theirs, group, ⟨member, held⟩, print.symm⟩
      · exact absurd all none

/-- A text is reported embedded when one of its documents is at a path where one of its rows is current. -/
theorem reported_iff : db.Reported env backend hash ↔
    ∃ doc ∈ db.documents, doc.active = true ∧ doc.hash = hash ∧ db.CurrentAt env backend doc.path hash := by
  simp only [currentAt_iff]
  unfold Reported needsEmbed hashNeedsEmbed
  generalize expectedAstFingerprints env.toHashes env.grammars backend.model = ast
  generalize expectedFingerprint env.toHashes env.grammars backend.model = base
  by_cases none : ast = []
  · subst none
    simp only [List.isEmpty_nil, if_true, Bool.not_eq_false', List.not_mem_nil, false_and, exists_false, false_or,
      IsEmpty.forall_iff, implies_true, true_and]
    constructor
    · rintro ⟨⟨doc, stored, active, same⟩, row⟩
      exact ⟨doc, stored, active, same, row⟩
    · rintro ⟨doc, stored, active, same, row⟩
      exact ⟨⟨doc, stored, active, same⟩, row⟩
  · have some : ast.isEmpty = false := by simpa using none
    simp only [some, Bool.false_eq_true, if_false, Bool.not_eq_false', Bool.or_eq_true, List.any_eq_true, Bool.and_eq_true,
      groupFlag, mem_flagged, Bool.not_eq_true']
    have outside : ∀ doc : Document, (∀ group ∈ ast, pathHasExtension group.extensions doc.path = false) ↔
        pathHasExtension (ast.flatMap AstFingerprint.extensions) doc.path = false := by
      intro doc
      simp only [pathHasExtension, List.any_eq_false, List.mem_flatMap, Bool.not_eq_true]
      constructor
      · intro all ext listed
        obtain ⟨group, member, inside⟩ := listed
        exact all group member ext inside
      · exact fun all group member ext inside => all ext ⟨group, member, inside⟩
    constructor
    · rintro ⟨⟨doc, stored, active, same⟩, ⟨group, member, ⟨other, ⟨there, on, theirs⟩, held⟩, row⟩ | ⟨base, row⟩⟩
      · exact ⟨other, there, on, theirs, .inl ⟨group, member, held, row⟩⟩
      · have flags : (db.flagged hash []).isEmpty = false := by
          have inside := mem_flagged.mpr ⟨stored, active, same⟩
          simpa using List.ne_nil_of_mem inside
        simp only [allAst, flags, Bool.not_false, Bool.true_and, List.all_eq_false, mem_flagged, Bool.not_eq_true] at base
        obtain ⟨other, ⟨there, on, theirs⟩, apart⟩ := base
        exact ⟨other, there, on, theirs, .inr ⟨(outside other).mpr apart, row⟩⟩
    · rintro ⟨doc, stored, active, same, ⟨group, member, held, row⟩ | ⟨apart, row⟩⟩
      · exact ⟨⟨doc, stored, active, same⟩, .inl ⟨group, member, ⟨doc, ⟨stored, active, same⟩, held⟩, row⟩⟩
      · refine ⟨⟨doc, stored, active, same⟩, .inr ⟨?_, row⟩⟩
        simp only [allAst, Bool.and_eq_false_iff, List.all_eq_false, mem_flagged, Bool.not_eq_true]
        exact .inr ⟨doc, ⟨stored, active, same⟩, (outside doc).mp apart⟩

/-- Every row after was there before, and so was every active document's text at its path, but for the offered ones. -/
structure Within (offered : String → String → Prop) (db after : Db) : Prop where
  vectors : ∀ row ∈ after.vectors, ∃ old ∈ db.vectors,
    old.hash = row.hash ∧ old.vid = row.vid ∧ old.embedFingerprint = row.embedFingerprint
  documents : ∀ doc ∈ after.documents, doc.active = true →
    (∃ old ∈ db.documents, old.active = true ∧ old.path = doc.path ∧ old.hash = doc.hash) ∨ offered doc.path doc.hash

/-- Nothing is offered. -/
def unoffered : String → String → Prop := fun _ _ => False

theorem Within.mono {offered wider : String → String → Prop} (within : db.Within offered after)
    (wide : ∀ path hash, offered path hash → wider path hash) : db.Within wider after :=
  ⟨within.vectors, fun doc stored active => (within.documents doc stored active).imp_right (wide _ _)⟩

theorem Within.currentAt {offered : String → String → Prop} {path : String} (within : db.Within offered after)
    (current : after.CurrentAt env backend path hash) : db.CurrentAt env backend path hash := by
  obtain ⟨row, stored, theirs, print⟩ := current
  obtain ⟨old, before, same, -, alike⟩ := within.vectors row stored
  exact ⟨old, before, same.trans theirs, alike ▸ print⟩

/-- What is reported after was reported before, or is an offered text with a current row. -/
theorem Within.reported {offered : String → String → Prop} (within : db.Within offered after)
    (reported : after.Reported env backend hash) :
    db.Reported env backend hash ∨ ∃ path, offered path hash ∧ db.CurrentAt env backend path hash := by
  obtain ⟨doc, stored, active, rfl, current⟩ := reported_iff.mp reported
  have before := within.currentAt current
  rcases within.documents doc stored active with ⟨old, there, on, path, same⟩ | offer
  · exact .inl (reported_iff.mpr ⟨old, there, on, same, path ▸ before⟩)
  · exact .inr ⟨doc.path, offer, before⟩

theorem Within.reportedOnly (within : db.Within unoffered after) (reported : after.Reported env backend hash) :
    db.Reported env backend hash := by
  rcases within.reported reported with known | fresh
  · exact known
  · obtain ⟨_, offer, -⟩ := fresh
    exact offer.elim

theorem within_of_same (vectors : ∀ row ∈ after.vectors, row ∈ db.vectors)
    (documents : ∀ doc ∈ after.documents, doc.active = true →
      ∃ old ∈ db.documents, old.active = true ∧ old.path = doc.path ∧ old.hash = doc.hash) : db.Within unoffered after :=
  ⟨fun row stored => ⟨row, vectors row stored, rfl, rfl, rfl⟩, fun doc stored active => .inl (documents doc stored active)⟩

/-- The texts of the documents are the same, and the rows of the hash. -/
theorem SameTexts.reported (texts : db.SameTexts after)
    (rows : ∀ row : VectorRow, row.hash = hash → (row ∈ after.vectors ↔ row ∈ db.vectors))
    (reported : after.Reported env backend hash) : db.Reported env backend hash := by
  obtain ⟨⟨later, stored, active, same⟩, embedded⟩ := reported
  obtain ⟨doc, there, alike⟩ := texts.before_document stored
  have fields := Document.alike alike
  exact ⟨⟨doc, there, fields.active ▸ active, fields.hash ▸ same⟩, (needsEmbed_congr texts rows).symm.trans embedded⟩

end Db

/-! ### Disks and stores -/

/-- Every row of a text reported embedded has its vector in the saved file. -/
def Disk.Whole (env : Env V) (backend : Backend) (d : Disk V) : Prop :=
  ∀ row ∈ d.db.vectors, d.db.Reported env backend row.hash → row.vid ∈ d.savedVids

/-- The memory has it too. -/
def Store.Whole (env : Env V) (backend : Backend) (s : Store V) : Prop :=
  ∀ row ∈ s.db.vectors, s.db.Reported env backend row.hash →
    row.vid ∈ s.disk.savedVids ∧ row.vid ∈ s.hnsw.inner.keys

namespace Store.Whole

theorem disk (whole : s.Whole env backend) : s.disk.Whole env backend := fun row stored reported =>
  (whole row stored reported).1

theorem opened {d : Disk V} {readOnly : Bool} (whole : d.Whole env backend) : (d.open readOnly).Whole env backend := by
  intro row stored reported
  have saved := whole row stored reported
  refine ⟨saved, ?_⟩
  change row.vid ∈ (openHnsw d.hnswFile d.db readOnly).inner.keys
  rw [openHnsw_inner]
  exact saved

/-- A change of the rows that reports nothing new. -/
theorem within {db : Db} {log : List Event} (whole : s.Whole env backend) (within : s.db.Within Db.unoffered db) :
    Whole env backend { s with db := db, log := log } := by
  intro row stored reported
  obtain ⟨old, before, same, vid, -⟩ := within.vectors row stored
  have counted : s.db.Reported env backend old.hash := same.symm ▸ within.reportedOnly reported
  rw [← vid]
  exact whole old before counted

theorem keptBySave : KeptBySave (Store.Whole (V := V) env backend) :=
  ⟨⟨fun _ _ _ _ whole => whole⟩, fun _ _ whole row stored reported =>
    ⟨(whole row stored reported).2, (whole row stored reported).2⟩, fun _ whole => whole⟩

theorem execute {context : Failure} {f : Db → Db} {events : List Event}
    (within : ∀ db, Db.Within Db.unoffered db (f db)) :
    Preserves Faults.any (Store.Whole (V := V) env backend) (Store.sqlExecute context f events) := fun s whole =>
  Store.wp_sqlExecute (whole.within (within s.db)) (fun _ _ => whole) fun _ => whole

/-! ### Reclaims -/

/-- The vectors of a text that does not count leave the memory. -/
theorem evicted (whole : s.Whole env backend) (uncounted : ¬ s.db.Reported env backend hash) :
    Whole env backend { s with hnsw := Store.removeVids s.hnsw (s.db.vidsForHash hash), hnswDirty := true } := by
  intro row stored reported
  obtain ⟨saved, held⟩ := whole row stored reported
  refine ⟨saved, Store.mem_keys_removeVids.mpr ⟨held, fun gone => ?_⟩⟩
  obtain ⟨other, inside, same, theirs⟩ := Db.mem_vidsForHash.mp gone
  have one : other = row := Table.eq_of_clash inside stored (.inr same)
  exact uncounted (theirs ▸ one.symm ▸ reported)

theorem preserves_evictHash {db : Db} (uncounted : ¬ db.Reported env backend hash) :
    Preserves Faults.any (fun t : Store V => t.Whole env backend ∧ t.db = db) (Store.evictHash hash) := by
  intro s here
  unfold Store.evictHash Store.evictHnswVectors
  refine wp_bind (wp_query (wp_ite (wp_pure here) (wp_bind (wp_query (wp_ite (wp_throw here) (wp_modify ⟨?_, here.2⟩))))))
  exact here.1.evicted (here.2.symm ▸ uncounted)

/-- Wherever the reclaim of texts that do not count is cut. -/
theorem reclaimed (whole : s.Whole env backend) {hashes : List String}
    (uncounted : ∀ hash ∈ hashes, ¬ s.db.Reported env backend hash) :
    wp Faults.any (Store.reclaimVectorsOf hashes) (Ends.all (Whole env backend)) s := by
  have both : KeptBySave fun t : Store V => t.Whole env backend ∧ t.db = s.db :=
    ⟨⟨fun u fts log quiet here => ⟨keptBySave.aside u fts log quiet here.1, here.2⟩⟩,
      fun u writable here => ⟨keptBySave.saved u writable here.1, here.2⟩, fun _ here => here⟩
  unfold Store.reclaimVectorsOf
  refine wp_ite (wp_pure whole) (wp_bind ?_)
  have evictions : wp Faults.any (Prog.forEach Store.evictHash hashes)
      (Ends.all fun t : Store V => t.Whole env backend ∧ t.db = s.db) s :=
    Preserves.forEachIn hashes (fun hash member => preserves_evictHash (uncounted hash member)) s ⟨whole, rfl⟩
  refine wp_mono evictions (fun _ t here => ?_) (fun _ _ here => here.1) fun _ here => here.1
  refine wp_bind (wp_mono (both.flush t here) (fun _ u after => ?_) (fun _ _ after => after.1) fun _ after => after.1)
  refine execute (fun db => Db.within_of_same (fun row stored => ?_) fun doc stored active => ?_) u after.1
  · exact ((Db.mem_deleteVectors hashes db row).mp stored).1
  · rw [(Db.texts_deleteVectors hashes db).2.2] at stored
    exact ⟨doc, stored, active, rfl, rfl⟩

theorem reclaimOrphaned : Preserves Faults.any (Store.Whole (V := V) env backend) Store.reclaimOrphanedVectors := by
  intro s whole
  unfold Store.reclaimOrphanedVectors
  refine wp_bind (wp_query (whole.reclaimed fun hash listed reported => ?_))
  obtain ⟨doc, stored, active, same⟩ := reported.1
  exact Db.active_not_orphaned stored active (same.symm ▸ listed)

/-- A reclaim that comes to its end takes the rows with their vectors, whether the texts count or not. -/
theorem reclaimedDone (whole : s.Whole env backend) {hashes : List String} (done : Store.Reclaimed hashes s t) :
    t.Whole env backend := by
  intro row stored reported
  obtain ⟨before, kept⟩ := (done.rows row).mp stored
  have within : s.db.Within Db.unoffered t.db := by
    refine Db.within_of_same (fun other there => ((done.rows other).mp there).1) fun doc there active => ?_
    exact ⟨doc, done.documents ▸ there, active, rfl, rfl⟩
  obtain ⟨saved, held⟩ := whole row before (within.reportedOnly reported)
  have free : ∀ other ∈ s.db.vectors, other.vid = row.vid → other.hash ∉ hashes := by
    intro other inside same
    have one : other = row := Table.eq_of_clash inside before (.inr same)
    exact one ▸ kept
  refine ⟨done.saved saved held free, ?_⟩
  rw [done.index]
  exact (Store.mem_keys_evicted hashes s.hnsw).mpr ⟨held, free⟩

/-! ### Embedding -/

/-- The rows of a hash that are still those the pass started from have their vectors in file and memory. -/
def Untouched (u : Store V) (db : Db) (hash : String) : Prop :=
  (∀ row : VectorRow, row.hash = hash → (row ∈ db.vectors ↔ row ∈ u.db.vectors)) →
    ∀ row ∈ u.db.vectors, row.hash = hash → row.vid ∈ u.disk.savedVids ∧ row.vid ∈ u.hnsw.inner.keys

theorem stable_untouched {u : Store V} : Stable (Untouched u) := by
  intro db after hash _ rows backed same
  exact backed fun row theirs => (rows row theirs).trans (same row theirs)

theorem backedFor_untouched {u : Store V} (allotted : (Session.of u).Allotted) : (Session.of u).BackedFor (Untouched u) :=
  ⟨allotted, fun row stored counts => (counts.2 (fun _ _ => Iff.rfl) row stored rfl).1,
    fun row stored counts => (counts.2 (fun _ _ => Iff.rfl) row stored rfl).2, fun _ none => absurd none List.not_mem_nil,
    fun _ none => absurd none List.not_mem_nil⟩

/-- A pass that comes to its end replaced the rows of the texts it embedded and left the others. -/
theorem passes {excluded : List Nat} {current : Backend} {u : Store V} (whole : u.Whole env backend)
    (allotted : (Session.of u).Allotted) (run : Passes env current excluded (.of u) (.of t)) : t.Whole env backend := by
  have ended := (backedFor_untouched allotted).passes stable_untouched run
  have texts : u.db.SameTexts t.db := texts_of_passes run
  intro row stored reported
  have backed : row.hash ∉ (Session.of t).superseded ∧ Untouched u t.db row.hash := by
    refine ⟨List.not_mem_nil, fun same other inside theirs => whole other inside ?_⟩
    rw [theirs]
    exact texts.reported same reported
  exact ⟨ended.file row stored backed, ended.memory row stored backed⟩

end Store.Whole

end Rqmd
