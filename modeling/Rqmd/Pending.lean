import Mathlib.Data.List.Perm.Subperm
import Rqmd.EmbedOutcome

/-! The count of texts that wait for embedding against the queue of an embed run. Both ask one predicate, which reads
the language of a document off its path in two ways: SQL by a pattern on the end of the path, the embedder by the
extension of the file name. -/

namespace Rqmd
open Interrupt

variable {V : Type} {env : Env V} {backend : Backend} {excluded : List Nat} {db start after : Db}

/-! ### The language of a path -/

/-- A path with an extension ends in a dot and that extension. -/
theorem pathGlobs_of_extension {path ext : String} (found : pathExtension path = some ext) : Db.pathGlobs path ext = true := by
  unfold pathExtension at found
  simp only at found
  generalize file : (path.toList.reverse.takeWhile (· ≠ '/')).reverse = name at found
  generalize last : (name.reverse.takeWhile (· ≠ '.')).reverse = letters at found
  split at found
  · cases found
  · next proper =>
    rw [not_or, not_le] at proper
    obtain rfl := Option.some.inj found
    have inFile : ('.' :: letters) <:+ name := by
      have split : name.reverse = name.reverse.takeWhile (· ≠ '.') ++ name.reverse.dropWhile (· ≠ '.') :=
        List.takeWhile_append_dropWhile.symm
      cases rest : name.reverse.dropWhile (· ≠ '.') with
      | nil =>
        rw [rest, List.append_nil] at split
        have whole : name = letters := by rw [← last, ← split, List.reverse_reverse]
        rw [whole] at proper
        omega
      | cons dot before =>
        have isDot : dot = '.' := by
          have some : name.reverse.dropWhile (· ≠ '.') ≠ [] := by rw [rest]; exact List.cons_ne_nil _ _
          have head := List.head_dropWhile_not (fun c => decide (c ≠ '.')) some
          simpa only [rest, List.head_cons, decide_eq_false_iff_not, not_not] using head
        refine ⟨before.reverse, ?_⟩
        have back := congrArg List.reverse split
        rw [rest, isDot] at back
        simp only [List.reverse_reverse, List.reverse_append, List.reverse_cons, last] at back
        rw [back]
        simp
    have inPath : name <:+ path.toList := by
      rw [← file, ← List.reverse_prefix, List.reverse_reverse]
      exact List.takeWhile_prefix _
    have whole : ('.' :: letters) <:+ path.toList := inFile.trans inPath
    simpa [Db.pathGlobs] using whole

/-- The group whose marker a path carries lists the extension of the path. -/
theorem group_of_marker {path marker : String} (marked : astMarkerForPath env.grammars path = some marker) :
    ∃ group ∈ expectedAstFingerprints env.toHashes env.grammars backend.model,
      group.fingerprint = pathPrint env backend path ∧ Db.pathHasExtension group.extensions path = true := by
  obtain ⟨ext, found, carries⟩ := Option.bind_eq_some_iff.mp marked
  obtain ⟨group, first, rfl⟩ := Option.map_eq_some_iff.mp carries
  have member := List.mem_of_find?_eq_some first
  have lists : ext ∈ group.2 := by simpa using List.find?_some first
  refine ⟨⟨group.2, markedFingerprint env.toHashes backend.model (some group.1)⟩, ?_, ?_, ?_⟩
  · exact List.mem_map.mpr ⟨group, member, rfl⟩
  · simp [pathPrint, embedFingerprint, marked]
  · exact List.any_eq_true.mpr ⟨ext, lists, pathGlobs_of_extension found⟩

/-! ### Who is counted and who is queued -/

/-- The count and the queue look at this document: it is active, has text and no rule excludes it. -/
def Embeddable (env : Env V) (db : Db) (doc : Document) : Prop :=
  doc.active = true ∧ db.contentNonEmpty doc.hash = true ∧ doc.id ∉ db.excludedDocs env.globs

/-- The text needs embedding for the documents no rule excludes. -/
def NeedsEmbed (env : Env V) (backend : Backend) (db : Db) (hash : String) : Prop :=
  needsEmbed env backend (db.excludedDocs env.globs) db hash = true

/-- The hashes `count_docs_needing_embed_excluding` counts. -/
def countedHashes (env : Env V) (backend : Backend) (db : Db) : List String :=
  db.pendingHashes (expectedFingerprint env.toHashes env.grammars backend.model)
    (expectedAstFingerprints env.toHashes env.grammars backend.model) (db.excludedDocs env.globs)

theorem mem_countedHashes {hash : String} : hash ∈ countedHashes env backend db ↔
    (∃ doc ∈ db.documents, Embeddable env db doc ∧ doc.hash = hash) ∧ NeedsEmbed env backend db hash := by
  unfold countedHashes Db.pendingHashes NeedsEmbed needsEmbed Embeddable
  simp only [List.mem_filter, List.mem_dedup, List.mem_map, Table.mem_select, Bool.and_eq_true, Bool.not_eq_true',
    List.contains_eq_mem, decide_eq_false_iff_not, and_assoc]

theorem queueDocs_complete (pending : Document → Bool) (docs : List Document) : ∀ (seen : List String), ∀ doc ∈ docs,
    pending doc = true → doc.hash ∈ (queueDocs pending docs seen).2 := by
  induction docs with
  | nil => exact fun _ _ none => absurd none List.not_mem_nil
  | cons head docs ih =>
    intro seen doc member waits
    have marked := (queueDocs_spec pending (head :: docs) seen).2.2 doc.hash
    rcases List.mem_cons.mp member with rfl | later
    · by_cases known : doc.hash ∈ seen
      · exact marked.mpr (.inl known)
      · apply marked.mpr
        right
        unfold queueDocs
        have taken : (!seen.contains doc.hash && pending doc) = true := by simp [known, waits]
        rw [if_pos taken]
        exact List.mem_cons_self
    · unfold queueDocs
      split
      · exact ih (head.hash :: seen) doc later waits
      · exact ih seen doc later waits

/-- What the queues of all collections hold, each hash once. -/
theorem queueEach_spec (pending : Document → Bool) (cols : List Collection) : ∀ seen : List String,
    (∀ doc ∈ queueEach pending db cols seen, (∃ col ∈ cols, doc ∈ db.listDocuments col.name) ∧ pending doc = true ∧
        doc.hash ∉ seen) ∧
      ((queueEach pending db cols seen).map Document.hash).Nodup ∧
      ∀ col ∈ cols, ∀ doc ∈ db.listDocuments col.name, pending doc = true →
        doc.hash ∈ seen ∨ doc.hash ∈ (queueEach pending db cols seen).map Document.hash := by
  induction cols with
  | nil => exact fun _ => ⟨fun _ none => absurd none List.not_mem_nil, List.nodup_nil, fun _ none => absurd none List.not_mem_nil⟩
  | cons col cols ih =>
    intro seen
    obtain ⟨each, distinct, marked⟩ := queueDocs_spec pending (db.listDocuments col.name) seen
    have complete := queueDocs_complete pending (db.listDocuments col.name) seen
    unfold queueEach
    generalize queueDocs pending (db.listDocuments col.name) seen = queue at each distinct marked complete ⊢
    obtain ⟨later, apart, rest⟩ := ih queue.2
    refine ⟨fun doc member => ?_, ?_, fun other inside doc listed waits => ?_⟩
    · rcases List.mem_append.mp member with here | there
      · exact ⟨⟨col, List.mem_cons_self, (each doc here).1⟩, (each doc here).2⟩
      · obtain ⟨⟨other, inside, listed⟩, waits, unseen⟩ := later doc there
        exact ⟨⟨other, List.mem_cons_of_mem _ inside, listed⟩, waits, fun known => unseen ((marked doc.hash).mpr (.inl known))⟩
    · rw [List.map_append, List.nodup_append]
      refine ⟨distinct, apart, ?_⟩
      rintro hash first _ second rfl
      obtain ⟨doc, there, rfl⟩ := List.mem_map.mp second
      exact (later doc there).2.2 ((marked doc.hash).mpr (.inr first))
    · rw [List.map_append, List.mem_append]
      have settled : doc.hash ∈ queue.2 → doc.hash ∈ seen ∨ doc.hash ∈ queue.1.map Document.hash := (marked doc.hash).mp
      rcases List.mem_cons.mp inside with rfl | further
      · exact (settled (complete doc listed waits)).imp_right .inl
      · rcases rest other further doc listed waits with before | now
        · exact (settled before).imp_right .inl
        · exact .inr (.inr now)

theorem mem_embedQueue {doc : Document} (member : doc ∈ embedQueue env backend db) :
    doc ∈ db.documents ∧ Embeddable env db doc ∧ NeedsEmbed env backend db doc.hash ∧
      ∃ col ∈ db.collections, col.name = doc.collection := by
  obtain ⟨queued, text⟩ := List.mem_filter.mp member
  obtain ⟨⟨col, inside, listed⟩, waits, -⟩ := (queueEach_spec _ _ _).1 doc queued
  have stored : doc ∈ db.documents ∧ doc.active = true ∧ doc.collection = col.name := by
    simpa [Db.listDocuments] using listed
  have open' : doc.id ∉ db.excludedDocs env.globs ∧ NeedsEmbed env backend db doc.hash := by
    simpa [pendingDoc, NeedsEmbed] using waits
  exact ⟨stored.1, ⟨stored.2.1, text, open'.1⟩, open'.2, col, inside, stored.2.2.symm⟩

theorem embedQueue_complete {doc : Document} (stored : doc ∈ db.documents) (fits : Embeddable env db doc)
    (needs : NeedsEmbed env backend db doc.hash) (listed : ∃ col ∈ db.collections, col.name = doc.collection) :
    ∃ queued ∈ embedQueue env backend db, queued.hash = doc.hash := by
  obtain ⟨active, text, free⟩ := fits
  obtain ⟨col, inside, same⟩ := listed
  have there : doc ∈ db.listDocuments col.name := by
    simp only [Db.listDocuments, List.mem_insertionSort, Table.mem_select, Bool.and_eq_true, beq_iff_eq]
    exact ⟨stored, active, same.symm⟩
  have waits : pendingDoc env backend (db.excludedDocs env.globs) db doc = true := by
    have needs' : needsEmbed env backend (db.excludedDocs env.globs) db doc.hash = true := needs
    simp [pendingDoc, free, needs']
  rcases (queueEach_spec _ _ _).2.2 col inside doc there waits with none | queued
  · exact absurd none List.not_mem_nil
  · obtain ⟨other, member, equal⟩ := List.mem_map.mp queued
    exact ⟨other, List.mem_filter.mpr ⟨member, equal ▸ text⟩, equal⟩

theorem embedQueue_nodup : ((embedQueue env backend db).map Document.hash).Nodup :=
  (queueEach_spec _ _ _).2.1.sublist (List.Sublist.map _ List.filter_sublist)

/-- Every text that waits is a document of a collection the index lists. -/
def Listed (env : Env V) (backend : Backend) (db : Db) : Prop :=
  ∀ doc ∈ db.documents, Embeddable env db doc → NeedsEmbed env backend db doc.hash →
    ∃ other ∈ db.documents, Embeddable env db other ∧ other.hash = doc.hash ∧ ∃ col ∈ db.collections, col.name = other.collection

/-- The count is the number of queued texts exactly when every waiting text is listed. -/
theorem count_eq_queue_iff : pendingEmbedCount env backend db =
    ((embedQueue env backend db).map Document.hash).dedup.length ↔ Listed env backend db := by
  have within : ∀ hash ∈ (embedQueue env backend db).map Document.hash, hash ∈ countedHashes env backend db := by
    intro hash member
    obtain ⟨doc, queued, rfl⟩ := List.mem_map.mp member
    obtain ⟨stored, fits, needs, -⟩ := mem_embedQueue queued
    exact mem_countedHashes.mpr ⟨⟨doc, stored, fits, rfl⟩, needs⟩
  have distinct : (countedHashes env backend db).Nodup := (List.nodup_dedup _).filter _
  have part : List.Subperm ((embedQueue env backend db).map Document.hash) (countedHashes env backend db) :=
    List.Nodup.subperm embedQueue_nodup within
  rw [List.dedup_eq_self.mpr embedQueue_nodup]
  change (countedHashes env backend db).length = _ ↔ _
  constructor
  · intro same doc stored fits needs
    have counted := mem_countedHashes.mpr ⟨⟨doc, stored, fits, rfl⟩, needs⟩
    have queued := (part.perm_of_length_le (Nat.le_of_eq same)).symm.subset counted
    obtain ⟨other, member, equal⟩ := List.mem_map.mp queued
    obtain ⟨inside, fitting, -, col⟩ := mem_embedQueue member
    exact ⟨other, inside, fitting, equal, col⟩
  · intro listed
    refine Nat.le_antisymm ?_ part.length_le
    refine (List.Nodup.subperm distinct fun hash member => ?_).length_le
    obtain ⟨⟨doc, stored, fits, rfl⟩, needs⟩ := mem_countedHashes.mp member
    obtain ⟨other, inside, fitting, equal, col⟩ := listed doc stored fits needs
    obtain ⟨queued, found, same⟩ := embedQueue_complete inside fitting (equal ▸ needs) col
    exact List.mem_map.mpr ⟨queued, found, same.trans equal⟩

/-! ### After the run -/

/-- The embedder sees no language in the document's path, while SQL sees one in the path of every document that could
be embedded for this text. -/
def Misrouted (env : Env V) (backend : Backend) (db : Db) (doc : Document) : Prop :=
  astMarkerForPath env.grammars doc.path = none ∧ db.allAst doc.hash (db.excludedDocs env.globs)
    (expectedAstFingerprints env.toHashes env.grammars backend.model) = true

instance (env : Env V) (backend : Backend) (db : Db) (doc : Document) : Decidable (Misrouted env backend db doc) :=
  inferInstanceAs (Decidable (_ ∧ _))

/-- No compiled language's fingerprint is the one of plain text. -/
def Env.PrintsApart (env : Env V) (backend : Backend) : Prop :=
  ∀ group ∈ expectedAstFingerprints env.toHashes env.grammars backend.model,
    group.fingerprint ≠ expectedFingerprint env.toHashes env.grammars backend.model

instance (env : Env V) (backend : Backend) : Decidable (env.PrintsApart backend) :=
  inferInstanceAs (Decidable (∀ group ∈ _, _))

/-- A text embedded for one of its paths still needs embedding exactly when that path hides its language. -/
theorem needsEmbed_stored {hash path : String} (apart : env.PrintsApart backend) (stored : Stored env backend db (hash, path))
    (flag : path ∈ (db.flagged hash excluded).map Document.path) : needsEmbed env backend excluded db hash = true ↔
      astMarkerForPath env.grammars path = none ∧
        db.allAst hash excluded (expectedAstFingerprints env.toHashes env.grammars backend.model) = true := by
  have prints : ∀ fp, db.hashHasVectorWithFingerprint hash fp = true ↔ fp = pathPrint env backend path := by
    intro fp
    simp only [Db.hashHasVectorWithFingerprint, Table.any_eq_true, Bool.and_eq_true, beq_iff_eq]
    constructor
    · rintro ⟨row, member, theirs, rfl⟩
      exact stored.print row member theirs
    · rintro rfl
      obtain ⟨row, member, theirs⟩ := stored.some
      exact ⟨row, member, theirs, stored.print row member theirs⟩
  obtain ⟨doc, flagged, rfl⟩ := List.mem_map.mp flag
  cases marked : astMarkerForPath env.grammars doc.path with
  | some marker =>
    obtain ⟨group, member, same, inGroup⟩ := @group_of_marker V env backend _ _ marked
    have satisfied : (expectedAstFingerprints env.toHashes env.grammars backend.model).any (fun g =>
        db.groupFlag hash excluded g && db.hashHasVectorWithFingerprint hash g.fingerprint) = true := by
      refine List.any_eq_true.mpr ⟨group, member, Bool.and_eq_true_iff.mpr ⟨?_, (prints _).mpr same⟩⟩
      exact List.any_eq_true.mpr ⟨doc, flagged, inGroup⟩
    have some : (expectedAstFingerprints env.toHashes env.grammars backend.model).isEmpty = false := by
      rw [List.isEmpty_eq_false_iff]
      exact List.ne_nil_of_mem member
    simp [needsEmbed, Db.hashNeedsEmbed, some, satisfied]
  | none =>
    have base : pathPrint env backend doc.path = expectedFingerprint env.toHashes env.grammars backend.model := by
      have plain : astMarkerForPath env.grammars "" = none := rfl
      simp [pathPrint, expectedFingerprint, embedFingerprint, marked, plain]
    have present : db.hashHasVectorWithFingerprint hash (expectedFingerprint env.toHashes env.grammars backend.model) = true :=
      (prints _).mpr base.symm
    have noGroup : (expectedAstFingerprints env.toHashes env.grammars backend.model).any (fun g =>
        db.groupFlag hash excluded g && db.hashHasVectorWithFingerprint hash g.fingerprint) = false := by
      rw [List.any_eq_false]
      intro group member both
      have held := (prints _).mp (Bool.and_eq_true_iff.mp both).2
      exact apart group member (held.trans base)
    by_cases none : (expectedAstFingerprints env.toHashes env.grammars backend.model).isEmpty = true
    · have empty : expectedAstFingerprints env.toHashes env.grammars backend.model = [] := List.isEmpty_iff.mp none
      have outside : db.allAst hash excluded [] = false := by
        cases docs : db.flagged hash excluded with
        | nil => simp [Db.allAst, docs]
        | cons head rest => simp [Db.allAst, docs, Db.pathHasExtension]
      simp [needsEmbed, Db.hashNeedsEmbed, empty, present, outside]
    · simp [needsEmbed, Db.hashNeedsEmbed, none, noGroup, present]

/-- Filling in keys leaves everything the count and the queue read alone. -/
theorem keyed_same : db.SameTexts (db.keyed env backend) ∧ ∀ hash fp,
    (db.keyed env backend).hashHasVectorWithFingerprint hash fp = db.hashHasVectorWithFingerprint hash fp := by
  refine ⟨⟨rfl, rfl, rfl, rfl⟩, fun hash fp => ?_⟩
  rw [Bool.eq_iff_iff]
  have same : ∀ (fingerprints : List String) (keyFor : String → String) (row : VectorRow),
      (Db.backfill backend.model fingerprints keyFor row).hash = row.hash ∧
        (Db.backfill backend.model fingerprints keyFor row).embedFingerprint = row.embedFingerprint := by
    intro fingerprints keyFor row
    exact ⟨(Db.backfill_keys _ _ _ row).1, Db.backfill_print _ _ _ row⟩
  simp only [Db.hashHasVectorWithFingerprint, Table.any_eq_true, Bool.and_eq_true, beq_iff_eq, Db.keyed,
    Db.mem_backfillVectorKeys]
  constructor
  · rintro ⟨_, ⟨row, member, rfl⟩, theirs, print⟩
    exact ⟨row, member, (same _ _ row).1 ▸ theirs, (same _ _ row).2 ▸ print⟩
  · rintro ⟨row, member, theirs, print⟩
    exact ⟨_, ⟨row, member, rfl⟩, (same _ _ row).1.trans theirs, (same _ _ row).2.trans print⟩

theorem embeddable_congr (texts : db.SameTexts after) {later doc : Document} (same : later.unmarked = doc.unmarked) :
    Embeddable env after later ↔ Embeddable env db doc := by
  have alike := Document.alike same
  unfold Embeddable
  rw [alike.active, alike.hash, alike.id, texts.excludedDocs, texts.contentNonEmpty]

section Work

variable {u mid t : Store V} {taken : List Place} {result : EmbedRun × EmbedFlow}

theorem WorkLeft.texts {cols : List Collection} (work : WorkLeft env backend cols u taken result mid t) :
    u.db.SameTexts t.db := work.pass.texts.trans work.reclaimed.texts

/-- The reclaim leaves the rows of the texts in use. -/
theorem WorkLeft.rows {cols : List Collection} (work : WorkLeft env backend cols u taken result mid t) {doc : Document}
    (stored : doc ∈ u.db.documents) (active : doc.active = true) (row : VectorRow) (theirs : row.hash = doc.hash) :
    row ∈ t.db.vectors ↔ row ∈ mid.db.vectors := by
  rw [work.reclaimed.rows]
  refine and_iff_left fun listed => ?_
  obtain ⟨later, there, alike⟩ := work.pass.texts.after_document stored
  have fields := Document.alike alike
  have same : later.hash = row.hash := fields.hash.trans theirs.symm
  exact Db.active_not_orphaned there (fields.active.trans active) (same ▸ listed)

/-- After a run without failures no text waits exactly when every waiting one was queued, for a path that shows its
language. -/
theorem WorkLeft.count_zero_iff (work : WorkLeft env backend u.db.listCollections u taken result mid t)
    (apart : env.PrintsApart backend) (proceeded : result.2 = .proceed) (unfailed : result.1.failures = []) :
    pendingEmbedCount env backend t.db = 0 ↔
      Listed env backend u.db ∧ ∀ doc ∈ embedQueue env backend u.db, ¬ Misrouted env backend u.db doc := by
  have all : taken = (embedQueue env backend u.db).map Document.place := work.pass.all proceeded unfailed
  have excluded : t.db.excludedDocs env.globs = u.db.excludedDocs env.globs := work.texts.excludedDocs
  have taken_iff : ∀ hash, hash ∈ taken.map Prod.fst ↔ ∃ doc ∈ embedQueue env backend u.db, doc.hash = hash := by
    intro hash
    rw [all, List.map_map]
    simp [Document.place]
  have untaken : ∀ doc ∈ u.db.documents, doc.active = true → doc.hash ∉ taken.map Prod.fst →
      (NeedsEmbed env backend t.db doc.hash ↔ NeedsEmbed env backend u.db doc.hash) := by
    intro doc stored active outside
    unfold NeedsEmbed
    rw [excluded, needsEmbed_congr work.texts fun row theirs =>
      (work.rows stored active row theirs).trans (work.pass.others doc.hash outside row theirs)]
  have routed : ∀ doc ∈ embedQueue env backend u.db, NeedsEmbed env backend t.db doc.hash ↔ Misrouted env backend u.db doc := by
    intro doc queued
    obtain ⟨stored, ⟨active, -, free⟩, -, -⟩ := mem_embedQueue queued
    have kept := work.pass.stored doc.place (all ▸ List.mem_map_of_mem queued)
    have there : Stored env backend t.db (doc.hash, doc.path) := by
      obtain ⟨row, inside, theirs⟩ := kept.some
      refine ⟨⟨row, (work.rows stored active row theirs).mpr inside, theirs⟩, fun row inside theirs => ?_⟩
      exact kept.print row ((work.rows stored active row theirs).mp inside) theirs
    have flags := work.texts.flagged doc.hash (u.db.excludedDocs env.globs)
    have flag : doc.path ∈ (t.db.flagged doc.hash (u.db.excludedDocs env.globs)).map Document.path := by
      rw [flags]
      exact List.mem_map_of_mem (by simp [Db.flagged, stored, active, free])
    unfold NeedsEmbed Misrouted
    rw [excluded, needsEmbed_stored apart there flag, Db.allAst_paths, flags, ← Db.allAst_paths]
  have counted : pendingEmbedCount env backend t.db = 0 ↔
      ∀ doc ∈ u.db.documents, Embeddable env u.db doc → ¬ NeedsEmbed env backend t.db doc.hash := by
    change (countedHashes env backend t.db).length = 0 ↔ _
    rw [List.length_eq_zero_iff, List.eq_nil_iff_forall_not_mem]
    constructor
    · intro none doc stored fits needs
      obtain ⟨later, inside, same⟩ := work.texts.after_document stored
      have hash := (Document.alike same).hash
      exact none doc.hash (mem_countedHashes.mpr ⟨⟨later, inside, (embeddable_congr work.texts same).mpr fits, hash⟩, needs⟩)
    · intro none hash counted
      obtain ⟨⟨later, inside, fits, rfl⟩, needs⟩ := mem_countedHashes.mp counted
      obtain ⟨doc, stored, same⟩ := work.texts.before_document inside
      have hash := (Document.alike same).hash
      exact none doc stored ((embeddable_congr work.texts same).mp fits) (hash ▸ needs)
  rw [counted]
  constructor
  · intro none
    refine ⟨fun doc stored fits needs => ?_, fun doc queued wrong => ?_⟩
    · by_cases found : doc.hash ∈ taken.map Prod.fst
      · obtain ⟨queued, member, same⟩ := (taken_iff _).mp found
        obtain ⟨inside, fitting, -, col⟩ := mem_embedQueue member
        exact ⟨queued, inside, fitting, same, col⟩
      · exact absurd ((untaken doc stored fits.1 found).mpr needs) (none doc stored fits)
    · obtain ⟨stored, fits, -, -⟩ := mem_embedQueue queued
      exact none doc stored fits ((routed doc queued).mpr wrong)
  · rintro ⟨listed, right⟩ doc stored fits needs
    by_cases found : doc.hash ∈ taken.map Prod.fst
    · obtain ⟨queued, member, same⟩ := (taken_iff _).mp found
      exact right queued member ((routed queued member).mp (same ▸ needs))
    · have before := (untaken doc stored fits.1 found).mp needs
      obtain ⟨other, inside, fitting, equal, col⟩ := listed doc stored fits before
      obtain ⟨queued, member, same⟩ := embedQueue_complete inside fitting (equal ▸ before) col
      exact found ((taken_iff _).mpr ⟨queued, member, same.trans equal⟩)

end Work

/-! ### The unscoped run -/

/-- The rows an unscoped run starts from. -/
def Db.embedStart (rebuild : Bool) (db : Db) : Db :=
  if rebuild && !db.listCollections.isEmpty then db.clearAllVectors else db

theorem needsEmbed_cleared (hash : String) : NeedsEmbed env backend db.clearAllVectors hash := by
  have none : ∀ fp, db.clearAllVectors.hashHasVectorWithFingerprint hash fp = false := fun _ => rfl
  simp [NeedsEmbed, needsEmbed, Db.hashNeedsEmbed, none]

theorem listed_of_cleared (listed : Listed env backend db.clearAllVectors) : Listed env backend db :=
  fun doc stored fits _ => listed doc stored fits (needsEmbed_cleared doc.hash)

theorem queueEach_keyed (pending : Document → Bool) (cols : List Collection) : ∀ seen : List String,
    queueEach pending (db.keyed env backend) cols seen = queueEach pending db cols seen := by
  induction cols with
  | nil => exact fun _ => rfl
  | cons col cols ih =>
    intro seen
    unfold queueEach
    simp only [ih]
    rfl

/-- Filling in keys changes neither the queue nor who waits. -/
theorem needsEmbed_keyed (hash : String) :
    needsEmbed env backend excluded (db.keyed env backend) hash = needsEmbed env backend excluded db hash :=
  Db.hashNeedsEmbed_congr rfl fun fp => keyed_same.2 hash fp

theorem embedQueue_keyed : embedQueue env backend (db.keyed env backend) = embedQueue env backend db := by
  have excluded : (db.keyed env backend).excludedDocs env.globs = db.excludedDocs env.globs := keyed_same.1.excludedDocs
  have waits : pendingDoc env backend (db.excludedDocs env.globs) (db.keyed env backend) =
      pendingDoc env backend (db.excludedDocs env.globs) db := by
    funext doc
    unfold pendingDoc
    rw [needsEmbed_keyed]
  unfold embedQueue
  rw [excluded, waits, queueEach_keyed]
  rfl

theorem listed_keyed : Listed env backend (db.keyed env backend) ↔ Listed env backend db := by
  have excluded : (db.keyed env backend).excludedDocs env.globs = db.excludedDocs env.globs := keyed_same.1.excludedDocs
  have fits : ∀ doc, Embeddable env (db.keyed env backend) doc ↔ Embeddable env db doc := by
    intro doc
    unfold Embeddable
    rw [excluded]
    rfl
  have waits : ∀ hash, NeedsEmbed env backend (db.keyed env backend) hash ↔ NeedsEmbed env backend db hash := by
    intro hash
    unfold NeedsEmbed
    rw [excluded, needsEmbed_keyed]
  unfold Listed
  simp only [fits, waits]
  exact Iff.rfl

/-- How a completed unscoped run ends: with nothing to do, or with the work of a pass in which no document failed. -/
inductive RunLeft (env : Env V) (backend : Backend) (rebuild : Bool) (d : Disk V) (t : Store V) : Prop
  | idle (same : t.db = d.db)
      (nothing : d.db.listCollections = [] ∨ rebuild = false ∧ pendingEmbedCount env backend d.db = 0)
  | worked (some : d.db.listCollections ≠ []) (u : Store V) (taken : List Place) (result : EmbedRun × EmbedFlow) (mid : Store V)
      (rows : u.db = if rebuild then d.db.clearAllVectors else d.db.keyed env backend)
      (work : WorkLeft env backend d.db.listCollections u taken result mid t) (proceeded : result.2 = .proceed)
      (unfailed : result.1.failures = [])

theorem wp_runEmbed_done (chunked : env.Chunked) (d : Disk V) (rebuild : Bool) :
    wp Faults.any (runEmbed env backend none rebuild) (Ends.ifDone fun _ => RunLeft env backend rebuild d) (d.open false) := by
  have embed : ∀ s : Store V, s.hnsw.readOnly = false → (s.db = if rebuild then d.db.clearAllVectors else d.db) →
      d.db.listCollections ≠ [] →
      wp Faults.any (embedCollections env backend d.db.listCollections rebuild) (Ends.ifDone fun _ => RunLeft env backend rebuild d) s := by
    intro s writable here some
    rw [embedCollections_eq]
    refine wp_bind (wp_mono (wp_embedWork chunked writable) ?_ (fun _ _ _ => trivial) fun _ _ => trivial)
    rintro result t ⟨taken, mid, work⟩
    refine wp_ofExcept (fun _ ok => ?_) fun _ _ => trivial
    obtain ⟨proceeded, unfailed⟩ := finishEmbed_ok ok
    refine .worked some _ taken result mid ?_ work proceeded unfailed
    cases rebuild with
    | true => exact here
    | false => exact congrArg (Db.keyed env backend) here
  unfold runEmbed
  refine wp_bind (wp_modify (wp_bind (wp_query (wp_bind (wp_ofExcept ?_ fun _ _ => trivial)))))
  intro cols selected
  obtain rfl : d.db.listCollections = cols := Except.ok.inj selected
  simp only [Ends.with]
  split
  · next none => exact wp_pure (.idle rfl (.inl (List.isEmpty_iff.mp none)))
  · next some =>
    have listed : d.db.listCollections ≠ [] := fun none => some (List.isEmpty_iff.mpr none)
    cases rebuild with
    | true =>
      simp only [if_true]
      unfold clearUnscoped
      refine wp_bind (wp_bind (wp_effect ?_ (fun _ _ refused => by simp at refused) (fun _ _ _ _ => trivial) fun _ => trivial))
      intro _ after result
      obtain ⟨-, rfl⟩ := Prod.mk.inj result
      refine wp_bind (wp_modify (Store.wp_sqlExecute ?_ (fun _ _ => trivial) fun _ => trivial))
      exact wp_bind (wp_modify (embed _ openHnsw_writable rfl listed))
    | false =>
      simp only [Bool.false_eq_true, if_false]
      refine wp_bind (wp_modify (wp_bind (wp_query ?_)))
      simp only [Ends.with]
      split
      · next zero => exact wp_pure (.idle rfl (.inr ⟨rfl, zero⟩))
      · exact wp_bind (wp_modify (embed _ openHnsw_writable rfl listed))

namespace Disk

/-- The count is the number of texts an unscoped run queues, and the run leaves none waiting. -/
def CountsQueue (env : Env V) (backend : Backend) (rebuild : Bool) (fates : List (Fate FaultKind)) (d : Disk V) : Prop :=
  pendingEmbedCount env backend d.db = ((embedQueue env backend d.db).map Document.hash).dedup.length ∧
    pendingEmbedCount env backend (d.run (runEmbed env backend none rebuild) fates).db = 0

/-- The count agrees with the queue, and a completed run brings it to zero, exactly when every waiting text is a
document of a listed collection and none is queued for a path that hides its language. -/
theorem pending_counts_queue_iff (env : Env V) (backend : Backend) (d : Disk V) (rebuild : Bool) (fates : List (Fate FaultKind))
    (chunked : env.Chunked) (apart : env.PrintsApart backend)
    (completed : ((runEmbed env backend none rebuild) fates (d.open false)).completed = true) :
    d.CountsQueue env backend rebuild fates ↔ Listed env backend (d.db.embedStart rebuild) ∧
      ∀ doc ∈ embedQueue env backend (d.db.embedStart rebuild), ¬ Misrouted env backend (d.db.embedStart rebuild) doc := by
  obtain ⟨-, left⟩ := wp_completed (wp_runEmbed_done chunked d rebuild) (fun fate _ => any_allows fate) completed
  unfold CountsQueue
  rw [count_eq_queue_iff]
  change RunLeft env backend rebuild d (((runEmbed env backend none rebuild) fates (d.open false)).final) at left
  change _ ∧ pendingEmbedCount env backend ((runEmbed env backend none rebuild) fates (d.open false)).final.db = 0 ↔ _
  cases left with
  | idle same nothing =>
    have start : d.db.embedStart rebuild = d.db := by
      unfold Db.embedStart
      rcases nothing with none | ⟨plain, -⟩
      · simp [none]
      · simp [plain]
    have empty : embedQueue env backend d.db = [] := by
      rw [List.eq_nil_iff_forall_not_mem]
      intro doc queued
      obtain ⟨stored, fits, needs, col, inside, -⟩ := mem_embedQueue queued
      rcases nothing with none | ⟨-, zero⟩
      · have listed : col ∈ d.db.listCollections := inside
        rw [none] at listed
        exact absurd listed List.not_mem_nil
      · have counted := mem_countedHashes.mpr ⟨⟨doc, stored, fits, rfl⟩, needs⟩
        have zero' : (countedHashes env backend d.db).length = 0 := zero
        rw [List.length_eq_zero_iff.mp zero'] at counted
        exact absurd counted List.not_mem_nil
    have count : pendingEmbedCount env backend d.db = 0 ↔ Listed env backend d.db := by
      rw [← count_eq_queue_iff, empty]
      rfl
    rw [same, start, count, empty, and_self]
    exact ⟨fun listed => ⟨listed, fun _ none => absurd none List.not_mem_nil⟩, And.left⟩
  | worked some u taken result mid rows work proceeded unfailed =>
    have listed : d.db.listCollections = u.db.listCollections := by
      rw [rows]
      cases rebuild <;> rfl
    have start : (Listed env backend u.db ∧ ∀ doc ∈ embedQueue env backend u.db, ¬ Misrouted env backend u.db doc) ↔
        Listed env backend (d.db.embedStart rebuild) ∧
          ∀ doc ∈ embedQueue env backend (d.db.embedStart rebuild), ¬ Misrouted env backend (d.db.embedStart rebuild) doc := by
      rw [rows]
      cases rebuild with
      | true =>
        have begun : d.db.embedStart true = d.db.clearAllVectors := by simp [Db.embedStart, some]
        rw [begun]
        exact Iff.rfl
      | false =>
        have begun : d.db.embedStart false = d.db := rfl
        simp only [begun, Bool.false_eq_true, if_false, listed_keyed, embedQueue_keyed]
        exact Iff.rfl
    have zero := (listed ▸ work).count_zero_iff apart proceeded unfailed
    rw [zero, start, and_iff_right_iff_imp]
    rintro ⟨waiting, -⟩
    cases rebuild with
    | true =>
      have begun : d.db.embedStart true = d.db.clearAllVectors := by simp [Db.embedStart, some]
      exact listed_of_cleared (begun ▸ waiting)
    | false => exact waiting

/-- A Rust file and a text file, waiting. -/
def waitingDisk : Disk String := (Disk.empty : Disk String).after rustEnv
  [(.add notesCollection ⟨[notesFile "a.rs" (.ok (notesDoc "alpha")), notesFile "b.txt" (.ok (notesDoc "beta"))], by decide⟩, [])]

theorem pending_counts_queue_waiting : waitingDisk.CountsQueue rustEnv gemma false [] ↔
    Listed rustEnv gemma (waitingDisk.db.embedStart false) ∧ ∀ doc ∈ embedQueue rustEnv gemma (waitingDisk.db.embedStart false),
      ¬ Misrouted rustEnv gemma (waitingDisk.db.embedStart false) doc :=
  pending_counts_queue_iff rustEnv gemma waitingDisk false [] (fun _ _ => List.cons_ne_nil _ _) (by decide +kernel)
    (by decide +kernel)

/-- A hidden file named like an extension: SQL sees `.rs` at the end of its path, the file name has no extension. -/
def hiddenDisk : Disk String := (Disk.empty : Disk String).after rustEnv
  [(.add { notesCollection with allowHidden := true } ⟨[notesFile ".rs" (.ok (notesDoc "alpha"))], by decide⟩, [])]

theorem pending_count_stays : ((runEmbed rustEnv gemma none false) [] (hiddenDisk.open false)).completed = true ∧
    ¬ hiddenDisk.CountsQueue rustEnv gemma false [] := by
  have stays : pendingEmbedCount rustEnv gemma (hiddenDisk.run (runEmbed rustEnv gemma none false) []).db = 1 := by decide +kernel
  refine ⟨by decide +kernel, fun counts => ?_⟩
  rw [counts.2] at stays
  exact absurd stays (by decide)

end Disk

end Rqmd
