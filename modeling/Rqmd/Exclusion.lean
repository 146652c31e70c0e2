import Rqmd.Scope

/-! Embed exclusion. A rule keeps a document out of the lookup of a vector as it keeps it out of the embed queue,
and a reclaim of the vectors kept for excluded documents leaves those that another document needs. -/

namespace Rqmd
open Interrupt Select

variable {V : Type}

namespace Db

variable {db : Db} {globs : List String → String → Bool} {collections : Requested} {vid pos : Nat} {d : Document}

/-- The vector stands for an active document in scope, from the offset `pos` on. -/
structure Stands (db : Db) (vid : Nat) (collections : Requested) (d : Document) (pos : Nat) : Prop where
  stored : d ∈ db.documents
  active : d.active = true
  scope : d.within collections
  row : ∃ v ∈ db.vectors, v.vid = vid ∧ v.hash = d.hash ∧ v.pos = pos

/-- The first document the vector stands for, by collection and path, that no rule excludes. -/
structure FirstOpen (db : Db) (globs : List String → String → Bool) (vid : Nat) (collections : Requested) (d : Document)
    (pos : Nat) : Prop where
  stands : db.Stands vid collections d pos
  unruled : db.excludedFromEmbed globs d = false
  first : ∀ e place, db.Stands vid collections e place → db.excludedFromEmbed globs e = false → documentOrder d e

/-- The documents a lookup passes over on its way to the one it returns. -/
def skippedForVid (db : Db) (globs : List String → String → Bool) (vid : Nat) (collections : Requested) : List Document :=
  ((db.documentsForVid vid collections).takeWhile fun found => db.excludedFromEmbed globs found.1).map Prod.fst

/-- A document that is not excluded is on the hash, or waits for its vectors. -/
def wanted (db : Db) (excluded : List Nat) (hash : String) : Prop :=
  (∃ d ∈ db.documents, d.active = true ∧ d.id ∉ excluded ∧ d.hash = hash) ∨
    ∃ d ∈ db.documents, d.active = true ∧ d.id ∉ excluded ∧ d.prevHash = some hash ∧ db.hashHasAnyVector d.hash = false

/-- What lookups, the list of excluded documents and the rules have to do with each other. -/
structure ExclusionAgrees (db : Db) (globs : List String → String → Bool) : Prop where
  found : ∀ vid collections d pos, db.docChunkForVidInExcluding globs vid collections = some (d, pos) ↔
    db.FirstOpen globs vid collections d pos
  nothing : ∀ vid collections, db.docChunkForVidInExcluding globs vid collections = none ↔
    ∀ d pos, db.Stands vid collections d pos → db.excludedFromEmbed globs d = true
  skipped : ∀ vid collections d, db.contentNonEmpty d.hash = true →
    (d ∈ db.skippedForVid globs vid collections ↔ (∃ pos, db.Stands vid collections d pos) ∧ d.id ∈ db.excludedDocs globs ∧
      ∀ e place, db.docChunkForVidInExcluding globs vid collections = some (e, place) → documentOrder d e)
  ruleless : (∀ c ∈ db.collections, Collection.hasEmbedRule c = false) → ∀ vid collections,
    db.docChunkForVidInExcluding globs vid collections = db.docChunkForVidIn vid collections

theorem mem_documentsForVid_iff : (d, pos) ∈ db.documentsForVid vid collections ↔ db.Stands vid collections d pos := by
  rw [mem_documentsForVid]
  exact ⟨fun ⟨stored, active, scope, row⟩ => ⟨stored, active, scope, row⟩,
    fun stands => ⟨stands.stored, stands.active, stands.scope, stands.row⟩⟩

/-- Without rules nothing is excluded. -/
theorem excluded_ruleless (none : ∀ c ∈ db.collections, Collection.hasEmbedRule c = false) (d : Document) :
    db.excludedFromEmbed globs d = false := by
  unfold excludedFromEmbed
  cases known : db.findCollection d.collection with
  | none => rfl
  | some c =>
    have plain := none c (Table.find?_some known).1
    rw [Collection.hasEmbedRule, Bool.or_eq_false_iff] at plain
    obtain ⟨ignore, size⟩ := plain
    have uncapped : c.embedMaxBytes = Option.none := by simpa using size
    simp only [Collection.excludes, ignore, uncapped, Bool.false_and, Bool.or_self]

/-- With rules or without, the lookup takes the first document that is not excluded. -/
theorem lookup_eq (db : Db) (globs : List String → String → Bool) (vid : Nat) (collections : Requested) :
    db.docChunkForVidInExcluding globs vid collections =
      (db.documentsForVid vid collections).find? fun found => !db.excludedFromEmbed globs found.1 := by
  unfold docChunkForVidInExcluding
  by_cases ruled : db.collections.any Collection.hasEmbedRule = true
  · rw [if_pos ruled]
  · rw [if_neg ruled, docChunkForVidIn]
    have none : ∀ c ∈ db.collections, Collection.hasEmbedRule c = false := by
      intro c member
      by_contra rule
      exact ruled (Table.any_eq_true.mpr ⟨c, member, by simpa using rule⟩)
    have open' : ∀ found : Document × Nat, (!db.excludedFromEmbed globs found.1) = true := by
      intro found
      rw [excluded_ruleless none]
      rfl
    cases db.documentsForVid vid collections with
    | nil => rfl
    | cons found rest => simp only [List.head?_cons, List.find?_cons, open' found]

theorem documentOrder_refl (d : Document) : documentOrder d d := (documentOrder_total d d).elim id id

/-- Two documents of one place that a vector stands for are one. -/
theorem documentsForVid_order (db : Db) (vid : Nat) (collections : Requested) :
    ∀ a ∈ db.documentsForVid vid collections, ∀ b ∈ db.documentsForVid vid collections,
      documentOrder a.1 b.1 → documentOrder b.1 a.1 → a = b := by
  intro (d, pos) left (e, place) right before behind
  obtain ⟨inside, _, _, v, row, key, _, here⟩ := mem_documentsForVid.mp left
  obtain ⟨other, _, _, w, twin, label, _, there⟩ := mem_documentsForVid.mp right
  have same : d = e := Table.eq_of_clash inside other (.inr (documentOrder_antisymm before behind))
  have vector : v = w := Table.eq_of_clash row twin (.inr (key.trans label.symm))
  rw [same, ← here, ← there, vector]

theorem lookup_some_iff : db.docChunkForVidInExcluding globs vid collections = some (d, pos) ↔
    db.FirstOpen globs vid collections d pos := by
  rw [lookup_eq, find?_first_iff (db.documentsForVid_sorted vid collections) (fun a => documentOrder_refl a.1)
    (db.documentsForVid_order vid collections), mem_documentsForVid_iff, Bool.not_eq_true']
  constructor
  · intro ⟨stands, unruled, first⟩
    refine ⟨stands, unruled, fun e place other open' => ?_⟩
    exact first (e, place) (mem_documentsForVid_iff.mpr other) (by rw [open']; rfl)
  · intro first
    refine ⟨first.stands, first.unruled, fun (e, place) inside open' => ?_⟩
    exact first.first e place (mem_documentsForVid_iff.mp inside) (by simpa using open')

theorem lookup_none_iff : db.docChunkForVidInExcluding globs vid collections = none ↔
    ∀ d pos, db.Stands vid collections d pos → db.excludedFromEmbed globs d = true := by
  rw [lookup_eq, List.find?_eq_none]
  constructor
  · intro all d pos stands
    simpa using all (d, pos) (mem_documentsForVid_iff.mpr stands)
  · intro all (d, pos) inside
    simpa using all d pos (mem_documentsForVid_iff.mp inside)

/-- A stored document with text is on the list exactly when a rule excludes it. -/
theorem mem_excludedDocs_iff (stored : d ∈ db.documents) (active : d.active = true)
    (text : db.contentNonEmpty d.hash = true) : d.id ∈ db.excludedDocs globs ↔ db.excludedFromEmbed globs d = true := by
  have held : ∃ doc, db.getContent d.hash = some doc := by
    obtain ⟨row, content, same⟩ := db.referenced d stored
    cases known : db.getContentRow d.hash with
    | none => exact absurd (beq_iff_eq.mpr same) (Table.find?_none known row content)
    | some row => exact ⟨row.doc, by rw [getContent, known]; rfl⟩
  obtain ⟨doc, content⟩ := held
  simp only [excludedDocs, List.mem_map, List.mem_filter, Table.mem_select, Bool.and_eq_true]
  constructor
  · intro ⟨e, ⟨⟨inside, _, _⟩, check⟩, same⟩
    obtain rfl : e = d := Table.eq_of_clash inside stored (.inl same)
    unfold excludedFromEmbed
    rw [content] at check ⊢
    cases known : db.findCollection e.collection with
    | none =>
      rw [known] at check
      cases check
    | some c =>
      rw [known] at check
      exact check
  · intro excluded
    refine ⟨d, ⟨⟨stored, active, text⟩, ?_⟩, rfl⟩
    unfold excludedFromEmbed at excluded
    rw [content] at excluded ⊢
    cases known : db.findCollection d.collection with
    | none =>
      rw [known] at excluded
      cases excluded
    | some c =>
      rw [known] at excluded
      exact excluded

theorem mem_skippedForVid : d ∈ db.skippedForVid globs vid collections ↔
    (∃ pos, db.Stands vid collections d pos) ∧ db.excludedFromEmbed globs d = true ∧
      ∀ e place, db.docChunkForVidInExcluding globs vid collections = some (e, place) → documentOrder d e := by
  have passed : ∀ found : Document × Nat,
      (found ∈ (db.documentsForVid vid collections).takeWhile fun found => db.excludedFromEmbed globs found.1) ↔
        found ∈ db.documentsForVid vid collections ∧ db.excludedFromEmbed globs found.1 = true ∧
          ∀ other, db.docChunkForVidInExcluding globs vid collections = some other → documentOrder found.1 other.1 := by
    intro found
    have rule := @mem_takeWhile_iff _ _ (fun a b : Document × Nat => documentOrder a.1 b.1)
      (fun found => !db.excludedFromEmbed globs found.1) found (db.documentsForVid_sorted vid collections)
      (db.documentsForVid_order vid collections)
    simp only [Bool.not_not, Bool.not_eq_false'] at rule
    rw [rule, lookup_eq]
  rw [skippedForVid, List.mem_map]
  constructor
  · intro ⟨found, inside, same⟩
    obtain ⟨member, excluded, before⟩ := (passed found).mp inside
    rw [← same]
    exact ⟨⟨found.2, mem_documentsForVid_iff.mp member⟩, excluded, fun e place result => before (e, place) result⟩
  · intro ⟨⟨pos, stands⟩, excluded, before⟩
    exact ⟨(d, pos), (passed (d, pos)).mpr ⟨mem_documentsForVid_iff.mpr stands, excluded, fun other => before other.1 other.2⟩, rfl⟩

theorem exclusionAgrees (db : Db) (globs : List String → String → Bool) : db.ExclusionAgrees globs := by
  refine ⟨fun _ _ _ _ => lookup_some_iff, fun _ _ => lookup_none_iff, ?_, ?_⟩
  · intro vid collections d text
    rw [mem_skippedForVid]
    constructor
    · intro ⟨⟨pos, stands⟩, excluded, before⟩
      exact ⟨⟨pos, stands⟩, (mem_excludedDocs_iff stands.stored stands.active text).mpr excluded, before⟩
    · intro ⟨⟨pos, stands⟩, listed, before⟩
      exact ⟨⟨pos, stands⟩, (mem_excludedDocs_iff stands.stored stands.active text).mp listed, before⟩
  · intro none vid collections
    unfold docChunkForVidInExcluding
    have ruleless : ¬ db.collections.any Collection.hasEmbedRule = true := by
      intro ruled
      obtain ⟨c, member, rule⟩ := Table.any_eq_true.mp ruled
      rw [none c member] at rule
      cases rule
    rw [if_neg ruleless]

/-- The vectors of a wanted hash are not on the list of a reclaim. -/
theorem wanted_unlisted {excluded : List Nat} {hash : String} (wanted : db.wanted excluded hash) :
    hash ∉ db.excludedOnlyVectorHashes excluded := by
  intro listed
  unfold excludedOnlyVectorHashes at listed
  split at listed
  · exact List.not_mem_nil listed
  · obtain ⟨row, inside, same⟩ := List.mem_map.mp (List.mem_dedup.mp listed)
    have only : db.excludedOnly excluded hash = true := same ▸ (Table.mem_select.mp inside).2
    simp only [excludedOnly, Bool.and_eq_true, Bool.not_eq_true', ← Bool.not_eq_true, Table.any_eq_true, not_exists,
      beq_iff_eq, List.contains_iff_mem] at only
    obtain ⟨⟨_, unshared⟩, undonated⟩ := only
    rcases wanted with ⟨d, stored, active, free, same⟩ | ⟨d, stored, active, free, donor, bare⟩
    · exact unshared d ⟨stored, ⟨active, same⟩, by simpa using free⟩
    · exact undonated d ⟨stored, ⟨⟨active, donor⟩, by simpa using free⟩, by simpa using bare⟩

end Db

namespace Store

/-! ### The reclaim -/

variable {s t : Store V} {faults : Faults FaultKind} {hashes : List String}

/-- What a reclaim of `hashes` has left, at any moment, of the rows and vectors of other hashes. -/
structure SparesOthers (hashes : List String) (s t : Store V) : Prop where
  fewer : ∀ row ∈ t.db.vectors, row ∈ s.db.vectors
  rows : ∀ row ∈ s.db.vectors, row.hash ∉ hashes → row ∈ t.db.vectors
  memory : ∀ row ∈ s.db.vectors, row.hash ∉ hashes → t.hnsw.getVector row.vid = s.hnsw.getVector row.vid
  file : ∀ row ∈ s.db.vectors, row.hash ∉ hashes →
    (t.hnswFile.getD .empty).get? row.vid = (s.hnswFile.getD .empty).get? row.vid ∨
      (t.hnswFile.getD .empty).get? row.vid = s.hnsw.getVector row.vid

theorem SparesOthers.refl (hashes : List String) (s : Store V) : SparesOthers hashes s s :=
  ⟨fun _ => id, fun _ stored _ => stored, fun _ _ _ => rfl, fun _ _ _ => .inl rfl⟩

/-- A change of the full-text index, of the record, or of whether the file is due. -/
theorem SparesOthers.aside {fts : FtsIndex} {dirty : Bool} {log : List Event} (spares : SparesOthers hashes s t) :
    SparesOthers hashes s { t with fts := fts, hnswDirty := dirty, log := log } :=
  ⟨spares.fewer, spares.rows, spares.memory, spares.file⟩

theorem SparesOthers.renamed (spares : SparesOthers hashes s t) : SparesOthers hashes s t.renamed :=
  ⟨spares.fewer, spares.rows, spares.memory, fun row stored other => .inr (spares.memory row stored other)⟩

theorem SparesOthers.evicted {hash : String} (spares : SparesOthers hashes s t) (listed : hash ∈ hashes) :
    SparesOthers hashes s { t with hnsw := removeVids t.hnsw (t.db.vidsForHash hash), hnswDirty := true } := by
  refine ⟨spares.fewer, spares.rows, fun row stored other => ?_, spares.file⟩
  have own : row.vid ∉ t.db.vidsForHash hash := by
    intro theirs
    obtain ⟨twin, inside, same, place⟩ := Db.mem_vidsForHash.mp theirs
    have equal : twin = row := Table.eq_of_clash (spares.fewer twin inside) stored (.inr same)
    exact other (equal ▸ place ▸ listed)
  rw [← spares.memory row stored other]
  exact (get?_removeVids t.hnsw _ row.vid).trans (if_neg own)

theorem SparesOthers.deleted (spares : SparesOthers hashes s t) {log : List Event} :
    SparesOthers hashes s { t with db := hashes.foldl Db.deleteVectorsForHash t.db, log := log } := by
  refine ⟨fun row inside => ?_, fun row stored other => ?_, spares.memory, spares.file⟩
  · exact spares.fewer row ((Db.mem_deleteVectors hashes t.db row).mp inside).1
  · exact (Db.mem_deleteVectors hashes t.db row).mpr ⟨spares.rows row stored other, other⟩

theorem preserves_flush_spares : Preserves faults (SparesOthers hashes s) (flush (V := V)) := by
  intro t spares
  have settled : SparesOthers hashes s t.settled := by
    unfold settled
    split
    · exact spares.aside
    · exact spares
  have flushed : SparesOthers hashes s t.flushed := by
    unfold flushed
    split
    · exact settled.renamed.aside
    · exact settled
  exact wp_flush flushed (fun _ _ _ => settled) (fun _ _ => ⟨spares, settled⟩) (fun _ _ _ _ => ⟨settled, settled.renamed⟩)
    fun _ => ⟨spares, settled, fun _ _ => settled.renamed⟩

theorem wp_evictHash_spares {hash : String} (listed : hash ∈ hashes) (spares : SparesOthers hashes s t) :
    wp faults (evictHash hash) (Ends.all (SparesOthers hashes s)) t := by
  unfold evictHash evictHnswVectors
  refine wp_bind (wp_query ?_)
  simp only [Ends.with]
  by_cases none : (t.db.vidsForHash hash).isEmpty = true
  · rw [if_pos none]
    exact wp_pure spares
  · rw [if_neg none]
    refine wp_bind (wp_query ?_)
    simp only [Ends.with]
    split
    · exact wp_throw spares
    · exact wp_modify (spares.evicted listed)

/-- However the reclaim ends, it has touched the vectors of the given hashes only. -/
theorem wp_reclaimVectorsOf_spares (hashes : List String) (s : Store V) :
    wp faults (reclaimVectorsOf hashes) (Ends.all (SparesOthers hashes s)) s := by
  unfold reclaimVectorsOf
  by_cases none : hashes.isEmpty = true
  · rw [if_pos none]
    exact wp_pure (.refl hashes s)
  · rw [if_neg none]
    have loop : ∀ (rest : List String) (t : Store V), rest ⊆ hashes → SparesOthers hashes s t →
        wp faults (Prog.forEach evictHash rest) (Ends.all (SparesOthers hashes s)) t := by
      intro rest
      induction rest with
      | nil => exact fun t _ spares => wp_pure spares
      | cons hash rest later =>
        intro t inside spares
        have first : wp faults (evictHash hash) (Ends.all (SparesOthers hashes s)) t :=
          wp_evictHash_spares (inside List.mem_cons_self) spares
        exact wp_bind (wp_done first fun _ u kept => later u (fun x member => inside (List.mem_cons_of_mem _ member)) kept)
    refine wp_bind (wp_done (loop hashes s (fun _ => id) (.refl hashes s)) fun _ t spares => ?_)
    refine wp_bind (wp_done (preserves_flush_spares t spares) fun _ u kept => ?_)
    exact wp_sqlExecute kept.deleted (fun _ _ => kept) fun _ => kept

/-- What the store holds for a wanted hash, rows, vectors in memory and vectors in the file, it holds after too. -/
def KeepsWanted (excluded : List Nat) (s t : Store V) : Prop :=
  ∀ row ∈ s.db.vectors, s.db.wanted excluded row.hash →
    row ∈ t.db.vectors ∧ t.hnsw.getVector row.vid = s.hnsw.getVector row.vid ∧
      ((t.hnswFile.getD .empty).get? row.vid = (s.hnswFile.getD .empty).get? row.vid ∨
        (t.hnswFile.getD .empty).get? row.vid = s.hnsw.getVector row.vid)

theorem reclaim_keepsWanted (s : Store V) (excluded : List Nat) (fates : List (Fate FaultKind)) :
    s.KeepsWanted excluded (reclaimExcludedVectors excluded fates s).final := by
  have spared : wp Faults.any (reclaimExcludedVectors excluded)
      (Ends.all (SparesOthers (s.db.excludedOnlyVectorHashes excluded) s)) s := by
    unfold reclaimExcludedVectors
    exact wp_bind (wp_query (wp_reclaimVectorsOf_spares _ s))
  have left : SparesOthers (s.db.excludedOnlyVectorHashes excluded) s (reclaimExcludedVectors excluded fates s).final :=
    wp_final spared fun fate _ => any_allows fate
  intro row stored wanted
  have other := Db.wanted_unlisted wanted
  exact ⟨left.rows row stored other, left.memory row stored other, left.file row stored other⟩

end Store

/-- For every database, the lookup of a vector answers with the first document in scope that no rule excludes, passes
over those with text that are on the list of excluded documents, and is the plain lookup where there are no rules; and
for every store a reclaim, complete, failed or cut, leaves what the documents that are not excluded need. -/
theorem exclusion_is_consistent (globs : List String → String → Bool) :
    (∀ db : Db, db.ExclusionAgrees globs) ∧
      ∀ (s : Store V) (excluded : List Nat) (fates : List (Fate FaultKind)),
        s.KeepsWanted excluded (Store.reclaimExcludedVectors excluded fates s).final :=
  ⟨fun db => db.exclusionAgrees globs, Store.reclaim_keepsWanted⟩

/-- The edited note still waits for its vectors, and now both files are over the caps of their collections. -/
def cappedDisk : Disk String := Db.editedDisk.after sampleEnv
  [(.set notes none (some (some 1)), []), (.set Db.work none (some (some 1)), [])]

/-- An empty document under a rule, on a hash that has a vector. -/
def emptyUnderRule : Except Failure Db := do
  let ruled := Db.empty.upsertCollection { notesCollection with embedIgnore := ["*"] }
  let (_, db) ← (ruled.upsertContent "none" "").upsertDocument notes "a.md" "a" "none"
  db.upsertVectorMeta ⟨"none", 0, 0, "gemma", "", 1, 7, none, none⟩

/-- The lookup passes over an empty document that is not on the list; and the donor of an excluded document that waits
for its vectors goes with those of the other excluded ones. -/
theorem exclusion_differs :
    (∃ db : Db, emptyUnderRule = .ok db ∧
      ∃ d ∈ db.skippedForVid (fun _ _ => true) 7 none, d.id ∉ db.excludedDocs fun _ _ => true) ∧
    ∃ row ∈ cappedDisk.db.vectors.rows,
      (∃ d ∈ cappedDisk.db.documents.rows, d.active = true ∧ d.prevHash = some row.hash ∧
        cappedDisk.db.hashHasAnyVector d.hash = false) ∧
      ¬ row ∈ (Store.reclaimExcludedVectors (cappedDisk.db.excludedDocs sampleEnv.globs) []
        (cappedDisk.open false)).final.db.vectors.rows := by
  constructor
  · have lists : emptyUnderRule.toOption.map (fun db =>
        ((db.skippedForVid (fun _ _ => true) 7 none).map Document.id, db.excludedDocs fun _ _ => true)) =
          some ([1], []) := by
      decide +kernel
    obtain ⟨db, made, both⟩ := ok_of_toOption lists
    obtain ⟨skipped, unlisted⟩ := Prod.mk.inj both
    have some : (1 : Nat) ∈ (db.skippedForVid (fun _ _ => true) 7 none).map Document.id := by
      rw [skipped]
      exact List.mem_cons_self
    obtain ⟨d, member, _⟩ := List.mem_map.mp some
    refine ⟨db, made, d, member, ?_⟩
    rw [unlisted]
    exact List.not_mem_nil
  · decide +kernel

end Rqmd
