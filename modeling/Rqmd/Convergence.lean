import Rqmd.Slots

/-! Complete, failure-free update passes. Each path settles on its own, so a pass brings a collection in
step with its directory exactly when no path of it meets one of the branches that skip it. -/

namespace Rqmd
open Interrupt

variable {V : Type} {env : Env V} {s : Store V} {c d : CollectionName} {p q : String}

/-- What indexing one file makes of its slot. -/
structure Slot.Settles (env : Env V) (c : CollectionName) (cache : List (String × FileStat)) (file : WalkedFile)
    (before after : Slot) : Prop where
  skipped : cached cache file = true ∨ (∃ reason, file.prepared = .error reason) → after = before
  unchanged : ∀ doc, cached cache file = false → file.prepared = .ok doc →
    (∃ v, before.row = some v ∧ v.hash = env.contentHash doc.indexedText) → after = before
  written : ∀ doc, cached cache file = false → file.prepared = .ok doc →
    ¬ (∃ v, before.row = some v ∧ v.hash = env.contentHash doc.indexedText) →
    ∃ id entry, entry.docId = id ∧ after = before.rewritten (env.pathTerms (filepath c file.relPath)).isEmpty
      (Store.writtenView env doc id) entry

theorem slot_row : (s.slot c p).row = s.db.rowAt c p := rfl

theorem wp_indexFile_calm {cache : List (String × FileStat)} {file : WalkedFile} {tally : UpdateTally}
    (placed : Placed s) : wp Faults.calm (indexFile env c cache file tally)
      (Ends.only fun _ t => Placed t ∧ t.hnsw = s.hnsw ∧ t.hnswDirty = s.hnswDirty ∧
        (∀ d q, (d, q) ≠ (c, file.relPath) → t.slot d q = s.slot d q) ∧
        Slot.Settles env c cache file (s.slot c file.relPath) (t.slot c file.relPath)) s := by
  refine wp_indexFile ?_ ?_ ?_ ?_ ?_ ?_
  · intro skip _
    refine ⟨placed, rfl, rfl, fun _ _ _ => rfl, fun _ => rfl, ?_, ?_⟩
    · exact fun _ _ _ _ => rfl
    · intro doc miss prepared
      rcases skip with hit | ⟨reason, failed⟩
      · rw [hit] at miss
        cases miss
      · rw [failed] at prepared
        cases prepared
  · intro doc miss prepared same db unmoved _
    refine ⟨placed.unmoved unmoved, rfl, rfl, fun d q _ => slot_of_rows (unmoved.rows d q), ?_⟩
    refine ⟨fun _ => slot_of_rows (unmoved.rows _ _), fun _ _ _ _ => slot_of_rows (unmoved.rows _ _), ?_⟩
    intro other _ prepared' changed
    rw [prepared] at prepared'
    cases prepared'
    exact absurd (Store.classify_unchanged.mp same) changed
  · intro doc miss prepared db id written own changed _
    refine ⟨placed.indexed own written, rfl, rfl, fun d q elsewhere => slot_indexed_other placed own written elsewhere, ?_⟩
    have row := slot_indexed_self placed own written
    refine ⟨?_, ?_, ?_⟩
    · rintro (hit | ⟨reason, failed⟩)
      · rw [hit] at miss
        cases miss
      · rw [failed] at prepared
        cases prepared
    · intro other _ prepared' same
      rw [prepared] at prepared'
      cases prepared'
      exact absurd (Store.classify_unchanged.mpr same) changed
    · intro other _ prepared' _
      rw [prepared] at prepared'
      cases prepared'
      exact ⟨id, _, rfl, row⟩
  · exact fun impossible => impossible.elim False.elim False.elim
  · exact False.elim
  · exact False.elim

/-- What a file's indexing makes of its slot is what the whole loop makes of it. -/
theorem wp_indexFiles_calm {cache : List (String × FileStat)} {makes : WalkedFile → Slot → Slot → Prop}
    (each : ∀ file tally (s : Store V), Placed s → wp Faults.calm (indexFile env c cache file tally)
      (Ends.only fun _ t => makes file (s.slot c file.relPath) (t.slot c file.relPath)) s)
    (files : List WalkedFile) (distinct : (files.map WalkedFile.relPath).Nodup) (tally : UpdateTally) (s : Store V)
    (placed : Placed s) : wp Faults.calm (indexFiles env c cache files tally)
      (Ends.only fun r t => r.2 = false ∧ Placed t ∧ t.hnsw = s.hnsw ∧ t.hnswDirty = s.hnswDirty ∧
        (∀ d q, d ≠ c ∨ q ∉ files.map WalkedFile.relPath → t.slot d q = s.slot d q) ∧
        ∀ file ∈ files, Slot.Settles env c cache file (s.slot c file.relPath) (t.slot c file.relPath) ∧
          makes file (s.slot c file.relPath) (t.slot c file.relPath)) s := by
  induction files generalizing tally s with
  | nil => exact wp_pure ⟨rfl, placed, rfl, rfl, fun _ _ _ => rfl, fun _ member => absurd member List.not_mem_nil⟩
  | cons file files ih =>
    rw [List.map_cons, List.nodup_cons] at distinct
    unfold indexFiles
    refine wp_bind (wp_poll ?_ (fun raised => False.elim raised) False.elim)
    have step := wp_and (@wp_indexFile_calm V env s c cache file tally placed) (each file tally s placed)
    refine wp_bind (wp_mono step ?_ (fun _ _ both => both.1.elim) fun _ both => both.1.elim)
    rintro tally t ⟨⟨placedT, hnswT, dirtyT, othersT, settles⟩, made⟩
    refine wp_mono (ih distinct.2 tally t placedT) ?_ (fun _ _ => False.elim) fun _ => False.elim
    rintro r u ⟨stopped, placedU, hnswU, dirtyU, othersU, rest⟩
    refine ⟨stopped, placedU, hnswU.trans hnswT, dirtyU.trans dirtyT, ?_, ?_⟩
    · intro d q outside
      rw [List.map_cons, List.mem_cons, not_or] at outside
      refine (othersU d q (outside.imp_right fun both => both.2)).trans (othersT d q ?_)
      rintro same
      simp only [Prod.mk.injEq] at same
      exact outside.elim (fun other => other same.1) fun both => both.1 same.2
    · intro other member
      rcases List.mem_cons.mp member with rfl | later
      · rw [othersU c other.relPath (.inr distinct.1)]
        exact ⟨settles, made⟩
      · have apart : (c, other.relPath) ≠ (c, file.relPath) := by
          intro same
          simp only [Prod.mk.injEq, true_and] at same
          exact distinct.1 (same ▸ List.mem_map_of_mem later)
        rw [← othersT c other.relPath apart]
        exact rest other later

/-- What the sweep makes of the slot of a path that is not among the walked ones. -/
def Slot.swept (termless : Bool) (slot : Slot) : Slot :=
  match slot.row with
  | some v => if v.active then ⟨some v.gone, if termless then slot.entries else []⟩ else slot
  | none => slot

theorem missing_iff {db : Db} {present : List String} : q ∈ db.missingDocuments c present ↔
    q ∉ present ∧ ∃ v, db.rowAt c q = some v ∧ v.active = true := by
  simp only [Db.missingDocuments, List.mem_map, Table.mem_select, Bool.and_eq_true, beq_iff_eq, Bool.not_eq_true',
    List.contains_eq_mem, decide_eq_false_iff_not]
  constructor
  · rintro ⟨row, ⟨member, ⟨name, active⟩, absent⟩, rfl⟩
    exact ⟨absent, _, name ▸ Db.rowAt_mem member, active⟩
  · rintro ⟨absent, v, found, active⟩
    obtain ⟨row, member, name, rfl, rfl⟩ := Db.rowAt_eq_some.mp found
    exact ⟨row, ⟨member, ⟨name, active⟩, absent⟩, rfl⟩

theorem wp_removeStale_calm (removed : List String) (s : Store V) (placed : Placed s) :
    wp Faults.calm (Prog.forEach (fun path => Store.removeStaleEntry env (filepath c path)) removed)
      (Ends.only fun _ t => Placed t ∧ t.hnsw = s.hnsw ∧ t.hnswDirty = s.hnswDirty ∧ ∀ d q, t.slot d q =
        ⟨(s.slot d q).row, if d = c ∧ q ∈ removed ∧ env.pathTerms (filepath c q) ≠ [] then []
          else (s.slot d q).entries⟩) s := by
  induction removed generalizing s with
  | nil => exact wp_pure ⟨placed, rfl, rfl, fun d q => by simp⟩
  | cons path removed ih =>
    refine wp_bind (Store.wp_removeStaleEntry ?_ False.elim False.elim)
    refine wp_mono (ih _ (placed.deleted (filepath c path))) ?_ (fun _ _ => False.elim) fun _ => False.elim
    rintro _ t ⟨placedT, hnsw, dirty, slots⟩
    refine ⟨placedT, hnsw, dirty, fun d q => ?_⟩
    rw [slots d q, slot_deleted placed]
    by_cases termless : env.pathTerms (filepath c q) = [] <;> by_cases name : d = c <;>
      by_cases head : q = path
    all_goals first
      | (subst head; simp [termless, name])
      | simp [termless, name, head]

theorem wp_pruneMissing_calm {walk : Walk} (nonempty : walk.files ≠ []) (placed : Placed s) :
    wp Faults.calm (pruneMissing env c walk) (Ends.only fun _ t => Placed t ∧ t.hnsw = s.hnsw ∧
      t.hnswDirty = s.hnswDirty ∧ ∀ d q, t.slot d q =
        if d = c ∧ q ∉ walk.paths then (s.slot d q).swept (env.pathTerms (filepath c q)).isEmpty else s.slot d q) s := by
  unfold pruneMissing
  rw [if_neg (by simpa using nonempty)]
  refine wp_bind (Store.wp_deactivateMissing ?_ (fun raised => False.elim raised) False.elim)
  intro chunks all
  refine wp_bind (wp_mono (wp_removeStale_calm _ _ (placed.deactivated chunks)) ?_ (fun _ _ => False.elim)
    fun _ => False.elim)
  rintro _ t ⟨placedT, hnsw, dirty, slots⟩
  refine wp_pure ⟨placedT, hnsw, dirty, fun d q => ?_⟩
  rw [slots d q, slot_deactivated, all]
  simp only [Slot.swept, slot_row]
  by_cases name : d = c
  · subst name
    cases row : s.db.rowAt d q with
    | none =>
      have kept : q ∉ s.db.missingDocuments d walk.paths := fun missing => by
        obtain ⟨-, v, found, -⟩ := missing_iff.mp missing
        rw [row] at found
        cases found
      simp [Store.slot, row, kept]
    | some v =>
      cases active : v.active with
      | false =>
        have kept : q ∉ s.db.missingDocuments d walk.paths := fun missing => by
          obtain ⟨-, w, found, live⟩ := missing_iff.mp missing
          rw [row] at found
          cases found
          rw [active] at live
          cases live
        simp [Store.slot, row, kept, active]
      | true =>
        by_cases inside : q ∈ walk.paths
        · have kept : q ∉ s.db.missingDocuments d walk.paths := fun missing => (missing_iff.mp missing).1 inside
          simp [Store.slot, row, kept, inside]
        · have missing : q ∈ s.db.missingDocuments d walk.paths := missing_iff.mpr ⟨inside, v, row, active⟩
          by_cases termless : env.pathTerms (filepath d q) = [] <;> simp [missing, inside, termless, active]
  · simp [name, Store.slot]

/-- What a complete pass makes of every slot. -/
structure Passed (env : Env V) (c : CollectionName) (cache : List (String × FileStat)) (walk : Walk)
    (before after : CollectionName → String → Slot) : Prop where
  others : ∀ d q, d ≠ c → after d q = before d q
  walked : ∀ file ∈ walk.files, Slot.Settles env c cache file (before c file.relPath) (after c file.relPath)
  missing : walk.files ≠ [] → ∀ q, q ∉ walk.paths →
    after c q = (before c q).swept (env.pathTerms (filepath c q)).isEmpty
  empty : walk.files = [] → ∀ q, after c q = before c q

theorem Placed.settled (placed : Placed s) : Placed s.settled ∧ s.settled.fts.working = s.settled.fts.committed ∧
    ∀ d q, s.settled.slot d q = s.slot d q := by
  unfold Store.settled
  split
  · exact ⟨⟨FtsIndex.located_commit placed.located, placed.working, placed.working,
      fun _ member => absurd member List.not_mem_nil, fun _ => rfl⟩, rfl, fun _ _ => rfl⟩
  · next idle =>
    rw [Bool.not_eq_true] at idle
    exact ⟨placed, placed.idle idle, fun _ _ => rfl⟩

theorem wp_update_each {full : Bool} {hookFailure : Option String} {walk : Walk}
    {makes : List (String × FileStat) → WalkedFile → Slot → Slot → Prop} (each : ∀ cache file tally (s : Store V), Placed s →
      wp Faults.calm (indexFile env c cache file tally)
        (Ends.only fun _ t => makes cache file (s.slot c file.relPath) (t.slot c file.relPath)) s)
    (placed : Placed s) (clean : s.hnswDirty = false) :
    wp Faults.calm (updateOneCollection env c full (.walked hookFailure walk))
      (Ends.only fun o t => o.interrupted = false ∧ Placed t ∧ t.fts.working = t.fts.committed ∧ t.hnswDirty = false ∧
        Passed env c (if full then [] else s.db.loadDocStatCache c) walk s.slot t.slot ∧
        ∀ file ∈ walk.files, makes (if full then [] else s.db.loadDocStatCache c) file (s.slot c file.relPath)
          (t.slot c file.relPath)) s := by
  unfold updateOneCollection
  refine wp_bind (wp_query ?_)
  generalize (if full then [] else s.db.loadDocStatCache c) = cache
  refine wp_bind (wp_mono (wp_indexFiles_calm (each cache) walk.files walk.distinct _ s placed) ?_ (fun _ _ => False.elim) fun _ => False.elim)
  rintro ⟨tally, stopped⟩ t ⟨going, placedT, hnswT, dirtyT, othersT, settles⟩
  simp only at going
  subst going
  have finish : ∀ u : Store V, Placed u → u.hnswDirty = false → (Passed env c cache walk s.slot u.slot ∧
      ∀ file ∈ walk.files, makes cache file (s.slot c file.relPath) (u.slot c file.relPath)) →
        ∀ o : CollectionOutcome, o.interrupted = false → wp Faults.calm (do Store.flush; pure o : Command V CollectionOutcome)
        (Ends.only fun o t => o.interrupted = false ∧ Placed t ∧ t.fts.working = t.fts.committed ∧ t.hnswDirty = false ∧
          Passed env c cache walk s.slot t.slot ∧
          ∀ file ∈ walk.files, makes cache file (s.slot c file.relPath) (t.slot c file.relPath)) u := by
    intro u placedU cleanU passed o quiet
    refine wp_bind (Store.wp_flush (wp_pure ?_) ?_ False.elim False.elim False.elim)
    · obtain ⟨placedV, even, same⟩ := placedU.settled
      simp only [Store.flushed, cleanU, Bool.false_eq_true, if_false]
      refine ⟨quiet, placedV, even, by rw [Store.settled_hnswDirty, cleanU], ?_⟩
      rwa [show u.settled.slot = u.slot from funext fun d => funext fun q => same d q]
    · intro dirty
      rw [cleanU] at dirty
      cases dirty
  by_cases none : walk.files = []
  · have nothing : (pruneMissing env c walk : Command V Nat) = pure 0 := by
      unfold pruneMissing
      exact if_pos (by rw [none, List.isEmpty_nil])
    refine wp_bind ?_
    rw [nothing]
    refine wp_pure (finish t placedT (dirtyT.trans clean) ⟨⟨?_, ?_, fun absurd => (absurd none).elim, ?_⟩, ?_⟩ _ rfl)
    · exact fun d q other => othersT d q (.inl other)
    · exact fun file member => (settles file member).1
    · exact fun _ q => othersT c q (.inr (by simp [none]))
    · exact fun file member => (settles file member).2
  · refine wp_bind (wp_mono (wp_pruneMissing_calm none placedT) ?_ (fun _ _ => False.elim) fun _ => False.elim)
    rintro removed u ⟨placedU, hnswU, dirtyU, slots⟩
    refine finish u placedU (dirtyU.trans (dirtyT.trans clean)) ⟨⟨?_, ?_, ?_, fun empty => (none empty).elim⟩, ?_⟩ _ rfl
    · intro d q other
      rw [slots d q, if_neg fun both => other both.1]
      exact othersT d q (.inl other)
    · intro file member
      have inside : file.relPath ∈ walk.paths := List.mem_map_of_mem member
      rw [slots c file.relPath, if_neg fun both => both.2 inside]
      exact (settles file member).1
    · intro _ q outside
      rw [slots c q, if_pos ⟨rfl, outside⟩, othersT c q (.inr outside)]
    · intro file member
      have inside : file.relPath ∈ walk.paths := List.mem_map_of_mem member
      rw [slots c file.relPath, if_neg fun both => both.2 inside]
      exact (settles file member).2

theorem wp_update_calm {full : Bool} {hookFailure : Option String} {walk : Walk} (placed : Placed s)
    (clean : s.hnswDirty = false) :
    wp Faults.calm (updateOneCollection env c full (.walked hookFailure walk))
      (Ends.only fun _ t => Placed t ∧ t.fts.working = t.fts.committed ∧
        Passed env c (if full then [] else s.db.loadDocStatCache c) walk s.slot t.slot) s := by
  let anything : List (String × FileStat) → WalkedFile → Slot → Slot → Prop := fun _ _ _ _ => True
  have each : ∀ cache file tally (s : Store V), Placed s → wp Faults.calm (indexFile env c cache file tally)
      (Ends.only fun _ t => anything cache file (s.slot c file.relPath) (t.slot c file.relPath)) s := by
    intro cache file tally s placed
    exact wp_mono (wp_indexFile_calm placed) (fun _ _ _ => trivial) (fun _ _ => False.elim) fun _ => False.elim
  refine wp_mono (wp_update_each each placed clean) ?_ (fun _ _ => False.elim) fun _ => False.elim
  intro o t passed
  exact ⟨passed.2.1, passed.2.2.1, passed.2.2.2.2.1⟩

theorem cached_iff {db : Db} {full : Bool} {file : WalkedFile} :
    cached (if full then [] else db.loadDocStatCache c) file = true ↔ full = false ∧ file.stat.isSome = true ∧
      ∃ row ∈ db.documents, row.collection = c ∧ row.path = file.relPath ∧ row.active = true ∧ row.stat = file.stat := by
  have entry : ∀ p st, (p, st) ∈ db.loadDocStatCache c ↔ ∃ row ∈ db.documents, row.collection = c ∧ row.path = p ∧
      row.active = true ∧ row.stat = some st := by
    intro p st
    simp only [Db.loadDocStatCache, List.mem_filterMap, Table.mem_rows]
    constructor
    · rintro ⟨row, member, hit⟩
      split at hit
      · next live =>
        obtain ⟨found, stat, same⟩ := Option.map_eq_some_iff.mp hit
        cases same
        exact ⟨row, member, live.1, rfl, live.2, stat⟩
      · cases hit
    · rintro ⟨row, member, rfl, rfl, active, stat⟩
      exact ⟨row, member, by simp [active, stat]⟩
  have lookup : ∀ p st, (db.loadDocStatCache c).lookup p = some st ↔ (p, st) ∈ db.loadDocStatCache c := by
    intro p st
    constructor
    · intro found
      obtain ⟨before, after, shape, -⟩ := List.lookup_eq_some_iff.mp found
      rw [shape]
      exact List.mem_append_right _ List.mem_cons_self
    · intro member
      cases found : (db.loadDocStatCache c).lookup p with
      | none => exact absurd (List.lookup_eq_none_iff.mp found _ member) (by simp)
      | some other =>
        obtain ⟨before, after, shape, -⟩ := List.lookup_eq_some_iff.mp found
        have inside : (p, other) ∈ db.loadDocStatCache c := by
          rw [shape]
          exact List.mem_append_right _ List.mem_cons_self
        obtain ⟨a, inA, nameA, pathA, -, statA⟩ := (entry p st).mp member
        obtain ⟨b, inB, nameB, pathB, -, statB⟩ := (entry p other).mp inside
        have same : a = b := Table.eq_of_clash inA inB (.inr ⟨nameA.trans nameB.symm, pathA.trans pathB.symm⟩)
        rw [same, statB] at statA
        exact statA
  cases full with
  | true =>
    cases stat : file.stat <;> simp [cached, stat]
  | false =>
    cases stat : file.stat with
    | none => simp [cached, stat]
    | some st =>
      simp only [cached, stat, Option.isSome_some, Bool.false_eq_true, if_false, Bool.true_and, beq_iff_eq, true_and]
      exact (lookup _ _).trans (entry _ _)

/-- An active row has one entry, an inactive row none. -/
def Slot.InStep (slot : Slot) : Prop :=
  ∀ v, slot.row = some v → slot.entries.length = if v.active then 1 else 0

/-- The row at the file's path is inactive and already has the hash of the file's text, so indexing
takes the file for unchanged. -/
def Slot.Remembers (env : Env V) (doc : PreparedDoc) (slot : Slot) : Prop :=
  ∃ v, slot.row = some v ∧ v.active = false ∧ v.hash = env.contentHash doc.indexedText

namespace Slot.Settles

variable {cache : List (String × FileStat)} {file : WalkedFile} {before after : Slot} {doc : PreparedDoc}
  {v : Db.RowView}

theorem inStep (settles : Settles env c cache file before after) (even : before.InStep)
    (terms : env.pathTerms (filepath c file.relPath) ≠ []) : after.InStep := by
  by_cases hit : cached cache file = true
  · rwa [settles.skipped (.inl hit)]
  · rw [Bool.not_eq_true] at hit
    cases prepared : file.prepared with
    | error reason => rwa [settles.skipped (.inr ⟨reason, prepared⟩)]
    | ok doc =>
      by_cases kept : ∃ v, before.row = some v ∧ v.hash = env.contentHash doc.indexedText
      · rwa [settles.unchanged doc hit prepared kept]
      · obtain ⟨id, entry, -, rfl⟩ := settles.written doc hit prepared kept
        intro v row
        cases row
        simp [Slot.rewritten, terms, Store.writtenView]

/-- A file that is read has its text's hash in its row, whether that was written or found there. -/
theorem hash (settles : Settles env c cache file before after) (miss : cached cache file = false)
    (prepared : file.prepared = .ok doc) :
    ∃ v, after.row = some v ∧ v.hash = env.contentHash doc.indexedText := by
  by_cases kept : ∃ v, before.row = some v ∧ v.hash = env.contentHash doc.indexedText
  · rwa [settles.unchanged doc miss prepared kept]
  · obtain ⟨id, entry, -, rfl⟩ := settles.written doc miss prepared kept
    exact ⟨_, rfl, rfl⟩

theorem active (settles : Settles env c cache file before after) (miss : cached cache file = false)
    (prepared : file.prepared = .ok doc) (fresh : ¬ before.Remembers env doc) :
    ∃ v, after.row = some v ∧ v.active = true := by
  by_cases kept : ∃ v, before.row = some v ∧ v.hash = env.contentHash doc.indexedText
  · rw [settles.unchanged doc miss prepared kept]
    obtain ⟨v, row, same⟩ := kept
    refine ⟨v, row, ?_⟩
    by_contra gone
    exact fresh ⟨v, row, by simpa using gone, same⟩
  · obtain ⟨id, entry, -, rfl⟩ := settles.written doc miss prepared kept
    exact ⟨_, rfl, rfl⟩

end Slot.Settles

theorem Slot.swept_gone {slot : Slot} {termless : Bool} {v : Db.RowView} (row : (slot.swept termless).row = some v) :
    v.active = false := by
  unfold Slot.swept at row
  split at row
  · next w found =>
    split at row
    · cases row
      rfl
    · next gone =>
      rw [found] at row
      cases row
      simpa using gone
  · next absent =>
    rw [absent] at row
    cases row

theorem Slot.swept_inStep {slot : Slot} (even : slot.InStep) : (slot.swept false).InStep := by
  unfold Slot.swept
  split
  · split
    · intro v row
      cases row
      rfl
    · exact even
  · exact even

end Rqmd
