import Rqmd.Steps

/-! The rules of the steps of an update pass: indexing one document, one file, and the sweep. -/

namespace Rqmd
open Interrupt

variable {V : Type} {env : Env V} {faults : Faults FaultKind} {s : Store V}

namespace Store

/-- The id `upsert_document` answers with: the row's own, or the next of the counter. -/
def IdOf (db : Db) (c : CollectionName) (p : String) (id : Nat) : Prop :=
  (∀ v, db.rowAt c p = some v → v.id = id) ∧ (db.rowAt c p = none → id = db.sequence + 1)

theorem classify_unchanged {db : Db} {c : CollectionName} {p hash : String} :
    classify (db.getDocumentByFilepath c p) hash = .unchanged ↔ ∃ v, db.rowAt c p = some v ∧ v.hash = hash := by
  unfold Db.rowAt classify
  cases db.getDocumentByFilepath c p with
  | none => simp
  | some row => by_cases same : row.hash = hash <;> simp [Db.view, same]

theorem idOf_upserted {db after : Db} {c : CollectionName} {p title hash : String} {id : Nat}
    (done : Db.Upserted db c p title hash id after) : IdOf db c p id := by
  refine ⟨fun v found => ?_, fun absent => ?_⟩
  · obtain ⟨row, inside, rfl⟩ := Option.map_eq_some_iff.mp found
    exact done.kept row inside
  · exact done.fresh (Option.map_eq_none_iff.mp absent)

/-- The entry `insert_document` makes for a prepared file. -/
def entryFor (env : Env V) (index : FtsIndex) (c : CollectionName) (p : String) (doc : PreparedDoc) (id : Nat) :
    FtsEntry := index.entryOf env (filepath c p) doc.title doc.indexedText (env.frontmatterTerms doc.raw) id

def contentRow (env : Env V) (doc : PreparedDoc) : ContentRow := ⟨env.contentHash doc.indexedText, doc.indexedText⟩

def writtenView (env : Env V) (doc : PreparedDoc) (id : Nat) : Db.RowView := ⟨id, env.contentHash doc.indexedText, true⟩

/-- The row is written and its entries are replaced. -/
def indexed (env : Env V) (c : CollectionName) (p : String) (doc : PreparedDoc) (s : Store V) (db : Db) (id : Nat) :
    Store V :=
  { s with
    db := db
    fts := (s.fts.deleted env (filepath c p)).insertEntry (entryFor env s.fts c p doc id)
    log := s.log ++ [.documentWritten id] }

/-- The stores an indexing that stops midway can leave: the row is not written yet, or it is and its
entries are not replaced. -/
inductive Halfway (env : Env V) (c : CollectionName) (p : String) (doc : PreparedDoc) (s : Store V) : Store V → Prop
  | before (db : Db) (unmoved : Db.Unmoved s.db (contentRow env doc) db) : Halfway env c p doc s { s with db := db }
  | after (db : Db) (id : Nat) (fts : FtsIndex) (own : IdOf s.db c p id)
      (changed : classify (s.db.getDocumentByFilepath c p) (env.contentHash doc.indexedText) ≠ .unchanged)
      (written : Db.Written s.db (contentRow env doc) c p (writtenView env doc id) db)
      (torn : fts = s.fts ∨ fts = (s.fts.takeStaged (filepath c p)).2 ∨ fts = s.fts.deleted env (filepath c p)) :
      Halfway env c p doc s { s with db := db, fts := fts, log := s.log ++ [.documentWritten id] }

theorem wp_indexDocument {c : CollectionName} {p : String} {doc : PreparedDoc}
    {ends : Ends (Store V) Failure IndexOutcome}
    (unchanged : ∀ db, Db.Unmoved s.db (contentRow env doc) db →
      classify (s.db.getDocumentByFilepath c p) (env.contentHash doc.indexedText) = .unchanged →
      ends.done .unchanged { s with db := db })
    (done : ∀ db id, Db.Written s.db (contentRow env doc) c p (writtenView env doc id) db → IdOf s.db c p id →
      classify (s.db.getDocumentByFilepath c p) (env.contentHash doc.indexedText) ≠ .unchanged →
      ends.done (classify (s.db.getDocumentByFilepath c p) (env.contentHash doc.indexedText))
        (indexed env c p doc s db id))
    (refused : faults.fault .sql ∨ faults.fault .fts → ∀ t, Halfway env c p doc s t → ∀ e, ends.error e t)
    (cut : faults.die → ∀ t, Halfway env c p doc s t → ends.died t) :
    wp faults (indexDocumentFtsOnlyWithRaw env c p doc) ends s := by
  have stored : Db.Unmoved s.db (contentRow env doc) (s.db.upsertContent (env.contentHash doc.indexedText) doc.indexedText) :=
    Db.unmoved_upsertContent _ _
  unfold indexDocumentFtsOnlyWithRaw
  refine wp_bind (wp_query ?_)
  have start : Halfway env c p doc s s := .before s.db (.refl _ _)
  refine wp_bind (wp_sqlExecute ?_ (fun raised => refused (.inl raised) s start) fun dead => cut dead s start)
  simp only [List.append_nil]
  have content : Halfway env c p doc s { s with db := s.db.upsertContent (env.contentHash doc.indexedText) doc.indexedText } :=
    .before _ stored
  by_cases same : classify (s.db.getDocumentByFilepath c p) (env.contentHash doc.indexedText) = .unchanged
  · rw [if_pos same]
    refine wp_bind (wp_query ?_)
    simp only [Db.lookup_upsertContent]
    cases found : s.db.getDocumentByFilepath c p with
    | none =>
      rw [found] at same
      cases same
    | some existing =>
      refine wp_bind (wp_sqlExecute ?_ (fun raised => refused (.inl raised) _ content) fun dead => cut dead _ content)
      simp only [List.append_nil]
      exact wp_pure (unchanged _ (stored.trans (Db.unmoved_setDocumentRaw existing.id doc.raw _)) same)
  · rw [if_neg same]
    obtain ⟨id, after, run, upserted⟩ :=
      @Db.upsertDocument_ok (s.db.upsertContent (env.contentHash doc.indexedText) doc.indexedText) c p doc.title _
        (Db.upsertContent_known (env.contentHash doc.indexedText) doc.indexedText)
    have own : IdOf s.db c p id := by
      have own := idOf_upserted upserted
      simpa only [IdOf, stored.rows, stored.counter] using own
    have written : Db.Written s.db (contentRow env doc) c p (writtenView env doc id) after :=
      stored.written (upserted.written _)
    have halfway : ∀ db fts, Db.Written s.db (contentRow env doc) c p (writtenView env doc id) db →
        (fts = s.fts ∨ fts = (s.fts.takeStaged (filepath c p)).2 ∨ fts = s.fts.deleted env (filepath c p)) →
        Halfway env c p doc s { s with db := db, fts := fts, log := s.log ++ [.documentWritten id] } :=
      fun db fts written torn => .after db id fts own same written torn
    refine wp_bind (wp_sqlWrite ?_ ?_ (fun raised => refused (.inl raised) _ content) fun dead => cut dead _ content)
    · intro docId db result
      rw [run] at result
      simp only [Except.ok.injEq, Prod.mk.injEq] at result
      obtain ⟨rfl, rfl⟩ := result
      have row := halfway after s.fts written (.inl rfl)
      refine wp_bind (wp_sqlExecute ?_ (fun raised => refused (.inl raised) _ row) fun dead => cut dead _ row)
      simp only [List.append_nil]
      have raw : Db.Written s.db (contentRow env doc) c p (writtenView env doc id) (after.setDocumentRaw id doc.raw) :=
        written.unmoved (Db.unmoved_setDocumentRaw id doc.raw _)
      have untouched := halfway _ s.fts raw (.inl rfl)
      have forgotten := halfway _ _ raw (.inr (.inl rfl))
      have removed := halfway _ _ raw (.inr (.inr rfl))
      refine wp_bind (wp_bind (wp_deleteByFilepath ?_ ?_ ?_))
      · refine wp_insertDocument ?_ (fun raised => refused (.inr raised) _ removed) fun dead => cut dead _ removed
        refine wp_pure ?_
        have result := done _ id raw own same
        simpa only [indexed, entryFor, FtsIndex.entryOf, FtsIndex.frontmatterField_deleted] using result
      · exact fun raised e => ⟨refused (.inr raised) _ untouched e, refused (.inr raised) _ forgotten e⟩
      · exact fun dead => ⟨cut dead _ untouched, cut dead _ forgotten⟩
    · intro e result
      rw [run] at result
      cases result

/-- The stores a pass can be stopped in while it is at one file. -/
inductive Stopped (env : Env V) (c : CollectionName) (p : String) (doc : PreparedDoc) (s : Store V) : Store V → Prop
  | halfway (t : Store V) (stop : Halfway env c p doc s t) : Stopped env c p doc s t
  | indexed (db : Db) (id : Nat) (written : Db.Written s.db (contentRow env doc) c p (writtenView env doc id) db)
      (own : IdOf s.db c p id)
      (changed : classify (s.db.getDocumentByFilepath c p) (env.contentHash doc.indexedText) ≠ .unchanged) :
      Stopped env c p doc s (indexed env c p doc s db id)

end Store

/-- The store with a WARN line more. -/
def Store.warned (s : Store V) : Store V := { s with log := s.log ++ [.warned] }

theorem wp_indexFile {c : CollectionName} {cache : List (String × FileStat)} {file : WalkedFile}
    {tally : UpdateTally} {ends : Ends (Store V) Failure UpdateTally}
    (skipped : cached cache file = true ∨ (∃ reason, file.prepared = .error reason) → ∀ t, ends.done t s)
    (unchanged : ∀ doc, cached cache file = false → file.prepared = .ok doc →
      Store.classify (s.db.getDocumentByFilepath c file.relPath) (env.contentHash doc.indexedText) = .unchanged →
      ∀ db, Db.Unmoved s.db (Store.contentRow env doc) db → ∀ t, ends.done t { s with db := db })
    (written : ∀ doc, cached cache file = false → file.prepared = .ok doc → ∀ db id,
      Db.Written s.db (Store.contentRow env doc) c file.relPath (Store.writtenView env doc id) db →
      Store.IdOf s.db c file.relPath id →
      Store.classify (s.db.getDocumentByFilepath c file.relPath) (env.contentHash doc.indexedText) ≠ .unchanged →
      ∀ t, ends.done t (Store.indexed env c file.relPath doc s db id))
    (warned : faults.fault .sql ∨ faults.fault .fts → ∀ doc, cached cache file = false → file.prepared = .ok doc →
      ∀ u, Store.Halfway env c file.relPath doc s u → ∀ t, ends.done t u.warned)
    (refused : faults.fault .sql → ∀ doc, cached cache file = false → file.prepared = .ok doc →
      ∀ u, Store.Stopped env c file.relPath doc s u → ∀ e, ends.error e u)
    (cut : faults.die → ∀ doc, cached cache file = false → file.prepared = .ok doc →
      ∀ u, Store.Stopped env c file.relPath doc s u → ends.died u) :
    wp faults (indexFile env c cache file tally) ends s := by
  unfold indexFile
  by_cases hit : cached cache file = true
  · rw [if_pos hit]
    exact wp_pure (skipped (.inl hit) _)
  · rw [if_neg hit]
    rw [Bool.not_eq_true] at hit
    cases prepared : file.prepared with
    | error reason => exact wp_pure (skipped (.inr ⟨reason, prepared⟩) _)
    | ok doc =>
      refine wp_bind (wp_attempt (Store.wp_indexDocument ?_ ?_ ?_ ?_))
      · intro db unmoved same
        have stop : Store.Stopped env c file.relPath doc s { s with db := db } := .halfway _ (.before db unmoved)
        refine wp_bind (Store.wp_sqlExecute ?_ (fun raised => refused raised doc hit prepared _ stop)
          fun dead => cut dead doc hit prepared _ stop)
        simp only [List.append_nil]
        exact wp_pure (unchanged doc hit prepared same _
          (unmoved.trans (Db.unmoved_setDocumentStat c file.relPath _ _)) _)
      · intro db id row own changed
        have stop := Store.Stopped.indexed db id row own changed
        refine wp_bind (Store.wp_sqlExecute ?_ (fun raised => refused raised doc hit prepared _ stop)
          fun dead => cut dead doc hit prepared _ stop)
        have result := written doc hit prepared _ id
          (row.unmoved (Db.unmoved_setDocumentStat c file.relPath (file.stat.bind (trustedStat file.now)) _)) own changed
        refine wp_pure ?_
        simpa only [Store.indexed, List.append_nil] using result _
      · intro raised u half e
        exact wp_bind (wp_modify (wp_pure (warned raised doc hit prepared u half _)))
      · exact fun dead u half => cut dead doc hit prepared u (.halfway u half)

namespace Store

theorem inChunks_flatten {α : Type} (size : Nat) (positive : 0 < size) (fuel : Nat) (xs : List α)
    (enough : xs.length ≤ fuel) : (inChunks size fuel xs).flatten = xs := by
  induction fuel generalizing xs with
  | zero =>
    have empty : xs = [] := List.eq_nil_of_length_eq_zero (by omega)
    rw [empty]
    rfl
  | succ fuel ih =>
    cases xs with
    | nil => rfl
    | cons x xs =>
      have shorter : ((x :: xs).drop size).length ≤ fuel := by
        rw [List.length_drop]
        simp only [List.length_cons] at enough ⊢
        omega
      rw [inChunks, List.flatten_cons, ih _ shorter, List.take_append_drop]

/-- The sweep's statements, one for each chunk. -/
def deactivated (c : CollectionName) (s : Store V) (chunks : List (List String)) : Store V :=
  { s with
    db := chunks.foldl (fun db chunk => db.deactivate c chunk) s.db
    log := s.log ++ chunks.map .documentsDeactivated }

theorem deactivated_cons (c : CollectionName) (s : Store V) (chunk : List String) (chunks : List (List String)) :
    deactivated c s (chunk :: chunks) = deactivated c (deactivated c s [chunk]) chunks := by
  simp [deactivated]

theorem rowAt_deactivated (c d : CollectionName) (q : String) (s : Store V) (chunks : List (List String)) :
    (deactivated c s chunks).db.rowAt d q =
      (s.db.rowAt d q).map fun v => if d = c ∧ q ∈ chunks.flatten then { v with active := false } else v := by
  induction chunks generalizing s with
  | nil => simp [deactivated]
  | cons chunk chunks ih =>
    rw [deactivated_cons, ih]
    have first : (deactivated c s [chunk]).db.rowAt d q = _ := Db.rowAt_deactivate chunk
    rw [first, Option.map_map]
    congr 1
    funext v
    by_cases here : d = c <;> by_cases head : q ∈ chunk <;> by_cases tail : q ∈ chunks.flatten <;>
      simp [here, head, tail]

theorem beside_deactivated (c : CollectionName) (s : Store V) (chunks : List (List String)) (stored : ContentRow) :
    Db.Beside s.db stored (deactivated c s chunks).db := by
  induction chunks generalizing s with
  | nil => exact .refl _ _
  | cons chunk chunks ih =>
    rw [deactivated_cons]
    have first : Db.Beside s.db stored (deactivated c s [chunk]).db := Db.beside_deactivate chunk stored
    exact first.trans (ih _)

/-- The sweep stops, if it does, after some of its statements. -/
theorem wp_deactivateMissing {c : CollectionName} {present : List String}
    {ends : Ends (Store V) Failure (List String)}
    (done : ∀ chunks, chunks.flatten = s.db.missingDocuments c present →
      ends.done (s.db.missingDocuments c present) (deactivated c s chunks))
    (refused : faults.fault .sql → ∀ chunks after, (chunks ++ after).flatten = s.db.missingDocuments c present →
      ∀ e, ends.error e (deactivated c s chunks))
    (cut : faults.die → ∀ chunks after, (chunks ++ after).flatten = s.db.missingDocuments c present →
      ends.died (deactivated c s chunks)) :
    wp faults (deactivateMissingDocuments c present) ends s := by
  unfold deactivateMissingDocuments
  refine wp_bind (wp_query ?_)
  have whole := inChunks_flatten bindParameters (by decide) _ (s.db.missingDocuments c present) (le_refl _)
  refine wp_bind ?_
  refine wp_forEach (fun rest t => ∃ before, (before ++ rest).flatten = s.db.missingDocuments c present ∧
    t = deactivated c s before) ?_ ?_ _ s ⟨[], whole, by simp [deactivated]⟩
  · rintro chunk rest t ⟨before, all, rfl⟩
    refine wp_sqlExecute ?_ (fun raised => refused raised before (chunk :: rest) all)
      fun dead => cut dead before (chunk :: rest) all
    exact ⟨before ++ [chunk], by simpa using all, by simp [deactivated]⟩
  · rintro t ⟨before, all, rfl⟩
    rw [List.append_nil] at all
    exact wp_pure (done before all)

/-- A refused removal is warned about and passed over. -/
theorem wp_removeStaleEntry {filepath : String} {ends : Ends (Store V) Failure Unit}
    (done : ends.done () { s with fts := s.fts.deleted env filepath })
    (warned : faults.fault .fts → ends.done () s.warned ∧
      ends.done () (Store.warned { s with fts := (s.fts.takeStaged filepath).2 }))
    (cut : faults.die → ends.died s ∧ ends.died { s with fts := (s.fts.takeStaged filepath).2 }) :
    wp faults (removeStaleEntry env filepath) ends s := by
  unfold removeStaleEntry removeFromFts
  refine wp_bind (wp_attempt (wp_deleteByFilepath (wp_pure done) ?_ cut))
  exact fun raised _ => ⟨wp_modify (warned raised).1, wp_modify (warned raised).2⟩

end Store

end Rqmd
