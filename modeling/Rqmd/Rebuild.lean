import Rqmd.Deletes
import Rqmd.Rename
import Rqmd.Versions

/-! Rebuilding the full-text index from the rows. What a rebuild writes is compared with what incremental indexing of
the same files has left. -/

namespace Rqmd
open Interrupt

variable {V : Type} {env : Env V} {faults : Faults FaultKind} {s t : Store V} {docs : List StoredDoc}

/-! ### The steps of a rebuild -/

/-- The entry of a stored document under the current schema. -/
def StoredDoc.entry (env : Env V) (doc : StoredDoc) : FtsEntry := (FtsIndex.opened [] true).entryOfStored env doc

/-- The part of a rebuild that an index of the current schema begins with. -/
def Store.refill (env : Env V) (docs : List StoredDoc) : Command V Unit := do
  ftsWrite "delete all tantivy docs" FtsIndex.deleteAll
  match ← (Prog.forEach (insertStored env) docs).attempt with
  | .ok () => ftsCommit
  | .error e =>
    ftsWrite "roll back partial tantivy rebuild" FtsIndex.rollback
    Prog.throw e

theorem rebuildFts_eq (docs : List StoredDoc) : Store.rebuildFts env docs = (do
    if ← Prog.query fun s => s.fts.frontmatterField then pure ()
      else Store.ftsWrite "remove tantivy dir entry" fun _ => FtsIndex.recreated
    Store.refill env docs : Command V Unit) := rfl

/-- Where a rebuild of `docs` can stop: before its commit, with the entries of an index of the current schema as they
were, or after it, with the new ones. -/
inductive Store.RebuildStops (env : Env V) (docs : List StoredDoc) (s : Store V) : Store V → Prop
  | before (t : Store V) (log : t.log = s.log) (kept : s.fts.frontmatterField = true → t.fts.committed = s.fts.committed) :
      RebuildStops env docs s t
  | after (t : Store V) (log : t.log = s.log ++ [.ftsCommitted]) (written : t.fts.committed = docs.map (StoredDoc.entry env)) :
      RebuildStops env docs s t

theorem entryOfStored_current {index : FtsIndex} (current : index.frontmatterField = true) :
    index.entryOfStored env = StoredDoc.entry env := by
  funext doc
  unfold StoredDoc.entry FtsIndex.entryOfStored FtsIndex.entryOf
  rw [current]
  rfl

/-- The inserts stage their entries and commit none. -/
theorem wp_insertStored {ends : Ends (Store V) Failure Unit} (docs : List StoredDoc) (s : Store V)
    (done : ends.done () { s with fts := docs.foldl (FtsIndex.insertStored env) s.fts })
    (refused : faults.fault .fts → ∀ (part : List StoredDoc) (e : Failure), ends.error e { s with fts := part.foldl (FtsIndex.insertStored env) s.fts })
    (cut : faults.die → ∀ part : List StoredDoc, ends.died { s with fts := part.foldl (FtsIndex.insertStored env) s.fts }) :
    wp faults (Prog.forEach (Store.insertStored env) docs) ends s := by
  apply wp_forEach fun rest t => ∃ part, part ++ rest = docs ∧ t = { s with fts := part.foldl (FtsIndex.insertStored env) s.fts }
  · intro doc rest t reached
    obtain ⟨part, whole, rfl⟩ := reached
    apply Store.wp_insertDocument
    · refine ⟨part ++ [doc], by rw [List.append_assoc, List.singleton_append, whole], ?_⟩
      rw [List.foldl_append]
      rfl
    · exact fun raised => refused raised part
    · exact fun dead => cut dead part
  · intro t reached
    obtain ⟨part, whole, rfl⟩ := reached
    rw [List.append_nil] at whole
    rw [whole]
    exact done
  · exact ⟨[], rfl, rfl⟩

theorem wp_refill {ends : Ends (Store V) Failure Unit} (current : s.fts.frontmatterField = true)
    (done : ∀ t : Store V, t.log = s.log ++ [.ftsCommitted] → t.fts.committed = docs.map (StoredDoc.entry env) → ends.done () t)
    (refused : faults.fault .fts → ∀ t, s.RebuildStops env docs t → ∀ e, ends.error e t)
    (cut : faults.die → ∀ t, s.RebuildStops env docs t → ends.died t) :
    wp faults (Store.refill env docs) ends s := by
  have start : s.RebuildStops env docs s := .before s rfl fun _ => rfl
  have staged : ∀ part : List StoredDoc, s.RebuildStops env docs
      { s with fts := part.foldl (FtsIndex.insertStored env) s.fts.deleteAll } := by
    intro part
    exact .before _ rfl fun _ => (@FtsIndex.inserts_spec V env s.fts.deleteAll part).2.1
  unfold Store.refill
  refine wp_bind (Store.wp_ftsWrite ?_ (fun raised => refused raised s start) fun dead => cut dead s start)
  refine wp_bind (wp_attempt (wp_insertStored docs _ ?_ ?_ fun dead part => cut dead _ (staged part)))
  · obtain ⟨working, stored, busy⟩ := @FtsIndex.inserts_spec V env s.fts.deleteAll docs
    have writer : (docs.foldl (FtsIndex.insertStored env) s.fts.deleteAll).writer = true := by
      rcases busy with none | taken
      · rw [none]
        rfl
      · exact taken
    have entries : (docs.foldl (FtsIndex.insertStored env) s.fts.deleteAll).working = docs.map (StoredDoc.entry env) := by
      rw [working, @entryOfStored_current V env s.fts.deleteAll current]
      rfl
    have committed := @Store.RebuildStops.after V env docs s
      (Store.committed { s with fts := docs.foldl (FtsIndex.insertStored env) s.fts.deleteAll }) rfl entries
    apply Store.wp_ftsCommit
    · intro idle
      rw [writer] at idle
      cases idle
    · exact fun _ => done _ rfl entries
    · exact fun raised _ e => ⟨refused raised _ (staged docs) e, refused raised _ committed e⟩
    · exact fun dead _ => ⟨cut dead _ (staged docs), cut dead _ committed⟩
  · intro raised part e
    have dropped : s.RebuildStops env docs
        { s with fts := (part.foldl (FtsIndex.insertStored env) s.fts.deleteAll).rollback } :=
      .before _ rfl fun _ => (@FtsIndex.inserts_spec V env s.fts.deleteAll part).2.1
    exact wp_bind (Store.wp_ftsWrite (wp_throw (refused raised _ dropped e))
      (fun raised e => refused raised _ (staged part) e) fun dead => cut dead _ (staged part))

theorem wp_rebuildFts {ends : Ends (Store V) Failure Unit}
    (done : ∀ t : Store V, t.log = s.log ++ [.ftsCommitted] → t.fts.committed = docs.map (StoredDoc.entry env) → ends.done () t)
    (refused : faults.fault .fts → ∀ t, s.RebuildStops env docs t → ∀ e, ends.error e t)
    (cut : faults.die → ∀ t, s.RebuildStops env docs t → ends.died t) :
    wp faults (Store.rebuildFts env docs) ends s := by
  have start : s.RebuildStops env docs s := .before s rfl fun _ => rfl
  rw [rebuildFts_eq]
  refine wp_bind (wp_query ?_)
  simp only [Ends.with]
  by_cases current : s.fts.frontmatterField = true
  · rw [if_pos current]
    exact wp_refill current done refused cut
  · rw [if_neg current]
    refine wp_bind (Store.wp_ftsWrite ?_ (fun raised => refused raised s start) fun dead => cut dead s start)
    -- a recreated index starts empty: its rebuild rolls back to nothing
    have stops : ∀ t, Store.RebuildStops env docs { s with fts := FtsIndex.recreated } t → s.RebuildStops env docs t := by
      intro t stop
      cases stop with
      | before log kept => exact .before t log fun field => absurd field current
      | after log written => exact .after t log written
    exact wp_refill rfl done (fun raised t stop => refused raised t (stops t stop)) fun dead t stop => cut dead t (stops t stop)

/-- A rebuild that is due writes the stored documents; one that is not leaves the store as it is. -/
theorem wp_rebuildFtsIfNeeded {ends : Ends (Store V) Failure Unit}
    (idle : Store.ftsRebuildPending s.db = false → ends.done () s)
    (done : Store.ftsRebuildPending s.db = true → ∀ t : Store V,
      t.fts.committed = (s.db.storedDocs env (·.active)).map (StoredDoc.entry env) → ends.done () t)
    (refused : faults.fault .fts ∨ faults.fault .sql → ∀ t, s.RebuildStops env (s.db.storedDocs env (·.active)) t →
      ∀ e, ends.error e t)
    (cut : faults.die → ∀ t, s.RebuildStops env (s.db.storedDocs env (·.active)) t → ends.died t) :
    wp faults (Store.rebuildFtsIfNeeded env) ends s := by
  unfold Store.rebuildFtsIfNeeded
  refine wp_bind (wp_query ?_)
  simp only [Ends.with]
  by_cases pending : Store.ftsRebuildPending s.db = true
  · rw [if_pos pending]
    refine wp_bind (wp_query (wp_bind (wp_rebuildFts ?_ (fun raised => refused (.inl raised)) cut)))
    intro t log written
    have stop : s.RebuildStops env (s.db.storedDocs env (·.active)) t := .after t log written
    exact Store.wp_sqlExecute (done pending _ written) (fun raised => refused (.inr raised) t stop) fun dead => cut dead t stop
  · rw [if_neg pending]
    exact wp_pure (idle (by simpa using pending))

/-! ### What a rebuild writes for one file -/

/-- The entries a rebuild writes: one for each active document. -/
def Store.rebuilt (env : Env V) (s : Store V) : List FtsEntry := (s.db.storedDocs env (·.active)).map (StoredDoc.entry env)

/-- The content of the front matter field. -/
def indexedTerms (env : Env V) (raw : String) : String :=
  if env.frontmatterTerms raw ≠ "" then env.normalizeNfc (env.frontmatterTerms raw) else ""

theorem entryUnder_current (c : CollectionName) (p : String) (doc : PreparedDoc) (id : Nat) : entryUnder env true c p doc id =
    ⟨filepath c p, env.normalizeNfc doc.title, env.normalizeNfc doc.indexedText, indexedTerms env doc.raw, id⟩ := by
  unfold entryUnder Store.entryFor FtsIndex.entryOf indexedTerms FtsIndex.opened
  by_cases terms : env.frontmatterTerms doc.raw = ""
  · simp [terms]
  · simp [terms]

theorem entriesOf_rebuilt {row : Document} (member : row ∈ s.db.documents) : entriesOf (s.rebuilt env) row.id =
    if row.active then [(s.db.storedDoc env row).entry env] else [] := by
  unfold Store.rebuilt
  rw [Db.storedDocs_eq, List.map_map, entriesOf, List.filter_map]
  change ((s.db.documents.rows.filter (·.active)).filter (·.id == row.id)).map _ = _
  rw [List.filter_filter]
  by_cases active : row.active = true
  · have only : s.db.documents.select (fun d => d.id == row.id && d.active) = [row] := by
      apply Db.select_one member
      · rw [active, beq_self_eq_true, Bool.and_true]
      · intro other inside hit
        rw [Bool.and_eq_true, beq_iff_eq] at hit
        exact Db.same_id inside member hit.1
    change (s.db.documents.select _).map _ = _
    rw [only, if_pos active]
    rfl
  · have nothing : s.db.documents.rows.filter (fun d => d.id == row.id && d.active) = [] := by
      apply List.filter_eq_nil_iff.mpr
      intro other inside hit
      rw [Bool.and_eq_true, beq_iff_eq] at hit
      exact active (Db.same_id inside member hit.1 ▸ hit.2)
    rw [nothing, if_neg active]
    rfl

section Versions

variable {field : Bool} {edits : List Edit} {c : CollectionName} {p : String} {v : Version}

/-- The content table has the text of the version. -/
theorem Store.Mirrors.text (mirrors : s.Mirrors env field edits) (apart : DigestsApart env edits)
    (version : versionOf edits c p = some v) {row : Document} (member : row ∈ s.db.documents)
    (hash : row.hash = env.contentHash v.written.indexedText) : s.db.getContent row.hash = some v.written.indexedText := by
  obtain ⟨stored, inside, same⟩ := s.db.referenced row member
  obtain ⟨text, known, rfl⟩ := mirrors.content stored inside
  have equal : text = v.written.indexedText := apart _ known _ (written_indexed version) (same.trans hash)
  have found : s.db.getContentRow row.hash = some ⟨env.contentHash text, text⟩ := by
    unfold Db.getContentRow
    refine Table.find?_eq_some ?_ inside (by simpa using same)
    intro a b left right
    exact (beq_iff_eq.mp left).trans (beq_iff_eq.mp right).symm
  rw [Db.getContent, found, Option.map_some, equal]

/-- A rebuild writes the version that changed the text last, with the front matter of the one read last. -/
theorem Store.Mirrors.rebuilt (mirrors : s.Mirrors env field edits) (apart : DigestsApart env edits)
    (version : versionOf edits c p = some v) : ∃ row ∈ s.db.documents, s.contents.rowAt c p = some row.unmarked ∧
      entriesOf (s.rebuilt env) row.id =
        if v.active then [entryUnder env true c p { v.written with raw := v.read.raw } row.id] else [] := by
  have file := mirrors.files c p
  rw [version, contents_rowAt] at file
  cases found : s.db.getDocumentByFilepath c p with
  | none =>
    rw [found] at file
    cases file
  | some row =>
    rw [found] at file
    cases file with
    | some shown =>
      obtain ⟨member, name, path⟩ := Db.mem_lookup found
      have text := mirrors.text apart version member shown.hash
      refine ⟨row, member, by rw [contents_rowAt, found]; rfl, ?_⟩
      rw [entriesOf_rebuilt member, show row.active = v.active from shown.active]
      have place : row.filepath = filepath c p := by rw [Document.filepath, name, path]
      have raw : row.raw = v.read.raw := shown.raw
      have title : row.title = v.written.title := shown.title
      unfold StoredDoc.entry FtsIndex.entryOfStored Db.storedDoc entryUnder Store.entryFor
      rw [text, place, raw, title]
      rfl

/-! ### Rebuilt and incremental entries -/

/-- Two lists of entries that agree id by id agree up to their order. -/
theorem perm_of_entriesOf {left right : List FtsEntry} (same : ∀ id, (entriesOf left id).Perm (entriesOf right id)) :
    left.Perm right := by
  apply List.perm_iff_count.mpr
  intro e
  have counted : ∀ entries : List FtsEntry, (entriesOf entries e.docId).count e = entries.count e := by
    intro entries
    apply List.count_filter
    exact beq_self_eq_true e.docId
  rw [← counted left, ← counted right]
  exact (same e.docId).count_eq e

/-- An entry was taken out only where its path has a term, and the front matter last read has the terms of the
version that last changed the text. -/
structure Version.InStep (env : Env V) (c : CollectionName) (p : String) (v : Version) : Prop where
  removable : env.pathTerms (filepath c p) = [] → v.replaced = false
  terms : v.active = true → indexedTerms env v.written.raw = indexedTerms env v.read.raw

/-- The entries of one file that a rebuild writes are those of incremental indexing. -/
theorem Version.inStep_iff {row : Document} {entries : List FtsEntry} (shown : v.Shows env true c p row entries) :
    (if v.active then [entryUnder env true c p { v.written with raw := v.read.raw } row.id] else []).Perm entries ↔
      v.InStep env c p := by
  constructor
  · intro agree
    have length := agree.length_eq
    have removable : env.pathTerms (filepath c p) = [] → v.replaced = false := by
      intro termless
      by_contra replaced
      have more := shown.surplus termless (by simpa using replaced)
      have one : (if v.active then [entryUnder env true c p { v.written with raw := v.read.raw } row.id] else []).length =
          if v.active then 1 else 0 := by split <;> rfl
      omega
    refine ⟨removable, fun active => ?_⟩
    have either : env.pathTerms (filepath c p) ≠ [] ∨ v.replaced = false := by
      by_cases termless : env.pathTerms (filepath c p) = []
      · exact .inr (removable termless)
      · exact .inl termless
    rw [shown.plain either, if_pos active, if_pos active, List.singleton_perm_singleton, entryUnder_current,
      entryUnder_current] at agree
    exact (congrArg FtsEntry.frontmatter agree).symm
  · intro inStep
    have either : env.pathTerms (filepath c p) ≠ [] ∨ v.replaced = false := by
      by_cases termless : env.pathTerms (filepath c p) = []
      · exact .inr (inStep.removable termless)
      · exact .inl termless
    rw [shown.plain either]
    by_cases active : v.active = true
    · rw [if_pos active, if_pos active, List.singleton_perm_singleton, entryUnder_current, entryUnder_current,
        inStep.terms active]
    · rw [if_neg active, if_neg active]

/-- What a rebuild of one run writes, against what the same edits leave in an index of the current schema. -/
theorem rebuilt_perm_iff {u : Store V} (mirrors : s.Mirrors env field edits) (current : u.Mirrors env true edits)
    (rows : u.contents.SameRows s.contents) (apart : DigestsApart env edits) :
    (s.rebuilt env).Perm u.fts.working ↔ ∀ c p v, versionOf edits c p = some v → v.InStep env c p := by
  have each : ∀ c p v, versionOf edits c p = some v → ∃ row ∈ s.db.documents, s.contents.rowAt c p = some row.unmarked ∧
      ((entriesOf (s.rebuilt env) row.id).Perm (entriesOf u.fts.working row.id) ↔ v.InStep env c p) := by
    intro c p v version
    obtain ⟨row, member, found, entries⟩ := mirrors.rebuilt apart version
    have file := current.files c p
    rw [version, rows.rowAt, found] at file
    cases file with
    | some shown =>
      refine ⟨row, member, found, ?_⟩
      have inside : u.db.rowAt c p = some (Db.view row) := by
        rw [rowAt_contents, rows.rowAt, found]
        rfl
      have slot : (u.slot c p).entries = entriesOf u.fts.working row.id := by
        simp only [Store.slot, Store.entriesAt, inside]
        rfl
      rw [entries, ← slot]
      exact @Version.inStep_iff V env c p v row.unmarked _ shown
  constructor
  · intro agree c p v version
    obtain ⟨row, _, _, iff⟩ := each c p v version
    exact iff.mp (agree.filter _)
  · intro inStep
    apply perm_of_entriesOf
    intro id
    by_cases stored : ∃ row ∈ s.db.documents, row.id = id
    · obtain ⟨other, inside, rfl⟩ := stored
      have found : s.contents.rowAt other.collection other.path = some other.unmarked := by
        rw [contents_rowAt, Db.lookup_mem inside]
        rfl
      have file := mirrors.files other.collection other.path
      rw [found] at file
      cases version : versionOf edits other.collection other.path with
      | none =>
        rw [version] at file
        cases file
      | some v =>
        obtain ⟨row, member, there, iff⟩ := each _ _ v version
        have alike : other.unmarked = row.unmarked := Option.some.inj (found.symm.trans there)
        have same : other.unmarked.id = row.unmarked.id := by rw [alike]
        change other.id = row.id at same
        rw [same]
        exact iff.mpr (inStep _ _ v version)
    · have left : entriesOf (s.rebuilt env) id = [] := by
        apply List.eq_nil_iff_forall_not_mem.mpr
        intro e member
        obtain ⟨inside, rfl⟩ := mem_entriesOf.mp member
        rw [Store.rebuilt, Db.storedDocs_eq, List.map_map] at inside
        obtain ⟨row, chosen, rfl⟩ := List.mem_map.mp inside
        exact stored ⟨row, (Table.mem_select.mp chosen).1, rfl⟩
      have right : entriesOf u.fts.working id = [] := by
        apply List.eq_nil_iff_forall_not_mem.mpr
        intro e member
        obtain ⟨inside, rfl⟩ := mem_entriesOf.mp member
        obtain ⟨c, p, view, there, same⟩ := current.owned e inside
        rw [rowAt_contents, rows.rowAt, ← rowAt_contents] at there
        obtain ⟨row, member, _, _, rfl⟩ := Db.rowAt_eq_some.mp there
        exact stored ⟨row, member, same⟩
      rw [left, right]

end Versions

/-- The same index with the front matter field. -/
def Disk.current (d : Disk V) : Disk V := { d with frontmatterField := true }

/-- Every completed rebuild after the edits leaves the entries that the same edits leave in an index of the current
schema, in some order. -/
def Disk.RebuildAgrees (env : Env V) (edits : List Edit) (d : Disk V) : Prop :=
  ∀ t, (Store.rebuildFtsIfNeeded env).Leaves (d.edited env edits) t →
    t.fts.committed.Perm (d.current.edited env edits).fts.committed

/-- The rebuild fails or dies before its commit, which its log would show. -/
def Store.StopsPartway (env : Env V) (s : Store V) (fates : List (Fate FaultKind)) : Prop :=
  (rebuildFtsIfNeeded env fates s).completed = false ∧ (rebuildFtsIfNeeded env fates s).final.log = s.log

theorem rebuild_leaves (left : (Store.rebuildFtsIfNeeded env).Leaves s t) : t.fts.committed =
    if Store.ftsRebuildPending s.db = true then s.rebuilt env else s.fts.committed := by
  apply @Command.Leaves.met V _ s t left fun _ t => t.fts.committed =
    if Store.ftsRebuildPending s.db = true then s.rebuilt env else s.fts.committed
  apply wp_rebuildFtsIfNeeded
  · intro idle
    exact (if_neg (by simp [idle])).symm
  · intro pending t written
    exact written.trans (if_pos pending).symm
  · exact fun _ _ _ _ => trivial
  · exact fun _ _ _ => trivial

theorem rebuild_completes (env : Env V) (s : Store V) : ∃ t, (Store.rebuildFtsIfNeeded env).Leaves s t := by
  apply Command.leaves_calm
  apply wp_rebuildFtsIfNeeded
  · exact fun _ => trivial
  · exact fun _ _ _ => trivial
  · exact fun impossible => impossible.elim False.elim False.elim
  · exact False.elim

theorem partway_keeps (current : s.fts.frontmatterField = true) {fates : List (Fate FaultKind)}
    (partway : s.StopsPartway env fates) : (Store.rebuildFtsIfNeeded env fates s).final.fts.committed = s.fts.committed := by
  have kept : ∀ t, s.RebuildStops env (s.db.storedDocs env (·.active)) t → t.log = s.log → t.fts.committed = s.fts.committed := by
    intro t stop same
    cases stop with
    | before log kept => exact kept current
    | after log written =>
      rw [log] at same
      simp at same
  have spec : wp Faults.any (Store.rebuildFtsIfNeeded env) ⟨fun _ _ => True,
      fun _ t => t.log = s.log → t.fts.committed = s.fts.committed, fun t => t.log = s.log → t.fts.committed = s.fts.committed⟩ s := by
    apply wp_rebuildFtsIfNeeded
    · exact fun _ => trivial
    · exact fun _ _ _ => trivial
    · exact fun _ t stop _ => kept t stop
    · exact fun _ t stop => kept t stop
  have met := spec fates fun fate _ => any_allows fate
  obtain ⟨unfinished, log⟩ := partway
  cases run : Store.rebuildFtsIfNeeded env fates s with
  | done _ t rest =>
    rw [run] at unfinished
    cases unfinished
  | error e t rest =>
    rw [run] at met log
    exact met.1 log
  | died t =>
    rw [run] at met log
    exact met log

/-- A rebuild that is due writes the entries incremental indexing of the same files leaves under the current schema
exactly when every file is in step; one that is not due changes nothing; and one that stops partway on an index of the
current schema leaves the committed entries alone. -/
theorem rebuild_agrees_iff {d : Disk V} (blank : d.Blank) (edits : List Edit) (apart : DigestsApart env edits) :
    (Store.ftsRebuildPending (d.edited env edits).db = true →
      (d.RebuildAgrees env edits ↔ ∀ c p v, versionOf edits c p = some v → v.InStep env c p)) ∧
    (Store.ftsRebuildPending (d.edited env edits).db = false → ∀ t,
      (Store.rebuildFtsIfNeeded env).Leaves (d.edited env edits) t → t.fts.committed = (d.edited env edits).fts.committed) ∧
    ∀ s : Store V, s.fts.frontmatterField = true → ∀ fates, s.StopsPartway env fates →
      (Store.rebuildFtsIfNeeded env fates s).final.fts.committed = s.fts.committed := by
  have twin : d.current.Blank := ⟨blank.documents, blank.content, blank.entries⟩
  obtain ⟨mirrors, _, rows⟩ := blank.edited apart
  obtain ⟨current, even, others⟩ := twin.edited apart
  have starts : (d.current.open false).contents.SameRows (d.open false).contents := ⟨rfl, rfl⟩
  have same : (d.current.edited env edits).contents.SameRows (d.edited env edits).contents :=
    others.trans ((sameRows_edits starts edits).trans rows.symm)
  have agree := rebuilt_perm_iff mirrors current same apart
  rw [even] at agree
  refine ⟨fun pending => ?_, fun idle t left => ?_, fun s schema fates partway => partway_keeps schema partway⟩
  · rw [← agree]
    constructor
    · intro every
      obtain ⟨t, left⟩ := rebuild_completes env (d.edited env edits)
      have after := every t left
      rwa [rebuild_leaves left, if_pos pending] at after
    · intro perm t left
      rwa [rebuild_leaves left, if_pos pending]
  · rw [rebuild_leaves left, if_neg (by simp [idle])]

/-- The sample environment with the front matter scanner. -/
def taggedEnv : Env String := { sampleEnv with frontmatterTerms := frontmatterTerms }

/-- A tag of one note stands in the text of the other, so the two share their content. -/
def twinNotes : List Edit := [.index notes "a.md" "a" "---\ntags: [beta]\n---\nalpha", .index notes "b.md" "b" "alpha\nbeta"]

/-- Two documents of one text, each with its own terms, are rebuilt as they were indexed. -/
theorem twin_notes_rebuilt : (Disk.empty : Disk String).RebuildAgrees taggedEnv twinNotes := by
  have blank : (Disk.empty : Disk String).Blank := ⟨rfl, rfl, rfl⟩
  have apart : DigestsApart taggedEnv twinNotes := by
    unfold DigestsApart
    decide +kernel
  have pending : Store.ftsRebuildPending ((Disk.empty : Disk String).edited taggedEnv twinNotes).db = true := by decide +kernel
  apply ((rebuild_agrees_iff blank twinNotes apart).1 pending).mpr
  intro c p v version
  have distinct : (twinNotes.filterMap Edit.place).Nodup := by decide
  have kept : ∀ d walk, Edit.prune d walk ∉ twinNotes := by simp [twinNotes]
  obtain ⟨doc, rfl⟩ := version_once distinct kept version
  exact ⟨fun _ => rfl, fun _ => rfl⟩

/-- A tag is moved into the text of its note. The text that is indexed stays the same, so the entry keeps the tag until
a rebuild takes it away. -/
def movedTag : List Edit := [.index notes "a.md" "a" "---\ntags: [beta]\n---\nalpha", .index notes "a.md" "a" "alpha\nbeta"]

theorem moved_tag_differs : ¬ ∀ edits : List Edit, (Disk.empty : Disk String).RebuildAgrees taggedEnv edits := by
  intro every
  have rebuilt : ((Store.rebuildFtsIfNeeded taggedEnv [] ((Disk.empty : Disk String).edited taggedEnv movedTag)).result.map
      fun run => run.2.fts.committed.map FtsEntry.frontmatter) = some [""] := by decide +kernel
  obtain ⟨_, t, rest, run, terms⟩ := done_of_result rebuilt
  have agree := (every movedTag t ⟨[], rest, run⟩).map FtsEntry.frontmatter
  have incremental : ((Disk.empty : Disk String).current.edited taggedEnv movedTag).fts.committed.map FtsEntry.frontmatter =
      ["beta"] := by decide +kernel
  rw [show t.fts.committed.map FtsEntry.frontmatter = [""] from terms, incremental] at agree
  revert agree
  decide

end Rqmd
