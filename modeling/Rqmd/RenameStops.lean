import Rqmd.Following

/-! A rename under any fates. Where it is not cut between its transaction and its full-text commit, the entries are
those of the rows it leaves. -/

namespace Rqmd
open Interrupt

variable {V : Type} {env : Env V} {faults : Faults FaultKind} {s t : Store V} {old new name : CollectionName}
  {lacking : Prop}

/-! ### The rows and the entries -/

namespace Db

variable {db after : Db}

theorem content_renamed (ok : db.renameCollection old new = .ok after) : after.content = db.content := by
  unfold renameCollection at ok
  split at ok
  · split at ok
    · cases ok
    · simp only [Except.ok.injEq] at ok
      rw [← ok]
  · cases ok

/-- Only keys of contexts are moved. -/
theorem rebuildDue_renamed (renamed : db.RowsRenamed old new after) (due : db.RebuildDue) : after.RebuildDue := by
  have apart : ∀ (c : CollectionName) (key : String), key.toList.head? ≠ some 'c' →
      keyHasPrefix (collectionContextKey c) key = false := by
    intro c key other
    by_contra mine
    obtain ⟨rest, rfl⟩ := keyHasPrefix_iff.mp (Bool.of_not_eq_false mine)
    apply other
    simp [collectionContextKey, String.toList_append]
  have same : ∀ key : String, key.toList.head? ≠ some 'c' → after.getConfig key = db.getConfig key := fun key other =>
    getConfig_elsewhere renamed.config (apart old key other) (apart new key other)
  refine ⟨?_, ?_⟩
  · rw [same _ (by decide)]
    exact due.version
  · rw [same _ (by decide)]
    exact due.split

/-- What is written for chosen documents, read back document by document. -/
theorem entriesOf_written {keep : Document → Bool} {make : Document → FtsEntry} (ids : ∀ x, (make x).docId = x.id)
    {row : Document} (member : row ∈ db.documents) :
    entriesOf ((db.documents.select keep).map make) row.id = if keep row then [make row] else [] := by
  rw [entriesOf, List.filter_map]
  have same : ((fun e : FtsEntry => e.docId == row.id) ∘ make) = fun x => x.id == row.id := by
    funext x
    simp only [Function.comp_apply, ids]
  rw [same, Table.select, List.filter_filter]
  by_cases chosen : keep row = true
  · have only : db.documents.select (fun d => d.id == row.id && keep d) = [row] := by
      apply select_one member
      · rw [chosen, beq_self_eq_true, Bool.and_true]
      · intro other inside hit
        rw [Bool.and_eq_true, beq_iff_eq] at hit
        exact same_id inside member hit.1
    change (db.documents.select _).map _ = _
    rw [only, if_pos chosen]
    rfl
  · have nothing : db.documents.rows.filter (fun d => d.id == row.id && keep d) = [] := by
      apply List.filter_eq_nil_iff.mpr
      intro other inside hit
      rw [Bool.and_eq_true, beq_iff_eq] at hit
      exact chosen (same_id inside member hit.1 ▸ hit.2)
    rw [nothing, if_neg chosen]
    rfl

end Db

namespace Renames

variable {d t : Disk V} (renames : Renames env old new d t)

include renames

/-- The entries a rename keeps are those of the other collections. -/
theorem kept_iff (here : d.Paired env lacking) {e : FtsEntry} {row : Document} (member : row ∈ d.db.documents)
    (own : row.id = e.docId) : e ∈ kept env new d t ↔ e ∈ d.entries ∧ row.collection ≠ old := by
  rw [renames.mem_kept]
  apply and_congr_right
  intro inside
  have place : ∀ other ∈ d.entries, other.docId = e.docId → other.filepath = row.filepath := by
    intro other stored same
    obtain ⟨owner, known, theirs, at'⟩ := here.owned other stored
    rw [at', Db.same_id known member (theirs.trans (same.trans own.symm))]
  have active : row.active = true := by
    by_contra gone
    have nothing := here.gone row member (by simpa using gone)
    have there : e ∈ entriesOf d.entries row.id := mem_entriesOf.mpr ⟨inside, own.symm⟩
    rw [nothing] at there
    cases there
  constructor
  · intro apart mine
    have free : ¬ d.db.HeldElsewhere old e.filepath := by
      intro held
      obtain ⟨holder, stored, foreign, _, same⟩ := held
      rw [place e inside rfl] at same
      exact foreign (Db.same_filepath stored member same ▸ mine)
    have terms := here.termed row member active
    rw [← place e inside rfl] at terms
    have hit := apart e inside free rfl
    rw [phrase_matches_self _ terms] at hit
    cases hit
  · intro foreign other stored free same
    exact absurd ⟨row, member, foreign, active, (place other stored same).symm⟩ free

theorem entriesOf_kept (here : d.Paired env lacking) {row : Document} (member : row ∈ d.db.documents) :
    entriesOf (kept env new d t) row.id = if row.collection = old then [] else entriesOf d.entries row.id := by
  have chosen : ∀ e ∈ d.entries, row.id = e.docId → (e ∈ kept env new d t ↔ row.collection ≠ old) := fun e inside own =>
    (renames.kept_iff here member own).trans (and_iff_right inside)
  by_cases mine : row.collection = old
  · rw [if_pos mine]
    apply List.eq_nil_iff_forall_not_mem.mpr
    intro e found
    obtain ⟨inside, own⟩ := mem_entriesOf.mp found
    have stored : e ∈ d.entries := (renames.mem_kept.mp inside).1
    exact (chosen e stored own.symm).mp inside mine
  · rw [if_neg mine, entriesOf, entriesOf, kept, FtsIndex.survivors, List.filter_filter]
    apply List.filter_congr
    intro e stored
    by_cases own : e.docId = row.id
    · have stays := (chosen e stored own.symm).mpr mine
      rw [kept, FtsIndex.survivors, List.mem_filter] at stays
      rw [stays.2, Bool.and_true]
    · simp [own]

theorem written_tells (here : d.Paired env lacking) {x : Document} (member : x ∈ t.db.documents) :
    (written env d t x).Tells env x.hash := by
  have hashed : t.db.Hashed env := by
    unfold Db.Hashed
    rw [Db.content_renamed renames.rows]
    exact here.hashed
  exact ⟨_, Db.hash_getContent hashed member, rfl⟩

theorem entriesOf_after (here : d.Paired env lacking) {row : Document} (member : row ∈ d.db.documents) :
    entriesOf t.entries row.id = if row.collection = old then
        (if row.active then [written env d t { row with collection := new }] else [])
      else entriesOf d.entries row.id := by
  have split := renames.entries_eq
  rw [split, entriesOf, List.filter_append]
  change entriesOf (kept env new d t) row.id ++ entriesOf _ row.id = _
  rw [renames.entriesOf_kept here member]
  by_cases mine : row.collection = old
  · have moved := renames.rowsRenamed.moved member mine
    rw [if_pos mine, if_pos mine, List.nil_append, Db.entriesOf_written (fun _ => rfl) moved]
    simp
  · have stays : row ∈ t.db.documents := by
      rw [renames.rowsRenamed.documents]
      exact ⟨row, member, by simp [Db.moveDocument, mine]⟩
    have foreign := renames.rowsRenamed.unused row member
    rw [if_neg mine, if_neg mine, Db.entriesOf_written (fun _ => rfl) stays]
    simp [foreign]

/-- The entries follow the rows to their new name. -/
theorem paired (here : d.Paired env lacking) (terms : ∀ row ∈ d.db.documents, row.collection = old →
    row.active = true → env.pathTerms (filepath new row.path) ≠ []) : t.Paired env lacking := by
  have rows : ∀ x ∈ t.db.documents, ∃ row ∈ d.db.documents,
      (row.collection = old ∧ x = { row with collection := new } ∨ row.collection ≠ old ∧ x = row) := by
    intro x member
    obtain ⟨row, stored, rfl⟩ := (renames.rowsRenamed.documents x).mp member
    refine ⟨row, stored, ?_⟩
    by_cases mine : row.collection = old
    · exact .inl ⟨mine, by rw [Db.moveDocument, if_pos mine]⟩
    · exact .inr ⟨mine, by rw [Db.moveDocument, if_neg mine]⟩
  refine ⟨?_, fun x member active => ?_, fun e member => ?_, fun x member active => ?_, fun x member gone => ?_⟩
  · unfold Db.Hashed
    rw [Db.content_renamed renames.rows]
    exact here.hashed
  · obtain ⟨row, stored, ⟨mine, rfl⟩ | ⟨_, rfl⟩⟩ := rows x member
    · exact terms row stored mine active
    · exact here.termed x stored active
  · rw [renames.entries_eq] at member
    rcases List.mem_append.mp member with stays | written
    · have inside := (renames.mem_kept.mp stays).1
      obtain ⟨row, stored, own, place⟩ := here.owned e inside
      have foreign := ((renames.kept_iff here stored own).mp stays).2
      refine ⟨row, ?_, own, place⟩
      rw [renames.rowsRenamed.documents]
      exact ⟨row, stored, by rw [Db.moveDocument, if_neg foreign]⟩
    · obtain ⟨x, chosen, rfl⟩ := List.mem_map.mp written
      exact ⟨x, (Table.mem_select.mp chosen).1, rfl, rfl⟩
  · obtain ⟨row, stored, ⟨mine, rfl⟩ | ⟨foreign, rfl⟩⟩ := rows x member
    · change row.active = true at active
      refine .inl ⟨written env d t { row with collection := new }, ?_, renames.written_tells here member⟩
      change entriesOf t.entries row.id = _
      rw [renames.entriesOf_after here stored, if_pos mine, if_pos active]
    · rw [renames.entriesOf_after here stored, if_neg foreign]
      exact here.active x stored active
  · obtain ⟨row, stored, ⟨mine, rfl⟩ | ⟨foreign, rfl⟩⟩ := rows x member
    · change row.active = false at gone
      change entriesOf t.entries row.id = []
      rw [renames.entriesOf_after here stored, if_pos mine, gone]
      rfl
    · rw [renames.entriesOf_after here stored, if_neg foreign]
      exact here.gone x stored gone

end Renames

/-! ### The command -/

/-- Full-text writes that are only staged: whatever becomes of them, the disk is as it was. -/
theorem wp_staged {β : Type} {body : β → Command V Unit} {f : FtsIndex → β → FtsIndex}
    (step : ∀ x s, wp faults (body x) ⟨fun _ t => t = { s with fts := f s.fts x } ∧ t.disk = s.disk,
      fun _ t => t.disk = s.disk, fun t => t.disk = s.disk⟩ s) (xs : List β) (s : Store V) :
    wp faults (Prog.forEach body xs) ⟨fun _ t => t = { s with fts := xs.foldl f s.fts } ∧ t.disk = s.disk,
      fun _ t => t.disk = s.disk, fun t => t.disk = s.disk⟩ s := by
  induction xs generalizing s with
  | nil => exact wp_pure ⟨rfl, rfl⟩
  | cons x xs later =>
    apply wp_bind
    apply wp_mono (step x s)
    · intro _ t both
      obtain ⟨made, still⟩ := both
      have rest := later t
      rw [still, made] at rest
      rw [made, List.foldl_cons]
      exact rest
    · exact fun _ _ => id
    · exact fun _ => id

theorem wp_stagedDeletes (paths : List String) (s : Store V) :
    wp faults (Prog.forEach (Store.deleteByFilepath env) paths)
      ⟨fun _ t => t = { s with fts := paths.foldl (FtsIndex.deleted env) s.fts } ∧ t.disk = s.disk,
        fun _ t => t.disk = s.disk, fun t => t.disk = s.disk⟩ s := by
  apply wp_staged
  intro path s
  apply Store.wp_deleteByFilepath
  · refine ⟨rfl, ?_⟩
    simp only [Store.disk, FtsIndex.committed_deleted, FtsIndex.frontmatterField_deleted]
  · exact fun _ _ => ⟨rfl, rfl⟩
  · exact fun _ => ⟨rfl, rfl⟩

theorem wp_stagedInserts (docs : List StoredDoc) (s : Store V) :
    wp faults (Prog.forEach (Store.insertStored env) docs)
      ⟨fun _ t => t = { s with fts := docs.foldl (FtsIndex.insertStored env) s.fts } ∧ t.disk = s.disk,
        fun _ t => t.disk = s.disk, fun t => t.disk = s.disk⟩ s := by
  apply wp_staged
  intro doc s
  exact Store.wp_insertDocument ⟨rfl, rfl⟩ (fun _ _ => rfl) fun _ => rfl

/-- Where a rename can stop. A commit with nothing staged is not recorded. -/
inductive RenameStops (env : Env V) (faults : Faults FaultKind) (old new : CollectionName) (d t : Disk V) : Prop
  | before (same : t = d)
  | between (faulty : faults.Possible) (log : t.log = d.log ++ [.collectionRenamed])
  | after (renames : Renames env old new d t) (tail : List Event) (commits : ∀ e ∈ tail, e = .ftsCommitted)
      (log : t.log = d.log ++ [.collectionRenamed] ++ tail)

theorem wp_renameCollection_stops (d : Disk V) :
    wp faults (Store.renameCollection env old new) (Ends.all fun t => RenameStops env faults old new d t.disk)
      (d.open false) := by
  have untouched : ∀ t u : Store V, t.disk = u.disk → u.disk = d → RenameStops env faults old new d t.disk :=
    fun t u still before => .before (still.trans before)
  unfold Store.renameCollection
  refine wp_bind (wp_query (wp_bind (wp_ofExcept (fun db rows => ?_) fun _ _ => .before rfl)))
  refine wp_bind (wp_query (wp_bind ?_))
  refine wp_mono (wp_stagedDeletes _ _) ?_ (fun _ t still => untouched t _ still rfl) fun t still =>
    untouched t _ still rfl
  intro _ deleted both
  obtain ⟨made, before⟩ := both
  refine wp_bind (wp_mono (wp_stagedInserts _ _) ?_ (fun _ t still => untouched t _ still before)
    fun t still => untouched t _ still before)
  intro _ written both
  obtain ⟨added, still⟩ := both
  have same : written.disk = d := still.trans before
  have log : written.log = d.log := congrArg Disk.log same
  have fts : written.fts = (db.renamedDocs env new).foldl (FtsIndex.insertStored env)
      ((renameDeletes (db.renamedDocs env new) db.activeFilepaths (d.entries.map FtsEntry.filepath)).foldl
        (FtsIndex.deleted env) (FtsIndex.opened d.entries d.frontmatterField)) := by
    rw [added, made]
    rfl
  have staged := @FtsIndex.staged_rename V env d.entries d.frontmatterField
    (renameDeletes (db.renamedDocs env new) db.activeFilepaths (d.entries.map FtsEntry.filepath))
      (db.renamedDocs env new)
  rw [← fts] at staged
  refine wp_bind (Store.wp_sqlWrite ?_ (fun _ failed => ?_) (fun _ _ => .before same) fun _ => .before same)
  · intro _ after ok
    simp only [Except.ok.injEq, Prod.mk.injEq] at ok
    obtain ⟨-, rfl⟩ := ok
    have row : (Store.disk { written with db := db, log := written.log ++ [.collectionRenamed] }).log =
        d.log ++ [.collectionRenamed] := congrArg (· ++ [Event.collectionRenamed]) log
    have through : RenameStops env faults old new d (Store.disk (Store.committed
        { written with db := db, log := written.log ++ [.collectionRenamed] })) :=
      .after ⟨rows, staged.1⟩ [.ftsCommitted] (by simp) (congrArg (· ++ [Event.ftsCommitted]) row)
    apply Store.wp_ftsCommit
    · intro idle
      refine .after ⟨rows, (staged.2 idle).trans staged.1⟩ [] (fun _ none => absurd none List.not_mem_nil) ?_
      rw [List.append_nil]
      exact row
    · exact fun _ => through
    · exact fun raised _ _ => ⟨.between (possible_of_fault raised) row, through⟩
    · exact fun dead _ => ⟨.between (.inl dead) row, through⟩
  · cases failed

theorem RenameStops.halted {d t : Disk V} (stop : RenameStops env faults old new d t)
    (here : d.Abreast env d.db.RebuildDue) (terms : ∀ row ∈ d.db.documents, row.collection = old →
      row.active = true → env.pathTerms (filepath new row.path) ≠ []) : t.Halted env faults Db.RebuildDue d.log := by
  cases stop with
  | before same =>
    subst same
    exact .untouched here
  | between faulty log =>
    refine ⟨[.collectionRenamed], log, fun _ => faulty, fun _ calm => ?_⟩
    rcases calm with through | not
    · cases through
    · exact absurd faulty not
  | after renames tail commits log =>
    refine ⟨[.collectionRenamed] ++ tail, by rw [log, List.append_assoc], fun found => ?_, fun _ _ => ?_⟩
    · rcases List.mem_append.mp found with now | later
      · cases List.mem_singleton.mp now
      · cases commits _ later
    · have paired := renames.paired here.paired terms
      exact (paired.mono (Db.rebuildDue_renamed renames.rowsRenamed)).abreast

/-- However a rename ends. -/
theorem wp_runRename_halts {d : Disk V} {new : String} (here : d.Abreast env d.db.RebuildDue)
    (terms : ∀ name, validateCollectionName new = .ok name → ∀ row ∈ d.db.documents, row.collection = old →
      row.active = true → env.pathTerms (filepath name row.path) ≠ []) :
    wp faults (runRename env old new) (Ends.all fun t => t.disk.Halted env faults Db.RebuildDue d.log)
      (d.open false) := by
  have still : d.Halted env faults Db.RebuildDue d.log := .untouched here
  unfold runRename
  refine wp_bind (wp_ofExcept (fun name valid => ?_) fun _ _ => still)
  refine wp_bind (wp_modify (wp_bind (wp_query ?_)))
  refine wp_ite (wp_throw still) (wp_bind (wp_query (wp_ite (wp_throw still) ?_)))
  have stops : wp faults (Store.renameCollection env old name)
    (Ends.all fun t => RenameStops env faults old name d t.disk) (d.open false) := wp_renameCollection_stops d
  exact wp_mono stops (fun _ t stop => stop.halted here (terms name valid))
    (fun _ t stop => stop.halted here (terms name valid))
    fun t stop => stop.halted here (terms name valid)

end Rqmd
