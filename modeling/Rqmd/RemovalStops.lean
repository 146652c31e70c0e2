import Rqmd.Following

/-! A removal under any fates. Where it is not cut between the deletion of the documents and the full-text commit, the
entries are those of the rows it leaves. -/

namespace Rqmd
open Interrupt

variable {V : Type} {env : Env V} {faults : Faults FaultKind} {s t : Store V} {name b : CollectionName} {q : String}
  {lacking : Prop} {base : List Event}

/-! ### The rows -/

namespace Db

variable {db : Db}

theorem rowAt_purged : (db.purged name).rowAt b q = if b = name then none else db.rowAt b q := by
  apply Option.ext
  intro v
  have kept : ∀ row, row ∈ (db.purged name).documents ↔ row ∈ db.documents ∧ row.collection ≠ name := by
    intro row
    change row ∈ db.documents.deleteWhere (·.collection == name) ↔ _
    rw [Table.mem_deleteWhere, beq_iff_eq]
  by_cases mine : b = name
  · rw [if_pos mine]
    constructor
    · intro found
      obtain ⟨row, member, own, -, -⟩ := rowAt_eq_some.mp found
      exact absurd (own.trans mine) ((kept row).mp member).2
    · intro none
      cases none
  · rw [if_neg mine, rowAt_eq_some, rowAt_eq_some]
    constructor
    · intro found
      obtain ⟨row, member, place⟩ := found
      exact ⟨row, ((kept row).mp member).1, place⟩
    · intro found
      obtain ⟨row, member, own, place⟩ := found
      exact ⟨row, (kept row).mpr ⟨member, own ▸ mine⟩, own, place⟩

theorem hashed_purged (hashed : db.Hashed env) : (db.purged name).Hashed env := fun row member =>
  hashed row (Table.mem_deleteWhere.mp member).1

theorem rebuildDue_purged (due : db.RebuildDue) : (db.purged name).RebuildDue := by
  have same : ∀ key : String, key.toList.head? ≠ some 'c' → (db.purged name).getConfig key = db.getConfig key := by
    intro key other
    have apart : keyHasPrefix (collectionContextKey name) key = false := by
      by_contra mine
      obtain ⟨rest, rfl⟩ := keyHasPrefix_iff.mp (Bool.of_not_eq_false mine)
      apply other
      simp [collectionContextKey, String.toList_append]
    apply Option.ext
    intro value
    rw [getConfig_eq_some, getConfig_eq_some]
    change _ ∈ db.config.deleteWhere _ ↔ _
    rw [Table.mem_deleteWhere]
    simp [apart]
  refine ⟨?_, ?_⟩
  · rw [same _ (by decide)]
    exact due.version
  · rw [same _ (by decide)]
    exact due.split

end Db

/-! ### The deletes -/

/-- The rows of the collection are gone from `before`, and the entries of those at `rest` are still there. -/
structure Store.Purging (env : Env V) (lacking : Prop) (name : CollectionName) (before : Db) (rest : List String)
    (s : Store V) : Prop where
  rows : ∀ b q, s.db.rowAt b q = if b = name then none else before.rowAt b q
  hashed : s.db.Hashed env
  sequence : s.db.sequence = before.sequence
  placed : Placed { s with db := before }
  termed : ∀ c p v, before.rowAt c p = some v → v.active = true → env.pathTerms (filepath c p) ≠ []
  owned : ∀ e ∈ s.fts.working, ∃ fp, before.Sits e.docId fp
  slots : ∀ b q, b ≠ name → (Store.slot { s with db := before } b q).Good env lacking
  among : ∀ fp ∈ rest, ∃ p, fp = filepath name p
  taken : ∀ q, (Store.slot { s with db := before } name q).entries = [] ∨
    filepath name q ∈ rest ∧ env.pathTerms (filepath name q) ≠ []

namespace Store.Purging

theorem begun {events : List Event} (here : s.Abreast env lacking) : Purging env lacking name s.db
    (s.db.purgeFilepaths name) { s with db := s.db.purged name, log := s.log ++ events } := by
  refine ⟨fun b q => Db.rowAt_purged, Db.hashed_purged here.hashed, rfl, here.placed.withRows (fun _ _ => rfl)
    (Nat.le_refl _) _, here.termed, here.owned, fun b q _ => here.slots b q, fun fp member => ?_, fun q => ?_⟩
  · obtain ⟨row, chosen, rfl⟩ := List.mem_map.mp member
    exact ⟨row.path, by rw [Document.filepath, beq_iff_eq.mp (Table.mem_select.mp chosen).2]⟩
  · change (s.slot name q).entries = [] ∨ _
    cases found : s.db.rowAt name q with
    | none => exact .inl (by simp [Store.slot, Store.entriesAt, found])
    | some v =>
      have good := here.slots name q
      cases active : v.active with
      | false => exact .inl (good.gone v found active)
      | true =>
        refine .inr ⟨?_, here.termed name q v found active⟩
        obtain ⟨row, member, own, place, -⟩ := Db.rowAt_eq_some.mp found
        refine List.mem_map.mpr ⟨row, Table.mem_select.mpr ⟨member, beq_iff_eq.mpr own⟩, ?_⟩
        rw [Document.filepath, own, place]

variable {before : Db} {fp : String} {rest : List String}

/-- The entry at the next path goes. -/
theorem deleted (here : Purging env lacking name before (fp :: rest) s) :
    Purging env lacking name before rest { s with fts := s.fts.deleted env fp } := by
  obtain ⟨path, rfl⟩ := here.among fp List.mem_cons_self
  have slots : ∀ b q, Store.slot { s with db := before, fts := s.fts.deleted env (filepath name path) } b q =
      ⟨(Store.slot { s with db := before } b q).row, if (b, q) = (name, path) ∧
        env.pathTerms (filepath name path) ≠ [] then []
        else (Store.slot { s with db := before } b q).entries⟩ := fun b q => slot_deleted here.placed
  refine ⟨here.rows, here.hashed, here.sequence, here.placed.deleted (filepath name path), here.termed,
    fun e member => ?_,
    fun b q other => ?_, fun fp later => here.among fp (List.mem_cons_of_mem _ later), fun q => ?_⟩
  · change e ∈ (s.fts.deleted env (filepath name path)).working at member
    rw [FtsIndex.working_deleted] at member
    exact here.owned e (List.mem_filter.mp member).1
  · rw [slots, if_neg fun both => other (Prod.mk.inj both.1).1]
    exact here.slots b q other
  · rw [slots]
    by_cases hit : (name, q) = (name, path) ∧ env.pathTerms (filepath name path) ≠ []
    · rw [if_pos hit]
      exact .inl rfl
    · rw [if_neg hit]
      refine (here.taken q).imp_right fun waits => ⟨?_, waits.2⟩
      rcases List.mem_cons.mp waits.1 with now | later
      · obtain rfl := (filepath_injective now).2
        exact absurd ⟨rfl, waits.2⟩ hit
      · exact later

/-- With every path done the entries are those of the other collections. -/
theorem ended (here : Purging env lacking name before [] s) : s.Abreast env lacking := by
  have sits : ∀ {id : Nat} {fp : String}, s.db.Sits id fp → before.Sits id fp := by
    intro id fp there
    obtain ⟨b, q, v, found, same, place⟩ := there
    rw [here.rows] at found
    split at found
    · cases found
    · exact ⟨b, q, v, found, same, place⟩
  obtain ⟨located, committed, working, staged, idle⟩ := here.placed
  refine ⟨⟨⟨?_, ?_, ?_, located.known⟩, ?_, ?_, ?_, idle⟩, here.hashed, ?_, ?_, fun b q => ?_⟩
  · exact fun e member fp there => located.committed e member fp (sits there)
  · exact fun e member fp there => located.working e member fp (sits there)
  · exact fun x member fp there => located.staged x member fp (sits there)
  · rw [here.sequence]
    exact committed
  · rw [here.sequence]
    exact working
  · rw [here.sequence]
    exact staged
  · intro b q v found active
    rw [here.rows] at found
    split at found
    · cases found
    · exact here.termed b q v found active
  · intro e member
    obtain ⟨fp, b, q, v, found, same, place⟩ := here.owned e member
    have other : b ≠ name := by
      intro mine
      subst mine
      have entry : e ∈ (Store.slot { s with db := before } b q).entries := by
        have entries : (Store.slot { s with db := before } b q).entries = entriesOf s.fts.working v.id := by
          simp only [Store.slot, Store.entriesAt, found]
        rw [entries]
        exact mem_entriesOf.mpr ⟨member, same.symm⟩
      rcases here.taken q with none | waits
      · rw [none] at entry
        cases entry
      · cases waits.1
    refine ⟨fp, b, q, v, ?_, same, place⟩
    rw [here.rows, if_neg other]
    exact found
  · by_cases mine : b = name
    · have none : (s.slot b q).row = none := by
        change s.db.rowAt b q = none
        rw [here.rows, if_pos mine]
      refine ⟨fun v row => ?_, fun v row => ?_⟩
      · rw [none] at row
        cases row
      · rw [none] at row
        cases row
    · have same : s.slot b q = Store.slot { s with db := before } b q := by
        have rows := here.rows b q
        rw [if_neg mine] at rows
        simp only [Store.slot, Store.entriesAt, rows]
      rw [same]
      exact here.slots b q mine

end Store.Purging

/-! ### The command -/

theorem wp_purgeCollection_stops : wp faults (purgeCollection name)
    ⟨fun filepaths t => filepaths = s.db.purgeFilepaths name ∧
        t = { s with db := s.db.purged name, log := s.log ++ [.collectionPurged] },
      fun _ t => faults.Possible ∧ (t = s ∨ t.log = s.log ++ [.collectionPurged]),
      fun t => faults.Possible ∧ (t = s ∨ t.log = s.log ++ [.collectionPurged])⟩ s := by
  have statement : ∀ (f : Db → Db) (u : Store V), u.log = s.log ++ [.collectionPurged] →
    ∀ (rest : Command V (List String)),
      wp faults rest ⟨fun filepaths t => filepaths = s.db.purgeFilepaths name ∧
          t = { s with db := s.db.purged name, log := s.log ++ [.collectionPurged] },
        fun _ t => faults.Possible ∧ (t = s ∨ t.log = s.log ++ [.collectionPurged]),
        fun t => faults.Possible ∧ (t = s ∨ t.log = s.log ++ [.collectionPurged])⟩ { u with db := f u.db } →
      wp faults (do
        Store.sqlExecute "purge collection" f []
        rest : Command V (List String)) ⟨fun filepaths t => filepaths = s.db.purgeFilepaths name ∧
          t = { s with db := s.db.purged name, log := s.log ++ [.collectionPurged] },
        fun _ t => faults.Possible ∧ (t = s ∨ t.log = s.log ++ [.collectionPurged]),
        fun t => faults.Possible ∧ (t = s ∨ t.log = s.log ++ [.collectionPurged])⟩ u := by
    intro f u log rest later
    refine wp_bind (Store.wp_sqlExecute ?_ (fun raised _ => ⟨possible_of_fault raised, .inr log⟩) fun dead =>
      ⟨.inl dead, .inr log⟩)
    simp only [List.append_nil]
    exact later
  unfold purgeCollection
  refine wp_bind (wp_query (wp_bind (Store.wp_sqlExecute ?_ (fun raised _ => ⟨possible_of_fault raised, .inl rfl⟩)
    fun dead => ⟨.inl dead, .inl rfl⟩)))
  apply statement _ _ rfl
  apply statement _ _ rfl
  apply statement _ _ rfl
  apply statement _ _ rfl
  exact wp_pure ⟨rfl, rfl⟩

/-- However a removal ends. -/
theorem wp_removeCollection_halts {d : Disk V} (here : d.Abreast env d.db.RebuildDue) :
    wp faults (removeCollection env name) (Ends.all fun t => t.disk.Halted env faults Db.RebuildDue d.log)
      (d.open false) := by
  have still : d.Halted env faults Db.RebuildDue d.log := .untouched here
  have torn : ∀ t : Store V, faults.Possible ∧ (t = d.open false ∨ t.log = d.log ++ [.collectionPurged]) →
      t.disk.Halted env faults Db.RebuildDue d.log := by
    intro t stop
    obtain ⟨faulty, rfl | log⟩ := stop
    · exact still
    · refine ⟨[.collectionPurged], log, fun _ => faulty, fun _ calm => ?_⟩
      rcases calm with through | not
      · cases through
      · exact absurd faulty not
  unfold removeCollection
  refine wp_bind (wp_modify (wp_bind (wp_query (wp_ite (wp_throw still) (wp_bind ?_)))))
  refine wp_mono wp_purgeCollection_stops ?_ (fun _ t stop => torn t stop) fun t stop => torn t stop
  intro filepaths p both
  obtain ⟨rfl, purged⟩ := both
  have start : p.Tracked env faults Db.RebuildDue d.log
      (fun s => s.Purging env s.db.RebuildDue name d.db (d.db.purgeFilepaths name)) [.collectionPurged] := by
    subst purged
    refine ⟨rfl, fun found => ?_, openHnsw_writable, fun _ => ?_, fun _ calm => ?_⟩
    · cases List.mem_singleton.mp found
    · have wide : (d.open false).Abreast env (d.db.purged name).RebuildDue :=
        here.carried rfl (fun _ _ => rfl) (Nat.le_refl _) here.hashed Db.rebuildDue_purged
      exact .begun wide
    · cases calm
  refine wp_bind (wp_forEach (fun rest t => ∃ events, t.Tracked env faults Db.RebuildDue d.log
    (fun s => s.Purging env s.db.RebuildDue name d.db rest) events) ?_ ?_ _ _ ⟨_, start⟩)
  · exact fun path rest t purging => wp_removeStale_tracked purging Store.Purging.deleted
  · intro t purging
    obtain ⟨events, tracked⟩ := purging
    have follows : t.Follows env faults Db.RebuildDue d.log := ⟨events, tracked.mono Store.Purging.ended⟩
    refine wp_bind (wp_mono (wp_reclaimOrphaned_follows Db.rebuildDue_lasting follows) ?_ (fun _ _ => id) fun _ => id)
    intro _ u follows
    exact wp_mono (wp_flush_rests follows) (fun _ _ rests => rests.halted) (fun _ _ => id) fun _ => id

end Rqmd
