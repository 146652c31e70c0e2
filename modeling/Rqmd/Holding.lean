import Rqmd.Statements
import Rqmd.UpdateRuns

/-! Files that are indexed at their current content. What an undisturbed pass makes of them is said path by path,
and what any pass leaves alone in the database once for all. -/

namespace Rqmd
open Interrupt

variable {V : Type} {env : Env V} {c d : CollectionName} {faults : Faults FaultKind}

/-! ### What a pass leaves alone in the database -/

/-- A condition on the database that the statements of a pass over `c` keep. -/
structure KeptByPass (c : CollectionName) (keep : Db → Prop) : Prop where
  content : ∀ db hash doc, keep db → keep (db.upsertContent hash doc)
  document : ∀ db path title hash id after, keep db → db.upsertDocument c path title hash = .ok (id, after) → keep after
  raw : ∀ db id raw, keep db → keep (db.setDocumentRaw id raw)
  stat : ∀ db path stat, keep db → keep (db.setDocumentStat c path stat)
  deactivate : ∀ db paths, keep db → keep (db.deactivate c paths)

theorem KeptByPass.passKeeps {keep : Db → Prop} (kept : KeptByPass c keep) :
    PassKeeps c (fun _ _ => True) fun s : Store V => keep s.db where
  aside _ _ _ _ := id
  saved _ _ := id
  clean _ := id
  rows s db log statement _ here := by
    cases statement with
    | content hash doc => exact kept.content _ hash doc here
    | document _ path title hash id offer changed written => exact kept.document _ path title hash id _ here written
    | raw id raw => exact kept.raw _ id raw here
    | stat path stat => exact kept.stat _ path stat here
    | deactivated paths => exact kept.deactivate _ paths here

/-- A pass leaves the recorded stats of the other collections. -/
theorem KeptByPass.statCache (other : d ≠ c) (cache : List (String × FileStat)) :
    KeptByPass c fun db => db.loadDocStatCache d = cache where
  content db hash doc here := by
    have same : (db.upsertContent hash doc).documents = db.documents := by
      unfold Db.upsertContent
      split <;> rfl
    unfold Db.loadDocStatCache at here ⊢
    rwa [same]
  document db path title hash id after here written := by
    unfold Db.loadDocStatCache at here ⊢
    unfold Db.upsertDocument at written
    split at written
    · dsimp only at written
      split at written
      · simp only [Except.ok.injEq, Prod.mk.injEq] at written
        obtain ⟨_, rfl⟩ := written
        change (db.documents.rows.map (db.revise c path title hash)).filterMap _ = _
        rw [List.filterMap_map, ← here]
        congr 1
        funext row
        simp only [Function.comp_apply, Db.revise]
        split
        · next same => simp [same.1, Ne.symm other]
        · rfl
      · simp only [Except.ok.injEq, Prod.mk.injEq] at written
        obtain ⟨_, rfl⟩ := written
        change (db.documents.rows ++ [_]).filterMap _ = _
        rw [List.filterMap_append, here]
        simp [Ne.symm other]
    · cases written
  raw db id raw here := by
    unfold Db.loadDocStatCache at here ⊢
    change (db.documents.rows.map _).filterMap _ = _
    rw [List.filterMap_map, ← here]
    congr 1
    funext row
    simp only [Function.comp_apply]
    split <;> rfl
  stat db path stat here := by
    unfold Db.loadDocStatCache at here ⊢
    change (db.documents.rows.map _).filterMap _ = _
    rw [List.filterMap_map, ← here]
    congr 1
    funext row
    simp only [Function.comp_apply]
    split
    · next same => simp [same.1, Ne.symm other]
    · rfl
  deactivate db paths here := by
    unfold Db.loadDocStatCache at here ⊢
    change (db.documents.rows.map _).filterMap _ = _
    rw [List.filterMap_map, ← here]
    congr 1
    funext row
    simp only [Function.comp_apply]
    split
    · next same => simp [same.1, Ne.symm other]
    · rfl

theorem KeptByPass.statCaches (cache : CollectionName → List (String × FileStat)) :
    KeptByPass c fun db => ∀ d, d ≠ c → db.loadDocStatCache d = cache d where
  content db hash doc here d other := (statCache other _).content db hash doc (here d other)
  document db path title hash id after here written d other :=
    (statCache other _).document db path title hash id after (here d other) written
  raw db id raw here d other := (statCache other _).raw db id raw (here d other)
  stat db path stat here d other := (statCache other _).stat db path stat (here d other)
  deactivate db paths here d other := (statCache other _).deactivate db paths (here d other)

/-! ### Holding a file's text -/

/-- The entry's body is a text with this hash. -/
def FtsEntry.Tells (env : Env V) (e : FtsEntry) (hash : String) : Prop :=
  ∃ text, env.contentHash text = hash ∧ e.body = env.normalizeNfc text

/-- The row is active with this hash, and one of its entries is made from a text of that hash. -/
def Slot.Holds (env : Env V) (hash : String) (slot : Slot) : Prop :=
  ∃ v, slot.row = some v ∧ v.active = true ∧ v.hash = hash ∧ ∃ e ∈ slot.entries, e.Tells env hash

/-- A row of the path, active or not, has the hash of the text: indexing takes the file for unchanged. -/
def Slot.Knows (env : Env V) (doc : PreparedDoc) (slot : Slot) : Prop :=
  ∃ v, slot.row = some v ∧ v.hash = env.contentHash doc.indexedText

/-- A file that is read and whose text is not known is indexed at that text. -/
def Slot.Fills (env : Env V) (cache : List (String × FileStat)) (file : WalkedFile) (before after : Slot) : Prop :=
  ∀ doc, cached cache file = false → file.prepared = .ok doc → ¬ before.Knows env doc →
    after.Holds env (env.contentHash doc.indexedText)

variable {s : Store V}

theorem wp_indexFile_fills (cache : List (String × FileStat)) (file : WalkedFile) (tally : UpdateTally) (s : Store V)
    (placed : Placed s) : wp Faults.calm (indexFile env c cache file tally)
      (Ends.only fun _ t => Slot.Fills env cache file (s.slot c file.relPath) (t.slot c file.relPath)) s := by
  apply wp_indexFile
  · intro skip _ doc miss prepared _
    rcases skip with hit | failed
    · rw [hit] at miss
      cases miss
    · obtain ⟨reason, failed⟩ := failed
      rw [failed] at prepared
      cases prepared
  · intro doc _ prepared same db _ _ other _ prepared' unknown
    rw [prepared] at prepared'
    cases prepared'
    exact absurd (Store.classify_unchanged.mp same) unknown
  · intro doc _ prepared db id written own _ _ other _ prepared' _
    rw [prepared] at prepared'
    cases prepared'
    rw [slot_indexed_self placed own written]
    refine ⟨_, rfl, rfl, rfl, Store.entryFor env s.fts c file.relPath doc id, ?_, doc.indexedText, rfl, rfl⟩
    exact List.mem_append_right _ List.mem_cons_self
  · exact fun impossible => impossible.elim False.elim False.elim
  · exact False.elim
  · exact False.elim

/-- What an undisturbed pass makes of the file at a path: it holds the text it held, or one that was read anew. -/
theorem holds_iff {cache : List (String × FileStat)} {file : WalkedFile} {before after : Slot} {hash : String}
    (settles : Slot.Settles env c cache file before after) (fills : Slot.Fills env cache file before after)
    (reads : ∀ doc, file.prepared = .ok doc → env.contentHash doc.indexedText = hash) :
    after.Holds env hash ↔ before.Holds env hash ∨
      (cached cache file = false ∧ ∃ doc, file.prepared = .ok doc ∧ ¬ before.Knows env doc) := by
  by_cases skip : cached cache file = true ∨ ∃ reason, file.prepared = .error reason
  · rw [settles.skipped skip]
    refine ⟨.inl, fun either => either.elim id fun fresh => ?_⟩
    obtain ⟨miss, doc, prepared, _⟩ := fresh
    rcases skip with hit | failed
    · rw [hit] at miss
      cases miss
    · obtain ⟨reason, failed⟩ := failed
      rw [failed] at prepared
      cases prepared
  · rw [not_or, Bool.not_eq_true] at skip
    obtain ⟨miss, readable⟩ := skip
    cases prepared : file.prepared with
    | error reason => exact absurd ⟨reason, prepared⟩ readable
    | ok doc =>
      by_cases known : before.Knows env doc
      · rw [settles.unchanged doc miss prepared known]
        refine ⟨.inl, fun either => either.elim id fun fresh => ?_⟩
        obtain ⟨_, other, same, unknown⟩ := fresh
        cases same
        exact absurd known unknown
      · have made := fills doc miss prepared known
        rw [reads doc prepared] at made
        exact iff_of_true made (.inr ⟨miss, doc, rfl, known⟩)

/-! ### One pass -/

theorem Db.names_distinct (db : Db) : (db.listCollections.map Collection.name).Nodup := by
  unfold Db.listCollections
  rw [List.nodup_iff_pairwise_ne, List.pairwise_map]
  exact db.collections.apart.imp fun apart same => apart same

/-- What an undisturbed pass over a scan makes of the slots of its collection. -/
structure Scan.Makes (env : Env V) (c : CollectionName) (cache : List (String × FileStat)) (scan : Scan)
    (before after : String → Slot) : Prop where
  walked : ∀ file ∈ scan.files, Slot.Settles env c cache file (before file.relPath) (after file.relPath) ∧
    Slot.Fills env cache file (before file.relPath) (after file.relPath)
  empty : scan.files = [] → after = before
  gone : scan.files ≠ [] → ∀ path, path ∉ scan.files.map WalkedFile.relPath → ∀ v,
    (after path).row = some v → v.active = false

theorem Scan.makes_nothing {cache : List (String × FileStat)} {scan : Scan} (empty : scan.files = [])
    (slots : String → Slot) : Scan.Makes env c cache scan slots slots where
  walked _ member := absurd (empty ▸ member) List.not_mem_nil
  empty _ := rfl
  gone some := absurd empty some

/-- Undisturbed passes over some collections lead from one store to the other. -/
structure PassedEach (env : Env V) (scan : CollectionName → Scan) (names : List CollectionName) (s t : Store V) : Prop where
  placed : Placed t
  even : s.fts.working = s.fts.committed → t.fts.working = t.fts.committed
  clean : t.hnswDirty = false
  others : ∀ d, d ∉ names → t.slot d = s.slot d ∧ t.db.loadDocStatCache d = s.db.loadDocStatCache d
  each : ∀ c ∈ names, Scan.Makes env c (s.db.loadDocStatCache c) (scan c) (s.slot c) (t.slot c)

theorem PassedEach.refl {scan : CollectionName → Scan} (placed : Placed s) (clean : s.hnswDirty = false) :
    PassedEach env scan [] s s where
  placed := placed
  even := id
  clean := clean
  others _ _ := ⟨rfl, rfl⟩
  each _ member := absurd member List.not_mem_nil

/-- Each collection is passed over once, so a pass finds it as the first store has it. -/
theorem PassedEach.cons {scan : CollectionName → Scan} {names : List CollectionName} {t u : Store V}
    (first : PassedEach env scan [c] s t) (fresh : c ∉ names) (rest : PassedEach env scan names t u) :
    PassedEach env scan (c :: names) s u where
  placed := rest.placed
  even start := rest.even (first.even start)
  clean := rest.clean
  others d outside := by
    rw [List.mem_cons, not_or] at outside
    have earlier := first.others d fun inside => outside.1 (List.mem_singleton.mp inside)
    have later := rest.others d outside.2
    exact ⟨later.1.trans earlier.1, later.2.trans earlier.2⟩
  each d member := by
    rcases List.mem_cons.mp member with rfl | inside
    · rw [(rest.others d fresh).1]
      exact first.each d List.mem_cons_self
    · have apart : d ∉ [c] := fun same => fresh (List.mem_singleton.mp same ▸ inside)
      rw [← (first.others d apart).1, ← (first.others d apart).2]
      exact rest.each d inside

theorem Disk.placed_opened {d : Disk V} (indexed : d.Indexed) (readOnly : Bool) : Placed (d.open readOnly) :=
  ⟨(Disk.placed_open indexed).located, indexed.bounded, indexed.bounded, (Disk.placed_open indexed).staged, fun _ => rfl⟩

/-- A store whose full-text writes are committed leaves its slots on disk. -/
theorem Store.disk_slot (even : s.fts.working = s.fts.committed) : s.disk.slot = s.slot := by
  funext c p
  simp only [Disk.slot, Store.slot, Store.entriesAt, Disk.open, FtsIndex.opened, Store.disk, even]

/-- The incremental pass over whatever stands between the store and the walk, short of a hook that stops it. -/
theorem wp_scanned {scan : CollectionName → Scan} (noHook : scan c ≠ .hookInterrupted) (placed : Placed s)
    (clean : s.hnswDirty = false) : wp Faults.calm (updateOneCollection env c false (scan c))
      (Ends.only fun o t => o.interrupted = false ∧ PassedEach env scan [c] s t) s := by
  have still : (scan c).files = [] → ∀ o : CollectionOutcome, o.interrupted = false →
      wp Faults.calm (pure o : Command V CollectionOutcome)
        (Ends.only fun o t => o.interrupted = false ∧ PassedEach env scan [c] s t) s := by
    intro empty o quiet
    refine wp_pure ⟨quiet, placed, id, clean, fun _ _ => ⟨rfl, rfl⟩, fun d member => ?_⟩
    rw [List.mem_singleton.mp member]
    exact Scan.makes_nothing empty (s.slot c)
  cases shape : scan c with
  | directoryMissing => exact still (by rw [shape]; rfl) _ rfl
  | hookInterrupted => exact absurd shape noHook
  | invalidMask hookFailure => exact still (by rw [shape]; rfl) _ rfl
  | walked hookFailure walk =>
    have pass := @wp_update_each V env s c false hookFailure walk (Slot.Fills env) wp_indexFile_fills placed clean
    have frame : wp Faults.calm (updateOneCollection env c false (.walked hookFailure walk))
        (Ends.all fun t => ∀ d, d ≠ c → t.db.loadDocStatCache d = s.db.loadDocStatCache d) s :=
      (KeptByPass.statCaches s.db.loadDocStatCache).passKeeps.update false (.walked hookFailure walk) s fun _ _ => rfl
    refine wp_mono (wp_and pass frame) ?_ (fun _ _ both => both.1.elim) fun _ both => both.1.elim
    intro o t both
    obtain ⟨⟨quiet, placedT, even, cleanT, passed, fills⟩, caches⟩ := both
    refine ⟨quiet, placedT, fun _ => even, cleanT, ?_, ?_⟩
    · intro d outside
      have other : d ≠ c := fun same => outside (List.mem_singleton.mpr same)
      exact ⟨funext fun path => passed.others d path other, caches d other⟩
    · intro d member
      rw [List.mem_singleton.mp member, shape]
      refine ⟨fun file inside => ⟨passed.walked file inside, fills file inside⟩, fun none => funext (passed.empty none), ?_⟩
      intro some path outside v row
      rw [passed.missing some path outside] at row
      exact Slot.swept_gone row

end Rqmd
