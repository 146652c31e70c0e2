import Rqmd.Clearing
import Rqmd.Returning

/-! The embed run after an interrupted rebuild. It decides from the rows alone what it takes on, so it gives every text
its vectors exactly when the texts that count as embedded still had theirs. -/

namespace Rqmd
open Interrupt Transition

variable {V : Type} {env : Env V} {backend : Backend} {excluded : List Nat} {s t u : Store V} {d : Disk V}

/-! ### The texts a run takes on -/

/-- The texts taken on have new rows, written or waiting. -/
structure Renewing (floor : Nat) (run : EmbedRun) (taken : List Place) (s : Store V) : Prop where
  next : floor ≤ s.hnsw.nextVid
  pending : ∀ m ∈ run.pending, floor ≤ m.vid
  each : ∀ place ∈ taken, (∃ m ∈ run.pending, m.hash = place.1) ∨ ∃ row ∈ s.db.vectors, row.hash = place.1 ∧ floor ≤ row.vid

/-- New vectors are past the floor. -/
structure Session.Past (floor : Nat) (m : Session V) : Prop where
  next : floor ≤ m.store.hnsw.nextVid
  batch : ∀ a ∈ m.batch, floor ≤ a.vid

theorem Session.Past.step {floor : Nat} {m n : Session V} (past : m.Past floor) (step : EmbedStep env backend excluded m n) :
    n.Past floor := by
  have next := past.next
  cases step with
  | aside fts dirty log quiet => exact ⟨past.next, past.batch⟩
  | unmarked hash => exact ⟨past.next, past.batch⟩
  | added chunk vector vid index source given =>
    obtain ⟨absent, above, rfl⟩ := VectorIndex.add_some given
    refine ⟨?_, fun a member => ?_⟩
    · change floor ≤ vid + 1
      omega
    · rcases List.mem_append.mp member with old | new
      · exact past.batch a old
      · rw [List.mem_singleton.mp new]
        change floor ≤ vid
        omega
  | refused vector index given => exact ⟨Nat.le_trans past.next (VectorIndex.add_none given).2.1, past.batch⟩
  | rolledBack =>
    refine ⟨?_, fun _ none => absurd none List.not_mem_nil⟩
    exact Nat.le_trans past.next (Nat.le_of_eq (Store.removeVids_nextVid _ _).symm)
  | embedded hash relPath pending first =>
    exact ⟨Session.embedded_index.1.symm ▸ past.next, fun _ none => absurd none List.not_mem_nil⟩
  | saved writable => exact ⟨past.next, past.batch⟩
  | committed db saved rows => exact ⟨past.next, past.batch⟩

theorem Session.Past.passes {floor : Nat} {start m : Session V} (past : start.Past floor)
    (run : Passes env backend excluded start m) : m.Past floor := by
  induction run with
  | refl => exact past
  | tail _ step ih => exact ih.step step

/-- A checkpoint leaves a new row for each text that waits, and those of the texts before. -/
theorem Renewing.checkpointed {floor : Nat} {start : Db} {run : EmbedRun} {taken : List Place}
    (embedding : Embedding env backend start run taken s.db) (index : t.hnsw = s.hnsw)
    (rows : run.pending = [] ∧ run.pendingDeletes = [] ∧ t.db = s.db ∨
      Store.checkpointRows run.pending run.pendingDeletes s.hnsw.nextVid s.db = .ok t.db)
    (here : Renewing floor run taken s) : Renewing floor run.checkpointed taken t := by
  refine ⟨index ▸ here.next, fun _ none => absurd none List.not_mem_nil, fun place member => .inr ?_⟩
  rcases rows with ⟨idle, -, same⟩ | ok
  · rcases here.each place member with ⟨m, waiting, -⟩ | stored
    · rw [idle] at waiting
      exact absurd waiting List.not_mem_nil
    · exact same ▸ stored
  · have done := Db.checkpointed ok
    rcases embedding.each place member with waiting | ⟨free, -⟩
    · obtain ⟨m, inside, theirs⟩ := waiting.some
      obtain ⟨row, stored, same⟩ := done.placed m inside
      refine ⟨row, stored, same.trans theirs, ?_⟩
      rcases done.source row stored with ⟨p, made, rfl⟩ | ⟨old, kept, -⟩
      · exact here.pending p made
      · exact absurd (waiting.replaced row old (same.trans theirs)) (same.trans theirs ▸ kept)
    · rcases here.each place member with ⟨m, inside, theirs⟩ | ⟨row, stored, theirs, past⟩
      · exact absurd theirs (free.1 m inside)
      · exact ⟨row, (done.untouched free.2 free.1 row theirs).mpr stored, theirs, past⟩

theorem Renewing.past {floor : Nat} {run : EmbedRun} {taken : List Place} (here : Renewing floor run taken s)
    {batch : List AddedVector} (passes : Passes env backend excluded ⟨s, [], run.pending, run.pendingDeletes⟩
      ⟨u, batch, run.pending, run.pendingDeletes⟩) : floor ≤ u.hnsw.nextVid ∧ ∀ a ∈ batch, floor ≤ a.vid := by
  have start : (⟨s, [], run.pending, run.pendingDeletes⟩ : Session V).Past floor :=
    ⟨here.next, fun _ none => absurd none List.not_mem_nil⟩
  exact ⟨(start.passes passes).next, (start.passes passes).batch⟩

/-- The rows of a document that is embedded wait with new vectors. -/
theorem Renewing.embedded {floor : Nat} {run : EmbedRun} {taken : List Place} {batch : List AddedVector} (doc : Document)
    (passes : Passes env backend excluded ⟨s, [], run.pending, run.pendingDeletes⟩
      ⟨u, batch, run.pending, run.pendingDeletes⟩) (same : u.db = s.db) (some : batch ≠ [])
    (here : Renewing floor run taken s) :
    Renewing floor (run.embedded (batchMetas env doc.hash doc.path batch) (Running.after env run doc u batch).superseded)
      (taken ++ [doc.place]) (Running.after env run doc u batch).store := by
  obtain ⟨next, fresh⟩ := here.past passes
  refine ⟨Session.embedded_index.1.symm ▸ next, fun m member => ?_, fun place member => ?_⟩
  · rcases List.mem_append.mp member with old | new
    · exact here.pending m old
    · obtain ⟨-, a, inside, vid, -⟩ := batchMetas_source new
      exact vid.symm ▸ fresh a inside
  · rcases List.mem_append.mp member with old | new
    · rcases here.each place old with ⟨m, waiting, theirs⟩ | stored
      · exact .inl ⟨m, List.mem_append_left _ waiting, theirs⟩
      · exact .inr (same.symm ▸ stored)
    · rw [List.mem_singleton.mp new]
      obtain ⟨m, made⟩ : ∃ m, m ∈ batchMetas env doc.hash doc.path batch := by
        apply List.exists_mem_of_ne_nil
        simpa [batchMetas] using some
      exact .inl ⟨m, List.mem_append_right _ made, Running.batchMetas_hash made⟩

theorem Renewing.rule {floor : Nat} {start : Db} : PassRule env backend start fun run taken (s : Store V) =>
    Renewing floor run taken s where
  unmarked _ here := ⟨here.next, here.pending, here.each⟩
  failed _ _ passes same here := ⟨(here.past passes).1, here.pending, same.symm ▸ here.each⟩
  embedded doc passes same some here := here.embedded doc passes same some
  checkpointed := Renewing.checkpointed

/-! ### What the run leaves -/

/-- Every document with text has rows, and the file has the vectors of all of them. -/
def Disk.Present (env : Env V) (d : Disk V) : Prop :=
  ∀ doc ∈ d.db.documents, Embeddable env d.db doc → (∃ row ∈ d.db.vectors, row.hash = doc.hash) ∧ d.Holds doc.hash

section Work

variable {mid : Store V} {taken : List Place} {result : EmbedRun × EmbedFlow} {cols : List Collection}

/-- The vectors of a text the pass took on are new, so the file has them. -/
theorem WorkLeft.taken_holds (work : WorkLeft env backend cols u taken result mid t) (begun : u.Begun)
    (renewed : Renewing u.hnsw.nextVid result.1.checkpointed taken mid) {doc : Document} (stored : doc ∈ u.db.documents)
    (active : doc.active = true) (member : doc.hash ∈ taken.map Prod.fst) :
    (∃ row ∈ t.db.vectors, row.hash = doc.hash) ∧ t.disk.Holds doc.hash := by
  obtain ⟨place, taken, hash⟩ := List.mem_map.mp member
  obtain ⟨fresh, written, theirs, past⟩ : ∃ row ∈ mid.db.vectors, row.hash = place.1 ∧ u.hnsw.nextVid ≤ row.vid :=
    (renewed.each place taken).resolve_left fun waits => by simp [EmbedRun.checkpointed] at waits
  have own : fresh.hash = doc.hash := theirs.trans hash
  refine ⟨⟨fresh, (work.rows stored active fresh own).mpr written, own⟩, fun row inside theirs => ?_⟩
  -- the text has a row past the allocator the pass began with, so its rows are not those from before
  have untouched : Store.Whole.Untouched u mid.db row.hash := by
    intro same
    have old : fresh ∈ u.db.vectors := (same fresh (own.trans theirs.symm)).mp written
    have below : fresh.vid < u.hnsw.nextVid := begun.allotted.rows fresh old
    omega
  have ended := (Store.Whole.backedFor_untouched begun.allotted).passes Store.Whole.stable_untouched work.steps
  have there : row ∈ mid.db.vectors := (work.rows stored active row theirs).mp inside
  have backed : row.hash ∉ (Session.of mid).superseded ∧ Store.Whole.Untouched u mid.db row.hash :=
    ⟨List.not_mem_nil, untouched⟩
  have unlisted : row.hash ∉ mid.db.orphanedVectorHashes := ((work.reclaimed.rows row).mp inside).2
  rcases (Store.Reclaiming.of_done work.reclaimed).file row there unlisted with file | file
  · exact file.mpr (ended.file row there backed)
  · exact file.mpr (ended.memory row there backed)

/-- A run without failures leaves every text its vectors exactly when the file was intact. -/
theorem WorkLeft.present_iff (work : WorkLeft env backend u.db.listCollections u taken result mid t) (begun : u.Begun)
    (owned : u.db.Owned) (renewed : Renewing u.hnsw.nextVid result.1.checkpointed taken mid)
    (proceeded : result.2 = .proceed) (unfailed : result.1.failures = []) :
    t.disk.Present env ↔ u.disk.Intact env backend := by
  have unused : ∀ doc ∈ mid.db.documents, doc.active = true → doc.hash ∉ mid.db.orphanedVectorHashes :=
    fun doc stored active => Db.active_not_orphaned stored active
  rw [← intact_iff begun work.steps (.of_done work.reclaimed) unused]
  constructor
  · exact fun present doc stored done => (present doc stored done.1).2
  · intro intact later inside fits
    -- a text can still wait after the run that took it on, when its path hides the language
    by_cases waits : NeedsEmbed env backend t.db later.hash
    · obtain ⟨doc, stored, same⟩ := work.texts.before_document inside
      have hash := (Document.alike same).hash
      have before : Embeddable env u.db doc := (embeddable_congr work.texts same).mp fits
      have member : doc.hash ∈ taken.map Prod.fst := by
        by_contra outside
        have needs : NeedsEmbed env backend u.db doc.hash := by
          have texts := work.texts
          unfold NeedsEmbed at waits ⊢
          rw [texts.excludedDocs, hash, needsEmbed_congr texts fun row theirs =>
            (work.rows stored before.1 row theirs).trans (work.pass.others doc.hash outside row theirs)] at waits
          exact waits
        obtain ⟨queued, found, own⟩ := embedQueue_complete stored before needs (owned doc stored)
        have all : taken = (embedQueue env backend u.db).map Document.place := work.pass.all proceeded unfailed
        apply outside
        rw [all, List.map_map]
        exact List.mem_map.mpr ⟨queued, found, own⟩
      exact hash.symm ▸ work.taken_holds begun renewed stored before.1 member
    · have done : t.db.Done env backend later := ⟨fits, waits⟩
      exact ⟨done.row, intact later inside done⟩

end Work

/-! ### Where the run starts -/

theorem Disk.keyed_begun (d : Disk V) : (Store.backfilled env backend false (d.open false)).Begun :=
  ⟨(d.begun false).allotted.step (Step.keyed (.of (d.open false)) _ _ _ : Step env _ _ _), openHnsw_inner⟩

/-- Filling in keys touches no text, no id and no vector. -/
theorem Disk.keyed_intact (d : Disk V) :
    (Store.backfilled env backend false (d.open false)).disk.Intact env backend ↔ d.Intact env backend := by
  have done : ∀ doc, Db.Done env backend (d.db.keyed env backend) doc ↔ d.db.Done env backend doc := by
    intro doc
    unfold Db.Done NeedsEmbed
    rw [embeddable_congr keyed_same.1 rfl, keyed_same.1.excludedDocs, needsEmbed_keyed]
  have holds : ∀ hash, (Store.backfilled env backend false (d.open false)).disk.Holds hash ↔ d.Holds hash := by
    intro hash
    constructor
    · intro held row stored theirs
      have keys := Db.backfill_keys backend.model (expectedFingerprint env.toHashes env.grammars backend.model ::
        (expectedAstFingerprints env.toHashes env.grammars backend.model).map AstFingerprint.fingerprint)
        (vectorKey env.toHashes backend) row
      have saved := held _ (Db.mem_backfillVectorKeys.mpr ⟨row, stored, rfl⟩) (keys.1.trans theirs)
      rw [keys.2.2] at saved
      exact saved
    · intro held row stored theirs
      obtain ⟨old, inside, rfl⟩ := Db.mem_backfillVectorKeys.mp stored
      have keys := Db.backfill_keys backend.model (expectedFingerprint env.toHashes env.grammars backend.model ::
        (expectedAstFingerprints env.toHashes env.grammars backend.model).map AstFingerprint.fingerprint)
        (vectorKey env.toHashes backend) old
      rw [keys.2.2]
      exact held old inside (keys.1.symm.trans theirs)
  constructor
  · exact fun intact doc stored here => (holds _).mp (intact doc stored ((done doc).mpr here))
  · exact fun intact doc stored here => (holds _).mpr (intact doc stored ((done doc).mp here))

/-- With nothing waiting every document with text counts as embedded. -/
theorem Disk.present_idle (zero : pendingEmbedCount env backend d.db = 0) :
    d.Present env ↔ d.Intact env backend := by
  have done : ∀ doc ∈ d.db.documents, Embeddable env d.db doc → d.db.Done env backend doc := by
    intro doc stored fits
    refine ⟨fits, fun needs => ?_⟩
    have counted := mem_countedHashes.mpr ⟨⟨doc, stored, fits, rfl⟩, needs⟩
    have empty : (countedHashes env backend d.db).length = 0 := zero
    rw [List.length_eq_zero_iff.mp empty] at counted
    cases counted
  constructor
  · exact fun present doc stored here => (present doc stored here.1).2
  · intro intact doc stored fits
    exact ⟨(done doc stored fits).row, intact doc stored (done doc stored fits)⟩

theorem wp_runEmbed_present (chunked : env.Chunked) (owned : d.db.Owned) :
    wp Faults.any (runEmbed env backend none false)
      (Ends.ifDone fun _ t => t.disk.Present env ↔ d.Intact env backend) (d.open false) := by
  have renewed : Renewing (Store.backfilled env backend false (d.open false)).hnsw.nextVid (.new checkpointInterval) []
      (Store.backfilled env backend false (d.open false)) :=
    ⟨Nat.le_refl _, fun _ none => absurd none List.not_mem_nil, fun _ none => absurd none List.not_mem_nil⟩
  have work : wp Faults.any (embedCollections env backend d.db.listCollections false)
      (Ends.ifDone fun _ t => t.disk.Present env ↔ d.Intact env backend) (d.open false) := by
    rw [embedCollections_eq]
    refine wp_bind (wp_mono (wp_embedWork_along chunked openHnsw_writable Renewing.rule renewed) (fun result t left => ?_)
      (fun _ _ _ => trivial) fun _ _ => trivial)
    obtain ⟨taken, mid, work, fresh⟩ := left
    refine wp_ofExcept (fun _ ok => ?_) fun _ _ => trivial
    obtain ⟨proceeded, unfailed⟩ := finishEmbed_ok ok
    exact (work.present_iff d.keyed_begun owned fresh proceeded unfailed).trans d.keyed_intact
  rw [runEmbed_cleared]
  refine wp_bind (wp_modify (wp_bind (wp_query (wp_bind (wp_ofExcept ?_ fun _ _ => trivial)))))
  intro cols selected
  obtain rfl : d.db.listCollections = cols := Except.ok.inj selected
  simp only [Ends.with]
  split
  · next empty =>
    have nobody := owned.nobody selected empty
    exact wp_pure ⟨fun _ doc stored => absurd stored (nobody doc), fun _ doc stored => absurd stored (nobody doc)⟩
  · simp only [Bool.false_eq_true, if_false]
    refine wp_bind (wp_modify (wp_bind (wp_query ?_)))
    simp only [Ends.with]
    split
    · next zero => exact wp_pure (Disk.present_idle zero)
    · exact wp_bind (wp_modify work)

/-! ### Recovery -/

theorem Db.owned_empty : (Disk.empty : Disk V).db.Owned := fun doc none => absurd none (Table.not_mem_empty doc)

/-- A rebuild cut anywhere, and a plain run without failures after it. -/
theorem Disk.present_iff (chunked : env.Chunked) (owned : d.db.Owned) {collection : Option CollectionName}
    {fates later : List (Fate FaultKind)} (completed : ((runEmbed env backend none false) later
      ((d.run (runEmbed env backend collection true) fates).open false)).completed = true) :
    ((d.run (runEmbed env backend collection true) fates).run (runEmbed env backend none false) later).Present env ↔
      RebuildSpares env backend d collection fates := by
  have rebuilt : (d.run (runEmbed env backend collection true) fates).db.Owned := by
    have ended := @Invocation.command_owned V env (.embed backend collection true) (d.open false) owned
    exact wp_final ended fun fate _ => any_allows fate
  obtain ⟨-, left⟩ := wp_completed (wp_runEmbed_present chunked rebuilt) (fun fate _ => any_allows fate) completed
  exact left.trans (rebuild_intact_iff owned)

/-- After any history, a rebuild that stops at any step, and a plain run without failures, every document with text has
its vectors in the file exactly when the rebuild spared the texts that counted as embedded. -/
theorem recovered_iff (chunked : env.Chunked) (backend : Backend) (history : History) (collection : Option CollectionName)
    (fates later : List (Fate FaultKind)) (completed : ((runEmbed env backend none false) later
      (((Disk.empty.after env history).run (runEmbed env backend collection true) fates).open false)).completed = true) :
    (((Disk.empty.after env history).run (runEmbed env backend collection true) fates).run
        (runEmbed env backend none false) later).Present env ↔
      RebuildSpares env backend (Disk.empty.after env history) collection fates :=
  Disk.present_iff chunked (Disk.owned_after history Disk.empty Db.owned_empty) completed

/-- One document, embedded. -/
def notesHistory : History :=
  [(.add notesCollection (notesWalk (.ok (notesDoc "alpha"))), []), (.embed gemma none false, [])]

/-- The rebuild dies once the rows are cleared. -/
theorem recovered_cleared : (((Disk.empty.after sampleEnv notesHistory).run (runEmbed sampleEnv gemma none true)
      [.proceed, .proceed, .die]).run (runEmbed sampleEnv gemma none false) []).Present sampleEnv ↔
    RebuildSpares sampleEnv gemma (Disk.empty.after sampleEnv notesHistory) none [.proceed, .proceed, .die] :=
  recovered_iff (fun _ _ => List.cons_ne_nil _ _) gemma notesHistory none [.proceed, .proceed, .die] [] (by decide +kernel)

/-- The rebuild dies between the removal of the file and the clearing of the rows. -/
def strandedNotes : Disk String :=
  (Disk.empty.after sampleEnv notesHistory).run (runEmbed sampleEnv gemma none true) [.proceed, .die]

/-- The run after it finds nothing to do. -/
theorem rebuild_strands :
    ((runEmbed sampleEnv gemma none true) [.proceed, .die] ((Disk.empty.after sampleEnv notesHistory).open false)).completed =
        false ∧
      ((runEmbed sampleEnv gemma none false) [] (strandedNotes.open false)).completed = true ∧
      ¬ (strandedNotes.run (runEmbed sampleEnv gemma none false) []).Present sampleEnv := by
  refine ⟨by decide +kernel, by decide +kernel, fun present => ?_⟩
  have lost : ∃ doc ∈ (strandedNotes.run (runEmbed sampleEnv gemma none false) []).db.documents.rows,
      Embeddable sampleEnv (strandedNotes.run (runEmbed sampleEnv gemma none false) []).db doc ∧
      ∃ row ∈ (strandedNotes.run (runEmbed sampleEnv gemma none false) []).db.vectors.rows, row.hash = doc.hash ∧
        row.vid ∉ (strandedNotes.run (runEmbed sampleEnv gemma none false) []).savedVids := by
    unfold Embeddable
    decide +kernel
  obtain ⟨doc, stored, fits, row, inside, theirs, gone⟩ := lost
  exact gone ((present doc stored fits).2 row inside theirs)

/-! ### Runs in which no vectors are lost -/

/-- A text that counts as embedded for one of its documents counts as embedded for all of them. -/
theorem settled_all {db : Db} {doc : Document} (stored : doc ∈ db.documents) (active : doc.active = true)
    (free : doc.id ∉ excluded) (settled : needsEmbed env backend excluded db doc.hash = false) :
    needsEmbed env backend [] db doc.hash = false := by
  have more : ∀ other ∈ db.flagged doc.hash excluded, other ∈ db.flagged doc.hash [] := by
    intro other flagged
    simp only [Db.flagged, Table.mem_select, Bool.and_eq_true] at flagged
    exact Db.mem_flagged.mpr ⟨flagged.1, flagged.2.1.2, beq_iff_eq.mp flagged.2.1.1⟩
  have here : doc ∈ db.flagged doc.hash excluded := by simp [Db.flagged, stored, active, free]
  unfold needsEmbed Db.hashNeedsEmbed at settled ⊢
  by_cases none : (expectedAstFingerprints env.toHashes env.grammars backend.model).isEmpty = true
  · rw [if_pos none] at settled ⊢
    exact settled
  · rw [if_neg none] at settled ⊢
    simp only [Bool.not_eq_false', Bool.or_eq_true, List.any_eq_true, Bool.and_eq_true, Bool.not_eq_true'] at settled ⊢
    rcases settled with ⟨group, member, held, row⟩ | ⟨apart, row⟩
    · obtain ⟨other, flagged, inGroup⟩ := List.any_eq_true.mp held
      exact .inl ⟨group, member, List.any_eq_true.mpr ⟨other, more other flagged, inGroup⟩, row⟩
    · have some : (db.flagged doc.hash excluded).isEmpty = false := by simpa using List.ne_nil_of_mem here
      simp only [Db.allAst, some, Bool.not_false, Bool.true_and, List.all_eq_false] at apart
      obtain ⟨other, flagged, outside⟩ := apart
      refine .inr ⟨?_, row⟩
      simp only [Db.allAst, Bool.and_eq_false_iff, List.all_eq_false]
      exact .inr ⟨other, more other flagged, outside⟩

theorem Disk.Whole.intact (whole : d.Whole env backend) : d.Intact env backend := by
  intro doc stored done row inside theirs
  have settled : needsEmbed env backend [] d.db doc.hash = false :=
    settled_all stored done.1.1 done.1.2.2 ((Bool.not_eq_true _).mp done.2)
  exact whole row inside ⟨⟨doc, stored, done.1.1, theirs.symm⟩, theirs.symm ▸ settled⟩

/-- What a run in which no text comes back without its vectors keeps. -/
structure Disk.Upheld (env : Env V) (backend : Backend) (d : Disk V) : Prop where
  whole : d.Whole env backend
  owned : d.db.Owned

theorem upheld_of_run (run : Reaches (Ran env) (returnless env backend) Disk.empty d) : d.Upheld env backend := by
  have start : (Disk.empty : Disk V).Upheld env backend := ⟨Disk.whole_empty, Db.owned_empty⟩
  refine run.invariant start ?_
  intro entry m n here spares step
  cases step with
  | ran _ invocation fates through =>
    exact ⟨whole_command here.whole through spares, Disk.owned_after [(invocation, fates)] m here.owned⟩

/-- In such a run only the cut between the removal of the file and the clearing of the rows is not recovered from. -/
theorem recovered_of_run (chunked : env.Chunked) (run : Reaches (Ran env) (returnless env backend) Disk.empty d)
    {collection : Option CollectionName} {fates later : List (Fate FaultKind)}
    (apart : fileRemoved collection fates = true → rowsCleared collection fates = true)
    (completed : ((runEmbed env backend none false) later
      ((d.run (runEmbed env backend collection true) fates).open false)).completed = true) :
    ((d.run (runEmbed env backend collection true) fates).run (runEmbed env backend none false) later).Present env := by
  have upheld : d.Upheld env backend := upheld_of_run run
  have intact : d.Intact env backend := upheld.whole.intact
  refine (Disk.present_iff chunked upheld.owned completed).mpr ?_
  unfold RebuildSpares
  by_cases cleared : rowsCleared collection fates = true
  · rw [if_pos cleared]
    exact fun doc stored done _ => intact doc stored done
  · have kept : ¬ fileRemoved collection fates = true := fun removed => cleared (apart removed)
    rw [if_neg cleared, if_neg kept]
    exact intact

end Rqmd
