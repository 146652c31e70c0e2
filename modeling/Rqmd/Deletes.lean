import Mathlib.Data.List.Induction
import Rqmd.Lib.Transition
import Rqmd.UpdateRuns

/-! Deleting a path from the full-text index. The delete query finds entries by the phrase of the path and by an id,
and both can be shared with the entries of another path. -/

namespace Rqmd
open Interrupt Transition

variable {V : Type} {env : Env V}

/-- The calls that write the index of an open store. -/
inductive FtsCall where
  | upsert (filepath title body frontmatter : String) (docId : Nat)
  | delete (filepath : String)
  | commit

def FtsCall.command (env : Env V) : FtsCall → Command V Unit
  | .upsert filepath title body frontmatter docId => Store.addDocumentWithFrontmatter env filepath title body frontmatter docId
  | .delete filepath => Store.deleteByFilepath env filepath
  | .commit => Store.ftsCommit

/-- A run of the command from `s` that completes leaves `t`. -/
def Command.Leaves (command : Command V Unit) (s t : Store V) : Prop := ∃ fates rest, command fates s = .done () t rest

/-- The stores that completed calls reach from an opened one. -/
def Store.Written (env : Env V) (d : Disk V) (s : Store V) : Prop :=
  Reaches (fun (call : FtsCall) m n => (call.command env).Leaves m n) always (d.open false) s

def Store.deleteThenCommit (env : Env V) (filepath : String) : Command V Unit := do
  deleteByFilepath env filepath
  ftsCommit

theorem Command.Leaves.met {command : Command V Unit} {s t : Store V} (left : command.Leaves s t)
    {done : Unit → Store V → Prop} (proved : wp Faults.any command (Ends.ifDone done) s) : done () t := by
  obtain ⟨fates, rest, run⟩ := left
  have met := proved fates fun fate _ => any_allows fate
  rw [run] at met
  exact met.1

namespace FtsIndex

variable {index : FtsIndex} {filepath : String}

/-- Every entry is one a delete can find, and without a writer there is nothing to commit. -/
structure Tracked (index : FtsIndex) : Prop where
  known : ∀ e ∈ index.working, e ∈ index.committed ∨ (e.filepath, e.docId) ∈ index.staged
  idle : index.writer = false → index.working = index.committed

/-- `FtsIndex::commit`. -/
def settled (index : FtsIndex) : FtsIndex := if index.writer then index.commitStaged else index

theorem Tracked.located (tracked : index.Tracked) : index.Located fun _ _ => False :=
  ⟨fun _ _ _ placed => placed.elim, fun _ _ _ placed => placed.elim, fun _ _ _ placed => placed.elim, tracked.known⟩

theorem tracked_opened (entries : List FtsEntry) (field : Bool) : (opened entries field).Tracked :=
  ⟨fun _ => .inl, fun _ => rfl⟩

theorem tracked_deleted (tracked : index.Tracked) (filepath : String) : (index.deleted env filepath).Tracked := by
  refine ⟨(located_deleted tracked.located filepath).known, ?_⟩
  simp only [deleted]
  split
  · exact tracked.idle
  · split
    · exact tracked.idle
    · intro idle
      cases idle

theorem tracked_insert (tracked : index.Tracked) (entry : FtsEntry) : (index.insertEntry entry).Tracked := by
  refine ⟨(located_insert tracked.located entry fun _ placed => placed.elim).known, ?_⟩
  intro idle
  cases idle

theorem tracked_settled (tracked : index.Tracked) : index.settled.Tracked := by
  unfold settled
  split
  · exact ⟨fun _ => .inl, fun _ => rfl⟩
  · exact tracked

/-- What a commit makes durable is the working state. -/
theorem Tracked.committed_settled (tracked : index.Tracked) : index.settled.committed = index.working := by
  unfold settled
  split
  · rfl
  · next idle => exact (tracked.idle (by simpa using idle)).symm

/-- An entry of this id is committed or staged at the path. -/
def HasId (index : FtsIndex) (filepath : String) (docId : Nat) : Prop :=
  (∃ e ∈ index.committed, e.filepath = filepath ∧ e.docId = docId) ∨ (filepath, docId) ∈ index.staged

theorem mem_collected (terms : env.pathTerms filepath ≠ []) {docId : Nat} :
    docId ∈ index.committedDocIdsAt env filepath ++ (index.takeStaged filepath).1 ↔ index.HasId filepath docId := by
  have self := phrase_matches_self _ terms
  simp only [List.mem_append, committedDocIdsAt, takeStaged, List.mem_map, List.mem_filter, Bool.and_eq_true, beq_iff_eq,
    HasId]
  apply or_congr
  · constructor
    · intro found
      obtain ⟨e, ⟨inside, _, place⟩, same⟩ := found
      exact ⟨e, inside, place, same⟩
    · intro stored
      obtain ⟨e, inside, place, same⟩ := stored
      exact ⟨e, ⟨inside, place ▸ self, place⟩, same⟩
  · constructor
    · intro found
      obtain ⟨⟨place, id⟩, ⟨inside, same⟩, rfl⟩ := found
      exact same ▸ inside
    · intro staged
      exact ⟨(filepath, docId), ⟨staged, rfl⟩, rfl⟩

/-- An entry is gone after the delete when it carries an id of the path and the phrase of the path stands in its own. -/
theorem mem_working_deleted {e : FtsEntry} :
    e ∈ (index.deleted env filepath).working ↔ e ∈ index.working ∧
      ¬ (phraseMatches (env.pathTerms filepath) (env.pathTerms e.filepath) = true ∧ index.HasId filepath e.docId) := by
  rw [working_deleted, List.mem_filter]
  apply and_congr_right
  intro _
  by_cases terms : env.pathTerms filepath = []
  · simp [terms, phraseMatches]
  · rw [← mem_collected terms, Bool.not_eq_true', ← Bool.not_eq_true, Bool.and_eq_true, List.contains_eq_mem,
      decide_eq_true_eq]

/-- The commit leaves the entries of all other paths, as they were, and none at this one. -/
def DeletesExactly (index : FtsIndex) (filepath : String) (after : FtsIndex) : Prop :=
  after.committed = index.working.filter fun e => e.filepath != filepath

/-- A path with an entry has a term, and no entry of another path that holds its phrase has an id of its entries. -/
structure Separates (env : Env V) (index : FtsIndex) (filepath : String) : Prop where
  termed : (∃ e ∈ index.working, e.filepath = filepath) → env.pathTerms filepath ≠ []
  apart : ∀ e ∈ index.working, e.filepath ≠ filepath →
    phraseMatches (env.pathTerms filepath) (env.pathTerms e.filepath) = true → ¬ index.HasId filepath e.docId

theorem deletesExactly_iff (tracked : index.Tracked) :
    index.DeletesExactly filepath (index.deleted env filepath).settled ↔ index.Separates env filepath := by
  rw [DeletesExactly, (tracked_deleted tracked filepath).committed_settled]
  constructor
  · intro exactly
    have stays : ∀ {e}, e ∈ index.working → (e ∈ (index.deleted env filepath).working ↔ e.filepath ≠ filepath) := by
      intro e inside
      rw [exactly, List.mem_filter, bne_iff_ne]
      exact and_iff_right inside
    refine ⟨?_, ?_⟩
    · intro there termless
      obtain ⟨e, inside, place⟩ := there
      rw [deleted_termless termless] at stays
      exact (stays inside).mp inside place
    · intro e inside other found shared
      exact (mem_working_deleted.mp ((stays inside).mpr other)).2 ⟨found, shared⟩
  · intro separates
    rw [working_deleted]
    apply List.filter_congr
    intro e inside
    have hit := @mem_working_deleted V env index filepath e
    rw [working_deleted, List.mem_filter, and_congr_right_iff] at hit
    rw [Bool.eq_iff_iff, hit inside, bne_iff_ne]
    constructor
    · intro missed place
      have found := phrase_matches_self _ (separates.termed ⟨e, inside, place⟩)
      apply missed
      rw [place]
      refine ⟨found, ?_⟩
      rcases tracked.known e inside with stored | staged
      · exact .inl ⟨e, stored, place, rfl⟩
      · exact .inr (place ▸ staged)
    · intro other shared
      exact separates.apart e inside other shared.1 shared.2

end FtsIndex

/-! ### Runs -/

/-- What a completed call makes of the index. -/
def FtsCall.apply (env : Env V) (call : FtsCall) (index : FtsIndex) : FtsIndex :=
  match call with
  | .upsert filepath title body frontmatter docId =>
    let cleared := index.deleted env filepath
    cleared.insertEntry (cleared.entryOf env filepath title body frontmatter docId)
  | .delete filepath => index.deleted env filepath
  | .commit => index.settled

theorem FtsIndex.tracked_apply (call : FtsCall) {index : FtsIndex} (tracked : index.Tracked) :
    (call.apply env index).Tracked := by
  cases call with
  | upsert filepath title body frontmatter docId => exact tracked_insert (tracked_deleted tracked filepath) _
  | delete filepath => exact tracked_deleted tracked filepath
  | commit => exact tracked_settled tracked

section Calls
variable {faults : Faults FaultKind} {ends : Ends (Store V) Failure Unit} {s : Store V}

theorem wp_ftsCommit_settled (done : ∀ t : Store V, t.fts = s.fts.settled → ends.done () t)
    (refused : faults.fault .fts → ∀ e t, ends.error e t) (cut : faults.die → ∀ t, ends.died t) :
    wp faults Store.ftsCommit ends s := by
  apply Store.wp_ftsCommit
  · intro idle
    apply done
    rw [FtsIndex.settled, idle]
    rfl
  · intro busy
    apply done
    rw [FtsIndex.settled, busy]
    rfl
  · exact fun raised _ e => ⟨refused raised e _, refused raised e _⟩
  · exact fun dead _ => ⟨cut dead _, cut dead _⟩

theorem wp_call (call : FtsCall) (done : ∀ t : Store V, t.fts = call.apply env s.fts → ends.done () t)
    (refused : faults.fault .fts → ∀ e t, ends.error e t) (cut : faults.die → ∀ t, ends.died t) :
    wp faults (call.command env) ends s := by
  cases call with
  | upsert filepath title body frontmatter docId =>
    apply wp_bind
    apply Store.wp_deleteByFilepath
    · apply Store.wp_insertDocument
      · exact done _ rfl
      · exact fun raised e => refused raised e _
      · exact fun dead => cut dead _
    · exact fun raised e => ⟨refused raised e _, refused raised e _⟩
    · exact fun dead => ⟨cut dead _, cut dead _⟩
  | delete filepath =>
    apply Store.wp_deleteByFilepath
    · exact done _ rfl
    · exact fun raised e => ⟨refused raised e _, refused raised e _⟩
    · exact fun dead => ⟨cut dead _, cut dead _⟩
  | commit => exact wp_ftsCommit_settled done refused cut

theorem wp_deleteThenCommit (filepath : String)
    (done : ∀ t : Store V, t.fts = (s.fts.deleted env filepath).settled → ends.done () t)
    (refused : faults.fault .fts → ∀ e t, ends.error e t) (cut : faults.die → ∀ t, ends.died t) :
    wp faults (Store.deleteThenCommit env filepath) ends s := by
  apply wp_bind
  apply Store.wp_deleteByFilepath
  · exact wp_ftsCommit_settled done refused cut
  · exact fun raised e => ⟨refused raised e _, refused raised e _⟩
  · exact fun dead => ⟨cut dead _, cut dead _⟩

end Calls

theorem Command.leaves_calm {command : Command V Unit} {s : Store V}
    (calm : wp Faults.calm command (Ends.only fun _ _ => True) s) : ∃ t, command.Leaves s t := by
  obtain ⟨_, t, rest, run, _⟩ := wp_calm calm
  exact ⟨t, [], rest, run⟩

theorem FtsCall.leaves_fts {call : FtsCall} {s t : Store V} (left : (call.command env).Leaves s t) :
    t.fts = call.apply env s.fts :=
  @Command.Leaves.met V _ s t left (fun _ t => t.fts = call.apply env s.fts)
    (wp_call call (fun _ made => made) (fun _ _ _ => trivial) fun _ _ => trivial)

theorem Store.leaves_deleteThenCommit {filepath : String} {s t : Store V}
    (left : (deleteThenCommit env filepath).Leaves s t) : t.fts = (s.fts.deleted env filepath).settled :=
  @Command.Leaves.met V _ s t left (fun _ t => t.fts = (s.fts.deleted env filepath).settled)
    (wp_deleteThenCommit filepath (fun _ made => made) (fun _ _ _ => trivial) fun _ _ => trivial)

theorem Store.Written.tracked {d : Disk V} {s : Store V} (run : s.Written env d) : s.fts.Tracked := by
  apply run.invariant (FtsIndex.tracked_opened d.entries d.frontmatterField)
  intro call m n tracked _ left
  rw [FtsCall.leaves_fts left]
  exact FtsIndex.tracked_apply call tracked

/-- Calls that meet no fault, one after the other. -/
theorem written_calls (calls : List FtsCall) (d : Disk V) :
    ∃ s, Store.Written env d s ∧ s.fts = calls.foldl (fun index call => call.apply env index) (d.open false).fts := by
  induction calls using List.reverseRecOn with
  | nil => exact ⟨d.open false, .refl, rfl⟩
  | append_singleton earlier call before =>
    obtain ⟨s, run, reached⟩ := before
    obtain ⟨t, left⟩ := Command.leaves_calm
      (@wp_call V env Faults.calm (Ends.only fun _ _ => True) s call (fun _ _ => trivial) False.elim False.elim)
    refine ⟨t, run.next trivial left, ?_⟩
    rw [FtsCall.leaves_fts left, reached, List.foldl_append]
    rfl

/-- From every index that upserts, deletes and commits reach, a delete by path and a commit take away the entries at
the path and no others exactly when terms and ids tell them apart. -/
theorem delete_by_filepath_exact_iff {d : Disk V} {s : Store V} (run : s.Written env d) (filepath : String) :
    (∀ t, (Store.deleteThenCommit env filepath).Leaves s t → s.fts.DeletesExactly filepath t.fts) ↔
      s.fts.Separates env filepath := by
  rw [← FtsIndex.deletesExactly_iff run.tracked]
  constructor
  · intro every
    obtain ⟨t, left⟩ := Command.leaves_calm (@wp_deleteThenCommit V env Faults.calm (Ends.only fun _ _ => True) s filepath
      (fun _ _ => trivial) False.elim False.elim)
    have deleted := every t left
    rwa [Store.leaves_deleteThenCommit left] at deleted
  · intro deleted t left
    rwa [Store.leaves_deleteThenCommit left]

/-- The phrase of the path stands in a longer one, whose entry has another id and stays. -/
theorem longer_path_stays :
    ∃ s : Store String, s.Written sampleEnv Disk.empty ∧ s.fts.working.map FtsEntry.filepath = ["docs/a.md", "proj/docs/a.md"] ∧
      ∀ t, (Store.deleteThenCommit sampleEnv "docs/a.md").Leaves s t → s.fts.DeletesExactly "docs/a.md" t.fts := by
  obtain ⟨s, run, reached⟩ := @written_calls String sampleEnv
    [.upsert "docs/a.md" "alpha" "alpha" "" 1, .commit, .upsert "proj/docs/a.md" "alpha" "alpha" "" 2] Disk.empty
  have entries : s.fts.working = [⟨"docs/a.md", "alpha", "alpha", "", 1⟩, ⟨"proj/docs/a.md", "alpha", "alpha", "", 2⟩] := by
    rw [reached]
    decide +kernel
  have stored : s.fts.committed = [⟨"docs/a.md", "alpha", "alpha", "", 1⟩] := by
    rw [reached]
    decide +kernel
  have staged : s.fts.staged = [("proj/docs/a.md", 2)] := by
    rw [reached]
    decide +kernel
  refine ⟨s, run, by rw [entries]; rfl, (delete_by_filepath_exact_iff run "docs/a.md").mpr ⟨fun _ => by decide +kernel, ?_⟩⟩
  intro e inside other _ shared
  rw [entries] at inside
  rw [FtsIndex.HasId, stored, staged] at shared
  simp only [List.mem_cons, List.not_mem_nil, or_false, exists_eq_left, Prod.mk.injEq] at inside shared
  rcases inside with rfl | rfl
  · exact other rfl
  · simp at shared

/-- A path without a letter or a digit has no term, so a delete leaves its entry. -/
theorem wordless_path_stays :
    ¬ ∀ s : Store String, s.Written sampleEnv Disk.empty → ∀ filepath t,
      (Store.deleteThenCommit sampleEnv filepath).Leaves s t → s.fts.DeletesExactly filepath t.fts := by
  intro exactly
  obtain ⟨s, run, reached⟩ := @written_calls String sampleEnv [.upsert "-/_" "alpha" "alpha" "" 1, .commit] Disk.empty
  obtain ⟨t, left⟩ := Command.leaves_calm (@wp_deleteThenCommit String sampleEnv Faults.calm (Ends.only fun _ _ => True) s "-/_"
    (fun _ _ => trivial) False.elim False.elim)
  have deleted := exactly s run "-/_" t left
  rw [FtsIndex.DeletesExactly, Store.leaves_deleteThenCommit left, reached] at deleted
  revert deleted
  decide +kernel

end Rqmd
