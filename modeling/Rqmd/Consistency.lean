import Rqmd.Coverage
import Rqmd.UpdateRuns

/-! An embed pass cut anywhere leaves every hash it takes for embedded with all of its vectors in the saved
file. -/

namespace Rqmd
open Interrupt

variable {V : Type} {env : Env V} {backend : Backend} {excluded : List Nat} {m n : Session V}

namespace Db

variable {db after : Db} {globs : List String → String → Bool}

/-- Exclusion looks at the rules, the documents and their texts only. -/
theorem SameTexts.excludedDocs (same : SameTexts db after) : after.excludedDocs globs = db.excludedDocs globs := by
  have content : ∀ hash, after.getContent hash = db.getContent hash := by
    intro hash
    simp only [getContent, getContentRow, same.content]
  have nonEmpty : ∀ hash, after.contentNonEmpty hash = db.contentNonEmpty hash := by
    intro hash
    simp only [contentNonEmpty, same.content]
  have collections : ∀ name, after.findCollection name = db.findCollection name := by
    intro name
    simp only [findCollection, same.collections]
  unfold Db.excludedDocs Table.select
  simp only [content, nonEmpty, collections, List.filter_filter]
  exact same.filter _ _ (fun _ => rfl) fun _ => rfl

end Db

/-- Every hash that does not need embedding has the vid of each of its rows in the saved file. -/
def Disk.Consistent (env : Env V) (backend : Backend) (excluded : List Nat) (d : Disk V) : Prop :=
  ∀ hash, needsEmbed env backend excluded d.db hash = false →
    ∀ row ∈ d.db.vectors, row.hash = hash → row.vid ∈ d.savedVids

theorem Disk.consistent_iff {d : Disk V} : d.Consistent env backend excluded ↔
    ∀ row ∈ d.db.vectors.rows, needsEmbed env backend excluded d.db row.hash = false → row.vid ∈ d.savedVids := by
  constructor
  · exact fun consistent row member done => consistent row.hash done row member rfl
  · intro each hash done row member same
    exact each row member (same ▸ done)

instance (d : Disk V) : Decidable (d.Consistent env backend excluded) := decidable_of_iff' _ Disk.consistent_iff

/-- What the embed pass takes for embedded. -/
def Settled (env : Env V) (backend : Backend) (excluded : List Nat) (db : Db) (hash : String) : Prop :=
  needsEmbed env backend excluded db hash = false

theorem stable_settled : Stable (Settled env backend excluded) := by
  intro db after hash texts rows settled
  exact (needsEmbed_congr texts rows).symm.trans settled

theorem covered_of_passes {start : Session V} (covered : start.Covered (Settled env backend excluded))
    (run : Passes env backend excluded start m) : m.Covered (Settled env backend excluded) := by
  refine covered.passes stable_settled (fun db hash needs settled => ?_) run
  rw [Settled, needs] at settled
  cases settled

/-- The texts, the rules and the documents stay what they were when the pass started. -/
theorem texts_of_passes {start : Session V} (run : Passes env backend excluded start m) :
    Db.SameTexts start.store.db m.store.db := by
  induction run with
  | refl => exact .refl _
  | tail _ step ih =>
    refine ih.trans ?_
    cases step with
    | unmarked hash => exact Db.sameTexts_clearPrevHash hash
    | committed db saved rows => exact (Db.checkpointed rows).texts
    | _ => exact .refl _

/-! ### One text in two files -/

/-- Rust files are chunked by their syntax, and a glob without wildcards matches its own path. -/
def rustEnv : Env String := { sampleEnv with
  grammars := [("ast_chunking:1\nast_language:rust:1", ["rs"])]
  globs := fun patterns path => patterns.contains path }

def gemma : Backend := ⟨.llama, "embeddinggemma", 2048⟩

def notesCollection : Collection := ⟨notes, "/notes", "**/*", [], true, none, false, true, none, [], none⟩

def sharedWalk : Walk :=
  ⟨[notesFile "a.rs" (.ok (notesDoc "alpha")), notesFile "b.txt" (.ok (notesDoc "alpha"))], by decide⟩

/-- Both files were embedded under the fingerprint of the first; then a rule excluded that one. -/
def sharedDisk : Disk String :=
  ((Disk.empty.run (addCollection rustEnv notesCollection sharedWalk) []).run
    (embedPass rustEnv gemma [notesCollection]) []).run (setCollection notes (some ["a.rs"]) none) []

/-- Death in the last step of a checkpoint, after the vector file is saved. -/
def cutAtRows : List (Fate FaultKind) := [.proceed, .proceed, .proceed, .proceed, .proceed, .die]

namespace Disk

/-- Wherever an embed pass ends, by completion, by an error or by death, the disk is consistent under the
exclusions in force. -/
theorem embedPass_consistent (env : Env V) (backend : Backend) (d : Disk V) (cols : List Collection)
    (fates : List (Fate FaultKind)) (consistent : d.Consistent env backend (d.db.excludedDocs env.globs)) :
    (d.run (embedPass env backend cols) fates).Consistent env backend
      ((d.run (embedPass env backend cols) fates).db.excludedDocs env.globs) := by
  have kept : ∀ t, Left env backend (d.db.excludedDocs env.globs) (.of (d.open false)) t →
      t.disk.Consistent env backend (t.db.excludedDocs env.globs) := by
    rintro t ⟨m, run, rfl⟩
    have texts := texts_of_passes run
    have same : m.store.db.excludedDocs env.globs = d.db.excludedDocs env.globs := texts.excludedDocs
    rw [same]
    exact Disk.consistent_iff.mpr (covered_of_passes (.opened (Disk.consistent_iff.mp consistent)) run).file
  have pass := @wp_embedPass V env backend (d.open false) cols openHnsw_writable
  have ends : wp Faults.any (embedPass env backend cols)
      (Ends.all fun t => t.disk.Consistent env backend (t.db.excludedDocs env.globs)) (d.open false) :=
    wp_mono pass (fun _ t ended => kept t ended.1.left) (fun _ t => kept t) kept
  exact wp_final ends fun fate _ => any_allows fate

theorem embedPass_consistent_shared :
    (sharedDisk.run (embedPass rustEnv gemma [notesCollection]) cutAtRows).Consistent rustEnv gemma
      ((sharedDisk.run (embedPass rustEnv gemma [notesCollection]) cutAtRows).db.excludedDocs rustEnv.globs) :=
  embedPass_consistent rustEnv gemma sharedDisk [notesCollection] cutAtRows (by decide +kernel)

/-- The pending predicate that knows no exclusions takes the excluded file's fingerprint for current, while the
pass embeds the text again for the other file. -/
theorem embedPass_unexcluded_inconsistent : sharedDisk.Consistent rustEnv gemma [] ∧
    ¬ (sharedDisk.run (embedPass rustEnv gemma [notesCollection]) cutAtRows).Consistent rustEnv gemma [] := by
  constructor
  · decide +kernel
  · decide +kernel

end Disk

end Rqmd
