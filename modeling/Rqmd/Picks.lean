import Rqmd.FusionLaws
import Rqmd.Results

/-! The picks that a query sorts: one for each section of each candidate, in the order in which the sections are
sent to the reranker. -/

namespace Rqmd

variable {V S : Type} [Score S]

/-- A section of a candidate: the candidate's number and the section's rank in it. -/
structure FlatSection (S : Type) where
  doc : Nat
  rank : Nat
  cand : Candidate S
  chunk : String × Nat

/-- The sections of all candidates, from the candidate of number `index` on. -/
def flatSections {S : Type} : List (Candidate S × List (String × Nat)) → Nat → List (FlatSection S)
  | [], _ => []
  | (cand, chunks) :: rest, index =>
    chunks.zipIdx.map (fun (chunk, rank) => ⟨index, rank, cand, chunk⟩) ++ flatSections rest (index + 1)

/-- The pick of a section, with the rerank score at place `j`. -/
def sectionPick (engine : Engine V S) (db : Db) (rerank : Option (List S)) (recency : Option (Nat → S))
    (sect : FlatSection S) (j : Nat) : Pick S :=
  let rrf := sect.cand.ranked.backendScore
  let blended := match rerank with
    | some scores => Score.literal (3 / 4) * (scores[j]?).getD rrf + Score.literal (1 / 4) * rrf
    | none => rrf
  let factor := match recency with
    | some recency => recencyFactor engine db recency sect.cand.ranked.filepath
    | none => Score.literal 1
  ⟨sect.cand.ranked.filepath, sect.doc, sect.rank, blended * factor, sect.chunk⟩

section Flat
variable {engine : Engine V S} {db : Db} {rerank : Option (List S)} {recency : Option (Nat → S)}
  {paired : List (Candidate S × List (String × Nat))}

/-- The picks are those of the sections in order, each with the score of its own place. -/
theorem assemblePicks_eq (paired : List (Candidate S × List (String × Nat))) (index next : Nat) :
    assemblePicks engine db rerank recency paired index next =
      ((flatSections paired index).zipIdx next).map fun (sect, j) => sectionPick engine db rerank recency sect j := by
  induction paired generalizing index next with
  | nil => rfl
  | cons pair rest later =>
    have chunks : (pair.2.zipIdx.map fun item => (⟨index, item.2, pair.1, item.1⟩ : FlatSection S)).zipIdx next =
        pair.2.zipIdx.map fun item => (⟨index, item.2, pair.1, item.1⟩, next + item.2) := by
      apply List.ext_getElem
      · simp
      · intro i _ _
        simp
    rw [flatSections, List.zipIdx_append, List.map_append]
    dsimp only
    rw [chunks, List.length_map, List.length_zipIdx, ← later, List.map_map]
    rfl

omit [Score S] in
/-- The texts of the sections are those sent to the reranker. -/
theorem flatSections_chunks (paired : List (Candidate S × List (String × Nat))) (index : Nat) :
    (flatSections paired index).map FlatSection.chunk = (paired.map Prod.snd).flatten := by
  induction paired generalizing index with
  | nil => rfl
  | cons pair rest later =>
    rw [flatSections, List.map_append, later, List.map_cons, List.flatten_cons, List.map_map]
    congr 1
    exact List.zipIdx_map_fst 0 pair.2

omit [Score S] in
/-- A section is one of its candidate's, at its rank. -/
theorem flatSections_place {index : Nat} {sect : FlatSection S} (member : sect ∈ flatSections paired index) :
    ∃ i chunks, sect.doc = index + i ∧ paired[i]? = some (sect.cand, chunks) ∧ chunks[sect.rank]? = some sect.chunk := by
  induction paired generalizing index with
  | nil => exact absurd member List.not_mem_nil
  | cons pair rest later =>
    rcases List.mem_append.mp member with here | behind
    · obtain ⟨item, inside, rfl⟩ := List.mem_map.mp here
      exact ⟨0, pair.2, rfl, rfl, List.mem_zipIdx_iff_getElem?.mp inside⟩
    · obtain ⟨i, chunks, number, place, chunk⟩ := later behind
      exact ⟨i + 1, chunks, by omega, by rwa [List.getElem?_cons_succ], chunk⟩

omit [Score S] in
/-- Candidates of different paths have sections of different places. -/
theorem flatSections_once (distinct : (paired.map fun pair => pair.1.ranked.filepath).Nodup) (index : Nat) :
    ((flatSections paired index).map fun sect => (sect.cand.ranked.filepath, sect.rank)).Nodup := by
  induction paired generalizing index with
  | nil => exact .nil
  | cons pair rest later =>
    obtain ⟨alone, others⟩ := List.nodup_cons.mp distinct
    rw [flatSections, List.map_append, List.nodup_append]
    refine ⟨?_, later others (index + 1), fun a left b right same => ?_⟩
    · rw [List.map_map]
      have ranks : (pair.2.zipIdx.map Prod.snd).Nodup := by
        rw [List.zipIdx_map_snd]
        exact List.nodup_range'
      apply List.Nodup.of_map Prod.snd
      rw [List.map_map]
      exact ranks
    · obtain ⟨mine, inside, rfl⟩ := List.mem_map.mp left
      obtain ⟨item, _, rfl⟩ := List.mem_map.mp inside
      obtain ⟨other, behind, rfl⟩ := List.mem_map.mp right
      obtain ⟨i, chunks, _, place, _⟩ := flatSections_place behind
      apply alone
      have path : pair.1.ranked.filepath = other.cand.ranked.filepath := congrArg Prod.fst same
      exact List.mem_map.mpr ⟨_, List.mem_of_getElem? place, path.symm⟩

/-- The picks are at different places. -/
theorem assemblePicks_once (distinct : (paired.map fun pair => pair.1.ranked.filepath).Nodup) (index next : Nat) :
    ((assemblePicks engine db rerank recency paired index next).map fun pick => (pick.filepath, pick.rank)).Nodup := by
  have places : (assemblePicks engine db rerank recency paired index next).map (fun pick => (pick.filepath, pick.rank)) =
      (flatSections paired index).map fun sect => (sect.cand.ranked.filepath, sect.rank) := by
    rw [assemblePicks_eq, List.map_map]
    conv_rhs => rw [← List.zipIdx_map_fst next (flatSections paired index), List.map_map]
    rfl
  rw [places]
  exact flatSections_once distinct index

end Flat

/-! ### What is shown -/

/-- The result that shows a pick of some documents. -/
def shownPick {S : Type} (db : Db) (docs : List PickDoc) (pick : Pick S) : SearchResult S :=
  pickToResult db ((docs[pick.doc]?).getD ⟨"", "", ""⟩) pick

omit [Score S] in
theorem picksToResults_eq {db : Db} {docs : List PickDoc} {picks : List (Pick S)}
    (inside : ∀ pick ∈ picks, pick.doc < docs.length) : picksToResults db docs picks = picks.map (shownPick db docs) := by
  apply List.filterMap_eq_map_iff_forall_eq_some.mpr
  intro pick member
  have doc := List.getElem?_eq_getElem (inside pick member)
  rw [shownPick, doc]
  rfl

/-! ### The candidates -/

theorem candidates_once (db : Db) (ranked : Ranked S) (size : Nat) :
    ((fuseAndResolveCandidates db ranked size).map fun cand => cand.ranked.filepath).Nodup := by
  have once := fusion_once (ranked.map Prod.fst) (rrfWeights (S := S) (ranked.map Prod.snd))
  unfold fuseAndResolveCandidates
  generalize reciprocalRankFusion (ranked.map Prod.fst) (rrfWeights (ranked.map Prod.snd)) = fused at once
  have first := once.sublist ((List.take_sublist size fused).map RankedResult.filepath)
  dsimp only
  generalize fused.take size = taken at first
  induction taken with
  | nil => exact .nil
  | cons r rest later =>
    obtain ⟨alone, others⟩ := List.nodup_cons.mp first
    cases found : filepathToDoc db r.filepath with
    | none =>
      rw [List.filterMap_cons_none (by rw [found]; rfl)]
      exact later others
    | some d =>
      rw [List.filterMap_cons_some (by rw [found]; rfl)]
      refine List.nodup_cons.mpr ⟨fun again => alone ?_, later others⟩
      obtain ⟨cand, inside, path⟩ := List.mem_map.mp again
      obtain ⟨other, member, resolved⟩ := List.mem_filterMap.mp inside
      obtain ⟨_, _, rfl⟩ := Option.map_eq_some_iff.mp resolved
      have same : other.filepath = r.filepath := path
      exact List.mem_map.mpr ⟨other, member, same⟩

omit [Score S] in
/-- Every candidate gets its sections. -/
theorem selectSections_length (engine : Engine V S) (terms : List String) (perFile : Nat) (candidates : List (Candidate S))
    (extraBudget : Nat) : (selectSections engine terms perFile candidates extraBudget).length = candidates.length := by
  induction candidates generalizing extraBudget with
  | nil => rfl
  | cons cand rest later =>
    rw [selectSections, List.length_cons, List.length_cons]
    exact congrArg (· + 1) (later _)

/-- The picks that a query sorts. -/
def hybridPicks (engine : Engine V S) (db : Db) (query : String) (intent : Option String) (options : HybridOptions S)
    (candidates : List (Candidate S)) : List (Pick S) :=
  let rerankQuery := match intent with
    | some i => i ++ "\n" ++ query
    | none => query
  let sections := selectSections engine (queryTerms engine query intent) (clampPerFile options.perFile) candidates
    (rerankPoolCeiling - candidates.length)
  let scores := (rerankSections engine rerankQuery (sections.flatten.map Prod.fst) options.skipRerank).1
  assemblePicks engine db scores options.recency (candidates.zip sections) 0 0

/-- The results of a query are those of its picks. -/
theorem outcome_picks (engine : Engine V S) (db : Db) (query : String) (intent : Option String) (limit : Nat)
    (options : HybridOptions S) (candidates : List (Candidate S)) :
    (outcomeOf engine db query intent limit options candidates).results =
      picksToResults db ((candidates.zip (selectSections engine (queryTerms engine query intent)
          (clampPerFile options.perFile) candidates (rerankPoolCeiling - candidates.length))).map fun pair => pair.1.doc)
        (rankPicks (hybridPicks engine db query intent options candidates) limit) := rfl

/-- Picks of a query at the same place are the same. -/
theorem hybridPicks_apart {engine : Engine V S} {db : Db} {query : String} {intent : Option String}
    {options : HybridOptions S} {candidates : List (Candidate S)}
    (distinct : (candidates.map fun cand => cand.ranked.filepath).Nodup) :
    ∀ a ∈ hybridPicks engine db query intent options candidates, ∀ b ∈ hybridPicks engine db query intent options candidates,
      (a.filepath, a.rank) = (b.filepath, b.rank) → a = b := by
  intro a left b right same
  refine List.inj_on_of_nodup_map (assemblePicks_once ?_ 0 0) left right same
  have firsts : (candidates.zip (selectSections engine (queryTerms engine query intent) (clampPerFile options.perFile)
      candidates (rerankPoolCeiling - candidates.length))).map Prod.fst = candidates :=
    List.map_fst_zip (selectSections_length _ _ _ _ _).ge
  rw [← firsts, List.map_map] at distinct
  exact distinct

end Rqmd
