import Mathlib.Logic.Function.Basic
import Rqmd.Evidence
import Rqmd.Picks

/-! The sections of a query's candidates: a shared budget keeps them within the reranker's ceiling, and scores,
documents and bodies stay with the sections they belong to. -/

namespace Rqmd

variable {V S : Type} [Score S]

/-- `usize` subtraction, which panics below zero. -/
def checkedSub (a b : Nat) : Option Nat := if b ≤ a then some (a - b) else none

/-- The loop of `select_chunks_and_rerank` over its candidates, with its subtractions checked. -/
def selectSectionsChecked {S : Type} (engine : Engine V S) (terms : List String) (perFile : Nat) :
    List (Candidate S) → Nat → Option (List (List (String × Nat)))
  | [], _ => some []
  | cand :: rest, extraBudget =>
    (checkedSub perFile 1).bind fun more =>
      let picked := bestChunks engine cand.ranked.filepath cand.body terms (1 + min more extraBudget)
      (checkedSub picked.length 1).bind fun extra =>
        (checkedSub extraBudget extra).bind fun left =>
          (selectSectionsChecked engine terms perFile rest left).map fun others => picked :: others

/-- The picks left of each document, counted as the code counts them. -/
def countPicks {S : Type} (picks : List (Pick S)) : Nat → Option Nat :=
  picks.foldl (fun left pick => Function.update left pick.doc (some ((left pick.doc).getD 0 + 1))) fun _ => none

/-- The loop of `picks_to_results`: a document is taken by the last pick that uses it. Nothing stands for a failed
`expect`, index or subtraction. -/
def takeResults {S : Type} (db : Db) : List (Pick S) → (Nat → Option Nat) → List (Option PickDoc) → Option (List (SearchResult S))
  | [], _, _ => some []
  | pick :: rest, left, docs =>
    (left pick.doc).bind fun counted =>
      (checkedSub counted 1).bind fun remaining =>
        (docs[pick.doc]?).bind fun slot =>
          slot.bind fun doc =>
            (takeResults db rest (Function.update left pick.doc (some remaining))
                (if 0 < remaining then docs else docs.set pick.doc none)).map
              fun results => pickToResult db doc pick :: results

def picksToResultsChecked {S : Type} (db : Db) (docs : List PickDoc) (picks : List (Pick S)) : Option (List (SearchResult S)) :=
  takeResults db picks (countPicks picks) (docs.map some)

/-! ### The budget -/

section Budget

theorem checkedSub_some {a b : Nat} (room : b ≤ a) : checkedSub a b = some (a - b) := if_pos room

omit [Score S] in
/-- At least one chunk is picked, and no more than are asked for. -/
theorem bestChunks_length (engine : Engine V S) (filepath body : String) (terms : List String) {n : Nat} (some : 1 ≤ n) :
    1 ≤ (bestChunks engine filepath body terms n).length ∧ (bestChunks engine filepath body terms n).length ≤ n := by
  unfold bestChunks
  split
  · exact ⟨le_rfl, some⟩
  · next first rest _ =>
    split
    · exact ⟨le_rfl, some⟩
    · dsimp only
      rw [List.length_map]
      refine ⟨?_, Chunking.pickChunks_length (Nat.zero_le n)⟩
      apply List.length_pos_iff.mpr
      apply Chunking.picks_some _ some
      intro none
      have length := congrArg List.length none
      rw [List.length_insertionSort, List.length_map, List.length_zipIdx, List.length_cons] at length
      cases length

omit [Score S] in
/-- No subtraction of the loop fails, and the sections past the first of each candidate stay within the budget. -/
theorem selectSections_budget (engine : Engine V S) (terms : List String) {perFile : Nat} (some : 1 ≤ perFile)
    (candidates : List (Candidate S)) (extraBudget : Nat) :
    selectSectionsChecked engine terms perFile candidates extraBudget =
        .some (selectSections engine terms perFile candidates extraBudget) ∧
      (selectSections engine terms perFile candidates extraBudget).flatten.length ≤ candidates.length + extraBudget := by
  induction candidates generalizing extraBudget with
  | nil => exact ⟨rfl, Nat.zero_le _⟩
  | cons cand rest later =>
    have sizes := bestChunks_length engine cand.ranked.filepath cand.body terms
      (n := 1 + min (perFile - 1) extraBudget) (Nat.le_add_right 1 _)
    have fits : (bestChunks engine cand.ranked.filepath cand.body terms
        (1 + min (perFile - 1) extraBudget)).length - 1 ≤ extraBudget := by omega
    rw [selectSectionsChecked, selectSections, checkedSub_some some]
    dsimp only [Option.bind_some]
    rw [checkedSub_some sizes.1, Option.bind_some, checkedSub_some fits, Option.bind_some]
    obtain ⟨checked, within⟩ := later (extraBudget -
      ((bestChunks engine cand.ranked.filepath cand.body terms (1 + min (perFile - 1) extraBudget)).length - 1))
    refine ⟨by rw [checked]; rfl, ?_⟩
    rw [List.flatten_cons, List.length_append, List.length_cons]
    omega

omit [Score S] in
/-- The sections of a candidate are chosen from its own body. -/
theorem selectSections_at {engine : Engine V S} {terms : List String} {perFile : Nat} {candidates : List (Candidate S)}
    {extraBudget i : Nat} {chunks : List (String × Nat)}
    (found : (selectSections engine terms perFile candidates extraBudget)[i]? = some chunks) :
    ∃ cand n, candidates[i]? = some cand ∧ chunks = bestChunks engine cand.ranked.filepath cand.body terms n := by
  induction candidates generalizing extraBudget i with
  | nil => cases found
  | cons cand rest later =>
    rw [selectSections] at found
    cases i with
    | zero => exact ⟨cand, _, rfl, (Option.some.inj found).symm⟩
    | succ i =>
      rw [List.getElem?_cons_succ] at found ⊢
      exact later found

end Budget

/-! ### Scores -/

omit [Score S] in
/-- The place of a section among all of them. -/
theorem flatSections_at {paired : List (Candidate S × List (String × Nat))} {index j : Nat} {sect : FlatSection S}
    (found : (flatSections paired index)[j]? = some sect) :
    ∃ i chunks, sect.doc = index + i ∧ paired[i]? = some (sect.cand, chunks) ∧ chunks[sect.rank]? = some sect.chunk ∧
      j = ((paired.take i).map Prod.snd).flatten.length + sect.rank := by
  induction paired generalizing index j with
  | nil => cases found
  | cons pair rest later =>
    have length : (pair.2.zipIdx.map fun item => (⟨index, item.2, pair.1, item.1⟩ : FlatSection S)).length = pair.2.length := by
      rw [List.length_map, List.length_zipIdx]
    by_cases here : j < pair.2.length
    · rw [flatSections, List.getElem?_append_left (by rwa [length]), List.getElem?_map] at found
      obtain ⟨item, place, rfl⟩ := Option.map_eq_some_iff.mp found
      have inside := List.mem_zipIdx_iff_getElem?.mp (List.mem_of_getElem? place)
      rw [List.getElem?_zipIdx, Option.map_eq_some_iff] at place
      obtain ⟨chunk, _, rfl⟩ := place
      refine ⟨0, pair.2, rfl, rfl, inside, ?_⟩
      simp
    · rw [flatSections, List.getElem?_append_right (by rw [length]; omega), length] at found
      obtain ⟨i, chunks, number, place, chunk, position⟩ := later found
      refine ⟨i + 1, chunks, by omega, by rwa [List.getElem?_cons_succ], chunk, ?_⟩
      rw [List.take_succ_cons, List.map_cons, List.flatten_cons, List.length_append]
      omega

/-- Scores are used only if there is one for each text. -/
theorem rerankSections_length {engine : Engine V S} {rerankQuery : String} {chunks : List String} {skipRerank : Bool}
    {scores : List S} (used : (rerankSections engine rerankQuery chunks skipRerank).1 = some scores) :
    scores.length = chunks.length := by
  unfold rerankSections at used
  split_ifs at used
  split at used
  · next given _ =>
    split_ifs at used with accepted
    rw [← Option.some.inj used]
    exact accepted.1
  · cases used
  · cases used

/-! ### Results -/

section Results
variable {db : Db} {docs : List PickDoc}

omit [Score S] in
theorem countPicks_eq (picks : List (Pick S)) (d : Nat) : countPicks picks d =
    if picks.countP (fun pick => pick.doc = d) = 0 then none else some (picks.countP fun pick => pick.doc = d) := by
  induction picks using List.reverseRecOn with
  | nil => rfl
  | append_singleton earlier pick before =>
    have step : countPicks (earlier ++ [pick]) =
        Function.update (countPicks earlier) pick.doc (some ((countPicks earlier pick.doc).getD 0 + 1)) := by
      rw [countPicks, List.foldl_append]
      rfl
    rw [step, List.countP_append]
    by_cases same : pick.doc = d
    · subst same
      rw [Function.update_self, before, List.countP_cons_of_pos (by simp), List.countP_nil]
      generalize earlier.countP (fun other => other.doc = pick.doc) = count
      cases count with
      | zero => rfl
      | succ count => rfl
    · rw [Function.update_of_ne (Ne.symm same), before, List.countP_cons_of_neg (by simpa using same), List.countP_nil,
        Nat.add_zero]

omit [Score S] in
/-- The loop takes each document for its last pick and fails nowhere: what is counted are the picks left, and the
documents of these are all there. -/
theorem takeResults_eq {picks : List (Pick S)} {left : Nat → Option Nat}
    {slots : List (Option PickDoc)} (present : ∀ pick ∈ picks, pick.doc < docs.length)
    (counts : ∀ pick ∈ picks, left pick.doc = some (picks.countP fun other => other.doc = pick.doc))
    (held : ∀ pick ∈ picks, slots[pick.doc]? = some (docs[pick.doc]?)) :
    takeResults db picks left slots = some (picksToResults db docs picks) := by
  induction picks generalizing left slots with
  | nil => rfl
  | cons pick rest later =>
    have doc := List.getElem?_eq_getElem (present pick List.mem_cons_self)
    have counted := counts pick List.mem_cons_self
    have slot := held pick List.mem_cons_self
    rw [List.countP_cons_of_pos (by simp)] at counted
    rw [doc] at slot
    rw [takeResults, counted, Option.bind_some, checkedSub_some (Nat.le_add_left 1 _), Option.bind_some, slot,
      Option.bind_some, Option.bind_some, Nat.add_sub_cancel, later, Option.map_some, picksToResults, picksToResults,
      List.filterMap_cons_some (by rw [doc]; rfl)]
    · exact fun other behind => present other (List.mem_cons_of_mem _ behind)
    · intro other behind
      by_cases same : other.doc = pick.doc
      · rw [same, Function.update_self]
      · rw [Function.update_of_ne same, counts other (List.mem_cons_of_mem _ behind),
          List.countP_cons_of_neg (by simpa using Ne.symm same)]
    · intro other behind
      have old := held other (List.mem_cons_of_mem _ behind)
      by_cases same : other.doc = pick.doc
      · -- another pick of the document is left, so it was not taken
        have more : 0 < rest.countP fun next => next.doc = pick.doc :=
          List.countP_pos_iff.mpr ⟨other, behind, decide_eq_true same⟩
        rw [if_pos more]
        exact old
      · split
        · exact old
        · rw [List.getElem?_set_ne (Ne.symm same)]
          exact old

omit [Score S] in
theorem picksToResultsChecked_eq {picks : List (Pick S)} (present : ∀ pick ∈ picks, pick.doc < docs.length) :
    picksToResultsChecked db docs picks = some (picksToResults db docs picks) := by
  apply takeResults_eq present
  · intro pick member
    rw [countPicks_eq, if_neg]
    exact (List.countP_pos_iff.mpr ⟨pick, member, decide_eq_true rfl⟩).ne'
  · intro pick member
    rw [List.getElem?_map, List.getElem?_eq_getElem (present pick member)]
    rfl

end Results

/-! ### The sections of a query -/

/-- The score at each place is blended into the pick of the section at that place. -/
structure Aligned (engine : Engine V S) (db : Db) (recency : Option (Nat → S)) (candidates : List (Candidate S))
    (sections : List (List (String × Nat))) (scores : List S) (picks : List (Pick S)) : Prop where
  every : picks.length = sections.flatten.length
  scored : scores.length = sections.flatten.length
  placed : ∀ j pick, picks[j]? = some pick → ∃ cand chunks score, candidates[pick.doc]? = some cand ∧
    sections[pick.doc]? = some chunks ∧ chunks[pick.rank]? = some pick.chunk ∧
    j = (sections.take pick.doc).flatten.length + pick.rank ∧ sections.flatten[j]? = some pick.chunk ∧
    scores[j]? = some score ∧ pick.filepath = cand.ranked.filepath ∧
    pick.score = (Score.literal (3 / 4) * score + Score.literal (1 / 4) * cand.ranked.backendScore) *
      (match recency with
        | some recency => recencyFactor engine db recency cand.ranked.filepath
        | none => Score.literal 1)

theorem picks_aligned {engine : Engine V S} {db : Db} {recency : Option (Nat → S)} {candidates : List (Candidate S)}
    {sections : List (List (String × Nat))} {scores : List S} (pairs : sections.length = candidates.length)
    (scored : scores.length = sections.flatten.length) : Aligned engine db recency candidates sections scores
      (assemblePicks engine db (some scores) recency (candidates.zip sections) 0 0) := by
  have seconds : (candidates.zip sections).map Prod.snd = sections := List.map_snd_zip pairs.le
  have chunks := flatSections_chunks (candidates.zip sections) 0
  rw [seconds] at chunks
  have length := congrArg List.length chunks
  rw [List.length_map] at length
  refine ⟨?_, scored, fun j pick found => ?_⟩
  · rw [assemblePicks_eq, List.length_map, List.length_zipIdx]
    exact length
  · rw [assemblePicks_eq, List.getElem?_map, List.getElem?_zipIdx, Nat.zero_add, Option.map_map] at found
    obtain ⟨sect, place, rfl⟩ := Option.map_eq_some_iff.mp found
    obtain ⟨i, own, number, pair, chunk, position⟩ := flatSections_at place
    rw [Nat.zero_add] at number
    obtain ⟨first, second⟩ := List.getElem?_zip_eq_some.mp pair
    have within : j < scores.length := by
      rw [scored, ← length]
      exact (List.getElem?_eq_some_iff.mp place).1
    have score := List.getElem?_eq_getElem within
    rw [List.map_take, seconds, ← number] at position
    rw [← number] at first second
    refine ⟨sect.cand, own, scores[j], first, second, chunk, position, ?_, score, rfl, ?_⟩
    · rw [← chunks, List.getElem?_map, place]
      rfl
    · change (_ * ((scores[j]?).getD sect.cand.ranked.backendScore) + _) * _ = _
      rw [score]
      rfl

/-- The sections of at most a hundred candidates are no more than a hundred, the budget never underflows, every score is
blended into the pick of its own section, and every pick is shown with its own document. -/
theorem sections_stay_aligned (engine : Engine V S) (db : Db) (rerankQuery : String) (terms : List String) {perFile : Nat}
    (skipRerank : Bool) (recency : Option (Nat → S)) (limit : Nat) {candidates : List (Candidate S)}
    (few : candidates.length ≤ rerankPoolCeiling) (one : 1 ≤ perFile) :
    ∃ sections, selectSectionsChecked engine terms perFile candidates (rerankPoolCeiling - candidates.length) = some sections ∧
      sections = selectSections engine terms perFile candidates (rerankPoolCeiling - candidates.length) ∧
      sections.flatten.length ≤ rerankPoolCeiling ∧
      (∀ (i : Nat) (chunks : List (String × Nat)), sections[i]? = some chunks → ∃ (cand : Candidate S) (n : Nat),
        candidates[i]? = some cand ∧ chunks = bestChunks engine cand.ranked.filepath cand.body terms n) ∧
      (∀ scores, (rerankSections engine rerankQuery (sections.flatten.map Prod.fst) skipRerank).1 = some scores →
        Aligned engine db recency candidates sections scores
          (assemblePicks engine db (some scores) recency (candidates.zip sections) 0 0)) ∧
      ∀ rerank, ∃ results : List (SearchResult S), picksToResultsChecked db ((candidates.zip sections).map fun pair => pair.1.doc)
          (rankPicks (assemblePicks engine db rerank recency (candidates.zip sections) 0 0) limit) = some results ∧
        results = assembleResults engine db candidates sections rerank recency limit ∧
        results.length = (rankPicks (assemblePicks engine db rerank recency (candidates.zip sections) 0 0) limit).length ∧
        ∀ (k : Nat) (pick : Pick S),
          (rankPicks (assemblePicks engine db rerank recency (candidates.zip sections) 0 0) limit)[k]? = some pick →
          ∃ cand : Candidate S, candidates[pick.doc]? = some cand ∧ pick.filepath = cand.ranked.filepath ∧
            results[k]? = some (pickToResult db cand.doc pick) := by
  obtain ⟨checked, within⟩ := selectSections_budget engine terms one candidates (rerankPoolCeiling - candidates.length)
  have pairs := selectSections_length engine terms perFile candidates (rerankPoolCeiling - candidates.length)
  have own := fun i chunks => @selectSections_at V S engine terms perFile candidates (rerankPoolCeiling - candidates.length) i chunks
  generalize selectSections engine terms perFile candidates (rerankPoolCeiling - candidates.length) = sections
    at checked within pairs own
  refine ⟨sections, checked, rfl, by omega, own, fun scores used => ?_, fun rerank => ?_⟩
  · apply picks_aligned pairs
    have scored := rerankSections_length used
    rwa [List.length_map] at scored
  · have docs : (candidates.zip sections).map (fun pair => pair.1.doc) = candidates.map Candidate.doc := by
      conv_rhs => rw [← List.map_fst_zip pairs.ge, List.map_map]
      rfl
    have cands : ∀ pick ∈ rankPicks (assemblePicks engine db rerank recency (candidates.zip sections) 0 0) limit,
        ∃ cand, candidates[pick.doc]? = some cand ∧ pick.filepath = cand.ranked.filepath := by
      intro pick member
      obtain ⟨i, pair, place, doc, path⟩ := mem_assemblePicks (mem_rankPicks member)
      rw [Nat.zero_add] at doc
      exact ⟨pair.1, doc ▸ (List.getElem?_zip_eq_some.mp place).1, path⟩
    have present : ∀ pick ∈ rankPicks (assemblePicks engine db rerank recency (candidates.zip sections) 0 0) limit,
        pick.doc < ((candidates.zip sections).map fun pair => pair.1.doc).length := by
      intro pick member
      obtain ⟨cand, found, _⟩ := cands pick member
      rw [docs, List.length_map]
      exact (List.getElem?_eq_some_iff.mp found).1
    have shown := @picksToResults_eq S db _ _ present
    refine ⟨_, picksToResultsChecked_eq present, rfl, ?_, fun k pick place => ?_⟩
    · rw [shown, List.length_map]
    · obtain ⟨cand, found, path⟩ := cands pick (List.mem_of_getElem? place)
      refine ⟨cand, found, path, ?_⟩
      rw [shown, List.getElem?_map, place, docs, Option.map_some, shownPick, List.getElem?_map, found]
      rfl

/-- Two candidates of one section each. -/
def twoCandidates : List (Candidate Rat) :=
  [⟨⟨"notes/a.md", "A", 1 / 2⟩, "a1", "alpha one"⟩, ⟨⟨"notes/b.md", "B", 1 / 3⟩, "b1", "alpha two"⟩]

theorem two_stay_aligned :
    ∃ sections, selectSectionsChecked sampleEngine ["alpha"] 2 twoCandidates (rerankPoolCeiling - twoCandidates.length) =
        some sections ∧
      sections.flatten.length ≤ rerankPoolCeiling ∧
      ∀ rerank, ∃ results : List (SearchResult Rat), picksToResultsChecked Db.empty
        ((twoCandidates.zip sections).map fun pair => pair.1.doc)
        (rankPicks (assemblePicks sampleEngine Db.empty rerank none (twoCandidates.zip sections) 0 0) 10) = some results := by
  obtain ⟨sections, checked, _, within, _, _, shown⟩ := sections_stay_aligned sampleEngine Db.empty "alpha" ["alpha"] false none 10
    (show twoCandidates.length ≤ rerankPoolCeiling by decide) (show 1 ≤ 2 by decide)
  refine ⟨sections, checked, within, fun rerank => ?_⟩
  obtain ⟨results, done, _⟩ := shown rerank
  exact ⟨results, done⟩

end Rqmd
