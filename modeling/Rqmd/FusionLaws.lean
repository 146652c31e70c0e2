import Mathlib.Algebra.Order.BigOperators.Group.List
import Mathlib.Algebra.Order.Field.Rat
import Mathlib.Data.Prod.Lex
import Mathlib.Data.String.Basic
import Mathlib.Tactic.Linarith
import Mathlib.Tactic.Positivity
import Rqmd.Fusion
import Rqmd.Lib.Ranking

/-! What reciprocal rank fusion adds up to, over exact numbers: one entry for each document, with the sum of what
the lists give it and a bonus for the best of its ranks. -/

namespace Rqmd
open Ranking

/-! ### The score of a document -/

section Places
variable {S : Type}

/-- The documents of a ranked list, each where it comes first. -/
def rankedDocuments (ranked : List (RankedResult S)) : List String := (ranked.map RankedResult.filepath).eraseDups

/-- The rank of a document: how many others come before its first row. -/
def rankIn (ranked : List (RankedResult S)) (filepath : String) : Option Nat :=
  if filepath ∈ rankedDocuments ranked then some ((rankedDocuments ranked).idxOf filepath) else none

/-- The best of a document's ranks. -/
def bestRank (pairs : List (List (RankedResult S) × Rat)) (filepath : String) : Option Nat :=
  (pairs.filterMap fun pair => rankIn pair.1 filepath).min?

end Places

/-- What a list of some weight gives to the document at a rank. -/
def rankShare (weight : Rat) (rank : Nat) : Rat := weight / (60 + rank + 1)

/-- What a list gives to a document, at the rank of its first row. -/
def shareOf (pair : List (RankedResult Rat) × Rat) (filepath : String) : Rat :=
  (rankIn pair.1 filepath).elim 0 (rankShare pair.2)

def rankBonus (rank : Nat) : Rat := if rank = 0 then 1 / 20 else if rank ≤ 2 then 1 / 50 else 0

/-- The sum of what the lists give, and the bonus of the best rank. -/
def fusedScore (pairs : List (List (RankedResult Rat) × Rat)) (filepath : String) : Rat :=
  (pairs.map fun pair => shareOf pair filepath).sum + (bestRank pairs filepath).elim 0 rankBonus

/-! ### Deduplicated lists -/

theorem dedupe_filepaths {S : Type} (ranked : List (RankedResult S)) (seen : List String) :
    (dedupeByFilepath ranked seen).map RankedResult.filepath =
      ((ranked.map RankedResult.filepath).filter fun path => path ∉ seen).eraseDups := by
  induction ranked generalizing seen with
  | nil => rfl
  | cons r rest later =>
    rw [dedupeByFilepath, List.map_cons]
    by_cases old : r.filepath ∈ seen
    · rw [if_pos old, later, List.filter_cons_of_neg (by simpa using old)]
    · rw [if_neg old, List.filter_cons_of_pos (by simpa using old), List.eraseDups_cons, List.map_cons, later, List.filter_filter]
      congr 2
      apply List.filter_congr
      intro path _
      rw [Bool.eq_iff_iff]
      simp

theorem dedupe_documents {S : Type} (ranked : List (RankedResult S)) :
    (dedupeByFilepath ranked []).map RankedResult.filepath = rankedDocuments ranked := by
  rw [dedupe_filepaths, rankedDocuments]
  congr 1
  exact List.filter_eq_self.mpr fun _ _ => decide_eq_true List.not_mem_nil

theorem nodup_eraseDups (paths : List String) : paths.eraseDups.Nodup := by
  induction h : paths.length using Nat.strong_induction_on generalizing paths with
  | _ n shorter =>
    cases paths with
    | nil => exact .nil
    | cons path rest =>
      rw [List.eraseDups_cons]
      have fewer := List.length_filter_le (fun other => !other == path) rest
      rw [List.length_cons] at h
      refine List.nodup_cons.mpr ⟨fun again => ?_, shorter _ (by omega) _ rfl⟩
      have apart := (List.mem_filter.mp (List.mem_eraseDups.mp again)).2
      simp at apart

/-- The row found for a filepath in a list has its rank. -/
theorem find_zipIdx {S : Type} (rows : List (RankedResult S)) (filepath : String) (start : Nat) :
    ((rows.zipIdx start).find? fun item => item.1.filepath = filepath).map Prod.snd =
      if filepath ∈ rows.map RankedResult.filepath then some (start + (rows.map RankedResult.filepath).idxOf filepath) else none := by
  induction rows generalizing start with
  | nil => rfl
  | cons r rest later =>
    rw [List.zipIdx_cons, List.map_cons]
    by_cases same : r.filepath = filepath
    · simp [same]
    · rw [List.find?_cons_of_neg (by simpa using same), later, List.idxOf_cons_ne _ same]
      have other : filepath ∈ r.filepath :: rest.map RankedResult.filepath ↔ filepath ∈ rest.map RankedResult.filepath := by
        simp [Ne.symm same]
      simp only [other, Nat.succ_eq_add_one, Nat.add_right_comm start 1, ← Nat.add_assoc]

theorem find_rank {S : Type} (ranked : List (RankedResult S)) (filepath : String) :
    ((dedupeByFilepath ranked []).zipIdx.find? fun item => item.1.filepath = filepath).map Prod.snd = rankIn ranked filepath := by
  rw [find_zipIdx, dedupe_documents, rankIn, Nat.zero_add]

/-! ### The entries -/

/-- The entries hold, of each document met, its total so far and its best rank. -/
structure Tallies (entries : List (Fused Rat)) (total : String → Rat) (best : String → Option Nat) : Prop where
  once : (entries.map fun e => e.result.filepath).Nodup
  totals : ∀ e ∈ entries, e.rrfScore = total e.result.filepath
  ranks : ∀ e ∈ entries, best e.result.filepath = some e.topRank
  every : ∀ path, best path ≠ none → path ∈ entries.map fun e => e.result.filepath
  fresh : ∀ path, best path = none → total path = 0

/-- What a list of some weight gives to the document at a rank, as the code computes it. -/
def givenShare {S : Type} [Score S] (weight : S) (rank : Nat) : S :=
  weight / (Score.literal 60 + Score.literal rank + Score.literal 1)

/-- One contribution adds to the entry of its document, or appends one. -/
theorem contribute_cases {S : Type} [Score S] (weight : S) (rank : Nat) (r : RankedResult S) (entries : List (Fused S)) :
    (∃ before entry after, entries = before ++ entry :: after ∧ entry.result.filepath = r.filepath ∧
      contribute weight rank r entries = before ++
        ⟨entry.result, entry.rrfScore + givenShare weight rank, min rank entry.topRank⟩ :: after) ∨
    ((∀ e ∈ entries, e.result.filepath ≠ r.filepath) ∧
      contribute weight rank r entries = entries ++ [⟨r, givenShare weight rank, rank⟩]) := by
  induction entries with
  | nil => exact .inr ⟨fun _ impossible => absurd impossible List.not_mem_nil, rfl⟩
  | cons entry rest later =>
    rw [contribute]
    by_cases same : entry.result.filepath = r.filepath
    · rw [if_pos same]
      exact .inl ⟨[], entry, rest, rfl, same, rfl⟩
    · rw [if_neg same]
      rcases later with added | opened
      · obtain ⟨before, found, after, parts, place, result⟩ := added
        exact .inl ⟨entry :: before, found, after, by rw [parts, List.cons_append], place, by rw [result, List.cons_append]⟩
      · obtain ⟨none, result⟩ := opened
        refine .inr ⟨fun e inside => ?_, by rw [result, List.cons_append]⟩
        rcases List.mem_cons.mp inside with rfl | behind
        · exact same
        · exact none e behind

section Once
variable {S : Type} [Score S]

theorem contribute_once {weight : S} {rank : Nat} {r : RankedResult S} {entries : List (Fused S)}
    (once : (entries.map fun e => e.result.filepath).Nodup) :
    ((contribute weight rank r entries).map fun e => e.result.filepath).Nodup := by
  rcases contribute_cases weight rank r entries with added | opened
  · obtain ⟨before, entry, after, parts, _, result⟩ := added
    have same : (contribute weight rank r entries).map (fun e => e.result.filepath) =
        entries.map fun e => e.result.filepath := by
      rw [result, parts]
      simp
    rwa [same]
  · obtain ⟨none, result⟩ := opened
    rw [result, List.map_append, List.nodup_append]
    refine ⟨once, List.nodup_singleton _, fun a left b right same => ?_⟩
    obtain ⟨e, member, rfl⟩ := List.mem_map.mp left
    exact none e member (same.trans (List.mem_singleton.mp right))

theorem contributeAll_once {weight : S} {items : List (RankedResult S × Nat)} {entries : List (Fused S)}
    (once : (entries.map fun e => e.result.filepath).Nodup) :
    ((contributeAll weight items entries).map fun e => e.result.filepath).Nodup := by
  induction items generalizing entries with
  | nil => exact once
  | cons item rest later => exact later (contribute_once once)

/-- Fusion has one entry for each document. -/
theorem fusedEntries_once (lists : List (List (RankedResult S))) (weights : List S) :
    ((fusedEntries lists weights).map fun e => e.result.filepath).Nodup := by
  have run : ∀ (pairs : List (List (RankedResult S) × Nat)) (entries : List (Fused S)),
      (entries.map fun e => e.result.filepath).Nodup →
        ((pairs.foldl (fun entries pair => addRanked ((weights[pair.2]?).getD (Score.literal 1)) entries pair.1)
          entries).map fun e => e.result.filepath).Nodup := by
    intro pairs
    induction pairs with
    | nil => exact fun _ once => once
    | cons pair rest later => exact fun _ once => later _ (contributeAll_once once)
  exact run lists.zipIdx [] .nil

theorem fusion_once (lists : List (List (RankedResult S))) (weights : List S) :
    ((reciprocalRankFusion lists weights).map RankedResult.filepath).Nodup := by
  have once := fusedEntries_once lists weights
  have perm := (List.perm_insertionSort RankedResult.before ((fusedEntries lists weights).map fun entry =>
    { entry.result with backendScore := topRankBonus entry })).map RankedResult.filepath
  rw [List.map_map] at perm
  exact perm.nodup_iff.mpr once

end Once

/-- A contribution changes what its own document has. -/
theorem Tallies.contribute {entries : List (Fused Rat)} {total : String → Rat} {best : String → Option Nat}
    (tallies : Tallies entries total best) (weight : Rat) (rank : Nat) (r : RankedResult Rat) :
    Tallies (contribute weight rank r entries)
      (fun path => if path = r.filepath then total path + rankShare weight rank else total path)
      (fun path => if path = r.filepath then Option.merge min (best path) (some rank) else best path) := by
  have share : givenShare weight rank = rankShare weight rank := rfl
  have cases := contribute_cases weight rank r entries
  have once := @contribute_once Rat _ weight rank r entries tallies.once
  rw [share] at cases
  rcases cases with added | opened
  · obtain ⟨before, entry, after, parts, place, result⟩ := added
    rw [result] at once ⊢
    rw [parts] at tallies
    have paths : (before ++ ⟨entry.result, entry.rrfScore + rankShare weight rank, min rank entry.topRank⟩ :: after).map
        (fun e => e.result.filepath) = (before ++ entry :: after).map fun e => e.result.filepath := by simp
    have apart : ∀ e ∈ before ++ after, e.result.filepath ≠ r.filepath := by
      intro e inside same
      have once := tallies.once
      rw [List.map_append, List.map_cons, List.nodup_middle, List.nodup_cons, ← List.map_append] at once
      exact once.1 (List.mem_map.mpr ⟨e, inside, same.trans place.symm⟩)
    have old : ∀ e ∈ before ++ after, e ∈ before ++ entry :: after := by
      intro e inside
      simp only [List.mem_append, List.mem_cons] at inside ⊢
      tauto
    have held : ∀ e ∈ before ++ ⟨entry.result, entry.rrfScore + rankShare weight rank, min rank entry.topRank⟩ :: after,
        e ∈ before ++ after ∨ e = ⟨entry.result, entry.rrfScore + rankShare weight rank, min rank entry.topRank⟩ := by
      intro e inside
      simp only [List.mem_append, List.mem_cons] at inside ⊢
      tauto
    have mine : entry ∈ before ++ entry :: after := by simp
    refine ⟨once, ?_, ?_, ?_, ?_⟩
    · intro e inside
      rcases held e inside with outside | rfl
      · rw [if_neg (apart e outside)]
        exact tallies.totals e (old e outside)
      · rw [if_pos place]
        exact congrArg (· + rankShare weight rank) (tallies.totals entry mine)
    · intro e inside
      rcases held e inside with outside | rfl
      · rw [if_neg (apart e outside)]
        exact tallies.ranks e (old e outside)
      · rw [if_pos place]
        have least := tallies.ranks entry mine
        dsimp only
        rw [least, Option.merge_some_some, Nat.min_comm]
    · intro path met
      rw [paths]
      by_cases same : path = r.filepath
      · rw [same, ← place]
        exact List.mem_map_of_mem mine
      · rw [if_neg same] at met
        exact tallies.every path met
    · intro path unmet
      by_cases same : path = r.filepath
      · rw [if_pos same] at unmet
        cases h : best path with
        | none => rw [h] at unmet; cases unmet
        | some k => rw [h] at unmet; cases unmet
      · rw [if_neg same] at unmet ⊢
        exact tallies.fresh path unmet
  · obtain ⟨none, result⟩ := opened
    rw [result] at once ⊢
    have unmet : best r.filepath = .none := by
      by_contra met
      obtain ⟨e, inside, same⟩ := List.mem_map.mp (tallies.every r.filepath met)
      exact none e inside same
    refine ⟨once, ?_, ?_, ?_, ?_⟩
    · intro e inside
      rcases List.mem_append.mp inside with outside | new
      · rw [if_neg (none e outside)]
        exact tallies.totals e outside
      · rw [List.mem_singleton.mp new, if_pos rfl, tallies.fresh r.filepath unmet, Rat.zero_add]
    · intro e inside
      rcases List.mem_append.mp inside with outside | new
      · rw [if_neg (none e outside)]
        exact tallies.ranks e outside
      · rw [List.mem_singleton.mp new, if_pos rfl, unmet, Option.merge_none_left]
    · intro path met
      rw [List.map_append]
      by_cases same : path = r.filepath
      · exact List.mem_append_right _ (List.mem_singleton.mpr same)
      · rw [if_neg same] at met
        exact List.mem_append_left _ (tallies.every path met)
    · intro path absent
      by_cases same : path = r.filepath
      · rw [if_pos same, same, unmet] at absent
        cases absent
      · rw [if_neg same] at absent ⊢
        exact tallies.fresh path absent

/-- The contributions of distinct documents. -/
theorem Tallies.items {weight : Rat} {items : List (RankedResult Rat × Nat)}
    (distinct : (items.map fun item => item.1.filepath).Nodup) {entries : List (Fused Rat)} {total : String → Rat}
    {best : String → Option Nat} (tallies : Tallies entries total best) :
    Tallies (contributeAll weight items entries)
      (fun path => total path +
        ((items.find? fun item => item.1.filepath = path).map Prod.snd).elim 0 (rankShare weight))
      (fun path => Option.merge min (best path) ((items.find? fun item => item.1.filepath = path).map Prod.snd)) := by
  induction items generalizing entries total best with
  | nil => simpa [contributeAll] using tallies
  | cons item rest later =>
    obtain ⟨alone, others⟩ := List.nodup_cons.mp distinct
    have none : rest.find? (fun other => other.1.filepath = item.1.filepath) = .none := by
      apply List.find?_eq_none.mpr
      intro other member same
      exact alone (List.mem_map.mpr ⟨other, member, of_decide_eq_true same⟩)
    have step := later others (tallies.contribute weight item.2 item.1)
    convert step using 1
    · rfl
    · funext path
      by_cases same : path = item.1.filepath
      · simp [same, none]
      · rw [List.find?_cons_of_neg (by simpa using Ne.symm same), if_neg same]
    · funext path
      by_cases same : path = item.1.filepath
      · simp [same, none]
      · rw [List.find?_cons_of_neg (by simpa using Ne.symm same), if_neg same]

theorem Tallies.addRanked {entries : List (Fused Rat)} {total : String → Rat} {best : String → Option Nat}
    (tallies : Tallies entries total best) (pair : List (RankedResult Rat) × Rat) :
    Tallies (addRanked pair.2 entries pair.1) (fun path => total path + shareOf pair path)
      (fun path => Option.merge min (best path) (rankIn pair.1 path)) := by
  have distinct : ((dedupeByFilepath pair.1 []).zipIdx.map fun item => item.1.filepath).Nodup := by
    have paths : (dedupeByFilepath pair.1 []).zipIdx.map (fun item => item.1.filepath) = rankedDocuments pair.1 := by
      rw [← dedupe_documents, ← List.zipIdx_map_fst 0 (dedupeByFilepath pair.1 []), List.map_map]
      simp
    rw [paths]
    exact nodup_eraseDups _
  have items := @Tallies.items pair.2 _ distinct _ _ _ tallies
  simp only [find_rank] at items
  exact items

/-! ### All lists -/

/-- The lists are added one after another, each with its own weight. -/
theorem fusedEntries_pairs (pairs : List (List (RankedResult Rat) × Rat)) :
    fusedEntries (pairs.map Prod.fst) (pairs.map Prod.snd) =
      pairs.foldl (fun entries pair => addRanked pair.2 entries pair.1) [] := by
  have run : ∀ (rest done : List (List (RankedResult Rat) × Rat)) (entries : List (Fused Rat)),
      ((rest.map Prod.fst).zipIdx done.length).foldl (fun entries (ranked, i) =>
        addRanked ((((done ++ rest).map Prod.snd)[i]?).getD (Score.literal 1)) entries ranked) entries =
      rest.foldl (fun entries pair => addRanked pair.2 entries pair.1) entries := by
    intro rest
    induction rest with
    | nil => exact fun _ _ => rfl
    | cons pair rest later =>
      intro done entries
      have weight : ((done ++ pair :: rest).map Prod.snd)[done.length]? = some pair.2 := by simp
      have onward := later (done ++ [pair]) (addRanked pair.2 entries pair.1)
      rw [List.append_assoc, List.length_append] at onward
      rw [List.map_cons, List.zipIdx_cons, List.foldl_cons, List.foldl_cons, ← onward]
      dsimp only
      rw [weight]
      rfl
  exact run pairs [] []

theorem min?_append (ranks : List Nat) (rank : Option Nat) :
    (ranks ++ rank.toList).min? = Option.merge min ranks.min? rank := by
  cases rank with
  | none => rw [Option.toList_none, List.append_nil, Option.merge_none_right]
  | some rank =>
    cases ranks with
    | nil => rfl
    | cons first rest =>
      rw [Option.toList_some, List.cons_append, List.min?_cons', List.min?_cons', List.foldl_append]
      rfl

theorem bestRank_append {S : Type} (pairs : List (List (RankedResult S) × Rat)) (pair : List (RankedResult S) × Rat)
    (filepath : String) :
    bestRank (pairs ++ [pair]) filepath = Option.merge min (bestRank pairs filepath) (rankIn pair.1 filepath) := by
  have one : [pair].filterMap (fun pair => rankIn pair.1 filepath) = (rankIn pair.1 filepath).toList := by
    cases found : rankIn pair.1 filepath with
    | none => simp [found]
    | some rank => simp [found]
  rw [bestRank, List.filterMap_append, one, min?_append]
  rfl

/-- After all lists, the entries hold the sums and the best ranks. -/
theorem fusedEntries_tallies (pairs : List (List (RankedResult Rat) × Rat)) :
    Tallies (fusedEntries (pairs.map Prod.fst) (pairs.map Prod.snd))
      (fun path => (pairs.map fun pair => shareOf pair path).sum) (bestRank pairs) := by
  rw [fusedEntries_pairs]
  induction pairs using List.reverseRecOn with
  | nil =>
    exact ⟨.nil, fun _ impossible => absurd impossible List.not_mem_nil, fun _ impossible => absurd impossible List.not_mem_nil,
      fun _ met => absurd rfl met, fun _ _ => rfl⟩
  | append_singleton earlier pair before =>
    rw [List.foldl_append]
    have step := before.addRanked pair
    convert step using 1
    · rfl
    · funext path
      simp
    · funext path
      exact bestRank_append earlier pair path

theorem rankIn_none {S : Type} {ranked : List (RankedResult S)} {filepath : String} :
    rankIn ranked filepath = none ↔ filepath ∉ ranked.map RankedResult.filepath := by
  have same : filepath ∈ rankedDocuments ranked ↔ filepath ∈ ranked.map RankedResult.filepath := List.mem_eraseDups
  rw [← same, rankIn]
  by_cases member : filepath ∈ rankedDocuments ranked
  · simp [member]
  · simp [member]

theorem bestRank_none {S : Type} {pairs : List (List (RankedResult S) × Rat)} {filepath : String} :
    bestRank pairs filepath = none ↔ ∀ pair ∈ pairs, filepath ∉ pair.1.map RankedResult.filepath := by
  rw [bestRank, List.min?_eq_none_iff, List.filterMap_eq_nil_iff]
  exact forall₂_congr fun pair _ => rankIn_none

/-- The best rank is the rank in some list and no list has a better one. -/
theorem bestRank_some {S : Type} {pairs : List (List (RankedResult S) × Rat)} {filepath : String} {rank : Nat} :
    bestRank pairs filepath = some rank ↔
      (∃ pair ∈ pairs, rankIn pair.1 filepath = some rank) ∧
        ∀ pair ∈ pairs, ∀ other, rankIn pair.1 filepath = some other → rank ≤ other := by
  rw [bestRank, List.min?_eq_some_iff, List.mem_filterMap]
  refine and_congr_right fun _ => ⟨fun least pair member other found => ?_, fun least other found => ?_⟩
  · exact least other (List.mem_filterMap.mpr ⟨pair, member, found⟩)
  · obtain ⟨pair, member, same⟩ := List.mem_filterMap.mp found
    exact least pair member other same

theorem bestRank_perm {S : Type} {pairs others : List (List (RankedResult S) × Rat)} (perm : pairs.Perm others)
    (filepath : String) : bestRank pairs filepath = bestRank others filepath := by
  cases best : bestRank others filepath with
  | none =>
    rw [bestRank_none] at best ⊢
    exact fun pair member => best pair (perm.mem_iff.mp member)
  | some rank =>
    rw [bestRank_some] at best ⊢
    obtain ⟨⟨pair, member, found⟩, least⟩ := best
    exact ⟨⟨pair, perm.mem_iff.mpr member, found⟩, fun pair member => least pair (perm.mem_iff.mp member)⟩

theorem fusedScore_perm {pairs others : List (List (RankedResult Rat) × Rat)} (perm : pairs.Perm others)
    (filepath : String) : fusedScore pairs filepath = fusedScore others filepath := by
  rw [fusedScore, fusedScore, bestRank_perm perm, (perm.map fun pair => shareOf pair filepath).sum_eq]

/-! ### Dominance -/

/-- Wherever the list ranks the second document, it ranks the first at least as well. -/
def RankedAtLeast {S : Type} (ranked : List (RankedResult S)) (a b : String) : Prop :=
  ∀ rank, rankIn ranked b = some rank → ∃ better ≤ rank, rankIn ranked a = some better

theorem rankShare_mono {weight : Rat} (positive : 0 ≤ weight) {better rank : Nat} (first : better ≤ rank) :
    rankShare weight rank ≤ rankShare weight better := by
  have cast : (better : Rat) ≤ rank := Nat.cast_le.mpr first
  apply div_le_div_of_nonneg_left positive
  · positivity
  · linarith

theorem shareOf_mono {pair : List (RankedResult Rat) × Rat} (positive : 0 ≤ pair.2) {a b : String}
    (better : RankedAtLeast pair.1 a b) : shareOf pair b ≤ shareOf pair a := by
  rw [shareOf, shareOf]
  cases found : rankIn pair.1 b with
  | none =>
    cases rankIn pair.1 a with
    | none => exact le_rfl
    | some rank =>
      exact div_nonneg positive (by positivity)
  | some rank =>
    obtain ⟨first, least, place⟩ := better rank found
    rw [place]
    exact rankShare_mono positive least

theorem rankBonus_mono {better rank : Nat} (first : better ≤ rank) : rankBonus rank ≤ rankBonus better := by
  unfold rankBonus
  by_cases top : better = 0
  · rw [if_pos top]
    split_ifs <;> norm_num
  · by_cases near : better ≤ 2
    · rw [if_neg top, if_pos near, if_neg (by omega)]
      split_ifs <;> norm_num
    · rw [if_neg top, if_neg near, if_neg (by omega), if_neg (by omega)]

/-- A document ranked at least as well as one that is in some list does not score lower. -/
theorem fusedScore_mono {pairs : List (List (RankedResult Rat) × Rat)} (positive : ∀ pair ∈ pairs, 0 ≤ pair.2) {a b : String}
    (met : bestRank pairs b ≠ none) (better : ∀ pair ∈ pairs, RankedAtLeast pair.1 a b) :
    fusedScore pairs b ≤ fusedScore pairs a := by
  apply add_le_add
  · exact List.sum_le_sum fun pair member => shareOf_mono (positive pair member) (better pair member)
  · obtain ⟨rank, best⟩ := Option.ne_none_iff_exists'.mp met
    obtain ⟨⟨pair, member, found⟩, _⟩ := bestRank_some.mp best
    obtain ⟨first, early, place⟩ := better pair member rank found
    cases top : bestRank pairs a with
    | none =>
      have absent := rankIn_none.mpr (bestRank_none.mp top pair member)
      rw [place] at absent
      cases absent
    | some least =>
      rw [best]
      have under := (bestRank_some.mp top).2 pair member first place
      exact rankBonus_mono (by omega)

/-! ### The order of the results -/

/-- By falling score, then by filepath. -/
def fusedKey (r : RankedResult Rat) : Ratᵒᵈ ×ₗ String := toLex (OrderDual.toDual r.backendScore, r.filepath)

theorem ranked_before_iff (a b : RankedResult Rat) : a.before b ↔ fusedKey a ≤ fusedKey b := by
  have numbers : Score.partialCmp b.backendScore a.backendScore = some (compare b.backendScore a.backendScore) :=
    congrArg some (LinearOrder.compare_eq_compareOfLessAndEq b.backendScore a.backendScore).symm
  unfold RankedResult.before scoreDescThenPath
  rw [numbers, Option.getD_some, fusedKey, fusedKey, Prod.Lex.toLex_le_toLex]
  rcases lt_trichotomy b.backendScore a.backendScore with less | same | more
  · simp [compare_lt_iff_lt.mpr less, less, Ordering.then]
  · simp [same, Ordering.then, compare_le_iff_le]
  · simp [compare_gt_iff_gt.mpr more, more.not_gt, more.ne, Ordering.then]

theorem refines_ranked (results : List (RankedResult Rat)) :
    Refines RankedResult.before (fun r => OrderDual.toDual (fusedKey r)) results where
  down a _ b _ before := (ranked_before_iff a b).mp before
  up a _ b _ behind := (le_total (fusedKey a) (fusedKey b)).resolve_left fun before => behind ((ranked_before_iff a b).mpr before)

/-- The results, one for each document that some list holds, with its score. -/
structure FusionOf (pairs : List (List (RankedResult Rat) × Rat)) (results : List (RankedResult Rat)) : Prop where
  once : (results.map RankedResult.filepath).Nodup
  every : ∀ path, path ∈ results.map RankedResult.filepath ↔ ∃ pair ∈ pairs, path ∈ pair.1.map RankedResult.filepath
  scores : ∀ r ∈ results, r.backendScore = fusedScore pairs r.filepath
  sorted : results.Pairwise fun a b => fusedKey a ≤ fusedKey b

theorem fusion_spec (pairs : List (List (RankedResult Rat) × Rat)) :
    FusionOf pairs (reciprocalRankFusion (pairs.map Prod.fst) (pairs.map Prod.snd)) := by
  have tallies := fusedEntries_tallies pairs
  generalize found : fusedEntries (pairs.map Prod.fst) (pairs.map Prod.snd) = entries at tallies
  have results : reciprocalRankFusion (pairs.map Prod.fst) (pairs.map Prod.snd) =
      (entries.map fun entry => { entry.result with backendScore := topRankBonus entry }).insertionSort RankedResult.before := by
    rw [reciprocalRankFusion, found]
  have perm := List.perm_insertionSort (RankedResult.before (S := Rat))
    (entries.map fun entry => { entry.result with backendScore := topRankBonus entry })
  rw [← results] at perm
  have paths := perm.map RankedResult.filepath
  rw [List.map_map] at paths
  constructor
  · exact paths.nodup_iff.mpr tallies.once
  · intro path
    rw [paths.mem_iff]
    have met : bestRank pairs path ≠ none ↔ ∃ pair ∈ pairs, path ∈ pair.1.map RankedResult.filepath := by
      rw [Ne, bestRank_none]
      simp only [not_forall, not_not, exists_prop]
    rw [← met]
    constructor
    · intro inside unmet
      obtain ⟨entry, member, same⟩ := List.mem_map.mp inside
      have rank := tallies.ranks entry member
      have path : entry.result.filepath = path := same
      rw [path, unmet] at rank
      cases rank
    · exact tallies.every path
  · intro r member
    obtain ⟨entry, inside, rfl⟩ := List.mem_map.mp (perm.mem_iff.mp member)
    have total := tallies.totals entry inside
    have rank := tallies.ranks entry inside
    rw [fusedScore, rank, ← total]
    change topRankBonus entry = entry.rrfScore + rankBonus entry.topRank
    unfold topRankBonus rankBonus
    split_ifs
    · rfl
    · rfl
    · rw [add_zero]
  · have falling := falling_insertionSort (refines_ranked (entries.map fun entry =>
      { entry.result with backendScore := topRankBonus entry }))
    rw [results]
    exact falling

/-- The documents, the scores and the order do not depend on the order of the lists. -/
theorem FusionOf.unique {pairs others : List (List (RankedResult Rat) × Rat)} (perm : pairs.Perm others)
    {results again : List (RankedResult Rat)} (left : FusionOf pairs results) (right : FusionOf others again) :
    results.map (fun r => (r.filepath, r.backendScore)) = again.map fun r => (r.filepath, r.backendScore) := by
  have paths : (results.map RankedResult.filepath).Perm (again.map RankedResult.filepath) := by
    apply (List.perm_ext_iff_of_nodup left.once right.once).mpr
    intro path
    rw [left.every, right.every]
    simp only [perm.mem_iff]
  have shown : results.map (fun r => (r.filepath, r.backendScore)) =
      (results.map RankedResult.filepath).map fun path => (path, fusedScore pairs path) := by
    rw [List.map_map]
    exact List.map_congr_left fun r member => congrArg (Prod.mk r.filepath) (left.scores r member)
  have shown' : again.map (fun r => (r.filepath, r.backendScore)) =
      (again.map RankedResult.filepath).map fun path => (path, fusedScore pairs path) := by
    rw [List.map_map]
    refine List.map_congr_left fun r member => congrArg (Prod.mk r.filepath) ?_
    rw [right.scores r member, fusedScore_perm perm]
  have same := paths.map fun path => (path, fusedScore pairs path)
  rw [← shown, ← shown'] at same
  apply @List.Perm.eq_of_pairwise _ (fun a b : String × Rat =>
    (toLex (OrderDual.toDual a.2, a.1) : Ratᵒᵈ ×ₗ String) ≤ toLex (OrderDual.toDual b.2, b.1)) _ _ _ _ _ same
  · intro a b _ _ up down
    have equal := toLex.injective (le_antisymm up down)
    exact Prod.ext (Prod.ext_iff.mp equal).2 (OrderDual.toDual.injective (Prod.ext_iff.mp equal).1)
  · exact List.pairwise_map.mpr left.sorted
  · exact List.pairwise_map.mpr right.sorted

/-- Fusion gives every document of the lists one entry, with the sum of its shares and its bonus, in the same order
however the lists are ordered; and if no weight is negative, a better ranked document does not score lower. -/
theorem fusion_is_faithful (pairs : List (List (RankedResult Rat) × Rat)) :
    FusionOf pairs (reciprocalRankFusion (pairs.map Prod.fst) (pairs.map Prod.snd)) ∧
    (∀ others, pairs.Perm others →
      (reciprocalRankFusion (pairs.map Prod.fst) (pairs.map Prod.snd)).map (fun r => (r.filepath, r.backendScore)) =
        (reciprocalRankFusion (others.map Prod.fst) (others.map Prod.snd)).map fun r => (r.filepath, r.backendScore)) ∧
    ((∀ pair ∈ pairs, 0 ≤ pair.2) →
      ∀ a ∈ reciprocalRankFusion (pairs.map Prod.fst) (pairs.map Prod.snd),
      ∀ b ∈ reciprocalRankFusion (pairs.map Prod.fst) (pairs.map Prod.snd),
        (∀ pair ∈ pairs, RankedAtLeast pair.1 a.filepath b.filepath) → b.backendScore ≤ a.backendScore) := by
  have spec := fusion_spec pairs
  refine ⟨spec, fun others perm => spec.unique perm (fusion_spec others), fun positive a left b right better => ?_⟩
  rw [spec.scores a left, spec.scores b right]
  apply fusedScore_mono positive ?_ better
  intro unmet
  obtain ⟨pair, member, inside⟩ := (spec.every b.filepath).mp (List.mem_map_of_mem right)
  exact bestRank_none.mp unmet pair member inside

/-- A list of negative weight that holds the better document alone. -/
def penalizing : List (List (RankedResult Rat) × Rat) :=
  [([⟨"a", "A", 2⟩, ⟨"b", "B", 1⟩], 1), ([⟨"a", "A", 2⟩], -10)]

/-- With a negative weight a document that is ranked better in every list can score lower. -/
theorem negative_weight_lowers :
    ∃ a ∈ reciprocalRankFusion (penalizing.map Prod.fst) (penalizing.map Prod.snd),
    ∃ b ∈ reciprocalRankFusion (penalizing.map Prod.fst) (penalizing.map Prod.snd),
      (∀ pair ∈ penalizing, RankedAtLeast pair.1 a.filepath b.filepath) ∧ a.backendScore < b.backendScore := by
  have first : (⟨"a", "A", 1 / 61 + -10 / 61 + 1 / 20⟩ : RankedResult Rat) ∈
      reciprocalRankFusion (penalizing.map Prod.fst) (penalizing.map Prod.snd) := by
    decide +kernel
  have second : (⟨"b", "B", 1 / 62 + 1 / 50⟩ : RankedResult Rat) ∈
      reciprocalRankFusion (penalizing.map Prod.fst) (penalizing.map Prod.snd) := by
    decide +kernel
  refine ⟨_, first, _, second, fun pair member rank place => ?_, by decide +kernel⟩
  have top : ∀ pair ∈ penalizing, rankIn pair.1 "a" = some 0 := by decide
  exact ⟨0, Nat.zero_le rank, top pair member⟩

end Rqmd
