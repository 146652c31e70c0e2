import Mathlib.Algebra.Order.Ring.Unbundled.Rat
import Rqmd.Lib.Ranking
import Rqmd.Scope

/-! The widening of a vector search. The pool of nearest vectors that the search stops at ranks as all vectors do. -/

namespace Rqmd
open Ranking

variable {V S L : Type} [Score S] [LinearOrder L]

/-! ### Groups of hits -/

/-- The groups of some hits: one for each filepath, with all hits of it. -/
structure GroupsOf (hits : List (Document × S × Nat)) (groups : List (VecGroup S)) : Prop where
  once : (groups.map fun g => g.1.filepath).Nodup
  filled : ∀ g ∈ groups, g.2 = (hits.filter fun h => h.1.filepath = g.1.filepath).map Prod.snd
  every : ∀ h ∈ hits, ∃ g ∈ groups, g.1.filepath = h.1.filepath
  among : ∀ g ∈ groups, ∃ h ∈ hits, h.1 = g.1

omit [Score S] in
/-- One more hit joins the group of its filepath or opens one. -/
theorem groupHit_cases (hit : Document × S × Nat) (groups : List (VecGroup S)) :
    (∃ before group after, groups = before ++ group :: after ∧ group.1.filepath = hit.1.filepath ∧
      groupHit hit groups = before ++ (group.1, group.2 ++ [hit.2]) :: after) ∨
    ((∀ g ∈ groups, g.1.filepath ≠ hit.1.filepath) ∧ groupHit hit groups = groups ++ [(hit.1, [hit.2])]) := by
  induction groups with
  | nil => exact .inr ⟨fun _ impossible => absurd impossible List.not_mem_nil, rfl⟩
  | cons group rest later =>
    rw [groupHit]
    by_cases same : group.1.filepath = hit.1.filepath
    · rw [if_pos same]
      exact .inl ⟨[], group, rest, rfl, same, rfl⟩
    · rw [if_neg same]
      rcases later with joined | opened
      · obtain ⟨before, found, after, parts, place, result⟩ := joined
        exact .inl ⟨group :: before, found, after, by rw [parts, List.cons_append], place, by rw [result, List.cons_append]⟩
      · obtain ⟨none, result⟩ := opened
        refine .inr ⟨fun g inside => ?_, by rw [result, List.cons_append]⟩
        rcases List.mem_cons.mp inside with rfl | behind
        · exact same
        · exact none g behind

omit [Score S] in
theorem groupHits_spec (hits : List (Document × S × Nat)) : GroupsOf hits (groupHits hits) := by
  induction hits using List.reverseRecOn with
  | nil =>
    exact ⟨.nil, fun _ impossible => absurd impossible List.not_mem_nil,
      fun _ impossible => absurd impossible List.not_mem_nil, fun _ impossible => absurd impossible List.not_mem_nil⟩
  | append_singleton earlier hit before =>
    have step : groupHits (earlier ++ [hit]) = groupHit hit (groupHits earlier) := by
      rw [groupHits, List.foldl_append]
      rfl
    have others : ∀ g : VecGroup S, g.1.filepath ≠ hit.1.filepath →
        g.2 = (earlier.filter fun h => h.1.filepath = g.1.filepath).map Prod.snd →
        g.2 = ((earlier ++ [hit]).filter fun h => h.1.filepath = g.1.filepath).map Prod.snd := by
      intro g apart filled
      rw [List.filter_append, List.filter_cons_of_neg (by simpa using apart.symm), List.filter_nil, List.append_nil]
      exact filled
    have grown : ((earlier ++ [hit]).filter fun h => h.1.filepath = hit.1.filepath).map Prod.snd =
        (earlier.filter fun h => h.1.filepath = hit.1.filepath).map Prod.snd ++ [hit.2] := by
      rw [List.filter_append, List.filter_cons_of_pos (by simp), List.filter_nil, List.map_append]
      rfl
    rw [step]
    generalize groupHits earlier = groups at before
    rcases groupHit_cases hit groups with joined | opened
    · obtain ⟨front, group, back, parts, place, result⟩ := joined
      rw [result]
      rw [parts] at before
      have paths : (front ++ (group.1, group.2 ++ [hit.2]) :: back).map (fun g => g.1.filepath) =
          (front ++ group :: back).map fun g => g.1.filepath := by simp
      have apart : ∀ g ∈ front ++ back, g.1.filepath ≠ hit.1.filepath := by
        intro g inside same
        have once := before.once
        rw [List.map_append, List.map_cons, List.nodup_middle, List.nodup_cons, ← List.map_append] at once
        exact once.1 (List.mem_map.mpr ⟨g, inside, same.trans place.symm⟩)
      have mine : group.2 ++ [hit.2] = ((earlier ++ [hit]).filter fun h => h.1.filepath = group.1.filepath).map Prod.snd := by
        rw [before.filled group (by simp), place, grown]
      have held : ∀ g, g ∈ front ++ (group.1, group.2 ++ [hit.2]) :: back ↔
          g ∈ front ++ back ∨ g = (group.1, group.2 ++ [hit.2]) := by
        intro g
        simp only [List.mem_append, List.mem_cons]
        tauto
      have old : ∀ g, g ∈ front ++ back → g ∈ front ++ group :: back := by
        intro g
        simp only [List.mem_append, List.mem_cons]
        tauto
      refine ⟨by rw [paths]; exact before.once, fun g inside => ?_, fun h inside => ?_, fun g inside => ?_⟩
      · rcases (held g).mp inside with outside | rfl
        · exact others g (apart g outside) (before.filled g (old g outside))
        · exact mine
      · have known : ∃ g ∈ front ++ group :: back, g.1.filepath = h.1.filepath := by
          rcases List.mem_append.mp inside with seen | new
          · exact before.every h seen
          · exact ⟨group, by simp, by rw [List.mem_singleton.mp new, place]⟩
        have moved : h.1.filepath ∈ (front ++ (group.1, group.2 ++ [hit.2]) :: back).map fun g => g.1.filepath := by
          rw [paths]
          exact List.mem_map.mpr known
        exact List.mem_map.mp moved
      · rcases (held g).mp inside with outside | rfl
        · obtain ⟨h, seen, same⟩ := before.among g (old g outside)
          exact ⟨h, List.mem_append_left _ seen, same⟩
        · obtain ⟨h, seen, same⟩ := before.among group (by simp)
          exact ⟨h, List.mem_append_left _ seen, same⟩
    · obtain ⟨none, result⟩ := opened
      rw [result]
      refine ⟨?_, fun g inside => ?_, fun h inside => ?_, fun g inside => ?_⟩
      · rw [List.map_append, List.nodup_append]
        refine ⟨before.once, List.nodup_singleton _, fun a left b right same => ?_⟩
        obtain ⟨g, member, rfl⟩ := List.mem_map.mp left
        exact none g member (same.trans (List.mem_singleton.mp right))
      · rcases List.mem_append.mp inside with outside | new
        · exact others g (none g outside) (before.filled g outside)
        · rw [List.mem_singleton.mp new]
          have empty : (earlier.filter fun h => h.1.filepath = hit.1.filepath) = [] := by
            apply List.filter_eq_nil_iff.mpr
            intro h seen same
            obtain ⟨g, member, place⟩ := before.every h seen
            exact none g member (place.trans (by simpa using same))
          rw [grown, empty]
          rfl
      · rcases List.mem_append.mp inside with seen | new
        · obtain ⟨g, member, same⟩ := before.every h seen
          exact ⟨g, List.mem_append_left _ member, same⟩
        · exact ⟨(hit.1, [hit.2]), List.mem_append_right _ List.mem_cons_self, by rw [List.mem_singleton.mp new]⟩
      · rcases List.mem_append.mp inside with outside | new
        · obtain ⟨h, seen, same⟩ := before.among g outside
          exact ⟨h, List.mem_append_left _ seen, same⟩
        · exact ⟨hit, List.mem_append_right _ List.mem_cons_self, by rw [List.mem_singleton.mp new]⟩

/-! ### The code's ranking -/

/-- Comparing two of the scores compares the numbers they stand for. -/
def Measured (value : S → L) (scores : List S) : Prop :=
  ∀ a ∈ scores, ∀ b ∈ scores, Score.partialCmp a b = some (compare (value a) (value b))

/-- The hits as filepath, offset and number. -/
def measuredHits (value : S → L) (hits : List (Document × S × Nat)) : List (String × Nat × L) :=
  hits.map fun h => (h.1.filepath, h.2.2, value h.2.1)

omit [Score S] [LinearOrder L] in
/-- The groups stand for the filepaths of the hits. -/
theorem GroupsOf.keys {hits : List (Document × S × Nat)} {groups : List (VecGroup S)} (spec : GroupsOf hits groups)
    (value : S → L) : (groups.map fun g => g.1.filepath).Perm ((measuredHits value hits).map Prod.fst).dedup := by
  apply (List.perm_ext_iff_of_nodup spec.once (List.nodup_dedup _)).mpr
  intro filepath
  simp only [List.mem_dedup, measuredHits, List.map_map, List.mem_map]
  constructor
  · intro found
    obtain ⟨g, member, rfl⟩ := found
    obtain ⟨h, hit, same⟩ := spec.among g member
    exact ⟨h, hit, congrArg Document.filepath same⟩
  · intro found
    obtain ⟨h, hit, rfl⟩ := found
    exact spec.every h hit

section Measured
variable {value : S → L}

theorem Measured.sub {scores fewer : List S} (measured : Measured value scores) (within : ∀ a ∈ fewer, a ∈ scores) :
    Measured value fewer := fun a left b right => measured a (within a left) b (within b right)

/-- Ordering by falling score, whatever comes second. -/
theorem refines_scores {α : Type} {score : α → S} {second : α → α → Ordering} {l : List α}
    (measured : Measured value (l.map score)) :
    Refines (fun a b => ((Score.partialCmp (score b) (score a)).getD .eq).then (second a b) ≠ .gt)
      (fun a => value (score a)) l := by
  have compared : ∀ a ∈ l, ∀ b ∈ l, (Score.partialCmp (score b) (score a)).getD .eq =
      compare (value (score b)) (value (score a)) := by
    intro a left b right
    rw [measured _ (List.mem_map_of_mem right) _ (List.mem_map_of_mem left)]
    rfl
  refine ⟨fun a left b right before => ?_, fun a left b right behind => ?_⟩
  · rw [compared a left b right] at before
    by_contra higher
    have greater : compare (value (score b)) (value (score a)) = .gt := compare_gt_iff_gt.mpr (not_le.mp higher)
    rw [greater] at before
    exact before rfl
  · rw [not_not, compared a left b right] at behind
    by_contra lower
    have less : compare (value (score b)) (value (score a)) = .lt := compare_lt_iff_lt.mpr (not_le.mp lower)
    rw [less] at behind
    cases behind

omit [Score S] in
theorem distinctOffsets_eq (hits : List (S × Nat)) (seen : List Nat) :
    distinctOffsets hits seen = firstOfEach Prod.snd hits seen := by
  induction hits generalizing seen with
  | nil => rfl
  | cons hit rest later => rw [distinctOffsets, firstOfEach, later, later]

/-- The sections of a group, best first. -/
def groupSections (hits : List (S × Nat)) : List (S × Nat) := distinctOffsets (hits.insertionSort closer) []

theorem refines_closer {hits : List (S × Nat)} (measured : Measured value (hits.map Prod.fst)) :
    Refines closer (fun h => value h.1) hits := refines_scores measured

theorem groupSections_selects {hits : List (S × Nat)} (measured : Measured value (hits.map Prod.fst)) :
    Selects Prod.snd (fun h => value h.1) hits (groupSections hits) := by
  rw [groupSections, distinctOffsets_eq]
  exact selects_firstOfEach (refines_closer measured)

/-- The numbers of a group's picks are those of the hits of its filepath. -/
theorem groupSections_values {hits : List (Document × S × Nat)} (measured : Measured value (hits.map fun h => h.2.1))
    (filepath : String) (n : Nat) :
    ((groupSections ((hits.filter fun h => h.1.filepath = filepath).map Prod.snd)).take n).map (fun h => value h.1) =
      keyScores n (measuredHits value hits) filepath := by
  have mine : Measured value (((hits.filter fun h => h.1.filepath = filepath).map Prod.snd).map Prod.fst) := by
    apply measured.sub
    intro a inside
    simp only [List.mem_map] at inside ⊢
    obtain ⟨h, ⟨hit, member, rfl⟩, rfl⟩ := inside
    exact ⟨hit, (List.mem_filter.mp member).1, rfl⟩
  have values := (groupSections_selects mine).values (selects_sections (hitsOf (measuredHits value hits) filepath)) ?_
  · rw [keyScores, List.map_take, List.map_take, values]
  · intro x
    have same : hitsOf (measuredHits value hits) filepath =
        ((hits.filter fun h => h.1.filepath = filepath).map Prod.snd).map fun h => (h.2, value h.1) := by
      rw [hitsOf, measuredHits, List.filter_map, List.map_map, List.map_map]
      rfl
    rw [same]
    simp

/-! ### The results of some groups -/

section Results
variable {engine : Engine V S} {db : Db} {options : SearchOptions S} {hits : List (Document × S × Nat)}

/-- All picks of the groups. -/
def allPicks (engine : Engine V S) (db : Db) (options : SearchOptions S) (groups : List (VecGroup S)) : List (Pick S) :=
  groups.zipIdx.flatMap fun (group, i) => groupPicks engine db options group i

/-- The result that shows one hit of a document. -/
def sectionResult (engine : Engine V S) (db : Db) (d : Document) (hit : S × Nat) : SearchResult S :=
  pickToResult db (.ofDocument d)
    ⟨d.filepath, 0, 0, hit.1, Chunking.nearestChunk (engine.chunkDocumentForPath d.filepath d.raw) hit.2⟩

theorem mem_allPicks (plain : options.recency = none) {groups : List (VecGroup S)} {pick : Pick S} :
    pick ∈ allPicks engine db options groups ↔ ∃ (i rank : Nat) (group : VecGroup S) (hit : S × Nat), groups[i]? = some group ∧
      ((groupSections group.2).take (clampPerFile options.perFile))[rank]? = some hit ∧
      pick = ⟨group.1.filepath, i, rank, hit.1, ("", hit.2)⟩ := by
  rw [allPicks, List.mem_flatMap]
  constructor
  · intro found
    obtain ⟨⟨group, i⟩, place, picked⟩ := found
    unfold groupPicks at picked
    simp only [plain] at picked
    obtain ⟨⟨hit, rank⟩, inside, same⟩ := List.mem_map.mp picked
    exact ⟨i, rank, group, hit, List.mem_zipIdx_iff_getElem?.mp place, List.mem_zipIdx_iff_getElem?.mp inside, same.symm⟩
  · intro found
    obtain ⟨i, rank, group, hit, place, inside, same⟩ := found
    refine ⟨(group, i), List.mem_zipIdx_iff_getElem?.mpr place, ?_⟩
    unfold groupPicks
    simp only [plain]
    exact List.mem_map.mpr ⟨(hit, rank), List.mem_zipIdx_iff_getElem?.mpr inside, same.symm⟩

variable (engine db) in
/-- Every pick is shown, with the score and the offset of its hit. -/
theorem vecResults_eq (plain : options.recency = none) (groups : List (VecGroup S)) (limit : Nat) :
    ∃ shown : Pick S → SearchResult S,
      vecResults engine db options groups limit = (rankPicks (allPicks engine db options groups) limit).map shown ∧
      (∀ pick, (shown pick).score = pick.score) ∧
      ∀ (i rank : Nat) (group : VecGroup S) (hit : S × Nat), groups[i]? = some group →
        shown ⟨group.1.filepath, i, rank, hit.1, ("", hit.2)⟩ = sectionResult engine db group.1 hit := by
  let docs := groups.map fun group => PickDoc.ofDocument group.1
  let shown := fun pick : Pick S =>
    pickToResult db ((docs[pick.doc]?).getD ⟨"", "", ""⟩) (showMatched engine docs pick)
  have at_ : ∀ (i : Nat) (group : VecGroup S), groups[i]? = some group → docs[i]? = some (PickDoc.ofDocument group.1) := by
    intro i group place
    change (groups.map fun group => PickDoc.ofDocument group.1)[i]? = _
    rw [List.getElem?_map, place]
    rfl
  refine ⟨shown, ?_, fun _ => rfl, fun i rank group hit place => ?_⟩
  · change ((rankPicks (allPicks engine db options groups) limit).map (showMatched engine docs)).filterMap _ = _
    rw [List.filterMap_map]
    apply List.filterMap_eq_map_iff_forall_eq_some.mpr
    intro pick member
    obtain ⟨i, rank, group, hit, place, _, rfl⟩ := (mem_allPicks plain).mp (mem_rankPicks member)
    have doc := at_ i group place
    change (docs[i]?).map _ = some (pickToResult db ((docs[i]?).getD _) _)
    rw [doc]
    rfl
  · have doc := at_ i group place
    change pickToResult db ((docs[i]?).getD _) (showMatched engine docs _) = _
    have matched : showMatched engine docs ⟨group.1.filepath, i, rank, hit.1, ("", hit.2)⟩ =
        ⟨group.1.filepath, i, rank, hit.1, Chunking.nearestChunk (engine.chunkDocumentForPath group.1.filepath group.1.raw) hit.2⟩ := by
      unfold showMatched
      simp only [doc, PickDoc.ofDocument]
    rw [matched, doc]
    rfl

variable (engine db) in
theorem allPicks_values (plain : options.recency = none) (measured : Measured value (hits.map fun h => h.2.1)) :
    ((allPicks engine db options (groupHits hits)).map fun pick => value pick.score).Perm
      (((measuredHits value hits).map Prod.fst).dedup.flatMap
        (keyScores (clampPerFile options.perFile) (measuredHits value hits))) := by
  have spec := groupHits_spec hits
  generalize groupHits hits = groups at spec
  have values : (allPicks engine db options groups).map (fun pick => value pick.score) =
      (groups.map fun g => g.1.filepath).flatMap (keyScores (clampPerFile options.perFile) (measuredHits value hits)) := by
    have each : ∀ indexed ∈ groups.zipIdx, (groupPicks engine db options indexed.1 indexed.2).map (fun pick => value pick.score) =
        keyScores (clampPerFile options.perFile) (measuredHits value hits) indexed.1.1.filepath := by
      intro indexed inside
      have member := List.mem_of_getElem? (List.mem_zipIdx_iff_getElem?.mp inside)
      rw [← groupSections_values measured, ← spec.filled indexed.1 member]
      have fronts : ∀ l : List (S × Nat), (l.zipIdx.map fun x => value x.1.1) = l.map fun h => value h.1 := by
        intro l
        conv_rhs => rw [← List.zipIdx_map_fst 0 l]
        rw [List.map_map]
        rfl
      rw [groupPicks, plain, List.map_map, groupSections]
      exact fronts _
    rw [allPicks, List.map_flatMap, List.flatMap_congr each]
    conv_rhs => rw [← List.zipIdx_map_fst 0 groups]
    rw [List.map_map, List.flatMap_map]
    rfl
  rw [values]
  exact (spec.keys value).flatMap_right _

theorem refines_picks {picks : List (Pick S)} (measured : Measured value (picks.map Pick.score)) :
    Refines Pick.before (fun pick => value pick.score) picks := by
  have same : ∀ a b : Pick S, a.before b ↔ ((Score.partialCmp b.score a.score).getD .eq).then
      ((compare a.filepath b.filepath).then (compare a.rank b.rank)) ≠ .gt := by
    intro a b
    unfold Pick.before scoreDescThenPath
    rw [Ordering.then_assoc]
  have refines := @refines_scores S L _ _ value (Pick S) Pick.score
    (fun a b => (compare a.filepath b.filepath).then (compare a.rank b.rank)) picks measured
  constructor
  · exact fun a left b right before => refines.down a left b right ((same a b).mp before)
  · exact fun a left b right behind => refines.up a left b right fun before => behind ((same a b).mpr before)

/-- A pick has the score of a hit. -/
theorem pick_hit (plain : options.recency = none) {pick : Pick S} (member : pick ∈ allPicks engine db options (groupHits hits)) :
    ∃ h ∈ hits, h.2.1 = pick.score := by
  obtain ⟨i, rank, group, hit, place, inside, rfl⟩ := (mem_allPicks plain).mp member
  have mine := List.mem_of_mem_take (List.mem_of_getElem? inside)
  rw [groupSections, distinctOffsets_eq] at mine
  replace mine := (List.mem_insertionSort _).mp ((firstOfEach_sublist _ _).subset mine)
  rw [(groupHits_spec hits).filled group (List.mem_of_getElem? place)] at mine
  obtain ⟨h, kept, rfl⟩ := List.mem_map.mp mine
  exact ⟨h, (List.mem_filter.mp kept).1, rfl⟩

variable (engine db) in
theorem allPicks_measured (plain : options.recency = none) (measured : Measured value (hits.map fun h => h.2.1)) :
    Measured value ((allPicks engine db options (groupHits hits)).map Pick.score) := by
  apply measured.sub
  intro score inside
  obtain ⟨pick, member, rfl⟩ := List.mem_map.mp inside
  obtain ⟨h, hit, same⟩ := pick_hit plain member
  exact List.mem_map.mpr ⟨h, hit, same⟩

variable (engine db) in
theorem rankPicks_values (plain : options.recency = none) (measured : Measured value (hits.map fun h => h.2.1)) (limit : Nat) :
    (rankPicks (allPicks engine db options (groupHits hits)) limit).map (fun pick => value pick.score) =
      ranking (clampPerFile options.perFile) limit (measuredHits value hits) := by
  have falling := falling_insertionSort (refines_picks (allPicks_measured engine db plain measured))
  rw [rankPicks, List.map_take, ranking]
  congr 1
  have perm := ((List.perm_insertionSort Pick.before _).map fun pick => value pick.score).trans
    ((allPicks_values engine db plain measured).trans
      (List.perm_insertionSort (fun a b : L => b ≤ a) _).symm)
  apply perm.eq_of_pairwise
  · exact fun a b _ _ up down => le_antisymm down up
  · exact List.pairwise_map.mpr falling
  · exact falling_insertionSort (refines_values id _)

variable (engine db) in
/-- The results show the numbers of the ranking. -/
theorem vecResults_values (plain : options.recency = none) (measured : Measured value (hits.map fun h => h.2.1)) (limit : Nat) :
    (vecResults engine db options (groupHits hits) limit).map (fun r => value r.score) =
      ranking (clampPerFile options.perFile) limit (measuredHits value hits) := by
  obtain ⟨shown, results, score, _⟩ := vecResults_eq engine db plain (groupHits hits) limit
  rw [results, List.map_map, ← rankPicks_values engine db plain measured]
  exact List.map_congr_left fun pick _ => congrArg value (score pick)

/-- Every section of the hits, of each document as many as are asked for. -/
def everySection (engine : Engine V S) (db : Db) (perFile : Nat) (hits : List (Document × S × Nat)) : List (SearchResult S) :=
  (groupHits hits).flatMap fun group =>
    ((groupSections group.2).take (clampPerFile perFile)).map (sectionResult engine db group.1)

/-- One document stands at each filepath. -/
def OnePerFilepath (hits : List (Document × S × Nat)) : Prop := ∀ a ∈ hits, ∀ b ∈ hits, a.1.filepath = b.1.filepath → a.1 = b.1

/-- A section above a bound is one of the front, at the same place, when the hits left out lie below the bound. -/
theorem section_of_front {front later : List (Document × S × Nat)}
    (measured : Measured value ((front ++ later).map fun h => h.2.1)) (unique : OnePerFilepath (front ++ later)) {t : L}
    (under : ∀ b ∈ later, value b.2.1 ≤ t) {group : VecGroup S} (inside : group ∈ groupHits (front ++ later)) {rank : Nat}
    {best : S × Nat} (place : (groupSections group.2)[rank]? = some best) (high : t < value best.1) :
    ∃ group' ∈ groupHits front, group'.1 = group.1 ∧ (groupSections group'.2)[rank]? = some best := by
  have spec := groupHits_spec (front ++ later)
  have parts := spec.filled group inside
  rw [List.filter_append, List.map_append] at parts
  have refines : Refines closer (fun h : S × Nat => value h.1)
      ((front.filter fun h => h.1.filepath = group.1.filepath).map Prod.snd ++
        (later.filter fun h => h.1.filepath = group.1.filepath).map Prod.snd) := by
    apply refines_closer
    apply measured.sub
    intro score source
    rw [← List.map_append, ← List.filter_append, List.map_map] at source
    obtain ⟨h, seen, rfl⟩ := List.mem_map.mp source
    exact List.mem_map.mpr ⟨h, (List.mem_filter.mp seen).1, rfl⟩
  have lower : ∀ b ∈ (later.filter fun h => h.1.filepath = group.1.filepath).map Prod.snd, value b.1 ≤ t := by
    intro b source
    obtain ⟨h, seen, rfl⟩ := List.mem_map.mp source
    exact under h (List.mem_filter.mp seen).1
  have found : (groupSections ((front.filter fun h => h.1.filepath = group.1.filepath).map Prod.snd))[rank]? = some best := by
    rw [parts, groupSections, distinctOffsets_eq] at place
    rw [groupSections, distinctOffsets_eq]
    exact firstOfEach_above refines lower place high
  -- the filepath has a hit in the front, so it has a group there
  have source := List.mem_of_getElem? found
  rw [groupSections, distinctOffsets_eq] at source
  obtain ⟨h, seen, _⟩ := List.mem_map.mp ((List.mem_insertionSort _).mp ((firstOfEach_sublist _ _).subset source))
  obtain ⟨known, at_⟩ := List.mem_filter.mp seen
  obtain ⟨group', inside', path'⟩ := (groupHits_spec front).every h known
  have path : group'.1.filepath = group.1.filepath := path'.trans (by simpa using at_)
  refine ⟨group', inside', ?_, ?_⟩
  · obtain ⟨a, left, docA⟩ := (groupHits_spec front).among group' inside'
    obtain ⟨b, right, docB⟩ := spec.among group inside
    rw [← docA, ← docB]
    exact unique a (List.mem_append_left _ left) b right (by rw [docA, docB, path])
  · rw [(groupHits_spec front).filled group' inside', path]
    exact found

variable (engine db) in
/-- A section of all hits that scores above the last result is a result, when the hits left out score no higher. -/
theorem above_last {front later : List (Document × S × Nat)} (plain : options.recency = none)
    (measured : Measured value ((front ++ later).map fun h => h.2.1)) (unique : OnePerFilepath (front ++ later))
    (below : ∀ a ∈ front, ∀ b ∈ later, value b.2.1 ≤ value a.2.1) {limit : Nat} {last : SearchResult S}
    (final : (vecResults engine db options (groupHits front) limit).getLast? = some last) {r : SearchResult S}
    (member : r ∈ everySection engine db options.perFile (front ++ later)) (above : value last.score < value r.score) :
    r ∈ vecResults engine db options (groupHits front) limit := by
  have measured' : Measured value (front.map fun h => h.2.1) := measured.sub fun score inside => by
    rw [List.map_append]
    exact List.mem_append_left _ inside
  obtain ⟨shown, results, score, shows⟩ := vecResults_eq engine db plain (groupHits front) limit
  rw [results] at final ⊢
  rw [List.getLast?_map] at final
  obtain ⟨final', ending, rfl⟩ := Option.map_eq_some_iff.mp final
  rw [score] at above
  -- the last pick is a hit of the front
  have kept : final' ∈ allPicks engine db options (groupHits front) := mem_rankPicks (List.mem_of_getLast? ending)
  obtain ⟨h, hit, same⟩ := pick_hit plain kept
  have under : ∀ b ∈ later, value b.2.1 ≤ value final'.score := fun b inside => same ▸ below h hit b inside
  obtain ⟨group, inside, sect⟩ := List.mem_flatMap.mp member
  obtain ⟨best, chosen, rfl⟩ := List.mem_map.mp sect
  obtain ⟨rank, place⟩ := List.mem_iff_getElem?.mp chosen
  have early : rank < clampPerFile options.perFile := by
    by_contra late
    rw [List.getElem?_take_eq_none (Nat.le_of_not_lt late)] at place
    cases place
  rw [List.getElem?_take_of_lt early] at place
  have high : value final'.score < value best.1 := above
  obtain ⟨group', inside', document, found⟩ := section_of_front measured unique under inside place high
  obtain ⟨i, index⟩ := List.mem_iff_getElem?.mp inside'
  have pick : (⟨group'.1.filepath, i, rank, best.1, ("", best.2)⟩ : Pick S) ∈ allPicks engine db options (groupHits front) := by
    apply (mem_allPicks plain).mpr
    refine ⟨i, rank, group', best, index, ?_, rfl⟩
    rw [List.getElem?_take_of_lt early]
    exact found
  rw [← document, ← shows i rank group' best index]
  apply List.mem_map_of_mem
  have falling := falling_insertionSort (refines_picks (allPicks_measured engine db plain measured'))
  exact falling.mem_take ((List.mem_insertionSort _).mpr pick) ending high

end Results

end Measured

/-! ### The loop -/

/-- The loop, pass by pass, ends with what it found. -/
inductive LoopEnds {α : Type} (pass : Nat → Except Failure α) (enough : α → Bool) (total : Nat) : Nat → α → Prop where
  | stop {k : Nat} {found : α} : pass k = .ok found → enough found = true ∨ total ≤ k → LoopEnds pass enough total k found
  | wider {k : Nat} {found last : α} : pass k = .ok found → ¬ (enough found = true ∨ total ≤ k) →
      LoopEnds pass enough total (min (k * 2) total) last → LoopEnds pass enough total k last

/-- The loop ends when every pass answers, and fuel is never short. -/
theorem widen_ends {α : Type} {pass : Nat → Except Failure α} {enough : α → Bool} {total fuel k : Nat} (some : 0 < k)
    (room : total - k ≤ fuel) (answers : ∀ k, ∃ found, pass k = .ok found) :
    ∃ found, widen pass enough total fuel k = .ok found ∧ LoopEnds pass enough total k found := by
  induction fuel generalizing k with
  | zero =>
    obtain ⟨found, here⟩ := answers k
    exact ⟨found, here, .stop here (.inr (by omega))⟩
  | succ fuel later =>
    obtain ⟨found, here⟩ := answers k
    rw [widen, here]
    by_cases stop : enough found = true ∨ total ≤ k
    · refine ⟨found, ?_, .stop here stop⟩
      exact if_pos (by simpa using stop)
    · have short : k < total := by
        by_contra long
        exact stop (.inr (Nat.le_of_not_lt long))
      obtain ⟨last, result, ends⟩ := later (k := min (k * 2) total) (by omega) (by omega)
      refine ⟨last, ?_, .wider here stop ends⟩
      rw [← result]
      exact if_neg (by simpa using stop)

/-- The vector engine answers with the first `k` of one order of all vectors, by falling similarity. -/
structure NearestPrefixes (engine : Engine V S) (vectors : Vectors V) (embedding : V) (value : S → L)
    (order : List (Nat × S)) : Prop where
  first : ∀ k, engine.nearest vectors embedding k = .ok (order.take k)
  every : (order.map Prod.fst).Perm vectors.keys
  measured : Measured value (order.map Prod.snd)
  falling : Falling (fun hit => value hit.2) order

/-- The vectors that resolve in scope, each with its document and offset. -/
def resolveHits (engine : Engine V S) (s : Store V) (collections : Requested) (raw : List (Nat × S)) :
    List (Document × S × Nat) :=
  raw.filterMap fun (vid, sim) =>
    (s.db.docChunkForVidInExcluding engine.globs vid collections).map fun found => (found.1, sim, found.2)

section Widened
variable {engine : Engine V S} {s : Store V} {collections : Requested} {value : S → L} {embedding : V} {order : List (Nat × S)}

omit [Score S] in
theorem mem_resolveHits {raw : List (Nat × S)} {h : Document × S × Nat} (member : h ∈ resolveHits engine s collections raw) :
    (∃ e ∈ raw, e.2 = h.2.1) ∧ h.1 ∈ s.db.documents := by
  obtain ⟨e, inside, found⟩ := List.mem_filterMap.mp member
  obtain ⟨row, looked, rfl⟩ := Option.map_eq_some_iff.mp found
  exact ⟨⟨e, inside, rfl⟩, (Db.vidLookup_mem looked).1⟩

omit [Score S] in
variable (engine s collections) in
theorem resolveHits_unique (raw : List (Nat × S)) : OnePerFilepath (resolveHits engine s collections raw) := by
  intro a left b right same
  have rowA := filepathToDoc_filepath (mem_resolveHits left).2
  have rowB := filepathToDoc_filepath (mem_resolveHits right).2
  rw [same, rowB] at rowA
  exact (Option.some.inj rowA).symm

theorem NearestPrefixes.answers (nearest : NearestPrefixes engine s.hnsw.inner embedding value order) (k : Nat) :
    nearestIn engine s embedding collections k = .ok (resolveHits engine s collections (order.take k)) := by
  rw [nearestIn, nearest.first k]
  rfl

omit [Score S] in
variable (engine s collections order) in
/-- The hits of a front of the order and the hits behind it. -/
theorem resolveHits_split (last : Nat) : resolveHits engine s collections order =
    resolveHits engine s collections (order.take last) ++ resolveHits engine s collections (order.drop last) := by
  conv_lhs => rw [← List.take_append_drop last order]
  exact List.filterMap_append

variable (collections) in
theorem NearestPrefixes.below (nearest : NearestPrefixes engine s.hnsw.inner embedding value order) (last : Nat) :
    ∀ a ∈ resolveHits engine s collections (order.take last), ∀ b ∈ resolveHits engine s collections (order.drop last),
      value b.2.1 ≤ value a.2.1 := by
  intro a left b right
  obtain ⟨⟨e, early, sameA⟩, _⟩ := mem_resolveHits left
  obtain ⟨⟨f, late, sameB⟩, _⟩ := mem_resolveHits right
  have falling := nearest.falling
  rw [← List.take_append_drop last order] at falling
  rw [← sameA, ← sameB]
  exact (List.pairwise_append.mp falling).2.2 e early f late

variable (collections) in
theorem NearestPrefixes.measuredHits (nearest : NearestPrefixes engine s.hnsw.inner embedding value order) {raw : List (Nat × S)}
    (within : ∀ e ∈ raw, e ∈ order) : Measured value ((resolveHits engine s collections raw).map fun h => h.2.1) := by
  apply nearest.measured.sub
  intro score inside
  obtain ⟨h, member, rfl⟩ := List.mem_map.mp inside
  obtain ⟨⟨e, found, same⟩, _⟩ := mem_resolveHits member
  exact List.mem_map.mpr ⟨e, within e found, same⟩

variable (collections) in
/-- The loop stops where the pool holds as many documents as are asked for, or every vector. -/
theorem NearestPrefixes.pool (nearest : NearestPrefixes engine s.hnsw.inner embedding value order) (limit : Nat) :
    ∃ last, widen (nearestIn engine s embedding collections) (fun hits => decide (limit ≤ (groupHits hits).length))
        s.hnsw.inner.size s.hnsw.inner.size (max (limit * 4) 1) = .ok (resolveHits engine s collections (order.take last)) ∧
      LoopEnds (nearestIn engine s embedding collections) (fun hits => decide (limit ≤ (groupHits hits).length))
        s.hnsw.inner.size (max (limit * 4) 1) (resolveHits engine s collections (order.take last)) ∧
      (limit ≤ (groupHits (resolveHits engine s collections (order.take last))).length ∨ order.drop last = []) := by
  obtain ⟨found, result, ends⟩ := @widen_ends _ (nearestIn engine s embedding collections)
    (fun hits => decide (limit ≤ (groupHits hits).length)) s.hnsw.inner.size s.hnsw.inner.size (max (limit * 4) 1)
    (by omega) (Nat.sub_le _ _) fun k => ⟨_, nearest.answers k⟩
  obtain ⟨last, _, pass, stop⟩ := widen_last (by omega) (Nat.sub_le _ _) result
  rw [nearest.answers last] at pass
  obtain rfl : resolveHits engine s collections (order.take last) = found := Except.ok.inj pass
  refine ⟨last, result, ends, stop.imp of_decide_eq_true fun every => ?_⟩
  apply List.drop_eq_nil_of_le
  have size := nearest.every.length_eq
  rw [List.length_map, Vectors.keys, List.length_map] at size
  exact size ▸ every

omit [Score S] in
/-- The pool ranks as all vectors do. -/
theorem pool_ranks {front later : List (Document × S × Nat)} (below : ∀ a ∈ front, ∀ b ∈ later, value b.2.1 ≤ value a.2.1)
    {n limit : Nat} (room : 0 < n) (enough : limit ≤ (groupHits front).length ∨ later = []) :
    ranking n limit (measuredHits value front) = ranking n limit (measuredHits value (front ++ later)) := by
  rcases enough with full | none
  · rw [measuredHits, measuredHits, List.map_append]
    symm
    apply ranking_front _ room
    · have keys := ((groupHits_spec front).keys value).length_eq
      rw [List.length_map] at keys
      rwa [keys] at full
    · intro a left b right
      obtain ⟨h, front', rfl⟩ := List.mem_map.mp left
      obtain ⟨h', later', rfl⟩ := List.mem_map.mp right
      exact below h front' h' later'
  · rw [none, List.append_nil]

end Widened

/-- The similarities a vector search should return: every vector is resolved in scope, and of the sections found, of
each document as many as are asked for, the best `limit` are kept. -/
def directScores (engine : Engine V S) (s : Store V) (collections : Requested) (perFile limit : Nat) (value : S → L)
    (order : List (Nat × S)) : List L :=
  ranking (clampPerFile perFile) limit (measuredHits value (resolveHits engine s collections order))

/-- Without weights by age and with an engine that answers with the nearest of one order, the loop of a vector search
ends, and the results are those of ranking every vector that resolves in scope. -/
theorem vector_search_is_exact (engine : Engine V S) (s : Store V) (query : String) (limit : Nat) (requested : Requested)
    (options : SearchOptions S) {value : S → L} {embedding : V} {order : List (Nat × S)} (plain : options.recency = none)
    (embedded : engine.embedQuery query = .ok embedding)
    (nearest : NearestPrefixes engine s.hnsw.inner embedding value order) :
    (effectiveCollections s.db requested = some [] →
      searchVecMultiWith engine s query limit requested options = .ok []) ∧
    (effectiveCollections s.db requested ≠ some [] →
      ∃ found results, LoopEnds (nearestIn engine s embedding (effectiveCollections s.db requested))
          (fun hits => decide (limit ≤ (groupHits hits).length)) s.hnsw.inner.size (max (limit * 4) 1) found ∧
        results = vecResults engine s.db options (groupHits found) limit ∧
        searchVecMultiWith engine s query limit requested options = .ok results ∧
        results.map (fun r => value r.score) =
          directScores engine s (effectiveCollections s.db requested) options.perFile limit value order ∧
        ∀ last, results.getLast? = some last → ∀ r ∈ everySection engine s.db options.perFile
            (resolveHits engine s (effectiveCollections s.db requested) order),
          value last.score < value r.score → r ∈ results) := by
  constructor
  · intro nothing
    exact if_pos nothing
  · intro scope
    obtain ⟨last, found, ends, enough⟩ := nearest.pool (effectiveCollections s.db requested) limit
    have behind := resolveHits_split engine s (effectiveCollections s.db requested) order last
    have below := nearest.below (effectiveCollections s.db requested) last
    have measured := nearest.measuredHits (effectiveCollections s.db requested) fun e inside => inside
    have front := nearest.measuredHits (effectiveCollections s.db requested) fun e inside =>
      List.mem_of_mem_take (i := last) inside
    have unique := resolveHits_unique engine s (effectiveCollections s.db requested) order
    refine ⟨_, _, ends, rfl, ?_, ?_, ?_⟩
    · unfold searchVecMultiWith
      dsimp only
      rw [if_neg scope, embedded, plain]
      exact congrArg (· >>= fun hits => pure (vecResults engine s.db options (groupHits hits) limit)) found
    · rw [vecResults_values engine s.db plain front, directScores, behind]
      apply pool_ranks below
      · rw [clampPerFile]
        omega
      · exact enough.imp_right fun none => by rw [none]; rfl
    · intro last' final r member above
      rw [behind] at measured unique member
      exact above_last engine s.db plain measured unique below final member above

/-- The small engine's order of all vectors. -/
def sampleOrder (vectors : Vectors String) (embedding : String) : List (Nat × Rat) :=
  (vectors.entries.map fun (vid, vector) => (vid, if vector = embedding then (1 : Rat) else 0)).insertionSort
    fun a b => b.2 ≤ a.2

theorem sampleEngine_nearest (vectors : Vectors String) (embedding : String) :
    NearestPrefixes sampleEngine vectors embedding id (sampleOrder vectors embedding) where
  first _ := rfl
  every := by
    have sorted := (List.perm_insertionSort (fun a b : Nat × Rat => b.2 ≤ a.2)
      (vectors.entries.map fun (vid, vector) => (vid, if vector = embedding then (1 : Rat) else 0))).map Prod.fst
    rw [List.map_map] at sorted
    exact sorted
  measured := by
    intro a _ b _
    exact congrArg some (LinearOrder.compare_eq_compareOfLessAndEq a b).symm
  falling := falling_insertionSort (refines_values Prod.snd _)

/-- Five files outside the scope, and one in it whose vector is behind theirs. -/
def crowdedDisk : Disk String := (Disk.empty : Disk String).after sampleEnv
  [(.add Db.workCollection (notesWalk (.ok (notesDoc "alpha"))), []),
    (.add notesCollection ⟨["a", "b", "c", "d", "e"].map fun name => notesFile (name ++ ".md") (.ok (notesDoc name)),
      by decide⟩, []),
    (.embed gemma none false, [])]

/-- A search of the second collection goes on past the vectors of the first. -/
theorem crowd_is_passed :
    ∃ found results, LoopEnds (nearestIn sampleEngine (crowdedDisk.open true) "omega" (some ["work"]))
        (fun hits => decide (1 ≤ (groupHits hits).length)) (crowdedDisk.open true).hnsw.inner.size (max (1 * 4) 1) found ∧
      searchVecMultiWith sampleEngine (crowdedDisk.open true) "omega" 1 (some ["work"]) plainSearch = .ok results ∧
      results.map (fun r => id r.score) = directScores sampleEngine (crowdedDisk.open true) (some ["work"]) 1 1 id
        (sampleOrder (crowdedDisk.open true).hnsw.inner "omega") ∧
      results.map SearchResult.collection = ["work"] := by
  have search := vector_search_is_exact sampleEngine (crowdedDisk.open true) "omega" 1 (some ["work"]) plainSearch rfl rfl
    (sampleEngine_nearest (crowdedDisk.open true).hnsw.inner "omega")
  obtain ⟨found, results, ends, _, result, scores, _⟩ := search.2 (by decide)
  have shown : (searchVecMultiWith sampleEngine (crowdedDisk.open true) "omega" 1 (some ["work"])
      plainSearch).toOption.map (fun results => results.map SearchResult.collection) = some ["work"] := by
    decide +kernel
  rw [result] at shown
  exact ⟨found, results, ends, result, scores, Option.some.inj shown⟩

end Rqmd
