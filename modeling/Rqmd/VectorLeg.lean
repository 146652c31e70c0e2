import Mathlib.Algebra.Group.Nat.Defs
import Mathlib.Data.List.Dedup
import Rqmd.Widening

/-! The vector leg of a hybrid query. Its loop stops at as many hits as are asked for, and a hit is a chunk, so
a pool crowded by the chunks of few documents ends it early. -/

namespace Rqmd

variable {V S L : Type} [Score S] [LinearOrder L]

/-- The filepaths of some hits, each once. -/
def hitFilepaths {S : Type} (hits : List (Document × S × Nat)) : List String := (hits.map fun h => h.1.filepath).dedup

/-- The hits in scope among the `k` nearest vectors. -/
def poolAt (engine : Engine V S) (s : Store V) (collections : Requested) (order : List (Nat × S)) (k : Nat) :
    List (Document × S × Nat) :=
  resolveHits engine s collections (order.take k)

/-- As many documents as are asked for, or all that a vector in scope resolves to. -/
def servable (engine : Engine V S) (s : Store V) (collections : Requested) (order : List (Nat × S)) (size : Nat) : Nat :=
  min size (hitFilepaths (resolveHits engine s collections order)).length

/-- The loop of the vector leg ends, and the leg returns as many documents as it can. -/
def LegServes (engine : Engine V S) (s : Store V) (embedding : V) (size : Nat) (collections : Requested)
    (order : List (Nat × S)) : Prop :=
  ∃ found results, LoopEnds (nearestIn engine s embedding collections) (fun hits => decide (size ≤ hits.length))
      s.hnsw.inner.size size found ∧
    searchVecScoped engine s embedding size collections = .ok results ∧
    servable engine s collections order size ≤ (results.map RankedResult.filepath).dedup.length

/-- A pool short of the whole index with as many hits as are asked for, but from too few documents. -/
def Crowded (engine : Engine V S) (s : Store V) (collections : Requested) (order : List (Nat × S)) (size k : Nat) : Prop :=
  k < s.hnsw.inner.size ∧ size ≤ (poolAt engine s collections order k).length ∧
    (hitFilepaths (poolAt engine s collections order k)).length < servable engine s collections order size

theorem widen_enough {α : Type} {pass : Nat → Except Failure α} {enough : α → Bool} {total fuel k : Nat} {found : α}
    (here : pass k = .ok found) (stop : enough found = true) : widen pass enough total fuel k = .ok found := by
  cases fuel with
  | zero => exact here
  | succ fuel =>
    rw [widen, here]
    change (if (enough found || decide (total ≤ k)) = true then pure found else _) = _
    rw [stop]
    rfl

section Pools
variable {engine : Engine V S} {s : Store V} {collections : Requested} {value : S → L} {embedding : V}
  {order : List (Nat × S)} {size : Nat}

omit [Score S] in
theorem hitFilepaths_mono {hits more : List (Document × S × Nat)} (within : ∀ h ∈ hits, h ∈ more) :
    (hitFilepaths hits).length ≤ (hitFilepaths more).length := by
  apply List.Subperm.length_le
  apply List.subperm_of_subset (List.nodup_dedup _)
  intro path member
  have inside := List.mem_dedup.mp member
  apply List.mem_dedup.mpr
  obtain ⟨h, hit, same⟩ := List.mem_map.mp inside
  exact List.mem_map.mpr ⟨h, within h hit, same⟩

omit [Score S] in
theorem poolAt_mono {k n : Nat} (more : k ≤ n) :
    ∀ h ∈ poolAt engine s collections order k, h ∈ poolAt engine s collections order n := by
  intro h member
  have first : order.take k = (order.take n).take k := by rw [List.take_take, Nat.min_eq_left more]
  rw [poolAt, first] at member
  obtain ⟨hit, inside, found⟩ := List.mem_filterMap.mp member
  exact List.mem_filterMap.mpr ⟨hit, List.mem_of_mem_take inside, found⟩

theorem NearestPrefixes.order_length (nearest : NearestPrefixes engine s.hnsw.inner embedding value order) :
    order.length = s.hnsw.inner.size := by
  have size := nearest.every.length_eq
  rw [List.length_map, Vectors.keys, List.length_map] at size
  exact size

/-- A pool as large as the index holds every hit. -/
theorem NearestPrefixes.whole (nearest : NearestPrefixes engine s.hnsw.inner embedding value order) {k : Nat}
    (all : s.hnsw.inner.size ≤ k) : poolAt engine s collections order k = resolveHits engine s collections order := by
  have length := nearest.order_length
  rw [poolAt, List.take_of_length_le (by omega)]

/-- The loop ends at the first pool of the doubling sequence that is enough, or at the whole index. -/
theorem NearestPrefixes.loop (nearest : NearestPrefixes engine s.hnsw.inner embedding value order)
    {enough : List (Document × S × Nat) → Bool} {k : Nat} (some : 0 < k) {found : List (Document × S × Nat)}
    (ends : LoopEnds (nearestIn engine s embedding collections) enough s.hnsw.inner.size k found) :
    ∃ j, found = poolAt engine s collections order (k * 2 ^ j) ∧
      (enough found = true ∨ s.hnsw.inner.size ≤ k * 2 ^ j) ∧
      ∀ i < j, enough (poolAt engine s collections order (k * 2 ^ i)) = false := by
  induction ends with
  | stop here stop =>
    rw [nearest.answers] at here
    have same := Except.ok.inj here
    exact ⟨0, by rw [← same, Nat.pow_zero, Nat.mul_one]; rfl, by rwa [Nat.pow_zero, Nat.mul_one], fun i early => by omega⟩
  | @wider k first last here onward ends later =>
    rw [nearest.answers] at here
    have same : poolAt engine s collections order k = first := Except.ok.inj here
    rw [not_or, Bool.not_eq_true] at onward
    have short : enough (poolAt engine s collections order k) = false := same ▸ onward.1
    by_cases room : k * 2 ≤ s.hnsw.inner.size
    · rw [Nat.min_eq_left room] at later
      obtain ⟨j, pool, stop, before⟩ := later (by omega)
      have next : ∀ i, k * 2 * 2 ^ i = k * 2 ^ (i + 1) := fun i => by rw [Nat.pow_succ, Nat.mul_assoc, Nat.mul_comm 2]
      rw [next] at pool stop
      refine ⟨j + 1, pool, stop, fun i early => ?_⟩
      cases i with
      | zero => rwa [Nat.pow_zero, Nat.mul_one]
      | succ i =>
        rw [← next]
        exact before i (by omega)
    · rw [Nat.min_eq_right (by omega)] at later
      obtain ⟨j, pool, _, _⟩ := later (by omega)
      have wide : s.hnsw.inner.size ≤ s.hnsw.inner.size * 2 ^ j := Nat.le_mul_of_pos_right _ (Nat.two_pow_pos j)
      refine ⟨1, ?_, .inr (by omega), fun i early => ?_⟩
      · rw [pool, nearest.whole wide, nearest.whole (by omega)]
      · have zero : i = 0 := by omega
        rwa [zero, Nat.pow_zero, Nat.mul_one]

/-- The leg runs to the end of its loop. -/
theorem NearestPrefixes.leg (nearest : NearestPrefixes engine s.hnsw.inner embedding value order) (collections : Requested)
    (size : Nat) : ∃ found, LoopEnds (nearestIn engine s embedding collections) (fun hits => decide (size ≤ hits.length))
        s.hnsw.inner.size size found ∧
      searchVecScoped engine s embedding size collections = .ok (vecHitsToRanked found) := by
  have run : ∃ found, widen (nearestIn engine s embedding collections) (fun hits => decide (size ≤ hits.length))
      s.hnsw.inner.size s.hnsw.inner.size size = .ok found ∧ LoopEnds (nearestIn engine s embedding collections)
        (fun hits => decide (size ≤ hits.length)) s.hnsw.inner.size size found := by
    by_cases some : 0 < size
    · exact widen_ends some (Nat.sub_le _ _) fun k => ⟨_, nearest.answers k⟩
    · have none : size = 0 := by omega
      subst none
      have enough : decide (0 ≤ (resolveHits engine s collections (order.take 0)).length) = true :=
        decide_eq_true (Nat.zero_le _)
      exact ⟨_, widen_enough (nearest.answers 0) enough, .stop (nearest.answers 0) (.inl enough)⟩
  obtain ⟨found, result, ends⟩ := run
  refine ⟨found, ends, ?_⟩
  rw [searchVecScoped, result]
  rfl

omit [Score S] in
theorem ranked_filepaths (hits : List (Document × S × Nat)) :
    ((vecHitsToRanked hits).map RankedResult.filepath).dedup = hitFilepaths hits := by
  rw [vecHitsToRanked, List.map_map]
  rfl

end Pools

/-- With an engine that answers with the nearest of one order, the vector leg serves exactly if no pool of the doubling
sequence is crowded. -/
theorem vector_leg_serves_iff (engine : Engine V S) (s : Store V) (size : Nat) (collections : Requested) {value : S → L}
    {embedding : V} {order : List (Nat × S)} (nearest : NearestPrefixes engine s.hnsw.inner embedding value order) :
    LegServes engine s embedding size collections order ↔
      ∀ i, ¬ Crowded engine s collections order size (size * 2 ^ i) := by
  obtain ⟨found, ends, result⟩ := nearest.leg collections size
  have served : LegServes engine s embedding size collections order ↔
      servable engine s collections order size ≤ (hitFilepaths found).length := by
    rw [← ranked_filepaths]
    constructor
    · intro serves
      obtain ⟨_, results, _, same, enough⟩ := serves
      rw [result] at same
      rwa [← Except.ok.inj same] at enough
    · intro enough
      exact ⟨found, _, ends, result, enough⟩
  rw [served]
  by_cases some : 0 < size
  · obtain ⟨j, pool, stop, before⟩ := nearest.loop some ends
    constructor
    · intro enough i crowded
      obtain ⟨short, full, few⟩ := crowded
      -- the loop has stopped there or earlier, so this pool holds all that it returned
      have late : j ≤ i := by
        by_contra early
        exact of_decide_eq_false (before i (by omega)) full
      have wider : size * 2 ^ j ≤ size * 2 ^ i := Nat.mul_le_mul_left size (Nat.pow_le_pow_right (by omega) late)
      have grown := hitFilepaths_mono (@poolAt_mono V S engine s collections order _ _ wider)
      rw [← pool] at grown
      omega
    · intro free
      by_cases whole : s.hnsw.inner.size ≤ size * 2 ^ j
      · rw [pool, nearest.whole whole]
        exact Nat.min_le_right _ _
      · have full : size ≤ found.length := of_decide_eq_true (stop.resolve_right whole)
        by_contra few
        apply free j
        rw [Crowded, ← pool]
        exact ⟨by omega, full, by omega⟩
  · have none : size = 0 := by omega
    have nothing : servable engine s collections order size = 0 := by rw [servable, none, Nat.zero_min]
    constructor
    · intro _ i crowded
      have few := crowded.2.2
      omega
    · intro _
      omega

/-- A leg that is asked for one document serves, however many vectors out of scope are nearer. -/
theorem crowd_leg_serves :
    LegServes sampleEngine (crowdedDisk.open true) "omega" 1 (some ["work"])
      (sampleOrder (crowdedDisk.open true).hnsw.inner "omega") := by
  apply (vector_leg_serves_iff sampleEngine (crowdedDisk.open true) 1 (some ["work"])
    (sampleEngine_nearest (crowdedDisk.open true).hnsw.inner "omega")).mpr
  intro i crowded
  obtain ⟨_, full, few⟩ := crowded
  have one : servable sampleEngine (crowdedDisk.open true) (some ["work"])
      (sampleOrder (crowdedDisk.open true).hnsw.inner "omega") 1 ≤ 1 := Nat.min_le_left _ _
  have some := List.length_pos_iff.mp full
  have none : hitFilepaths _ = [] := List.length_eq_zero_iff.mp (Nat.lt_one_iff.mp (Nat.lt_of_lt_of_le few one))
  rw [hitFilepaths, List.dedup_eq_nil, List.map_eq_nil_iff] at none
  exact some none

/-- A text cut at every character. -/
def finelyCut : Env String :=
  { sampleEnv with chunkDocumentForPath := fun _ text => text.toList.zipIdx.map fun (c, i) => ⟨c.toString, i⟩ }

/-- A note of one chunk, and one whose twenty chunks are all nearer to the query. -/
def lopsidedDisk : Disk String := (Disk.empty : Disk String).after finelyCut
  [(.add notesCollection ⟨[notesFile "a.md" (.ok (notesDoc "z")), notesFile "b.md" (.ok (notesDoc "xxxxxxxxxxxxxxxxxxxx"))],
      by decide⟩, []),
    (.embed gemma none false, [])]

def lopsidedEngine : Engine String Rat := { sampleEngine with toEnv := finelyCut }

theorem lopsidedEngine_nearest (vectors : Vectors String) (embedding : String) :
    NearestPrefixes lopsidedEngine vectors embedding id (sampleOrder vectors embedding) :=
  have nearest := sampleEngine_nearest vectors embedding
  ⟨fun _ => rfl, nearest.every, nearest.measured, nearest.falling⟩

/-- Twenty hits of one document are enough for the leg, though another document is in scope. -/
theorem leg_starves :
    NearestPrefixes lopsidedEngine (lopsidedDisk.open true).hnsw.inner "x" id (sampleOrder (lopsidedDisk.open true).hnsw.inner "x") ∧
      ¬ LegServes lopsidedEngine (lopsidedDisk.open true) "x" (fetchSize 1) none
        (sampleOrder (lopsidedDisk.open true).hnsw.inner "x") := by
  refine ⟨lopsidedEngine_nearest _ _, fun serves => ?_⟩
  obtain ⟨_, results, _, found, enough⟩ := serves
  have few : (searchVecScoped lopsidedEngine (lopsidedDisk.open true) "x" (fetchSize 1) none).toOption.map
      (fun results => (results.map RankedResult.filepath).dedup.length) = some 1 := by
    decide +kernel
  have two : servable lopsidedEngine (lopsidedDisk.open true) none (sampleOrder (lopsidedDisk.open true).hnsw.inner "x")
      (fetchSize 1) = 2 := by
    decide +kernel
  rw [found] at few
  have one : (results.map RankedResult.filepath).dedup.length = 1 := Option.some.inj few
  omega

end Rqmd
