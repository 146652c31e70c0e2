import Rqmd.QueryCache
import Rqmd.CacheRecency

/-! A cache that only ever holds what the models return cannot be told from the models: every row is the output
or the score of the model it names, whatever was evicted and whichever models took turns. -/

namespace Rqmd

variable {K V S : Type} [DecidableEq K] {digests : Digests K}

/-! ### What the models return -/

/-- The output and the scores of every model, by the version of the prompt and the identity of the model. -/
structure Models (S : Type) where
  generate : String → String → String → Except Failure String
  score : String → String → String → String → S

variable {models : Models S} {versions : PromptVersions} {backend : InferenceBackend S}

/-- A backend whose generator is deterministic and whose reranker scores each chunk on its own, without failing
or running out of time. -/
structure Reliable (models : Models S) (versions : PromptVersions) (backend : InferenceBackend S) : Prop where
  generator : ∀ model, modelIdentity backend.generateModel = some model →
    backend.generate = models.generate versions.expansion model
  scorer : ∃ score : String → String → S,
    (∀ query chunks, backend.rerank query chunks = .ok (chunks.map (score query)) ∧
      backend.rerankUntil query chunks = .ok (some (chunks.map (score query)))) ∧
    ∀ model, modelIdentity backend.rerankModel = some model → score = models.score versions.rerank model

/-- Every row holds what its model returns. -/
structure CacheFile.Truthful (models : Models S) (digests : Digests K) (file : CacheFile K S) : Prop where
  expansion : ∀ row ∈ file.expansion, ∀ prompt, row.key = digests.expansionKey prompt →
    models.generate row.promptVersion row.model prompt = .ok row.value
  rerank : ∀ row ∈ file.rerank, ∀ query chunk, row.key = digests.rerankKey query chunk →
    row.value = models.score row.promptVersion row.model query chunk

section Rows

variable {cache : ModelCache K S} {query model prompt output chunk : String} {score : S}

theorem truthful_evict {file : CacheFile K S} {maxRows : Nat} (truthful : file.Truthful models digests) :
    (file.evict maxRows).Truthful models digests where
  expansion row member := truthful.expansion row (mem_evict_expansion.mp member).1
  rerank row member := truthful.rerank row (mem_evict_rerank.mp member).1

theorem truthful_putExpansion (truthful : cache.conn.Truthful models digests)
    (own : models.generate versions.expansion model prompt = .ok output) :
    (putExpansion digests versions cache prompt model output).conn.Truthful models digests := by
  apply truthful_evict
  refine ⟨fun row member asked same => ?_, truthful.rerank⟩
  rcases mem_insertOrReplace.mp member with old | new
  · exact truthful.expansion row old.1 asked same
  · rw [new] at same ⊢
    have equal : prompt = asked := digests.expansionKey_inj same
    rw [← equal]
    exact own

theorem truthful_putRerankScores [Score S] {scored : List (String × S)} (truthful : cache.conn.Truthful models digests)
    (own : ∀ pair ∈ scored, pair.2 = models.score versions.rerank model query pair.1) :
    (putRerankScores digests versions cache query model scored).conn.Truthful models digests := by
  apply truthful_evict
  have finite : ∀ pair ∈ scored.filter (fun pair => Score.isFinite pair.2),
      pair.2 = models.score versions.rerank model query pair.1 := fun pair member => own pair (List.mem_filter.mp member).1
  refine ⟨truthful.expansion, ?_⟩
  simp only [storeRerankScores]
  generalize scored.filter (fun pair => Score.isFinite pair.2) = pairs at finite
  -- Each pair stored keeps the rows truthful.
  induction pairs using List.reverseRecOn with
  | nil => exact truthful.rerank
  | append_singleton pairs pair ih =>
    intro row member asked chunk same
    rw [List.foldl_append, List.foldl_cons, List.foldl_nil] at member
    rcases mem_insertOrReplace.mp member with old | new
    · exact ih (fun other inside => finite other (List.mem_append_left _ inside)) row old.1 asked chunk same
    · rw [new] at same ⊢
      obtain ⟨equal, equal'⟩ := digests.rerankKey_inj same
      rw [← equal, ← equal']
      exact finite pair (List.mem_append_right _ List.mem_cons_self)

theorem truthful_getExpansion (truthful : cache.conn.Truthful models digests)
    (got : getExpansion digests versions cache prompt model = some output) :
    models.generate versions.expansion model prompt = .ok output := by
  obtain ⟨row, found, same⟩ := Option.map_eq_some_iff.mp got
  obtain ⟨member, matching⟩ := Table.find?_some found
  simp only [Bool.and_eq_true, decide_eq_true_eq] at matching
  have own := truthful.expansion row member prompt matching.1.1
  rw [matching.1.2, matching.2, same] at own
  exact own

theorem truthful_getRerankScore (truthful : cache.conn.Truthful models digests)
    (got : getRerankScore digests versions cache query model chunk = some score) :
    score = models.score versions.rerank model query chunk := by
  obtain ⟨row, found, same⟩ := Option.map_eq_some_iff.mp got
  obtain ⟨member, matching⟩ := Table.find?_some found
  simp only [Bool.and_eq_true, decide_eq_true_eq] at matching
  have own := truthful.rerank row member query chunk matching.1.1
  rw [matching.1.2, matching.2, same] at own
  exact own

end Rows

/-! ### The hooks -/

variable {faults : CacheFaults} {qc : QueryCache K S} {observed soft : Bool} {query : String} {chunks : List String}

theorem truthful_tryPut {fault : Option CacheFault} {put : ModelCache K S → ModelCache K S}
    (truthful : qc.cache.conn.Truthful models digests) (kept : (put qc.cache).conn.Truthful models digests) :
    (tryPut qc fault put).cache.conn.Truthful models digests := by
  unfold tryPut
  by_cases on : qc.on = true
  · rw [if_pos on]
    cases fault with
    | none => exact kept
    | some fault =>
      cases fault with
      | busy => exact truthful
      | broken => exact truthful
  · rw [if_neg on]
    exact truthful

@[simp] theorem cacheFailed_cache (fault : CacheFault) : (cacheFailed qc fault).cache = qc.cache := by
  cases fault <;> rfl

theorem generateAndStore_spec {fault : Option CacheFault} {model prompt : String}
    (own : backend.generate = models.generate versions.expansion model) (truthful : qc.cache.conn.Truthful models digests) :
    (generateAndStore digests versions backend fault qc model prompt).1 = backend.generate prompt ∧
      (generateAndStore digests versions backend fault qc model prompt).2.cache.conn.Truthful models digests := by
  unfold generateAndStore
  cases generated : backend.generate prompt with
  | error failure => exact ⟨rfl, truthful⟩
  | ok output =>
    refine ⟨rfl, truthful_tryPut truthful (truthful_putExpansion truthful ?_)⟩
    rw [← own, generated]

theorem identity_of_on {on : Bool} {source : ModelSource} {model : String}
    (identity : (if on then modelIdentity source else none) = some model) : modelIdentity source = some model := by
  cases on with
  | true => exact identity
  | false => cases identity

/-- The expansion hook returns what the model returns and leaves a truthful cache. -/
theorem generateExpansion_spec (reliable : Reliable models versions backend) (truthful : qc.cache.conn.Truthful models digests)
    (prompt : String) : (generateExpansion digests versions backend faults qc prompt).1 = backend.generate prompt ∧
      (generateExpansion digests versions backend faults qc prompt).2.cache.conn.Truthful models digests := by
  unfold generateExpansion
  cases identity : (if qc.on then modelIdentity backend.generateModel else none) with
  | none => exact ⟨rfl, truthful⟩
  | some model =>
    have own := reliable.generator model (identity_of_on identity)
    dsimp only
    cases faults.get with
    | some fault =>
      apply generateAndStore_spec own
      rw [cacheFailed_cache]
      exact truthful
    | none =>
      dsimp only
      cases got : getExpansion digests versions qc.cache prompt model with
      | none => exact generateAndStore_spec own truthful
      | some output =>
        have output' := truthful_getExpansion truthful got
        refine ⟨?_, truthful_tryPut truthful (truthful_putExpansion truthful output')⟩
        rw [own, output']

theorem rerankPart_eq {score : String → String → S} (scores : ∀ query chunks,
      backend.rerank query chunks = .ok (chunks.map (score query)) ∧
        backend.rerankUntil query chunks = .ok (some (chunks.map (score query)))) (part : List String) :
    rerankPart backend soft query part = .ok (some (part.map (score query))) := by
  unfold rerankPart
  cases soft with
  | true => exact (scores query part).2
  | false =>
    rw [(scores query part).1]
    rfl

/-- In slices or at once, every chunk gets its own score. -/
theorem rerankCandidates_eq {score : String → String → S} (scores : ∀ query chunks,
      backend.rerank query chunks = .ok (chunks.map (score query)) ∧
        backend.rerankUntil query chunks = .ok (some (chunks.map (score query)))) :
    rerankCandidates backend observed soft query chunks = .ok (some (chunks.map (score query))) := by
  have inParts : ∀ parts : List (List String), rerankParts backend soft query parts =
      .ok (some (parts.flatten.map (score query))) := by
    intro parts
    induction parts with
    | nil => rfl
    | cons part rest ih =>
      rw [rerankParts, rerankPart_eq scores part]
      simp only [bind, Except.bind, ih, List.flatten_cons, List.map_append]
      rfl
  unfold rerankCandidates
  have positive : 0 < if observed = true then rerankProgressSlice else max chunks.length 1 := by
    cases observed with
    | true => exact (by decide : 0 < rerankProgressSlice)
    | false => exact Nat.lt_of_lt_of_le Nat.zero_lt_one (Nat.le_max_right _ _)
  dsimp only
  rw [inParts, flatten_slices positive _ _ (le_refl _)]

variable [Score S]

/-- Cached scores that are the model's own, filled up with the model's scores of the misses. -/
theorem fillScores_eq {score : String → S} {cached : String → Option S}
    (own : ∀ chunk value, cached chunk = some value → value = score chunk) (chunks : List String) :
    fillScores (chunks.map cached) ((missesOf chunks (chunks.map cached)).map score) = chunks.map score := by
  induction chunks with
  | nil => rfl
  | cons chunk rest ih =>
    cases hit : cached chunk with
    | none =>
      have misses : missesOf (chunk :: rest) ((chunk :: rest).map cached) = chunk :: missesOf rest (rest.map cached) := by
        simp [missesOf, hit]
      rw [misses, List.map_cons, List.map_cons, hit, fillScores, ih, List.map_cons]
    | some value =>
      have misses : missesOf (chunk :: rest) ((chunk :: rest).map cached) = missesOf rest (rest.map cached) := by
        simp [missesOf, hit]
      rw [misses, List.map_cons, hit, fillScores, ih, List.map_cons, own chunk value hit]

theorem rerankMisses_eq {score : String → String → S} (scores : ∀ query chunks,
      backend.rerank query chunks = .ok (chunks.map (score query)) ∧
        backend.rerankUntil query chunks = .ok (some (chunks.map (score query))))
    {cached : String → Option S} (own : ∀ chunk value, cached chunk = some value → value = score query chunk) :
    rerankMisses backend observed soft query chunks (chunks.map cached) = .ok (some (chunks.map (score query))) := by
  unfold rerankMisses
  dsimp only
  by_cases cold : (missesOf chunks (chunks.map cached)).length = chunks.length
  · rw [if_pos cold]
    exact rerankCandidates_eq scores
  · rw [if_neg cold]
    have fresh : freshScores backend observed soft query (missesOf chunks (chunks.map cached)) =
        .ok (some ((missesOf chunks (chunks.map cached)).map (score query))) := by
      unfold freshScores
      by_cases none : (missesOf chunks (chunks.map cached)).isEmpty = true
      · rw [if_pos none, List.isEmpty_iff.mp none]
        rfl
      · rw [if_neg none]
        exact rerankCandidates_eq scores
    rw [fresh]
    have full : ¬ ((missesOf chunks (chunks.map cached)).map (score query)).length ≠
        (missesOf chunks (chunks.map cached)).length := by simp
    simp only [bind, Except.bind]
    rw [if_neg full, fillScores_eq own]
    rfl

theorem rerankCandidatesCached_eq (reliable : Reliable models versions backend)
    (truthful : qc.cache.conn.Truthful models digests) :
    (rerankCandidatesCached digests versions backend observed soft faults qc query chunks).1 =
      rerankCandidates backend false soft query chunks := by
  obtain ⟨score, scores, identified⟩ := reliable.scorer
  rw [rerankCandidates_eq scores]
  unfold rerankCandidatesCached
  cases identity : rerankIdentity backend qc with
  | none => exact rerankCandidates_eq scores
  | some model =>
    have score' := identified model (identity_of_on identity)
    dsimp only
    cases faults.get with
    | none =>
      apply rerankMisses_eq scores
      intro chunk value hit
      rw [score']
      exact truthful_getRerankScore truthful hit
    | some fault =>
      have missed : ∀ chunk value, (fun _ : String => (none : Option S)) chunk = some value → value = score query chunk := by
        intro chunk value hit
        cases hit
      exact rerankMisses_eq scores missed

@[simp] theorem rerankCandidatesCached_cache :
    (rerankCandidatesCached digests versions backend observed soft faults qc query chunks).2.cache = qc.cache := by
  unfold rerankCandidatesCached
  cases rerankIdentity backend qc with
  | none => rfl
  | some model =>
    cases faults.get with
    | none => rfl
    | some fault => exact cacheFailed_cache fault

/-- Scores the model gave are stored as its own. -/
theorem rememberRerankScores_truthful (reliable : Reliable models versions backend) {scores : List S}
    (truthful : qc.cache.conn.Truthful models digests)
    (own : rerankCandidates backend false soft query chunks = .ok (some scores)) :
    (rememberRerankScores digests versions backend faults qc query chunks scores).cache.conn.Truthful models digests := by
  obtain ⟨score, all, identified⟩ := reliable.scorer
  unfold rememberRerankScores
  cases identity : rerankIdentity backend qc with
  | none => exact truthful
  | some model =>
    rw [rerankCandidates_eq all] at own
    have same : chunks.map (score query) = scores := Option.some.inj (Except.ok.inj own)
    refine truthful_tryPut truthful (truthful_putRerankScores truthful fun pair member => ?_)
    rw [← same, List.zip_map_right] at member
    obtain ⟨twice, inside, rfl⟩ := List.mem_map.mp member
    have pair := List.of_mem_zip inside
    have equal : twice.1 = twice.2 := by
      obtain ⟨i, place, at'⟩ := List.mem_iff_getElem.mp inside
      rw [← at']
      simp
    rw [← identified model (identity_of_on identity)]
    change score query twice.2 = score query twice.1
    rw [equal]

/-! ### Queries -/

variable {cache : ModelCache K S} {q : CachedQuery V S}

theorem expanded_truthful {S : Type} {models : Models S} {cache : ModelCache K S} {q : CachedQuery V S}
    (reliable : Reliable models q.versions q.backend) (truthful : cache.conn.Truthful models digests) :
    (q.expanded digests cache).cache.conn.Truthful models digests := by
  unfold CachedQuery.expanded
  cases q.prompt with
  | none => exact truthful
  | some prompt => exact (generateExpansion_spec reliable truthful prompt).2

/-- The engine of a query with the cache is its engine without. -/
theorem cachedEngine_eq (reliable : Reliable models q.versions q.backend) (truthful : cache.conn.Truthful models digests) :
    q.cachedEngine digests cache = plainEngine q.engine q.backend false q.soft := by
  have expansion : (fun prompt => (generateExpansion digests q.versions q.backend q.generating (q.opened cache) prompt).1) =
      q.backend.generate := by
    funext prompt
    exact (generateExpansion_spec reliable truthful prompt).1
  have rerank : (fun query chunks => (rerankCandidatesCached digests q.versions q.backend q.observed q.soft q.reranking
      (q.expanded digests cache) query chunks).1) = rerankCandidates q.backend false q.soft := by
    funext query chunks
    exact rerankCandidatesCached_eq reliable (expanded_truthful reliable truthful)
  unfold CachedQuery.cachedEngine hookedEngine plainEngine
  rw [expansion, rerank]

theorem after_truthful (reliable : Reliable models q.versions q.backend) (truthful : cache.conn.Truthful models digests) :
    (q.after digests cache).conn.Truthful models digests := by
  have expanded := expanded_truthful reliable truthful
  unfold CachedQuery.after
  cases q.rerank with
  | none => exact expanded
  | some asked =>
    obtain ⟨query, chunks⟩ := asked
    dsimp only
    rw [cachedEngine_eq reliable truthful]
    cases reranked : (rerankSections (plainEngine q.engine q.backend false q.soft) query chunks q.skipRerank).1 with
    | none => exact expanded
    | some scores =>
      apply rememberRerankScores_truthful reliable
      · rw [rerankCandidatesCached_cache]
        exact expanded
      · -- Only scores of a rerank that succeeded come back.
        unfold rerankSections at reranked
        split at reranked
        · cases reranked
        · split at reranked
          · cases reranked
          · split at reranked
            · next found same =>
              split at reranked
              · exact same.trans (congrArg Except.ok reranked)
              · cases reranked
            · cases reranked
            · cases reranked

def runQueries (digests : Digests K) (maxRows : Nat) (queries : List (CachedQuery V S)) : ModelCache K S :=
  queries.foldl (fun cache q => q.after digests cache) (.open K S maxRows)

theorem runQueries_truthful {maxRows : Nat} {queries : List (CachedQuery V S)}
    (reliable : ∀ q ∈ queries, Reliable models q.versions q.backend) :
    (runQueries digests maxRows queries).conn.Truthful models digests := by
  induction queries using List.reverseRecOn with
  | nil => exact ⟨fun row member => (Table.not_mem_empty row member).elim, fun row member => (Table.not_mem_empty row member).elim⟩
  | append_singleton earlier q ih =>
    unfold runQueries
    rw [List.foldl_append, List.foldl_cons, List.foldl_nil]
    exact after_truthful (reliable q (List.mem_append_right _ List.mem_cons_self))
      (ih fun other member => reliable other (List.mem_append_left _ member))

/-- After any queries, with the cache or without: the same expansion, the same rerank scores in passage order,
the same rerank status and the same outcome. -/
theorem cache_is_transparent (digests : Digests K) (models : Models S) (maxRows : Nat) (queries : List (CachedQuery V S))
    (q : CachedQuery V S) (reliable : ∀ r ∈ q :: queries, Reliable models r.versions r.backend) :
    let cached := q.cachedEngine digests (runQueries digests maxRows queries)
    let plain := plainEngine q.engine q.backend false q.soft
    (∀ prompt, cached.generateExpansion prompt = plain.generateExpansion prompt) ∧
      (∀ query chunks skipRerank, rerankSections cached query chunks skipRerank = rerankSections plain query chunks skipRerank) ∧
      ∀ (s : Store V) query intent limit requested options,
        hybridQueryOutcomeWith cached s query intent limit requested options =
          hybridQueryOutcomeWith plain s query intent limit requested options := by
  dsimp only
  have truthful : (runQueries digests maxRows queries).conn.Truthful models digests :=
    runQueries_truthful fun r member => reliable r (List.mem_cons_of_mem _ member)
  rw [cachedEngine_eq (reliable q List.mem_cons_self) truthful]
  exact ⟨fun _ => rfl, fun _ _ _ => rfl, fun _ _ _ _ _ _ => rfl⟩

/-- A backend whose models repeat the prompt and score a chunk by its length. -/
def echoBackend (name : String) : InferenceBackend Rat where
  generateModel := ⟨name, none⟩
  generate prompt := .ok (name ++ prompt)
  canRerank := true
  rerankModel := ⟨name, none⟩
  rerank _ chunks := .ok (chunks.map fun chunk => chunk.length)
  rerankUntil _ chunks := .ok (some (chunks.map fun chunk => chunk.length))

def echoQuery (name prompt : String) (chunks : List String) : CachedQuery String Rat where
  engine := sampleEngine
  versions := ⟨"1", "1"⟩
  backend := echoBackend name
  cacheOn := true
  maxRows := 2
  observed := true
  soft := false
  generating := ⟨none, none⟩
  reranking := ⟨none, none⟩
  prompt := some prompt
  rerank := some (prompt, chunks)
  skipRerank := false

theorem echo_reliable (name prompt : String) (chunks : List String) :
    Reliable ⟨fun _ model prompt => .ok (model ++ prompt), fun _ _ _ chunk => (chunk.length : Rat)⟩
      (echoQuery name prompt chunks).versions (echoQuery name prompt chunks).backend where
  generator model known := by
    have same : name = model := Option.some.inj known
    rw [← same]
    rfl
  scorer := ⟨fun _ chunk => chunk.length, fun _ _ => ⟨rfl, rfl⟩, fun _ _ => rfl⟩

/-- A query after one with another model and one that evicted its rows. -/
theorem echo_query_is_transparent :
    let q := echoQuery "gen-a" "p" ["one", "two", "one"]
    let cached := q.cachedEngine plainDigests
      (runQueries plainDigests 2 [echoQuery "gen-a" "p" ["one"], echoQuery "gen-b" "p" ["one", "two"]])
    let plain := plainEngine q.engine q.backend false q.soft
    (∀ prompt, cached.generateExpansion prompt = plain.generateExpansion prompt) ∧
      (∀ query chunks skipRerank, rerankSections cached query chunks skipRerank = rerankSections plain query chunks skipRerank) ∧
      ∀ (s : Store String) query intent limit requested options,
        hybridQueryOutcomeWith cached s query intent limit requested options =
          hybridQueryOutcomeWith plain s query intent limit requested options :=
  cache_is_transparent plainDigests ⟨fun _ model prompt => .ok (model ++ prompt), fun _ _ _ chunk => (chunk.length : Rat)⟩ 2
    [echoQuery "gen-a" "p" ["one"], echoQuery "gen-b" "p" ["one", "two"]] (echoQuery "gen-a" "p" ["one", "two", "one"])
    fun r member => by
      simp only [List.mem_cons, List.not_mem_nil, or_false] at member
      rcases member with same | same | same
      · exact same ▸ echo_reliable "gen-a" "p" ["one", "two", "one"]
      · exact same ▸ echo_reliable "gen-a" "p" ["one"]
      · exact same ▸ echo_reliable "gen-b" "p" ["one", "two"]

end Rqmd
