import Rqmd.ModelCache

/-! The query cache over sequences of puts and gets. The view of a cache file, by prompt or by query and
chunk, agrees with the history of the puts, and eviction follows it across both tables. -/

namespace Rqmd
open Recency

variable {K S : Type} [DecidableEq K] {digests : Digests K} {file : CacheFile K S} {cache : ModelCache K S}

/-! ### Views -/

/-- What a row of either table is stored for. -/
inductive CacheSlot where
  | expansion (prompt : String)
  | rerank (query chunk : String)
deriving DecidableEq

inductive CachedValue (S : Type) where
  | output (text : String)
  | score (score : S)

structure CacheEntry (S : Type) where
  model : String
  promptVersion : String
  value : CachedValue S

def rowAt {ν : Type} (t : Table (CacheRow K ν)) (key : K) : Option (CacheRow K ν) := t.find? fun row => row.key = key

def CacheFile.view (digests : Digests K) (file : CacheFile K S) : CacheSlot → Option (Nat × CacheEntry S)
  | .expansion prompt => (rowAt file.expansion (digests.expansionKey prompt)).map fun row =>
      (row.lastUsed, ⟨row.model, row.promptVersion, .output row.value⟩)
  | .rerank query chunk => (rowAt file.rerank (digests.rerankKey query chunk)).map fun row =>
      (row.lastUsed, ⟨row.model, row.promptVersion, .score row.value⟩)

section Rows

variable {ν : Type} {t : Table (CacheRow K ν)} {key k : K} {row : CacheRow K ν} {p : CacheRow K ν → Bool}

theorem rowAt_some : rowAt t key = some row ↔ row ∈ t ∧ row.key = key := by
  constructor
  · intro found
    have held := Table.find?_some found
    exact ⟨held.1, of_decide_eq_true held.2⟩
  · intro held
    exact Table.find?_eq_some (fun a b left right => Or.inl ((of_decide_eq_true left).trans (of_decide_eq_true right).symm))
      held.1 (decide_eq_true held.2)

theorem rowAt_none : rowAt t key = none ↔ ∀ row ∈ t, row.key ≠ key := by
  unfold rowAt Table.find?
  rw [List.find?_eq_none]
  simp

theorem rowAt_insertOrReplace {model promptVersion : String} {value : ν} {tick : Nat} :
    rowAt (insertOrReplace t key model promptVersion value tick) k =
      if key = k then some ⟨maxOf t CacheRow.rowid + 1, key, model, promptVersion, value, tick⟩ else rowAt t k := by
  by_cases same : key = k
  · rw [if_pos same, rowAt_some, mem_insertOrReplace]
    exact ⟨.inr rfl, same⟩
  · rw [if_neg same]
    cases found : rowAt t k with
    | none =>
      rw [rowAt_none] at found ⊢
      intro row member
      rcases mem_insertOrReplace.mp member with old | new
      · exact found row old.1
      · rw [new]
        exact same
    | some row =>
      rw [rowAt_some] at found ⊢
      have other : row.key ≠ key := fun equal => same (equal.symm.trans found.2)
      exact ⟨mem_insertOrReplace.mpr (.inl ⟨found.1, other⟩), found.2⟩

/-- A lookup that fixes the key reads the row of that key. -/
theorem find?_keyed (keyed : ∀ row, p row → row.key = key) : t.find? p = some row ↔ rowAt t key = some row ∧ p row := by
  constructor
  · intro found
    have held := Table.find?_some found
    exact ⟨rowAt_some.mpr ⟨held.1, keyed row held.2⟩, held.2⟩
  · intro held
    exact Table.find?_eq_some (fun a b left right => Or.inl ((keyed a left).trans (keyed b right).symm))
      (rowAt_some.mp held.1).1 held.2

end Rows

theorem lt_nextTick_expansion {row : CacheRow K String} (member : row ∈ file.expansion) : row.lastUsed < file.nextTick := by
  have : row.lastUsed ≤ maxOf _ CacheRow.lastUsed := le_maxOf member
  unfold CacheFile.nextTick
  omega

theorem lt_nextTick_rerank {row : CacheRow K S} (member : row ∈ file.rerank) : row.lastUsed < file.nextTick := by
  have : row.lastUsed ≤ maxOf _ CacheRow.lastUsed := le_maxOf member
  unfold CacheFile.nextTick
  omega

theorem view_expansion {prompt : String} {tick : Nat} {entry : CacheEntry S}
    (held : file.view digests (.expansion prompt) = some (tick, entry)) :
    ∃ row ∈ file.expansion, row.key = digests.expansionKey prompt ∧ row.lastUsed = tick := by
  obtain ⟨row, found, same⟩ := Option.map_eq_some_iff.mp held
  have inside := rowAt_some.mp found
  exact ⟨row, inside.1, inside.2, congrArg Prod.fst same⟩

theorem view_rerank {query chunk : String} {tick : Nat} {entry : CacheEntry S}
    (held : file.view digests (.rerank query chunk) = some (tick, entry)) :
    ∃ row ∈ file.rerank, row.key = digests.rerankKey query chunk ∧ row.lastUsed = tick := by
  obtain ⟨row, found, same⟩ := Option.map_eq_some_iff.mp held
  have inside := rowAt_some.mp found
  exact ⟨row, inside.1, inside.2, congrArg Prod.fst same⟩

theorem view_lt_nextTick {slot : CacheSlot} {tick : Nat} {entry : CacheEntry S}
    (held : file.view digests slot = some (tick, entry)) : tick < file.nextTick := by
  cases slot with
  | expansion prompt =>
    obtain ⟨row, member, -, same⟩ := view_expansion held
    exact same ▸ lt_nextTick_expansion member
  | rerank query chunk =>
    obtain ⟨row, member, -, same⟩ := view_rerank held
    exact same ▸ lt_nextTick_rerank member

/-! ### What an eviction leaves -/

section Evicted

variable {ν : Type} {t : Table (CacheRow K ν)} {table : Nat} {gone : List Stamp} {row : CacheRow K ν}

theorem mem_deleteVictims (inside : ∀ victim ∈ gone, victim.table = table → ∃ row ∈ t, row.stamp table = victim) :
    row ∈ deleteVictims t table gone ↔ row ∈ t ∧ row.stamp table ∉ gone := by
  simp only [deleteVictims, Table.mem_deleteWhere, List.any_eq_true, Bool.and_eq_true, decide_eq_true_eq, not_exists,
    not_and]
  constructor
  · intro kept
    exact ⟨kept.1, fun victim => kept.2 _ victim rfl rfl⟩
  · intro kept
    refine ⟨kept.1, fun victim member same number => kept.2 ?_⟩
    obtain ⟨other, place, stamp⟩ := inside victim member same
    have rowid : other.rowid = row.rowid := by
      rw [← number, ← stamp]
      rfl
    have equal : other = row := Table.eq_of_clash place kept.1 (Or.inr rowid)
    rw [← equal, stamp]
    exact member

theorem stamps_deleteVictims (inside : ∀ victim ∈ gone, victim.table = table → ∃ row ∈ t, row.stamp table = victim) :
    (deleteVictims t table gone).rows.map (CacheRow.stamp table) =
      (t.rows.map (CacheRow.stamp table)).filter fun stamp => stamp ∉ gone := by
  rw [List.filter_map]
  apply congrArg
  apply List.filter_congr
  intro row member
  have left : row ∈ deleteVictims t table gone ↔ row ∈ t ∧ row.stamp table ∉ gone := mem_deleteVictims inside
  have here : row ∈ t := member
  simp only [deleteVictims, Table.mem_deleteWhere, here, true_and] at left
  by_cases victim : row.stamp table ∈ gone
  · simp_all
  · simp_all

end Evicted

theorem nodup_stamps (file : CacheFile K S) : file.stamps.Nodup := by
  have each : ∀ {ν : Type} (t : Table (CacheRow K ν)) (table : Nat), (t.rows.map (CacheRow.stamp table)).Nodup := by
    intro ν t table
    unfold List.Nodup
    rw [List.pairwise_map]
    exact t.apart.imp fun safe same => safe (Or.inr (congrArg Stamp.rowid same))
  unfold CacheFile.stamps
  refine List.nodup_append.mpr ⟨each _ 0, each _ 1, fun a left b right same => ?_⟩
  obtain ⟨_, -, rfl⟩ := List.mem_map.mp left
  obtain ⟨_, -, rfl⟩ := List.mem_map.mp right
  exact Nat.zero_ne_one (congrArg Stamp.table same)

theorem length_stamps (file : CacheFile K S) : file.stamps.length = file.countRows := by
  simp [CacheFile.stamps, CacheFile.countRows]

/-- The rows an eviction takes. -/
def CacheFile.evicted (file : CacheFile K S) (maxRows : Nat) : List Stamp :=
  victims Stamp.before (file.countRows - maxRows) file.stamps

theorem evicted_expansion {maxRows : Nat} : ∀ victim ∈ file.evicted maxRows, victim.table = 0 →
    ∃ row ∈ file.expansion, row.stamp 0 = victim := by
  intro victim member first
  rcases List.mem_append.mp (mem_of_mem_victims _ member) with here | there
  · exact List.mem_map.mp here
  · obtain ⟨row, -, rfl⟩ := List.mem_map.mp there
    exact (Nat.one_ne_zero first).elim

theorem evicted_rerank {maxRows : Nat} : ∀ victim ∈ file.evicted maxRows, victim.table = 1 →
    ∃ row ∈ file.rerank, row.stamp 1 = victim := by
  intro victim member second
  rcases List.mem_append.mp (mem_of_mem_victims _ member) with there | here
  · obtain ⟨row, -, rfl⟩ := List.mem_map.mp there
    exact (Nat.zero_ne_one second).elim
  · exact List.mem_map.mp here

theorem evict_eq (file : CacheFile K S) (maxRows : Nat) : file.evict maxRows =
    ⟨deleteVictims file.expansion 0 (file.evicted maxRows), deleteVictims file.rerank 1 (file.evicted maxRows)⟩ := by
  unfold CacheFile.evict
  by_cases none : file.countRows - maxRows = 0
  · have nobody : file.evicted maxRows = [] := by
      rw [CacheFile.evicted, none]
      rfl
    rw [if_pos none, nobody]
    simp [deleteVictims, Table.deleteWhere]
  · rw [if_neg none]
    rfl

theorem mem_evict_expansion {maxRows : Nat} {row : CacheRow K String} :
    row ∈ (file.evict maxRows).expansion ↔ row ∈ file.expansion ∧ row.stamp 0 ∉ file.evicted maxRows := by
  rw [evict_eq]
  exact mem_deleteVictims evicted_expansion

theorem mem_evict_rerank {maxRows : Nat} {row : CacheRow K S} :
    row ∈ (file.evict maxRows).rerank ↔ row ∈ file.rerank ∧ row.stamp 1 ∉ file.evicted maxRows := by
  rw [evict_eq]
  exact mem_deleteVictims evicted_rerank

/-- Exactly the excess goes. -/
theorem countRows_evict (file : CacheFile K S) (maxRows : Nat) :
    (file.evict maxRows).countRows = file.countRows - (file.countRows - maxRows) := by
  have left : (file.evict maxRows).stamps = survivors Stamp.before (file.countRows - maxRows) file.stamps := by
    rw [evict_eq]
    unfold survivors CacheFile.stamps
    rw [List.filter_append]
    exact congrArg₂ _ (stamps_deleteVictims evicted_expansion) (stamps_deleteVictims evicted_rerank)
  rw [← length_stamps, left, length_survivors _ (nodup_stamps file), length_stamps]

/-- The stamp of the row a slot has. -/
theorem view_stamp {slot : CacheSlot} {tick : Nat} {entry : CacheEntry S}
    (held : file.view digests slot = some (tick, entry)) : ∃ stamp ∈ file.stamps, stamp.lastUsed = tick ∧
      ∀ maxRows, (file.evict maxRows).view digests slot = if stamp ∈ file.evicted maxRows then none else some (tick, entry) := by
  have keeps : ∀ {ν : Type} {t u : Table (CacheRow K ν)} {key : K} {row : CacheRow K ν} {victim : Prop} [Decidable victim],
      (∀ r, r ∈ u → r ∈ t) → (row ∈ u ↔ row ∈ t ∧ ¬ victim) → rowAt t key = some row →
        rowAt u key = if victim then none else some row := by
    intro ν t u key row victim _ fewer kept found
    have here := rowAt_some.mp found
    by_cases gone : victim
    · rw [if_pos gone, rowAt_none]
      intro other member same
      have equal : other = row := Table.eq_of_clash (fewer other member) here.1 (Or.inl (same.trans here.2.symm))
      exact (kept.mp (equal ▸ member)).2 gone
    · rw [if_neg gone, rowAt_some]
      exact ⟨kept.mpr ⟨here.1, gone⟩, here.2⟩
  cases slot with
  | expansion prompt =>
    obtain ⟨row, found, same⟩ := Option.map_eq_some_iff.mp held
    have here := (rowAt_some.mp found).1
    refine ⟨row.stamp 0, List.mem_append_left _ (List.mem_map_of_mem here), congrArg Prod.fst same, fun maxRows => ?_⟩
    have left := keeps (fun r member => (mem_evict_expansion.mp member).1) (@mem_evict_expansion _ _ _ file maxRows _) found
    rw [CacheFile.view, left, ← same]
    by_cases gone : row.stamp 0 ∈ file.evicted maxRows
    · simp [gone]
    · simp [gone]
  | rerank query chunk =>
    obtain ⟨row, found, same⟩ := Option.map_eq_some_iff.mp held
    have here := (rowAt_some.mp found).1
    refine ⟨row.stamp 1, List.mem_append_right _ (List.mem_map_of_mem here), congrArg Prod.fst same, fun maxRows => ?_⟩
    have left := keeps (fun r member => (mem_evict_rerank.mp member).1) (@mem_evict_rerank _ _ _ file maxRows _) found
    rw [CacheFile.view, left, ← same]
    by_cases gone : row.stamp 1 ∈ file.evicted maxRows
    · simp [gone]
    · simp [gone]

theorem view_evict {maxRows : Nat} {slot : CacheSlot} {held : Nat × CacheEntry S}
    (left : (file.evict maxRows).view digests slot = some held) : file.view digests slot = some held := by
  cases before : file.view digests slot with
  | some held' =>
    obtain ⟨stamp, -, -, after⟩ := view_stamp before
    rw [after maxRows] at left
    by_cases gone : stamp ∈ file.evicted maxRows
    · rw [if_pos gone] at left
      cases left
    · rw [if_neg gone] at left
      exact left
  | none =>
    cases slot with
    | expansion prompt =>
      obtain ⟨row, member, same, -⟩ := view_expansion left
      have absent := rowAt_none.mp (Option.map_eq_none_iff.mp before)
      exact (absent row (mem_evict_expansion.mp member).1 same).elim
    | rerank query chunk =>
      obtain ⟨row, member, same, -⟩ := view_rerank left
      have absent := rowAt_none.mp (Option.map_eq_none_iff.mp before)
      exact (absent row (mem_evict_rerank.mp member).1 same).elim

/-- Of two slots, one evicted and one kept, the evicted one has the tick that is not later. -/
theorem tick_le_of_evicted {maxRows : Nat} {a b : CacheSlot} {s t : Nat} {x y : CacheEntry S}
    (first : file.view digests a = some (s, x)) (gone : (file.evict maxRows).view digests a = none)
    (kept : (file.evict maxRows).view digests b = some (t, y)) : s ≤ t := by
  obtain ⟨old, member, tick, left⟩ := view_stamp first
  obtain ⟨new, member', tick', left'⟩ := view_stamp (view_evict kept)
  rw [left maxRows] at gone
  rw [left' maxRows] at kept
  have victim : old ∈ file.evicted maxRows := by
    by_contra stays
    rw [if_neg stays] at gone
    cases gone
  have stays : new ∉ file.evicted maxRows := by
    intro victim'
    rw [if_pos victim'] at kept
    cases kept
  have order : Stamp.before old new := victim_before Stamp.before victim member' stays
  unfold Stamp.before at order
  omega

/-- A row later than every other one survives, if any row may. -/
theorem view_newest {maxRows : Nat} (room : 1 ≤ maxRows) {slot : CacheSlot} {tick : Nat} {entry : CacheEntry S}
    (held : file.view digests slot = some (tick, entry))
    (newest : ∀ a ∈ file.stamps, ∀ b ∈ file.stamps, a.lastUsed = tick → tick ≤ b.lastUsed → b = a) :
    (file.evict maxRows).view digests slot = some (tick, entry) := by
  obtain ⟨stamp, member, same, left⟩ := view_stamp held
  rw [left maxRows]
  apply if_neg
  have some : 0 < file.stamps.length := List.length_pos_of_mem member
  refine newest_kept Stamp.before (nodup_stamps file) (by rw [length_stamps] at some ⊢; omega) fun other place order => ?_
  refine newest stamp member other place same ?_
  unfold Stamp.before at order
  omega

theorem getExpansion_eq_some {versions : PromptVersions} {prompt model output : String} :
    getExpansion digests versions cache prompt model = some output ↔ ∃ tick,
      cache.conn.view digests (.expansion prompt) = some (tick, ⟨model, versions.expansion, .output output⟩) := by
  have keyed : ∀ row : CacheRow K String, (row.key = digests.expansionKey prompt && row.model = model &&
      row.promptVersion = versions.expansion) = true → row.key = digests.expansionKey prompt := by
    intro row matching
    simp only [Bool.and_eq_true, decide_eq_true_eq] at matching
    exact matching.1.1
  simp only [getExpansion, CacheFile.view, Option.map_eq_some_iff, find?_keyed keyed]
  constructor
  · rintro ⟨row, ⟨found, matching⟩, same⟩
    simp only [Bool.and_eq_true, decide_eq_true_eq] at matching
    exact ⟨row.lastUsed, row, found, by rw [matching.1.2, matching.2, same]⟩
  · rintro ⟨tick, row, found, same⟩
    simp only [Prod.mk.injEq, CacheEntry.mk.injEq, CachedValue.output.injEq] at same
    exact ⟨row, ⟨found, by simp [(rowAt_some.mp found).2, same.2.1, same.2.2.1]⟩, same.2.2.2⟩

theorem getRerankScore_eq_some {versions : PromptVersions} {query model chunk : String} {score : S} :
    getRerankScore digests versions cache query model chunk = some score ↔ ∃ tick,
      cache.conn.view digests (.rerank query chunk) = some (tick, ⟨model, versions.rerank, .score score⟩) := by
  have keyed : ∀ row : CacheRow K S, (row.key = digests.rerankKey query chunk && row.model = model &&
      row.promptVersion = versions.rerank) = true → row.key = digests.rerankKey query chunk := by
    intro row matching
    simp only [Bool.and_eq_true, decide_eq_true_eq] at matching
    exact matching.1.1
  simp only [getRerankScore, CacheFile.view, Option.map_eq_some_iff, find?_keyed keyed]
  constructor
  · rintro ⟨row, ⟨found, matching⟩, same⟩
    simp only [Bool.and_eq_true, decide_eq_true_eq] at matching
    exact ⟨row.lastUsed, row, found, by rw [matching.1.2, matching.2, same]⟩
  · rintro ⟨tick, row, found, same⟩
    simp only [Prod.mk.injEq, CacheEntry.mk.injEq, CachedValue.score.injEq] at same
    exact ⟨row, ⟨found, by simp [(rowAt_some.mp found).2, same.2.1, same.2.2.1]⟩, same.2.2.2⟩

/-! ### Operations -/

variable [Score S]

inductive CacheOp (S : Type) where
  | putExpansion (versions : PromptVersions) (prompt model output : String)
  | putRerankScores (versions : PromptVersions) (query model : String) (scored : List (String × S))
  | getExpansion (versions : PromptVersions) (prompt model : String)
  | getRerankScores (versions : PromptVersions) (query model : String) (chunks : List String)

namespace CacheOp

def isPut {S : Type} : CacheOp S → Bool
  | putExpansion .. => true
  | putRerankScores .. => true
  | _ => false

/-- The rows the operation writes. Scores that are not finite are left out. -/
def writes : CacheOp S → List (CacheSlot × CacheEntry S)
  | putExpansion versions prompt model output =>
      [(.expansion prompt, ⟨model, versions.expansion, .output output⟩)]
  | putRerankScores versions query model scored =>
      (scored.filter fun pair => Score.isFinite pair.2).map fun pair =>
        (.rerank query pair.1, ⟨model, versions.rerank, .score pair.2⟩)
  | _ => []

/-- The file when the operation has written and not yet evicted. -/
def staged (digests : Digests K) (cache : ModelCache K S) : CacheOp S → CacheFile K S
  | putExpansion versions prompt model output => storeExpansion digests versions cache prompt model output
  | putRerankScores versions query model scored => storeRerankScores digests versions cache query model scored
  | _ => cache.conn

def after (digests : Digests K) (cache : ModelCache K S) : CacheOp S → ModelCache K S
  | putExpansion versions prompt model output => Rqmd.putExpansion digests versions cache prompt model output
  | putRerankScores versions query model scored => Rqmd.putRerankScores digests versions cache query model scored
  | _ => cache

end CacheOp

def runCache (digests : Digests K) (cache : ModelCache K S) (ops : List (CacheOp S)) : ModelCache K S :=
  ops.foldl (fun cache op => op.after digests cache) cache

theorem runCache_concat (ops : List (CacheOp S)) (op : CacheOp S) :
    runCache digests cache (ops ++ [op]) = op.after digests (runCache digests cache ops) := by
  simp [runCache]

theorem view_storeExpansion {versions : PromptVersions} {prompt model output : String} (slot : CacheSlot) :
    (storeExpansion digests versions cache prompt model output).view digests slot =
      ((lastOf slot (CacheOp.putExpansion versions prompt model output : CacheOp S).writes).map
        (Prod.mk cache.conn.nextTick)).or (cache.conn.view digests slot) := by
  cases slot with
  | expansion other =>
    have asked : digests.expansionKey prompt = digests.expansionKey other ↔ prompt = other :=
      ⟨digests.expansionKey_inj, congrArg _⟩
    by_cases same : prompt = other
    · simp [storeExpansion, CacheFile.view, rowAt_insertOrReplace, CacheOp.writes, lastOf, same]
    · simp [storeExpansion, CacheFile.view, rowAt_insertOrReplace, CacheOp.writes, lastOf, asked, same]
  | rerank query chunk => simp [storeExpansion, CacheFile.view, CacheOp.writes, lastOf]

theorem view_storeRerankScores {versions : PromptVersions} {query model : String} {scored : List (String × S)} (slot : CacheSlot) :
    (storeRerankScores digests versions cache query model scored).view digests slot =
      ((lastOf slot (CacheOp.putRerankScores versions query model scored).writes).map
        (Prod.mk cache.conn.nextTick)).or (cache.conn.view digests slot) := by
  simp only [storeRerankScores, CacheOp.writes]
  induction scored.filter (fun pair => Score.isFinite pair.2) using List.reverseRecOn with
  | nil => simp
  | append_singleton pairs pair ih =>
    rw [List.map_append, List.map_singleton, lastOf_concat, List.foldl_append, List.foldl_cons, List.foldl_nil]
    cases slot with
    | expansion prompt => simpa [CacheFile.view] using ih
    | rerank asked chunk =>
      have key : digests.rerankKey query pair.1 = digests.rerankKey asked chunk ↔ query = asked ∧ pair.1 = chunk := by
        constructor
        · exact digests.rerankKey_inj
        · intro same
          rw [same.1, same.2]
      by_cases same : query = asked ∧ pair.1 = chunk
      · simp [CacheFile.view, rowAt_insertOrReplace, same]
      · simpa [CacheFile.view, rowAt_insertOrReplace, key, same] using ih

theorem view_staged (op : CacheOp S) (slot : CacheSlot) : (op.staged digests cache).view digests slot =
    ((lastOf slot op.writes).map (Prod.mk cache.conn.nextTick)).or (cache.conn.view digests slot) := by
  cases op with
  | putExpansion versions prompt model output => exact view_storeExpansion slot
  | putRerankScores versions query model scored => exact view_storeRerankScores slot
  | getExpansion versions prompt model => rfl
  | getRerankScores versions query model chunks => rfl

theorem after_conn (op : CacheOp S) (put : op.isPut = true) :
    (op.after digests cache).conn = (op.staged digests cache).evict cache.maxRows := by
  cases op with
  | putExpansion versions prompt model output => rfl
  | putRerankScores versions query model scored => rfl
  | getExpansion versions prompt model => cases put
  | getRerankScores versions query model chunks => cases put

theorem after_get (op : CacheOp S) (get : op.isPut = false) : op.after digests cache = cache ∧ op.writes = [] := by
  cases op with
  | putExpansion versions prompt model output => cases get
  | putRerankScores versions query model scored => cases get
  | getExpansion versions prompt model => exact ⟨rfl, rfl⟩
  | getRerankScores versions query model chunks => exact ⟨rfl, rfl⟩

@[simp] theorem after_maxRows (op : CacheOp S) : (op.after digests cache).maxRows = cache.maxRows := by
  cases op <;> rfl

/-! ### Runs -/

variable {history : List (List (CacheSlot × CacheEntry S))}

theorem tracks_staged (tracks : Tracks (cache.conn.view digests) history) (op : CacheOp S) :
    Tracks ((op.staged digests cache).view digests) (history ++ [op.writes]) :=
  tracks.write (fun _ _ _ => view_lt_nextTick) (view_staged op)

/-- One operation. -/
theorem tracks_after (tracks : Tracks (cache.conn.view digests) history) (op : CacheOp S) :
    Tracks ((op.after digests cache).conn.view digests) (history ++ [op.writes]) := by
  cases put : op.isPut with
  | true =>
    rw [after_conn op put]
    exact (tracks_staged tracks op).shrink fun _ _ => view_evict
  | false =>
    have got : op.after digests cache = cache ∧ op.writes = [] := after_get op put
    rw [got.1, got.2]
    exact tracks.idle

theorem tracks_run (maxRows : Nat) (ops : List (CacheOp S)) :
    Tracks ((runCache digests (.open K S maxRows) ops).conn.view digests) (ops.map CacheOp.writes) := by
  induction ops using List.reverseRecOn with
  | nil =>
    have empty : (ModelCache.open K S maxRows).conn.view digests = fun _ => none := by
      funext slot
      cases slot <;> rfl
    change Tracks ((ModelCache.open K S maxRows).conn.view digests) _
    rw [empty]
    exact .nothing
  | append_singleton ops op ih =>
    rw [runCache_concat, List.map_append, List.map_singleton]
    exact tracks_after ih op

theorem maxRows_run (maxRows : Nat) (ops : List (CacheOp S)) :
    (runCache digests (.open K S maxRows) ops).maxRows = maxRows := by
  induction ops using List.reverseRecOn with
  | nil => rfl
  | append_singleton ops op ih => rw [runCache_concat, after_maxRows, ih]

/-- A run without its gets. -/
theorem run_puts (ops : List (CacheOp S)) : runCache digests cache ops = runCache digests cache (ops.filter CacheOp.isPut) := by
  induction ops using List.reverseRecOn with
  | nil => rfl
  | append_singleton ops op ih =>
    rw [runCache_concat, List.filter_append]
    cases put : op.isPut with
    | true =>
      have alone : [op].filter CacheOp.isPut = [op] := by simp [put]
      rw [alone, runCache_concat, ih]
    | false =>
      have alone : [op].filter CacheOp.isPut = [] := by simp [put]
      rw [alone, List.append_nil, (after_get op put).1, ih]

/-- A row written alone under the next tick survives the eviction that follows. -/
theorem view_alone {S : Type} {file staged : CacheFile K S} {maxRows : Nat} (room : 1 ≤ maxRows) {slot : CacheSlot} {entry : CacheEntry S}
    {new : Stamp} (rows : ∀ stamp ∈ staged.stamps, stamp.lastUsed < file.nextTick ∨ stamp = new)
    (held : staged.view digests slot = some (file.nextTick, entry)) :
    (staged.evict maxRows).view digests slot = some (file.nextTick, entry) := by
  apply view_newest room held
  intro a first b second tick later
  have left : a = new := (rows a first).resolve_left (by omega)
  have right : b = new := (rows b second).resolve_left (by omega)
  rw [left, right]

theorem stamps_storeExpansion {S : Type} {cache : ModelCache K S} {versions : PromptVersions} {prompt model output : String} :
    ∀ stamp ∈ (storeExpansion digests versions cache prompt model output).stamps,
      stamp.lastUsed < cache.conn.nextTick ∨
        stamp = ⟨cache.conn.nextTick, 0, maxOf cache.conn.expansion CacheRow.rowid + 1⟩ := by
  intro stamp member
  rcases List.mem_append.mp member with here | there
  · obtain ⟨row, inside, same⟩ := List.mem_map.mp here
    rcases mem_insertOrReplace.mp inside with old | new
    · exact .inl (same ▸ lt_nextTick_expansion old.1)
    · exact .inr (by rw [← same, new]; rfl)
  · obtain ⟨row, inside, same⟩ := List.mem_map.mp there
    have earlier : row.lastUsed < cache.conn.nextTick := lt_nextTick_rerank inside
    exact .inl (same ▸ earlier)

theorem stamps_storeRerankScore {versions : PromptVersions} {query model : String} {scored : List (String × S)}
    {pair : String × S} (alone : scored.filter (fun pair => Score.isFinite pair.2) = [pair]) :
    ∀ stamp ∈ (storeRerankScores digests versions cache query model scored).stamps,
      stamp.lastUsed < cache.conn.nextTick ∨
        stamp = ⟨cache.conn.nextTick, 1, maxOf cache.conn.rerank CacheRow.rowid + 1⟩ := by
  intro stamp member
  simp only [storeRerankScores, alone, List.foldl_cons, List.foldl_nil] at member
  rcases List.mem_append.mp member with there | here
  · obtain ⟨row, inside, same⟩ := List.mem_map.mp there
    have earlier : row.lastUsed < cache.conn.nextTick := lt_nextTick_expansion inside
    exact .inl (same ▸ earlier)
  · obtain ⟨row, inside, same⟩ := List.mem_map.mp here
    rcases mem_insertOrReplace.mp inside with old | new
    · exact .inl (same ▸ lt_nextTick_rerank old.1)
    · exact .inr (by rw [← same, new]; rfl)

/-! ### Rows stand under slots -/

/-- Every row stands under the key of some prompt, or of some query and chunk. -/
structure CacheFile.Keyed (digests : Digests K) (file : CacheFile K S) : Prop where
  expansion : ∀ row ∈ file.expansion, ∃ prompt, row.key = digests.expansionKey prompt
  rerank : ∀ row ∈ file.rerank, ∃ query chunk, row.key = digests.rerankKey query chunk

theorem keyed_staged (keyed : cache.conn.Keyed digests) (op : CacheOp S) : (op.staged digests cache).Keyed digests := by
  cases op with
  | putExpansion versions prompt model output =>
    refine ⟨fun row member => ?_, keyed.rerank⟩
    rcases mem_insertOrReplace.mp member with old | new
    · exact keyed.expansion row old.1
    · exact ⟨prompt, by rw [new]⟩
  | putRerankScores versions query model scored =>
    refine ⟨keyed.expansion, ?_⟩
    simp only [CacheOp.staged, storeRerankScores]
    induction scored.filter (fun pair => Score.isFinite pair.2) using List.reverseRecOn with
    | nil => exact keyed.rerank
    | append_singleton pairs pair ih =>
      intro row member
      rw [List.foldl_append, List.foldl_cons, List.foldl_nil] at member
      rcases mem_insertOrReplace.mp member with old | new
      · exact ih row old.1
      · exact ⟨query, pair.1, by rw [new]⟩
  | getExpansion versions prompt model => exact keyed
  | getRerankScores versions query model chunks => exact keyed

theorem keyed_run (maxRows : Nat) (ops : List (CacheOp S)) :
    (runCache digests (.open K S maxRows) ops).conn.Keyed digests := by
  induction ops using List.reverseRecOn with
  | nil => exact ⟨fun row member => (Table.not_mem_empty row member).elim, fun row member => (Table.not_mem_empty row member).elim⟩
  | append_singleton ops op ih =>
    rw [runCache_concat]
    cases put : op.isPut with
    | true =>
      rw [after_conn op put]
      have staged := keyed_staged ih op
      exact ⟨fun row member => staged.expansion row (mem_evict_expansion.mp member).1,
        fun row member => staged.rerank row (mem_evict_rerank.mp member).1⟩
    | false => rwa [(after_get op put).1]

/-! ### A bounded recency map -/

/-- The last put for a slot among the operations, with its number. -/
def latestPut (slot : CacheSlot) (ops : List (CacheOp S)) : Option (Nat × CacheEntry S) := lastPut slot (ops.map CacheOp.writes)

/-- What holds of the cache after the operations `ops`, and of a put that comes next. -/
structure BoundedRecency (digests : Digests K) (maxRows : Nat) (ops : List (CacheOp S)) (cache : ModelCache K S) :
    Prop where
  bounded : ∀ put : CacheOp S, put.isPut → (put.after digests cache).rowCount ≤ maxRows
  expansion : ∀ versions prompt model output, getExpansion digests versions cache prompt model = some output →
    ∃ i, latestPut (.expansion prompt) ops = some (i, ⟨model, versions.expansion, .output output⟩)
  scores : ∀ versions query model chunks, ∃ scores, getRerankScores digests versions cache query model chunks = scores ∧
    scores.length = chunks.length ∧ ∀ (n : Nat) chunk score, chunks[n]? = some chunk → scores[n]? = some (some score) →
      ∃ i, latestPut (.rerank query chunk) ops = some (i, ⟨model, versions.rerank, .score score⟩)
  keyed : cache.conn.Keyed digests
  excess : ∀ put : CacheOp S, put.isPut → (put.after digests cache).rowCount =
    (put.staged digests cache).countRows - ((put.staged digests cache).countRows - maxRows)
  others : ∀ put : CacheOp S, put.isPut →
    (∀ row ∈ (put.after digests cache).conn.expansion, row ∈ (put.staged digests cache).expansion) ∧
      ∀ row ∈ (put.after digests cache).conn.rerank, row ∈ (put.staged digests cache).rerank
  oldest : ∀ (put : CacheOp S) a b x y, put.isPut → (put.staged digests cache).view digests a = some x →
    (put.after digests cache).conn.view digests a = none → (put.after digests cache).conn.view digests b = some y →
      ∃ i j u v, latestPut a (ops ++ [put]) = some (i, u) ∧ latestPut b (ops ++ [put]) = some (j, v) ∧ i ≤ j
  gets : cache = runCache digests (.open K S maxRows) (ops.filter CacheOp.isPut)
  keepsExpansion : ∀ versions prompt model output,
    getExpansion digests versions (putExpansion digests versions cache prompt model output) prompt model = some output
  keepsScore : ∀ versions query model scored chunk score, scored.filter (fun pair => Score.isFinite pair.2) = [(chunk, score)] →
    getRerankScores digests versions (putRerankScores digests versions cache query model scored) query model [chunk] =
      [some score]

theorem cache_is_bounded_recency_map (digests : Digests K) (maxRows : Nat) (room : 1 ≤ maxRows) (ops : List (CacheOp S)) :
    BoundedRecency digests maxRows ops (runCache digests (.open K S maxRows) ops) := by
  have tracks : Tracks ((runCache digests (.open K S maxRows) ops).conn.view digests) _ := tracks_run maxRows ops
  have limit : (runCache digests (.open K S maxRows) ops).maxRows = maxRows := maxRows_run maxRows ops
  have gets : runCache digests (.open K S maxRows) ops = _ := run_puts ops
  have keyed : (runCache digests (.open K S maxRows) ops).conn.Keyed digests := keyed_run maxRows ops
  generalize runCache digests (.open K S maxRows) ops = cache at *
  have left : ∀ put : CacheOp S, put.isPut = true →
      (put.after digests cache).conn = (put.staged digests cache).evict maxRows := by
    intro put isPut
    rw [after_conn put isPut, limit]
  have excess : ∀ put : CacheOp S, put.isPut → (put.after digests cache).rowCount =
      (put.staged digests cache).countRows - ((put.staged digests cache).countRows - maxRows) := by
    intro put isPut
    rw [ModelCache.rowCount, left put isPut, countRows_evict]
  refine ⟨?bounded, ?expansion, ?scores, keyed, excess, ?others, ?oldest, gets, ?keepsExpansion, ?keepsScore⟩
  case bounded =>
    intro put isPut
    rw [excess put isPut]
    omega
  case expansion =>
    intro versions prompt model output got
    obtain ⟨tick, held⟩ := getExpansion_eq_some.mp got
    exact tracks.written _ tick _ held
  case scores =>
    intro versions query model chunks
    refine ⟨_, rfl, by simp [getRerankScores], fun n chunk score place got => ?_⟩
    have value : getRerankScore digests versions cache query model chunk = some score := by
      simpa [getRerankScores, place] using got
    obtain ⟨tick, held⟩ := getRerankScore_eq_some.mp value
    exact tracks.written _ tick _ held
  case others =>
    intro put isPut
    rw [left put isPut]
    exact ⟨fun row member => (mem_evict_expansion.mp member).1, fun row member => (mem_evict_rerank.mp member).1⟩
  case oldest =>
    intro put a b x y isPut first gone kept
    rw [left put isPut] at gone kept
    have staged := tracks_staged tracks put
    obtain ⟨i, putA⟩ := staged.written a x.1 x.2 first
    obtain ⟨j, putB⟩ := staged.written b y.1 y.2 (view_evict kept)
    have order := staged.ordered a b x.1 y.1 i j _ _ _ _ first (view_evict kept) putA putB
    have ticks : x.1 ≤ y.1 := tick_le_of_evicted first gone kept
    refine ⟨i, j, x.2, y.2, ?_, ?_, order.mp ticks⟩
    · simpa [latestPut] using putA
    · simpa [latestPut] using putB
  case keepsExpansion =>
    intro versions prompt model output
    have written : (storeExpansion digests versions cache prompt model output).view digests (.expansion prompt) =
        some (cache.conn.nextTick, ⟨model, versions.expansion, .output output⟩) := by
      rw [view_storeExpansion]
      simp [CacheOp.writes, lastOf]
    refine getExpansion_eq_some.mpr ⟨cache.conn.nextTick, ?_⟩
    rw [putExpansion, limit]
    exact view_alone room stamps_storeExpansion written
  case keepsScore =>
    intro versions query model scored chunk score alone
    have written : (storeRerankScores digests versions cache query model scored).view digests (.rerank query chunk) =
        some (cache.conn.nextTick, ⟨model, versions.rerank, .score score⟩) := by
      rw [view_storeRerankScores]
      simp [CacheOp.writes, alone, lastOf]
    have kept := view_alone room (stamps_storeRerankScore alone) written
    have got : getRerankScore digests versions (putRerankScores digests versions cache query model scored) query model chunk =
        some score := by
      refine getRerankScore_eq_some.mpr ⟨cache.conn.nextTick, ?_⟩
      rw [putRerankScores, limit]
      exact kept
    simp [getRerankScores, got]

/-- Digests that keep what they are made of. -/
def plainDigests : Digests (String × List String) where
  digest kind fields := (kind, fields)
  sha256Hex text := text
  digest_injective same := Prod.mk.inj same
  sha256Hex_injective _ _ same := same

/-- Three puts into a cache of two rows. -/
theorem two_rows_are_bounded_recency_map : BoundedRecency plainDigests 2
    [.putExpansion ⟨"1", "1"⟩ "p" "gen" "lex: x", .putRerankScores ⟨"1", "1"⟩ "q" "rank" [("c", (1 : Rat))],
      .getExpansion ⟨"1", "1"⟩ "p" "gen", .putExpansion ⟨"1", "1"⟩ "r" "gen" "lex: y"]
    (runCache plainDigests (.open _ Rat 2)
      [.putExpansion ⟨"1", "1"⟩ "p" "gen" "lex: x", .putRerankScores ⟨"1", "1"⟩ "q" "rank" [("c", (1 : Rat))],
        .getExpansion ⟨"1", "1"⟩ "p" "gen", .putExpansion ⟨"1", "1"⟩ "r" "gen" "lex: y"]) :=
  cache_is_bounded_recency_map plainDigests 2 (by decide) _

end Rqmd
