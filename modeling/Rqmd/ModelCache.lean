import Rqmd.Fusion
import Rqmd.Lib.Recency
import Rqmd.Lib.Table

/-! The query cache file: two tables of model output under digest keys, one tick counter read back from the
rows themselves, and a limit on the rows of both tables together. -/

namespace Rqmd
open Recency

variable {K S : Type} [DecidableEq K] [Score S]

/-! ### Keys -/

/-- SHA-256 over a kind and its fields, every part length-prefixed, and over a text in hex. -/
structure Digests (K : Type) where
  digest : String → List String → K
  sha256Hex : String → String
  digest_injective : ∀ {kind other fields others}, digest kind fields = digest other others →
    kind = other ∧ fields = others
  sha256Hex_injective : Function.Injective sha256Hex

def Digests.expansionKey {K : Type} (digests : Digests K) (prompt : String) : K := digests.digest "expansion" [prompt]

def Digests.rerankKey {K : Type} (digests : Digests K) (query chunk : String) : K :=
  digests.digest "rerank" [query, digests.sha256Hex chunk]

theorem Digests.expansionKey_inj {K : Type} (digests : Digests K) {p q : String}
    (same : digests.expansionKey p = digests.expansionKey q) : p = q := by
  have fields := (digests.digest_injective same).2
  simpa using fields

theorem Digests.rerankKey_inj {K : Type} (digests : Digests K) {q c q' c' : String}
    (same : digests.rerankKey q c = digests.rerankKey q' c') : q = q' ∧ c = c' := by
  have fields := (digests.digest_injective same).2
  simp only [List.cons.injEq, and_true] at fields
  exact ⟨fields.1, digests.sha256Hex_injective fields.2⟩

/-! ### Tables -/

structure CacheRow (K ν : Type) where
  rowid : Nat
  key : K
  model : String
  promptVersion : String
  value : ν
  lastUsed : Nat
deriving DecidableEq

/-- `key` is the primary key, beside SQLite's own row number. -/
instance (K ν : Type) [DecidableEq K] : Constraint (CacheRow K ν) where
  clash a b := a.key = b.key ∨ a.rowid = b.rowid
  refl _ := .inl rfl
  symm := Or.imp Eq.symm Eq.symm
  dec _ _ := inferInstanceAs (Decidable (_ ∨ _))

structure CacheFile (K S : Type) [DecidableEq K] where
  expansion : Table (CacheRow K String)
  rerank : Table (CacheRow K S)

/-- The versions a build of rqmd stores with its rows. -/
structure PromptVersions where
  expansion : String
  rerank : String
deriving DecidableEq

structure ModelCache (K S : Type) [DecidableEq K] where
  conn : CacheFile K S
  maxRows : Nat

/-- A cache file just created. -/
def ModelCache.open (K S : Type) [DecidableEq K] (maxRows : Nat) : ModelCache K S := ⟨⟨∅, ∅⟩, maxRows⟩

/-- `MAX` of a column, or zero without rows. -/
def maxOf {ν : Type} (t : Table (CacheRow K ν)) (column : CacheRow K ν → Nat) : Nat :=
  t.rows.foldl (fun most row => max most (column row)) 0

theorem le_maxOf {ν : Type} {t : Table (CacheRow K ν)} {column : CacheRow K ν → Nat} {row : CacheRow K ν}
    (member : row ∈ t) : column row ≤ maxOf t column := by
  have grows : ∀ (rows : List (CacheRow K ν)) (most : Nat),
      most ≤ rows.foldl (fun most row => max most (column row)) most ∧
        ∀ row ∈ rows, column row ≤ rows.foldl (fun most row => max most (column row)) most := by
    intro rows
    induction rows with
    | nil => simp
    | cons first rest ih =>
      intro most
      have tail := ih (max most (column first))
      simp only [List.foldl_cons, List.mem_cons, forall_eq_or_imp]
      refine ⟨by omega, by omega, tail.2⟩
  exact (grows t.rows 0).2 row member

def CacheFile.countRows (file : CacheFile K S) : Nat := file.expansion.rows.length + file.rerank.rows.length

/-- One more than the newest `last_used` in either table. -/
def CacheFile.nextTick (file : CacheFile K S) : Nat :=
  max (maxOf file.expansion CacheRow.lastUsed) (maxOf file.rerank CacheRow.lastUsed) + 1

/-- `INSERT OR REPLACE`: the row of the key goes and the new one takes the next row number. -/
def insertOrReplace {ν : Type} (t : Table (CacheRow K ν)) (key : K) (model promptVersion : String) (value : ν)
    (tick : Nat) : Table (CacheRow K ν) :=
  (t.deleteWhere fun row => row.key = key).append
    ⟨maxOf t CacheRow.rowid + 1, key, model, promptVersion, value, tick⟩ fun row member clash => by
      have inside := Table.mem_deleteWhere.mp member
      have number : row.rowid ≤ maxOf t CacheRow.rowid := le_maxOf inside.1
      rcases clash with same | same
      · exact inside.2 (decide_eq_true same)
      · change row.rowid = maxOf t CacheRow.rowid + 1 at same
        omega

theorem mem_insertOrReplace {ν : Type} {t : Table (CacheRow K ν)} {key : K} {model promptVersion : String} {value : ν}
    {tick : Nat} {row : CacheRow K ν} : row ∈ insertOrReplace t key model promptVersion value tick ↔
      row ∈ t ∧ row.key ≠ key ∨ row = ⟨maxOf t CacheRow.rowid + 1, key, model, promptVersion, value, tick⟩ := by
  simp [insertOrReplace]

/-! ### Eviction -/

/-- What orders the rows of both tables: `ORDER BY last_used, t, rowid`. -/
structure Stamp where
  lastUsed : Nat
  table : Nat
  rowid : Nat
deriving DecidableEq

def Stamp.before (a b : Stamp) : Prop :=
  a.lastUsed < b.lastUsed ∨ a.lastUsed = b.lastUsed ∧ (a.table < b.table ∨ a.table = b.table ∧ a.rowid ≤ b.rowid)

instance : DecidableRel Stamp.before := fun _ _ => inferInstanceAs (Decidable (_ ∨ _))

instance : Std.Total Stamp.before := ⟨fun a b => by unfold Stamp.before; omega⟩

instance : IsTrans Stamp Stamp.before := ⟨fun a b c => by unfold Stamp.before; omega⟩

def CacheRow.stamp {ν : Type} (table : Nat) (row : CacheRow K ν) : Stamp := ⟨row.lastUsed, table, row.rowid⟩

def CacheFile.stamps (file : CacheFile K S) : List Stamp :=
  file.expansion.rows.map (CacheRow.stamp 0) ++ file.rerank.rows.map (CacheRow.stamp 1)

/-- `DELETE FROM … WHERE rowid = ?` for the victims of one table. -/
def deleteVictims {ν : Type} (t : Table (CacheRow K ν)) (table : Nat) (gone : List Stamp) : Table (CacheRow K ν) :=
  t.deleteWhere fun row => gone.any fun victim => victim.table = table && victim.rowid = row.rowid

def CacheFile.evict (file : CacheFile K S) (maxRows : Nat) : CacheFile K S :=
  let excess := file.countRows - maxRows
  if excess = 0 then file
  else
    let gone := victims Stamp.before excess file.stamps
    ⟨deleteVictims file.expansion 0 gone, deleteVictims file.rerank 1 gone⟩

/-! ### Operations -/

def ModelCache.rowCount (cache : ModelCache K S) : Nat := cache.conn.countRows

def getExpansion (digests : Digests K) (versions : PromptVersions) (cache : ModelCache K S) (prompt model : String) :
    Option String :=
  (cache.conn.expansion.find? fun row => row.key = digests.expansionKey prompt && row.model = model &&
    row.promptVersion = versions.expansion).map CacheRow.value

/-- `put_expansion` up to the eviction. -/
def storeExpansion (digests : Digests K) (versions : PromptVersions) (cache : ModelCache K S)
    (prompt model output : String) : CacheFile K S :=
  ⟨insertOrReplace cache.conn.expansion (digests.expansionKey prompt) model versions.expansion output
      cache.conn.nextTick,
    cache.conn.rerank⟩

def putExpansion (digests : Digests K) (versions : PromptVersions) (cache : ModelCache K S)
    (prompt model output : String) : ModelCache K S :=
  { cache with conn := (storeExpansion digests versions cache prompt model output).evict cache.maxRows }

def getRerankScore (digests : Digests K) (versions : PromptVersions) (cache : ModelCache K S) (query model chunk : String) :
    Option S :=
  (cache.conn.rerank.find? fun row => row.key = digests.rerankKey query chunk && row.model = model &&
    row.promptVersion = versions.rerank).map CacheRow.value

def getRerankScores (digests : Digests K) (versions : PromptVersions) (cache : ModelCache K S) (query model : String)
    (chunks : List String) : List (Option S) :=
  chunks.map (getRerankScore digests versions cache query model)

def storeRerankScores (digests : Digests K) (versions : PromptVersions) (cache : ModelCache K S) (query model : String)
    (scored : List (String × S)) : CacheFile K S :=
  let finite := scored.filter fun pair => Score.isFinite pair.2
  ⟨cache.conn.expansion,
    finite.foldl (fun t pair => insertOrReplace t (digests.rerankKey query pair.1) model versions.rerank pair.2
      cache.conn.nextTick) cache.conn.rerank⟩

def putRerankScores (digests : Digests K) (versions : PromptVersions) (cache : ModelCache K S) (query model : String)
    (scored : List (String × S)) : ModelCache K S :=
  { cache with conn := (storeRerankScores digests versions cache query model scored).evict cache.maxRows }

end Rqmd
