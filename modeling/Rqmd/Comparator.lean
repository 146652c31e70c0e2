import Rqmd.Picks
import Rqmd.SearchPages

/-! The comparison that sorts the picks of a query. It takes a score that is not a number for the equal of any other
and goes by the path, which is no order where such a score stands between a lower and a higher one. -/

namespace Rqmd
open Ranking

variable {V S L : Type} [Score S] [LinearOrder L]

/-- Scores are the numbers of a linear order, and a NaN that compares with none. -/
def NumbersOrNaN (value : S → Option L) : Prop :=
  ∀ a b, Score.partialCmp a b = (value a).bind fun x => (value b).map fun y => compare x y

/-- Where a pick stands when scores do not decide. -/
def pickKey {S : Type} (pick : Pick S) : String ×ₗ Nat := toLex (pick.filepath, pick.rank)

/-- The comparison orders the picks: it is total, antisymmetric and transitive. -/
structure Ordered (picks : List (Pick S)) : Prop where
  total : ∀ a ∈ picks, ∀ b ∈ picks, a.before b ∨ b.before a
  antisymm : ∀ a ∈ picks, ∀ b ∈ picks, a.before b → b.before a → a = b
  trans : ∀ a ∈ picks, ∀ b ∈ picks, ∀ c ∈ picks, a.before b → b.before c → a.before c

/-- A pick whose score is not a number stands, by path and rank, behind a lower score and before a higher one. -/
def Straddled {S : Type} (value : S → Option L) (picks : List (Pick S)) : Prop :=
  ∃ low ∈ picks, ∃ nan ∈ picks, ∃ high ∈ picks, ∃ x y, value low.score = some x ∧ value nan.score = none ∧
    value high.score = some y ∧ x < y ∧ pickKey low < pickKey nan ∧ pickKey nan < pickKey high

section Before
variable {value : S → Option L}

theorem before_numbers (numbers : NumbersOrNaN value) {a b : Pick S} {x y : L} (left : value a.score = some x)
    (right : value b.score = some y) : a.before b ↔ y < x ∨ x = y ∧ pickKey a ≤ pickKey b := by
  have compared : Score.partialCmp b.score a.score = some (compare y x) := by
    rw [numbers, left, right]
    rfl
  exact before_compared compared

theorem before_nan (numbers : NumbersOrNaN value) {a b : Pick S} (nan : value a.score = none ∨ value b.score = none) :
    a.before b ↔ pickKey a ≤ pickKey b := by
  have incomparable : Score.partialCmp b.score a.score = none := by
    rw [numbers]
    rcases nan with left | right
    · rw [left]
      cases value b.score <;> rfl
    · rw [right]
      rfl
  rw [pickKey, pickKey, ← path_then_rank]
  unfold Pick.before scoreDescThenPath
  rw [incomparable, Option.getD_none]
  rfl

theorem before_total (numbers : NumbersOrNaN value) (a b : Pick S) : a.before b ∨ b.before a := by
  cases left : value a.score with
  | none => exact (le_total (pickKey a) (pickKey b)).imp (before_nan numbers (.inl left)).mpr (before_nan numbers (.inr left)).mpr
  | some x =>
    cases right : value b.score with
    | none => exact (le_total (pickKey a) (pickKey b)).imp (before_nan numbers (.inr right)).mpr (before_nan numbers (.inl right)).mpr
    | some y =>
      rw [before_numbers numbers left right, before_numbers numbers right left]
      rcases lt_trichotomy x y with less | same | more
      · exact .inr (.inl less)
      · exact (le_total (pickKey a) (pickKey b)).imp (fun before => .inr ⟨same, before⟩) fun before => .inr ⟨same.symm, before⟩
      · exact .inl (.inl more)

/-- Two picks before each other have the same key. -/
theorem before_key (numbers : NumbersOrNaN value) {a b : Pick S} (up : a.before b) (down : b.before a) :
    pickKey a = pickKey b := by
  cases left : value a.score with
  | none => exact le_antisymm ((before_nan numbers (.inl left)).mp up) ((before_nan numbers (.inr left)).mp down)
  | some x =>
    cases right : value b.score with
    | none => exact le_antisymm ((before_nan numbers (.inr right)).mp up) ((before_nan numbers (.inl right)).mp down)
    | some y =>
      rw [before_numbers numbers left right] at up
      rw [before_numbers numbers right left] at down
      rcases up with less | keys
      · rcases down with more | again
        · exact absurd less more.asymm
        · exact absurd less (again.1 ▸ lt_irrefl _)
      · rcases down with more | again
        · exact absurd more (keys.1 ▸ lt_irrefl _)
        · exact le_antisymm keys.2 again.2

variable {picks : List (Pick S)}

/-- Without a straddled pick the comparison is transitive: the cases are which of the three scores are numbers. -/
theorem before_trans (numbers : NumbersOrNaN value) (apart : ∀ a ∈ picks, ∀ b ∈ picks, pickKey a = pickKey b → a = b)
    (free : ¬ Straddled value picks) {a b c : Pick S} (first : a ∈ picks) (second : b ∈ picks) (third : c ∈ picks)
    (up : a.before b) (on : b.before c) : a.before c := by
  -- a NaN and a number stand at different keys
  have strict : ∀ p ∈ picks, ∀ q ∈ picks, ∀ x, value p.score = none → value q.score = some x → pickKey p ≠ pickKey q := by
    intro p left q right x nan number same
    rw [apart p left q right same, number] at nan
    cases nan
  cases left : value a.score with
  | none =>
    rw [before_nan numbers (.inl left)] at up ⊢
    by_contra far
    have behind : pickKey c < pickKey a := not_le.mp far
    cases middle : value b.score with
    | none => exact far (up.trans ((before_nan numbers (.inl middle)).mp on))
    | some y =>
      cases right : value c.score with
      | none => exact far (up.trans ((before_nan numbers (.inr right)).mp on))
      | some z =>
        rcases (before_numbers numbers middle right).mp on with lower | keys
        · exact free ⟨c, third, a, first, b, second, z, y, right, left, middle, lower, behind,
            lt_of_le_of_ne up (strict a first b second y left middle)⟩
        · exact far (up.trans keys.2)
  | some x =>
    cases middle : value b.score with
    | none =>
      rw [before_nan numbers (.inr middle)] at up
      rw [before_nan numbers (.inl middle)] at on
      cases right : value c.score with
      | none => exact (before_nan numbers (.inr right)).mpr (up.trans on)
      | some z =>
        rw [before_numbers numbers left right]
        rcases lt_trichotomy z x with lower | same | higher
        · exact .inl lower
        · exact .inr ⟨same.symm, up.trans on⟩
        · exact absurd ⟨a, first, b, second, c, third, x, z, left, middle, right, higher,
            lt_of_le_of_ne up (strict b second a first x middle left).symm,
            lt_of_le_of_ne on (strict b second c third z middle right)⟩ free
    | some y =>
      cases right : value c.score with
      | none =>
        rw [before_nan numbers (.inr right)] at on ⊢
        rcases (before_numbers numbers left middle).mp up with lower | keys
        · by_contra far
          exact free ⟨b, second, c, third, a, first, y, x, middle, right, left, lower,
            lt_of_le_of_ne on (strict c third b second y right middle).symm, not_le.mp far⟩
        · exact keys.2.trans on
      | some z =>
        rw [before_numbers numbers left middle] at up
        rw [before_numbers numbers middle right] at on
        rw [before_numbers numbers left right]
        rcases up with lower | same
        · rcases on with lowest | equal
          · exact .inl (lowest.trans lower)
          · exact .inl (equal.1 ▸ lower)
        · rcases on with lowest | equal
          · exact .inl (same.1 ▸ lowest)
          · exact .inr ⟨same.1.trans equal.1, same.2.trans equal.2⟩

/-- Picks of different places are ordered exactly if none is straddled. -/
theorem ordered_iff (numbers : NumbersOrNaN value) (apart : ∀ a ∈ picks, ∀ b ∈ picks, pickKey a = pickKey b → a = b) :
    Ordered picks ↔ ¬ Straddled value picks := by
  constructor
  · intro ordered straddled
    obtain ⟨low, first, nan, second, high, third, x, y, left, middle, right, less, under, above⟩ := straddled
    have up := (before_nan numbers (.inr middle)).mpr under.le
    have on := (before_nan numbers (.inl middle)).mpr above.le
    have wrong := ordered.trans low first nan second high third up on
    rcases (before_numbers numbers left right).mp wrong with lower | same
    · exact lower.asymm less
    · exact less.ne same.1
  · intro free
    exact ⟨fun a _ b _ => before_total numbers a b, fun a left b right up down => apart a left b right (before_key numbers up down),
      fun a first b second c third up on => before_trans numbers apart free first second third up on⟩

end Before

/-- Ordered picks have one sorted order, which is the sort's. -/
theorem Ordered.unique {picks sorted : List (Pick S)} (ordered : Ordered picks) (perm : sorted.Perm picks)
    (falls : sorted.Pairwise Pick.before) : sorted = picks.insertionSort Pick.before := by
  have again := List.perm_insertionSort Pick.before picks
  apply List.Perm.eq_of_pairwise _ falls (pairwise_insertionSort ordered.total ordered.trans) (perm.trans again.symm)
  intro a b left right
  exact ordered.antisymm a (perm.mem_iff.mp left) b (again.mem_iff.mp right)

/-! ### The picks of a query -/

/-- The picks of a query whose searches found the ranked lists. -/
def queryPicks (engine : Engine V S) (db : Db) (query : String) (intent : Option String) (options : HybridOptions S)
    (ranked : Ranked S) (size : Nat) : List (Pick S) :=
  hybridPicks engine db query intent options (fuseAndResolveCandidates db ranked size)

/-- The comparison orders the picks of a query, which then have one sorted order, exactly if none is straddled. -/
theorem comparison_orders_iff (engine : Engine V S) (db : Db) (query : String) (intent : Option String)
    (options : HybridOptions S) (ranked : Ranked S) (size : Nat) {value : S → Option L} (numbers : NumbersOrNaN value) :
    (Ordered (queryPicks engine db query intent options ranked size) ∧
      ∀ sorted, sorted.Perm (queryPicks engine db query intent options ranked size) → sorted.Pairwise Pick.before →
        sorted = (queryPicks engine db query intent options ranked size).insertionSort Pick.before) ↔
      ¬ Straddled value (queryPicks engine db query intent options ranked size) := by
  have apart := @hybridPicks_apart V S _ engine db query intent options _ (candidates_once db ranked size)
  have ordered := ordered_iff numbers fun a left b right same => apart a left b right (toLex.injective same)
  constructor
  · intro sorts
    exact ordered.mp sorts.1
  · intro free
    have order := ordered.mpr free
    exact ⟨order, fun sorted perm falls => order.unique perm falls⟩

/-- Three notes. -/
def threeNotes : Disk String := (Disk.empty : Disk String).after sampleEnv
  [(.add notesCollection ⟨[notesFile "a.md" (.ok (notesDoc "note low")), notesFile "b.md" (.ok (notesDoc "note")),
      notesFile "c.md" (.ok (notesDoc "note high"))], by decide⟩, [])]

/-- Three notes at one rank each, and none of them reranked. -/
def threeRanked : Ranked Rat :=
  ["notes/c.md", "notes/a.md", "notes/b.md"].map fun filepath => ([⟨filepath, filepath, 1⟩], ⟨"fts", .original⟩)

theorem numbers_order :
    Ordered (queryPicks sampleEngine (threeNotes.open true).db "note" none plainHybrid threeRanked (fetchSize 10)) ∧
      ∀ sorted, sorted.Perm (queryPicks sampleEngine (threeNotes.open true).db "note" none plainHybrid threeRanked (fetchSize 10)) →
        sorted.Pairwise Pick.before → sorted =
          (queryPicks sampleEngine (threeNotes.open true).db "note" none plainHybrid threeRanked (fetchSize 10)).insertionSort
            Pick.before := by
  have numbers : NumbersOrNaN (some : Rat → Option Rat) := by
    intro a b
    exact congrArg some (LinearOrder.compare_eq_compareOfLessAndEq a b).symm
  apply (comparison_orders_iff sampleEngine (threeNotes.open true).db "note" none plainHybrid threeRanked (fetchSize 10)
    numbers).mpr
  intro straddled
  obtain ⟨_, _, nan, _, _, _, _, _, _, none, _⟩ := straddled
  cases none

/-- A number, or no number. -/
inductive NanRat where
  | nan
  | number (q : Rat)

/-- An operation on numbers; what has a NaN in it is one. -/
def NanRat.lift (f : Rat → Rat → Rat) : NanRat → NanRat → NanRat
  | number x, number y => number (f x y)
  | _, _ => nan

def NanRat.value : NanRat → Option Rat
  | nan => none
  | number x => some x

instance : Score NanRat where
  add := NanRat.lift (· + ·)
  sub := NanRat.lift (· - ·)
  mul := NanRat.lift (· * ·)
  div := NanRat.lift (· / ·)
  literal := NanRat.number
  partialCmp a b := a.value.bind fun x => b.value.map fun y => compare x y
  isFinite a := a.value.isSome

/-- A reranker that has no score for the second of three notes. -/
def nanEngine : Engine String NanRat where
  toEnv := sampleEnv
  bm25 entries query := .ok fun i => (entries[i]?).bind fun e => if occursIn query e.body then some (.number 1) else none
  nearest _ _ _ := .ok []
  embedQuery := .ok
  embedPassage := .ok
  canGenerate := false
  generateExpansion _ := .error "no generation model"
  canRerank := true
  rerankCandidates _ chunks := .ok (some (chunks.map fun chunk =>
    if occursIn "low" chunk then .number (1 / 10) else if occursIn "high" chunk then .number (9 / 10) else .nan))
  lowercase text := String.ofList (text.toList.map Char.toLower)
  alphabetic := Char.isAlpha
  now := 0
  expired _ := false

def rerankHybrid : HybridOptions NanRat := ⟨⟨1, none⟩, false, true, false⟩

/-- An accepted rerank leaves the picks of a query without an order. -/
theorem nan_breaks_order :
    ∃ ranked, retrieveRankedLists nanEngine (threeNotes.open true) (parseQuery "note") none "note" none (fetchSize 10) true =
        .ok ranked ∧
      ¬ Ordered (queryPicks nanEngine (threeNotes.open true).db "note" none rerankHybrid ranked (fetchSize 10)) := by
  have cycle : (retrieveRankedLists nanEngine (threeNotes.open true) (parseQuery "note") none "note" none (fetchSize 10)
      true).toOption.map (fun ranked => decide
        (∃ a ∈ queryPicks nanEngine (threeNotes.open true).db "note" none rerankHybrid ranked (fetchSize 10),
          ∃ b ∈ queryPicks nanEngine (threeNotes.open true).db "note" none rerankHybrid ranked (fetchSize 10),
          ∃ c ∈ queryPicks nanEngine (threeNotes.open true).db "note" none rerankHybrid ranked (fetchSize 10),
            a.before b ∧ b.before c ∧ ¬ a.before c)) = some true := by
    decide +kernel
  obtain ⟨ranked, found, breaks⟩ := ok_of_toOption cycle
  refine ⟨ranked, found, fun ordered => ?_⟩
  obtain ⟨a, first, b, second, c, third, up, on, wrong⟩ := of_decide_eq_true breaks
  exact wrong (ordered.trans a first b second c third up on)

end Rqmd
