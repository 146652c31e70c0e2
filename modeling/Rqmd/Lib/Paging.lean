import Mathlib.Data.List.Induction
import Mathlib.Data.List.Sort
import Mathlib.Tactic.Common

/-! Reading a ranking page by page, where each page ranks anew and gathers only as much as it needs. Pages are
slices of one ranking exactly when a longer gathering never changes what a shorter one has shown. -/

namespace Paging

/-! ### The front of a sorted list -/

section Front

variable {α : Type*} (before : α → α → Prop) [DecidableRel before]

/-- Put `b` behind everything it does not have to stand in front of. -/
def place (b : α) : List α → List α
  | [] => [b]
  | a :: rest => if before a b then a :: place b rest else b :: a :: rest

variable {before}

theorem orderedInsert_place [Std.Total before] [IsTrans α before] (a b : α) (l : List α) :
    (place before b l).orderedInsert before a = place before b (l.orderedInsert before a) := by
  induction l with
  | nil =>
    by_cases first : before a b
    · simp [place, first]
    · simp [place, first]
  | cons x rest ih =>
    by_cases near : before x b
    · by_cases front : before a x
      · have first : before a b := trans_of before front near
        simp [place, near, front, first]
      · simp [place, near, front, ih]
    · by_cases front : before a x
      · by_cases first : before a b
        · simp [place, near, front, first]
        · simp [place, near, front, first]
      · have behind : before x a := (total_of before a x).resolve_left front
        have last : ¬ before a b := fun first => near (trans_of before behind first)
        simp [place, near, front, last]

/-- The sort is stable: an element added at the end is placed behind its equals. -/
theorem insertionSort_concat [Std.Total before] [IsTrans α before] (l : List α) (b : α) :
    (l ++ [b]).insertionSort before = place before b (l.insertionSort before) := by
  induction l with
  | nil => rfl
  | cons a rest ih =>
    rw [List.cons_append, List.insertionSort_cons, ih, orderedInsert_place, List.insertionSort_cons]

/-- Placing an element changes nothing in front of what it follows. -/
theorem take_place {b : α} {l : List α} {n : Nat} (sorted : l.Pairwise before) [IsTrans α before]
    (enough : n ≤ l.countP fun a => before a b) : (place before b l).take n = l.take n := by
  induction l generalizing n with
  | nil =>
    have none : n = 0 := Nat.le_zero.mp enough
    rw [none, List.take_zero, List.take_zero]
  | cons a rest ih =>
    obtain ⟨first, sorted⟩ := List.pairwise_cons.mp sorted
    cases n with
    | zero => rw [List.take_zero, List.take_zero]
    | succ n =>
      by_cases near : before a b
      · have fewer : n ≤ rest.countP fun x => before x b := by
          simpa [List.countP_cons, near] using enough
        simp [place, near, ih sorted fewer]
      · have none : rest.countP (fun x => before x b) = 0 := by
          rw [List.countP_eq_zero]
          intro x member close
          exact near (trans_of before (first x member) (of_decide_eq_true close))
        simp [near, none] at enough

/-- What stands before `b` is a front of a sorted list. -/
theorem countP_take {b : α} {l : List α} (n : Nat) (sorted : l.Pairwise before) [IsTrans α before] :
    (l.take n).countP (fun a => before a b) = min n (l.countP fun a => before a b) := by
  induction l generalizing n with
  | nil => simp
  | cons a rest ih =>
    obtain ⟨first, sorted⟩ := List.pairwise_cons.mp sorted
    cases n with
    | zero => simp
    | succ n =>
      by_cases near : before a b
      · simp only [List.take_succ_cons, List.countP_cons, near, decide_true, if_true, ih n sorted]
        omega
      · have none : rest.countP (fun x => before x b) = 0 := by
          rw [List.countP_eq_zero]
          intro x member close
          exact near (trans_of before (first x member) (of_decide_eq_true close))
        simp [near, ih n sorted, none]

/-- The first `n` of a sort stay when elements are added if and only if each of these stands behind `n` others.
What is compared is what `tell` tells of the elements. -/
theorem take_insertionSort_append_iff {β : Type*} [Std.Total before] [IsTrans α before] {tell : α → β}
    {old new : List α} (told : ∀ a ∈ old ++ new, ∀ b ∈ old ++ new, tell a = tell b → before a b) (n : Nat) :
    (((old ++ new).insertionSort before).take n).map tell = ((old.insertionSort before).take n).map tell ↔
      ∀ b ∈ new, n ≤ old.countP fun a => before a b := by
  have sorted : ∀ l : List α, (l.insertionSort before).Pairwise before := List.pairwise_insertionSort before
  constructor
  · intro same b member
    by_contra few
    -- `b` itself is among the first, and what tells the same stands on the same side of it.
    have counted : ∀ front : List α, (∀ a ∈ front, a ∈ old ++ new) → ∀ other : List α, (∀ a ∈ other, a ∈ old ++ new) →
        front.map tell = other.map tell →
          front.countP (fun a => before a b) = other.countP (fun a => before a b) := by
      intro front inside
      induction front with
      | nil =>
        intro other _ equal
        have none : other = [] := List.map_eq_nil_iff.mp equal.symm
        rw [none]
      | cons a front ih =>
        intro other there equal
        cases other with
        | nil => cases equal
        | cons c other =>
          obtain ⟨head, tail⟩ := List.cons.inj equal
          have here := inside a List.mem_cons_self
          have beside := there c List.mem_cons_self
          have rest := ih (fun x member => inside x (List.mem_cons_of_mem _ member)) other
            (fun x member => there x (List.mem_cons_of_mem _ member)) tail
          have sides : before a b ↔ before c b :=
            ⟨fun close => trans_of before (told c beside a here head.symm) close,
              fun close => trans_of before (told a here c beside head) close⟩
          simp only [List.countP_cons, rest, sides]
    have equal := counted _ (fun a inside => (List.mem_insertionSort before).mp (List.mem_of_mem_take inside)) _
      (fun a inside => List.mem_append_left new ((List.mem_insertionSort before).mp (List.mem_of_mem_take inside))) same
    rw [countP_take n (sorted _), countP_take n (sorted _), (List.perm_insertionSort before _).countP_eq,
      (List.perm_insertionSort before _).countP_eq, List.countP_append] at equal
    have self : 0 < new.countP fun a => before a b := by
      apply List.countP_pos_iff.mpr
      exact ⟨b, member, decide_eq_true (told b (List.mem_append_right old member) b (List.mem_append_right old member) rfl)⟩
    omega
  · intro behind
    have front : ∀ added : List α, (∀ b ∈ added, n ≤ old.countP fun a => before a b) →
        ((old ++ added).insertionSort before).take n = (old.insertionSort before).take n := by
      intro added
      induction added using List.reverseRecOn with
      | nil => intro _; rw [List.append_nil]
      | append_singleton added b ih =>
        intro all
        have rest := ih fun x member => all x (List.mem_append_left _ member)
        have last := all b (List.mem_append_right _ List.mem_cons_self)
        rw [← List.append_assoc, insertionSort_concat, take_place (sorted _), rest]
        rw [(List.perm_insertionSort before _).countP_eq, List.countP_append]
        omega
    rw [front new behind]

end Front

/-! ### Pages -/

section Pages

variable {α ε : Type*}

/-- A page, and the offset of the next one when there is one. -/
structure Page (α : Type*) where
  entries : List α
  next : Option Nat

/-- What a reader gets who asks for the page at an offset and follows the offsets that the pages name. -/
inductive Follows (page : Nat → Except ε (Page α)) : Nat → Except ε (List α) → Prop
  | last {offset : Nat} {entries : List α} (here : page offset = .ok ⟨entries, none⟩) : Follows page offset (.ok entries)
  | onward {offset next : Nat} {entries : List α} {rest : Except ε (List α)} (here : page offset = .ok ⟨entries, some next⟩)
      (there : Follows page next rest) : Follows page offset (rest.map (entries ++ ·))
  | failed {offset : Nat} {failure : ε} (here : page offset = .error failure) : Follows page offset (.error failure)

/-- A page that names a next one is the front of what the reader gets. -/
theorem Follows.of_onward {page : Nat → Except ε (Page α)} {offset next : Nat} {entries : List α} {whole : Except ε (List α)}
    (follows : Follows page offset whole) (here : page offset = .ok ⟨entries, some next⟩) :
    ∃ rest, Follows page next rest ∧ whole = rest.map (entries ++ ·) := by
  cases follows with
  | last other => simp [other] at here
  | onward other there =>
    rw [here] at other
    simp only [Except.ok.injEq, Page.mk.injEq, Option.some.injEq] at other
    obtain ⟨shown, further⟩ := other
    rw [← further] at there
    exact ⟨_, there, by rw [shown]⟩
  | failed other => simp [other] at here

theorem Follows.of_last {page : Nat → Except ε (Page α)} {offset : Nat} {entries : List α} {whole : Except ε (List α)}
    (follows : Follows page offset whole) (here : page offset = .ok ⟨entries, none⟩) : whole = .ok entries := by
  cases follows with
  | last other => simp_all
  | onward other there => simp [other] at here
  | failed other => simp [other] at here

theorem Follows.of_failed {page : Nat → Except ε (Page α)} {offset : Nat} {failure : ε} {whole : Except ε (List α)}
    (follows : Follows page offset whole) (here : page offset = .error failure) : whole = .error failure := by
  cases follows with
  | last other => simp [other] at here
  | onward other there => simp [other] at here
  | failed other => simp_all

theorem Follows.unique {page : Nat → Except ε (Page α)} {offset : Nat} {a b : Except ε (List α)}
    (left : Follows page offset a) (right : Follows page offset b) : a = b := by
  induction left generalizing b with
  | last here => exact (right.of_last here).symm
  | onward here there ih =>
    obtain ⟨rest, beyond, whole⟩ := right.of_onward here
    rw [whole, ih beyond]
  | failed here => exact (right.of_failed here).symm

/-- One page of a ranking; the next one is named when this one is not empty and something follows it. -/
def cut (ranked : List α) (offset limit : Nat) : Page α :=
  ⟨(ranked.drop offset).take limit,
    if (ranked.drop offset).take limit ≠ [] ∧ offset + limit < ranked.length then
      some (offset + ((ranked.drop offset).take limit).length) else none⟩

theorem cut_onward {ranked : List α} {offset limit : Nat} (some : 1 ≤ limit) (more : offset + limit < ranked.length) :
    cut ranked offset limit = ⟨(ranked.drop offset).take limit, .some (offset + limit)⟩ := by
  have full : ((ranked.drop offset).take limit).length = limit := by
    rw [List.length_take, List.length_drop]
    omega
  have shown : (ranked.drop offset).take limit ≠ [] := by
    intro empty
    rw [empty, List.length_nil] at full
    omega
  rw [cut, if_pos ⟨shown, more⟩, full]

theorem cut_last {ranked : List α} {offset limit : Nat} (all : ranked.length ≤ offset + limit) :
    cut ranked offset limit = ⟨ranked.drop offset, none⟩ := by
  have whole : (ranked.drop offset).take limit = ranked.drop offset := by
    apply List.take_of_length_le
    rw [List.length_drop]
    omega
  rw [cut, if_neg (by omega), whole]

/-- What a page gathers: as much as it shows and one more, up to a ceiling. -/
def reach (ceiling offset limit : Nat) : Nat := min (offset + limit + 1) ceiling

/-- A shorter gathering ranks first what the longest one ranks first, all but its last, and is no shorter than it
was asked to be when the longest one is not. -/
def Steady (ranked : Nat → List α) (ceiling : Nat) : Prop :=
  ∀ n, 2 ≤ n → n ≤ ceiling → (ranked n).take (n - 1) = (ranked ceiling).take (n - 1) ∧
    (n ≤ (ranked ceiling).length → n ≤ (ranked n).length)

variable {ranked : Nat → List α} {ceiling : Nat} {page : Nat → Nat → Except ε (Page α)}

theorem Steady.follows (steady : Steady ranked ceiling)
    (bounded : (ranked ceiling).length ≤ ceiling) {limit : Nat} (some : 1 ≤ limit)
    (pages : ∀ offset ≤ ceiling, page limit offset = .ok (cut (ranked (reach ceiling offset limit)) offset limit))
    {offset : Nat} (inside : offset ≤ ceiling) :
    Follows (page limit) offset (.ok ((ranked ceiling).drop offset)) := by
  induction left : ceiling - offset using Nat.strong_induction_on generalizing offset with
  | h left' ih =>
    by_cases short : offset + limit + 1 ≤ ceiling
    · have here := pages offset inside
      rw [reach, Nat.min_eq_left short] at here
      obtain ⟨front, long⟩ := steady (offset + limit + 1) (by omega) short
      rw [Nat.add_sub_cancel] at front
      by_cases more : offset + limit < (ranked (offset + limit + 1)).length
      · rw [cut_onward some more] at here
        have rest := ih (ceiling - (offset + limit)) (by omega) (show offset + limit ≤ ceiling by omega) rfl
        have whole := Follows.onward here rest
        have shown : ((ranked (offset + limit + 1)).drop offset).take limit = ((ranked ceiling).drop offset).take limit := by
          rw [List.take_drop, List.take_drop, front]
        have joined : ((ranked ceiling).drop offset).take limit ++ (ranked ceiling).drop (offset + limit) =
            (ranked ceiling).drop offset := by
          rw [← List.drop_drop, List.take_append_drop]
        rw [shown, Except.map, joined] at whole
        exact whole
      · have few : (ranked ceiling).length ≤ offset + limit := by
          by_contra many
          exact more (long (by omega))
        rw [cut_last (by omega)] at here
        have same : ranked (offset + limit + 1) = ranked ceiling := by
          rwa [List.take_of_length_le (by omega), List.take_of_length_le few] at front
        rw [same] at here
        exact .last here
    · have here := pages offset inside
      rw [reach, Nat.min_eq_right (by omega), cut_last (by omega)] at here
      exact .last here

/-- Following the pages from the start yields one ranking, whatever the limit, if and only if gatherings are steady. -/
theorem follows_iff_steady (room : 2 ≤ ceiling) (bounded : ∀ n, (ranked n).length ≤ n)
    (pages : ∀ limit, 1 ≤ limit → limit ≤ ceiling → ∀ offset ≤ ceiling,
      page limit offset = .ok (cut (ranked (reach ceiling offset limit)) offset limit)) :
    (∃ whole, ∀ limit, 1 ≤ limit → limit ≤ ceiling → Follows (page limit) 0 whole) ↔ Steady ranked ceiling := by
  constructor
  · intro found
    obtain ⟨whole, all⟩ := found
    -- One page of the greatest limit shows the whole ranking.
    have longest : Follows (page ceiling) 0 (.ok (ranked ceiling)) := by
      have here := pages ceiling (by omega) le_rfl 0 (Nat.zero_le _)
      have long := bounded ceiling
      rw [reach, Nat.min_eq_right (by omega), cut_last (by omega), List.drop_zero] at here
      exact .last here
    have same : whole = .ok (ranked ceiling) := (all ceiling (by omega) le_rfl).unique longest
    intro n some inside
    have here := pages (n - 1) (by omega) (by omega) 0 (Nat.zero_le _)
    rw [reach, Nat.zero_add, Nat.sub_add_cancel (by omega), Nat.min_eq_left inside] at here
    have follows := all (n - 1) (by omega) (by omega)
    rw [same] at follows
    by_cases more : n ≤ (ranked n).length
    · rw [cut_onward (by omega) (by omega), List.drop_zero] at here
      obtain ⟨rest, beyond, joined⟩ := follows.of_onward here
      refine ⟨?_, fun _ => more⟩
      have full : ((ranked n).take (n - 1)).length = n - 1 := by
        rw [List.length_take]
        omega
      cases rest with
      | error failure => cases joined
      | ok tail =>
        have split : ranked ceiling = (ranked n).take (n - 1) ++ tail := Except.ok.inj joined
        rw [split, List.take_append_of_le_length (by omega), List.take_take, Nat.min_self]
    · rw [cut_last (by omega), List.drop_zero] at here
      have one : ranked ceiling = ranked n := Except.ok.inj (follows.of_last here)
      rw [one]
      exact ⟨rfl, fun long => long⟩
  · intro steady
    refine ⟨.ok (ranked ceiling), fun limit some short => ?_⟩
    have follows := steady.follows (bounded ceiling) some (pages limit some short) (Nat.zero_le ceiling)
    rwa [List.drop_zero] at follows

end Pages

/-! ### Gathering from sources -/

section Sources

variable {α β : Type*} (before : β → β → Prop) [DecidableRel before] (tell : β → α) (sources : List (List β))

/-- The ranking of what the first `n` sources hold, cut to `n`. -/
def rankedFrom (n : Nat) : List α := (((sources.take n).flatten.insertionSort before).take n).map tell

/-- A gathering that a later source adds to is full, and what is added stands behind all of it but one. -/
def Filled (ceiling : Nat) : Prop :=
  ∀ n, 2 ≤ n → n ≤ ceiling → ∀ b ∈ ((sources.take ceiling).drop n).flatten,
    n ≤ (sources.take n).flatten.length ∧ n - 1 ≤ (sources.take n).flatten.countP fun a => before a b

variable {before tell sources} {ceiling : Nat}

theorem length_rankedFrom (n : Nat) : (rankedFrom before tell sources n).length = min n (sources.take n).flatten.length := by
  rw [rankedFrom, List.length_map, List.length_take, List.length_insertionSort]

section Congruence

variable {other : β → β → Prop} [DecidableRel other]

/-- Only how the relation compares what the sources hold matters. -/
theorem rankedFrom_congr (same : ∀ a ∈ sources.flatten, ∀ b ∈ sources.flatten, before a b ↔ other a b) :
    rankedFrom before tell sources = rankedFrom other tell sources := by
  funext n
  have inside : ∀ a ∈ (sources.take n).flatten, a ∈ sources.flatten := by
    intro a member
    obtain ⟨source, taken, held⟩ := List.mem_flatten.mp member
    exact List.mem_flatten.mpr ⟨source, List.mem_of_mem_take taken, held⟩
  have sorted := List.map_insertionSort before other id (sources.take n).flatten
    fun a left b right => same a (inside a left) b (inside b right)
  rw [List.map_id, List.map_id] at sorted
  rw [rankedFrom, rankedFrom, sorted]

theorem filled_congr (same : ∀ a ∈ sources.flatten, ∀ b ∈ sources.flatten, before a b ↔ other a b) :
    Filled before sources ceiling ↔ Filled other sources ceiling := by
  have early : ∀ n, ∀ a ∈ (sources.take n).flatten, a ∈ sources.flatten := by
    intro n a member
    obtain ⟨source, taken, held⟩ := List.mem_flatten.mp member
    exact List.mem_flatten.mpr ⟨source, List.mem_of_mem_take taken, held⟩
  have late : ∀ n, ∀ b ∈ ((sources.take ceiling).drop n).flatten, b ∈ sources.flatten := by
    intro n b member
    obtain ⟨source, taken, held⟩ := List.mem_flatten.mp member
    exact List.mem_flatten.mpr ⟨source, List.mem_of_mem_take (List.mem_of_mem_drop taken), held⟩
  have counts : ∀ n, ∀ b ∈ ((sources.take ceiling).drop n).flatten,
      (sources.take n).flatten.countP (fun a => before a b) = (sources.take n).flatten.countP fun a => other a b := by
    intro n b later
    apply List.countP_congr
    intro a member
    simp [same a (early n a member) b (late n b later)]
  constructor
  · intro filled n some inside b later
    rw [← counts n b later]
    exact filled n some inside b later
  · intro filled n some inside b later
    rw [counts n b later]
    exact filled n some inside b later

end Congruence

theorem steady_iff_filled [Std.Total before] [IsTrans β before]
    (told : ∀ a ∈ (sources.take ceiling).flatten, ∀ b ∈ (sources.take ceiling).flatten, tell a = tell b → before a b) :
    Steady (rankedFrom before tell sources) ceiling ↔ Filled before sources ceiling := by
  have parts : ∀ n ≤ ceiling, (sources.take ceiling).flatten =
      (sources.take n).flatten ++ ((sources.take ceiling).drop n).flatten := by
    intro n inside
    rw [← List.flatten_append]
    congr 1
    conv_lhs => rw [← List.take_append_drop n (sources.take ceiling), List.take_take, Nat.min_eq_left inside]
  have fronts : ∀ n ≤ ceiling, (rankedFrom before tell sources ceiling).take (n - 1) =
      (rankedFrom before tell sources n).take (n - 1) ↔
        ∀ b ∈ ((sources.take ceiling).drop n).flatten,
          n - 1 ≤ (sources.take n).flatten.countP fun a => before a b := by
    intro n inside
    rw [parts n inside] at told
    rw [← take_insertionSort_append_iff told (n - 1), ← parts n inside, rankedFrom, rankedFrom, ← List.map_take,
      ← List.map_take, List.take_take, List.take_take, Nat.min_eq_left (by omega), Nat.min_eq_left (by omega)]
  have sizes : ∀ n ≤ ceiling, (sources.take ceiling).flatten.length =
      (sources.take n).flatten.length + ((sources.take ceiling).drop n).flatten.length := by
    intro n inside
    rw [parts n inside, List.length_append]
  constructor
  · intro steady n some inside b later
    obtain ⟨front, long⟩ := steady n some inside
    have behind := (fronts n inside).mp front.symm b later
    have counted : (sources.take n).flatten.countP (fun a => before a b) ≤ (sources.take n).flatten.length :=
      List.countP_le_length
    have more := List.length_pos_of_mem later
    have size := sizes n inside
    rw [length_rankedFrom, length_rankedFrom] at long
    exact ⟨by omega, behind⟩
  · intro filled n some inside
    have behind := (fronts n inside).mpr fun b later => (filled n some inside b later).2
    refine ⟨behind.symm, ?_⟩
    rw [length_rankedFrom, length_rankedFrom]
    intro long
    have size := sizes n inside
    cases later : ((sources.take ceiling).drop n).flatten with
    | nil =>
      rw [later, List.length_nil] at size
      omega
    | cons b rest =>
      have full := (filled n some inside b (later ▸ List.mem_cons_self)).1
      omega

end Sources

end Paging
