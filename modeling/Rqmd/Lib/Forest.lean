import Mathlib.Data.List.Basic

/-! Walks over trees of named items that may leave whole branches out. A walk that prunes and a walk that does not give
the same under a filter that keeps nothing of what is pruned. -/

/-- The entries of a branch, in order. -/
inductive Forest (N S : Type) where
  | nil
  | leaf (name : N) (item : S) (rest : Forest N S)
  | branch (name : N) (below rest : Forest N S)

namespace Forest

variable {N S : Type}

/-- The entries under `place` with their paths, a branch before what is below it; `keep` is asked for each, with whether
it is a branch, and a branch it rejects is left out with all below it. -/
def walk (keep : Bool → List N → Bool) : List N → Forest N S → List (List N × Option S)
  | _, nil => []
  | place, leaf name item rest =>
    (if keep false (place ++ [name]) then [(place ++ [name], some item)] else []) ++ walk keep place rest
  | place, branch name below rest =>
    (if keep true (place ++ [name]) then (place ++ [name], none) :: walk keep (place ++ [name]) below else []) ++
      walk keep place rest

/-- All leaves under `place`, with their paths. -/
def leaves : List N → Forest N S → List (List N × S)
  | _, nil => []
  | place, leaf name item rest => (place ++ [name], item) :: leaves place rest
  | place, branch name below rest => leaves (place ++ [name]) below ++ leaves place rest

variable {keep : Bool → List N → Bool} {place : List N} {forest : Forest N S}

theorem place_of_mem_walk {entry : List N × Option S} (found : entry ∈ walk keep place forest) : place <+: entry.1 := by
  induction forest generalizing place with
  | nil => exact absurd found List.not_mem_nil
  | leaf name item rest later =>
    rcases List.mem_append.mp found with here | behind
    · split at here
      · rw [List.mem_singleton.mp here]
        exact List.prefix_append _ _
      · exact absurd here List.not_mem_nil
    · exact later behind
  | branch name below rest inner later =>
    rcases List.mem_append.mp found with here | behind
    · split at here
      · rcases List.mem_cons.mp here with same | inside
        · rw [same]
          exact List.prefix_append _ _
        · exact (List.prefix_append _ _).trans (inner inside)
      · exact absurd here List.not_mem_nil
    · exact later behind

/-- Under a filter that drops all that is pruned, pruning makes no difference. -/
theorem filter_walk {holds : List N × Option S → Bool}
    (sound : ∀ isBranch path, keep isBranch path = false → ∀ entry : List N × Option S, path <+: entry.1 →
      holds entry = false) (place : List N) (forest : Forest N S) :
    (walk keep place forest).filter holds = (walk (fun _ _ => true) place forest).filter holds := by
  induction forest generalizing place with
  | nil => rfl
  | leaf name item rest later =>
    simp only [walk, if_true, List.filter_append, later]
    by_cases kept : keep false (place ++ [name]) = true
    · rw [if_pos kept]
    · have dropped := sound false _ (Bool.eq_false_iff.mpr kept) (place ++ [name], some item) List.prefix_rfl
      rw [if_neg kept, List.filter_cons_of_neg (by rw [dropped]; exact Bool.false_ne_true)]
  | branch name below rest inner later =>
    simp only [walk, if_true, List.filter_append, later]
    by_cases kept : keep true (place ++ [name]) = true
    · rw [if_pos kept, List.filter_cons, List.filter_cons, inner]
    · rw [if_neg kept]
      have pruned := sound true _ (Bool.eq_false_iff.mpr kept)
      have gone : ((place ++ [name], none) :: walk (fun _ _ => true) (place ++ [name]) below).filter holds = [] := by
        apply List.filter_eq_nil_iff.mpr
        intro entry inside
        have under : place ++ [name] <+: entry.1 := by
          rcases List.mem_cons.mp inside with same | found
          · exact same ▸ List.prefix_rfl
          · exact place_of_mem_walk found
        rw [pruned entry under]
        exact Bool.false_ne_true
      rw [gone, List.filter_nil]

/-- The leaves are what an unpruned walk meets beside branches. -/
theorem filterMap_walk (place : List N) (forest : Forest N S) :
    (walk (fun _ _ => true) place forest).filterMap (fun entry => entry.2.map fun item => (entry.1, item)) =
      leaves place forest := by
  induction forest generalizing place with
  | nil => rfl
  | leaf name item rest later =>
    simp only [walk, if_true, List.filterMap_append, later, leaves]
    rfl
  | branch name below rest inner later =>
    simp only [walk, if_true, List.filterMap_append, later, leaves, List.filterMap_cons, Option.map_none, inner]

end Forest
