import Mathlib.Data.List.Sort
import Mathlib.Data.Rat.Defs
import Rqmd.Query

/-! Reciprocal rank fusion. Scores are any numbers with the operations the code uses on `f32`. -/

namespace Rqmd

/-- What the code does with a score: arithmetic, literals, `partial_cmp` and `is_finite`. -/
class Score (S : Type) extends Add S, Sub S, Mul S, Div S where
  literal : Rat → S
  partialCmp : S → S → Option Ordering
  isFinite : S → Bool

instance : Score Rat where
  literal := id
  partialCmp a b := some (if a < b then .lt else if a = b then .eq else .gt)
  isFinite _ := true

variable {S : Type} [Score S]

/-- `a >= b` -/
def Score.atLeast (a b : S) : Bool :=
  match Score.partialCmp a b with
  | some .gt => true
  | some .eq => true
  | _ => false

def scoreDescThenPath (aScore : S) (aPath : String) (bScore : S) (bPath : String) : Ordering :=
  ((Score.partialCmp bScore aScore).getD .eq).then (compare aPath bPath)

structure RankedResult (S : Type) where
  filepath : String
  title : String
  backendScore : S
deriving DecidableEq

structure RankedListMeta where
  source : String
  queryType : QueryType
deriving DecidableEq

def dedupeByFilepath {S : Type} : List (RankedResult S) → List String → List (RankedResult S)
  | [], _ => []
  | r :: rest, seen =>
    if r.filepath ∈ seen then dedupeByFilepath rest seen else r :: dedupeByFilepath rest (r.filepath :: seen)

def rrfWeights (metas : List RankedListMeta) : List S :=
  metas.map fun m => if m.queryType = .original then Score.literal 2 else Score.literal 1

/-- What fusion keeps of a document. -/
structure Fused (S : Type) where
  result : RankedResult S
  rrfScore : S
  topRank : Nat

/-- One document of a list adds its share, or becomes an entry. -/
def contribute (weight : S) (rank : Nat) (r : RankedResult S) : List (Fused S) → List (Fused S)
  | [] => [⟨r, weight / (Score.literal 60 + Score.literal rank + Score.literal 1), rank⟩]
  | entry :: rest =>
    if entry.result.filepath = r.filepath then
      { entry with
        rrfScore := entry.rrfScore + weight / (Score.literal 60 + Score.literal rank + Score.literal 1)
        topRank := min rank entry.topRank } :: rest
    else entry :: contribute weight rank r rest

def addRanked (weight : S) (entries : List (Fused S)) (ranked : List (RankedResult S)) : List (Fused S) :=
  ((dedupeByFilepath ranked []).zipIdx).foldl (fun entries (r, rank) => contribute weight rank r entries) entries

def topRankBonus (entry : Fused S) : S :=
  if entry.topRank = 0 then entry.rrfScore + Score.literal (1 / 20)
  else if entry.topRank ≤ 2 then entry.rrfScore + Score.literal (1 / 50)
  else entry.rrfScore

/-- The entries of all lists, each with its weight, in the order their documents were first met. -/
def fusedEntries (lists : List (List (RankedResult S))) (weights : List S) : List (Fused S) :=
  lists.zipIdx.foldl (fun entries (ranked, i) => addRanked ((weights[i]?).getD (Score.literal 1)) entries ranked) []

/-- The order of `sort_by`. -/
def RankedResult.before (a b : RankedResult S) : Prop :=
  scoreDescThenPath a.backendScore a.filepath b.backendScore b.filepath ≠ .gt

instance : DecidableRel (RankedResult.before (S := S)) := fun _ _ => inferInstanceAs (Decidable (_ ≠ _))

def reciprocalRankFusion (lists : List (List (RankedResult S))) (weights : List S) : List (RankedResult S) :=
  ((fusedEntries lists weights).map fun entry =>
    { entry.result with backendScore := topRankBonus entry }).insertionSort RankedResult.before

/-! ### The entry of a document -/

/-- The first result of the lists for a filepath. -/
def firstRanked {S : Type} (lists : List (List (RankedResult S))) (filepath : String) : Option (RankedResult S) :=
  lists.flatten.find? fun r => r.filepath == filepath

/-- Each entry holds the result its document was first met with. -/
def FirstMet {S : Type} (met : List (RankedResult S)) (entries : List (Fused S)) : Prop :=
  ∀ entry ∈ entries, met.find? (fun r => r.filepath == entry.result.filepath) = some entry.result

def Covers {S : Type} (met : List (RankedResult S)) (entries : List (Fused S)) : Prop :=
  ∀ r ∈ met, ∃ entry ∈ entries, entry.result.filepath = r.filepath

/-- What deduplication keeps is the first result of its filepath. -/
theorem mem_dedupe {S : Type} {ranked : List (RankedResult S)} {seen : List String} {r : RankedResult S}
    (member : r ∈ dedupeByFilepath ranked seen) :
    r.filepath ∉ seen ∧ ranked.find? (fun other => other.filepath == r.filepath) = some r := by
  induction ranked generalizing seen with
  | nil => simp [dedupeByFilepath] at member
  | cons head rest ih =>
    rw [dedupeByFilepath] at member
    split at member
    · next met =>
      obtain ⟨fresh, found⟩ := ih member
      have other : head.filepath ≠ r.filepath := fun same => fresh (same ▸ met)
      exact ⟨fresh, by simp [other, found]⟩
    · next new =>
      rcases List.mem_cons.mp member with rfl | inside
      · exact ⟨new, by simp⟩
      · obtain ⟨fresh, found⟩ := ih inside
        have other : head.filepath ≠ r.filepath := fun same => fresh (same ▸ List.mem_cons_self)
        exact ⟨fun old => fresh (List.mem_cons_of_mem _ old), by simp [other, found]⟩

theorem dedupe_covers {S : Type} {ranked : List (RankedResult S)} {seen : List String} {r : RankedResult S}
    (member : r ∈ ranked) (fresh : r.filepath ∉ seen) :
    ∃ kept ∈ dedupeByFilepath ranked seen, kept.filepath = r.filepath := by
  induction ranked generalizing seen with
  | nil => simp at member
  | cons head rest ih =>
    rw [dedupeByFilepath]
    by_cases same : head.filepath = r.filepath
    · rw [if_neg (same ▸ fresh)]
      exact ⟨head, List.mem_cons_self, same⟩
    · have inside : r ∈ rest := by
        rcases List.mem_cons.mp member with rfl | inside
        · exact absurd rfl same
        · exact inside
      split
      · exact ih inside fresh
      · have unseen : r.filepath ∉ head.filepath :: seen := by
          intro old
          rcases List.mem_cons.mp old with equal | before
          · exact same equal.symm
          · exact fresh before
        obtain ⟨kept, found, path⟩ := ih inside unseen
        exact ⟨kept, List.mem_cons_of_mem _ found, path⟩

/-- An entry after a contribution is an old one with another score, or the new document's. -/
theorem mem_contribute {weight : S} {rank : Nat} {r : RankedResult S} {entries : List (Fused S)} {entry : Fused S}
    (member : entry ∈ contribute weight rank r entries) :
    (∃ old ∈ entries, old.result = entry.result) ∨
      (entry.result = r ∧ ∀ old ∈ entries, old.result.filepath ≠ r.filepath) := by
  induction entries with
  | nil =>
    rw [contribute, List.mem_singleton] at member
    exact .inr ⟨by rw [member], by simp⟩
  | cons head rest ih =>
    rw [contribute] at member
    split at member
    · rcases List.mem_cons.mp member with rfl | inside
      · exact .inl ⟨head, List.mem_cons_self, rfl⟩
      · exact .inl ⟨entry, List.mem_cons_of_mem _ inside, rfl⟩
    · next other =>
      rcases List.mem_cons.mp member with rfl | inside
      · exact .inl ⟨entry, List.mem_cons_self, rfl⟩
      · rcases ih inside with ⟨old, found, same⟩ | ⟨new, apart⟩
        · exact .inl ⟨old, List.mem_cons_of_mem _ found, same⟩
        · refine .inr ⟨new, fun old found => ?_⟩
          rcases List.mem_cons.mp found with rfl | behind
          · exact other
          · exact apart old behind

theorem contribute_covers {weight : S} {rank : Nat} {r : RankedResult S} {entries : List (Fused S)} {filepath : String}
    (known : (∃ entry ∈ entries, entry.result.filepath = filepath) ∨ r.filepath = filepath) :
    ∃ entry ∈ contribute weight rank r entries, entry.result.filepath = filepath := by
  induction entries with
  | nil =>
    rcases known with ⟨entry, member, _⟩ | same
    · simp at member
    · exact ⟨_, List.mem_singleton.mpr rfl, same⟩
  | cons head rest ih =>
    rw [contribute]
    split
    · next here =>
      rcases known with ⟨entry, member, same⟩ | same
      · rcases List.mem_cons.mp member with rfl | inside
        · exact ⟨_, List.mem_cons_self, same⟩
        · exact ⟨entry, List.mem_cons_of_mem _ inside, same⟩
      · exact ⟨_, List.mem_cons_self, here.trans same⟩
    · rcases known with ⟨entry, member, same⟩ | same
      · rcases List.mem_cons.mp member with rfl | inside
        · exact ⟨entry, List.mem_cons_self, same⟩
        · obtain ⟨found, place, path⟩ := ih (.inl ⟨entry, inside, same⟩)
          exact ⟨found, List.mem_cons_of_mem _ place, path⟩
      · obtain ⟨found, place, path⟩ := ih (.inr same)
        exact ⟨found, List.mem_cons_of_mem _ place, path⟩

def contributeAll (weight : S) (items : List (RankedResult S × Nat)) (entries : List (Fused S)) : List (Fused S) :=
  items.foldl (fun entries item => contribute weight item.2 item.1 entries) entries

theorem contributeAll_covers {weight : S} {items : List (RankedResult S × Nat)} {entries : List (Fused S)}
    {filepath : String}
    (known : (∃ entry ∈ entries, entry.result.filepath = filepath) ∨ ∃ item ∈ items, item.1.filepath = filepath) :
    ∃ entry ∈ contributeAll weight items entries, entry.result.filepath = filepath := by
  induction items generalizing entries with
  | nil =>
    rcases known with entry | ⟨item, member, _⟩
    · exact entry
    · simp at member
  | cons item rest ih =>
    apply ih
    rcases known with entry | ⟨found, member, same⟩
    · exact .inl (contribute_covers (.inl entry))
    · rcases List.mem_cons.mp member with rfl | inside
      · exact .inl (contribute_covers (.inr same))
      · exact .inr ⟨found, inside, same⟩

/-- The documents of one list, each the first of its filepath there, behind the results `met` before it. -/
theorem contributeAll_firstMet {weight : S} {met ranked : List (RankedResult S)}
    {items : List (RankedResult S × Nat)} {entries : List (Fused S)}
    (first : ∀ item ∈ items, ranked.find? (fun r => r.filepath == item.1.filepath) = some item.1)
    (held : FirstMet (met ++ ranked) entries) (covered : Covers met entries) :
    FirstMet (met ++ ranked) (contributeAll weight items entries) := by
  induction items generalizing entries with
  | nil => exact held
  | cons item rest ih =>
    apply ih (fun other member => first other (List.mem_cons_of_mem _ member))
    · intro entry member
      rcases mem_contribute member with ⟨old, found, same⟩ | ⟨new, apart⟩
      · rw [← same]
        exact held old found
      · -- a document no list before has met is found in this one
        have unmet : met.find? (fun r => r.filepath == item.1.filepath) = none := by
          refine List.find?_eq_none.mpr fun r inside same => ?_
          obtain ⟨old, found, path⟩ := covered r inside
          exact apart old found (path.trans (beq_iff_eq.mp same))
        rw [new, List.find?_append, unmet]
        exact first item List.mem_cons_self
    · intro r inside
      exact contribute_covers (.inl (covered r inside))

theorem addRanked_met {weight : S} {met ranked : List (RankedResult S)} {entries : List (Fused S)}
    (held : FirstMet met entries) (covered : Covers met entries) :
    FirstMet (met ++ ranked) (addRanked weight entries ranked) ∧
      Covers (met ++ ranked) (addRanked weight entries ranked) := by
  have items : ∀ item ∈ (dedupeByFilepath ranked []).zipIdx, item.1 ∈ dedupeByFilepath ranked [] := by
    intro item member
    exact (List.mem_zipIdx' member).2 ▸ List.getElem_mem _
  constructor
  · refine contributeAll_firstMet (fun item member => (mem_dedupe (items item member)).2) ?_ covered
    intro entry member
    rw [List.find?_append, held entry member]
    rfl
  · intro r member
    apply contributeAll_covers
    rcases List.mem_append.mp member with old | new
    · exact .inl (covered r old)
    · obtain ⟨kept, found, path⟩ := dedupe_covers new (List.not_mem_nil)
      obtain ⟨i, inside, same⟩ := List.mem_iff_getElem.mp found
      exact .inr ⟨(kept, i), List.mem_zipIdx_iff_getElem?.mpr (by rw [← same]; exact List.getElem?_eq_getElem inside), path⟩

theorem fusedEntries_met (lists : List (List (RankedResult S))) (weights : List S) :
    FirstMet lists.flatten (fusedEntries lists weights) := by
  have run : ∀ (rest : List (List (RankedResult S))) (k : Nat) (met : List (RankedResult S)) (entries : List (Fused S)),
      FirstMet met entries → Covers met entries →
        FirstMet (met ++ rest.flatten) ((rest.zipIdx k).foldl (fun entries (ranked, i) =>
          addRanked ((weights[i]?).getD (Score.literal 1)) entries ranked) entries) := by
    intro rest
    induction rest with
    | nil => exact fun k met entries held _ => by simpa using held
    | cons ranked rest ih =>
      intro k met entries held covered
      obtain ⟨next, known⟩ :=
        @addRanked_met S _ ((weights[k]?).getD (Score.literal 1)) met ranked entries held covered
      have onward := ih (k + 1) _ _ next known
      rw [List.append_assoc] at onward
      exact onward
  have all := run lists 0 [] [] (fun _ member => by simp at member) (fun _ member => by simp at member)
  rwa [List.nil_append] at all

/-- A fused result carries the title its document was first met with. -/
theorem fusion_first {lists : List (List (RankedResult S))} {weights : List S} {r : RankedResult S}
    (member : r ∈ reciprocalRankFusion lists weights) :
    ∃ first, firstRanked lists r.filepath = some first ∧ first.filepath = r.filepath ∧ first.title = r.title := by
  have inside := (List.mem_insertionSort _).mp member
  obtain ⟨entry, found, rfl⟩ := List.mem_map.mp inside
  exact ⟨entry.result, fusedEntries_met lists weights entry found, rfl, rfl⟩

end Rqmd
