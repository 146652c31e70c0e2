import Rqmd.Embedding

/-! The full-text index. Deletes and inserts are staged in the writer; a commit makes the staged state
durable, and a process that dies first leaves the committed one. -/

namespace Rqmd

structure FtsEntry where
  filepath : String
  title : String
  body : String
  frontmatter : String
  docId : Nat
deriving DecidableEq

/-- `committed` is what is on disk and what searches see, `working` what the next commit will make of
it. `staged` lists the inserts since the last commit. -/
structure FtsIndex where
  committed : List FtsEntry
  working : List FtsEntry
  staged : List (String × Nat)
  writer : Bool
  frontmatterField : Bool
deriving DecidableEq

/-- The terms of `query` stand in `indexed` at one common offset. -/
def phraseMatches (query indexed : List (Nat × String)) : Bool :=
  match query with
  | [] => false
  | (start, first) :: _ => indexed.any fun (at', term) => term == first &&
      query.all fun (pos, wanted) => indexed.any fun (other, found) =>
        found == wanted && other + start == at' + pos

theorem phrase_matches_self (terms : List (Nat × String)) (some : terms ≠ []) :
    phraseMatches terms terms = true := by
  cases terms with
  | nil => exact absurd rfl some
  | cons head tail =>
    obtain ⟨start, first⟩ := head
    simp only [phraseMatches, List.any_eq_true, Bool.and_eq_true, beq_iff_eq, List.all_eq_true]
    refine ⟨(start, first), List.mem_cons_self, rfl, ?_⟩
    rintro ⟨pos, wanted⟩ member
    exact ⟨(pos, wanted), member, rfl, by omega⟩

namespace FtsIndex

variable {V : Type}

def opened (committed : List FtsEntry) (frontmatterField : Bool) : FtsIndex :=
  ⟨committed, committed, [], false, frontmatterField⟩

/-- The ids of the committed entries the phrase query finds whose stored path is `filepath`. -/
def committedDocIdsAt (env : Env V) (index : FtsIndex) (filepath : String) : List Nat :=
  (index.committed.filter fun e =>
    phraseMatches (env.pathTerms filepath) (env.pathTerms e.filepath) && e.filepath == filepath).map
    FtsEntry.docId

/-- Entries staged under `filepath` leave the list, and their ids are returned. -/
def takeStaged (index : FtsIndex) (filepath : String) : List Nat × FtsIndex :=
  ((index.staged.filter fun s => s.1 == filepath).map Prod.snd,
    { index with staged := index.staged.filter fun s => s.1 != filepath })

/-- The delete query: every entry the phrase finds that carries one of `ids`. -/
def deleteQuery (env : Env V) (index : FtsIndex) (filepath : String) (ids : List Nat) : FtsIndex :=
  { index with
    working := index.working.filter fun e =>
      !(phraseMatches (env.pathTerms filepath) (env.pathTerms e.filepath) && ids.contains e.docId)
    writer := true }

def entryOf (env : Env V) (index : FtsIndex) (filepath title body frontmatter : String) (docId : Nat) : FtsEntry :=
  ⟨filepath, env.normalizeNfc title, env.normalizeNfc body,
    if index.frontmatterField ∧ frontmatter ≠ "" then env.normalizeNfc frontmatter else "", docId⟩

def insertEntry (index : FtsIndex) (entry : FtsEntry) : FtsIndex :=
  { index with
    working := index.working ++ [entry]
    staged := index.staged ++ [(entry.filepath, entry.docId)]
    writer := true }

/-- The writer drops what it staged. -/
def rollback (index : FtsIndex) : FtsIndex := { index with working := index.committed, staged := [] }

def deleteAll (index : FtsIndex) : FtsIndex := { index with working := [], staged := [], writer := true }

/-- An empty index of the current schema. -/
def recreated : FtsIndex := ⟨[], [], [], false, true⟩

def indexedFilepaths (index : FtsIndex) : List String := index.committed.map FtsEntry.filepath

def commitStaged (index : FtsIndex) : FtsIndex := { index with committed := index.working, staged := [] }

end FtsIndex

end Rqmd
