import Rqmd.Trails

/-! The donor of an edited document. While a document waits to be embedded, the last of its texts that had vectors
keeps them: the row names it, and a reclaim spares what a row names. -/

namespace Rqmd
open Interrupt Transition

variable {V : Type} {env : Env V} {backend : Backend} {c : CollectionName} {p : String} {s t : Store V}

namespace Db

variable {db after : Db} {donor : Option String}

/-- The last text of the document that had vectors when an edit superseded it. -/
def donorAfter (db after : Db) (c : CollectionName) (p : String) (donor : Option String) : Option String :=
  match db.trailAt c p, after.trailAt c p with
  | some old, some new => if old.hash ≠ new.hash ∧ db.hashHasAnyVector old.hash = true then some old.hash else donor
  | _, _ => donor

/-- The donor is named by the row and has vectors, as long as the current text has none. -/
structure Spares (db : Db) (donor : Option String) (row : Trail) : Prop where
  active : row.active = true
  named : db.hashHasAnyVector row.hash = false → ∀ v, donor = some v → row.prevHash = some v ∧ db.hashHasAnyVector v = true

/-- What holds of the document between commands. -/
structure Kept (env : Env V) (c : CollectionName) (p : String) (db : Db) (donor : Option String) : Prop where
  hashed : db.Hashed env
  ruleless : db.Ruleless
  unrecorded : db.trailAt c p = none → donor = none
  worded : ∀ row, db.trailAt c p = some row → ∃ text, text ≠ "" ∧ row.hash = env.contentHash text
  spares : ∀ row, db.trailAt c p = some row → db.Spares donor row

theorem hashHasAnyVector_iff {hash : String} : db.hashHasAnyVector hash = true ↔ ∃ row ∈ db.vectors, row.hash = hash := by
  simp [hashHasAnyVector]

theorem trailAt_mem {row : Document} (member : row ∈ db.documents) :
    db.trailAt row.collection row.path = some (trail row) := by
  unfold trailAt
  rw [lookup_mem member]
  rfl

theorem trailAt_congr (same : after.documents = db.documents) : after.trailAt c p = db.trailAt c p := by
  unfold trailAt getDocumentByFilepath
  rw [same]

theorem donorAfter_same (same : after.trailAt c p = db.trailAt c p) : db.donorAfter after c p donor = donor := by
  unfold donorAfter
  rw [same]
  cases db.trailAt c p with
  | none => rfl
  | some row => simp

/-- A change of the vectors that takes no document's last rows but those of a text nobody waits for. -/
theorem Kept.withVectors (kept : Kept env c p db donor) (trail : after.trailAt c p = db.trailAt c p)
    (hashed : after.Hashed env) (ruleless : after.Ruleless)
    (own : ∀ row, db.trailAt c p = some row → after.hashHasAnyVector row.hash = false → db.hashHasAnyVector row.hash = false ∧
      ∀ v, row.prevHash = some v → db.hashHasAnyVector v = true → after.hashHasAnyVector v = true) :
    Kept env c p after donor := by
  refine ⟨hashed, ruleless, trail ▸ kept.unrecorded, trail ▸ kept.worded, fun row found => ?_⟩
  rw [trail] at found
  have spared := kept.spares row found
  refine ⟨spared.active, fun none v named => ?_⟩
  obtain ⟨before, holds⟩ := own row found none
  obtain ⟨mark, present⟩ := spared.named before v named
  exact ⟨mark, holds v mark present⟩

/-- A reclaim of orphans spares the document's text and its donor. -/
theorem Kept.spared {row : Trail} (kept : Kept env c p db donor) (found : db.trailAt c p = some row) {hash : String}
    (wanted : hash = row.hash ∨ row.prevHash = some hash ∧ db.hashHasAnyVector row.hash = false) :
    db.orphaned hash = false := by
  obtain ⟨doc, inside, rfl⟩ := Option.map_eq_some_iff.mp found
  have stored := (mem_lookup inside).1
  have active : doc.active = true := (kept.spares _ found).active
  rcases wanted with rfl | ⟨mark, bare⟩
  · have used : db.documents.any (fun d => d.active && d.hash == (trail doc).hash) = true :=
      Table.any_eq_true.mpr ⟨doc, stored, by simp [active, trail]⟩
    simp [orphaned, used]
  · have named : db.documents.any (fun d => d.active && d.prevHash == some hash && !db.hashHasAnyVector d.hash) = true := by
      refine Table.any_eq_true.mpr ⟨doc, stored, ?_⟩
      change doc.prevHash = some hash at mark
      change db.hashHasAnyVector doc.hash = false at bare
      simp [active, mark, bare]
    simp [orphaned, named]

end Db

/-- A completed reclaim of the orphans. -/
theorem Store.Reclaimed.kept {donor : Option String} (reclaimed : Store.Reclaimed s.db.orphanedVectorHashes s t)
    (kept : s.db.Kept env c p donor) : t.db.Kept env c p donor := by
  have stays : ∀ hash, s.db.orphaned hash = false → s.db.hashHasAnyVector hash = true → t.db.hashHasAnyVector hash = true := by
    intro hash wanted known
    obtain ⟨row, stored, rfl⟩ := Db.hashHasAnyVector_iff.mp known
    refine Db.hashHasAnyVector_iff.mpr ⟨row, (reclaimed.rows row).mpr ⟨stored, fun listed => ?_⟩, rfl⟩
    obtain ⟨other, -, orphan, same⟩ := Db.mem_orphanedVectorHashes.mp listed
    rw [same, wanted] at orphan
    cases orphan
  have hashed : t.db.Hashed env := by
    unfold Db.Hashed
    rw [reclaimed.texts.content]
    exact kept.hashed
  have ruleless : t.db.Ruleless := by
    unfold Db.Ruleless
    rw [reclaimed.texts.collections]
    exact kept.ruleless
  refine kept.withVectors (Db.trailAt_congr reclaimed.documents) hashed ruleless fun row found none => ?_
  have before : s.db.hashHasAnyVector row.hash = false := by
    by_contra known
    rw [stays row.hash (kept.spared found (.inl rfl)) (by simpa using known)] at none
    cases none
  exact ⟨before, fun v mark => stays v (kept.spared found (.inr ⟨mark, before⟩))⟩

/-- An update leaves the document with its donor, edited or not. -/
theorem Store.Aged.kept {donor : Option String} {offered : String → Prop} {fresh : Prop}
    (here : Store.Aged env c p offered s fresh t) (kept : s.db.Kept env c p donor)
    (texts : ∀ text, offered text → text ≠ "") : t.db.Kept env c p (s.db.donorAfter t.db c p donor) := by
  have present : ∀ hash, t.db.hashHasAnyVector hash = s.db.hashHasAnyVector hash := by
    intro hash
    simp only [Db.hashHasAnyVector, here.vectors]
  rcases here.trail with same | ⟨-, text, offer, changed, edit⟩
  · rw [Db.donorAfter_same same]
    refine ⟨here.hashed, here.ruleless, same ▸ kept.unrecorded, same ▸ kept.worded, fun row found => ?_⟩
    rw [same] at found
    have spared := kept.spares row found
    refine ⟨spared.active, fun bare v named => ?_⟩
    rw [present] at bare ⊢
    exact spared.named bare v named
  · refine ⟨here.hashed, here.ruleless, fun none => ?_, fun row found => ?_, fun row found => ?_⟩
    · rw [edit] at none
      cases none
    · rw [edit] at found
      obtain rfl := Option.some.inj found
      exact ⟨text, texts text offer, rfl⟩
    · have whole : t.db.trailAt c p = some row := found
      rw [edit] at found
      obtain rfl := Option.some.inj found
      refine ⟨rfl, fun bare v named => ?_⟩
      rw [present] at bare ⊢
      change s.db.hashHasAnyVector (env.contentHash text) = false at bare
      unfold Db.donorAfter at named
      rw [edit] at named
      cases before : s.db.trailAt c p with
      | none =>
        rw [before, kept.unrecorded before] at named
        cases named
      | some old =>
        have apart : old.hash ≠ env.contentHash text := changed old before
        simp only [before, Db.edited, ne_eq, apart, not_false_eq_true, true_and] at named
        simp only [Db.edited, Option.bind_some, bare, Bool.false_eq_true, if_false]
        by_cases known : s.db.hashHasAnyVector old.hash = true
        · rw [if_pos known] at named ⊢
          obtain rfl := Option.some.inj named
          exact ⟨rfl, known⟩
        · rw [if_neg known] at named ⊢
          exact (kept.spares old before).named (by simpa using known) v named

/-! ### An embed run -/

/-- Only the empty text has the empty text's hash. -/
def Env.ApartFromEmpty (env : Env V) : Prop := ∀ text, env.contentHash text = env.contentHash "" → text = ""

theorem Db.Kept.nonEmpty {db : Db} {donor : Option String} {row : Db.Trail} (kept : db.Kept env c p donor)
    (apart : env.ApartFromEmpty) (found : db.trailAt c p = some row) : db.contentNonEmpty row.hash = true := by
  obtain ⟨doc, inside, rfl⟩ := Option.map_eq_some_iff.mp found
  obtain ⟨content, stored, same⟩ := db.referenced doc (Db.mem_lookup inside).1
  obtain ⟨text, some, hash⟩ := kept.worded _ found
  by_contra empty
  have bare : content.doc = "" := by
    by_contra long
    apply empty
    refine Table.any_eq_true.mpr ⟨content, stored, ?_⟩
    have size : content.doc.isEmpty = false := by simpa using long
    simpa [Db.trail, same, String.isEmpty] using size
  have equal : env.contentHash text = env.contentHash "" := by
    rw [← hash, ← bare, ← kept.hashed content stored]
    exact same.symm
  exact some (apart text equal)

/-- A completed pass: the document's text has vectors now, or it has its donor still. -/
theorem PassLeft.kept {start db : Db} {donor : Option String} {cols : List Collection} {taken : List Place}
    {result : EmbedRun × EmbedFlow} (pass : PassLeft env backend start cols taken result db)
    (kept : start.Kept env c p donor) (apart : env.ApartFromEmpty) :
    db.Kept env c p donor ∧ (db.trailAt c p).map Db.Trail.hash = (start.trailAt c p).map Db.Trail.hash := by
  have hashed : db.Hashed env := by
    unfold Db.Hashed
    rw [pass.texts.content]
    exact kept.hashed
  have ruleless : db.Ruleless := by
    unfold Db.Ruleless
    rw [pass.texts.collections]
    exact kept.ruleless
  have taken_known : ∀ hash ∈ taken.map Prod.fst, db.hashHasAnyVector hash = true := by
    intro hash listed
    obtain ⟨place, member, rfl⟩ := List.mem_map.mp listed
    exact Db.hashHasAnyVector_iff.mpr (pass.stored place member).some
  have untaken : ∀ hash, hash ∉ taken.map Prod.fst → db.hashHasAnyVector hash = start.hashHasAnyVector hash := by
    intro hash outside
    rw [Bool.eq_iff_iff, Db.hashHasAnyVector_iff, Db.hashHasAnyVector_iff]
    constructor
    · intro ⟨row, stored, same⟩
      exact ⟨row, (pass.others hash outside row same).mp stored, same⟩
    · intro ⟨row, stored, same⟩
      exact ⟨row, (pass.others hash outside row same).mpr stored, same⟩
  have grown : ∀ hash, start.hashHasAnyVector hash = true → db.hashHasAnyVector hash = true := by
    intro hash known
    by_cases listed : hash ∈ taken.map Prod.fst
    · exact taken_known hash listed
    · rw [untaken hash listed]
      exact known
  cases before : start.trailAt c p with
  | none =>
    have absent : db.trailAt c p = none := by
      by_contra recorded
      obtain ⟨row, found⟩ := Option.ne_none_iff_exists'.mp recorded
      obtain ⟨later, inside, -⟩ := Option.map_eq_some_iff.mp found
      obtain ⟨stored, rfl, rfl⟩ := Db.mem_lookup inside
      obtain ⟨doc, there, same⟩ := pass.texts.before_document stored
      have alike := Document.alike same
      have known := Db.trailAt_mem there
      rw [← alike.collection, ← alike.path, before] at known
      cases known
    refine ⟨⟨hashed, ruleless, fun _ => kept.unrecorded before, fun row found => ?_, fun row found => ?_⟩, by rw [absent]⟩
    · rw [absent] at found
      cases found
    · rw [absent] at found
      cases found
  | some row =>
    have spared := kept.spares row before
    obtain ⟨doc, inside, rfl⟩ := Option.map_eq_some_iff.mp before
    obtain ⟨stored, rfl, rfl⟩ := Db.mem_lookup inside
    rcases pass.marks doc stored with still | ⟨cleared, lost⟩
    · have found : db.trailAt doc.collection doc.path = some (Db.trail doc) := by
        simp [Db.trailAt, Db.lookup_mem still]
      refine ⟨⟨hashed, ruleless, fun none => ?_, found ▸ before ▸ kept.worded, fun row same => ?_⟩, by rw [found]⟩
      · rw [found] at none
        cases none
      · rw [found] at same
        obtain rfl := Option.some.inj same
        refine ⟨spared.active, fun bare v named => ?_⟩
        have bareBefore : start.hashHasAnyVector (Db.trail doc).hash = false := by
          by_contra known
          rw [grown _ (by simpa using known)] at bare
          cases bare
        obtain ⟨mark, known⟩ := spared.named bareBefore v named
        exact ⟨mark, grown v known⟩
    · have own : doc.hash ∈ taken.map Prod.fst := by
        refine lost.resolve_right fun empty => ?_
        have some : start.contentNonEmpty doc.hash = true := kept.nonEmpty apart before
        rw [empty] at some
        cases some
      have known := taken_known doc.hash own
      have found : db.trailAt doc.collection doc.path = some (Db.trail doc.unmarked) := Db.trailAt_mem cleared
      refine ⟨⟨hashed, ruleless, fun none => ?_, fun row same => ?_, fun row same => ?_⟩, by rw [found]; rfl⟩
      · rw [found] at none
        cases none
      · rw [found] at same
        obtain rfl := Option.some.inj same
        exact kept.worded (Db.trail doc) before
      · rw [found] at same
        obtain rfl := Option.some.inj same
        refine ⟨spared.active, fun bare => ?_⟩
        change db.hashHasAnyVector doc.hash = false at bare
        rw [known] at bare
        cases bare

end Rqmd
