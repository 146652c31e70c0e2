import Mathlib.Data.List.Induction
import Rqmd.Exclusion
import Rqmd.Widening

/-! Documents similar to a stored one. Vectors are kept by content hash and results are documents, so among
documents with one text the choice of the document that a vector stands for decides which of them is found. -/

namespace Rqmd
open Select

variable {V S : Type} [Score S]

/-! ### The search -/

def similarMaxChunks : Nat := 8

def similarSize (limit used total : Nat) : Nat := min (max (limit * 4 + used) (limit + 1)) (max total 1)

def storedVector (s : Store V) (vid : Nat) : Except Failure V :=
  match s.hnsw.getVector vid with
  | some vector => .ok vector
  | none => .error ("no vector found for vid " ++ toString vid)

/-- What is near to each of the vectors, one after the other. -/
def similarHits {S : Type} (engine : Engine V S) (s : Store V) (k : Nat) :
    List Nat → Except Failure (List (Document × S × Nat))
  | [] => pure []
  | vid :: rest => do
    let embedding ← storedVector s vid
    let hits ← nearestIn engine s embedding none k
    let others ← similarHits engine s k rest
    pure (hits ++ others)

/-- Keep the more similar of two hits on one file. -/
def keepBest (hit : Document × S) : List (Document × S) → List (Document × S)
  | [] => [hit]
  | best :: rest =>
    if best.1.filepath = hit.1.filepath then
      (if Score.partialCmp hit.2 best.2 = some .gt then hit else best) :: rest
    else best :: keepBest hit rest

/-- The best hit on each file but the source. -/
def bestByFile (source : String) (hits : List (Document × S × Nat)) : List (Document × S) :=
  hits.foldl (fun best hit => if hit.1.filepath = source then best else keepBest (hit.1, hit.2.1) best) []

def moreSimilar (a b : Document × S) : Prop := scoreDescThenPath a.2 a.1.filepath b.2 b.1.filepath ≠ .gt

instance : DecidableRel (moreSimilar (S := S)) := fun _ _ => inferInstanceAs (Decidable (_ ≠ _))

def similarToHash (engine : Engine V S) (s : Store V) (hash sourceCollection sourcePath : String) (limit : Nat) :
    Except Failure (List (SearchResult S)) := do
  let vids := s.db.vidsForHash hash
  if vids = [] then throw "no stored vectors for this document — run `rqmd embed` first"
  else
    let used := vids.take similarMaxChunks
    let hits ← similarHits engine s (similarSize limit used.length s.hnsw.inner.size) used
    let ranked := (bestByFile (sourceCollection ++ "/" ++ sourcePath) hits).insertionSort moreSimilar
    pure ((ranked.take limit).map fun found => resultFromDoc s.db found.1 found.2)

/-! ### Which documents are found -/

/-- The document is among the results. -/
def AppearsIn {S : Type} (d : Document) (found : Except Failure (List (SearchResult S))) : Prop :=
  ∃ results, found = .ok results ∧ ∃ r ∈ results, r.collection = d.collection.text ∧ r.path = d.path

/-- The search for what is similar to a document. -/
def similarTo (engine : Engine V S) (s : Store V) (d : Document) (limit : Nat) : Except Failure (List (SearchResult S)) :=
  similarToHash engine s d.hash d.collection.text d.path limit

/-- Each of the two documents is found for the other one, or neither is. -/
def FoundAlike (engine : Engine V S) (s : Store V) (a b : Document) : Prop :=
  ∀ limit, s.db.documents.rows.length ≤ limit →
    (AppearsIn b (similarTo engine s a limit) ↔ AppearsIn a (similarTo engine s b limit))

/-- The vectors that a search for the hash starts from are all in the index. -/
def Searchable (s : Store V) (hash : String) : Prop :=
  s.db.vidsForHash hash ≠ [] ∧ ∀ vid ∈ (s.db.vidsForHash hash).take similarMaxChunks, vid ∈ s.hnsw.inner.keys

/-- A third active document with the text of `a` is before both in the order of collection and path. -/
def Db.Preceded (db : Db) (a b : Document) : Prop :=
  ∃ d ∈ db.documents, d.active = true ∧ d.hash = a.hash ∧ d ≠ a ∧ d ≠ b ∧ documentOrder d a ∧ documentOrder d b

/-- Asked for as many vectors as the index holds, the vector engine answers with all of them. -/
def Exhaustive {S : Type} (engine : Engine V S) (vectors : Vectors V) : Prop :=
  ∀ embedding k, vectors.size ≤ k →
    ∃ hits, engine.nearest vectors embedding k = .ok hits ∧ ∀ vid ∈ vectors.keys, vid ∈ hits.map Prod.fst

theorem mem_keepBest {hit : Document × S} {best : List (Document × S)} {e : Document × S}
    (member : e ∈ keepBest hit best) : e = hit ∨ e ∈ best := by
  induction best with
  | nil => exact .inl (List.mem_singleton.mp member)
  | cons first rest later =>
    unfold keepBest at member
    split at member
    · rcases List.mem_cons.mp member with here | inside
      · split at here
        · exact .inl here
        · exact .inr (List.mem_cons.mpr (.inl here))
      · exact .inr (List.mem_cons_of_mem _ inside)
    · rcases List.mem_cons.mp member with here | inside
      · exact .inr (List.mem_cons.mpr (.inl here))
      · exact (later inside).imp id (List.mem_cons_of_mem _)

/-- The files with a best hit are those that had one, and the new one's. -/
theorem keepBest_files (hit : Document × S) (best : List (Document × S)) :
    (keepBest hit best).map (fun e => e.1.filepath) =
      if hit.1.filepath ∈ best.map (fun e => e.1.filepath) then best.map fun e => e.1.filepath
      else best.map (fun e => e.1.filepath) ++ [hit.1.filepath] := by
  induction best with
  | nil => rfl
  | cons first rest later =>
    unfold keepBest
    by_cases same : first.1.filepath = hit.1.filepath
    · have kept : (if Score.partialCmp hit.2 first.2 = some .gt then hit else first).1.filepath = first.1.filepath := by
        split
        · exact same.symm
        · rfl
      rw [if_pos same, List.map_cons, kept, List.map_cons, if_pos (List.mem_cons.mpr (.inl same.symm))]
    · have apart : hit.1.filepath ∈ first.1.filepath :: rest.map (fun e => e.1.filepath) ↔
          hit.1.filepath ∈ rest.map fun e => e.1.filepath := by
        rw [List.mem_cons, or_iff_right (Ne.symm same)]
      rw [if_neg same, List.map_cons, later, List.map_cons]
      by_cases known : hit.1.filepath ∈ rest.map fun e => e.1.filepath
      · rw [if_pos known, if_pos (apart.mpr known)]
      · rw [if_neg known, if_neg (mt apart.mp known), List.cons_append]

/-- What the best hits are of the hits so far. -/
structure BestOf (source : String) (hits : List (Document × S × Nat)) (best : List (Document × S)) : Prop where
  found : ∀ e ∈ best, ∃ h ∈ hits, h.1 = e.1 ∧ h.1.filepath ≠ source
  every : ∀ h ∈ hits, h.1.filepath ≠ source → h.1.filepath ∈ best.map fun e => e.1.filepath
  once : (best.map fun e => e.1.filepath).Nodup

theorem BestOf.next {source : String} {hits : List (Document × S × Nat)} {best : List (Document × S)}
    (bestOf : BestOf source hits best) (hit : Document × S × Nat) :
    BestOf source (hits ++ [hit]) (if hit.1.filepath = source then best else keepBest (hit.1, hit.2.1) best) := by
  by_cases own : hit.1.filepath = source
  · rw [if_pos own]
    refine ⟨fun e member => ?_, fun h member other => ?_, bestOf.once⟩
    · obtain ⟨h, inside, same⟩ := bestOf.found e member
      exact ⟨h, List.mem_append_left _ inside, same⟩
    · rcases List.mem_append.mp member with old | new
      · exact bestOf.every h old other
      · rw [List.mem_singleton.mp new] at other
        exact absurd own other
  · rw [if_neg own]
    have files := keepBest_files (hit.1, hit.2.1) best
    refine ⟨fun e member => ?_, fun h member other => ?_, ?_⟩
    · rcases mem_keepBest member with rfl | old
      · exact ⟨hit, List.mem_append_right _ List.mem_cons_self, rfl, own⟩
      · obtain ⟨h, inside, same⟩ := bestOf.found e old
        exact ⟨h, List.mem_append_left _ inside, same⟩
    · have grown : ∀ path, path ∈ best.map (fun e => e.1.filepath) ∨ path = hit.1.filepath →
          path ∈ (keepBest (hit.1, hit.2.1) best).map fun e => e.1.filepath := by
        intro path place
        rw [files]
        split
        · next known => exact place.elim id fun here => here ▸ known
        · exact List.mem_append.mpr (place.imp id fun here => List.mem_singleton.mpr here)
      rcases List.mem_append.mp member with old | new
      · exact grown _ (.inl (bestOf.every h old other))
      · rw [List.mem_singleton.mp new]
        exact grown _ (.inr rfl)
    · rw [files]
      split
      · exact bestOf.once
      · next fresh =>
        rw [← List.concat_eq_append]
        exact bestOf.once.concat fresh

theorem bestOf (source : String) (hits : List (Document × S × Nat)) : BestOf source hits (bestByFile source hits) := by
  induction hits using List.reverseRecOn with
  | nil => exact ⟨fun _ none => absurd none List.not_mem_nil, fun _ none => absurd none List.not_mem_nil, .nil⟩
  | append_singleton hits hit before =>
    unfold bestByFile at before ⊢
    rw [List.foldl_append]
    exact before.next hit

/-! ### What a vector stands for -/

section Ruleless
variable {engine : Engine V S} {s : Store V} {hits : List (Document × S × Nat)} {k : Nat}

omit [Score S] in
/-- Every hit is on the document its vector stands for. -/
theorem similarHits_resolve {vids : List Nat} (found : similarHits engine s k vids = .ok hits) :
    (∀ vid ∈ vids, vid ∈ s.hnsw.inner.keys) ∧
      ∀ h ∈ hits, ∃ vid, s.db.docChunkForVidInExcluding engine.globs vid none = some (h.1, h.2.2) := by
  induction vids generalizing hits with
  | nil =>
    rw [← ok_of_pure found]
    exact ⟨fun _ none => absurd none List.not_mem_nil, fun _ none => absurd none List.not_mem_nil⟩
  | cons vid rest later =>
    obtain ⟨embedding, stored, next⟩ := ok_of_bind found
    obtain ⟨near, search, more⟩ := ok_of_bind next
    obtain ⟨others, behind, all⟩ := ok_of_bind more
    obtain ⟨raw, _, resolved⟩ := ok_of_bind search
    obtain ⟨keys, stands⟩ := later behind
    have key : vid ∈ s.hnsw.inner.keys := by
      unfold storedVector at stored
      cases held : s.hnsw.getVector vid with
      | none =>
        rw [held] at stored
        cases stored
      | some vector => exact Vectors.get?_isSome.mp (by rw [show s.hnsw.inner.get? vid = some vector from held]; rfl)
    constructor
    · intro other member
      rcases List.mem_cons.mp member with rfl | inside
      · exact key
      · exact keys other inside
    · intro h member
      rw [← ok_of_pure all] at member
      rcases List.mem_append.mp member with first | last
      · rw [← ok_of_pure resolved] at first
        obtain ⟨pair, _, here⟩ := List.mem_filterMap.mp first
        obtain ⟨d, same, rfl⟩ := Option.map_eq_some_iff.mp here
        exact ⟨pair.1, same⟩
      · exact stands h last

/-- A vector stands for the first of the documents with its text. -/
theorem lookup_first (ruleless : ∀ c ∈ s.db.collections, Db.Collection.hasEmbedRule c = false) {vid pos : Nat}
    {d e : Document} {globs : List String → String → Bool}
    (found : s.db.docChunkForVidInExcluding globs vid none = some (d, pos)) (stored : e ∈ s.db.documents)
    (active : e.active = true) (same : e.hash = d.hash) : Db.documentOrder d e := by
  have first := Db.lookup_some_iff.mp found
  obtain ⟨v, row, key, text, place⟩ := first.stands.row
  exact first.first e pos ⟨stored, active, .inl rfl, v, row, key, text.trans same.symm, place⟩
    (Db.excluded_ruleless ruleless e)

/-- A vector of a text stands for a document that has it, as long as one is active. -/
theorem lookup_exists (ruleless : ∀ c ∈ s.db.collections, Db.Collection.hasEmbedRule c = false) {vid : Nat}
    {a : Document} (globs : List String → String → Bool) (stored : a ∈ s.db.documents) (active : a.active = true)
    (theirs : vid ∈ s.db.vidsForHash a.hash) :
    ∃ d pos, s.db.docChunkForVidInExcluding globs vid none = some (d, pos) ∧ d.hash = a.hash := by
  obtain ⟨v, row, key, text⟩ := Db.mem_vidsForHash.mp theirs
  cases found : s.db.docChunkForVidInExcluding globs vid none with
  | none =>
    have excluded := Db.lookup_none_iff.mp found a v.pos ⟨stored, active, .inl rfl, v, row, key, text, rfl⟩
    rw [Db.excluded_ruleless ruleless a] at excluded
    cases excluded
  | some found' =>
    obtain ⟨w, twin, label, other, _⟩ := (Db.lookup_some_iff.mp found).stands.row
    have one : w = v := Table.eq_of_clash twin row (.inr (label.trans key.symm))
    exact ⟨found'.1, found'.2, rfl, other.symm.trans (one ▸ text)⟩

omit [Score S] in
/-- A search through the whole index finds what each of its vectors stands for. -/
theorem similarHits_all (exhaustive : Exhaustive engine s.hnsw.inner) (enough : s.hnsw.inner.size ≤ k) {vids : List Nat}
    (held : ∀ vid ∈ vids, vid ∈ s.hnsw.inner.keys) :
    ∃ hits, similarHits engine s k vids = .ok hits ∧ (vids ≠ [] → ∀ vid ∈ s.hnsw.inner.keys, ∀ d pos,
      s.db.docChunkForVidInExcluding engine.globs vid none = some (d, pos) → ∃ h ∈ hits, h.1 = d) := by
  induction vids with
  | nil => exact ⟨[], rfl, fun some => absurd rfl some⟩
  | cons vid rest later =>
    obtain ⟨others, behind, _⟩ := later fun other inside => held other (List.mem_cons_of_mem _ inside)
    obtain ⟨vector, stored⟩ := Option.isSome_iff_exists.mp (Vectors.get?_isSome.mpr (held vid List.mem_cons_self))
    obtain ⟨raw, answer, every⟩ := exhaustive vector k enough
    have embedding : storedVector s vid = .ok vector := by
      unfold storedVector
      rw [show s.hnsw.getVector vid = some vector from stored]
    have near : nearestIn engine s vector none k = .ok (resolveHits engine s none raw) := by
      rw [nearestIn, answer]
      rfl
    refine ⟨resolveHits engine s none raw ++ others, ?_, fun _ other key d pos found => ?_⟩
    · rw [similarHits, embedding]
      change (nearestIn engine s vector none k >>= fun hits => similarHits engine s k rest >>= fun others => pure (hits ++ others)) = _
      rw [near, behind]
      rfl
    · obtain ⟨pair, inside, rfl⟩ := List.mem_map.mp (every other key)
      refine ⟨(d, pair.2, pos), List.mem_append_left _ (List.mem_filterMap.mpr ⟨pair, inside, ?_⟩), rfl⟩
      dsimp only
      rw [found]
      rfl

end Ruleless

/-! ### Who is found for whom -/

section Pairs
variable {engine : Engine V S} {s : Store V} {a b d : Document} {limit : Nat}

theorem bestByFile_length {source : String} {hits : List (Document × S × Nat)}
    (stored : ∀ h ∈ hits, h.1 ∈ s.db.documents) : (bestByFile source hits).length ≤ s.db.documents.rows.length := by
  have best := bestOf source hits
  have once : ((bestByFile source hits).map Prod.fst).Nodup := by
    apply List.Nodup.of_map Document.filepath
    rw [List.map_map]
    exact best.once
  have within : (bestByFile source hits).map Prod.fst ⊆ s.db.documents.rows := by
    intro d member
    obtain ⟨e, inside, rfl⟩ := List.mem_map.mp member
    obtain ⟨h, hit, same, _⟩ := best.found e inside
    exact same ▸ stored h hit
  have fewer := (List.subperm_of_subset once within).length_le
  rwa [List.length_map] at fewer

/-- A document is found when a hit is on it and it is not the source. -/
theorem appears_iff (source : a ∈ s.db.documents) (stored : d ∈ s.db.documents) (room : s.db.documents.rows.length ≤ limit) :
    AppearsIn d (similarTo engine s a limit) ↔ s.db.vidsForHash a.hash ≠ [] ∧ d ≠ a ∧ ∃ hits,
      similarHits engine s (similarSize limit ((s.db.vidsForHash a.hash).take similarMaxChunks).length s.hnsw.inner.size)
        ((s.db.vidsForHash a.hash).take similarMaxChunks) = .ok hits ∧ ∃ h ∈ hits, h.1 = d := by
  unfold similarTo similarToHash
  dsimp only
  by_cases none : s.db.vidsForHash a.hash = []
  · rw [if_pos none]
    constructor
    · intro ⟨results, impossible, _⟩
      cases impossible
    · exact fun all => absurd none all.1
  · rw [if_neg none]
    have listed : ∀ hits : List (Document × S × Nat), (∀ h ∈ hits, h.1 ∈ s.db.documents) →
        ((∃ h ∈ hits, h.1 = d) ∧ d ≠ a ↔ ∃ r ∈ (((bestByFile a.filepath hits).insertionSort moreSimilar).take limit).map
          (fun found => resultFromDoc s.db found.1 found.2), r.collection = d.collection.text ∧ r.path = d.path) := by
      intro hits rows
      have best := bestOf a.filepath hits
      have whole : ((bestByFile a.filepath hits).insertionSort moreSimilar).take limit =
          (bestByFile a.filepath hits).insertionSort moreSimilar := by
        apply List.take_of_length_le
        rw [List.length_insertionSort]
        exact (bestByFile_length rows).trans room
      rw [whole]
      constructor
      · intro ⟨⟨h, hit, same⟩, other⟩
        have apart : h.1.filepath ≠ a.filepath := fun place =>
          other (Table.eq_of_clash stored source (.inr (filepath_injective (same ▸ place))))
        obtain ⟨e, inside, place⟩ := List.mem_map.mp (best.every h hit apart)
        have alike := filepath_injective (place.trans (congrArg Document.filepath same))
        exact ⟨_, List.mem_map.mpr ⟨e, (List.mem_insertionSort _).mpr inside, rfl⟩, congrArg CollectionName.text alike.1,
          alike.2⟩
      · intro ⟨r, member, collection, path⟩
        obtain ⟨e, inside, rfl⟩ := List.mem_map.mp member
        obtain ⟨h, hit, same, apart⟩ := best.found e ((List.mem_insertionSort _).mp inside)
        have one : e.1 = d :=
          Table.eq_of_clash (same ▸ rows h hit) stored (.inr ⟨CollectionName.ext collection, path⟩)
        refine ⟨⟨h, hit, same.trans one⟩, fun own => apart ?_⟩
        rw [same, one, own]
    have rows : ∀ {k : Nat} {vids : List Nat} {hits : List (Document × S × Nat)},
        similarHits engine s k vids = .ok hits → ∀ h ∈ hits, h.1 ∈ s.db.documents := by
      intro k vids hits found h member
      obtain ⟨vid, resolved⟩ := (similarHits_resolve found).2 h member
      exact (Db.lookup_some_iff.mp resolved).stands.stored
    constructor
    · intro ⟨results, found, shown⟩
      obtain ⟨hits, searched, all⟩ := ok_of_bind found
      rw [← ok_of_pure all] at shown
      obtain ⟨hit, other⟩ := (listed hits (rows searched)).mpr shown
      exact ⟨none, other, hits, searched, hit⟩
    · intro ⟨_, other, hits, searched, hit⟩
      refine ⟨_, ?_, (listed hits (rows searched)).mp ⟨hit, other⟩⟩
      rw [searched]
      rfl

/-- Only the first of the documents with one text is found for another of them. -/
theorem appears_first (ruleless : ∀ c ∈ s.db.collections, Db.Collection.hasEmbedRule c = false)
    (source : a ∈ s.db.documents) (stored : d ∈ s.db.documents) (room : s.db.documents.rows.length ≤ limit)
    (appears : AppearsIn d (similarTo engine s a limit)) {e : Document} (row : e ∈ s.db.documents)
    (active : e.active = true) (same : e.hash = d.hash) : Db.documentOrder d e := by
  obtain ⟨_, _, hits, searched, h, hit, rfl⟩ := (appears_iff source stored room).mp appears
  obtain ⟨vid, resolved⟩ := (similarHits_resolve searched).2 h hit
  exact lookup_first ruleless resolved row active same

theorem foundAlike_symm (alike : FoundAlike engine s a b) : FoundAlike engine s b a :=
  fun limit room => (alike limit room).symm

theorem same_of_order (left : a ∈ s.db.documents) (right : b ∈ s.db.documents) (before : Db.documentOrder a b)
    (behind : Db.documentOrder b a) : a = b := Table.eq_of_clash left right (.inr (Db.documentOrder_antisymm before behind))

/-- The first of the documents with one text is found for another one, which is not found for it. -/
theorem first_not_alike (ruleless : ∀ c ∈ s.db.collections, Db.Collection.hasEmbedRule c = false)
    (exhaustive : Exhaustive engine s.hnsw.inner) (left : a ∈ s.db.documents) (right : b ∈ s.db.documents)
    (active : a.active = true) (alive : b.active = true) (text : a.hash = b.hash) (apart : a ≠ b)
    (searchable : Searchable s a.hash)
    (first : ∀ d ∈ s.db.documents, d.active = true → d.hash = a.hash → Db.documentOrder b d) :
    ¬ FoundAlike engine s a b := by
  intro alike
  obtain ⟨some, held⟩ := searchable
  obtain ⟨vid, listed⟩ := List.exists_mem_of_ne_nil _ (show (s.db.vidsForHash a.hash).take similarMaxChunks ≠ [] by
    rw [Ne, List.take_eq_nil_iff, not_or]
    exact ⟨by decide, some⟩)
  let limit := max s.db.documents.rows.length s.hnsw.inner.size
  have room : s.db.documents.rows.length ≤ limit := Nat.le_max_left _ _
  have enough : s.hnsw.inner.size ≤
      similarSize limit ((s.db.vidsForHash a.hash).take similarMaxChunks).length s.hnsw.inner.size := by
    have large : s.hnsw.inner.size ≤ limit := Nat.le_max_right _ _
    unfold similarSize
    omega
  obtain ⟨hits, searched, every⟩ := similarHits_all exhaustive enough held
  -- the vectors of the text stand for its first document, so that one is found for the other
  obtain ⟨d, pos, resolved, same⟩ := lookup_exists ruleless engine.globs left active (List.mem_of_mem_take listed)
  have row := (Db.lookup_some_iff.mp resolved).stands
  have firstOne : d = b := same_of_order row.stored right (lookup_first ruleless resolved right alive (text.symm.trans same.symm))
    (first d row.stored row.active same)
  obtain ⟨h, hit, here⟩ := every (List.ne_nil_of_mem listed) vid (held vid listed) d pos resolved
  have forA : AppearsIn b (similarTo engine s a limit) :=
    (appears_iff left right room).mpr ⟨some, Ne.symm apart, hits, searched, h, hit, here.trans firstOne⟩
  have forB := (alike limit room).mp forA
  exact apart (same_of_order left right (appears_first ruleless right left room forB right alive text.symm)
    (first a left active rfl))

end Pairs

/-- Without exclusion rules, two active documents with one text are found for each other alike exactly when they are
one, or a third one precedes both, or the text has no vectors to search from. -/
theorem similar_alike_iff (engine : Engine V S) (s : Store V)
    (ruleless : ∀ c ∈ s.db.collections, Db.Collection.hasEmbedRule c = false)
    (exhaustive : Exhaustive engine s.hnsw.inner) (a b : Document) (left : a ∈ s.db.documents) (right : b ∈ s.db.documents)
    (active : a.active = true) (alive : b.active = true) (text : a.hash = b.hash) :
    FoundAlike engine s a b ↔ a = b ∨ s.db.Preceded a b ∨ ¬ Searchable s a.hash := by
  constructor
  · intro alike
    by_contra none
    rw [not_or, not_or, not_not] at none
    obtain ⟨apart, unpreceded, searchable⟩ := none
    have some := searchable.1
    obtain ⟨vid, listed⟩ := List.exists_mem_of_ne_nil _ some
    obtain ⟨d, pos, resolved, same⟩ := lookup_exists ruleless engine.globs left active listed
    have row := (Db.lookup_some_iff.mp resolved).stands
    have first : ∀ e ∈ s.db.documents, e.active = true → e.hash = a.hash → Db.documentOrder d e :=
      fun e stored open' here => lookup_first ruleless resolved stored open' (here.trans same.symm)
    by_cases own : d = a
    · refine first_not_alike ruleless exhaustive right left alive active text.symm (Ne.symm apart) (text ▸ searchable) ?_
        (foundAlike_symm alike)
      exact fun e stored open' here => own ▸ first e stored open' (here.trans text.symm)
    · by_cases other : d = b
      · exact first_not_alike ruleless exhaustive left right active alive text apart searchable
          (fun e stored open' here => other ▸ first e stored open' here) alike
      · exact unpreceded ⟨d, row.stored, row.active, same, own, other, first a left active rfl, first b right alive text.symm⟩
  · intro known limit room
    rcases known with rfl | ⟨d, stored, open', same, own, other, before, behind⟩ | unsearchable
    · exact Iff.rfl
    · have first : ¬ AppearsIn b (similarTo engine s a limit) := fun appears =>
        other (same_of_order stored right behind
          (appears_first ruleless left right room appears stored open' (same.trans text)))
      have second : ¬ AppearsIn a (similarTo engine s b limit) := fun appears =>
        own (same_of_order stored left before (appears_first ruleless right left room appears stored open' same))
      exact ⟨fun appears => absurd appears first, fun appears => absurd appears second⟩
    · have failed : ∀ {c d : Document}, c.hash = a.hash → c ∈ s.db.documents → d ∈ s.db.documents →
          ¬ AppearsIn d (similarTo engine s c limit) := by
        intro c d same source stored appears
        obtain ⟨some, _, hits, searched, _⟩ := (appears_iff source stored room).mp appears
        rw [same] at some searched
        exact unsearchable ⟨some, (similarHits_resolve searched).1⟩
      exact ⟨fun appears => absurd appears (failed rfl left right),
        fun appears => absurd appears (failed text.symm right left)⟩

theorem NearestPrefixes.allVids {L : Type} [LinearOrder L] {engine : Engine V S} {vectors : Vectors V} {value : S → L}
    {embedding : V} {order : List (Nat × S)} (nearest : NearestPrefixes engine vectors embedding value order) {k : Nat}
    (enough : vectors.size ≤ k) :
    ∃ hits, engine.nearest vectors embedding k = .ok hits ∧ ∀ vid ∈ vectors.keys, vid ∈ hits.map Prod.fst := by
  have size := nearest.every.length_eq
  rw [List.length_map, Vectors.keys, List.length_map] at size
  refine ⟨order.take k, nearest.first k, fun vid key => ?_⟩
  rw [List.take_of_length_le (by rw [size]; exact enough)]
  exact nearest.every.mem_iff.mpr key

theorem sampleEngine_exhaustive (vectors : Vectors String) : Exhaustive sampleEngine vectors :=
  fun embedding _ enough => (sampleEngine_nearest vectors embedding).allVids enough

/-- One text in three collections. -/
def tripletDisk : Disk String := twinDisk.after sampleEnv
  [(.add { notesCollection with name := ⟨"zoo", by decide, by decide⟩, path := "/zoo" }
    (notesWalk (.ok (notesDoc "alpha"))), [])]

/-- The second and the third of the copies are found for each other alike. -/
theorem later_copies_alike : ∃ a ∈ (tripletDisk.open true).db.documents.rows, ∃ b ∈ (tripletDisk.open true).db.documents.rows,
    a.collection.text = "work" ∧ b.collection.text = "zoo" ∧ FoundAlike sampleEngine (tripletDisk.open true) a b := by
  have copies : ∃ d ∈ (tripletDisk.open true).db.documents.rows, ∃ a ∈ (tripletDisk.open true).db.documents.rows,
      ∃ b ∈ (tripletDisk.open true).db.documents.rows, a.collection.text = "work" ∧ b.collection.text = "zoo" ∧
        a.active = true ∧ b.active = true ∧ a.hash = b.hash ∧ d.active = true ∧ d.hash = a.hash ∧ d ≠ a ∧ d ≠ b ∧
        Db.documentOrder d a ∧ Db.documentOrder d b := by
    decide +kernel
  have plain : ∀ c ∈ (tripletDisk.open true).db.collections.rows, Db.Collection.hasEmbedRule c = false := by decide +kernel
  obtain ⟨d, first, a, left, b, right, work, zoo, active, alive, text, preceded⟩ := copies
  refine ⟨a, left, b, right, work, zoo, ?_⟩
  exact (similar_alike_iff sampleEngine (tripletDisk.open true) plain (sampleEngine_exhaustive _) a b left right active alive
    text).mpr (.inr (.inl ⟨d, first, preceded⟩))

/-- Of two copies the first is found for the second, and the second is not found for the first. -/
theorem copies_not_alike : (twinDisk.open true).db.documents.rows.length = 2 ∧
    ∃ a ∈ (twinDisk.open true).db.documents.rows, ∃ b ∈ (twinDisk.open true).db.documents.rows, a.active = true ∧
      b.active = true ∧ a.hash = b.hash ∧ (twinDisk.open true).db.vidsForHash a.hash ≠ [] ∧
      (∀ c ∈ (twinDisk.open true).db.collections.rows, Db.Collection.hasEmbedRule c = false) ∧
      ¬ (AppearsIn b (similarTo sampleEngine (twinDisk.open true) a 2) ↔
        AppearsIn a (similarTo sampleEngine (twinDisk.open true) b 2)) := by
  have found : (twinDisk.open true).db.documents.rows.length = 2 ∧
      ∃ a ∈ (twinDisk.open true).db.documents.rows, ∃ b ∈ (twinDisk.open true).db.documents.rows,
      a.active = true ∧ b.active = true ∧ a.hash = b.hash ∧ (twinDisk.open true).db.vidsForHash a.hash ≠ [] ∧
        (∀ c ∈ (twinDisk.open true).db.collections.rows, Db.Collection.hasEmbedRule c = false) ∧
        (similarTo sampleEngine (twinDisk.open true) a 2).toOption.map
          (fun results => results.map fun r => (r.collection, r.path)) = some [] ∧
        (similarTo sampleEngine (twinDisk.open true) b 2).toOption.map
          (fun results => results.map fun r => (r.collection, r.path)) = some [(a.collection.text, a.path)] := by
    decide +kernel
  obtain ⟨two, a, left, b, right, active, alive, text, embedded, plain, nothing, one⟩ := found
  refine ⟨two, a, left, b, right, active, alive, text, embedded, plain, fun alike => ?_⟩
  obtain ⟨results, second, shown⟩ := ok_of_toOption one
  obtain ⟨none, first, empty⟩ := ok_of_toOption nothing
  have listed : (a.collection.text, a.path) ∈ results.map fun r => (r.collection, r.path) := by
    rw [shown]
    exact List.mem_cons_self
  obtain ⟨r, member, same⟩ := List.mem_map.mp listed
  obtain ⟨collection, path⟩ := Prod.mk.inj same
  obtain ⟨others, again, r', member', _⟩ := alike.mpr ⟨results, second, r, member, collection, path⟩
  rw [first] at again
  obtain rfl := Except.ok.inj again
  rw [List.map_eq_nil_iff.mp empty] at member'
  exact absurd member' List.not_mem_nil

end Rqmd
