import Rqmd.KeyBackfill
import Rqmd.VectorIds

/-! Reuse of vectors. Wherever the index holds a vector under an id that a row, a pending chunk or the document in hand
goes by, it is the vector its key stands for, so a chunk is given the same vector whether it is computed or found. -/

namespace Rqmd
open Interrupt Transition

variable {V : Type}

/-- Digests tell texts apart, and the digest of a chunk is a single line. -/
structure Hashes.CollisionFree (hashes : Hashes) : Prop where
  keys : ∀ left right, hashes.vectorKeyDigest left = hashes.vectorKeyDigest right → left = right
  chunks : ∀ left right, hashes.chunkTextHash left = hashes.chunkTextHash right → left = right
  lines : ∀ text, '\n' ∉ (hashes.chunkTextHash text).toList

/-- The vector of every passage with this key. -/
def Meant (env : Env V) (key : String) (vector : V) : Prop :=
  ∀ backend text, vectorKey env.toHashes backend (env.chunkTextHash text) = key → vector = env.passageVector backend text

/-- What is stored under the id, if anything is, is meant by the key. -/
def Vectors.Mean (env : Env V) (vectors : Vectors V) (vid : Nat) (key : String) : Prop :=
  ∀ vector, vectors.get? vid = some vector → Meant env key vector

/-- Every id in use means its key, in memory and, for a row, in the saved file. -/
structure Session.Meaningful (env : Env V) (m : Session V) : Prop where
  keyed : ∀ row ∈ m.store.db.vectors, row.vectorKey ≠ none
  rows : ∀ row ∈ m.store.db.vectors, ∀ key, row.vectorKey = some key →
    m.store.hnsw.inner.Mean env row.vid key ∧ (m.store.hnswFile.getD .empty).Mean env row.vid key
  pending : ∀ p ∈ m.pending, m.store.hnsw.inner.Mean env p.vid p.vectorKey
  batch : ∀ a ∈ m.batch, m.store.hnsw.inner.Mean env a.vid (a.key env)
  staged : ∀ entry ∈ m.store.stagedVectors, ∃ p ∈ m.pending, p.vid = entry.2 ∧ p.vectorKey = entry.1

/-- The embedding of a document's chunks completes unless it is disturbed, and whenever it completes each chunk has
the vector that the backend gives its text. -/
structure Store.ReusesSoundly (env : Env V) (s : Store V) : Prop where
  vectors : ∀ backend chunks, wp Faults.any
    (embedPassagesReusing env backend chunks (chunks.map (chunkKey env backend)))
    (Ends.ifDone fun vectors _ => vectors = chunks.map fun chunk => env.passageVector backend chunk.text) s
  completes : ∀ backend chunks,
    (embedPassagesReusing env backend chunks (chunks.map (chunkKey env backend)) [] s).completed = true

variable {env : Env V} {backend : Backend} {m n : Session V}

/-! ### Keys -/

theorem name_injective {left right : BackendKind} (same : left.name = right.name) : left = right := by
  cases left <;> cases right <;> first | rfl | exact absurd same (by decide)

theorem name_line (kind : BackendKind) : '\n' ∉ kind.name.toList := by
  cases kind <;> decide +kernel

/-- A text is decided down from the label of its last line, and so is that line. -/
theorem last_field_injective {label : String} {as bs front tail : List Char} (starts : label.toList.head? = some '\n')
    (alone : '\n' ∉ label.toList.tail) (left : '\n' ∉ front) (right : '\n' ∉ tail)
    (same : as ++ label.toList ++ front = bs ++ label.toList ++ tail) : as = bs ∧ front = tail := by
  obtain ⟨tag, labelled⟩ := List.head?_eq_some_iff.mp starts
  rw [labelled] at same alone
  simp only [List.append_assoc, List.cons_append] at same
  have pieces := Text.last_piece_injective (fun inside => (List.mem_append.mp inside).elim alone left)
    (fun inside => (List.mem_append.mp inside).elim alone right) same
  exact ⟨pieces.1, List.append_cancel_left pieces.2⟩

theorem digits_injective {m n : Nat} (same : (toString m).toList = (toString n).toList) : m = n := by
  have digits : Nat.toDigits 10 m = Nat.toDigits 10 n := by
    rw [← Nat.toList_repr, ← Nat.toList_repr]
    exact same
  rw [← Nat.ofDigitChars_toDigits (show 1 < 10 by decide) (show 10 ≤ 10 by decide) (n := m), digits]
  exact Nat.ofDigitChars_toDigits (by decide) (by decide)

/-- The text a key is made of is read from its last line to its first: the digest, the context size, and what is left
begins with the kind. -/
theorem vectorSignature_injective {left right : Backend} {a b : String} (first : '\n' ∉ a.toList) (second : '\n' ∉ b.toList)
    (same : vectorSignature left a = vectorSignature right b) : left = right ∧ a = b := by
  unfold vectorSignature at same
  have lists := congrArg String.toList same
  simp only [String.toList_append] at lists
  obtain ⟨settings, chunk⟩ := last_field_injective (by decide +kernel) (by decide +kernel) first second lists
  have sized := List.append_cancel_right (List.append_cancel_right settings)
  obtain ⟨named, size⟩ := last_field_injective (by decide +kernel) (by decide +kernel) (Backfill.digits_line _)
    (Backfill.digits_line _) sized
  simp only [List.append_assoc] at named
  obtain ⟨kind, model⟩ := Backfill.field_injective (by decide +kernel) (name_line left.kind) (name_line right.kind)
    (List.append_cancel_left named)
  have kinds := name_injective (String.toList_injective kind)
  have models := String.toList_injective model
  have sizes : left.contextSize = right.contextSize := digits_injective size
  refine ⟨?_, String.toList_injective chunk⟩
  cases left
  cases right
  simp only at kinds models sizes
  rw [kinds, models, sizes]

theorem Hashes.CollisionFree.meant (free : env.CollisionFree) (backend : Backend) (text : String) :
    Meant env (vectorKey env.toHashes backend (env.chunkTextHash text)) (env.passageVector backend text) := by
  intro other text' same
  have signatures := free.keys _ _ same
  obtain ⟨backends, chunks⟩ := vectorSignature_injective (free.lines text') (free.lines text) signatures
  rw [backends, free.chunks _ _ chunks]

/-! ### What the index holds -/

namespace Vectors.Mean

variable {vectors : Vectors V} {vid : Nat} {key : String} {vector : V}

theorem none (absent : vectors.get? vid = Option.none) : vectors.Mean env vid key := by
  intro vector found
  rw [absent] at found
  cases found

theorem removed {index : VectorIndex V} (mean : index.inner.Mean env vid key) (vids : List Nat) :
    (Store.removeVids index vids).inner.Mean env vid key := by
  intro vector found
  rw [Store.get?_removeVids] at found
  by_cases gone : vid ∈ vids
  · rw [if_pos gone] at found
    cases found
  · rw [if_neg gone] at found
    exact mean vector found

theorem added {index after : VectorIndex V} {given : Nat} (mean : index.inner.Mean env vid key)
    (result : index.add vector = (some given, after)) (other : given ≠ vid) : after.inner.Mean env vid key := by
  intro found there
  rw [VectorIndex.get?_add result, if_neg other] at there
  exact mean found there

end Vectors.Mean

theorem mem_stage {entries staged : List (String × Nat)} {entry : String × Nat}
    (inside : entry ∈ entries.foldl Store.stage staged) : entry ∈ staged ∨ entry ∈ entries := by
  induction entries generalizing staged with
  | nil => exact .inl inside
  | cons first entries later =>
    rcases later inside with before | behind
    · unfold Store.stage at before
      split at before
      · exact .inl before
      · rcases List.mem_append.mp before with old | new
        · exact .inl old
        · exact .inr (List.mem_singleton.mp new ▸ List.mem_cons_self)
    · exact .inr (List.mem_cons_of_mem first behind)

theorem mem_batchMetas {hash relPath : String} {batch : List AddedVector} {a : AddedVector} (member : a ∈ batch) :
    ∃ p ∈ batchMetas env hash relPath batch, p.vid = a.vid ∧ p.vectorKey = a.key env := by
  obtain ⟨i, bound, rfl⟩ := List.getElem_of_mem member
  exact ⟨_, List.mem_mapIdx.mpr ⟨i, bound, rfl⟩, rfl, rfl⟩

/-! ### Every step -/

namespace Session.Meaningful

/-- A step that keeps the ids in use, adds no vector and saves none. -/
theorem withStore {s : Store V} (meaningful : m.Meaningful env)
    (rows : ∀ row ∈ s.db.vectors, row ∈ m.store.db.vectors)
    (inner : ∀ vid key, m.store.hnsw.inner.Mean env vid key → s.hnsw.inner.Mean env vid key)
    (file : ∀ vid key, m.store.hnsw.inner.Mean env vid key → (m.store.hnswFile.getD .empty).Mean env vid key →
      (s.hnswFile.getD .empty).Mean env vid key)
    (staged : s.stagedVectors = m.store.stagedVectors) : (m.withStore s).Meaningful env where
  keyed row inside := meaningful.keyed row (rows row inside)
  rows row inside key held := by
    obtain ⟨here, there⟩ := meaningful.rows row (rows row inside) key held
    exact ⟨inner _ _ here, file _ _ here there⟩
  pending p inside := inner _ _ (meaningful.pending p inside)
  batch a inside := inner _ _ (meaningful.batch a inside)
  staged entry inside := meaningful.staged entry (staged ▸ inside)

/-- A vector found under a key is what the key means. -/
theorem found (meaningful : m.Meaningful env) {model key : String} {vid : Nat} {vector : V}
    (candidate : m.store.stagedVectors.lookup key = some vid ∨ m.store.db.reusableVectorVid model key = some vid)
    (there : m.store.hnsw.getVector vid = some vector) : Meant env key vector := by
  rcases candidate with staged | stored
  · obtain ⟨before, behind, entries, -⟩ := List.lookup_eq_some_iff.mp staged
    have inside : (key, vid) ∈ m.store.stagedVectors := entries ▸ List.mem_append_right _ List.mem_cons_self
    obtain ⟨p, waiting, vids, keys⟩ := meaningful.staged (key, vid) inside
    have mean := meaningful.pending p waiting
    rw [vids, keys] at mean
    exact mean vector there
  · have listed := List.min?_mem stored
    obtain ⟨row, selected, rfl⟩ := List.mem_map.mp listed
    obtain ⟨inside, hit⟩ := Table.mem_select.mp selected
    rw [Bool.and_eq_true, beq_iff_eq] at hit
    exact (meaningful.rows row inside key hit.1).1 vector there

theorem sourced (meaningful : m.Meaningful env) (free : env.CollisionFree) {chunk : Chunk} {vector : V}
    (source : Sourced env m.store backend chunk vector) : Meant env (Store.chunkKey env backend chunk) vector := by
  rcases source with own | ⟨vid, candidate, there⟩
  · rw [own]
    exact free.meant backend chunk.text
  · exact meaningful.found candidate there

theorem added (meaningful : m.Meaningful env) (allotted : m.Allotted) (free : env.CollisionFree) {chunk : Chunk}
    {vector : V} {vid : Nat} {index : VectorIndex V} (source : Sourced env m.store backend chunk vector)
    (given : m.store.hnsw.add vector = (some vid, index)) : (m.added backend chunk vid index).Meaningful env := by
  -- the id is past every id in use
  obtain ⟨-, later, -⟩ := VectorIndex.add_some given
  refine ⟨meaningful.keyed, ?_, ?_, ?_, meaningful.staged⟩
  · intro row inside key held
    have mean := meaningful.rows row inside key held
    have below := allotted.rows row inside
    exact ⟨mean.1.added given (by omega), mean.2⟩
  · intro p inside
    have below := (allotted.pending p inside).1
    exact (meaningful.pending p inside).added given (by omega)
  · intro a inside
    rcases List.mem_append.mp inside with old | new
    · have below := (allotted.batch a old).1
      exact (meaningful.batch a old).added given (by omega)
    · rw [List.mem_singleton.mp new]
      intro found there
      have own := VectorIndex.get?_add given vid
      rw [if_pos rfl] at own
      rw [show index.inner.get? vid = some found from there] at own
      exact Option.some.inj own ▸ meaningful.sourced free source

theorem embedded (meaningful : m.Meaningful env) (hash relPath : String) :
    (m.embedded env hash relPath).Meaningful env := by
  have inner : ∀ vid key, m.store.hnsw.inner.Mean env vid key →
      (m.embedded env hash relPath).store.hnsw.inner.Mean env vid key := by
    intro vid key mean
    simp only [Session.embedded]
    split
    · exact mean.removed _
    · exact mean
  refine ⟨meaningful.keyed, ?_, ?_, fun a nothing => absurd nothing List.not_mem_nil, ?_⟩
  · intro row inside key held
    have mean := meaningful.rows row inside key held
    exact ⟨inner _ _ mean.1, mean.2⟩
  · intro p inside
    rcases List.mem_append.mp inside with old | new
    · exact inner _ _ (meaningful.pending p old)
    · obtain ⟨-, a, member, vids, -, keys⟩ := batchMetas_source new
      rw [vids, keys]
      exact inner _ _ (meaningful.batch a member)
  · intro entry inside
    rcases mem_stage inside with old | new
    · obtain ⟨p, waiting, same⟩ := meaningful.staged entry old
      exact ⟨p, List.mem_append_left _ waiting, same⟩
    · obtain ⟨a, member, rfl⟩ := List.mem_map.mp new
      obtain ⟨p, waiting, same⟩ := @mem_batchMetas V env hash relPath m.batch a member
      exact ⟨p, List.mem_append_right _ waiting, same⟩

theorem rolledBack (meaningful : m.Meaningful env) : m.rolledBack.Meaningful env where
  keyed := meaningful.keyed
  rows row inside key held := ⟨(meaningful.rows row inside key held).1.removed _, (meaningful.rows row inside key held).2⟩
  pending p inside := (meaningful.pending p inside).removed _
  batch _ nothing := absurd nothing List.not_mem_nil
  staged := meaningful.staged

theorem committed (meaningful : m.Meaningful env) {db : Db} (saved : m.store.hnswFile = some m.store.hnsw.inner)
    (rows : Store.checkpointRows m.pending m.superseded m.store.hnsw.nextVid m.store.db = .ok db) :
    (m.committed db).Meaningful env := by
  have done := Db.checkpointed rows
  refine ⟨?_, ?_, fun p nothing => absurd nothing List.not_mem_nil, meaningful.batch,
    fun entry nothing => absurd nothing List.not_mem_nil⟩
  · intro row inside
    rcases done.source row inside with ⟨p, waiting, rfl⟩ | ⟨old, -, -⟩
    · exact Option.some_ne_none _
    · exact meaningful.keyed row old
  · intro row inside key held
    rcases done.source row inside with ⟨p, waiting, rfl⟩ | ⟨old, -, -⟩
    · -- the file is what the index is when its rows are written
      have mean : m.store.hnsw.inner.Mean env p.vid key := Option.some.inj held ▸ meaningful.pending p waiting
      have filed : (m.store.hnswFile.getD .empty).Mean env p.vid key := by
        rw [saved]
        exact mean
      exact ⟨mean, filed⟩
    · exact meaningful.rows row old key held

theorem embedStep {excluded : List Nat} (meaningful : m.Meaningful env) (allotted : m.Allotted)
    (free : env.CollisionFree) (step : EmbedStep env backend excluded m n) : n.Meaningful env := by
  cases step with
  | aside fts dirty log quiet => exact meaningful.withStore (fun _ => id) (fun _ _ => id) (fun _ _ _ => id) rfl
  | unmarked hash => exact meaningful.withStore (fun _ => id) (fun _ _ => id) (fun _ _ _ => id) rfl
  | added chunk vector vid index source given => exact meaningful.added allotted free source given
  | refused vector index given =>
    have same := (VectorIndex.add_none given).1
    exact meaningful.withStore (fun _ => id) (fun _ _ mean => same.symm ▸ mean) (fun _ _ _ => id) rfl
  | rolledBack => exact meaningful.rolledBack
  | embedded hash relPath pending first => exact meaningful.embedded hash relPath
  | saved writable => exact meaningful.withStore (fun _ => id) (fun _ _ => id) (fun _ _ mean _ => mean) rfl
  | committed db saved rows => exact meaningful.committed saved rows

theorem opened (meaningful : m.Meaningful env) (readOnly : Bool) :
    (Session.of (m.store.disk.open readOnly)).Meaningful env where
  keyed := meaningful.keyed
  rows row inside key held := by
    have mean := (meaningful.rows row inside key held).2
    refine ⟨?_, mean⟩
    change (openHnsw m.store.hnswFile m.store.db readOnly).inner.Mean env row.vid key
    rw [openHnsw_inner]
    exact mean
  pending p nothing := absurd nothing List.not_mem_nil
  batch a nothing := absurd nothing List.not_mem_nil
  staged entry nothing := absurd nothing List.not_mem_nil

/-- A row that has a key is not given another. -/
theorem keyed_row {row : VectorRow} (keyed : row.vectorKey ≠ none) (model : String) (fingerprints : List String)
    (keyFor : String → String) : Db.backfill model fingerprints keyFor row = row := by
  obtain ⟨key, held⟩ := Option.ne_none_iff_exists'.mp keyed
  unfold Db.backfill
  rw [held]

theorem step {kind : StepKind} (meaningful : m.Meaningful env) (allotted : m.Allotted) (free : env.CollisionFree)
    (step : Step env kind m n) : n.Meaningful env := by
  cases step with
  | embed backend excluded m n step => exact meaningful.embedStep allotted free step
  | aside m db fts dirty log vectors floor quiet =>
    exact meaningful.withStore (fun _ inside => vectors ▸ inside) (fun _ _ => id) (fun _ _ _ => id) rfl
  | saved m writable => exact meaningful.withStore (fun _ => id) (fun _ _ => id) (fun _ _ mean _ => mean) rfl
  | dropped m db gone log vectors documents floor quiet =>
    refine meaningful.withStore (fun row inside => ?_) (fun _ _ => id) (fun _ _ _ => id) rfl
    have member : row ∈ db.vectors := inside
    rw [vectors] at member
    exact (Table.mem_deleteWhere.mp member).1
  | keyed m model fingerprints keyFor =>
    refine meaningful.withStore (fun row inside => ?_) (fun _ _ => id) (fun _ _ _ => id) rfl
    obtain ⟨old, member, rfl⟩ := Db.mem_backfillVectorKeys.mp inside
    rw [keyed_row (meaningful.keyed old member)]
    exact member
  | evicted m hashes vids theirs => exact meaningful.withStore (fun _ => id) (fun _ _ mean => mean.removed _) (fun _ _ _ => id) rfl
  | fileRemoved m idle =>
    exact meaningful.withStore (fun _ => id) (fun _ _ => id) (fun _ _ _ _ => Vectors.Mean.none rfl) rfl
  | opened m readOnly => exact meaningful.opened readOnly

end Session.Meaningful

/-- Wherever every id in use means its key, reuse is sound. -/
theorem Session.Meaningful.reuses (meaningful : m.Meaningful env) (free : env.CollisionFree) :
    m.store.ReusesSoundly env := by
  have same : ∀ backend chunks, Store.passages env m.store backend chunks =
      chunks.map fun chunk => env.passageVector backend chunk.text := by
    intro backend chunks
    apply List.map_congr_left
    intro chunk _
    exact meaningful.sourced free (Store.sourced_passage chunk) backend chunk.text rfl
  constructor
  · intro backend chunks
    exact Store.wp_embedPassagesReusing (same backend chunks) (fun _ _ => trivial) fun _ => trivial
  · intro backend chunks
    have calm : wp Faults.calm (Store.embedPassagesReusing env backend chunks (chunks.map (Store.chunkKey env backend)))
        (Ends.only fun _ _ => True) m.store :=
      Store.wp_embedPassagesReusing trivial (fun raised _ => raised.elim) fun dead => dead.elim
    obtain ⟨vectors, after, rest, run, -⟩ := wp_calm calm
    rw [run]
    rfl

theorem meaningful_empty : (Session.of ((Disk.empty : Disk V).open false)).Meaningful env := by
  have nothing : ∀ row, row ∉ (Session.of ((Disk.empty : Disk V).open false)).store.db.vectors :=
    fun row inside => absurd inside List.not_mem_nil
  exact ⟨fun row inside => absurd inside (nothing row), fun row inside => absurd inside (nothing row),
    fun _ inside => absurd inside List.not_mem_nil, fun _ inside => absurd inside List.not_mem_nil,
    fun _ inside => absurd inside List.not_mem_nil⟩

/-- Over every run from an empty index. -/
theorem meaningful_of_reaches (free : env.CollisionFree)
    (run : Reaches (Step env) always (.of ((Disk.empty : Disk V).open false)) m) : m.Meaningful env := by
  let keep : Session V → Prop := fun m => m.Meaningful env ∧ m.Allotted
  have both : keep m := run.invariant ⟨meaningful_empty, allotted_opened _ _⟩ fun _ _ _ kept _ step =>
    ⟨kept.1.step kept.2 free step, kept.2.step step⟩
  exact both.1

/-- After every history of commands, complete, failed or cut, and at every point of the command that follows, a
document's chunks get the vectors the backend gives their texts. -/
theorem chunk_reuse_sound (free : env.CollisionFree) (history : History) :
    (∀ readOnly, (((Disk.empty : Disk V).after env history).open readOnly).ReusesSoundly env) ∧
      ∀ (invocation : Invocation) (fates : List (Fate FaultKind)),
        (invocation.command env fates (((Disk.empty : Disk V).after env history).open false)).final.ReusesSoundly env := by
  obtain ⟨m, run, same⟩ := @history_steps V env history Disk.empty
  have opened : ∀ readOnly, Reaches (Step env) always (.of ((Disk.empty : Disk V).open false))
      (.of ((Disk.empty.after env history).open readOnly)) := fun readOnly => same ▸ run.next trivial (.opened m readOnly)
  constructor
  · intro readOnly
    exact (meaningful_of_reaches free (opened readOnly)).reuses free
  · intro invocation fates
    obtain ⟨n, steps, last⟩ := @invocation_led V env (Disk.empty.after env history) invocation fates
    rw [← last]
    exact (meaningful_of_reaches free ((opened false).trans steps)).reuses free

/-- A digest that can be read back: each character in unary, with an end. -/
def unaryHash (text : String) : String := String.ofList (text.toList.flatMap fun c => List.replicate c.toNat '1' ++ ['0'])

theorem unaryHash_line (text : String) : '\n' ∉ (unaryHash text).toList := by
  intro inside
  rw [unaryHash, String.toList_ofList] at inside
  obtain ⟨c, -, digit⟩ := List.mem_flatMap.mp inside
  rcases List.mem_append.mp digit with one | zero
  · exact absurd (List.eq_of_mem_replicate one) (by decide)
  · exact absurd (List.mem_singleton.mp zero) (by decide)

theorem unaryHash_injective {left right : String} (same : unaryHash left = unaryHash right) : left = right := by
  have lists := congrArg String.toList same
  simp only [unaryHash, String.toList_ofList] at lists
  apply String.toList_injective
  generalize left.toList = front at lists
  generalize right.toList = tail at lists
  have ones : ∀ n, '0' ∉ List.replicate n '1' := fun n inside => absurd (List.eq_of_mem_replicate inside) (by decide)
  induction front generalizing tail with
  | nil =>
    cases tail with
    | nil => rfl
    | cons d tail => simp at lists
  | cons c front later =>
    cases tail with
    | nil => simp at lists
    | cons d tail =>
      simp only [List.flatMap_cons, List.append_assoc, List.singleton_append] at lists
      obtain ⟨digits, rest⟩ := Text.first_piece_injective (ones _) (ones _) lists
      have numbers : c.toNat = d.toNat := by simpa using congrArg List.length digits
      rw [Char.toNat_inj.mp numbers, later _ rest]

/-- Vectors that show the context size they were computed with. -/
def sizedEnv : Env String :=
  { sampleEnv with chunkTextHash := unaryHash, passageVector := fun backend text => toString backend.contextSize ++ text }

theorem sizedEnv_free : sizedEnv.CollisionFree := ⟨fun _ _ => id, fun _ _ => unaryHash_injective, unaryHash_line⟩

/-- One note, and two embed runs under one model with different context sizes, the first of them cut. -/
def resizedHistory : History :=
  [(.add notesCollection (notesWalk (.ok (notesDoc "alpha"))), []),
    (.embed (Backfill.bgeBackend 256) none false, [.proceed, .proceed, .die]),
    (.embed (Backfill.bgeBackend 512) none false, [])]

theorem resized_reuse_sound :
    (((Disk.empty : Disk String).after sizedEnv resizedHistory).open false).ReusesSoundly sizedEnv :=
  (chunk_reuse_sound sizedEnv_free resizedHistory).1 false

end Rqmd
