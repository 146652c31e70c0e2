import Rqmd.EmbedOutcome
import Rqmd.Lib.Text

/-! Vector keys for the rows of an earlier release. Such a row records the model and a fingerprint; the key it is given
names the backend kind and the context size as well. -/

namespace Rqmd.Backfill

/-- The settings a fingerprint records. The prompt prefixes are single lines. -/
structure Release where
  chunkSizeChars : Nat
  chunkOverlapChars : Nat
  chunkStrategyVersion : Nat
  queryPrefix : String
  passagePrefix : String
  queryLine : '\n' ∉ queryPrefix.toList
  passageLine : '\n' ∉ passagePrefix.toList

/-- A marker is a line of its own. -/
def markerLine : Option String → String
  | some marker => "\n" ++ marker
  | none => ""

/-- The text whose digest is the fingerprint of `model`. -/
def Release.signature (release : Release) (model : String) (marker : Option String) : String :=
  "model:" ++ model ++ "\nchunk_size_chars:" ++ toString release.chunkSizeChars ++
    "\nchunk_overlap_chars:" ++ toString release.chunkOverlapChars ++ "\nchunk_strategy_version:" ++
    toString release.chunkStrategyVersion ++ "\nquery_prefix:" ++ release.queryPrefix ++
    "\npassage_prefix:" ++ release.passagePrefix ++ markerLine marker

def thisRelease : Release where
  chunkSizeChars := Rqmd.chunkSizeChars
  chunkOverlapChars := Rqmd.chunkOverlapChars
  chunkStrategyVersion := Rqmd.chunkStrategyVersion
  queryPrefix := embeddinggemmaQueryPrefix
  passagePrefix := embeddinggemmaPassagePrefix
  queryLine := by decide +kernel
  passageLine := by decide +kernel

/-- A build with the backend it embeds by, and the markers its fingerprints end in. -/
structure EmbedConfig where
  backend : Backend
  release : Release
  markers : List (Option String)

namespace EmbedConfig

def signatures (config : EmbedConfig) : List String :=
  config.markers.map (config.release.signature config.backend.model)

def fingerprints (hashes : Hashes) (config : EmbedConfig) : List String :=
  config.signatures.map hashes.fingerprintDigest

/-- This build. -/
def current (grammars : Grammars) (backend : Backend) : EmbedConfig :=
  ⟨backend, thisRelease, some "table_header_chunking:1" :: grammars.map fun group => some group.1⟩

/-- What the key of a vector says of the run that produced it. -/
structure NamedBy (backend : Backend) (producer : EmbedConfig) : Prop where
  kind : producer.backend.kind = backend.kind
  model : producer.backend.model = backend.model
  contextSize : producer.backend.contextSize = backend.contextSize
  passagePrefix : producer.release.passagePrefix = embeddinggemmaPassagePrefix

end EmbedConfig

def dropKey (row : VectorRow) : VectorRow := { row with vectorKey := none }

/-- An earlier release has no column for the key. -/
def unkeyed (db : Db) : Db :=
  { db with vectors := db.vectors.amendKeys dropKey (Db.VectorRow.keeps fun _ => ⟨rfl, rfl, rfl⟩) }

/-- Where the vector of a new row is from: the run itself, or a row with the same chunk under the same model and
fingerprint. -/
def Produced (db : Db) (origin : Nat → EmbedConfig) (config : EmbedConfig) (m : PendingVectorMeta)
    (producer : EmbedConfig) : Prop :=
  producer = config ∨ ∃ row ∈ db.vectors, row.chunkHash = some m.chunkHash ∧ row.model = m.model ∧
    row.embedFingerprint = m.fingerprint ∧ producer = origin row.vid

/-- The databases that embed runs under `configs` leave when they record chunk hashes and no keys, with the producer
of every vector. Between the runs rows may be removed. -/
inductive History (hashes : Hashes) (configs : List EmbedConfig) : Db → (Nat → EmbedConfig) → Prop where
  | created {db : Db} (origin : Nat → EmbedConfig) (empty : ∀ row, row ∉ db.vectors) : History hashes configs db origin
  | removed {db after : Db} {origin : Nat → EmbedConfig} (before : History hashes configs db origin)
      (fewer : ∀ row ∈ after.vectors, row ∈ db.vectors) : History hashes configs after origin
  | checkpoint {db after : Db} {origin later : Nat → EmbedConfig} {config : EmbedConfig}
      {metas : List PendingVectorMeta} {deletes : List String} {nextVid : Nat}
      (before : History hashes configs db origin) (run : config ∈ configs)
      (stamped : ∀ m ∈ metas, m.model = config.backend.model ∧ m.fingerprint ∈ config.fingerprints hashes)
      (fresh : ∀ m ∈ metas, ∀ row ∈ db.vectors, row.vid ≠ m.vid)
      (produced : ∀ m ∈ metas, Produced db origin config m (later m.vid))
      (others : ∀ vid, (∀ m ∈ metas, m.vid ≠ vid) → later vid = origin vid)
      (stored : Store.checkpointRows metas deletes nextVid db = .ok after) :
      History hashes configs (unkeyed after) later

/-- A row with the stamps of the run that produced its vector. -/
structure Stamped (hashes : Hashes) (configs : List EmbedConfig) (producer : EmbedConfig) (row : VectorRow) :
    Prop where
  run : producer ∈ configs
  model : row.model = producer.backend.model
  fingerprint : row.embedFingerprint ∈ producer.fingerprints hashes
  hashed : row.chunkHash ≠ none
  unkeyed : row.vectorKey = none

/-- Distinct signatures of these runs and of this build have distinct digests. -/
def Distinct (hashes : Hashes) (current : EmbedConfig) (configs : List EmbedConfig) : Prop :=
  ∀ config ∈ configs, ∀ theirs ∈ config.signatures, ∀ ours ∈ current.signatures,
    hashes.fingerprintDigest theirs = hashes.fingerprintDigest ours → theirs = ours

/-- Every row that is given a key holds a vector that the key describes. -/
def KeysSound {V : Type} (env : Env V) (backend : Backend) (db : Db) (origin : Nat → EmbedConfig) : Prop :=
  ∀ row ∈ (db.keyed env backend).vectors, ∀ key, row.vectorKey = some key →
    (∃ chunkHash, row.chunkHash = some chunkHash ∧ key = vectorKey env.toHashes backend chunkHash) ∧
      EmbedConfig.NamedBy backend (origin row.vid)

variable {V : Type} {env : Env V} {hashes : Hashes} {configs : List EmbedConfig} {db after : Db} {backend : Backend}
  {origin : Nat → EmbedConfig} {row : VectorRow}

theorem mem_unkeyed : row ∈ (unkeyed db).vectors ↔ ∃ old ∈ db.vectors, dropKey old = row := by
  change row ∈ db.vectors.amendKeys dropKey (Db.VectorRow.keeps fun _ => ⟨rfl, rfl, rfl⟩) ↔ _
  exact Table.mem_amendKeys

/-! ### What the signature of a fingerprint decides -/

/-- A text is decided up to a label that begins a line, and so is what follows the label. -/
theorem field_injective {label : String} {as bs front tail : List Char} (starts : label.toList.head? = some '\n')
    (left : '\n' ∉ as) (right : '\n' ∉ bs) (same : as ++ (label.toList ++ front) = bs ++ (label.toList ++ tail)) :
    as = bs ∧ front = tail := by
  obtain ⟨tag, labelled⟩ := List.head?_eq_some_iff.mp starts
  rw [labelled] at same
  have pieces := Text.first_piece_injective left right same
  exact ⟨pieces.1, List.append_cancel_left pieces.2⟩

theorem digits_line (n : Nat) : '\n' ∉ (toString n).toList := by
  intro inside
  have digits : (toString n).toList = Nat.toDigits 10 n := Nat.toList_repr
  rw [digits] at inside
  exact absurd (Nat.isDigit_of_mem_toDigits (by decide) (by decide) inside) (by decide)

theorem markerLine_newline (marker : Option String) :
    ∃ tail, (markerLine marker).toList ++ ['\n'] = "\n".toList ++ tail := by
  cases marker with
  | none => exact ⟨[], rfl⟩
  | some marker => exact ⟨marker.toList ++ ['\n'], by rw [markerLine, String.toList_append, List.append_assoc]⟩

/-- Under one model, equal signatures record one passage prefix. -/
theorem passage_of_signature {ours theirs : Release} {model : String} {marker other : Option String}
    (same : ours.signature model marker = theirs.signature model other) : ours.passagePrefix = theirs.passagePrefix := by
  unfold Release.signature at same
  have lists := congrArg String.toList same
  simp only [String.toList_append, List.append_assoc] at lists
  rw [List.append_cancel_left_eq, List.append_cancel_left_eq, List.append_cancel_left_eq] at lists
  obtain ⟨-, overlaps⟩ := field_injective (by decide +kernel) (digits_line _) (digits_line _) lists
  obtain ⟨-, versions⟩ := field_injective (by decide +kernel) (digits_line _) (digits_line _) overlaps
  obtain ⟨-, queries⟩ := field_injective (by decide +kernel) (digits_line _) (digits_line _) versions
  obtain ⟨-, passages⟩ := field_injective (by decide +kernel) ours.queryLine theirs.queryLine queries
  -- behind the passage prefix the text ends or a line begins
  obtain ⟨front, ourEnd⟩ := markerLine_newline marker
  obtain ⟨tail, theirEnd⟩ := markerLine_newline other
  have ended := congrArg (· ++ ['\n']) passages
  simp only [List.append_assoc] at ended
  rw [ourEnd, theirEnd] at ended
  exact String.toList_injective (field_injective (by decide +kernel) ours.passageLine theirs.passageLine ended).1

theorem markedFingerprint_none (hashes : Hashes) (model : String) : markedFingerprint hashes model none =
    hashes.fingerprintDigest (thisRelease.signature model (some "table_header_chunking:1")) := by
  have line : "\ntable_header_chunking:1" = markerLine (some "table_header_chunking:1") := by decide +kernel
  unfold markedFingerprint
  rw [line]
  rfl

/-- The fingerprints the backfill accepts are those of this build. -/
theorem current_fingerprints (env : Env V) (backend : Backend) :
    (EmbedConfig.current env.grammars backend).fingerprints env.toHashes =
      expectedFingerprint env.toHashes env.grammars backend.model ::
        (expectedAstFingerprints env.toHashes env.grammars backend.model).map AstFingerprint.fingerprint := by
  have plain : astMarkerForPath env.grammars "" = none := rfl
  unfold expectedFingerprint embedFingerprint expectedAstFingerprints
  rw [plain, markedFingerprint_none, List.map_map]
  unfold EmbedConfig.current EmbedConfig.fingerprints EmbedConfig.signatures
  rw [List.map_map, List.map_cons, List.map_map]
  rfl

/-! ### The stamps of every row -/

theorem Produced.stamped {config producer : EmbedConfig} {m : PendingVectorMeta}
    (rows : ∀ row ∈ db.vectors, Stamped hashes configs (origin row.vid) row) (run : config ∈ configs)
    (stamps : m.model = config.backend.model ∧ m.fingerprint ∈ config.fingerprints hashes)
    (produced : Produced db origin config m producer) : Stamped hashes configs producer (dropKey m.row) := by
  rcases produced with rfl | ⟨row, inside, -, model, fingerprint, rfl⟩
  · exact ⟨run, stamps.1, stamps.2, Option.some_ne_none _, rfl⟩
  · have theirs := rows row inside
    have recorded : m.fingerprint ∈ (origin row.vid).fingerprints hashes := fingerprint ▸ theirs.fingerprint
    exact ⟨theirs.run, model.symm.trans theirs.model, recorded, Option.some_ne_none _, rfl⟩

/-- In every history each row bears the stamps of the run that produced its vector. -/
theorem History.stamped (history : History hashes configs db origin) :
    ∀ row ∈ db.vectors, Stamped hashes configs (origin row.vid) row := by
  induction history with
  | created origin empty => exact fun row inside => absurd inside (empty row)
  | removed before fewer ih => exact fun row inside => ih row (fewer row inside)
  | @checkpoint db after origin later config metas deletes nextVid before run stamps fresh produced others stored ih =>
    intro row inside
    obtain ⟨old, member, rfl⟩ := mem_unkeyed.mp inside
    rcases (Db.checkpointed stored).source old member with ⟨m, written, rfl⟩ | ⟨kept, -, -⟩
    · exact (produced m written).stamped ih run (stamps m written)
    · have theirs := ih old kept
      have same : dropKey old = old := by rw [dropKey, ← theirs.unkeyed]
      have vid : later old.vid = origin old.vid := others old.vid fun m written => (fresh m written old kept).symm
      rw [same, vid]
      exact theirs

/-! ### The keys of the backfill -/

theorem backfill_qualified {model chunkHash : String} {fingerprints : List String} {keyFor : String → String}
    (bare : row.vectorKey = none) (hashed : row.chunkHash = some chunkHash)
    (qualified : row.model = model ∧ row.embedFingerprint ∈ fingerprints) :
    Db.backfill model fingerprints keyFor row = { row with vectorKey := some (keyFor chunkHash) } := by
  unfold Db.backfill
  rw [bare, hashed]
  exact if_pos qualified

theorem backfill_given {model key : String} {fingerprints : List String} {keyFor : String → String}
    (bare : row.vectorKey = none) (given : (Db.backfill model fingerprints keyFor row).vectorKey = some key) :
    (row.model = model ∧ row.embedFingerprint ∈ fingerprints) ∧
      ∃ chunkHash, (Db.backfill model fingerprints keyFor row).chunkHash = some chunkHash ∧ key = keyFor chunkHash := by
  cases hashed : row.chunkHash with
  | none =>
    have same : Db.backfill model fingerprints keyFor row = row := by
      unfold Db.backfill
      rw [bare, hashed]
    rw [same, bare] at given
    cases given
  | some chunkHash =>
    by_cases qualified : row.model = model ∧ row.embedFingerprint ∈ fingerprints
    · rw [backfill_qualified bare hashed qualified] at given ⊢
      exact ⟨qualified, chunkHash, hashed, (Option.some.inj given).symm⟩
    · have same : Db.backfill model fingerprints keyFor row = row := by
        unfold Db.backfill
        rw [bare, hashed]
        exact if_neg qualified
      rw [same, bare] at given
      cases given

/-- The rows that qualify for a key, and the passage prefix their fingerprint proves. -/
theorem Stamped.passage {producer : EmbedConfig} (stamps : Stamped hashes configs producer row) {grammars : Grammars}
    (distinct : Distinct hashes (.current grammars backend) configs) (model : row.model = backend.model)
    (expected : row.embedFingerprint ∈ (EmbedConfig.current grammars backend).fingerprints hashes) :
    producer.release.passagePrefix = embeddinggemmaPassagePrefix := by
  obtain ⟨theirs, listed, digest⟩ := List.mem_map.mp stamps.fingerprint
  obtain ⟨ours, ourListed, ourDigest⟩ := List.mem_map.mp expected
  have same := distinct producer stamps.run theirs listed ours ourListed (digest.trans ourDigest.symm)
  obtain ⟨marker, -, rfl⟩ := List.mem_map.mp listed
  obtain ⟨other, -, rfl⟩ := List.mem_map.mp ourListed
  have models : producer.backend.model = backend.model := stamps.model.symm.trans model
  rw [models] at same
  exact passage_of_signature same

/-- Keys are sound where the rows the backfill accepts were produced under the configured kind and context size. -/
theorem keys_sound_of_rows (history : History env.toHashes configs db origin)
    (distinct : Distinct env.toHashes (.current env.grammars backend) configs)
    (same : ∀ row ∈ db.vectors, row.model = backend.model →
      row.embedFingerprint ∈ (EmbedConfig.current env.grammars backend).fingerprints env.toHashes →
      (origin row.vid).backend.kind = backend.kind ∧ (origin row.vid).backend.contextSize = backend.contextSize) :
    KeysSound env backend db origin := by
  intro row inside key given
  obtain ⟨old, member, rfl⟩ := Db.mem_backfillVectorKeys.mp inside
  have stamps := history.stamped old member
  obtain ⟨⟨model, qualified⟩, chunk⟩ := backfill_given stamps.unkeyed given
  rw [← current_fingerprints] at qualified
  obtain ⟨kind, contextSize⟩ := same old member model qualified
  rw [(Db.backfill_keys _ _ _ old).2.2]
  exact ⟨chunk, kind, stamps.model.symm.trans model, contextSize, stamps.passage distinct model qualified⟩

/-- So they are when every run under the configured model that could leave such a row had that kind and context size. -/
theorem keys_sound_of_runs (history : History env.toHashes configs db origin)
    (distinct : Distinct env.toHashes (.current env.grammars backend) configs)
    (runs : ∀ config ∈ configs, config.backend.model = backend.model →
      config.backend.kind = backend.kind ∧ config.backend.contextSize = backend.contextSize) :
    KeysSound env backend db origin := by
  apply keys_sound_of_rows history distinct
  intro row inside model _
  have stamps := history.stamped row inside
  exact runs _ stamps.run (stamps.model.symm.trans model)

/-- In every database that embed runs of an earlier release left, the keys of the backfill describe the vectors
exactly if the rows it accepts were produced under the configured backend kind and context size. -/
theorem backfilled_keys_sound_iff (env : Env V) (backend : Backend) (history : History env.toHashes configs db origin)
    (distinct : Distinct env.toHashes (.current env.grammars backend) configs) :
    KeysSound env backend db origin ↔ ∀ row ∈ db.vectors, row.model = backend.model →
      row.embedFingerprint ∈ (EmbedConfig.current env.grammars backend).fingerprints env.toHashes →
      (origin row.vid).backend.kind = backend.kind ∧ (origin row.vid).backend.contextSize = backend.contextSize := by
  constructor
  · intro sound row inside model expected
    have stamps := history.stamped row inside
    obtain ⟨chunkHash, hashed⟩ := Option.ne_none_iff_exists'.mp stamps.hashed
    have qualified := current_fingerprints env backend ▸ expected
    have keyed : Db.backfill backend.model _ (vectorKey env.toHashes backend) row = _ :=
      backfill_qualified stamps.unkeyed hashed ⟨model, qualified⟩
    have there := Db.mem_backfillVectorKeys.mpr ⟨row, inside, keyed⟩
    have named := (sound _ there _ rfl).2
    exact ⟨named.kind, named.contextSize⟩
  · exact keys_sound_of_rows history distinct

def bgeBackend (contextSize : Nat) : Backend := ⟨.ort, "BAAI/bge-base-en-v1.5/onnx/model.onnx", contextSize⟩

/-- The row an embed run writes for a document of one chunk. -/
def firstMeta (config : EmbedConfig) : PendingVectorMeta where
  hash := "alpha"
  seq := 0
  pos := 0
  model := config.backend.model
  fingerprint := config.release.signature config.backend.model (some "table_header_chunking:1")
  totalChunks := 1
  vid := 0
  chunkHash := "alpha"
  vectorKey := ""

/-- The run that writes it into a new index. -/
theorem first_run (backend : Backend) :
    ∃ after, Store.checkpointRows [firstMeta (.current [] backend)] [] 1 Db.empty = .ok after ∧
      History sampleEnv.toHashes [.current [] backend] (unkeyed after) (fun _ => .current [] backend) ∧
      dropKey (firstMeta (.current [] backend)).row ∈ (unkeyed after).vectors := by
  have nothing : ∀ row, row ∉ Db.empty.vectors := fun row inside => absurd inside List.not_mem_nil
  obtain ⟨after, stored⟩ := @Db.checkpointRows_ok Db.empty [firstMeta (.current [] backend)] [] 1
    (List.pairwise_singleton _ _) fun m _ row inside => absurd inside (nothing row)
  refine ⟨after, stored, ?_, ?_⟩
  · refine .checkpoint (.created _ nothing) List.mem_cons_self ?_ ?_ ?_ (fun _ _ => rfl) stored
    · intro m written
      obtain rfl := List.mem_singleton.mp written
      exact ⟨rfl, List.mem_cons_self⟩
    · exact fun m _ row inside => absurd inside (nothing row)
    · exact fun m _ => .inl rfl
  · exact mem_unkeyed.mpr ⟨_, (Db.checkpointed stored).written (List.pairwise_singleton _ _) _ List.mem_cons_self, rfl⟩

/-- The same backend with the same context size. -/
theorem same_context_sound :
    ∃ after, Store.checkpointRows [firstMeta (.current [] (bgeBackend 512))] [] 1 Db.empty = .ok after ∧
      KeysSound sampleEnv (bgeBackend 512) (unkeyed after) fun _ => .current [] (bgeBackend 512) := by
  obtain ⟨after, stored, history, -⟩ := first_run (bgeBackend 512)
  have distinct : Distinct sampleEnv.toHashes (.current [] (bgeBackend 512)) [.current [] (bgeBackend 512)] :=
    fun _ _ _ _ _ _ same => same
  exact ⟨after, stored, (backfilled_keys_sound_iff sampleEnv (bgeBackend 512) history distinct).mpr
    fun _ _ _ _ => ⟨rfl, rfl⟩⟩

/-- A vector of 256 tokens gets the key of one of 512: nothing in its row shows the difference. -/
theorem other_context_keyed :
    ∃ after, Store.checkpointRows [firstMeta (.current [] (bgeBackend 256))] [] 1 Db.empty = .ok after ∧
      History sampleEnv.toHashes [.current [] (bgeBackend 256)] (unkeyed after) (fun _ => .current [] (bgeBackend 256)) ∧
      (∃ row ∈ ((unkeyed after).keyed sampleEnv (bgeBackend 512)).vectors,
        row.vectorKey = some (vectorKey sampleEnv.toHashes (bgeBackend 512) "alpha")) ∧
      ¬KeysSound sampleEnv (bgeBackend 512) (unkeyed after) fun _ => .current [] (bgeBackend 256) := by
  obtain ⟨after, stored, history, inside⟩ := first_run (bgeBackend 256)
  have expected : (dropKey (firstMeta (.current [] (bgeBackend 256))).row).embedFingerprint ∈
      expectedFingerprint sampleEnv.toHashes sampleEnv.grammars (bgeBackend 512).model ::
        (expectedAstFingerprints sampleEnv.toHashes sampleEnv.grammars (bgeBackend 512).model).map
          AstFingerprint.fingerprint := by
    rw [← current_fingerprints]
    exact List.mem_cons_self
  have keyed := @backfill_qualified (dropKey (firstMeta (.current [] (bgeBackend 256))).row) (bgeBackend 512).model
    "alpha" _ (vectorKey sampleEnv.toHashes (bgeBackend 512)) rfl rfl ⟨rfl, expected⟩
  have there := Db.mem_backfillVectorKeys.mpr ⟨_, inside, keyed⟩
  refine ⟨after, stored, history, ⟨_, there, rfl⟩, fun sound => ?_⟩
  have named := (sound _ there _ rfl).2
  exact absurd named.contextSize (by decide)

end Rqmd.Backfill
