import Mathlib.Data.List.Sort
import Rqmd.Embedding

/-! The SQLite side of the index: each function is one statement, or one transaction, on the tables. -/

namespace Rqmd

/-- The database. `sequence` is the AUTOINCREMENT counter of `documents`; `nextVid` is the `next_vid`
row of `store_config`, the remaining rows of which are `config`. -/
structure Db where
  documents : Table Document
  sequence : Nat
  content : Table ContentRow
  vectors : Table VectorRow
  collections : Table Collection
  config : Table ConfigRow
  nextVid : Option Nat
  bounded : ∀ d ∈ documents, d.id ≤ sequence
  referenced : ∀ d ∈ documents, ∃ c ∈ content, c.hash = d.hash

namespace Db

def empty : Db where
  documents := ∅
  sequence := 0
  content := ∅
  vectors := ∅
  collections := ∅
  config := ∅
  nextVid := none
  bounded _ member := (Table.not_mem_empty _ member).elim
  referenced _ member := (Table.not_mem_empty _ member).elim

/-- A change of every document row that leaves id, collection, path and hash alone. -/
def mapDocuments (db : Db) (f : Document → Document)
    (same : ∀ d, (f d).id = d.id ∧ (f d).collection = d.collection ∧ (f d).path = d.path)
    (hash : ∀ d, (f d).hash = d.hash) : Db :=
  { db with
    documents := db.documents.amendKeys f (Document.keeps same)
    bounded := fun d member => by
      obtain ⟨old, inside, rfl⟩ := Table.mem_amendKeys.mp member
      rw [(same old).1]
      exact db.bounded old inside
    referenced := fun d member => by
      obtain ⟨old, inside, rfl⟩ := Table.mem_amendKeys.mp member
      rw [hash old]
      exact db.referenced old inside }

def getContentRow (db : Db) (hash : String) : Option ContentRow := db.content.find? (·.hash == hash)

def getContent (db : Db) (hash : String) : Option String := (db.getContentRow hash).map ContentRow.doc

/-- `octet_length(c.doc) > 0` for the content row of `hash`. -/
def contentNonEmpty (db : Db) (hash : String) : Bool :=
  db.content.any fun c => c.hash == hash && c.doc.utf8ByteSize != 0

private theorem overwrite_keeps (hash doc : String) :
    Table.Keeps fun c : ContentRow => if c.hash = hash then { c with doc := doc } else c := by
  intro a b clash
  have same : ∀ c : ContentRow, (if c.hash = hash then { c with doc := doc } else c).hash = c.hash := by
    intro c
    split <;> rfl
  change (_ : ContentRow).hash = (_ : ContentRow).hash at clash
  rwa [same a, same b] at clash

def upsertContent (db : Db) (hash doc : String) : Db :=
  if fresh : ∀ c ∈ db.content.rows, ¬ Constraint.clash c ⟨hash, doc⟩ then
    { db with
      content := db.content.append ⟨hash, doc⟩ fresh
      referenced := fun d member => by
        obtain ⟨c, inside, same⟩ := db.referenced d member
        exact ⟨c, (Table.mem_append _).mpr (.inl inside), same⟩ }
  else
    { db with
      content := db.content.amendKeys (fun c => if c.hash = hash then { c with doc := doc } else c)
        (overwrite_keeps hash doc)
      referenced := fun d member => by
        obtain ⟨c, inside, same⟩ := db.referenced d member
        refine ⟨_, Table.mem_amendKeys.mpr ⟨c, inside, rfl⟩, ?_⟩
        split <;> exact same }

def getDocumentByFilepath (db : Db) (collection : CollectionName) (path : String) : Option Document :=
  db.documents.find? fun d => d.collection == collection && d.path == path

def getDocumentById (db : Db) (id : Nat) : Option Document := db.documents.find? (·.id == id)

def hashHasAnyVector (db : Db) (hash : String) : Bool := db.vectors.any (·.hash == hash)

/-- `length(doc)` is positive: SQLite counts the characters before the first NUL. -/
def contentHasLength (db : Db) (hash : String) : Bool :=
  db.content.any fun c => c.hash == hash && !(c.doc.toList.takeWhile (· ≠ Char.ofNat 0)).isEmpty

/-- The `prev_hash` an edit leaves behind: a superseded hash with vectors, unless the new text needs
no donor. -/
def supersede (db : Db) (d : Document) (hash : String) : Option String :=
  if d.hash = hash then d.prevHash
  else if db.hashHasAnyVector hash ∨ db.contentHasLength hash = false then none
  else if db.hashHasAnyVector d.hash then some d.hash
  else d.prevHash

def revise (db : Db) (collection : CollectionName) (path title hash : String) (d : Document) : Document :=
  if d.collection = collection ∧ d.path = path then
    { d with title := title, prevHash := db.supersede d hash, hash := hash, active := true }
  else d

theorem revise_keys (db : Db) (collection : CollectionName) (path title hash : String) (d : Document) :
    (db.revise collection path title hash d).id = d.id ∧
      (db.revise collection path title hash d).collection = d.collection ∧
      (db.revise collection path title hash d).path = d.path := by
  unfold revise
  split <;> exact ⟨rfl, rfl, rfl⟩

private theorem fresh_document (db : Db) (collection : CollectionName) (path : String)
    (absent : db.getDocumentByFilepath collection path = none) (d : Document)
    (id : d.id = db.sequence + 1) (place : d.collection = collection ∧ d.path = path) :
    ∀ a ∈ db.documents.rows, ¬ Constraint.clash a d := by
  intro a member clash
  rcases clash with same | ⟨name, path'⟩
  · have := db.bounded a member
    omega
  · exact Table.find?_none absent a member (by simp [name, path', place.1, place.2])

/-- Insert the row or revise the one under its path. Fails when `content` lacks the hash the row
references. -/
def upsertDocument (db : Db) (collection : CollectionName) (path title hash : String) :
    Except Failure (Nat × Db) :=
  if known : db.content.any (·.hash == hash) then
    have there : ∃ c ∈ db.content, c.hash = hash := by simpa using known
    match absent : db.getDocumentByFilepath collection path with
    | some d => .ok (d.id, { db with
        documents := db.documents.amendKeys (db.revise collection path title hash)
          (Document.keeps (db.revise_keys collection path title hash))
        bounded := fun e member => by
          obtain ⟨old, inside, rfl⟩ := Table.mem_amendKeys.mp member
          rw [(db.revise_keys collection path title hash old).1]
          exact db.bounded old inside
        referenced := fun e member => by
          obtain ⟨old, inside, rfl⟩ := Table.mem_amendKeys.mp member
          unfold revise
          split
          · exact there
          · exact db.referenced old inside })
    | none =>
      let row : Document :=
        ⟨db.sequence + 1, collection, path, title, hash, true, "", none, none⟩
      .ok (db.sequence + 1, { db with
        documents := db.documents.append row
          (fresh_document db collection path absent row rfl ⟨rfl, rfl⟩)
        sequence := db.sequence + 1
        bounded := fun e member => by
          rcases (Table.mem_append _).mp member with inside | rfl
          · exact Nat.le_succ_of_le (db.bounded e inside)
          · exact le_refl _
        referenced := fun e member => by
          rcases (Table.mem_append _).mp member with inside | rfl
          · exact db.referenced e inside
          · exact there })
  else .error "upsert document"

def clearPrevHash (db : Db) (hash : String) : Db :=
  db.mapDocuments (fun d => if d.hash = hash then { d with prevHash := none } else d)
    (fun d => by split <;> exact ⟨rfl, rfl, rfl⟩) (fun d => by split <;> rfl)

/-- The recorded stats of the active documents of a collection, by path. -/
def loadDocStatCache (db : Db) (collection : CollectionName) : List (String × FileStat) :=
  db.documents.rows.filterMap fun d =>
    if d.collection = collection ∧ d.active then d.stat.map fun stat => (d.path, stat) else none

def setDocumentStat (db : Db) (collection : CollectionName) (path : String) (stat : Option FileStat) : Db :=
  db.mapDocuments (fun d => if d.collection = collection ∧ d.path = path then { d with stat := stat } else d)
    (fun d => by split <;> exact ⟨rfl, rfl, rfl⟩) (fun d => by split <;> rfl)

def setDocumentRaw (db : Db) (id : Nat) (raw : String) : Db :=
  db.mapDocuments (fun d => if d.id = id then { d with raw := raw } else d)
    (fun d => by split <;> exact ⟨rfl, rfl, rfl⟩) (fun d => by split <;> rfl)

/-- `ORDER BY collection, path`. -/
def documentOrder (a b : Document) : Prop :=
  a.collection.text < b.collection.text ∨ (a.collection = b.collection ∧ a.path ≤ b.path)

instance : DecidableRel documentOrder := fun a b =>
  inferInstanceAs (Decidable (a.collection.text < b.collection.text ∨ (a.collection = b.collection ∧ a.path ≤ b.path)))

def listDocuments (db : Db) (collection : CollectionName) : List Document :=
  (db.documents.select fun d => d.active && d.collection == collection).insertionSort documentOrder

/-- The rows `UPDATE documents SET active = 0 WHERE collection = ? AND path IN (…)` touches. -/
def deactivate (db : Db) (collection : CollectionName) (paths : List String) : Db :=
  db.mapDocuments
    (fun d => if d.collection = collection ∧ d.path ∈ paths then { d with active := false } else d)
    (fun d => by split <;> exact ⟨rfl, rfl, rfl⟩) (fun d => by split <;> rfl)

def missingDocuments (db : Db) (collection : CollectionName) (currentPaths : List String) : List String :=
  (db.documents.select fun d => d.collection == collection && d.active && !currentPaths.contains d.path).map
    Document.path

/-- `d.path GLOB '*.ext'`. -/
def pathGlobs (path ext : String) : Bool := ('.' :: ext.toList).isSuffixOf path.toList

def pathHasExtension (extensions : List String) (path : String) : Bool := extensions.any (pathGlobs path)

/-- The documents the AST flags of a hash are taken over. -/
def flagged (db : Db) (hash : String) (excluded : List Nat) : List Document :=
  db.documents.select fun d => d.hash == hash && d.active && !excluded.contains d.id

/-- `g<i>`: some flagged document belongs to the group. NULL over no rows reads as 0. -/
def groupFlag (db : Db) (hash : String) (excluded : List Nat) (group : AstFingerprint) : Bool :=
  (db.flagged hash excluded).any fun d => pathHasExtension group.extensions d.path

/-- `all_ast`: there are flagged documents and each belongs to some group. -/
def allAst (db : Db) (hash : String) (excluded : List Nat) (ast : List AstFingerprint) : Bool :=
  !(db.flagged hash excluded).isEmpty &&
    (db.flagged hash excluded).all fun d => pathHasExtension (ast.flatMap AstFingerprint.extensions) d.path

def hashHasVectorWithFingerprint (db : Db) (hash fingerprint : String) : Bool :=
  db.vectors.any fun v => v.hash == hash && v.embedFingerprint == fingerprint

/-- `hash_needs_embed_excluding`; with no exclusion it is `hash_needs_embed`. -/
def hashNeedsEmbed (db : Db) (hash baseFingerprint : String) (ast : List AstFingerprint)
    (excluded : List Nat) : Bool :=
  if ast.isEmpty then !db.hashHasVectorWithFingerprint hash baseFingerprint
  else
    let groupSatisfied := ast.any fun g =>
      db.groupFlag hash excluded g && db.hashHasVectorWithFingerprint hash g.fingerprint
    let baseSatisfied :=
      !db.allAst hash excluded ast && db.hashHasVectorWithFingerprint hash baseFingerprint
    !(groupSatisfied || baseSatisfied)

/-- The hashes `count_pending_hashes` counts. It takes the AST flags over the documents with content,
which on one hash are the same documents. -/
def pendingHashes (db : Db) (baseFingerprint : String) (ast : List AstFingerprint)
    (excluded : List Nat) : List String :=
  ((db.documents.select fun d =>
      d.active && db.contentNonEmpty d.hash && !excluded.contains d.id).map Document.hash).dedup.filter
    fun hash => db.hashNeedsEmbed hash baseFingerprint ast excluded

def countPendingHashes (db : Db) (baseFingerprint : String) (ast : List AstFingerprint)
    (excluded : List Nat) : Nat := (db.pendingHashes baseFingerprint ast excluded).length

/-! ### `content_vectors` -/

def vectorsOf (db : Db) (hash : String) : List VectorRow := db.vectors.select (·.hash == hash)

def deleteVectorsForHash (db : Db) (hash : String) : Db :=
  { db with vectors := db.vectors.deleteWhere (·.hash == hash) }

def maxVectorVid (db : Db) : Option Nat := (db.vectors.rows.map VectorRow.vid).max?

def clearAllVectors (db : Db) : Db := { db with vectors := ∅ }

/-- `ORDER BY seq`. -/
def vidsForHash (db : Db) (hash : String) : List Nat :=
  ((db.vectorsOf hash).insertionSort fun a b => a.seq ≤ b.seq).map VectorRow.vid

/-- The columns `upsert_vector_meta` overwrites on a conflict. -/
def overwriteVector (old new : VectorRow) : VectorRow :=
  { old with
    pos := new.pos
    model := new.model
    embedFingerprint := new.embedFingerprint
    totalChunks := new.totalChunks
    vid := new.vid }

def upsertVectorMeta (db : Db) (row : VectorRow) : Except Failure Db :=
  let stored := if db.vectors.any fun v => v.hash == row.hash && v.seq == row.seq then
      db.vectors.amend? fun v => if v.hash = row.hash ∧ v.seq = row.seq then overwriteVector v row else v
    else db.vectors.insert? { row with chunkHash := none, vectorKey := none }
  match stored with
  | some vectors => .ok { db with vectors }
  | none => .error "UNIQUE constraint failed: content_vectors.vid"

theorem VectorRow.keeps {f : VectorRow → VectorRow}
    (same : ∀ v, (f v).hash = v.hash ∧ (f v).seq = v.seq ∧ (f v).vid = v.vid) : Table.Keeps f := by
  intro a b clash
  obtain ⟨hashA, seqA, vidA⟩ := same a
  obtain ⟨hashB, seqB, vidB⟩ := same b
  change ((f a).hash = (f b).hash ∧ (f a).seq = (f b).seq) ∨ (f a).vid = (f b).vid at clash
  rwa [hashA, hashB, seqA, seqB, vidA, vidB] at clash

def identify (hash : String) (seq : Nat) (chunkHash vectorKey : String) (v : VectorRow) : VectorRow :=
  if v.hash = hash ∧ v.seq = seq then { v with chunkHash := some chunkHash, vectorKey := some vectorKey } else v

theorem identify_keys (hash : String) (seq : Nat) (chunkHash vectorKey : String) (v : VectorRow) :
    (identify hash seq chunkHash vectorKey v).hash = v.hash ∧ (identify hash seq chunkHash vectorKey v).seq = v.seq ∧
      (identify hash seq chunkHash vectorKey v).vid = v.vid := by
  unfold identify
  split <;> exact ⟨rfl, rfl, rfl⟩

def setVectorIdentity (db : Db) (hash : String) (seq : Nat) (chunkHash vectorKey : String) : Db :=
  { db with vectors := db.vectors.amendKeys _ (VectorRow.keeps (identify_keys hash seq chunkHash vectorKey)) }

def backfill (model : String) (fingerprints : List String) (keyFor : String → String) (v : VectorRow) : VectorRow :=
  match v.vectorKey, v.chunkHash with
  | none, some chunkHash =>
    if v.model = model ∧ v.embedFingerprint ∈ fingerprints then { v with vectorKey := some (keyFor chunkHash) } else v
  | _, _ => v

theorem backfill_keys (model : String) (fingerprints : List String) (keyFor : String → String) (v : VectorRow) :
    (backfill model fingerprints keyFor v).hash = v.hash ∧ (backfill model fingerprints keyFor v).seq = v.seq ∧
      (backfill model fingerprints keyFor v).vid = v.vid := by
  unfold backfill
  split
  · split <;> exact ⟨rfl, rfl, rfl⟩
  · exact ⟨rfl, rfl, rfl⟩

def backfillVectorKeys (db : Db) (model : String) (fingerprints : List String) (keyFor : String → String) : Db :=
  { db with vectors := db.vectors.amendKeys _ (VectorRow.keeps (backfill_keys model fingerprints keyFor)) }

/-- The lowest vid recorded with this key under `model`. -/
def reusableVectorVid (db : Db) (model key : String) : Option Nat :=
  ((db.vectors.select fun v => v.vectorKey == some key && v.model == model).map VectorRow.vid).min?

/-- `hash NOT IN (SELECT hash FROM documents WHERE active = 1)` and no active document without vectors
of its own names it as donor. -/
def orphaned (db : Db) (hash : String) : Bool :=
  !(db.documents.any fun d => d.active && d.hash == hash) &&
    !(db.documents.any fun d => d.active && d.prevHash == some hash && !db.hashHasAnyVector d.hash)

def orphanedVectorHashes (db : Db) : List String :=
  ((db.vectors.select fun v => db.orphaned v.hash).map VectorRow.hash).dedup

/-- Every active document on the hash is excluded, one is, and no document that is not excluded waits
for it as a donor. -/
def excludedOnly (db : Db) (excluded : List Nat) (hash : String) : Bool :=
  (db.documents.any fun d => d.active && d.hash == hash && excluded.contains d.id) &&
    !(db.documents.any fun d => d.active && d.hash == hash && !excluded.contains d.id) &&
    !(db.documents.any fun d => d.active && d.prevHash == some hash && !excluded.contains d.id &&
      !db.hashHasAnyVector d.hash)

def excludedOnlyVectorHashes (db : Db) (excluded : List Nat) : List String :=
  if excluded.isEmpty then []
  else ((db.vectors.select fun v => db.excludedOnly excluded v.hash).map VectorRow.hash).dedup

/-- The hash is on an active document of the collection and on none of another. -/
def notShared (db : Db) (collection : CollectionName) (hash : String) : Bool :=
  (db.documents.any fun d => d.collection == collection && d.active && d.hash == hash) &&
    !(db.documents.any fun d => d.collection != collection && d.active && d.hash == hash)

def clearVectorsForCollection (db : Db) (collection : CollectionName) : Db :=
  { db with vectors := db.vectors.deleteWhere fun v => db.notShared collection v.hash }

def rebuildableVidsForCollection (db : Db) (collection : CollectionName) : List Nat :=
  (db.vectors.select fun v => db.notShared collection v.hash).map VectorRow.vid

def persistNextVidFloor (db : Db) (atLeast : Nat) : Db :=
  if db.nextVid.getD 0 < atLeast then { db with nextVid := some atLeast } else db

/-! ### Collections -/

def listCollections (db : Db) : List Collection := db.collections.rows

def findCollection (db : Db) (name : CollectionName) : Option Collection := db.collections.find? (·.name == name)

private theorem upsert_collection_keeps (c : Collection) :
    Table.Keeps fun old : Collection => if old.name = c.name then c else old := by
  intro a b clash
  have same : ∀ old : Collection, (if old.name = c.name then c else old).name = old.name := by
    intro old
    split
    · next equal => exact equal.symm
    · rfl
  change (_ : Collection).name = (_ : Collection).name at clash
  rwa [same a, same b] at clash

def upsertCollection (db : Db) (c : Collection) : Db :=
  if fresh : ∀ old ∈ db.collections.rows, ¬ Constraint.clash old c then
    { db with collections := db.collections.append c fresh }
  else { db with collections := db.collections.amendKeys _ (upsert_collection_keeps c) }

def withEmbedRules (name : CollectionName) (ignore : List String) (maxBytes : Option Nat) (c : Collection) : Collection :=
  if c.name = name then { c with embedIgnore := ignore, embedMaxBytes := maxBytes } else c

private theorem embed_rules_keep (name : CollectionName) (ignore : List String) (maxBytes : Option Nat) :
    Table.Keeps (withEmbedRules name ignore maxBytes) := by
  intro a b clash
  have same : ∀ c : Collection, (withEmbedRules name ignore maxBytes c).name = c.name := by
    intro c
    unfold withEmbedRules
    split <;> rfl
  change (_ : Collection).name = (_ : Collection).name at clash
  rwa [same a, same b] at clash

def setCollectionEmbedRules (db : Db) (name : CollectionName) (ignore : List String) (maxBytes : Option Nat) : Db :=
  { db with collections := db.collections.amendKeys _ (embed_rules_keep name ignore maxBytes) }

def getConfig (db : Db) (key : String) : Option String :=
  (db.config.find? (·.key == key)).map ConfigRow.value

/-- `INSERT OR REPLACE`. -/
def setConfig (db : Db) (key value : String) : Db :=
  { db with config := (db.config.deleteWhere (·.key == key)).append ⟨key, value⟩ fun _ member clash =>
      (Table.mem_deleteWhere.mp member).2 (beq_iff_eq.mpr clash) }

def collectionContextKey (collection : CollectionName) : String :=
  "context:rqmd://" ++ collection.text ++ "/"

/-- `substr(key, 1, length(prefix)) = prefix`. -/
def keyHasPrefix (stem key : String) : Bool := stem.toList.isPrefixOf key.toList

def purgeFilepaths (db : Db) (name : CollectionName) : List String :=
  (db.documents.select (·.collection == name)).map Document.filepath

def deleteDocuments (db : Db) (name : CollectionName) : Db :=
  { db with
    documents := db.documents.deleteWhere (·.collection == name)
    bounded := fun d member => db.bounded d (Table.mem_deleteWhere.mp member).1
    referenced := fun d member => db.referenced d (Table.mem_deleteWhere.mp member).1 }

/-- `hash NOT IN (SELECT hash FROM documents)`. -/
def unreferenced (db : Db) (hash : String) : Bool := !db.documents.any (·.hash == hash)

def deleteUnreferencedVectors (db : Db) : Db :=
  { db with vectors := db.vectors.deleteWhere fun v => db.unreferenced v.hash }

def deleteUnreferencedContent (db : Db) : Db :=
  { db with
    content := db.content.deleteWhere fun c => db.unreferenced c.hash
    referenced := fun d member => by
      obtain ⟨c, inside, same⟩ := db.referenced d member
      refine ⟨c, Table.mem_deleteWhere.mpr ⟨inside, ?_⟩, same⟩
      simp only [unreferenced, Bool.not_eq_true', Bool.not_eq_false, Table.any_eq_true, beq_iff_eq]
      exact ⟨d, member, same.symm⟩ }

def deleteCollection (db : Db) (name : CollectionName) : Db :=
  { db with collections := db.collections.deleteWhere (·.name == name) }

def deleteContexts (db : Db) (name : CollectionName) : Db :=
  { db with config := db.config.deleteWhere fun row => keyHasPrefix (collectionContextKey name) row.key }

def nameTaken (db : Db) (name : CollectionName) : Bool :=
  db.collections.any (·.name == name) || db.documents.any (·.collection == name)

def moveDocument (old new : CollectionName) (d : Document) : Document :=
  if d.collection = old then { d with collection := new } else d

theorem moveDocument_fixed (old new : CollectionName) (d : Document) :
    (moveDocument old new d).id = d.id ∧ (moveDocument old new d).path = d.path ∧
      (moveDocument old new d).hash = d.hash := by
  unfold moveDocument
  split <;> exact ⟨rfl, rfl, rfl⟩

private theorem move_keeps {db : Db} {old new : CollectionName} (free : db.nameTaken new = false) :
    ∀ a ∈ db.documents.rows, ∀ b ∈ db.documents.rows,
      Constraint.clash (moveDocument old new a) (moveDocument old new b) → Constraint.clash a b := by
  have unused : ∀ d ∈ db.documents, d.collection ≠ new := by
    intro d member same
    simp only [nameTaken, Bool.or_eq_false_iff] at free
    have hit : db.documents.any (·.collection == new) = true :=
      Table.any_eq_true.mpr ⟨d, member, by simp [same]⟩
    rw [hit] at free
    exact absurd free.2 (by decide)
  intro a left b right clash
  rcases clash with same | ⟨name, path⟩
  · left
    rwa [(moveDocument_fixed old new a).1, (moveDocument_fixed old new b).1] at same
  · right
    rw [(moveDocument_fixed old new a).2.1, (moveDocument_fixed old new b).2.1] at path
    refine ⟨?_, path⟩
    unfold moveDocument at name
    split at name <;> split at name
    · next first second => rw [first, second]
    · exact absurd name.symm (unused b right)
    · exact absurd name (unused a left)
    · exact name

def renameContext (old new : CollectionName) (row : ConfigRow) : ConfigRow :=
  let stem := collectionContextKey old
  if keyHasPrefix stem row.key then
    { row with key := collectionContextKey new ++ String.ofList (row.key.toList.drop stem.toList.length) }
  else row

/-- `UPDATE OR REPLACE`: a row whose key a renamed one takes is dropped first. -/
def renameContexts (db : Db) (old new : CollectionName) : Table ConfigRow :=
  let stem := collectionContextKey old
  let moved := (db.config.select fun row => keyHasPrefix stem row.key).map (renameContext old new)
  let kept := db.config.deleteWhere fun row =>
    !keyHasPrefix stem row.key && moved.any fun m => m.key == row.key
  (kept.amend? (renameContext old new)).getD kept

def renameCollection (db : Db) (old new : CollectionName) : Except Failure Db :=
  if free : db.nameTaken new = false then
    match db.collections.amend? fun c => if c.name = old then { c with name := new } else c with
    | none => .error "UNIQUE constraint failed: store_collections.name"
    | some collections => .ok { db with
        collections
        documents := db.documents.amend (moveDocument old new) (move_keeps free)
        config := db.renameContexts old new
        bounded := fun d member => by
          obtain ⟨row, inside, rfl⟩ := Table.mem_amend.mp member
          rw [(moveDocument_fixed old new row).1]
          exact db.bounded row inside
        referenced := fun d member => by
          obtain ⟨row, inside, rfl⟩ := Table.mem_amend.mp member
          rw [(moveDocument_fixed old new row).2.2]
          exact db.referenced row inside }
  else .error ("collection '" ++ new.text ++ "' already exists")

def activeFilepaths (db : Db) : List String := (db.documents.select (·.active)).map Document.filepath

/-! ### Embed exclusions -/

/-- Why the document at `path`, whose indexed text has `bytes` bytes, is not embedded. `globs` is the
glob matcher. -/
def Collection.excludes (globs : List String → String → Bool) (c : Collection) (path : String) (bytes : Nat) : Bool :=
  (!c.embedIgnore.isEmpty && globs c.embedIgnore path) ||
    match c.embedMaxBytes with
    | some cap => cap < bytes
    | none => false

/-- The ids of the active, non-empty documents a rule keeps out of `rqmd embed`. -/
def excludedDocs (db : Db) (globs : List String → String → Bool) : List Nat :=
  ((db.documents.select fun d => d.active && db.contentNonEmpty d.hash).filter fun d =>
    match db.findCollection d.collection, db.getContent d.hash with
    | some c, some doc => Collection.excludes globs c d.path doc.utf8ByteSize
    | _, _ => false).map Document.id

end Db

end Rqmd
