import Rqmd.Lib.Text
import Rqmd.ModelResidency
import Rqmd.Types

/-! The files of the models and the hub's cache. A file is hashed when it was downloaded or is found without a ref; a file
with a ref is taken as it is. A download writes the ref before the file is hashed, so a file that is refused once is
taken by every later start. -/

namespace Rqmd.Models
open Text

variable {B : Type}

/-- A file pinned to a revision of its repository. -/
structure PinnedModel where
  repo : String
  file : String
  revision : String
  sha256 : String
deriving DecidableEq

structure LlamaCppConfig where
  embed : PinnedModel
  rerank : PinnedModel
  generate : PinnedModel

def LlamaCppConfig.default : LlamaCppConfig where
  embed := ⟨"ggml-org/embeddinggemma-300M-GGUF", "embeddinggemma-300M-Q8_0.gguf",
    "0f741b5a6585bd53aeb15cd1372c56f2a0f65e12", "b5ce9d77a3fc4b3b39ccb5643c36777911cc4eb46a66962eadfa3f5f60490d63"⟩
  rerank := ⟨"ggml-org/Qwen3-Reranker-0.6B-Q8_0-GGUF", "qwen3-reranker-0.6b-q8_0.gguf",
    "a02f48bb4f057028298c21fa033da2b30d7742d5", "22c9979ce4fbcdc5acdc310c6641c32797eff1aa980b8f7a2db8a8ea23429a48"⟩
  generate := ⟨"ggml-org/Qwen3-1.7B-GGUF", "Qwen3-1.7B-Q8_0.gguf",
    "daeb8e2d528a760970442092f6bf1e55c3b659eb", "9860780f3a1fab1f8f909a1b549ea3e62c22d19ab1a492b3a1026b38c5bd3ec3"⟩

/-! ### The hub -/

structure HubPath where
  repo : String
  commit : String
  file : String
deriving DecidableEq

/-- The hub's cache: the commit each ref names, and the files of the snapshots. -/
structure HubCache (B : Type) where
  refs : String → String → Option String
  files : HubPath → Option B

namespace HubCache

/-- The pointer of a snapshot. -/
def pointerPath (model : PinnedModel) (commit : String) : HubPath := ⟨model.repo, commit, model.file⟩

/-- What the hub finds by the ref of the revision. -/
def get (cache : HubCache B) (model : PinnedModel) : Option HubPath :=
  match cache.refs model.repo model.revision with
  | some commit => if (cache.files (pointerPath model commit)).isSome then some (pointerPath model commit) else none
  | none => none

def createRef (cache : HubCache B) (model : PinnedModel) : HubCache B :=
  { cache with refs := fun repo revision =>
      if repo = model.repo ∧ revision = model.revision then some model.revision else cache.refs repo revision }

end HubCache

inductive ApiError where
  | requestError (status : Option Nat) (text : String)
  | tooManyRetries (inner : ApiError)
  | other (text : String)

/-- The hub's client: `get` with or without the credential, on a cache, and how it words its errors. -/
structure Hub (B : Type) where
  get : Bool → PinnedModel → HubCache B → Except ApiError HubPath × HubCache B
  words : ApiError → String

/-- What the client is documented to do: it keeps to the repository it is asked for, a file it answers is in the cache
under the ref, and without an answer there is no new ref. -/
structure Hub.Documented (hub : Hub B) : Prop where
  refs : ∀ token model cache repo revision, repo ≠ model.repo →
    (hub.get token model cache).2.refs repo revision = cache.refs repo revision
  files : ∀ token model cache path, path.repo ≠ model.repo →
    (hub.get token model cache).2.files path = cache.files path
  stored : ∀ token model cache path after, hub.get token model cache = (.ok path, after) → after.get model = some path
  failed : ∀ token model cache error after, hub.get token model cache = (.error error, after) →
    after.refs model.repo model.revision = cache.refs model.repo model.revision

/-! ### One file -/

/-- The digest of a file, and how a path reads. -/
structure HubEnv (B : Type) where
  sha256File : B → String
  display : HubPath → String
  tokenPath : String

/-- One start of the program: its environment, the token file and the network. -/
structure Occasion (B : Type) where
  hfHubOffline : Option String
  hfToken : Option String
  huggingFaceHubToken : Option String
  cacheToken : Option String
  hub : Hub B

def asciiLower (text : String) : String := String.ofList (text.toList.map Char.toLower)

def eqIgnoreAsciiCase (a b : String) : Bool := asciiLower a == asciiLower b

variable (env : HubEnv B)

/-- The bytes are those the configuration pins. -/
def matchesPin (model : PinnedModel) (bytes : B) : Bool := eqIgnoreAsciiCase (env.sha256File bytes) model.sha256

def verifySha256 (model : PinnedModel) (path : HubPath) (bytes : B) : Except ErrorChain Unit :=
  if matchesPin env model bytes then .ok ()
  else .error ["integrity check failed for " ++ env.display path ++ ": expected sha256 " ++ model.sha256 ++ ", got " ++
    env.sha256File bytes ++ " — the download may be corrupted or tampered with"]

def resolveCached (cache : HubCache B) (model : PinnedModel) : Except ErrorChain (Option HubPath) × HubCache B :=
  match cache.get model with
  | some path => (.ok (some path), cache)
  | none =>
    match cache.files (HubCache.pointerPath model model.revision) with
    | none => (.ok none, cache)
    | some bytes =>
      match verifySha256 env model (HubCache.pointerPath model model.revision) bytes with
      | .error cause => (.error cause, cache)
      | .ok () => (.ok (some (HubCache.pointerPath model model.revision)), cache.createRef model)

def offlineFromEnvValue (v : String) : Bool :=
  !(["", "0", "false", "no"].contains (asciiLower (String.ofList (trimMatches isWhiteSpace v.toList))))

def hfHubOffline (occasion : Occasion B) : Bool := (occasion.hfHubOffline.map offlineFromEnvValue).getD false

/-- A blank `HF_TOKEN` hides the other variable. -/
def envHfToken (occasion : Occasion B) : Option String :=
  (occasion.hfToken.or occasion.huggingFaceHubToken).filter fun token =>
    !(trimMatches isWhiteSpace token.toList).isEmpty

/-- A credential is in play; then there is an anonymous client beside the first. -/
def credentialed (occasion : Occasion B) : Bool := (envHfToken occasion).isSome || occasion.cacheToken.isSome

def statusIsAuthFailure (status : Nat) : Bool := status == 401 || status == 403

def isAuthFailure : ApiError → Bool
  | .requestError status _ => (status.map statusIsAuthFailure).getD false
  | .tooManyRetries inner => isAuthFailure inner
  | .other _ => false

def PinnedModel.path (model : PinnedModel) : String := model.repo ++ "/" ++ model.file

def PinnedModel.pinned (model : PinnedModel) : String := model.path ++ "@" ++ model.revision

def getWithAuthFallback (occasion : Occasion B) (cache : HubCache B) (model : PinnedModel) :
    Except ErrorChain HubPath × HubCache B :=
  match occasion.hub.get (credentialed occasion) model cache with
  | (.ok path, cache) => (.ok path, cache)
  | (.error err, cache) =>
    if isAuthFailure err && credentialed occasion then
      match occasion.hub.get false model cache with
      | (.ok path, cache) => (.ok path, cache)
      | (.error anonErr, cache) =>
        (.error ["HuggingFace rejected both the authenticated (" ++ occasion.hub.words err ++ ") and anonymous (" ++
          occasion.hub.words anonErr ++ ") download of " ++ model.path ++ ". The token at " ++ env.tokenPath ++
          " may be expired — run `huggingface-cli login` to refresh it, or remove that file to download anonymously."],
          cache)
    else (.error [occasion.hub.words err], cache)

/-- The file of a model, from the cache or the network. -/
def getVerified (occasion : Occasion B) (cache : HubCache B) (model : PinnedModel) :
    Except ErrorChain HubPath × HubCache B :=
  match resolveCached env cache model with
  | (.error cause, cache) => (.error (model.pinned :: cause), cache)
  | (.ok (some path), cache) => (.ok path, cache)
  | (.ok none, cache) =>
    if hfHubOffline occasion then
      (.error [model.pinned ++
        " is not in the local cache and HF_HUB_OFFLINE is set — unset it to allow the download, " ++
        "or pre-stage the file at " ++ env.display (HubCache.pointerPath model model.revision)], cache)
    else
      match getWithAuthFallback env occasion cache model with
      | (.error cause, cache) => (.error (("download " ++ model.pinned) :: cause), cache)
      | (.ok path, cache) =>
        match cache.files path with
        | none => (.error [model.pinned, "open " ++ env.display path ++ " to hash"], cache)
        | some bytes =>
          match verifySha256 env model path bytes with
          | .error cause => (.error (model.pinned :: cause), cache)
          | .ok () => (.ok path, cache)

/-! ### Starts -/

/-- The three files in turn; the first that is not to be had ends the start. -/
def downloadModels (config : LlamaCppConfig) (occasion : Occasion B) (cache : HubCache B) :
    Except ErrorChain (HubPath × HubPath × HubPath) × HubCache B :=
  match getVerified env occasion cache config.embed with
  | (.error cause, cache) => (.error ("embed model download" :: cause), cache)
  | (.ok ep, cache) =>
    match getVerified env occasion cache config.rerank with
    | (.error cause, cache) => (.error ("rerank model download" :: cause), cache)
    | (.ok rp, cache) =>
      match getVerified env occasion cache config.generate with
      | (.error cause, cache) => (.error ("generate model download" :: cause), cache)
      | (.ok gp, cache) => (.ok (ep, rp, gp), cache)

/-! ### What one call does -/

variable {env} {occasion : Occasion B} {cache : HubCache B} {model other : PinnedModel} {path : HubPath}

/-- The call downloads the file and refuses it. -/
def Refuses (env : HubEnv B) (occasion : Occasion B) (cache : HubCache B) (model : PinnedModel) : Prop :=
  cache.get model = none ∧ cache.files (HubCache.pointerPath model model.revision) = none ∧
    hfHubOffline occasion = false ∧
    ∃ path after bytes, getWithAuthFallback env occasion cache model = (.ok path, after) ∧
      after.files path = some bytes ∧ matchesPin env model bytes = false

/-- There is no ref, or there is one with a file, whose bytes are wrong exactly where it was refused. -/
def Settled (env : HubEnv B) (cache : HubCache B) (model : PinnedModel) (refused : Prop) : Prop :=
  (cache.refs model.repo model.revision = none ∧ ¬ refused) ∨
    ∃ path bytes, cache.get model = some path ∧ cache.files path = some bytes ∧
      (matchesPin env model bytes = false ↔ refused)

theorem get_of_bare (bare : cache.refs model.repo model.revision = none) : cache.get model = none := by
  rw [HubCache.get, bare]

theorem files_of_get (found : cache.get model = some path) : ∃ bytes, cache.files path = some bytes := by
  unfold HubCache.get at found
  split at found
  · split at found
    · next present =>
      obtain rfl := Option.some.inj found
      exact Option.isSome_iff_exists.mp present
    · cases found
  · cases found

theorem repo_of_get (found : cache.get model = some path) : path.repo = model.repo := by
  unfold HubCache.get at found
  split at found
  · split at found
    · rw [← Option.some.inj found]
      rfl
    · cases found
  · cases found

/-- A file with a ref is taken as it is. -/
theorem getVerified_found (found : cache.get model = some path) :
    getVerified env occasion cache model = (.ok path, cache) := by
  simp [getVerified, resolveCached, found]

theorem get_createRef {bytes : B} (present : cache.files (HubCache.pointerPath model model.revision) = some bytes) :
    (cache.createRef model).get model = some (HubCache.pointerPath model model.revision) := by
  simp [HubCache.get, HubCache.createRef, present]

/-- What the fallback to the anonymous client answers is in the cache; without an answer the refs are as before. -/
theorem getWithAuthFallback_spec (documented : occasion.hub.Documented) :
    (∃ path after, getWithAuthFallback env occasion cache model = (.ok path, after) ∧ after.get model = some path) ∨
      ∃ cause after, getWithAuthFallback env occasion cache model = (.error cause, after) ∧
        after.refs model.repo model.revision = cache.refs model.repo model.revision := by
  unfold getWithAuthFallback
  rcases first : occasion.hub.get (credentialed occasion) model cache with ⟨result, between⟩
  cases result with
  | ok path => exact .inl ⟨path, between, rfl, documented.stored _ _ _ _ _ first⟩
  | error err =>
    have same := documented.failed _ _ _ _ _ first
    by_cases again : (isAuthFailure err && credentialed occasion) = true
    · simp only [again, if_true]
      rcases second : occasion.hub.get false model between with ⟨result, after⟩
      cases result with
      | ok path => exact .inl ⟨path, after, rfl, documented.stored _ _ _ _ _ second⟩
      | error anonErr => exact .inr ⟨_, after, rfl, (documented.failed _ _ _ _ _ second).trans same⟩
    · simp only [again]
      exact .inr ⟨_, between, rfl, same⟩

/-- A call for a file without a ref settles it. -/
theorem getVerified_bare (documented : occasion.hub.Documented) (bare : cache.refs model.repo model.revision = none) :
    Settled env (getVerified env occasion cache model).2 model (Refuses env occasion cache model) ∧
      ∀ path, (getVerified env occasion cache model).1 = .ok path →
        (getVerified env occasion cache model).2.get model = some path ∧ ¬ Refuses env occasion cache model := by
  have nothing := get_of_bare bare
  cases pointer : cache.files (HubCache.pointerPath model model.revision) with
  | some bytes =>
    have calm : ¬ Refuses env occasion cache model := by
      intro refuses
      rw [refuses.2.1] at pointer
      cases pointer
    by_cases right : matchesPin env model bytes = true
    · have result : getVerified env occasion cache model =
          (.ok (HubCache.pointerPath model model.revision), cache.createRef model) := by
        simp [getVerified, resolveCached, nothing, pointer, verifySha256, right]
      rw [result]
      refine ⟨.inr ⟨_, bytes, get_createRef pointer, pointer, ?_⟩, fun path same => ?_⟩
      · simp [right, calm]
      · obtain rfl := Except.ok.inj same
        exact ⟨get_createRef pointer, calm⟩
    · have result : ∃ cause, getVerified env occasion cache model = (.error cause, cache) := by
        simp [getVerified, resolveCached, nothing, pointer, verifySha256, right]
      obtain ⟨cause, result⟩ := result
      rw [result]
      exact ⟨.inl ⟨bare, calm⟩, fun path same => by cases same⟩
  | none =>
    have resolved : resolveCached env cache model = (.ok none, cache) := by
      simp [resolveCached, nothing, pointer]
    by_cases offline : hfHubOffline occasion = true
    · have calm : ¬ Refuses env occasion cache model := by
        intro refuses
        rw [refuses.2.2.1] at offline
        cases offline
      have result : ∃ cause, getVerified env occasion cache model = (.error cause, cache) := by
        simp [getVerified, resolved, offline]
      obtain ⟨cause, result⟩ := result
      rw [result]
      exact ⟨.inl ⟨bare, calm⟩, fun path same => by cases same⟩
    · have online : hfHubOffline occasion = false := by simpa using offline
      rcases @getWithAuthFallback_spec B env occasion cache model documented with
        ⟨path, after, fetched, stored⟩ | ⟨cause, after, failed, same⟩
      · obtain ⟨bytes, present⟩ := files_of_get stored
        have refuses : Refuses env occasion cache model ↔ matchesPin env model bytes = false := by
          constructor
          · rintro ⟨-, -, -, other, later, wrong, again, held, mismatch⟩
            obtain ⟨⟨⟩, rfl⟩ := Prod.mk.inj (fetched.symm.trans again)
            obtain rfl := Option.some.inj (present.symm.trans held)
            exact mismatch
          · exact fun mismatch => ⟨nothing, pointer, online, path, after, bytes, fetched, present, mismatch⟩
        by_cases right : matchesPin env model bytes = true
        · have result : getVerified env occasion cache model = (.ok path, after) := by
            simp [getVerified, resolved, online, fetched, present, verifySha256, right]
          rw [result]
          refine ⟨.inr ⟨path, bytes, stored, present, refuses.symm⟩, fun other same => ?_⟩
          obtain rfl := Except.ok.inj same
          refine ⟨stored, fun refused => ?_⟩
          rw [refuses.mp refused] at right
          cases right
        · have result : ∃ cause, getVerified env occasion cache model = (.error cause, after) := by
            simp [getVerified, resolved, online, fetched, present, verifySha256, right]
          obtain ⟨cause, result⟩ := result
          rw [result]
          exact ⟨.inr ⟨path, bytes, stored, present, refuses.symm⟩, fun other same => by cases same⟩
      · have calm : ¬ Refuses env occasion cache model := by
          rintro ⟨-, -, -, path, later, bytes, again, -, -⟩
          cases congrArg Prod.fst (failed.symm.trans again)
        have result : ∃ cause, getVerified env occasion cache model = (.error cause, after) := by
          simp [getVerified, resolved, online, failed]
        obtain ⟨cause, result⟩ := result
        rw [result]
        exact ⟨.inl ⟨same.trans bare, calm⟩, fun path same => by cases same⟩

/-- Two caches have the same of a repository. -/
def HubCache.Alike (repo : String) (before after : HubCache B) : Prop :=
  (∀ revision, after.refs repo revision = before.refs repo revision) ∧
    ∀ path : HubPath, path.repo = repo → after.files path = before.files path

theorem HubCache.Alike.refl (repo : String) (cache : HubCache B) : cache.Alike repo cache :=
  ⟨fun _ => rfl, fun _ _ => rfl⟩

theorem HubCache.Alike.trans {repo : String} {first second third : HubCache B} (one : first.Alike repo second)
    (two : second.Alike repo third) : first.Alike repo third :=
  ⟨fun revision => (two.1 revision).trans (one.1 revision), fun path own => (two.2 path own).trans (one.2 path own)⟩

theorem alike_get (documented : occasion.hub.Documented) (token : Bool) (differ : other.repo ≠ model.repo) :
    cache.Alike other.repo (occasion.hub.get token model cache).2 := by
  refine ⟨fun revision => documented.refs token model cache other.repo revision differ, fun path own => ?_⟩
  exact documented.files token model cache path (own ▸ differ)

theorem alike_getWithAuthFallback (documented : occasion.hub.Documented) (differ : other.repo ≠ model.repo) :
    cache.Alike other.repo (getWithAuthFallback env occasion cache model).2 := by
  unfold getWithAuthFallback
  have one := @alike_get B occasion cache model other documented (credentialed occasion) differ
  rcases first : occasion.hub.get (credentialed occasion) model cache with ⟨result, between⟩
  rw [first] at one
  cases result with
  | ok path => exact one
  | error err =>
    by_cases again : (isAuthFailure err && credentialed occasion) = true
    · have two := @alike_get B occasion between model other documented false differ
      rcases second : occasion.hub.get false model between with ⟨result, after⟩
      rw [second] at two
      simp only [again, if_true, second]
      cases result with
      | ok path => exact one.trans two
      | error anonErr => exact one.trans two
    · simp only [again]
      exact one

theorem alike_resolveCached (differ : other.repo ≠ model.repo) :
    cache.Alike other.repo (resolveCached env cache model).2 := by
  unfold resolveCached
  split
  · exact .refl _ _
  · split
    · exact .refl _ _
    · split
      · exact .refl _ _
      · exact ⟨fun revision => if_neg fun own => differ own.1, fun _ _ => rfl⟩

/-- A call for one repository leaves the others as they were. -/
theorem alike_getVerified (documented : occasion.hub.Documented) (differ : other.repo ≠ model.repo) :
    cache.Alike other.repo (getVerified env occasion cache model).2 := by
  have one := @alike_resolveCached B env cache model other differ
  unfold getVerified
  rcases resolved : resolveCached env cache model with ⟨result, between⟩
  rw [resolved] at one
  rcases result with cause | found
  · exact one
  · cases found with
    | some path => exact one
    | none =>
      simp only
      split
      · exact one
      · have two := @alike_getWithAuthFallback B env occasion between model other documented differ
        rcases fetched : getWithAuthFallback env occasion between model with ⟨result, after⟩
        rw [fetched] at two
        cases result with
        | error cause => exact one.trans two
        | ok path =>
          simp only
          split
          · exact one.trans two
          · split
            · exact one.trans two
            · exact one.trans two

theorem Settled.elsewhere {refused : Prop} {after : HubCache B} (settled : Settled env cache model refused)
    (alike : cache.Alike model.repo after) : Settled env after model refused := by
  have same : after.get model = cache.get model := by
    unfold HubCache.get
    rw [alike.1]
    split
    · rw [alike.2 _ rfl]
    · rfl
  rcases settled with ⟨bare, calm⟩ | ⟨path, bytes, found, present, exact_bytes⟩
  · exact .inl ⟨(alike.1 _).trans bare, calm⟩
  · exact .inr ⟨path, bytes, same.trans found, (alike.2 path (repo_of_get found)).trans present, exact_bytes⟩

/-! ### Any number of calls -/

def callsAfter (env : HubEnv B) (cache : HubCache B) (calls : List (PinnedModel × Occasion B)) : HubCache B :=
  calls.foldl (fun cache call => (getVerified env call.2 cache call.1).2) cache

/-- One of the calls downloaded the file and refused it. -/
def RefusedIn (env : HubEnv B) (cache : HubCache B) (calls : List (PinnedModel × Occasion B)) (model : PinnedModel) :
    Prop :=
  ∃ front occasion rest, calls = front ++ (model, occasion) :: rest ∧
    Refuses env occasion (callsAfter env cache front) model

theorem refusedIn_snoc {calls : List (PinnedModel × Occasion B)} {call : PinnedModel × Occasion B} :
    RefusedIn env cache (calls ++ [call]) model ↔
      RefusedIn env cache calls model ∨ call.1 = model ∧ Refuses env call.2 (callsAfter env cache calls) model := by
  constructor
  · rintro ⟨front, occasion, rest, place, refuses⟩
    rcases List.eq_nil_or_concat rest with rfl | ⟨rest, last, rfl⟩
    · obtain ⟨rfl, same⟩ := List.append_inj' place rfl
      obtain rfl := (List.cons.inj same).1
      exact .inr ⟨rfl, refuses⟩
    · have grouped : calls ++ [call] = (front ++ (model, occasion) :: rest) ++ [last] := by simpa using place
      exact .inl ⟨front, occasion, rest, (List.append_inj' grouped rfl).1, refuses⟩
  · rintro (⟨front, occasion, rest, rfl, refuses⟩ | ⟨rfl, refuses⟩)
    · exact ⟨front, occasion, rest ++ [call], by simp, refuses⟩
    · exact ⟨calls, call.2, [], rfl, refuses⟩

/-- The run lemma: after any calls for files of distinct repositories, each is settled. -/
theorem settled_after {models : List PinnedModel} (apart : ∀ a ∈ models, ∀ b ∈ models, a.repo = b.repo → a = b)
    (member : model ∈ models) (bare : cache.refs model.repo model.revision = none)
    (calls : List (PinnedModel × Occasion B)) :
    (∀ call ∈ calls, call.1 ∈ models ∧ call.2.hub.Documented) →
      Settled env (callsAfter env cache calls) model (RefusedIn env cache calls model) := by
  induction calls using List.reverseRecOn with
  | nil =>
    intro _
    refine .inl ⟨bare, ?_⟩
    rintro ⟨front, occasion, rest, place, -⟩
    simp at place
  | append_singleton calls call ih =>
    intro known
    have before := ih fun earlier inside => known earlier (List.mem_append_left _ inside)
    obtain ⟨listed, documented⟩ := known call (List.mem_append_right _ (List.mem_singleton_self _))
    have last : callsAfter env cache (calls ++ [call]) =
        (getVerified env call.2 (callsAfter env cache calls) call.1).2 := by
      rw [callsAfter, List.foldl_append]
      rfl
    rw [last, refusedIn_snoc]
    by_cases mine : call.1 = model
    · subst mine
      rcases before with ⟨still, calm⟩ | ⟨path, bytes, found, present, exact_bytes⟩
      · have settles := (@getVerified_bare B env call.2 _ call.1 documented still).1
        simpa [calm] using settles
      · have calm : ¬ Refuses env call.2 (callsAfter env cache calls) call.1 := by
          intro refuses
          rw [refuses.1] at found
          cases found
        rw [getVerified_found found]
        exact .inr ⟨path, bytes, found, present, by simpa [calm] using exact_bytes⟩
    · have differ : model.repo ≠ call.1.repo := fun same => mine (apart model member call.1 listed same).symm
      simp only [mine, false_and, or_false]
      exact before.elsewhere (alike_getVerified documented differ)

/-- The file a call accepts, with its bytes. -/
theorem Settled.accepted {refused : Prop} {after : HubCache B} (settled : Settled env cache model refused)
    (documented : occasion.hub.Documented) (called : getVerified env occasion cache model = (.ok path, after)) :
    after.get model = some path ∧ ∃ bytes, after.files path = some bytes ∧
      (matchesPin env model bytes = false ↔ refused) := by
  rcases settled with ⟨bare, calm⟩ | ⟨known, bytes, found, present, exact_bytes⟩
  · obtain ⟨settles, answered⟩ := @getVerified_bare B env occasion cache model documented bare
    rw [called] at settles answered
    obtain ⟨stored, unrefused⟩ := answered path rfl
    rcases settles with ⟨still, -⟩ | ⟨same, bytes, found, present, exact_bytes⟩
    · rw [get_of_bare still] at stored
      cases stored
    · obtain rfl := Option.some.inj (stored.symm.trans found)
      refine ⟨stored, bytes, present, exact_bytes.trans ?_⟩
      exact ⟨fun refuses => absurd refuses unrefused, fun refuses => absurd refuses calm⟩
  · rw [getVerified_found found] at called
    obtain ⟨⟨⟩, rfl⟩ := Prod.mk.inj called
    exact ⟨found, bytes, present, exact_bytes⟩

/-! ### Any number of starts -/

/-- The calls of one start. -/
def startCalls (env : HubEnv B) (config : LlamaCppConfig) (occasion : Occasion B) (cache : HubCache B) :
    List (PinnedModel × Occasion B) :=
  match getVerified env occasion cache config.embed with
  | (.error _, _) => [(config.embed, occasion)]
  | (.ok _, cache) =>
    match getVerified env occasion cache config.rerank with
    | (.error _, _) => [(config.embed, occasion), (config.rerank, occasion)]
    | (.ok _, _) => [(config.embed, occasion), (config.rerank, occasion), (config.generate, occasion)]

def historyCalls (env : HubEnv B) (config : LlamaCppConfig) (cache : HubCache B) :
    List (Occasion B) → List (PinnedModel × Occasion B)
  | [] => []
  | occasion :: history =>
    startCalls env config occasion cache ++ historyCalls env config (downloadModels env config occasion cache).2 history

def startsAfter (env : HubEnv B) (config : LlamaCppConfig) (cache : HubCache B) (history : List (Occasion B)) :
    HubCache B :=
  history.foldl (fun cache occasion => (downloadModels env config occasion cache).2) cache

variable {config : LlamaCppConfig}

/-- A start leaves what its calls leave. -/
theorem callsAfter_startCalls (occasion : Occasion B) (cache : HubCache B) :
    callsAfter env cache (startCalls env config occasion cache) = (downloadModels env config occasion cache).2 := by
  unfold startCalls downloadModels callsAfter
  rcases one : getVerified env occasion cache config.embed with ⟨result, second⟩
  cases result with
  | error cause => simp [one]
  | ok ep =>
    rcases two : getVerified env occasion second config.rerank with ⟨result, third⟩
    cases result with
    | error cause => simp [one, two]
    | ok rp =>
      rcases three : getVerified env occasion third config.generate with ⟨result, after⟩
      cases result with
      | error cause => simp [one, two, three]
      | ok gp => simp [one, two, three]

theorem mem_startCalls {cache : HubCache B} {call : PinnedModel × Occasion B}
    (member : call ∈ startCalls env config occasion cache) :
    call.1 ∈ [config.embed, config.rerank, config.generate] ∧ call.2 = occasion := by
  unfold startCalls at member
  rcases one : getVerified env occasion cache config.embed with ⟨result, second⟩
  rw [one] at member
  cases result with
  | error cause =>
    simp only [List.mem_singleton] at member
    simp [member]
  | ok ep =>
    rcases two : getVerified env occasion second config.rerank with ⟨result, third⟩
    simp only [two] at member
    cases result with
    | error cause =>
      simp only [List.mem_cons, List.not_mem_nil, or_false] at member
      rcases member with rfl | rfl <;> simp
    | ok rp =>
      simp only [List.mem_cons, List.not_mem_nil, or_false] at member
      rcases member with rfl | rfl | rfl <;> simp

theorem callsAfter_historyCalls (history : List (Occasion B)) : ∀ cache : HubCache B,
    callsAfter env cache (historyCalls env config cache history) = startsAfter env config cache history := by
  induction history with
  | nil => exact fun _ => rfl
  | cons occasion history ih =>
    intro cache
    have first := @callsAfter_startCalls B env config occasion cache
    have later := ih (downloadModels env config occasion cache).2
    unfold callsAfter at first later ⊢
    rw [historyCalls, List.foldl_append, first, later]
    rfl

theorem mem_historyCalls {call : PinnedModel × Occasion B} (history : List (Occasion B)) : ∀ cache : HubCache B,
    call ∈ historyCalls env config cache history →
      call.1 ∈ [config.embed, config.rerank, config.generate] ∧ call.2 ∈ history := by
  induction history with
  | nil => exact fun _ member => absurd member List.not_mem_nil
  | cons occasion history ih =>
    intro cache member
    rcases List.mem_append.mp member with now | later
    · obtain ⟨listed, same⟩ := mem_startCalls now
      exact ⟨listed, same ▸ List.mem_cons_self⟩
    · obtain ⟨listed, inside⟩ := ih _ later
      exact ⟨listed, List.mem_cons_of_mem _ inside⟩

/-- The repositories of the three files are distinct. -/
def LlamaCppConfig.Apart (config : LlamaCppConfig) : Prop :=
  config.embed.repo ≠ config.rerank.repo ∧ config.embed.repo ≠ config.generate.repo ∧
    config.rerank.repo ≠ config.generate.repo

theorem LlamaCppConfig.Apart.distinct (apart : config.Apart) :
    ∀ a ∈ [config.embed, config.rerank, config.generate], ∀ b ∈ [config.embed, config.rerank, config.generate],
      a.repo = b.repo → a = b := by
  obtain ⟨one, two, three⟩ := apart
  intro a left b right same
  simp only [List.mem_cons, List.not_mem_nil, or_false] at left right
  rcases left with rfl | rfl | rfl
  · rcases right with rfl | rfl | rfl
    · rfl
    · exact absurd same one
    · exact absurd same two
  · rcases right with rfl | rfl | rfl
    · exact absurd same.symm one
    · rfl
    · exact absurd same three
  · rcases right with rfl | rfl | rfl
    · exact absurd same.symm two
    · exact absurd same.symm three
    · rfl

/-- The files a start accepts are those the configuration pins, but for those an earlier start downloaded and refused:
each of these is accepted by every start that comes to it. -/
theorem model_files_checked_once {history : List (Occasion B)} {ep rp gp : HubPath} {after : HubCache B}
    (apart : config.Apart)
    (bare : ∀ model ∈ [config.embed, config.rerank, config.generate], cache.refs model.repo model.revision = none)
    (documented : ∀ start ∈ occasion :: history, start.hub.Documented)
    (started : downloadModels env config occasion (startsAfter env config cache history) = (.ok (ep, rp, gp), after)) :
    ∀ accepted ∈ [(config.embed, ep), (config.rerank, rp), (config.generate, gp)],
      ∃ bytes, after.files accepted.2 = some bytes ∧ (matchesPin env accepted.1 bytes = false ↔
        RefusedIn env cache (historyCalls env config cache history) accepted.1) := by
  have now := documented occasion List.mem_cons_self
  have known : ∀ call ∈ historyCalls env config cache history,
      call.1 ∈ [config.embed, config.rerank, config.generate] ∧ call.2.hub.Documented := by
    intro call member
    obtain ⟨listed, inside⟩ := mem_historyCalls history cache member
    exact ⟨listed, documented call.2 (List.mem_cons_of_mem _ inside)⟩
  have settled : ∀ model ∈ [config.embed, config.rerank, config.generate],
      Settled env (startsAfter env config cache history) model
        (RefusedIn env cache (historyCalls env config cache history) model) := by
    intro model member
    rw [← callsAfter_historyCalls]
    exact settled_after apart.distinct member (bare model member) _ known
  generalize startsAfter env config cache history = first at started settled
  unfold downloadModels at started
  rcases one : getVerified env occasion first config.embed with ⟨result, second⟩
  rw [one] at started
  cases result with
  | error cause => cases congrArg Prod.fst started
  | ok embedPath =>
    rcases two : getVerified env occasion second config.rerank with ⟨result, third⟩
    simp only [two] at started
    cases result with
    | error cause => cases congrArg Prod.fst started
    | ok rerankPath =>
      rcases three : getVerified env occasion third config.generate with ⟨result, last⟩
      simp only [three] at started
      cases result with
      | error cause => cases congrArg Prod.fst started
      | ok generatePath =>
        obtain ⟨same, rfl⟩ := Prod.mk.inj started
        obtain ⟨rfl, rest⟩ := Prod.mk.inj (Except.ok.inj same)
        obtain ⟨rfl, rfl⟩ := Prod.mk.inj rest
        -- each call leaves the files of the others, and what was refused of them, as they were
        have toEmbed := settled config.embed (by simp)
        have toRerank := (settled config.rerank (by simp)).elsewhere
          (one ▸ @alike_getVerified B env occasion first config.embed config.rerank now apart.1.symm)
        have toGenerate := ((settled config.generate (by simp)).elsewhere
          (one ▸ @alike_getVerified B env occasion first config.embed config.generate now apart.2.1.symm)).elsewhere
          (two ▸ @alike_getVerified B env occasion second config.rerank config.generate now apart.2.2.symm)
        obtain ⟨embedFound, embedBytes, embedHere, embedPin⟩ := toEmbed.accepted now one
        obtain ⟨rerankFound, rerankBytes, rerankHere, rerankPin⟩ := toRerank.accepted now two
        obtain ⟨generateFound, generateBytes, generateHere, generatePin⟩ := toGenerate.accepted now three
        have embedKept : last.files embedPath = some embedBytes := by
          have overRerank := @alike_getVerified B env occasion second config.rerank config.embed now apart.1
          have overGenerate := @alike_getVerified B env occasion third config.generate config.embed now apart.2.1
          rw [two] at overRerank
          rw [three] at overGenerate
          rw [(overRerank.trans overGenerate).2 embedPath (repo_of_get embedFound), embedHere]
        have rerankKept : last.files rerankPath = some rerankBytes := by
          have overGenerate := @alike_getVerified B env occasion third config.generate config.rerank now apart.2.2
          rw [three] at overGenerate
          rw [overGenerate.2 rerankPath (repo_of_get rerankFound), rerankHere]
        intro accepted member
        simp only [List.mem_cons, List.not_mem_nil, or_false] at member
        rcases member with rfl | rfl | rfl
        · exact ⟨embedBytes, embedKept, embedPin⟩
        · exact ⟨rerankBytes, rerankKept, rerankPin⟩
        · exact ⟨generateBytes, generateHere, generatePin⟩

/-! A mirror serves another file for one model; the next start finds an honest one. -/

def plainEnv : HubEnv String := ⟨id, fun path => path.repo ++ "/" ++ path.commit ++ "/" ++ path.file, "token"⟩

/-- A client that answers every request with these bytes, under the pinned commit. -/
def mirror (bytes : PinnedModel → String) : Hub String where
  get _ model cache := (.ok (HubCache.pointerPath model model.revision), { cache.createRef model with
    files := fun path =>
      if path = HubCache.pointerPath model model.revision then some (bytes model) else cache.files path })
  words _ := "error"

theorem mirror_documented (bytes : PinnedModel → String) : (mirror bytes).Documented where
  refs _ _ _ _ _ differ := if_neg fun own => differ own.1
  files _ model _ path differ := if_neg fun own => differ (congrArg HubPath.repo own)
  stored _ model cache path after answered := by
    obtain ⟨same, rfl⟩ := Prod.mk.inj answered
    obtain rfl := Except.ok.inj same
    simp [HubCache.get, HubCache.createRef]
  failed _ _ _ _ _ never := by cases congrArg Prod.fst never

def bareCache : HubCache String := ⟨fun _ _ => none, fun _ => none⟩

def tamperedStart : Occasion String := ⟨none, none, none, none, mirror fun _ => "other"⟩

def honestStart : Occasion String := ⟨none, none, none, none, mirror PinnedModel.sha256⟩

/-- What the two starts leave. -/
def tamperedCache : HubCache String := startsAfter plainEnv .default bareCache [tamperedStart]

def embedPath : HubPath := HubCache.pointerPath LlamaCppConfig.default.embed LlamaCppConfig.default.embed.revision

theorem refused_file_accepted : ∃ rp gp after,
    downloadModels plainEnv .default honestStart tamperedCache = (.ok (embedPath, rp, gp), after) ∧
      ∃ bytes, after.files embedPath = some bytes ∧ matchesPin plainEnv LlamaCppConfig.default.embed bytes = false := by
  have apart : LlamaCppConfig.default.Apart := by
    refine ⟨?_, ?_, ?_⟩ <;> decide +kernel
  have documented : ∀ start ∈ [honestStart, tamperedStart], start.hub.Documented := by
    intro start member
    simp only [List.mem_cons, List.not_mem_nil, or_false] at member
    rcases member with rfl | rfl
    · exact mirror_documented _
    · exact mirror_documented _
  have accepted : (downloadModels plainEnv .default honestStart tamperedCache).1 = .ok (embedPath,
      HubCache.pointerPath LlamaCppConfig.default.rerank LlamaCppConfig.default.rerank.revision,
      HubCache.pointerPath LlamaCppConfig.default.generate LlamaCppConfig.default.generate.revision) := by
    decide +kernel
  have refused : RefusedIn plainEnv bareCache (historyCalls plainEnv .default bareCache [tamperedStart])
      LlamaCppConfig.default.embed := by
    have refuses : Refuses plainEnv tamperedStart bareCache LlamaCppConfig.default.embed :=
      ⟨rfl, rfl, rfl, embedPath, _, "other", rfl, by simp [embedPath], by decide +kernel⟩
    exact ⟨[], tamperedStart, [], rfl, refuses⟩
  have started : downloadModels plainEnv .default honestStart tamperedCache = (.ok (embedPath, _, _),
      (downloadModels plainEnv .default honestStart tamperedCache).2) := Prod.ext accepted rfl
  have files := model_files_checked_once apart (fun _ _ => rfl) documented started
    (LlamaCppConfig.default.embed, embedPath)
    List.mem_cons_self
  obtain ⟨bytes, here, wrong⟩ := files
  exact ⟨_, _, _, started, bytes, here, wrong.mpr refused⟩

end Rqmd.Models
