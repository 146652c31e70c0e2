import Rqmd.Boundaries
import Rqmd.KeyBackfill

/-! Fingerprints and grammars. Two builds give a path the same fingerprint exactly where they cut its text with the same
grammar, or both without one. -/

namespace Rqmd.Chunking
open Backfill

/-! ### The markers of a build -/

/-- One round of `extensions_by_marker`. -/
def addExtensions (language : Language) : Grammars → Grammars
  | [] => [(language.marker, language.extensions)]
  | (marker, exts) :: groups =>
    if marker = language.marker then (marker, exts ++ language.extensions) :: groups
    else (marker, exts) :: addExtensions language groups

def extensionsByMarker (compiled : List Language) : Grammars :=
  compiled.foldl (fun groups language => addExtensions language groups) []

def Carries (groups : Grammars) (marker ext : String) : Prop := ∃ exts, (marker, exts) ∈ groups ∧ ext ∈ exts

variable {compiled one other : List Language} {language : Language} {marker ext : String}

theorem carries_cons {group : String × List String} {groups : Grammars} :
    Carries (group :: groups) marker ext ↔ (marker = group.1 ∧ ext ∈ group.2) ∨ Carries groups marker ext := by
  unfold Carries
  constructor
  · rintro ⟨exts, member, inside⟩
    rcases List.mem_cons.mp member with rfl | behind
    · exact .inl ⟨rfl, inside⟩
    · exact .inr ⟨exts, behind, inside⟩
  · rintro (⟨rfl, inside⟩ | ⟨exts, behind, inside⟩)
    · exact ⟨group.2, List.mem_cons_self, inside⟩
    · exact ⟨exts, List.mem_cons_of_mem _ behind, inside⟩

theorem carries_addExtensions (groups : Grammars) : Carries (addExtensions language groups) marker ext ↔
    Carries groups marker ext ∨ (marker = language.marker ∧ ext ∈ language.extensions) := by
  induction groups with
  | nil => simp [addExtensions, Carries]
  | cons group groups ih =>
    obtain ⟨first, exts⟩ := group
    rw [addExtensions]
    split
    · next same =>
      rw [carries_cons, carries_cons, List.mem_append, same]
      tauto
    · rw [carries_cons, carries_cons, ih, or_assoc]

theorem carries_extensionsByMarker : Carries (extensionsByMarker compiled) marker ext ↔
    ∃ language ∈ compiled, marker = language.marker ∧ ext ∈ language.extensions := by
  have folded : ∀ (compiled : List Language) (groups : Grammars),
      Carries (compiled.foldl (fun groups language => addExtensions language groups) groups) marker ext ↔
        Carries groups marker ext ∨ ∃ language ∈ compiled, marker = language.marker ∧ ext ∈ language.extensions := by
    intro compiled
    induction compiled with
    | nil => simp
    | cons language compiled ih =>
      intro groups
      rw [List.foldl_cons, ih, carries_addExtensions, or_assoc, List.exists_mem_cons_iff]
  rw [extensionsByMarker, folded]
  simp [Carries]

/-! ### The language of a path -/

/-- No extension belongs to two languages. -/
theorem registry_apart : ∀ one ∈ registry, ∀ other ∈ registry, ∀ ext ∈ one.extensions, ext ∈ other.extensions →
    one = other := by
  decide +kernel

theorem languageFor_eq_some (known : compiled.Sublist registry) :
    languageFor compiled ext = some language ↔ language ∈ compiled ∧ ext ∈ language.extensions := by
  constructor
  · intro found
    have carried := List.find?_some found
    exact ⟨List.mem_of_find?_eq_some found, List.contains_iff_mem.mp carried⟩
  · rintro ⟨member, carried⟩
    cases found : languageFor compiled ext with
    | none =>
      have missed := List.find?_eq_none.mp found language member
      exact absurd (List.contains_iff_mem.mpr carried) missed
    | some first =>
      have owner := List.mem_of_find?_eq_some found
      have listed := List.find?_some found
      have carries := List.contains_iff_mem.mp listed
      rw [registry_apart first (known.subset owner) language (known.subset member) ext carries carried]

/-- The marker found among the groups is that of the language that cuts the file. -/
theorem astFingerprintMarker_eq (known : compiled.Sublist registry) (ext : String) :
    astFingerprintMarker (extensionsByMarker compiled) ext = (languageFor compiled ext).map Language.marker := by
  unfold astFingerprintMarker
  cases found : (extensionsByMarker compiled).find? fun group => group.2.contains ext with
  | none =>
    cases owner : languageFor compiled ext with
    | none => rfl
    | some language =>
      obtain ⟨member, carried⟩ := (languageFor_eq_some known).mp owner
      obtain ⟨exts, inside, listed⟩ := carries_extensionsByMarker.mpr ⟨language, member, rfl, carried⟩
      have missed := List.find?_eq_none.mp found _ inside
      exact absurd (List.contains_iff_mem.mpr listed) missed
  | some group =>
    have listed := List.find?_some found
    have inside : Carries (extensionsByMarker compiled) group.1 ext :=
      ⟨group.2, List.mem_of_find?_eq_some found, List.contains_iff_mem.mp listed⟩
    obtain ⟨language, member, same, carried⟩ := carries_extensionsByMarker.mp inside
    rw [(languageFor_eq_some known).mpr ⟨member, carried⟩, Option.map_some, Option.map_some, same]

/-- The language a build cuts the file at `path` with. -/
def languageOf (compiled : List Language) (path : String) : Option Language :=
  (pathExtension path).bind (languageFor compiled)

theorem astMarkerForPath_eq (known : compiled.Sublist registry) (path : String) :
    astMarkerForPath (extensionsByMarker compiled) path = (languageOf compiled path).map Language.marker := by
  unfold astMarkerForPath languageOf
  cases pathExtension path with
  | none => rfl
  | some ext => exact astFingerprintMarker_eq known ext

/-- Both builds have the same language for the path as soon as its markers are the same. -/
theorem languageOf_eq (first : one.Sublist registry) (second : other.Sublist registry) {path : String}
    (same : (languageOf one path).map Language.marker = (languageOf other path).map Language.marker) :
    languageOf one path = languageOf other path := by
  cases mine : languageOf one path with
  | none =>
    rw [mine] at same
    exact (Option.map_eq_none_iff.mp same.symm).symm
  | some language =>
    rw [mine, Option.map_some] at same
    obtain ⟨theirs, found, -⟩ := Option.map_eq_some_iff.mp same.symm
    obtain ⟨ext, extension, owner⟩ := Option.bind_eq_some_iff.mp mine
    obtain ⟨ext', extension', owner'⟩ := Option.bind_eq_some_iff.mp found
    obtain rfl : ext = ext' := Option.some.inj (extension.symm.trans extension')
    obtain ⟨member, carried⟩ := (languageFor_eq_some first).mp owner
    obtain ⟨member', carried'⟩ := (languageFor_eq_some second).mp owner'
    rw [found, registry_apart _ (first.subset member) _ (second.subset member') ext carried carried']

/-! ### Fingerprints -/

/-- The texts whose digests are the fingerprints of `model`, over all builds. -/
def signatures (model : String) : List String :=
  thisRelease.signature model (some "table_header_chunking:1") ::
    registry.map fun language => thisRelease.signature model (some language.marker)

/-- The last line of a signature. -/
def printLine (language : Option Language) : String :=
  (language.map Language.marker).getD "table_header_chunking:1"

theorem embedFingerprint_eq (known : compiled.Sublist registry) (hashes : Hashes) (model path : String) :
    embedFingerprint hashes (extensionsByMarker compiled) model path =
      hashes.fingerprintDigest (thisRelease.signature model (some (printLine (languageOf compiled path)))) := by
  rw [embedFingerprint, astMarkerForPath_eq known]
  cases languageOf compiled path with
  | none => exact markedFingerprint_none hashes model
  | some language => rfl

theorem printLine_mem (known : compiled.Sublist registry) (model path : String) :
    thisRelease.signature model (some (printLine (languageOf compiled path))) ∈ signatures model := by
  cases found : languageOf compiled path with
  | none => exact List.mem_cons_self
  | some language =>
    obtain ⟨ext, -, owner⟩ := Option.bind_eq_some_iff.mp found
    have member := known.subset ((languageFor_eq_some known).mp owner).1
    exact List.mem_cons_of_mem _ (List.mem_map.mpr ⟨language, member, rfl⟩)

theorem signature_marker {model marker marker' : String}
    (same : thisRelease.signature model (some marker) = thisRelease.signature model (some marker')) :
      marker = marker' := by
  unfold Release.signature markerLine at same
  have lists := congrArg String.toList same
  simp only [String.toList_append, List.append_assoc, List.append_cancel_left_eq] at lists
  exact String.toList_injective lists

/-- Files without a grammar are told from those with one. -/
theorem registry_marked : ∀ language ∈ registry, language.marker ≠ "table_header_chunking:1" := by
  decide +kernel

theorem markers_of_lines (first : one.Sublist registry) (second : other.Sublist registry) {path : String}
    (same : printLine (languageOf one path) = printLine (languageOf other path)) :
    (languageOf one path).map Language.marker = (languageOf other path).map Language.marker := by
  have marked : ∀ {compiled : List Language} {language : Language}, compiled.Sublist registry →
      languageOf compiled path = some language → language.marker ≠ "table_header_chunking:1" := by
    intro compiled language known found
    obtain ⟨ext, -, owner⟩ := Option.bind_eq_some_iff.mp found
    exact registry_marked language (known.subset ((languageFor_eq_some known).mp owner).1)
  cases mine : languageOf one path with
  | none =>
    cases theirs : languageOf other path with
    | none => rfl
    | some language =>
      rw [mine, theirs] at same
      exact absurd same.symm (marked second theirs)
  | some language =>
    cases theirs : languageOf other path with
    | none =>
      rw [mine, theirs] at same
      exact absurd same (marked first mine)
    | some language' =>
      rw [mine, theirs] at same
      exact congrArg some same

/-- A change of grammars changes the fingerprints of the files it is about and of no others; where the fingerprint stays,
so do the chunks. -/
theorem fingerprints_follow_grammars (first : one.Sublist registry) (second : other.Sublist registry) (hashes : Hashes)
    (model : String) (distinct : ∀ a ∈ signatures model, ∀ b ∈ signatures model,
      hashes.fingerprintDigest a = hashes.fingerprintDigest b → a = b) (path : String) :
    (embedFingerprint hashes (extensionsByMarker one) model path =
        embedFingerprint hashes (extensionsByMarker other) model path ↔ languageOf one path = languageOf other path) ∧
    (embedFingerprint hashes (extensionsByMarker one) model path =
        embedFingerprint hashes (extensionsByMarker other) model path →
      ∀ parse text, chunkDocumentForPath (treeDeclarations one parse) path text =
        chunkDocumentForPath (treeDeclarations other parse) path text) := by
  have exact_prints : embedFingerprint hashes (extensionsByMarker one) model path =
      embedFingerprint hashes (extensionsByMarker other) model path ↔ languageOf one path = languageOf other path := by
    rw [embedFingerprint_eq first, embedFingerprint_eq second]
    constructor
    · intro same
      have signed := distinct _ (printLine_mem first model path) _ (printLine_mem second model path) same
      exact languageOf_eq first second (markers_of_lines first second (signature_marker signed))
    · intro same
      rw [same]
  refine ⟨exact_prints, fun same parse text => ?_⟩
  have language := exact_prints.mp same
  unfold languageOf at language
  unfold chunkDocumentForPath sourceBreaks
  cases extension : pathExtension path with
  | none => rfl
  | some ext =>
    rw [extension, Option.bind_some, Option.bind_some] at language
    have declarations : treeDeclarations one parse ext text = treeDeclarations other parse ext text := by
      unfold treeDeclarations
      rw [language]
    simp only [Option.bind_some, declarations]

/-- A build without grammars and one with a grammar for Rust. -/
theorem fingerprint_of_rust_file :
    (embedFingerprint sampleEnv.toHashes (extensionsByMarker []) "m" "src/lib.rs" =
        embedFingerprint sampleEnv.toHashes (extensionsByMarker [rustLanguage]) "m" "src/lib.rs" ↔
      languageOf [] "src/lib.rs" = languageOf [rustLanguage] "src/lib.rs") ∧
    (embedFingerprint sampleEnv.toHashes (extensionsByMarker []) "m" "src/lib.rs" =
        embedFingerprint sampleEnv.toHashes (extensionsByMarker [rustLanguage]) "m" "src/lib.rs" →
      ∀ parse text, chunkDocumentForPath (treeDeclarations [] parse) "src/lib.rs" text =
        chunkDocumentForPath (treeDeclarations [rustLanguage] parse) "src/lib.rs" text) := by
  have rust : [rustLanguage].Sublist registry := by
    rw [List.singleton_sublist]
    decide +kernel
  exact fingerprints_follow_grammars (List.nil_sublist _) rust sampleEnv.toHashes "m" (fun _ _ _ _ => id) "src/lib.rs"

end Rqmd.Chunking
