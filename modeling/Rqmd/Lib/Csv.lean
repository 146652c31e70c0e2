import Mathlib.Data.List.Forall2
import Mathlib.Data.List.Infix

/-! A reader of comma-separated values by RFC 4180. A field stands for itself when it holds no quote, no comma and no line
end, or between quotes with its own quotes doubled; a record ends at an unquoted CR, LF or CRLF. -/

namespace Csv

/-- Where the reader stands: at the start of a record, with whether a CR ended the one before; at the start of a later
field; in a field without quotes; in a quoted field; behind a quote in one. -/
inductive State where
  | start (afterReturn : Bool)
  | fresh
  | plain
  | quoted
  | closing
deriving DecidableEq

structure Reader where
  state : State
  records : List (List (List Char))
  record : List (List Char)
  field : List Char
deriving DecidableEq

def Reader.init : Reader := ⟨.start false, [], [], []⟩

def Reader.endField (r : Reader) : Reader := ⟨.fresh, r.records, r.record ++ [r.field], []⟩

def Reader.endRecord (r : Reader) (afterReturn : Bool) : Reader :=
  ⟨.start afterReturn, r.records ++ [r.record ++ [r.field]], [], []⟩

/-- A character that ends a field. -/
def Reader.delimit (r : Reader) (c : Char) : Option Reader :=
  if c = ',' then some r.endField
  else if c = '\n' then some (r.endRecord false)
  else if c = '\r' then some (r.endRecord true)
  else none

def Reader.extend (r : Reader) (state : State) (c : Char) : Reader := { r with state := state, field := r.field ++ [c] }

/-- A character of a field without quotes. -/
def Reader.takePlain (r : Reader) (c : Char) : Option Reader :=
  match r.delimit c with
  | some next => some next
  | none => if c = '"' then none else some (r.extend .plain c)

def Reader.takeFirst (r : Reader) (c : Char) : Option Reader :=
  if c = '"' then some { r with state := .quoted } else r.takePlain c

def Reader.read (r : Reader) (c : Char) : Option Reader :=
  match r.state with
  | .start afterReturn => if afterReturn ∧ c = '\n' then some { r with state := .start false } else r.takeFirst c
  | .fresh => r.takeFirst c
  | .plain => r.takePlain c
  | .quoted => if c = '"' then some { r with state := .closing } else some (r.extend .quoted c)
  | .closing => if c = '"' then some (r.extend .quoted c) else r.delimit c

def Reader.run (r : Reader) : List Char → Option Reader
  | [] => some r
  | c :: cs => (r.read c).bind fun next => next.run cs

/-- The end of the text also ends a record, unless it stands at the start of one. -/
def Reader.finish (r : Reader) : Option (List (List (List Char))) :=
  match r.state with
  | .start _ => some r.records
  | .quoted => none
  | _ => some (r.records ++ [r.record ++ [r.field]])

def decode (text : List Char) : Option (List (List (List Char))) := (Reader.init.run text).bind Reader.finish

/-- The characters that end a field or have to be quoted. -/
def isSpecial (c : Char) : Bool := c == ',' || c == '"' || c == '\n' || c == '\r'

def doubleQuotes (field : List Char) : List Char := field.flatMap fun c => if c = '"' then ['"', '"'] else [c]

def quote (field : List Char) : List Char := '"' :: (doubleQuotes field ++ ['"'])

/-- The code stands for the field. -/
inductive Encodes : List Char → List Char → Prop
  | plain (field : List Char) (ordinary : ∀ c ∈ field, isSpecial c = false) : Encodes field field
  | quoted (field : List Char) : Encodes (quote field) field

variable {r s : Reader} {c : Char} {code field rest : List Char}

theorem encodes_iff : Encodes code field ↔ (code = field ∧ ∀ c ∈ field, isSpecial c = false) ∨ code = quote field := by
  constructor
  · intro encodes
    cases encodes with
    | plain _ ordinary => exact .inl ⟨rfl, ordinary⟩
    | quoted => exact .inr rfl
  · rintro (⟨rfl, ordinary⟩ | rfl)
    · exact .plain code ordinary
    · exact .quoted field

theorem Reader.run_append (r : Reader) (front rest : List Char) :
    r.run (front ++ rest) = (r.run front).bind fun next => next.run rest := by
  induction front generalizing r with
  | nil => rfl
  | cons c front later =>
    rw [List.cons_append, run, run]
    cases r.read c with
    | none => rfl
    | some next => exact later next

theorem ordinary_iff : isSpecial c = false ↔ c ≠ ',' ∧ c ≠ '"' ∧ c ≠ '\n' ∧ c ≠ '\r' := by
  simp [isSpecial, and_assoc]

theorem Reader.delimit_none (ordinary : c ≠ ',' ∧ c ≠ '\n' ∧ c ≠ '\r') : r.delimit c = none := by
  rw [delimit, if_neg ordinary.1, if_neg ordinary.2.1, if_neg ordinary.2.2]

theorem Reader.takePlain_ordinary (ordinary : isSpecial c = false) : r.takePlain c = some (r.extend .plain c) := by
  obtain ⟨comma, quote, newline, back⟩ := ordinary_iff.mp ordinary
  rw [takePlain, delimit_none ⟨comma, newline, back⟩]
  exact if_neg quote

/-- Where a field begins. -/
def Reader.Opens (r : Reader) : Prop := (r.state = .start false ∨ r.state = .fresh) ∧ r.field = []

theorem Reader.Opens.read (opens : r.Opens) (c : Char) : r.read c = r.takeFirst c := by
  rcases opens.1 with state | state
  · rw [Reader.read, state]
    simp
  · rw [Reader.read, state]

/-- The field has been read and what ends it comes next. -/
structure Reader.Holds (r s : Reader) (field : List Char) : Prop where
  records : s.records = r.records
  record : s.record = r.record
  text : s.field = field
  ready : ∀ c, c = ',' ∨ c = '\n' ∨ c = '\r' → s.read c = s.delimit c

theorem Reader.delimit_some (ends : c = ',' ∨ c = '\n' ∨ c = '\r') : ∃ next, r.delimit c = some next := by
  rcases ends with rfl | rfl | rfl
  · exact ⟨_, rfl⟩
  · exact ⟨_, rfl⟩
  · exact ⟨_, rfl⟩

theorem Reader.takePlain_delimit (ends : c = ',' ∨ c = '\n' ∨ c = '\r') : r.takePlain c = r.delimit c := by
  obtain ⟨next, found⟩ := @delimit_some r c ends
  rw [takePlain, found]

/-- Ordinary characters are added to the field. -/
theorem Reader.run_plain (state : r.state = .plain) (ordinary : ∀ c ∈ field, isSpecial c = false) :
    r.run field = some { r with field := r.field ++ field } := by
  induction field generalizing r with
  | nil =>
    rw [run, List.append_nil]
  | cons c field later =>
    have first := @takePlain_ordinary r c (ordinary c List.mem_cons_self)
    have onward := @later (r.extend .plain c) rfl fun d inside => ordinary d (List.mem_cons_of_mem c inside)
    rw [run, Reader.read, state]
    simp only [first, Option.bind_some, onward]
    simp [extend]

theorem Reader.run_quoted (state : r.state = .quoted) (field : List Char) :
    r.run (doubleQuotes field) = some { r with field := r.field ++ field } := by
  induction field generalizing r with
  | nil => simp [doubleQuotes, run]
  | cons c field later =>
    have onward := @later (r.extend .quoted c) rfl
    have first : r.run (if c = '"' then ['"', '"'] else [c]) = some (r.extend .quoted c) := by
      by_cases quote : c = '"'
      · subst quote
        simp only [if_true, run, Reader.read, state, Option.bind_some]
        rfl
      · simp only [if_neg quote, run, Reader.read, state, Option.bind_some]
    rw [doubleQuotes, List.flatMap_cons, run_append, first, Option.bind_some, ← doubleQuotes, onward]
    simp [extend, state]

/-- A field is read back from what stands for it. -/
theorem Reader.run_encodes (opens : r.Opens) (encodes : Encodes code field) :
    ∃ s, r.run code = some s ∧ r.Holds s field := by
  cases encodes with
  | plain _ ordinary =>
    cases code with
    | nil =>
      refine ⟨r, rfl, rfl, rfl, opens.2, fun c ends => ?_⟩
      have other : c ≠ '"' := by
        rcases ends with rfl | rfl | rfl <;> decide
      rw [opens.read, takeFirst, if_neg other, takePlain_delimit ends]
    | cons c code =>
      have first := ordinary c List.mem_cons_self
      have rest := @run_plain (r.extend .plain c) code rfl fun d inside => ordinary d (List.mem_cons_of_mem c inside)
      refine ⟨{ r.extend .plain c with field := (r.extend .plain c).field ++ code }, ?_, rfl, rfl, ?_, fun d ends => ?_⟩
      · rw [run, opens.read, takeFirst, if_neg (ordinary_iff.mp first).2.1, takePlain_ordinary first]
        exact rest
      · change (r.field ++ [c]) ++ code = c :: code
        rw [opens.2]
        rfl
      · exact takePlain_delimit ends
  | quoted =>
    have inner := @run_quoted { r with state := .quoted } rfl field
    refine ⟨{ r with state := .closing, field := r.field ++ field }, ?_, rfl, rfl, ?_, fun c ends => ?_⟩
    · rw [quote, run, opens.read, takeFirst, if_pos rfl, Option.bind_some, run_append, inner]
      rfl
    · rw [opens.2]
      rfl
    · have other : c ≠ '"' := by
        rcases ends with rfl | rfl | rfl <;> decide
      exact if_neg other

/-- A record is read back from its fields, each encoded, with commas between and a line end behind. -/
theorem Reader.run_record {codes fields : List (List Char)} (opens : r.Opens) (encoded : List.Forall₂ Encodes codes fields)
    (some : fields ≠ []) :
    r.run (List.intercalate [','] codes ++ ['\n']) =
      Option.some ⟨.start false, r.records ++ [r.record ++ fields], [], []⟩ := by
  induction encoded generalizing r with
  | nil => exact absurd rfl some
  | @cons code field codes fields first others later =>
    obtain ⟨s, run, holds⟩ := run_encodes opens first
    cases others with
    | nil =>
      have ends := holds.ready '\n' (.inr (.inl rfl))
      rw [List.intercalate_singleton, run_append, run, Option.bind_some, Reader.run, ends]
      change Option.some (s.endRecord false) = _
      rw [endRecord, holds.records, holds.record, holds.text]
    | @cons code' field' codes fields second others =>
      have comma := holds.ready ',' (.inl rfl)
      have onward := @later s.endField ⟨.inr rfl, rfl⟩ (List.cons_ne_nil _ _)
      rw [List.intercalate_cons_cons, List.append_assoc, List.append_assoc, run_append, run, Option.bind_some,
        List.singleton_append, Reader.run, comma]
      change s.endField.run _ = _
      rw [onward, endField, holds.records, holds.record, holds.text, List.append_assoc]
      rfl

/-! ### What is read stays read -/

theorem Reader.delimit_records {next : Reader} (found : r.delimit c = some next) : r.records <+: next.records := by
  unfold delimit at found
  split at found
  · rw [← Option.some.inj found]
    exact List.prefix_rfl
  · split at found
    · rw [← Option.some.inj found]
      exact List.prefix_append _ _
    · split at found
      · rw [← Option.some.inj found]
        exact List.prefix_append _ _
      · cases found

theorem Reader.takePlain_records {next : Reader} (found : r.takePlain c = some next) : r.records <+: next.records := by
  unfold takePlain at found
  split at found
  · next other delimited =>
    rw [← Option.some.inj found]
    exact delimit_records delimited
  · split at found
    · cases found
    · rw [← Option.some.inj found]
      exact List.prefix_rfl

theorem Reader.read_records {next : Reader} (found : r.read c = some next) : r.records <+: next.records := by
  have first : ∀ {next : Reader}, r.takeFirst c = some next → r.records <+: next.records := by
    intro next found
    unfold takeFirst at found
    split at found
    · rw [← Option.some.inj found]
    · exact takePlain_records found
  unfold Reader.read at found
  split at found
  · split at found
    · rw [← Option.some.inj found]
    · exact first found
  · exact first found
  · exact takePlain_records found
  · split at found
    · rw [← Option.some.inj found]
    · rw [← Option.some.inj found]
      exact List.prefix_rfl
  · split at found
    · rw [← Option.some.inj found]
      exact List.prefix_rfl
    · exact delimit_records found

/-- The records of a text begin with those of its front. -/
theorem Reader.run_finish_records {records : List (List (List Char))} (text : List Char)
    (found : (r.run text).bind Reader.finish = some records) : r.records <+: records := by
  induction text generalizing r with
  | nil =>
    rw [run, Option.bind_some, finish] at found
    split at found
    · rw [← Option.some.inj found]
    · cases found
    · rw [← Option.some.inj found]
      exact List.prefix_append _ _
  | cons c text later =>
    rw [run] at found
    cases step : r.read c with
    | none =>
      rw [step] at found
      cases found
    | some next =>
      rw [step, Option.bind_some] at found
      exact (read_records step).trans (later found)

/-- A field without quotes whose code holds a CR is cut short there, and its record ends. -/
theorem Reader.run_cut {front : List Char} (opens : r.Opens) (ordinary : ∀ c ∈ front, isSpecial c = false) (rest : List Char) :
    ∃ s : Reader, r.run (front ++ '\r' :: rest) = s.run rest ∧ s.records = r.records ++ [r.record ++ [front]] := by
  obtain ⟨s, run, holds⟩ := run_encodes opens (.plain front ordinary)
  have ends := holds.ready '\r' (.inr (.inr rfl))
  refine ⟨s.endRecord true, ?_, ?_⟩
  · rw [run_append, run, Option.bind_some, Reader.run, ends]
    rfl
  · rw [endRecord, holds.records, holds.record, holds.text]

/-- The code stands without quotes and holds a CR behind a front that is not the whole field. -/
def Cut (code field : List Char) : Prop :=
  ∃ front rest, code = front ++ '\r' :: rest ∧ (∀ c ∈ front, isSpecial c = false) ∧ front ≠ field

/-- When some code of a record is cut, another record is read in its place. -/
theorem Reader.run_cut_record {codes fields : List (List Char)} (opens : r.Opens)
    (either : List.Forall₂ (fun code field => Encodes code field ∨ Cut code field) codes fields)
    (broken : ¬List.Forall₂ Encodes codes fields) (rest : List Char) :
    ∃ (s : Reader) (left : List Char) (record : List (List Char)),
      r.run (List.intercalate [','] codes ++ rest) = s.run left ∧ s.records = r.records ++ [r.record ++ record] ∧
        record ≠ fields := by
  induction either generalizing r with
  | nil => exact absurd .nil broken
  | @cons code field codes fields first others later =>
    by_cases encoded : Encodes code field
    · obtain ⟨s, run, holds⟩ := run_encodes opens encoded
      have comma := holds.ready ',' (.inl rfl)
      have broken : ¬List.Forall₂ Encodes codes fields := fun sound => broken (.cons encoded sound)
      cases others with
      | nil => exact absurd .nil broken
      | @cons code' field' codes fields second others =>
        obtain ⟨last, left, record, onward, records, other⟩ := @later s.endField ⟨.inr rfl, rfl⟩ broken
        refine ⟨last, left, field :: record, ?_, ?_, fun same => other (List.cons.inj same).2⟩
        · rw [List.intercalate_cons_cons, List.append_assoc, List.append_assoc, run_append, run, Option.bind_some,
            List.singleton_append, Reader.run, comma]
          exact onward
        · rw [records, endField, holds.records, holds.record, holds.text, List.append_assoc]
          rfl
    · obtain ⟨front, back, split, ordinary, proper⟩ := first.resolve_left encoded
      have cut : ∃ back', List.intercalate [','] (code :: codes) ++ rest = front ++ '\r' :: back' := by
        cases codes with
        | nil => exact ⟨back ++ rest, by rw [List.intercalate_singleton, split, List.append_assoc, List.cons_append]⟩
        | cons code' codes =>
          exact ⟨back ++ ([','] ++ List.intercalate [','] (code' :: codes) ++ rest), by
            rw [List.intercalate_cons_cons, split]
            simp only [List.append_assoc, List.cons_append]⟩
      obtain ⟨back', text⟩ := cut
      obtain ⟨s, run, records⟩ := run_cut opens ordinary back'
      exact ⟨s, back', [front], by rw [text, run], records, fun same => proper (List.cons.inj same).1⟩

end Csv
