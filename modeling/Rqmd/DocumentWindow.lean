import Mathlib.Algebra.GroupWithZero.Nat
import Mathlib.Algebra.Order.BigOperators.Group.List
import Mathlib.Algebra.Order.Group.Nat
import Rqmd.ChunkSpans
import Rqmd.MultiGet

/-! Bounded document bodies in the server's answers. The caller limits the lines, the server the lines of a caller who
does not and the bytes of every body; several documents share one budget. -/

namespace Rqmd.Mcp
open Chunking Text

def defaultMaxLines : Nat := 2000

def maxDocBytes : Nat := 256 * 1024

def multiGetMaxDocs : Nat := 200

def multiGetMaxTotalBytes : Nat := 4 * 1024 * 1024

def multiGetMaxNotedEntries : Nat := 20

/-- The slice of a document body a response will carry. -/
structure BodyWindow where
  lines : List (List Char)
  start : Nat
  totalLines : Nat
  capped : Bool
deriving DecidableEq

def lineBytes (lines : List (List Char)) : Nat := (lines.map fun l => byteLength l + 1).sum

def BodyWindow.bytes (w : BodyWindow) : Nat := lineBytes w.lines

def BodyWindow.truncationNote (w : BodyWindow) : List Char :=
  if w.capped then
    ("[truncated: lines " ++ toString (w.start + 1) ++ "–" ++ toString (w.start + w.lines.length) ++ " of " ++
      toString w.totalLines ++ "; pass from_line/max_lines to read more]\n").toList
  else []

/-- The loop of `cap_body`, with the lines taken, their bytes, and the lines ahead. -/
def capLines (maxLines : Option Nat) (byteCap : Nat) :
    List (List Char) → Nat → List (List Char) → List (List Char) × Bool
  | taken, _, [] => (taken, false)
  | taken, used, line :: rest =>
    if maxLines.getD defaultMaxLines ≤ taken.length then (taken, maxLines.isNone)
    else
      let room := byteCap - used
      if byteLength line < room then capLines maxLines byteCap (taken ++ [line]) (used + (byteLength line + 1)) rest
      else
        let cut := snapCharBoundaryBackward line (room - 1)
        (if 0 < cut then taken ++ [slice line 0 cut] else taken, true)

def capBody (body : List Char) (fromLine maxLines : Option Nat) (byteCap : Nat) : BodyWindow :=
  let start := match fromLine with
    | none => 0
    | some n => n - 1
  let taken := capLines maxLines byteCap [] 0 ((lines body).drop start)
  ⟨taken.1, start, (lines body).length, taken.2⟩

/-! ### Several documents -/

/-- The documents of a reply with their windows; what one uses is gone for those behind it. -/
def multiGetWindows (maxLines : Option Nat) : Nat → List Document → List (Document × BodyWindow)
  | _, [] => []
  | budget, doc :: docs =>
    if budget = 0 then []
    else
      let window := capBody doc.raw.toList none maxLines (min maxDocBytes budget)
      (doc, window) :: multiGetWindows maxLines (budget - window.bytes) docs

/-- `window.lines.join("\n")`. -/
def BodyWindow.text (w : BodyWindow) : List Char := List.intercalate ['\n'] w.lines

def documentText (entry : Document × BodyWindow) : List Char :=
  ("# " ++ entry.1.title ++ "\n── rqmd://" ++ entry.1.filepath ++ " ──\n\n").toList ++ entry.2.text ++
    (if entry.2.capped then '\n' :: entry.2.truncationNote.rdropWhile isWhiteSpace else []) ++ ['\n']

/-- `debug` is the `{:?}` form of a string. -/
def multiGetReportNotes (debug : String → String) (report : MultiGetReport) : String :=
  let notes := (report.unmatched.map fun e => "Note: no document matched " ++ debug e ++ ".") ++
    report.ambiguous.map fun a =>
      "Note: " ++ debug a.entry ++ " matched " ++ toString a.found ++ " documents; all are returned."
  let shown := String.join ((notes.take multiGetMaxNotedEntries).map fun note => "\n" ++ note)
  let out := if multiGetMaxNotedEntries < notes.length then
      shown ++ "\nNote: " ++ toString (notes.length - multiGetMaxNotedEntries) ++
        " more entries matched no document or more than one."
    else shown
  if out.isEmpty then out else out ++ "\n"

def multiGetReply (debug : String → String) (pattern : String) (maxLines : Option Nat) (report : MultiGetReport) :
    List Char :=
  let notes := (multiGetReportNotes debug report).toList
  let total := report.documents.length
  let docs := report.documents.take multiGetMaxDocs
  let windows := multiGetWindows maxLines multiGetMaxTotalBytes docs
  let count := windows.length
  if count = 0 then ("No documents matched: " ++ pattern).toList ++ notes
  else
    List.intercalate "\n────────────────────────\n\n".toList (windows.map documentText) ++
      (if multiGetMaxDocs < total then
        ("\n[Showing " ++ toString count ++ " of " ++ toString total ++ " matched documents; " ++
          toString (total - count) ++ " dropped — multi_get is capped at " ++ toString multiGetMaxDocs ++
          " per call.]\n").toList
      else []) ++
      (if count < docs.length then
        ("\n[Output budget of " ++ toString multiGetMaxTotalBytes ++ " bytes reached after " ++ toString count ++
          " documents; " ++ toString (docs.length - count) ++
          " more matched and were omitted — narrow the pattern or use get.]\n").toList
      else []) ++ notes

def multiGetDocuments (newGlob : String → Option (String → Bool)) (debug : String → String) (db : Db)
    (collections : List String) (pattern : String) (maxLines : Option Nat) : Except Failure (List Char) :=
  match resolveMultiGetReport newGlob db collections pattern with
  | .ok report => .ok (multiGetReply debug pattern maxLines report)
  | .error e => .error ("DB error: " ++ e)

/-! ### One window -/

/-- What the caller's line count leaves of the lines ahead when some have been taken. -/
def allowed (maxLines : Option Nat) (taken : Nat) (ahead : List (List Char)) : List (List Char) :=
  match maxLines with
  | none => ahead
  | some n => ahead.take (n - taken)

/-- The lines a caller asks for. -/
def requestedLines (body : List Char) (fromLine maxLines : Option Nat) : List (List Char) :=
  allowed maxLines 0 ((lines body).drop (fromLine.getD 1 - 1))

/-- The first of the lines, and behind them perhaps the front of the next, cut on a character boundary. -/
inductive Shows : List (List Char) → List (List Char) → Prop
  | stop (ahead : List (List Char)) : Shows ahead []
  | cut (line : List Char) (ahead : List (List Char)) (n : Nat) (boundary : isCharBoundary line n = true) (some : 0 < n)
      (proper : n < byteLength line) : Shows (line :: ahead) [slice line 0 n]
  | line (line : List Char) {ahead shown : List (List Char)} (later : Shows ahead shown) :
      Shows (line :: ahead) (line :: shown)

variable {maxLines : Option Nat} {byteCap used : Nat} {taken ahead : List (List Char)} {line : List Char}

theorem lineBytes_append (before after : List (List Char)) :
    lineBytes (before ++ after) = lineBytes before + lineBytes after := by
  rw [lineBytes, List.map_append, List.sum_append, lineBytes, lineBytes]

theorem lineBytes_singleton (line : List Char) : lineBytes [line] = byteLength line + 1 := by
  simp [lineBytes]

theorem allowed_stop (full : maxLines.getD defaultMaxLines ≤ taken.length) (line : List Char)
    (ahead : List (List Char)) :
    maxLines.isNone = true ↔ [] ≠ allowed maxLines taken.length (line :: ahead) := by
  cases maxLines with
  | none => simp [allowed]
  | some n =>
    have none : n - taken.length = 0 := Nat.sub_eq_zero_of_le full
    rw [allowed, none]
    simp

theorem allowed_cons (room : taken.length < maxLines.getD defaultMaxLines) (line : List Char)
    (ahead : List (List Char)) :
    allowed maxLines taken.length (line :: ahead) = line :: allowed maxLines (taken ++ [line]).length ahead := by
  cases maxLines with
  | none => rfl
  | some n =>
    have more : n - taken.length = n - (taken ++ [line]).length + 1 := by
      rw [Option.getD_some] at room
      rw [List.length_append, List.length_singleton]
      omega
    rw [allowed, more, List.take_succ_cons]
    rfl

/-- Where a line that does not fit is cut. -/
theorem cut_spec (line : List Char) (room : Nat) (wide : room ≤ byteLength line) :
    isCharBoundary line (snapCharBoundaryBackward line (room - 1)) = true ∧
      snapCharBoundaryBackward line (room - 1) ≤ room - 1 := by
  have spec := snapBackward_spec line (show room - 1 ≤ byteLength line by omega)
  exact ⟨spec.1, spec.2.1⟩

theorem byteLength_cut {n : Nat} (boundary : isCharBoundary line n = true) : byteLength (slice line 0 n) = n := by
  rw [byteLength_slice (isCharBoundary_zero line) boundary (Nat.zero_le n), Nat.sub_zero]

/-- The loop adds lines of what is allowed, keeps to the cap, and says whether it left some out. -/
theorem capLines_spec (counted : lineBytes taken = used) (within : used ≤ byteCap) :
    ∃ shown, (capLines maxLines byteCap taken used ahead).1 = taken ++ shown ∧
      Shows (allowed maxLines taken.length ahead) shown ∧
      lineBytes (taken ++ shown) ≤ byteCap ∧
      ((capLines maxLines byteCap taken used ahead).2 = true ↔ shown ≠ allowed maxLines taken.length ahead) := by
  induction ahead generalizing taken used with
  | nil =>
    have nothing : allowed maxLines taken.length [] = [] := by
      cases maxLines with
      | none => rfl
      | some n => exact List.take_nil
    refine ⟨[], (List.append_nil _).symm, .stop _, ?_, ?_⟩
    · rw [List.append_nil, counted]
      exact within
    · rw [nothing]
      simp [capLines]
  | cons line ahead later =>
    by_cases full : maxLines.getD defaultMaxLines ≤ taken.length
    · rw [capLines, if_pos full]
      refine ⟨[], (List.append_nil _).symm, .stop _, ?_, allowed_stop full line ahead⟩
      rw [List.append_nil, counted]
      exact within
    · have next := allowed_cons (Nat.lt_of_not_le full) line ahead
      by_cases fits : byteLength line < byteCap - used
      · have counted' : lineBytes (taken ++ [line]) = used + (byteLength line + 1) := by
          rw [lineBytes_append, counted, lineBytes_singleton]
        obtain ⟨shown, lines, shows, bytes, capped⟩ := later counted' (by omega)
        rw [capLines, if_neg full, if_pos fits, next]
        refine ⟨line :: shown, ?_, .line line shows, ?_, ?_⟩
        · rw [lines, List.append_assoc]
          rfl
        · rw [List.append_cons]
          exact bytes
        · rw [capped, Ne, Ne, List.cons_inj_right]
      · obtain ⟨boundary, before⟩ := cut_spec line (byteCap - used) (Nat.le_of_not_lt fits)
        rw [capLines, if_neg full, if_neg fits, next]
        by_cases some : 0 < snapCharBoundaryBackward line (byteCap - used - 1)
        · have proper : snapCharBoundaryBackward line (byteCap - used - 1) < byteLength line := by omega
          refine ⟨[slice line 0 (snapCharBoundaryBackward line (byteCap - used - 1))], if_pos some,
            .cut line _ _ boundary some proper, ?_, iff_of_true rfl fun same => ?_⟩
          · rw [lineBytes_append, lineBytes_singleton, counted, byteLength_cut boundary]
            omega
          · have whole := congrArg byteLength (List.cons.inj same).1
            rw [byteLength_cut boundary] at whole
            omega
        · refine ⟨[], ?_, .stop _, ?_, iff_of_true rfl (List.cons_ne_nil _ _).symm⟩
          · exact (if_neg some).trans (List.append_nil _).symm
          · rw [List.append_nil, counted]
            exact within

/-- What a window promises. -/
structure BodyWindow.Bounded (w : BodyWindow) (body : List Char) (fromLine maxLines : Option Nat) (byteCap : Nat) :
    Prop where
  start : w.start = fromLine.getD 1 - 1
  shows : Shows (requestedLines body fromLine maxLines) w.lines
  bytes : w.bytes ≤ byteCap
  capped : w.capped = true ↔ w.lines ≠ requestedLines body fromLine maxLines

theorem capBody_bounded (body : List Char) (fromLine maxLines : Option Nat) (byteCap : Nat) :
    (capBody body fromLine maxLines byteCap).Bounded body fromLine maxLines byteCap := by
  have start : (capBody body fromLine maxLines byteCap).start = fromLine.getD 1 - 1 := by
    cases fromLine with
    | none => rfl
    | some n => rfl
  have loop := @capLines_spec maxLines byteCap 0 [] ((lines body).drop (fromLine.getD 1 - 1)) rfl (Nat.zero_le _)
  rw [← start] at loop
  obtain ⟨shown, taken, shows, bytes, capped⟩ := loop
  have lines : (capBody body fromLine maxLines byteCap).lines = shown := taken
  refine ⟨start, ?_, ?_, ?_⟩
  · rw [lines, requestedLines, ← start]
    exact shows
  · rw [BodyWindow.bytes, lines]
    exact bytes
  · rw [lines, requestedLines, ← start]
    exact capped

/-- Three bytes are left for the line, and the second character does not fit whole. -/
example : capBody "éé\nb".toList none none 4 = ⟨["é".toList], 0, 2, true⟩ := by decide +kernel

/-! ### The budget -/

theorem byteLength_joined (lines : List (List Char)) : byteLength (List.intercalate ['\n'] lines) ≤ lineBytes lines := by
  induction lines with
  | nil => exact Nat.zero_le _
  | cons line lines later =>
    cases lines with
    | nil =>
      rw [List.intercalate_singleton, lineBytes_singleton]
      exact Nat.le_succ _
    | cons next lines =>
      have newline : byteLength ['\n'] = 1 := rfl
      have split : lineBytes (line :: next :: lines) = byteLength line + 1 + lineBytes (next :: lines) := by
        rw [← lineBytes_singleton, ← lineBytes_append, List.singleton_append]
      rw [List.intercalate_cons_cons, byteLength_append, byteLength_append, newline, split]
      omega

theorem byteLength_text (w : BodyWindow) : byteLength w.text ≤ w.bytes := byteLength_joined w.lines

theorem multiGetWindows_bytes (maxLines : Option Nat) (budget : Nat) (docs : List Document) :
    ((multiGetWindows maxLines budget docs).map fun entry => entry.2.bytes).sum ≤ budget := by
  induction docs generalizing budget with
  | nil => exact Nat.zero_le _
  | cons doc docs later =>
    by_cases spent : budget = 0
    · rw [multiGetWindows, if_pos spent]
      exact Nat.zero_le _
    · have first := (capBody_bounded doc.raw.toList none maxLines (min maxDocBytes budget)).bytes
      have others := later (budget - (capBody doc.raw.toList none maxLines (min maxDocBytes budget)).bytes)
      have room : min maxDocBytes budget ≤ budget := Nat.min_le_right _ _
      rw [multiGetWindows, if_neg spent, List.map_cons, List.sum_cons]
      dsimp only
      omega

end Rqmd.Mcp
