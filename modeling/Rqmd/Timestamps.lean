import Mathlib.Data.List.DropRight
import Rqmd.Lib.Decimal
import Rqmd.Lib.Gregorian
import Rqmd.Lib.Text
import Rqmd.Types

/-! Timestamps. The index writes UTC seconds as civil dates and times, the command line reads them back with calendar
arithmetic of its own. -/

namespace Rqmd.Time
open Decimal Gregorian Text

structure CivilTime where
  year : Nat
  month : Nat
  day : Nat
  hour : Nat
  minute : Nat
  second : Nat
deriving DecidableEq

/-- The calendar of `format_rfc3339`. No subtraction in it falls below zero. -/
def civilTime (secs : Nat) : CivilTime :=
  let timeOfDay := secs % 86400
  let days := secs / 86400
  let h := timeOfDay / 3600
  let m := timeOfDay % 3600 / 60
  let s := timeOfDay % 60
  let z := days + 719468
  let era := z / 146097
  let doe := z % 146097
  let yoe := (doe - doe / 1460 + doe / 36524 - doe / 146096) / 365
  let y := yoe + era * 400
  let doy := doe - (365 * yoe + yoe / 4 - yoe / 100)
  let mp := (5 * doy + 2) / 153
  let d := doy - (153 * mp + 2) / 5 + 1
  let mo := if mp < 10 then mp + 3 else mp - 9
  let y := if mo ≤ 2 then y + 1 else y
  ⟨y, mo, d, h, m, s⟩

def CivilTime.format (t : CivilTime) : List Char :=
  pad 4 t.year ++ '-' :: (pad 2 t.month ++ '-' :: (pad 2 t.day ++ 'T' ::
    (pad 2 t.hour ++ ':' :: (pad 2 t.minute ++ ':' :: (pad 2 t.second ++ ['Z'])))))

def formatRfc3339 (secs : Nat) : List Char := (civilTime secs).format

/-! ### Reading -/

def parseU64 (text : List Char) : Option Nat := parse (2 ^ 64) text

/-- The numbers of a timestamp. -/
def timestampFields (ts : List Char) : Option CivilTime := do
  let ts := ts.rdropWhile (· = 'Z')
  let (date, time) ← splitOnce 'T' ts
  let dp := splitN 3 '-' date
  let y ← dp[0]?.bind parseU64
  let mo ← dp[1]?.bind parseU64
  let d ← dp[2]?.bind parseU64
  let tp := splitN 3 ':' time
  let h ← tp[0]?.bind parseU64
  let m ← tp[1]?.bind parseU64
  let s ← parseU64 (tp[2]?.getD ['0'])
  pure ⟨y, mo, d, h, m, s⟩

def fits64 (n : Nat) : Except Failure Nat :=
  if n < 2 ^ 64 then .ok n else .error "attempt to add or multiply with overflow"

def sub64 (a b : Nat) : Except Failure Nat :=
  if b ≤ a then .ok (a - b) else .error "attempt to subtract with overflow"

/-- The year and the month counted from March. -/
def marchFirst (y mo : Nat) : Except Failure (Nat × Nat) :=
  if mo ≤ 2 then (sub64 y 1).map fun y => (y, mo + 9) else .ok (y, mo - 3)

/-- The calendar of `parse_rfc3339_utc`. A failure is the panic of checked arithmetic. -/
def utcSeconds (t : CivilTime) : Except Failure (Option Nat) := do
  let (y, mo) ← marchFirst t.year t.month
  let era := y / 400
  let yoe := y % 400
  let doy ← sub64 (← fits64 ((← fits64 (153 * mo + 2)) / 5 + t.day)) 1
  let doe ← fits64 (yoe * 365 + yoe / 4 - yoe / 100 + doy)
  let days ← fits64 (era * 146097 + doe)
  if days < 719468 then pure none
  else return some (← fits64 ((days - 719468) * 86400 + t.hour * 3600 + t.minute * 60 + t.second))

def parseRfc3339Utc (ts : List Char) : Except Failure (Option Nat) :=
  match timestampFields ts with
  | some t => utcSeconds t
  | none => .ok none

/-! ### Fields -/

variable {t u : CivilTime}

theorem not_mem_pad {c : Char} (other : c.isDigit = false) (width n : Nat) : c ∉ pad width n :=
  fun inside => Bool.eq_false_iff.mp other (pad_digits width n c inside)

theorem parseU64_pad (width : Nat) {n : Nat} (small : n < 2 ^ 64) : parseU64 (pad width n) = some n :=
  parse_pad width small

theorem rdropWhile_once {c : Char} {text : List Char} (absent : c ∉ text) :
    (text ++ [c]).rdropWhile (· = c) = text := by
  have drop : (text ++ [c]).rdropWhile (· = c) = text.rdropWhile (· = c) :=
    List.rdropWhile_concat_pos (fun d => decide (d = c)) text c (decide_eq_true rfl)
  refine drop.trans (List.rdropWhile_eq_self_iff.mpr fun some last => ?_)
  have same := of_decide_eq_true last
  exact absent (same ▸ List.getLast_mem some)

/-- The fields are read back from what is written of them. -/
theorem timestampFields_format (small : t.year < 2 ^ 64 ∧ t.month < 2 ^ 64 ∧ t.day < 2 ^ 64 ∧ t.hour < 2 ^ 64 ∧
    t.minute < 2 ^ 64 ∧ t.second < 2 ^ 64) : timestampFields t.format = some t := by
  have written : t.format = pad 4 t.year ++ '-' :: (pad 2 t.month ++ '-' :: pad 2 t.day) ++ 'T' ::
      (pad 2 t.hour ++ ':' :: (pad 2 t.minute ++ ':' :: pad 2 t.second)) ++ ['Z'] := by
    simp [CivilTime.format]
  have noZ : 'Z' ∉ pad 4 t.year ++ '-' :: (pad 2 t.month ++ '-' :: pad 2 t.day) ++ 'T' ::
      (pad 2 t.hour ++ ':' :: (pad 2 t.minute ++ ':' :: pad 2 t.second)) := by
    simp [not_mem_pad]
  have trimmed := rdropWhile_once noZ
  rw [← written] at trimmed
  have noT : 'T' ∉ pad 4 t.year ++ '-' :: (pad 2 t.month ++ '-' :: pad 2 t.day) := by
    simp [not_mem_pad]
  have date : splitN 3 '-' (pad 4 t.year ++ '-' :: (pad 2 t.month ++ '-' :: pad 2 t.day)) =
      [pad 4 t.year, pad 2 t.month, pad 2 t.day] := by
    rw [splitN_append (not_mem_pad rfl _ _), splitN_append (not_mem_pad rfl _ _)]
    rfl
  have time : splitN 3 ':' (pad 2 t.hour ++ ':' :: (pad 2 t.minute ++ ':' :: pad 2 t.second)) =
      [pad 2 t.hour, pad 2 t.minute, pad 2 t.second] := by
    rw [splitN_append (not_mem_pad rfl _ _), splitN_append (not_mem_pad rfl _ _)]
    rfl
  obtain ⟨year, month, day, hour, minute, second⟩ := small
  unfold timestampFields
  simp only [trimmed, splitOnce_append noT, Option.bind_eq_bind, Option.bind_some, date, time]
  simp [parseU64_pad _ year, parseU64_pad _ month, parseU64_pad _ day, parseU64_pad _ hour, parseU64_pad _ minute,
    parseU64_pad _ second]

/-! ### Dates -/

def CivilTime.date (t : CivilTime) : Date := ⟨t.year, t.month, t.day⟩

def CivilTime.secondOfDay (t : CivilTime) : Nat := t.hour * 3600 + t.minute * 60 + t.second

structure CivilTime.Valid (t : CivilTime) : Prop where
  date : t.date.Valid
  hour : t.hour < 24
  minute : t.minute < 60
  second : t.second < 60

/-- The days from the first of March of year 0 to the epoch. -/
theorem civilTime_date (secs : Nat) : (civilTime secs).date = ofDays (secs / 86400 + 719468) := by
  have year := ofDays_year (secs / 86400 + 719468)
  have parts : (civilTime secs).date =
      ⟨if (ofDays (secs / 86400 + 719468)).month ≤ 2 then
          yearOfEra ((secs / 86400 + 719468) % 146097) + (secs / 86400 + 719468) / 146097 * 400 + 1
        else yearOfEra ((secs / 86400 + 719468) % 146097) + (secs / 86400 + 719468) / 146097 * 400,
        (ofDays (secs / 86400 + 719468)).month, (ofDays (secs / 86400 + 719468)).day⟩ := rfl
  rw [parts, ← year]

theorem civilTime_valid (secs : Nat) : (civilTime secs).Valid := by
  refine ⟨?_, ?_, ?_, ?_⟩
  · rw [civilTime_date]
    exact ofDays_valid (by omega)
  · change secs % 86400 / 3600 < 24
    omega
  · change secs % 86400 % 3600 / 60 < 60
    omega
  · change secs % 86400 % 60 < 60
    omega

theorem civilTime_dayNumber (secs : Nat) : (civilTime secs).date.dayNumber = secs / 86400 + 719468 := by
  rw [civilTime_date, dayNumber_ofDays]

theorem civilTime_secondOfDay (secs : Nat) : (civilTime secs).secondOfDay = secs % 86400 := by
  change secs % 86400 / 3600 * 3600 + secs % 86400 % 3600 / 60 * 60 + secs % 86400 % 60 = secs % 86400
  omega

/-! ### The number that is read -/

/-- The numbers a timestamp may hold: those of no January or February of year 0, of no day 0 of March, and of no moment
later than 2^64 - 1 seconds after the epoch. -/
structure CivilTime.InRange (t : CivilTime) : Prop where
  year : t.month ≤ 2 → 0 < t.year
  day : t.month = 3 → 0 < t.day
  seconds : 719468 ≤ t.date.dayNumber → (t.date.dayNumber - 719468) * 86400 + t.secondOfDay < 2 ^ 64

/-- The seconds from the epoch, by the calendar. -/
def CivilTime.unixSeconds (t : CivilTime) : Option Nat :=
  if t.date.dayNumber < 719468 then none else some ((t.date.dayNumber - 719468) * 86400 + t.secondOfDay)

theorem fits64_bind {α : Type} {n : Nat} {next : Nat → Except Failure α} {r : α} :
    (fits64 n >>= next) = .ok r ↔ n < 2 ^ 64 ∧ next n = .ok r := by
  unfold fits64
  split
  · next small => exact (and_iff_right small).symm
  · next large =>
    constructor
    · intro fails
      cases fails
    · exact fun both => absurd both.1 large

theorem sub64_bind {α : Type} {a b : Nat} {next : Nat → Except Failure α} {r : α} :
    (sub64 a b >>= next) = .ok r ↔ b ≤ a ∧ next (a - b) = .ok r := by
  unfold sub64
  split
  · next le => exact (and_iff_right le).symm
  · next less =>
    constructor
    · intro fails
      cases fails
    · exact fun both => absurd both.1 less

/-- The year and the month counted from March, where there is such a year. -/
theorem marchFirst_bind {α : Type} {next : Nat × Nat → Except Failure α} {r : α} :
    (marchFirst t.year t.month >>= next) = .ok r ↔
      (t.month ≤ 2 → 0 < t.year) ∧ next (t.date.marchYear, t.date.marchMonth) = .ok r := by
  have counted : (t.date.marchYear, t.date.marchMonth) =
      (if t.month ≤ 2 then t.year - 1 else t.year, if t.month ≤ 2 then t.month + 9 else t.month - 3) := rfl
  rw [counted]
  unfold marchFirst sub64
  by_cases early : t.month ≤ 2
  · by_cases some : 1 ≤ t.year
    · rw [if_pos early, if_pos some, if_pos early, if_pos early]
      exact (and_iff_right fun _ => some).symm
    · rw [if_pos early, if_neg some]
      constructor
      · intro fails
        cases fails
      · exact fun both => absurd (both.1 early) some
  · rw [if_neg early, if_neg early, if_neg early]
    exact (and_iff_right fun impossible => absurd impossible early).symm

/-- The last steps, on the day number. -/
theorem seconds_iff {r : Option Nat} : (if t.date.dayNumber < 719468 then pure none
    else return some (← fits64 ((t.date.dayNumber - 719468) * 86400 + t.hour * 3600 + t.minute * 60 + t.second)) :
      Except Failure (Option Nat)) = .ok r ↔
    (719468 ≤ t.date.dayNumber → (t.date.dayNumber - 719468) * 86400 + t.secondOfDay < 2 ^ 64) ∧ r = t.unixSeconds := by
  have total : (t.date.dayNumber - 719468) * 86400 + t.hour * 3600 + t.minute * 60 + t.second =
      (t.date.dayNumber - 719468) * 86400 + t.secondOfDay := by
    unfold CivilTime.secondOfDay
    omega
  unfold CivilTime.unixSeconds
  rw [total]
  by_cases early : t.date.dayNumber < 719468
  · rw [if_pos early, if_pos early]
    have none : (pure none : Except Failure (Option Nat)) = .ok r ↔ r = .none :=
      ⟨fun same => (Except.ok.inj same).symm, fun same => same ▸ rfl⟩
    rw [none]
    exact (and_iff_right fun late => absurd late (Nat.not_le_of_lt early)).symm
  · rw [if_neg early, if_neg early, fits64_bind]
    have late := Nat.not_lt.mp early
    have value : ∀ n : Nat, (pure (some n) : Except Failure (Option Nat)) = .ok r ↔ r = some n :=
      fun n => ⟨fun same => (Except.ok.inj same).symm, fun same => same ▸ rfl⟩
    rw [value]
    exact and_congr_left fun _ => ⟨fun small _ => small, fun small => small late⟩

/-- The reader gives the seconds of the calendar, and only where its arithmetic stays in range. -/
theorem utcSeconds_iff {r : Option Nat} : utcSeconds t = .ok r ↔ t.InRange ∧ r = t.unixSeconds := by
  have number : t.date.dayNumber = yearStart t.date.marchYear + monthStart t.date.marchMonth + t.day - 1 := rfl
  have start := yearStart_eras t.date.marchYear
  have month : monthStart t.date.marchMonth = (153 * t.date.marchMonth + 2) / 5 := rfl
  have first : 1 ≤ (153 * t.date.marchMonth + 2) / 5 + t.day ↔ (t.month = 3 → 0 < t.day) := by
    unfold Date.marchMonth
    change 1 ≤ (153 * (if t.month ≤ 2 then t.month + 9 else t.month - 3) + 2) / 5 + t.day ↔ _
    split
    · omega
    · omega
  rw [utcSeconds, marchFirst_bind]
  dsimp only
  rw [fits64_bind, fits64_bind, sub64_bind, fits64_bind, fits64_bind]
  by_cases day : 1 ≤ (153 * t.date.marchMonth + 2) / 5 + t.day
  · have sum : t.date.marchYear / 400 * 146097 + (t.date.marchYear % 400 * 365 + t.date.marchYear % 400 / 4 -
        t.date.marchYear % 400 / 100 + ((153 * t.date.marchMonth + 2) / 5 + t.day - 1)) = t.date.dayNumber := by
      omega
    rw [sum, seconds_iff]
    constructor
    · intro fits
      obtain ⟨year, _, _, _, _, _, seconds, value⟩ := fits
      exact ⟨⟨year, first.mp day, seconds⟩, value⟩
    · intro fits
      obtain ⟨range, value⟩ := fits
      have seconds := range.seconds
      generalize t.secondOfDay = rest at *
      -- a day number that fits leaves room for all that is added up before it
      have small : t.date.dayNumber < 2 ^ 64 - 2 ^ 60 := by omega
      refine ⟨range.year, ?_, ?_, day, ?_, ?_, seconds, value⟩
      · omega
      · omega
      · omega
      · omega
  · constructor
    · exact fun fits => absurd fits.2.2.2.1 day
    · exact fun fits => absurd (first.mpr fits.1.day) day

/-- The calendar of the reader counts days as the calendar of the dates does. -/
theorem utcSeconds_eq (valid : t.Valid) (small : t.year < 10000) (epoch : 719468 ≤ t.date.dayNumber) :
    utcSeconds t = .ok (some ((t.date.dayNumber - 719468) * 86400 + t.secondOfDay)) := by
  have within := valid.date.within_year
  have number : t.date.dayNumber = yearStart t.date.marchYear + monthStart t.date.marchMonth + t.day - 1 := rfl
  have last : t.date.marchYear + 1 ≤ 10000 := by
    have year : t.date.year < 10000 := small
    unfold Date.marchYear
    split
    · omega
    · omega
  have days : yearStart (t.date.marchYear + 1) ≤ yearStart 10000 := yearStart_mono last
  have hour := valid.hour
  have minute := valid.minute
  have second := valid.second
  have range : t.InRange := by
    refine ⟨fun _ => valid.date.year, fun _ => valid.date.day.1, fun _ => ?_⟩
    have few : yearStart 10000 = 3652425 := rfl
    have own : t.date.day = t.day := rfl
    unfold CivilTime.secondOfDay
    omega
  rw [utcSeconds_iff, CivilTime.unixSeconds, if_neg (Nat.not_lt.mpr epoch)]
  exact ⟨range, rfl⟩

/-- The fields fit the widths they are written with. -/
theorem civilTime_widths {secs : Nat} (fourDigits : (civilTime secs).year < 10000) :
    (civilTime secs).year < 10 ^ 4 ∧ (civilTime secs).month < 10 ^ 2 ∧ (civilTime secs).day < 10 ^ 2 ∧
      (civilTime secs).hour < 10 ^ 2 ∧ (civilTime secs).minute < 10 ^ 2 ∧ (civilTime secs).second < 10 ^ 2 := by
  have valid := civilTime_valid secs
  have month : (civilTime secs).month ≤ 12 := valid.date.month.2
  have day : (civilTime secs).day ≤ 31 := valid.date.day.2.trans (daysInMonth_le _ _)
  have hour := valid.hour
  have minute := valid.minute
  have second := valid.second
  omega

theorem civilTime_parsed {secs : Nat} (fourDigits : (civilTime secs).year < 10000) :
    timestampFields (formatRfc3339 secs) = some (civilTime secs) := by
  have widths := civilTime_widths fourDigits
  exact timestampFields_format (by omega)

theorem parse_format {secs : Nat} (fourDigits : (civilTime secs).year < 10000) :
    parseRfc3339Utc (formatRfc3339 secs) = .ok (some secs) := by
  have number := civilTime_dayNumber secs
  have read := utcSeconds_eq (civilTime_valid secs) fourDigits (by omega)
  rw [number, civilTime_secondOfDay, Nat.add_sub_cancel, Nat.div_add_mod'] at read
  rw [parseRfc3339Utc, civilTime_parsed fourDigits]
  exact read

/-! ### The order of timestamps -/

/-- Earlier by date, then by the time of the day. -/
def CivilTime.Before (t u : CivilTime) : Prop :=
  t.date.Before u.date ∨ t.date = u.date ∧ (t.hour < u.hour ∨ t.hour = u.hour ∧
    (t.minute < u.minute ∨ t.minute = u.minute ∧ t.second < u.second))

theorem civilTime_before {secs later : Nat} (less : secs < later) : (civilTime secs).Before (civilTime later) := by
  have first := civilTime_dayNumber secs
  have second := civilTime_dayNumber later
  by_cases day : secs / 86400 = later / 86400
  · have date : (civilTime secs).date = (civilTime later).date := by
      rw [civilTime_date, civilTime_date, day]
    refine .inr ⟨date, ?_⟩
    change secs % 86400 / 3600 < later % 86400 / 3600 ∨ secs % 86400 / 3600 = later % 86400 / 3600 ∧
      (secs % 86400 % 3600 / 60 < later % 86400 % 3600 / 60 ∨
        secs % 86400 % 3600 / 60 = later % 86400 % 3600 / 60 ∧ secs % 86400 % 60 < later % 86400 % 60)
    omega
  · exact .inl (before_of_dayNumber_lt (civilTime_valid secs).date (civilTime_valid later).date (by omega))

theorem behind_field {s s' : List Char} (less : s < s') (field : List Char) (c : Char) :
    field ++ c :: s < field ++ c :: s' :=
  List.append_left_lt (List.cons_lt_cons_self.mpr less)

/-- A later time is a larger text. -/
theorem format_lt (before : t.Before u) (widths : u.year < 10 ^ 4 ∧ u.month < 10 ^ 2 ∧ u.day < 10 ^ 2 ∧
    u.hour < 10 ^ 2 ∧ u.minute < 10 ^ 2 ∧ u.second < 10 ^ 2) : t.format < u.format := by
  obtain ⟨year, month, day, hour, minute, second⟩ := widths
  unfold CivilTime.format
  rcases before with (years | ⟨years, months | ⟨months, days⟩⟩) | ⟨dates, hours | ⟨hours, minutes | ⟨minutes, seconds⟩⟩⟩
  · exact pad_lt_pad years year (by decide) _ _
  · change t.year = u.year at years
    rw [years]
    apply behind_field
    exact pad_lt_pad months month (by decide) _ _
  · change t.year = u.year at years
    change t.month = u.month at months
    rw [years, months]
    apply behind_field
    apply behind_field
    exact pad_lt_pad days day (by decide) _ _
  · have same := Date.mk.inj dates
    rw [same.1, same.2.1, same.2.2]
    apply behind_field
    apply behind_field
    apply behind_field
    exact pad_lt_pad hours hour (by decide) _ _
  · have same := Date.mk.inj dates
    rw [same.1, same.2.1, same.2.2, hours]
    apply behind_field
    apply behind_field
    apply behind_field
    apply behind_field
    exact pad_lt_pad minutes minute (by decide) _ _
  · have same := Date.mk.inj dates
    rw [same.1, same.2.1, same.2.2, hours, minutes]
    apply behind_field
    apply behind_field
    apply behind_field
    apply behind_field
    apply behind_field
    exact pad_lt_pad seconds second (by decide) _ _

theorem length_format (widths : t.year < 10 ^ 4 ∧ t.month < 10 ^ 2 ∧ t.day < 10 ^ 2 ∧ t.hour < 10 ^ 2 ∧
    t.minute < 10 ^ 2 ∧ t.second < 10 ^ 2) : t.format.length = 20 := by
  obtain ⟨year, month, day, hour, minute, second⟩ := widths
  simp only [CivilTime.format, List.length_append, List.length_cons, List.length_nil]
  rw [length_pad year (by decide), length_pad month (by decide), length_pad day (by decide), length_pad hour (by decide),
    length_pad minute (by decide), length_pad second (by decide)]

/-- With a year of four digits a timestamp is twenty characters that hold a civil date and time, reads back as its
number, and is smaller than every later one. -/
theorem timestamp_round_trip (secs : Nat) (fourDigits : (civilTime secs).year < 10000) :
    (∃ t, timestampFields (formatRfc3339 secs) = some t ∧ t.Valid) ∧ (formatRfc3339 secs).length = 20 ∧
      parseRfc3339Utc (formatRfc3339 secs) = .ok (some secs) ∧
      ∀ later, secs < later → (civilTime later).year < 10000 → formatRfc3339 secs < formatRfc3339 later :=
  ⟨⟨civilTime secs, civilTime_parsed fourDigits, civilTime_valid secs⟩, length_format (civilTime_widths fourDigits),
    parse_format fourDigits, fun _ less small => format_lt (civilTime_before less) (civilTime_widths small)⟩

/-- The leap day of the year 2000. -/
theorem leap_day_round_trip :
    (formatRfc3339 951782400 = "2000-02-29T00:00:00Z".toList ∧ (civilTime 951782400).year < 10000) ∧
      (∃ t, timestampFields (formatRfc3339 951782400) = some t ∧ t.Valid) ∧ (formatRfc3339 951782400).length = 20 ∧
      parseRfc3339Utc (formatRfc3339 951782400) = .ok (some 951782400) ∧
      ∀ later, 951782400 < later → (civilTime later).year < 10000 →
        formatRfc3339 951782400 < formatRfc3339 later :=
  ⟨by decide +kernel, timestamp_round_trip 951782400 (by decide +kernel)⟩

/-! ### The range of the arithmetic -/

/-- The reader returns, with a number or without one, exactly when the numbers it reads are in range. -/
theorem parser_in_range_iff (ts : List Char) :
    (∃ secs, parseRfc3339Utc ts = .ok secs) ↔ ∀ t, timestampFields ts = some t → t.InRange := by
  unfold parseRfc3339Utc
  cases read : timestampFields ts with
  | none => exact iff_of_true ⟨none, rfl⟩ fun t impossible => by cases impossible
  | some t =>
    constructor
    · intro returns u same
      obtain ⟨secs, found⟩ := returns
      rw [← Option.some.inj same]
      exact (utcSeconds_iff.mp found).1
    · exact fun range => ⟨t.unixSeconds, utcSeconds_iff.mpr ⟨range t rfl, rfl⟩⟩

theorem unreturned {ts : List Char} {e : Failure} (fails : parseRfc3339Utc ts = .error e) :
    ¬∃ secs, parseRfc3339Utc ts = .ok secs := by
  rw [fails]
  intro returns
  obtain ⟨secs, found⟩ := returns
  cases found

/-- January of year 0, day 0 of March, and the last year that can be read. -/
theorem parser_overflows :
    (¬∃ secs, parseRfc3339Utc "0000-01-01T00:00:00Z".toList = .ok secs) ∧
      (¬∃ secs, parseRfc3339Utc "2024-03-00T00:00:00Z".toList = .ok secs) ∧
      ¬∃ secs, parseRfc3339Utc "18446744073709551615-06-01T00:00:00Z".toList = .ok secs := by
  have january : parseRfc3339Utc "0000-01-01T00:00:00Z".toList = .error "attempt to subtract with overflow" := by
    decide +kernel
  have march : parseRfc3339Utc "2024-03-00T00:00:00Z".toList = .error "attempt to subtract with overflow" := by
    decide +kernel
  have last : parseRfc3339Utc "18446744073709551615-06-01T00:00:00Z".toList =
      .error "attempt to add or multiply with overflow" := by
    decide +kernel
  exact ⟨unreturned january, unreturned march, unreturned last⟩

end Rqmd.Time
