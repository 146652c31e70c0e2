import Mathlib.Data.Prod.Lex
import Mathlib.Tactic.Common

/-! Dates of the Gregorian calendar and the days they number. Years are counted from March, so that the leap day ends a
year; four hundred of them make an era of 146097 days. -/

namespace Gregorian

structure Date where
  year : Nat
  month : Nat
  day : Nat
deriving DecidableEq

def isLeap (year : Nat) : Bool := year % 4 = 0 && (year % 100 ≠ 0 || year % 400 = 0)

def daysInMonth (year month : Nat) : Nat :=
  if month = 2 then (if isLeap year then 29 else 28)
  else if month = 4 ∨ month = 6 ∨ month = 9 ∨ month = 11 then 30
  else 31

/-- A date of the common era. -/
structure Date.Valid (d : Date) : Prop where
  year : 0 < d.year
  month : 1 ≤ d.month ∧ d.month ≤ 12
  day : 1 ≤ d.day ∧ d.day ≤ daysInMonth d.year d.month

/-- Earlier by year, then by month, then by day. -/
def Date.Before (d e : Date) : Prop :=
  d.year < e.year ∨ d.year = e.year ∧ (d.month < e.month ∨ d.month = e.month ∧ d.day < e.day)

def Date.marchYear (d : Date) : Nat := if d.month ≤ 2 then d.year - 1 else d.year

def Date.marchMonth (d : Date) : Nat := if d.month ≤ 2 then d.month + 9 else d.month - 3

/-- The days in front of a year, from the first of March of year 0. -/
def yearStart (year : Nat) : Nat := 365 * year + year / 4 - year / 100 + year / 400

/-- The days of a year in front of a month, March being month 0. -/
def monthStart (month : Nat) : Nat := (153 * month + 2) / 5

def Date.dayNumber (d : Date) : Nat := yearStart d.marchYear + monthStart d.marchMonth + d.day - 1

/-! ### From dates to days -/

variable {d e : Date}

theorem isLeap_iff (year : Nat) : isLeap year = true ↔ year % 4 = 0 ∧ (year % 100 ≠ 0 ∨ year % 400 = 0) := by
  simp [isLeap]

theorem yearStart_succ (year : Nat) :
    yearStart (year + 1) = yearStart year + 365 + if isLeap (year + 1) then 1 else 0 := by
  have fours : (year + 1) / 4 = year / 4 + if (year + 1) % 4 = 0 then 1 else 0 := by
    split
    · omega
    · omega
  have centuries : (year + 1) / 100 = year / 100 + if (year + 1) % 100 = 0 then 1 else 0 := by
    split
    · omega
    · omega
  have eras : (year + 1) / 400 = year / 400 + if (year + 1) % 400 = 0 then 1 else 0 := by
    split
    · omega
    · omega
  have fewer : year / 100 ≤ year / 4 := Nat.div_le_div_left (by decide) (by decide)
  unfold yearStart
  rw [fours, centuries, eras]
  by_cases leap : isLeap (year + 1) = true
  · have rule := (isLeap_iff _).mp leap
    rw [if_pos leap, if_pos rule.1]
    by_cases century : (year + 1) % 100 = 0
    · rw [if_pos century, if_pos (rule.2.resolve_left fun other => other century)]
      omega
    · rw [if_neg century, if_neg (by omega)]
      omega
  · have rule := mt (isLeap_iff _).mpr leap
    rw [if_neg leap]
    by_cases four : (year + 1) % 4 = 0
    · rw [if_pos four, if_pos (by omega), if_neg (by omega)]
      omega
    · rw [if_neg four, if_neg (by omega), if_neg (by omega)]
      omega

theorem yearStart_mono {m n : Nat} (le : m ≤ n) : yearStart m ≤ yearStart n := by
  refine monotone_nat_of_le_succ (fun year => ?_) le
  rw [yearStart_succ]
  omega

theorem monthStart_mono {m n : Nat} (le : m ≤ n) : monthStart m ≤ monthStart n :=
  Nat.div_le_div_right (by omega)

/-- Without the last month, the months of April, June, September and November have thirty days. -/
theorem monthStart_succ :
    ∀ month < 11, monthStart (month + 1) =
      monthStart month + if month = 1 ∨ month = 3 ∨ month = 6 ∨ month = 8 then 30 else 31 := by
  decide

/-- A day stands in its month. -/
theorem Date.Valid.within_month (valid : d.Valid) (short : d.marchMonth < 11) :
    monthStart d.marchMonth + d.day ≤ monthStart (d.marchMonth + 1) := by
  have bounds := valid.month
  have day := valid.day.2
  unfold marchMonth at short ⊢
  unfold daysInMonth at day
  by_cases early : d.month ≤ 2
  · rw [if_pos early] at short ⊢
    have january : d.month = 1 := by omega
    rw [january] at day ⊢
    exact Nat.add_le_add_left day _
  · rw [if_neg early] at short ⊢
    rw [if_neg (by omega)] at day
    rw [monthStart_succ _ short]
    split at day
    · rw [if_pos (by omega)]
      omega
    · rw [if_neg (by omega)]
      omega

/-- A day stands in its year. -/
theorem Date.Valid.within_year (valid : d.Valid) :
    yearStart d.marchYear + monthStart d.marchMonth + d.day ≤ yearStart (d.marchYear + 1) := by
  by_cases short : d.marchMonth < 11
  · have within := valid.within_month short
    have month : monthStart (d.marchMonth + 1) ≤ monthStart 11 := monthStart_mono short
    have last : monthStart 11 = 337 := rfl
    rw [yearStart_succ]
    omega
  · have bounds := valid.month
    have year := valid.year
    have february : d.month = 2 := by
      unfold marchMonth at short
      split at short
      · omega
      · omega
    have month : monthStart d.marchMonth = 337 := by
      rw [marchMonth, february]
      rfl
    have later : d.marchYear + 1 = d.year := by
      rw [marchYear, february, if_pos (Nat.le_refl 2)]
      omega
    have day := valid.day.2
    rw [february, daysInMonth, if_pos rfl] at day
    rw [yearStart_succ, later, month]
    split at day
    · next leap =>
      rw [if_pos leap]
      omega
    · next common =>
      rw [if_neg common]
      omega

/-- The number of a day grows with its date. -/
theorem dayNumber_lt (before : d.Before e) (first : d.Valid) (second : e.Valid) : d.dayNumber < e.dayNumber := by
  have day := first.day
  have month := first.month
  have month' := second.month
  have year := first.year
  have year' := second.year
  have order : d.marchYear < e.marchYear ∨ d.marchYear = e.marchYear ∧
      (d.marchMonth < e.marchMonth ∨ d.marchMonth = e.marchMonth ∧ d.day < e.day) := by
    unfold Date.Before at before
    unfold Date.marchYear Date.marchMonth
    by_cases left : d.month ≤ 2
    · by_cases right : e.month ≤ 2
      · simp only [if_pos left, if_pos right]
        omega
      · simp only [if_pos left, if_neg right]
        omega
    · by_cases right : e.month ≤ 2
      · simp only [if_neg left, if_pos right]
        omega
      · simp only [if_neg left, if_neg right]
        omega
  have low := second.day
  unfold Date.dayNumber
  rcases order with years | ⟨years, months | ⟨months, days⟩⟩
  · have within := first.within_year
    have later : yearStart (d.marchYear + 1) ≤ yearStart e.marchYear := yearStart_mono years
    omega
  · have last : e.marchMonth ≤ 11 := by
      unfold Date.marchMonth
      split
      · omega
      · omega
    have within := first.within_month (by omega)
    have later : monthStart (d.marchMonth + 1) ≤ monthStart e.marchMonth := monthStart_mono months
    rw [years]
    omega
  · rw [years, months]
    omega

theorem Date.before_total (d e : Date) : d.Before e ∨ d = e ∨ e.Before d := by
  obtain ⟨year, month, day⟩ := d
  obtain ⟨year', month', day'⟩ := e
  rw [Date.mk.injEq]
  unfold Date.Before
  dsimp only
  omega

/-- So does its date with its number. -/
theorem before_of_dayNumber_lt (first : d.Valid) (second : e.Valid) (less : d.dayNumber < e.dayNumber) : d.Before e := by
  rcases Date.before_total d e with before | same | after
  · exact before
  · rw [same] at less
    exact absurd less (Nat.lt_irrefl _)
  · have more := dayNumber_lt after second first
    exact absurd less (Nat.lt_asymm more)

theorem daysInMonth_le (year month : Nat) : daysInMonth year month ≤ 31 := by
  unfold daysInMonth
  split
  · split
    · decide
    · decide
  · split
    · decide
    · decide

/-! ### From days to dates -/

/-- The year of an era that holds a day of the era. -/
def yearOfEra (day : Nat) : Nat := (day - day / 1460 + day / 36524 - day / 146096) / 365

def dayOfYear (day : Nat) : Nat := day - (365 * yearOfEra day + yearOfEra day / 4 - yearOfEra day / 100)

/-- The date of a day. -/
def ofDays (days : Nat) : Date :=
  let day := days % 146097
  let month := (5 * dayOfYear day + 2) / 153
  let year := yearOfEra day + days / 146097 * 400
  ⟨if month < 10 then year else year + 1, if month < 10 then month + 3 else month - 9,
    dayOfYear day - monthStart month + 1⟩

/-- Nearly every 1460th day is a leap day the divisor 365 does not know of. -/
theorem yearOfEra_quarter {day : Nat} (inside : day < 146096) :
    yearOfEra day / 100 = day / 36524 ∧ yearOfEra day / 4 ≤ day / 1460 ∧ day / 1460 ≤ yearOfEra day / 4 + 1 ∧
      (yearOfEra day % 4 < 3 → day / 1460 ≤ yearOfEra day / 4) := by
  have last : day / 146096 = 0 := by omega
  have centuries : day / 36524 = 0 ∨ day / 36524 = 1 ∨ day / 36524 = 2 ∨ day / 36524 = 3 := by omega
  unfold yearOfEra
  rw [last]
  rcases centuries with century | century | century | century
  · rw [century]
    omega
  · rw [century]
    omega
  · rw [century]
    omega
  · rw [century]
    omega

theorem yearOfEra_le {day : Nat} (inside : day < 146097) :
    365 * yearOfEra day + yearOfEra day / 4 - yearOfEra day / 100 ≤ day := by
  by_cases last : day = 146096
  · rw [last]
    decide
  · have quarter := yearOfEra_quarter (show day < 146096 by omega)
    have counted : yearOfEra day * 365 ≤ day - day / 1460 + day / 36524 := by
      unfold yearOfEra
      omega
    omega

theorem yearOfEra_lt {day : Nat} (inside : day < 146097) : yearOfEra day < 400 := by
  unfold yearOfEra
  omega

/-- A year has 366 days at most, and 365 unless the year that holds its February is a leap year. -/
theorem dayOfYear_lt {day : Nat} (inside : day < 146097) :
    dayOfYear day < 366 ∧ (isLeap (yearOfEra day + 1) = false → dayOfYear day < 365) := by
  by_cases last : day = 146096
  · rw [last]
    decide
  · have quarter := yearOfEra_quarter (show day < 146096 by omega)
    have counted : day - day / 1460 + day / 36524 < yearOfEra day * 365 + 365 := by
      unfold yearOfEra
      omega
    unfold dayOfYear
    refine ⟨by omega, fun common => ?_⟩
    have rule : ¬((yearOfEra day + 1) % 4 = 0 ∧ ((yearOfEra day + 1) % 100 ≠ 0 ∨ (yearOfEra day + 1) % 400 = 0)) :=
      fun leap => Bool.eq_false_iff.mp common ((isLeap_iff _).mpr leap)
    omega

theorem yearStart_era (year era : Nat) :
    yearStart (year + era * 400) = era * 146097 + (365 * year + year / 4 - year / 100 + year / 400) := by
  have fewer : year / 100 ≤ year / 4 := Nat.div_le_div_left (by decide) (by decide)
  have fours : (year + era * 400) / 4 = year / 4 + era * 100 := by omega
  have centuries : (year + era * 400) / 100 = year / 100 + era * 4 := by omega
  have eras : (year + era * 400) / 400 = year / 400 + era := by omega
  rw [yearStart, fours, centuries, eras]
  omega

/-- The days in front of a year, its whole eras first. -/
theorem yearStart_eras (year : Nat) : yearStart year =
    year / 400 * 146097 + (year % 400 * 365 + year % 400 / 4 - year % 400 / 100) := by
  have era := yearStart_era (year % 400) (year / 400)
  have whole : year % 400 + year / 400 * 400 = year := Nat.mod_add_div' _ _
  have first : year % 400 / 400 = 0 := Nat.div_eq_of_lt (Nat.mod_lt _ (by decide))
  rw [whole, first] at era
  rw [era]
  omega

/-- What the month formula gives: a month of the year and the days in front of it. -/
theorem month_spec {day : Nat} (inside : day < 366) :
    (5 * day + 2) / 153 ≤ 11 ∧ monthStart ((5 * day + 2) / 153) ≤ day ∧
      ((5 * day + 2) / 153 < 11 → day < monthStart ((5 * day + 2) / 153 + 1)) := by
  unfold monthStart
  omega

theorem ofDays_march (days : Nat) :
    (ofDays days).marchYear = yearOfEra (days % 146097) + days / 146097 * 400 ∧
      (ofDays days).marchMonth = (5 * dayOfYear (days % 146097) + 2) / 153 := by
  have inside : days % 146097 < 146097 := Nat.mod_lt _ (by decide)
  have month := month_spec (dayOfYear_lt inside).1
  unfold ofDays Date.marchYear Date.marchMonth
  dsimp only
  by_cases early : (5 * dayOfYear (days % 146097) + 2) / 153 < 10
  · simp only [if_pos early]
    rw [if_neg (by omega), if_neg (by omega)]
    omega
  · simp only [if_neg early]
    rw [if_pos (by omega), if_pos (by omega)]
    omega

/-- January and February belong to the year behind. -/
theorem ofDays_year (days : Nat) :
    (ofDays days).year = if (ofDays days).month ≤ 2 then yearOfEra (days % 146097) + days / 146097 * 400 + 1
      else yearOfEra (days % 146097) + days / 146097 * 400 := by
  have inside : days % 146097 < 146097 := Nat.mod_lt _ (by decide)
  have month := month_spec (dayOfYear_lt inside).1
  unfold ofDays
  dsimp only
  by_cases early : (5 * dayOfYear (days % 146097) + 2) / 153 < 10
  · simp only [if_pos early]
    rw [if_neg (by omega)]
  · simp only [if_neg early]
    rw [if_pos (by omega)]

/-- The date of a day has its number. -/
theorem dayNumber_ofDays (days : Nat) : (ofDays days).dayNumber = days := by
  have inside : days % 146097 < 146097 := Nat.mod_lt _ (by decide)
  have month := month_spec (dayOfYear_lt inside).1
  have year := yearOfEra_le inside
  have whole : yearOfEra (days % 146097) / 400 = 0 := Nat.div_eq_of_lt (yearOfEra_lt inside)
  have march := ofDays_march days
  rw [Date.dayNumber, march.1, march.2, yearStart_era, whole]
  unfold ofDays
  dsimp only
  unfold dayOfYear at month ⊢
  omega

theorem isLeap_era (year era : Nat) : isLeap (year + era * 400) = isLeap year := by
  have quarter : (year + era * 400) % 4 = year % 4 := by omega
  have century : (year + era * 400) % 100 = year % 100 := by omega
  have whole : (year + era * 400) % 400 = year % 400 := by omega
  rw [isLeap, quarter, century, whole]
  rfl

/-- From the first of January of year 1 on, every day has a date. -/
theorem ofDays_valid {days : Nat} (era : 306 ≤ days) : (ofDays days).Valid := by
  have inside : days % 146097 < 146097 := Nat.mod_lt _ (by decide)
  have bound := dayOfYear_lt inside
  have month := month_spec bound.1
  have start : yearOfEra (days % 146097) = 0 → dayOfYear (days % 146097) = days % 146097 := by
    intro zero
    rw [dayOfYear, zero]
    rfl
  unfold ofDays
  by_cases early : (5 * dayOfYear (days % 146097) + 2) / 153 < 10
  · have within := month.2.2 (by omega)
    rw [monthStart_succ _ (by omega)] at within
    simp only [if_pos early]
    refine ⟨?_, ?_, ?_⟩
    · dsimp only
      omega
    · dsimp only
      omega
    · dsimp only
      rw [daysInMonth, if_neg (by omega)]
      split at within
      · rw [if_pos (by omega)]
        omega
      · rw [if_neg (by omega)]
        omega
  · simp only [if_neg early]
    refine ⟨Nat.succ_pos _, ?_, ?_⟩
    · dsimp only
      omega
    · dsimp only
      by_cases january : (5 * dayOfYear (days % 146097) + 2) / 153 = 10
      · have within := month.2.2 (by omega)
        rw [january] at within ⊢
        change _ ∧ _ ≤ 31
        have next : monthStart (10 + 1) = monthStart 10 + 31 := rfl
        omega
      · have february : (5 * dayOfYear (days % 146097) + 2) / 153 = 11 := by omega
        have later : yearOfEra (days % 146097) + days / 146097 * 400 + 1 =
            yearOfEra (days % 146097) + 1 + days / 146097 * 400 := by omega
        have first : monthStart 11 = 337 := rfl
        rw [february, later, daysInMonth, if_pos rfl, isLeap_era, first]
        by_cases leap : isLeap (yearOfEra (days % 146097) + 1) = true
        · rw [if_pos leap]
          omega
        · have common := bound.2 (Bool.eq_false_iff.mpr leap)
          rw [if_neg leap]
          omega

end Gregorian
