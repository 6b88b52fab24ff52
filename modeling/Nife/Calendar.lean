/-
Civil dates and day numbers.  `daysFromCivil` and `civilFromDays` are the source's pair: the
year is shifted to start in March, so that the leap day is its last day, and the era of 400
years makes the century rules plain division.

The proofs write a day of the era in mixed radix, as centuries, four-year cycles, years and
days (`yearOfEra_mixed`).  From it the two functions are inverse to each other
(`civilFromDays_daysFromCivil`, `daysFromCivil_civilFromDays`), and the months follow one
another without a gap (`firstOfMonth_succ`).
-/
import Mathlib.Tactic.IntervalCases

namespace Nife.Calendar

/-! ### The algorithms -/

def minYear : Int := 0

def maxYear : Int := 9999

def secsPerDay : Int := 86400

/-- Every fourth year, except every hundredth, except every four-hundredth. -/
def isLeapYear (year : Int) : Bool := year % 4 == 0 && (year % 100 != 0 || year % 400 == 0)

/-- The days of a month. -/
def daysInMonth (year : Int) : Nat → Option Nat
  | 1 | 3 | 5 | 7 | 8 | 10 | 12 => some 31
  | 4 | 6 | 9 | 11 => some 30
  | 2 => some (if isLeapYear year then 29 else 28)
  | _ => none

/-- Days since 1970-01-01. -/
def daysFromCivil (year : Int) (month day : Nat) : Int :=
  let m : Int := month
  let d : Int := day
  -- January and February belong to the previous March-based year
  let y := if m ≤ 2 then year - 1 else year
  let era := (if 0 ≤ y then y else y - 399).tdiv 400
  let yoe := y - era * 400
  let mp := if 2 < m then m - 3 else m + 9
  let doy := (153 * mp + 2) / 5 + d - 1
  let doe := yoe * 365 + yoe / 4 - yoe / 100 + doy
  era * 146097 + doe - 719468

/-- The year of a day of the era. -/
def yearOfEra (doe : Int) : Int := (doe - doe / 1460 + doe / 36524 - doe / 146096) / 365

/-- The date of a day number. -/
def civilFromDays (days : Int) : Int × Nat × Nat :=
  let z := days + 719468
  let era := (if 0 ≤ z then z else z - 146096).tdiv 146097
  let doe := z - era * 146097
  let yoe := yearOfEra doe
  let y := yoe + era * 400
  let doy := doe - (365 * yoe + yoe / 4 - yoe / 100)
  let mp := (5 * doy + 2) / 153
  let d := doy - (153 * mp + 2) / 5 + 1
  let m := if mp < 10 then mp + 3 else mp - 9
  let y := if m ≤ 2 then y + 1 else y
  (y, m.toNat, d.toNat)

def minTimestamp : Int := daysFromCivil minYear 1 1 * secsPerDay

def maxTimestamp : Int := daysFromCivil maxYear 12 31 * secsPerDay + secsPerDay - 1

/-- Why a time is refused. -/
inductive Error
  | outOfRange | badMonth | badDay | badHour | badMinute | badSecond
  deriving DecidableEq, Repr

/-- A date and a time of day. -/
structure Civil where
  year : Int
  (month day hour minute second : Nat)
  deriving DecidableEq, Repr

def Civil.new (year : Int) (month day hour minute second : Nat) : Except Error Civil :=
  if year < minYear ∨ maxYear < year then .error .outOfRange
  else match daysInMonth year month with
    | none => .error .badMonth
    | some len =>
        if day = 0 ∨ len < day then .error .badDay
        else if 23 < hour then .error .badHour
        else if 59 < minute then .error .badMinute
        else if 59 < second then .error .badSecond
        else .ok { year, month, day, hour, minute, second }

def Civil.fromUnix (secs : Int) : Except Error Civil :=
  if secs < minTimestamp ∨ maxTimestamp < secs then .error .outOfRange
  else
    let days := secs / secsPerDay
    let sod := secs % secsPerDay
    let c := civilFromDays days
    .ok { year := c.1, month := c.2.1, day := c.2.2, hour := (sod / 3600).toNat,
          minute := (sod / 60 % 60).toNat, second := (sod % 60).toNat }

def Civil.daysSinceEpoch (c : Civil) : Int := daysFromCivil c.year c.month c.day

/-! ### Real dates -/

/-- The dates there are, in any year. -/
structure IsDate (year : Int) (month day : Nat) : Prop where
  month_pos : 1 ≤ month
  month_le : month ≤ 12
  day_pos : 1 ≤ day
  day_le : ∀ len, daysInMonth year month = some len → day ≤ len

variable {y : Int} {m d : Nat}

theorem daysInMonth_isSome (hpos : 1 ≤ m) (hle : m ≤ 12) :
    ∃ len, daysInMonth y m = some len ∧ 28 ≤ len ∧ len ≤ 31 := by
  interval_cases m
  case «2» => cases h : isLeapYear y <;> simp [daysInMonth, h]
  all_goals simp [daysInMonth]

theorem isLeapYear_iff : isLeapYear y = true ↔ y % 4 = 0 ∧ (y % 100 ≠ 0 ∨ y % 400 = 0) := by
  simp [isLeapYear]

theorem tdiv_shifted (a : Int) {b k : Int} (hb : 0 < b) (hk : k = b - 1) :
    (if 0 ≤ a then a else a - k).tdiv b = a / b := by
  subst hk
  split
  case isTrue ha => exact Int.tdiv_eq_ediv_of_nonneg ha
  case isFalse ha =>
    have hmod := Int.emod_nonneg a hb.ne'
    have hlt := Int.emod_lt_of_pos a hb
    have hquot : b - 1 - a = (b - 1 - a % b) + b * (-(a / b)) := by
      have := Int.emod_add_mul_ediv a b
      rw [Int.mul_neg]
      omega
    have hneg : a - (b - 1) = -(b - 1 - a) := by omega
    rw [hneg, Int.neg_tdiv, Int.tdiv_eq_ediv_of_nonneg (by omega), hquot,
      Int.add_mul_ediv_left _ _ hb.ne', Int.ediv_eq_zero_of_lt (by omega) (by omega)]
    omega

/-! ### The March-based year -/

/-- The year that a date is in when years start in March. -/
def marchYear (y : Int) (m : Nat) : Int := if m ≤ 2 then y - 1 else y

def monthStart (m : Nat) : Int := (153 * (if 2 < m then (m : Int) - 3 else m + 9) + 2) / 5

/-- The days of the March-based years before. -/
def yearStart (y : Int) : Int := 365 * y + y / 4 - y / 100 + y / 400

theorem daysFromCivil_eq (y : Int) (m d : Nat) :
    daysFromCivil y m d = yearStart (marchYear y m) + monthStart m + d - 719469 := by
  have hy : (if (m : Int) ≤ 2 then y - 1 else y) = marchYear y m := by
    unfold marchYear
    split <;> split <;> omega
  have hm : (if 2 < (m : Int) then (m : Int) - 3 else m + 9) =
      if 2 < m then (m : Int) - 3 else m + 9 := by
    split <;> split <;> omega
  have hera := tdiv_shifted (marchYear y m) (b := 400) (k := 399) (by decide) (by decide)
  unfold daysFromCivil monthStart yearStart
  dsimp only
  rw [hy, hm]
  omega

/-- A date is inside its March-based year, and only a leap day is at its end. -/
theorem IsDate.dayOfYear (h : IsDate y m d) :
    0 ≤ monthStart m + d - 1 ∧ monthStart m + d - 1 ≤ 365 ∧
    (monthStart m + d - 1 = 365 → isLeapYear (marchYear y m + 1) = true) ∧
    (5 * (monthStart m + d - 1) + 2) / 153 = if 2 < m then (m : Int) - 3 else m + 9 := by
  obtain ⟨hpos, hle, hday, hlen⟩ := h
  interval_cases m
  case «2» =>
    specialize hlen _ rfl
    cases hleap : isLeapYear y <;> simp [hleap, monthStart, marchYear] at hlen ⊢ <;> omega
  all_goals
    specialize hlen _ rfl
    simp [monthStart]
    omega

/-- A day of the era in mixed radix: centuries, four-year cycles, years and days. -/
theorem yearOfEra_mixed (c q r s : Int) (hc : 0 ≤ c ∧ c ≤ 3) (hq : 0 ≤ q ∧ q ≤ 24)
    (hr : 0 ≤ r ∧ r ≤ 3) (hs : 0 ≤ s ∧ s ≤ 365) (hleap : s = 365 → r = 3 ∧ (q ≠ 24 ∨ c = 3)) :
    yearOfEra (36524 * c + 1461 * q + 365 * r + s) = 100 * c + 4 * q + r := by
  unfold yearOfEra
  generalize hdoe : 36524 * c + 1461 * q + 365 * r + s = doe
  -- the last day of the era is the one day past its four centuries
  have hlast : doe / 146096 = if c = 3 ∧ q = 24 ∧ r = 3 ∧ s = 365 then 1 else 0 := by
    split <;> omega
  have hcentury : doe / 36524 = c + if c = 3 ∧ q = 24 ∧ r = 3 ∧ s = 365 then 1 else 0 := by
    split <;> omega
  omega

theorem yearOfEra_day {y s : Int} (hs : 0 ≤ s ∧ s ≤ 365)
    (hleap : s = 365 → isLeapYear (y + 1) = true) :
    yearOfEra (yearStart y - y / 400 * 146097 + s) = y - y / 400 * 400 := by
  have hmixed := yearOfEra_mixed (y % 400 / 100) (y % 100 / 4) (y % 4) s (by omega) (by omega)
    (by omega) hs fun h => ?_
  · have hday : yearStart y - y / 400 * 146097 + s =
        36524 * (y % 400 / 100) + 1461 * (y % 100 / 4) + 365 * (y % 4) + s := by
      unfold yearStart
      omega
    rw [hday]
    omega
  · have := isLeapYear_iff.mp (hleap h)
    omega

/-- **A date is decoded from its day number.** -/
theorem civilFromDays_daysFromCivil (h : IsDate y m d) :
    civilFromDays (daysFromCivil y m d) = (y, m, d) := by
  obtain ⟨hday, hday', hleap, hmonth⟩ := h.dayOfYear
  have hyear := yearOfEra_day ⟨hday, hday'⟩ hleap
  generalize hs : monthStart m + d - 1 = s at *
  generalize hyy : marchYear y m = yy at *
  have hz : daysFromCivil y m d + 719468 = yearStart yy + s := by
    rw [daysFromCivil_eq, hyy]
    omega
  have hera : (yearStart yy + s) / 146097 = yy / 400 := by
    unfold yearStart
    omega
  have htdiv := tdiv_shifted (yearStart yy + s) (b := 146097) (k := 146096) (by decide) (by decide)
  have hdoe : yearStart yy + s - yy / 400 * 146097 = yearStart yy - yy / 400 * 146097 + s := by
    omega
  have hdoy : yearStart yy - yy / 400 * 146097 + s - (365 * (yy - yy / 400 * 400) +
      (yy - yy / 400 * 400) / 4 - (yy - yy / 400 * 400) / 100) = s := by
    unfold yearStart
    omega
  unfold civilFromDays
  dsimp only
  rw [hz, htdiv, hera, hdoe, hyear, hdoy]
  obtain ⟨hpos, hle, hdpos, -⟩ := h
  unfold marchYear at hyy
  unfold monthStart at hs
  refine Prod.ext ?_ (Prod.ext ?_ ?_)
  · dsimp only
    split_ifs at * <;> omega
  · dsimp only
    split_ifs at * <;> omega
  · dsimp only
    omega

theorem yearStart_mixed {era c q r : Int} (hc : 0 ≤ c ∧ c ≤ 3) (hq : 0 ≤ q ∧ q ≤ 24)
    (hr : 0 ≤ r ∧ r ≤ 3) :
    yearStart (400 * era + 100 * c + 4 * q + r) =
      146097 * era + 36524 * c + 1461 * q + 365 * r := by
  have h4 : (400 * era + 100 * c + 4 * q + r) / 4 = 100 * era + 25 * c + q := by omega
  have h400 : (400 * era + 100 * c + 4 * q + r) / 400 = era := by omega
  rw [yearStart, h4, h400]
  omega

theorem exists_marchYear (z : Int) : ∃ yy s, yearStart yy + s = z ∧ 0 ≤ s ∧ s ≤ 365 ∧
    (s = 365 → isLeapYear (yy + 1) = true) := by
  -- the quotients of the mixed radix, the last century and the last year being one day longer
  obtain ⟨c, hc⟩ : ∃ c, c = min (z % 146097 / 36524) 3 := ⟨_, rfl⟩
  obtain ⟨q, hq⟩ : ∃ q, q = (z % 146097 - 36524 * c) / 1461 := ⟨_, rfl⟩
  obtain ⟨r, hr⟩ : ∃ r, r = min ((z % 146097 - 36524 * c - 1461 * q) / 365) 3 := ⟨_, rfl⟩
  obtain ⟨s, hs⟩ : ∃ s, s = z % 146097 - 36524 * c - 1461 * q - 365 * r := ⟨_, rfl⟩
  have hc' : 0 ≤ c ∧ c ≤ 3 := by omega
  have hq' : 0 ≤ q ∧ q ≤ 24 := by omega
  have hr' : 0 ≤ r ∧ r ≤ 3 := by omega
  refine ⟨400 * (z / 146097) + 100 * c + 4 * q + r, s, ?_, by omega, by omega, fun h => ?_⟩
  · rw [yearStart_mixed hc' hq' hr']
    omega
  · rw [isLeapYear_iff]
    omega

theorem exists_isDate (n : Int) : ∃ y m d, IsDate y m d ∧ daysFromCivil y m d = n := by
  obtain ⟨yy, s, hz, hs, hs', hleap⟩ := exists_marchYear (n + 719468)
  obtain ⟨mp, hmp⟩ : ∃ mp : Nat, (mp : Int) = (5 * s + 2) / 153 :=
    ⟨((5 * s + 2) / 153).toNat, by omega⟩
  obtain ⟨d, hd⟩ : ∃ d : Nat, (d : Int) = s - (153 * mp + 2) / 5 + 1 :=
    ⟨(s - (153 * mp + 2) / 5 + 1).toNat, by omega⟩
  have hmp' : mp ≤ 11 := by omega
  refine ⟨if mp < 10 then yy else yy + 1, if mp < 10 then mp + 3 else mp - 9, d, ?_, ?_⟩
  · refine ⟨by split <;> omega, by split <;> omega, by omega, fun len hlen => ?_⟩
    interval_cases mp <;> simp [daysInMonth] at hlen <;> first | omega | skip
    cases h : isLeapYear (yy + 1)
    · have : s ≠ 365 := fun h' => by simp [hleap h'] at h
      simp [h] at hlen
      omega
    · simp [h] at hlen
      omega
  · rw [daysFromCivil_eq, marchYear, monthStart]
    by_cases h10 : mp < 10
    · simp only [h10, if_true]
      split_ifs <;> omega
    · simp only [h10, if_false, Int.add_sub_cancel]
      split_ifs <;> omega

/-- **A day number is the number of the date decoded from it**, and that date is one. -/
theorem isDate_civilFromDays (n : Int) :
    IsDate (civilFromDays n).1 (civilFromDays n).2.1 (civilFromDays n).2.2 ∧
      daysFromCivil (civilFromDays n).1 (civilFromDays n).2.1 (civilFromDays n).2.2 = n := by
  obtain ⟨y, m, d, hdate, rfl⟩ := exists_isDate n
  rw [civilFromDays_daysFromCivil hdate]
  exact ⟨hdate, rfl⟩

/-! ### Months in a row -/

/-- The first day of a month, months being counted from January of the year 0. -/
def firstOfMonth (i : Int) : Int := daysFromCivil (i / 12) (i % 12 + 1).toNat 1

def monthLength (i : Int) : Nat := (daysInMonth (i / 12) (i % 12 + 1).toNat).getD 31

theorem daysInMonth_index (i : Int) :
    daysInMonth (i / 12) (i % 12 + 1).toNat = some (monthLength i) ∧
      28 ≤ monthLength i ∧ monthLength i ≤ 31 := by
  obtain ⟨len, hsome, hlen⟩ :=
    daysInMonth_isSome (y := i / 12) (m := (i % 12 + 1).toNat) (by omega) (by omega)
  rw [monthLength, hsome]
  exact ⟨rfl, hlen⟩

theorem civilFromDays_month {i : Int} {k : Nat} (hk : k < monthLength i) :
    civilFromDays (firstOfMonth i + k) = (i / 12, (i % 12 + 1).toNat, k + 1) := by
  have hdate : IsDate (i / 12) (i % 12 + 1).toNat (k + 1) := by
    refine ⟨by omega, by omega, by omega, fun len hlen => ?_⟩
    rw [(daysInMonth_index i).1, Option.some.injEq] at hlen
    omega
  have hday : firstOfMonth i + k = daysFromCivil (i / 12) (i % 12 + 1).toNat (k + 1) := by
    rw [firstOfMonth, daysFromCivil_eq, daysFromCivil_eq]
    omega
  rw [hday, civilFromDays_daysFromCivil hdate]

/-- **The months follow one another.** -/
theorem firstOfMonth_succ (i : Int) : firstOfMonth (i + 1) = firstOfMonth i + monthLength i := by
  have hlen := (daysInMonth_index i).1
  obtain ⟨r, hr, hi⟩ : ∃ r : Nat, i = 12 * (i / 12) + r ∧ r ≤ 11 :=
    ⟨(i % 12).toNat, by omega, by omega⟩
  generalize hy : i / 12 = y at *
  have hmonth : (i % 12 + 1).toNat = r + 1 := by omega
  have hyear : (i + 1) / 12 = if r = 11 then y + 1 else y := by split <;> omega
  have hnext : ((i + 1) % 12 + 1).toNat = if r = 11 then 1 else r + 2 := by split <;> omega
  rw [hmonth] at hlen
  rw [firstOfMonth, firstOfMonth, hy, hyear, hnext, hmonth, daysFromCivil_eq, daysFromCivil_eq]
  generalize monthLength i = len at *
  clear hr hmonth hyear hnext hy
  interval_cases r
  case «1» =>
    have hleap := isLeapYear_iff (y := y)
    cases h : isLeapYear y
    all_goals
      simp only [daysInMonth, h, Option.some.injEq, if_true, Bool.false_eq_true, if_false] at hlen
      simp only [h, Bool.false_eq_true, false_iff, true_iff] at hleap
      simp [marchYear, monthStart, yearStart]
      omega
  all_goals
    simp only [daysInMonth, Option.some.injEq] at hlen
    simp [marchYear, monthStart, ← hlen]
    omega

end Nife.Calendar
