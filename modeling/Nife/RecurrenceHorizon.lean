/-
The horizon of the search for the next occurrence hides nothing.  A rule repeats: before every day
that it matches there is another one, no further back than the horizon, unless the day is the
first (`Regular.earlier`).  For a rule without a count that is a day of the same month a year
before; for a counted rule it is a day one count back, where the weeks count one less across the
epoch, since their numbers round to zero.

Main result: `next_none_of_regular`, that `next` has no answer only when no occurrence is left.
-/
import Nife.Recurrence

namespace Nife.Recurrence

open Calendar

variable {rule : Rule} {d e : Int}

/-! ### Days and months -/

/-- The first day of the calendar. -/
def firstDay : Int := daysFromCivil minYear 1 1

def lastDay : Int := daysFromCivil maxYear 12 31

theorem civil_eq (d : Int) :
    civil d = if firstDay ≤ d ∧ d ≤ lastDay then some (civilFromDays d) else none := by
  have hfirst : firstDay = -719528 := by decide
  have hlast : lastDay = 2932896 := by decide
  have hrange : (d * 86400 < minTimestamp ∨ maxTimestamp < d * 86400) ↔
      ¬(firstDay ≤ d ∧ d ≤ lastDay) := by
    have hmin : minTimestamp = firstDay * 86400 := rfl
    have hmax : maxTimestamp = lastDay * 86400 + 86400 - 1 := rfl
    rw [hmin, hmax, hfirst, hlast]
    omega
  have hdiv : d * 86400 / secsPerDay = d := by
    unfold secsPerDay
    omega
  unfold civil Civil.fromUnix
  by_cases h : firstDay ≤ d ∧ d ≤ lastDay
  · rw [if_neg (by rw [hrange]; exact not_not.mpr h), if_pos h]
    rw [hdiv]
  · rw [if_pos (hrange.mpr h), if_neg h]

/-- The month a day is in, counted from January of the year 0. -/
def monthOf (d : Int) : Int := (civilFromDays d).1 * 12 + (civilFromDays d).2.1 - 1

theorem monthOf_spec (d : Int) : ∃ k < monthLength (monthOf d), d = firstOfMonth (monthOf d) + k ∧
    civilFromDays d = (monthOf d / 12, (monthOf d % 12 + 1).toNat, k + 1) := by
  obtain ⟨⟨hpos, hle, hday, hlen⟩, hnum⟩ := isDate_civilFromDays d
  obtain ⟨i, hi⟩ : ∃ i, i = monthOf d := ⟨_, rfl⟩
  have hyear : (civilFromDays d).1 = i / 12 := by
    rw [hi, monthOf]
    omega
  have hmonth : (civilFromDays d).2.1 = (i % 12 + 1).toNat := by
    rw [hi, monthOf]
    omega
  rw [← hi]
  rw [hyear, hmonth] at hnum hlen
  have hlt := hlen _ (daysInMonth_index i).1
  refine ⟨(civilFromDays d).2.2 - 1, by omega, ?_, ?_⟩
  · rw [daysFromCivil_eq] at hnum
    rw [firstOfMonth, daysFromCivil_eq]
    omega
  · rw [← hyear, ← hmonth, Nat.sub_add_cancel hday]

variable {k n : Nat} {i : Int}

theorem monthOf_firstOfMonth (hk : k < monthLength i) : monthOf (firstOfMonth i + k) = i := by
  rw [monthOf, civilFromDays_month hk]
  dsimp only
  omega

theorem firstOfMonth_add (i : Int) (n : Nat) : firstOfMonth i + 28 * n ≤ firstOfMonth (i + n) ∧
      firstOfMonth (i + n) ≤ firstOfMonth i + 31 * n := by
  induction n with
  | zero => simp
  | succ n ih =>
    obtain ⟨-, h28, h31⟩ := daysInMonth_index (i + n)
    have hsucc := firstOfMonth_succ (i + n)
    rw [Int.add_assoc] at hsucc
    push_cast
    omega

/-- A day in an earlier month is before a day, and no more days before than the months have. -/
theorem firstOfMonth_back (hn : 0 < n) (hk : k < monthLength (monthOf e - n)) :
    e - 31 * (n + 1) ≤ firstOfMonth (monthOf e - n) + k ∧ firstOfMonth (monthOf e - n) + k < e := by
  obtain ⟨k', hk', he, -⟩ := monthOf_spec e
  obtain ⟨-, -, h31⟩ := daysInMonth_index (monthOf e)
  have hnext := firstOfMonth_succ (monthOf e - n)
  have hback := firstOfMonth_add (monthOf e - n) n
  have hrest := firstOfMonth_add (monthOf e - n + 1) (n - 1)
  rw [show monthOf e - n + n = monthOf e by omega] at hback
  rw [show monthOf e - n + 1 + ((n - 1 : Nat) : Int) = monthOf e by omega] at hrest
  omega

/-! ### What a rule asks of a day -/

/-- The part of `dayMatches` that repeats. -/
structure Fits (rule : Rule) (d : Int) : Prop where
  range : firstDay ≤ d ∧ d ≤ lastDay
  month : rule.months.getLsbD (monthOf d % 12).toNat = true
  fits : (match rule.freq with
    | .daily => true
    | .weekly => rule.weekdays.getLsbD (weekdayOf d)
    | .monthly => monthDayMatches rule.on (civilFromDays d).2.2 (weekdayOf d)
        (monthLength (monthOf d))) = true
  phase : inPhase rule d (civilFromDays d).1 (civilFromDays d).2.1 = true

theorem dayMatches_iff : dayMatches rule d = true ↔
    (∀ s, rule.starting = some s → s ≤ d) ∧ (∀ t, rule.through = some t → d ≤ t) ∧ Fits rule d := by
  obtain ⟨k, hk, hd, hcivil⟩ := monthOf_spec d
  have hmonth : (civilFromDays d).2.1 - 1 = (monthOf d % 12).toNat := by
    rw [hcivil]
    dsimp only
    omega
  have hlen : (daysInMonth (civilFromDays d).1 (civilFromDays d).2.1).getD 31 =
      monthLength (monthOf d) := by
    rw [hcivil]
    rfl
  have hspan : (rule.starting.any (fun s => decide (d < s)) ||
      rule.through.any fun t => decide (t < d)) = false ↔
        (∀ s, rule.starting = some s → s ≤ d) ∧ ∀ t, rule.through = some t → d ≤ t := by
    cases rule.starting <;> cases rule.through <;> simp
  by_cases hrange : firstDay ≤ d ∧ d ≤ lastDay
  · have hsome : civil d =
        some ((civilFromDays d).1, (civilFromDays d).2.1, (civilFromDays d).2.2) := by
      rw [civil_eq, if_pos hrange]
    rw [← and_assoc, ← hspan]
    unfold dayMatches
    rw [hsome]
    dsimp only
    rw [hmonth, hlen]
    split_ifs with hout hmask
    · simp [hout]
    · simp only [false_iff, not_and]
      intro _ hfits
      rw [hfits.month] at hmask
      cases hmask
    · simp only [Bool.not_eq_true] at hout
      simp only [hout, true_and, Bool.and_eq_true]
      exact ⟨fun ⟨hfits, hphase⟩ => ⟨hrange, by simpa using hmask, hfits, hphase⟩,
        fun h => ⟨h.fits, h.phase⟩⟩
  · have hnone : civil d = none := by rw [civil_eq, if_neg hrange]
    unfold dayMatches
    rw [hnone]
    simp only [ite_self, Bool.false_eq_true, false_iff]
    exact fun h => hrange h.2.2.range

/-! ### Earlier days -/

theorem weekdayOf_eq (d : Int) : (weekdayOf d : Int) = (d + 3) % 7 := by
  unfold weekdayOf
  omega

theorem exists_weekday (a : Int) {w : Nat} (hw : w < 7) :
    ∃ k : Nat, k < 7 ∧ weekdayOf (a + k) = w := by
  refine ⟨((w - (a + 3)) % 7).toNat, by omega, ?_⟩
  unfold weekdayOf
  omega

/-- The weekday clauses that every month has a day for: all but a fifth weekday. -/
def MonthDay.Common (on : MonthDay) : Prop := ∀ n want, on = .nth n want → n ≤ 4

/-- **What fits a day of one month fits a day of every month.** -/
theorem exists_monthDay {on : MonthDay} (hon : on.Common) {dom len : Nat}
    (hdom : 1 ≤ dom) (hfits : monthDayMatches on dom (weekdayOf d) len = true) (i : Int) :
    ∃ k < monthLength i,
      monthDayMatches on (k + 1) (weekdayOf (firstOfMonth i + k)) (monthLength i) = true := by
  obtain ⟨-, h28, h31⟩ := daysInMonth_index i
  have hstart := weekdayOf_eq (firstOfMonth i)
  generalize firstOfMonth i = a at *
  generalize monthLength i = len' at *
  cases on with
  | any => exact ⟨0, by omega, rfl⟩
  | days bits =>
    simp only [monthDayMatches, Bool.and_eq_true, decide_eq_true_eq] at hfits
    refine ⟨dom - 1, by omega, ?_⟩
    rw [Nat.sub_add_cancel hdom]
    simp [monthDayMatches, hfits]
  | lastDay => exact ⟨len' - 1, by omega, by simp [monthDayMatches]; omega⟩
  | firstWeekday =>
    -- the first of the month, or the Monday after it
    obtain ⟨k, hk⟩ : ∃ k : Nat, k = if weekdayOf a < 5 then 0 else 7 - weekdayOf a := ⟨_, rfl⟩
    have hday := weekdayOf_eq (a + k)
    refine ⟨k, by split_ifs at hk <;> omega, ?_⟩
    simp only [monthDayMatches, Bool.and_eq_true, Bool.or_eq_true, decide_eq_true_eq, beq_iff_eq]
    split_ifs at hk <;> omega
  | lastWeekday =>
    obtain ⟨w, hw⟩ : ∃ w, w = weekdayOf (a + (len' - 1)) := ⟨_, rfl⟩
    have hw' := weekdayOf_eq (a + (len' - 1))
    rw [← hw] at hw'
    obtain ⟨k, hk⟩ : ∃ k : Nat, k = if w < 5 then len' - 1 else len' - 1 - (w - 4) := ⟨_, rfl⟩
    have hday := weekdayOf_eq (a + k)
    refine ⟨k, by split_ifs at hk <;> omega, ?_⟩
    simp only [monthDayMatches, Bool.and_eq_true, Bool.or_eq_true, decide_eq_true_eq, beq_iff_eq]
    split_ifs at hk <;> omega
  | nth n want =>
    have hn := hon n want rfl
    simp only [monthDayMatches, Bool.and_eq_true, beq_iff_eq] at hfits
    have hwant : want < 7 := by
      have := weekdayOf_eq d
      omega
    by_cases hpos : 0 < n
    · obtain ⟨k, hk, hday⟩ := exists_weekday (a + 7 * (n - 1)) hwant
      refine ⟨7 * (n - 1).toNat + k, by omega, ?_⟩
      have hcast : a + ((7 * (n - 1).toNat + k : Nat) : Int) = a + 7 * (n - 1) + k := by omega
      rw [hcast, monthDayMatches, hday]
      simp only [hpos, beq_self_eq_true, Bool.true_and, if_true, beq_iff_eq]
      omega
    · obtain ⟨k, hk, hday⟩ := exists_weekday (a + (len' - 7)) hwant
      refine ⟨len' - 7 + k, by omega, ?_⟩
      have hcast : a + ((len' - 7 + k : Nat) : Int) = a + (len' - 7) + k := by omega
      rw [hcast, monthDayMatches, hday]
      simp only [hpos, beq_self_eq_true, Bool.true_and, if_false, decide_eq_true_eq]
      omega

/-- The number of a week: one less from the epoch's second week on. -/
theorem weekOf_eq (x : Int) :
    weekOf x = if 1 ≤ (x + 3) / 7 then (x + 3) / 7 - 1 else (x + 3) / 7 := by
  have hday := weekdayOf_eq x
  unfold weekOf
  split_ifs with h
  · rw [Int.tdiv_eq_ediv_of_nonneg (by omega)]
    omega
  · have hneg : x - weekdayOf x = -(weekdayOf x - x) := by omega
    rw [hneg, Int.neg_tdiv, Int.tdiv_eq_ediv_of_nonneg (by omega)]
    omega

/-- A count of weeks back is that many weeks, or one more across the epoch. -/
theorem exists_weeksBack (e : Int) (hn : 0 < n) :
    ∃ c, e - 7 * (n + 1) ≤ c ∧ c < e ∧ weekdayOf c = weekdayOf e ∧ weekOf c = weekOf e - n := by
  obtain ⟨c, hc⟩ : ∃ c, c = if 1 ≤ (e + 3) / 7 ∧ (e + 3) / 7 - n ≤ 0 then e - 7 * (n + 1)
    else e - 7 * n := ⟨_, rfl⟩
  refine ⟨c, by omega, by omega, ?_, ?_⟩
  · unfold weekdayOf
    omega
  · rw [weekOf_eq, weekOf_eq]
    split_ifs at hc ⊢ <;> omega

/-! ### Regular rules -/

/-- What the grammar makes sure of. -/
structure Rule.Regular (rule : Rule) : Prop where
  interval_le : rule.interval ≤ 99
  /-- A counted rule is not limited to some months, and says when it starts. -/
  counted : 1 < rule.interval → rule.months = allMonths ∧ rule.starting.isSome = true
  /-- A rule fires on the day it starts. -/
  starts : ∀ s, rule.starting = some s → dayMatches rule s = true
  common : rule.on.Common

theorem allMonths_getLsbD (hk : k < 12) : allMonths.getLsbD k = true := by
  interval_cases k <;> rfl

/-- A day of another month fits as a day of this one does, given the mask and the phase. -/
theorem Fits.of_month (h : Fits rule e) (hon : rule.on.Common)
    (hmonth : rule.months.getLsbD (i % 12).toNat = true) (hfirst : firstDay ≤ firstOfMonth i)
    (hlast : firstOfMonth (i + 1) ≤ lastDay)
    (hphase : ∀ k < monthLength i, inPhase rule (firstOfMonth i + k) (i / 12)
      (i % 12 + 1).toNat = true) :
    ∃ k < monthLength i, Fits rule (firstOfMonth i + k) := by
  obtain ⟨k, hk, hfits⟩ : ∃ k < monthLength i, (match rule.freq with
      | .daily => true
      | .weekly => rule.weekdays.getLsbD (weekdayOf (firstOfMonth i + k))
      | .monthly => monthDayMatches rule.on (k + 1) (weekdayOf (firstOfMonth i + k))
          (monthLength i)) = true := by
    have hfits := h.fits
    obtain ⟨-, h28, -⟩ := daysInMonth_index i
    cases hfreq : rule.freq with
    | daily => exact ⟨0, by omega, rfl⟩
    | weekly =>
      rw [hfreq] at hfits
      have hday := weekdayOf_eq e
      obtain ⟨k, hk, hsame⟩ := exists_weekday (firstOfMonth i) (w := weekdayOf e) (by omega)
      refine ⟨k, by omega, ?_⟩
      rw [hsame]
      exact hfits
    | monthly =>
      rw [hfreq] at hfits
      exact exists_monthDay hon (isDate_civilFromDays e).1.day_pos hfits i
  have hsucc := firstOfMonth_succ i
  refine ⟨k, hk, ⟨by omega, by omega⟩, ?_, ?_, ?_⟩
  · rw [monthOf_firstOfMonth hk]
    exact hmonth
  · rw [monthOf_firstOfMonth hk, civilFromDays_month hk]
    exact hfits
  · rw [civilFromDays_month hk]
    exact hphase k hk

theorem Fits.monthsBack (h : Fits rule e) (hon : rule.on.Common) (hn : 0 < n)
    (hrange : firstDay ≤ e - 31 * (n + 1))
    (hmonth : rule.months.getLsbD ((monthOf e - n) % 12).toNat = true)
    (hphase : ∀ d, inPhase rule d ((monthOf e - n) / 12) ((monthOf e - n) % 12 + 1).toNat = true) :
    ∃ c, e - 31 * (n + 1) ≤ c ∧ c < e ∧ Fits rule c := by
  obtain ⟨-, h28, -⟩ := daysInMonth_index (monthOf e - n)
  have hfirst := firstOfMonth_back (e := e) (k := 0) hn (by omega)
  have hend := firstOfMonth_back (e := e) (k := monthLength (monthOf e - n) - 1) hn (by omega)
  have hsucc := firstOfMonth_succ (monthOf e - n)
  obtain ⟨k, hk, hfits⟩ := h.of_month hon hmonth (by omega) (by have := h.range.2; omega)
    fun k _ => hphase _
  exact ⟨_, (firstOfMonth_back hn hk).1, (firstOfMonth_back hn hk).2, hfits⟩

theorem getLsbD_of_all (hall : rule.months = allMonths) (i : Int) :
    rule.months.getLsbD (i % 12).toNat = true := by
  rw [hall]
  exact allMonths_getLsbD (by omega)

theorem inPhase_counted {s y : Int} {m : Nat} (hcount : 1 < rule.interval)
    (hs : rule.starting = some s) :
    inPhase rule d y m = match rule.freq with
      | .daily => (d - s) % (rule.interval : Int) == 0
      | .weekly => (weekOf d - weekOf s) % (rule.interval : Int) == 0
      | .monthly => match civil s with
        | none => false
        | some (sy, sm, _) => (y * 12 + m - (sy * 12 + sm)) % (rule.interval : Int) == 0 := by
  have hmany : ¬ rule.interval ≤ 1 := by omega
  cases hfreq : rule.freq with
  | daily | weekly => simp [inPhase, hmany, hs, hfreq]
  | monthly => cases hcivil : civil s <;> simp [inPhase, hmany, hs, hfreq, hcivil]

theorem sub_emod_self {a n : Int} (h : a % n = 0) : (a - n) % n = 0 := by
  rw [Int.sub_emod_right, h]

/-- **Before a day that fits there is another one**, no further back than the horizon. -/
theorem Fits.earlier (h : Fits rule e) (hr : rule.Regular) (hrange : firstDay ≤ e - horizonDays) :
    ∃ c, e - horizonDays ≤ c ∧ c < e ∧ Fits rule c := by
  have hle := hr.interval_le
  have hlast := h.range.2
  unfold horizonDays at *
  by_cases hcount : 1 < rule.interval
  case neg =>
    -- the same month a year before
    have hmask := h.month
    rw [show monthOf e % 12 = (monthOf e - (12 : Nat)) % 12 by omega] at hmask
    obtain ⟨c, hc, hlt, hfits⟩ := h.monthsBack hr.common (by decide) (by omega) hmask fun d => by
      rw [inPhase, if_pos (by omega)]
    exact ⟨c, by omega, hlt, hfits⟩
  case pos =>
    obtain ⟨hall, hstarts⟩ := hr.counted hcount
    obtain ⟨s, hs⟩ := Option.isSome_iff_exists.mp hstarts
    have hphase := h.phase
    have hday := h.fits
    rw [inPhase_counted hcount hs] at hphase
    cases hfreq : rule.freq with
    | daily =>
      rw [hfreq] at hphase
      simp only [beq_iff_eq] at hphase
      refine ⟨e - rule.interval, by omega, by omega, by omega, getLsbD_of_all hall _, ?_, ?_⟩
      · rw [hfreq]
      · rw [inPhase_counted hcount hs, hfreq]
        simp only [beq_iff_eq]
        rw [sub_right_comm]
        exact sub_emod_self hphase
    | weekly =>
      rw [hfreq] at hphase hday
      simp only [beq_iff_eq] at hphase hday
      obtain ⟨c, hc, hlt, hweekday, hweek⟩ := exists_weeksBack e (n := rule.interval) (by omega)
      refine ⟨c, by omega, hlt, by omega, getLsbD_of_all hall _, ?_, ?_⟩
      · rw [hfreq]
        rw [hweekday]
        exact hday
      · rw [inPhase_counted hcount hs, hfreq]
        simp only [beq_iff_eq]
        rw [hweek, sub_right_comm]
        exact sub_emod_self hphase
    | monthly =>
      obtain ⟨c, hc, hlt, hfits⟩ := h.monthsBack hr.common (n := rule.interval) (by omega)
        (by omega) (getLsbD_of_all hall _) fun d => by
          rw [inPhase_counted hcount hs, hfreq]
          rw [hfreq] at hphase
          cases hcivil : civil s with
          | none =>
            rw [hcivil] at hphase
            cases hphase
          | some c =>
            obtain ⟨sy, sm, sd⟩ := c
            rw [hcivil] at hphase
            simp only [beq_iff_eq] at hphase ⊢
            have hmonths : (monthOf e - rule.interval) / 12 * 12 +
                ((monthOf e - rule.interval) % 12 + 1).toNat - (sy * 12 + sm) =
                (civilFromDays e).1 * 12 + (civilFromDays e).2.1 - (sy * 12 + sm) -
                  rule.interval := by
              unfold monthOf
              omega
            rw [hmonths]
            exact sub_emod_self hphase
      exact ⟨c, by omega, hlt, hfits⟩

/-- Before every day that a regular rule matches, but the one it starts on, there is another one
within the horizon. -/
theorem Rule.Regular.earlier (hr : rule.Regular) (he : dayMatches rule e = true)
    (hstart : ∀ s, rule.starting = some s → s < e) (hrange : firstDay ≤ e - horizonDays) :
    ∃ c, e - horizonDays ≤ c ∧ c < e ∧ dayMatches rule c = true := by
  obtain ⟨-, hthrough, hfits⟩ := dayMatches_iff.mp he
  obtain ⟨c, hc, hlt, hfits⟩ := hfits.earlier hr hrange
  by_cases hs : ∃ s, rule.starting = some s ∧ c < s
  · obtain ⟨s, hs, hcs⟩ := hs
    exact ⟨s, by omega, hstart s hs, hr.starts s hs⟩
  · refine ⟨c, hc, hlt, dayMatches_iff.mpr ⟨fun s hs' => ?_, fun t ht => ?_, hfits⟩⟩
    · by_contra hcs
      exact hs ⟨s, hs', by omega⟩
    · have := hthrough t ht
      omega

/-- **The horizon hides no occurrence**: there is no next one only when none is left. -/
theorem next_none_of_regular (hr : rule.Regular) {after u : Int}
    (hrange : firstDay * minutesPerDay ≤ after) (hans : next rule after = none)
    (hu : rule.Occurs u) : u ≤ after := by
  by_contra ha
  have hfrom : after / minutesPerDay + 1 ≤ scanFrom rule (after / minutesPerDay) ∧
      ∀ s, rule.starting = some s → s ≤ scanFrom rule (after / minutesPerDay) := by
    unfold scanFrom
    cases rule.starting with
    | none | some s => simp
  -- descend from day to day; each one is past the horizon, so each has one before it
  have hdescent : ∀ k : Nat, ∀ e, (e - scanFrom rule (after / minutesPerDay)).toNat = k →
      scanFrom rule (after / minutesPerDay) ≤ e → dayMatches rule e = true → False := by
    intro k
    induction k using Nat.strongRecOn with
    | _ k ih =>
      intro e hk hle he
      have hocc := occurs_add he hu.2
      have hpast := next_none hans hocc (by
        unfold minutesPerDay at *
        omega)
      have hday : (e * minutesPerDay + ((u % minutesPerDay).toNat : Int)) / minutesPerDay = e := by
        unfold minutesPerDay
        omega
      rw [hday] at hpast
      obtain ⟨c, hc, hlt, hmatch⟩ := hr.earlier he
        (fun s hs => by have := hfrom.2 s hs; unfold horizonDays at *; omega)
        (by unfold minutesPerDay at *; omega)
      exact ih _ (by omega) c rfl (by omega) hmatch
  refine hdescent _ _ rfl ?_ hu.1
  have hpast := next_none hans hu (by omega)
  unfold horizonDays at hpast
  omega

end Nife.Recurrence
