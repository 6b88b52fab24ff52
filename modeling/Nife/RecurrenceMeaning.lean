/-
What an accepted calendar line means.  `Rule.Spells` says which days a recurrence rule in the sense
of RFC 5545 names, in terms of the days around a day: the first weekday of a month is a weekday with
none before it in its month.  `dayMatches` computes this, except for a count of weeks that runs
across the epoch: its division truncates, so the week of 29 December 1969 and the one after it have
one number (`dayMatches_spells_iff`, `weeks_across_epoch`).

`next` is the successor function of the occurrences (`next_isLeast`).
-/
import Nife.RecurrenceGrammar

namespace Nife.Recurrence

open Calendar

/-! ### The days a rule names -/

def MonthDay.Names (on : MonthDay) (d : Int) : Prop :=
  match on with
  | .any => True
  | .days bits => ∃ k ≤ 28, bits.getLsbD k = true ∧ d = firstOfMonth (monthOf d) + k - 1
  | .lastDay => monthOf (d + 1) ≠ monthOf d
  | .firstWeekday => weekdayOf d < 5 ∧ ∀ e < d, monthOf e = monthOf d → 5 ≤ weekdayOf e
  | .lastWeekday => weekdayOf d < 5 ∧ ∀ e > d, monthOf e = monthOf d → 5 ≤ weekdayOf e
  | .nth n want => weekdayOf d = want ∧
      if 0 < n then monthOf (d - 7 * (n - 1)) = monthOf d ∧ monthOf (d - 7 * n) ≠ monthOf d
      else monthOf (d + 7) ≠ monthOf d

/-- The Monday of a day's week. -/
def mondayOf (d : Int) : Int := d - weekdayOf d

/-- A count divides the days, weeks or months between two days. -/
def Freq.Divides (freq : Freq) (n : Nat) (s d : Int) : Prop :=
  match freq with
  | .daily => (n : Int) ∣ d - s
  | .weekly => (7 * n : Int) ∣ mondayOf d - mondayOf s
  | .monthly => (n : Int) ∣ monthOf d - monthOf s

/-- The days of a rule but for its count. -/
structure Rule.Selects (rule : Rule) (d : Int) : Prop where
  starting : ∀ s, rule.starting = some s → s ≤ d
  through : ∀ t, rule.through = some t → d ≤ t
  month : rule.months.getLsbD (monthOf d % 12).toNat = true
  day : match rule.freq with
    | .daily => True
    | .weekly => rule.weekdays.getLsbD (weekdayOf d) = true
    | .monthly => rule.on.Names d

/-- The days of a rule. -/
structure Rule.Spells (rule : Rule) (d : Int) : Prop extends rule.Selects d where
  interval : 1 < rule.interval → ∃ s, rule.starting = some s ∧ rule.freq.Divides rule.interval s d

variable {d e : Int} {rule : Rule}

/-- The days of a month are those of its length from its first one on. -/
theorem monthOf_eq_iff : monthOf e = monthOf d ↔
    firstOfMonth (monthOf d) ≤ e ∧ e < firstOfMonth (monthOf d) + monthLength (monthOf d) := by
  constructor
  · intro heq
    obtain ⟨k, hk, he, -⟩ := monthOf_spec e
    rw [heq] at hk he
    omega
  · rintro ⟨hfirst, hlt⟩
    obtain ⟨k, rfl⟩ := Int.le.dest hfirst
    exact monthOf_firstOfMonth (by omega)

theorem monthDayMatches_iff (on : MonthDay) (d : Int) :
    monthDayMatches on (civilFromDays d).2.2 (weekdayOf d) (monthLength (monthOf d)) = true ↔
      on.Names d := by
  obtain ⟨k, hk, hd, hcivil⟩ := monthOf_spec d
  obtain ⟨-, h28, h31⟩ := daysInMonth_index (monthOf d)
  have hday := weekdayOf_eq d
  rw [hcivil]
  cases on with
  | any => simp [monthDayMatches, MonthDay.Names]
  | days bits =>
    simp only [monthDayMatches, MonthDay.Names, Bool.and_eq_true, decide_eq_true_eq]
    constructor
    · rintro ⟨hle, hbit⟩
      exact ⟨k + 1, hle, hbit, by omega⟩
    · rintro ⟨dom, hle, hbit, hdom⟩
      obtain rfl : k + 1 = dom := by omega
      exact ⟨hle, hbit⟩
  | lastDay =>
    rw [MonthDay.Names, ne_eq, monthOf_eq_iff, monthDayMatches, beq_iff_eq]
    dsimp only
    omega
  | firstWeekday =>
    simp only [monthDayMatches, MonthDay.Names, monthOf_eq_iff, Bool.and_eq_true, Bool.or_eq_true,
      decide_eq_true_eq, beq_iff_eq]
    refine and_congr_right fun hweekday => ⟨fun hfirst e he hmonth => ?_, fun hnone => ?_⟩
    · have := weekdayOf_eq e
      omega
    · -- the day before is a Sunday or in another month, and so is the Friday before that
      have hbefore := hnone (d - 1)
      have hfriday := hnone (d - 3)
      have := weekdayOf_eq (d - 1)
      have := weekdayOf_eq (d - 3)
      omega
  | lastWeekday =>
    simp only [monthDayMatches, MonthDay.Names, monthOf_eq_iff, Bool.and_eq_true, Bool.or_eq_true,
      decide_eq_true_eq, beq_iff_eq]
    refine and_congr_right fun hweekday => ⟨fun hlast e he hmonth => ?_, fun hnone => ?_⟩
    · have := weekdayOf_eq e
      omega
    · have hafter := hnone (d + 1)
      have hmonday := hnone (d + 3)
      have := weekdayOf_eq (d + 1)
      have := weekdayOf_eq (d + 3)
      omega
  | nth n want =>
    simp only [monthDayMatches, MonthDay.Names, ne_eq, monthOf_eq_iff, Bool.and_eq_true, beq_iff_eq]
    refine and_congr_right fun _ => ?_
    split_ifs with hpos
    · rw [beq_iff_eq]
      omega
    · rw [decide_eq_true_eq]
      omega

/-- A day on which the division that truncates comes to bear: a count of weeks that starts before
the second week of 1970 has run across it, and the day is one of the rule's but for the count,
a multiple of the interval or one week more. -/
def Rule.CountedAcross (rule : Rule) (d : Int) : Prop :=
  rule.Selects d ∧ rule.freq = .weekly ∧ 1 < rule.interval ∧
    ∃ s, rule.starting = some s ∧ s < 4 ∧ 4 ≤ d ∧
      ((7 * rule.interval : Int) ∣ mondayOf d - mondayOf s ∨
        (7 * rule.interval : Int) ∣ mondayOf d - mondayOf s - 7)

theorem mondayOf_eq (d : Int) : mondayOf d = 7 * ((d + 3) / 7) - 3 := by
  have hd := weekdayOf_eq d
  unfold mondayOf
  omega

/-- The code's count of weeks: one too small where it starts before the second week of 1970 and
ends in it or after. -/
theorem weekOf_sub (s d : Int) (hle : s ≤ d) : 7 * (weekOf d - weekOf s) =
    if s < 4 ∧ 4 ≤ d then mondayOf d - mondayOf s - 7 else mondayOf d - mondayOf s := by
  rw [weekOf_eq, weekOf_eq, mondayOf_eq, mondayOf_eq]
  split_ifs <;> omega

theorem inPhase_iff (hcount : 1 < rule.interval) {s : Int} (hs : rule.starting = some s)
    (hrange : firstDay ≤ s ∧ s ≤ lastDay) (hle : s ≤ d) :
    inPhase rule d (civilFromDays d).1 (civilFromDays d).2.1 = true ↔
      if rule.freq = .weekly ∧ s < 4 ∧ 4 ≤ d then
        (7 * rule.interval : Int) ∣ mondayOf d - mondayOf s - 7
      else rule.freq.Divides rule.interval s d := by
  rw [inPhase_counted hcount hs]
  cases hfreq : rule.freq with
  | daily =>
    rw [beq_iff_eq, if_neg fun h => nomatch h.1]
    exact Int.dvd_iff_emod_eq_zero.symm
  | weekly =>
    have hweeks := weekOf_sub s d hle
    rw [beq_iff_eq, ← Int.dvd_iff_emod_eq_zero, ← Int.mul_dvd_mul_iff_left (by decide : (7 : Int) ≠ 0),
      hweeks, Freq.Divides]
    by_cases hacross : s < 4 ∧ 4 ≤ d
    · simp [hacross]
    · simp [hacross]
  | monthly =>
    have hmonths : (civilFromDays d).1 * 12 + (civilFromDays d).2.1 -
        ((civilFromDays s).1 * 12 + (civilFromDays s).2.1) = monthOf d - monthOf s := by
      unfold monthOf
      omega
    rw [civil_eq, if_pos hrange]
    dsimp only
    rw [beq_iff_eq, hmonths, if_neg fun h => nomatch h.1]
    exact Int.dvd_iff_emod_eq_zero.symm

theorem dayMatches_iff_selects (hrange : firstDay ≤ d ∧ d ≤ lastDay) :
    dayMatches rule d = true ↔
      rule.Selects d ∧ inPhase rule d (civilFromDays d).1 (civilFromDays d).2.1 = true := by
  rw [dayMatches_iff]
  constructor
  · rintro ⟨hstarting, hthrough, hfits⟩
    refine ⟨⟨hstarting, hthrough, hfits.month, ?_⟩, hfits.phase⟩
    have hday := hfits.fits
    revert hday
    cases rule.freq <;> simp [monthDayMatches_iff]
  · rintro ⟨h, hphase⟩
    refine ⟨h.starting, h.through, hrange, h.month, ?_, hphase⟩
    have hday := h.day
    revert hday
    cases rule.freq <;> simp [monthDayMatches_iff]

/-- **A line means its rule** on every day of the calendar, but for exactly those on which a count of
weeks has run across the second week of 1970. -/
theorem dayMatches_spells_iff (text command : Text)
    (hparse : parse text = .ok (.calendar rule command)) (d : Int)
    (hrange : firstDay ≤ d ∧ d ≤ lastDay) :
    (dayMatches rule d = true ↔ rule.Spells d) ↔ ¬ rule.CountedAcross d := by
  have hr := parse_regular hparse
  have hspells : rule.Spells d ↔ rule.Selects d ∧
      (1 < rule.interval → ∃ s, rule.starting = some s ∧ rule.freq.Divides rule.interval s d) :=
    ⟨fun h => ⟨h.toSelects, h.interval⟩, fun h => ⟨h.1, h.2⟩⟩
  rw [dayMatches_iff_selects hrange, hspells, and_congr_right_iff, Rule.CountedAcross, not_and]
  refine forall_congr' fun hselects => ?_
  by_cases hcount : 1 < rule.interval
  · obtain ⟨s, hs⟩ := Option.isSome_iff_exists.mp (hr.counted hcount).2
    have hstart := (dayMatches_iff.mp (hr.starts s hs)).2.2.range
    rw [inPhase_iff hcount hs hstart (hselects.starting s hs)]
    by_cases hacross : rule.freq = .weekly ∧ s < 4 ∧ 4 ≤ d
    · rw [if_pos hacross]
      -- the count and one less cannot both be multiples of the interval
      have hboth : (7 * rule.interval : Int) ∣ mondayOf d - mondayOf s →
          (7 * rule.interval : Int) ∣ mondayOf d - mondayOf s - 7 → False := by
        intro hcounted hless
        have hdiff : (7 * rule.interval : Int) ∣ 7 := by simpa using Int.dvd_sub hcounted hless
        have hseven := Int.le_of_dvd (by decide) hdiff
        omega
      simp only [hacross, hcount, hs, Freq.Divides, forall_const, true_and, Option.some.injEq,
        exists_eq_left']
      tauto
    · rw [if_neg hacross]
      simp only [hcount, hs, forall_const, true_and, Option.some.injEq, exists_eq_left', true_iff]
      tauto
  · simp [inPhase, hcount, Nat.le_of_not_lt hcount]

/-- Every other week from Monday, 29 December 1969 on. -/
def fortnightly : Rule :=
  { plain with
    freq := .weekly, interval := 2, weekdays := 1, hours := 4, minutes := 1, starting := some (-3) }

theorem parse_fortnightly : parse "2 weeks on mon starting 1969-12-29 at 02:00 x".toList =
      .ok (.calendar fortnightly " x".toList) := by decide +kernel

/-- The rule starts on its first day. -/
theorem dayMatches_spells_iff_start : dayMatches fortnightly (-3) = true ∧ fortnightly.Spells (-3) := by
  have hmatches : dayMatches fortnightly (-3) = true := by decide +kernel
  refine ⟨hmatches, ((dayMatches_spells_iff _ _ parse_fortnightly (-3) (by decide)).mpr ?_).mp hmatches⟩
  rintro ⟨-, -, -, s, -, -, hfrom, -⟩
  exact absurd hfrom (by decide)

/-- **Weeks are miscounted across the epoch**: the rule fires one week after it starts, and not two
weeks after. -/
theorem weeks_across_epoch : parse "2 weeks on mon starting 1969-12-29 at 02:00 x".toList =
        .ok (.calendar fortnightly " x".toList) ∧
      (dayMatches fortnightly 4 = true ∧ ¬ fortnightly.Spells 4) ∧
      dayMatches fortnightly 11 = false ∧ fortnightly.Spells 11 := by
  refine ⟨parse_fortnightly, ⟨by decide +kernel, fun h => ?_⟩, by decide +kernel, ?_⟩
  · obtain ⟨s, hs, hdvd⟩ := h.interval (by decide)
    cases hs
    exact absurd hdvd (by decide : ¬ (14 : Int) ∣ 7)
  · refine ⟨⟨?_, ?_, by decide +kernel, (by decide : (1#8).getLsbD 0 = true)⟩,
      fun _ => ⟨-3, rfl, (by decide : (14 : Int) ∣ 14)⟩⟩
    · rintro s ⟨⟩
      decide
    · rintro t ⟨⟩

/-! ### The next occurrence is the successor -/

theorem Rule.Regular.starting_le {first : Int} (hr : rule.Regular)
    (hs : rule.starting = some first) : first ≤ lastDay :=
  (dayMatches_iff.mp (hr.starts first hs)).2.2.range.2

/-- **`next` is the successor**: from any minute of the calendar it answers the least occurrence
after it, and nothing only when none is left.  Every day it examines is far inside 64 bits, counted
in seconds. -/
theorem next_isLeast (text command : Text) (hparse : parse text = .ok (.calendar rule command))
    (after : Int) (hfirst : firstDay * minutesPerDay ≤ after)
    (hlast : after < (lastDay + 1) * minutesPerDay) :
    (∀ t, next rule after = some t ↔ IsLeast {u | rule.Occurs u ∧ after < u} t) ∧
      (next rule after = none ↔ ∀ u, rule.Occurs u → u ≤ after) ∧
      ∀ d, after / minutesPerDay ≤ d → d ≤ scanFrom rule (after / minutesPerDay) + horizonDays + 1 →
        -2 ^ 62 < d * 86400 ∧ d * 86400 < 2 ^ 62 := by
  have hr := parse_regular hparse
  have hnone : next rule after = none → ∀ u, rule.Occurs u → u ≤ after := fun hans u hu =>
    next_none_of_regular hr hfirst hans hu
  have hleast : ∀ t, next rule after = some t → IsLeast {u | rule.Occurs u ∧ after < u} t := by
    intro t hans
    obtain ⟨hocc, hlt, hleast⟩ := next_some hans
    exact ⟨⟨hocc, hlt⟩, fun u hu => hleast u hu.1 hu.2⟩
  refine ⟨fun t => ⟨hleast t, fun ht => ?_⟩, ⟨hnone, fun hall => ?_⟩, fun d hd hend => ?_⟩
  · cases hans : next rule after with
    | none => exact absurd (hnone hans t ht.1.1) (not_le.mpr ht.1.2)
    | some u => rw [(hleast u hans).unique ht]
  · cases hans : next rule after with
    | none => rfl
    | some u => exact absurd (hall u (hleast u hans).1.1) (not_le.mpr (hleast u hans).1.2)
  · have hstart : scanFrom rule (after / minutesPerDay) ≤ lastDay + 1 := by
      unfold scanFrom minutesPerDay at *
      cases hs : rule.starting with
      | none =>
        dsimp only
        omega
      | some first =>
        have := hr.starting_le hs
        exact max_le (by omega) (by omega)
    have hfirstDay : firstDay = -719528 := by decide
    have hlastDay : lastDay = 2932896 := by decide
    unfold minutesPerDay horizonDays at *
    omega

/-- From the first minute of 1970, `every day at 02:00` next fires two hours later. -/
theorem next_isLeast_daily : IsLeast {u | Rule.Occurs { plain with hours := 4, minutes := 1 } u ∧
    0 < u} 120 :=
  ((next_isLeast "day at 02:00 demo".toList " demo".toList (by decide +kernel) 0 (by decide)
    (by decide)).1 120).mp (by decide +kernel)

end Nife.Recurrence
