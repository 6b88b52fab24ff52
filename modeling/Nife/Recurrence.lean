/-
Calendar rules and their occurrences.  A rule says on which days it fires (`dayMatches`) and at
which times of such a day, by a mask of hours and one of minutes; `next` searches day by day for
the first occurrence after a minute.  A minute is a count of whole UTC minutes since the epoch.

Main results: `next_some`, that the answer is the first occurrence after the given minute, and
`next_none`, that without an answer no occurrence lies within the horizon.
-/
import Nife.Calendar
import Nife.Lib.BitSet

namespace Nife.Recurrence

open Calendar

/-! ### Rules -/

def minutesPerDay : Int := 1440

def horizonDays : Int := 99 * 31 + 62

/-- How often a rule fires. -/
inductive Freq
  | daily | weekly | monthly
  deriving DecidableEq, Repr

/-- Which days of a month a monthly rule fires on. -/
inductive MonthDay
  | any
  | days (bits : BitVec 32)
  | lastDay | firstWeekday | lastWeekday
  /-- The `n`-th weekday `dow` of the month, or the last one for a negative `n`. -/
  | nth (n : Int) (dow : Nat)
  deriving DecidableEq, Repr

/-- A rule of the calendar. -/
structure Rule where
  freq : Freq
  interval : Nat
  weekdays : BitVec 8
  on : MonthDay
  months : BitVec 16
  hours : BitVec 32
  minutes : BitVec 64
  (starting through : Option Int)
  deriving DecidableEq, Repr

def allDays : BitVec 8 := 0x7f

def weekdays : BitVec 8 := 0x1f

def weekend : BitVec 8 := 0x60

def allMonths : BitVec 16 := 0x0fff

/-! ### Days -/

/-- The day of the week, Monday 0 to Sunday 6. -/
def weekdayOf (d : Int) : Nat := ((d + 3) % 7).toNat

/-- The year, month and day of a day number, in the calendar's range.  The source's checked
multiplication fails far outside that range only. -/
def civil (d : Int) : Option (Int × Nat × Nat) :=
  match Civil.fromUnix (d * 86400) with
  | .ok c => some (c.year, c.month, c.day)
  | .error _ => none

def dayNumber (year : Int) (month day : Nat) : Option Int :=
  match Civil.new year month day 0 0 0 with
  | .ok c => some c.daysSinceEpoch
  | .error _ => none

def monthDayMatches (on : MonthDay) (dom dow monthLen : Nat) : Bool :=
  match on with
  | .any => true
  | .days bits => dom ≤ 28 && bits.getLsbD dom
  | .lastDay => dom == monthLen
  | .firstWeekday => dow < 5 && (dom == 1 || (dom ≤ 3 && dow == 0))
  | .lastWeekday => dow < 5 && (dom == monthLen || (monthLen ≤ dom + 2 && dow == 4))
  | .nth n want => dow == want &&
      if 0 < n then (dom - 1) / 7 + 1 == n.toNat else monthLen < dom + 7

/-- The week of a day, by its Monday.  The division truncates. -/
def weekOf (x : Int) : Int := (x - weekdayOf x).tdiv 7

section

variable (rule : Rule)

/-- Is the day in the phase of a counted rule, which `starting` fixes? -/
def inPhase (d year : Int) (month : Nat) : Bool :=
  if rule.interval ≤ 1 then true
  else match rule.starting with
    | none => false
    | some s =>
        let n : Int := rule.interval
        match rule.freq with
        | .daily => (d - s) % n == 0
        | .weekly => (weekOf d - weekOf s) % n == 0
        | .monthly =>
            match civil s with
            | none => false
            | some (sy, sm, _) => (year * 12 + month - (sy * 12 + sm)) % n == 0

/-- Whether a rule fires on a day. -/
def dayMatches (d : Int) : Bool :=
  if rule.starting.any (fun s => d < s) || rule.through.any (fun t => t < d) then false
  else match civil d with
    | none => false
    | some (year, month, dom) =>
        if rule.months.getLsbD (month - 1) = false then false
        else
          let dow := weekdayOf d
          let fits := match rule.freq with
            | .daily => true
            | .weekly => rule.weekdays.getLsbD dow
            | .monthly => monthDayMatches rule.on dom dow ((daysInMonth year month).getD 31)
          fits && inPhase rule d year month

/-! ### Times of day -/

/-- The minutes of an hour that are after `floor`. -/
def usable (minutes : BitVec 64) (floor : Int) : BitVec 64 :=
  if floor < 0 then minutes
  else if 59 ≤ floor then 0
  else minutes &&& ~~~(BitSet.below 64 (floor.toNat + 1))

/-- The search of `nextTime` from hour `h` on, for `left` hours. -/
def nextTimeFrom (hours : BitVec 32) (minutes : BitVec 64) (after : Int) : Nat → Nat → Option Nat
  | 0, _ => none
  | left + 1, h =>
      if hours.getLsbD h ∧ usable minutes (after - h * 60) ≠ 0 then
        some (h * 60 + (usable minutes (after - h * 60)).ctz.toNat)
      else nextTimeFrom hours minutes after left (h + 1)

/-- The first time of day after minute `after`, which is -1 for the start of the day. -/
def nextTime (hours : BitVec 32) (minutes : BitVec 64) (after : Int) : Option Nat :=
  let minutes := minutes &&& BitSet.below 64 60
  let h := if after < 0 then 0 else (after / 60).toNat
  nextTimeFrom hours minutes after (24 - h) h

/-! ### The next occurrence -/

/-- The search of `next` for a matching day, for `left` days from `d` on. -/
def scan (rule : Rule) : Nat → Int → Option Int
  | 0, _ => none
  | left + 1, d =>
      if rule.through.any (fun t => t < d) then none
      else if dayMatches rule d then some d
      else scan rule left (d + 1)

/-- The first day after `day` that `next` searches. -/
def scanFrom (day : Int) : Int :=
  match rule.starting with
  | some s => max (day + 1) s
  | none => day + 1

/-- The first occurrence after a minute, if there is one within the horizon. -/
def next (after : Int) : Option Int :=
  let day := after / minutesPerDay
  let minute := after % minutesPerDay
  match (if dayMatches rule day then nextTime rule.hours rule.minutes minute else none) with
  | some t => some (day * minutesPerDay + t)
  | none =>
      match nextTime rule.hours rule.minutes (-1) with
      | none => none
      | some first =>
          (scan rule (horizonDays + 1).toNat (scanFrom rule day)).map
            fun d => d * minutesPerDay + first

def Rule.IsTime (t : Nat) : Prop :=
  t < 1440 ∧ rule.hours.getLsbD (t / 60) = true ∧ rule.minutes.getLsbD (t % 60) = true

def Rule.Occurs (t : Int) : Prop :=
  dayMatches rule (t / minutesPerDay) = true ∧ rule.IsTime (t % minutesPerDay).toNat

end

variable {rule : Rule} {after d t u : Int}

/-! ### The search within a day -/

variable {left m h : Nat} {minutes : BitVec 64} {hours : BitVec 32}

theorem getLsbD_usable (minutes : BitVec 64) (floor : Int) (hm : m < 60) :
    (usable (minutes &&& BitSet.below 64 60) floor).getLsbD m =
      (minutes.getLsbD m && decide (floor < m)) := by
  unfold usable
  split_ifs with hneg hlast
  · have : floor < m := by omega
    simp [BitSet.getLsbD_below, hm, this]
  · have : ¬floor < m := by omega
    simp [this]
  · have hbit : decide (m < floor.toNat + 1) = !decide (floor < m) := by
      by_cases h : floor < m
      all_goals simp [h]; omega
    rw [BitVec.getLsbD_and, BitVec.getLsbD_and, BitVec.getLsbD_not,
      BitSet.getLsbD_below (by decide), BitSet.getLsbD_below (by omega), hbit]
    simp [hm, show m < 64 by omega]

theorem lt_of_getLsbD_usable {floor : Int}
    (h : (usable (minutes &&& BitSet.below 64 60) floor).getLsbD m = true) : m < 60 := by
  by_contra hm
  unfold usable at h
  split_ifs at h <;> simp [BitSet.getLsbD_below, hm] at h

/-- **The search of the hours**: the answer is the first time listed after `after`, from the hour
`h` on. -/
theorem nextTimeFrom_some {t : Nat}
    (hans : nextTimeFrom hours (minutes &&& BitSet.below 64 60) after left h = some t) :
    (hours.getLsbD (t / 60) = true ∧ minutes.getLsbD (t % 60) = true ∧ after < t ∧
      t < (h + left) * 60) ∧
    ∀ u : Nat, h ≤ u / 60 → hours.getLsbD (u / 60) = true → minutes.getLsbD (u % 60) = true →
      after < u → t ≤ u := by
  induction left generalizing h with
  | zero => cases hans
  | succ left ih =>
    rw [nextTimeFrom] at hans
    split_ifs at hans with hhour
    · have hbit := BitVec.getLsbD_true_ctz_of_ne_zero hhour.2
      have hleast := fun i => @BitVec.getLsbD_false_of_lt_ctz 64 i
        (usable (minutes &&& BitSet.below 64 60) (after - h * 60))
      obtain ⟨m, hm⟩ : ∃ m, m =
        (usable (minutes &&& BitSet.below 64 60) (after - h * 60)).ctz.toNat := ⟨_, rfl⟩
      rw [← hm] at hbit hleast hans
      cases hans
      have hlt := lt_of_getLsbD_usable hbit
      rw [getLsbD_usable _ _ hlt, Bool.and_eq_true, decide_eq_true_eq] at hbit
      have hdiv : (h * 60 + m) / 60 = h := by omega
      have hmod : (h * 60 + m) % 60 = m := by omega
      rw [hdiv, hmod]
      refine ⟨⟨hhour.1, hbit.1, by push_cast; omega, by omega⟩, fun u hu hhours hminutes ha => ?_⟩
      by_contra hlt'
      -- an earlier time would be in the same hour, at a lower usable minute
      have := hleast (u % 60) (by omega)
      rw [getLsbD_usable _ _ (by omega), hminutes, Bool.true_and, decide_eq_false_iff_not] at this
      omega
    · obtain ⟨⟨h1, h2, h3, h4⟩, hleast⟩ := ih hans
      refine ⟨⟨h1, h2, h3, by omega⟩, fun u hu hhours hminutes ha => ?_⟩
      refine hleast u (Nat.lt_of_le_of_ne hu fun heq => hhour ⟨heq ▸ hhours, fun hzero => ?_⟩)
        hhours hminutes ha
      have := getLsbD_usable minutes (after - h * 60) (show u % 60 < 60 by omega)
      rw [hzero, hminutes] at this
      simp at this
      omega

theorem nextTimeFrom_none
    (hans : nextTimeFrom hours (minutes &&& BitSet.below 64 60) after left h = none) {u : Nat}
    (hu : h ≤ u / 60) (hlt : u / 60 < h + left) (hhours : hours.getLsbD (u / 60) = true)
    (hminutes : minutes.getLsbD (u % 60) = true) : (u : Int) ≤ after := by
  induction left generalizing h with
  | zero => omega
  | succ left ih =>
    rw [nextTimeFrom] at hans
    split_ifs at hans with hhour
    by_cases heq : h = u / 60
    · by_contra ha
      refine hhour ⟨heq ▸ hhours, fun hzero => ?_⟩
      have := getLsbD_usable minutes (after - h * 60) (show u % 60 < 60 by omega)
      rw [hzero, hminutes] at this
      simp at this
      omega
    · exact ih hans (by omega) (by omega)

theorem nextTime_some {t : Nat} (hans : nextTime rule.hours rule.minutes after = some t) :
    rule.IsTime t ∧ after < t ∧ ∀ u : Nat, rule.IsTime u → after < u → t ≤ u := by
  obtain ⟨⟨h1, h2, h3, h4⟩, hleast⟩ := nextTimeFrom_some hans
  refine ⟨⟨?_, h1, h2⟩, h3, fun u hu ha => hleast u ?_ hu.2.1 hu.2.2 ha⟩
  · split_ifs at h4 <;> omega
  · split_ifs <;> omega

theorem nextTime_none (hans : nextTime rule.hours rule.minutes after = none) {u : Nat}
    (hu : rule.IsTime u) : (u : Int) ≤ after := by
  by_contra ha
  obtain ⟨hlt, hhours, hminutes⟩ := hu
  refine ha (nextTimeFrom_none hans ?_ ?_ hhours hminutes) <;> split_ifs <;> omega

/-! ### The search of the days -/

theorem scan_some (hans : scan rule left d = some t) :
    dayMatches rule t = true ∧ d ≤ t ∧ ∀ u, dayMatches rule u = true → d ≤ u → t ≤ u := by
  induction left generalizing d with
  | zero => cases hans
  | succ left ih =>
    rw [scan] at hans
    split_ifs at hans with hthrough hday
    · cases hans
      exact ⟨hday, le_rfl, fun u _ hu => hu⟩
    · obtain ⟨hmatch, hle, hleast⟩ := ih hans
      refine ⟨hmatch, by omega, fun u hu hdu => hleast u hu ?_⟩
      exact lt_of_le_of_ne hdu fun heq => hday (heq ▸ hu)

theorem dayMatches_through (h : dayMatches rule d = true) :
    rule.through.any (fun t => decide (t < d)) = false := by
  unfold dayMatches at h
  split_ifs at h with hout
  · simp only [Bool.or_eq_true, not_or, Bool.not_eq_true] at hout
    exact hout.2

theorem dayMatches_starting {s : Int} (h : dayMatches rule d = true)
    (hs : rule.starting = some s) : s ≤ d := by
  unfold dayMatches at h
  split_ifs at h with hout
  · simp [hs] at hout
    exact hout.1

theorem scan_none (hans : scan rule left d = none) (hu : dayMatches rule u = true)
    (hdu : d ≤ u) : d + left ≤ u := by
  induction left generalizing d with
  | zero => simpa using hdu
  | succ left ih =>
    rw [scan] at hans
    split_ifs at hans with hthrough hday
    · have hend := dayMatches_through hu
      cases ht : rule.through with
      | none => simp [ht] at hthrough
      | some t =>
        simp [ht] at hthrough hend
        omega
    · have hlt : d < u := lt_of_le_of_ne hdu fun heq => hday (heq ▸ hu)
      have := ih hans (by omega)
      omega

/-! ### The next occurrence -/

theorem occurs_add {first : Nat} (hday : dayMatches rule d = true) (hfirst : rule.IsTime first) :
    rule.Occurs (d * minutesPerDay + first) := by
  have hlt := hfirst.1
  unfold Rule.Occurs minutesPerDay
  have hdiv : (d * 1440 + first) / 1440 = d := by omega
  have hmod : ((d * 1440 + first) % 1440).toNat = first := by omega
  rw [hdiv, hmod]
  exact ⟨hday, hfirst⟩

/-- When the day has no time left, the next occurrence is on a day that is searched. -/
theorem scanFrom_le (hleft : (if dayMatches rule (after / minutesPerDay) then
      nextTime rule.hours rule.minutes (after % minutesPerDay) else none) = none)
    (hu : rule.Occurs u) (ha : after < u) :
    scanFrom rule (after / minutesPerDay) ≤ u / minutesPerDay := by
  obtain ⟨hday, htime⟩ := hu
  have hlater : after / minutesPerDay + 1 ≤ u / minutesPerDay := by
    by_contra hsame
    have hsame : u / minutesPerDay = after / minutesPerDay := by
      unfold minutesPerDay at *
      omega
    rw [← hsame, if_pos hday] at hleft
    have := nextTime_none hleft htime
    unfold minutesPerDay at *
    omega
  unfold scanFrom
  cases hs : rule.starting with
  | none => exact hlater
  | some s => exact max_le hlater (dayMatches_starting hday hs)

/-- **The answer is the first occurrence after the given minute.** -/
theorem next_some (hans : next rule after = some t) :
    rule.Occurs t ∧ after < t ∧ ∀ u, rule.Occurs u → after < u → t ≤ u := by
  unfold next at hans
  dsimp only at hans
  split at hans
  case h_1 tod hleft =>
    cases hans
    split_ifs at hleft with hday
    obtain ⟨htime, hlt, hleast⟩ := nextTime_some hleft
    refine ⟨occurs_add hday htime, by unfold minutesPerDay at *; omega, fun u hu ha => ?_⟩
    by_cases hsame : u / minutesPerDay = after / minutesPerDay
    · have := hleast _ hu.2 (by unfold minutesPerDay at *; omega)
      unfold minutesPerDay at *
      omega
    · have := htime.1
      unfold minutesPerDay at *
      omega
  case h_2 hleft =>
    split at hans
    case h_1 => cases hans
    case h_2 first hfirst =>
      obtain ⟨d, hscan, rfl⟩ := Option.map_eq_some_iff.mp hans
      obtain ⟨htime, -, hfirst⟩ := nextTime_some hfirst
      obtain ⟨hday, hd, hleast⟩ := scan_some hscan
      have hstart : after / minutesPerDay + 1 ≤ scanFrom rule (after / minutesPerDay) := by
        unfold scanFrom
        split
        · exact le_max_left _ _
        · exact le_rfl
      refine ⟨occurs_add hday htime, by unfold minutesPerDay at *; omega, fun u hu ha => ?_⟩
      have hdu := hleast _ hu.1 (scanFrom_le hleft hu ha)
      have htu := hfirst _ hu.2 (by omega)
      unfold minutesPerDay at *
      omega

/-- **Without an answer, an occurrence after the given minute is past the horizon.** -/
theorem next_none (hans : next rule after = none) (hu : rule.Occurs u) (ha : after < u) :
    scanFrom rule (after / minutesPerDay) + horizonDays < u / minutesPerDay := by
  unfold next at hans
  dsimp only at hans
  split at hans
  case h_1 => cases hans
  case h_2 hleft =>
    split at hans
    case h_1 hfirst =>
      have := nextTime_none hfirst hu.2
      omega
    case h_2 first hfirst =>
      rw [Option.map_eq_none_iff] at hans
      have := scan_none hans hu.1 (scanFrom_le hleft hu ha)
      unfold horizonDays at *
      omega

end Nife.Recurrence
