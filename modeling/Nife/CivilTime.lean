/-
Unix time and civil dates.  `reading` is what `from_unix` reads off any second: a second later it is
greater in the derived order, and a day later it is tomorrow's.
-/
import Mathlib
import Nife.RecurrenceHorizon

namespace Nife.Calendar

open Recurrence Prod.Lex Civil

/-! ### Timestamps, weekdays and offsets -/

def Civil.toUnix (c : Civil) : Int :=
  daysFromCivil c.year c.month c.day * secsPerDay + c.hour * 3600 + c.minute * 60 + c.second

/-- The days of a week. -/
inductive Weekday
  | monday | tuesday | wednesday | thursday | friday | saturday | sunday
  deriving DecidableEq, Repr

def Weekday.fromDays (days : Int) : Weekday :=
  match ((days + 4) % 7).toNat with
  | 0 => .sunday
  | 1 => .monday
  | 2 => .tuesday
  | 3 => .wednesday
  | 4 => .thursday
  | 5 => .friday
  | _ => .saturday

def Civil.weekday (c : Civil) : Weekday := .fromDays c.daysSinceEpoch

/-- A fixed offset from UTC. -/
structure UtcOffset where
  minutes : Int
  bounds : -1440 < minutes ∧ minutes < 1440

def UtcOffset.seconds (o : UtcOffset) : Int := o.minutes * 60

/-- A civil time at an offset. -/
structure DateTime where
  civil : Civil
  offset : UtcOffset

def DateTime.fromUnix (secs : Int) (offset : UtcOffset) : Except Error DateTime :=
  let reading := secs + offset.seconds
  -- `checked_add`
  if reading < -2 ^ 63 ∨ 2 ^ 63 ≤ reading then .error .outOfRange
  else match Civil.fromUnix reading with
    | .ok civil => .ok { civil, offset }
    | .error e => .error e

def DateTime.toUnix (t : DateTime) : Int := t.civil.toUnix - t.offset.seconds

/-! ### What they are for -/

def Civil.Accepted (c : Civil) : Prop :=
  Civil.new c.year c.month c.day c.hour c.minute c.second = .ok c

/-- The derived order: field by field, the year first. -/
def Civil.key (c : Civil) : Int ×ₗ Nat ×ₗ Nat ×ₗ Nat ×ₗ Nat ×ₗ Nat :=
  toLex (c.year, toLex (c.month, toLex (c.day, toLex (c.hour, toLex (c.minute, c.second)))))

def Civil.tomorrow (c : Civil) : Civil :=
  if daysInMonth c.year c.month ≠ some c.day then { c with day := c.day + 1 }
  else if c.month < 12 then { c with month := c.month + 1, day := 1 }
  else { c with year := c.year + 1, month := 1, day := 1 }

def Weekday.next : Weekday → Weekday
  | .monday => .tuesday
  | .tuesday => .wednesday
  | .wednesday => .thursday
  | .thursday => .friday
  | .friday => .saturday
  | .saturday => .sunday
  | .sunday => .monday

/-- What `from_unix` reads, in its range or not. -/
def reading (secs : Int) : Civil where
  year := (civilFromDays (secs / secsPerDay)).1
  month := (civilFromDays (secs / secsPerDay)).2.1
  day := (civilFromDays (secs / secsPerDay)).2.2
  hour := (secs % secsPerDay / 3600).toNat
  minute := (secs % secsPerDay / 60 % 60).toNat
  second := (secs % secsPerDay % 60).toNat

variable {c : Civil} {t : Int}

theorem fromUnix_eq (t : Int) : fromUnix t =
    if t < minTimestamp ∨ maxTimestamp < t then .error .outOfRange else .ok (reading t) := rfl

theorem toUnix_reading (t : Int) : (reading t).toUnix = t := by
  unfold toUnix reading
  dsimp only
  rw [(isDate_civilFromDays _).2]
  unfold secsPerDay
  omega

theorem accepted_iff : c.Accepted ↔ (minYear ≤ c.year ∧ c.year ≤ maxYear) ∧
    IsDate c.year c.month c.day ∧ c.hour ≤ 23 ∧ c.minute ≤ 59 ∧ c.second ≤ 59 := by
  unfold Accepted new
  constructor
  · intro h
    rcases hlen : daysInMonth c.year c.month with - | len
    · rw [hlen] at h
      split_ifs at h
    · rw [hlen] at h
      dsimp only at h
      split_ifs at h with hyear hday hhour hminute hsecond
      have hmonth : 1 ≤ c.month ∧ c.month ≤ 12 := by
        unfold daysInMonth at hlen
        split at hlen <;> first | omega | cases hlen
      refine ⟨by omega, ⟨hmonth.1, hmonth.2, by omega, fun l hl => ?_⟩, by omega, by omega, by omega⟩
      cases hlen.symm.trans hl
      omega
  · rintro ⟨hyear, ⟨hpos, hle, hday, hlen⟩, hhour, hminute, hsecond⟩
    obtain ⟨len, hsome, -⟩ := daysInMonth_isSome (y := c.year) hpos hle
    have := hlen len hsome
    rw [if_neg (by omega), hsome]
    dsimp only
    rw [if_neg (by omega), if_neg (by omega), if_neg (by omega), if_neg (by omega)]

theorem reading_toUnix (hdate : IsDate c.year c.month c.day)
    (htime : c.hour ≤ 23 ∧ c.minute ≤ 59 ∧ c.second ≤ 59) : reading c.toUnix = c := by
  have hday : c.toUnix / secsPerDay = daysFromCivil c.year c.month c.day := by
    unfold toUnix secsPerDay
    omega
  have hsod : c.toUnix % secsPerDay = c.hour * 3600 + c.minute * 60 + c.second := by
    unfold toUnix secsPerDay
    omega
  unfold reading
  rw [hday, hsod, civilFromDays_daysFromCivil hdate]
  obtain ⟨y, m, d, hour, minute, second⟩ := c
  simp only [Civil.mk.injEq, true_and]
  dsimp only at htime
  omega

theorem add_day_ediv (t : Int) : (t + secsPerDay) / secsPerDay = t / secsPerDay + 1 := by
  unfold secsPerDay
  omega

/-- **A day later it is tomorrow.** -/
theorem reading_tomorrow (t : Int) : reading (t + secsPerDay) = (reading t).tomorrow := by
  obtain ⟨k, hk, hd, hcivil⟩ := monthOf_spec (t / secsPerDay)
  have hsod : (t + secsPerDay) % secsPerDay = t % secsPerDay := Int.add_emod_right ..
  generalize monthOf (t / secsPerDay) = i at *
  unfold reading tomorrow
  rw [add_day_ediv, hsod, hcivil]
  dsimp only
  rw [(daysInMonth_index i).1]
  by_cases hlast : k + 1 = monthLength i
  · -- the first of the next month
    have hlen := (daysInMonth_index (i + 1)).2.1
    have hnext := civilFromDays_month (i := i + 1) (k := 0) (by omega)
    rw [firstOfMonth_succ, ← hlast, Nat.cast_zero, add_zero, Nat.cast_succ, ← add_assoc, ← hd] at hnext
    rw [hnext, if_neg (by simp [hlast])]
    split
    all_goals
      simp only [Civil.mk.injEq, and_true]
      omega
  · have hnext := civilFromDays_month (i := i) (k := k + 1) (by omega)
    rw [Nat.cast_succ, ← add_assoc, ← hd] at hnext
    rw [hnext, if_pos (by simpa [eq_comm] using hlast)]

theorem key_lt_of_tomorrow {c' : Civil} (hyear : c'.year = c.tomorrow.year)
    (hmonth : c'.month = c.tomorrow.month) (hday : c'.day = c.tomorrow.day) : c.key < c'.key := by
  simp only [key, toLex_lt_toLex, hyear, hmonth, hday]
  unfold tomorrow
  split_ifs <;> simp

theorem key_strictMono : StrictMono fun t => (reading t).key := by
  refine strictMono_int_of_lt_succ fun t => ?_
  by_cases hday : (t + 1) / secsPerDay = t / secsPerDay
  · simp only [reading, key, hday, toLex_lt_toLex, lt_irrefl, false_or, true_and]
    unfold secsPerDay at *
    omega
  · -- the next second is on the next day
    have hsame : (t + 1) / secsPerDay = (t + secsPerDay) / secsPerDay := by
      unfold secsPerDay at *
      omega
    refine key_lt_of_tomorrow ?_ ?_ ?_ <;> rw [← reading_tomorrow] <;> simp only [reading, hsame]

theorem mem_range_iff : (minTimestamp ≤ t ∧ t ≤ maxTimestamp) ↔
    minYear ≤ (reading t).year ∧ (reading t).year ≤ maxYear := by
  have hmin : reading minTimestamp = ⟨0, 1, 1, 0, 0, 0⟩ := by decide
  have hmax : reading maxTimestamp = ⟨9999, 12, 31, 23, 59, 59⟩ := by decide
  obtain ⟨hpos, hmonth, hday, hlen⟩ := (isDate_civilFromDays (t / secsPerDay)).1
  obtain ⟨len, hsome, -, hle⟩ := daysInMonth_isSome hpos hmonth
  have := hlen len hsome
  rw [← key_strictMono.le_iff_le, ← key_strictMono.le_iff_le (b := maxTimestamp), hmin, hmax]
  simp only [key, toLex_le_toLex, reading, minYear, maxYear, secsPerDay] at *
  omega

theorem Weekday.fromDays_succ (n : Int) : fromDays (n + 1) = (fromDays n).next := by
  obtain ⟨r, hr, hlt⟩ : ∃ r : Nat, (n + 4) % 7 = r ∧ r < 7 :=
    ⟨((n + 4) % 7).toNat, by omega, by omega⟩
  have hnext : (n + 1 + 4) % 7 = ((r + 1) % 7 : Nat) := by omega
  rw [fromDays, fromDays, hnext, hr]
  interval_cases r <;> rfl

theorem weekday_reading (t : Int) : (reading t).weekday = .fromDays (t / secsPerDay) :=
  congrArg Weekday.fromDays (isDate_civilFromDays _).2

/-- In the range of the civil dates nothing overflows. -/
theorem DateTime.fromUnix_eq (offset : UtcOffset) (h : Civil.fromUnix (t + offset.seconds) = .ok c) :
    DateTime.fromUnix t offset = .ok ⟨c, offset⟩ := by
  have hrange : ¬ (t + offset.seconds < minTimestamp ∨ maxTimestamp < t + offset.seconds) := by
    intro hout
    rw [Calendar.fromUnix_eq, if_pos hout] at h
    cases h
  have hmin : minTimestamp = -62167219200 := by decide
  have hmax : maxTimestamp = 253402300799 := by decide
  rw [DateTime.fromUnix, if_neg (by omega), h]

/-- **Unix time and civil dates are in order-preserving bijection.** -/
theorem unix_civil_bijection : (∀ t, minTimestamp ≤ t → t ≤ maxTimestamp →
      ∃ c, Civil.fromUnix t = .ok c ∧ c.Accepted ∧ c.toUnix = t) ∧
    (∀ c : Civil, c.Accepted → Civil.fromUnix c.toUnix = .ok c) ∧
    (∀ t, (∃ e, Civil.fromUnix t = .error e) ↔ t < minTimestamp ∨ maxTimestamp < t) ∧
    (∀ c c' : Civil, c.Accepted → c'.Accepted → (c.key < c'.key ↔ c.toUnix < c'.toUnix)) ∧
    (∀ t c c', Civil.fromUnix t = .ok c → Civil.fromUnix (t + secsPerDay) = .ok c' →
      c' = c.tomorrow ∧ c'.weekday = c.weekday.next) ∧
    (∀ t (offset : UtcOffset), minTimestamp ≤ t + offset.seconds →
      t + offset.seconds ≤ maxTimestamp → ∃ civil, civil.Accepted ∧
        DateTime.fromUnix t offset = .ok ⟨civil, offset⟩ ∧ DateTime.toUnix ⟨civil, offset⟩ = t) ∧
    ∀ dt : DateTime, dt.civil.Accepted → DateTime.fromUnix dt.toUnix dt.offset = .ok dt := by
  have hread : ∀ c : Civil, c.Accepted → reading c.toUnix = c := fun c hc =>
    reading_toUnix (accepted_iff.mp hc).2.1 (accepted_iff.mp hc).2.2
  have hinv : ∀ c : Civil, c.Accepted → Civil.fromUnix c.toUnix = .ok c := by
    intro c hc
    have hrange := (mem_range_iff (t := c.toUnix)).mpr (by rw [hread c hc]; exact (accepted_iff.mp hc).1)
    rw [fromUnix_eq, if_neg (by omega), hread c hc]
  have hfrom : ∀ t c, Civil.fromUnix t = .ok c → reading t = c := by
    intro t c h
    rw [fromUnix_eq] at h
    split_ifs at h
    exact Except.ok.inj h
  have hacc : ∀ t, minTimestamp ≤ t → t ≤ maxTimestamp →
      Civil.fromUnix t = .ok (reading t) ∧ (reading t).Accepted := by
    intro t hmin hmax
    refine ⟨by rw [fromUnix_eq, if_neg (by omega)], accepted_iff.mpr ⟨mem_range_iff.mp ⟨hmin, hmax⟩,
      (isDate_civilFromDays _).1, ?_⟩⟩
    unfold reading secsPerDay
    dsimp only
    omega
  refine ⟨fun t hmin hmax => ⟨_, (hacc t hmin hmax).1, (hacc t hmin hmax).2, toUnix_reading t⟩, hinv,
    fun t => ?_, fun c c' hc hc' => ?_, fun t c c' h h' => ?_, fun t offset hmin hmax => ?_, fun dt hdt => ?_⟩
  · rw [fromUnix_eq]
    split_ifs with hrange <;> simp [hrange]
  · rw [← key_strictMono.lt_iff_lt (a := c.toUnix), hread c hc, hread c' hc']
  · obtain rfl := hfrom t c h
    obtain rfl := hfrom _ c' h'
    refine ⟨reading_tomorrow t, ?_⟩
    rw [weekday_reading, weekday_reading, add_day_ediv, Weekday.fromDays_succ]
  · obtain ⟨hok, haccepted⟩ := hacc _ hmin hmax
    refine ⟨_, haccepted, DateTime.fromUnix_eq offset hok, ?_⟩
    rw [DateTime.toUnix, toUnix_reading]
    exact Int.add_sub_cancel ..
  · refine DateTime.fromUnix_eq dt.offset ?_
    rw [DateTime.toUnix, Int.sub_add_cancel]
    exact hinv _ hdt

end Nife.Calendar
