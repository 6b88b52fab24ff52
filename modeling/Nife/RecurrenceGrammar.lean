/-
The grammar of calendar lines: what follows `every`, read word by word into a rule.  Every
refusal of the source is an outcome here, and so is a line that is no calendar line at all.

Main result: `parse_regular`, that an accepted rule is regular, so that the search for its next
occurrence misses none.
-/
import Nife.RecurrenceHorizon
import Nife.Lib.Fallible
import Nife.Lib.Text

namespace Nife.Recurrence

open Fallible (bind_eq_ok)

/-- Why a line is refused. -/
inductive Refusal
  | malformed | dayPast28 | fifthWeekday | badCount | spelledInterval | countWithIn
  | countWithoutStarting | startingOffRule | throughBeforeStarting | mixedMinutes
  | stepDoesNotDivide
  /-- With the last time that the range does reach, in minutes of the day. -/
  | inexactRange (last : Option Nat)
  deriving DecidableEq, Repr

/-- What a line says. -/
inductive Parsed
  | calendar (rule : Rule) (command : Text)
  | notCalendar
  deriving DecidableEq, Repr

/-! ### Words and numbers -/

section

variable (s : Text)

/-- The first word and the rest. -/
def word : Option (Text × Text) :=
  let s := s.dropWhile Text.isWhitespace
  if s = [] then none
  else some (s.takeWhile fun c => !Text.isWhitespace c, s.dropWhile fun c => !Text.isWhitespace c)

/-- An answer, or the refusal for want of one. -/
def okOr {α : Type} (r : Refusal) : Option α → Except Refusal α
  | some a => .ok a
  | none => .error r

def expect (w : String) : Except Refusal Text :=
  match word s with
  | some (got, rest) => if got = w.toList then .ok rest else .error .malformed
  | none => .error .malformed

def dow : Option Nat :=
  ["mon", "tue", "wed", "thu", "fri", "sat", "sun"].findIdx? (·.toList = s)

def month : Option Nat :=
  ["jan", "feb", "mar", "apr", "may", "jun", "jul", "aug", "sep", "oct", "nov", "dec"].findIdx?
    (·.toList = s)

def isDigit (c : Char) : Bool := '0' ≤ c && c ≤ '9'

def isAlphabetic (c : Char) : Bool := ('a' ≤ c && c ≤ 'z') || ('A' ≤ c && c ≤ 'Z')

/-- A number of at most four digits. -/
def digits : Option Nat :=
  if s = [] ∨ 4 < (Text.bytes s).length ∨ s.all isDigit = false then none
  else some (s.foldl (fun n c => n * 10 + (c.toNat - '0'.toNat)) 0)

/-- A comma-joined list in one word, as a mask. -/
def list (token : Text) (item : Text → Option Nat) : Option (BitVec 64) :=
  (token.splitOn ',').foldlM (fun mask part => (item part).map fun i => mask ||| (1#64 <<< i)) 0

def dayList (token : Text) : Except Refusal (BitVec 8) :=
  okOr .malformed ((list token dow).map (·.setWidth 8))

/-- `HH:MM`, in minutes of the day. -/
def hhmm : Option Nat :=
  if ':' ∉ s then none
  else
    let h := s.takeWhile (· ≠ ':')
    let m := (s.dropWhile (· ≠ ':')).drop 1
    if (Text.bytes h).length ≠ 2 ∨ (Text.bytes m).length ≠ 2 then none
    else
      match digits h, digits m with
      | some h, some m => if h < 24 ∧ m < 60 then some (h * 60 + m) else none
      | _, _ => none

/-- `YYYY-MM-DD`, as a day number. -/
def date : Option Int :=
  match s.splitOn '-' with
  | [y, m, d] =>
      if (Text.bytes y).length ≠ 4 ∨ (Text.bytes m).length ≠ 2 ∨ (Text.bytes d).length ≠ 2 then none
      else
        match digits y, digits m, digits d with
        | some y, some m, some d => dayNumber y m d
        | _, _, _ => none
  | _ => none

/-! ### The days of a month -/

/-- One more day in the list of a month's days. -/
def addDay (bits : BitVec 32) (part : Text) : Except Refusal (BitVec 32) :=
  match digits part with
  | none => .error .malformed
  | some d =>
      if 1 ≤ d ∧ d ≤ 28 then .ok (bits ||| (1#32 <<< d))
      else if 29 ≤ d ∧ d ≤ 31 then .error .dayPast28
      else .error .malformed

/-- The weekdays by their number in the month. -/
def ordinal : Option Int :=
  (["1st", "2nd", "3rd", "4th"].findIdx? (·.toList = s)).map fun i : Nat => (i : Int) + 1

/-- The `n`-th weekday. -/
def nthDay (n : Int) (second rest : Text) : Except Refusal (MonthDay × Text) :=
  match dow second with
  | some d => .ok (.nth n d, rest)
  | none => .error .malformed

/-- A month day clause after `on`. -/
def monthDay : Except Refusal (MonthDay × Text) := do
  let (first, rest) ← okOr .malformed (word s)
  if first.head?.any isDigit && !first.getLast?.any isAlphabetic then
    let bits ← (first.splitOn ',').foldlM addDay 0
    return (.days bits, rest)
  else
    let (second, rest) ← okOr .malformed (word rest)
    match ordinal first with
    | some n => nthDay n second rest
    | none =>
        if first = "5th".toList then .error .fifthWeekday
        else if first = "first".toList then
          if second = "weekday".toList then .ok (.firstWeekday, rest) else .error .malformed
        else if first = "last".toList then
          if second = "day".toList then .ok (.lastDay, rest)
          else if second = "weekday".toList then .ok (.lastWeekday, rest)
          else nthDay (-1) second rest
        else .error .malformed

end

/-! ### Times -/

/-- One more time of an `at` list: the hours so far and the minute they share. -/
def addTime (s : BitVec 32 × Option Nat) (part : Text) : Except Refusal (BitVec 32 × Option Nat) :=
  match hhmm part with
  | none => .error .malformed
  | some t =>
      if s.2.any (· ≠ t % 60) then .error .mixedMinutes
      else .ok (s.1 ||| (1#32 <<< (t / 60)), some (t % 60))

/-- The minutes of an hour a step apart, from `m` on, and the last of them. -/
def stepMinutes (step : Nat) : Nat → Nat → BitVec 64 × Nat → BitVec 64 × Nat
  | 0, _, s => s
  | left + 1, m, s =>
      if m < 60 then stepMinutes step left (m + step) (s.1 ||| (1#64 <<< m), m) else s

/-- The hours of a range some hours apart, and the last time it reaches. -/
def stepHours (k eh em sm : Nat) : Nat → Nat → BitVec 32 × Option Nat → BitVec 32 × Option Nat
  | 0, _, s => s
  | left + 1, h, s =>
      if h ≤ eh ∧ h < 24 then
        stepHours k eh em sm left (h + k)
          (s.1 ||| (1#32 <<< h), if h < eh ∨ sm ≤ em then some (h * 60 + sm) else s.2)
      else s

/-- A `from .. to .. by` range as hours and minutes. -/
def range (start fin step : Nat) : Except Refusal (BitVec 32 × BitVec 64) :=
  let sh := start / 60
  let sm := start % 60
  let eh := fin / 60
  let em := fin % 60
  if step < 60 then
    if 60 % step ≠ 0 then .error .stepDoesNotDivide
    else
      let (minutes, lastMinute) := stepMinutes step 60 (sm % step) (0, 0)
      let hours : BitVec 32 :=
        if sh ≤ eh then ((1#64 <<< (eh + 1)) - (1#64 <<< sh)).setWidth 32 else 0
      let last :=
        if lastMinute ≤ em then some (eh * 60 + lastMinute)
        else if sh < eh then some ((eh - 1) * 60 + lastMinute)
        else none
      if step ≤ sm ∨ eh < sh ∨ em ≠ lastMinute then
        .error (.inexactRange (last.filter fun l => start ≤ l))
      else .ok (hours, minutes)
  else if step % 60 ≠ 0 then .error .stepDoesNotDivide
  else
    let k := step / 60
    let (hours, last) := stepHours k eh em sm 24 sh (0, none)
    if eh < sh ∨ (eh - sh) % k ≠ 0 ∨ em ≠ sm then .error (.inexactRange last)
    else .ok (hours, 1#64 <<< sm)

/-- The `Nm` of a range. -/
def stepOf (s : Text) : Option Nat :=
  if s.getLast? = some 'm' then (digits s.dropLast).filter (0 < ·) else none

/-- `at HH:MM[,HH:MM..]` or `from HH:MM to HH:MM by Nm`. -/
def times (s : Text) : Except Refusal (BitVec 32 × BitVec 64 × Text) := do
  let (w, rest) ← okOr .malformed (word s)
  if w = "at".toList then
    let (times, rest) ← okOr .malformed (word rest)
    let (hours, minute) ← (times.splitOn ',').foldlM addTime (0, none)
    let minute ← okOr .malformed minute
    return (hours, 1#64 <<< minute, rest)
  else if w = "from".toList then
    let (a, rest) ← okOr .malformed (word rest)
    let rest ← expect rest "to"
    let (b, rest) ← okOr .malformed (word rest)
    let rest ← expect rest "by"
    let (step, rest) ← okOr .malformed (word rest)
    let start ← okOr .malformed (hhmm a)
    let fin ← okOr .malformed (hhmm b)
    let step ← okOr .malformed (stepOf step)
    let (hours, minutes) ← range start fin step
    return (hours, minutes, rest)
  else .error .malformed

/-! ### Lines -/

/-- Daily, without a clause. -/
def plain : Rule :=
  { freq := .daily, interval := 1, weekdays := allDays, on := .any, months := allMonths,
    hours := 0, minutes := 0, starting := none, through := none }

/-- The weekdays of a weekly line. -/
def onDays (rule : Rule) (rest : Text) : Except Refusal (Rule × Text) := do
  let rest ← expect rest "on"
  let (days, rest) ← okOr .malformed (word rest)
  let mask ← dayList days
  return ({ rule with freq := .weekly, weekdays := mask }, rest)

/-- The days of a monthly line. -/
def onMonthDay (rule : Rule) (rest : Text) : Except Refusal (Rule × Text) := do
  let rest ← expect rest "on"
  let (on, rest) ← monthDay rest
  return ({ rule with freq := .monthly, on := on }, rest)

/-- The units that a count of minutes or seconds is spelled with. -/
def isClockUnit (unit : Text) : Bool :=
  ["minutes", "mins", "hours", "seconds"].any (·.toList = unit)

/-- A count with its unit. -/
def counted (count : Nat) (unit rest : Text) : Except Refusal (Rule × Text) :=
  if ¬(2 ≤ count ∧ count ≤ 99) ∧ isClockUnit unit = false then .error .badCount
  else
    let rule := { plain with interval := min (max count 2) 99 }
    if unit = "days".toList then .ok (rule, rest)
    else if unit = "weeks".toList then onDays rule rest
    else if unit = "months".toList then onMonthDay rule rest
    else .error .spelledInterval

/-- A line that begins with a count, which is no calendar line unless a unit follows. -/
def countCadence (first rest : Text) : Except Refusal (Option (Rule × Text)) :=
  match word rest with
  | none => .ok none
  | some (unit, rest) =>
      if !(["days", "weeks", "months"].any (·.toList = unit) || isClockUnit unit) then .ok none
      else
        match digits first with
        | none => .error .badCount
        | some count => (counted count unit rest).map some

/-- How often a line repeats. -/
def cadence (afterEvery : Text) : Except Refusal (Option (Rule × Text)) :=
  match word afterEvery with
  | none => .ok none
  | some (first, rest) =>
      if first.all isDigit then countCadence first rest
      else if first = "day".toList then .ok (some (plain, rest))
      else if first = "weekday".toList then
        .ok (some ({ plain with freq := .weekly, weekdays := weekdays }, rest))
      else if first = "weekend".toList then
        .ok (some ({ plain with freq := .weekly, weekdays := weekend }, rest))
      else if first = "week".toList then (onDays plain rest).map some
      else if first = "month".toList then (onMonthDay plain rest).map some
      else .ok none

/-- What follows the word `w`, if it is next. -/
def clause (w : String) (rest : Text) : Option Text :=
  match word rest with
  | some (got, after) => if got = w.toList then some after else none
  | none => none

def inClause (rule : Rule) (rest : Text) : Except Refusal (Rule × Text) :=
  match clause "in" rest with
  | none => .ok (rule, rest)
  | some after =>
      if 1 < rule.interval then .error .countWithIn
      else do
        let (token, after) ← okOr .malformed (word after)
        let mask ← okOr .malformed (list token month)
        return ({ rule with months := mask.setWidth 16 }, after)

def dateClause (w : String) (rest : Text) : Except Refusal (Option Int × Text) :=
  match clause w rest with
  | none => .ok (none, rest)
  | some after => do
      let (token, after) ← okOr .malformed (word after)
      let d ← okOr .malformed (date token)
      return (some d, after)

/-- The checks on a whole rule. -/
def checked (rule : Rule) : Except Refusal Rule :=
  if 1 < rule.interval ∧ rule.starting = none then .error .countWithoutStarting
  else if rule.starting.any (fun s => rule.through.any (· < s)) then
    .error .throughBeforeStarting
  else if rule.starting.any (fun s => !dayMatches rule s) then .error .startingOffRule
  else .ok rule

/-- Parse what follows `every`. -/
def parse (afterEvery : Text) : Except Refusal Parsed := do
  match ← cadence afterEvery with
  | none => return .notCalendar
  | some (rule, rest) =>
      let (rule, rest) ← inClause rule rest
      let (starting, rest) ← dateClause "starting" rest
      let (through, rest) ← dateClause "through" rest
      let (hours, minutes, rest) ← times rest
      let rule ← checked { rule with hours, minutes, starting, through }
      return .calendar rule rest

/-! ### Accepted rules are regular -/

/-- What a cadence and the clauses before the dates make of a rule. -/
structure Cadenced (rule : Rule) : Prop where
  interval_le : rule.interval ≤ 99
  counted : 1 < rule.interval → rule.months = allMonths
  common : rule.on.Common

variable {rest s : Text} {rule : Rule} {r : Rule × Text}

theorem ordinal_le {n : Int} (h : ordinal s = some n) : n ≤ 4 := by
  obtain ⟨i, hi, rfl⟩ := Option.map_eq_some_iff.mp h
  have := (List.findIdx?_eq_some_iff_findIdx_eq.mp hi).1
  simp only [List.length_cons, List.length_nil] at this
  omega

theorem common_of_nthDay {n : Int} {second : Text} {r : MonthDay × Text} (hn : n ≤ 4)
    (h : nthDay n second rest = .ok r) : r.1.Common := by
  unfold nthDay at h
  split at h
  · cases h
    rintro n' want ⟨rfl, -⟩
    exact hn
  · cases h

theorem monthDay_common {r : MonthDay × Text} (h : monthDay s = .ok r) : r.1.Common := by
  obtain ⟨⟨first, rest⟩, -, h⟩ := bind_eq_ok.mp h
  dsimp only at h
  split at h
  · obtain ⟨bits, -, h⟩ := bind_eq_ok.mp h
    cases h
    rintro n want ⟨⟩
  · obtain ⟨⟨second, rest⟩, -, h⟩ := bind_eq_ok.mp h
    split at h
    · exact common_of_nthDay (ordinal_le ‹_›) h
    · split_ifs at h <;> first | (cases h; rintro n want ⟨⟩) | skip
      exact common_of_nthDay (by decide) h

theorem Cadenced.onDays (h : Cadenced rule) (hok : onDays rule rest = .ok r) : Cadenced r.1 := by
  obtain ⟨rest, -, hok⟩ := bind_eq_ok.mp hok
  obtain ⟨⟨days, rest⟩, -, hok⟩ := bind_eq_ok.mp hok
  obtain ⟨mask, -, hok⟩ := bind_eq_ok.mp hok
  cases hok
  exact { h with }

theorem Cadenced.onMonthDay (h : Cadenced rule)
    (hok : onMonthDay rule rest = .ok r) : Cadenced r.1 := by
  obtain ⟨rest, -, hok⟩ := bind_eq_ok.mp hok
  obtain ⟨⟨on, rest⟩, hon, hok⟩ := bind_eq_ok.mp hok
  cases hok
  exact ⟨h.interval_le, h.counted, monthDay_common hon⟩

theorem map_some_eq {α : Type} {x : Except Refusal α} {a : α}
    (h : x.map some = .ok (some a)) : x = .ok a := by
  cases x with
  | error _ => cases h
  | ok a' =>
    cases h
    rfl

theorem cadenced_plain (n : Nat) (hn : n ≤ 99) : Cadenced { plain with interval := n } :=
  ⟨hn, fun _ => rfl, nofun⟩

theorem counted_cadenced {count : Nat} {unit : Text}
    (h : counted count unit rest = .ok r) : Cadenced r.1 := by
  have hcount := cadenced_plain (min (max count 2) 99) (by omega)
  unfold counted at h
  split_ifs at h
  · cases h
    exact hcount
  · exact hcount.onDays h
  · exact hcount.onMonthDay h

theorem cadence_cadenced (h : cadence s = .ok (some r)) : Cadenced r.1 := by
  have hplain : Cadenced plain := cadenced_plain 1 (by decide)
  unfold cadence at h
  split at h
  · cases h
  · split_ifs at h
    · unfold countCadence at h
      split at h
      · cases h
      · split_ifs at h
        · cases h
        · split at h
          · cases h
          · exact counted_cadenced (map_some_eq h)
    · cases h
      exact hplain
    · cases h
      exact { hplain with }
    · cases h
      exact { hplain with }
    · exact hplain.onDays (map_some_eq h)
    · exact hplain.onMonthDay (map_some_eq h)
    · cases h

theorem Cadenced.inClause (h : Cadenced rule)
    (hok : inClause rule rest = .ok r) : Cadenced r.1 := by
  unfold Recurrence.inClause at hok
  split at hok
  · cases hok
    exact h
  · split_ifs at hok with hcount
    obtain ⟨⟨token, after⟩, -, hok⟩ := bind_eq_ok.mp hok
    obtain ⟨mask, -, hok⟩ := bind_eq_ok.mp hok
    cases hok
    exact ⟨h.interval_le, fun hc => absurd hc hcount, h.common⟩

theorem checked_ok {rule' : Rule} (h : checked rule = .ok rule') :
    rule' = rule ∧ (1 < rule.interval → rule.starting.isSome = true) ∧
      ∀ s, rule.starting = some s → dayMatches rule s = true := by
  unfold checked at h
  split_ifs at h with hcount hthrough hstarting
  cases h
  refine ⟨rfl, fun hc => ?_, fun s hs => ?_⟩
  · by_contra hnone
    exact hcount ⟨hc, by simpa using hnone⟩
  · simpa [hs] using hstarting

/-- **An accepted rule is regular.** -/
theorem parse_regular {command : Text}
    (h : parse s = .ok (.calendar rule command)) : rule.Regular := by
  obtain ⟨cad, hcad, h⟩ := bind_eq_ok.mp h
  cases cad with
  | none => cases h
  | some r =>
    obtain ⟨rule₀, rest⟩ := r
    obtain ⟨⟨rule₁, rest⟩, hin, h⟩ := bind_eq_ok.mp h
    obtain ⟨⟨starting, rest⟩, -, h⟩ := bind_eq_ok.mp h
    obtain ⟨⟨through, rest⟩, -, h⟩ := bind_eq_ok.mp h
    obtain ⟨⟨hours, minutes, rest⟩, -, h⟩ := bind_eq_ok.mp h
    obtain ⟨rule₂, hchecked, h⟩ := bind_eq_ok.mp h
    cases h
    have hcadenced := (cadence_cadenced hcad).inClause hin
    obtain ⟨rfl, hcounted, hstarts⟩ := checked_ok hchecked
    exact ⟨hcadenced.interval_le, fun hc => ⟨hcadenced.counted hc, hcounted hc⟩, hstarts,
      hcadenced.common⟩

end Nife.Recurrence
