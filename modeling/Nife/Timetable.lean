/-
The timetable: a document of scheduled lines, the registry made from it, and the three operations
that decide when a row fires.  `arm` starts the rows against the monotonic counter, `observe` reads
the wall clock into the registry once per pass, and `due` takes one row that is due.

A row that keeps a time of day holds its next occurrence and the minute it last fired at, with
sentinels at both ends of the 64-bit range.  How a line is admitted is a parameter: the registry
only asks whether it is.
-/
import Nife.RecurrenceGrammar

namespace Nife.Timetable

open Recurrence (Rule)

/-! ### The document -/

def nanosPerSec : Nat := 1000000000

def maxEntries : Nat := 8

/-- When an entry fires. -/
inductive Schedule
  | atBoot
  | every (nanos : Nat)
  | calendar (rule : Rule)
  deriving DecidableEq, Repr

/-- A line of a timetable. -/
structure Entry where
  line : Nat
  schedule : Schedule
  command : Text
  deriving DecidableEq, Repr

/-- Why a document does not parse, with the line. -/
inductive Error
  | malformed (line : Nat)
  | unknownSchedule (line : Nat)
  | missingInterval (line : Nat)
  | badInterval (line : Nat)
  | zeroInterval (line : Nat)
  | missingCommand (line : Nat)
  | tooManyEntries (line : Nat)
  | calendar (line : Nat) (r : Recurrence.Refusal)
  deriving DecidableEq, Repr

/-- Everything up to a `#`. -/
def stripComment (line : Text) : Text := line.takeWhile (· ≠ '#')

/-- `<digits><unit>` in nanoseconds, when it fits 64 bits. -/
def intervalNanos (s : Text) : Option Nat :=
  let digits := s.takeWhile Recurrence.isDigit
  if digits = [] then none
  else
    let value := digits.foldl (fun n c => n * 10 + (c.toNat - '0'.toNat)) 0
    let unit := s.dropWhile Recurrence.isDigit
    let per :=
      if unit = "ms".toList then some (nanosPerSec / 1000)
      else if unit = "s".toList then some nanosPerSec
      else if unit = "m".toList then some (60 * nanosPerSec)
      else none
    if 2 ^ 64 ≤ value then none
    else (per.map (value * ·)).filter (· < 2 ^ 64)

/-- The schedule that a line opens with, and the rest of the line. -/
def scheduleOf (no : Nat) (word rest : Text) : Except Error (Schedule × Text) :=
  if word = "at-boot".toList then .ok (.atBoot, rest)
  else if word = "every".toList then
    match Recurrence.parse rest with
    | .error r => .error (.calendar no r)
    | .ok (.calendar rule command) => .ok (.calendar rule, command)
    | .ok .notCalendar =>
        match Recurrence.word rest with
        | none => .error (.missingInterval no)
        | some (interval, command) =>
            match intervalNanos interval with
            | none => .error (.badInterval no)
            | some nanos =>
                if nanos = 0 then .error (.zeroInterval no) else .ok (.every nanos, command)
  else .error (.unknownSchedule no)

/-- One more line of the document. -/
def addLine (entries : List Entry) (raw : Text × Nat) : Except Error (List Entry) :=
  let line := Text.trim (stripComment raw.1)
  if line = [] then .ok entries
  else
    match Recurrence.word line with
    | none => .error (.malformed raw.2)
    | some (word, rest) => do
        let (schedule, command) ← scheduleOf raw.2 word rest
        let command := Text.trim command
        if command = [] then .error (.missingCommand raw.2)
        else if entries.length = maxEntries then .error (.tooManyEntries raw.2)
        else .ok (entries ++ [{ line := raw.2, schedule, command }])

/-- Parse a document; the first problem ends it. -/
def parse (doc : Text) : Except Error (List Entry) :=
  ((Text.lines doc).zipIdx 1).foldlM addLine []

/-! ### Registration -/

/-- What the scheduler holds to back an entry with. -/
structure Held where
  memPages : Nat
  (clock domain dir interrupt report : Bool)
  deriving DecidableEq, Repr

/-- What a firing would not get. -/
inductive Unbacked
  | file | directory | clock | domain | interrupt | memory | wallClock
  deriving DecidableEq, Repr

/-- What registration decided: `ε` is an endowment, `ρ` a refusal of the planner. -/
inductive Admission (ε ρ : Type)
  | fires (e : ε)
  | refused (r : ρ)
  | unbacked (u : Unbacked)
  deriving DecidableEq, Repr

/-- The deadline that never comes. -/
def never : Nat := 2 ^ 64 - 1

/-- Not yet armed against a known clock. -/
def unarmed : Int := -2 ^ 63

/-- No occurrence left. -/
def spent : Int := 2 ^ 63 - 1

/-- Never fired, or cleared by a `SET`. -/
def unstamped : Int := -2 ^ 63

/-- No generation observed yet. -/
def noGeneration : Nat := 2 ^ 64 - 1

/-- What the wall clock says. -/
structure WallReading where
  minute : Int
  generation : Nat
  set : Bool
  deriving DecidableEq, Repr

/-- An entry that is registered. -/
structure Row (ε ρ : Type) where
  entry : Entry
  admission : Admission ε ρ
  next : Nat
  (wallNext stamp : Int)
  deriving DecidableEq, Repr

/-- The rows, and what they were armed against. -/
structure Registry (ε ρ : Type) where
  rows : List (Row ε ρ)
  held : Held
  wall : Option Int
  generation : Nat
  deriving DecidableEq, Repr

variable {ε ρ : Type} {rule : Rule}

/-- What the child of a row will hold, if the row is admitted. -/
def Row.endowment (row : Row ε ρ) : Option ε :=
  match row.admission with
  | .fires e => some e
  | _ => none

/-- Check every entry.  A calendar line needs the wall clock before its program is asked. -/
def register (admits : Text → Held → Admission ε ρ) (entries : List Entry) (held : Held) :
    Registry ε ρ where
  rows := entries.map fun entry =>
    { entry
      admission := match entry.schedule with
        | .calendar _ => if held.clock then admits entry.command held else .unbacked .wallClock
        | _ => admits entry.command held
      next := never
      wallNext := unarmed
      stamp := unstamped }
  held := held
  wall := none
  generation := noGeneration

/-! ### The operations -/

/-- The next fire of a beat after `now`, on 64-bit numbers. -/
def nextAfter (prev period now : Nat) : Nat :=
  if period = 0 then never
  else
    let first := min (prev + period) never
    if now < first then first
    else min (now - (now - prev) % period + period) never

/-- Start an admitted row. -/
def Row.arm (now : Nat) (row : Row ε ρ) : Row ε ρ :=
  if row.endowment.isNone then row
  else
    { row with
      next := match row.entry.schedule with
        | .atBoot => now
        | .every p => min (now + p) never
        | .calendar _ => never
      wallNext := unarmed }

def Registry.arm (reg : Registry ε ρ) (now : Nat) : Registry ε ρ :=
  { reg with rows := reg.rows.map (Row.arm now), generation := noGeneration }

/-- Arm a calendar row against a new generation of the clock: the earlier of what was armed and
the first occurrence after both the clock and the stamp. -/
def Row.rearm (r : WallReading) (row : Row ε ρ) : Row ε ρ :=
  match row.entry.schedule with
  | .calendar rule =>
      if row.endowment.isNone then row
      else
        let stamp := if r.set then unstamped else row.stamp
        let fresh := (Recurrence.next rule (max r.minute stamp)).getD spent
        { row with
          stamp := stamp
          wallNext := if row.wallNext = unarmed then fresh else min row.wallNext fresh }
  | _ => row

/-- Read the wall clock into the registry. -/
def Registry.observe (reg : Registry ε ρ) : Option WallReading → Registry ε ρ
  | none =>
      { reg with
        wall := none
        generation := noGeneration
        rows := reg.rows.map fun row => { row with wallNext := unarmed } }
  | some r =>
      if r.generation = reg.generation then { reg with wall := some r.minute }
      else
        { reg with
          wall := some r.minute
          generation := r.generation
          rows := reg.rows.map (Row.rearm r) }

/-- A row that is due, advanced past its fire. -/
def Row.due (wall : Option Int) (now : Nat) (row : Row ε ρ) : Option (Row ε ρ) :=
  match row.entry.schedule with
  | .calendar rule =>
      match wall with
      | none => none
      | some w =>
          if row.wallNext = unarmed ∨ row.wallNext = spent ∨ w < row.wallNext then none
          else some { row with stamp := w, wallNext := (Recurrence.next rule w).getD spent }
  | .atBoot => if now < row.next then none else some { row with next := never }
  | .every p =>
      if now < row.next then none else some { row with next := nextAfter row.next p now }

/-- The first of the rows that is due, and the rows with it advanced. -/
def dueIn (wall : Option Int) (now : Nat) : List (Row ε ρ) → Option (Nat × List (Row ε ρ))
  | [] => none
  | row :: rows =>
      match row.due wall now with
      | some row' => some (0, row' :: rows)
      | none => (dueIn wall now rows).map fun p => (p.1 + 1, row :: p.2)

/-- Take one row that is due at `now`, advanced past it. -/
def Registry.due (reg : Registry ε ρ) (now : Nat) : Option (Nat × Registry ε ρ) :=
  (dueIn reg.wall now reg.rows).map fun p => (p.1, { reg with rows := p.2 })

/-! ### What an accepted document and one call are like -/

theorem scheduleOf_regular {no : Nat} {word rest command : Text}
    (h : scheduleOf no word rest = .ok (.calendar rule, command)) : rule.Regular := by
  unfold scheduleOf at h
  split_ifs at h
  · cases h
  · split at h
    · cases h
    case h_2 hparse =>
      cases h
      exact Recurrence.parse_regular hparse
    case h_3 =>
      split at h
      · cases h
      · split at h
        · cases h
        · split_ifs at h
          cases h

/-- **The calendar rules of an accepted document are regular.** -/
theorem parse_regular {doc : Text} {entries : List Entry} (h : parse doc = .ok entries)
    {entry : Entry} (he : entry ∈ entries)
    (hrule : entry.schedule = .calendar rule) : rule.Regular := by
  refine Fallible.foldlM_invariant
    (fun es => ∀ e ∈ es, ∀ rule, e.schedule = .calendar rule → rule.Regular) ?_
    nofun h entry he rule hrule
  intro before raw after hbefore hline
  unfold addLine at hline
  dsimp only at hline
  split at hline
  · cases hline
    exact hbefore
  · split at hline
    · cases hline
    · obtain ⟨⟨schedule, command⟩, hschedule, hline⟩ := Fallible.bind_eq_ok.mp hline
      split_ifs at hline
      cases hline
      intro e he rule hrule
      rcases List.mem_append.mp he with he | he
      · exact hbefore e he rule hrule
      · rw [List.mem_singleton.mp he] at hrule
        dsimp only at hrule
        rw [hrule] at hschedule
        exact scheduleOf_regular hschedule

/-- **A call to `due` takes a row that is due and advances it alone.** -/
theorem due_some {reg reg' : Registry ε ρ} {now i : Nat} (h : reg.due now = some (i, reg')) :
    ∃ row row', reg.rows[i]? = some row ∧ row.due reg.wall now = some row' ∧
      reg' = { reg with rows := reg.rows.set i row' } := by
  obtain ⟨⟨j, rows⟩, hin, hpair⟩ := Option.map_eq_some_iff.mp h
  cases hpair
  have hscan : ∀ (rows : List (Row ε ρ)) (i : Nat) (rows' : List (Row ε ρ)),
      dueIn reg.wall now rows = some (i, rows') → ∃ row row', rows[i]? = some row ∧
        row.due reg.wall now = some row' ∧ rows' = rows.set i row' := by
    intro rows
    induction rows with
    | nil =>
      intro i rows' h
      cases h
    | cons row rows ih =>
      intro i rows' h
      rw [dueIn] at h
      split at h
      case h_1 row' hrow =>
        cases h
        exact ⟨row, row', rfl, hrow, rfl⟩
      case h_2 =>
        obtain ⟨⟨j, rest⟩, hrest, hpair⟩ := Option.map_eq_some_iff.mp h
        cases hpair
        obtain ⟨r, r', hr, hdue, rfl⟩ := ih j rest hrest
        exact ⟨r, r', by simpa using hr, hdue, rfl⟩
  obtain ⟨row, row', hrow, hdue, rfl⟩ := hscan _ _ _ hin
  exact ⟨row, row', hrow, hdue, rfl⟩

theorem due_none {reg : Registry ε ρ} {now : Nat} (h : reg.due now = none) {row : Row ε ρ}
    (hrow : row ∈ reg.rows) : row.due reg.wall now = none := by
  unfold Registry.due at h
  rw [Option.map_eq_none_iff] at h
  revert h hrow
  induction reg.rows with
  | nil =>
    intro _ hrow
    cases hrow
  | cons r rows ih =>
    intro h hrow
    rw [dueIn] at h
    split at h
    · cases h
    · rw [Option.map_eq_none_iff] at h
      rcases List.mem_cons.mp hrow with rfl | hrow
      · assumption
      · exact ih h hrow

end Nife.Timetable
