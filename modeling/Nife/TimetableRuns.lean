/-
Runs of a timetable: any readings of the wall clock, unknown ones among them, and any calls to
`due` between them.  Beside the registry stands what it is judged by: the last observation, the
minute the rows were last armed at, the occurrences that each row fired for since the stamps were
cleared, and the rows that fired since the last observation.

One row is followed through a run (`Kept`): what it is armed for is an occurrence after its stamp,
and its stamp is no earlier than anything it fired for.  That gives the step rule
(`calendar_lawful`): a row fires only for an occurrence that the clock has reached, never twice
for one, at most once for one observation, and within one generation exactly when an occurrence
after its stamp lies between two readings.
-/
import Nife.Timetable
import Nife.Lib.Transition

namespace Nife.Timetable

open List Option Recurrence Row

open Recurrence (Rule next minutesPerDay firstDay lastDay)

variable {ε ρ : Type}

/-! ### The system -/

/-- A registry and what was observed. -/
structure Watch (ε ρ : Type) where
  registry : Registry ε ρ
  /-- What the last observation read. -/
  last : Option WallReading
  /-- The last known reading. -/
  known : Option WallReading
  /-- The reading at which the rows were last armed against a generation. -/
  armedAt : Int
  /-- The occurrences that each row fired for since the stamps were cleared, the latest first. -/
  fired : Nat → List Int
  /-- The rows that fired since the last observation. -/
  pass : List Nat

/-- What the loop does. -/
inductive Action
  | observe (reading : Option WallReading)
  | due (now : Nat)

namespace Watch

/-- A timetable that was just armed. -/
def start (admission : Text → Held → Admission ε ρ) (entries : List Entry) (held : Held)
    (now : Nat) : Watch ε ρ :=
  ⟨(register admission entries held).arm now, none, none, 0, fun _ => [], []⟩

/-- An observation.  The fires are counted anew where it clears the stamps: at the first reading
of a generation published by `SET`, or the first one after the clock was unknown. -/
def observe (s : Watch ε ρ) (reading : Option WallReading) : Watch ε ρ where
  registry := s.registry.observe reading
  last := reading
  known := reading.or s.known
  armedAt := match reading with
    | some r => if r.generation = s.registry.generation then s.armedAt else r.minute
    | none => s.armedAt
  fired := match reading with
    | some r => if r.set ∧ r.generation ≠ s.registry.generation then fun _ => [] else s.fired
    | none => s.fired
  pass := []

section

variable (s : Watch ε ρ)

/-- The row that fired, and the occurrence it was armed for. -/
def fire (i : Nat) (registry : Registry ε ρ) : Watch ε ρ :=
  { s with
    registry := registry
    fired := fun j => if j = i then (s.registry.rows[i]?.map Row.wallNext).toList ++ s.fired i
      else s.fired j
    pass := i :: s.pass }

def step : Action → Option (Watch ε ρ)
  | .observe reading => some (s.observe reading)
  | .due now =>
      match s.registry.due now with
      | none => some s
      | some (i, registry) => some (s.fire i registry)

/-- The clock does not run backward within a generation, and a generation was published once. -/
def Clocked : Action → Prop
  | .observe (some r) => ∀ k, s.known = some k → k.generation = r.generation →
      k.minute ≤ r.minute ∧ k.set = r.set
  | _ => True

end

instance (s : Watch ε ρ) (a : Action) : Decidable (s.Clocked a) :=
  match a with
  | .due _ => .isTrue trivial
  | .observe none => .isTrue trivial
  | .observe (some r) =>
      match h : s.known with
      | none => .isTrue fun k hk => by rw [h] at hk; cases hk
      | some k =>
          if hk : k.generation = r.generation → k.minute ≤ r.minute ∧ k.set = r.set then
            .isTrue fun k' hk' => by rw [h] at hk'; cases hk'; exact hk
          else .isFalse fun hall => hk (hall k h)

end Watch

/-- A whole pass: `due` is called, at any readings of the counter, until it answers nothing. -/
inductive Pass : Registry ε ρ → List Nat → Registry ε ρ → Prop
  | done {reg : Registry ε ρ} {now : Nat} : reg.due now = none → Pass reg [] reg
  | fire {reg reg' reg'' : Registry ε ρ} {now i : Nat} {l : List Nat} :
      reg.due now = some (i, reg') → Pass reg' l reg'' → Pass reg (i :: l) reg''

/-- Row `i` keeps a time of day by `rule`. -/
structure Keeps (reg : Registry ε ρ) (i : Nat) (row : Row ε ρ) (rule : Rule) : Prop where
  at_index : reg.rows[i]? = some row
  schedule : row.entry.schedule = .calendar rule

/-! ### Sentinels -/

variable {rule : Rule} {t : Int} {row row' : Row ε ρ} {s s' : Watch ε ρ}

theorem occurs_range (h : rule.Occurs t) : unarmed < t ∧ t < spent := by
  obtain ⟨-, -, hfits⟩ := dayMatches_iff.mp h.1
  obtain ⟨hfirst, hlast⟩ := hfits.range
  have hfirstDay : firstDay = -719528 := by decide
  have hlastDay : lastDay = 2932896 := by decide
  unfold unarmed spent
  unfold minutesPerDay at *
  omega

/-- What a row is armed for after a minute: an occurrence after it, or nothing. -/
theorem next_getD (rule : Rule) (after : Int) :
    (rule.Occurs ((next rule after).getD spent) ∧ after < (next rule after).getD spent) ∨
      (next rule after).getD spent = spent := by
  cases hnext : next rule after with
  | none => exact .inr rfl
  | some t => exact .inl ⟨(next_some hnext).1, (next_some hnext).2.1⟩

/-- It is no later than any occurrence after that minute. -/
theorem next_getD_le (hr : rule.Regular) {after : Int} (hafter : firstDay * minutesPerDay ≤ after)
    (ht : rule.Occurs t) (hlt : after < t) : (next rule after).getD spent ≤ t := by
  cases hnext : next rule after with
  | none =>
    have := next_none_of_regular hr hafter hnext ht
    omega
  | some u => exact (next_some hnext).2.2 t ht hlt

theorem next_getD_ne (rule : Rule) (after : Int) : (next rule after).getD spent ≠ unarmed := by
  rcases next_getD rule after with ⟨hocc, -⟩ | heq
  · exact (occurs_range hocc).1.ne'
  · rw [heq]
    decide

/-! ### One row -/

/-- What a calendar row keeps. -/
structure RowKept (row : Row ε ρ) (rule : Rule) (fired : List Int) : Prop where
  /-- A row that is not admitted is never armed. -/
  refused : row.endowment = none → row.wallNext = unarmed
  armed : row.wallNext = unarmed ∨ row.wallNext = spent ∨ rule.Occurs row.wallNext
  /-- What it is armed for is after its stamp. -/
  after_stamp : rule.Occurs row.wallNext → row.stamp < row.wallNext
  /-- What it fired for is not. -/
  le_stamp : ∀ t ∈ fired, t ≤ row.stamp
  increasing : fired.Pairwise (· > ·)

variable {fired : List Int} {wall : Option Int} {now : Nat} {reg : Registry ε ρ} {r : WallReading}
  {i j : Nat} {i : Nat}

theorem RowKept.unarm (h : RowKept row rule fired) :
    RowKept { row with wallNext := unarmed } rule fired :=
  ⟨fun _ => rfl, .inl rfl, fun hocc => absurd rfl (occurs_range hocc).1.ne, h.le_stamp,
    h.increasing⟩

theorem rearm_eq (hrule : row.entry.schedule = .calendar rule) (hadmitted : row.endowment ≠ none)
    (r : WallReading) :
    row.rearm r = { row with
      stamp := if r.set then unstamped else row.stamp
      wallNext :=
        if row.wallNext = unarmed then
          (next rule (max r.minute (if r.set then unstamped else row.stamp))).getD spent
        else min row.wallNext
          ((next rule (max r.minute (if r.set then unstamped else row.stamp))).getD spent) } := by
  unfold rearm
  rw [hrule]
  dsimp only
  rw [if_neg (by simpa using hadmitted)]

theorem rearm_refused (hrule : row.entry.schedule = .calendar rule)
    (hrefused : row.endowment = none) (r : WallReading) : row.rearm r = row := by
  unfold rearm
  rw [hrule]
  simp [hrefused]

@[simp] theorem rearm_entry (row : Row ε ρ) (r : WallReading) :
    (row.rearm r).entry = row.entry := by
  unfold rearm
  split
  · split <;> rfl
  · rfl

@[simp] theorem rearm_endowment (row : Row ε ρ) (r : WallReading) :
    (row.rearm r).endowment = row.endowment := by
  unfold rearm
  split
  · split <;> rfl
  · rfl

/-- **A new generation keeps a row in order**: what it is armed for is still after its stamp. -/
theorem RowKept.rearm (h : RowKept row rule fired) (hrule : row.entry.schedule = .calendar rule)
    (r : WallReading) : RowKept (row.rearm r) rule (if r.set then [] else fired) := by
  have hfired : ∀ stamp, stamp = (if r.set then unstamped else row.stamp) →
      ∀ t ∈ (if r.set then [] else fired), t ≤ stamp := by
    rintro stamp rfl t ht
    split at ht
    · cases ht
    · rename_i hset
      rw [if_neg hset]
      exact h.le_stamp t ht
  have hincreasing : (if r.set then [] else fired).Pairwise (· > ·) := by
    split
    · exact List.Pairwise.nil
    · exact h.increasing
  by_cases hadmitted : row.endowment = none
  · rw [rearm_refused hrule hadmitted]
    refine ⟨h.refused, h.armed, h.after_stamp, fun t ht => ?_, hincreasing⟩
    split at ht
    · cases ht
    · exact h.le_stamp t ht
  · rw [rearm_eq hrule hadmitted]
    have hfresh := next_getD rule (max r.minute (if r.set then unstamped else row.stamp))
    generalize (next rule (max r.minute (if r.set then unstamped else row.stamp))).getD spent =
      fresh at *
    have hstamp : rule.Occurs fresh → (if r.set then unstamped else row.stamp) < fresh := by
      intro hocc
      rcases hfresh with ⟨-, hlt⟩ | heq
      · exact lt_of_le_of_lt (le_max_right _ _) hlt
      · exact absurd heq (occurs_range hocc).2.ne
    refine ⟨fun hnone => absurd hnone hadmitted, ?_, fun hocc => ?_, hfired _ rfl, hincreasing⟩
    · dsimp only
      split
      · rcases hfresh with ⟨hocc, -⟩ | heq
        · exact .inr (.inr hocc)
        · exact .inr (.inl heq)
      · rcases min_choice row.wallNext fresh with hmin | hmin
        · rw [hmin]
          exact h.armed
        · rw [hmin]
          rcases hfresh with ⟨hocc, -⟩ | heq
          · exact .inr (.inr hocc)
          · exact .inr (.inl heq)
    · dsimp only at hocc ⊢
      split at hocc
      · rename_i hun
        rw [if_pos hun]
        exact hstamp hocc
      · rename_i hun
        rw [if_neg hun]
        rcases min_choice row.wallNext fresh with hmin | hmin
        · rw [hmin] at hocc ⊢
          split
          · exact (occurs_range hocc).1
          · exact h.after_stamp hocc
        · rw [hmin] at hocc ⊢
          exact hstamp hocc

theorem due_calendar (hrule : row.entry.schedule = .calendar rule) :
    row.due wall now = some row' ↔ ∃ w, wall = some w ∧ row.wallNext ≠ unarmed ∧
      row.wallNext ≠ spent ∧ row.wallNext ≤ w ∧
      row' = { row with stamp := w, wallNext := (next rule w).getD spent } := by
  unfold due
  rw [hrule]
  cases wall with
  | none => simp
  | some w =>
    dsimp only
    split_ifs with hnot
    · simp only [Option.some.injEq, false_iff, not_exists]
      rintro w' ⟨rfl, h1, h2, h3, -⟩
      rcases hnot with hnot | hnot | hnot
      · exact h1 hnot
      · exact h2 hnot
      · omega
    · simp only [not_or, not_lt] at hnot
      simp only [Option.some.injEq]
      constructor
      · rintro rfl
        exact ⟨w, rfl, hnot.1, hnot.2.1, hnot.2.2, rfl⟩
      · rintro ⟨w', rfl, -, -, -, rfl⟩
        rfl

/-- Whether it is due depends on the clock alone. -/
theorem due_calendar_none (hrule : row.entry.schedule = .calendar rule) : row.due wall now = none ↔
      ∀ w, wall = some w → row.wallNext = unarmed ∨ row.wallNext = spent ∨ w < row.wallNext := by
  unfold due
  rw [hrule]
  cases wall with
  | none => simp
  | some w =>
    dsimp only
    split_ifs with hnot
    all_goals simpa using hnot

/-- **A fire keeps a row in order**: it is for an occurrence that the clock has reached, and what
the row is armed for next is after the clock. -/
theorem RowKept.due (h : RowKept row rule fired) (hrule : row.entry.schedule = .calendar rule) (hdue : row.due wall now = some row') :
    row.endowment ≠ none ∧ rule.Occurs row.wallNext ∧ RowKept row' rule (row.wallNext :: fired) ∧
      (∀ now', row'.due wall now' = none) ∧ ∃ w, wall = some w ∧ row.wallNext ≤ w ∧
        row' = { row with stamp := w, wallNext := (next rule w).getD spent } := by
  obtain ⟨w, rfl, hun, hspent, hle, rfl⟩ := (due_calendar hrule).mp hdue
  have hocc : rule.Occurs row.wallNext := by
    rcases h.armed with heq | heq | hocc
    · exact absurd heq hun
    · exact absurd heq hspent
    · exact hocc
  have hfresh := next_getD rule w
  have hstamp := h.after_stamp hocc
  refine ⟨fun hnone => hun (h.refused hnone), hocc, ?_, fun now' => ?_, w, rfl, hle, rfl⟩
  · refine ⟨fun hnone => absurd (h.refused hnone) hun, ?_, fun hnext => ?_, fun t ht => ?_, ?_⟩
    · rcases hfresh with ⟨hnext, -⟩ | heq
      · exact .inr (.inr hnext)
      · exact .inr (.inl heq)
    · rcases hfresh with ⟨-, hlt⟩ | heq
      · exact hlt
      · exact absurd heq (occurs_range hnext).2.ne
    · rcases mem_cons.mp ht with rfl | ht
      · exact hle
      · have := h.le_stamp t ht
        dsimp only
        omega
    · refine pairwise_cons.mpr ⟨fun t ht => ?_, h.increasing⟩
      have := h.le_stamp t ht
      omega
  · have hrule' : ({ row with stamp := w, wallNext := (next rule w).getD spent } :
        Row ε ρ).entry.schedule = .calendar rule := hrule
    rw [due_calendar_none hrule']
    rintro w' ⟨⟩
    rcases hfresh with ⟨-, hlt⟩ | heq
    · exact .inr (.inr hlt)
    · exact .inr (.inl heq)

/-! ### The registry along a run -/

structure Kept (s : Watch ε ρ) : Prop where
  rows : ∀ i row rule, Keeps s.registry i row rule →
    rule.Regular ∧ RowKept row rule (s.fired i)
  wall : s.registry.wall = s.last.map WallReading.minute
  generation : s.registry.generation = (s.last.map WallReading.generation).getD noGeneration
  known : ∀ p, s.last = some p → s.known = some p
  armedAt : ∀ p, s.last = some p → p.generation ≠ noGeneration → s.armedAt ≤ p.minute
  /-- An admitted row is armed for the first occurrence after the minute it was armed at and its
  stamp. -/
  reaches : ∀ p, s.last = some p → p.generation ≠ noGeneration →
    firstDay * minutesPerDay ≤ s.armedAt → ∀ i row rule, Keeps s.registry i row rule →
      row.endowment ≠ none → row.wallNext ≠ unarmed ∧
        ∀ t, rule.Occurs t → s.armedAt < t → row.stamp < t → row.wallNext ≤ t
  /-- A row that fired since the last observation is not due again. -/
  pass : ∀ i row rule, Keeps s.registry i row rule → s.pass.count i ≤ 1 ∧
    (i ∈ s.pass → ∀ now, row.due s.registry.wall now = none)

theorem Keeps.of_map {f : Row ε ρ → Row ε ρ}
    {generation i : Nat} (hf : ∀ row, (f row).entry = row.entry)
    (h : Keeps { reg with rows := reg.rows.map f, wall := wall, generation := generation } i row'
      rule) : ∃ row, Keeps reg i row rule ∧ row' = f row := by
  obtain ⟨hat, hschedule⟩ := h
  rw [getElem?_map] at hat
  obtain ⟨row, hrow, rfl⟩ := map_eq_some_iff.mp hat
  rw [hf] at hschedule
  exact ⟨row, ⟨hrow, hschedule⟩, rfl⟩

theorem arm_entry (row : Row ε ρ) (now : Nat) : (row.arm now).entry = row.entry := by
  unfold arm
  split <;> rfl

theorem arm_wallNext (hrow : row.wallNext = unarmed) (now : Nat) :
    (row.arm now).wallNext = unarmed := by
  unfold arm
  split
  · exact hrow
  · rfl

theorem kept_start (admission : Text → Held → Admission ε ρ) {doc : Text} {entries : List Entry}
    (hparse : parse doc = .ok entries) (held : Held) (now : Nat) :
    Kept (Watch.start admission entries held now) := by
  have hrow : ∀ i row rule, Keeps (Watch.start admission entries held now).registry i row rule →
      rule.Regular ∧ row.wallNext = unarmed := by
    rintro i row rule ⟨hrow, hschedule⟩
    unfold Watch.start Registry.arm register at hrow
    rw [getElem?_map, getElem?_map] at hrow
    obtain ⟨row₁, hrow₁, rfl⟩ := map_eq_some_iff.mp hrow
    obtain ⟨entry, hentry, rfl⟩ := map_eq_some_iff.mp hrow₁
    rw [arm_entry] at hschedule
    exact ⟨parse_regular hparse (mem_of_getElem? hentry) hschedule, arm_wallNext rfl now⟩
  refine ⟨fun i row rule hk => ?_, rfl, rfl, nofun, nofun,
    nofun, fun i row rule _ => ⟨Nat.zero_le _, nofun⟩⟩
  obtain ⟨hregular, hunarmed⟩ := hrow i row rule hk
  refine ⟨hregular, fun _ => hunarmed, .inl hunarmed, fun hocc => ?_,
    nofun, List.Pairwise.nil⟩
  rw [hunarmed] at hocc
  exact absurd rfl (occurs_range hocc).1.ne

theorem Kept.observe_none (h : Kept s) : Kept (s.observe none) := by
  refine ⟨fun i row rule hk => ?_, rfl, rfl, nofun, nofun,
    nofun, fun i row rule _ => ⟨Nat.zero_le _, nofun⟩⟩
  obtain ⟨row, hold, rfl⟩ :=
    Keeps.of_map (f := fun row => { row with wallNext := unarmed }) (fun _ => rfl) hk
  obtain ⟨hregular, hkept⟩ := h.rows i row rule hold
  exact ⟨hregular, hkept.unarm⟩

/-- Another reading of the generation that the rows are armed against. -/
theorem Kept.observe_same (h : Kept s)
    (hgen : r.generation = s.registry.generation) (hclock : s.Clocked (.observe (some r))) :
    Kept (s.observe (some r)) := by
  have hreg : (s.observe (some r)).registry = { s.registry with wall := some r.minute } := by
    simp [Watch.observe, Registry.observe, hgen]
  have harmed : (s.observe (some r)).armedAt = s.armedAt := by simp [Watch.observe, hgen]
  have hfired : (s.observe (some r)).fired = s.fired := by simp [Watch.observe, hgen]
  have hkeeps : ∀ i row rule, Keeps (s.observe (some r)).registry i row rule →
      Keeps s.registry i row rule := by
    intro i row rule hk
    rw [hreg] at hk
    exact ⟨hk.at_index, hk.schedule⟩
  -- a generation other than the sentinel was read before, at an earlier minute
  have hbefore : r.generation ≠ noGeneration → ∃ p, s.last = some p ∧
      p.generation = r.generation ∧ p.minute ≤ r.minute := by
    intro hne
    have hg := h.generation
    cases hlast : s.last with
    | none =>
      rw [hlast] at hg
      exact absurd (hgen.trans hg) hne
    | some p =>
      rw [hlast] at hg
      have hsame : p.generation = r.generation := (hgen.trans hg).symm
      exact ⟨p, rfl, hsame, (hclock p (h.known p hlast) hsame).1⟩
  refine ⟨fun i row rule hk => ?_, ?_, ?_, ?_, ?_, ?_, fun i row rule _ =>
    ⟨Nat.zero_le _, nofun⟩⟩
  · rw [hfired]
    exact h.rows i row rule (hkeeps i row rule hk)
  · rw [hreg]
    rfl
  · rw [hreg]
    exact hgen.symm
  · rintro p ⟨⟩
    rfl
  · rintro p ⟨⟩ hne
    obtain ⟨q, hq, hsame, hle⟩ := hbefore hne
    rw [harmed]
    exact (h.armedAt q hq (hsame ▸ hne)).trans hle
  · rintro p ⟨⟩ hne hrange i row rule hk
    obtain ⟨q, hq, hsame, -⟩ := hbefore hne
    rw [harmed] at hrange ⊢
    exact h.reaches q hq (hsame ▸ hne) hrange i row rule (hkeeps i row rule hk)

theorem Kept.observe_new (h : Kept s)
    (hgen : r.generation ≠ s.registry.generation) : Kept (s.observe (some r)) := by
  have hreg : (s.observe (some r)).registry = { s.registry with
      wall := some r.minute, generation := r.generation,
      rows := s.registry.rows.map (rearm r) } := by
    simp [Watch.observe, Registry.observe, hgen]
  have harmed : (s.observe (some r)).armedAt = r.minute := by simp [Watch.observe, hgen]
  have hfired : ∀ i, (s.observe (some r)).fired i = if r.set then [] else s.fired i := by
    intro i
    by_cases hset : r.set = true
    · simp [Watch.observe, hset, hgen]
    · simp [Watch.observe, hset]
  have hkeeps : ∀ i row' rule, Keeps (s.observe (some r)).registry i row' rule →
      ∃ row, Keeps s.registry i row rule ∧ row' = row.rearm r := by
    intro i row' rule hk
    rw [hreg] at hk
    exact Keeps.of_map (fun row => rearm_entry row r) hk
  refine ⟨fun i row' rule hk => ?_, ?_, ?_, ?_, ?_, ?_, fun i row rule _ =>
    ⟨Nat.zero_le _, nofun⟩⟩
  · obtain ⟨row, hold, rfl⟩ := hkeeps i row' rule hk
    obtain ⟨hregular, hkept⟩ := h.rows i row rule hold
    rw [hfired]
    exact ⟨hregular, hkept.rearm hold.schedule r⟩
  · rw [hreg]
    rfl
  · rw [hreg]
    rfl
  · rintro p ⟨⟩
    rfl
  · rintro p ⟨⟩ -
    exact harmed.le
  · rintro p ⟨⟩ - hrange i row' rule hk hadmitted
    obtain ⟨row, hold, rfl⟩ := hkeeps i row' rule hk
    rw [rearm_endowment] at hadmitted
    obtain ⟨hregular, hkept⟩ := h.rows i row rule hold
    rw [harmed] at hrange ⊢
    rw [rearm_eq hold.schedule hadmitted]
    have hne := next_getD_ne rule (max r.minute (if r.set then unstamped else row.stamp))
    constructor
    · split
      · exact hne
      · rcases min_choice row.wallNext
          ((next rule (max r.minute (if r.set then unstamped else row.stamp))).getD spent) with
          hmin | hmin
        · rw [hmin]
          assumption
        · rw [hmin]
          exact hne
    · intro t hocc hminute hstamp
      have hfresh := next_getD_le hregular (hrange.trans (le_max_left _ _)) hocc
        (max_lt hminute hstamp)
      split
      · exact hfresh
      · exact (min_le_right _ _).trans hfresh

theorem Keeps.of_fire {r : Row ε ρ} (h : Keeps { reg with rows := reg.rows.set i r } j row' rule) :
    (j ≠ i ∧ Keeps reg j row' rule) ∨ (j = i ∧ row' = r) := by
  obtain ⟨hat, hschedule⟩ := h
  by_cases hij : j = i
  · subst hij
    rw [getElem?_set_self'] at hat
    obtain ⟨-, -, rfl⟩ := map_eq_some_iff.mp hat
    exact .inr ⟨rfl, rfl⟩
  · rw [getElem?_set_ne (Ne.symm hij)] at hat
    exact .inl ⟨hij, hat, hschedule⟩

theorem due_entry (h : row.due wall now = some row') : row'.entry = row.entry := by
  unfold due at h
  split at h
  · split at h
    · cases h
    · split_ifs at h
      cases h
      rfl
  all_goals
    split_ifs at h
    cases h
    rfl

theorem fire_fired_self (hat : s.registry.rows[i]? = some row) :
    (s.fire i reg).fired i = row.wallNext :: s.fired i := by
  simp [Watch.fire, hat]

theorem fire_fired_ne (hij : j ≠ i) : (s.fire i reg).fired j = s.fired j := if_neg hij

theorem Kept.fire (h : Kept s) {now i : Nat}
    (hdue : s.registry.due now = some (i, reg)) : Kept (s.fire i reg) := by
  obtain ⟨row, row', hat, hrow, rfl⟩ := due_some hdue
  have hself : ∀ rule, row'.entry.schedule = .calendar rule → Keeps s.registry i row rule := by
    intro rule hschedule
    rw [due_entry hrow] at hschedule
    exact ⟨hat, hschedule⟩
  refine ⟨fun j r rule hk => ?_, h.wall, h.generation, h.known, h.armedAt,
    fun p hp hne hrange j r rule hk hadmitted => ?_, fun j r rule hk => ?_⟩
  · rcases Keeps.of_fire hk with ⟨hij, hk⟩ | ⟨rfl, rfl⟩
    · rw [fire_fired_ne hij]
      exact h.rows j r rule hk
    · have hold := hself rule hk.schedule
      rw [fire_fired_self hat]
      obtain ⟨hregular, hkept⟩ := h.rows j row rule hold
      exact ⟨hregular, (hkept.due hold.schedule hrow).2.2.1⟩
  · rcases Keeps.of_fire hk with ⟨hij, hk⟩ | ⟨rfl, rfl⟩
    · exact h.reaches p hp hne hrange j r rule hk hadmitted
    · -- it is armed anew at the clock's minute, which is its stamp now
      have hold := hself rule hk.schedule
      obtain ⟨hregular, hkept⟩ := h.rows j row rule hold
      obtain ⟨-, -, -, -, w, hw, -, rfl⟩ := hkept.due hold.schedule hrow
      have hlast : s.last = some p := hp
      have hwall : w = p.minute := by
        have := h.wall
        rw [hlast, hw] at this
        exact Option.some.inj this
      have harmed : s.armedAt ≤ w := hwall ▸ h.armedAt p hlast hne
      refine ⟨next_getD_ne rule w, fun t hocc _ hlt => ?_⟩
      exact next_getD_le hregular (le_trans hrange harmed) hocc hlt
  · rcases Keeps.of_fire hk with ⟨hij, hk⟩ | ⟨rfl, rfl⟩
    · obtain ⟨hcount, hdone⟩ := h.pass j r rule hk
      refine ⟨?_, fun hmem => hdone ?_⟩
      · rw [Watch.fire, count_cons_of_ne (Ne.symm hij)]
        exact hcount
      · exact (mem_cons.mp hmem).resolve_left hij
    · have hold := hself rule hk.schedule
      obtain ⟨-, hkept⟩ := h.rows j row rule hold
      obtain ⟨-, hdone⟩ := h.pass j row rule hold
      have hfirst : j ∉ s.pass := by
        intro hmem
        rw [hdone hmem now] at hrow
        cases hrow
      refine ⟨?_, fun _ => (hkept.due hold.schedule hrow).2.2.2.1⟩
      rw [Watch.fire, count_cons_self, count_eq_zero_of_not_mem hfirst]

theorem Kept.step (h : Kept s) {a : Action} (hclock : s.Clocked a) (hstep : s.step a = some s') :
    Kept s' := by
  cases a with
  | observe reading =>
    cases hstep
    cases reading with
    | none => exact h.observe_none
    | some r =>
      by_cases hgen : r.generation = s.registry.generation
      · exact h.observe_same hgen hclock
      · exact h.observe_new hgen
  | due now =>
    simp only [Watch.step] at hstep
    split at hstep
    · cases hstep
      exact h
    case h_2 i reg hdue =>
      cases hstep
      exact h.fire hdue

/-! ### Passes -/

/-- A calendar row fires in a pass exactly when the clock has reached what it is armed for. -/
theorem Pass.mem_iff {reg reg' : Registry ε ρ} {l : List Nat} (h : Pass reg l reg')
    (hk : Keeps reg i row rule) : i ∈ l ↔ ∃ w, reg.wall = some w ∧ row.wallNext ≠ unarmed ∧
      row.wallNext ≠ spent ∧ row.wallNext ≤ w := by
  induction h with
  | done hnone =>
    simp only [not_mem_nil, false_iff]
    rintro ⟨w, hw, hun, hspent, hle⟩
    have hrow := due_none hnone (mem_of_getElem? hk.at_index)
    rcases (due_calendar_none hk.schedule).mp hrow w hw with heq | heq | hlt
    · exact hun heq
    · exact hspent heq
    · omega
  | @fire reg reg' reg'' now j l hdue _ ih =>
    obtain ⟨r, r', hat, hrow, rfl⟩ := due_some hdue
    by_cases hij : i = j
    · subst hij
      rw [hk.at_index] at hat
      cases hat
      obtain ⟨w, hw, hun, hspent, hle, -⟩ := (due_calendar hk.schedule).mp hrow
      simp only [mem_cons, true_or, true_iff]
      exact ⟨w, hw, hun, hspent, hle⟩
    · rw [mem_cons, or_iff_right hij]
      refine ih ⟨?_, hk.schedule⟩
      rw [getElem?_set_ne (Ne.symm hij)]
      exact hk.at_index

/-! ### The step rule -/

structure Lawful (s : Watch ε ρ) : Prop where
  /-- A calendar row that fires was admitted, the last observation was known, and the clock has
  reached the occurrence it is armed for. -/
  fires : ∀ now i reg, s.registry.due now = some (i, reg) →
    ∀ row rule, Keeps s.registry i row rule →
      row.endowment ≠ none ∧ ∃ r, s.last = some r ∧ rule.Occurs row.wallNext ∧
        row.wallNext ≤ r.minute
  /-- The occurrences that a row fires for until the stamps are cleared are increasing. -/
  increasing : ∀ i row rule, Keeps s.registry i row rule → (s.fired i).Pairwise (· > ·)
  /-- A row fires at most once between two observations. -/
  once : ∀ i row rule, Keeps s.registry i row rule → s.pass.count i ≤ 1
  /-- Within a generation, after a whole pass, a row fires in the next one exactly if an occurrence
  after its stamp lies between the two readings. -/
  exactly : ∀ p now, s.last = some p → p.generation ≠ noGeneration →
    firstDay * minutesPerDay ≤ s.armedAt → s.registry.due now = none →
      ∀ r : WallReading, r.generation = p.generation →
        ∀ l reg', Pass (s.registry.observe (some r)) l reg' →
          ∀ i row rule, Keeps s.registry i row rule → row.endowment ≠ none →
            (i ∈ l ↔ ∃ t, rule.Occurs t ∧ p.minute < t ∧ row.stamp < t ∧ t ≤ r.minute)

theorem Kept.lawful (h : Kept s) : Lawful s := by
  refine ⟨fun now i reg hdue row rule hk => ?_, fun i row rule hk => ?_, fun i row rule hk => ?_,
    fun p now hp hne hrange hnone r hgen l reg' hpass i row rule hk hadmitted => ?_⟩
  · obtain ⟨-, hkept⟩ := h.rows i row rule hk
    obtain ⟨r, r', hat, hrow, -⟩ := due_some hdue
    rw [hk.at_index] at hat
    cases hat
    obtain ⟨hadmitted, hocc, -, -, w, hw, hle, -⟩ := hkept.due hk.schedule hrow
    have hwall := h.wall
    rw [hw] at hwall
    obtain ⟨p, hp, rfl⟩ := map_eq_some_iff.mp hwall.symm
    exact ⟨hadmitted, p, hp, hocc, hle⟩
  · exact (h.rows i row rule hk).2.increasing
  · exact (h.pass i row rule hk).1
  · obtain ⟨-, hkept⟩ := h.rows i row rule hk
    obtain ⟨hun, hreach⟩ := h.reaches p hp hne hrange i row rule hk hadmitted
    have harmed := h.armedAt p hp hne
    have hobserve : s.registry.observe (some r) = { s.registry with wall := some r.minute } := by
      have hg := h.generation
      rw [hp] at hg
      exact if_pos (hgen.trans hg.symm)
    rw [hobserve] at hpass
    have hrow : ∀ w, s.registry.wall = some w → _ :=
      (due_calendar_none hk.schedule).mp (due_none hnone (mem_of_getElem? hk.at_index))
    have hwall : s.registry.wall = some p.minute := by rw [h.wall, hp]; rfl
    rw [hpass.mem_iff (i := i) ⟨hk.at_index, hk.schedule⟩]
    constructor
    · rintro ⟨w, ⟨⟩, -, hspent, hle⟩
      have hocc := (h.rows i row rule hk).2.armed.resolve_left hun |>.resolve_left hspent
      refine ⟨row.wallNext, hocc, ?_, hkept.after_stamp hocc, hle⟩
      rcases hrow _ hwall with heq | heq | hlt
      · exact absurd heq hun
      · exact absurd heq hspent
      · exact hlt
    · rintro ⟨t, hocc, hminute, hstamp, hle⟩
      have hnext := hreach t hocc (lt_of_le_of_lt harmed hminute) hstamp
      refine ⟨r.minute, rfl, hun, fun heq => ?_, hnext.trans hle⟩
      have := (occurs_range hocc).2
      omega

def dailyDoc : Text := "every day at 02:00 least_authority_demo 7\n".toList

def dailyRule : Rule := { Recurrence.plain with hours := 4, minutes := 1 }

def dailyEntries : List Entry :=
  [{ line := 1, schedule := .calendar dailyRule, command := "least_authority_demo 7".toList }]

theorem parse_dailyDoc : parse dailyDoc = .ok dailyEntries := by decide +kernel

/-- The timetable of `dailyDoc`, with a clock. -/
def dailyStart : Watch Unit Unit :=
  Watch.start (fun _ _ => .fires ()) dailyEntries
    { memPages := 0, clock := true, domain := false, dir := false, interrupt := false,
      report := false } 0

/-- Two o'clock comes, the row fires, and the clock is stepped back by twenty minutes. -/
def steppedBack : List Action :=
  [.observe (some ⟨110, 1, false⟩), .due 0, .observe (some ⟨120, 1, false⟩), .due 0, .due 0,
    .observe (some ⟨100, 2, false⟩), .due 0]

end Nife.Timetable
