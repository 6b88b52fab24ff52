/-
Programs that ask.  A `Dialogue` is a program that puts questions to another party and goes on
with what it is answered; `play` runs it against a list of answers.  The other party is a partial
step function: `none` means that it cannot give this answer to this question in this state.

`play` also records every question with the state it found, so that what a program may ask is a
statement about the record.
-/
import Mathlib.Tactic.Common

/-- A program that asks questions in `Q`, is answered in `A` and ends with an `R`. -/
inductive Dialogue (Q A R : Type*) where
  | done (r : R)
  | ask (q : Q) (k : A → Dialogue Q A R)

namespace Dialogue

variable {Q A R S : Type*}

/-- What a dialogue came to: the other party's state, the result and the questions asked. -/
structure Played (S Q R : Type*) where
  state : S
  result : R
  asked : List (S × Q)

/-- Play a dialogue; the answers are exactly the ones it asks for. -/
def play (step : S → Q → A → Option S) : S → List A → Dialogue Q A R → Option (Played S Q R)
  | s, [], .done r => some ⟨s, r, []⟩
  | s, a :: answers, .ask q k =>
    (step s q a).bind fun s' =>
      (play step s' answers (k a)).map fun p => { p with asked := (s, q) :: p.asked }
  | _, _ :: _, .done _ => none
  | _, [], .ask _ _ => none

variable {step : S → Q → A → Option S} {s : S} {answers : List A} {p : Played S Q R} {r : R}

theorem play_done (h : play step s answers (.done r : Dialogue Q A R) = some p) :
    p = ⟨s, r, []⟩ := by
  cases answers with
  | nil =>
    cases h
    rfl
  | cons a answers => cases h

theorem play_ask {q : Q} {k : A → Dialogue Q A R} (h : play step s answers (.ask q k) = some p) :
    ∃ a rest s' p', answers = a :: rest ∧ step s q a = some s' ∧
      play step s' rest (k a) = some p' ∧ p = { p' with asked := (s, q) :: p'.asked } := by
  cases answers with
  | nil => cases h
  | cons a rest =>
    obtain ⟨s', hs, h⟩ := Option.bind_eq_some_iff.mp h
    obtain ⟨p', hp, rfl⟩ := Option.map_eq_some_iff.mp h
    exact ⟨a, rest, s', p', rfl, hs, hp, rfl⟩

end Dialogue
