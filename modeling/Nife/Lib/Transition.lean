/-
Guarded transition systems.  A system is a step function `step : S → A → Option S`
over states `S` and actions `A`; `none` means that the action is not enabled.  An
interleaving of several parties is one sequence of actions, each naming its party.

`Reach step C s t` says that `t` is reached from `s` by steps that each meet the
condition `C` in the state they start from; an unconditional system has
`C := fun _ _ => True`.  The invariant rule `Reach.invariant` is the only induction
over runs that the developments built on it need.  `run` and `runIf` evaluate an
explicit list of actions, so that one concrete run is a `Reach` by computation.
-/
import Mathlib.Tactic.Common

namespace Transition

variable {S A : Type*}

/-- The states reached from `s` by steps that each meet `C` where they start. -/
inductive Reach (step : S → A → Option S) (C : S → A → Prop) (s : S) : S → Prop
  | refl : Reach step C s s
  | tail {t u : S} {a : A} : Reach step C s t → C t a → step t a = some u → Reach step C s u

variable {step : S → A → Option S} {s t : S} {C : S → A → Prop}

/-- **The invariant rule.**  What holds at the start and is kept by every step that
meets the condition holds in every state reached. -/
theorem Reach.invariant (I : S → Prop) (h0 : I s)
    (hstep : ∀ t a u, I t → C t a → step t a = some u → I u)
    (h : Reach step C s t) : I t := by
  induction h with
  | refl => exact h0
  | tail _ hC hs ih => exact hstep _ _ _ ih hC hs

/-- A run that meets a condition meets a weaker one. -/
theorem Reach.mono {D : S → A → Prop} (h : Reach step C s t) (hCD : ∀ t a, C t a → D t a) :
    Reach step D s t := by
  induction h with
  | refl => exact .refl
  | tail _ hC hs ih => exact ih.tail (hCD _ _ hC) hs

/-- Run a list of actions, as long as each is enabled. -/
def run (step : S → A → Option S) : S → List A → Option S
  | s, [] => some s
  | s, a :: as => (step s a).bind fun t => run step t as

/-- Run a list of actions, as long as each is enabled and meets `C`. -/
def runIf (step : S → A → Option S) (C : S → A → Prop) [∀ s a, Decidable (C s a)] :
    S → List A → Option S
  | s, [] => some s
  | s, a :: as => if C s a then (step s a).bind fun t => runIf step C t as else none

theorem Reach.head {u : S} {a : A}
    (hC : C s a) (hs : step s a = some t) (h : Reach step C t u) : Reach step C s u := by
  induction h with
  | refl => exact Reach.refl.tail hC hs
  | tail _ hC' hs' ih => exact ih.tail hC' hs'

theorem Reach.of_runIf [∀ s a, Decidable (C s a)] (as : List A)
    (h : runIf step C s as = some t) : Reach step C s t := by
  induction as generalizing s with
  | nil =>
    cases h
    exact Reach.refl
  | cons a as ih =>
    simp only [runIf] at h
    split at h
    case isTrue hC =>
      obtain ⟨u, hs, hrun⟩ := Option.bind_eq_some_iff.mp h
      exact Reach.head hC hs (ih hrun)
    case isFalse => cases h

theorem Reach.of_run (as : List A)
    (h : run step s as = some t) : Reach step (fun _ _ => True) s t := by
  induction as generalizing s with
  | nil =>
    cases h
    exact Reach.refl
  | cons a as ih =>
    obtain ⟨u, hs, hrun⟩ := Option.bind_eq_some_iff.mp h
    exact Reach.head trivial hs (ih hrun)

end Transition
