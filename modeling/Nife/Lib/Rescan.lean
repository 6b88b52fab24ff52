/-
Loops of the form "find something to do, do it, look again".  `rescan pick act n s`
makes at most `n` rounds; each looks for work with `pick` and does it with `act`.

What one round preserves, the loop preserves (`rescan_invariant`).
-/
import Mathlib.Tactic.Common

namespace Rescan

variable {S A : Type*} {pick : S → Option A} {act : S → A → S}

/-- At most `n` rounds of finding work and doing it. -/
def rescan (pick : S → Option A) (act : S → A → S) : Nat → S → S
  | 0, s => s
  | n + 1, s =>
    match pick s with
    | none => s
    | some a => rescan pick act n (act s a)

/-- **The loop rule.**  What every round keeps, the loop keeps. -/
theorem rescan_invariant (I : S → Prop)
    (hact : ∀ s a, I s → pick s = some a → I (act s a)) (n : Nat) {s : S} (h : I s) :
    I (rescan pick act n s) := by
  induction n generalizing s with
  | zero => exact h
  | succ n ih =>
    unfold rescan
    rcases hp : pick s with - | a
    · exact h
    · exact ih (hact s a h hp)

end Rescan
