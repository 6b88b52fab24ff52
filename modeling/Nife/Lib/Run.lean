/-
Runs of consecutive numbers: a first element and a count.  Two runs are disjoint when no
number lies in both; an empty run is disjoint from everything, wherever it starts.
-/
import Mathlib.Tactic.Common

/-- The numbers `first, first + 1, …`, `count` of them. -/
structure Run where
  (first count : Nat)
  deriving DecidableEq, Repr

namespace Run

variable {a b : Run} {n : Nat}

instance : Membership Nat Run where
  mem r n := r.first ≤ n ∧ n < r.first + r.count

/-- No number lies in both. -/
def Disjoint (a b : Run) : Prop := ∀ n, n ∈ a → n ∉ b

def Within (a b : Run) : Prop := ∀ n, n ∈ a → n ∈ b

theorem disjoint_iff : a.Disjoint b ↔
    a.count = 0 ∨ b.count = 0 ∨ a.first + a.count ≤ b.first ∨ b.first + b.count ≤ a.first := by
  constructor
  · intro h
    by_contra hc
    push Not at hc
    obtain ⟨ha, hb, hab, hba⟩ := hc
    -- the later of the two starts lies in both
    exact h (max a.first b.first) ⟨by omega, by omega⟩ ⟨by omega, by omega⟩
  · rintro h n ⟨ha, ha'⟩ ⟨hb, hb'⟩
    omega

instance : Decidable (a.Disjoint b) := decidable_of_iff _ disjoint_iff.symm

theorem Disjoint.symm (h : a.Disjoint b) : b.Disjoint a := fun n hb ha => h n ha hb

theorem Disjoint.of_le (h : a.first + a.count ≤ b.first) : a.Disjoint b :=
  disjoint_iff.mpr (.inr (.inr (.inl h)))

/-- Of two disjoint runs, the one that ends highest lies wholly above the other. -/
theorem Disjoint.le_of_end (h : a.Disjoint b) (ha : 0 < a.count)
    (hend : a.first + a.count ≤ b.first + b.count) : a.first + a.count ≤ b.first := by
  rcases disjoint_iff.mp h with h | h | h | h
  · omega
  · omega
  · exact h
  · omega

end Run
