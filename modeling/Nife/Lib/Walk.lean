/-
Following links, with a bound on the number of turns.  `nodes next n a` are the nodes met from `a`
in `n` turns; a walk that comes back to a node goes round for ever.  `mem_nodes_of_card` says that
a walk inside a finite set has met all its nodes after as many turns as the set has elements,
whether it ends or goes round.
-/
import Mathlib.Combinatorics.Pigeonhole

namespace Walk

open Option

variable {α : Type*} {next next' : α → Option α} {a b : α} {n k : Nat}

/-- The nodes met from `a` in `n` turns. -/
def nodes (next : α → Option α) : Nat → α → List α
  | 0, _ => []
  | n + 1, a => a :: (next a).elim [] (nodes next n)

/-- The node met in turn `k`. -/
def visit (next : α → Option α) (a : α) : Nat → Option α
  | 0 => some a
  | k + 1 => (visit next a k).bind next

theorem visit_succ (next : α → Option α) (a : α) (k : Nat) :
    visit next a (k + 1) = (next a).bind fun b => visit next b k := by
  induction k with
  | zero =>
    change next a = (next a).bind some
    cases next a <;> rfl
  | succ k ih => rw [visit, ih, bind_assoc]; rfl

theorem mem_nodes : b ∈ nodes next n a ↔ ∃ k < n, visit next a k = some b := by
  induction n generalizing a with
  | zero => simp [nodes]
  | succ n ih =>
    rw [nodes, List.mem_cons]
    constructor
    · rintro (rfl | hb)
      · exact ⟨0, Nat.succ_pos n, rfl⟩
      · cases hnext : next a with
        | none => simp [hnext] at hb
        | some c =>
          rw [hnext] at hb
          obtain ⟨k, hk, hvisit⟩ := ih.mp hb
          exact ⟨k + 1, Nat.succ_lt_succ hk, by rw [visit_succ, hnext]; exact hvisit⟩
    · rintro ⟨k, hk, hvisit⟩
      cases k with
      | zero => exact .inl (Option.some.inj hvisit).symm
      | succ k =>
        rw [visit_succ] at hvisit
        cases hnext : next a with
        | none => simp [hnext] at hvisit
        | some c =>
          rw [hnext] at hvisit
          exact .inr (ih.mpr ⟨k, by omega, hvisit⟩)

theorem visit_add_of_eq {i j : Nat} (h : visit next a i = visit next a j) (t : Nat) :
    visit next a (i + t) = visit next a (j + t) := by
  induction t with
  | zero => exact h
  | succ t ih => rw [← add_assoc, ← add_assoc, visit, visit, ih]

theorem visit_isSome_of_le {i : Nat} (hik : i ≤ k) (h : (visit next a k).isSome) :
    (visit next a i).isSome := by
  induction k with
  | zero =>
    rw [Nat.le_zero.mp hik]
    exact h
  | succ k ih =>
    by_cases hi : i = k + 1
    · rw [hi]
      exact h
    · refine ih (by omega) ?_
      rw [visit] at h
      cases hk : visit next a k with
      | none => simp [hk] at h
      | some _ => rfl

/-- **A walk inside a finite set has met all its nodes after as many turns as there are
elements**; it is enough that it stays inside for that long. -/
theorem mem_nodes_of_card (S : Finset α)
    (hS : ∀ k x, k ≤ S.card → visit next a k = some x → x ∈ S) (h : b ∈ nodes next n a) :
    b ∈ nodes next S.card a := by
  obtain ⟨k, -, hk⟩ := mem_nodes.mp h
  clear h
  -- a late visit repeats an earlier one, since two of the first `card + 1` visits are the same
  induction k using Nat.strong_induction_on with
  | h k ih =>
    by_cases hlt : k < S.card
    · exact mem_nodes.mpr ⟨k, hlt, hk⟩
    have hmaps : ∀ i ∈ Finset.range (S.card + 1), visit next a i ∈ S.map .some := by
      intro i hi
      rw [Finset.mem_range] at hi
      obtain ⟨x, hx⟩ := isSome_iff_exists.mp
        (visit_isSome_of_le (i := i) (k := k) (by omega) (by rw [hk]; rfl))
      rw [hx]
      exact Finset.mem_map_of_mem _ (hS i x (by omega) hx)
    obtain ⟨i, hi, j, hj, hne, heq⟩ := Finset.exists_ne_map_eq_of_card_lt_of_maps_to
      (by rw [Finset.card_map, Finset.card_range]; omega) hmaps
    rw [Finset.mem_range] at hi hj
    rcases lt_or_gt_of_ne hne with hij | hij
    · refine ih (i + (k - j)) (by omega) ?_
      rw [visit_add_of_eq heq, Nat.add_sub_cancel' (by omega), hk]
    · refine ih (j + (k - i)) (by omega) ?_
      rw [visit_add_of_eq heq.symm, Nat.add_sub_cancel' (by omega), hk]

/-- Two link functions that agree on the nodes of a walk give the same walk. -/
theorem nodes_congr (h : ∀ x ∈ nodes next n a, next' x = next x) :
    nodes next' n a = nodes next n a := by
  induction n generalizing a with
  | zero => rfl
  | succ n ih =>
    rw [nodes, nodes, h a List.mem_cons_self]
    cases hnext : next a with
    | none => rfl
    | some c =>
      have htail : nodes next' n c = nodes next n c := by
        refine ih fun x hx => h x ?_
        rw [nodes, hnext]
        exact List.mem_cons_of_mem a hx
      rw [elim_some, elim_some, htail]

end Walk
