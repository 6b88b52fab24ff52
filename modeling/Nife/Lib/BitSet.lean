/-
A machine word as a set of small numbers: `i` is in it when bit `i` is set.  The two idioms
for walking such a set are the count of trailing zeros, which is its least element, and
`x & (x - 1)`, which takes that element out.  `forEach` is the loop built from the two, and
`forEach_eq` says that it visits each element once, from the least to the greatest.
`below` is the set of the numbers under a bound, `(1 << k) - 1`.
-/
import Mathlib.Data.List.Range
import Mathlib.Data.List.Sort
import Mathlib.Data.Nat.Bitwise

namespace BitSet

open List BitVec

variable {w : Nat} {x : BitVec w} {i : Nat}

/-- The elements, from the least to the greatest. -/
def elements (x : BitVec w) : List Nat := (List.range w).filter x.getLsbD

theorem mem_elements : i ∈ elements x ↔ x.getLsbD i = true := by
  rw [elements, mem_filter, mem_range]
  exact and_iff_right_of_imp lt_of_getLsbD

theorem nodup_elements (x : BitVec w) : (elements x).Nodup := nodup_range.filter _

/-- A number is an odd one times the power of two at its lowest set bit. -/
theorem eq_two_pow_mul {n k : Nat} (hlow : ∀ i < k, n.testBit i = false) (hk : n.testBit k = true) :
    n = 2 ^ k * (2 * (n / 2 ^ (k + 1)) + 1) := by
  have hmod : n % 2 ^ k = 0 := by
    apply Nat.eq_of_testBit_eq
    intro i
    rw [Nat.zero_testBit]
    by_cases hi : i < k
    · simp [hlow i hi]
    · simp [hi]
  have hodd : n / 2 ^ k % 2 = 1 := by
    simpa [Nat.testBit, Nat.shiftRight_eq_div_pow, Nat.one_and_eq_mod_two] using hk
  have hdiv : n / 2 ^ (k + 1) = n / 2 ^ k / 2 := by rw [Nat.pow_succ, Nat.div_div_eq_div_mul]
  calc n = 2 ^ k * (n / 2 ^ k) := (Nat.mul_div_cancel' (Nat.dvd_of_mod_eq_zero hmod)).symm
    _ = 2 ^ k * (2 * (n / 2 ^ (k + 1)) + 1) := by
        congr 1
        omega

/-- **`x & (x - 1)` takes out the least element and nothing else.** -/
theorem getLsbD_clearLowest (hx : x ≠ 0#w) (i : Nat) :
    (x &&& (x - 1#w)).getLsbD i = (x.getLsbD i && decide (i ≠ x.ctz.toNat)) := by
  have hmem := getLsbD_true_ctz_of_ne_zero hx
  have hlow : ∀ j < x.ctz.toNat, x.toNat.testBit j = false :=
    fun j hj => getLsbD_false_of_lt_ctz hj
  generalize x.ctz.toNat = k at hmem hlow ⊢
  have hform := eq_two_pow_mul hlow hmem
  generalize x.toNat / 2 ^ (k + 1) = m at hform
  have hpos : 0 < 2 ^ k := Nat.two_pow_pos k
  -- one less borrows from bit `k`, and sets the bits below it
  have hpred : (x - 1#w).toNat = 2 ^ k * (2 * m) + (2 ^ k - 1) := by
    have hw : 0 < w := Nat.zero_lt_of_lt (lt_of_getLsbD hmem)
    have hone : (1#w).toNat = 1 := by simp [Nat.mod_eq_of_lt (Nat.one_lt_two_pow hw.ne')]
    have hle : 1#w ≤ x := by
      rw [le_def, hone, hform]
      exact Nat.mul_pos hpos (Nat.succ_pos _)
    rw [toNat_sub_of_le hle, hone, hform, Nat.mul_add]
    omega
  have hbit : x.getLsbD i = (2 ^ k * (2 * m + 1) + 0).testBit i := congrArg (Nat.testBit · i) hform
  have hbit' : (x - 1#w).getLsbD i = (2 ^ k * (2 * m) + (2 ^ k - 1)).testBit i :=
    congrArg (Nat.testBit · i) hpred
  rw [getLsbD_and, hbit, hbit', Nat.testBit_two_pow_mul_add _ hpos,
    Nat.testBit_two_pow_mul_add _ (Nat.sub_lt hpos Nat.one_pos)]
  rcases Nat.lt_trichotomy i k with hi | rfl | hi
  · simp [hi]
  · simp
  · obtain ⟨j, rfl⟩ := Nat.exists_eq_add_of_lt hi
    have hsub : k + j + 1 - k = j + 1 := by omega
    have hne : k + j + 1 ≠ k := by omega
    have hge : ¬ k + j + 1 < k := by omega
    simp [hsub, hne, hge, Nat.testBit_succ, Nat.mul_add_div]

theorem toNat_clearLowest_lt (hx : x ≠ 0#w) : (x &&& (x - 1#w)).toNat < x.toNat := by
  refine Nat.lt_of_le_of_ne (by rw [toNat_and]; exact Nat.and_le_left) fun heq => ?_
  have hbits := getLsbD_clearLowest hx x.ctz.toNat
  rw [eq_of_toNat_eq heq, getLsbD_true_ctz_of_ne_zero hx] at hbits
  simp at hbits

/-- Visit the elements: the count of trailing zeros is the next one, and `x & (x - 1)` the
rest. -/
def forEach {S : Type*} (f : S → Nat → S) (s : S) (x : BitVec w) : S :=
  if x = 0#w then s else forEach f (f s x.ctz.toNat) (x &&& (x - 1#w))
termination_by x.toNat
decreasing_by exact toNat_clearLowest_lt ‹_›

theorem elements_eq_cons (hx : x ≠ 0#w) :
    elements x = x.ctz.toNat :: elements (x &&& (x - 1#w)) := by
  have hmem := getLsbD_true_ctz_of_ne_zero hx
  have hlow : ∀ j, x.getLsbD j = true → x.ctz.toNat ≤ j := by
    intro j hj
    by_contra hlt
    rw [getLsbD_false_of_lt_ctz (Nat.lt_of_not_le hlt)] at hj
    cases hj
  -- both sides are sorted and have the same members
  have hsorted : ∀ y : BitVec w, (elements y).Pairwise (· < ·) :=
    fun y => pairwise_lt_range.filter _
  refine List.SortedLT.eq_of_mem_iff (hsorted x).sortedLT
    (pairwise_cons.mpr ⟨?_, hsorted _⟩).sortedLT fun j => ?_
  · intro j hj
    rw [mem_elements, getLsbD_clearLowest hx, Bool.and_eq_true, decide_eq_true_eq] at hj
    exact lt_of_le_of_ne (hlow j hj.1) (Ne.symm hj.2)
  · rw [mem_cons, mem_elements, mem_elements, getLsbD_clearLowest hx, Bool.and_eq_true]
    by_cases hj : j = x.ctz.toNat
    · simp [hj, hmem]
    · simp [hj]

/-- **The loop is a fold over the elements.** -/
theorem forEach_eq {S : Type*} (f : S → Nat → S) (s : S) (x : BitVec w) :
    forEach f s x = (elements x).foldl f s := by
  fun_induction forEach f s x with
  | case1 s =>
    have hnil : elements (0#w) = [] := by simp [elements]
    rw [hnil, foldl_nil]
  | case2 s x hx ih => rw [elements_eq_cons hx, foldl_cons, ih]

/-- The numbers below `k`. -/
def below (w k : Nat) : BitVec w := (1#w <<< k) - 1#w

theorem getLsbD_below {k : Nat} (hk : k < w) : (below w k).getLsbD i = decide (i < k) := by
  have hlt : 2 ^ k < 2 ^ w := Nat.pow_lt_pow_right (by decide) hk
  have hpos : 0 < 2 ^ k := Nat.two_pow_pos k
  have hone : (1#w).toNat = 1 := by
    exact Nat.mod_eq_of_lt (by omega)
  have hshift : (1#w <<< k).toNat = 2 ^ k := by
    rw [toNat_shiftLeft, hone, Nat.shiftLeft_eq, Nat.one_mul, Nat.mod_eq_of_lt hlt]
  have hnat : (below w k).toNat = 2 ^ k - 1 := by
    rw [below, toNat_sub_of_le, hshift, hone]
    rw [le_def, hshift, hone]
    exact hpos
  rw [← testBit_toNat, hnat, Nat.testBit_two_pow_sub_one]

end BitSet
