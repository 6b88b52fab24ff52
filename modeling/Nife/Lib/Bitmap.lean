/-
One bit per number, packed into bytes.  A `Bitmap n` has room for the numbers below `n`; the
last byte may hold padding bits, which no number below `n` reads.  `get_set` is the whole
behaviour of the two operations: a write changes the number it names and no other.  `members`
is the set a bitmap stands for, and its size is what a counter kept beside the bitmap counts.
-/
import Mathlib.Order.Interval.Finset.Nat

/-- Bytes with room for one bit for each number below `n`. -/
structure Bitmap (n : Nat) where
  bytes : List (BitVec 8)
  fits : n ≤ 8 * bytes.length
  deriving DecidableEq, Repr

namespace Bitmap

open List BitVec

variable {n : Nat} {m : Bitmap n} {i j : Nat} {l : List Nat}

/-- The mask of `i` in its byte. -/
def mask (i : Nat) : BitVec 8 := 1#8 <<< (i % 8)

/-- The bit of `i`. -/
def get (m : Bitmap n) (i : Nat) : Bool := m.bytes.getD (i / 8) 0#8 &&& mask i != 0#8

/-- Write the bit of `i`. -/
def set (m : Bitmap n) (i : Nat) (b : Bool) : Bitmap n where
  bytes := m.bytes.modify (i / 8) fun byte => if b then byte ||| mask i else byte &&& ~~~mask i
  fits := by
    rw [length_modify]
    exact m.fits

/-- Write one byte everywhere. -/
def fill (m : Bitmap n) (byte : BitVec 8) : Bitmap n where
  bytes := List.replicate m.bytes.length byte
  fits := by
    rw [length_replicate]
    exact m.fits

theorem getLsbD_mask (i j : Nat) : (mask i).getLsbD j = decide (j = i % 8) := by
  have hlt : i % 8 < 8 := Nat.mod_lt _ (by decide)
  rw [mask, getLsbD_shiftLeft, getLsbD_one]
  by_cases hj : j = i % 8
  · simp [hj, hlt]
  · simp only [hj, decide_false, Bool.and_eq_false_iff, Bool.not_eq_false', decide_eq_true_iff,
      decide_eq_false_iff_not]
    omega

theorem and_mask_ne_zero (byte : BitVec 8) (i : Nat) :
    (byte &&& mask i != 0#8) = byte.getLsbD (i % 8) := by
  rw [Bool.eq_iff_iff, bne_iff_ne]
  constructor
  · intro h
    by_contra hbit
    apply h
    apply eq_of_getLsbD_eq
    intro j hj
    rw [getLsbD_and, getLsbD_mask]
    by_cases hji : j = i % 8
    · rw [hji]
      simpa using hbit
    · simp [hji]
  · intro hbit h
    have := congrArg (fun x => x.getLsbD (i % 8)) h
    simp [getLsbD_mask, hbit] at this

theorem get_eq : m.get i = (m.bytes.getD (i / 8) 0#8).getLsbD (i % 8) := and_mask_ne_zero _ i

/-- **A write changes the number it names and no other.** -/
theorem get_set (hi : i < n) (b : Bool) (j : Nat) :
    (m.set i b).get j = if j = i then b else m.get j := by
  have hbyte : i / 8 < m.bytes.length := by
    have := m.fits
    omega
  rw [get_eq, get_eq, set, getD_eq_getElem?_getD, getElem?_modify, getD_eq_getElem?_getD]
  by_cases hji : i / 8 = j / 8
  · rw [← hji, List.getElem?_eq_getElem hbyte]
    have hsame : j % 8 = i % 8 ↔ j = i := by omega
    by_cases hj : j = i
    · cases b <;> simp [hj, getLsbD_mask]
    · have hne : ¬j % 8 = i % 8 := fun h => hj (hsame.mp h)
      have hlt : j % 8 < 8 := Nat.mod_lt _ (by decide)
      cases b <;>
        simp only [if_true, Bool.false_eq_true, if_false, if_neg hj, Option.map_eq_map,
          Option.map_some, Option.getD_some, getLsbD_or, getLsbD_and,
          BitVec.getLsbD_not, getLsbD_mask, hne, hlt, decide_false, decide_true, Bool.not_false,
          Bool.and_true, Bool.or_false]
  · have hj : j ≠ i := fun h => hji (by rw [h])
    simp [hji, hj]

theorem get_fill_ones (hi : i < n) : (m.fill 0xff#8).get i = true := by
  have hbyte : i / 8 < m.bytes.length := by
    have := m.fits
    omega
  have hbit : i % 8 < 8 := Nat.mod_lt _ (by decide)
  have hones : (0xff#8) = BitVec.allOnes 8 := rfl
  rw [get_eq, fill, getD_eq_getElem?_getD, getElem?_replicate, if_pos hbyte,
    Option.getD_some, hones, getLsbD_allOnes, decide_eq_true hbit]

/-! ### The set a bitmap stands for -/

/-- The numbers below `n` whose bit is set. -/
def members (m : Bitmap n) : Finset Nat := (Finset.range n).filter fun i => m.get i = true

theorem mem_members : i ∈ m.members ↔ i < n ∧ m.get i = true := by
  rw [members, Finset.mem_filter, Finset.mem_range]

theorem card_members_fill_ones : (m.fill 0xff#8).members.card = n := by
  rw [members, Finset.filter_true_of_mem, Finset.card_range]
  intro i hi
  exact get_fill_ones (Finset.mem_range.mp hi)

theorem members_set_true (hi : i < n) : (m.set i true).members = insert i m.members := by
  ext j
  rw [mem_members, get_set hi, Finset.mem_insert, mem_members]
  by_cases hj : j = i <;> simp [hj, hi]

theorem members_set_false (hi : i < n) : (m.set i false).members = m.members.erase i := by
  ext j
  rw [mem_members, get_set hi, Finset.mem_erase, mem_members]
  by_cases hj : j = i <;> simp [hj]

theorem card_set_true (hi : i < n) (h : m.get i = false) :
    (m.set i true).members.card = m.members.card + 1 := by
  rw [members_set_true hi, Finset.card_insert_of_notMem]
  rw [mem_members, h]
  simp

theorem card_set_false (hi : i < n) (h : m.get i = true) :
    (m.set i false).members.card + 1 = m.members.card := by
  rw [members_set_false hi, Finset.card_erase_add_one]
  exact mem_members.mpr ⟨hi, h⟩

def setAll (m : Bitmap n) (l : List Nat) : Bitmap n := l.foldl (fun m i => m.set i true) m

theorem get_setAll (hl : ∀ i ∈ l, i < n) (j : Nat) :
    (m.setAll l).get j = if j ∈ l then true else m.get j := by
  induction l generalizing m with
  | nil => simp [setAll]
  | cons i l ih =>
    have htail : ((m.set i true).setAll l).get j = _ :=
      ih fun k hk => hl k (mem_cons_of_mem i hk)
    rw [setAll, foldl_cons]
    rw [setAll] at htail
    rw [htail, get_set (hl i mem_cons_self)]
    by_cases hj : j ∈ l
    · simp [hj]
    · simp [hj]

/-- Setting distinct numbers that were all clear adds as many members. -/
theorem card_setAll (hl : ∀ i ∈ l, i < n) (hnodup : l.Nodup) (hclear : ∀ i ∈ l, m.get i = false) :
    (m.setAll l).members.card = m.members.card + l.length := by
  induction l generalizing m with
  | nil => simp [setAll]
  | cons i l ih =>
    have hi : i < n := hl i mem_cons_self
    have hne : ∀ k ∈ l, k ≠ i := fun k hk h => (nodup_cons.mp hnodup).1 (h ▸ hk)
    have htail : ((m.set i true).setAll l).members.card = _ :=
      ih (fun k hk => hl k (mem_cons_of_mem i hk)) (nodup_cons.mp hnodup).2 (by
        intro k hk
        rw [get_set hi, if_neg (hne k hk)]
        exact hclear k (mem_cons_of_mem i hk))
    rw [setAll, foldl_cons]
    rw [setAll] at htail
    rw [htail, card_set_true hi (hclear i mem_cons_self), length_cons]
    omega

end Bitmap
