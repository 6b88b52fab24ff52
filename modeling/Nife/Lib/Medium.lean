/-
Addressed media: a content is a function from addresses to cells.  `window` reads a stretch
of it, `overlay` is the content after a stretch was written.  A write that stops half way has
laid down a prefix of its data, so the laws are stated for prefixes and for a write cut in two.
-/
import Mathlib.Tactic.Common

namespace Medium

open List

variable {B : Type*} {m : Nat → B} {addr a n k : Nat} {data xs ys : List B}

/-- The `n` cells from `addr` on. -/
def window (m : Nat → B) (addr n : Nat) : List B := (List.range n).map fun i => m (addr + i)

/-- The content after `data` was laid down at `addr`. -/
def overlay (m : Nat → B) (addr : Nat) (data : List B) : Nat → B := fun a =>
  if a < addr then m a else (data[a - addr]?).getD (m a)

section

variable (m : Nat → B)

@[simp] theorem length_window (addr n : Nat) : (window m addr n).length = n := by
  simp [window]

theorem getElem?_window (addr : Nat) (h : a < n) : (window m addr n)[a]? = some (m (addr + a)) := by
  simp [window, h]

@[simp] theorem window_zero (addr : Nat) : window m addr 0 = [] := rfl

theorem window_add (addr n k : Nat) :
    window m addr (n + k) = window m addr n ++ window m (addr + n) k := by
  simp [window, range_add, Nat.add_assoc]

theorem take_window (addr : Nat) (h : k ≤ n) : (window m addr n).take k = window m addr k := by
  obtain ⟨d, rfl⟩ := Nat.exists_eq_add_of_le h
  rw [window_add, take_left' (length_window ..)]

theorem drop_window (addr : Nat) (h : k ≤ n) :
    (window m addr n).drop k = window m (addr + k) (n - k) := by
  obtain ⟨d, rfl⟩ := Nat.exists_eq_add_of_le h
  rw [window_add, drop_left' (length_window ..), Nat.add_sub_cancel_left]

end

theorem window_congr {m' : Nat → B} (h : ∀ a, addr ≤ a → a < addr + n → m a = m' a) :
    window m addr n = window m' addr n := by
  refine map_congr_left fun i hi => h _ (Nat.le_add_right ..) ?_
  have hi := mem_range.mp hi
  omega

theorem overlay_of_lt (h : a < addr) : overlay m addr data a = m a := if_pos h

theorem overlay_of_le (h : addr + data.length ≤ a) : overlay m addr data a = m a := by
  unfold overlay
  rw [if_neg (by omega), getElem?_eq_none (by omega)]
  rfl

section

variable (m : Nat → B)

theorem overlay_add (addr : Nat) (data : List B) (a : Nat) :
    overlay m addr data (addr + a) = (data[a]?).getD (m (addr + a)) := by
  unfold overlay
  rw [if_neg (by omega), Nat.add_sub_cancel_left]

@[simp] theorem overlay_nil (addr : Nat) : overlay m addr [] = m := by
  funext a
  exact ite_self _

theorem overlay_append (addr : Nat) (xs ys : List B) :
    overlay m addr (xs ++ ys) = overlay (overlay m addr xs) (addr + xs.length) ys := by
  funext a
  unfold overlay
  by_cases hlt : a < addr
  · rw [if_pos hlt, if_pos (by omega), if_pos hlt]
  · rw [if_neg hlt]
    by_cases hin : a < addr + xs.length
    · rw [if_pos hin, if_neg hlt, getElem?_append_left (by omega)]
    · rw [if_neg hin, if_neg hlt, getElem?_append_right (by omega),
        getElem?_eq_none (l := xs) (by omega), Nat.sub_sub]
      rfl

/-- A write goes on `n` cells later with the rest of its data. -/
theorem overlay_take_add (addr n k : Nat) (data : List B) :
    overlay (overlay m addr (data.take n)) (addr + n) ((data.drop n).take k)
      = overlay m addr (data.take (n + k)) := by
  rw [take_add, overlay_append]
  by_cases hn : n ≤ data.length
  · rw [length_take, Nat.min_eq_left hn]
  · rw [drop_of_length_le (by omega), take_nil, overlay_nil, overlay_nil]

theorem overlay_drop (addr n : Nat) (data : List B) :
    overlay (overlay m addr (data.take n)) (addr + n) (data.drop n) = overlay m addr data := by
  have hall : data.take (n + (data.drop n).length) = data := by
    rw [take_of_length_le (by rw [length_drop]; omega)]
  have h := overlay_take_add m addr n (data.drop n).length data
  rwa [take_length, hall] at h

theorem window_overlay_self (addr : Nat) (data : List B) :
    window (overlay m addr data) addr data.length = data := by
  refine ext_getElem? fun i => ?_
  by_cases hi : i < data.length
  · rw [getElem?_window _ _ hi, overlay_add, getElem?_eq_getElem hi]
    rfl
  · rw [getElem?_eq_none (by simpa using hi), getElem?_eq_none (by omega)]

end

/-- A write leaves every stretch that it does not meet. -/
theorem window_overlay_of_disjoint {at' : Nat} (h : at' + n ≤ addr ∨ addr + data.length ≤ at') :
    window (overlay m addr data) at' n = window m at' n := by
  refine window_congr fun a ha ha' => ?_
  rcases h with h | h
  · exact overlay_of_lt (by omega)
  · exact overlay_of_le (by omega)

/-- Writing a stretch back over itself with a new front is writing the front. -/
theorem overlay_front (m : Nat → B) (addr : Nat) (data : List B) (n : Nat) :
    overlay m addr (data ++ window m (addr + data.length) n) = overlay m addr data := by
  rw [overlay_append]
  funext a
  by_cases hin : addr + data.length ≤ a ∧ a < addr + data.length + n
  · obtain ⟨d, rfl⟩ := Nat.exists_eq_add_of_le hin.1
    rw [overlay_add, getElem?_window _ _ (by omega)]
    exact (overlay_of_le (by omega)).symm
  · by_cases hlt : a < addr + data.length
    · exact overlay_of_lt hlt
    · exact overlay_of_le (by simp; omega)

/-- A prefix of a stretch written back over itself with a new front is a prefix of the front. -/
theorem overlay_take_front (m : Nat → B) (addr : Nat) (data : List B) (n k : Nat) :
    overlay m addr ((data ++ window m (addr + data.length) n).take k)
      = overlay m addr (data.take k) := by
  rw [take_append]
  by_cases hk : k ≤ data.length
  · rw [Nat.sub_eq_zero_of_le hk, take_zero, append_nil]
  · have hwin : (window m (addr + data.length) n).take (k - data.length)
        = window m (addr + data.length) (min (k - data.length) n) := by
      by_cases hn : k - data.length ≤ n
      · rw [take_window _ _ hn, Nat.min_eq_left hn]
      · rw [take_of_length_le (by simp; omega), Nat.min_eq_right (by omega)]
    rw [take_of_length_le (by omega), hwin, overlay_front]

end Medium
