/-
Slot arrays: a list of optional entries, read through the entries that are present
(`List.reduceOption`, in slot order).  Writing one slot replaces, inserts or deletes one
entry at its place and leaves the others, in order; `reduceOption_set` says so once, and
the three cases are its instances.
-/
import Mathlib.Data.List.ReduceOption

namespace Slots

open List

variable {α : Type*} {xs : List (Option α)} {i : Nat} {top : Nat}

/-- Writing slot `i` keeps the entries before it and after it. -/
theorem reduceOption_set (y : Option α) (hi : i < xs.length) : (xs.set i y).reduceOption
      = (xs.take i).reduceOption ++ (y.toList ++ (xs.drop (i + 1)).reduceOption) := by
  rw [set_eq_take_append_cons_drop, if_pos hi, reduceOption_append]
  cases y with
  | none => rw [reduceOption_cons_of_none]; rfl
  | some a => rw [reduceOption_cons_of_some]; rfl

theorem reduceOption_split {x : Option α} (hx : xs[i]? = some x) : xs.reduceOption
      = (xs.take i).reduceOption ++ (x.toList ++ (xs.drop (i + 1)).reduceOption) := by
  obtain ⟨hi, hget⟩ := List.getElem?_eq_some_iff.mp hx
  have hset : xs.set i x = xs := by rw [← hget]; exact set_getElem_self hi
  rw [← reduceOption_set x hi, hset]

theorem exists_insert (a : α) (hx : xs[i]? = some none) :
    ∃ pre post, xs.reduceOption = pre ++ post ∧
      (xs.set i (some a)).reduceOption = pre ++ a :: post := by
  obtain ⟨hi, -⟩ := List.getElem?_eq_some_iff.mp hx
  exact ⟨_, _, reduceOption_split hx, reduceOption_set (some a) hi⟩

/-- Where every slot from `top` on is free, there are no entries there. -/
theorem reduceOption_drop (h : ∀ i, top ≤ i → xs[i]?.join = none) :
    (xs.drop top).reduceOption = [] := by
  rw [eq_nil_iff_forall_not_mem]
  intro a ha
  obtain ⟨k, hk⟩ := mem_iff_getElem?.mp (reduceOption_mem_iff.mp ha)
  rw [getElem?_drop] at hk
  have hfree := h (top + k) (Nat.le_add_right ..)
  rw [hk] at hfree
  cases hfree

/-- The entries of a slot array whose slots from `top` on are free are those below it. -/
theorem reduceOption_take (h : ∀ i, top ≤ i → xs[i]?.join = none) :
    (xs.take top).reduceOption = xs.reduceOption := by
  calc (xs.take top).reduceOption = (xs.take top).reduceOption ++ (xs.drop top).reduceOption := by
        rw [reduceOption_drop h, append_nil]
    _ = xs.reduceOption := by rw [← reduceOption_append, take_append_drop]

/-- Apply `f` to the first entry with property `q`. -/
def updateFirst (q : α → Bool) (f : α → α) : List (Option α) → List (Option α)
  | [] => []
  | none :: xs => none :: updateFirst q f xs
  | some a :: xs => if q a then some (f a) :: xs else some a :: updateFirst q f xs

theorem length_updateFirst (q : α → Bool) (f : α → α) (xs : List (Option α)) :
    (updateFirst q f xs).length = xs.length := by
  induction xs with
  | nil => rfl
  | cons x xs ih =>
    cases x with
    | none => rw [updateFirst, length_cons, length_cons, ih]
    | some a =>
      rw [updateFirst]
      split
      · rw [length_cons, length_cons]
      · rw [length_cons, length_cons, ih]

/-- Updating the first entry with a property replaces what `find?` finds. -/
theorem exists_updateFirst {q : α → Bool} {a : α} (f : α → α)
    (h : xs.reduceOption.find? q = some a) :
    ∃ pre post, xs.reduceOption = pre ++ a :: post ∧ (∀ b ∈ pre, ¬ q b) ∧
      (updateFirst q f xs).reduceOption = pre ++ f a :: post := by
  induction xs with
  | nil => cases h
  | cons x xs ih =>
    cases x with
    | none =>
      obtain ⟨pre, post, hxs, hpre, hupd⟩ := ih h
      refine ⟨pre, post, ?_, hpre, ?_⟩
      · rw [reduceOption_cons_of_none, hxs]
      · rw [updateFirst, reduceOption_cons_of_none, hupd]
    | some b =>
      rw [reduceOption_cons_of_some, find?_cons] at h
      by_cases hb : q b
      · simp only [hb] at h
        cases h
        refine ⟨[], xs.reduceOption, ?_, ?_, ?_⟩
        · rw [reduceOption_cons_of_some, nil_append]
        · intro c hc
          cases hc
        · rw [updateFirst, if_pos hb, reduceOption_cons_of_some, nil_append]
      · simp only [hb] at h
        obtain ⟨pre, post, hxs, hpre, hupd⟩ := ih h
        refine ⟨b :: pre, post, ?_, ?_, ?_⟩
        · rw [reduceOption_cons_of_some, hxs, cons_append]
        · intro c hc
          rcases mem_cons.mp hc with rfl | hc
          · exact hb
          · exact hpre c hc
        · rw [updateFirst, if_neg hb, reduceOption_cons_of_some, hupd, cons_append]

/-- Freeing every entry without property `q` filters the entries. -/
theorem reduceOption_map_filter (q : α → Bool) (xs : List (Option α)) :
    (xs.map (Option.filter q)).reduceOption = xs.reduceOption.filter q := by
  induction xs with
  | nil => rfl
  | cons x xs ih =>
    cases x with
    | none => rw [map_cons, Option.filter_none, reduceOption_cons_of_none, ih,
        reduceOption_cons_of_none]
    | some a =>
      rw [map_cons, reduceOption_cons_of_some, filter_cons]
      by_cases ha : q a
      · rw [Option.filter_some_pos ha, reduceOption_cons_of_some, ih, if_pos ha]
      · rw [Option.filter_some, if_neg ha, reduceOption_cons_of_none, ih, if_neg ha]

end Slots
