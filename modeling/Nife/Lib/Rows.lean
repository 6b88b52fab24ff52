/-
Lists of rows that are edited by what the rows are: replaced in place, erased at the first match, or
written out one by one.  Each lemma says when an edit of the whole list is the same edit of the rows
that a view keeps.
-/
import Mathlib.Data.List.Basic

namespace Rows

open List

variable {α : Type*} {l : List α} {a : α} {f P : α → Bool}

/-- Replacing what is not there changes nothing. -/
theorem map_replace_of_not {hit : α → Bool}
    (h : ∀ x ∈ l, ¬hit x = true) : l.map (fun x => if hit x then a else x) = l := by
  conv_rhs => rw [← map_id l]
  exact map_congr_left fun x hx => if_neg (h x hx)

/-- A predicate that implies another and holds of what the other finds first erases the same. -/
theorem eraseP_congr {g : α → Bool} (hfind : l.find? g = some a)
    (ha : f a = true) (himp : ∀ x ∈ l, f x = true → g x = true) : l.eraseP f = l.eraseP g := by
  induction l with
  | nil => rfl
  | cons x l ih =>
    cases hg : g x with
    | true =>
      rw [find?_cons_of_pos hg] at hfind
      cases hfind
      rw [eraseP_cons_of_pos ha, eraseP_cons_of_pos hg]
    | false =>
      rw [find?_cons_of_neg (by simp [hg])] at hfind
      have hf : ¬f x = true := fun hf => by
        have := himp x mem_cons_self hf
        rw [hg] at this
        cases this
      rw [eraseP_cons_of_neg hf, eraseP_cons_of_neg (by simp [hg]),
        ih hfind fun y hy => himp y (mem_cons_of_mem x hy)]

/-- Erasing a row that a view keeps is erasing it from the view. -/
theorem filter_eraseP_of_imp
    (h : ∀ x ∈ l, f x = true → P x = true) : (l.eraseP f).filter P = (l.filter P).eraseP f := by
  induction l with
  | nil => rfl
  | cons x l ih =>
    have htail := ih fun y hy => h y (mem_cons_of_mem x hy)
    cases hf : f x with
    | true =>
      rw [eraseP_cons_of_pos hf, filter_cons_of_pos (h x mem_cons_self hf), eraseP_cons_of_pos hf]
    | false =>
      rw [eraseP_cons_of_neg (by simp [hf]), filter_cons, filter_cons, htail]
      split
      · rw [eraseP_cons_of_neg (by simp [hf])]
      · rfl

/-- Erasing a row that a view drops leaves the view. -/
theorem filter_eraseP_of_not
    (h : ∀ x ∈ l, f x = true → P x = false) : (l.eraseP f).filter P = l.filter P := by
  induction l with
  | nil => rfl
  | cons x l ih =>
    have htail := ih fun y hy => h y (mem_cons_of_mem x hy)
    cases hf : f x with
    | true =>
      rw [eraseP_cons_of_pos hf, filter_cons_of_neg (by simp [h x mem_cons_self hf])]
    | false => rw [eraseP_cons_of_neg (by simp [hf]), filter_cons, filter_cons, htail]

/-- Writing a row or nothing for each is writing the rows that are kept. -/
theorem flatMap_if {β : Type} (l : List α) (q : α → Bool) (f : α → β) :
    (l.flatMap fun x => if q x then [f x] else []) = (l.filter q).map f := by
  induction l with
  | nil => rfl
  | cons x l ih =>
    rw [flatMap_cons, ih, filter_cons]
    cases q x <;> simp

end Rows
