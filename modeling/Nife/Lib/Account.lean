/-
Accounts of things that are opened under a key and closed again: registrations in a table,
arrivals on a queue, timers that were set.  An account lists what happened, newest first.  A
key *stands* for a value when it was opened with that value and has not been closed since.

The rules say what one more entry does to what stands.
-/
import Mathlib.Data.List.Nodup

namespace Account

open List

variable {κ υ : Type*}

/-- One thing that happened. -/
inductive Entry (κ υ : Type*)
  | opened (key : κ) (value : υ)
  | closed (key : κ)

/-- The keys that were opened, closed since or not, newest first. -/
def keys : List (Entry κ υ) → List κ
  | [] => []
  | .opened k _ :: l => k :: keys l
  | .closed _ :: l => keys l

/-- `k` was opened with `v` and not closed since. -/
def Standing (l : List (Entry κ υ)) (k : κ) (v : υ) : Prop :=
  ∃ later earlier, l = later ++ .opened k v :: earlier ∧ .closed k ∉ later

variable {l : List (Entry κ υ)} {k k' : κ} {v v' : υ}

@[simp] theorem keys_opened : keys (.opened k v :: l) = k :: keys l := rfl

@[simp] theorem keys_closed : keys (.closed k :: l) = keys l := rfl

@[simp] theorem not_standing_nil : ¬ Standing ([] : List (Entry κ υ)) k v := by
  rintro ⟨later, earlier, h, -⟩
  exact append_ne_nil_of_right_ne_nil _ (cons_ne_nil _ _) h.symm

theorem standing_opened :
    Standing (.opened k' v' :: l) k v ↔ (k = k' ∧ v = v') ∨ Standing l k v := by
  constructor
  · rintro ⟨later, earlier, h, hnot⟩
    rcases later with - | ⟨e, later⟩
    · rw [nil_append, cons.injEq, Entry.opened.injEq] at h
      exact .inl ⟨h.1.1.symm, h.1.2.symm⟩
    · rw [cons_append, cons.injEq] at h
      exact .inr ⟨later, earlier, h.2, fun hm => hnot (mem_cons_of_mem _ hm)⟩
  · rintro (⟨rfl, rfl⟩ | ⟨later, earlier, rfl, hnot⟩)
    · exact ⟨[], l, rfl, not_mem_nil⟩
    · refine ⟨.opened k' v' :: later, earlier, rfl, ?_⟩
      simpa using hnot

theorem standing_closed : Standing (.closed k' :: l) k v ↔ k ≠ k' ∧ Standing l k v := by
  constructor
  · rintro ⟨later, earlier, h, hnot⟩
    rcases later with - | ⟨e, later⟩
    · rw [nil_append, cons.injEq] at h
      cases h.1
    · rw [cons_append] at h
      cases h
      refine ⟨fun hk => hnot ?_, later, earlier, rfl, fun hm => hnot (mem_cons_of_mem _ hm)⟩
      rw [hk]
      exact mem_cons_self
  · rintro ⟨hne, later, earlier, rfl, hnot⟩
    refine ⟨.closed k' :: later, earlier, rfl, ?_⟩
    simp [hne, hnot]

theorem Standing.mem_keys (h : Standing l k v) : k ∈ keys l := by
  induction l with
  | nil => exact absurd h not_standing_nil
  | cons e l ih =>
    rcases e with ⟨k', v'⟩ | k'
    · rcases standing_opened.mp h with ⟨rfl, -⟩ | h
      · exact mem_cons_self
      · exact mem_cons_of_mem _ (ih h)
    · exact ih (standing_closed.mp h).2

end Account
