/-
Families of lists in which every element stands at most once: in one list of the family,
and there once.  A run queue per processor, an inbox per processor, or the short list of
what each processor is working on are such families.  `Exclusive` is the property, `Mem`
is membership in some list, and for each way a step changes a family (a push, a pop, a
move of one whole list onto another, a list replaced) there is one lemma that says what
becomes of both.
-/
import Mathlib.Data.List.Nodup

namespace Queues

open List

variable {ι α : Type*} [DecidableEq ι]

/-- No element stands twice: neither in one list nor in two. -/
structure Exclusive (q : ι → List α) : Prop where
  nodup : ∀ i, (q i).Nodup
  unique : ∀ {i j a}, a ∈ q i → a ∈ q j → i = j

/-- `a` is on some list of the family. -/
def Mem (q : ι → List α) (a : α) : Prop := ∃ i, a ∈ q i

variable {q : ι → List α} {i j : ι} {a b : α} {l : List α}

omit [DecidableEq ι] in
theorem Mem.of_mem (h : a ∈ q i) : Mem q a := ⟨i, h⟩

theorem mem_update : a ∈ Function.update q i l j ↔ (j = i ∧ a ∈ l) ∨ (j ≠ i ∧ a ∈ q j) := by
  by_cases hji : j = i
  · subst hji
    simp
  · simp [hji]

/-- A list may be replaced by one whose elements are its own or new to the family. -/
theorem Exclusive.update (h : Exclusive q) (hl : l.Nodup)
    (hnew : ∀ a ∈ l, a ∈ q i ∨ ¬ Mem q a) : Exclusive (Function.update q i l) where
  nodup j := by
    by_cases hji : j = i
    · subst hji
      simpa using hl
    · simpa [hji] using h.nodup j
  unique := by
    intro j k a hj hk
    rw [mem_update] at hj hk
    rcases hj with ⟨rfl, hj⟩ | ⟨hji, hj⟩ <;> rcases hk with ⟨hk', hk⟩ | ⟨hki, hk⟩
    · exact hk'.symm
    · rcases hnew a hj with hq | hq
      · exact h.unique hq hk
      · exact absurd (Mem.of_mem hk) hq
    · subst hk'
      rcases hnew a hk with hq | hq
      · exact h.unique hj hq
      · exact absurd (Mem.of_mem hj) hq
    · exact h.unique hj hk

def push (q : ι → List α) (i : ι) (a : α) : ι → List α := Function.update q i (q i ++ [a])

theorem Exclusive.push (h : Exclusive q) (ha : ¬ Mem q a) : Exclusive (push q i a) := by
  refine h.update ?_ ?_
  · refine nodup_append.mpr ⟨h.nodup i, nodup_singleton a, ?_⟩
    intro x hx y hy hxy
    rw [mem_singleton] at hy
    subst hxy hy
    exact ha (Mem.of_mem hx)
  · intro x hx
    rcases mem_append.mp hx with hx | hx
    · exact .inl hx
    · rw [mem_singleton] at hx
      subst hx
      exact .inr ha

theorem mem_push : b ∈ push q i a j ↔ b ∈ q j ∨ (j = i ∧ b = a) := by
  by_cases hji : j = i
  · subst hji
    simp [push]
  · simp [push, hji]

theorem Mem_push : Mem (push q i a) b ↔ Mem q b ∨ b = a := by
  constructor
  · rintro ⟨j, hj⟩
    rcases mem_push.mp hj with hj | ⟨-, rfl⟩
    · exact .inl ⟨j, hj⟩
    · exact .inr rfl
  · rintro (⟨j, hj⟩ | rfl)
    · exact ⟨j, mem_push.mpr (.inl hj)⟩
    · exact ⟨i, mem_push.mpr (.inr ⟨rfl, rfl⟩)⟩

/-- Popping the front of list `i` takes that element off the family. -/
theorem Exclusive.pop (h : Exclusive q) (hq : q i = a :: l) :
    Exclusive (Function.update q i l) := by
  have hnd := h.nodup i
  rw [hq, nodup_cons] at hnd
  refine h.update hnd.2 ?_
  intro x hx
  rw [hq]
  exact .inl (mem_cons_of_mem _ hx)

theorem Exclusive.Mem_pop (h : Exclusive q) (hq : q i = a :: l) :
    Mem (Function.update q i l) b ↔ Mem q b ∧ b ≠ a := by
  have hnd := h.nodup i
  rw [hq, nodup_cons] at hnd
  constructor
  · rintro ⟨j, hj⟩
    rcases mem_update.mp hj with ⟨rfl, hl⟩ | ⟨hji, hl⟩
    · refine ⟨⟨j, by rw [hq]; exact mem_cons_of_mem _ hl⟩, ?_⟩
      rintro rfl
      exact hnd.1 hl
    · refine ⟨⟨j, hl⟩, ?_⟩
      rintro rfl
      exact hji (h.unique hl (by rw [hq]; exact mem_cons_self ..))
  · rintro ⟨⟨j, hj⟩, hne⟩
    refine ⟨j, mem_update.mpr ?_⟩
    by_cases hji : j = i
    · subst hji
      rw [hq, mem_cons] at hj
      exact .inl ⟨rfl, hj.resolve_left hne⟩
    · exact .inr ⟨hji, hj⟩

def drain (q : ι → List α) (i j : ι) : ι → List α :=
  Function.update (Function.update q i (q i ++ q j)) j []

theorem mem_drain (hij : i ≠ j) {k : ι} :
    b ∈ drain q i j k ↔ (k ≠ j ∧ b ∈ q k) ∨ (k = i ∧ b ∈ q j) := by
  rw [drain, mem_update, mem_update]
  constructor
  · rintro (⟨-, hb⟩ | ⟨hkj, ⟨rfl, hb⟩ | ⟨-, hb⟩⟩)
    · cases hb
    · rcases mem_append.mp hb with hb | hb
      · exact .inl ⟨hkj, hb⟩
      · exact .inr ⟨rfl, hb⟩
    · exact .inl ⟨hkj, hb⟩
  · rintro (⟨hkj, hb⟩ | ⟨rfl, hb⟩)
    · refine .inr ⟨hkj, ?_⟩
      by_cases hki : k = i
      · subst hki
        exact .inl ⟨rfl, mem_append_left _ hb⟩
      · exact .inr ⟨hki, hb⟩
    · exact .inr ⟨hij, .inl ⟨rfl, mem_append_right _ hb⟩⟩

theorem Mem_drain (hij : i ≠ j) : Mem (drain q i j) b ↔ Mem q b := by
  constructor
  · rintro ⟨k, hk⟩
    rcases (mem_drain hij).mp hk with ⟨-, hk⟩ | ⟨-, hk⟩
    · exact ⟨k, hk⟩
    · exact ⟨j, hk⟩
  · rintro ⟨k, hk⟩
    by_cases hkj : k = j
    · subst hkj
      exact ⟨i, (mem_drain hij).mpr (.inr ⟨rfl, hk⟩)⟩
    · exact ⟨k, (mem_drain hij).mpr (.inl ⟨hkj, hk⟩)⟩

theorem Exclusive.drain (h : Exclusive q) (hij : i ≠ j) : Exclusive (drain q i j) where
  nodup k := by
    rw [Queues.drain]
    by_cases hkj : k = j
    · subst hkj
      simp
    · rw [Function.update_of_ne hkj]
      by_cases hki : k = i
      · subst hki
        rw [Function.update_self]
        refine nodup_append.mpr ⟨h.nodup _, h.nodup _, ?_⟩
        intro x hx y hy hxy
        subst hxy
        exact hij (h.unique hx hy)
      · rw [Function.update_of_ne hki]
        exact h.nodup k
  unique := by
    intro k l a hk hl
    rcases (mem_drain hij).mp hk with ⟨hkj, hk'⟩ | ⟨hki, hk'⟩ <;>
      rcases (mem_drain hij).mp hl with ⟨hlj, hl'⟩ | ⟨hli, hl'⟩
    · exact h.unique hk' hl'
    · exact absurd (h.unique hk' hl') hkj
    · exact absurd (h.unique hl' hk') hlj
    · rw [hki, hli]

end Queues
