/-
Spans of numbers, each a start and a length, and lists of them.

`Apart l` says that the spans of a list are not empty and come in order with a gap between any two:
such a list is the list of the maximal runs of what it covers (`Apart.mem_iff_isRun`).  The lemmas
below put a span between others (`apart_insert`), and bound what all spans come to
(`Apart.total_le`) and how many they are (`Apart.length_le`).
-/
import Mathlib.Data.List.Pairwise
import Mathlib.Tactic.Common

namespace Spans

open List

/-- A start and a length. -/
abbrev Span := Nat × Nat

def Inside (s : Span) (x : Nat) : Prop := s.1 ≤ x ∧ x < s.1 + s.2

def Covers (l : List Span) (x : Nat) : Prop := ∃ s ∈ l, Inside s x

/-- What all the spans come to. -/
def total : List Span → Nat
  | [] => 0
  | s :: l => s.2 + total l

/-- In order, none empty, with a gap between any two. -/
structure Apart (l : List Span) : Prop where
  pos : ∀ s ∈ l, 0 < s.2
  gaps : l.Pairwise fun s t => s.1 + s.2 < t.1

/-- A maximal run of the numbers in `D`. -/
def IsRun (D : Nat → Prop) (s : Span) : Prop :=
  0 < s.2 ∧ (∀ x, Inside s x → D x) ∧ (∀ x, x + 1 = s.1 → ¬D x) ∧ ¬D (s.1 + s.2)

variable {l l' pre post : List Span} {s t : Span} {x : Nat}

theorem covers_nil : ¬Covers [] x := by simp [Covers]

theorem covers_cons : Covers (s :: l) x ↔ Inside s x ∨ Covers l x := by simp [Covers]

theorem covers_append : Covers (l ++ l') x ↔ Covers l x ∨ Covers l' x := by
  simp [Covers, or_and_right, exists_or]

theorem total_cons : total (s :: l) = s.2 + total l := rfl

theorem total_append : total (l ++ l') = total l + total l' := by
  induction l with
  | nil => rw [nil_append, total, Nat.zero_add]
  | cons s l ih => rw [cons_append, total_cons, total_cons, ih, Nat.add_assoc]

theorem apart_nil : Apart [] := ⟨by simp, List.Pairwise.nil⟩

theorem apart_cons : Apart (s :: l) ↔ 0 < s.2 ∧ (∀ t ∈ l, s.1 + s.2 < t.1) ∧ Apart l := by
  constructor
  · rintro ⟨hpos, hgaps⟩
    rw [forall_mem_cons] at hpos
    rw [pairwise_cons] at hgaps
    exact ⟨hpos.1, hgaps.1, hpos.2, hgaps.2⟩
  · rintro ⟨hs, hfar, hpos, hgaps⟩
    exact ⟨forall_mem_cons.mpr ⟨hs, hpos⟩, pairwise_cons.mpr ⟨hfar, hgaps⟩⟩

theorem apart_append : Apart (l ++ l') ↔
    Apart l ∧ Apart l' ∧ ∀ s ∈ l, ∀ t ∈ l', s.1 + s.2 < t.1 := by
  constructor
  · rintro ⟨hpos, hgaps⟩
    rw [forall_mem_append] at hpos
    rw [pairwise_append] at hgaps
    exact ⟨⟨hpos.1, hgaps.1⟩, ⟨hpos.2, hgaps.2.1⟩, hgaps.2.2⟩
  · rintro ⟨⟨hpos, hgaps⟩, ⟨hpos', hgaps'⟩, hfar⟩
    exact ⟨forall_mem_append.mpr ⟨hpos, hpos'⟩, pairwise_append.mpr ⟨hgaps, hgaps', hfar⟩⟩

namespace Apart

section

variable (h : Apart l)
include h

/-- Two spans of the list are the same or one is before the other. -/
theorem cases (hs : s ∈ l) (ht : t ∈ l) : s = t ∨ s.1 + s.2 < t.1 ∨ t.1 + t.2 < s.1 := by
  by_cases heq : s = t
  · exact .inl heq
  · have hsymm : l.Pairwise fun s t => s.1 + s.2 < t.1 ∨ t.1 + t.2 < s.1 := h.gaps.imp .inl
    have : Std.Symm fun s t : Span => s.1 + s.2 < t.1 ∨ t.1 + t.2 < s.1 := ⟨fun _ _ => Or.symm⟩
    exact .inr (hsymm.forall hs ht heq)

/-- **The spans are the maximal runs** of what they cover. -/
theorem mem_iff_isRun : s ∈ l ↔ IsRun (Covers l) s := by
  constructor
  · intro hs
    refine ⟨h.pos s hs, fun x hx => ⟨s, hs, hx⟩, fun x hx hcov => ?_, fun hcov => ?_⟩
    all_goals
      obtain ⟨t, ht, hin⟩ := hcov
      rw [Inside] at hin
      rcases h.cases hs ht with rfl | hst | hst <;> omega
  · rintro ⟨hpos, hin, hbefore, hafter⟩
    -- the span at the start of the run has its start and its end
    obtain ⟨t, ht, hst⟩ := hin s.1 ⟨Nat.le_refl _, by omega⟩
    have hlow : t.1 = s.1 := by
      by_contra hne
      rw [Inside] at hst
      exact hbefore (s.1 - 1) (by omega) ⟨t, ht, by rw [Inside]; omega⟩
    have hhigh : t.1 + t.2 = s.1 + s.2 := by
      rcases Nat.lt_trichotomy (t.1 + t.2) (s.1 + s.2) with hlt | heq | hlt
      · obtain ⟨u, hu, hin⟩ := hin (t.1 + t.2) ⟨by omega, hlt⟩
        rw [Inside] at hin
        rcases h.cases ht hu with rfl | htu | htu <;> omega
      · exact heq
      · exact absurd ⟨t, ht, by omega, hlt⟩ hafter
    have heq : t = s := Prod.ext hlow (by omega)
    rwa [← heq]

/-- All spans together are no longer than what they lie in. -/
theorem total_le {lo hi : Nat} (hle : lo ≤ hi)
    (hin : ∀ s ∈ l, lo ≤ s.1 ∧ s.1 + s.2 ≤ hi) : total l + lo ≤ hi := by
  induction l generalizing lo with
  | nil => simpa [total] using hle
  | cons s l ih =>
    rw [apart_cons] at h
    rw [forall_mem_cons] at hin
    have hrest := ih h.2.2 hin.1.2 fun t ht => ⟨Nat.le_of_lt (h.2.1 t ht), (hin.2 t ht).2⟩
    rw [total_cons]
    omega

/-- A multiple of `k` in each span bounds their number. -/
theorem length_le {k : Nat} (hk : ∀ s ∈ l, k ∣ s.2) : l.length * k ≤ total l := by
  induction l with
  | nil => simp [total]
  | cons s l ih =>
    rw [apart_cons] at h
    rw [forall_mem_cons] at hk
    have hs := Nat.le_of_dvd h.1 hk.1
    have hrest := ih h.2.2 hk.2
    rw [length_cons, total_cons, Nat.succ_mul]
    omega

end

theorem replace (h : Apart (pre ++ s :: post)) {mid : List Span} (hmid : Apart mid)
    (hin : ∀ t ∈ mid, s.1 ≤ t.1 ∧ t.1 + t.2 ≤ s.1 + s.2) : Apart (pre ++ mid ++ post) := by
  rw [apart_append, apart_cons] at h
  obtain ⟨hpre, ⟨-, hfar, hpost⟩, hacross⟩ := h
  rw [append_assoc, apart_append, apart_append]
  refine ⟨hpre, ⟨hmid, hpost, fun t ht u hu => ?_⟩, fun p hp u hu => ?_⟩
  · have := hfar u hu
    have := (hin t ht).2
    omega
  · rcases mem_append.mp hu with hu | hu
    · have := hacross p hp s mem_cons_self
      have := (hin u hu).1
      omega
    · exact hacross p hp u (mem_cons_of_mem _ hu)

end Apart

theorem apart_insert (hpre : Apart pre) (hpost : Apart post) (hs : 0 < s.2)
    (hbefore : ∀ p ∈ pre, p.1 + p.2 < s.1) (hafter : ∀ q ∈ post, s.1 + s.2 < q.1) :
    Apart (pre ++ s :: post) := by
  rw [apart_append, apart_cons]
  refine ⟨hpre, ⟨hs, hafter, hpost⟩, fun p hp q hq => ?_⟩
  have hp := hbefore p hp
  rcases mem_cons.mp hq with rfl | hq
  · exact hp
  · have := hafter q hq
    omega

end Spans
