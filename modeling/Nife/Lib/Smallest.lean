/-
A set read in pieces of bounded size, smallest elements first.

A collector that is offered the elements of a set one by one, in any order and with repeats, and
that can hold only `cap` of them, keeps the smallest: `Smallest cap S l` says that the list `l` is
what it holds once the elements of `S` have been offered.  Offering one more element is an ordered
insertion cut off at `cap` (`Smallest.insert`), and an element was turned away exactly when the
collector was full at some offer (`Smallest.insert_more`).

A `Sweep` asks for such a piece again and again, each time from the elements above the last one of
the piece before, until a piece leaves nothing behind.  The set may change between the rounds.
The pieces are then in ascending order without repeats (`Sweep.pairwise`), hold every element that
was there in all rounds (`Sweep.complete`), and if the set did not change their number is the size
of the set divided by `cap`, rounded up (`Sweep.length_eq`).  In a finite universe a sweep cannot
go on for ever (`Sweep.length_le_ncard`).
-/
import Mathlib.Data.Set.Card

variable {κ : Type*} [LinearOrder κ] {cap : ℕ} {S T : Set κ} {l : List κ} {x k : κ}

/-! ### The smallest elements of a set -/

/-- `l` lists the `cap` smallest elements of `S` in ascending order, or all of them when there are
no more than `cap`. -/
structure Smallest (cap : ℕ) (S : Set κ) (l : List κ) : Prop where
  sorted : l.Pairwise (· < ·)
  length_le : l.length ≤ cap
  mem : ∀ k ∈ l, k ∈ S
  rest : ∀ s ∈ S, s ∉ l → l.length = cap ∧ ∀ k ∈ l, k < s

namespace Smallest

open List

theorem nil (cap : ℕ) : Smallest cap (∅ : Set κ) [] :=
  ⟨List.Pairwise.nil, Nat.zero_le _, by simp, by simp⟩

/-- The list an element is put into, before it is cut off. -/
theorem sorted_orderedInsert (h : l.Pairwise (· < ·)) (hx : x ∉ l) :
    (l.orderedInsert (· ≤ ·) x).Pairwise (· < ·) := by
  have hle : (l.orderedInsert (· ≤ ·) x).Pairwise (· ≤ ·) :=
    List.Pairwise.orderedInsert x l (h.imp le_of_lt)
  have hnodup : (l.orderedInsert (· ≤ ·) x).Nodup :=
    (perm_orderedInsert _ x l).nodup_iff.mpr (nodup_cons.mpr ⟨hx, h.imp ne_of_lt⟩)
  exact hle.imp₂ (fun _ _ hle hne => lt_of_le_of_ne hle hne) hnodup

/-- An element that is not there is put in the same place by either order. -/
theorem orderedInsert_lt (hx : x ∉ l) : l.orderedInsert (· < ·) x = l.orderedInsert (· ≤ ·) x := by
  induction l with
  | nil => rfl
  | cons y l ih =>
    obtain ⟨hne, hl⟩ := not_or.mp (mt mem_cons.mpr hx)
    have hiff : x < y ↔ x ≤ y := ⟨le_of_lt, fun h => lt_of_le_of_ne h hne⟩
    simp only [orderedInsert_cons, hiff, ih hl]

section

variable (h : Smallest cap S l)
include h

/-- **One more element**: the collector keeps what the ordered insertion leaves within `cap`. -/
theorem insert (hx : x ∉ l) : Smallest cap (insert x S) ((l.orderedInsert (· ≤ ·) x).take cap) := by
  have hsorted := sorted_orderedInsert h.sorted hx
  have hlen := orderedInsert_length (· ≤ ·) l x
  have hmem : ∀ {k}, k ∈ l.orderedInsert (· ≤ ·) x ↔ k = x ∨ k ∈ l := mem_orderedInsert _
  generalize l.orderedInsert (· ≤ ·) x = l' at hsorted hlen hmem
  -- everything kept lies below everything cut off
  have hcut : ∀ k ∈ l'.take cap, ∀ s ∈ l'.drop cap, k < s := by
    rw [← take_append_drop cap l', pairwise_append] at hsorted
    exact hsorted.2.2
  refine ⟨hsorted.take, by simp, fun k hk => ?_, fun s hs hout => ?_⟩
  · exact (hmem.mp (mem_of_mem_take hk)).imp id (h.mem k)
  · by_cases hin : s ∈ l'
    · have hdrop : s ∈ l'.drop cap := by
        rw [← take_append_drop cap l', mem_append] at hin
        exact hin.resolve_left hout
      have hlong : cap < l'.length := by
        by_contra hshort
        rw [drop_eq_nil_of_le (Nat.le_of_not_lt hshort)] at hdrop
        cases hdrop
      exact ⟨by rw [length_take]; omega, fun k hk => hcut k hk s hdrop⟩
    · -- an element turned away earlier: the collector was full then and is full now
      obtain ⟨hne, hl⟩ := not_or.mp (mt hmem.mpr hin)
      obtain ⟨hfull, habove⟩ := h.rest s (hs.resolve_left hne) hl
      refine ⟨by rw [length_take]; omega, fun k hk => ?_⟩
      rcases hmem.mp (mem_of_mem_take hk) with rfl | hkl
      · obtain ⟨y, hy⟩ : ∃ y, y ∈ l'.drop cap :=
          exists_mem_of_length_pos (by rw [length_drop]; omega)
        have hky := hcut k hk y hy
        have hyl := (hmem.mp (mem_of_mem_drop hy)).resolve_left hky.ne'
        exact hky.trans (habove y hyl)
      · exact habove k hkl

/-- **Something is left out exactly when it was, or the collector is full now.** -/
theorem insert_more (hx : x ∉ l) :
    (∃ s ∈ Insert.insert x S, s ∉ (l.orderedInsert (· ≤ ·) x).take cap) ↔
      (∃ s ∈ S, s ∉ l) ∨ ¬ l.length < cap := by
  have hlen := orderedInsert_length (· ≤ ·) l x
  have hmem : ∀ {k}, k ∈ l.orderedInsert (· ≤ ·) x ↔ k = x ∨ k ∈ l := mem_orderedInsert _
  have hnodup := (sorted_orderedInsert h.sorted hx).imp ne_of_lt
  generalize l.orderedInsert (· ≤ ·) x = l' at hlen hmem hnodup
  constructor
  · rintro ⟨s, hs, hout⟩
    by_contra hno
    obtain ⟨hkept, hroom⟩ := not_or.mp hno
    rw [take_of_length_le (by omega)] at hout
    obtain ⟨hne, hl⟩ := not_or.mp (mt hmem.mpr hout)
    exact hkept ⟨s, hs.resolve_left hne, hl⟩
  · intro hor
    have hfull : ¬ l.length < cap := by
      rcases hor with ⟨s, hs, hout⟩ | hfull
      · exact (h.rest s hs hout).1 ▸ lt_irrefl _
      · exact hfull
    obtain ⟨y, hy⟩ : ∃ y, y ∈ l'.drop cap :=
      exists_mem_of_length_pos (by rw [length_drop]; omega)
    refine ⟨y, (hmem.mp (mem_of_mem_drop hy)).imp id (h.mem y), fun htake => ?_⟩
    rw [← take_append_drop cap l', pairwise_append] at hnodup
    exact hnodup.2.2 y htake y hy rfl

/-- What a collector holds is never empty while something is left out. -/
theorem length_eq (hleft : ¬ S ⊆ {k | k ∈ l}) : l.length = cap := by
  obtain ⟨s, hs, hout⟩ := Set.not_subset.mp hleft
  exact (h.rest s hs hout).1

end

end Smallest

/-! ### A sweep -/

/-- The elements strictly above a watermark, or all of them at the start. -/
def Above (w : Option κ) : Set κ := {s | ∀ k ∈ w, k < s}

/-- `Sweep cap w rounds pieces ended`: from the watermark `w` on, the rounds of the sets `rounds`
gave the pieces `pieces`, and the sweep has ended or is to be continued. -/
inductive Sweep (cap : ℕ) : Option κ → List (Set κ) → List (List κ) → Bool → Prop
  | more (w : Option κ) : Sweep cap w [] [] false
  | last {w : Option κ} {S : Set κ} {l : List κ} (later : List (Set κ)) :
      Smallest cap (S ∩ Above w) l → S ∩ Above w ⊆ {k | k ∈ l} →
      Sweep cap w (S :: later) [l] true
  | next {w : Option κ} {S : Set κ} {l : List κ} {k : κ} {later : List (Set κ)}
      {pieces : List (List κ)} {ended : Bool} :
      Smallest cap (S ∩ Above w) l → ¬ S ∩ Above w ⊆ {k | k ∈ l} → l.getLast? = some k →
      Sweep cap (some k) later pieces ended →
      Sweep cap w (S :: later) (l :: pieces) ended

namespace Sweep

variable {w : Option κ} {rounds : List (Set κ)} {pieces : List (List κ)} {ended : Bool} {P : Set κ}

/-- The last element of an ascending list is above the others. -/
theorem le_getLast (hsorted : l.Pairwise (· < ·)) (hk : l.getLast? = some k) (hx : x ∈ l) :
    x ≤ k := by
  obtain ⟨l₀, rfl⟩ := List.getLast?_eq_some_iff.mp hk
  rcases List.mem_append.mp hx with hx | hx
  · exact ((List.pairwise_append.mp hsorted).2.2 x hx k (List.mem_singleton_self k)).le
  · exact (List.mem_singleton.mp hx).le

/-- Every element handed out is above the watermark. -/
theorem above (h : Sweep cap w rounds pieces ended) : ∀ s ∈ pieces.flatten, s ∈ Above w := by
  induction h with
  | more => simp
  | last _ hl _ =>
    intro s hs
    exact (hl.mem s (by simpa using hs)).2
  | @next w S l k later pieces ended hl _ hk _ ih =>
    intro s hs
    rcases List.mem_append.mp hs with hs | hs
    · exact (hl.mem s hs).2
    · intro v hv
      have hkw := (hl.mem k (List.mem_of_getLast? hk)).2
      exact (hkw v hv).trans (ih s hs k rfl)

/-- **The pieces ascend**, each one within itself and each one above those before it. -/
theorem pairwise (h : Sweep cap w rounds pieces ended) : pieces.flatten.Pairwise (· < ·) := by
  induction h with
  | more => exact List.Pairwise.nil
  | last _ hl _ => simpa using hl.sorted
  | next hl _ hk hrun ih =>
    refine List.pairwise_append.mpr ⟨hl.sorted, ih, fun a ha b hb => ?_⟩
    exact (le_getLast hl.sorted hk ha).trans_lt (hrun.above b hb _ rfl)

/-- What every round's set lies in, every piece lies in. -/
theorem mem (h : Sweep cap w rounds pieces ended) (hP : ∀ S ∈ rounds, S ⊆ P) :
    ∀ s ∈ pieces.flatten, s ∈ P := by
  induction h with
  | more => simp
  | last _ hl _ =>
    intro s hs
    exact hP _ List.mem_cons_self (hl.mem s (by simpa using hs)).1
  | next hl _ _ _ ih =>
    intro s hs
    rcases List.mem_append.mp hs with hs | hs
    · exact hP _ List.mem_cons_self (hl.mem s hs).1
    · exact ih (fun S hS => hP S (List.mem_cons_of_mem _ hS)) s hs

theorem length_le_rounds (h : Sweep cap w rounds pieces ended) : pieces.length ≤ rounds.length := by
  induction h with
  | more | last => simp
  | next _ _ _ _ ih => simpa using ih

theorem restrict (h : Sweep cap w rounds pieces ended) :
    Sweep cap w (rounds.take pieces.length) pieces ended := by
  induction h with
  | more w => exact .more w
  | last _ hl hall => exact .last [] hl hall
  | next hl hleft hk _ ih => exact .next hl hleft hk ih

/-- **Nothing that stays is missed**: an element above the watermark that is there in each round
of a sweep that has ended is in one of its pieces. -/
theorem complete (h : Sweep cap w rounds pieces true) {s : κ} (hw : s ∈ Above w)
    (hs : ∀ S ∈ rounds.take pieces.length, s ∈ S) : s ∈ pieces.flatten := by
  generalize hended : true = ended at h
  induction h with
  | more => cases hended
  | last _ _ hall => simpa using hall ⟨hs _ (by simp), hw⟩
  | @next w S l k later pieces ended hl _ hk _ ih =>
    rw [List.flatten_cons, List.mem_append]
    by_cases hin : s ∈ l
    · exact .inl hin
    · -- the piece is full and `s` lies above all of it, so above the next watermark
      have habove := (hl.rest s ⟨hs S (by simp), hw⟩ hin).2
      refine .inr (ih (fun v hv => ?_) (fun S' hS' => hs S' ?_) hended)
      · cases hv
        exact habove k (List.mem_of_getLast? hk)
      · rw [List.length_cons]
        exact List.mem_cons_of_mem _ hS'

/-- A sweep that is to be continued handed out a full piece in each round. -/
theorem full (h : Sweep cap w rounds pieces false) :
    pieces.length = rounds.length ∧ pieces.flatten.length = cap * rounds.length := by
  generalize hended : false = ended at h
  induction h with
  | more => simp
  | last => cases hended
  | next hl hleft _ _ ih =>
    obtain ⟨hlen, hsum⟩ := ih hended
    refine ⟨by simp [hlen], ?_⟩
    rw [List.flatten_cons, List.length_append, hsum, hl.length_eq hleft, List.length_cons,
      Nat.mul_succ, Nat.add_comm]

/-- **In a finite universe a sweep ends**: one that is to be continued has had at most as many
rounds as there are elements. -/
theorem length_le_ncard (hfin : P.Finite) (hcap : 0 < cap)
    (h : Sweep cap w rounds pieces false) (hP : ∀ S ∈ rounds, S ⊆ P) :
    rounds.length ≤ P.ncard := by
  have hsub : (pieces.flatten.toFinset : Set κ) ⊆ P := by
    intro s hs
    exact h.mem hP s (by simpa using hs)
  calc rounds.length ≤ cap * rounds.length := Nat.le_mul_of_pos_left _ hcap
    _ = pieces.flatten.length := h.full.2.symm
    _ = pieces.flatten.toFinset.card :=
        (List.toFinset_card_of_nodup (h.pairwise.imp ne_of_lt)).symm
    _ = (pieces.flatten.toFinset : Set κ).ncard := (Set.ncard_coe_finset _).symm
    _ ≤ P.ncard := Set.ncard_le_ncard hsub hfin

/-- Over an unchanging set all pieces of a sweep that has ended are full but for the last, which
holds something if the set has anything above the watermark. -/
theorem length_flatten (h : Sweep cap w rounds pieces true)
    (hsame : ∀ T ∈ rounds.take pieces.length, T = S) (hsome : (S ∩ Above w).Nonempty) :
    ∃ n, pieces.length = n + 1 ∧ cap * n < pieces.flatten.length ∧
      pieces.flatten.length ≤ cap * n + cap := by
  generalize hended : true = ended at h
  induction h with
  | more => cases hended
  | @last w T l later hl hall =>
    obtain rfl : T = S := hsame T (by simp)
    obtain ⟨s, hs⟩ := hsome
    have hpos : 0 < l.length := List.length_pos_of_mem (hall hs)
    exact ⟨0, rfl, by simpa using hpos, by simpa using hl.length_le⟩
  | @next w T l k later pieces ended hl hleft hk hrun ih =>
    obtain rfl : T = S := hsame T (by simp)
    obtain ⟨s, ⟨hs, hw⟩, hout⟩ := Set.not_subset.mp hleft
    -- what was left out is above the next watermark, and still there
    have hnext : (T ∩ Above (some k)).Nonempty := by
      refine ⟨s, hs, fun v hv => ?_⟩
      cases hv
      exact (hl.rest s ⟨hs, hw⟩ hout).2 k (List.mem_of_getLast? hk)
    obtain ⟨n, hn, hlt, hle⟩ := ih (fun T' hT' => hsame T' (by
      rw [List.length_cons]
      exact List.mem_cons_of_mem _ hT')) hnext hended
    refine ⟨n + 1, by simp [hn], ?_, ?_⟩ <;>
      rw [List.flatten_cons, List.length_append, hl.length_eq hleft, Nat.mul_succ] <;> omega

/-- **An unchanging set is read in as many pieces as it takes**: the number of its elements above
the watermark divided by `cap`, rounded up. -/
theorem length_eq (h : Sweep cap w rounds pieces true) (hcap : 0 < cap)
    (hsame : ∀ T ∈ rounds.take pieces.length, T = S) (hsome : (S ∩ Above w).Nonempty) :
    pieces.length = ((S ∩ Above w).ncard + cap - 1) / cap := by
  have hflat : S ∩ Above w = (pieces.flatten.toFinset : Set κ) := by
    ext s
    rw [List.coe_toFinset]
    constructor
    · intro hs
      exact h.complete hs.2 fun T hT => hsame T hT ▸ hs.1
    · intro hs
      exact ⟨(h.restrict).mem (fun T hT => (hsame T hT).le) s hs, h.above s hs⟩
  obtain ⟨n, hn, hlt, hle⟩ := h.length_flatten hsame hsome
  rw [hflat, Set.ncard_coe_finset, List.toFinset_card_of_nodup (h.pairwise.imp ne_of_lt), hn]
  refine (Nat.div_eq_of_lt_le ?_ ?_).symm
  · rw [Nat.mul_comm, Nat.mul_succ]
    omega
  · rw [Nat.mul_comm, Nat.mul_succ, Nat.mul_succ]
    omega

end Sweep
