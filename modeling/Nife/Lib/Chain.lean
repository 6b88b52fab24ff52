/-
Singly linked chains with address 0 as the end.  `Chain next p ps` says that following
`next` from `p` visits exactly the nodes `ps`, in order, and then ends.  A chain is
determined by its first node, so a chain that ends visits no node twice
(`Chain.nodup`), and from any node of a chain the rest of it is a chain again
(`Chain.drop`).  `Chain.length_le` bounds a chain of aligned addresses below `limit`
by the number of such addresses: the fuel with which a walk over it never runs out.
-/
import Mathlib.Data.Finset.Card

namespace Chains

open List

/-- Following `next` from `p` visits `ps` and then ends. -/
inductive Chain (next : Nat → Nat) : Nat → List Nat → Prop
  | nil : Chain next 0 []
  | cons {p : Nat} {ps : List Nat} : p ≠ 0 → Chain next (next p) ps → Chain next p (p :: ps)

variable {next : Nat → Nat} {p q : Nat} {ps qs : List Nat}

theorem Chain.eq_nil_of_zero (h : Chain next 0 ps) : ps = [] := by
  cases h with
  | nil => rfl
  | cons h0 _ => exact absurd rfl h0

theorem Chain.ne_zero_of_mem (h : Chain next p ps) (hq : q ∈ ps) : q ≠ 0 := by
  induction h with
  | nil => cases hq
  | cons h0 _ ih =>
    rcases mem_cons.mp hq with rfl | hq
    · exact h0
    · exact ih hq

theorem Chain.unique (h : Chain next p ps) (h' : Chain next p qs) : ps = qs := by
  induction h generalizing qs with
  | nil => exact h'.eq_nil_of_zero.symm
  | cons h0 _ ih =>
    cases h' with
    | nil => exact absurd rfl h0
    | cons _ ht => rw [ih ht]

/-- From any node of a chain the rest of it is a chain again. -/
theorem Chain.drop {pre : List Nat} (h : Chain next p (pre ++ q :: qs)) :
    Chain next q (q :: qs) := by
  induction pre generalizing p with
  | nil =>
    cases h with
    | cons h0 ht => exact Chain.cons h0 ht
  | cons r pre ih =>
    cases h with
    | cons _ ht => exact ih ht

/-- **A chain that ends visits no node twice**: were its first node met again, the rest
of the chain from there would be as long as the whole. -/
theorem Chain.nodup (h : Chain next p ps) : ps.Nodup := by
  induction h with
  | nil => exact nodup_nil
  | @cons p ps h0 ht ih =>
    refine nodup_cons.mpr ⟨fun hmem => ?_, ih⟩
    obtain ⟨pre, suf, rfl⟩ := append_of_mem hmem
    have heq : p :: (pre ++ p :: suf) = p :: suf := (Chain.cons h0 ht).unique ht.drop
    have hlen := congrArg length (cons.inj heq).2
    simp only [length_append, length_cons] at hlen
    omega

/-- A chain is unchanged when the links of its own nodes are. -/
theorem Chain.congr {next' : Nat → Nat} (h : Chain next p ps)
    (heq : ∀ q ∈ ps, next' q = next q) : Chain next' p ps := by
  induction h with
  | nil => exact Chain.nil
  | @cons p ps h0 _ ih =>
    refine Chain.cons h0 ?_
    rw [heq p (mem_cons_self ..)]
    exact ih fun q hq => heq q (mem_cons_of_mem _ hq)

/-- Aligned addresses below `align * count` number at most `count`. -/
theorem Chain.length_le {align count : Nat} (h : Chain next p ps)
    (halign : ∀ q ∈ ps, q % align = 0) (hlt : ∀ q ∈ ps, q < align * count) :
    ps.length ≤ count := by
  have hinj : (ps.map (· / align)).Nodup := by
    refine h.nodup.map_on ?_
    intro a ha b hb hab
    have ha' := Nat.div_add_mod a align
    have hb' := Nat.div_add_mod b align
    rw [halign a ha] at ha'
    rw [halign b hb] at hb'
    have hab' : a / align = b / align := hab
    rw [← ha', ← hb', hab']
  have hsub : (ps.map (· / align)).toFinset ⊆ Finset.range count := by
    intro x hx
    obtain ⟨q, hq, rfl⟩ := mem_map.mp (mem_toFinset.mp hx)
    exact Finset.mem_range.mpr (Nat.div_lt_of_lt_mul (hlt q hq))
  have hcard := Finset.card_le_card hsub
  rw [toFinset_card_of_nodup hinj, Finset.card_range, length_map] at hcard
  exact hcard

end Chains
