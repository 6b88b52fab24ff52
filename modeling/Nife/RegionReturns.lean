/-
Returned pages come back.  While no split is refused for want of a table slot, a region's child
count is exact: it is the number of children that are live or on their way back.  A return that
leaves none on its way therefore finds the parent quiescent, whatever the order of the claims
and the returns, and lowers the watermark to the highest page still in use: the region's own
retypes, or the end of its highest live child.

A region with nothing out has all its pages but the retyped ones to give, and one split takes
them, if there are any: a split of no pages is refused (`split_of_nothing`).
-/
import Nife.RegionForest

namespace Nife

open List Option Regions Table

open Transition (Reach)

namespace Regions

variable {s s' : Regions} {n m c : Nat} {r r' child : Region} {P : Nat → Prop}

/-! ### The highest live child -/

/-- Where the highest live child of `n` ends, in page offsets from `base`. -/
def highestEnd (t : RegionTable) (n base : Nat) : Nat :=
  ((t.iter.filter fun e => e.2.parent = n).map fun e => e.2.basePage + e.2.pages - base).foldr max 0

variable {base bound : Nat} {t : RegionTable} {f : Region → Region}

theorem foldr_max_le {l : List Nat} : l.foldr max 0 ≤ bound ↔ ∀ x ∈ l, x ≤ bound := by
  induction l with
  | nil => simp
  | cons x l ih => rw [foldr_cons, Nat.max_le, ih, forall_mem_cons]

theorem highestEnd_le_iff :
    highestEnd t n base ≤ bound ↔ ∀ c child, t.get c = some child → child.parent = n →
      child.basePage + child.pages - base ≤ bound := by
  rw [highestEnd, foldr_max_le]
  constructor
  · intro h c child hc hp
    refine h _ (mem_map.mpr ⟨(c, child), mem_filter.mpr ⟨?_, ?_⟩, rfl⟩)
    · exact mem_iter.mpr hc
    · exact decide_eq_true hp
  · rintro h x hx
    obtain ⟨⟨c, child⟩, he, rfl⟩ := mem_map.mp hx
    obtain ⟨hmem, hp⟩ := mem_filter.mp he
    exact h c child (mem_iter.mp hmem) (of_decide_eq_true hp)

theorem le_highestEnd (hc : t.get c = some child)
    (hp : child.parent = n) : child.basePage + child.pages - base ≤ highestEnd t n base :=
  highestEnd_le_iff.mp (Nat.le_refl _) c child hc hp

theorem liveChildren_snd (t : RegionTable) (n base : Nat) :
    (t.liveChildren n base).2 = highestEnd t n base := by
  apply Nat.le_antisymm
  · refine (scan_snd_le_iff base _ _ _).mpr ⟨Nat.zero_le _, fun e he => ?_⟩
    obtain ⟨hmem, hp⟩ := mem_filter.mp he
    exact le_highestEnd (mem_iter.mp hmem) (of_decide_eq_true hp)
  · exact highestEnd_le_iff.mpr fun c child hc hp => le_liveChildren_snd hc hp

theorem highestEnd_modify (t : RegionTable) (hf : Moves f) (base : Nat) :
    highestEnd (t.modify m f) n base = highestEnd t n base := by
  apply Nat.le_antisymm
  · refine highestEnd_le_iff.mpr fun c child hc hp => ?_
    obtain ⟨old, hold, -, hbase, hpages, hparent⟩ := get_modify_of_moves hf hc
    rw [hbase, hpages]
    exact le_highestEnd hold (hparent ▸ hp)
  · refine highestEnd_le_iff.mpr fun c child hc hp => ?_
    have hget := get_modify t m f c
    by_cases hcm : c = m
    · subst hcm
      rw [if_pos rfl, hc] at hget
      have hle : (f child).basePage + (f child).pages - base ≤ highestEnd (t.modify c f) n base :=
        le_highestEnd hget ((hf.parent child).trans hp)
      rwa [hf.basePage, hf.pages] at hle
    · rw [if_neg hcm, hc] at hget
      exact le_highestEnd hget hp

/-! ### The count is exact -/

/-- A split is not refused for want of a slot. -/
def hadSlot (s : Regions) : RegionAction → Bool
  | .split parent pages =>
    (s.table.split parent pages).2.isSome ||
      (s.table.get parent).all fun r => (splitNewWatermark r.pages r.watermark pages).isNone
  | _ => true

/-- What holds of one region `r`, named `n`: it counts the children that are out, and with none
out it has only its own retypes below the watermark. -/
structure Even (s : Regions) (n : Nat) (r : Region) : Prop where
  counted : r.children = s.out n
  tight : s.out n = 0 → r.watermark = r.retypedTo
  sized : r.pages < u64Radix

/-- **The invariant**, beside `Placed`. -/
def Balanced (s : Regions) : Prop := ∀ n r, s.table.get n = some r → s.Even n r

theorem Even.of_out (h : s.Even n r) (hout : s'.out n = s.out n) : s'.Even n r :=
  ⟨h.counted.trans hout.symm, fun hz => h.tight (hout ▸ hz), h.sized⟩

section

variable (h : s.Balanced)
include h

theorem Balanced.modify (hf : Moves f) (hok : ∀ r, s.table.get n = some r → s.Even n (f r)) :
    ({ s with table := s.table.modify n f } : Regions).Balanced := by
  intro m q hq
  refine Even.of_out ?_ (out_modify s hf m)
  rw [get_modify] at hq
  split at hq
  · next hm =>
    obtain ⟨old, hold, rfl⟩ := map_eq_some_iff.mp hq
    exact hm ▸ hok old hold
  · exact h m q hq

variable {claim : DestroyClaim} {pages : Nat}

theorem Balanced.insertRoot (hpl : s.Placed P) (hpages : pages < u64Radix) :
    ({ s with table := ((s.table.insertRoot base pages).map Prod.snd).getD s.table } :
      Regions).Balanced := by
  rcases ht : s.table.insertRoot base pages with - | ⟨c, t'⟩
  · exact h
  · obtain ⟨hne, hzero⟩ := hpl.new_name ht
    intro m q hq
    have hq : t'.get m = some q := hq
    have hout := out_insert ht m
    rw [(get_insertWith ht).2] at hq
    split at hq
    · next hm =>
      cases hq
      rw [hm, if_neg hne.symm, hzero] at hout
      rw [hm]
      exact ⟨hout.symm, fun _ => rfl, hpages⟩
    · rw [if_neg (ne_noParent hq).symm] at hout
      exact (h m q hq).of_out hout

theorem Balanced.split (hpl : s.Placed P) {parent : Nat}
    (hslot : s.hadSlot (.split parent pages) = true)
    (hroom : ∀ r, s.table.get parent = some r → r.children + 1 < u32Radix) :
    ({ s with table := (s.table.split parent pages).1 } : Regions).Balanced := by
  obtain ⟨heq, -⟩ | ⟨p, hp, hpos, hle, hnew, ⟨heq, -⟩ | ⟨c, t', heq, hins⟩⟩ :=
    split_cases s.table parent pages
  · rw [heq]
    exact h
  · -- refused for want of a slot
    rw [hadSlot, heq, hp] at hslot
    simp [hnew] at hslot
  · rw [heq]
    have hparent := h parent p hp
    have hout := out_split heq
    obtain ⟨p', hp', -, -, hfresh, hget⟩ := split_eq_some heq
    cases hp.symm.trans hp'
    have hcne : c ≠ noParent := ne_noParent ((hget c).trans (if_pos rfl))
    have hpc : parent ≠ c := by
      rintro rfl
      rw [hp] at hfresh
      cases hfresh
    intro m q hq
    rw [hget] at hq
    split at hq
    · next hm =>
      cases hq
      have hzero := hout m
      rw [hm, if_neg hpc, hpl.out_dead hcne hfresh] at hzero
      rw [hm]
      exact ⟨hzero.symm, fun _ => rfl, by have := hparent.sized; show pages < _; omega⟩
    · split at hq
      · next hm =>
        cases hq
        have hmore := hout m
        rw [if_pos hm.symm, hm] at hmore
        rw [hm]
        refine ⟨?_, fun hz => absurd (hmore.symm.trans hz) (Nat.succ_ne_zero _), hparent.sized⟩
        show (p.children + 1) % u32Radix = _
        rw [Nat.mod_eq_of_lt (hroom p hp), hparent.counted]
        exact hmore.symm
      · next hm =>
        have hsame := hout m
        rw [if_neg (Ne.symm hm)] at hsame
        exact (h m q hq).of_out hsame

theorem Balanced.retypeRun (requested : Nat) :
    ({ s with table := ((s.table.retypeRun n requested).map Prod.snd).getD s.table } :
      Regions).Balanced := by
  rcases ht : s.table.retypeRun n requested with - | ⟨page, t'⟩
  · exact h
  · obtain ⟨r, -, -, -, -, rfl⟩ := retypeRun_eq_some ht
    refine h.modify ⟨fun _ => rfl, fun _ => rfl, fun _ => rfl⟩ fun q hq => ?_
    exact ⟨(h n q hq).counted, fun _ => rfl, (h n q hq).sized⟩

theorem Balanced.retypeObjectPage :
    ({ s with table := ((s.table.retypeObjectPage n).map Prod.snd).getD s.table } :
      Regions).Balanced := by
  rcases ht : s.table.retypeObjectPage n with - | ⟨page, t'⟩
  · exact h
  · obtain ⟨r, -, -, -, rfl⟩ := retypeObjectPage_eq_some ht
    refine h.modify ⟨fun _ => rfl, fun _ => rfl, fun _ => rfl⟩ fun q hq => ?_
    exact ⟨(h n q hq).counted, fun _ => rfl, (h n q hq).sized⟩

theorem Balanced.claimForDestroy (hr : s.table.get n = some r) : Balanced ⟨s.table.remove n,
      ⟨r.basePage, r.pages, r.parent, decide (r.parent = noParent)⟩ :: s.claims⟩ := by
  intro m q hq
  rw [get_remove] at hq
  split_ifs at hq
  exact (h m q hq).of_out (out_claim hr m)

section

variable (hpl : s.Placed P)
include hpl

/-- A claimed root that goes back to the frame allocator was nobody's child. -/
theorem Balanced.freeToAllocator (hcl : claim ∈ s.claims) (hroot : claim.isRoot = true) :
    ({ s with claims := s.claims.erase claim } : Regions).Balanced := by
  intro m q hq
  have hparent : claim.parent = noParent :=
    of_decide_eq_true ((hpl.claim_root claim hcl).symm.trans hroot)
  have hout := out_erase hcl m
  rw [hparent, if_neg (ne_noParent hq).symm] at hout
  exact (h m q hq).of_out hout

/-! ### Returns -/

section

variable (hP : ∀ n, n ≠ noParent → P n)
include hP

/-- **What a return leaves of the parent**: one child fewer, and, when no other child is on its
way back, nothing below the watermark but what is in use. -/
theorem Balanced.returned (hcl : claim ∈ s.claims) (hroot : claim.isRoot = false) :
    ∃ p w, s.table.get claim.parent = some p ∧ (s.table.returnToParent claim).get claim.parent
        = some { p with watermark := w, children := p.children - 1 } ∧
      ((∀ c ∈ s.claims.erase claim, c.parent ≠ claim.parent) →
        w = max p.retypedTo (highestEnd s.table claim.parent p.basePage)) := by
  obtain ⟨-, hsome⟩ := hpl.claim_parent claim hcl (hpl.claim_parent_ne hcl hroot)
  obtain ⟨p, hp⟩ := isSome_iff_exists.mp hsome
  obtain ⟨hretyped, hlive, -⟩ := hpl.below_unbumped hP hcl hroot hp
  refine ⟨p, coalescedWatermark (unbumped claim p) p.retypedTo
    (s.table.liveChildren claim.parent p.basePage).2
    (p.children - 1 = (s.table.liveChildren claim.parent p.basePage).1), hp, ?_, fun hquiet => ?_⟩
  · rw [returnToParent_eq hroot hp, get_modify, if_pos rfl, hp]
    rfl
  · -- the count is exact, so what the scan sees is all there is
    have hcount := (h _ p hp).counted
    have hout := out_erase hcl claim.parent
    rw [if_pos rfl] at hout
    have hnone : (s.claims.erase claim).countP (fun c => c.parent = claim.parent) = 0 := by
      rw [countP_eq_zero]
      intro c hc
      simpa using hquiet c hc
    have hseen : p.children - 1 = (s.table.liveChildren claim.parent p.basePage).1 := by
      rw [liveChildren_fst]
      unfold out at hout hcount
      dsimp only at hout
      omega
    have hend : highestEnd s.table claim.parent p.basePage ≤ unbumped claim p := by
      refine highestEnd_le_iff.mpr fun c child hc hpar => ?_
      have hbelow := hlive c child hc hpar
      omega
    rw [liveChildren_snd, coalescedWatermark, if_neg (by simpa using hseen)]
    omega

theorem Balanced.returnToParent (hcl : claim ∈ s.claims) (hroot : claim.isRoot = false) :
    Balanced ⟨s.table.returnToParent claim, s.claims.erase claim⟩ := by
  obtain ⟨p, w, hp, hget, hquiet⟩ := h.returned hpl hP hcl hroot
  have heq := returnToParent_eq hroot hp
  have hmoves := moves_giveBack claim (s.table.liveChildren claim.parent p.basePage)
  have hout : ∀ m, out ⟨s.table.returnToParent claim, s.claims.erase claim⟩ m
      + (if claim.parent = m then 1 else 0) = s.out m := by
    intro m
    rw [← out_erase hcl m, heq]
    exact congrArg (· + _) (out_modify { s with claims := s.claims.erase claim } hmoves m)
  intro m q hq
  by_cases hm : m = claim.parent
  · subst hm
    cases hget.symm.trans hq
    have hfewer := hout claim.parent
    rw [if_pos rfl] at hfewer
    have hcount := (h _ p hp).counted
    refine ⟨?_, fun hz => ?_, (h _ p hp).sized⟩
    · show p.children - 1 = _
      omega
    · -- nothing is out: the watermark is where the retypes end
      obtain ⟨hnolive, hnoclaim⟩ := out_eq_zero.mp hz
      have hlow : highestEnd s.table claim.parent p.basePage ≤ 0 := by
        rw [← highestEnd_modify s.table hmoves (m := claim.parent), ← heq]
        exact highestEnd_le_iff.mpr fun c child hc hpar => absurd hpar (hnolive c child hc)
      show w = p.retypedTo
      rw [hquiet hnoclaim]
      omega
  · have hsame := hout m
    rw [if_neg (Ne.symm hm)] at hsame
    rw [heq, get_modify, if_neg hm] at hq
    exact (h m q hq).of_out hsame

/-! ### Every step -/

theorem Balanced.step
    {a : RegionAction} (hslot : s.hadSlot a = true) (hroom : s.roomToCount a = true)
    (hs : s.tableStep a = some s') : s'.Balanced := by
  cases a with
  | insertRoot base pages =>
    dsimp only [Regions.tableStep] at hs
    split_ifs at hs with hfits
    cases hs
    exact h.insertRoot hpl hfits.2
  | split parent pages =>
    cases hs
    refine h.split hpl hslot fun r hr => ?_
    rw [roomToCount, hr] at hroom
    simpa using hroom
  | retypeRun name requested =>
    cases hs
    exact h.retypeRun requested
  | retypePage name =>
    cases hs
    exact h.retypeRun 1
  | retypeObjectPage name =>
    cases hs
    exact h.retypeObjectPage
  | unpin name =>
    cases hs
    refine h.modify ⟨fun _ => rfl, fun _ => rfl, fun _ => rfl⟩ fun r hr => ?_
    exact ⟨(h name r hr).counted, (h name r hr).tight, (h name r hr).sized⟩
  | claimForDestroy name =>
    dsimp only [Regions.tableStep, Regions.openStep, Regions.step] at hs
    split at hs
    · cases hs
      exact h
    · next claim t hclaim =>
      cases hs
      obtain ⟨r, hr, -, -, rfl, rfl⟩ := claimForDestroy_eq_some hclaim
      exact h.claimForDestroy hr
  | returnToParent claim =>
    dsimp only [Regions.tableStep, Regions.openStep, Regions.step] at hs
    split_ifs at hs with hc
    cases hs
    exact h.returnToParent hpl hP hc.1 (Bool.not_eq_true _ ▸ hc.2)
  | freeToAllocator claim =>
    dsimp only [Regions.tableStep, Regions.openStep, Regions.step] at hs
    split_ifs at hs with hc
    cases hs
    exact h.freeToAllocator hpl hc.1 hc.2

end

end

/-! ### Nothing leaks -/

end

/-- What a destruction gives back. -/
structure NoLeak (s : Regions) : Prop where
  /-- A return with no other child on its way back leaves the watermark at the highest page in
  use. -/
  returned : ∀ claim ∈ s.claims, claim.isRoot = false →
    (∀ other ∈ s.claims.erase claim, other.parent ≠ claim.parent) →
    ∃ p, (s.table.returnToParent claim).get claim.parent = some p ∧
      p.watermark = max p.retypedTo
        (highestEnd (s.table.returnToParent claim) claim.parent p.basePage)
  /-- With every child returned, only the region's own retypes are spent. -/
  usage : ∀ n r, s.table.get n = some r →
    (∀ c child, s.table.get c = some child → child.parent ≠ n) →
    (∀ claim ∈ s.claims, claim.parent ≠ n) →
    s.table.usage n = some (r.retypedTo, r.pages)
  /-- All the rest can be split off at once. -/
  split : ∀ n r, s.table.get n = some r →
    (∀ c child, s.table.get c = some child → child.parent ≠ n) →
    (∀ claim ∈ s.claims, claim.parent ≠ n) →
    r.retypedTo < r.pages → s.table.len < s.table.cells.length →
    (s.table.split n (r.pages - r.retypedTo)).2.isSome

theorem Balanced.noLeak (h : s.Balanced) (hpl : s.Placed P) (hP : ∀ n, n ≠ noParent → P n) :
    s.NoLeak where
  returned claim hcl hroot hquiet := by
    obtain ⟨p, w, hp, hget, hw⟩ := h.returned hpl hP hcl hroot
    refine ⟨_, hget, ?_⟩
    show w = max p.retypedTo (highestEnd _ _ p.basePage)
    rw [returnToParent_eq hroot hp, highestEnd_modify s.table (moves_giveBack claim _)]
    exact hw hquiet
  usage n r hr hlive hclaimed := by
    have hw := (h n r hr).tight (out_eq_zero.mpr ⟨hlive, hclaimed⟩)
    rw [RegionTable.usage, hr]
    exact congrArg (fun w => some (w, r.pages)) hw
  split n r hr hlive hclaimed hlt hfree := by
    have hw := (h n r hr).tight (out_eq_zero.mpr ⟨hlive, hclaimed⟩)
    have hsize := (h n r hr).sized
    have hnew : splitNewWatermark r.pages r.watermark (r.pages - r.retypedTo) = some r.pages := by
      unfold splitNewWatermark
      rw [if_neg (by omega), if_neg (by omega), if_neg (by omega)]
      congr 1
      omega
    obtain ⟨-, hrefused⟩ | ⟨r', -, -, -, -, ⟨-, hins⟩ | ⟨c, t', heq, -⟩⟩ :=
      split_cases s.table n (r.pages - r.retypedTo)
    · simp [hr, hnew] at hrefused
    · -- carving fills no slot
      have hsome := Table.insertWith_isSome 
        (s.table.modify n (carve (r'.watermark + (r.pages - r.retypedTo))))
        (fun _ => .fresh (r'.basePage + r'.watermark) (r.pages - r.retypedTo) n)
        (by rw [Table.modify, length_modify]; exact hfree)
      rw [hins] at hsome
      cases hsome
    · rw [heq]
      rfl

/-- **No pages leak through returns**, in whatever order children are claimed and returned: in
every run of a table of any size in which no split is refused for want of a slot, each claim is
returned once, and no split finds its parent's child count full. -/
theorem no_budget_leak {size : Nat} (hsize : size < nameRadix)
    (h : Reach tableStep (fun s a => s.hadSlot a = true ∧ s.roomToCount a = true)
      (empty size hsize) s) : s.NoLeak := by
  have hinit : (empty size hsize).Placed (· ≠ noParent) ∧ (empty size hsize).Balanced := by
    refine ⟨placed_empty size hsize, fun n r hr => ?_⟩
    rw [get_empty] at hr
    cases hr
  obtain ⟨hpl, hb⟩ := h.invariant (fun s => s.Placed (· ≠ noParent) ∧ s.Balanced) hinit
    fun _ _ _ hi hc hs =>
      ⟨hi.1.tableStep hc.2 hs, hi.2.step hi.1 (fun _ hn => hn) hc.1 hc.2 hs⟩
  exact hb.noLeak hpl fun _ hn => hn

/-- Three children of sixteen pages, the first two returned in the order they were split off:
the hole under the third closes when it is returned, and all but the retyped page is split off
again. -/
theorem no_budget_leak_outOfOrder :
    ∃ s, Reach tableStep (fun s a => s.hadSlot a = true ∧ s.roomToCount a = true)
        (empty 4 (by decide)) s ∧
      s.claims = [⟨9, 4, 0, false⟩] ∧ (s.table.usage 0) = some (13, 16) ∧ s.NoLeak := by
  have hrun : (Transition.runIf tableStep
      (fun s a => s.hadSlot a = true ∧ s.roomToCount a = true) (empty 4 (by decide))
      [.insertRoot 0 16, .retypePage 0, .split 0 4, .split 0 4, .split 0 4, .claimForDestroy 1,
        .returnToParent ⟨1, 4, 0, false⟩, .claimForDestroy 2, .returnToParent ⟨5, 4, 0, false⟩,
        .claimForDestroy 3]).any (fun s =>
      decide (s.claims = [⟨9, 4, 0, false⟩]) && decide (s.table.usage 0 = some (13, 16)))
      = true := by decide
  obtain ⟨s, hs, hc⟩ := (any_eq_true _ _).mp hrun
  rw [Bool.and_eq_true, decide_eq_true_eq, decide_eq_true_eq] at hc
  have hreach := Reach.of_runIf _ hs
  exact ⟨s, hreach, hc.1, hc.2, no_budget_leak (by decide) hreach⟩

/-- Two children of four pages, the second of which is returned; its pages are split off once more. -/
def resplit : List RegionAction :=
  [.insertRoot 0 16, .split 0 4, .split 0 4, .claimForDestroy 2, .returnToParent ⟨4, 4, 0, false⟩,
    .split 0 4]

/-- A region that has retyped all its pages has none to split off: with every child returned and
a slot free, the split of the remaining pages, which are none, is refused.  And a claim that is
returned a second time lowers the watermark under a live child. -/
theorem split_of_nothing :
    (∃ s r, Reach tableStep (fun s a => s.hadSlot a = true ∧ s.roomToCount a = true)
        (empty 2 (by decide)) s ∧
      s.table.get 0 = some r ∧ (∀ c child, s.table.get c = some child → child.parent ≠ 0) ∧
      s.claims = [] ∧ s.table.len < s.table.cells.length ∧
      (s.table.split 0 (r.pages - r.retypedTo)).2 = none) ∧
    ∃ s p, Transition.runIf tableStep (fun s a => s.hadSlot a = true ∧ s.roomToCount a = true)
        (empty 4 (by decide)) resplit = some s ∧ s.claims = [] ∧
      (s.table.returnToParent ⟨4, 4, 0, false⟩).get 0 = some p ∧
      p.watermark < highestEnd (s.table.returnToParent ⟨4, 4, 0, false⟩) 0 p.basePage := by
  constructor
  · have hrun : (Transition.runIf tableStep
        (fun s a => s.hadSlot a = true ∧ s.roomToCount a = true) (empty 2 (by decide))
        [.insertRoot 0 2, .split 0 1, .retypePage 0, .claimForDestroy 1,
          .returnToParent ⟨0, 1, 0, false⟩]).any (fun s =>
        (s.table.get 0).any (fun r => decide ((s.table.split 0 (r.pages - r.retypedTo)).2 = none)) &&
          decide (∀ e ∈ s.table.iter, e.2.parent ≠ 0) && decide (s.claims = []) &&
          decide (s.table.len < s.table.cells.length)) = true := by decide
    obtain ⟨s, hs, hc⟩ := (any_eq_true _ _).mp hrun
    simp only [Bool.and_eq_true, decide_eq_true_eq] at hc
    obtain ⟨⟨⟨hr, hlive⟩, hclaims⟩, hfree⟩ := hc
    obtain ⟨r, hr, hsplit⟩ := (any_eq_true _ _).mp hr
    refine ⟨s, r, Reach.of_runIf _ hs, hr, fun c child hc => ?_, hclaims, hfree,
      of_decide_eq_true hsplit⟩
    exact hlive (c, child) (Table.mem_iter.mpr hc)
  · have hrun : (Transition.runIf tableStep
        (fun s a => s.hadSlot a = true ∧ s.roomToCount a = true) (empty 4 (by decide))
        resplit).any (fun s => decide (s.claims = []) &&
        ((s.table.returnToParent ⟨4, 4, 0, false⟩).get 0).any (fun p => decide (p.watermark <
          highestEnd (s.table.returnToParent ⟨4, 4, 0, false⟩) 0 p.basePage))) = true := by decide
    obtain ⟨s, hs, hc⟩ := (any_eq_true _ _).mp hrun
    obtain ⟨hclaims, hlow⟩ := (Bool.and_eq_true _ _).mp hc
    obtain ⟨p, hp, hlow⟩ := (any_eq_true _ _).mp hlow
    exact ⟨s, p, hs, of_decide_eq_true hclaims, hp, of_decide_eq_true hlow⟩

end Regions

end Nife
