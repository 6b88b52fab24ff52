/-
Physical pages are owned once.  What a region has given out lies below its watermark: its own
retypes, its live children, and its children that are claimed and not yet returned, all
disjoint.  The child count is at least the number of children of both kinds, which is how a
return knows that nothing it cannot see is still out, and may lower the watermark.

That last step needs the count not to have wrapped.  A split that the full table refuses still
counts, so enough of them wrap it, and the claim fails (`split_overlaps_claimed_child`).
-/
import Nife.Lib.Transition
import Nife.MemoryRegions

namespace Nife

open List Option Table Regions RegionTable

open Transition (Reach)

namespace Regions

variable {s : Regions} {n m c : Nat} {r child : Region}

/-- How many children of `n` are live, and how many are claimed. -/
def out (s : Regions) (n : Nat) : Nat :=
  (s.table.names fun r => r.parent = n).card + s.claims.countP fun c => c.parent = n

theorem out_eq_zero : s.out n = 0 ↔ (∀ c child, s.table.get c = some child → child.parent ≠ n) ∧
      ∀ claim ∈ s.claims, claim.parent ≠ n := by
  rw [out, Nat.add_eq_zero_iff, Finset.card_eq_zero, List.countP_eq_zero]
  refine and_congr ?_ (forall₂_congr fun claim _ => by rw [decide_eq_true_eq])
  rw [Finset.eq_empty_iff_forall_notMem]
  refine forall_congr' fun c => ?_
  rw [mem_names, not_exists]
  refine forall_congr' fun child => ?_
  rw [not_and, decide_eq_true_eq]

/-- What holds of one region `r`, named `n`. -/
structure RegionOk (s : Regions) (n : Nat) (r : Region) : Prop where
  retypedTo_le : r.retypedTo ≤ r.watermark
  watermark_le : r.watermark ≤ r.pages
  counted : s.out n ≤ r.children
  live_within : ∀ c child, s.table.get c = some child → child.parent = n →
    r.basePage ≤ child.basePage ∧ child.basePage + child.pages ≤ r.basePage + r.watermark
  claimed_within : ∀ claim ∈ s.claims, claim.parent = n →
    r.basePage ≤ claim.basePage ∧ claim.basePage + claim.pages ≤ r.basePage + r.watermark
  retyped_within : ∀ run ∈ r.retyped, 0 < run.count ∧ r.basePage ≤ run.first ∧
    run.first + run.count ≤ r.basePage + r.retypedTo
  /-- The highest of its own retypes ends where `retyped_to` says. -/
  retyped_top : r.retypedTo = 0 ∨ ∃ run ∈ r.retyped, run.first + run.count = r.basePage + r.retypedTo
  retyped_live : ∀ run ∈ r.retyped, ∀ c child, s.table.get c = some child → child.parent = n →
    run.Disjoint child.run
  retyped_claimed : ∀ run ∈ r.retyped, ∀ claim ∈ s.claims, claim.parent = n →
    run.Disjoint claim.run

/-- What holds of the regions together.  The runs of two regions of one parent are clear of each
other for the parents in `P`; of roots, whose runs the caller chooses, this is only so if the
caller does it. -/
structure Placed (P : Nat → Prop) (s : Regions) : Prop where
  ok : ∀ n r, s.table.get n = some r → s.RegionOk n r
  live_parent : ∀ c child, s.table.get c = some child → child.parent ≠ noParent →
    0 < child.pages ∧ (s.table.get child.parent).isSome
  claim_parent : ∀ claim ∈ s.claims, claim.parent ≠ noParent →
    0 < claim.pages ∧ (s.table.get claim.parent).isSome
  claim_root : ∀ claim ∈ s.claims, claim.isRoot = decide (claim.parent = noParent)
  live_live : ∀ c child d child', c ≠ d → s.table.get c = some child → s.table.get d = some child' →
    child.parent = child'.parent → P child.parent → child.run.Disjoint child'.run
  claimed_live : ∀ claim ∈ s.claims, ∀ c child, s.table.get c = some child →
    child.parent = claim.parent → P claim.parent → claim.run.Disjoint child.run
  claimed_claimed : s.claims.Pairwise fun a b =>
    a.parent = b.parent → P a.parent → a.run.Disjoint b.run

/-- **The invariant** of runs whose roots are clear of each other. -/
abbrev Inv (s : Regions) : Prop := s.Placed fun _ => True

variable {P : Nat → Prop}

theorem get_noParent (t : RegionTable) : t.get noParent = none := by
  rw [get_eq]
  have hlen : t.cells.length ≤ (unpack noParent).1 := Nat.le_of_lt_succ t.fits
  rw [getElem?_eq_none hlen]
  rfl

theorem get_empty (n : Nat) (h : n < nameRadix) (m : Nat) : (empty n h).table.get m = none := by
  rcases hm : (empty n h).table.get m with - | r
  · rfl
  · obtain ⟨cell, hcell, -, hv⟩ := get_eq_some.mp hm
    rw [eq_of_mem_replicate (mem_of_getElem? hcell)] at hv
    cases hv

theorem placed_empty (n : Nat) (h : n < nameRadix) : (empty n h).Placed P := by
  refine ⟨fun m r hr => ?_, fun m r hr => ?_, by simp [empty], by simp [empty],
    fun m r _ _ _ hr => ?_, by simp [empty], List.Pairwise.nil⟩
  all_goals rw [get_empty] at hr; cases hr

/-! ### One region changes -/

variable {t t' : RegionTable} {pages parent base k : Nat} {claim : DestroyClaim}
  {f : Region → Region} {a : RegionAction} {s' : Regions}

/-- The names of the regions split off `n` do not change with what `n` has given out. -/
theorem names_modify (t : RegionTable) (m : Nat) (hf : ∀ r, (f r).parent = r.parent) (n : Nat) :
    (t.modify m f).names (fun r => r.parent = n) = t.names fun r => r.parent = n := by
  ext c
  rw [mem_names, mem_names, get_modify]
  split
  · next hc =>
    rw [hc]
    rcases t.get m with - | r
    · simp
    · simp [hf]
  · rfl

/-- Regions keep their place. -/
structure Moves (f : Region → Region) : Prop where
  basePage : ∀ r, (f r).basePage = r.basePage
  pages : ∀ r, (f r).pages = r.pages
  parent : ∀ r, (f r).parent = r.parent

theorem get_modify_of_moves (hf : Moves f) (h : (t.modify n f).get c = some child) :
    ∃ old, t.get c = some old ∧ child.run = old.run ∧ child.basePage = old.basePage ∧
      child.pages = old.pages ∧ child.parent = old.parent := by
  rw [get_modify] at h
  split at h
  · next hc =>
    obtain ⟨old, hold, rfl⟩ := map_eq_some_iff.mp h
    refine ⟨old, hc ▸ hold, ?_, hf.basePage old, hf.pages old, hf.parent old⟩
    rw [Region.run, Region.run, hf.basePage, hf.pages]
  · exact ⟨child, h, rfl, rfl, rfl, rfl⟩

theorem out_modify (s : Regions) (hf : Moves f) (m : Nat) :
    ({ s with table := s.table.modify n f } : Regions).out m = s.out m := by
  show ((s.table.modify n f).names _).card + _ = _
  rw [names_modify s.table n hf.parent m]
  rfl

/-- **One region changes what it has given out.** -/
theorem Placed.modify (h : s.Placed P) (hf : Moves f)
    (hok : ∀ r, s.table.get n = some r → s.RegionOk n (f r)) :
    ({ s with table := s.table.modify n f } : Regions).Placed P := by
  have hsome : ∀ m, (s.table.get m).isSome → ((s.table.modify n f).get m).isSome := by
    intro m hm
    rw [get_modify]
    split
    · next heq =>
      rw [isSome_map, ← heq]
      exact hm
    · exact hm
  -- whichever region it is, it was `RegionOk` of the state before
  have hlift : ∀ m q, s.RegionOk m q → ({ s with table := s.table.modify n f } : Regions).RegionOk m q := by
    intro m q hq
    refine { hq with
      counted := by rw [out_modify s hf]; exact hq.counted
      live_within := fun c child hc hp => ?_
      retyped_live := fun run hrun c child hc hp => ?_ }
    · obtain ⟨old, hold, -, hbase, hpages, hparent⟩ := get_modify_of_moves hf hc
      rw [hbase, hpages]
      exact hq.live_within c old hold (hparent ▸ hp)
    · obtain ⟨old, hold, hrun', -, -, hparent⟩ := get_modify_of_moves hf hc
      rw [hrun']
      exact hq.retyped_live run hrun c old hold (hparent ▸ hp)
  refine ⟨fun m q hq => ?_, fun c child hc hp => ?_, fun claim hc hp => ?_, h.claim_root,
    fun c child d child' hne hc hd hp hP => ?_, fun claim hcl c child hc hp hP => ?_,
    h.claimed_claimed⟩
  · have hq : (s.table.modify n f).get m = some q := hq
    rw [get_modify] at hq
    split at hq
    · next hm =>
      obtain ⟨old, hold, rfl⟩ := map_eq_some_iff.mp hq
      exact hlift m _ (hm ▸ hok old hold)
    · exact hlift m q (h.ok m q hq)
  · obtain ⟨old, hold, -, -, hpages, hparent⟩ := get_modify_of_moves hf hc
    rw [hpages, hparent]
    have hold' := h.live_parent c old hold (hparent ▸ hp)
    exact ⟨hold'.1, hsome _ hold'.2⟩
  · exact ⟨(h.claim_parent claim hc hp).1, hsome _ (h.claim_parent claim hc hp).2⟩
  · obtain ⟨old, hold, hrun, -, -, hparent⟩ := get_modify_of_moves hf hc
    obtain ⟨old', hold', hrun', -, -, hparent'⟩ := get_modify_of_moves hf hd
    rw [hrun, hrun']
    rw [hparent] at hP
    exact h.live_live c old d old' hne hold hold' (by rw [← hparent, ← hparent', hp]) hP
  · obtain ⟨old, hold, hrun, -, -, hparent⟩ := get_modify_of_moves hf hc
    rw [hrun]
    exact h.claimed_live claim hcl c old hold (hparent ▸ hp) hP

/-! ### Regions come and go -/

theorem names_insert {f : Nat → Region} (h : t.insertWith f = some (c, t'))
    (n : Nat) : t'.names (fun r => r.parent = n)
      = if (f c).parent = n then insert c (t.names fun r => r.parent = n)
        else t.names fun r => r.parent = n := by
  obtain ⟨hnone, hget⟩ := get_insertWith h
  ext d
  rw [mem_names, hget]
  by_cases hp : (f c).parent = n
  · rw [if_pos hp, Finset.mem_insert, mem_names]
    split
    · next hd => simp [hd, hp]
    · next hd => simp [hd]
  · rw [if_neg hp, mem_names]
    split
    · next hd => simp [hd, hp, hnone]
    · rfl

theorem names_remove (t : RegionTable) (m n : Nat) :
    (t.remove m).names (fun r => r.parent = n) = (t.names fun r => r.parent = n).erase m := by
  ext d
  rw [mem_names, Finset.mem_erase, mem_names, get_remove]
  split
  · next hd => simp [hd]
  · next hd => simp [hd]

theorem out_insert
    (hins : s.table.insertWith (fun _ => .fresh base pages parent) = some (c, t')) (m : Nat) :
    ({ s with table := t' } : Regions).out m = if parent = m then s.out m + 1 else s.out m := by
  have hnone := (get_insertWith hins).1
  have hpar : (Region.fresh base pages parent).parent = parent := rfl
  unfold out
  dsimp only
  rw [names_insert hins m, hpar]
  by_cases hm : parent = m
  · rw [if_pos hm, if_pos hm, Finset.card_insert_of_notMem (by simp [mem_names, hnone])]
    omega
  · rw [if_neg hm, if_neg hm]

theorem ne_noParent (h : t.get n = some r) : n ≠ noParent := by
  rintro rfl
  rw [get_noParent] at h
  cases h

section

variable (h : s.Placed P)
include h

theorem Placed.out_dead (hne : n ≠ noParent) (hnone : s.table.get n = none) : s.out n = 0 := by
  refine out_eq_zero.mpr ⟨?_, ?_⟩
  · rintro d child hd rfl
    have hsome := (h.live_parent d child hd hne).2
    rw [hnone] at hsome
    cases hsome
  · rintro claim hcl rfl
    have hsome := (h.claim_parent claim hcl hne).2
    rw [hnone] at hsome
    cases hsome

theorem Placed.new_name {f : Nat → Region}
    (hins : s.table.insertWith f = some (c, t')) : c ≠ noParent ∧ s.out c = 0 := by
  obtain ⟨hnone, hget⟩ := get_insertWith hins
  have hne : c ≠ noParent := ne_noParent ((hget c).trans (if_pos rfl))
  exact ⟨hne, h.out_dead hne hnone⟩

/-- **A region is entered**, with nothing taken from it: a root, or a child of a live region
that has counted it and whose run is clear of everything else out of that region. -/
theorem Placed.insert (hins : s.table.insertWith (fun _ => .fresh base pages parent) = some (c, t'))
    (hlive : ∀ d child, s.table.get d = some child → child.parent = parent → P parent →
      Run.Disjoint ⟨base, pages⟩ child.run)
    (hclaimed : ∀ claim ∈ s.claims, claim.parent = parent → P parent →
      claim.run.Disjoint ⟨base, pages⟩)
    (hparent : parent ≠ noParent → 0 < pages ∧ ∃ p, s.table.get parent = some p ∧
      s.out parent + 1 ≤ p.children ∧ p.basePage ≤ base ∧ base + pages ≤ p.basePage + p.watermark ∧
      ∀ run ∈ p.retyped, run.Disjoint ⟨base, pages⟩) :
    ({ s with table := t' } : Regions).Placed P := by
  obtain ⟨hnone, hget⟩ := get_insertWith hins
  obtain ⟨hcne, hzero⟩ := h.new_name hins
  obtain ⟨hfresh, hfreshc⟩ := out_eq_zero.mp hzero
  have hpc : parent ≠ c := by
    rintro rfl
    obtain ⟨-, p, hp, -⟩ := hparent hcne
    rw [hnone] at hp
    cases hp
  have hold : ∀ {d child}, t'.get d = some child →
      (d = c ∧ child = .fresh base pages parent) ∨ (d ≠ c ∧ s.table.get d = some child) := by
    intro d child hd
    rw [hget] at hd
    split at hd
    · next hdc => exact .inl ⟨hdc, (Option.some.inj hd).symm⟩
    · next hdc => exact .inr ⟨hdc, hd⟩
  have hsome : ∀ {m}, (s.table.get m).isSome → (t'.get m).isSome := by
    intro m hm
    rw [hget]
    split
    · rfl
    · exact hm
  have hnew : ({ s with table := t' } : Regions).RegionOk c (.fresh base pages parent) := by
    refine ⟨Nat.le_refl _, Nat.zero_le _, ?_, fun d child hd hp => ?_, fun claim hcl hp => ?_,
      by simp [Region.fresh], .inl rfl, by simp [Region.fresh], by simp [Region.fresh]⟩
    · rw [out_insert hins, if_neg hpc, hzero]
      exact Nat.zero_le _
    · rcases hold hd with ⟨-, rfl⟩ | ⟨-, hd⟩
      · exact absurd hp hpc
      · exact absurd hp (hfresh d child hd)
    · exact absurd hp (hfreshc claim hcl)
  have hlift : ∀ m q, s.table.get m = some q → ({ s with table := t' } : Regions).RegionOk m q := by
    intro m q hq
    have hok := h.ok m q hq
    have hpar : parent = m → s.out m + 1 ≤ q.children ∧ q.basePage ≤ base ∧
        base + pages ≤ q.basePage + q.watermark ∧ ∀ run ∈ q.retyped, run.Disjoint ⟨base, pages⟩ := by
      rintro rfl
      obtain ⟨-, p, hp, hrest⟩ := hparent (ne_noParent hq)
      cases hp.symm.trans hq
      exact hrest
    refine { hok with
      counted := ?_
      live_within := fun d child hd hp => ?_
      retyped_live := fun run hrun d child hd hp => ?_ }
    · rw [out_insert hins]
      split
      · next hm => exact (hpar hm).1
      · exact hok.counted
    · rcases hold hd with ⟨-, rfl⟩ | ⟨-, hd⟩
      · exact ⟨(hpar hp).2.1, (hpar hp).2.2.1⟩
      · exact hok.live_within d child hd hp
    · rcases hold hd with ⟨-, rfl⟩ | ⟨-, hd⟩
      · exact (hpar hp).2.2.2 run hrun
      · exact hok.retyped_live run hrun d child hd hp
  refine ⟨fun m q hq => ?_, fun d child hd hp => ?_, fun claim hcl hp => ?_, h.claim_root,
    fun d child e child' hne hd he hp hP => ?_, fun claim hcl d child hd hp hP => ?_,
    h.claimed_claimed⟩
  · rcases hold hq with ⟨rfl, rfl⟩ | ⟨-, hq⟩
    · exact hnew
    · exact hlift m q hq
  · rcases hold hd with ⟨-, rfl⟩ | ⟨-, hd⟩
    · obtain ⟨hpos, p, hp', -⟩ := hparent hp
      exact ⟨hpos, hsome (by rw [show (Region.fresh base pages parent).parent = parent from rfl, hp']; rfl)⟩
    · exact ⟨(h.live_parent d child hd hp).1, hsome (h.live_parent d child hd hp).2⟩
  · exact ⟨(h.claim_parent claim hcl hp).1, hsome (h.claim_parent claim hcl hp).2⟩
  · rcases hold hd with ⟨rfl, rfl⟩ | ⟨-, hd⟩
    · rcases hold he with ⟨rfl, -⟩ | ⟨-, he⟩
      · exact absurd rfl hne
      · exact hlive e child' he hp.symm hP
    · rcases hold he with ⟨-, rfl⟩ | ⟨-, he⟩
      · rw [hp] at hP
        exact (hlive d child hd hp hP).symm
      · exact h.live_live d child e child' hne hd he hp hP
  · rcases hold hd with ⟨-, rfl⟩ | ⟨-, hd⟩
    · rw [← hp] at hP
      exact hclaimed claim hcl hp.symm hP
    · exact h.claimed_live claim hcl d child hd hp hP

theorem Placed.nothing_out (hr : s.table.get n = some r) (hch : r.children = 0) :
    (∀ d child, s.table.get d = some child → child.parent ≠ n) ∧
      ∀ claim ∈ s.claims, claim.parent ≠ n :=
  out_eq_zero.mp (Nat.le_zero.mp (hch ▸ (h.ok n r hr).counted))

end

theorem out_claim (hr : s.table.get n = some r) (m : Nat) : out ⟨s.table.remove n,
      ⟨r.basePage, r.pages, r.parent, decide (r.parent = noParent)⟩ :: s.claims⟩ m = s.out m := by
  unfold out
  rw [names_remove, countP_cons]
  by_cases hm : r.parent = m
  · have hmem : n ∈ s.table.names fun q => q.parent = m :=
      mem_names.mpr ⟨r, hr, by simpa using hm⟩
    have hcard := Finset.card_erase_add_one hmem
    simp only [hm, decide_true, if_true]
    omega
  · have hmem : n ∉ s.table.names fun q => q.parent = m := by
      rw [mem_names]
      rintro ⟨q, hq, hqm⟩
      cases hr.symm.trans hq
      exact hm (by simpa using hqm)
    rw [Finset.erase_eq_of_notMem hmem]
    simp [hm]

/-- **A region is claimed**: it leaves the table and its run is on its way back. -/
theorem Placed.claimForDestroy (h : s.Placed P) (hr : s.table.get n = some r) (hch : r.children = 0) :
    Placed P ⟨s.table.remove n,
      ⟨r.basePage, r.pages, r.parent, decide (r.parent = noParent)⟩ :: s.claims⟩ := by
  have hold : ∀ {d child}, (s.table.remove n).get d = some child →
      d ≠ n ∧ s.table.get d = some child := by
    intro d child hd
    rw [get_remove] at hd
    split_ifs at hd with hdn
    exact ⟨hdn, hd⟩
  obtain ⟨hnolive, hnoclaim⟩ := h.nothing_out hr hch
  have hsome : ∀ {m}, m ≠ n → (s.table.get m).isSome → ((s.table.remove n).get m).isSome := by
    intro m hm hs
    rw [get_remove, if_neg hm]
    exact hs
  refine ⟨fun m q hq => ?_, fun d child hd hp => ?_, fun claim hcl hp => ?_, fun claim hcl => ?_,
    fun d child e child' hne hd he hp hP => ?_, fun claim hcl d child hd hp hP => ?_, ?_⟩
  · have hok := h.ok m q (hold hq).2
    refine ⟨hok.retypedTo_le, hok.watermark_le, by rw [out_claim hr]; exact hok.counted,
      fun d child hd hp => hok.live_within d child (hold hd).2 hp, fun claim hcl hp => ?_,
      hok.retyped_within, hok.retyped_top,
      fun run hrun d child hd hp => hok.retyped_live run hrun d child (hold hd).2 hp,
      fun run hrun claim hcl hp => ?_⟩
    · rcases mem_cons.mp hcl with rfl | hcl
      · exact hok.live_within n r hr hp
      · exact hok.claimed_within claim hcl hp
    · rcases mem_cons.mp hcl with rfl | hcl
      · exact hok.retyped_live run hrun n r hr hp
      · exact hok.retyped_claimed run hrun claim hcl hp
  · have hd' := (hold hd).2
    have hpar := h.live_parent d child hd' hp
    exact ⟨hpar.1, hsome (hnolive d child hd') hpar.2⟩
  · rcases mem_cons.mp hcl with rfl | hcl
    · exact ⟨(h.live_parent n r hr hp).1, hsome (hnolive n r hr) (h.live_parent n r hr hp).2⟩
    · have hpar := h.claim_parent claim hcl hp
      exact ⟨hpar.1, hsome (hnoclaim claim hcl) hpar.2⟩
  · rcases mem_cons.mp hcl with rfl | hcl
    · rfl
    · exact h.claim_root claim hcl
  · exact h.live_live d child e child' hne (hold hd).2 (hold he).2 hp hP
  · rcases mem_cons.mp hcl with rfl | hcl
    · exact h.live_live n r d child (hold hd).1.symm hr (hold hd).2 hp.symm hP
    · exact h.claimed_live claim hcl d child (hold hd).2 hp hP
  · refine pairwise_cons.mpr ⟨fun claim hcl hp hP => ?_, h.claimed_claimed⟩
    have hP : P claim.parent := hp ▸ hP
    exact (h.claimed_live claim hcl n r hr hp hP).symm

theorem out_erase (hcl : claim ∈ s.claims) (m : Nat) :
    out { s with claims := s.claims.erase claim } m + (if claim.parent = m then 1 else 0)
      = s.out m := by
  have hperm := (perm_cons_erase hcl).countP_eq fun c => decide (c.parent = m)
  rw [countP_cons] at hperm
  simp only [decide_eq_true_eq] at hperm
  unfold out
  dsimp only
  omega

theorem Placed.dropClaim (h : s.Placed P) (claim : DestroyClaim) :
    ({ s with claims := s.claims.erase claim } : Regions).Placed P := by
  have hsub : ∀ c ∈ s.claims.erase claim, c ∈ s.claims := fun c hc => mem_of_mem_erase hc
  refine ⟨fun m q hq => ?_, h.live_parent, fun c hc => h.claim_parent c (hsub c hc),
    fun c hc => h.claim_root c (hsub c hc), h.live_live, fun c hc => h.claimed_live c (hsub c hc),
    h.claimed_claimed.sublist erase_sublist⟩
  have hok := h.ok m q hq
  refine { hok with
    counted := ?_
    claimed_within := fun c hc => hok.claimed_within c (hsub c hc)
    retyped_claimed := fun run hrun c hc => hok.retyped_claimed run hrun c (hsub c hc) }
  have hle : (s.claims.erase claim).countP (fun c => c.parent = m)
      ≤ s.claims.countP fun c => c.parent = m := erase_sublist.countP_le
  have hcount := hok.counted
  unfold out at hcount ⊢
  dsimp only
  omega

/-! ### Taking pages -/

/-- Everything out of a region, retyped or split off, ends at or below its watermark. -/
theorem RegionOk.above (h : s.RegionOk n r) :
    (∀ d child, s.table.get d = some child → child.parent = n →
      Run.Disjoint ⟨r.basePage + r.watermark, k⟩ child.run) ∧
    (∀ claim ∈ s.claims, claim.parent = n → claim.run.Disjoint ⟨r.basePage + r.watermark, k⟩) ∧
    ∀ run ∈ r.retyped, run.Disjoint ⟨r.basePage + r.watermark, k⟩ := by
  refine ⟨fun d child hd hp => ?_, fun claim hcl hp => ?_, fun run hrun => ?_⟩
  · exact (Run.Disjoint.of_le (h.live_within d child hd hp).2).symm
  · exact Run.Disjoint.of_le (h.claimed_within claim hcl hp).2
  · have hle := (h.retyped_within run hrun).2.2
    have hto := h.retypedTo_le
    exact Run.Disjoint.of_le (by show _ ≤ r.basePage + r.watermark; omega)

def carve (newWatermark : Nat) (r : Region) : Region :=
  { r with
    watermark := newWatermark
    children := (r.children + 1) % u32Radix }

theorem moves_carve (w : Nat) : Moves (carve w) := ⟨fun _ => rfl, fun _ => rfl, fun _ => rfl⟩

/-- How a split goes: it is refused and nothing changes, or the parent is carved and then the
table has a slot for the child or not. -/
theorem split_cases (t : RegionTable) (parent pages : Nat) :
    (t.split parent pages = (t, none) ∧ ((t.get parent).all fun r =>
      (splitNewWatermark r.pages r.watermark pages).isNone) = true) ∨
      ∃ r, t.get parent = some r ∧ 0 < pages ∧ r.watermark + pages ≤ r.pages ∧
        splitNewWatermark r.pages r.watermark pages = some (r.watermark + pages) ∧
        ((t.split parent pages = (t.modify parent (carve (r.watermark + pages)), none) ∧
            (t.modify parent (carve (r.watermark + pages))).insertWith
              (fun _ => .fresh (r.basePage + r.watermark) pages parent) = none) ∨
          ∃ c t', t.split parent pages = (t', some c) ∧
            (t.modify parent (carve (r.watermark + pages))).insertWith
              (fun _ => .fresh (r.basePage + r.watermark) pages parent) = some (c, t')) := by
  unfold split
  rcases hr : t.get parent with - | r
  · exact .inl ⟨rfl, rfl⟩
  · dsimp only
    rcases hw : splitNewWatermark r.pages r.watermark pages with - | new
    · exact .inl ⟨rfl, by simp [hw]⟩
    · obtain ⟨hpos, rfl, hle⟩ := splitNewWatermark_eq_some hw
      refine .inr ⟨r, rfl, hpos, hle, hw, ?_⟩
      dsimp only
      split
      · next hins => exact .inl ⟨rfl, hins⟩
      · next c t' hins => exact .inr ⟨c, t', rfl, hins⟩

/-- **What a successful split does to the table**: the parent is carved, the child is new. -/
theorem split_eq_some (h : t.split parent pages = (t', some c)) :
    ∃ r, t.get parent = some r ∧ 0 < pages ∧ r.watermark + pages ≤ r.pages ∧ t.get c = none ∧
      ∀ m, t'.get m = if m = c then some (.fresh (r.basePage + r.watermark) pages parent)
        else if m = parent then some (carve (r.watermark + pages) r) else t.get m := by
  obtain ⟨heq, -⟩ | ⟨r, hr, hpos, hle, -, ⟨heq, -⟩ | ⟨c', t₁, heq, hins⟩⟩ := split_cases t parent pages
  · rw [heq] at h
    cases h
  · rw [heq] at h
    cases h
  · rw [heq] at h
    cases h
    obtain ⟨hnone, hget⟩ := get_insertWith hins
    refine ⟨r, hr, hpos, hle, ?_, fun m => ?_⟩
    · rw [get_modify] at hnone
      split at hnone
      · next hc => rw [hc]; exact map_eq_none_iff.mp hnone
      · exact hnone
    · rw [hget, get_modify, hr]
      rfl

theorem out_split (h : s.table.split parent pages = (t', some c)) (m : Nat) :
    ({ s with table := t' } : Regions).out m = if parent = m then s.out m + 1 else s.out m := by
  obtain ⟨heq, -⟩ | ⟨r, -, -, -, -, ⟨heq, -⟩ | ⟨c', t₁, heq, hins⟩⟩ :=
    split_cases s.table parent pages
  · rw [heq] at h
    cases h
  · rw [heq] at h
    cases h
  · rw [heq] at h
    cases h
    rw [← out_modify s (moves_carve (r.watermark + pages)) (n := parent)]
    exact out_insert (s := { s with table := s.table.modify parent (carve (r.watermark + pages)) })
      hins m

/-- **SPLIT**, with room in the child count. -/
theorem Placed.split (h : s.Placed P)
    (hroom : ∀ r, s.table.get parent = some r → r.children + 1 < u32Radix) :
    ({ s with table := (s.table.split parent pages).1 } : Regions).Placed P := by
  obtain ⟨heq, -⟩ | ⟨r, hr, hpos, hle, -, hgo⟩ := split_cases s.table parent pages
  · rw [heq]
    exact h
  · have hok := h.ok parent r hr
    have hmod : (r.children + 1) % u32Radix = r.children + 1 := Nat.mod_eq_of_lt (hroom r hr)
    have hmoves := moves_carve (r.watermark + pages)
    have hcarved := h.modify (n := parent) hmoves fun q hq => by
      cases hr.symm.trans hq
      exact ⟨Nat.le_trans hok.retypedTo_le (Nat.le_add_right _ _), hle, by
        show s.out parent ≤ (r.children + 1) % u32Radix
        rw [hmod]
        exact Nat.le_succ_of_le hok.counted,
      fun d child hd hp => ⟨(hok.live_within d child hd hp).1, by
        have hend := (hok.live_within d child hd hp).2
        show _ ≤ r.basePage + (r.watermark + pages)
        omega⟩,
      fun claim hcl hp => ⟨(hok.claimed_within claim hcl hp).1, by
        have hend := (hok.claimed_within claim hcl hp).2
        show _ ≤ r.basePage + (r.watermark + pages)
        omega⟩,
      hok.retyped_within, hok.retyped_top, hok.retyped_live, hok.retyped_claimed⟩
    obtain ⟨heq, -⟩ | ⟨c, t', heq, hins⟩ := hgo
    · rw [heq]
      exact hcarved
    · rw [heq]
      obtain ⟨habove, habovec, habover⟩ := hok.above (k := pages)
      have hget : (s.table.modify parent (carve (r.watermark + pages))).get parent
          = some (carve (r.watermark + pages) r) := by
        rw [get_modify, if_pos rfl, hr]
        rfl
      refine hcarved.insert hins (fun d child hd hp _ => ?_)
        (fun claim hcl hp _ => habovec claim hcl hp) fun hne => ⟨hpos, _, hget, ?_,
        Nat.le_add_right _ _, ?_, habover⟩
      · obtain ⟨old, hold, hrun, -, -, hparent⟩ := get_modify_of_moves hmoves hd
        rw [hrun]
        exact habove d old hold (hparent ▸ hp)
      · have hcount := hok.counted
        rw [out_modify s hmoves]
        show s.out parent + 1 ≤ (r.children + 1) % u32Radix
        omega
      · show r.basePage + r.watermark + pages ≤ r.basePage + (r.watermark + pages)
        omega

/-- **A run is retyped**, for frames or for an object. -/
theorem Placed.retype (h : s.Placed P) (hr : s.table.get n = some r) (hk : 0 < k)
    (hle : r.watermark + k ≤ r.pages) (hf : Moves f)
    (hwater : (f r).watermark = r.watermark + k) (hto : (f r).retypedTo = r.watermark + k)
    (hch : (f r).children = r.children)
    (hruns : (f r).retyped = ⟨r.basePage + r.watermark, k⟩ :: r.retyped) :
    ({ s with table := s.table.modify n f } : Regions).Placed P := by
  have hok := h.ok n r hr
  have hup := hok.retypedTo_le
  obtain ⟨habove, habovec, -⟩ := hok.above (k := k)
  refine h.modify hf fun q hq => ?_
  cases hr.symm.trans hq
  refine ⟨by rw [hto, hwater], by rw [hwater, hf.pages]; exact hle,
    by rw [hch]; exact hok.counted, fun d child hd hp => ?_, fun claim hcl hp => ?_,
    fun run hrun => ?_, .inr ⟨⟨r.basePage + r.watermark, k⟩, by simp [hruns], ?_⟩,
    fun run hrun d child hd hp => ?_, fun run hrun claim hcl hp => ?_⟩
  · have hin := hok.live_within d child hd hp
    rw [hf.basePage]
    exact ⟨hin.1, by omega⟩
  · have hin := hok.claimed_within claim hcl hp
    rw [hf.basePage]
    exact ⟨hin.1, by omega⟩
  · rw [hruns] at hrun
    rw [hf.basePage]
    rcases mem_cons.mp hrun with rfl | hrun
    · exact ⟨hk, Nat.le_add_right _ _, by show r.basePage + r.watermark + k ≤ _; omega⟩
    · have hin := hok.retyped_within run hrun
      exact ⟨hin.1, hin.2.1, by omega⟩
  · rw [hf.basePage]
    show r.basePage + r.watermark + k = _
    omega
  · rw [hruns] at hrun
    rcases mem_cons.mp hrun with rfl | hrun
    · exact habove d child hd hp
    · exact hok.retyped_live run hrun d child hd hp
  · rw [hruns] at hrun
    rcases mem_cons.mp hrun with rfl | hrun
    · exact (habovec claim hcl hp).symm
    · exact hok.retyped_claimed run hrun claim hcl hp

/-! ### Giving pages back -/

theorem liveChildren_fst (t : RegionTable) (parent base : Nat) :
    (t.liveChildren parent base).1 = (t.names fun r => r.parent = parent).card := by
  have hfold : ∀ (l : List (Nat × Region)) (acc : Nat × Nat),
      (l.foldl (fun acc e => (acc.1 + 1, max acc.2 (e.2.basePage + e.2.pages - base))) acc).1
        = acc.1 + l.length := by
    intro l
    induction l with
    | nil => intro acc; rfl
    | cons e l ih =>
      intro acc
      rw [foldl_cons, ih, length_cons]
      show acc.1 + 1 + l.length = _
      omega
  rw [card_names_eq]
  unfold liveChildren
  rw [hfold]
  exact Nat.zero_add _

/-- A bound on what the scan finds is one on every end it has seen. -/
theorem scan_snd_le_iff (base bound : Nat) (l : List (Nat × Region)) (acc : Nat × Nat) :
    (l.foldl (fun acc e => (acc.1 + 1, max acc.2 (e.2.basePage + e.2.pages - base))) acc).2
        ≤ bound ↔
      acc.2 ≤ bound ∧ ∀ e ∈ l, e.2.basePage + e.2.pages - base ≤ bound := by
  induction l generalizing acc with
  | nil => simp
  | cons e l ih => simp [ih, and_assoc]

theorem le_liveChildren_snd (hc : t.get c = some child) (hp : child.parent = parent) :
    child.basePage + child.pages - base ≤ (t.liveChildren parent base).2 := by
  have hmem : (c, child) ∈ t.iter.filter fun e => e.2.parent = parent :=
    mem_filter.mpr ⟨mem_iter.mpr hc, by simpa using hp⟩
  exact ((scan_snd_le_iff base _ _ (0, 0)).mp (le_refl _)).2 (c, child) hmem

/-- The watermark after the child's own pages are given back, before holes are reclaimed. -/
def unbumped (claim : DestroyClaim) (p : Region) : Nat :=
  if claim.basePage + claim.pages = p.basePage + p.watermark then p.watermark - claim.pages
  else p.watermark

/-- What a return does to the parent, whose live children the scan has counted. -/
def giveBack (claim : DestroyClaim) (live : Nat × Nat) (p : Region) : Region :=
  { p with
    watermark :=
      coalescedWatermark (unbumped claim p) p.retypedTo live.2 (p.children - 1 = live.1)
    children := p.children - 1 }

theorem moves_giveBack (claim : DestroyClaim) (live : Nat × Nat) : Moves (giveBack claim live) :=
  ⟨fun _ => rfl, fun _ => rfl, fun _ => rfl⟩

theorem returnToParent_eq (hroot : claim.isRoot = false) (hp : t.get claim.parent = some r) :
    t.returnToParent claim = t.modify claim.parent
      (giveBack claim (t.liveChildren claim.parent r.basePage)) := by
  unfold returnToParent
  rw [hroot, if_neg (by simp), hp]
  dsimp only
  congr 1
  funext p
  by_cases htop : claim.basePage + claim.pages = p.basePage + p.watermark
  all_goals simp [giveBack, unbumped, destroyOutcome, htop]

theorem Placed.claim_parent_ne (h : s.Placed P) (hcl : claim ∈ s.claims)
    (hroot : claim.isRoot = false) : claim.parent ≠ noParent := by
  have hiff := h.claim_root claim hcl
  rw [hroot] at hiff
  exact of_decide_eq_false hiff.symm

/-- Whatever else is out of the parent ends at or below the watermark that a return leaves. -/
theorem Placed.below_unbumped (h : s.Placed P) (hP : ∀ n, n ≠ noParent → P n)
    (hcl : claim ∈ s.claims) (hroot : claim.isRoot = false) {p : Region}
    (hp : s.table.get claim.parent = some p) :
    p.retypedTo ≤ unbumped claim p ∧
      (∀ d child, s.table.get d = some child → child.parent = claim.parent →
        child.basePage + child.pages ≤ p.basePage + unbumped claim p) ∧
      ∀ c ∈ s.claims.erase claim, c.parent = claim.parent →
        c.basePage + c.pages ≤ p.basePage + unbumped claim p := by
  have hne := h.claim_parent_ne hcl hroot
  have hok := h.ok _ p hp
  have hlow : ∀ run : Run, 0 < run.count → run.first + run.count ≤ p.basePage + p.watermark →
      run.Disjoint claim.run → run.first + run.count ≤ p.basePage + unbumped claim p := by
    intro run hrun hend hdis
    unfold unbumped
    split
    · next htop =>
      have hle : run.first + run.count ≤ claim.basePage :=
        hdis.le_of_end hrun (by show _ ≤ claim.basePage + claim.pages; omega)
      omega
    · exact hend
  have hothers := pairwise_cons.mp
    (h.claimed_claimed.perm (perm_cons_erase hcl) fun {a b} hab hpar hPb =>
      (hab hpar.symm (hpar ▸ hPb)).symm)
  refine ⟨?_, fun d child hd hpar => ?_, fun c hc hpar => ?_⟩
  · rcases hok.retyped_top with hz | ⟨run, hrun, hend⟩
    · omega
    · have hwithin := hok.retyped_within run hrun
      have hle := hlow run hwithin.1 (by have := hok.retypedTo_le; omega)
        (hok.retyped_claimed run hrun claim hcl rfl)
      omega
  · have hpages := (h.live_parent d child hd (hpar ▸ hne)).1
    exact hlow child.run hpages (hok.live_within d child hd hpar).2
      (h.claimed_live claim hcl d child hd hpar (hP _ hne)).symm
  · have hc' := mem_of_mem_erase hc
    have hpages := (h.claim_parent c hc' (hpar ▸ hne)).1
    exact hlow c.run hpages (hok.claimed_within c hc' hpar).2
      (hothers.1 c hc hpar.symm (hP _ hne)).symm

/-- **A child's pages go back to its parent's budget.** -/
theorem Placed.returnToParent (h : s.Placed P) (hP : ∀ n, n ≠ noParent → P n)
    (hcl : claim ∈ s.claims) (hroot : claim.isRoot = false) :
    Placed P ⟨s.table.returnToParent claim, s.claims.erase claim⟩ := by
  obtain ⟨-, hsome⟩ := h.claim_parent claim hcl (h.claim_parent_ne hcl hroot)
  obtain ⟨p, hp⟩ := isSome_iff_exists.mp hsome
  have hok := h.ok _ p hp
  have hdrop := h.dropClaim claim
  have hokd := hdrop.ok _ p hp
  obtain ⟨hretyped, hlive, hclaimed⟩ := h.below_unbumped hP hcl hroot hp
  -- without this claim, one child fewer is out
  have hcount : out { s with claims := s.claims.erase claim } claim.parent + 1
      = s.out claim.parent := by
    have herase := out_erase hcl claim.parent
    rwa [if_pos rfl] at herase
  have hcounted := hok.counted
  have hunle : unbumped claim p ≤ p.watermark := by
    unfold unbumped
    split
    · exact Nat.sub_le _ _
    · exact Nat.le_refl _
  rw [returnToParent_eq hroot hp]
  refine hdrop.modify (moves_giveBack claim _) fun q hq => ?_
  cases hp.symm.trans hq
  -- the scan counts the live children, and when it accounts for all of them none is claimed
  have hquiet : p.children - 1 = (s.table.liveChildren claim.parent p.basePage).1 →
      ∀ c ∈ s.claims.erase claim, c.parent ≠ claim.parent := by
    intro heq c hc hpar
    rw [liveChildren_fst] at heq
    have hpos' : 0 < (s.claims.erase claim).countP fun c => c.parent = claim.parent :=
      countP_pos_iff.mpr ⟨c, hc, by simpa using hpar⟩
    unfold out at hcount hcounted
    dsimp only at hcount
    omega
  have hwm := hok.watermark_le
  refine ⟨?_, ?_, ?_, fun d child hd hpar => ⟨(hok.live_within d child hd hpar).1, ?_⟩,
    fun c hc hpar => ⟨(hokd.claimed_within c hc hpar).1, ?_⟩, hok.retyped_within, hok.retyped_top,
    hok.retyped_live, hokd.retyped_claimed⟩
  · show p.retypedTo ≤ coalescedWatermark _ _ _ _
    unfold coalescedWatermark
    split
    · exact hretyped
    · omega
  · show coalescedWatermark _ _ _ _ ≤ p.pages
    unfold coalescedWatermark
    split
    · omega
    · omega
  · show _ ≤ p.children - 1
    omega
  · have hend := hlive d child hd hpar
    have hto : child.basePage + child.pages - p.basePage
        ≤ (s.table.liveChildren claim.parent p.basePage).2 := le_liveChildren_snd hd hpar
    show _ ≤ p.basePage + coalescedWatermark _ _ _ _
    unfold coalescedWatermark
    split
    · exact hend
    · omega
  · have hend := hclaimed c hc hpar
    show _ ≤ p.basePage + coalescedWatermark _ _ _ _
    unfold coalescedWatermark
    split
    · exact hend
    · next hq =>
      exact absurd hpar (hquiet (by simpa using hq) c hc)

/-! ### Every step -/

/-- A split finds room in its parent's child count. -/
def roomToCount (s : Regions) : RegionAction → Bool
  | .split parent _ => (s.table.get parent).all fun r => r.children + 1 < u32Radix
  | _ => true

theorem retypeRun_eq_some {requested page : Nat} (h : t.retypeRun n requested = some (page, t')) :
    ∃ r, t.get n = some r ∧ page = r.basePage + r.watermark ∧ 0 < retypePages requested ∧
      r.watermark + retypePages requested ≤ r.pages ∧ t' = t.modify n fun q =>
        { q with
          watermark := r.watermark + retypePages requested
          retypedTo := r.watermark + retypePages requested
          retyped := ⟨q.basePage + q.watermark, r.watermark + retypePages requested - q.watermark⟩
            :: q.retyped } := by
  unfold retypeRun at h
  rcases hr : t.get n with - | r
  · rw [hr] at h
    cases h
  · rw [hr] at h
    dsimp only at h
    split at h
    · cases h
    · next new hw =>
      obtain ⟨hpos, rfl, hle⟩ := splitNewWatermark_eq_some hw
      cases h
      exact ⟨r, rfl, rfl, hpos, hle, rfl⟩

theorem retypeObjectPage_eq_some {page : Nat} (h : t.retypeObjectPage n = some (page, t')) :
    ∃ r, t.get n = some r ∧ page = r.basePage + r.watermark ∧ r.watermark + 1 ≤ r.pages ∧
      t' = t.modify n fun q =>
        { q with
          pinned := true
          watermark := q.watermark + 1
          retypedTo := q.watermark + 1
          retyped := ⟨q.basePage + q.watermark, 1⟩ :: q.retyped } := by
  unfold retypeObjectPage at h
  rcases hr : t.get n with - | r
  · rw [hr] at h
    cases h
  · rw [hr] at h
    dsimp only at h
    split_ifs at h with hlt
    cases h
    exact ⟨r, rfl, rfl, by omega, rfl⟩

section

variable (h : s.Placed P)
include h

theorem Placed.retypeRun (requested : Nat) :
    ({ s with table := ((s.table.retypeRun n requested).map Prod.snd).getD s.table } : Regions).Placed P := by
  rcases ht : s.table.retypeRun n requested with - | ⟨page, t'⟩
  · exact h
  · obtain ⟨r, hr, -, hpos, hle, rfl⟩ := retypeRun_eq_some ht
    refine h.retype hr hpos hle ⟨fun _ => rfl, fun _ => rfl, fun _ => rfl⟩ rfl rfl rfl ?_
    simp

theorem Placed.retypeObjectPage :
    ({ s with table := ((s.table.retypeObjectPage n).map Prod.snd).getD s.table } : Regions).Placed P := by
  rcases ht : s.table.retypeObjectPage n with - | ⟨page, t'⟩
  · exact h
  · obtain ⟨r, hr, -, hle, rfl⟩ := retypeObjectPage_eq_some ht
    exact h.retype hr Nat.one_pos hle ⟨fun _ => rfl, fun _ => rfl, fun _ => rfl⟩ rfl rfl rfl rfl

theorem Placed.unpin (n : Nat) : ({ s with table := s.table.unpin n } : Regions).Placed P := by
  refine h.modify ⟨fun _ => rfl, fun _ => rfl, fun _ => rfl⟩ fun r hr => ?_
  have hok := h.ok n r hr
  exact { hok with }

theorem Placed.insertRoot (hroots : P noParent → s.allocatable ⟨base, pages⟩ = true) :
    ({ s with table := ((s.table.insertRoot base pages).map Prod.snd).getD s.table } :
      Regions).Placed P := by
  have hclear : P noParent →
      (∀ e ∈ s.table.iter, e.2.parent ≠ noParent ∨ Run.Disjoint ⟨base, pages⟩ e.2.run) ∧
        ∀ claim ∈ s.claims, claim.isRoot = false ∨ Run.Disjoint ⟨base, pages⟩ claim.run := by
    intro hP
    have ha := hroots hP
    unfold allocatable at ha
    simp only [Bool.and_eq_true, List.all_eq_true, decide_eq_true_eq, Bool.or_eq_true, ne_eq,
      decide_not, Bool.not_eq_eq_eq_not, Bool.not_true, decide_eq_false_iff_not] at ha
    exact ⟨ha.1.2, ha.2⟩
  rcases ht : s.table.insertRoot base pages with - | ⟨c, t'⟩
  · exact h
  · refine h.insert ht (fun d child hd hp hP => ?_) (fun claim hcl hp hP => ?_)
      fun hne => absurd rfl hne
    · rcases (hclear hP).1 (d, child) (mem_iter.mpr hd) with hne | hdis
      · exact absurd hp hne
      · exact hdis
    · rcases (hclear hP).2 claim hcl with hne | hdis
      · rw [h.claim_root claim hcl] at hne
        exact absurd hp (of_decide_eq_false hne)
      · exact hdis.symm

end

/-- What a successful claim is, and what it takes. -/
theorem claimForDestroy_eq_some (h : t.claimForDestroy n = some (claim, t')) :
    ∃ r, t.get n = some r ∧ r.pinned = false ∧ r.children = 0 ∧
      claim = ⟨r.basePage, r.pages, r.parent, decide (r.parent = noParent)⟩ ∧ t' = t.remove n := by
  unfold claimForDestroy at h
  rcases hr : t.get n with - | r
  · rw [hr] at h
    cases h
  · rw [hr] at h
    dsimp only at h
    split_ifs at h with hgo
    cases h
    -- a region that is pinned or has children is refused
    have hfree : ¬ (r.pinned = true ∨ 0 < r.children) := fun hor => hgo (if_pos hor)
    push Not at hfree
    exact ⟨r, rfl, by simpa using hfree.1, Nat.le_zero.mp hfree.2, rfl, rfl⟩

theorem Placed.step (h : s.Placed P) (hP : ∀ n, n ≠ noParent → P n)
    (hroots : ∀ base pages, a = .insertRoot base pages → P noParent →
      s.allocatable ⟨base, pages⟩ = true)
    (hroom : s.roomToCount a = true) (hs : s.openStep a = some s') :
    s'.Placed P := by
  cases a with
  | insertRoot base pages =>
    cases hs
    exact h.insertRoot (hroots base pages rfl)
  | split parent pages =>
    cases hs
    refine h.split fun r hr => ?_
    rw [roomToCount, hr] at hroom
    simpa using hroom
  | retypeRun name requested =>
    cases hs
    exact h.retypeRun requested
  | retypePage name =>
    cases hs
    exact h.retypeRun 1
  | retypeObjectPage name =>
    cases hs
    exact h.retypeObjectPage
  | unpin name =>
    cases hs
    exact h.unpin name
  | claimForDestroy name =>
    dsimp only [openStep, step] at hs
    split at hs
    · cases hs
      exact h
    · next claim t hclaim =>
      cases hs
      obtain ⟨r, hr, -, hch, rfl, rfl⟩ := claimForDestroy_eq_some hclaim
      exact h.claimForDestroy hr hch
  | returnToParent claim =>
    dsimp only [openStep, step] at hs
    split_ifs at hs with hc
    cases hs
    exact h.returnToParent hP hc.1 (Bool.not_eq_true _ ▸ hc.2)
  | freeToAllocator claim =>
    dsimp only [openStep, step] at hs
    split_ifs at hs
    cases hs
    exact h.dropClaim claim

/-- The same with roots wherever the caller puts them. -/
theorem Placed.tableStep (h : s.Placed (· ≠ noParent))
    (hroom : s.roomToCount a = true) (hs : s.tableStep a = some s') :
    s'.Placed (· ≠ noParent) := by
  refine h.step (fun _ hn => hn) (fun _ _ _ hne => absurd rfl hne) hroom ?_
  cases a with
  | insertRoot base pages =>
    dsimp only [tableStep] at hs
    split_ifs at hs
    exact hs
  | split | retypeRun | retypePage | retypeObjectPage | unpin | claimForDestroy | returnToParent
    | freeToAllocator => exact hs

/-- **Every step keeps the invariant**, if roots come from the frame allocator. -/
theorem Inv.step (h : s.Inv) (hroom : s.roomToCount a = true)
    (hs : s.step a = some s') : s'.Inv := by
  have hopen : (∀ base pages, a = .insertRoot base pages → s.allocatable ⟨base, pages⟩ = true) ∧
      s.openStep a = some s' := by
    cases a with
    | insertRoot base pages =>
      dsimp only [step] at hs
      split_ifs at hs with ha
      refine ⟨fun base' pages' heq => ?_, hs⟩
      cases heq
      exact ha
    | split | retypeRun | retypePage | retypeObjectPage | unpin | claimForDestroy | returnToParent
      | freeToAllocator => exact ⟨nofun, hs⟩
  exact Placed.step h (fun _ _ => trivial) (fun base pages heq _ => hopen.1 base pages heq) hroom
    hopen.2

/-! ### Pages are owned once -/

/-- `run` lies in the region named `n` and is clear of everything out of it: its own retypes,
its live children, and its children claimed and not yet returned. -/
def Handed (s : Regions) (n : Nat) (run : Run) : Prop :=
  ∃ r, s.table.get n = some r ∧ run.Within r.run ∧ (∀ q ∈ r.retyped, run.Disjoint q) ∧
    (∀ c child, s.table.get c = some child → child.parent = n → run.Disjoint child.run) ∧
    ∀ claim ∈ s.claims, claim.parent = n → run.Disjoint claim.run

/-- What is handed out is nobody's. -/
structure OwnedOnce (s : Regions) : Prop where
  /-- What a successful `SPLIT` or `RETYPE` would hand out here is nobody's. -/
  split : ∀ parent pages t c, s.table.split parent pages = (t, some c) →
    ∃ child, t.get c = some child ∧ child.pages = pages ∧ s.Handed parent child.run
  retypeRun : ∀ name requested page t, s.table.retypeRun name requested = some (page, t) →
    s.Handed name ⟨page, retypePages requested⟩
  retypePage : ∀ name page t, s.table.retypePage name = some (page, t) → s.Handed name ⟨page, 1⟩
  retypeObjectPage : ∀ name page t, s.table.retypeObjectPage name = some (page, t) →
    s.Handed name ⟨page, 1⟩
  siblings : ∀ c child d child', c ≠ d → s.table.get c = some child → s.table.get d = some child' →
    child.parent = child'.parent → child.run.Disjoint child'.run
  ownPages : ∀ n r c child, s.table.get n = some r → s.table.get c = some child →
    child.parent = n → ∀ q ∈ r.retyped, q.Disjoint child.run

theorem Placed.handed (h : s.Placed P) (hr : s.table.get n = some r)
    (hle : r.watermark + k ≤ r.pages) : s.Handed n ⟨r.basePage + r.watermark, k⟩ := by
  obtain ⟨habove, habovec, habover⟩ := (h.ok n r hr).above (k := k)
  refine ⟨r, hr, fun p hp => ?_, fun q hq => (habover q hq).symm, habove,
    fun claim hcl hp => (habovec claim hcl hp).symm⟩
  have hp : r.basePage + r.watermark ≤ p ∧ p < r.basePage + r.watermark + k := hp
  exact ⟨by show r.basePage ≤ p; omega, by show p < r.basePage + r.pages; omega⟩

theorem Placed.handed_split (h : s.Placed P) (hs : s.table.split parent pages = (t, some c)) :
    ∃ child, t.get c = some child ∧ child.pages = pages ∧ s.Handed parent child.run := by
  obtain ⟨r, hr, -, hle, -, hget⟩ := split_eq_some hs
  exact ⟨_, (hget c).trans (if_pos rfl), rfl, h.handed hr hle⟩

theorem Inv.ownedOnce (h : s.Inv) : s.OwnedOnce where
  split parent pages t c hs := Placed.handed_split h hs
  retypeRun name requested page t ht := by
    obtain ⟨r, hr, rfl, -, hle, -⟩ := retypeRun_eq_some ht
    exact Placed.handed h hr hle
  retypePage name page t ht := by
    obtain ⟨r, hr, rfl, -, hle, -⟩ := retypeRun_eq_some ht
    exact Placed.handed h hr hle
  retypeObjectPage name page t ht := by
    obtain ⟨r, hr, rfl, hle, -⟩ := retypeObjectPage_eq_some ht
    exact Placed.handed h hr hle
  siblings c child d child' hne hc hd hp := h.live_live c child d child' hne hc hd hp trivial
  ownPages n r c child hr hc hp q hq := (h.ok n r hr).retyped_live q hq c child hc hp

/-- **Physical pages are owned once**, in every run of a table of any size in which no split
finds its parent's child count full. -/
theorem pages_owned_once {size : Nat} (hsize : size < nameRadix)
    (h : Reach step (fun s a => s.roomToCount a = true) (empty size hsize) s) : s.OwnedOnce :=
  (h.invariant Inv (placed_empty size hsize) fun _ _ _ hi hc hs => hi.step hc hs).ownedOnce

/-- Three children of sixteen pages; the middle one is claimed, and still out when the other
two have come back. -/
theorem pages_owned_once_inFlight :
    ∃ s, Reach step (fun s a => s.roomToCount a = true) (empty 4 (by decide)) s ∧
      s.claims = [⟨4, 4, 0, false⟩] ∧ (s.table.get 0).map Region.watermark = some 8 ∧
      s.OwnedOnce := by
  have hrun : (Transition.runIf step (fun s a => s.roomToCount a = true) (empty 4 (by decide))
      [.insertRoot 0 16, .split 0 4, .split 0 4, .split 0 4, .claimForDestroy 2,
        .claimForDestroy 1, .returnToParent ⟨0, 4, 0, false⟩, .claimForDestroy 3,
        .returnToParent ⟨8, 4, 0, false⟩]).any (fun s =>
      decide (s.claims = [⟨4, 4, 0, false⟩]) &&
        decide ((s.table.get 0).map Region.watermark = some 8)) = true := by decide
  obtain ⟨s, hs, hc⟩ := (any_eq_true _ _).mp hrun
  rw [Bool.and_eq_true, decide_eq_true_eq, decide_eq_true_eq] at hc
  have hreach := Reach.of_runIf _ hs
  exact ⟨s, hreach, hc.1, hc.2, pages_owned_once (by decide) hreach⟩

/-! ### A child count that wraps -/

/-- A root of 2^33 pages that has given out `w` of them and counts `ch` children, in a full
table: its first child is live, the second slot was reused. -/
def crowded (w ch : Nat) : RegionTable where
  cells :=
    [⟨0, some { Region.fresh 0 0x200000000 noParent with watermark := w, children := ch }⟩,
      ⟨0, some (.fresh 0 1 0)⟩, ⟨1, some (.fresh 0x300000000 1 noParent)⟩]
  live := 3
  top := 3
  fits := by
    show 3 < nameRadix
    decide
  live_eq := rfl
  above_top := by
    intro i hi c hc
    rw [getElem?_eq_none (by simpa using hi)] at hc
    cases hc

/-- The second child of the root, claimed and not yet returned. -/
def inFlight : DestroyClaim := ⟨1, 1, 0, false⟩

theorem split_crowded {w ch : Nat} (hw : w + 1 ≤ 0x200000000) :
    (crowded w ch).split 0 1 = (crowded (w + 1) ((ch + 1) % u32Radix), none) := by
  have hnew : splitNewWatermark 0x200000000 w 1 = some (w + 1) := by
    unfold splitNewWatermark u64Radix
    rw [if_neg (by decide), if_neg (by omega), if_neg (by omega)]
  have hget : (crowded w ch).get 0
      = some { Region.fresh 0 0x200000000 noParent with watermark := w, children := ch } := rfl
  unfold split
  rw [hget]
  dsimp only [Region.fresh]
  rw [hnew]
  rfl

theorem reach_crowded (k : Nat) (hk : k ≤ 0xfffffffe) :
    Reach step (fun _ _ => True) (empty 3 (by decide))
      ⟨crowded (k + 2) ((k + 2) % u32Radix), [inFlight]⟩ := by
  induction k with
  | zero =>
    exact Reach.of_run [.insertRoot 0 0x200000000, .split 0 1, .split 0 1, .claimForDestroy 2,
      .insertRoot 0x300000000 1] rfl
  | succ k ih =>
    refine (ih (by omega)).tail (a := .split 0 1) trivial ?_
    show some (Regions.mk ((crowded (k + 2) ((k + 2) % u32Radix)).split 0 1).1 [inFlight]) = _
    rw [split_crowded (by omega), Nat.mod_add_mod]

/-- **The count wraps to zero, and a claimed child's page is handed out again.** -/
theorem split_overlaps_claimed_child :
    ∃ s, Reach step (fun _ _ => True) (empty 3 (by decide)) s ∧ ¬ s.OwnedOnce := by
  have hfull := reach_crowded 0xfffffffe (le_refl _)
  have hone := hfull.tail (a := .claimForDestroy 1) trivial rfl
  have htwo := hone.tail (a := .returnToParent ⟨0, 1, 0, false⟩) trivial rfl
  refine ⟨_, htwo, fun hown => ?_⟩
  -- the next split of two pages starts at the root's base again
  obtain ⟨child, hchild, -, r, -, -, -, -, hclaims⟩ := hown.split 0 2 _ 0x100000001 rfl
  cases hchild
  have hclear := hclaims inFlight (mem_singleton.mpr rfl) rfl
  exact absurd hclear (by decide)

end Regions

end Nife
