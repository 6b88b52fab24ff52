/-
Regions are reclaimed once, and from the bottom up.  Beside the table stands its history: every
region that was ever made and where it came from, every name on which a claim succeeded, and
the claims that are out, each with its name.  A claim takes its name out of the table for good,
since the slot's generation moves on; it succeeds only on a child count of zero; and the count
covers every child that is live or on its way back.  So when a region is claimed, every child
ever split from it has been claimed and returned, and by induction everything below it
(`reclaimed_bottom_up`).

As for the pages themselves, the count must not have wrapped: with enough splits that the full
table refused, a region is claimed over a live child (`claimed_over_live_child`).
-/
import Nife.RegionForest

namespace Nife

open List Option Regions RegionTable Prod Table

open Transition (Reach)

/-- Where a region came from: the frame allocator, or the region it was split from. -/
def origin (parent : Nat) : Option Nat := if parent = noParent then none else some parent

/-- The registry with the ghosts of its history. -/
structure Lineage where
  regions : Regions
  /-- Every region ever made, with where it came from. -/
  born : List (Nat × Option Nat)
  /-- The names on which a claim succeeded. -/
  claimed : List Nat
  /-- The claims that are out, with the names they were made on. -/
  flights : List (Nat × DestroyClaim)

namespace Lineage

def empty (size : Nat) (h : size < nameRadix) : Lineage := ⟨.empty size h, [], [], []⟩

def made (t : RegionTable) : RegionAction → Option (Nat × Option Nat)
  | .insertRoot basePage pages => (t.insertRoot basePage pages).map fun e => (e.1, none)
  | .split parent pages => (t.split parent pages).2.map fun c => (c, some parent)
  | _ => none

def taken (t : RegionTable) : RegionAction → Option (Nat × DestroyClaim)
  | .claimForDestroy name => (t.claimForDestroy name).map fun e => (name, e.1)
  | _ => none

/-- The claims out, less the one that an operation settles. -/
def unsettled (flights : List (Nat × DestroyClaim)) : RegionAction → List (Nat × DestroyClaim)
  | .returnToParent claim | .freeToAllocator claim => flights.eraseP fun f => f.2 = claim
  | _ => flights

def step (s : Lineage) (a : RegionAction) : Option Lineage :=
  (s.regions.tableStep a).map fun after =>
    { regions := after
      born := (made s.regions.table a).toList ++ s.born
      claimed := ((taken s.regions.table a).map Prod.fst).toList ++ s.claimed
      flights := (taken s.regions.table a).toList ++ unsettled s.flights a }

/-- A claim that succeeds leaves its slot a generation to move on to. -/
def keepsGenerations (s : Lineage) : RegionAction → Bool
  | .claimForDestroy name =>
    (s.regions.table.claimForDestroy name).isNone || (Table.unpack name).2 + 1 < nameRadix
  | _ => true

/-! ### What one operation does -/

/-- Two tables that show the same names, each with the same parent. -/
structure Alike (t t' : RegionTable) : Prop where
  stamp : ∀ i, t'.stamp i = t.stamp i
  parent : ∀ m, (t'.get m).map Region.parent = (t.get m).map Region.parent

theorem Alike.refl (t : RegionTable) : Alike t t := ⟨fun _ => rfl, fun _ => rfl⟩

theorem Alike.modify (t : RegionTable) (n : Nat) {f : Region → Region} (hf : Moves f) :
    Alike t (t.modify n f) := by
  refine ⟨stamp_modify t n f, fun m => ?_⟩
  rw [get_modify]
  split
  · next hm =>
    rw [hm, Option.map_map]
    exact congrFun (congrArg Option.map (funext hf.parent)) _
  · rfl

/-- The right to a region's run. -/
def claimOf (r : Region) : DestroyClaim :=
  ⟨r.basePage, r.pages, r.parent, decide (r.parent = noParent)⟩

/-- **The effects of an operation**: nothing that shows in the history, a region made, a region
claimed, a claim settled. -/
inductive Effect (s : Lineage) : Lineage → Prop
  | kept {t : RegionTable} (h : Alike s.regions.table t) :
      Effect s { s with regions := ⟨t, s.regions.claims⟩ }
  | made {t t' : RegionTable} {c parent : Nat} {f : Nat → Region} (h : Alike s.regions.table t)
      (hins : t.insertWith f = some (c, t')) (hf : (f c).parent = parent)
      (hparent : parent ≠ noParent → (s.regions.table.get parent).isSome) :
      Effect s { s with regions := ⟨t', s.regions.claims⟩, born := (c, origin parent) :: s.born }
  | claimed {n : Nat} {r : Region} (hr : s.regions.table.get n = some r) (hch : r.children = 0)
      (hgen : (Table.unpack n).2 + 1 < nameRadix) :
      Effect s ⟨⟨s.regions.table.remove n, claimOf r :: s.regions.claims⟩, s.born,
        n :: s.claimed, (n, claimOf r) :: s.flights⟩
  | settled {t : RegionTable} {claim : DestroyClaim} (h : Alike s.regions.table t) :
      Effect s { s with
        regions := ⟨t, s.regions.claims.erase claim⟩
        flights := s.flights.eraseP fun f => f.2 = claim }

variable {s s' : Lineage} {a : RegionAction} {claim : DestroyClaim}

theorem effect_retypeRun (s : Lineage) (n requested : Nat) : Effect s { s with regions :=
      ⟨((s.regions.table.retypeRun n requested).map snd).getD s.regions.table,
        s.regions.claims⟩ } := by
  rcases ht : s.regions.table.retypeRun n requested with - | ⟨page, t'⟩
  · exact .kept (.refl _)
  · obtain ⟨r, -, -, -, -, rfl⟩ := retypeRun_eq_some ht
    exact .kept (.modify _ n ⟨fun _ => rfl, fun _ => rfl, fun _ => rfl⟩)

theorem effect_returnToParent (t : RegionTable) (hroot : claim.isRoot = false) :
    Alike t (t.returnToParent claim) := by
  rcases hp : t.get claim.parent with - | p
  · unfold returnToParent
    rw [hroot, hp]
    exact .refl t
  · rw [returnToParent_eq hroot hp]
    exact .modify _ _ (moves_giveBack claim _)

theorem step_effect (hgen : s.keepsGenerations a = true) (hs : s.step a = some s') :
    Effect s s' := by
  obtain ⟨after, hafter, rfl⟩ := map_eq_some_iff.mp hs
  cases a with
  | insertRoot base pages =>
    dsimp only [Regions.tableStep] at hafter
    split_ifs at hafter
    cases hafter
    dsimp only [made, taken, unsettled]
    rcases ht : s.regions.table.insertRoot base pages with - | ⟨c, t'⟩
    · exact .kept (.refl _)
    · exact .made (.refl _) ht rfl fun hne => absurd rfl hne
  | split parent pages =>
    cases hafter
    dsimp only [made, taken, unsettled]
    obtain ⟨heq, -⟩ | ⟨r, hr, -, -, -, ⟨heq, -⟩ | ⟨c, t', heq, hins⟩⟩ :=
      split_cases s.regions.table parent pages
    · rw [heq]
      exact .kept (.refl _)
    · rw [heq]
      exact .kept (.modify _ _ (moves_carve _))
    · rw [heq]
      have horigin : origin parent = some parent := if_neg (ne_noParent hr)
      have heff : Effect s { s with
          regions := ⟨t', s.regions.claims⟩
          born := (c, origin parent) :: s.born } :=
        .made (.modify _ _ (moves_carve _)) hins rfl fun _ => by rw [hr]; rfl
      rw [horigin] at heff
      exact heff
  | retypeRun name requested =>
    cases hafter
    exact effect_retypeRun s name requested
  | retypePage name =>
    cases hafter
    exact effect_retypeRun s name 1
  | retypeObjectPage name =>
    cases hafter
    rcases ht : s.regions.table.retypeObjectPage name with - | ⟨page, t'⟩
    · exact .kept (.refl _)
    · obtain ⟨r, -, -, -, rfl⟩ := retypeObjectPage_eq_some ht
      exact .kept (.modify _ name ⟨fun _ => rfl, fun _ => rfl, fun _ => rfl⟩)
  | unpin name =>
    cases hafter
    exact .kept (.modify _ name ⟨fun _ => rfl, fun _ => rfl, fun _ => rfl⟩)
  | claimForDestroy name =>
    dsimp only [Regions.tableStep, openStep, Regions.step] at hafter
    dsimp only [made, taken, unsettled]
    rw [keepsGenerations] at hgen
    rcases ht : s.regions.table.claimForDestroy name with - | ⟨claim, t'⟩
    · rw [ht] at hafter
      cases hafter
      exact .kept (.refl _)
    · rw [ht] at hafter hgen
      cases hafter
      obtain ⟨r, hr, -, hch, rfl, rfl⟩ := claimForDestroy_eq_some ht
      exact .claimed hr hch (by simpa using hgen)
  | returnToParent claim =>
    dsimp only [Regions.tableStep, openStep, Regions.step] at hafter
    split_ifs at hafter with hc
    cases hafter
    exact .settled (effect_returnToParent _ (Bool.not_eq_true _ ▸ hc.2))
  | freeToAllocator claim =>
    dsimp only [Regions.tableStep, openStep, Regions.step] at hafter
    split_ifs at hafter
    cases hafter
    exact .settled (.refl _)

/-! ### The invariant -/

/-- **The history accounts for the table.** -/
structure Traced (s : Lineage) : Prop where
  placed : s.regions.Placed (· ≠ noParent)
  issued : ∀ b ∈ s.born, s.regions.table.Issued b.1
  born_once : (s.born.map Prod.fst).Nodup
  /-- A region is live from when it is made until it is claimed. -/
  live_iff : ∀ n p, ((s.regions.table.get n).map Region.parent).map origin = some p ↔
    (n, p) ∈ s.born ∧ n ∉ s.claimed
  claimed_once : s.claimed.Nodup
  claimed_born : ∀ n ∈ s.claimed, n ∈ s.born.map Prod.fst
  flights_eq : s.flights.map Prod.snd = s.regions.claims
  flight : ∀ f ∈ s.flights, f.1 ∈ s.claimed ∧ (f.1, origin f.2.parent) ∈ s.born
  /-- Below a claimed region everything was claimed and returned before. -/
  settled : ∀ n ∈ s.claimed, ∀ c, (c, some n) ∈ s.born →
    c ∈ s.claimed ∧ c ∉ s.flights.map Prod.fst

theorem traced_empty (size : Nat) (h : size < nameRadix) : (empty size h).Traced where
  placed := placed_empty size h
  issued b hb := by cases hb
  born_once := nodup_nil
  live_iff n p := by
    have hget : (empty size h).regions.table.get n = none := get_empty size h n
    rw [hget]
    exact iff_of_false (fun h => by cases h) fun h => by cases h.1
  claimed_once := nodup_nil
  claimed_born n hn := by cases hn
  flights_eq := rfl
  flight f hf := by cases hf
  settled n hn := by cases hn

variable {n : Nat} {t : RegionTable} {r : Region}

theorem origin_eq_some {parent : Nat} (h : origin parent = some n) : parent = n := by
  unfold origin at h
  split_ifs at h
  exact Option.some.inj h

section

variable (h : s.Traced)
include h

theorem Traced.origin_unique {p q : Option Nat} (hp : (n, p) ∈ s.born)
    (hq : (n, q) ∈ s.born) : p = q :=
  congrArg snd (inj_on_of_nodup_map h.born_once hp hq rfl)

theorem Traced.born_of_get
    (hr : s.regions.table.get n = some r) : (n, origin r.parent) ∈ s.born ∧ n ∉ s.claimed :=
  (h.live_iff n _).mp (by rw [hr]; rfl)

theorem Traced.get_of_claimed (hn : n ∈ s.claimed) : s.regions.table.get n = none := by
  rcases hr : s.regions.table.get n with - | r
  · rfl
  · exact absurd hn (h.born_of_get hr).2

/-- **With a count of zero, everything below was claimed and returned.** -/
theorem Traced.children_settled {c : Nat}
    (hr : s.regions.table.get n = some r) (hch : r.children = 0) (hc : (c, some n) ∈ s.born) :
    c ∈ s.claimed ∧ c ∉ s.flights.map fst := by
  obtain ⟨hnolive, hnoclaim⟩ := h.placed.nothing_out hr hch
  constructor
  · by_contra hnot
    obtain ⟨p, hp, horigin⟩ := map_eq_some_iff.mp ((h.live_iff c (some n)).mpr ⟨hc, hnot⟩)
    obtain ⟨child, hchild, rfl⟩ := map_eq_some_iff.mp hp
    exact hnolive c child hchild (origin_eq_some horigin)
  · intro hmem
    obtain ⟨f, hf, rfl⟩ := mem_map.mp hmem
    have heq := h.origin_unique (h.flight f hf).2 hc
    refine hnoclaim f.2 ?_ (origin_eq_some heq)
    rw [← h.flights_eq]
    exact mem_map_of_mem hf

/-! ### Every step -/

theorem Traced.kept (ht : Alike s.regions.table t)
    (hpl : Placed (· ≠ noParent) ⟨t, s.regions.claims⟩) :
    Traced { s with regions := ⟨t, s.regions.claims⟩ } where
  __ := h
  placed := hpl
  issued b hb := (h.issued b hb).of_stamp ht.stamp
  live_iff n p := by
    rw [← h.live_iff, ← ht.parent]

theorem Traced.made {t' : RegionTable} {c parent : Nat} {f : Nat → Region}
    (ht : Alike s.regions.table t) (hins : t.insertWith f = some (c, t'))
    (hf : (f c).parent = parent)
    (hparent : parent ≠ noParent → (s.regions.table.get parent).isSome)
    (hpl : Placed (· ≠ noParent) ⟨t', s.regions.claims⟩) :
    Traced { s with regions := ⟨t', s.regions.claims⟩, born := (c, origin parent) :: s.born } := by
  obtain ⟨hfresh, hissued, hkeep⟩ := issued_insertWith hins
  have hnew : c ∉ s.born.map fst := by
    intro hmem
    obtain ⟨b, hb, rfl⟩ := mem_map.mp hmem
    exact hfresh ((h.issued b hb).of_stamp ht.stamp)
  have hnotclaimed : c ∉ s.claimed := fun hc => hnew (h.claimed_born c hc)
  have hget := (get_insertWith hins).2
  refine ⟨hpl, fun b hb => ?_, nodup_cons.mpr ⟨hnew, h.born_once⟩, fun n p => ?_,
    h.claimed_once, fun n hn => mem_cons_of_mem _ (h.claimed_born n hn), h.flights_eq,
    fun f hf => ⟨(h.flight f hf).1, mem_cons_of_mem _ (h.flight f hf).2⟩,
    fun n hn d hd => ?_⟩
  · rcases mem_cons.mp hb with rfl | hb
    · exact hissued
    · exact hkeep _ ((h.issued b hb).of_stamp ht.stamp)
  · show ((t'.get n).map _).map _ = _ ↔ _
    rw [hget]
    by_cases hn : n = c
    · subst hn
      have hiff : (n, p) ∈ (n, origin parent) :: s.born ↔ origin parent = p := by
        rw [mem_cons, Prod.mk.injEq]
        constructor
        · rintro (⟨-, rfl⟩ | hold)
          · rfl
          · exact absurd (mem_map_of_mem hold) hnew
        · rintro rfl
          exact .inl ⟨rfl, rfl⟩
      rw [if_pos rfl, map_some, map_some, hf, Option.some.injEq, hiff]
      exact ⟨fun h => ⟨h, hnotclaimed⟩, fun h => h.1⟩
    · rw [if_neg hn, ht.parent, h.live_iff, mem_cons]
      simp [hn]
  · rcases mem_cons.mp hd with heq | hd
    · -- the parent of a new region is live, so it was not claimed
      rw [Prod.mk.injEq] at heq
      obtain rfl := origin_eq_some heq.2.symm
      by_cases hne : parent = noParent
      · rw [hne, origin] at heq
        cases heq.2
      · have hsome := hparent hne
        rw [h.get_of_claimed hn] at hsome
        cases hsome
    · exact h.settled n hn d hd

theorem Traced.claimed (hr : s.regions.table.get n = some r) (hch : r.children = 0)
    (hgen : (unpack n).2 + 1 < nameRadix)
    (hpl : Placed (· ≠ noParent)
      ⟨s.regions.table.remove n, claimOf r :: s.regions.claims⟩) :
    Traced ⟨⟨s.regions.table.remove n, claimOf r :: s.regions.claims⟩, s.born,
      n :: s.claimed, (n, claimOf r) :: s.flights⟩ := by
  obtain ⟨hborn, hnot⟩ := h.born_of_get hr
  refine ⟨hpl, fun b hb => (h.issued b hb).remove hr hgen, h.born_once, fun m p => ?_,
    nodup_cons.mpr ⟨hnot, h.claimed_once⟩, fun m hm => ?_, ?_, fun f hf => ?_,
    fun m hm c hc => ?_⟩
  · show (((s.regions.table.remove n).get m).map _).map _ = _ ↔ _
    rw [get_remove]
    by_cases hm : m = n
    · simp [hm]
    · rw [if_neg hm, h.live_iff]
      simp [hm]
  · rcases mem_cons.mp hm with rfl | hm
    · exact mem_map_of_mem hborn
    · exact h.claimed_born m hm
  · show claimOf r :: s.flights.map snd = _
    rw [h.flights_eq]
  · rcases mem_cons.mp hf with rfl | hf
    · exact ⟨mem_cons_self, hborn⟩
    · exact ⟨mem_cons_of_mem _ (h.flight f hf).1, (h.flight f hf).2⟩
  · -- below `n` by the count; elsewhere as before, for `n` itself was live
    have hbefore : c ∈ s.claimed ∧ c ∉ s.flights.map fst := by
      rcases mem_cons.mp hm with rfl | hm
      · exact h.children_settled hr hch hc
      · exact h.settled m hm c hc
    refine ⟨mem_cons_of_mem _ hbefore.1, ?_⟩
    show c ∉ n :: s.flights.map fst
    rw [mem_cons, not_or]
    exact ⟨fun heq => hnot (heq ▸ hbefore.1), hbefore.2⟩

end

theorem map_snd_eraseP (l : List (Nat × DestroyClaim)) (claim : DestroyClaim) :
    (l.eraseP fun f => f.2 = claim).map snd = (l.map snd).erase claim := by
  induction l with
  | nil => rfl
  | cons f l ih =>
    by_cases hf : f.2 = claim
    · simp [hf]
    · simp [hf, ih]

theorem Traced.dropped (h : s.Traced) (ht : Alike s.regions.table t)
    (hpl : Placed (· ≠ noParent) ⟨t, s.regions.claims.erase claim⟩) :
    Traced { s with
      regions := ⟨t, s.regions.claims.erase claim⟩
      flights := s.flights.eraseP fun f => f.2 = claim } where
  __ := h
  placed := hpl
  issued b hb := (h.issued b hb).of_stamp ht.stamp
  live_iff n p := by
    rw [← h.live_iff, ← ht.parent]
  flights_eq := by rw [map_snd_eraseP, h.flights_eq]
  flight f hf := h.flight f (mem_of_mem_eraseP hf)
  settled n hn c hc := by
    obtain ⟨hclaimed, hnot⟩ := h.settled n hn c hc
    exact ⟨hclaimed, fun hmem => hnot ((eraseP_sublist.map fst).subset hmem)⟩

theorem Traced.step (h : s.Traced) (hgen : s.keepsGenerations a = true)
    (hroom : s.regions.roomToCount a = true) (hs : s.step a = some s') : s'.Traced := by
  have hpl : s'.regions.Placed (· ≠ noParent) := by
    obtain ⟨after, hafter, rfl⟩ := map_eq_some_iff.mp hs
    exact h.placed.tableStep hroom hafter
  cases step_effect hgen hs with
  | kept ht => exact h.kept ht hpl
  | made ht hins hf hparent => exact h.made ht hins hf hparent hpl
  | claimed hr hch hgen => exact h.claimed hr hch hgen hpl
  | settled ht => exact h.dropped ht hpl

/-! ### Reclaimed once, from the bottom up -/

/-- No operation on `n` finds anything. -/
structure Inert (t : RegionTable) (n : Nat) : Prop where
  split : ∀ pages, t.split n pages = (t, none)
  retypeRun : ∀ requested, t.retypeRun n requested = none
  retypePage : t.retypePage n = none
  retypeObjectPage : t.retypeObjectPage n = none
  unpin : t.unpin n = t
  usage : t.usage n = none
  bounds : t.bounds n = none
  claimForDestroy : t.claimForDestroy n = none

theorem inert_of_get (h : t.get n = none) : Inert t n where
  split pages := by rw [split, h]
  retypeRun requested := by rw [retypeRun, h]
  retypePage := by rw [retypePage, retypeRun, h]
  retypeObjectPage := by rw [retypeObjectPage, h]
  unpin := modify_of_none h
  usage := by rw [usage, h]; rfl
  bounds := by rw [bounds, h]; rfl
  claimForDestroy := by rw [claimForDestroy, h]

/-- `c` was split from `p`. -/
def SplitFrom (s : Lineage) (p c : Nat) : Prop := (c, some p) ∈ s.born

/-- Destruction goes from the leaves up. -/
structure BottomUp (s : Lineage) : Prop where
  /-- No name is claimed twice. -/
  single_winner : s.claimed.Nodup
  inert : ∀ n ∈ s.claimed, Inert s.regions.table n
  /-- What a claim finds below it. -/
  children : ∀ n claim t, s.regions.table.claimForDestroy n = some (claim, t) →
    ∀ c, s.SplitFrom n c → c ∈ s.claimed ∧ c ∉ s.flights.map Prod.fst
  descendants : ∀ n claim t, s.regions.table.claimForDestroy n = some (claim, t) →
    ∀ d, Relation.TransGen s.SplitFrom n d →
      s.regions.table.get d = none ∧ d ∉ s.flights.map Prod.fst
  isRoot : ∀ n claim t, s.regions.table.claimForDestroy n = some (claim, t) →
    (claim.isRoot = true ↔ (n, none) ∈ s.born)

theorem Traced.bottomUp (h : s.Traced) : s.BottomUp where
  single_winner := h.claimed_once
  inert n hn := inert_of_get (h.get_of_claimed hn)
  children n claim t hcl c hc := by
    obtain ⟨r, hr, -, hch, -, -⟩ := claimForDestroy_eq_some hcl
    exact h.children_settled hr hch hc
  descendants n claim t hcl d hd := by
    obtain ⟨r, hr, -, hch, -, -⟩ := claimForDestroy_eq_some hcl
    -- what is claimed has claimed and returned everything below it
    have hsettled : d ∈ s.claimed ∧ d ∉ s.flights.map fst := by
      induction hd with
      | single hc => exact h.children_settled hr hch hc
      | tail _ hc ih => exact h.settled _ ih.1 _ hc
    exact ⟨h.get_of_claimed hsettled.1, hsettled.2⟩
  isRoot n claim t hcl := by
    obtain ⟨r, hr, -, -, rfl, -⟩ := claimForDestroy_eq_some hcl
    have hborn := (h.born_of_get hr).1
    rw [decide_eq_true_eq]
    constructor
    · intro hroot
      rwa [hroot, origin, if_pos rfl] at hborn
    · intro hnone
      by_contra hne
      have heq := h.origin_unique hborn hnone
      rw [origin, if_neg hne] at heq
      cases heq

/-- **Reclamation has one winner and goes from the bottom up**, in every run of a table of any
size in which no generation wraps and no split finds its parent's child count full. -/
theorem reclaimed_bottom_up {size : Nat} (hsize : size < nameRadix)
    (h : Reach step (fun s a => s.keepsGenerations a = true ∧ s.regions.roomToCount a = true)
      (empty size hsize) s) : s.BottomUp :=
  (h.invariant Traced (traced_empty size hsize) fun _ _ _ hi hc hs =>
    hi.step hc.1 hc.2 hs).bottomUp

/-- A root, its child and its grandchild: with the lower two claimed and returned in turn, the
root can be claimed. -/
theorem reclaimed_bottom_up_grandchild :
    ∃ s, Reach step (fun s a => s.keepsGenerations a = true ∧ s.regions.roomToCount a = true)
        (empty 3 (by decide)) s ∧
      s.claimed = [1, 2] ∧ (s.regions.table.claimForDestroy 0).isSome ∧ s.BottomUp := by
  have hrun : (Transition.runIf step
      (fun s a => s.keepsGenerations a = true ∧ s.regions.roomToCount a = true)
      (empty 3 (by decide))
      [.insertRoot 0 16, .split 0 8, .split 1 4, .claimForDestroy 0, .claimForDestroy 1,
        .claimForDestroy 2, .claimForDestroy 1, .returnToParent ⟨0, 4, 1, false⟩,
        .claimForDestroy 1, .returnToParent ⟨0, 8, 0, false⟩]).any (fun s =>
      decide (s.claimed = [1, 2]) && (s.regions.table.claimForDestroy 0).isSome) = true := by decide
  obtain ⟨s, hs, hc⟩ := (any_eq_true _ _).mp hrun
  rw [Bool.and_eq_true, decide_eq_true_eq] at hc
  have hreach := Reach.of_runIf _ hs
  exact ⟨s, hreach, hc.1, hc.2, reclaimed_bottom_up (by decide) hreach⟩

/-! ### A child count that wraps -/

/-- The crowded table with its history: of the root's two children one is live and one is
claimed. -/
def crowded (w ch : Nat) : Lineage where
  regions := ⟨Regions.crowded w ch, [Regions.inFlight]⟩
  born := [(0x100000002, none), (2, some 0), (1, some 0), (0, none)]
  claimed := [2]
  flights := [(2, Regions.inFlight)]

theorem step_split (s : Lineage) (parent pages : Nat) : s.step (.split parent pages) = some { s with
      regions := ⟨(s.regions.table.split parent pages).1, s.regions.claims⟩
      born := ((s.regions.table.split parent pages).2.map fun c => (c, some parent)).toList
        ++ s.born } := rfl

theorem reach_crowded (k : Nat) (hk : k ≤ 0xfffffffe) :
    Reach step (fun s a => s.keepsGenerations a = true) (empty 3 (by decide))
      (crowded (k + 2) ((k + 2) % u32Radix)) := by
  induction k with
  | zero =>
    exact Reach.of_runIf [.insertRoot 0 0x200000000, .split 0 1, .split 0 1, .claimForDestroy 2,
      .insertRoot 0x300000000 1] rfl
  | succ k ih =>
    refine (ih (by omega)).tail (a := .split 0 1) rfl ?_
    have hsplit : (Regions.crowded (k + 2) ((k + 2) % u32Radix)).split 0 1
        = (Regions.crowded (k + 3) (((k + 2) % u32Radix + 1) % u32Radix), none) :=
      split_crowded (by omega)
    rw [Nat.mod_add_mod] at hsplit
    have hrefused : (crowded (k + 2) ((k + 2) % u32Radix)).regions.table.split 0 1
        = (Regions.crowded (k + 3) ((k + 3) % u32Radix), none) := hsplit
    rw [step_split, hrefused]
    rfl

/-- **The count wraps to zero, and the root is claimed over its live child.** -/
theorem claimed_over_live_child :
    ∃ s, Reach step (fun s a => s.keepsGenerations a = true) (empty 3 (by decide)) s ∧
      ¬ s.BottomUp := by
  refine ⟨_, reach_crowded 0xfffffffe (Nat.le_refl _), fun h => ?_⟩
  have hlive := h.children 0 _ _ rfl 1 (by simp [SplitFrom, crowded])
  exact absurd hlive.1 (by simp [crowded])

end Lineage

end Nife
