/-
Boot slots, and why a bad upgrade rolls back.

A disk keeps a state for each slot.  In one boot the chooser starts the best slot it has not tried
yet, after it has written down that a try of an unconfirmed slot is spent; a slot it finds
unreadable it gives up on for good (`choose`).  A slot that starts may return, or hang until the
next boot.

One attempt is described slot by slot (`attempt_ok`).  From that come the laws of a boot, and from
those the laws of a whole history of boots (`boots_lawful`): an unconfirmed slot is started no more
often than it has tries, so all but so many of the boots that hang do so in a confirmed slot.  They
need not be the first ones (`trial_after_boots`).
-/
import Mathlib.Data.Prod.Lex
import Mathlib.Algebra.Order.BigOperators.Group.Finset

namespace Nife.BootSlot

open List

/-- One slot's boot state: its rank, the attempts left, and whether it was confirmed. -/
structure State where
  (priority tries : Nat)
  successful : Bool
  deriving DecidableEq, Repr

namespace State

/-- A slot that holds nothing. -/
def empty : State := ⟨0, 0, false⟩

def isBootable (s : State) : Bool := decide (0 < s.priority) && (s.successful || decide (0 < s.tries))

/-- The state to write before handing off: one try spent, if the slot is not confirmed. -/
def attempted (s : State) : State :=
  if s.successful = true ∨ s.tries = 0 then s else { s with tries := s.tries - 1 }

def unreadable (_ : State) : State := ⟨0, 0, false⟩

end State

section

variable (slots : List State)

/-- The state of a slot; past the slots there is nothing to boot. -/
def stateOf (i : Nat) : State := slots.getD i .empty

/-- The slots that may be chosen: bootable and not tried. -/
def candidates (tried : List Nat) : List Nat :=
  (List.range slots.length).filter fun i => (stateOf slots i).isBootable && !tried.contains i

/-- The candidate of highest priority, ties broken toward the lower index. -/
def selectExcluding (tried : List Nat) : Option Nat :=
  (candidates slots tried).argmax fun i => toLex ((stateOf slots i).priority, OrderDual.toDual i)

end

/-! ### One boot -/

/-- What starting a slot comes to. -/
inductive Outcome
  | unreadable | refused | hung
  deriving DecidableEq, Repr

/-- What happens in one boot: how each slot starts, and whether the disk takes the state written
before a slot is started and after it was found unreadable. -/
structure Boot where
  start : Nat → Outcome
  (spends givesUp : Nat → Bool)

/-- The chooser's loop: the states in memory, those on the disk, and the slots tried. -/
structure Chooser where
  (states disk : List State)
  tried : List Nat

/-- A slot that was started or found unreadable, and what was on the disk at that moment. -/
structure Attempt where
  slot : Nat
  outcome : Outcome
  persisted : List State

/-- Write the state with a try spent, if that changes it; nothing if the disk refuses it. -/
def Chooser.spend (boot : Boot) (c : Chooser) (slot : Nat) : Option Chooser :=
  if (stateOf c.states slot).attempted = stateOf c.states slot then some c
  else if boot.spends slot = true then
    some { c with
      states := c.states.set slot (stateOf c.states slot).attempted
      disk := c.states.set slot (stateOf c.states slot).attempted }
  else none

/-- Behind a slot that did not start: one that was unreadable is given up on. -/
def Chooser.settle (boot : Boot) (c : Chooser) (slot : Nat) : Chooser :=
  if boot.start slot = .unreadable then
    { states := c.states.set slot (stateOf c.states slot).unreadable
      disk := if boot.givesUp slot = true then
        c.states.set slot (stateOf c.states slot).unreadable else c.disk
      tried := slot :: c.tried }
  else { c with tried := slot :: c.tried }

/-! ### What each step does -/

section
variable {boot : Boot} {c c' : Chooser} {slot j : Nat} {slots : List State} {tried : List Nat}

theorem mem_candidates : j ∈ candidates slots tried ↔
    j < slots.length ∧ (stateOf slots j).isBootable = true ∧ j ∉ tried := by
  simp [candidates]

/-- **The slot chosen** is a candidate, and every other candidate has a lower priority, or the same
one and a higher index. -/
theorem selectExcluding_eq_some (h : selectExcluding slots tried = some slot) :
    slot ∈ candidates slots tried ∧ ∀ j ∈ candidates slots tried,
      (stateOf slots j).priority < (stateOf slots slot).priority ∨
        (stateOf slots j).priority = (stateOf slots slot).priority ∧ slot ≤ j := by
  refine ⟨argmax_mem h, fun j hj => ?_⟩
  have hle := le_of_mem_argmax hj h
  simpa [Prod.Lex.toLex_le_toLex] using hle

theorem stateOf_set (hslot : slot < slots.length) (s : State) (j : Nat) :
    stateOf (slots.set slot s) j = if j = slot then s else stateOf slots j := by
  by_cases h : j = slot
  · subst h
    simp [stateOf, hslot]
  · simp [stateOf, getElem?_set_ne (Ne.symm h), h]

theorem length_spend (h : c.spend boot slot = some c') :
    c'.states.length = c.states.length ∧ c'.tried = c.tried := by
  unfold Chooser.spend at h
  split_ifs at h
  · cases h
    exact ⟨rfl, rfl⟩
  · cases h
    exact ⟨length_set, rfl⟩

theorem length_settle (boot : Boot) (c : Chooser) (slot : Nat) :
    (c.settle boot slot).states.length = c.states.length ∧
      (c.settle boot slot).tried = slot :: c.tried := by
  unfold Chooser.settle
  split
  · exact ⟨length_set, rfl⟩
  · exact ⟨rfl, rfl⟩

/-- Spending a try changes the slot's own state, and brings the disk up to date if at all. -/
theorem spend_ok (hslot : slot < c.states.length) (h : c.spend boot slot = some c') (j : Nat) :
    stateOf c'.states j =
        (if j = slot then (stateOf c.states slot).attempted else stateOf c.states j) ∧
      ((stateOf c.states slot).attempted = stateOf c.states slot ∧
          stateOf c'.disk j = stateOf c.disk j ∨
        stateOf c'.disk j = stateOf c'.states j) := by
  unfold Chooser.spend at h
  split_ifs at h with hsame
  · cases h
    refine ⟨?_, .inl ⟨hsame, rfl⟩⟩
    split
    · next hj => rw [hsame, hj]
    · rfl
  · cases h
    exact ⟨stateOf_set hslot _ j, .inr rfl⟩

theorem settle_ok (hslot : slot < c.states.length) (boot : Boot) (j : Nat) :
    stateOf (c.settle boot slot).states j =
        (if j = slot ∧ boot.start slot = .unreadable then ⟨0, 0, false⟩ else stateOf c.states j) ∧
      (stateOf (c.settle boot slot).disk j = stateOf c.disk j ∨
        stateOf (c.settle boot slot).disk j = stateOf (c.settle boot slot).states j) := by
  unfold Chooser.settle
  split_ifs with hun _ hj hj
  · exact ⟨by simp [stateOf_set hslot, hj.1, State.unreadable], .inr rfl⟩
  · refine ⟨?_, .inr rfl⟩
    simp only [stateOf_set hslot]
    rw [if_neg fun h => hj ⟨h, hun⟩]
  · exact ⟨by simp [stateOf_set hslot, hj.1, State.unreadable], .inl rfl⟩
  · refine ⟨?_, .inl rfl⟩
    simp only [stateOf_set hslot]
    rw [if_neg fun h => hj ⟨h, hun⟩]
  all_goals simp_all

end

/-! ### The loop -/

/-- The slots that are left to try. -/
def Chooser.untried (c : Chooser) : List Nat :=
  (List.range c.states.length).filter fun i => !c.tried.contains i

theorem untried_lt {c c' : Chooser} {slot : Nat} (hslot : slot < c.states.length)
    (hnew : slot ∉ c.tried) (hlen : c'.states.length = c.states.length)
    (htried : c'.tried = slot :: c.tried) : c'.untried.length < c.untried.length := by
  have hfilter : c'.untried = c.untried.filter fun i => !decide (i = slot) := by
    simp only [Chooser.untried, hlen, htried, filter_filter]
    refine filter_congr fun i _ => ?_
    simp
  rw [hfilter, length_filter_lt_length_iff_exists]
  exact ⟨slot, by simp [Chooser.untried, hslot, hnew], by simp⟩

/-- The attempts of one boot, in order, and what is on the disk behind them. -/
def choose (boot : Boot) (c : Chooser) : List Attempt × List State :=
  match _hsel : selectExcluding c.states c.tried with
  | some slot =>
      match _hspend : c.spend boot slot with
      | none => ([], c.disk)
      | some spent =>
          if boot.start slot = .hung then ([⟨slot, .hung, spent.disk⟩], spent.disk)
          else
            (⟨slot, boot.start slot, spent.disk⟩ :: (choose boot (spent.settle boot slot)).1,
              (choose boot (spent.settle boot slot)).2)
  | none => ([], c.disk)
termination_by c.untried.length
decreasing_by
  all_goals
    obtain ⟨hmem, -⟩ := selectExcluding_eq_some _hsel
    obtain ⟨hslot, -, hnew⟩ := mem_candidates.mp hmem
    obtain ⟨hlen, htried⟩ := length_spend _hspend
    obtain ⟨hlen', htried'⟩ := length_settle boot spent slot
    exact untried_lt hslot hnew (hlen'.trans hlen) (htried' ▸ htried ▸ rfl)

/-! ### The laws of one boot -/

section
variable {boot : Boot} {c c' : Chooser} {slot j : Nat} {s : List State} {t : State}

/-- An unconfirmed slot: what is in memory has no more tries than what is on the disk. -/
structure Trial (c : Chooser) (j : Nat) : Prop where
  disk : (stateOf c.disk j).successful = false
  states : (stateOf c.states j).successful = false
  tries : (stateOf c.states j).tries ≤ (stateOf c.disk j).tries

/-- Until it is tried, a slot is in memory as on the disk. -/
def Agrees (c : Chooser) : Prop := ∀ j, j ∉ c.tried → stateOf c.states j = stateOf c.disk j

theorem attempted_trial {s : State} (hboot : s.isBootable = true) (hno : s.successful = false) :
    s.attempted = { s with tries := s.tries - 1 } ∧ 0 < s.tries := by
  have htries : 0 < s.tries := by
    simp only [State.isBootable, hno, Bool.false_or, Bool.and_eq_true, decide_eq_true_eq] at hboot
    exact hboot.2
  rw [State.attempted, if_neg (by simp [hno]; omega)]
  exact ⟨rfl, htries⟩

theorem attempted_successful {s : State} (h : s.successful = true) : s.attempted = s :=
  if_pos (.inl h)

/-- The try of an unconfirmed slot is on the disk before the slot is started. -/
theorem spend_persists (hslot : slot < c.states.length) (h : c.spend boot slot = some c')
    (hboot : (stateOf c.states slot).isBootable = true)
    (hno : (stateOf c.states slot).successful = false) :
    stateOf c'.disk slot = { stateOf c.states slot with tries := (stateOf c.states slot).tries - 1 } ∧
      0 < (stateOf c.states slot).tries := by
  obtain ⟨hattempt, htries⟩ := attempted_trial hboot hno
  obtain ⟨hstates, hdisk⟩ := spend_ok hslot h slot
  rw [if_pos rfl, hattempt] at hstates
  rcases hdisk with ⟨hsame, -⟩ | hdisk
  · rw [hattempt] at hsame
    have := congrArg State.tries hsame
    simp only at this
    omega
  · exact ⟨hdisk.trans hstates, htries⟩

theorem Agrees.spend (ha : Agrees c) (hslot : slot < c.states.length)
    (h : c.spend boot slot = some c') : Agrees c' := by
  intro j hj
  rw [(length_spend h).2] at hj
  obtain ⟨hstates, hdisk⟩ := spend_ok hslot h j
  rcases hdisk with ⟨hsame, hdisk⟩ | hdisk
  · rw [hstates, hdisk, ← ha j hj]
    split
    · next hjs => rw [hsame, hjs]
    · rfl
  · exact hdisk.symm

theorem Agrees.settle (ha : Agrees c) (hslot : slot < c.states.length) :
    Agrees (c.settle boot slot) := by
  intro j hj
  rw [(length_settle boot c slot).2, mem_cons, not_or] at hj
  obtain ⟨hstates, hdisk⟩ := settle_ok hslot boot j
  rcases hdisk with hdisk | hdisk
  · rw [hdisk, hstates, if_neg fun h => hj.1 h.1, ha j hj.2]
  · exact hdisk.symm

theorem Trial.spend (ht : Trial c j) (ha : Agrees c) (hslot : slot < c.states.length)
    (h : c.spend boot slot = some c') (hboot : (stateOf c.states slot).isBootable = true)
    (hnew : slot ∉ c.tried) :
    Trial c' j ∧
      (stateOf c'.disk j).tries + (if slot = j then 1 else 0) ≤ (stateOf c.disk j).tries := by
  obtain ⟨hstates, hdisk⟩ := spend_ok hslot h j
  by_cases hj : j = slot
  · subst hj
    obtain ⟨hspent, hpos⟩ := spend_persists hslot h hboot ht.states
    obtain ⟨hattempt, -⟩ := attempted_trial hboot ht.states
    rw [if_pos rfl, hattempt] at hstates
    refine ⟨⟨?_, ?_, ?_⟩, ?_⟩
    · rw [hspent]
      exact ht.states
    · rw [hstates]
      exact ht.states
    · rw [hspent, hstates]
    · rw [hspent, if_pos rfl, ← ha j hnew]
      simp only
      omega
  · rw [if_neg hj] at hstates
    rw [if_neg (Ne.symm hj)]
    have := ht.tries
    rcases hdisk with ⟨-, hdisk⟩ | hdisk
    · exact ⟨⟨by rw [hdisk]; exact ht.disk, by rw [hstates]; exact ht.states,
        by rw [hdisk, hstates]; exact ht.tries⟩, by rw [hdisk]; omega⟩
    · rw [hstates] at hdisk
      exact ⟨⟨by rw [hdisk]; exact ht.states, by rw [hstates]; exact ht.states,
        by rw [hdisk, hstates]⟩, by rw [hdisk]; omega⟩

theorem Trial.settle (ht : Trial c j) (hslot : slot < c.states.length) :
    Trial (c.settle boot slot) j ∧
      (stateOf (c.settle boot slot).disk j).tries ≤ (stateOf c.disk j).tries := by
  obtain ⟨hstates, hdisk⟩ := settle_ok hslot boot j
  have hmem : (stateOf (c.settle boot slot).states j).successful = false ∧
      (stateOf (c.settle boot slot).states j).tries ≤ (stateOf c.disk j).tries := by
    rw [hstates]
    split
    · exact ⟨rfl, Nat.zero_le _⟩
    · exact ⟨ht.states, ht.tries⟩
  rcases hdisk with hdisk | hdisk
  · exact ⟨⟨by rw [hdisk]; exact ht.disk, hmem.1, by rw [hdisk]; exact hmem.2⟩, by rw [hdisk]⟩
  · exact ⟨⟨by rw [hdisk]; exact hmem.1, hmem.1, by rw [hdisk]⟩, by rw [hdisk]; exact hmem.2⟩

theorem spend_confirmed (hyes : t.successful = true) (hstates : stateOf c.states j = t)
    (hdisk : stateOf c.disk j = t) (hslot : slot < c.states.length)
    (h : c.spend boot slot = some c') : stateOf c'.states j = t ∧ stateOf c'.disk j = t := by
  obtain ⟨hspent, hwritten⟩ := spend_ok hslot h j
  have hkept : stateOf c'.states j = t := by
    rw [hspent]
    split
    · next hj => rw [← hj, hstates, attempted_successful hyes]
    · exact hstates
  rcases hwritten with ⟨-, hsame⟩ | hnew
  · exact ⟨hkept, hsame.trans hdisk⟩
  · exact ⟨hkept, hnew.trans hkept⟩

/-- **An unconfirmed slot pays a try for every attempt.** -/
theorem choose_trial (ht : Trial c j) (ha : Agrees c) :
    (stateOf (choose boot c).2 j).successful = false ∧
      (stateOf (choose boot c).2 j).tries + (choose boot c).1.countP (fun a => a.slot = j) ≤
        (stateOf c.disk j).tries := by
  fun_induction choose boot c with
  | case4 c _ | case1 c slot _ _ => exact ⟨ht.disk, le_rfl⟩
  | case2 c slot hsel spent hspend hhung =>
    obtain ⟨hslot, hboot, hnew⟩ := mem_candidates.mp (selectExcluding_eq_some hsel).1
    obtain ⟨ht', hpaid⟩ := ht.spend ha hslot hspend hboot hnew
    refine ⟨ht'.disk, ?_⟩
    simpa [countP_cons] using hpaid
  | case3 c slot hsel spent hspend hhung ih =>
    obtain ⟨hslot, hboot, hnew⟩ := mem_candidates.mp (selectExcluding_eq_some hsel).1
    obtain ⟨ht', hpaid⟩ := ht.spend ha hslot hspend hboot hnew
    have hslot' : slot < spent.states.length := (length_spend hspend).1 ▸ hslot
    obtain ⟨ht'', hle⟩ := ht'.settle hslot'
    obtain ⟨hno, hpaid'⟩ := ih ht'' ((ha.spend hslot hspend).settle hslot')
    refine ⟨hno, ?_⟩
    simp only [countP_cons, decide_eq_true_eq]
    omega

/-- **A confirmed slot keeps its state** unless it is found unreadable. -/
theorem choose_confirmed (hyes : t.successful = true) (hstates : stateOf c.states j = t)
    (hdisk : stateOf c.disk j = t)
    (hread : ∀ a ∈ (choose boot c).1, a.slot = j → a.outcome ≠ .unreadable) :
    stateOf (choose boot c).2 j = t := by
  fun_induction choose boot c with
  | case4 c _ | case1 c slot _ _ => exact hdisk
  | case2 c slot hsel spent hspend hhung =>
    obtain ⟨hslot, -, -⟩ := mem_candidates.mp (selectExcluding_eq_some hsel).1
    exact (spend_confirmed hyes hstates hdisk hslot hspend).2
  | case3 c slot hsel spent hspend hhung ih =>
    obtain ⟨hslot, -, -⟩ := mem_candidates.mp (selectExcluding_eq_some hsel).1
    obtain ⟨hstates', hdisk'⟩ := spend_confirmed hyes hstates hdisk hslot hspend
    have hslot' : slot < spent.states.length := (length_spend hspend).1 ▸ hslot
    obtain ⟨hsettled, hwritten⟩ := settle_ok hslot' boot j
    have hkept : stateOf (spent.settle boot slot).states j = t := by
      rw [hsettled, if_neg, hstates']
      rintro ⟨rfl, hun⟩
      exact hread _ mem_cons_self rfl hun
    refine ih hkept ?_ fun a ha => hread a (mem_cons_of_mem _ ha)
    rcases hwritten with hsame | hnew
    · rw [hsame, hdisk']
    · rw [hnew, hkept]

/-- The best slot to start from these states, when some were tried. -/
structure Best (s : List State) (tried : List Nat) (slot : Nat) : Prop where
  bootable : (stateOf s slot).isBootable = true
  untried : slot ∉ tried
  best : ∀ j, (stateOf s j).isBootable = true → j ∉ tried →
    (stateOf s j).priority < (stateOf s slot).priority ∨
      (stateOf s j).priority = (stateOf s slot).priority ∧ slot ≤ j

theorem lt_length_of_bootable (h : (stateOf s j).isBootable = true) : j < s.length := by
  by_contra hge
  rw [stateOf, getD_eq_getElem?_getD, getElem?_eq_none (by omega)] at h
  cases h

theorem best_of_select (hsame : ∀ j, j ∉ c.tried → stateOf c.states j = stateOf s j)
    (h : selectExcluding c.states c.tried = some slot) : Best s c.tried slot := by
  obtain ⟨hmem, hbest⟩ := selectExcluding_eq_some h
  obtain ⟨-, hboot, hnew⟩ := mem_candidates.mp hmem
  refine ⟨hsame slot hnew ▸ hboot, hnew, fun j hj hjnew => ?_⟩
  have hj' : (stateOf c.states j).isBootable = true := hsame j hjnew ▸ hj
  have := hbest j (mem_candidates.mpr ⟨lt_length_of_bootable hj', hj', hjnew⟩)
  rwa [hsame j hjnew, hsame slot hnew] at this

/-- An attempt, when those before it in the boot are given: its slot is the best of those that are
left, the boot did not end before, and if the slot is unconfirmed its try is spent on the disk. -/
structure Lawful (s : List State) (tried : List Nat) (before : List Attempt) (a : Attempt) :
    Prop where
  best : Best s (before.map Attempt.slot ++ tried) a.slot
  returned : ∀ b ∈ before, b.outcome ≠ .hung
  spent : (stateOf s a.slot).successful = false → 0 < (stateOf s a.slot).tries ∧
    stateOf a.persisted a.slot =
      { stateOf s a.slot with tries := (stateOf s a.slot).tries - 1 }

theorem Best.congr {tried tried' : List Nat} (h : Best s tried slot)
    (hiff : ∀ j, j ∈ tried ↔ j ∈ tried') : Best s tried' slot :=
  ⟨h.bootable, fun hmem => h.untried ((hiff slot).mpr hmem),
    fun j hj hnew => h.best j hj fun hmem => hnew ((hiff j).mp hmem)⟩

/-- **Every attempt of a boot is lawful.** -/
theorem choose_lawful (hsame : ∀ j, j ∉ c.tried → stateOf c.states j = stateOf s j)
    {before after : List Attempt} {a : Attempt} (h : (choose boot c).1 = before ++ a :: after) :
    Lawful s c.tried before a := by
  fun_induction choose boot c generalizing before with
  | case4 c _ | case1 c slot _ _ => simp at h
  | case2 c slot hsel spent hspend hhung =>
    have hbest := best_of_select hsame hsel
    obtain ⟨hslot, hboot, hnew⟩ := mem_candidates.mp (selectExcluding_eq_some hsel).1
    obtain ⟨rfl, rfl, -⟩ : before = [] ∧ a = ⟨slot, .hung, spent.disk⟩ ∧ after = [] := by
      cases before <;> simp_all
    refine ⟨hbest, by simp, fun hno => ?_⟩
    rw [← hsame slot hnew] at hno ⊢
    exact (spend_persists hslot hspend hboot hno).symm
  | case3 c slot hsel spent hspend hhung ih =>
    have hbest := best_of_select hsame hsel
    obtain ⟨hslot, hboot, hnew⟩ := mem_candidates.mp (selectExcluding_eq_some hsel).1
    cases before with
    | nil =>
      cases h
      refine ⟨hbest, by simp, fun hno => ?_⟩
      rw [← hsame slot hnew] at hno ⊢
      exact (spend_persists hslot hspend hboot hno).symm
    | cons b before =>
      obtain ⟨rfl, hrest⟩ := List.cons.inj h
      have hslot' : slot < spent.states.length := (length_spend hspend).1 ▸ hslot
      have htried : (spent.settle boot slot).tried = slot :: c.tried := by
        rw [(length_settle boot spent slot).2, (length_spend hspend).2]
      have hlater := ih (fun j hj => by
        rw [htried, mem_cons, not_or] at hj
        rw [(settle_ok hslot' boot j).1, if_neg fun h => hj.1 h.1, (spend_ok hslot hspend j).1,
          if_neg hj.1, hsame j hj.2]) hrest
      refine ⟨hlater.best.congr fun j => ?_, ?_, hlater.spent⟩
      · rw [htried]
        simp only [map_cons, mem_append, mem_cons]
        tauto
      · rintro b (- | ⟨-, hb⟩)
        · exact hhung
        · exact hlater.returned b hb

/-- A confirmed slot that is readable is reached, where writes succeed: the boot hangs, or starts
that slot. -/
theorem choose_reaches (hwrites : ∀ i, boot.spends i = true) (hnew : j ∉ c.tried)
    (hyes : (stateOf c.states j).successful = true) (hprio : 0 < (stateOf c.states j).priority) :
    ∃ a ∈ (choose boot c).1, a.outcome = .hung ∨ a.slot = j := by
  have hboot : (stateOf c.states j).isBootable = true := by simp [State.isBootable, hyes, hprio]
  fun_induction choose boot c with
  | case4 c hsel =>
    have hmem := mem_candidates.mpr ⟨lt_length_of_bootable hboot, hboot, hnew⟩
    rw [argmax_eq_none.mp hsel] at hmem
    cases hmem
  | case1 c slot hsel hspend =>
    unfold Chooser.spend at hspend
    split_ifs at hspend with _ hno
    exact absurd (hwrites slot) hno
  | case2 c slot hsel spent hspend hhung => exact ⟨_, mem_cons_self, .inl rfl⟩
  | case3 c slot hsel spent hspend hhung ih =>
    by_cases hj : slot = j
    · exact ⟨_, mem_cons_self, .inr hj⟩
    obtain ⟨hslot, -, -⟩ := mem_candidates.mp (selectExcluding_eq_some hsel).1
    have hslot' : slot < spent.states.length := (length_spend hspend).1 ▸ hslot
    have hkept : stateOf (spent.settle boot slot).states j = stateOf c.states j := by
      rw [(settle_ok hslot' boot j).1, if_neg fun h => hj h.1.symm, (spend_ok hslot hspend j).1,
        if_neg (Ne.symm hj)]
    have htried : j ∉ (spent.settle boot slot).tried := by
      rw [(length_settle boot spent slot).2, (length_spend hspend).2, mem_cons, not_or]
      exact ⟨Ne.symm hj, hnew⟩
    obtain ⟨a, ha, hdone⟩ := ih htried (hkept ▸ hyes) (hkept ▸ hprio) (hkept ▸ hboot)
    exact ⟨a, mem_cons_of_mem _ ha, hdone⟩

end

/-! ### A history of boots -/

/-- One boot of a history: the states on the disk before it, its attempts, and the states behind
it. -/
structure Booted where
  before : List State
  attempts : List Attempt
  after : List State

/-- The boots of a machine, one after the other, with no confirmation in between. -/
def history : List State → List Boot → List Booted
  | _, [] => []
  | s, boot :: boots =>
      ⟨s, (choose boot ⟨s, s, []⟩).1, (choose boot ⟨s, s, []⟩).2⟩ ::
        history (choose boot ⟨s, s, []⟩).2 boots

/-- How often a slot was attempted. -/
def attemptsOf (j : Nat) (boots : List Booted) : Nat :=
  (boots.flatMap Booted.attempts).countP fun a => a.slot = j

/-- The slot a boot hangs in. -/
def Booted.hungIn (b : Booted) : Option Nat :=
  (b.attempts.find? fun a => a.outcome = .hung).map Attempt.slot

/-- The slots, unconfirmed at first, that the boots hang in. -/
def hungTrials (s : List State) (boots : List Booted) : List Nat :=
  (boots.filterMap Booted.hungIn).filter fun j => !(stateOf s j).successful

/-- What holds of a history. -/
structure Laws (s : List State) (boots : List Boot) : Prop where
  /-- An unconfirmed slot is attempted at most as often as it has tries. -/
  tries : ∀ j, (stateOf s j).successful = false →
    attemptsOf j (history s boots) ≤ (stateOf s j).tries
  /-- Each attempt of a boot is at the best slot left, no slot twice, and a try of an unconfirmed
  slot is on the disk by then. -/
  lawful : ∀ b ∈ history s boots, ∀ before a after, b.attempts = before ++ a :: after →
    Lawful b.before [] before a
  /-- A confirmed slot that is never found unreadable keeps its state. -/
  confirmed : ∀ j, (stateOf s j).successful = true →
    (∀ b ∈ history s boots, ∀ a ∈ b.attempts, a.slot = j → a.outcome ≠ .unreadable) →
    ∀ b ∈ history s boots, stateOf b.before j = stateOf s j ∧ stateOf b.after j = stateOf s j
  /-- A slot that is unconfirmed stays so. -/
  unconfirmed : ∀ j, (stateOf s j).successful = false →
    ∀ b ∈ history s boots, (stateOf b.before j).successful = false
  /-- No more boots hang in an unconfirmed slot than these have tries together. -/
  rollsBack : (hungTrials s (history s boots)).length ≤
    ∑ j ∈ Finset.range s.length, if (stateOf s j).successful then 0 else (stateOf s j).tries
  /-- Where a confirmed slot is always readable and writes succeed, each boot hangs in some slot or
  starts that one. -/
  reaches : ∀ j, (stateOf s j).successful = true → 0 < (stateOf s j).priority →
    (∀ b ∈ history s boots, ∀ a ∈ b.attempts, a.slot = j → a.outcome ≠ .unreadable) →
    (∀ boot ∈ boots, ∀ i, boot.spends i = true) →
    ∀ b ∈ history s boots, ∃ a ∈ b.attempts, a.outcome = .hung ∨ a.slot = j

section
variable {s : List State} {boots : List Boot} {j : Nat}

theorem history_trial (h : (stateOf s j).successful = false) :
    attemptsOf j (history s boots) ≤ (stateOf s j).tries ∧
      ∀ b ∈ history s boots, (stateOf b.before j).successful = false := by
  induction boots generalizing s with
  | nil => exact ⟨Nat.zero_le _, by simp [history]⟩
  | cons boot boots ih =>
    obtain ⟨hno, hpaid⟩ := @choose_trial boot ⟨s, s, []⟩ j ⟨h, h, le_rfl⟩ fun _ _ => rfl
    obtain ⟨hlater, hstill⟩ := ih hno
    refine ⟨?_, ?_⟩
    · simp only [attemptsOf, history, flatMap_cons, countP_append] at hlater hpaid ⊢
      omega
    · rintro b (- | ⟨-, hb⟩)
      · exact h
      · exact hstill b hb

theorem history_confirmed (h : (stateOf s j).successful = true)
    (hread : ∀ b ∈ history s boots, ∀ a ∈ b.attempts, a.slot = j → a.outcome ≠ .unreadable) :
    ∀ b ∈ history s boots, stateOf b.before j = stateOf s j ∧ stateOf b.after j = stateOf s j := by
  induction boots generalizing s with
  | nil => simp [history]
  | cons boot boots ih =>
    have hkept : stateOf (choose boot ⟨s, s, []⟩).2 j = stateOf s j :=
      choose_confirmed h rfl rfl (hread _ mem_cons_self)
    rintro b (- | ⟨-, hb⟩)
    · exact ⟨rfl, hkept⟩
    · have hlater := ih (hkept ▸ h) (fun b hb => hread b (mem_cons_of_mem _ hb)) b hb
      rwa [hkept] at hlater

theorem mem_history {b : Booted} (h : b ∈ history s boots) :
    ∃ boot ∈ boots, b.attempts = (choose boot ⟨b.before, b.before, []⟩).1 := by
  induction boots generalizing s with
  | nil => cases h
  | cons boot boots ih =>
    rcases mem_cons.mp h with rfl | hb
    · exact ⟨boot, mem_cons_self, rfl⟩
    · obtain ⟨boot', hmem, hrun⟩ := ih hb
      exact ⟨boot', mem_cons_of_mem _ hmem, hrun⟩

theorem count_hungIn_le (j : Nat) (bs : List Booted) :
    (bs.filterMap Booted.hungIn).count j ≤ attemptsOf j bs := by
  induction bs with
  | nil => exact Nat.zero_le _
  | cons b bs ih =>
    simp only [attemptsOf, flatMap_cons, countP_append] at ih ⊢
    cases hhung : b.hungIn with
    | none =>
      rw [filterMap_cons_none hhung]
      omega
    | some k =>
      rw [filterMap_cons_some hhung, count_cons]
      obtain ⟨a, ha, rfl⟩ := Option.map_eq_some_iff.mp hhung
      split
      · next hk =>
        have hpos : 0 < b.attempts.countP fun a => a.slot = j :=
          countP_pos_iff.mpr ⟨a, mem_of_find?_eq_some ha, by simpa using hk⟩
        omega
      · omega

/-- **A bad upgrade rolls back.** -/
theorem boots_lawful (s : List State) (boots : List Boot) : Laws s boots where
  tries _ h := (history_trial h).1
  unconfirmed _ h := (history_trial h).2
  confirmed _ h hread := history_confirmed h hread
  lawful b hb before a after hsplit := by
    obtain ⟨boot, -, hrun⟩ := mem_history hb
    exact choose_lawful (c := ⟨b.before, b.before, []⟩) (fun _ _ => rfl) (hrun ▸ hsplit)
  reaches j hyes hprio hread hwrites b hb := by
    obtain ⟨boot, hboot, hrun⟩ := mem_history hb
    have hsame := (history_confirmed hyes hread b hb).1
    rw [hrun]
    exact choose_reaches (c := ⟨b.before, b.before, []⟩) (hwrites boot hboot) (by simp)
      (by simpa [hsame] using hyes) (by simpa [hsame] using hprio)
  rollsBack := by
    -- count the boots by the slot they hang in, each no more often than the slot has tries
    have hcount : ∀ j ∈ (hungTrials s (history s boots)).toFinset,
        (hungTrials s (history s boots)).count j ≤
          if (stateOf s j).successful then 0 else (stateOf s j).tries := by
      intro j hj
      have hno : (stateOf s j).successful = false := by
        simpa using (mem_filter.mp (mem_toFinset.mp hj)).2
      rw [hno]
      exact (filter_sublist.count_le j).trans ((count_hungIn_le j _).trans (history_trial hno).1)
    rw [← sum_toFinset_count_eq_length]
    refine (Finset.sum_le_sum hcount).trans (Finset.sum_le_sum_of_subset fun j hj => ?_)
    have hpos := count_pos_iff.mpr (mem_toFinset.mp hj)
    have hle := hcount j hj
    rw [Finset.mem_range]
    by_contra hge
    rw [stateOf, getD_eq_getElem?_getD, getElem?_eq_none (by omega)] at hle
    exact absurd hle (by simp [State.empty]; omega)

/-- Two confirmed slots, and one on trial between them with a single try. -/
def threeSlots : List State := [⟨1, 0, true⟩, ⟨2, 1, false⟩, ⟨3, 0, true⟩]

def hangs : Boot := ⟨fun _ => .hung, fun _ => true, fun _ => true⟩

def losesTwo : Boot :=
  ⟨fun i => if i = 2 then .unreadable else .hung, fun _ => true, fun _ => true⟩

/-- **The boots that hang in a trial slot need not come first**: the one try is spent in the second
boot, though a confirmed slot is always readable. -/
theorem trial_after_boots :
    (history threeSlots [hangs, losesTwo]).map Booted.hungIn = [some 2, some 1] ∧
      (stateOf threeSlots 1).successful = false ∧
      (stateOf threeSlots 0).tries + (stateOf threeSlots 1).tries +
        (stateOf threeSlots 2).tries = 1 := by
  decide +kernel

end

end Nife.BootSlot
