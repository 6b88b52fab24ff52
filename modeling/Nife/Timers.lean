/-
The timers' decision core (`crates/inter_process_communication`, `timer.rs`): one pending
deadline for each timer, a cached earliest deadline that a tick compares the clock with, and the
walk that fires what is due.  The cache is never later than a pending deadline; it may be
earlier, since a cancel does not raise it, and then one walk finds nothing.

In a run each arm gets a label, which travels in its target: the timers never look inside one.
`expiries_on_time` is the account of the labels and the ticks.  It does not need the clock to
go forward.
-/
import Nife.Lib.Transition
import Mathlib.Data.List.Nodup
import Mathlib.Data.List.Perm.Basic

namespace Nife

open List

open Transition (Reach)

variable {T : Type*}

/-- No deadline: `u64::MAX`. -/
def never : Nat := 0xffffffffffffffff

/-- A timer and, if armed, its deadline. -/
structure Timer (T : Type*) where
  armed : Option (Nat × T)

/-- What arming answers. -/
inductive Arm (T : Type*)
  | pending
  | dueNow (target : T)

namespace Timer

def new : Timer T := ⟨none⟩

def arm (_ : Timer T) (deadline : Nat) (target : T) (now : Nat) : Timer T × Arm T :=
  if deadline ≤ now then (⟨none⟩, .dueNow target) else (⟨some (deadline, target)⟩, .pending)

def cancel (t : Timer T) : Timer T × Bool := (⟨none⟩, t.armed.isSome)

def expire (t : Timer T) (now : Nat) : Timer T × Option T :=
  match t.armed with
  | some (deadline, target) => if deadline ≤ now then (⟨none⟩, some target) else (t, none)
  | none => (t, none)

def deadline (t : Timer T) : Nat :=
  match t.armed with
  | some (deadline, _) => deadline
  | none => never

def due (now : Nat) (t : Timer T) : Option T :=
  t.armed.bind fun (deadline, target) => if deadline ≤ now then some target else none

/-- The timer once what is due has fired. -/
def settled (now : Nat) (t : Timer T) : Timer T := if (t.due now).isSome then new else t

theorem expire_eq (t : Timer T) (now : Nat) : t.expire now = (t.settled now, t.due now) := by
  unfold expire settled due
  rcases ha : t.armed with - | ⟨deadline, target⟩
  · rfl
  · by_cases hd : deadline ≤ now <;> simp [hd, new]

end Timer

def lowered (cached deadline : Nat) : Nat := min cached deadline

def isDue (cached now : Nat) : Bool := cached ≤ now

/-- Fire the first due timer. -/
def nextDue (now : Nat) : List (Timer T) → List (Timer T) × Option T
  | [] => ([], none)
  | t :: timers =>
    match t.expire now with
    | (t', some target) => (t' :: timers, some target)
    | (t', none) => (t' :: (nextDue now timers).1, (nextDue now timers).2)

def earliest (timers : List (Timer T)) : Nat :=
  timers.foldl (fun e t => min e t.deadline) never

/-! ### The walk -/

variable {timers : List (Timer T)} {now cached : Nat} {t : Timer T}

theorem Timer.settled_of_none (h : t.due now = none) : t.settled now = t := by
  rw [settled, h]
  rfl

theorem Timer.due_settled (t : Timer T) (now : Nat) : (t.settled now).due now = none := by
  unfold settled
  split
  · rfl
  · next h => simpa using h

theorem Timer.settled_settled (t : Timer T) (now : Nat) :
    (t.settled now).settled now = t.settled now := settled_of_none (t.due_settled now)

theorem nextDue_none (h : (nextDue now timers).2 = none) :
    (nextDue now timers).1 = timers ∧ ∀ t ∈ timers, t.due now = none := by
  induction timers with
  | nil => exact ⟨rfl, nofun⟩
  | cons t timers ih =>
    simp only [nextDue, Timer.expire_eq] at h ⊢
    rcases hd : t.due now with - | target
    · rw [hd] at h
      obtain ⟨hsame, hnone⟩ := ih h
      refine ⟨by rw [Timer.settled_of_none hd, hsame], fun u hu => ?_⟩
      rcases mem_cons.mp hu with rfl | hu
      · exact hd
      · exact hnone u hu
    · rw [hd] at h
      cases h

/-- A walk that fires one timer leaves the others, due or not, for the next. -/
theorem nextDue_some {target : T} (h : (nextDue now timers).2 = some target) :
    timers.filterMap (·.due now) = target :: (nextDue now timers).1.filterMap (·.due now) ∧
      (nextDue now timers).1.map (·.settled now) = timers.map (·.settled now) := by
  induction timers with
  | nil => cases h
  | cons t timers ih =>
    simp only [nextDue, Timer.expire_eq] at h ⊢
    rcases hd : t.due now with - | x
    · rw [hd] at h
      obtain ⟨hfired, hleft⟩ := ih h
      constructor
      · rw [filterMap_cons_none hd, filterMap_cons_none (t.due_settled now), hfired]
      · rw [map_cons, map_cons, hleft, Timer.settled_settled]
    · rw [hd] at h
      cases h
      constructor
      · rw [filterMap_cons_some hd, filterMap_cons_none (t.due_settled now)]
      · rw [map_cons, map_cons, Timer.settled_settled]

/-- The loop of a tick: fire what is due, one timer at a time. -/
def fireDue (now : Nat) (timers : List (Timer T)) : List (Timer T) × List T :=
  match _h : (nextDue now timers).2 with
  | none => ((nextDue now timers).1, [])
  | some target =>
    ((fireDue now (nextDue now timers).1).1, target :: (fireDue now (nextDue now timers).1).2)
termination_by (timers.filterMap (·.due now)).length
decreasing_by
  all_goals rw [(nextDue_some _h).1]
  all_goals exact Nat.lt_succ_self _

/-- **The loop fires what was due, in the order of the timers, and ends.** -/
theorem fireDue_eq (now : Nat) (timers : List (Timer T)) :
    fireDue now timers = (timers.map (·.settled now), timers.filterMap (·.due now)) := by
  fun_induction fireDue now timers with
  | case1 timers h =>
    obtain ⟨hsame, hnone⟩ := nextDue_none h
    have hmap : timers.map (·.settled now) = timers := by
      conv_rhs => rw [← map_id timers]
      exact map_congr_left fun t ht => Timer.settled_of_none (hnone t ht)
    rw [hsame, hmap, filterMap_eq_nil_iff.mpr hnone]
  | case2 timers target h ih =>
    obtain ⟨hfired, hleft⟩ := nextDue_some h
    rw [ih, hfired, hleft]

/-- A tick: walk only if the cache says that something may be due, and then set it anew. -/
def tick (timers : List (Timer T)) (cached now : Nat) : List (Timer T) × Nat × List T :=
  if isDue cached now then
    ((fireDue now timers).1, earliest (fireDue now timers).1, (fireDue now timers).2)
  else (timers, cached, [])

/-! ### The cache -/

/-- The cache is no later than any pending deadline. -/
def CacheOk (timers : List (Timer T)) (cached : Nat) : Prop :=
  ∀ t ∈ timers, ∀ d x, t.armed = some (d, x) → cached ≤ d

theorem earliest_le (ht : t ∈ timers) : earliest timers ≤ t.deadline := by
  have hle : ∀ (l : List (Timer T)) (e : Nat), l.foldl (fun e t => min e t.deadline) e ≤ e ∧
      ∀ t ∈ l, l.foldl (fun e t => min e t.deadline) e ≤ t.deadline := by
    intro l
    induction l with
    | nil => exact fun e => ⟨Nat.le_refl e, nofun⟩
    | cons u l ih =>
      intro e
      obtain ⟨hacc, hall⟩ := ih (min e u.deadline)
      refine ⟨Nat.le_trans hacc (Nat.min_le_left ..), fun t ht => ?_⟩
      rcases mem_cons.mp ht with rfl | ht
      · exact Nat.le_trans hacc (Nat.min_le_right ..)
      · exact hall t ht
  exact (hle timers never).2 t ht

theorem cacheOk_earliest (timers : List (Timer T)) : CacheOk timers (earliest timers) := by
  intro t ht d x hd
  have hle := earliest_le ht
  rwa [Timer.deadline, hd] at hle

/-- **The walk that the cache skips would have found nothing.** -/
theorem tick_eq (h : CacheOk timers cached) (now : Nat) :
    (tick timers cached now).1 = timers.map (·.settled now) ∧
      (tick timers cached now).2.2 = timers.filterMap (·.due now) := by
  unfold tick
  split
  · rw [fireDue_eq]
    exact ⟨rfl, rfl⟩
  · next hskip =>
    have hlt : now < cached := by simpa [isDue] using hskip
    have hnone : ∀ t ∈ timers, t.due now = none := by
      intro t ht
      rcases ha : t.armed with - | ⟨d, x⟩
      · rw [Timer.due, ha]
        rfl
      · have hle := h t ht d x ha
        simp [Timer.due, ha, Nat.not_le.mpr (Nat.lt_of_lt_of_le hlt hle)]
    constructor
    · conv_lhs => rw [← map_id timers]
      exact map_congr_left fun t ht => (Timer.settled_of_none (hnone t ht)).symm
    · exact (filterMap_eq_nil_iff.mpr hnone).symm

theorem CacheOk.tick (h : CacheOk timers cached)
    (now : Nat) : CacheOk (tick timers cached now).1 (tick timers cached now).2.1 := by
  unfold Nife.tick
  split
  · exact cacheOk_earliest _
  · exact h

/-! ### Runs -/

/-- The operations on the timers. -/
inductive TimerOp (T : Type*)
  | arm (timer deadline : Nat) (target : T) (now : Nat)
  | cancel (timer : Nat)
  | tick (now : Nat)

/-- The timers and the cache, with three ghosts: how many arms there were, and the labels of
those that have fired and of those that were cancelled or replaced. -/
structure Clockwork (T : Type*) where
  timers : List (Timer (Nat × T))
  (cached arms : Nat)
  (fired ended : List Nat)

namespace Clockwork

/-- `count` timers, none armed. -/
def new (count : Nat) : Clockwork T := ⟨List.replicate count .new, never, 0, [], []⟩

def label (t : Timer (Nat × T)) : Option Nat := t.armed.map fun a => a.2.1

def step (s : Clockwork T) : TimerOp T → Option (Clockwork T)
  | .arm i deadline target now =>
    match s.timers[i]? with
    | none => none
    | some t =>
      match t.arm deadline (s.arms, target) now with
      | (t', .pending) => some { s with
          timers := s.timers.set i t'
          cached := lowered s.cached deadline
          arms := s.arms + 1
          ended := (label t).toList ++ s.ended }
      | (t', .dueNow fired) => some { s with
          timers := s.timers.set i t'
          arms := s.arms + 1
          fired := fired.1 :: s.fired
          ended := (label t).toList ++ s.ended }
  | .cancel i =>
    match s.timers[i]? with
    | none => none
    | some t => some { s with
        timers := s.timers.set i t.cancel.1
        ended := (label t).toList ++ s.ended }
  | .tick now =>
    match Nife.tick s.timers s.cached now with
    | (timers, cached, fired) => some { s with
        timers := timers
        cached := cached
        fired := fired.map Prod.fst ++ s.fired }

/-- Every label so far: fired, ended or pending. -/
def labels (s : Clockwork T) : List Nat := s.fired ++ s.ended ++ s.timers.filterMap label

/-- **The invariant**: a label is one of the three, once. -/
structure Inv (s : Clockwork T) : Prop where
  cache : CacheOk s.timers s.cached
  nodup : s.labels.Nodup
  below : ∀ n ∈ s.labels, n < s.arms

variable {s t : Clockwork T} {i : Nat}

theorem inv_new (count : Nat) : (new count : Clockwork T).Inv := by
  have hnone : (new count : Clockwork T).timers.filterMap label = [] := by
    rw [filterMap_eq_nil_iff]
    intro t ht
    rw [eq_of_mem_replicate ht]
    rfl
  have hlabels : (new count : Clockwork T).labels = [] := by
    rw [labels, hnone]
    rfl
  refine ⟨?_, ?_, ?_⟩
  · intro t ht d x hd
    rw [eq_of_mem_replicate ht] at hd
    cases hd
  · rw [hlabels]
    exact nodup_nil
  · rw [hlabels]
    intro n hn
    cases hn

/-- What a list's `filterMap` loses and gains when one element is written. -/
theorem filterMap_set_perm {α β : Type*} (f : α → Option β) {l : List α} {a : α}
    (h : l[i]? = some a) (b : α) :
    ((f a).toList ++ (l.set i b).filterMap f).Perm ((f b).toList ++ l.filterMap f) := by
  induction l generalizing i with
  | nil => cases h
  | cons c l ih =>
    cases i with
    | zero =>
      cases h
      rw [set_cons_zero, filterMap_cons, filterMap_cons]
      rcases f a with - | x <;> rcases f b with - | y
      · exact .refl _
      · exact .refl _
      · exact .refl _
      · exact .swap ..
    | succ i =>
      have hrec := ih h
      rw [set_cons_succ, filterMap_cons, filterMap_cons]
      rcases f c with - | z
      · exact hrec
      · exact perm_middle.trans ((hrec.cons z).trans perm_middle.symm)

/-- A timer written over: its label ends, and the new one, if there is one, joins. -/
theorem labels_set_perm {timers : List (Timer (Nat × T))} {u : Timer (Nat × T)}
    (hu : timers[i]? = some u) (u' : Timer (Nat × T)) (fired ended : List Nat) :
    (fired ++ ((label u).toList ++ ended) ++ (timers.set i u').filterMap label).Perm
      ((label u').toList ++ (fired ++ ended ++ timers.filterMap label)) := by
  rw [perm_iff_count]
  intro n
  have hset := (filterMap_set_perm label hu u').count_eq n
  simp only [count_append] at hset ⊢
  omega

theorem labels_tick_perm (timers : List (Timer (Nat × T))) (now : Nat) :
    ((timers.filterMap (·.due now)).map Prod.fst ++
      (timers.map (·.settled now)).filterMap label).Perm (timers.filterMap label) := by
  induction timers with
  | nil => exact .refl _
  | cons u timers ih =>
    rcases hd : u.due now with - | x
    · rw [filterMap_cons_none hd, map_cons, Timer.settled_of_none hd,
        filterMap_cons, filterMap_cons]
      rcases label u with - | n
      · exact ih
      · exact perm_middle.trans (ih.cons n)
    · have hlabel : label u = some x.1 := by
        obtain ⟨⟨d, y⟩, ha, hy⟩ := Option.bind_eq_some_iff.mp hd
        obtain ⟨-, hyx⟩ := Option.ite_none_right_eq_some.mp hy
        cases hyx
        rw [label, ha]
        rfl
      have hgone : label (u.settled now) = none := by
        rw [Timer.settled, hd]
        rfl
      rw [filterMap_cons_some hd, map_cons, map_cons, filterMap_cons_none hgone,
        filterMap_cons_some hlabel]
      exact ih.cons x.1

theorem Inv.of_perm (h : s.Inv) (hcache : CacheOk t.timers t.cached) (harms : t.arms = s.arms)
    (hperm : t.labels.Perm s.labels) : t.Inv where
  cache := hcache
  nodup := hperm.nodup_iff.mpr h.nodup
  below n hn := by
    rw [harms]
    exact h.below n (hperm.mem_iff.mp hn)

theorem Inv.of_perm_cons (h : s.Inv) (hcache : CacheOk t.timers t.cached)
    (harms : t.arms = s.arms + 1) (hperm : t.labels.Perm (s.arms :: s.labels)) : t.Inv where
  cache := hcache
  nodup := by
    rw [hperm.nodup_iff, nodup_cons]
    exact ⟨fun hmem => Nat.lt_irrefl _ (h.below _ hmem), h.nodup⟩
  below n hn := by
    rw [harms]
    rcases mem_cons.mp (hperm.mem_iff.mp hn) with rfl | hn
    · exact Nat.lt_succ_self _
    · exact Nat.lt_succ_of_lt (h.below n hn)

/-- A write to one timer keeps the cache right, if it is right for what is written. -/
theorem cacheOk_set {cached' : Nat} (h : CacheOk timers cached)
    (hle : cached' ≤ cached) (i : Nat) {u : Timer T}
    (hu : ∀ d x, u.armed = some (d, x) → cached' ≤ d) : CacheOk (timers.set i u) cached' := by
  intro t ht d x hd
  rcases mem_or_eq_of_mem_set ht with hmem | rfl
  · exact Nat.le_trans hle (h t hmem d x hd)
  · exact hu d x hd

theorem Inv.step (h : s.Inv) {op : TimerOp T} (hs : s.step op = some t) : t.Inv := by
  rcases op with ⟨i, deadline, target, now⟩ | i | now
  · simp only [Clockwork.step, Timer.arm] at hs
    rcases hu : s.timers[i]? with - | u
    · rw [hu] at hs
      cases hs
    · rw [hu] at hs
      by_cases hdue : deadline ≤ now
      · simp only [if_pos hdue] at hs
        cases hs
        refine h.of_perm_cons (cacheOk_set h.cache (Nat.le_refl _) i nofun) rfl ?_
        exact labels_set_perm hu ⟨none⟩ (s.arms :: s.fired) s.ended
      · simp only [if_neg hdue] at hs
        cases hs
        refine h.of_perm_cons (cacheOk_set h.cache (Nat.min_le_left ..) i fun d x hd => ?_) rfl ?_
        · cases hd
          exact Nat.min_le_right ..
        · exact labels_set_perm hu ⟨some (deadline, s.arms, target)⟩ s.fired s.ended
  · simp only [Clockwork.step] at hs
    rcases hu : s.timers[i]? with - | u
    · rw [hu] at hs
      cases hs
    · rw [hu] at hs
      cases hs
      refine h.of_perm (cacheOk_set h.cache (Nat.le_refl _) i nofun) rfl ?_
      exact labels_set_perm hu ⟨none⟩ s.fired s.ended
  · simp only [Clockwork.step] at hs
    cases hs
    obtain ⟨hleft, hfired⟩ := tick_eq h.cache now
    refine h.of_perm (h.cache.tick now) rfl ?_
    simp only [labels, hleft, hfired]
    rw [perm_iff_count]
    intro n
    have htick := (labels_tick_perm s.timers now).count_eq n
    simp only [count_append] at htick ⊢
    omega

/-- **The account.** -/
structure OnTime (s : Clockwork T) : Prop where
  /-- The cache never exceeds an armed deadline. -/
  cache : ∀ t ∈ s.timers, ∀ d x, t.armed = some (d, x) → s.cached ≤ d
  /-- A tick fires the timers whose deadline has come, and leaves the others as they are. -/
  tick_fires : ∀ now, (Nife.tick s.timers s.cached now).2.2 = s.timers.filterMap fun t =>
    t.armed.bind fun (d, x) => if d ≤ now then some x else none
  tick_leaves : ∀ now, (Nife.tick s.timers s.cached now).1 = s.timers.map fun t =>
    if (t.armed.bind fun (d, x) => if d ≤ now then some x else none).isSome then .new else t
  /-- The loop ends after no more firings than there are timers. -/
  loop : ∀ now, (fireDue now s.timers).2.length ≤ s.timers.length
  /-- An arm fires once at most. -/
  once : s.fired.Nodup
  fired_armed : ∀ n ∈ s.fired, n < s.arms
  /-- One that was cancelled or replaced does not fire. -/
  stale : ∀ n ∈ s.ended, n ∉ s.fired

theorem Inv.onTime (h : s.Inv) : s.OnTime where
  cache := h.cache
  tick_fires now := (tick_eq h.cache now).2
  tick_leaves now := (tick_eq h.cache now).1
  loop now := by
    rw [fireDue_eq]
    exact length_filterMap_le ..
  once := (nodup_append.mp (nodup_append.mp h.nodup).1).1
  fired_armed n hn := h.below n (mem_append_left _ (mem_append_left _ hn))
  stale n hended hfired :=
    (nodup_append.mp (nodup_append.mp h.nodup).1).2.2 n hfired n hended rfl

/-- **No expiry is missed, doubled or stale**, for any number of timers and any sequence of
arms, cancels and ticks. -/
theorem expiries_on_time {count : Nat} (h : Reach step (fun _ _ => True) (new count) s) :
    s.OnTime :=
  (h.invariant Inv (inv_new count) fun _ _ _ hinv _ hs => hinv.step hs).onTime

/-- A timer armed, armed again, cancelled, and one that was due at once. -/
theorem expiries_on_time_rearmed : ∃ s : Clockwork Char,
    Reach step (fun _ _ => True) (new 2) s ∧ s.fired = [2] ∧ s.ended = [1, 0] ∧ s.OnTime := by
  have hrun : Reach step (fun _ _ => True) (new 2)
      (⟨[⟨none⟩, ⟨none⟩], 5, 3, [2], [1, 0]⟩ : Clockwork Char) :=
    Reach.of_run [.arm 0 5 'a' 1, .arm 0 7 'b' 2, .cancel 0, .arm 1 3 'c' 4] rfl
  exact ⟨_, hrun, rfl, rfl, expiries_on_time hrun⟩

end Clockwork

end Nife
