/-
The block/wake handshake neither loses nor duplicates a wake, for any number of cores and
threads and every order of their steps.

The invariant is `Placement` of all threads together with `CoreThread.Sound` of each, of which
the part about the history of the parks is for runs in which every park begins with the
aborted flag clear (`Clear`).  A
step that changes neither the run state nor the standing of any thread keeps the first
half for free (`Cores.Inv.setThread`); the others are one lemma each, and
`Cores.inv_step` collects them.  The same invariant keeps `schedule` from its panics
(`Cores.schedule_safe`).
-/
import Nife.CoresPlacement
import Nife.CoresThread

namespace Nife

open Queues Option Function CoreThread Handshake Cores Placement

variable {C W : Type*} {Clear : Prop}

namespace Cores

def stateOf (s : Cores C W) (t : Nat) : Option RunState := (s.threads t).map (·.handshake.state)

def onCpuOf (s : Cores C W) (t : Nat) : Bool := (s.threads t).any (·.handshake.onCpu)

/-- The invariant: threads are where their run states say, and each is sound. -/
structure Inv (Clear : Prop) (s : Cores C W) : Prop where
  placement : Placement s.stateOf s.onCpuOf s.cores s.queues
  sound : ∀ t th, s.threads t = some th → th.Sound Clear
  /-- Nothing arms a kill on an idle thread. -/
  idle_alive : ∀ t th, IsIdle s.cores t → s.threads t = some th → th.killed = false

variable {s s' : Cores C W} {c target : C} {core : Core} {t : Nat} {th th' : CoreThread W}
  {thu : CoreThread W} {u : Nat}

theorem stateOf_eq (h : s.threads t = some th) : s.stateOf t = some th.handshake.state := by
  simp [stateOf, h]

theorem stateOf_of_isNone (h : (s.threads t).isNone) : s.stateOf t = none := by
  rw [stateOf, isNone_iff_eq_none.mp h, map_none]

theorem onCpuOf_eq (h : s.threads t = some th) : s.onCpuOf t = th.handshake.onCpu := by
  simp [onCpuOf, h]

theorem stateOf_setThread (s : Cores C W) (t : Nat) (th : CoreThread W) :
    (s.setThread t th).stateOf = update s.stateOf t (some th.handshake.state) := by
  funext u
  by_cases hu : u = t
  · subst hu
    simp [stateOf, setThread]
  · simp [stateOf, setThread, hu]

theorem onCpuOf_setThread (s : Cores C W) (t : Nat) (th : CoreThread W) :
    (s.setThread t th).onCpuOf = update s.onCpuOf t th.handshake.onCpu := by
  funext u
  by_cases hu : u = t
  · subst hu
    simp [onCpuOf, setThread]
  · simp [onCpuOf, setThread, hu]

theorem threads_setThread (h : (s.setThread t th).threads u = some thu) :
    (u = t ∧ thu = th) ∨ (u ≠ t ∧ s.threads u = some thu) := by
  by_cases hu : u = t
  · subst hu
    simp only [setThread, update_self, Option.some.injEq] at h
    exact .inl ⟨rfl, h.symm⟩
  · simp only [setThread, update_of_ne hu] at h
    exact .inr ⟨hu, h⟩

theorem stateOf_removeThread (s : Cores C W) (t : Nat) :
    stateOf { s with threads := update s.threads t none } = update s.stateOf t none := by
  funext u
  by_cases hu : u = t
  · subst hu
    simp [stateOf]
  · simp [stateOf, hu]

theorem onCpuOf_removeThread (s : Cores C W) (t : Nat) :
    onCpuOf { s with threads := update s.threads t none } = update s.onCpuOf t false := by
  funext u
  by_cases hu : u = t
  · subst hu
    simp [onCpuOf]
  · simp [onCpuOf, hu]

theorem threads_removeThread
    (h : update s.threads t none u = some thu) : u ≠ t ∧ s.threads u = some thu := by
  by_cases hu : u = t
  · subst hu
    rw [update_self] at h
    cases h
  · rw [update_of_ne hu] at h
    exact ⟨hu, h⟩

section

variable (h : s.Inv Clear)
include h

theorem Inv.sound_setThread (hs : th'.Sound Clear) :
    ∀ u thu, (s.setThread t th').threads u = some thu → thu.Sound Clear := by
  intro u thu hu
  rcases threads_setThread hu with ⟨-, rfl⟩ | ⟨-, hu⟩
  · exact hs
  · exact h.sound u thu hu

theorem Inv.alive_setThread (hk : IsIdle s.cores t → th'.killed = false) :
    ∀ u thu, IsIdle s.cores u → (s.setThread t th').threads u = some thu → thu.killed = false := by
  intro u thu hi hu
  rcases threads_setThread hu with ⟨rfl, rfl⟩ | ⟨-, hu⟩
  · exact hk hi
  · exact h.idle_alive u thu hi hu

theorem Inv.idle_state (hc : s.cores c = some core) (hth : s.threads core.idle = some th) :
    th.handshake.state = .running ∨ th.handshake.state = .ready := by
  rcases h.placement.idle c core hc with hi | ⟨hi, -⟩
  · rw [stateOf_eq hth, Option.some.injEq] at hi
    exact .inl hi
  · rw [stateOf_eq hth, Option.some.injEq] at hi
    exact .inr hi

section

variable (hth : s.threads t = some th)
include hth

theorem Inv.not_idle (hst : th.handshake.state ≠ .running ∧ th.handshake.state ≠ .ready) :
    ¬ IsIdle s.cores t := by
  rintro ⟨c, core, hc, rfl⟩
  exact (h.idle_state hc hth).elim hst.1 hst.2

/-- **A thread is rewritten in place**: same run state, same standing. -/
theorem Inv.setThread (hst : th'.handshake.state = th.handshake.state)
    (hon : th'.handshake.onCpu = th.handshake.onCpu)
    (hk : IsIdle s.cores t → th'.killed = false) (hs : th'.Sound Clear) :
    (s.setThread t th').Inv Clear := by
  refine ⟨?_, h.sound_setThread hs, h.alive_setThread hk⟩
  have hst' : (s.setThread t th').stateOf = s.stateOf := by
    rw [stateOf_setThread, hst, ← stateOf_eq hth, update_eq_self]
  have hon' : (s.setThread t th').onCpuOf = s.onCpuOf := by
    rw [onCpuOf_setThread, hon, ← onCpuOf_eq hth, update_eq_self]
  rw [hst', hon']
  exact h.placement

theorem Inv.setState (hold : th.handshake.state ≠ .ready)
    (hnew : th'.handshake.state ≠ .ready ∧ th'.handshake.state ≠ .embryo ∧
      th'.handshake.state ≠ .running)
    (hon : th'.handshake.onCpu = th.handshake.onCpu) (hidle : ¬ IsIdle s.cores t)
    (hs : th'.Sound Clear) : (s.setThread t th').Inv Clear := by
  refine ⟨?_, h.sound_setThread hs, h.alive_setThread fun hi => absurd hi hidle⟩
  have hon' : (s.setThread t th').onCpuOf = s.onCpuOf := by
    rw [onCpuOf_setThread, hon, ← onCpuOf_eq hth, update_eq_self]
  rw [stateOf_setThread, hon']
  exact h.placement.setState (stateOf_eq hth) hold hnew.1 hnew.2.1 hnew.2.2 hidle

end

end

variable [DecidableEq C]

theorem Inv.enqueue (h : s.Inv Clear) (hst : s.stateOf t ≠ some .ready) (hoff : s.onCpuOf t = false)
    (hidle : ¬ IsIdle s.cores t) (hready : th'.handshake.state = .ready)
    (hon : th'.handshake.onCpu = false) (hs : th'.Sound Clear) (c target : C) :
    ((s.setThread t th').placeOn c target t).Inv Clear := by
  refine ⟨?_, h.sound_setThread hs, h.alive_setThread fun hi => absurd hi hidle⟩
  have hon' : (s.setThread t th').onCpuOf = s.onCpuOf := by
    rw [onCpuOf_setThread, hon, ← hoff, update_eq_self]
  show Placement (s.setThread t th').stateOf (s.setThread t th').onCpuOf s.cores (push s.queues _ t)
  rw [stateOf_setThread, hon', hready]
  exact h.placement.enqueue hst hoff hidle _

omit [DecidableEq C] in
theorem setThread_setThread (s : Cores C W) (t : Nat) (th th' : CoreThread W) :
    (s.setThread t th).setThread t th' = s.setThread t th' := by
  simp [setThread]

theorem wake_eq_setThread (hth : s.threads t = some th) {v : WakeVerdict}
    (hw : th.tryWake = (th', v)) (hv : v ≠ .queue) (c target : C) :
    s.wake c target t = s.setThread t th' := by
  simp [wake, hth, hw]

theorem wake_eq_placeOn (hth : s.threads t = some th) (hw : th.tryWake = (th', .queue))
    (c target : C) : s.wake c target t = (s.setThread t th').placeOn c target t := by
  simp [wake, hth, hw]

section

variable (h : s.Inv Clear) {next : Nat} {cur : CoreThread W}
include h

/-- **A wake keeps the invariant**, of a thread that was rewritten before it or not. -/
theorem Inv.woken (hth : s.threads t = some th) {thw : CoreThread W}
    (hget : (s.setThread t thw).threads t = some thw) (hwoken : Woken Clear th thw.tryWake)
    (c target : C) : ((s.setThread t thw).wake c target t).Inv Clear := by
  have hk : IsIdle s.cores t → th.killed = false := fun hi => h.idle_alive t th hi hth
  rcases hwoken with ⟨th', v, hv, hw, hst, hon, hkill, hs⟩ |
    ⟨th', hw, hb, hoff, hready, hon, hkill, hs⟩
  · rw [wake_eq_setThread hget hw hv, setThread_setThread]
    exact h.setThread hth hst hon (fun hi => hkill.trans (hk hi)) hs
  · rw [wake_eq_placeOn hget hw, setThread_setThread]
    refine h.enqueue ?_ ?_ (h.not_idle hth ?_) hready hon hs c target
    · rw [stateOf_eq hth, hb]
      simp
    · rw [onCpuOf_eq hth, hoff]
    · rw [hb]
      simp

theorem Inv.deliver (hth : s.threads t = some th) {h' : Handshake W}
    (hr : CoreThread.Raises th h') (c target : C) :
    ((s.setThread t { th.noteDelivery with handshake := h' }).wake c target t).Inv Clear :=
  h.woken hth (by simp [Cores.setThread]) ((h.sound t th hth).deliver hr) c target

theorem Inv.wake (c target : C) (t : Nat) : (s.wake c target t).Inv Clear := by
  rcases hth : s.threads t with - | th
  · rw [Cores.wake, hth]
    exact h
  · have hsame : s.setThread t th = s := by
      rw [Cores.setThread, ← hth, update_eq_self]
    have hwoken := h.woken hth (by simp [Cores.setThread]) (h.sound t th hth).tryWake c target
    rw [hsame] at hwoken
    exact hwoken

section

variable (hc : s.cores c = some core)
include hc

theorem Inv.finishSwitch {prev : Nat}
    (hp : core.switchedFrom = some prev) : (s.finishSwitch c core prev).Inv Clear := by
  have hfin := h.placement.finish hc hp
  have hidle : ∀ u, IsIdle (update s.cores c (some { core with switchedFrom := none })) u
      ↔ IsIdle s.cores u := fun u => Placement.isIdle_update hc rfl
  obtain ⟨th, hth⟩ : ∃ th, s.threads prev = some th := by
    have hpres := h.placement.present prev
      ((h.placement.onCpu prev).mp ⟨c, Placement.mem_standing_left hc hp⟩)
    rw [stateOf, ne_eq, map_eq_none_iff] at hpres
    exact ne_none_iff_exists'.mp hpres
  have halive : ∀ th' : CoreThread W, th'.killed = th.killed → ∀ u thu,
      IsIdle (update s.cores c (some { core with switchedFrom := none })) u →
      (s.setThread prev th').threads u = some thu → thu.killed = false := by
    intro th' hkill u thu hi hu
    refine h.alive_setThread (t := prev) ?_ u thu ((hidle u).mp hi) hu
    exact fun hi' => hkill.trans (h.idle_alive prev th hi' hth)
  simp only [Cores.finishSwitch]
  rw [show (s.setCore c { core with switchedFrom := none }).threads prev = some th from hth]
  rcases (h.sound prev th hth).finishSwitch with ⟨hf, th', he⟩ |
    ⟨th', he, hb, hready, hon, hkill, hs⟩ | ⟨th', he, hst, hon, hkill, hs⟩
  · -- a finished thread is reaped
    simp only [he]
    have hni : ¬ IsIdle s.cores prev := h.not_idle hth (by rw [hf]; simp)
    have hne : s.stateOf prev ≠ some .ready := by rw [stateOf_eq hth, hf]; simp
    refine ⟨?_, ?_, ?_⟩
    · have hrem := hfin.create_or_remove (t := prev) none hne (update_self ..)
        (fun hi => hni ((hidle prev).mp hi)) (.inl rfl)
      rw [← stateOf_removeThread, ← onCpuOf_removeThread] at hrem
      exact hrem
    · intro u thu hu
      exact h.sound u thu (threads_removeThread hu).2
    · intro u thu hi hu
      exact h.idle_alive u thu ((hidle u).mp hi) (threads_removeThread hu).2
  · -- the owed wake is completed here
    simp only [he]
    have hni : ¬ IsIdle s.cores prev := h.not_idle hth (by rw [hb]; simp)
    have hne : s.stateOf prev ≠ some .ready := by rw [stateOf_eq hth, hb]; simp
    refine ⟨?_, h.sound_setThread hs, halive th' hkill⟩
    have henq := hfin.enqueue (t := prev) hne (update_self ..)
      (fun hi => hni ((hidle prev).mp hi)) (.runq c)
    show Placement (s.setThread prev th').stateOf (s.setThread prev th').onCpuOf _
      (push s.queues (if c = c then .runq c else .inbox c) prev)
    rw [stateOf_setThread, onCpuOf_setThread, hready, hon, if_pos rfl]
    exact henq
  · simp only [he]
    refine ⟨?_, h.sound_setThread hs, halive th' hkill⟩
    show Placement (s.setThread prev th').stateOf (s.setThread prev th').onCpuOf _ s.queues
    rw [stateOf_setThread, onCpuOf_setThread, hst, ← stateOf_eq hth, update_eq_self, hon]
    exact hfin

/-! ### Scheduling -/

omit [DecidableEq C] in
theorem Inv.current_thread :
    ∃ cur, s.threads core.current = some cur ∧ cur.handshake.onCpu = true := by
  have hon := h.placement.on_current hc
  have hpres := h.placement.present _ hon
  rw [stateOf, ne_eq, map_eq_none_iff] at hpres
  obtain ⟨cur, hcur⟩ := ne_none_iff_exists'.mp hpres
  rw [onCpuOf_eq hcur] at hon
  exact ⟨cur, hcur, hon⟩

section

variable (hs : core.switchedFrom = none)
include hs

omit [DecidableEq C] in
/-- A thread on its core's run queue stands on no core, once the core has finished its
switch: the only Ready threads that stand anywhere are on the queue of a core that is
still saving them. -/
theorem Inv.popped_off_cpu (hq : t ∈ s.queues (.runq c)) : s.onCpuOf t = false := by
  by_contra hon
  have hr := ((h.placement.queued t).mp ⟨_, hq⟩).1
  obtain ⟨d, cd, hd, hsd, hqd⟩ := h.placement.saving t hr (by simpa using hon)
  have hdc : QueueName.runq d = .runq c := h.placement.exclusive.unique hqd hq
  exact ne_of_saving hc hs hd hsd (by simpa using hdc)

omit [DecidableEq C] in
/-- The idle thread of a core that runs another thread and has no switch to finish stands
on no core. -/
theorem Inv.idle_off_cpu (hne : core.current ≠ core.idle) : s.onCpuOf core.idle = false := by
  by_contra hon
  obtain ⟨d, hd⟩ := (h.placement.onCpu core.idle).mpr (by simpa using hon)
  obtain rfl := h.placement.idle_home c d core hc hd
  simp only [standing, hc, hs, toList_none, List.mem_singleton] at hd
  exact hne hd.symm

/-- **The switch itself.**  `cur'` is what the thread that is left becomes. -/
theorem Inv.switch {cur thn : CoreThread W} (cur' : CoreThread W)
    (hcur : s.threads core.current = some cur) (hthn : s.threads next = some thn)
    (hnst : thn.handshake.state = .running ∨ thn.handshake.state = .ready)
    (hnon : s.onCpuOf next = false)
    (hhome : ∀ d cd, s.cores d = some cd → cd.idle = next → d = c)
    (hsound : cur'.Sound Clear) (hon : cur'.handshake.onCpu = cur.handshake.onCpu)
    (hkill : cur'.killed = cur.killed) {q' : QueueName C → List Nat} (hex : Exclusive q')
    (hqueued : ∀ u, Mem q' u ↔ update (update s.stateOf core.current (some cur'.handshake.state))
        next (some .running) u = some .ready ∧ ¬ IsIdle s.cores u)
    (hleft : (cur'.handshake.state = cur.handshake.state ∧
        (cur.handshake.state = .running → core.current = core.idle)) ∨
      (cur'.handshake.state = .ready ∧ core.current ∈ q' (.runq c) ∧ ¬ IsIdle s.cores core.current))
    (hkeep : ∀ d u, d ≠ c → u ∈ s.queues (.runq d) → u ∈ q' (.runq d)) :
    Inv Clear (((({ s with queues := q' } : Cores C W).setThread core.current cur').setThread next
      { thn with handshake := thn.handshake.switchIn }).setCore c
        { core with current := next, switchedFrom := some core.current }) := by
  have hne := h.placement.ne_current hc hnon
  have hidle : ∀ u, IsIdle (update s.cores c
      (some { core with current := next, switchedFrom := some core.current })) u ↔
      IsIdle s.cores u := fun u => isIdle_update hc rfl
  refine ⟨?_, ?_, ?_⟩
  · show Placement ((s.setThread core.current cur').setThread next
        { thn with handshake := thn.handshake.switchIn }).stateOf
      ((s.setThread core.current cur').setThread next
        { thn with handshake := thn.handshake.switchIn }).onCpuOf _ q'
    rw [stateOf_setThread, stateOf_setThread, onCpuOf_setThread, onCpuOf_setThread, hon,
      ← onCpuOf_eq hcur, update_eq_self]
    refine h.placement.switch hc hs hnon hhome hex hqueued (update_self ..) ?_ ?_ hkeep
    · rw [update_of_ne hne.symm, update_self, stateOf_eq hcur]
      rcases hleft with ⟨heq, hrun⟩ | ⟨heq, hmem, hni⟩
      · refine .inl ⟨by rw [heq], fun hr => ?_⟩
        rw [Option.some.injEq] at hr
        exact ⟨c, core, hc, (hrun hr).symm⟩
      · exact .inr ⟨by rw [heq], hmem, hni⟩
    · intro u hun huc
      rw [update_of_ne hun, update_of_ne huc]
  · intro u thu hu
    rcases threads_setThread hu with ⟨-, rfl⟩ | ⟨-, hu⟩
    · exact (h.sound next thn hthn).switchIn hnst
    · exact h.sound_setThread hsound u thu hu
  · intro u thu hi hu
    rcases threads_setThread hu with ⟨rfl, rfl⟩ | ⟨-, hu⟩
    · exact h.idle_alive u thn ((hidle u).mp hi) hthn
    · refine h.alive_setThread (t := core.current) ?_ u thu ((hidle u).mp hi) hu
      exact fun hi' => hkill.trans (h.idle_alive _ cur hi' hcur)

end

end

omit [DecidableEq C] in
theorem Inv.takeKill (hcur : s.threads core.current = some cur) : Inv Clear (s.setThread core.current
      (if cur.killed ∧ cur.handshake.state = .running then cur.setState .finished else cur)) := by
  split
  case isTrue hk =>
    have hni : ¬ IsIdle s.cores core.current := by
      intro hi
      rw [h.idle_alive _ cur hi hcur] at hk
      cases hk.1
    refine h.setState hcur ?_ ?_ rfl hni ((h.sound _ cur hcur).setState _ (.inl hk.2) (by simp))
    · rw [hk.2]
      simp
    · simp [CoreThread.setState]
  case isFalse =>
    exact h.setThread hcur rfl rfl (fun hi => h.idle_alive _ cur hi hcur) (h.sound _ cur hcur)

/-- Core `c` runs what it ran before, or a thread that stood on no core. -/
def SwitchedInSaved (s s' : Cores C W) (c : C) (core : Core) : Prop :=
  ∃ core', s'.cores c = some core' ∧
    (core'.current = core.current ∨ s.onCpuOf core'.current = false)

section

variable (hc : s.cores c = some core) (hs : core.switchedFrom = none) {rest : List Nat}
include hc hs

theorem Inv.switch_popped (hq : s.queues (.runq c) = next :: rest)
    (hcur : s.threads core.current = some cur)
    (hrun : cur.handshake.state = .running → core.current = core.idle)
    (hsw : ({ s with queues := update s.queues (.runq c) rest } : Cores C W).switchTo
      c core next = some s') : s'.Inv Clear ∧ SwitchedInSaved s s' c core := by
  have hmem : next ∈ s.queues (.runq c) := by rw [hq]; exact List.mem_cons_self ..
  obtain ⟨hready, hni⟩ := (h.placement.queued next).mp ⟨_, hmem⟩
  have hoff := h.popped_off_cpu hc hs hmem
  obtain ⟨thn, hthn, hst⟩ := map_eq_some_iff.mp hready
  simp only [switchTo, hthn] at hsw
  cases hsw
  refine ⟨?_, _, update_self .., .inr hoff⟩
  have hsw := h.switch hc hs cur hcur hthn (.inr hst) hoff ?_
    (h.sound _ cur hcur) rfl rfl (h.placement.exclusive.pop hq) ?_ (.inl ⟨rfl, hrun⟩) ?_
  · rw [show ({ s with queues := update s.queues (.runq c) rest } : Cores C W).setThread
      core.current cur = { s with queues := update s.queues (.runq c) rest } from by
        rw [Cores.setThread, ← hcur, update_eq_self]] at hsw
    exact hsw
  · intro d cd hd hi
    exact absurd ⟨d, cd, hd, hi⟩ hni
  · intro u
    rw [h.placement.exclusive.Mem_pop hq, h.placement.queued, ← stateOf_eq hcur]
    by_cases hu : u = next
    · subst hu
      simp
    · simp [hu]
  · intro d u hdc hu
    exact mem_update.mpr (.inr ⟨by simpa using hdc, hu⟩)

/-- Popping `next` and switching to it, the current thread being preempted and put at the
back of its own queue. -/
theorem Inv.switch_preempted (hq : s.queues (.runq c) = next :: rest)
    (hcur : s.threads core.current = some cur) (hrun : cur.handshake.state = .running)
    (hidle : core.current ≠ core.idle)
    (hsw : ((({ s with queues := update s.queues (.runq c) rest } : Cores C W).setThread
        core.current { cur with handshake := cur.handshake.preempt }).placeOn c c
          core.current).switchTo c core next = some s') :
    s'.Inv Clear ∧ SwitchedInSaved s s' c core := by
  have hmem : next ∈ s.queues (.runq c) := by rw [hq]; exact List.mem_cons_self ..
  obtain ⟨hready, hni⟩ := (h.placement.queued next).mp ⟨_, hmem⟩
  have hoff := h.popped_off_cpu hc hs hmem
  have hne := h.placement.ne_current hc hoff
  have hcurIdle := h.placement.current_not_idle hc hidle
  have hcurOff : ¬ Mem s.queues core.current := by
    refine h.placement.not_mem ?_
    rw [stateOf_eq hcur, hrun]
    simp
  obtain ⟨thn, hthn, hst⟩ := map_eq_some_iff.mp hready
  have hget : ((({ s with queues := update s.queues (.runq c) rest } :
      Cores C W).setThread core.current { cur with handshake := cur.handshake.preempt }).placeOn
        c c core.current).threads next = some thn := by
    show update s.threads core.current _ next = some thn
    rw [update_of_ne hne, hthn]
  simp only [switchTo, hget] at hsw
  cases hsw
  refine ⟨?_, _, update_self .., .inr hoff⟩
  have hpop := h.placement.exclusive.pop hq
  have hpopOff : ¬ Mem (update s.queues (.runq c) rest) core.current := by
    rw [h.placement.exclusive.Mem_pop hq]
    exact fun hm => hcurOff hm.1
  have hsw := h.switch hc hs { cur with handshake := cur.handshake.preempt } hcur
    hthn (.inr hst) hoff ?_ ((h.sound _ cur hcur).preempt hrun) rfl rfl
    (hpop.push (i := .runq c) hpopOff) ?_ (.inr ⟨rfl, ?_, hcurIdle⟩) ?_
  · rw [placeOn, if_pos rfl]
    exact hsw
  · intro d cd hd hi
    exact absurd ⟨d, cd, hd, hi⟩ hni
  · intro u
    rw [Mem_push, h.placement.exclusive.Mem_pop hq, h.placement.queued]
    by_cases hu : u = next
    · subst hu
      simp [hne]
    · by_cases huc : u = core.current
      · subst huc
        simp [update_of_ne hu, hcurIdle, preempt]
      · simp [hu, huc]
  · exact mem_push.mpr (.inr ⟨rfl, rfl⟩)
  · intro d u hdc hu
    exact mem_push.mpr (.inl (mem_update.mpr (.inr ⟨by simpa using hdc, hu⟩)))

theorem Inv.switch_idle
    (hcur : s.threads core.current = some cur) (hrun : cur.handshake.state ≠ .running)
    (hne : core.current ≠ core.idle) (hsw : s.switchTo c core core.idle = some s') :
    s'.Inv Clear ∧ SwitchedInSaved s s' c core := by
  have hoff := h.idle_off_cpu hc hs hne
  rcases hthn : s.threads core.idle with - | thn
  · rw [switchTo, hthn] at hsw
    cases hsw
  have hst := h.idle_state hc hthn
  simp only [switchTo, hthn] at hsw
  cases hsw
  refine ⟨?_, _, update_self .., .inr hoff⟩
  have hsw := h.switch hc hs cur hcur hthn hst hoff ?_ (h.sound _ cur hcur) rfl rfl
    h.placement.exclusive ?_ (.inl ⟨rfl, fun hr => absurd hr hrun⟩) (fun _ _ _ hu => hu)
  · rw [show ({ s with queues := s.queues } : Cores C W).setThread core.current cur = s from by
      rw [Cores.setThread, ← hcur, update_eq_self]] at hsw
    exact hsw
  · intro d cd hd hi
    exact h.placement.idle_inj d c cd core hd hc hi
  · intro u
    rw [h.placement.queued, ← stateOf_eq hcur]
    by_cases hu : u = core.idle
    · subst hu
      have hi : IsIdle s.cores core.idle := ⟨c, core, hc, rfl⟩
      simp [hi]
    · simp [hu]

/-- **Scheduling keeps the invariant, and switches in only a thread whose context is
saved.** -/
theorem Inv.schedule
    (hsch : s.schedule c core = some s') : s'.Inv Clear ∧ SwitchedInSaved s s' c core := by
  obtain ⟨cur, hcur, hon⟩ := h.current_thread hc
  have hkill := h.takeKill hcur
  simp only [Cores.schedule, hcur] at hsch
  generalize hcur' : (if cur.killed ∧ cur.handshake.state = .running then cur.setState .finished
    else cur) = cur' at hkill hsch
  have hget : (s.setThread core.current cur').threads core.current = some cur' := by
    simp [Cores.setThread]
  have hon' : (s.setThread core.current cur').onCpuOf = s.onCpuOf := by
    have hsame : cur'.handshake.onCpu = cur.handshake.onCpu := by
      rw [← hcur']
      split <;> rfl
    rw [onCpuOf_setThread, hsame, ← onCpuOf_eq hcur, update_eq_self]
  have hsaved : ∀ s₂, SwitchedInSaved (s.setThread core.current cur') s₂ c core →
      SwitchedInSaved s s₂ c core := by
    rintro s₂ ⟨core', hc', hcur | hoff⟩
    · exact ⟨core', hc', .inl hcur⟩
    · rw [hon'] at hoff
      exact ⟨core', hc', .inr hoff⟩
  split at hsch
  case h_1 next rest hq =>
    have hnext : next ≠ core.current := by
      rintro rfl
      have hoff := hkill.popped_off_cpu hc hs (t := core.current)
        (by rw [hq]; exact List.mem_cons_self ..)
      rw [hkill.placement.on_current hc] at hoff
      cases hoff
    rw [if_neg hnext] at hsch
    split at hsch
    case isTrue hrun =>
      obtain ⟨hinv, hsw⟩ := hkill.switch_preempted hc hs hq hget hrun.1 hrun.2 hsch
      exact ⟨hinv, hsaved _ hsw⟩
    case isFalse hrun =>
      obtain ⟨hinv, hsw⟩ := hkill.switch_popped hc hs hq hget
        (fun hr => by_contra fun hne => hrun ⟨hr, hne⟩) hsch
      exact ⟨hinv, hsaved _ hsw⟩
  case h_2 hq =>
    split at hsch
    case isTrue =>
      cases hsch
      exact ⟨hkill, core, hc, .inl rfl⟩
    case isFalse hrun =>
      split at hsch
      case isTrue => cases hsch
      case isFalse hne =>
        obtain ⟨hinv, hsw⟩ := hkill.switch_idle hc hs hget hrun hne hsch
        exact ⟨hinv, hsaved _ hsw⟩

end

end

/-! ### Every step, every run -/

omit [DecidableEq C] in
theorem free_eq (h : s.free c = some core) : s.cores c = some core ∧ core.switchedFrom = none := by
  obtain ⟨hc, hf⟩ := filter_eq_some_iff.mp h
  exact ⟨hc, isNone_iff_eq_none.mp hf⟩

omit [DecidableEq C] in
/-- The caller of a syscall is a thread that stands on its core and is no idle thread. -/
theorem Inv.caller (h : s.Inv Clear) (hcall : s.caller c = some (t, th)) :
    s.threads t = some th ∧ ¬ IsIdle s.cores t := by
  rw [Cores.caller] at hcall
  split at hcall
  case h_1 => cases hcall
  case h_2 core hf =>
    obtain ⟨hc, -⟩ := free_eq hf
    split at hcall
    case isTrue => cases hcall
    case isFalse hne =>
      obtain ⟨th', hth, heq⟩ := map_eq_some_iff.mp hcall
      cases heq
      exact ⟨hth, h.placement.current_not_idle hc hne⟩

theorem Inv.serveStealRequest (h : s.Inv Clear) (hf : (s.free c).isSome) (r : C) :
    (s.serveStealRequest c r).Inv Clear := by
  obtain ⟨core, hcore⟩ := isSome_iff_exists.mp hf
  obtain ⟨hc, hs⟩ := free_eq hcore
  rw [Cores.serveStealRequest]
  split
  case h_1 => exact h
  case h_2 u rest hq =>
    have hpop := h.placement.exclusive.pop hq
    have hoff : ¬ Mem (update s.queues (.runq c) rest) u := by
      rw [h.placement.exclusive.Mem_pop hq]
      exact fun hm => hm.2 rfl
    refine ⟨h.placement.requeue (hpop.push hoff) ?_ ?_, h.sound, h.idle_alive⟩
    · intro v
      rw [Mem_push, h.placement.exclusive.Mem_pop hq]
      constructor
      · rintro (⟨hv, -⟩ | rfl)
        · exact hv
        · exact ⟨_, by rw [hq]; exact List.mem_cons_self ..⟩
      · intro hv
        by_cases hvu : v = u
        · exact .inr hvu
        · exact .inl ⟨hv, hvu⟩
    · intro d cd v hd hsv hv
      -- a core that is still saving a thread is not the one that serves
      have hdc := Placement.ne_of_saving hc hs hd hsv
      have hne : QueueName.runq d ≠ .runq c := fun he => hdc (QueueName.runq.inj he)
      show v ∈ push (update s.queues (.runq c) rest) (.inbox r) u (.runq d)
      exact mem_push.mpr (.inl (mem_update.mpr (.inr ⟨hne, hv⟩)))

theorem Inv.drainInbox (h : s.Inv Clear) (c : C) :
    Inv Clear { s with queues := drain s.queues (.runq c) (.inbox c) } := by
  have hne : QueueName.runq c ≠ .inbox c := by simp
  refine ⟨h.placement.requeue (h.placement.exclusive.drain hne) (fun _ => Mem_drain hne) ?_,
    h.sound, h.idle_alive⟩
  intro d cd u _ _ hu
  exact (mem_drain hne).mpr (.inl ⟨by simp, hu⟩)

variable [Fintype C] {c₀ : C}

omit [Fintype C] in
theorem boot_core {c₀ c : C} {core : Core} (h : (boot c₀ : Cores C W).cores c = some core) :
    c = c₀ ∧ core = ⟨0, 1, none⟩ := by
  simp only [boot] at h
  split at h
  case isTrue hc => exact ⟨hc, (Option.some.inj h).symm⟩
  case isFalse => cases h

omit [Fintype C] in
theorem boot_thread (h : (boot c₀ : Cores C W).threads t = some th) :
    (t = 0 ∧ th = new onCpuNow) ∨
    (t = 1 ∧ th = new ready) := by
  simp only [boot] at h
  split at h
  case isTrue h0 => exact .inl ⟨h0, (Option.some.inj h).symm⟩
  case isFalse =>
    split at h
    case isTrue h1 => exact .inr ⟨h1, (Option.some.inj h).symm⟩
    case isFalse => cases h

omit [Fintype C] in
theorem inv_boot (c₀ : C) : (boot c₀ : Cores C W).Inv Clear := by
  have hstate : ∀ t st, (boot c₀ : Cores C W).stateOf t = some st →
      (t = 0 ∧ st = .running) ∨ (t = 1 ∧ st = .ready) := by
    intro t st ht
    obtain ⟨th, hth, rfl⟩ := map_eq_some_iff.mp ht
    rcases boot_thread hth with ⟨rfl, rfl⟩ | ⟨rfl, rfl⟩
    · exact .inl ⟨rfl, rfl⟩
    · exact .inr ⟨rfl, rfl⟩
  have hidle : IsIdle (boot c₀ : Cores C W).cores 1 := ⟨c₀, ⟨0, 1, none⟩, by simp [boot], rfl⟩
  have hstand : ∀ c u, u ∈ standing (boot c₀ : Cores C W).cores c ↔ c = c₀ ∧ u = 0 := by
    intro c u
    by_cases hc : c = c₀
    all_goals simp [standing, boot, hc]
  have hon : ∀ u, (boot c₀ : Cores C W).onCpuOf u = true ↔ u = 0 := by
    intro u
    by_cases h0 : u = 0
    · subst h0
      simp [onCpuOf, boot, new, onCpuNow]
    · by_cases h1 : u = 1
      · subst h1
        simp [onCpuOf, boot, new, ready]
      · simp [onCpuOf, boot, h0, h1]
  refine ⟨?_, ?_, ?_⟩
  · refine
      { exclusive := ⟨fun _ => List.nodup_nil, fun hi => by cases hi⟩, queued := ?_,
        standing := ⟨?_, ?_⟩, onCpu := ?_, present := ?_, embryo := ?_, idle := ?_,
        idle_inj := ?_, idle_home := ?_, running := ?_, left := ?_, saving := ?_ }
    · intro t
      constructor
      · rintro ⟨i, hi⟩
        cases hi
      · rintro ⟨ht, hni⟩
        rcases hstate t _ ht with ⟨-, hc⟩ | ⟨rfl, -⟩
        · cases hc
        · exact absurd hidle hni
    · intro c
      by_cases hc : c = c₀
      all_goals simp [standing, boot, hc]
    · intro c d u hc hd
      exact ((hstand c u).mp hc).1.trans ((hstand d u).mp hd).1.symm
    · intro t
      rw [hon]
      constructor
      · rintro ⟨c, hc⟩
        exact ((hstand c t).mp hc).2
      · rintro rfl
        exact ⟨c₀, (hstand c₀ 0).mpr ⟨rfl, rfl⟩⟩
    · intro t ht
      rw [(hon t).mp ht]
      simp [stateOf, boot]
    · intro t ht
      rcases hstate t _ ht with ⟨-, hc⟩ | ⟨-, hc⟩ <;> cases hc
    · intro c core hc
      obtain ⟨-, rfl⟩ := boot_core hc
      refine .inr ⟨by simp [stateOf, boot, new, ready], ?_⟩
      simp [onCpuOf, boot, new, ready]
    · intro c c' core core' hc hc' _
      exact (boot_core hc).1.trans (boot_core hc').1.symm
    · intro c c' core hc hmem
      exact ((hstand c' _).mp hmem).1.trans (boot_core hc).1.symm
    · intro t ht
      rcases hstate t _ ht with ⟨rfl, -⟩ | ⟨-, hc⟩
      · exact .inl ((hon 0).mpr rfl)
      · cases hc
    · intro c core t hc hs
      obtain ⟨-, rfl⟩ := boot_core hc
      cases hs
    · intro t ht hot
      rw [(hon t).mp hot] at ht
      rcases hstate 0 _ ht with ⟨-, hc⟩ | ⟨hc, -⟩ <;> cases hc
  · intro t th hth
    rcases boot_thread hth with ⟨-, rfl⟩ | ⟨-, rfl⟩
    · exact sound_new (by simp [onCpuNow]) rfl
    · exact sound_new (by simp [ready]) rfl
  · intro t th _ hth
    rcases boot_thread hth with ⟨-, rfl⟩ | ⟨-, rfl⟩ <;> rfl

theorem inv_step {a : CoresAction C W} (h : s.Inv Clear) (hclear : Clear → s.ParksClear a)
    (hstep : s.step a = some s') : s'.Inv Clear := by
  cases a with
  | spawnOn c target t =>
    obtain ⟨hg, ⟨⟩⟩ := ite_none_right_eq_some.mp hstep
    have hnone := stateOf_of_isNone hg.2.2
    obtain ⟨hoff, hni⟩ := h.placement.fresh hnone
    exact h.enqueue (by rw [hnone]; simp) hoff hni rfl rfl
      (CoreThread.sound_new (by simp [Handshake.ready]) rfl) c target
  | createThreadControlBlock t =>
    obtain ⟨hg, ⟨⟩⟩ := ite_none_right_eq_some.mp hstep
    have hnone := stateOf_of_isNone hg
    obtain ⟨hoff, hni⟩ := h.placement.fresh hnone
    have hs : (CoreThread.new (Handshake.embryo (W := W))).Sound Clear :=
      CoreThread.sound_new (by simp [Handshake.embryo]) rfl
    refine ⟨?_, h.sound_setThread hs, h.alive_setThread fun _ => rfl⟩
    have hcreate := h.placement.create_or_remove (t := t) (some .embryo) (by rw [hnone]; simp)
      hoff hni (.inr rfl)
    show Placement (s.setThread t _).stateOf (s.setThread t _).onCpuOf s.cores s.queues
    rw [stateOf_setThread, onCpuOf_setThread]
    rwa [show (CoreThread.new (Handshake.embryo (W := W))).handshake.onCpu = s.onCpuOf t from
      hoff.symm, update_eq_self]
  | startThreadControlBlock c target t =>
    rcases hth : s.threads t with - | th <;> simp only [step, hth, reduceCtorEq] at hstep
    obtain ⟨hg, ⟨⟩⟩ := ite_none_right_eq_some.mp hstep
    have hst : s.stateOf t = some .embryo := by rw [stateOf_eq hth, hg.2.2]
    have hoff := h.placement.embryo t hst
    refine h.enqueue (by rw [hst]; simp) hoff (h.not_idle hth (by rw [hg.2.2]; simp)) rfl ?_
      ((h.sound t th hth).setState _ (.inr hg.2.2) (by simp)) c target
    rw [onCpuOf_eq hth] at hoff
    exact hoff
  | adoptSecondaryIdle c t =>
    obtain ⟨hg, ⟨⟩⟩ := ite_none_right_eq_some.mp hstep
    have hnone := stateOf_of_isNone hg.2
    have hs : (CoreThread.new (Handshake.onCpuNow (W := W))).Sound Clear :=
      CoreThread.sound_new (by simp [Handshake.onCpuNow]) rfl
    refine ⟨?_, h.sound_setThread hs, ?_⟩
    · show Placement (s.setThread t _).stateOf (s.setThread t _).onCpuOf _ s.queues
      rw [stateOf_setThread, onCpuOf_setThread]
      exact h.placement.adopt (isNone_iff_eq_none.mp hg.1) hnone
    · intro u thu hi hu
      rcases threads_setThread hu with ⟨-, rfl⟩ | ⟨hut, hu⟩
      · rfl
      · obtain ⟨d, cd, hd, rfl⟩ := hi
        rcases Placement.core_update hd with ⟨-, rfl⟩ | ⟨-, hold⟩
        · exact absurd rfl hut
        · exact h.idle_alive _ thu ⟨d, cd, hold, rfl⟩ hu
  | park c w =>
    rcases hcall : s.caller c with - | ⟨t, th⟩ <;> simp only [step, hcall, reduceCtorEq] at hstep
    obtain ⟨hth, hni⟩ := h.caller hcall
    obtain ⟨hg, ⟨⟩⟩ := ite_none_right_eq_some.mp hstep
    have harmed (hc : Clear) : th.handshake.ipcAborted = false := by
      simpa [ParksClear, hcall] using hclear hc
    refine h.setState hth (by rw [hg]; simp) ?_ rfl hni ((h.sound t th hth).park hg harmed w)
    simp [CoreThread.park, Handshake.park]
  | setIpcAborted c =>
    rcases hcall : s.caller c with - | ⟨t, th⟩ <;> simp only [step, hcall, reduceCtorEq] at hstep
    obtain ⟨hth, hni⟩ := h.caller hcall
    obtain ⟨hg, ⟨⟩⟩ := ite_none_right_eq_some.mp hstep
    exact h.setThread hth rfl rfl (fun hi => absurd hi hni) ((h.sound t th hth).setAborted hg true)
  | takeIpcAborted c =>
    rcases hcall : s.caller c with - | ⟨t, th⟩ <;> simp only [step, hcall, reduceCtorEq] at hstep
    obtain ⟨hth, hni⟩ := h.caller hcall
    obtain ⟨hg, ⟨⟩⟩ := ite_none_right_eq_some.mp hstep
    exact h.setThread hth rfl rfl (fun hi => absurd hi hni) ((h.sound t th hth).setAborted hg false)
  | serve c target t =>
    rcases hth : s.threads t with - | th <;> simp only [step, hth, reduceCtorEq] at hstep
    obtain ⟨-, ⟨⟩⟩ := ite_none_right_eq_some.mp hstep
    exact h.deliver hth (CoreThread.raises_serve th) c target
  | abort c target t =>
    rcases hth : s.threads t with - | th <;> simp only [step, hth, reduceCtorEq] at hstep
    obtain ⟨hg, ⟨⟩⟩ := ite_none_right_eq_some.mp hstep
    exact h.deliver hth (CoreThread.raises_abort th) c target
  | wake c target t =>
    obtain ⟨-, ⟨⟩⟩ := ite_none_right_eq_some.mp hstep
    exact h.wake c target t
  | depart c supervised =>
    rcases hcall : s.caller c with - | ⟨t, th⟩ <;> simp only [step, hcall, reduceCtorEq] at hstep
    obtain ⟨hth, hni⟩ := h.caller hcall
    obtain ⟨hg, ⟨⟩⟩ := ite_none_right_eq_some.mp hstep
    refine h.setState hth (by rw [hg]; simp) ?_ rfl hni
      ((h.sound t th hth).setState _ (.inl hg) (by cases supervised <;> simp))
    cases supervised <;> simp [CoreThread.setState]
  | kill t =>
    rcases hth : s.threads t with - | th <;> simp only [step, hth, reduceCtorEq] at hstep
    obtain ⟨hni, ⟨⟩⟩ := ite_none_left_eq_some.mp hstep
    have hs := h.sound t th hth
    exact h.setThread hth rfl rfl (fun hi => absurd hi hni) { hs with }
  | finishBlockedResident t =>
    rcases hth : s.threads t with - | th <;> simp only [step, hth, reduceCtorEq] at hstep
    obtain ⟨hg, ⟨⟩⟩ := ite_none_right_eq_some.mp hstep
    refine h.setState hth (by rw [hg.1]; simp) ?_ rfl (h.not_idle hth (by rw [hg.1]; simp))
      ((h.sound t th hth).finishBlocked hg.1 hg.2)
    simp [CoreThread.setState]
  | reap t =>
    rcases hth : s.threads t with - | th <;> simp only [step, hth, reduceCtorEq] at hstep
    obtain ⟨hg, ⟨⟩⟩ := ite_none_right_eq_some.mp hstep
    have hne : th.handshake.state ≠ .running ∧ th.handshake.state ≠ .ready := by
      rcases hg.1 with he | he | he <;> rw [he] <;> simp
    refine ⟨?_, ?_, ?_⟩
    · have hrem := h.placement.create_or_remove (t := t) none
        (by rw [stateOf_eq hth]; simpa using hne.2) (by rw [onCpuOf_eq hth]; exact hg.2)
        (h.not_idle hth hne) (.inl rfl)
      rw [stateOf_removeThread, onCpuOf_removeThread, ← hg.2, ← onCpuOf_eq hth, update_eq_self]
      exact hrem
    · intro u thu hu
      exact h.sound u thu (threads_removeThread hu).2
    · intro u thu hi hu
      exact h.idle_alive u thu hi (threads_removeThread hu).2
  | schedule c =>
    rcases hf : s.free c with - | core <;> simp only [step, hf, reduceCtorEq] at hstep
    obtain ⟨hc, hs⟩ := free_eq hf
    exact (h.schedule hc hs hstep).1
  | finishSwitch c =>
    rcases hc : s.cores c with - | core <;> simp only [step, hc, reduceCtorEq] at hstep
    obtain ⟨prev, hp, rfl⟩ := map_eq_some_iff.mp hstep
    exact h.finishSwitch hc hp
  | drainInbox c =>
    obtain ⟨-, ⟨⟩⟩ := ite_none_right_eq_some.mp hstep
    exact h.drainInbox c
  | serveStealRequest c r =>
    obtain ⟨hg, ⟨⟩⟩ := ite_none_right_eq_some.mp hstep
    exact h.serveStealRequest hg.1 r

/-- The part of the invariant that needs no condition on the run. -/
theorem inv_reach (h : Transition.Reach step (fun _ _ => True) (boot c₀) s) : s.Inv False :=
  h.invariant (Inv False) (inv_boot c₀) fun _ _ _ hi _ hs => inv_step hi False.elim hs

theorem inv_reach_clear (h : Transition.Reach step ParksClear (boot c₀) s) : s.Inv True :=
  h.invariant (Inv True) (inv_boot c₀) fun _ _ _ hi hc hs => inv_step hi (fun _ => hc) hs

/-- What the handshake promises in a state `s` of the machine. -/
structure HandshakeSafe (s : Cores C W) : Prop where
  /-- A thread is on a run queue or inbox exactly when it is Ready and no idle thread. -/
  queued : ∀ t, (∃ i, t ∈ s.queues i) ↔ s.stateOf t = some .ready ∧ ¬ IsIdle s.cores t
  /-- It is then on one queue, and there once. -/
  queued_once : ∀ t i j, t ∈ s.queues i → t ∈ s.queues j → i = j ∧ (s.queues i).count t = 1
  current_once : ∀ c c' core core', s.cores c = some core → s.cores c' = some core' →
    core.current = core'.current → c = c'
  /-- What a core switches in stands on no core: its context has been saved. -/
  switchIn_saved : ∀ c core core' s', s.cores c = some core → s.step (.schedule c) = some s' →
    s'.cores c = some core' → core'.current ≠ core.current → s.onCpuOf core'.current = false
  pending : ∀ t th, s.threads t = some th → th.handshake.wakePending = true →
    th.handshake.state = .blocked ∧ th.handshake.onCpu = true
  /-- A wake that is owed is completed by the `finish_switch` of the core, which enqueues the
  thread. -/
  deferred_completes : ∀ c core t th s', s.cores c = some core → core.switchedFrom = some t →
    s.threads t = some th → th.handshake.wakePending = true →
    s.step (.finishSwitch c) = some s' → t ∈ s'.queues (.runq c) ∧
      ∃ th', s'.threads t = some th' ∧ th'.handshake.state = .ready ∧
        th.history.parks - 1 ∈ th'.history.completed

/-- What it promises of the parks. -/
structure ParksSafe (s : Cores C W) : Prop where
  /-- A served or aborted park is completed once, or still to be completed by the core its
  thread stands on. -/
  completed_once : ∀ t th, s.threads t = some th → ∀ k ∈ th.history.delivered,
    th.history.completed.count k = 1 ∨
    (k ∉ th.history.completed ∧ k + 1 = th.history.parks ∧ th.handshake.state = .blocked ∧
      th.handshake.wakePending = true ∧ ∃ c, t ∈ standing s.cores c)
  /-- A thread that can run again has had every park completed, and every completed park
  was served or aborted. -/
  resumes_delivered : ∀ t th, s.threads t = some th →
    (th.handshake.state = .ready ∨ th.handshake.state = .running) →
    ∀ k < th.history.parks, k ∈ th.history.completed ∧ k ∈ th.history.delivered

omit [DecidableEq C] [Fintype C] in
theorem Inv.completed_once (h : s.Inv True) (hth : s.threads t = some th) {k : Nat}
    (hk : k ∈ th.history.delivered) : th.history.completed.count k = 1 ∨
      (k ∉ th.history.completed ∧ k + 1 = th.history.parks ∧ th.handshake.state = .blocked ∧
        th.handshake.wakePending = true ∧ ∃ c, t ∈ standing s.cores c) := by
  have hs := h.sound t th hth
  by_cases hc : k ∈ th.history.completed
  · exact .inl (List.count_eq_one_of_mem (hs.history trivial).nodup hc)
  · obtain ⟨hlast, hb⟩ := ((hs.history trivial).owed k hk).resolve_left hc
    have hmark : th.history.parks - 1 ∈ th.history.delivered := by
      rw [show th.history.parks - 1 = k by omega]
      exact hk
    have hp := (hs.owed trivial hb).mp ((hs.marked trivial hb).mpr hmark)
    refine .inr ⟨hc, hlast, hb, hp, (h.placement.onCpu t).mpr ?_⟩
    rw [onCpuOf_eq hth]
    exact (hs.pending hp).2

theorem Inv.deferred_completes (h : s.Inv Clear) (hc : s.cores c = some core)
    (hp : core.switchedFrom = some t) (hth : s.threads t = some th)
    (hw : th.handshake.wakePending = true) (hstep : s.step (.finishSwitch c) = some s') :
    t ∈ s'.queues (.runq c) ∧ ∃ th', s'.threads t = some th' ∧ th'.handshake.state = .ready ∧
      th.history.parks - 1 ∈ th'.history.completed := by
  have hb := ((h.sound t th hth).pending hw).1
  simp only [step, hc, hp, map_some] at hstep
  cases hstep
  have hfin : th.finishSwitch = ({ th with
      handshake := { th.handshake with
        onCpu := false, wakePending := false, state := .ready, waitOn := none },
      history := th.history.complete }, .wakeCompleted) := by
    rw [CoreThread.finishSwitch, Handshake.finishSwitch, if_neg (by rw [hb]; simp), if_pos hw]
  have hget : (s.setCore c { core with switchedFrom := none }).threads t = some th := hth
  simp only [Cores.finishSwitch, hget, hfin]
  refine ⟨?_, _, update_self .., rfl, List.mem_cons_self ..⟩
  show t ∈ push s.queues (if c = c then .runq c else .inbox c) t (.runq c)
  rw [if_pos rfl]
  exact mem_push.mpr (.inr ⟨rfl, rfl⟩)

theorem Inv.handshakeSafe (h : s.Inv Clear) : s.HandshakeSafe := by
  refine
    { queued := h.placement.queued, queued_once := ?_, current_once := ?_, switchIn_saved := ?_,
      pending := fun t th hth => (h.sound t th hth).pending,
      deferred_completes := fun c core t th s' hc hp hth hw => h.deferred_completes hc hp hth hw }
  · intro t i j hi hj
    exact ⟨h.placement.exclusive.unique hi hj,
      List.count_eq_one_of_mem (h.placement.exclusive.nodup i) hi⟩
  · intro c c' core core' hc hc' hcur
    refine h.placement.standing.unique (Placement.mem_standing_current hc) ?_
    rw [hcur]
    exact Placement.mem_standing_current hc'
  · intro c core core' s' hc hstep hc' hne
    simp only [step] at hstep
    split at hstep
    case h_1 => cases hstep
    case h_2 core₁ hf =>
      obtain ⟨hc₁, hs⟩ := free_eq hf
      rw [hc] at hc₁
      cases hc₁
      obtain ⟨-, core₂, hc₂, hsw⟩ := h.schedule hc hs hstep
      rw [hc'] at hc₂
      cases hc₂
      exact hsw.resolve_left hne

omit [DecidableEq C] [Fintype C] in
theorem Inv.parksSafe (h : s.Inv True) : s.ParksSafe := by
  refine ⟨fun t th hth k hk => h.completed_once hth hk, fun t th hth hst k hk => ?_⟩
  have hs := (h.sound t th hth).history trivial
  have hcompleted : k ∈ th.history.completed := by
    refine (hs.completed k hk).resolve_right ?_
    rintro ⟨-, hb | hf⟩
    · rcases hst with he | he <;> rw [he] at hb <;> cases hb
    · rcases hst with he | he <;> rw [he] at hf <;> cases hf
  exact ⟨hcompleted, hs.delivered k hcompleted⟩

omit [Fintype C] in
theorem switchTo_isSome {st : RunState} (hst : s.stateOf t = some st)
    (hs : s'.threads t = s.threads t) : (s'.switchTo c core t).isSome := by
  obtain ⟨th, hth, -⟩ := map_eq_some_iff.mp hst
  simp [switchTo, hs, hth]

/-- A core that has no switch to finish has something to run: its own current thread, one from its
queue, or its idle thread. -/
theorem Inv.schedule_isSome (h : s.Inv Clear) (hf : s.free c = some core) :
    (s.step (.schedule c)).isSome := by
  obtain ⟨hc, -⟩ := free_eq hf
  obtain ⟨cur, hcur, -⟩ := h.current_thread hc
  have hkill := (h.takeKill hcur).placement
  simp only [step, hf, Cores.schedule, hcur]
  generalize (if cur.killed ∧ cur.handshake.state = .running then cur.setState .finished
    else cur) = cur' at hkill ⊢
  split
  case h_1 next rest hq =>
    have hnext := ((hkill.queued next).mp ⟨.runq c, hq ▸ List.mem_cons_self ..⟩).1
    split_ifs with hself
    · rfl
    · exact switchTo_isSome hnext (update_of_ne hself ..)
    · exact switchTo_isSome hnext rfl
  case h_2 =>
    split_ifs with hrun hidle
    · rfl
    · -- an idle thread that its core runs is Running
      rcases hkill.idle c core hc with hi | ⟨-, hi⟩
      · rw [stateOf_setThread, ← hidle, update_self] at hi
        exact absurd (Option.some.inj hi) hrun
      · rw [← hidle, hkill.on_current hc] at hi
        cases hi
    · rcases hkill.idle c core hc with hi | ⟨hi, -⟩
      all_goals exact switchTo_isSome hi rfl

/-- **No core panics in `schedule`**, and no two cores stand on one thread: what a core runs is on
its queue no longer and on no other core, and its idle thread is never queued and never leaves. -/
theorem schedule_safe {c₀ : C} (hreach : Transition.Reach step (fun _ _ => True) (boot c₀) s)
    (hf : s.free c = some core) :
    (s.step (.schedule c)).isSome ∧ core.current ∉ s.queues (.runq c) ∧
      (∀ c', core.current ∈ standing s.cores c' → c' = c) ∧
      (∀ i, core.idle ∉ s.queues i) ∧ ∀ c', core.idle ∈ standing s.cores c' → c' = c := by
  have h := inv_reach hreach
  have hp := h.placement
  obtain ⟨hc, -⟩ := free_eq hf
  refine ⟨h.schedule_isSome hf, fun hq => ?_, fun c' hc' => ?_, fun i hi => ?_,
    fun c' => hp.idle_home c c' core hc⟩
  · exact hp.current_not_ready hc ((hp.queued _).mp ⟨_, hq⟩).1
  · exact hp.standing.unique hc' (mem_standing_current hc)
  · exact ((hp.queued _).mp ⟨i, hi⟩).2 ⟨c, core, hc, rfl⟩

end Cores

/-- Two cores; a thread is spawned into the second core's inbox, runs there, parks, and is
served from the first core before the second has finished switching away from it. -/
def deferredRun : List (CoresAction (Fin 2) Unit) :=
  [.adoptSecondaryIdle 1 2, .spawnOn 0 1 3, .drainInbox 1, .schedule 1, .finishSwitch 1,
    .park 1 (), .schedule 1, .serve 0 0 3]

theorem Cores.schedule_safe_deferred :
    ∃ (s : Cores (Fin 2) Unit) (core : Core), Transition.Reach step (fun _ _ => True) (boot 0) s ∧
      s.free 0 = some core ∧ (s.step (.schedule 0)).isSome := by
  have hrun : (Transition.run step (boot 0) deferredRun).any fun s => (s.free 0).isSome := by decide
  obtain ⟨s, hs, hfree⟩ := (Option.any_eq_true _ _).mp hrun
  obtain ⟨core, hcore⟩ := isSome_iff_exists.mp hfree
  have hreach := Transition.Reach.of_run _ hs
  exact ⟨s, core, hreach, hcore, (schedule_safe hreach hcore).1⟩

end Nife
