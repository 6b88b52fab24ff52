/-
Where threads are: on which queue, and on which core.  `Placement` sees of a thread only
its run state and whether its context stands on a core.  Each way a step moves threads (a
state written, an enqueue, a switch, a finished switch, a moved queue, a core brought
online) is one lemma about it.
-/
import Nife.Cores

namespace Nife

open Queues
open Function (update update_of_ne update_self)

variable {C : Type*}

/-- The threads that stand on core `c`: what it runs, and what it is still saving. -/
def standing (cores : C → Option Core) (c : C) : List Nat :=
  match cores c with
  | none => []
  | some core => core.current :: core.switchedFrom.toList

/-- Where threads are, by run state `st` and standing `on`. -/
structure Placement (st : Nat → Option RunState) (on : Nat → Bool) (cores : C → Option Core)
    (q : QueueName C → List Nat) : Prop where
  /-- No thread is on two queues, or twice on one. -/
  exclusive : Exclusive q
  /-- On a queue are exactly the Ready threads, idle threads apart. -/
  queued : ∀ t, Mem q t ↔ st t = some .ready ∧ ¬ IsIdle cores t
  /-- No thread stands on two cores, or twice on one. -/
  standing : Exclusive (standing cores)
  onCpu : ∀ t, Mem (Nife.standing cores) t ↔ on t = true
  present : ∀ t, on t = true → st t ≠ none
  embryo : ∀ t, st t = some .embryo → on t = false
  idle : ∀ c core, cores c = some core →
    st core.idle = some .running ∨ (st core.idle = some .ready ∧ on core.idle = false)
  idle_inj : ∀ c c' core core', cores c = some core → cores c' = some core' →
    core.idle = core'.idle → c = c'
  idle_home : ∀ c c' core, cores c = some core → core.idle ∈ Nife.standing cores c' → c' = c
  running : ∀ t, st t = some .running → on t = true ∨ IsIdle cores t
  /-- What a core has left still Running is its idle thread. -/
  left : ∀ c core t, cores c = some core → core.switchedFrom = some t →
    st t = some .running → IsIdle cores t
  /-- A Ready thread still being saved is on the queue of the core that saves it. -/
  saving : ∀ t, st t = some .ready → on t = true →
    ∃ c core, cores c = some core ∧ core.switchedFrom = some t ∧ t ∈ q (.runq c)

namespace Placement

variable {st st' : Nat → Option RunState} {on : Nat → Bool} {cores : C → Option Core}
  {q q' : QueueName C → List Nat} {c : C} {core : Core} {t : Nat}

theorem mem_standing_current (hc : cores c = some core) : core.current ∈ Nife.standing cores c := by
  simp [Nife.standing, hc]

theorem mem_standing_left (hc : cores c = some core) (hs : core.switchedFrom = some t) :
    t ∈ Nife.standing cores c := by
  simp [Nife.standing, hc, hs]

variable {core' cd : Core} {d : C}

theorem ne_of_saving (hc : cores c = some core)
    (hs : core.switchedFrom = none) (hd : cores d = some cd) (hsd : cd.switchedFrom = some t) :
    d ≠ c := by
  rintro rfl
  cases hc.symm.trans hd
  rw [hs] at hsd
  cases hsd

section

variable (h : Placement st on cores q)
include h

section

variable (hc : cores c = some core)
include hc

theorem on_current : on core.current = true :=
  (h.onCpu _).mp ⟨c, mem_standing_current hc⟩

theorem ne_current (hoff : on t = false) : t ≠ core.current := by
  rintro rfl
  rw [h.on_current hc] at hoff
  cases hoff

theorem current_not_idle (hne : core.current ≠ core.idle) : ¬ IsIdle cores core.current := by
  rintro ⟨d, cd, hd, hi⟩
  have hdc := h.idle_home d c cd hd (hi ▸ mem_standing_current hc)
  subst hdc
  rw [hc] at hd
  cases hd
  exact hne hi.symm

/-- What a core runs is never a Ready thread: it would have to be what some core has just
left, and it stands on no other core and on this one once. -/
theorem current_not_ready : st core.current ≠ some .ready := by
  intro hr
  obtain ⟨c', core', hc', hs, -⟩ := h.saving _ hr (h.on_current hc)
  have hcc := h.standing.unique (mem_standing_left hc' hs) (mem_standing_current hc)
  subst hcc
  rw [hc'] at hc
  cases hc
  have hnd := h.standing.nodup c'
  simp [Nife.standing, hc', hs] at hnd

end

/-- **One thread changes its run state**, to one that is not Running, and the queues follow
if that makes it Ready or stops it being so.  The thread is no idle thread and does not
move on or off a core. -/
theorem restate (x : Option RunState) (hidle : ¬ IsIdle cores t) (hex : Exclusive q')
    (hmem : ∀ u, Mem q' u ↔ (Mem q u ∧ u ≠ t) ∨ (u = t ∧ x = some .ready))
    (hkeep : ∀ c u, u ≠ t → u ∈ q (.runq c) → u ∈ q' (.runq c))
    (hon : on t = true → x ≠ none ∧ x ≠ some .ready ∧ x ≠ some .embryo)
    (hrun : x ≠ some .running) :
    Placement (update st t x) on cores q' := by
  have hne : ∀ {u y}, u ≠ t → (update st t x u = y ↔ st u = y) := by
    intro u y hu
    rw [update_of_ne hu]
  have hoff : x = none ∨ x = some .ready ∨ x = some .embryo → on t = false := by
    intro hx
    by_contra hc
    obtain ⟨h1, h2, h3⟩ := hon (by simpa using hc)
    rcases hx with hx | hx | hx
    exacts [h1 hx, h2 hx, h3 hx]
  refine
    { exclusive := hex, standing := h.standing, onCpu := h.onCpu, idle_inj := h.idle_inj,
      idle_home := h.idle_home, queued := ?_, present := ?_, embryo := ?_, idle := ?_,
      running := ?_, left := ?_, saving := ?_ }
  · intro u
    rw [hmem, h.queued]
    by_cases hu : u = t
    · subst hu
      simp [hidle]
    · simp [hu]
  · intro u hu hnone
    by_cases hut : u = t
    · subst hut
      rw [update_self] at hnone
      exact (hon hu).1 hnone
    · exact h.present u hu ((hne hut).mp hnone)
  · intro u hu
    by_cases hut : u = t
    · subst hut
      rw [update_self] at hu
      exact hoff (.inr (.inr hu))
    · exact h.embryo u ((hne hut).mp hu)
  · intro c core hc
    have hni : core.idle ≠ t := fun he => hidle ⟨c, core, hc, he⟩
    rw [hne hni, hne hni]
    exact h.idle c core hc
  · intro u hu
    by_cases hut : u = t
    · subst hut
      rw [update_self] at hu
      exact absurd hu hrun
    · exact h.running u ((hne hut).mp hu)
  · intro c core u hc hs hu
    by_cases hut : u = t
    · subst hut
      rw [update_self] at hu
      exact absurd hu hrun
    · exact h.left c core u hc hs ((hne hut).mp hu)
  · intro u hu hou
    by_cases hut : u = t
    · subst hut
      rw [update_self] at hu
      rw [hoff (.inr (.inl hu))] at hou
      cases hou
    · obtain ⟨c, core, hc, hs, hq⟩ := h.saving u ((hne hut).mp hu) hou
      exact ⟨c, core, hc, hs, hkeep c u hut hq⟩

theorem not_mem (hst : st t ≠ some .ready) : ¬ Mem q t :=
  fun hm => hst ((h.queued t).mp hm).1

omit h in
theorem mem_iff_of_notMem {x : Option RunState} (hnot : ¬ Mem q t) (hx : x ≠ some .ready) (u : Nat) :
    Mem q u ↔ (Mem q u ∧ u ≠ t) ∨ (u = t ∧ x = some .ready) := by
  constructor
  · intro hu
    refine .inl ⟨hu, ?_⟩
    rintro rfl
    exact hnot hu
  · rintro (⟨hu, -⟩ | ⟨-, hr⟩)
    · exact hu
    · exact absurd hr hx

theorem setState {x y : RunState} (hy : st t = some y)
    (hyr : y ≠ .ready) (hx : x ≠ .ready) (hxe : x ≠ .embryo) (hxr : x ≠ .running)
    (hidle : ¬ IsIdle cores t) : Placement (update st t (some x)) on cores q := by
  have hnot : ¬ Mem q t := h.not_mem (by rw [hy]; simpa using hyr)
  have hmem := mem_iff_of_notMem hnot (x := some x) (by simpa using hx)
  refine h.restate (some x) hidle h.exclusive hmem (fun _ _ _ hu => hu) ?_ (by simpa using hxr)
  intro _
  exact ⟨by simp, by simpa using hx, by simpa using hxe⟩

/-- A thread that stands on no core and is neither Ready nor an idle thread comes or goes. -/
theorem create_or_remove (x : Option RunState)
    (hst : st t ≠ some .ready) (hon : on t = false) (hidle : ¬ IsIdle cores t)
    (hx : x = none ∨ x = some .embryo) : Placement (update st t x) on cores q := by
  have hnot := h.not_mem hst
  have hxr : x ≠ some .ready ∧ x ≠ some .running := by
    rcases hx with rfl | rfl <;> simp
  have hmem := mem_iff_of_notMem hnot hxr.1
  refine h.restate x hidle h.exclusive hmem (fun _ _ _ hu => hu) (fun hc => ?_) hxr.2
  rw [hon] at hc
  cases hc

/-- A name that is not in use is no idle thread and stands nowhere. -/
theorem fresh (hst : st t = none) : on t = false ∧ ¬ IsIdle cores t := by
  refine ⟨?_, ?_⟩
  · by_contra hc
    exact h.present t (by simpa using hc) hst
  · rintro ⟨c, core, hc, rfl⟩
    rcases h.idle c core hc with hi | ⟨hi, -⟩ <;> rw [hst] at hi <;> cases hi

/-- Threads move between queues, none on or off them, and none off the run queue of the
core that is still saving it. -/
theorem requeue (hex : Exclusive q') (hmem : ∀ u, Mem q' u ↔ Mem q u)
    (hkeep : ∀ c core u, cores c = some core → core.switchedFrom = some u →
      u ∈ q (.runq c) → u ∈ q' (.runq c)) : Placement st on cores q' :=
  { h with
    exclusive := hex
    queued := fun u => (hmem u).trans (h.queued u)
    saving := fun u hu hou => by
      obtain ⟨c, core, hc, hs, hq⟩ := h.saving u hu hou
      exact ⟨c, core, hc, hs, hkeep c core u hc hs hq⟩ }

end

variable [DecidableEq C]

/-- A thread that stands on no core and is not Ready becomes Ready and is put at the back
of one queue. -/
theorem enqueue (h : Placement st on cores q) (hst : st t ≠ some .ready) (hon : on t = false)
    (hidle : ¬ IsIdle cores t) (i : QueueName C) :
    Placement (update st t (some .ready)) on cores (push q i t) := by
  have hnot := h.not_mem hst
  refine h.restate (some .ready) hidle (h.exclusive.push hnot) ?_
    (fun _ _ _ hu => mem_push.mpr (.inl hu)) ?_ (by simp)
  · intro u
    rw [Mem_push]
    constructor
    · rintro (hu | rfl)
      · refine .inl ⟨hu, ?_⟩
        rintro rfl
        exact hnot hu
      · exact .inr ⟨rfl, rfl⟩
    · rintro (⟨hu, -⟩ | ⟨rfl, -⟩)
      · exact .inl hu
      · exact .inr rfl
  · intro hc
    rw [hon] at hc
    cases hc

theorem standing_update (cores : C → Option Core) (c : C) (core' : Core) :
    Nife.standing (update cores c (some core')) = update (Nife.standing cores) c
          (core'.current :: core'.switchedFrom.toList) := by
  funext d
  by_cases hd : d = c
  · subst hd
    simp [Nife.standing]
  · simp [Nife.standing, update_of_ne hd]

/-- Which threads are idle threads does not change while a core keeps its own. -/
theorem isIdle_update (hc : cores c = some core) (hi : core'.idle = core.idle) :
    IsIdle (update cores c (some core')) t ↔ IsIdle cores t := by
  constructor
  · rintro ⟨d, cd, hd, rfl⟩
    by_cases hdc : d = c
    · subst hdc
      rw [update_self, Option.mem_some_iff] at hd
      subst hd
      exact ⟨d, core, hc, hi.symm⟩
    · rw [update_of_ne hdc] at hd
      exact ⟨d, cd, hd, rfl⟩
  · rintro ⟨d, cd, hd, rfl⟩
    by_cases hdc : d = c
    · subst hdc
      rw [hc] at hd
      cases hd
      exact ⟨d, core', by rw [update_self]; rfl, hi⟩
    · exact ⟨d, cd, by rw [update_of_ne hdc]; exact hd, rfl⟩

theorem core_update (h : update cores c (some core') d = some cd) :
    (d = c ∧ cd = core') ∨ (d ≠ c ∧ cores d = some cd) := by
  by_cases hdc : d = c
  · subst hdc
    rw [update_self, Option.some.injEq] at h
    exact .inl ⟨rfl, h.symm⟩
  · rw [update_of_ne hdc] at h
    exact .inr ⟨hdc, h⟩

theorem idle_of_update (hc : cores c = some core)
    (h : update cores c (some core') d = some cd) (hi : core'.idle = core.idle) :
    ∃ cd', cores d = some cd' ∧ cd'.idle = cd.idle := by
  rcases core_update h with ⟨rfl, rfl⟩ | ⟨-, hd⟩
  · exact ⟨core, hc, hi.symm⟩
  · exact ⟨cd, hd, rfl⟩

/-- The core finishes its switch: what it left stands on it no more. -/
theorem finish (h : Placement st on cores q) (hc : cores c = some core)
    (hs : core.switchedFrom = some t) :
    Placement st (update on t false)
      (update cores c (some { core with switchedFrom := none })) q := by
  have hstand : Nife.standing cores c = [core.current, t] := by simp [Nife.standing, hc, hs]
  have hnd := h.standing.nodup c
  rw [hstand] at hnd
  have hct : core.current ≠ t := by
    rintro rfl
    simp at hnd
  have hidle : ∀ u, IsIdle (update cores c (some { core with switchedFrom := none })) u ↔
      IsIdle cores u := fun u => isIdle_update hc rfl
  -- what stands somewhere afterwards stood there before
  have hsub : ∀ d u, u ∈ update (Nife.standing cores) c [core.current] d ↔
      u ∈ Nife.standing cores d ∧ u ≠ t := by
    intro d u
    rw [mem_update]
    constructor
    · rintro (⟨rfl, hu⟩ | ⟨hdc, hu⟩)
      · rw [List.mem_singleton] at hu
        subst hu
        exact ⟨by rw [hstand]; simp, hct⟩
      · refine ⟨hu, ?_⟩
        rintro rfl
        exact hdc (h.standing.unique hu (mem_standing_left hc hs))
    · rintro ⟨hu, hut⟩
      by_cases hdc : d = c
      · subst hdc
        rw [hstand] at hu
        simp only [List.mem_cons, hut, List.not_mem_nil, or_false] at hu
        exact .inl ⟨rfl, by simpa using hu⟩
      · exact .inr ⟨hdc, hu⟩
  have hne : ∀ {u}, update on t false u = true ↔ on u = true ∧ u ≠ t := by
    intro u
    by_cases hut : u = t
    · subst hut
      simp
    · simp [hut]
  refine
    { exclusive := h.exclusive, queued := ?_, standing := ?_, onCpu := ?_, present := ?_,
      embryo := ?_, idle := ?_, idle_inj := ?_, idle_home := ?_, running := ?_, left := ?_,
      saving := ?_ }
  · intro u
    rw [h.queued, hidle]
  · rw [standing_update]
    refine h.standing.update (List.nodup_singleton _) ?_
    intro u hu
    rw [hstand]
    exact .inl (List.mem_cons.mpr (.inl (List.mem_singleton.mp hu)))
  · intro u
    rw [hne, ← h.onCpu, standing_update]
    constructor
    · rintro ⟨d, hu⟩
      obtain ⟨hu, hut⟩ := (hsub d u).mp hu
      exact ⟨⟨d, hu⟩, hut⟩
    · rintro ⟨⟨d, hu⟩, hut⟩
      exact ⟨d, (hsub d u).mpr ⟨hu, hut⟩⟩
  · intro u hu
    exact h.present u (hne.mp hu).1
  · intro u hu
    by_contra hou
    have hon := (hne.mp (by simpa using hou)).1
    rw [h.embryo u hu] at hon
    cases hon
  · intro d cd hd
    obtain ⟨cd', hd', hi⟩ := idle_of_update hc hd rfl
    rw [← hi]
    rcases h.idle d cd' hd' with hr | ⟨hr, ho⟩
    · exact .inl hr
    · refine .inr ⟨hr, ?_⟩
      by_contra hou
      have hon := (hne.mp (by simpa using hou)).1
      rw [ho] at hon
      cases hon
  · intro d d' cd cd' hd hd' hi
    obtain ⟨e, he, hei⟩ := idle_of_update hc hd rfl
    obtain ⟨e', he', hei'⟩ := idle_of_update hc hd' rfl
    exact h.idle_inj d d' e e' he he' (by rw [hei, hei', hi])
  · intro d d' cd hd hu
    rw [standing_update] at hu
    obtain ⟨e, he, hei⟩ := idle_of_update hc hd rfl
    rw [← hei] at hu
    exact h.idle_home d d' e he ((hsub d' e.idle).mp hu).1
  · intro u hu
    rw [hidle]
    by_cases hut : u = t
    · subst hut
      exact .inr (h.left c core u hc hs hu)
    · rcases h.running u hu with ho | ho
      · exact .inl (hne.mpr ⟨ho, hut⟩)
      · exact .inr ho
  · intro d cd u hd hsu hu
    rw [hidle]
    rcases core_update hd with ⟨rfl, rfl⟩ | ⟨-, hd⟩
    · cases hsu
    · exact h.left d cd u hd hsu hu
  · intro u hu hou
    obtain ⟨hou, hut⟩ := hne.mp hou
    obtain ⟨d, cd, hd, hsu, hq⟩ := h.saving u hu hou
    have hdc : d ≠ c := by
      rintro rfl
      rw [hc] at hd
      cases hd
      cases hs.symm.trans hsu
      exact hut rfl
    exact ⟨d, cd, by rw [update_of_ne hdc]; exact hd, hsu, hq⟩

omit [DecidableEq C] in
theorem on_update {u : Nat} : update on t true u = true ↔ on u = true ∨ u = t := by
  by_cases hu : u = t
  · subst hu
    simp
  · simp [hu]

section

variable (h : Placement st on cores q)
include h

/-- A thread that stood nowhere comes to stand on one core, beside what stood there. -/
theorem comes (hoff : on t = false)
    (hsub : ∀ d u, u ∈ Nife.standing (update cores c (some core')) d ↔
      u ∈ Nife.standing cores d ∨ (d = c ∧ u = t))
    (hnd : (core'.current :: core'.switchedFrom.toList).Nodup) :
    Exclusive (Nife.standing (update cores c (some core'))) ∧
      ∀ u, Mem (Nife.standing (update cores c (some core'))) u ↔ update on t true u = true := by
  constructor
  · rw [standing_update]
    refine h.standing.update hnd fun u hu => ?_
    have hu : u ∈ Nife.standing (update cores c (some core')) c := by
      rwa [standing_update, update_self]
    rcases (hsub c u).mp hu with hold | ⟨-, rfl⟩
    · exact .inl hold
    · refine .inr fun hm => ?_
      rw [(h.onCpu _).mp hm] at hoff
      cases hoff
  · intro u
    rw [on_update, ← h.onCpu]
    constructor
    · rintro ⟨d, hu⟩
      exact ((hsub d u).mp hu).imp (fun hu => ⟨d, hu⟩) And.right
    · rintro (⟨d, hu⟩ | rfl)
      · exact ⟨d, (hsub d u).mpr (.inl hu)⟩
      · exact ⟨c, (hsub c u).mpr (.inr ⟨rfl, rfl⟩)⟩

/-- **Core `c` switches to `next`**, which stands on no core: off the queue, or its own idle
thread.  What it ran either keeps its state, which is Running for the idle thread only, or
is preempted and put on its own queue. -/
theorem switch (hc : cores c = some core)
    (hs : core.switchedFrom = none) {next : Nat} (hnext : on next = false)
    (hhome : ∀ d cd, cores d = some cd → cd.idle = next → d = c)
    (hex : Exclusive q')
    (hqueued : ∀ u, Mem q' u ↔ st' u = some .ready ∧ ¬ IsIdle cores u)
    (hnew : st' next = some .running)
    (hcur : (st' core.current = st core.current ∧
        (st core.current = some .running → IsIdle cores core.current)) ∨
      (st' core.current = some .ready ∧ core.current ∈ q' (.runq c) ∧ ¬ IsIdle cores core.current))
    (hother : ∀ u, u ≠ next → u ≠ core.current → st' u = st u)
    (hkeep : ∀ d u, d ≠ c → u ∈ q (.runq d) → u ∈ q' (.runq d)) :
    Placement st' (update on next true)
      (update cores c (some { core with current := next, switchedFrom := some core.current }))
      q' := by
  have hne := h.ne_current hc hnext
  have hstand : Nife.standing cores c = [core.current] := by simp [Nife.standing, hc, hs]
  have hidle : ∀ u, IsIdle (update cores c
      (some { core with current := next, switchedFrom := some core.current })) u ↔
      IsIdle cores u := fun u => isIdle_update hc rfl
  have hsub : ∀ d u, u ∈ Nife.standing (update cores c
      (some { core with current := next, switchedFrom := some core.current })) d ↔
      u ∈ Nife.standing cores d ∨ (d = c ∧ u = next) := by
    intro d u
    rw [standing_update, mem_update]
    by_cases hdc : d = c
    · subst hdc
      simp only [hstand, Option.toList_some, List.mem_cons, List.not_mem_nil, or_false, true_and,
        ne_eq, not_true_eq_false, false_and]
      exact or_comm
    · simp [hdc]
  obtain ⟨hexStand, honStand⟩ := h.comes hnext hsub (by simpa using hne)
  -- the thread left behind is not Running, unless it is the idle thread
  have hcurIdle : st' core.current = some .running → IsIdle cores core.current := by
    intro hr
    rcases hcur with ⟨heq, hi⟩ | ⟨heq, -⟩
    · exact hi (heq ▸ hr)
    · rw [heq] at hr
      cases hr
  have hstate : ∀ u x, u ≠ next → (u = core.current → st' u = st u) → st' u = some x →
      st u = some x := by
    intro u x hun huc hu
    by_cases hucur : u = core.current
    · rw [← huc hucur, hu]
    · rw [← hother u hun hucur, hu]
  refine
    { exclusive := hex, queued := ?_, standing := hexStand, onCpu := honStand, present := ?_,
      embryo := ?_, idle := ?_, idle_inj := ?_, idle_home := ?_, running := ?_, left := ?_,
      saving := ?_ }
  · intro u
    rw [hqueued, hidle]
  · intro u hu hnone
    by_cases hun : u = next
    · subst hun
      rw [hnew] at hnone
      cases hnone
    · have hou := (on_update.mp hu).resolve_right hun
      by_cases huc : u = core.current
      · subst huc
        rcases hcur with ⟨heq, -⟩ | ⟨heq, -⟩
        · exact h.present _ hou (heq ▸ hnone)
        · rw [heq] at hnone
          cases hnone
      · rw [hother u hun huc] at hnone
        exact h.present u hou hnone
  · intro u hu
    have hun : u ≠ next := by
      rintro rfl
      rw [hnew] at hu
      cases hu
    have huc : u = core.current → st' u = st u := by
      rintro rfl
      rcases hcur with ⟨heq, -⟩ | ⟨heq, -⟩
      · exact heq
      · rw [heq] at hu
        cases hu
    rw [update_of_ne hun]
    exact h.embryo u (hstate u _ hun huc hu)
  · intro d cd hd
    obtain ⟨e, he, hei⟩ := idle_of_update hc hd rfl
    rw [← hei]
    by_cases hin : e.idle = next
    · rw [hin]
      exact .inl hnew
    · have heq : st' e.idle = st e.idle := by
        by_cases hic : e.idle = core.current
        · rcases hcur with ⟨heq, -⟩ | ⟨-, -, hni⟩
          · rw [hic, heq]
          · exact absurd ⟨d, e, he, hic⟩ hni
        · exact hother _ hin hic
      rw [heq, update_of_ne hin]
      exact h.idle d e he
  · intro d d' cd cd' hd hd' hi
    obtain ⟨e, he, hei⟩ := idle_of_update hc hd rfl
    obtain ⟨e', he', hei'⟩ := idle_of_update hc hd' rfl
    exact h.idle_inj d d' e e' he he' (by rw [hei, hei', hi])
  · intro d d' cd hd hu
    obtain ⟨e, he, hei⟩ := idle_of_update hc hd rfl
    rw [← hei] at hu
    rcases (hsub d' e.idle).mp hu with hold | ⟨rfl, hnew⟩
    · exact h.idle_home d d' e he hold
    · exact (hhome d e he hnew).symm
  · intro u hu
    rw [hidle, on_update]
    by_cases hun : u = next
    · exact .inl (.inr hun)
    · by_cases huc : u = core.current
      · subst huc
        exact .inr (hcurIdle hu)
      · rw [hother u hun huc] at hu
        exact (h.running u hu).imp_left .inl
  · intro d cd u hd hsu hu
    rw [hidle]
    rcases core_update hd with ⟨rfl, rfl⟩ | ⟨hdc, hd⟩
    · obtain rfl : core.current = u := by simpa using hsu
      exact hcurIdle hu
    · have hust := mem_standing_left hd hsu
      have hun : u ≠ next := by
        rintro rfl
        rw [(h.onCpu _).mp ⟨d, hust⟩] at hnext
        cases hnext
      have huc : u ≠ core.current := by
        rintro rfl
        exact hdc (h.standing.unique hust (mem_standing_current hc))
      rw [hother u hun huc] at hu
      exact h.left d cd u hd hsu hu
  · intro u hu hou
    have hun : u ≠ next := by
      rintro rfl
      rw [hnew] at hu
      cases hu
    have hou := (on_update.mp hou).resolve_right hun
    by_cases huc : u = core.current
    · subst huc
      rcases hcur with ⟨heq, -⟩ | ⟨-, hmem, -⟩
      · exact absurd (heq ▸ hu) (h.current_not_ready hc)
      · exact ⟨c, _, update_self .., rfl, hmem⟩
    · rw [hother u hun huc] at hu
      obtain ⟨d, cd, hd, hsu, hq⟩ := h.saving u hu hou
      have hdc := ne_of_saving hc hs hd hsu
      exact ⟨d, cd, by rw [update_of_ne hdc]; exact hd, hsu, hkeep d u hdc hq⟩

theorem adopt (hc : cores c = none) (hst : st t = none) :
    Placement (update st t (some .running)) (update on t true)
      (update cores c (some ⟨t, t, none⟩)) q := by
  obtain ⟨hoff, hni⟩ := h.fresh hst
  have hidle : ∀ u, IsIdle (update cores c (some ⟨t, t, none⟩)) u ↔ IsIdle cores u ∨ u = t := by
    intro u
    constructor
    · rintro ⟨d, cd, hd, rfl⟩
      rcases core_update hd with ⟨-, rfl⟩ | ⟨-, hold⟩
      · exact .inr rfl
      · exact .inl ⟨d, cd, hold, rfl⟩
    · rintro (⟨d, cd, hd, rfl⟩ | rfl)
      · have hdc : d ≠ c := by
          rintro rfl
          rw [hc] at hd
          cases hd
        exact ⟨d, cd, by rw [update_of_ne hdc]; exact hd, rfl⟩
      · exact ⟨c, ⟨u, u, none⟩, by rw [update_self]; rfl, rfl⟩
  have hsub : ∀ d u, u ∈ Nife.standing (update cores c (some ⟨t, t, none⟩)) d ↔
      u ∈ Nife.standing cores d ∨ (d = c ∧ u = t) := by
    intro d u
    rw [standing_update]
    by_cases hdc : d = c
    · subst hdc
      simp [Nife.standing, hc]
    · simp [hdc]
  obtain ⟨hexStand, honStand⟩ := h.comes hoff hsub (List.nodup_singleton _)
  have hne : ∀ {u x}, x ≠ RunState.running → update st t (some .running) u = some x →
      u ≠ t ∧ st u = some x := by
    intro u x hx hu
    by_cases hut : u = t
    · subst hut
      rw [update_self, Option.some.injEq] at hu
      exact absurd hu.symm hx
    · rw [update_of_ne hut] at hu
      exact ⟨hut, hu⟩
  refine
    { exclusive := h.exclusive, queued := ?_, standing := hexStand, onCpu := honStand,
      present := ?_, embryo := ?_, idle := ?_, idle_inj := ?_, idle_home := ?_, running := ?_,
      left := ?_, saving := ?_ }
  · intro u
    rw [h.queued, hidle]
    by_cases hut : u = t
    · subst hut
      simp [hst]
    · simp [hut]
  · intro u hu
    by_cases hut : u = t
    · subst hut
      simp
    · rw [update_of_ne hut]
      exact h.present u ((on_update.mp hu).resolve_right hut)
  · intro u hu
    obtain ⟨hut, hu⟩ := hne (by simp) hu
    rw [update_of_ne hut]
    exact h.embryo u hu
  · intro d cd hd
    rcases core_update hd with ⟨-, rfl⟩ | ⟨-, hold⟩
    · exact .inl (update_self ..)
    · have hit : cd.idle ≠ t := fun he => hni ⟨d, cd, hold, he⟩
      rw [update_of_ne hit, update_of_ne hit]
      exact h.idle d cd hold
  · intro d d' cd cd' hd hd' hi
    rcases core_update hd with ⟨rfl, rfl⟩ | ⟨-, hold⟩ <;>
      rcases core_update hd' with ⟨rfl, rfl⟩ | ⟨-, hold'⟩
    · rfl
    · exact absurd ⟨d', cd', hold', hi.symm⟩ hni
    · exact absurd ⟨d, cd, hold, hi⟩ hni
    · exact h.idle_inj d d' cd cd' hold hold' hi
  · intro d d' cd hd hu
    rcases (hsub d' cd.idle).mp hu with hstand | ⟨rfl, hit⟩ <;>
      rcases core_update hd with ⟨rfl, rfl⟩ | ⟨-, hold⟩
    · rw [(h.onCpu t).mp ⟨d', hstand⟩] at hoff
      cases hoff
    · exact h.idle_home d d' cd hold hstand
    · rfl
    · exact absurd ⟨d, cd, hold, hit⟩ hni
  · intro u hu
    rw [on_update, hidle]
    by_cases hut : u = t
    · exact .inl (.inr hut)
    · rw [update_of_ne hut] at hu
      exact (h.running u hu).imp .inl .inl
  · intro d cd u hd hsu hu
    rw [hidle]
    rcases core_update hd with ⟨rfl, rfl⟩ | ⟨-, hold⟩
    · cases hsu
    · by_cases hut : u = t
      · exact .inr hut
      · rw [update_of_ne hut] at hu
        exact .inl (h.left d cd u hold hsu hu)
  · intro u hu hou
    obtain ⟨hut, hu⟩ := hne (by simp) hu
    obtain ⟨d, cd, hd, hsu, hq⟩ := h.saving u hu ((on_update.mp hou).resolve_right hut)
    have hdc : d ≠ c := by
      rintro rfl
      rw [hc] at hd
      cases hd
    exact ⟨d, cd, by rw [update_of_ne hdc]; exact hd, hsu, hq⟩

end

end Placement

end Nife
