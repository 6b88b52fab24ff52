/-
One thread alone: its handshake flags agree with its run state and, if it reads every abort
before it parks again, with the history of its parks.  `CoreThread.Sound.deliver` is the law
of a delivery and its wake, `CoreThread.Sound.tryWake` that of a wake with no delivery, and
`CoreThread.Sound.finishSwitch` that of the switch that completes an owed wake.

`Clear` is whether the run keeps to that condition.  What does not depend on it holds in
every run, so both are one proof.
-/
import Nife.Cores

namespace Nife

open List CoreThread Handshake

variable {W : Type*} {Clear : Prop}

/-- The history agrees with itself and with where the thread is: no park is completed
twice, none that was not delivered, and a thread that can run again has completed all of
them. -/
structure ParkHistory.Sound (h : ParkHistory) (state : RunState) : Prop where
  nodup : h.completed.Nodup
  delivered : ∀ k ∈ h.completed, k ∈ h.delivered
  bound : ∀ k ∈ h.delivered, k < h.parks
  completed : ∀ k < h.parks, k ∈ h.completed ∨
    (k + 1 = h.parks ∧ (state = .blocked ∨ state = .finished))
  /-- A delivery that completed nothing yet is for the park the thread is still in. -/
  owed : ∀ k ∈ h.delivered, k ∈ h.completed ∨ (k + 1 = h.parks ∧ state = .blocked)
  /-- The park a Blocked thread is in is its last, and is not completed. -/
  open_park : state = .blocked → ∃ k, h.parks = k + 1 ∧ k ∉ h.completed

/-- The flags of a thread agree with its run state, and with its history if every park began with
the aborted flag clear. -/
structure CoreThread.Sound (Clear : Prop) (th : CoreThread W) : Prop where
  pending : th.handshake.wakePending = true →
    th.handshake.state = .blocked ∧ th.handshake.onCpu = true
  waits : th.handshake.state = .blocked → th.handshake.waitOn.isSome
  /-- A delivered park that is still open waits for its core to finish the switch. -/
  owed : Clear → th.handshake.state = .blocked →
    (th.handshake.isDelivered = true ↔ th.handshake.wakePending = true)
  history : Clear → th.history.Sound th.handshake.state
  marked : Clear → th.handshake.state = .blocked →
    (th.handshake.isDelivered = true ↔ th.history.parks - 1 ∈ th.history.delivered)

namespace ParkHistory.Sound

variable {h : ParkHistory} {st st' : RunState}

theorem new (st : RunState) (hst : st ≠ .blocked) : ParkHistory.new.Sound st where
  nodup := nodup_nil
  delivered := by intro k hk; cases hk
  bound := by intro k hk; cases hk
  completed := by intro k hk; cases hk
  owed := by intro k hk; cases hk
  open_park hb := absurd hb hst

/-- A thread whose parks are all completed keeps a sound history in any state but
Blocked. -/
theorem restate (hs : h.Sound st) (hst : st ≠ .blocked ∧ st ≠ .finished)
    (hst' : st' ≠ .blocked) : h.Sound st' where
  __ := hs
  completed k hk := by
    rcases hs.completed k hk with hc | ⟨-, hb | hf⟩
    · exact .inl hc
    · exact absurd hb hst.1
    · exact absurd hf hst.2
  owed k hk := .inl ((hs.owed k hk).resolve_right fun hb => hst.1 hb.2)
  open_park hb := absurd hb hst'

/-- Finished in place: the open park, which nothing was delivered to, stays open for
good. -/
theorem finish (hs : h.Sound st) (hopen : h.parks - 1 ∉ h.delivered) : h.Sound .finished where
  __ := hs
  completed k hk := by
    rcases hs.completed k hk with hc | ⟨hk, -⟩
    · exact .inl hc
    · exact .inr ⟨hk, .inr rfl⟩
  owed k hk := by
    rcases hs.owed k hk with hc | ⟨hlast, -⟩
    · exact .inl hc
    · rw [show k = h.parks - 1 by omega] at hk
      exact absurd hk hopen
  open_park hb := by cases hb

theorem park (hs : h.Sound .running) : h.park.Sound .blocked where
  nodup := hs.nodup
  delivered := hs.delivered
  bound k hk := Nat.lt_succ_of_lt (hs.bound k hk)
  completed k hk := by
    rcases Nat.lt_succ_iff_lt_or_eq.mp hk with hk | rfl
    · rcases hs.completed k hk with hc | ⟨-, hb | hb⟩
      · exact .inl hc
      all_goals cases hb
    · exact .inr ⟨rfl, .inl rfl⟩
  owed k hk := .inl ((hs.owed k hk).resolve_right fun hb => by cases hb.2)
  open_park _ := by
    refine ⟨h.parks, rfl, fun hk => ?_⟩
    exact lt_irrefl _ (hs.bound _ (hs.delivered _ hk))

theorem deliver (hs : h.Sound .blocked) : h.deliver.Sound .blocked where
  nodup := hs.nodup
  delivered k hk := mem_cons_of_mem _ (hs.delivered k hk)
  bound k hk := by
    obtain ⟨n, hn, -⟩ := hs.open_park rfl
    rcases mem_cons.mp hk with rfl | hk
    · show h.parks - 1 < h.parks
      omega
    · exact hs.bound k hk
  completed := hs.completed
  owed k hk := by
    obtain ⟨n, hn, -⟩ := hs.open_park rfl
    rcases mem_cons.mp hk with rfl | hk
    · refine .inr ⟨?_, rfl⟩
      show h.parks - 1 + 1 = h.parks
      omega
    · exact hs.owed k hk
  open_park := hs.open_park

theorem complete (hs : h.Sound .blocked) (hd : h.parks - 1 ∈ h.delivered) :
    h.complete.Sound .ready := by
  obtain ⟨n, hn, hopen⟩ := hs.open_park rfl
  have hlast : h.parks - 1 = n := by omega
  have hmem {k Q} (hk : k ∈ h.completed ∨ k + 1 = h.parks ∧ Q) : k ∈ h.complete.completed := by
    rcases hk with hc | ⟨hlast', -⟩
    · exact mem_cons_of_mem _ hc
    · exact mem_cons.mpr (.inl (by omega))
  refine ⟨?_, ?_, hs.bound, ?_, ?_, ?_⟩
  · show ((h.parks - 1) :: h.completed).Nodup
    rw [hlast]
    exact nodup_cons.mpr ⟨hopen, hs.nodup⟩
  · intro k hk
    rcases mem_cons.mp hk with rfl | hk
    · exact hd
    · exact hs.delivered k hk
  · exact fun k hk => .inl (hmem (hs.completed k hk))
  · exact fun k hk => .inl (hmem (hs.owed k hk))
  · intro hb
    cases hb

end ParkHistory.Sound

namespace CoreThread

variable {th : CoreThread W} {h : Handshake W} {h' : Handshake W}

theorem sound_new (hb : h.state ≠ .blocked) (hp : h.wakePending = false) :
    (new h).Sound Clear where
  pending hw := by rw [show (new h).handshake = h from rfl, hp] at hw; cases hw
  waits hs := absurd hs hb
  owed _ hs := absurd hs hb
  history _ := ParkHistory.Sound.new _ hb
  marked _ hs := absurd hs hb

section

variable (hs : th.Sound Clear)
include hs

/-- **Rewriting the handshake of a thread that is not parked.**  The parked facts are then
vacuous; what is left is that no wake is owed. -/
theorem Sound.unparked
    (hst : th.handshake.state ≠ .blocked ∧ th.handshake.state ≠ .finished)
    (hst' : h'.state ≠ .blocked) (hp : h'.wakePending = th.handshake.wakePending) :
    Sound Clear { th with handshake := h' } where
  pending hw := by
    change h'.wakePending = true at hw
    rw [hp] at hw
    exact absurd (hs.pending hw).1 hst.1
  waits hb := absurd hb hst'
  owed _ hb := absurd hb hst'
  history hclear := (hs.history hclear).restate hst hst'
  marked _ hb := absurd hb hst'

theorem Sound.setState (st : RunState)
    (hold : th.handshake.state = .running ∨ th.handshake.state = .embryo)
    (hst : st ≠ .blocked) : (th.setState st).Sound Clear := by
  refine hs.unparked ?_ hst rfl
  rcases hold with ho | ho <;> rw [ho] <;> simp

theorem Sound.switchIn (hold : th.handshake.state = .running ∨ th.handshake.state = .ready) :
    CoreThread.Sound Clear { th with handshake := th.handshake.switchIn } := by
  refine hs.unparked ?_ (by simp [Handshake.switchIn]) rfl
  rcases hold with ho | ho <;> rw [ho] <;> simp

section

variable (hold : th.handshake.state = .running)
include hold

theorem Sound.preempt : Sound Clear { th with handshake := th.handshake.preempt } :=
  hs.setState .ready (.inl hold) (by simp)

/-- A running thread may raise its aborted flag, where the name a syscall was given is stale, and
read it. -/
theorem Sound.setAborted (aborted : Bool) :
    Sound Clear { th with handshake := { th.handshake with ipcAborted := aborted } } := by
  have hst : th.handshake.state ≠ .blocked ∧ th.handshake.state ≠ .finished := by
    rw [hold]
    simp
  exact hs.unparked hst hst.1 rfl

/-- Parking arms the gate: no delivery is recorded yet, and the last one's flags are
gone. -/
theorem Sound.park (hclear : Clear → th.handshake.ipcAborted = false) (w : W) :
    (th.park w).Sound Clear := by
  have hwp : th.handshake.wakePending = false := by
    by_contra hc
    have hb := (hs.pending (by simpa using hc)).1
    rw [hold] at hb
    cases hb
  have hdel (hc : Clear) : (th.park w).handshake.isDelivered = false := by
    simp [CoreThread.park, Handshake.park, Handshake.isDelivered, hclear hc]
  have hhist (hc : Clear) : th.history.Sound .running := hold ▸ hs.history hc
  refine ⟨?_, fun _ => rfl, ?_, fun hc => (hhist hc).park, ?_⟩
  · intro hw
    change th.handshake.wakePending = true at hw
    rw [hwp] at hw
    cases hw
  · intro hc _
    rw [hdel hc, show (th.park w).handshake.wakePending = th.handshake.wakePending from rfl, hwp]
  · intro hc _
    rw [hdel hc]
    constructor
    · intro hd
      cases hd
    · intro hmem
      exact absurd ((hhist hc).bound _ hmem) (lt_irrefl _)

end

end

/-- What a wake makes of a thread: it is enqueued, which takes a parked thread off its core, or it
stays in its state and on its core. -/
def Woken (Clear : Prop) (th : CoreThread W) (woken : CoreThread W × WakeVerdict) : Prop :=
  (∃ th' v, v ≠ .queue ∧ woken = (th', v) ∧ th'.handshake.state = th.handshake.state ∧
    th'.handshake.onCpu = th.handshake.onCpu ∧ th'.killed = th.killed ∧ th'.Sound Clear) ∨
  ∃ th', woken = (th', .queue) ∧ th.handshake.state = .blocked ∧ th.handshake.onCpu = false ∧
    th'.handshake.state = .ready ∧ th'.handshake.onCpu = false ∧ th'.killed = th.killed ∧
    th'.Sound Clear

/-- **A wake with no delivery changes nothing, if the gate is armed**: it refuses an undelivered
park, and a delivered one that is still open is already owed its wake. -/
theorem Sound.tryWake (hs : th.Sound Clear) : Woken Clear th th.tryWake := by
  rcases tryWake_cases th.handshake with ⟨-, hw⟩ | ⟨-, -, -, hw⟩ |
    ⟨hb, hd, hc, hw⟩ | ⟨hb, hd, hc, hw⟩
  · exact .inl ⟨th, .notBlocked, by simp, by rw [CoreThread.tryWake, hw], rfl, rfl, rfl, hs⟩
  · exact .inl ⟨th, .refused, by simp, by rw [CoreThread.tryWake, hw], rfl, rfl, rfl, hs⟩
  · refine .inl ⟨{ th with handshake := { th.handshake with wakePending := true } }, .deferred,
      by simp, by rw [CoreThread.tryWake, hw], rfl, rfl, rfl, ?_⟩
    exact { hs with
      pending := fun _ => ⟨hb, hc⟩
      owed := fun _ _ => iff_of_true (hd (hs.waits hb)) rfl }
  · -- delivered and off its core, yet still parked: if the gate was armed, the wake is not owed, so
    -- it was never due
    have hoff : th.handshake.wakePending ≠ true := fun hp => by
      rw [(hs.pending hp).2] at hc
      cases hc
    have hunarmed : ¬ Clear := fun hclear => hoff ((hs.owed hclear hb).mp (hd (hs.waits hb)))
    refine .inr ⟨{ th with
        handshake := { th.handshake with state := .ready, waitOn := none },
        history := th.history.complete }, by rw [CoreThread.tryWake, hw], hb, hc, rfl, hc, rfl, ?_⟩
    exact ⟨fun hp => absurd hp hoff, nofun, fun hclear => absurd hclear hunarmed,
      fun hclear => absurd hclear hunarmed, fun hclear => absurd hclear hunarmed⟩

/-- The handshake `h'` is that of `th` with a delivery flag raised. -/
structure Raises (th : CoreThread W) (h' : Handshake W) : Prop where
  state : h'.state = th.handshake.state
  onCpu : h'.onCpu = th.handshake.onCpu
  wakePending : h'.wakePending = th.handshake.wakePending
  waitOn : h'.waitOn = th.handshake.waitOn
  delivered : h'.isDelivered = true

theorem raises_serve (th : CoreThread W) : Raises th th.handshake.serve :=
  ⟨rfl, rfl, rfl, rfl, by simp [Handshake.serve, Handshake.isDelivered]⟩

theorem raises_abort (th : CoreThread W) : Raises th th.handshake.abort :=
  ⟨rfl, rfl, rfl, rfl, by simp [Handshake.abort, Handshake.isDelivered]⟩

/-- **A delivery followed by its wake.**  On a parked thread off its core the park is
completed by this enqueue; on one still standing on its core the wake is owed; any other
thread keeps its state. -/
theorem Sound.deliver (hs : th.Sound Clear) (hr : Raises th h') :
    Woken Clear th (CoreThread.tryWake { th.noteDelivery with handshake := h' }) := by
  by_cases hb : th.handshake.state = .blocked
  · have hhist (hc : Clear) : th.history.Sound .blocked := hb ▸ hs.history hc
    have hnote : th.noteDelivery = { th with history := th.history.deliver } := by
      rw [noteDelivery, if_pos hb]
    rcases Handshake.tryWake_cases h' with ⟨hnb, -⟩ | ⟨-, -, hnd, -⟩ | ⟨-, -, hc, hw⟩ |
      ⟨-, -, hc, hw⟩
    · exact absurd (hr.state.trans hb) hnb
    · rw [hr.delivered] at hnd
      cases hnd
    · -- still standing on its core: the wake is owed
      refine .inl ⟨{ th.noteDelivery with handshake := { h' with wakePending := true } },
        .deferred, by simp, by rw [CoreThread.tryWake, hw], hr.state, hr.onCpu,
        by rw [hnote], ?_⟩
      rw [hnote]
      refine ⟨fun _ => ⟨hr.state.trans hb, hc⟩, fun _ => ?_, fun _ _ => ?_, fun hclear => ?_,
        fun _ _ => ?_⟩
      · show h'.waitOn.isSome
        rw [hr.waitOn]
        exact hs.waits hb
      · show h'.isDelivered = true ↔ true = true
        simp [hr.delivered]
      · show th.history.deliver.Sound h'.state
        rw [hr.state, hb]
        exact (hhist hclear).deliver
      · show h'.isDelivered = true ↔ th.history.parks - 1 ∈ (th.history.parks - 1) :: _
        simp [hr.delivered]
    · -- off its core: made ready and enqueued here, which completes the park
      refine .inr ⟨{ th.noteDelivery with
          handshake := { h' with state := .ready, waitOn := none },
          history := th.noteDelivery.history.complete }, by rw [CoreThread.tryWake, hw], hb,
        hr.onCpu ▸ hc, rfl, hc, by rw [hnote], ?_⟩
      rw [hnote]
      refine ⟨fun hp => ?_, fun hb' => ?_, fun _ hb' => ?_, fun hclear => ?_, fun _ hb' => ?_⟩
      · change h'.wakePending = true at hp
        rw [hr.wakePending] at hp
        have hon := (hs.pending hp).2
        rw [← hr.onCpu, hc] at hon
        cases hon
      · cases hb'
      · cases hb'
      · exact (hhist hclear).deliver.complete (mem_cons_self ..)
      · cases hb'
  · have hnote : th.noteDelivery = th := by rw [noteDelivery, if_neg hb]
    rw [hnote]
    have hb' : h'.state ≠ .blocked := fun h => hb (hr.state.symm.trans h)
    have hw : h'.tryWake = (h', .notBlocked) := by rw [Handshake.tryWake, if_pos hb']
    refine .inl ⟨{ th with handshake := h' }, .notBlocked, by simp,
      by rw [CoreThread.tryWake, hw], hr.state, hr.onCpu, rfl, ?_⟩
    refine ⟨fun hp => ?_, fun hc => absurd hc hb', fun _ hc => absurd hc hb', fun hclear => ?_,
      fun _ hc => absurd hc hb'⟩
    · change h'.wakePending = true at hp
      rw [hr.wakePending] at hp
      exact absurd (hs.pending hp).1 hb
    · show th.history.Sound h'.state
      rw [hr.state]
      exact hs.history hclear

theorem Sound.finishBlocked (hs : th.Sound Clear) (hb : th.handshake.state = .blocked)
    (hoff : th.handshake.onCpu = false) :
    Sound Clear { th.setState .finished with killed := true } where
  pending hp := by
    have hon := (hs.pending hp).2
    rw [hoff] at hon
    cases hon
  waits hb := by cases hb
  owed _ hb := by cases hb
  history hclear := by
    refine (hs.history hclear).finish fun hmem => ?_
    -- a delivery would be owed its wake, and so the thread still on its core
    have hon := (hs.pending ((hs.owed hclear hb).mp ((hs.marked hclear hb).mpr hmem))).2
    rw [hoff] at hon
    cases hon
  marked _ hb := by cases hb

/-- What finishing a switch does to the thread that was left: it leaves the core, and if
its wake was owed, this completes its park. -/
theorem Sound.finishSwitch (hs : th.Sound Clear) :
    (th.handshake.state = .finished ∧ ∃ th', th.finishSwitch = (th', .reap)) ∨
    (∃ th', th.finishSwitch = (th', .wakeCompleted) ∧ th.handshake.state = .blocked ∧
      th'.handshake.state = .ready ∧ th'.handshake.onCpu = false ∧ th'.killed = th.killed ∧
      th'.Sound Clear) ∨
    (∃ th', th.finishSwitch = (th', .cleared) ∧ th'.handshake.state = th.handshake.state ∧
      th'.handshake.onCpu = false ∧ th'.killed = th.killed ∧ th'.Sound Clear) := by
  rcases Handshake.finishSwitch_cases th.handshake with ⟨hf, he⟩ | ⟨-, hp, he⟩ | ⟨hf, hp, he⟩
  · exact .inl ⟨hf, th, by rw [CoreThread.finishSwitch, he]⟩
  · obtain ⟨hb, -⟩ := hs.pending hp
    have hhist (hc : Clear) : th.history.Sound .blocked := hb ▸ hs.history hc
    have heq : th.finishSwitch = ({ th with
        handshake := { th.handshake with
          onCpu := false, wakePending := false, state := .ready, waitOn := none },
        history := th.history.complete }, .wakeCompleted) := by
      rw [CoreThread.finishSwitch, he]
    refine .inr (.inl ⟨_, heq, hb, rfl, rfl, rfl, ?_⟩)
    refine ⟨fun hc => ?_, fun hc => ?_, fun _ hc => ?_, fun hclear => ?_, fun _ hc => ?_⟩
    · cases hc
    · cases hc
    · cases hc
    · exact (hhist hclear).complete ((hs.marked hclear hb).mp ((hs.owed hclear hb).mpr hp))
    · cases hc
  · have heq : th.finishSwitch
        = ({ th with handshake := { th.handshake with onCpu := false } }, .cleared) := by
      rw [CoreThread.finishSwitch, he]
    refine .inr (.inr ⟨_, heq, rfl, rfl, rfl, ?_⟩)
    refine { hs with pending := fun hc => ?_ }
    change th.handshake.wakePending = true at hc
    rw [hp] at hc
    cases hc

end CoreThread

end Nife
