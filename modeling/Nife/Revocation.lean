/-
Revoked page frames stay revoked.  A sweep (`delete_page_frame_caps`, or its overlapping form)
empties every capability table and every hand-off slot of the run it names, in one hold of the
scheduler lock.  What it cannot see is a capability that a system call has copied into its
registers in an earlier hold and installs in a later one.

`frames_stay_revoked` says that this is the only gap: in a run where no sweep finds another
system call with such a capability in hand, or with a region that it may be carving pages from, a
page frame named by a sweep is at large afterwards only if a `RETYPE` or a `SLICE` that began later
minted it.  `sendCap_outlives_sweep` is the gap.
-/
import Nife.CapFlow

namespace Nife

open Transition (Reach)

/-- The page frames a sweep's pages overlap: those it deletes, and those a `SLICE` could make
one of. -/
def FrameSweep.touches : FrameSweep → Object → Bool
  | .run phys count, .pageFrame p c => p < phys + count.val * 4096 && phys < p + c.val * 4096
  | .run _ _, _ => false
  | .overlapping base size, o => (FrameSweep.overlapping base size).hits o

variable {w : FrameSweep}

theorem FrameSweep.touches_of_slice {phys first : Nat} {count len : ℕ+}
    (hle : first + len ≤ (count : Nat)) (h : w.hits (.pageFrame (phys + first * 4096) len) = true) :
    w.touches (.pageFrame phys count) = true := by
  have hlen := len.pos
  rcases w with ⟨p, c⟩ | ⟨base, size⟩
  · simp only [FrameSweep.hits, decide_eq_true_eq] at h
    cases h
    simp only [FrameSweep.touches, Bool.and_eq_true, decide_eq_true_eq]
    omega
  · simp only [FrameSweep.hits, Bool.and_eq_true, decide_eq_true_eq] at h
    simp only [FrameSweep.touches, FrameSweep.hits, Bool.and_eq_true, decide_eq_true_eq]
    omega

theorem FrameSweep.touches_of_hits {o : Object} (h : w.hits o = true) : w.touches o = true := by
  rcases w with ⟨p, c⟩ | ⟨base, size⟩
  · simp only [FrameSweep.hits, decide_eq_true_eq] at h
    subst h
    have hpos := c.pos
    simp only [FrameSweep.touches, Bool.and_eq_true, decide_eq_true_eq]
    omega
  · exact h

theorem FrameSweep.hits_eq_false {o : Object} (h : w.touches o = false) : w.hits o = false := by
  by_contra hhit
  rw [touches_of_hits (by simpa using hhit)] at h
  cases h

/-- A memory region that may be spent. -/
def Cap.spends (c : Cap) : Bool :=
  match c.object with
  | .memoryRegion _ => c.rights.allows .write
  | _ => false

/-- A system call in progress may yet install a page frame that `w` deletes: it has copied a frame
that `w` touches and not let go of it, or it has invoked a region, which it may be retyping. -/
def Context.mayYield (w : FrameSweep) (c : Context) : Bool :=
  c.cap.any fun cap => w.touches cap.object ||
    match c with
    | .invoking _ _ _ => cap.spends
    | _ => false

namespace IpcTables

variable {s s' : IpcTables} {a : IpcAction}

section

variable (s : IpcTables)

/-- Some system call has in its registers a capability that may yet become one that `w` deletes. -/
def frameInHand (w : FrameSweep) : Bool :=
  (s.threads.find fun th => th.context.mayYield w).isSome

/-- Apart from the system call that sweeps, none has anything of the sweep's run in hand. -/
def noFrameInHand : IpcAction → Bool
  | .sweep t w => !(s.setContext t .user).frameInHand w
  | _ => true

/-- Whatever a sweep at time `at_` would delete is gone from every table and hand-off slot, or
was minted after it.  (Nothing is younger than the clock: right after the sweep it is gone.) -/
def Revoked : Prop :=
  ∀ at_ w, Event.swept at_ w ∈ s.trace → ∀ t th, s.threads.get t = some th →
    (∀ i c, th.capabilityTable.slots i = some c → w.hits c.object →
      at_ < c.born ∧ c.born ≤ s.clock) ∧
    (∀ c, th.outgoingCap = some c → w.hits c.object → at_ < c.born ∧ c.born ≤ s.clock)

/-! ### The invariant -/

/-- Minted after every sweep of `W` that would delete it. -/
def MintedSince (W : Nat → FrameSweep → Prop) (c : Cap) : Prop :=
  ∀ at_ w, W at_ w → w.hits c.object = true → at_ < c.born

/-- Invoked after every sweep of `W` that touches it, and after every sweep if it may be spent. -/
def InvokedSince (W : Nat → FrameSweep → Prop) (c : Cap) (since : Nat) : Prop :=
  ∀ at_ w, W at_ w → (w.touches c.object || c.spends) = true → at_ < since

/-- The sweeps that have run. -/
def sweptIn (at_ : Nat) (w : FrameSweep) : Prop := Event.swept at_ w ∈ s.trace

/-- Capabilities named by a sweep are younger than it, and sweeps lie in the past.  No
capability is younger than the clock. -/
def RevokedInv : Prop :=
  s.CapsOk (fun c => MintedSince s.sweptIn c ∧ c.born ≤ s.clock)
    (fun c since => InvokedSince s.sweptIn c since ∧ since ≤ s.clock)
    (fun at_ w => s.sweptIn at_ w ∧ at_ ≤ s.clock) s.clock

end

theorem RevokedInv.revoked (h : s.RevokedInv) : s.Revoked := by
  intro at_ w hw t th hth
  refine ⟨fun i c hc hhit => ?_, fun c hc hhit => ?_⟩
  · obtain ⟨hmint, hborn⟩ := (h.1 t th hth).table i c hc
    exact ⟨hmint at_ w hw hhit, hborn⟩
  · obtain ⟨hmint, hborn⟩ := (h.1 t th hth).outgoing c hc
    exact ⟨hmint at_ w hw hhit, hborn⟩

theorem revokedInv_initial (h : s.Initial) : s.RevokedInv := by
  have hnone : ∀ at_ w, ¬ s.sweptIn at_ w := by
    intro at_ w hw
    rw [sweptIn, h.trace] at hw
    cases hw
  refine ⟨fun t th hth => ?_, fun at_ w hw => absurd hw (hnone at_ w), rfl⟩
  have hf := h.threads t th hth
  have hctx := hf.context
  refine ⟨fun i c hc => ?_, fun c hc => ?_, fun c hc => ?_, fun slot c since hc => ?_⟩
  · refine ⟨fun at_ w hw => absurd hw (hnone at_ w), ?_⟩
    rw [(hf.caps i c hc).2.2]
    exact Nat.zero_le _
  · rw [hf.outgoing] at hc
    cases hc
  all_goals
    rw [hctx] at hc
    cases hc

/-! ### One step -/

theorem mayYield_eq_false {t : ThreadId} {th : Thread} (hw : s.frameInHand w = false)
    (hth : s.threads.get t = some th) : th.context.mayYield w = false := by
  have hnone := Table.find_eq_none (Option.not_isSome_iff_eq_none.mp (by simpa [frameInHand] using hw)) hth
  simpa using hnone

theorem untouched_of_mayYield {x : Context} {c : Cap} (h : x.mayYield w = false)
    (hc : x.cap = some c) : w.touches c.object = false := by
  rw [Context.mayYield, hc] at h
  simp only [Option.any_some, Bool.or_eq_false_iff] at h
  exact h.1

/-- The sweeps that have run after one more. -/
theorem sweptIn_delete {at_ : Nat} {v : FrameSweep}
    (hv : (deletePageFrameCaps { s with clock := s.clock + 1 } w).sweptIn at_ v) :
    (at_ = s.clock + 1 ∧ v = w) ∨ s.sweptIn at_ v := by
  rcases List.mem_cons.mp hv with heq | hv
  · simp only [Event.swept.injEq] at heq
    exact .inl heq
  · exact .inr hv

/-- A sweep: afterwards nothing at large is hit by it. -/
theorem RevokedInv.sweep (h : s.RevokedInv) (hw : s.frameInHand w = false) :
    (deletePageFrameCaps { s with clock := s.clock + 1 } w).RevokedInv := by
  have hclean : ∀ c, MintedSince s.sweptIn c ∧ c.born ≤ s.clock → w.hits c.object = false →
      MintedSince (deletePageFrameCaps { s with clock := s.clock + 1 } w).sweptIn c ∧
        c.born ≤ s.clock + 1 := by
    intro c hc hmiss
    refine ⟨fun at_ v hv hhit => ?_, Nat.le_succ_of_le hc.2⟩
    rcases sweptIn_delete hv with ⟨-, rfl⟩ | hold
    · rw [hmiss] at hhit
      cases hhit
    · exact hc.1 at_ v hold hhit
  refine ⟨fun t th hth => ?_, fun at_ v hv => ⟨hv, ?_⟩, rfl⟩
  · obtain ⟨old, hold, rfl⟩ := Option.map_eq_some_iff.mp ((Table.get_map ..).symm.trans hth)
    have hok := h.1 t old hold
    refine ⟨fun i c hc => ?_, fun c hc => ?_, fun c hc => ?_, fun slot c since hc => ?_⟩
    · obtain ⟨hin, hout⟩ := CapabilityTable.deleteMatching_mem hc
      exact hclean c (hok.table i c hin) hout
    · obtain ⟨hin, hout⟩ := Option.filter_eq_some_iff.mp hc
      exact hclean c (hok.outgoing c hin) (by simpa using hout)
    · have huntouched := untouched_of_mayYield (mayYield_eq_false hw hold) hc
      exact hclean c (hok.held c hc) (FrameSweep.hits_eq_false huntouched)
    · have hq := hok.invoking slot c since hc
      have hctx : old.context = .invoking slot c since := hc
      refine ⟨fun at_ v hv ht => ?_, Nat.le_succ_of_le hq.2⟩
      rcases sweptIn_delete hv with ⟨-, rfl⟩ | hv
      · have hno := mayYield_eq_false hw hold
        rw [hctx] at hno
        rw [show (Context.invoking slot c since).mayYield v = (v.touches c.object || c.spends) from
          rfl, ht] at hno
        cases hno
      · exact hq.1 at_ v hv ht
  · show at_ ≤ s.clock + 1
    rcases sweptIn_delete hv with ⟨rfl, -⟩ | hold
    · exact Nat.le_refl _
    · exact Nat.le_succ_of_le (h.2.1 at_ v hold).2

/-- Every other critical section only moves capabilities. -/
theorem RevokedInv.move (h : s.RevokedInv) (ha : ∀ t w, a ≠ .sweep t w)
    (hs : s.step a = some s') : s'.RevokedInv := by
  have htick : CapsOk (fun c => MintedSince s.sweptIn c ∧ c.born ≤ s.clock + 1)
      (fun c since => InvokedSince s.sweptIn c since ∧ since ≤ s.clock + 1)
      (fun at_ w => s.sweptIn at_ w ∧ at_ ≤ s.clock) (s.clock + 1)
      { s with clock := s.clock + 1 } := by
    have hm : CapsOk (fun c => MintedSince s.sweptIn c ∧ c.born ≤ s.clock + 1)
        (fun c since => InvokedSince s.sweptIn c since ∧ since ≤ s.clock + 1)
        (fun at_ w => s.sweptIn at_ w ∧ at_ ≤ s.clock) s.clock s :=
      h.mono (fun c hc => ⟨hc.1, Nat.le_succ_of_le hc.2⟩)
        (fun c n hc => ⟨hc.1, Nat.le_succ_of_le hc.2⟩) (fun at_ w hw => hw)
    exact ⟨hm.1, hm.2.1, rfl⟩
  have hlater : ∀ at_ w, s.sweptIn at_ w → at_ < s.clock + 1 :=
    fun at_ w hw => Nat.lt_succ_of_le (h.2.1 at_ w hw).2
  have hreply : ∀ u k, MintedSince s.sweptIn (Cap.reply u k) ∧ (Cap.reply u k).born ≤ s.clock + 1 := by
    refine fun u k => ⟨fun at_ w hw hhit => ?_, Nat.zero_le _⟩
    rcases w with ⟨p, c⟩ | ⟨base, size⟩
    all_goals simp [FrameSweep.hits, Cap.reply] at hhit
  have hs' := htick.section_ (fun c r k _ hc => hc) hreply
    (fun c _ => ⟨fun at_ w hw _ => hlater at_ w hw, le_refl _⟩)
    (fun region rights k born since phys count hq hwrite =>
      ⟨fun at_ w hw _ => hq.1 at_ w hw (by simp [Cap.spends, hwrite]), hq.2⟩)
    (fun phys count rights k born since first len hq _ hle =>
      ⟨fun at_ w hw hhit => hq.1 at_ w hw (by simp [FrameSweep.touches_of_slice hle hhit]), hq.2⟩)
    (fun t w hw => absurd hw (ha t w)) hs
  -- no sweep ran, so what is known of the sweeps before is known of those now
  have hclock : s'.clock = s.clock + 1 := hs'.2.2
  have hold : ∀ at_ w, s'.sweptIn at_ w → s.sweptIn at_ w := fun at_ w hw => (hs'.2.1 at_ w hw).1
  have hfin : CapsOk (fun c => MintedSince s'.sweptIn c ∧ c.born ≤ s'.clock)
      (fun c since => InvokedSince s'.sweptIn c since ∧ since ≤ s'.clock)
      (fun at_ w => at_ ≤ s'.clock) (s.clock + 1) s' :=
    hs'.mono (fun c hc => ⟨fun at_ w hw => hc.1 at_ w (hold at_ w hw), hclock ▸ hc.2⟩)
      (fun c n hc => ⟨fun at_ w hw => hc.1 at_ w (hold at_ w hw), hclock ▸ hc.2⟩)
      (fun at_ w hw => hclock ▸ Nat.le_succ_of_le hw.2)
  exact ⟨hfin.1, fun at_ w hw => ⟨hw, hfin.2.1 at_ w hw⟩, rfl⟩

/-- Leaving a system call lets go of what it had in hand. -/
theorem RevokedInv.leave (h : s.RevokedInv) (t : ThreadId) : (s.setContext t .user).RevokedInv :=
  CapsOk.setContext h t rfl

theorem RevokedInv.step (h : s.RevokedInv) (ha : s.noFrameInHand a = true)
    (hs : s.step a = some s') : s'.RevokedInv := by
  by_cases hsweep : ∃ t w, a = .sweep t w
  · obtain ⟨t, w, rfl⟩ := hsweep
    simp only [IpcTables.step, section_] at hs
    split_ifs at hs
    rw [← Option.some.inj hs]
    exact (h.leave t).sweep (by simpa [noFrameInHand] using ha)
  · exact h.move (fun t w hw => hsweep ⟨t, w, hw⟩) hs

/-! ### Runs -/

/-- One endpoint; a server holding it for reading, a client holding it for writing and a page frame
it may pass on, and the owner of that frame. -/
def delegationStart : IpcTables :=
  .start
    [.running [⟨.rendezvous 0 0, .read, 0, 0⟩] 0x10000,
      .running [⟨.rendezvous 0 0, .write, 0, 0⟩, ⟨.pageFrame 0x50000 1, .all, 0, 0⟩] 0x20000,
      .running [⟨.pageFrame 0x50000 1, .all, 0, 0⟩] 0x40000]
    [⟨0x30000, .new⟩] (by decide) (by decide)

theorem initial_delegationStart : delegationStart.Initial := by
  apply initial_start
  · intro th hth
    simp only [List.mem_cons, List.not_mem_nil, or_false] at hth
    rcases hth with rfl | rfl | rfl
    all_goals exact Thread.fresh_running (by decide)
  · decide

/-- **Revoked frames stay revoked** in every run whose sweeps find nothing of their run in the hands
of another system call: in every state reached, no table and no hand-off slot holds a page frame that a sweep
named, unless a `RETYPE` or `SLICE` that began after the sweep minted it. -/
theorem frames_stay_revoked {s₀ : IpcTables} (h₀ : s₀.Initial)
    (h : Reach IpcTables.step (fun s a => s.noFrameInHand a = true) s₀ s) : s.Revoked :=
  (h.invariant RevokedInv (revokedInv_initial h₀) fun _ _ _ hi hc hs => hi.step hc hs).revoked

/-- The frame is delivered, and then its owner revokes it: the receiver has lost it again. -/
theorem frames_stay_revoked_delivered :
    ∃ s, Reach IpcTables.step (fun s a => s.noFrameInHand a = true) delegationStart s ∧
      Event.swept 7 (.run 0x50000 1) ∈ s.trace ∧ s.Revoked := by
  have hrun : (Transition.runIf IpcTables.step (fun s a => s.noFrameInHand a = true)
      delegationStart [.invoke 0 0, .receiveCap 0, .invoke 1 0, .lookupDelegated 1 1 7,
        .sendCap 1 0, .invoke 2 0, .sweep 2 (.run 0x50000 1)]).any
      (fun s => decide (Event.swept 7 (.run 0x50000 1) ∈ s.trace)) = true := by decide
  obtain ⟨s, hs, hswept⟩ := (Option.any_eq_true _ _).mp hrun
  have hreach := Reach.of_runIf _ hs
  exact ⟨s, hreach, of_decide_eq_true hswept, frames_stay_revoked initial_delegationStart hreach⟩

/-- The server waits; the client has copied the frame when its owner revokes it, and sends it. -/
def delegationRace : List IpcAction :=
  [.invoke 0 0, .receiveCap 0, .invoke 1 0, .lookupDelegated 1 1 7, .invoke 2 0,
    .sweep 2 (.run 0x50000 1), .sendCap 1 0]

/-- **The gap.**  A `SEND_CAP` that copied its capability before the sweep installs it after:
the revoked frame is back in a table. -/
theorem sendCap_outlives_sweep :
    ∃ s₀ s, s₀.Initial ∧ Reach IpcTables.step (fun _ _ => True) s₀ s ∧ ¬ s.Revoked := by
  have hrun : (Transition.run IpcTables.step delegationStart delegationRace).any (fun s =>
    decide (Event.swept 6 (.run 0x50000 1) ∈ s.trace) &&
      (s.threads.get 0).any fun th => (th.capabilityTable.slots ⟨1, by decide⟩).any fun c =>
        decide (c.object = .pageFrame 0x50000 1 ∧ c.born = 0)) = true := by decide
  obtain ⟨s, hs, hbad⟩ := (Option.any_eq_true _ _).mp hrun
  simp only [Bool.and_eq_true, decide_eq_true_eq, Option.any_eq_true] at hbad
  obtain ⟨hswept, th, hth, c, hc, hobj, hborn⟩ := hbad
  refine ⟨delegationStart, s, initial_delegationStart, Reach.of_run _ hs, fun hrev => ?_⟩
  have hlt := (hrev 6 _ hswept 0 th hth).1 _ c hc (by rw [hobj]; rfl)
  rw [hborn] at hlt
  exact absurd hlt.1 (by decide)

end IpcTables

end Nife
