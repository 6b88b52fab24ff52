/-
Where capabilities come from.  A capability is at large in a thread's table, in its hand-off
slot, or in the registers of a system call that has copied it (`Context.cap`).  Every critical
section only moves capabilities between these places, narrows them, or mints one in a few
known ways; so a property `P` of capabilities that survives narrowing holds of all that are
at large as soon as it holds of those that are minted (`CapsOk.section_`).

`Q` is what is known of a capability whose invocation began at a given time: `SLICE` and
`RETYPE` mint from such a one.
-/
import Nife.IpcMachine

namespace Nife

open Option CapabilityTable Function

/-- The capability a system call has copied and may still hand on. -/
def Context.cap : Context → Option Cap
  | .invoking _ cap _ => some cap
  | .delegating _ _ cap => some cap
  | .inserting _ cap _ => some cap
  | .granting cap => some cap
  | _ => none

variable {P : Cap → Prop} {Q : Cap → Nat → Prop} {cap : Cap} {c : Context}

/-! ### Tables -/

namespace CapabilityTable

variable {t t' : CapabilityTable} {cap c : Cap} {slot : Nat} {i : Fin capabilityTableSlots}

theorem get_eq_some (h : t.get slot = some c) :
    ∃ i : Fin capabilityTableSlots, i.val = slot ∧ t.slots i = some c := by
  unfold get at h
  split_ifs at h with hlt
  exact ⟨⟨slot, hlt⟩, rfl, h⟩

theorem slots_fill (t : CapabilityTable) (j : Fin capabilityTableSlots) (cap : Cap) :
    (t.fill j cap).slots = update t.slots j (some cap) := rfl

theorem insert_eq_some (h : t.insert cap = some (t', slot)) :
    ∃ j, j.val = slot ∧ t.slots j = none ∧ t' = t.fill j cap := by
  obtain ⟨j, hj, heq⟩ := map_eq_some_iff.mp h
  cases heq
  exact ⟨j, rfl, by simpa using List.find?_some hj, rfl⟩

theorem insertAt_eq_some (h : t.insertAt slot cap = some (t', n)) :
    ∃ j, j.val = slot ∧ t.slots j = none ∧ t' = t.fill j cap := by
  unfold insertAt at h
  split at h
  · next hlt =>
    split_ifs at h with hfree
    simp only [Option.some.injEq, Prod.mk.injEq] at h
    exact ⟨⟨slot, hlt⟩, rfl, by simpa using hfree, h.1.symm⟩
  · cases h

theorem insertInto_eq_some {target : Option Nat} (h : t.insertInto target cap = some (t', slot)) :
    ∃ j, t.slots j = none ∧ t' = t.fill j cap := by
  unfold insertInto at h
  split at h
  · obtain ⟨j, -, hfree, hj⟩ := insert_eq_some h
    exact ⟨j, hfree, hj⟩
  · obtain ⟨j, -, hfree, hj⟩ := insertAt_eq_some h
    exact ⟨j, hfree, hj⟩

theorem install_cases (t : CapabilityTable) (cap : Cap) :
    (∃ j, t.slots j = none ∧ t.install cap = (t.fill j cap, j.val)) ∨
      t.install cap = (t, noCap) := by
  unfold install
  rcases h : t.insert cap with - | ⟨t', slot⟩
  · exact .inr rfl
  · obtain ⟨j, rfl, hfree, rfl⟩ := insert_eq_some h
    exact .inl ⟨j, hfree, rfl⟩

theorem fill_mem (h : (t.fill i cap).slots j = some c) : c = cap ∨ t.slots j = some c := by
  rw [slots_fill] at h
  rcases eq_or_ne j i with rfl | hne
  · rw [update_self, Option.some.injEq] at h
    exact .inl h.symm
  · rw [update_of_ne hne] at h
    exact .inr h

theorem install_mem (h : (t.install cap).1.slots i = some c) : c = cap ∨ t.slots i = some c := by
  rcases install_cases t cap with ⟨j, -, heq⟩ | heq
  · rw [heq] at h
    exact fill_mem h
  · rw [heq] at h
    exact .inr h

theorem deleteMatching_mem {p : Object → Bool} (h : (t.deleteMatching p).slots i = some c) :
    t.slots i = some c ∧ p c.object = false := by
  have hf : (t.slots i).filter (fun c => !p c.object) = some c := h
  rw [filter_eq_some_iff] at hf
  exact ⟨hf.1, by simpa using hf.2⟩

theorem delete_mem (h : (t.delete slot).slots i = some c) : t.slots i = some c ∧ i.val ≠ slot := by
  have hd : (if i.val = slot then none else t.slots i) = some c := h
  split_ifs at hd with hne
  exact ⟨hd, hne⟩

end CapabilityTable

/-! ### One thread -/

/-- Every capability of a thread satisfies `P`, and the one it invokes `Q`. -/
structure Thread.CapsOk (P : Cap → Prop) (Q : Cap → Nat → Prop) (t : Thread) : Prop where
  table : ∀ i c, t.capabilityTable.slots i = some c → P c
  outgoing : ∀ c, t.outgoingCap = some c → P c
  held : ∀ c, t.context.cap = some c → P c
  invoking : ∀ slot c since, t.context = .invoking slot c since → Q c since

namespace Thread.CapsOk

variable {t : Thread}

variable (h : t.CapsOk P Q)
include h

theorem serve (d : Delivery) : (t.serve d).CapsOk P Q := { h with }

theorem deliver (msg : Mailbox) (d : Delivery) : (t.deliver msg d).CapsOk P Q := { h with }

theorem park (w : Wait) : (t.park w).CapsOk P Q := { h with }

theorem wake : t.wake.CapsOk P Q := { h with }

theorem noOutgoing : CapsOk P Q { t with outgoingCap := none } :=
  { h with outgoing := nofun }

theorem setIpcAborted : t.setIpcAborted.CapsOk P Q :=
  { h with outgoing := nofun }

theorem sweep (p : Object → Bool) : (t.sweep p).CapsOk P Q where
  table i c hc := h.table i c (deleteMatching_mem hc).1
  outgoing c hc := h.outgoing c (filter_eq_some_iff.mp hc).1
  held := h.held
  invoking := h.invoking

theorem setTable {table : CapabilityTable}
    (ht : ∀ i c, table.slots i = some c → P c) : CapsOk P Q { t with capabilityTable := table } :=
  { h with table := ht }

theorem install (hP : P cap) :
    CapsOk P Q { t with capabilityTable := (t.capabilityTable.install cap).1 } := by
  apply h.setTable
  intro i c hc
  rcases install_mem hc with rfl | hold
  · exact hP
  · exact h.table i c hold

theorem setContext (hc : c.cap = none) : CapsOk P Q { t with context := c } where
  table := h.table
  outgoing := h.outgoing
  held d hd := by
    have hd' : c.cap = some d := hd
    rw [hc] at hd'
    cases hd'
  invoking slot d since hd := by
    have hd' : c = .invoking slot d since := hd
    rw [hd'] at hc
    cases hc

end Thread.CapsOk

/-! ### The tables -/

namespace IpcTables

variable {s : IpcTables} {W : Nat → FrameSweep → Prop} {k : Nat}

/-- Every capability at large satisfies `P`; the sweeps that have run are among `W`, and the
clock shows `k`. -/
def CapsOk (P : Cap → Prop) (Q : Cap → Nat → Prop) (W : Nat → FrameSweep → Prop) (k : Nat)
    (s : IpcTables) : Prop :=
  (∀ t th, s.threads.get t = some th → th.CapsOk P Q) ∧
    (∀ at_ w, Event.swept at_ w ∈ s.trace → W at_ w) ∧ s.clock = k

theorem get_modifyThread (s : IpcTables) (t : ThreadId) (f : Thread → Thread) (u : ThreadId) :
    (s.modifyThread t f).threads.get u
      = if u = t then (s.threads.get t).map f else s.threads.get u :=
  Table.get_modify s.threads t f u

namespace CapsOk

theorem mono {P' : Cap → Prop} {Q' : Cap → Nat → Prop} {W' : Nat → FrameSweep → Prop}
    (h : s.CapsOk P Q W k) (hP : ∀ c, P c → P' c) (hQ : ∀ c n, Q c n → Q' c n)
    (hW : ∀ at_ w, W at_ w → W' at_ w) : s.CapsOk P' Q' W' k := by
  refine ⟨fun t th hth => ?_, fun at_ w hw => hW at_ w (h.2.1 at_ w hw), h.2.2⟩
  have ht := h.1 t th hth
  exact ⟨fun i c hc => hP c (ht.table i c hc), fun c hc => hP c (ht.outgoing c hc),
    fun c hc => hP c (ht.held c hc), fun slot c n hc => hQ c n (ht.invoking slot c n hc)⟩

variable (h : s.CapsOk P Q W k)
include h

variable {t : ThreadId} {f : Thread → Thread} {slot : Nat} {s' : IpcTables}

theorem modifyThread (t : ThreadId)
    (hf : ∀ th, s.threads.get t = some th → th.CapsOk P Q → (f th).CapsOk P Q) :
    (s.modifyThread t f).CapsOk P Q W k := by
  refine ⟨fun u th hu => ?_, h.2⟩
  rw [get_modifyThread] at hu
  split at hu
  · obtain ⟨old, hold, rfl⟩ := map_eq_some_iff.mp hu
    exact hf old hold (h.1 t old hold)
  · exact h.1 u th hu

theorem mapThreads (hf : ∀ th, th.CapsOk P Q → (f th).CapsOk P Q) :
    (s.mapThreads f).CapsOk P Q W k := by
  refine ⟨fun u th hu => ?_, h.2⟩
  unfold IpcTables.mapThreads at hu
  rw [Table.get_map] at hu
  obtain ⟨old, hold, rfl⟩ := map_eq_some_iff.mp hu
  exact hf old (h.1 u old hold)

theorem removeThread (t : ThreadId) : (s.removeThread t).CapsOk P Q W k := by
  refine ⟨fun u th hu => ?_, h.2⟩
  unfold IpcTables.removeThread at hu
  rw [Table.get_remove] at hu
  split_ifs at hu
  exact h.1 u th hu

theorem log {e : Event} (he : ∀ at_ w, e ≠ .swept at_ w) : (s.log e).CapsOk P Q W k := by
  refine ⟨h.1, fun at_ w hw => ?_, h.2.2⟩
  rcases List.mem_cons.mp hw with heq | hw
  · exact absurd heq.symm (he at_ w)
  · exact h.2.1 at_ w hw

section

variable (t : ThreadId)

theorem setIpcAborted : (s.setIpcAborted t).CapsOk P Q W k :=
  h.modifyThread t fun _ _ ht => ht.setIpcAborted

theorem setIpcRefused : (s.setIpcRefused t).CapsOk P Q W k :=
  h.modifyThread t fun _ _ ht => { ht with }

theorem wake : (s.wake t).CapsOk P Q W k :=
  h.modifyThread t fun _ _ ht => ht.wake

theorem deliver (msg : Mailbox) (d : Delivery) : (s.deliver t msg d).CapsOk P Q W k :=
  CapsOk.wake (h.modifyThread t fun _ _ ht => ht.deliver msg d) t

theorem setContext (hc : c.cap = none) : (s.setContext t c).CapsOk P Q W k :=
  h.modifyThread t fun _ _ ht => ht.setContext hc

theorem setState (st : RunState) : (s.setState t st).CapsOk P Q W k :=
  h.modifyThread t fun _ _ ht => { ht with }

theorem begin_ : (s.begin_ t).CapsOk P Q W k :=
  h.modifyThread t fun _ _ ht => { ht with }

theorem receiveNow (d : Delivery) (msg : Mailbox) : (s.receiveNow t d msg).1.CapsOk P Q W k :=
  h.modifyThread t fun _ _ ht => { ht with }

theorem return_ (op : IpcOp) (r : IpcResult) : (s.return_ t op r).CapsOk P Q W k := by
  unfold IpcTables.return_
  split
  · exact h
  · refine modifyThread (h.log (by simp)) t fun _ _ ht => ?_
    have hc := ht.setContext (c := .user) rfl
    exact { hc with }

theorem grant (hP : P cap) : (s.grant t cap).CapsOk P Q W k :=
  h.modifyThread t fun _ _ ht => ht.install hP

theorem deleteCurrentCap (slot : Nat) : (s.deleteCurrentCap t slot).CapsOk P Q W k :=
  h.modifyThread t fun _ _ ht =>
    ht.setTable fun i c hc => ht.table i c (delete_mem hc).1

end

theorem currentCap (hc : s.currentCap t slot = some cap) : P cap := by
  obtain ⟨th, hth, hget⟩ := bind_eq_some_iff.mp hc
  obtain ⟨i, -, hi⟩ := CapabilityTable.get_eq_some hget
  exact (h.1 t th hth).table i cap hi

theorem logInstalled (u : ThreadId) (ep : RendezvousId) (id : Nat) (cap : Cap)
    (slot : Nat) : (s.logInstalled u ep id cap slot).CapsOk P Q W k := by
  unfold IpcTables.logInstalled
  split
  · exact h
  · exact h.log (by simp)

theorem deliverCap (u : ThreadId) (ep : RendezvousId) (hP : P cap)
    (msg : Nat → Mailbox) : (s.deliverCap u ep cap msg).CapsOk P Q W k := by
  unfold IpcTables.deliverCap
  split
  · exact h
  · next peer _ =>
    have hlog := h.logInstalled u ep s.clock cap (peer.capabilityTable.install cap).2
    refine CapsOk.deliver (hlog.modifyThread u fun th _ ht => ?_) u _ _
    exact { ht with table := (ht.install hP).table }

theorem takeBoundSignal {word : Nat}
    (ht : s.takeBoundSignal t = some (s', word)) : s'.CapsOk P Q W k := by
  obtain ⟨id, page, -, -, rfl⟩ := takeBoundSignal_eq_some ht
  exact h

section

variable (t : ThreadId) (ep : RendezvousId)

theorem ipcSendBadged (m0 m1 m2 badge : Nat) :
    (s.ipcSendBadged t ep m0 m1 m2 badge).1.CapsOk P Q W k := by
  unfold IpcTables.ipcSendBadged
  split
  · exact h.setIpcAborted t
  · split
    · exact deliver (s := s.setRendezvous _ _) h _ _ _
    · exact modifyThread (s := s.setRendezvous _ _) h t fun _ _ ht => { ht with }
    · exact h.setIpcRefused t

theorem ipcReceive : (s.ipcReceive t ep).1.CapsOk P Q W k := by
  unfold IpcTables.ipcReceive
  split
  · exact h.setIpcAborted t
  · split
    · next hbound => exact (h.takeBoundSignal hbound).receiveNow t _ _
    · split
      · exact receiveNow (s := s.setRendezvous _ _) h t _ _
      · dsimp only
        split
        · exact h
        · refine receiveNow ?_ t _ _
          split
          · exact wake (modifyThread (s := s.setRendezvous _ _) h _ fun _ _ ht =>
            ht.noOutgoing.serve _) _
          · split
            · exact modifyThread (s := s.setRendezvous _ _) h _ fun _ _ ht => { ht with }
            · exact h
      · exact modifyThread (s := s.setRendezvous _ _) h t fun _ _ ht => ht.park _

theorem ipcSendCap (data : Nat)
    (hP : P cap) (badge : Nat) : (s.ipcSendCap t ep data cap badge).1.CapsOk P Q W k := by
  unfold IpcTables.ipcSendCap
  split
  · exact h.setIpcAborted t
  · split
    · dsimp only
      exact deliverCap (s := s.setRendezvous _ _) h _ _ hP _
    · refine modifyThread (s := s.setRendezvous _ _) h t fun _ _ ht => ?_
      refine ⟨ht.table, fun c hc => ?_, ht.held, ht.invoking⟩
      have hc' : some cap = some c := hc
      rw [Option.some.injEq] at hc'
      exact hc' ▸ hP
    · exact h.setIpcRefused t

theorem collectCap (u : ThreadId)
    {from_ : Thread} (hfrom : from_.CapsOk P Q) : (s.collectCap t ep u from_).1.CapsOk P Q W k := by
  have hno : (s.modifyThread u fun th => { th with outgoingCap := none }).CapsOk P Q W k :=
    h.modifyThread u fun _ _ ht => ht.noOutgoing
  unfold IpcTables.collectCap
  dsimp only
  split
  · next cap me hcap _ =>
    exact grant (hno.logInstalled _ _ _ _ _) t (hfrom.outgoing _ hcap)
  · exact hno

theorem ipcReceiveCap : (s.ipcReceiveCap t ep).1.CapsOk P Q W k := by
  unfold IpcTables.ipcReceiveCap
  split
  · exact h.setIpcAborted t
  · split
    · next hbound => exact (h.takeBoundSignal hbound).receiveNow t _ _
    · split
      · exact receiveNow (s := s.setRendezvous _ _) h t _ _
      · next r sender _ =>
        split
        · exact h
        · next from_ hfrom =>
          have hcol := collectCap (s := s.setRendezvous ep r) h t ep sender (h.1 _ from_ hfrom)
          generalize (s.setRendezvous ep r).collectCap t ep sender from_ = col at hcol ⊢
          refine receiveNow ?_ t _ _
          split
          · exact hcol
          · exact wake (modifyThread hcol _ fun _ _ ht => ht.serve _) _
      · exact modifyThread (s := s.setRendezvous _ _) h t fun _ _ ht => { ht with }

end

theorem ipcCallBadged (hreply : ∀ u k, P (Cap.reply u k)) (t : ThreadId)
    (ep : RendezvousId) (m0 m1 badge : Nat) : (s.ipcCallBadged t ep m0 m1 badge).1.CapsOk P Q W k := by
  unfold IpcTables.ipcCallBadged
  split
  · exact h.setIpcAborted t
  · split
    · exact modifyThread (deliverCap (s := s.setRendezvous _ _) h _ _ (hreply _ _) _) t
        fun _ _ ht => ht.park _
    · refine modifyThread (s := s.setRendezvous _ _) h t fun _ _ ht => ?_
      refine ⟨ht.table, fun c hc => ?_, ht.held, ht.invoking⟩
      have hc' : some (Cap.reply t s.clock) = some c := hc
      rw [Option.some.injEq] at hc'
      exact hc' ▸ hreply _ _
    · exact h.setIpcRefused t

theorem ipcReply (u : ThreadId) (w0 w1 : Nat) (t : ThreadId) (n : Nat) :
    (s.ipcReply u w0 w1 t n).CapsOk P Q W k := by
  unfold IpcTables.ipcReply
  split
  · exact h
  · split
    · exact deliver (h.log (by simp)) _ _ _
    · exact h

theorem deleteReplyCapsNaming (u : ThreadId) : (s.deleteReplyCapsNaming u).CapsOk P Q W k :=
  h.mapThreads fun _ ht => ht.sweep _

theorem strandReplyCaller (u : ThreadId) : (s.strandReplyCaller u).CapsOk P Q W k := by
  unfold IpcTables.strandReplyCaller
  split
  · exact ((h.deleteReplyCapsNaming u).setIpcAborted u).wake u
  · exact h

theorem strandAll (us : List ThreadId) :
    (us.foldl IpcTables.strandReplyCaller s).CapsOk P Q W k := by
  induction us generalizing s with
  | nil => exact h
  | cons u us ih => exact ih (h.strandReplyCaller u)

theorem strandCallersOf (t : ThreadId) : (s.strandCallersOf t).CapsOk P Q W k := by
  unfold IpcTables.strandCallersOf
  split
  · exact h
  · exact h.strandAll _

theorem strandCallersAwaiting (ep : RendezvousId) : (s.strandCallersAwaiting ep).CapsOk P Q W k :=
  Rescan.rescan_invariant (CapsOk P Q W k) (fun _ u hs _ => strandReplyCaller hs u) _ h

theorem deliverBound (t : ThreadId) (ep : RendezvousId) (word : Nat) :
    (s.deliverBound t ep word).CapsOk P Q W k := by
  apply deliver
  split
  · exact h
  · exact h

theorem signalLocked (id : NotificationId) (bits : Nat) :
    (s.signalLocked id bits).CapsOk P Q W k := by
  unfold IpcTables.signalLocked
  split
  · exact h
  · split
    · exact deliver (s := s.setNotification _ _) h _ _ _
    · exact deliverBound (s := s.setNotification _ _) h _ _ _
    · exact h

theorem notificationBind (id : NotificationId) (t : ThreadId) :
    (s.notificationBind id t).CapsOk P Q W k := by
  unfold IpcTables.notificationBind
  split
  · next page th _ _ =>
    split
    · exact h
    · split
      · exact h
      · split
        · exact h
        · dsimp only
          have hbound : CapsOk P Q W k (IpcTables.modifyThread { s with
              notificationTable := s.notificationTable.modify id fun _ =>
                { page with bound := some t } } t fun t => { t with boundNotification := some id }) :=
            modifyThread (s := { s with notificationTable := _ }) h t fun _ _ ht =>
              { ht with }
          split
          · split
            · exact deliverBound (s := IpcTables.setNotification _ _ _) hbound _ _ _
            · exact hbound
          · exact hbound
  · exact h

theorem irqNotify (ep : RendezvousId) : (s.irqNotify ep).CapsOk P Q W k := by
  unfold IpcTables.irqNotify
  split
  · exact h
  · split
    · exact deliver (s := s.setRendezvous _ _) h _ _ _
    · exact h

theorem deliverDeath (t : ThreadId) (ep : RendezvousId) (msg : Mailbox) :
    (s.deliverDeath t ep msg).CapsOk P Q W k := by
  unfold IpcTables.deliverDeath
  split
  · exact h
  · split
    · exact deliver (s := s.setRendezvous _ _) h _ _ _
    · exact modifyThread (s := s.setRendezvous _ _) h t fun _ _ ht => { ht with }
    · exact h

theorem depart (t : ThreadId) (event pc addr : Nat) :
    (s.depart t event pc addr).CapsOk P Q W k := by
  have hs : ((s.log (.ended t)).strandCallersOf t).CapsOk P Q W k := 
    strandCallersOf (h.log (by simp)) t
  unfold IpcTables.depart
  dsimp only
  split
  · exact hs.setState t _
  · refine deliverDeath (setState (hs.modifyThread t fun _ _ ht => ?_) t _) t _ _
    exact { ht with }

theorem finishKilledCurrent (t : ThreadId) : (s.finishKilledCurrent t).CapsOk P Q W k :=
  strandCallersOf (setState (h.log (by simp)) t _) t

theorem threadControlBlockInsertCap (u : ThreadId) (hP : P cap)
    (target : Option Nat) : (s.threadControlBlockInsertCap u cap target).CapsOk P Q W k := by
  refine h.modifyThread u fun th _ ht => ?_
  split
  · apply ht.setTable
    intro i c hc
    rcases hl : th.capabilityTable.insertInto target cap with - | ⟨table, n⟩
    · rw [hl] at hc
      exact ht.table i c hc
    · obtain ⟨j, -, rfl⟩ := insertInto_eq_some hl
      rw [hl] at hc
      rcases fill_mem hc with rfl | hold
      · exact hP
      · exact ht.table i c hold
  · exact ht

theorem deletePageFrameCaps {what : FrameSweep} (hW : W s.clock what) :
    (s.deletePageFrameCaps what).CapsOk P Q W k := by
  have hsw := h.mapThreads fun _ ht => ht.sweep what.hits
  refine ⟨hsw.1, fun at_ w hw => ?_, hsw.2.2⟩
  rcases List.mem_cons.mp hw with heq | hw
  · cases heq
    exact hW
  · exact h.2.1 at_ w hw

/-! ### Tearing down -/

theorem abortWaiter (t : ThreadId) : (s.abortWaiter t).CapsOk P Q W k :=
  (h.setIpcAborted t).wake t

theorem drainRendezvous (ep : RendezvousId) : (s.drainRendezvous ep).CapsOk P Q W k := by
  unfold IpcTables.drainRendezvous
  split
  · exact h
  · refine Rescan.rescan_invariant (CapsOk P Q W k) (fun s t hs _ => ?_) _ h
    unfold drainOne
    split
    · exact hs
    · exact abortWaiter (s := s.setRendezvous _ _) hs t

theorem drainNotification (id : NotificationId) : (s.drainNotification id).CapsOk P Q W k := by
  unfold IpcTables.drainNotification
  split
  · exact h
  · refine Rescan.rescan_invariant (CapsOk P Q W k) (fun s t hs _ => ?_) _ h
    split
    · exact hs
    · exact abortWaiter (s := s.setNotification _ _) hs t

theorem finishBlockedResident (t : ThreadId) : (s.finishBlockedResident t).CapsOk P Q W k := by
  refine modifyThread (deleteReplyCapsNaming (log ?_ (by simp)) t) t fun _ _ ht =>
    { ht with }
  split
  · split
    all_goals exact h
  · split
    all_goals exact h
  · exact h

theorem removeResident (t : ThreadId) : (s.removeResident t).CapsOk P Q W k := by
  refine removeThread (strandCallersOf (log ?_ (by simp)) t) t
  split
  · exact h
  · split
    all_goals exact h

theorem quiesceRegion (base limit : Nat) : (s.quiesceRegion base limit).CapsOk P Q W k := by
  have hep : (s.reapRegionRendezvous base limit).CapsOk P Q W k := by
    refine Rescan.rescan_invariant (CapsOk P Q W k) (fun s ep hs _ => ?_) _ h
    exact strandCallersAwaiting (s := (s.drainRendezvous ep).removeRendezvous ep)
      (hs.drainRendezvous ep) ep
  have hnt : ((s.reapRegionRendezvous base limit).reapRegionNotifications base limit).CapsOk P Q W k := by
    refine Rescan.rescan_invariant (CapsOk P Q W k) (fun s id hs _ => ?_) _ hep
    exact hs.drainNotification id
  have htm : (((s.reapRegionRendezvous base limit).reapRegionNotifications base
      limit).reapRegionTimers base limit).CapsOk P Q W k := by
    refine Rescan.rescan_invariant (CapsOk P Q W k) (fun s name hs _ => ?_) _ hnt
    exact hs
  refine Rescan.rescan_invariant (CapsOk P Q W k) (fun s t hs _ => ?_) _ htm
  exact hs.finishBlockedResident t

theorem reapRegionObjects (base limit : Nat) :
    (s.reapRegionObjects base limit).1.CapsOk P Q W k := by
  have harm := mapThreads (f := armKill base limit) (h.quiesceRegion base limit) fun th ht => by
    unfold armKill
    split
    · exact { ht with }
    · exact ht
  unfold IpcTables.reapRegionObjects
  dsimp only
  split
  · exact harm
  · exact Rescan.rescan_invariant (CapsOk P Q W k) (fun _ t hs _ => removeResident hs t) _ harm

/-! ### Coming back from a primitive -/

section

variable (t : ThreadId)

theorem collect (op : IpcOp) : (s.collect t op).CapsOk P Q W k := by
  unfold IpcTables.collect
  split
  · exact h
  · dsimp only
    split
    · refine return_ (h.modifyThread t fun _ _ ht => ?_) t _ _
      exact { ht with }
    · exact h.setContext t rfl

theorem takeIpcAborted (op : IpcOp) (msg : Mailbox) :
    (s.takeIpcAborted t op msg).CapsOk P Q W k := by
  unfold IpcTables.takeIpcAborted
  split
  · exact h
  · have htake : (s.modifyThread t fun th =>
        { th with handshake := th.handshake.takeAborted.1 }).CapsOk P Q W k :=
      h.modifyThread t fun _ _ ht => { ht with }
    split
    · split
      · exact htake.return_ t _ _
      · exact htake.return_ t _ _
      · exact htake.setContext t rfl
    · exact htake.return_ t _ _

theorem takeIpcRefused (op : IpcOp) : (s.takeIpcRefused t op).CapsOk P Q W k := by
  unfold IpcTables.takeIpcRefused
  split
  · exact h
  · refine return_ (h.modifyThread t fun _ _ ht => ?_) t _ _
    exact { ht with }

theorem waitOn (id : NotificationId) : (s.waitOn t id).CapsOk P Q W k := by
  unfold IpcTables.waitOn IpcTables.notificationWait
  rcases s.notificationOf id with - | page
  · exact h.return_ t _ _
  · dsimp only [map_some]
    rcases page.state.wait t with ⟨n, - | word⟩
    · exact setContext (modifyThread (s := s.setNotification _ _) h t fun _ _ ht => ht.park _) t rfl
    · exact return_ (receiveNow (s := s.setNotification _ _) h t _ _) t _ _

theorem startThreadControlBlock : (s.startThreadControlBlock t).CapsOk P Q W k := by
  refine h.modifyThread t fun th _ ht => ?_
  split
  · dsimp only
    split
    · exact { ht with table := fun i c hc => ht.table i c (delete_mem hc).1 }
    · exact { ht with }
  · exact ht

theorem finishSwitchOf (th : Thread) : (s.finishSwitchOf t th).CapsOk P Q W k := by
  unfold IpcTables.finishSwitchOf
  split
  · exact h.removeThread t
  · exact h.modifyThread t fun _ _ ht => { ht with }

end

/-! ### One critical section -/

theorem invoked {since : Nat} (hi : s.invoked t = some (slot, cap, since)) : Q cap since := by
  obtain ⟨th, hth, -, hctx⟩ := invoked_eq_some hi
  exact (h.1 t th hth).invoking slot cap since hctx

theorem runningIn (hr : s.runningIn t = some c) (hc : c.cap = some cap) : P cap := by
  obtain ⟨th, hth, -, rfl⟩ := runningIn_eq_some hr
  exact (h.1 t th hth).held cap hc

theorem holdCap (t : ThreadId)
    (hc : c.cap = some cap) (hP : P cap) (hQ : ∀ slot since, c ≠ .invoking slot cap since) :
    (s.setContext t c).CapsOk P Q W k := by
  refine h.modifyThread t fun _ _ ht => ⟨ht.table, ht.outgoing, fun d hd => ?_, ?_⟩
  · have hd' : c.cap = some d := hd
    rw [hc, Option.some.injEq] at hd'
    exact hd' ▸ hP
  · intro slot d since hd
    have hd' : c = .invoking slot d since := hd
    have hcap : d = cap := by
      rw [hd'] at hc
      exact Option.some.inj hc
    subst hcap
    exact absurd hd' (hQ slot since)

/-- **Capabilities only move.**  A property of capabilities that survives narrowing and holds
of every capability when it is minted holds of all that are at large after a critical
section if it did before. -/
theorem section_
    (hnarrow : ∀ c r k, r.isSubsetOf c.rights → P c → P { c with rights := r, stamp := k })
    (hreply : ∀ u k, P (Cap.reply u k)) (hinvoke : ∀ c, P c → Q c s.clock)
    (hmint : ∀ region rights k born since phys count, Q ⟨.memoryRegion region, rights, k, born⟩ since →
      rights.allows .write → P ⟨.pageFrame phys count, .all, 0, since⟩)
    (hslice : ∀ phys (count : ℕ+) rights k born since first (len : ℕ+),
      Q ⟨.pageFrame phys count, rights, k, born⟩ since → rights.allows .grant →
      first + len ≤ (count : Nat) →
      P ⟨.pageFrame (phys + first * 4096) len, rights, 0, since⟩)
    {a : IpcAction} (hW : ∀ t w, a = .sweep t w → W s.clock w)
    (hs : s.section_ a = some s') : s'.CapsOk P Q W k := by
  have hrefl (r : Rights) : r.isSubsetOf r := by simp [Rights.isSubsetOf]
  have hnarrowed : ∀ {t slot rights cap}, s.lookupNarrowed t slot rights = some cap → P cap := by
    intro t slot rights cap hc
    obtain ⟨src, hsrc, hc⟩ := bind_eq_some_iff.mp hc
    split_ifs at hc with hsub
    rw [← Option.some.inj hc]
    exact hnarrow src _ src.stamp hsub.2 (h.currentCap hsrc)
  cases a with
  | dispatch t =>
    obtain ⟨th, -, hs⟩ := bind_eq_some_iff.mp hs
    split_ifs at hs
    cases hs
    exact h.modifyThread t fun _ _ ht => { ht with }
  | preempt t =>
    obtain ⟨th, -, hs⟩ := bind_eq_some_iff.mp hs
    split at hs
    · split at hs
      · cases hs
        exact h.finishKilledCurrent t
      · cases hs
        exact h.modifyThread t fun _ _ ht => { ht with }
    · cases hs
  | finishSwitch t =>
    obtain ⟨th, -, hs⟩ := bind_eq_some_iff.mp hs
    split_ifs at hs
    cases hs
    exact h.finishSwitchOf t th
  | depart t event pc addr =>
    simp only [IpcTables.section_] at hs
    split_ifs at hs
    cases hs
    exact h.depart t event pc addr
  | kill t =>
    cases hs
    exact h.modifyThread t fun _ _ ht => { ht with }
  | invoke t slot =>
    simp only [IpcTables.section_] at hs
    split at hs
    · obtain ⟨cap, hcap, rfl⟩ := map_eq_some_iff.mp hs
      have hP := h.currentCap hcap
      refine h.modifyThread t fun _ _ ht => ⟨ht.table, ht.outgoing, fun d hd => ?_, ?_⟩
      · have hd' : some cap = some d := hd
        rw [Option.some.injEq] at hd'
        exact hd' ▸ hP
      · intro slot' d since hd
        have hd' : Context.invoking slot cap s.clock = .invoking slot' d since := hd
        simp only [Context.invoking.injEq] at hd'
        obtain ⟨-, rfl, rfl⟩ := hd'
        exact hinvoke _ hP
    · cases hs
  | abandon t =>
    obtain ⟨_, -, rfl⟩ := map_eq_some_iff.mp hs
    exact h.setContext t rfl
  | capDelete t slot =>
    simp only [IpcTables.section_] at hs
    split at hs
    · cases hs
      exact h.deleteCurrentCap t slot
    · cases hs
  | send t m0 m1 m2 =>
    obtain ⟨⟨ep, badge⟩, -, rfl⟩ := map_eq_some_iff.mp hs
    exact ((h.begin_ t).ipcSendBadged t ep m0 m1 m2 badge).setContext t rfl
  | receive t =>
    obtain ⟨⟨ep, badge⟩, -, rfl⟩ := map_eq_some_iff.mp hs
    exact ((h.begin_ t).ipcReceive t ep).setContext t (by unfold received; split <;> rfl)
  | lookupDelegated t slot rights =>
    obtain ⟨⟨ep, badge⟩, -, hs⟩ := bind_eq_some_iff.mp hs
    obtain ⟨cap, hcap, rfl⟩ := map_eq_some_iff.mp hs
    exact h.holdCap t rfl (hnarrowed hcap) nofun
  | sendCap t data =>
    simp only [IpcTables.section_] at hs
    split at hs
    · next ep badge cap hrun =>
      cases hs
      have hP := hnarrow cap _ s.clock (hrefl _) (h.runningIn hrun rfl)
      exact (ipcSendCap ((h.begin_ t).log (by simp)) t ep data hP badge).setContext t rfl
    · cases hs
  | receiveCap t =>
    obtain ⟨⟨ep, badge⟩, -, rfl⟩ := map_eq_some_iff.mp hs
    exact ((h.begin_ t).ipcReceiveCap t ep).setContext t (by unfold received; split <;> rfl)
  | call t m0 m1 =>
    obtain ⟨⟨ep, badge⟩, -, rfl⟩ := map_eq_some_iff.mp hs
    exact (ipcCallBadged ((h.begin_ t).log (by simp)) hreply t ep m0 m1 badge).setContext
      t (by split <;> rfl)
  | reply t w0 w1 =>
    obtain ⟨⟨slot, u, k⟩, -, rfl⟩ := map_eq_some_iff.mp hs
    exact (h.ipcReply u w0 w1 t k).setContext t rfl
  | deleteReply t =>
    simp only [IpcTables.section_] at hs
    split at hs
    · cases hs
      exact (h.deleteCurrentCap t _).setContext t rfl
    · cases hs
  | collect t =>
    simp only [IpcTables.section_] at hs
    split at hs
    · cases hs
      exact h.collect t _
    · cases hs
  | takeAborted t =>
    simp only [IpcTables.section_] at hs
    split at hs
    · cases hs
      exact h.takeIpcAborted t _ _
    · cases hs
  | takeRefused t =>
    simp only [IpcTables.section_] at hs
    split at hs
    · cases hs
      exact h.takeIpcRefused t _
    · cases hs
  | signal t bits =>
    obtain ⟨id, -, rfl⟩ := map_eq_some_iff.mp hs
    exact (h.signalLocked id bits).setContext t rfl
  | wait t =>
    obtain ⟨id, -, rfl⟩ := map_eq_some_iff.mp hs
    exact (h.begin_ t).waitOn t id
  | poll t =>
    obtain ⟨id, -, rfl⟩ := map_eq_some_iff.mp hs
    refine setContext ?_ t rfl
    unfold notificationPoll
    split <;> exact h
  | lookupBound t slot =>
    obtain ⟨id, -, hs⟩ := bind_eq_some_iff.mp hs
    obtain ⟨cap, -, hs⟩ := bind_eq_some_iff.mp hs
    split at hs
    · split at hs
      · cases hs
        exact h.setContext t rfl
      · cases hs
    · cases hs
  | bind t =>
    simp only [IpcTables.section_] at hs
    split at hs
    · cases hs
      exact (h.notificationBind _ _).setContext t rfl
    · cases hs
  | signalFromInterrupt id bits =>
    cases hs
    exact h.signalLocked id bits
  | irqNotify ep =>
    cases hs
    exact h.irqNotify ep
  | bindIrq ep =>
    obtain ⟨r, -, rfl⟩ := map_eq_some_iff.mp hs
    exact h
  | retype t phys count =>
    obtain ⟨⟨region, since⟩, hregion, rfl⟩ := map_eq_some_iff.mp hs
    obtain ⟨slot, rights, k, born, hw, hinv⟩ := memoryRegionInvoked_eq_some hregion
    exact h.holdCap t rfl (hmint region rights k born since phys count (h.invoked hinv) hw) nofun
  | grant t =>
    simp only [IpcTables.section_] at hs
    split at hs
    · next cap hrun =>
      cases hs
      exact (h.grant t (h.runningIn hrun rfl)).setContext t rfl
    · cases hs
  | slice t first len =>
    obtain ⟨cap, hcap, rfl⟩ := map_eq_some_iff.mp hs
    obtain ⟨slot, phys, count, rights, k, born, since, hg, hle, hinv, rfl⟩ := sliceInvoked_eq_some hcap
    exact (h.grant t (hslice phys count rights k born since first len (h.invoked hinv) hg
      hle)).setContext t rfl
  | sweep t what =>
    simp only [IpcTables.section_] at hs
    split_ifs at hs
    cases hs
    exact deletePageFrameCaps (h.setContext t rfl) (hW t what rfl)
  | lookupInserted t slot rights target =>
    obtain ⟨tid, -, hs⟩ := bind_eq_some_iff.mp hs
    obtain ⟨cap, hcap, rfl⟩ := map_eq_some_iff.mp hs
    exact h.holdCap t rfl (hnarrow cap _ 0 (hrefl _) (hnarrowed hcap)) nofun
  | capInsert t =>
    simp only [IpcTables.section_] at hs
    split at hs
    · next tid cap target hrun =>
      cases hs
      exact (h.threadControlBlockInsertCap tid (h.runningIn hrun rfl) target).setContext t rfl
    · cases hs
  | start t =>
    obtain ⟨tid, -, rfl⟩ := map_eq_some_iff.mp hs
    exact (h.startThreadControlBlock tid).setContext t rfl
  | reap base limit =>
    cases hs
    exact h.reapRegionObjects base limit

end CapsOk

end IpcTables

end Nife
