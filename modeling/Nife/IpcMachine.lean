/-
Threads making system calls, one hold of the scheduler lock at a time.  A system call is
several critical sections: `invoke` copies the capability out of the caller's table in one
hold, the primitive runs in another, and what it returned is read in further ones; other
threads run in between.  `IpcTables.step` is one critical section.

Which core a thread runs on is left open (`Nife/Cores.lean` has the cores): any thread that
is ready and off its processor may be dispatched, and a thread that left its processor is
completed (`finishSwitch`) at any later time.  System calls run with interrupts masked, so a
thread is preempted in user mode only.
-/
import Nife.Lib.Transition
import Nife.Reap

namespace Nife

/-- One critical section.  `t` is the thread that runs it. -/
inductive IpcAction
  -- the scheduler
  | dispatch (t : ThreadId)
  | preempt (t : ThreadId)
  | finishSwitch (t : ThreadId)
  | depart (t : ThreadId) (event pc addr : Nat)
  | kill (t : ThreadId)
  -- entering a system call, and leaving it with an error before it did anything
  | invoke (t : ThreadId) (slot : Nat)
  | abandon (t : ThreadId)
  | capDelete (t : ThreadId) (slot : Nat)
  -- the methods of a rendezvous and of a reply
  | send (t : ThreadId) (m0 m1 m2 : Nat)
  | receive (t : ThreadId)
  | lookupDelegated (t : ThreadId) (slot : Nat) (rights : BitVec 32)
  | sendCap (t : ThreadId) (data : Nat)
  | receiveCap (t : ThreadId)
  | call (t : ThreadId) (m0 m1 : Nat)
  | reply (t : ThreadId) (w0 w1 : Nat)
  | deleteReply (t : ThreadId)
  -- coming back from a primitive
  | collect (t : ThreadId)
  | takeAborted (t : ThreadId)
  | takeRefused (t : ThreadId)
  -- notifications and interrupts
  | signal (t : ThreadId) (bits : Nat)
  | wait (t : ThreadId)
  | poll (t : ThreadId)
  | lookupBound (t : ThreadId) (slot : Nat)
  | bind (t : ThreadId)
  | signalFromInterrupt (id : NotificationId) (bits : Nat)
  | irqNotify (ep : RendezvousId)
  | bindIrq (ep : RendezvousId)
  -- page frames
  | retype (t : ThreadId) (phys : Nat) (count : ℕ+)
  | grant (t : ThreadId)
  | slice (t : ThreadId) (first : Nat) (len : ℕ+)
  | sweep (t : ThreadId) (what : FrameSweep)
  -- control blocks and teardown
  | lookupInserted (t : ThreadId) (slot : Nat) (rights : BitVec 32) (target : Option Nat)
  | capInsert (t : ThreadId)
  | start (t : ThreadId)
  | reap (base limit : Nat)
  deriving DecidableEq, Repr

namespace IpcTables

/-! ### What a running thread is about to do -/

section

variable (s : IpcTables)

def runningIn (t : ThreadId) : Option Context :=
  (s.threads.get t).bind fun th => if th.state = .running then some th.context else none

/-- The slot, capability and start of the invocation a running thread is in. -/
def invoked (t : ThreadId) : Option (Nat × Cap × Nat) :=
  match s.runningIn t with
  | some (.invoking slot cap since) => some (slot, cap, since)
  | _ => none

def rendezvousInvoked (t : ThreadId) (right : Rights) : Option (RendezvousId × Nat) :=
  match s.invoked t with
  | some (_, ⟨.rendezvous ep badge, rights, _, _⟩, _) =>
    if rights.allows right then some (ep, badge) else none
  | _ => none

/-- The slot, caller and ghost stamp of the `Reply` a running thread invokes. -/
def replyInvoked (t : ThreadId) : Option (Nat × ThreadId × Nat) :=
  match s.invoked t with
  | some (slot, ⟨.reply caller, rights, stamp, _⟩, _) =>
    if rights.allows .write then some (slot, caller, stamp) else none
  | _ => none

def notificationInvoked (t : ThreadId) (right : Rights) : Option NotificationId :=
  match s.invoked t with
  | some (_, ⟨.notification id, rights, _, _⟩, _) => if rights.allows right then some id else none
  | _ => none

def threadControlBlockInvoked (t : ThreadId) : Option ThreadId :=
  match s.invoked t with
  | some (_, ⟨.threadControlBlock tid, rights, _, _⟩, _) =>
    if rights.allows .write then some tid else none
  | _ => none

/-- The region a running thread invokes to spend it, and the start of that invocation. -/
def memoryRegionInvoked (t : ThreadId) : Option (Nat × Nat) :=
  match s.invoked t with
  | some (_, ⟨.memoryRegion region, rights, _, _⟩, since) =>
    if rights.allows .write then some (region, since) else none
  | _ => none

/-- Whether a running thread is in a system call that comes to this sweep: `REVOKE` of the page frame
it names, or `DESTROY` of a region or `REAP` at a supervision endpoint, which find the range in the
registry of regions. -/
def sweepInvoked (t : ThreadId) (what : FrameSweep) : Bool :=
  match what, s.invoked t with
  | .run phys count, some (_, ⟨.pageFrame p c, rights, _, _⟩, _) =>
    decide (p = phys ∧ c = count) && rights.allows .grant
  | .overlapping _ _, some (_, ⟨.memoryRegion _, rights, _, _⟩, _) => rights.allows .write
  | .overlapping _ _, some (_, ⟨.rendezvous _ _, rights, _, _⟩, _) => rights.allows .read
  | _, _ => false

/-- The part of a run that `SLICE` asks for, of the page frame a running thread invokes. -/
def sliceInvoked (t : ThreadId) (first : Nat) (len : ℕ+) : Option Cap :=
  match s.invoked t with
  | some (_, ⟨.pageFrame phys count, rights, _, _⟩, since) =>
    if rights.allows .grant ∧ first + len ≤ (count : Nat) then
      some ⟨.pageFrame (phys + first * 4096) len, rights, 0, since⟩
    else none
  | _ => none

/-- The second lookup of `SEND_CAP` and `CAP_INSERT`: a capability its holder may pass on,
narrowed to the rights asked for. -/
def lookupNarrowed (t : ThreadId) (slot : Nat) (rights : BitVec 32) : Option Cap :=
  (s.currentCap t slot).bind fun src =>
    if src.rights.allows .grant ∧ (Rights.fromBits rights).isSubsetOf src.rights then
      some { src with rights := Rights.fromBits rights }
    else none

end

variable {s : IpcTables} {t : ThreadId} {cap : Cap}

theorem runningIn_eq_some {c : Context} (h : s.runningIn t = some c) :
    ∃ th, s.threads.get t = some th ∧ th.state = .running ∧ th.context = c := by
  obtain ⟨th, hth, hc⟩ := Option.bind_eq_some_iff.mp h
  split_ifs at hc with hrun
  exact ⟨th, hth, hrun, Option.some.inj hc⟩

theorem invoked_eq_some {slot since : Nat} (h : s.invoked t = some (slot, cap, since)) :
    ∃ th, s.threads.get t = some th ∧ th.state = .running ∧
      th.context = .invoking slot cap since := by
  unfold invoked at h
  split at h
  · next hrun =>
    cases h
    exact runningIn_eq_some hrun
  · cases h

theorem sliceInvoked_eq_some {first : Nat} {len : ℕ+} (h : s.sliceInvoked t first len = some cap) :
    ∃ slot phys count rights stamp born since, rights.allows .grant ∧ first + len ≤ (count : ℕ+) ∧
      s.invoked t = some (slot, ⟨.pageFrame phys count, rights, stamp, born⟩, since) ∧
      cap = ⟨.pageFrame (phys + first * 4096) len, rights, 0, since⟩ := by
  unfold sliceInvoked at h
  split at h
  · next slot phys count rights stamp born since hinv =>
    split_ifs at h with hle
    exact ⟨slot, phys, count, rights, stamp, born, since, hle.1, hle.2, hinv,
      (Option.some.inj h).symm⟩
  · cases h

theorem memoryRegionInvoked_eq_some {region since : Nat}
    (h : s.memoryRegionInvoked t = some (region, since)) :
    ∃ slot rights stamp born, rights.allows .write ∧
      s.invoked t = some (slot, ⟨.memoryRegion region, rights, stamp, born⟩, since) := by
  unfold memoryRegionInvoked at h
  split at h
  · next slot region' rights stamp born since' hinv =>
    split_ifs at h with hw
    cases h
    exact ⟨slot, rights, stamp, born, hw, hinv⟩
  · cases h

/-! ### Moving through a system call -/

section

variable (s : IpcTables)

def setContext (t : ThreadId) (c : Context) : IpcTables :=
  s.modifyThread t fun th => { th with context := c }

/-- A primitive begins: ghost only. -/
def begin_ (t : ThreadId) : IpcTables :=
  s.modifyThread t fun th => { th with message := s.clock }

def zeros : Mailbox := ⟨0, 0, 0, 0, 0⟩

/-- Back to user mode with a result. -/
def return_ (t : ThreadId) (op : IpcOp) (result : IpcResult) : IpcTables :=
  match s.threads.get t with
  | none => s
  | some th =>
    (s.log (.returned t op th.message th.outcome result)).modifyThread t fun th =>
      { th with context := .user, outcome := none }

/-- What `RECEIVE_CAP` makes of its mailbox once it is woken: word 1 is a slot only if a
capability was installed. -/
def receiveCapWords (m : Mailbox) (capDelivered : Bool) : Mailbox :=
  if capDelivered ∨ m.w4 = bound then m else ⟨m.w0, CapabilityTable.noCap, m.w1, m.w3, 0⟩

/-- What each blocking primitive returns from the mailbox of a woken thread. -/
def wordsOf (op : IpcOp) (m : Mailbox) (capDelivered : Bool) : Mailbox :=
  match op with
  | .receiveCap => receiveCapWords m capDelivered
  | .call => ⟨m.w0, m.w1, m.w2, 0, 0⟩
  | .notificationWait => ⟨m.w0, 0, 0, 0, 0⟩
  | .receive => m
  | .send => zeros
  | .sendCap => zeros

/-- The end of a primitive: read the mailbox.  `WAIT` reads its aborted flag in the same
hold. -/
def collect (t : ThreadId) (op : IpcOp) : IpcTables :=
  match s.threads.get t with
  | none => s
  | some th =>
    let msg := wordsOf op th.mailbox th.capDelivered
    if op = .notificationWait then
      (s.modifyThread t fun th => { th with handshake := th.handshake.takeAborted.1 }).return_ t op
        (if th.handshake.ipcAborted then .gone else .ok msg)
    else s.setContext t (.returning op msg)

/-- `take_ipc_aborted`, and what the system call does with the answer. -/
def takeIpcAborted (t : ThreadId) (op : IpcOp) (msg : Mailbox) : IpcTables :=
  match s.threads.get t with
  | none => s
  | some th =>
    let s := s.modifyThread t fun th => { th with handshake := th.handshake.takeAborted.1 }
    if th.handshake.ipcAborted then
      match op with
      | .receive => s.return_ t op .gone
      | .receiveCap => s.return_ t op .gone
      | _ => s.setContext t (.refusing op)
    else s.return_ t op (.ok msg)

/-- `take_ipc_refused`: why an aborted send failed. -/
def takeIpcRefused (t : ThreadId) (op : IpcOp) : IpcTables :=
  match s.threads.get t with
  | none => s
  | some th =>
    (s.modifyThread t fun th => { th with ipcRefused := false }).return_ t op
      (if th.ipcRefused then .notPermitted else .gone)

/-- `start_thread_control_block`: a configured embryo becomes ready; the endpoint in its
reserved slot becomes its supervision endpoint. -/
def startThreadControlBlock (tid : ThreadId) : IpcTables :=
  s.modifyThread tid fun t =>
    if t.state = .embryo ∧ t.space.isSome ∧ t.entry ≠ 0 then
      let t :=
        match (t.capabilityTable.get (capabilityTableSlots - 1)).map Cap.object with
        | some (.rendezvous ep _) =>
          { t with
            faultEp := some ep
            capabilityTable := t.capabilityTable.delete (capabilityTableSlots - 1) }
        | _ => t
      { t with handshake := { t.handshake with state := .ready } }
    else t

/-- What the successor of `t` on its processor does for it: a finished thread is freed. -/
def finishSwitchOf (t : ThreadId) (th : Thread) : IpcTables :=
  match th.handshake.finishSwitch.2 with
  | .reap => s.removeThread t
  | _ => s.modifyThread t fun th => { th with handshake := th.handshake.finishSwitch.1 }

/-! ### One critical section -/

def received (op : IpcOp) : Option Mailbox → Context
  | some msg => .returning op msg
  | none => .awaiting op

/-- `WAIT`, up to where it returns or blocks. -/
def waitOn (t : ThreadId) (id : NotificationId) : IpcTables :=
  match s.notificationWait t id with
  | none => s.return_ t .notificationWait .gone
  | some (s', some word) =>
    (s'.receiveNow t (.word word) ⟨word, 0, 0, 0, 0⟩).1.return_ t .notificationWait
      (.ok ⟨word, 0, 0, 0, 0⟩)
  | some (s', none) => s'.setContext t (.awaiting .notificationWait)

/-- One critical section, at the time the clock shows; `none` when it is not due. -/
def section_ : IpcAction → Option IpcTables
  | .dispatch t =>
    (s.threads.get t).bind fun th =>
      if th.state = .ready ∧ ¬ th.handshake.onCpu then
        some (s.modifyThread t fun th => { th with handshake := th.handshake.switchIn })
      else none
  | .preempt t =>
    (s.threads.get t).bind fun th =>
      if th.state = .running ∧ th.context = .user then
        if th.killed then some (s.finishKilledCurrent t)
        else some (s.modifyThread t fun th => { th with handshake := th.handshake.preempt })
      else none
  | .finishSwitch t =>
    (s.threads.get t).bind fun th =>
      if th.handshake.onCpu ∧ th.state ≠ .running then some (s.finishSwitchOf t th) else none
  | .depart t event pc addr =>
    if s.runningIn t = some .user then some (s.depart t event pc addr) else none
  | .kill t => some (s.modifyThread t fun th => { th with killed := true })
  | .invoke t slot =>
    if s.runningIn t = some .user then
      (s.currentCap t slot).map fun cap => s.setContext t (.invoking slot cap s.clock)
    else none
  | .abandon t => (s.invoked t).map fun _ => s.setContext t .user
  | .capDelete t slot =>
    if s.runningIn t = some .user then some (s.deleteCurrentCap t slot) else none
  | .send t m0 m1 m2 =>
    (s.rendezvousInvoked t .write).map fun (ep, badge) =>
      ((s.begin_ t).ipcSendBadged t ep m0 m1 m2 badge).1.setContext t (.returning .send zeros)
  | .receive t =>
    (s.rendezvousInvoked t .read).map fun (ep, _) =>
      let out := (s.begin_ t).ipcReceive t ep
      out.1.setContext t (received .receive out.2)
  | .lookupDelegated t slot rights =>
    (s.rendezvousInvoked t .write).bind fun (ep, badge) =>
      (s.lookupNarrowed t slot rights).map fun cap => s.setContext t (.delegating ep badge cap)
  | .sendCap t data =>
    match s.runningIn t with
    | some (.delegating ep badge cap) =>
      let cap := { cap with stamp := s.clock }
      some ((((s.begin_ t).log (.delegated s.clock t ep cap)).ipcSendCap t ep data cap badge).1.setContext
        t (.returning .sendCap zeros))
    | _ => none
  | .receiveCap t =>
    (s.rendezvousInvoked t .read).map fun (ep, _) =>
      let out := (s.begin_ t).ipcReceiveCap t ep
      out.1.setContext t (received .receiveCap out.2)
  | .call t m0 m1 =>
    (s.rendezvousInvoked t .write).map fun (ep, badge) =>
      let out := ((s.begin_ t).log (.called s.clock t ep)).ipcCallBadged t ep m0 m1 badge
      out.1.setContext t (if out.2 then .awaiting .call else .returning .call zeros)
  | .reply t w0 w1 =>
    (s.replyInvoked t).map fun (slot, caller, stamp) =>
      (s.ipcReply caller w0 w1 t stamp).setContext t (.replying slot)
  | .deleteReply t =>
    match s.runningIn t with
    | some (.replying slot) => some ((s.deleteCurrentCap t slot).setContext t .user)
    | _ => none
  | .collect t =>
    match s.runningIn t with
    | some (.awaiting op) => some (s.collect t op)
    | _ => none
  | .takeAborted t =>
    match s.runningIn t with
    | some (.returning op msg) => some (s.takeIpcAborted t op msg)
    | _ => none
  | .takeRefused t =>
    match s.runningIn t with
    | some (.refusing op) => some (s.takeIpcRefused t op)
    | _ => none
  | .signal t bits =>
    (s.notificationInvoked t .write).map fun id => (s.signalLocked id bits).setContext t .user
  | .wait t => (s.notificationInvoked t .read).map fun id => (s.begin_ t).waitOn t id
  | .poll t =>
    (s.notificationInvoked t .read).map fun id => (s.notificationPoll id).setContext t .user
  | .lookupBound t slot =>
    (s.notificationInvoked t .write).bind fun id =>
      (s.currentCap t slot).bind fun cap =>
        match cap.object with
        | .threadControlBlock tid =>
          if cap.rights.allows .write then some (s.setContext t (.binding id tid)) else none
        | _ => none
  | .bind t =>
    match s.runningIn t with
    | some (.binding id tid) => some ((s.notificationBind id tid).setContext t .user)
    | _ => none
  | .signalFromInterrupt id bits => some (s.signalLocked id bits)
  | .irqNotify ep => some (s.irqNotify ep)
  | .bindIrq ep =>
    (s.rendezvousOf ep).map fun r => s.setRendezvous ep r.bindToInterrupt
  | .retype t phys count =>
    -- the pages come from the registry of regions; the frame is as old as this system call
    (s.memoryRegionInvoked t).map fun (_, since) =>
      s.setContext t (.granting ⟨.pageFrame phys count, .all, 0, since⟩)
  | .grant t =>
    match s.runningIn t with
    | some (.granting cap) => some ((s.grant t cap).setContext t .user)
    | _ => none
  | .slice t first len =>
    (s.sliceInvoked t first len).map fun cap => (s.grant t cap).setContext t .user
  | .sweep t what =>
    -- the call has no more use for the capability it invoked
    if s.sweepInvoked t what then some ((s.setContext t .user).deletePageFrameCaps what) else none
  | .lookupInserted t slot rights target =>
    (s.threadControlBlockInvoked t).bind fun tid =>
      (s.lookupNarrowed t slot rights).map fun cap =>
        s.setContext t (.inserting tid { cap with stamp := 0 } target)
  | .capInsert t =>
    match s.runningIn t with
    | some (.inserting tid cap target) =>
      some ((s.threadControlBlockInsertCap tid cap target).setContext t .user)
    | _ => none
  | .start t =>
    (s.threadControlBlockInvoked t).map fun tid => (s.startThreadControlBlock tid).setContext t .user
  | .reap base limit => some (s.reapRegionObjects base limit).1

/-- **One step of the machine**: the clock advances, then one critical section runs. -/
def step (a : IpcAction) : Option IpcTables :=
  { s with clock := s.clock + 1 }.section_ a

end

end IpcTables

/-! ### Where runs start -/

/-- A thread that has made no system call yet. -/
structure Thread.Fresh (t : Thread) : Prop where
  handshake : t.handshake = .embryo ∨ t.handshake = .ready ∨ t.handshake = .onCpuNow
  context : t.context = .user
  outgoing : t.outgoingCap = none
  outcome : t.outcome = none
  refused : t.ipcRefused = false
  caps : ∀ i c, t.capabilityTable.slots i = some c → c.isReply = false ∧ c.stamp = 0 ∧ c.born = 0

/-- Any number of fresh threads, of endpoints and of notifications, with nobody waiting. -/
structure IpcTables.Initial (s : IpcTables) : Prop where
  threads : ∀ t th, s.threads.get t = some th → th.Fresh
  rendezvous : ∀ ep r, s.rendezvousOf ep = some r → r.senders = [] ∧ r.receivers = []
  notifications : ∀ id page, s.notificationOf id = some page → page.state.waiters = []
  trace : s.trace = []

/-- A thread in user mode, on a processor, holding `caps`. -/
def Thread.running (caps : List Cap) (page : Nat) : Thread :=
  { Thread.embryo page with
    handshake := .onCpuNow
    capabilityTable := ⟨fun i => caps[i.val]?⟩ }

theorem Thread.fresh_running {caps : List Cap} {page : Nat}
    (h : ∀ c ∈ caps, c.isReply = false ∧ c.stamp = 0 ∧ c.born = 0) :
    (Thread.running caps page).Fresh where
  handshake := .inr (.inr rfl)
  context := rfl
  outgoing := rfl
  outcome := rfl
  refused := rfl
  caps _ c hc := h c (List.mem_of_getElem? hc)

/-- A machine with these threads and idle endpoints, named in order from 0. -/
def IpcTables.start (threads : List Thread) (endpoints : List RendezvousPage)
    (ht : threads.length < nameRadix) (he : endpoints.length < nameRadix) : IpcTables where
  threads := .ofList threads ht
  rendezvousTable := .ofList endpoints he
  notificationTable := .new 0 (by decide)
  timerTable := .new 0 (by decide)
  clock := 0
  trace := []

theorem IpcTables.initial_start {threads : List Thread} {endpoints : List RendezvousPage}
    {ht : threads.length < nameRadix} {he : endpoints.length < nameRadix}
    (hthreads : ∀ th ∈ threads, th.Fresh) (heps : ∀ page ∈ endpoints, page.rendezvous = .new) :
    (IpcTables.start threads endpoints ht he).Initial where
  threads _ th hth := hthreads th (Table.mem_of_get_ofList (h := ht) hth)
  rendezvous ep r hr := by
    obtain ⟨page, hpage, rfl⟩ := Option.map_eq_some_iff.mp hr
    have hnew := heps page (Table.mem_of_get_ofList (h := he) hpage)
    rw [hnew]
    exact ⟨rfl, rfl⟩
  notifications id page hpage := by
    have hget : (Table.new 0 (by decide) : Table NotificationPage).get id = some page := hpage
    obtain ⟨c, hc, -, -⟩ := Table.get_eq_some.mp hget
    cases hc
  trace := rfl

end Nife
