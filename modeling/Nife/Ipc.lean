/-
The critical sections of inter-process communication (`kernel/src/sched.rs`): what `SEND`,
`RECEIVE`, `SEND_CAP`, `RECEIVE_CAP`, `CALL` and `REPLY` do under one hold of the scheduler
lock, the notification operations, and how callers are freed when nobody can answer them.

Where the source then calls `schedule()` the section ends; what the thread does once it runs
again is the next section (`Nife/IpcMachine.lean`).  Where the source unwraps a thread it has
just taken off a queue, the model does nothing for a thread that is not there; that queues
hold only live threads is part of the invariant.
-/
import Nife.IpcTables

namespace Nife

namespace IpcTables

open Rescan (rescan)

/-! ### Looking up and changing one entry -/

section

variable (s : IpcTables)

def rendezvousOf (ep : RendezvousId) : Option (Rendezvous ThreadId) :=
  (s.rendezvousTable.get ep).map RendezvousPage.rendezvous

def notificationOf (id : NotificationId) : Option NotificationPage :=
  s.notificationTable.get id

def modifyThread (t : ThreadId) (f : Thread → Thread) : IpcTables :=
  { s with threads := s.threads.modify t f }

def setRendezvous (ep : RendezvousId) (r : Rendezvous ThreadId) : IpcTables :=
  { s with rendezvousTable := s.rendezvousTable.modify ep fun page => { page with rendezvous := r } }

def setNotification (id : NotificationId) (n : Notification ThreadId) : IpcTables :=
  { s with notificationTable := s.notificationTable.modify id fun page => { page with state := n } }

def mapThreads (f : Thread → Thread) : IpcTables :=
  { s with threads := s.threads.map f }

def removeThread (t : ThreadId) : IpcTables :=
  { s with threads := s.threads.remove t }

def removeRendezvous (ep : RendezvousId) : IpcTables :=
  { s with rendezvousTable := s.rendezvousTable.remove ep }

def removeNotification (id : NotificationId) : IpcTables :=
  { s with notificationTable := s.notificationTable.remove id }

def log (e : Event) : IpcTables := { s with trace := e :: s.trace }

def setIpcAborted (s : IpcTables) (t : ThreadId) : IpcTables := s.modifyThread t Thread.setIpcAborted

def setIpcRefused (s : IpcTables) (t : ThreadId) : IpcTables := s.modifyThread t Thread.setIpcRefused

def wake (s : IpcTables) (t : ThreadId) : IpcTables := s.modifyThread t Thread.wake

def deliver (s : IpcTables) (t : ThreadId) (msg : Mailbox) (d : Delivery) : IpcTables :=
  (s.modifyThread t fun th => th.deliver msg d).wake t

/-! ### Sending and receiving words -/

/-- Widen a three-word message; word 3 is the badge of the capability it was sent through. -/
def wide (m0 m1 m2 badge : Nat) : Mailbox := ⟨m0, m1, m2, badge, 0⟩

/-- `ipc_send_badged`.  The answer says whether the sender blocked. -/
def ipcSendBadged (current : ThreadId) (ep : RendezvousId)
    (m0 m1 m2 badge : Nat) : IpcTables × Bool :=
  let msg := wide m0 m1 m2 badge
  match s.rendezvousOf ep with
  -- the name no longer resolves
  | none => (s.setIpcAborted current, false)
  | some rendezvous =>
    match rendezvous.send current with
    | (r, .rendezvous receiver) =>
      ((s.setRendezvous ep r).deliver receiver msg (.message s.clock none), false)
    | (r, .blocked) =>
      ((s.setRendezvous ep r).modifyThread current fun me =>
        { me with mailbox := msg }.park (.rendezvous ep .sender), true)
    | (_, .refused) => (s.setIpcRefused current, false)

/-- What a bound notification's word is delivered as. -/
def boundDelivery (word : Nat) : Mailbox := ⟨bound, word, 0, 0, bound⟩

/-- The receive-side half of a binding: take a word counted while the thread was elsewhere. -/
def takeBoundSignal (tid : ThreadId) : Option (IpcTables × Nat) := do
  let t ← s.threads.get tid
  let id ← t.boundNotification
  let page ← s.notificationOf id
  if page.state.word = 0 then none
  else some (s.setNotification id page.state.poll.1, page.state.poll.2)

theorem takeBoundSignal_eq_some {s s' : IpcTables} {tid : ThreadId} {word : Nat}
    (h : s.takeBoundSignal tid = some (s', word)) :
    ∃ id page, s.notificationOf id = some page ∧ word = page.state.word ∧
      s' = s.setNotification id page.state.poll.1 := by
  obtain ⟨th, -, h⟩ := Option.bind_eq_some_iff.mp h
  obtain ⟨id, -, h⟩ := Option.bind_eq_some_iff.mp h
  obtain ⟨page, hpage, h⟩ := Option.bind_eq_some_iff.mp h
  split_ifs at h
  cases h
  exact ⟨id, page, hpage, rfl, rfl⟩

/-- The message a receive is given without blocking. -/
def receiveNow (current : ThreadId) (d : Delivery) (msg : Mailbox) : IpcTables × Option Mailbox :=
  (s.modifyThread current fun me => { me with outcome := some (.served d msg true) }, some msg)

/-- `ipc_receive`, up to where it returns a message or blocks (`none`). -/
def ipcReceive (current : ThreadId) (ep : RendezvousId) : IpcTables × Option Mailbox :=
  match s.rendezvousOf ep with
  | none => (s.setIpcAborted current, some ⟨0, 0, 0, 0, 0⟩)
  | some rendezvous =>
    match s.takeBoundSignal current with
    | some (s', word) => s'.receiveNow current (.bound word) (boundDelivery word)
    | none =>
      match rendezvous.receive current with
      | (r, .signal) => (s.setRendezvous ep r).receiveNow current .signal ⟨1, 0, 0, 0, 0⟩
      | (r, .fromSender sender) =>
        let s' := s.setRendezvous ep r
        match s.threads.get sender with
        | none => (s', none)
        | some from_ =>
          let msg := from_.mailbox
          -- a caller awaits a reply and a corpse nothing: neither is woken
          let leaveBlocked := from_.outgoingCap.any Cap.isReply || from_.state = .dead
          let s'' :=
            if ¬ leaveBlocked then
              (s'.modifyThread sender fun t => { t with outgoingCap := none }.serve .collected).wake
                sender
            else if from_.state = .dead then
              s'.modifyThread sender fun t =>
                { t with handshake := { t.handshake with waitOn := none } }
            else s'
          s''.receiveNow current (.message from_.message none) msg
      | (r, .blocked) =>
        ((s.setRendezvous ep r).modifyThread current fun me =>
          me.park (.rendezvous ep .receiver), none)

/-! ### Delegating a capability -/

/-- The slot a capability was installed at; `none` when the table was full. -/
def installedAt (slot : Nat) (cap : Cap) : Option (Nat × Cap) :=
  if slot = CapabilityTable.noCap then none else some (slot, cap)

/-- Record that `receiver`, receiving on `ep`, was given `cap` with message `id`. -/
def logInstalled (receiver : ThreadId) (ep : RendezvousId) (id : Nat) (cap : Cap)
    (slot : Nat) : IpcTables :=
  match installedAt slot cap with
  | none => s
  | some _ => s.log (.installed receiver ep id cap slot)

/-- A parked receiver is handed a capability along with its message: install it, say where in
word 1, and wake the receiver. -/
def deliverCap (receiver : ThreadId) (ep : RendezvousId) (cap : Cap)
    (msg : Nat → Mailbox) : IpcTables :=
  match s.threads.get receiver with
  | none => s
  | some peer =>
    let slot := (peer.capabilityTable.install cap).2
    ((s.logInstalled receiver ep s.clock cap slot).modifyThread receiver fun t =>
      { t with
        capabilityTable := (t.capabilityTable.install cap).1
        capDelivered := true }).deliver receiver (msg slot)
          (.message s.clock (installedAt slot cap))

/-- `ipc_send_cap`. -/
def ipcSendCap (current : ThreadId) (ep : RendezvousId) (data : Nat) (cap : Cap)
    (badge : Nat) : IpcTables × Bool :=
  match s.rendezvousOf ep with
  | none => (s.setIpcAborted current, false)
  | some rendezvous =>
    match rendezvous.send current with
    | (r, .rendezvous receiver) =>
      ((s.setRendezvous ep r).deliverCap receiver ep cap fun slot => ⟨data, slot, 0, badge, 0⟩,
        false)
    | (r, .blocked) =>
      ((s.setRendezvous ep r).modifyThread current fun me =>
        { me with mailbox := ⟨data, 0, 0, badge, 0⟩, outgoingCap := some cap }.park
          (.rendezvous ep .sender), true)
    | (_, .refused) => (s.setIpcRefused current, false)

/-- The word that says a receive's slot word names a `Reply`. -/
def replyTag (slot : Nat) : Nat :=
  if slot = CapabilityTable.noCap then 0 else replyDelivered

/-- `grant`: file a capability in the caller's own table; a full table drops it. -/
def grant (current : ThreadId) (cap : Cap) : IpcTables :=
  s.modifyThread current fun t =>
    { t with capabilityTable := (t.capabilityTable.install cap).1 }

/-- Take the capability a collected sender staged, and file it in the receiver's table.  The
answer is the capability and the slot word. -/
def collectCap (current : ThreadId) (ep : RendezvousId) (sender : ThreadId)
    (from_ : Thread) : IpcTables × Option Cap × Nat :=
  let s := s.modifyThread sender fun t => { t with outgoingCap := none }
  match from_.outgoingCap, s.threads.get current with
  | some cap, some me =>
    let slot := (me.capabilityTable.install cap).2
    ((s.logInstalled current ep from_.message cap slot).grant current cap, some cap, slot)
  | cap, _ => (s, cap, CapabilityTable.noCap)

/-- `ipc_receive_cap`, up to where it returns a message or blocks (`none`). -/
def ipcReceiveCap (current : ThreadId) (ep : RendezvousId) : IpcTables × Option Mailbox :=
  match s.rendezvousOf ep with
  | none => (s.setIpcAborted current, some ⟨0, 0, 0, 0, 0⟩)
  | some rendezvous =>
    match s.takeBoundSignal current with
    | some (s', word) => s'.receiveNow current (.bound word) (boundDelivery word)
    | none =>
      match rendezvous.receive current with
      | (r, .signal) =>
        (s.setRendezvous ep r).receiveNow current .signal ⟨1, CapabilityTable.noCap, 0, 0, 0⟩
      | (r, .fromSender sender) =>
        match s.threads.get sender with
        | none => (s.setRendezvous ep r, none)
        | some from_ =>
          let msg := from_.mailbox
          let collected := (s.setRendezvous ep r).collectCap current ep sender from_
          let cap := collected.2.1
          let slot := collected.2.2
          let isReply := cap.any Cap.isReply
          -- a caller stays blocked until its reply; any other sender's rendezvous is complete
          let s' :=
            if isReply then collected.1
            else (collected.1.modifyThread sender fun t => t.serve .collected).wake sender
          let tag := if isReply then replyTag slot else 0
          s'.receiveNow current (.message from_.message (cap.bind (installedAt slot)))
            ⟨msg.w0, slot, msg.w1, msg.w3, tag⟩
      | (r, .blocked) =>
        ((s.setRendezvous ep r).modifyThread current fun me =>
          { me with capDelivered := false }.park (.rendezvous ep .receiver), none)

/-! ### Call and reply -/

/-- `ipc_call_badged`, up to where it blocks; the answer says whether it did. -/
def ipcCallBadged (current : ThreadId) (ep : RendezvousId) (m0 m1 badge : Nat) : IpcTables × Bool :=
  let reply := Cap.reply current s.clock
  match s.rendezvousOf ep with
  | none => (s.setIpcAborted current, false)
  | some rendezvous =>
    match rendezvous.send current with
    | (r, .rendezvous receiver) =>
      (((s.setRendezvous ep r).deliverCap receiver ep reply fun slot =>
          ⟨m0, slot, m1, badge, replyTag slot⟩).modifyThread current fun me =>
        me.park (.rendezvous ep .reply), true)
    | (r, .blocked) =>
      ((s.setRendezvous ep r).modifyThread current fun me =>
        { me with mailbox := ⟨m0, m1, 0, badge, 0⟩, outgoingCap := some reply }.park
          (.rendezvous ep .reply), true)
    | (_, .refused) => (s.setIpcRefused current, false)

/-- `ipc_reply`.  `server` and `stamp` are ghosts: who invoked which `Reply`. -/
def ipcReply (caller : ThreadId) (w0 w1 : Nat) (server : ThreadId) (stamp : Nat) : IpcTables :=
  match s.threads.get caller with
  | none => s
  | some t =>
    if t.awaitsReply then
      (s.log (.answered stamp server caller t.message w0 w1)).deliver caller ⟨w0, w1, 0, 0, 0⟩
        (.reply stamp)
    else s

/-- The sweep both teardowns of a reply park run: no `Reply` naming `caller` is left in any
table or hand-off slot. -/
def deleteReplyCapsNaming (caller : ThreadId) : IpcTables :=
  s.mapThreads fun t => t.sweep fun o => o = .reply caller

/-- Free one caller that nobody can answer any more. -/
def strandReplyCaller (caller : ThreadId) : IpcTables :=
  if (s.threads.get caller).any Thread.awaitsReply then
    ((s.deleteReplyCapsNaming caller).setIpcAborted caller).wake caller
  else s

/-- The callers named by the `Reply` capabilities of one table, in slot order. -/
def victims (t : CapabilityTable) : List ThreadId :=
  (List.finRange capabilityTableSlots).filterMap fun i =>
    (t.slots i).bind fun c =>
      match c.object with
      | .reply caller => some caller
      | _ => none

/-- Free every caller `tid` still holds a `Reply` for. -/
def strandCallersOf (tid : ThreadId) : IpcTables :=
  match s.threads.get tid with
  | none => s
  | some t => (victims t.capabilityTable).foldl strandReplyCaller s

/-- Free every caller parked for a reply through `ep`: look for one, free it, look again. -/
def strandCallersAwaiting (ep : RendezvousId) : IpcTables :=
  rescan (fun s => s.threads.find fun t => t.awaitsReplyOn ep) strandReplyCaller
    s.threads.live s

/-! ### Notifications -/

/-- The bound thread of a notification and the endpoint it is parked receiving on. -/
def boundReceiver (page : NotificationPage) : Option (ThreadId × RendezvousId) := do
  let tid ← page.bound
  let t ← s.threads.get tid
  match t.handshake.waitOn with
  | some (.rendezvous ep .receiver) =>
    if t.state = .blocked ∧ ¬ t.handshake.isDelivered then some (tid, ep) else none
  | _ => none

/-- Unlink a bound receiver from the queue it is parked on and hand it the word. -/
def deliverBound (tid : ThreadId) (ep : RendezvousId) (word : Nat) : IpcTables :=
  let s :=
    match s.rendezvousOf ep with
    | none => s
    | some r => s.setRendezvous ep (r.removeReceiver tid)
  s.deliver tid (boundDelivery word) (.bound word)

/-- `signal_locked`; a stale name changes nothing. -/
def signalLocked (id : NotificationId) (bits : Nat) : IpcTables :=
  match s.notificationOf id with
  | none => s
  | some page =>
    match page.state.signal bits (s.boundReceiver page).isSome, s.boundReceiver page with
    | (n, .woke waiter word), _ =>
      (s.setNotification id n).deliver waiter ⟨word, 0, 0, 0, 0⟩ (.word word)
    | (n, .toBound word), some (tid, ep) => (s.setNotification id n).deliverBound tid ep word
    | (n, _), _ => s.setNotification id n

/-- `notification_wait`: `none` when the name is stale, else the word taken, or `none` again
for a thread that blocks. -/
def notificationWait (current : ThreadId) (id : NotificationId) : Option (IpcTables × Option Nat) :=
  (s.notificationOf id).map fun page =>
    match page.state.wait current with
    | (n, some word) => (s.setNotification id n, some word)
    | (n, none) =>
      ((s.setNotification id n).modifyThread current fun t => t.park (.notification id), none)

def notificationPoll (id : NotificationId) : IpcTables :=
  match s.notificationOf id with
  | none => s
  | some page => s.setNotification id page.state.poll.1

/-- `notification_bind`; a refused bind changes nothing.  A word already waiting is delivered
at once to a thread that is already receiving. -/
def notificationBind (id : NotificationId) (tid : ThreadId) : IpcTables :=
  match s.notificationOf id, s.threads.get tid with
  | some page, some t =>
    if (page.bound.bind s.threads.get).isSome then s
    else if t.state = .finished ∨ t.state = .dead then s
    else if (t.boundNotification.bind s.notificationOf).isSome then s
    else
      let page := { page with bound := some tid }
      let s :=
        { s with notificationTable := s.notificationTable.modify id fun _ => page }.modifyThread tid
          fun t => { t with boundNotification := some id }
      match s.boundReceiver page with
      | some (tid, ep) =>
        if page.state.word ≠ 0 then
          (s.setNotification id page.state.poll.1).deliverBound tid ep page.state.word
        else s
      | none => s
  | _, _ => s

/-- An interrupt, delivered as a message to whoever waits on `ep`. -/
def irqNotify (ep : RendezvousId) : IpcTables :=
  match s.rendezvousOf ep with
  | none => s
  | some rendezvous =>
    match rendezvous.signal with
    | (r, some waiter) => (s.setRendezvous ep r).deliver waiter ⟨1, 0, 0, 0, 0⟩ .signal
    | (r, none) => s.setRendezvous ep r

/-! ### Departing -/

/-- Send a corpse's last message to its supervision endpoint; with nobody there the corpse
itself waits on the sender queue. -/
def deliverDeath (corpse : ThreadId) (ep : RendezvousId) (msg : Mailbox) : IpcTables :=
  match s.rendezvousOf ep with
  | none => s
  | some rendezvous =>
    match rendezvous.send corpse with
    | (r, .rendezvous receiver) => (s.setRendezvous ep r).deliver receiver msg .death
    | (r, .blocked) =>
      (s.setRendezvous ep r).modifyThread corpse fun t =>
        { t with handshake := { t.handshake with waitOn := some (.rendezvous ep .sender) } }
    | (_, .refused) => s

def setState (t : ThreadId) (st : RunState) : IpcTables :=
  s.modifyThread t fun th => { th with handshake := { th.handshake with state := st } }

/-- `depart`, the last critical section of a thread that exits or faults. -/
def depart (current : ThreadId) (event pc addr : Nat) : IpcTables :=
  let s := (s.log (.ended current)).strandCallersOf current
  match (s.threads.get current).bind Thread.faultEp with
  | none => s.setState current .finished
  | some ep =>
    let msg : Mailbox := ⟨event, current, pc, addr, 0⟩
    ((s.modifyThread current fun t => { t with mailbox := msg }).setState current .dead).deliverDeath
      current ep msg

/-- A killed thread that enters the scheduler running is converted to a corpse there. -/
def finishKilledCurrent (current : ThreadId) : IpcTables :=
  ((s.log (.ended current)).setState current .finished).strandCallersOf current

/-! ### Capability tables under the lock -/

def currentCap (current : ThreadId) (slot : Nat) : Option Cap :=
  (s.threads.get current).bind fun t => t.capabilityTable.get slot

def deleteCurrentCap (current : ThreadId) (slot : Nat) : IpcTables :=
  s.modifyThread current fun t => { t with capabilityTable := t.capabilityTable.delete slot }

/-- `thread_control_block_insert_cap`: only an embryo's table may be filled from outside. -/
def threadControlBlockInsertCap (tid : ThreadId) (cap : Cap) (target : Option Nat) : IpcTables :=
  s.modifyThread tid fun t =>
    if t.state = .embryo then
      { t with
        capabilityTable :=
          ((t.capabilityTable.insertInto target cap).map Prod.fst).getD t.capabilityTable }
    else t

/-- `delete_page_frame_caps` and `delete_page_frame_caps_overlapping`. -/
def deletePageFrameCaps (what : FrameSweep) : IpcTables :=
  (s.mapThreads fun t => t.sweep what.hits).log (.swept s.clock what)

end

end IpcTables

end Nife
