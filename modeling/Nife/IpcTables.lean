/-
The tables the scheduler lock protects (`IpcTables` in `kernel/src/sched.rs`) and the pieces
its critical sections are made of: looking an object up, parking, delivering, aborting,
waking, and the sweeps over every thread.  Each function is one stretch of code run under
one hold of the lock.

A `Thread` carries, beside the source's fields, its `context`: where between two holds of the
lock its system call stands, with what it has read so far.  Two ghosts follow a system call
for the sake of the theorems: `message`, the time it began, and `outcome`, the first thing
that happened to the wait it is in.  The ghost `trace` lists what happened, newest first;
like the source's own trace ring, nothing reads it.
-/
import Nife.Capability
import Nife.GenerationalTable
import Nife.Handshake
import Nife.Lib.Rescan
import Nife.Rendezvous

namespace Nife

/-- As what a thread waits at an endpoint. -/
inductive WaitRole
  | sender | receiver | reply
  deriving DecidableEq, Repr

/-- What a thread waits on. -/
inductive Wait
  | rendezvous (ep : RendezvousId) (role : WaitRole)
  | notification (id : NotificationId)
  deriving DecidableEq, Repr

/-- The words of a message. -/
structure Mailbox where
  (w0 w1 w2 w3 w4 : Nat)
  deriving DecidableEq, Repr

/-- The word by which a receive is told that its bound notification ended it. -/
def bound : Nat := 2

/-- The word by which a receive is told that its slot word names a `Reply`. -/
def replyDelivered : Nat := 1

/-- The primitives. -/
inductive IpcOp
  | send | sendCap | receive | receiveCap | call | notificationWait
  deriving DecidableEq, Repr

/-- What the kernel did for a wait it ended. -/
inductive Delivery
  | message (id : Nat) (installed : Option (Nat × Cap))
  | death | signal
  | bound (word : Nat)
  | reply (stamp : Nat)
  | word (word : Nat)
  | collected
  deriving DecidableEq, Repr

/-- The first thing that happened to a wait; for one that was served, with the mailbox and
the mark of an installed capability as they then were. -/
inductive Outcome
  | served (delivery : Delivery) (mailbox : Mailbox) (capDelivered : Bool)
  | aborted
  deriving DecidableEq, Repr

/-- Where a thread's system call stands between two holds of the lock. -/
inductive Context
  /-- In user mode. -/
  | user
  /-- `invoke` has copied the capability out of `slot`, at time `since`. -/
  | invoking (slot : Nat) (cap : Cap) (since : Nat)
  /-- `SEND_CAP` has copied both capabilities, the second one narrowed. -/
  | delegating (ep : RendezvousId) (badge : Nat) (cap : Cap)
  /-- `CAP_INSERT` has copied both capabilities. -/
  | inserting (tid : ThreadId) (cap : Cap) (target : Option Nat)
  /-- `BIND` has copied both capabilities. -/
  | binding (id : NotificationId) (tid : ThreadId)
  /-- `REPLY` has answered and not yet deleted the capability. -/
  | replying (slot : Nat)
  /-- `RETYPE` has taken the run and not yet granted the capability. -/
  | granting (cap : Cap)
  /-- Parked, or woken and not yet back: the mailbox is still to be read. -/
  | awaiting (op : IpcOp)
  /-- The primitive returned `msg`; the aborted flag is still to be read. -/
  | returning (op : IpcOp) (msg : Mailbox)
  /-- The aborted flag was set; why is still to be read. -/
  | refusing (op : IpcOp)
  deriving DecidableEq, Repr

/-- What an address space is backed by: a region of its own, freed with it, or one lent. -/
inductive Backing
  | owned (region : Nat)
  | lent (region : Nat)
  deriving DecidableEq, Repr

/-- An address space and what paid for it. -/
structure AddressSpace where
  root : Nat
  backing : Backing
  deriving DecidableEq, Repr

/-- A thread's control block. -/
structure Thread where
  handshake : Handshake Wait
  capabilityTable : CapabilityTable
  mailbox : Mailbox
  outgoingCap : Option Cap
  (capDelivered ipcRefused killed : Bool)
  faultEp : Option RendezvousId
  boundNotification : Option NotificationId
  space : Option AddressSpace
  entry : Nat
  /-- The page the control block lives at the start of. -/
  page : Nat
  context : Context
  message : Nat
  outcome : Option Outcome

namespace Thread

/-- `Thread::embryo()`, at `page`. -/
def embryo (page : Nat) : Thread where
  handshake := .embryo
  capabilityTable := .new
  mailbox := ⟨0, 0, 0, 0, 0⟩
  outgoingCap := none
  capDelivered := false
  ipcRefused := false
  killed := false
  faultEp := none
  boundNotification := none
  space := none
  entry := 0
  page := page
  context := .user
  message := 0
  outcome := none

def state (t : Thread) : RunState := t.handshake.state

def park (t : Thread) (w : Wait) : Thread :=
  { t with handshake := t.handshake.park w, outcome := none }

/-- Mark the wait served; the mailbox is what it is at that moment. -/
def serve (t : Thread) (d : Delivery) : Thread :=
  { t with
    handshake := t.handshake.serve
    outcome := t.outcome <|> some (.served d t.mailbox t.capDelivered) }

section

variable (t : Thread)

def deliver (msg : Mailbox) (d : Delivery) : Thread :=
  { t with mailbox := msg }.serve d

/-- An abort discards the capability staged for the send it ends. -/
def setIpcAborted : Thread :=
  { t with
    handshake := t.handshake.abort
    outgoingCap := none
    outcome := t.outcome <|> some .aborted }

def setIpcRefused : Thread :=
  { t with handshake := t.handshake.abort, ipcRefused := true }

def wake : Thread := { t with handshake := t.handshake.tryWake.1 }

/-- Parked awaiting a reply, whatever the endpoint. -/
def awaitsReply : Bool :=
  match t.handshake.waitOn with
  | some (.rendezvous _ .reply) => true
  | _ => false

/-- Parked awaiting a reply through `ep` and not yet aborted. -/
def awaitsReplyOn (ep : RendezvousId) : Bool :=
  t.handshake.waitOn = some (.rendezvous ep .reply) && !t.handshake.ipcAborted

/-- Delete what matches from the table and from the hand-off slot. -/
def sweep (p : Object → Bool) : Thread :=
  { t with
    capabilityTable := t.capabilityTable.deleteMatching p
    outgoingCap := t.outgoingCap.filter fun c => !p c.object }

end

end Thread

/-- An endpoint and its page. -/
structure RendezvousPage where
  phys : Nat
  rendezvous : Rendezvous ThreadId

/-- A notification and its page. -/
structure NotificationPage where
  phys : Nat
  state : Notification ThreadId
  bound : Option ThreadId

/-- The two sweeps for `PageFrame` capabilities: one run exactly, or all that overlap. -/
inductive FrameSweep
  | run (phys : Nat) (count : ℕ+)
  | overlapping (base size : Nat)
  deriving DecidableEq, Repr

/-- The objects a sweep for page frames deletes.  The ends of runs saturate. -/
def FrameSweep.hits : FrameSweep → Object → Bool
  | .run phys count, o => o = .pageFrame phys count
  | .overlapping base size, .pageFrame phys count =>
    phys < min (base + size) 0xffffffffffffffff &&
      base < min (phys + min (count.val * 4096) 0xffffffffffffffff) 0xffffffffffffffff
  | .overlapping _ _, _ => false

/-- What a system call came to. -/
inductive IpcResult
  | ok (msg : Mailbox)
  | gone | notPermitted
  deriving DecidableEq, Repr

/-- The ghost trace. -/
inductive Event
  /-- A `CALL` was made on `ep`. -/
  | called (id : Nat) (caller : ThreadId) (ep : RendezvousId)
  /-- A `SEND_CAP` of `cap` was made on `ep`. -/
  | delegated (id : Nat) (sender : ThreadId) (ep : RendezvousId) (cap : Cap)
  /-- `receiver`, receiving on `ep`, was given `cap` with message `id`, at `slot`. -/
  | installed (receiver : ThreadId) (ep : RendezvousId) (id : Nat) (cap : Cap) (slot : Nat)
  /-- A `Reply` stamped `stamp`, invoked by `server`, reached `caller` in call `id`. -/
  | answered (stamp : Nat) (server caller : ThreadId) (id : Nat) (w0 w1 : Nat)
  /-- The thread will not run again. -/
  | ended (tid : ThreadId)
  | swept (at_ : Nat) (what : FrameSweep)
  | returned (tid : ThreadId) (op : IpcOp) (id : Nat) (outcome : Option Outcome)
      (result : IpcResult)
  deriving DecidableEq, Repr

/-- The kernel's tables of objects. -/
structure IpcTables where
  threads : Table Thread
  rendezvousTable : Table RendezvousPage
  notificationTable : Table NotificationPage
  /-- A timer's page; what it is armed with is its own affair. -/
  timerTable : Table Nat
  clock : Nat
  trace : List Event

end Nife
