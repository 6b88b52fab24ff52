/-
The two objects threads meet at (`crates/inter_process_communication`).  A `Rendezvous`
has a queue of blocked senders and one of blocked receivers, and counts interrupts that
found nobody waiting; once bound to an interrupt it refuses every send.  A `Notification`
has a word of pending bits and a queue of waiters.

Both decide and queue; what is delivered to whom is the caller's business.  The source's
queues are linked through the threads themselves; here they are lists of their ids.
-/
import Mathlib.Data.List.Basic

namespace Nife

variable {α : Type*} [DecidableEq α]

/-- An endpoint. -/
structure Rendezvous (α : Type*) where
  (senders receivers : List α)
  pending : Nat
  boundToInterrupt : Bool
  deriving DecidableEq, Repr

/-- What a send came to. -/
inductive Send (α : Type*)
  | rendezvous (receiver : α)
  | blocked | refused
  deriving DecidableEq, Repr

/-- What a receive came to. -/
inductive Receive (α : Type*)
  | signal
  | fromSender (sender : α)
  | blocked
  deriving DecidableEq, Repr

/-- The loop that takes one node out of a queue: pop every node, and push back all but the
victim.  Answers the new queue and whether the victim was met. -/
def sift (victim : α) : List α → List α → Bool → List α × Bool
  | [], kept, found => (kept, found)
  | node :: rest, kept, found =>
    if node = victim then sift victim rest kept true else sift victim rest (kept ++ [node]) found

theorem sift_append (victim : α) (queue kept : List α) (found : Bool) : sift victim queue kept found
      = (kept ++ queue.filter (· ≠ victim), found || decide (victim ∈ queue)) := by
  induction queue generalizing kept found with
  | nil => simp [sift]
  | cons node rest ih =>
    rw [sift]
    split
    · next h => simp [ih, h]
    · next h => simp [ih, h, Ne.symm h]

theorem sift_eq (victim : α) (queue : List α) :
    sift victim queue [] false = (queue.filter (· ≠ victim), decide (victim ∈ queue)) := by
  rw [sift_append, List.nil_append, Bool.false_or]

namespace Rendezvous

def new : Rendezvous α := ⟨[], [], 0, false⟩

section

variable (r : Rendezvous α)

def bindToInterrupt : Rendezvous α := { r with boundToInterrupt := true }

/-- The counter of undelivered interrupts is a `u32` that saturates. -/
def pendingMax : Nat := 0xffffffff

def send (me : α) : Rendezvous α × Send α :=
  if r.boundToInterrupt then (r, .refused)
  else
    match r.receivers with
    | receiver :: rest => ({ r with receivers := rest }, .rendezvous receiver)
    | [] => ({ r with senders := r.senders ++ [me] }, .blocked)

def receive (me : α) : Rendezvous α × Receive α :=
  if 0 < r.pending then ({ r with pending := r.pending - 1 }, .signal)
  else
    match r.senders with
    | sender :: rest => ({ r with senders := rest }, .fromSender sender)
    | [] => ({ r with receivers := r.receivers ++ [me] }, .blocked)

def signal : Rendezvous α × Option α :=
  match r.receivers with
  | receiver :: rest => ({ r with receivers := rest }, some receiver)
  | [] => ({ r with pending := min (r.pending + 1) pendingMax }, none)

def removeSender (victim : α) : Rendezvous α :=
  { r with senders := r.senders.filter (· ≠ victim) }

def removeReceiver (victim : α) : Rendezvous α :=
  { r with receivers := r.receivers.filter (· ≠ victim) }

/-- `remove_sender` as the source computes it, with its answer. -/
def siftSender (victim : α) : Rendezvous α × Bool :=
  ({ r with senders := (sift victim r.senders [] false).1 }, (sift victim r.senders [] false).2)

def siftReceiver (victim : α) : Rendezvous α × Bool :=
  ({ r with receivers := (sift victim r.receivers [] false).1 },
    (sift victim r.receivers [] false).2)

end

theorem siftSender_eq (r : Rendezvous α) (victim : α) :
    r.siftSender victim = (r.removeSender victim, decide (victim ∈ r.senders)) := by
  rw [siftSender, sift_eq, removeSender]

theorem siftReceiver_eq (r : Rendezvous α) (victim : α) :
    r.siftReceiver victim = (r.removeReceiver victim, decide (victim ∈ r.receivers)) := by
  rw [siftReceiver, sift_eq, removeReceiver]

omit [DecidableEq α]

/-- Empty both queues, the senders first; the nodes in the order they are handed over. -/
def drainWaiters (r : Rendezvous α) : Rendezvous α × List α :=
  ({ r with senders := [], receivers := [] }, r.senders ++ r.receivers)

end Rendezvous

/-! ### Notifications -/

/-- A word of bits and its waiters. -/
structure Notification (α : Type*) where
  word : Nat
  waiters : List α
  deriving DecidableEq, Repr

/-- What a signal came to. -/
inductive Signal (α : Type*)
  | woke (waiter : α) (word : Nat)
  | toBound (word : Nat)
  | counted | empty
  deriving DecidableEq, Repr

namespace Notification

def new : Notification α := ⟨0, []⟩

section

variable (n : Notification α)

def signal (bits : Nat) (boundReceiving : Bool) : Notification α × Signal α :=
  if bits = 0 then (n, .empty)
  else
    match n.waiters with
    | waiter :: rest => ({ n with waiters := rest }, .woke waiter bits)
    | [] =>
      if boundReceiving then ({ n with word := 0 }, .toBound (n.word ||| bits))
      else ({ n with word := n.word ||| bits }, .counted)

/-- Take the word, or join the queue (`none`). -/
def wait (me : α) : Notification α × Option Nat :=
  if n.word ≠ 0 then ({ n with word := 0 }, some n.word)
  else ({ n with waiters := n.waiters ++ [me] }, none)

def poll : Notification α × Nat := ({ n with word := 0 }, n.word)

def removeWaiter (victim : α) : Notification α :=
  { n with waiters := n.waiters.filter (· ≠ victim) }

/-- `remove_waiter` as the source computes it, with its answer. -/
def siftWaiter (victim : α) : Notification α × Bool :=
  ({ n with waiters := (sift victim n.waiters [] false).1 }, (sift victim n.waiters [] false).2)

end

theorem siftWaiter_eq (n : Notification α) (victim : α) :
    n.siftWaiter victim = (n.removeWaiter victim, decide (victim ∈ n.waiters)) := by
  rw [siftWaiter, sift_eq, removeWaiter]

omit [DecidableEq α]

def drainWaiters (n : Notification α) : Notification α × List α :=
  ({ n with waiters := [] }, n.waiters)

end Notification

end Nife
