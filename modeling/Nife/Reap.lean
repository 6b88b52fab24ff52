/-
Tearing a region's objects down (`reap_region_objects` and what it calls, in
`kernel/src/sched.rs`), all under one hold of the scheduler lock.  Endpoints, notifications
and timers of the range go first, whatever follows; then every thread of the range that is
blocked and off its processor is ended in place; then the reap is refused if a thread of the
range can still run or stands on a processor; and only then are the threads removed.

Each phase is a loop that looks for one object, deals with it and looks again.
-/
import Nife.Ipc

namespace Nife

/-- What a reap does with a thread. -/
inductive RegionReap
  | reap | refuseAndArm | refuseStanding | finishInPlace
  deriving DecidableEq, Repr

/-- `region_reap_verdict`. -/
def regionReapVerdict (state : RunState) (onCpu : Bool) : RegionReap :=
  if state = .ready ∨ state = .running then .refuseAndArm
  else if state = .blocked ∧ ¬ onCpu then .finishInPlace
  else if onCpu then .refuseStanding
  else .reap

def Thread.verdict (t : Thread) : RegionReap :=
  regionReapVerdict t.handshake.state t.handshake.onCpu

def inRange (base limit page : Nat) : Bool := base ≤ page && page < limit

namespace IpcTables

open Rescan (rescan)

/-! ### Draining -/

section

variable (s : IpcTables)

def abortWaiter (t : ThreadId) : IpcTables := (s.setIpcAborted t).wake t

/-- The next waiter to drain from a rendezvous: senders first. -/
def nextWaiter (ep : RendezvousId) : Option ThreadId :=
  (s.rendezvousOf ep).bind fun r => r.senders.head? <|> r.receivers.head?

/-- Pop that waiter, then abort it. -/
def drainOne (ep : RendezvousId) (s : IpcTables) (t : ThreadId) : IpcTables :=
  match s.rendezvousOf ep with
  | none => s
  | some r =>
    let r :=
      match r.senders with
      | _ :: rest => { r with senders := rest }
      | [] => { r with receivers := r.receivers.tail }
    (s.setRendezvous ep r).abortWaiter t

/-- `drain_waiters` of a rendezvous, with the callback the reap gives it. -/
def drainRendezvous (ep : RendezvousId) : IpcTables :=
  match s.rendezvousOf ep with
  | none => s
  | some r =>
    rescan (fun s => s.nextWaiter ep) (drainOne ep) (r.senders.length + r.receivers.length) s

/-- `drain_waiters` of a notification, one waiter at a time. -/
def drainNotification (id : NotificationId) : IpcTables :=
  match s.notificationOf id with
  | none => s
  | some page =>
    rescan (fun s => (s.notificationOf id).bind fun page => page.state.waiters.head?)
      (fun s t =>
        match s.notificationOf id with
        | none => s
        | some page =>
          (s.setNotification id { page.state with waiters := page.state.waiters.tail }).abortWaiter t)
      page.state.waiters.length s

/-! ### The phases -/

def reapRendezvous (ep : RendezvousId) : IpcTables :=
  ((s.drainRendezvous ep).removeRendezvous ep).strandCallersAwaiting ep

def reapRegionRendezvous (base limit : Nat) : IpcTables :=
  rescan (fun s => s.rendezvousTable.find fun page => inRange base limit page.phys) reapRendezvous
    s.rendezvousTable.live s

def reapNotification (id : NotificationId) : IpcTables :=
  (s.drainNotification id).removeNotification id

def reapRegionNotifications (base limit : Nat) : IpcTables :=
  rescan (fun s => s.notificationTable.find fun page => inRange base limit page.phys)
    reapNotification s.notificationTable.live s

def reapRegionTimers (base limit : Nat) : IpcTables :=
  rescan (fun s => s.timerTable.find fun phys => inRange base limit phys)
    (fun s name => { s with timerTable := s.timerTable.remove name }) s.timerTable.live s

/-- `finish_blocked_resident`: unlink the thread from what it waits on, delete every `Reply`
that names it, and end it where it stands. -/
def finishBlockedResident (tid : ThreadId) : IpcTables :=
  let s :=
    match (s.threads.get tid).bind fun t => t.handshake.waitOn with
    | some (.rendezvous ep _) =>
      match s.rendezvousOf ep with
      | none => s
      | some r => s.setRendezvous ep ((r.removeSender tid).removeReceiver tid)
    | some (.notification id) =>
      match s.notificationOf id with
      | none => s
      | some page => s.setNotification id (page.state.removeWaiter tid)
    | none => s
  ((s.log (.ended tid)).deleteReplyCapsNaming tid).modifyThread tid fun t =>
    { t with
      killed := true
      handshake := { t.handshake with state := .finished, waitOn := none } }

def finishResidents (base limit : Nat) : IpcTables :=
  rescan (fun s => s.threads.find fun t =>
      inRange base limit t.page && t.verdict = .finishInPlace) finishBlockedResident
    s.threads.live s

/-- The refuse phase's mark on one thread. -/
def armKill (base limit : Nat) (t : Thread) : Thread :=
  if inRange base limit t.page ∧ (t.verdict = .refuseAndArm ∨ t.verdict = .finishInPlace) then
    { t with killed := true }
  else t

/-- A thread of the range that the reap may not free. -/
def refused (base limit : Nat) (t : Thread) : Bool :=
  inRange base limit t.page && t.verdict ≠ .reap

/-- One round of the removal phase: a corpse is unlinked from its supervision endpoint, the
callers the thread will never answer are freed, and the thread is removed. -/
def removeResident (tid : ThreadId) : IpcTables :=
  let parked := (s.threads.get tid).bind fun t => if t.state = .dead then t.faultEp else none
  let s :=
    match parked with
    | none => s
    | some ep =>
      match s.rendezvousOf ep with
      | none => s
      | some r => s.setRendezvous ep (r.removeSender tid)
  ((s.log (.ended tid)).strandCallersOf tid).removeThread tid

def removeResidents (base limit : Nat) : IpcTables :=
  rescan (fun s => s.threads.find fun t => inRange base limit t.page) removeResident
    s.threads.live s

/-- The phases before the refusal. -/
def quiesceRegion (base limit : Nat) : IpcTables :=
  (((s.reapRegionRendezvous base limit).reapRegionNotifications base limit).reapRegionTimers base
    limit).finishResidents base limit

/-- **`reap_region_objects`**; the answer is whether it returned `Ok`. -/
def reapRegionObjects (base limit : Nat) : IpcTables × Bool :=
  let s := s.quiesceRegion base limit
  let armed := s.mapThreads (armKill base limit)
  if (s.threads.find (refused base limit)).isSome then (armed, false)
  else (armed.removeResidents base limit, true)

end

end IpcTables

end Nife
