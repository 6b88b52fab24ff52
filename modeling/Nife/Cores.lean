/-
The scheduler across processors (`kernel/src/sched.rs`): threads with their handshakes,
a run queue and an inbox for each core, what each core is running and what it has just
switched away from.  Every step is one hold of the scheduler lock or one interrupt-masked
section on one core.

The kernel's discipline is in the guards: a core that has switched finishes that switch
before anything else it does (interrupts are masked until it has), only a core itself pops
its run queue, and the idle loop makes no syscall.  That a thread has read its aborted flag
before it parks again is not among them, since not every syscall reads it: it is a condition
on runs (`Cores.ParksClear`).

Each thread carries a history that no step reads: which of its parks were delivered and
which were completed by an enqueue.  The results are in `Nife/CoresInv.lean`.
-/
import Mathlib.Data.Fintype.Basic
import Nife.Handshake
import Nife.Lib.Queues
import Nife.Lib.Transition

namespace Nife

open Queues Function

/-- The parks of one thread, numbered from 0: how many there were, which were delivered
(served or aborted) and which were completed (the thread made ready and enqueued). -/
structure ParkHistory where
  parks : Nat
  (delivered completed : List Nat)
  deriving DecidableEq, Repr

namespace ParkHistory

def new : ParkHistory := ⟨0, [], []⟩

section

variable (h : ParkHistory)

def park : ParkHistory := { h with parks := h.parks + 1 }

def deliver : ParkHistory := { h with delivered := (h.parks - 1) :: h.delivered }

def complete : ParkHistory := { h with completed := (h.parks - 1) :: h.completed }

end

end ParkHistory

/-- A thread as the scheduler sees it. -/
structure CoreThread (W : Type*) where
  handshake : Handshake W
  killed : Bool
  history : ParkHistory
  deriving DecidableEq, Repr

namespace CoreThread

variable {W : Type*}

def new (h : Handshake W) : CoreThread W := ⟨h, false, ParkHistory.new⟩

/-- The run state alone, as `depart`, the kill and `start` write it. -/
def setState (th : CoreThread W) (st : RunState) : CoreThread W :=
  { th with handshake := { th.handshake with state := st } }

def park (th : CoreThread W) (w : W) : CoreThread W :=
  { th with handshake := th.handshake.park w, history := th.history.park }

/-- Mark the park a delivery is for, if there is one. -/
def noteDelivery (th : CoreThread W) : CoreThread W :=
  if th.handshake.state = .blocked then { th with history := th.history.deliver } else th

def serve (th : CoreThread W) : CoreThread W :=
  { th.noteDelivery with handshake := th.handshake.serve }

def abort (th : CoreThread W) : CoreThread W :=
  { th.noteDelivery with handshake := th.handshake.abort }

def takeAborted (th : CoreThread W) : CoreThread W :=
  { th with handshake := th.handshake.takeAborted.1 }

/-- `try_wake`; an enqueue completes the park. -/
def tryWake (th : CoreThread W) : CoreThread W × WakeVerdict :=
  match th.handshake.tryWake with
  | (h, .queue) => ({ th with handshake := h, history := th.history.complete }, .queue)
  | (h, v) => ({ th with handshake := h }, v)

/-- `finish_switch`; a deferred wake completes the park. -/
def finishSwitch (th : CoreThread W) : CoreThread W × SwitchOutVerdict :=
  match th.handshake.finishSwitch with
  | (h, .wakeCompleted) =>
    ({ th with handshake := h, history := th.history.complete }, .wakeCompleted)
  | (h, v) => ({ th with handshake := h }, v)

end CoreThread

/-- What one core runs, its idle thread, and the thread whose context it is still
saving. -/
structure Core where
  (current idle : Nat)
  switchedFrom : Option Nat
  deriving DecidableEq, Repr

/-- The run queues. -/
inductive QueueName (C : Type*)
  | runq (c : C)
  | inbox (c : C)
  deriving DecidableEq, Repr

/-- The threads, cores and queues of the machine. -/
structure Cores (C W : Type*) where
  threads : Nat → Option (CoreThread W)
  cores : C → Option Core
  queues : QueueName C → List Nat

def IsIdle {C : Type*} (cores : C → Option Core) (t : Nat) : Prop :=
  ∃ c, ∃ core ∈ cores c, core.idle = t

instance {C : Type*} [Fintype C] (cores : C → Option Core) (t : Nat) :
    Decidable (IsIdle cores t) :=
  inferInstanceAs (Decidable (∃ c, ∃ core ∈ cores c, core.idle = t))

namespace Cores

variable {C W : Type*} [DecidableEq C]

section

variable (s : Cores C W)

def setThread (t : Nat) (th : CoreThread W) : Cores C W :=
  { s with threads := update s.threads t (some th) }

def setCore (c : C) (core : Core) : Cores C W :=
  { s with cores := update s.cores c (some core) }

/-- `place_on`, from core `c`: the own run queue, or the other core's inbox. -/
def placeOn (c target : C) (t : Nat) : Cores C W :=
  { s with queues := push s.queues (if target = c then .runq c else .inbox target) t }

/-- `wake` and `wake_load_aware`, from core `c` with the placement `target`. -/
def wake (c target : C) (t : Nat) : Cores C W :=
  match s.threads t with
  | none => s
  | some th =>
    match th.tryWake with
    | (th, .queue) => (s.setThread t th).placeOn c target t
    | (th, _) => s.setThread t th

def switchTo (c : C) (core : Core) (next : Nat) : Option (Cores C W) :=
  match s.threads next with
  | none => none
  | some th =>
    some ((s.setThread next { th with handshake := th.handshake.switchIn }).setCore c
      { core with current := next, switchedFrom := some core.current })

/-- `schedule` on core `c`.  A killed thread that would go on running is finished here; a
runnable one that is not the idle thread goes to the back of its own queue. -/
def schedule (c : C) (core : Core) : Option (Cores C W) :=
  match s.threads core.current with
  | none => none
  | some cur =>
    let cur := if cur.killed ∧ cur.handshake.state = .running then cur.setState .finished else cur
    let s := s.setThread core.current cur
    match s.queues (.runq c) with
    | next :: rest =>
      let s := { s with queues := update s.queues (.runq c) rest }
      if next = core.current then
        -- `heal_self_pop`: the popped thread is the running one
        some (s.setThread core.current (cur.setState .running))
      else if cur.handshake.state = .running ∧ core.current ≠ core.idle then
        ((s.setThread core.current { cur with handshake := cur.handshake.preempt }).placeOn c c
          core.current).switchTo c core next
      else s.switchTo c core next
    | [] =>
      if cur.handshake.state = .running then some s
      else if core.current = core.idle then none
      else s.switchTo c core core.idle

/-- `finish_switch` on core `c`, for the predecessor `prev`. -/
def finishSwitch (s : Cores C W) (c : C) (core : Core) (prev : Nat) : Cores C W :=
  let s := s.setCore c { core with switchedFrom := none }
  match s.threads prev with
  | none => s
  | some th =>
    match th.finishSwitch with
    | (_, .reap) => { s with threads := update s.threads prev none }
    | (th, .wakeCompleted) => (s.setThread prev th).placeOn c c prev
    | (th, .cleared) => s.setThread prev th

/-- `serve_steal_request` on core `c` for core `r`: the front of the own run queue goes to
the requester's inbox. -/
def serveStealRequest (c r : C) : Cores C W :=
  match s.queues (.runq c) with
  | [] => s
  | t :: rest => { s with queues := push (update s.queues (.runq c) rest) (.inbox r) t }

/-- The core `c`, when it is online and has no switch to finish. -/
def free (c : C) : Option Core := (s.cores c).filter (·.switchedFrom.isNone)

end

end Cores

/-- The steps.  `c` is the core that takes the step and `target` the core a woken or new
thread is placed on. -/
inductive CoresAction (C W : Type*)
  | spawnOn (c target : C) (t : Nat)
  | createThreadControlBlock (t : Nat)
  | startThreadControlBlock (c target : C) (t : Nat)
  | adoptSecondaryIdle (c : C) (t : Nat)
  | park (c : C) (w : W)
  | setIpcAborted (c : C)
  | takeIpcAborted (c : C)
  | serve (c target : C) (t : Nat)
  | abort (c target : C) (t : Nat)
  | wake (c target : C) (t : Nat)
  | depart (c : C) (supervised : Bool)
  | kill (t : Nat)
  | finishBlockedResident (t : Nat)
  | reap (t : Nat)
  | schedule (c : C)
  | finishSwitch (c : C)
  | drainInbox (c : C)
  | serveStealRequest (c r : C)

namespace Cores

variable {C W : Type*} [DecidableEq C] [Fintype C]

/-- The thread core `c` runs, when the core is free and the thread is not its idle loop:
the thread that can be in a syscall there. -/
def caller (s : Cores C W) (c : C) : Option (Nat × CoreThread W) :=
  match s.free c with
  | none => none
  | some core =>
    if core.current = core.idle then none
    else (s.threads core.current).map fun th => (core.current, th)

/-- One step of a core. -/
def step (s : Cores C W) : CoresAction C W → Option (Cores C W)
  | .spawnOn c target t =>
    if (s.free c).isSome ∧ (s.cores target).isSome ∧ (s.threads t).isNone then
      some ((s.setThread t (CoreThread.new Handshake.ready)).placeOn c target t)
    else none
  | .createThreadControlBlock t =>
    if (s.threads t).isNone then some (s.setThread t (CoreThread.new Handshake.embryo)) else none
  | .startThreadControlBlock c target t =>
    match s.threads t with
    | none => none
    | some th =>
      if (s.free c).isSome ∧ (s.cores target).isSome ∧ th.handshake.state = .embryo then
        some ((s.setThread t (th.setState .ready)).placeOn c target t)
      else none
  | .adoptSecondaryIdle c t =>
    if (s.cores c).isNone ∧ (s.threads t).isNone then
      some ((s.setThread t (CoreThread.new Handshake.onCpuNow)).setCore c ⟨t, t, none⟩)
    else none
  | .park c w =>
    match s.caller c with
    | none => none
    | some (t, th) =>
      if th.handshake.state = .running then some (s.setThread t (th.park w)) else none
  | .setIpcAborted c =>
    -- the name the syscall was given is stale: it reports that through its own flag
    match s.caller c with
    | none => none
    | some (t, th) =>
      if th.handshake.state = .running then
        some (s.setThread t { th with handshake := th.handshake.abort })
      else none
  | .takeIpcAborted c =>
    match s.caller c with
    | none => none
    | some (t, th) =>
      if th.handshake.state = .running then some (s.setThread t th.takeAborted) else none
  | .serve c target t =>
    match s.threads t with
    | none => none
    | some th =>
      if (s.free c).isSome ∧ (s.cores target).isSome then
        some ((s.setThread t th.serve).wake c target t)
      else none
  | .abort c target t =>
    -- teardown finds parked threads and corpses still linked as senders
    match s.threads t with
    | none => none
    | some th =>
      if (s.free c).isSome ∧ (s.cores target).isSome ∧
          (th.handshake.state = .blocked ∨ th.handshake.state = .dead) then
        some ((s.setThread t th.abort).wake c target t)
      else none
  | .wake c target t =>
    if (s.free c).isSome ∧ (s.cores target).isSome then some (s.wake c target t) else none
  | .depart c supervised =>
    match s.caller c with
    | none => none
    | some (t, th) =>
      if th.handshake.state = .running then
        some (s.setThread t (th.setState (if supervised then .dead else .finished)))
      else none
  | .kill t =>
    match s.threads t with
    | none => none
    | some th =>
      if IsIdle s.cores t then none else some (s.setThread t { th with killed := true })
  | .finishBlockedResident t =>
    match s.threads t with
    | none => none
    | some th =>
      if th.handshake.state = .blocked ∧ th.handshake.onCpu = false then
        some (s.setThread t { th.setState .finished with killed := true })
      else none
  | .reap t =>
    match s.threads t with
    | none => none
    | some th =>
      if (th.handshake.state = .embryo ∨ th.handshake.state = .finished ∨
          th.handshake.state = .dead) ∧ th.handshake.onCpu = false then
        some { s with threads := update s.threads t none }
      else none
  | .schedule c =>
    match s.free c with
    | none => none
    | some core => s.schedule c core
  | .finishSwitch c =>
    match s.cores c with
    | none => none
    | some core => core.switchedFrom.map fun prev => s.finishSwitch c core prev
  | .drainInbox c =>
    if (s.free c).isSome then some { s with queues := drain s.queues (.runq c) (.inbox c) } else none
  | .serveStealRequest c r =>
    if (s.free c).isSome ∧ (s.cores r).isSome then some (s.serveStealRequest c r) else none

/-- A thread that parks has read every abort there was: `park` does not clear that flag, and one that
is left over would count as the delivery of the new park. -/
def ParksClear (s : Cores C W) : CoresAction C W → Prop
  | .park c _ => (s.caller c).all (fun x => !x.2.handshake.ipcAborted) = true
  | _ => True

instance (s : Cores C W) (a : CoresAction C W) : Decidable (s.ParksClear a) := by
  cases a <;> unfold ParksClear <;> infer_instance

/-- The machine as `sched::init` leaves it: the boot thread runs on core `c₀`, and that
core's idle thread exists, Ready, deliberately on no queue. -/
def boot (c₀ : C) : Cores C W where
  threads := fun t =>
    if t = 0 then some (CoreThread.new Handshake.onCpuNow)
    else if t = 1 then some (CoreThread.new Handshake.ready) else none
  cores := fun c => if c = c₀ then some ⟨0, 1, none⟩ else none
  queues := fun _ => []

end Cores

end Nife
