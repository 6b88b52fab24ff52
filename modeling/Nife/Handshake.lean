/-
The block/wake handshake of one thread (`crates/thread_wake_handshake`): its run state,
whether its context still stands on a processor (`onCpu`), a wake that came too early and
is owed (`wakePending`), what it is parked on, and the two flags with which a counterparty
marks a park as delivered (`ipcServed`) or broken off (`ipcAborted`).

`tryWake_cases` and `finishSwitch_cases` say once what the two deciding transitions can
do; everything proved about them later goes through these.
-/
import Mathlib.Tactic.Common

namespace Nife

/-- The states of a thread. -/
inductive RunState
  | embryo | ready | running | blocked | finished | dead
  deriving DecidableEq, Repr

/-- What a wake is to do. -/
inductive WakeVerdict
  | notBlocked | refused | deferred | queue
  deriving DecidableEq, Repr

/-- What the end of a switch is to do. -/
inductive SwitchOutVerdict
  | reap | wakeCompleted | cleared
  deriving DecidableEq, Repr

/-- The handshake of one thread; `W` names what a thread can wait on. -/
structure Handshake (W : Type*) where
  state : RunState
  (onCpu wakePending : Bool)
  waitOn : Option W
  (ipcServed ipcAborted : Bool)
  deriving DecidableEq, Repr

namespace Handshake

variable {W : Type*}

/-- Adopted mid-run: standing on its processor. -/
def onCpuNow : Handshake W := ⟨.running, true, false, none, false, false⟩

def ready : Handshake W := ⟨.ready, false, false, none, false, false⟩

def embryo : Handshake W := ⟨.embryo, false, false, none, false, false⟩

section

variable (h : Handshake W)

/-- Park on `w`: from here only a delivering counterparty may wake the thread.  The
aborted flag is not cleared. -/
def park (w : W) : Handshake W :=
  { h with state := .blocked, waitOn := some w, ipcServed := false }

def serve : Handshake W := { h with ipcServed := true }

def abort : Handshake W := { h with ipcAborted := true }

def isDelivered : Bool := h.ipcServed || h.ipcAborted

def takeAborted : Handshake W × Bool :=
  ({ h with ipcAborted := false }, h.ipcAborted)

/-- The gate every wake passes. -/
def tryWake : Handshake W × WakeVerdict :=
  if h.state ≠ .blocked then (h, .notBlocked)
  else if h.waitOn.isSome ∧ ¬ h.isDelivered then (h, .refused)
  else if h.onCpu then ({ h with wakePending := true }, .deferred)
  else ({ h with state := .ready, waitOn := none }, .queue)

def switchIn : Handshake W := { h with state := .running, onCpu := true }

def preempt : Handshake W := { h with state := .ready }

/-- The predecessor's context is saved: a finished thread is handed back untouched, a
deferred wake is completed, anything else just leaves the processor. -/
def finishSwitch : Handshake W × SwitchOutVerdict :=
  if h.state = .finished then (h, .reap)
  else if h.wakePending then
    ({ h with onCpu := false, wakePending := false, state := .ready, waitOn := none },
      .wakeCompleted)
  else ({ h with onCpu := false }, .cleared)

end

theorem tryWake_cases (h : Handshake W) : (h.state ≠ .blocked ∧ h.tryWake = (h, .notBlocked)) ∨
    (h.state = .blocked ∧ h.waitOn.isSome ∧ h.isDelivered = false ∧ h.tryWake = (h, .refused)) ∨
    (h.state = .blocked ∧ (h.waitOn.isSome → h.isDelivered = true) ∧ h.onCpu = true ∧
      h.tryWake = ({ h with wakePending := true }, .deferred)) ∨
    (h.state = .blocked ∧ (h.waitOn.isSome → h.isDelivered = true) ∧ h.onCpu = false ∧
      h.tryWake = ({ h with state := .ready, waitOn := none }, .queue)) := by
  by_cases hb : h.state = .blocked
  · by_cases hd : h.waitOn.isSome ∧ ¬ h.isDelivered
    · refine .inr (.inl ⟨hb, hd.1, by simpa using hd.2, ?_⟩)
      rw [tryWake, if_neg (not_not.mpr hb), if_pos hd]
    · have hgate : h.waitOn.isSome → h.isDelivered = true := by
        intro hw
        by_contra hnd
        exact hd ⟨hw, hnd⟩
      rcases hc : h.onCpu with - | -
      · refine .inr (.inr (.inr ⟨hb, hgate, rfl, ?_⟩))
        rw [tryWake, if_neg (not_not.mpr hb), if_neg hd, hc]
        simp
      · refine .inr (.inr (.inl ⟨hb, hgate, rfl, ?_⟩))
        rw [tryWake, if_neg (not_not.mpr hb), if_neg hd, hc]
        simp
  · exact .inl ⟨hb, by rw [tryWake, if_pos hb]⟩

theorem finishSwitch_cases (h : Handshake W) : (h.state = .finished ∧ h.finishSwitch = (h, .reap)) ∨
    (h.state ≠ .finished ∧ h.wakePending = true ∧ h.finishSwitch =
      ({ h with onCpu := false, wakePending := false, state := .ready, waitOn := none },
        .wakeCompleted)) ∨
    (h.state ≠ .finished ∧ h.wakePending = false ∧
      h.finishSwitch = ({ h with onCpu := false }, .cleared)) := by
  by_cases hf : h.state = .finished
  · exact .inl ⟨hf, by rw [finishSwitch, if_pos hf]⟩
  · rcases hp : h.wakePending with - | -
    · exact .inr (.inr ⟨hf, rfl, by rw [finishSwitch, if_neg hf, hp]; simp⟩)
    · exact .inr (.inl ⟨hf, rfl, by rw [finishSwitch, if_neg hf, hp]; simp⟩)

end Handshake

end Nife
