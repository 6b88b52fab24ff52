/-
Rendezvous over whole runs.  Beside the rendezvous stand the logs of its two queues, written
from what the operations answer: who blocked, who was handed over, who was removed.  Three
counters follow the signals.  A caller passes a node only when it is on neither queue, which is
the queues' contract and the guard of a step.

`delivery_exactly_once` says that each time a sender or receiver blocked is settled once, in
the order of arrival, and that no signal is lost.  `bound_hands_only_signals` is about an
interrupt's rendezvous: a receive hands over nothing but a signal if no sender was queued when
it was bound.  A sender that was is handed over later (`queued_before_binding`): `send` refuses,
but `receive` still drains the queue.
-/
import Nife.Lib.Arrivals
import Nife.Lib.Transition
import Nife.Rendezvous

namespace Nife

open List

open Transition (Reach)
open Arrivals (Settled drained)

variable {α : Type*} [DecidableEq α]

/-- The operations on an endpoint. -/
inductive RendezvousOp (α : Type*)
  | send (me : α)
  | receive (me : α)
  | signal | bindToInterrupt
  | removeSender (victim : α)
  | removeReceiver (victim : α)
  | drainWaiters
  deriving DecidableEq

/-- A rendezvous, the logs of its queues, and its signals: how many came, how many a receive
was answered with, and how many woke a receiver. -/
structure Meeting (α : Type*) where
  rendezvous : Rendezvous α
  (senders receivers : List (Arrivals.Event α))
  (signals received woken : Nat)

namespace Meeting

def new : Meeting α := ⟨.new, [], [], 0, 0, 0⟩

section

variable (s : Meeting α)

def undelivered : Nat := s.signals - (s.received + s.woken)

/-- The node is on no queue. -/
def Idle (me : α) : Prop :=
  me ∉ s.rendezvous.senders ∧ me ∉ s.rendezvous.receivers

instance (s : Meeting α) (me : α) : Decidable (s.Idle me) :=
  inferInstanceAs (Decidable (_ ∧ _))

def step : RendezvousOp α → Option (Meeting α)
  | .send me =>
    if s.Idle me then
      match s.rendezvous.send me with
      | (r, .rendezvous x) => some { s with rendezvous := r, receivers := .taken x :: s.receivers }
      | (r, .blocked) => some { s with rendezvous := r, senders := .joined me :: s.senders }
      | (r, .refused) => some { s with rendezvous := r }
    else none
  | .receive me =>
    if s.Idle me then
      match s.rendezvous.receive me with
      | (r, .signal) => some { s with rendezvous := r, received := s.received + 1 }
      | (r, .fromSender x) => some { s with rendezvous := r, senders := .taken x :: s.senders }
      | (r, .blocked) => some { s with rendezvous := r, receivers := .joined me :: s.receivers }
    else none
  | .signal =>
    match s.rendezvous.signal with
    | (r, some x) => some { s with
        rendezvous := r
        receivers := .taken x :: s.receivers
        signals := s.signals + 1
        woken := s.woken + 1 }
    | (r, none) => some { s with rendezvous := r, signals := s.signals + 1 }
  | .bindToInterrupt => some { s with rendezvous := s.rendezvous.bindToInterrupt }
  | .removeSender victim =>
    match s.rendezvous.siftSender victim with
    | (r, true) => some { s with rendezvous := r, senders := .withdrawn victim :: s.senders }
    | (r, false) => some { s with rendezvous := r }
  | .removeReceiver victim =>
    match s.rendezvous.siftReceiver victim with
    | (r, true) => some { s with rendezvous := r, receivers := .withdrawn victim :: s.receivers }
    | (r, false) => some { s with rendezvous := r }
  | .drainWaiters =>
    match s.rendezvous.drainWaiters with
    | (r, waiters) => some { s with
        rendezvous := r
        senders := drained (waiters.filter (· ∈ s.rendezvous.senders)) s.senders
        receivers := drained (waiters.filter (· ∈ s.rendezvous.receivers)) s.receivers }

end

/-! ### What one operation does -/

variable {s t : Meeting α} {r : Rendezvous α} {x : α}

/-- **What one operation does to the queues and the counters.** -/
inductive Effect (s : Meeting α) : Meeting α → Prop
  | refl : Effect s s
  | bound : Effect s { s with rendezvous := s.rendezvous.bindToInterrupt }
  | senderJoins (me : α) (hidle : s.Idle me) (hopen : s.rendezvous.boundToInterrupt = false)
      (hnone : s.rendezvous.receivers = []) :
      Effect s { s with
        rendezvous := { s.rendezvous with senders := s.rendezvous.senders ++ [me] }
        senders := .joined me :: s.senders }
  | receiverJoins (me : α) (hidle : s.Idle me) (hnone : s.rendezvous.senders = []) :
      Effect s { s with
        rendezvous := { s.rendezvous with receivers := s.rendezvous.receivers ++ [me] }
        receivers := .joined me :: s.receivers }
  | senderTaken (x : α) (rest : List α) (hq : s.rendezvous.senders = x :: rest) :
      Effect s { s with
        rendezvous := { s.rendezvous with senders := rest }
        senders := .taken x :: s.senders }
  | receiverTaken (x : α) (rest : List α) (hq : s.rendezvous.receivers = x :: rest) (k : Nat) :
      Effect s { s with
        rendezvous := { s.rendezvous with receivers := rest }
        receivers := .taken x :: s.receivers
        signals := s.signals + k
        woken := s.woken + k }
  | signalTaken (hpos : 0 < s.rendezvous.pending) :
      Effect s { s with
        rendezvous := { s.rendezvous with pending := s.rendezvous.pending - 1 }
        received := s.received + 1 }
  | signalCounted (hnone : s.rendezvous.receivers = []) :
      Effect s { s with
        rendezvous := { s.rendezvous with
          pending := min (s.rendezvous.pending + 1) Rendezvous.pendingMax }
        signals := s.signals + 1 }
  | senderRemoved (x : α) (hx : x ∈ s.rendezvous.senders) :
      Effect s { s with
        rendezvous := s.rendezvous.removeSender x
        senders := .withdrawn x :: s.senders }
  | receiverRemoved (x : α) (hx : x ∈ s.rendezvous.receivers) :
      Effect s { s with
        rendezvous := s.rendezvous.removeReceiver x
        receivers := .withdrawn x :: s.receivers }
  | drain :
      Effect s { s with
        rendezvous := { s.rendezvous with senders := [], receivers := [] }
        senders := drained ((s.rendezvous.senders ++ s.rendezvous.receivers).filter
          (· ∈ s.rendezvous.senders)) s.senders
        receivers := drained ((s.rendezvous.senders ++ s.rendezvous.receivers).filter
          (· ∈ s.rendezvous.receivers)) s.receivers }

section

variable (r : Rendezvous α)

omit [DecidableEq α] in
theorem send_cases (me : α) : r.send me = (r, .refused) ∨ (∃ x rest, r.receivers = x :: rest ∧
        r.send me = ({ r with receivers := rest }, .rendezvous x)) ∨
      (r.boundToInterrupt = false ∧ r.receivers = [] ∧
        r.send me = ({ r with senders := r.senders ++ [me] }, .blocked)) := by
  unfold Rendezvous.send
  split
  · exact .inl rfl
  · next hopen =>
    split
    · next x rest hq => exact .inr (.inl ⟨x, rest, hq, rfl⟩)
    · next hq => exact .inr (.inr ⟨Bool.eq_false_iff.mpr hopen, hq, rfl⟩)

omit [DecidableEq α] in
theorem receive_cases (me : α) :
    (0 < r.pending ∧ r.receive me = ({ r with pending := r.pending - 1 }, .signal)) ∨
      (∃ x rest, r.senders = x :: rest ∧
        r.receive me = ({ r with senders := rest }, .fromSender x)) ∨
      (r.senders = [] ∧ r.receive me = ({ r with receivers := r.receivers ++ [me] }, .blocked)) := by
  unfold Rendezvous.receive
  split
  · next hpos => exact .inl ⟨hpos, rfl⟩
  · split
    · next x rest hq => exact .inr (.inl ⟨x, rest, hq, rfl⟩)
    · next hq => exact .inr (.inr ⟨hq, rfl⟩)

omit [DecidableEq α] in
theorem signal_outcome :
    (∃ x rest, r.receivers = x :: rest ∧ r.signal = ({ r with receivers := rest }, some x)) ∨
      (r.receivers = [] ∧ r.signal =
        ({ r with pending := min (r.pending + 1) Rendezvous.pendingMax }, none)) := by
  unfold Rendezvous.signal
  split
  · next x rest hq => exact .inl ⟨x, rest, hq, rfl⟩
  · next hq => exact .inr ⟨hq, rfl⟩

end

theorem filter_ne_of_notMem {l : List α} (h : x ∉ l) : l.filter (· ≠ x) = l := by
  rw [filter_eq_self]
  intro y hy
  exact decide_eq_true fun (heq : y = x) => h (heq ▸ hy)

theorem removeSender_of_notMem (h : x ∉ r.senders) : r.removeSender x = r := by
  rw [Rendezvous.removeSender, filter_ne_of_notMem h]

theorem removeReceiver_of_notMem (h : x ∉ r.receivers) : r.removeReceiver x = r := by
  rw [Rendezvous.removeReceiver, filter_ne_of_notMem h]

theorem step_effect {op : RendezvousOp α} (h : s.step op = some t) : Effect s t := by
  rcases op with me | me | - | - | victim | victim | -
  · by_cases hidle : s.Idle me
    · simp only [step, if_pos hidle] at h
      rcases send_cases s.rendezvous me with hsend | ⟨x, rest, hq, hsend⟩ | ⟨hopen, hq, hsend⟩
      · rw [hsend] at h
        cases h
        exact .refl
      · rw [hsend] at h
        cases h
        exact .receiverTaken x rest hq 0
      · rw [hsend] at h
        cases h
        exact .senderJoins me hidle hopen hq
    · simp only [step, if_neg hidle] at h
      cases h
  · by_cases hidle : s.Idle me
    · simp only [step, if_pos hidle] at h
      rcases receive_cases s.rendezvous me with ⟨hpos, hrecv⟩ | ⟨x, rest, hq, hrecv⟩ | ⟨hq, hrecv⟩
      · rw [hrecv] at h
        cases h
        exact .signalTaken hpos
      · rw [hrecv] at h
        cases h
        exact .senderTaken x rest hq
      · rw [hrecv] at h
        cases h
        exact .receiverJoins me hidle hq
    · simp only [step, if_neg hidle] at h
      cases h
  · simp only [step] at h
    rcases signal_outcome s.rendezvous with ⟨x, rest, hq, hsig⟩ | ⟨hq, hsig⟩
    · rw [hsig] at h
      cases h
      exact .receiverTaken x rest hq 1
    · rw [hsig] at h
      cases h
      exact .signalCounted hq
  · cases h
    exact .bound
  · simp only [step, Rendezvous.siftSender_eq] at h
    by_cases hx : victim ∈ s.rendezvous.senders
    · simp only [hx, decide_true] at h
      cases h
      exact .senderRemoved victim hx
    · simp only [hx, decide_false, removeSender_of_notMem hx] at h
      cases h
      exact .refl
  · simp only [step, Rendezvous.siftReceiver_eq] at h
    by_cases hx : victim ∈ s.rendezvous.receivers
    · simp only [hx, decide_true] at h
      cases h
      exact .receiverRemoved victim hx
    · simp only [hx, decide_false, removeReceiver_of_notMem hx] at h
      cases h
      exact .refl
  · cases h
    exact .drain

/-! ### Exactly once, in order -/

/-- **The account.**  At most one queue is in use, the logs agree with the queues, and no
signal is lost. -/
structure ExactlyOnce (s : Meeting α) : Prop where
  one_queue : s.rendezvous.senders = [] ∨ s.rendezvous.receivers = []
  senders : Settled s.senders s.rendezvous.senders
  receivers : Settled s.receivers s.rendezvous.receivers
  signals : s.signals = s.received + s.woken + s.rendezvous.pending

/-- The invariant: the account, and nobody twice on a queue. -/
structure Inv (s : Meeting α) : Prop extends ExactlyOnce s where
  senders_nodup : s.rendezvous.senders.Nodup
  receivers_nodup : s.rendezvous.receivers.Nodup

theorem inv_new : (new : Meeting α).Inv where
  one_queue := .inl rfl
  senders := .nil
  receivers := .nil
  signals := rfl
  senders_nodup := nodup_nil
  receivers_nodup := nodup_nil

/-- Fewer than `2^32` signals are undelivered after the step. -/
def FewSignals (s : Meeting α) (op : RendezvousOp α) : Prop :=
  ∀ t, s.step op = some t → t.undelivered < 0x100000000

theorem Inv.step (h : s.Inv) (ht : Effect s t) (hfew : t.undelivered < 0x100000000) : t.Inv := by
  have hsig := h.signals
  cases ht with
  | refl => exact h
  | bound => exact { h with }
  | senderJoins me hidle hopen hnone =>
    refine { h with one_queue := .inr hnone, senders := h.senders.joined me, senders_nodup := ?_ }
    exact nodup_append.mpr ⟨h.senders_nodup, nodup_singleton me, by
      rintro a ha b hb rfl
      exact hidle.1 (mem_singleton.mp hb ▸ ha)⟩
  | receiverJoins me hidle hnone =>
    refine { h with
      one_queue := .inl hnone, receivers := h.receivers.joined me, receivers_nodup := ?_ }
    exact nodup_append.mpr ⟨h.receivers_nodup, nodup_singleton me, by
      rintro a ha b hb rfl
      exact hidle.2 (mem_singleton.mp hb ▸ ha)⟩
  | senderTaken x rest hq =>
    have hnd := h.senders_nodup
    have hset := h.senders
    rw [hq] at hnd hset
    refine { h with one_queue := ?_, senders := hset.taken, senders_nodup := hnd.of_cons }
    rcases h.one_queue with hnil | hnil
    · rw [hq] at hnil
      cases hnil
    · exact .inr hnil
  | receiverTaken x rest hq k =>
    have hnd := h.receivers_nodup
    have hset := h.receivers
    rw [hq] at hnd hset
    refine { h with
      one_queue := ?_, receivers := hset.taken, receivers_nodup := hnd.of_cons, signals := ?_ }
    · rcases h.one_queue with hnil | hnil
      · exact .inl hnil
      · rw [hq] at hnil
        cases hnil
    · show s.signals + k = s.received + (s.woken + k) + s.rendezvous.pending
      omega
  | signalTaken hpos =>
    refine { h with signals := ?_ }
    show s.signals = s.received + 1 + s.woken + (s.rendezvous.pending - 1)
    omega
  | signalCounted hnone =>
    -- the count does not saturate: it is the number of signals nobody has taken
    refine { h with signals := ?_ }
    have hroom : s.signals + 1 - (s.received + s.woken) < 0x100000000 := hfew
    show s.signals + 1 = s.received + s.woken + min (s.rendezvous.pending + 1) 0xffffffff
    omega
  | senderRemoved x hx =>
    refine { h with
      one_queue := ?_
      senders := h.senders.withdrawn h.senders_nodup hx
      senders_nodup := h.senders_nodup.filter _ }
    rcases h.one_queue with hnil | hnil
    · rw [hnil] at hx
      cases hx
    · exact .inr hnil
  | receiverRemoved x hx =>
    refine { h with
      one_queue := ?_
      receivers := h.receivers.withdrawn h.receivers_nodup hx
      receivers_nodup := h.receivers_nodup.filter _ }
    rcases h.one_queue with hnil | hnil
    · exact .inl hnil
    · rw [hnil] at hx
      cases hx
  | drain =>
    -- one queue is empty, so every node handed over was on the other
    have hs : (s.rendezvous.senders ++ s.rendezvous.receivers).filter (· ∈ s.rendezvous.senders)
        = s.rendezvous.senders := by
      rcases h.one_queue with hnil | hnil <;> simp [hnil]
    have hr : (s.rendezvous.senders ++ s.rendezvous.receivers).filter (· ∈ s.rendezvous.receivers)
        = s.rendezvous.receivers := by
      rcases h.one_queue with hnil | hnil <;> simp [hnil]
    rw [hs, hr]
    exact { h with
      one_queue := .inl rfl
      senders := h.senders.drained
      receivers := h.receivers.drained
      senders_nodup := nodup_nil
      receivers_nodup := nodup_nil }

/-- **Delivery is exactly once and in order of arrival**, over every run of the operations in
which fewer than `2^32` signals are ever undelivered. -/
theorem delivery_exactly_once (h : Reach step FewSignals new s) : s.ExactlyOnce := by
  have hinv : s.Inv := h.invariant Inv inv_new fun _ _ t hinv hfew hstep =>
    hinv.step (step_effect hstep) (hfew t hstep)
  exact hinv.toExactlyOnce

instance (s : Meeting α) (op : RendezvousOp α) : Decidable (s.FewSignals op) :=
  match h : s.step op with
  | none => isTrue fun t ht => by rw [h] at ht; cases ht
  | some t =>
    if hlt : t.undelivered < 0x100000000 then isTrue fun u hu => by
      rw [h, Option.some.injEq] at hu
      rwa [← hu]
    else isFalse fun hall => hlt (hall t h)

/-- Two senders queued, the first taken by a receive, the second withdrawn. -/
theorem delivery_exactly_once_withdrawn : ∃ s : Meeting Nat,
    Reach step FewSignals new s ∧ s.senders = [.withdrawn 2, .taken 1, .joined 2, .joined 1] ∧
      s.ExactlyOnce := by
  have hrun : Reach step FewSignals (new : Meeting Nat)
      ⟨⟨[], [], 1, false⟩, [.withdrawn 2, .taken 1, .joined 2, .joined 1], [], 1, 0, 0⟩ :=
    Reach.of_runIf [.send 1, .send 2, .receive 3, .removeSender 2, .signal] rfl
  exact ⟨_, hrun, rfl, delivery_exactly_once hrun⟩

/-! ### An interrupt's rendezvous -/

/-- Bound, and with no sender queued, it stays so. -/
theorem Effect.bound_empty (ht : Effect s t)
    (h : s.rendezvous.boundToInterrupt = true ∧ s.rendezvous.senders = []) :
    t.rendezvous.boundToInterrupt = true ∧ t.rendezvous.senders = [] := by
  obtain ⟨hb, hq⟩ := h
  cases ht with
  | refl => exact ⟨hb, hq⟩
  | bound => exact ⟨rfl, hq⟩
  | senderJoins me hidle hopen hnone =>
    rw [hb] at hopen
    cases hopen
  | receiverJoins me hidle hnone => exact ⟨hb, hq⟩
  | senderTaken x rest hq' =>
    rw [hq] at hq'
    cases hq'
  | receiverTaken x rest hq' k | signalTaken hpos | signalCounted hnone => exact ⟨hb, hq⟩
  | senderRemoved x hx =>
    rw [hq] at hx
    cases hx
  | receiverRemoved x hx => exact ⟨hb, hq⟩
  | drain => exact ⟨hb, rfl⟩

/-- **A receiver on an interrupt's rendezvous is handed a signal and nothing else**: whatever
came before, a rendezvous bound while no sender is queued never again answers a receive with a
sender or a send with a receiver. -/
theorem bound_hands_only_signals {u : Meeting α} (hnone : s.rendezvous.senders = [])
    (ht : s.step .bindToInterrupt = some t) (hu : Reach step (fun _ _ => True) t u) (me x : α) :
    (u.rendezvous.receive me).2 ≠ .fromSender x ∧ (u.rendezvous.send me).2 ≠ .rendezvous x := by
  have hbound : t.rendezvous.boundToInterrupt = true ∧ t.rendezvous.senders = [] := by
    cases ht
    exact ⟨rfl, hnone⟩
  obtain ⟨hb, hq⟩ := hu.invariant
    (fun u => u.rendezvous.boundToInterrupt = true ∧ u.rendezvous.senders = []) hbound
    fun _ _ _ h _ hstep => (step_effect hstep).bound_empty h
  constructor
  · intro hrecv
    rcases receive_cases u.rendezvous me with ⟨-, heq⟩ | ⟨y, rest, hq', -⟩ | ⟨-, heq⟩
    · rw [heq] at hrecv
      cases hrecv
    · rw [hq] at hq'
      cases hq'
    · rw [heq] at hrecv
      cases hrecv
  · intro hsend
    rw [Rendezvous.send, if_pos hb] at hsend
    cases hsend

/-- A sender is taken, the rendezvous is bound, and a signal is counted. -/
theorem bound_hands_only_signals_counted : ∃ s t u : Meeting Nat,
    Reach step (fun _ _ => True) new s ∧ s.rendezvous.senders = [] ∧
      s.step .bindToInterrupt = some t ∧ Reach step (fun _ _ => True) t u ∧
      (u.rendezvous.receive 3).2 ≠ .fromSender 1 ∧ (u.rendezvous.send 3).2 ≠ .rendezvous 1 := by
  let s : Meeting Nat := ⟨⟨[], [], 0, false⟩, [.taken 1, .joined 1], [], 0, 0, 0⟩
  let t : Meeting Nat := ⟨⟨[], [], 0, true⟩, [.taken 1, .joined 1], [], 0, 0, 0⟩
  let u : Meeting Nat := ⟨⟨[], [], 1, true⟩, [.taken 1, .joined 1], [], 1, 0, 0⟩
  have hs : Reach step (fun _ _ => True) new s := Reach.of_run [.send 1, .receive 2] rfl
  have ht : s.step .bindToInterrupt = some t := rfl
  have hu : Reach step (fun _ _ => True) t u := Reach.of_run [.signal] rfl
  exact ⟨s, t, u, hs, rfl, ht, hu, bound_hands_only_signals rfl ht hu 3 1⟩

/-- **A sender queued before the binding is handed over after it.**  `send(1)` blocks, the
rendezvous is bound, and `receive(2)` answers `FromSender(1)`. -/
theorem queued_before_binding : ∃ s t : Meeting Nat,
    Reach step (fun _ _ => True) new s ∧ s.step .bindToInterrupt = some t ∧
      (t.rendezvous.receive 2).2 = .fromSender 1 :=
  ⟨⟨⟨[1], [], 0, false⟩, [.joined 1], [], 0, 0, 0⟩, ⟨⟨[1], [], 0, true⟩, [.joined 1], [], 0, 0, 0⟩,
    Reach.of_run [.send 1] rfl, rfl, rfl⟩

end Meeting

end Nife
