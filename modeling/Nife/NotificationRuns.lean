/-
Notifications over whole runs.  The log lists, newest first, the bits of every signal and every
word that was delivered, with who took it: a waiter that the signal woke gets that signal's
bits; a bound receiver, a wait and a poll take the accumulated word.

`bits_conserved` says that no bit is lost or made up.  What was signalled is what was delivered
and what is in the word; and a bit in a delivered word was signalled since the accumulated word
was last taken with that bit in it.  The waking path drops the word, which is right because the
word is zero while anybody waits.
-/
import Nife.Rendezvous
import Mathlib.Data.List.Induction
import Mathlib.Data.Nat.Bitwise

namespace Nife

open List

variable {α : Type*} [DecidableEq α]

/-- The operations on a notification. -/
inductive NotificationOp (α : Type*)
  | signal (bits : Nat) (boundReceiving : Bool)
  | wait (me : α)
  | poll
  | removeWaiter (victim : α)
  | drainWaiters

/-- Who a word is delivered to. -/
inductive Taker
  | waiter | bound | wait | poll
  deriving DecidableEq

/-- A woken waiter is handed one signal's bits, the others the accumulated word. -/
def Taker.accumulated : Taker → Bool
  | .waiter => false
  | .bound | .wait | .poll => true

/-- What the log records. -/
inductive NotificationEvent
  | signalled (bits : Nat)
  | delivered (taker : Taker) (word : Nat)

/-- A notification and the log of its run. -/
structure NotificationRun (α : Type*) where
  notification : Notification α
  log : List NotificationEvent

namespace NotificationRun

def new : NotificationRun α := ⟨.new, []⟩

def apply (s : NotificationRun α) : NotificationOp α → NotificationRun α
  | .signal bits boundReceiving =>
    match s.notification.signal bits boundReceiving with
    | (n, .woke _ word) => ⟨n, .delivered .waiter word :: .signalled bits :: s.log⟩
    | (n, .toBound word) => ⟨n, .delivered .bound word :: .signalled bits :: s.log⟩
    | (n, .counted) => ⟨n, .signalled bits :: s.log⟩
    | (n, .empty) => ⟨n, .signalled bits :: s.log⟩
  | .wait me =>
    match s.notification.wait me with
    | (n, some word) => ⟨n, .delivered .wait word :: s.log⟩
    | (n, none) => ⟨n, s.log⟩
  | .poll =>
    match s.notification.poll with
    | (n, word) => ⟨n, .delivered .poll word :: s.log⟩
  | .removeWaiter victim => ⟨(s.notification.siftWaiter victim).1, s.log⟩
  | .drainWaiters => ⟨s.notification.drainWaiters.1, s.log⟩

def run (ops : List (NotificationOp α)) : NotificationRun α := ops.foldl apply new

/-! ### What the log says -/

/-- The bits of every signal. -/
def signalled : List NotificationEvent → Nat
  | [] => 0
  | .signalled bits :: log => bits ||| signalled log
  | .delivered _ _ :: log => signalled log

def delivered : List NotificationEvent → Nat
  | [] => 0
  | .signalled _ :: log => delivered log
  | .delivered _ word :: log => word ||| delivered log

/-- Bit `b` was signalled since the accumulated word was last taken with `b` in it. -/
def Fresh (log : List NotificationEvent) (b : Nat) : Prop :=
  ∃ later bits earlier, log = later ++ .signalled bits :: earlier ∧ bits.testBit b = true ∧
    ∀ taker word, .delivered taker word ∈ later → taker.accumulated = true →
      word.testBit b = false

/-- **The account.** -/
structure Conserved (s : NotificationRun α) : Prop where
  /-- The word is zero while anybody waits. -/
  quiet : s.notification.waiters ≠ [] → s.notification.word = 0
  bits : signalled s.log = delivered s.log ||| s.notification.word
  nonzero : ∀ taker word, .delivered taker word ∈ s.log → taker ≠ .poll → word ≠ 0
  fresh : ∀ later taker word earlier, s.log = later ++ .delivered taker word :: earlier →
    ∀ b, word.testBit b = true → Fresh earlier b

/-- The invariant: the account, and a reason for each bit in the word. -/
structure Inv (s : NotificationRun α) : Prop extends Conserved s where
  word_fresh : ∀ b, s.notification.word.testBit b = true → Fresh s.log b

theorem fresh_signalled {log : List NotificationEvent} {bits b : Nat}
    (h : bits.testBit b = true ∨ Fresh log b) : Fresh (.signalled bits :: log) b := by
  rcases h with h | ⟨later, bits', earlier, rfl, hb, hnone⟩
  · exact ⟨[], bits, log, rfl, h, nofun⟩
  · refine ⟨.signalled bits :: later, bits', earlier, rfl, hb, fun taker word hmem => ?_⟩
    rcases mem_cons.mp hmem with heq | hmem
    · cases heq
    · exact hnone taker word hmem

variable {s : NotificationRun α}

section Moves

omit [DecidableEq α]

theorem inv_new : (new : NotificationRun α).Inv where
  quiet _ := rfl
  bits := (Nat.or_zero 0).symm
  nonzero _ _ h := by cases h
  fresh later _ _ earlier h := by
    exact absurd h.symm (append_ne_nil_of_right_ne_nil _ (cons_ne_nil _ _))
  word_fresh b h := by
    change (0 : Nat).testBit b = true at h
    rw [Nat.zero_testBit] at h
    cases h

theorem Inv.count (h : s.Inv) (bits : Nat) (hquiet : s.notification.waiters = [] ∨ bits = 0) :
    Inv (⟨{ s.notification with word := s.notification.word ||| bits },
      .signalled bits :: s.log⟩ : NotificationRun α) where
  quiet hne := by
    rcases hquiet with hnil | rfl
    · exact absurd hnil hne
    · show s.notification.word ||| 0 = 0
      rw [Nat.or_zero]
      exact h.quiet hne
  bits := by
    show bits ||| signalled s.log = delivered s.log ||| (s.notification.word ||| bits)
    rw [h.bits, Nat.or_comm, Nat.or_assoc]
  nonzero taker word hmem := by
    rcases mem_cons.mp hmem with heq | hmem
    · cases heq
    · exact h.nonzero taker word hmem
  fresh later taker word earlier heq := by
    rcases later with - | ⟨e, later⟩
    · cases heq
    · exact h.fresh later taker word earlier (cons.inj heq).2
  word_fresh b hb := by
    apply fresh_signalled
    change (s.notification.word ||| bits).testBit b = true at hb
    rw [Nat.testBit_or, Bool.or_eq_true] at hb
    exact hb.symm.imp_right (h.word_fresh b)

theorem Inv.take (h : s.Inv) (taker : Taker) (hword : taker ≠ .poll → s.notification.word ≠ 0) :
    Inv (⟨{ s.notification with word := 0 },
      .delivered taker s.notification.word :: s.log⟩ : NotificationRun α) where
  quiet _ := rfl
  bits := by
    show signalled s.log = s.notification.word ||| delivered s.log ||| 0
    rw [h.bits, Nat.or_zero, Nat.or_comm]
  nonzero taker' word hmem := by
    rcases mem_cons.mp hmem with heq | hmem
    · cases heq
      exact hword
    · exact h.nonzero taker' word hmem
  fresh later taker' word earlier heq := by
    rcases later with - | ⟨e, later⟩
    · cases heq
      exact h.word_fresh
    · exact h.fresh later taker' word earlier (cons.inj heq).2
  word_fresh b hb := by
    change (0 : Nat).testBit b = true at hb
    rw [Nat.zero_testBit] at hb
    cases hb

/-- A signal's bits are handed to a waiter; the word, zero, stays. -/
theorem Inv.wake (h : s.Inv) {bits : Nat} (hbits : bits ≠ 0) (hzero : s.notification.word = 0)
    (waiters : List α) :
    Inv (⟨{ s.notification with waiters := waiters },
      .delivered .waiter bits :: .signalled bits :: s.log⟩ : NotificationRun α) where
  quiet _ := hzero
  bits := by
    show bits ||| signalled s.log = bits ||| delivered s.log ||| s.notification.word
    rw [h.bits, Nat.or_assoc]
  nonzero taker word hmem := by
    rcases mem_cons.mp hmem with heq | hmem
    · cases heq
      exact fun _ => hbits
    · rcases mem_cons.mp hmem with heq | hmem
      · cases heq
      · exact h.nonzero taker word hmem
  fresh later taker word earlier heq := by
    rcases later with - | ⟨e, - | ⟨e', later⟩⟩
    · cases heq
      exact fun b hb => fresh_signalled (.inl hb)
    · cases heq
    · exact h.fresh later taker word earlier (cons.inj (cons.inj heq).2).2
  word_fresh b hb := by
    change s.notification.word.testBit b = true at hb
    rw [hzero, Nat.zero_testBit] at hb
    cases hb

theorem Inv.requeue (h : s.Inv) (waiters : List α)
    (hquiet : waiters ≠ [] → s.notification.word = 0) :
    Inv (⟨{ s.notification with waiters := waiters }, s.log⟩ : NotificationRun α) :=
  { h with quiet := hquiet }

end Moves

theorem Inv.signal (h : s.Inv) (bits : Nat) (bound : Bool) : (s.apply (.signal bits bound)).Inv := by
  by_cases hbits : bits = 0
  · subst hbits
    have hcount := h.count 0 (.inr rfl)
    rw [Nat.or_zero] at hcount
    exact hcount
  · simp only [apply, Notification.signal, if_neg hbits]
    rcases hq : s.notification.waiters with - | ⟨waiter, rest⟩
    · cases bound with
      | false =>
        have hcount := h.count bits (.inl hq)
        simp only [hq] at hcount
        exact hcount
      | true =>
        -- counted and taken at once
        have htake := (h.count bits (.inl hq)).take .bound fun _ hzero =>
          hbits (Nat.or_eq_zero_iff.mp hzero).2
        simp only [hq] at htake
        exact htake
    · exact h.wake hbits (h.quiet (by rw [hq]; exact cons_ne_nil _ _)) rest

theorem Inv.wait (h : s.Inv) (me : α) : (s.apply (.wait me)).Inv := by
  simp only [apply, Notification.wait]
  split_ifs with hword
  · exact h.take _ fun _ => hword
  · exact h.requeue _ fun _ => not_not.mp hword

theorem Inv.apply (h : s.Inv) (op : NotificationOp α) : (s.apply op).Inv := by
  rcases op with ⟨bits, bound⟩ | me | - | victim | -
  · exact h.signal bits bound
  · exact h.wait me
  · exact h.take .poll fun hne => absurd rfl hne
  · simp only [NotificationRun.apply, Notification.siftWaiter_eq]
    refine h.requeue _ fun hne => h.quiet fun hnil => hne ?_
    rw [hnil]
    rfl
  · exact h.requeue [] fun hne => absurd rfl hne

/-- **Bits are conserved over every run.** -/
theorem bits_conserved (ops : List (NotificationOp α)) : (run ops).Conserved := by
  have hinv : (run ops).Inv := by
    induction ops using reverseRecOn with
    | nil => exact inv_new
    | append_singleton ops op ih =>
      rw [run, foldl_append]
      exact ih.apply op
  exact hinv.toConserved

/-- A waiter is woken with a signal's bits, and the next bits wait for a poll. -/
example : (run [.wait 1, .signal 5 false, .signal 2 true, .signal 8 false, .poll]).log
    = [.delivered .poll 8, .signalled 8, .delivered .bound 2, .signalled 2,
      .delivered .waiter 5, .signalled 5] := rfl

end NotificationRun

end Nife
