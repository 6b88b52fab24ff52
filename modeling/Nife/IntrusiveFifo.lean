/-
Queues threaded through links in their nodes (`crates/intrusive_fifo`): each refines a list, however
many share the nodes.  The queues of a rendezvous and of a notification, which are lists in
`Nife/Rendezvous.lean`, are changed by these operations only, so linked queues stand for them
(`Queued`).
-/
import Nife.Lib.Queues
import Nife.Rendezvous

namespace Nife.IntrusiveFifo

open Function Queues
open List hiding Mem

variable {ι κ : Type*} [DecidableEq ι] [DecidableEq κ]

/-- The ends of a queue and its length. -/
structure Fifo (ι : Type*) where
  head : Option ι
  tail : Option ι
  len : Nat

namespace Fifo

def new : Fifo ι := ⟨none, none, 0⟩

variable (q : Fifo ι) (next : ι → Option ι)

def pushBack (node : ι) : Fifo ι × (ι → Option ι) :=
  let next := update next node none
  match q.tail with
  | some tail => (⟨q.head, some node, q.len + 1⟩, update next tail (some node))
  | none => (⟨some node, some node, q.len + 1⟩, next)

def popFront : Option ι × Fifo ι × (ι → Option ι) :=
  match q.head with
  | none => (none, q, next)
  | some node =>
    let tail := if (next node).isNone then none else q.tail
    (some node, ⟨next node, tail, q.len - 1⟩, update next node none)

end Fifo

/-- The links and the queues over them. -/
structure Fifos (ι κ : Type*) where
  next : ι → Option ι
  queues : κ → Fifo ι

/-- The operations on the queues. -/
inductive Op (ι κ : Type*)
  | pushBack (k : κ) (node : ι)
  | popFront (k : κ)

/-- What an operation returns, and the links and queues after it. -/
def Fifos.step (s : Fifos ι κ) : Op ι κ → Option ι × Fifos ι κ
  | .pushBack k node =>
    let (q, next) := (s.queues k).pushBack s.next node
    (none, ⟨next, update s.queues k q⟩)
  | .popFront k =>
    let (node, q, next) := (s.queues k).popFront s.next
    (node, ⟨next, update s.queues k q⟩)

/-- What an operation does to the lists. -/
def Op.apply (ls : κ → List ι) : Op ι κ → κ → List ι
  | .pushBack k node => push ls k node
  | .popFront k => update ls k (ls k).tail

/-- A node is pushed only while it is on no queue. -/
def Op.Allowed (ls : κ → List ι) : Op ι κ → Prop
  | .pushBack _ node => ¬ Mem ls node
  | .popFront _ => True

/-- Runs from empty queues, with the operations made (the last one first) and the lists. -/
inductive Run : List (Op ι κ) → Fifos ι κ → (κ → List ι) → Prop
  | new (next : ι → Option ι) : Run [] ⟨next, fun _ => .new⟩ fun _ => []
  | step {ops s ls} {op : Op ι κ} :
    Run ops s ls → op.Allowed ls → Run (op :: ops) (s.step op).2 (op.apply ls)

/-- The queue and the links of its nodes stand for `l`. -/
structure Fifo.Represents (q : Fifo ι) (next : ι → Option ι) (l : List ι) : Prop where
  head : q.head = l.head?
  tail : q.tail = l.getLast?
  len : q.len = l.length
  linked : ∀ i x, l[i]? = some x → next x = l[i + 1]?

variable {next : ι → Option ι} {l : List ι} {x : ι}

namespace Fifo.Represents

variable {q : Fifo ι} (h : q.Represents next l)
include h

theorem pushBack (hnd : l.Nodup) (hx : x ∉ l) :
    (q.pushBack next x).1.Represents (q.pushBack next x).2 (l ++ [x]) ∧
      ∀ y, y ∉ l → y ≠ x → (q.pushBack next x).2 y = next y := by
  have hlen : q.len + 1 = (l ++ [x]).length := by rw [h.len, length_append, length_singleton]
  rw [Fifo.pushBack, h.tail]
  rcases ht : l.getLast? with - | t
  · rw [getLast?_eq_none_iff] at ht
    subst ht
    refine ⟨⟨rfl, rfl, hlen, fun i y hy => ?_⟩, fun y _ hy => update_of_ne hy ..⟩
    grind
  · have htl := mem_of_getLast? ht
    refine ⟨⟨?_, (getLast?_concat).symm, hlen, fun i y hy => ?_⟩, fun y hyl hy => ?_⟩
    · rw [h.head]
      cases l <;> simp_all
    · have := h.linked i y
      grind [Nodup.getElem_inj_iff]
    · grind

theorem popFront (hnd : l.Nodup) :
    (q.popFront next).1 = l.head? ∧
    (q.popFront next).2.1.Represents (q.popFront next).2.2 l.tail ∧
    ∀ y, (q.popFront next).2.2 y = if some y = l.head? then none else next y := by
  rw [Fifo.popFront, h.head]
  rcases l with - | ⟨x, l⟩
  · exact ⟨rfl, h, fun y => rfl⟩
  · have hnext : next x = l.head? := by rw [h.linked 0 x rfl, head?_eq_getElem?]; rfl
    dsimp only [head?_cons, tail_cons]
    refine ⟨rfl, ⟨hnext, ?_, ?_, fun i y hy => ?_⟩, fun y => ?_⟩
    · have := h.tail
      rcases l with - | ⟨w, l⟩ <;> simp_all
    · simp [h.len]
    · have := h.linked (i + 1) y
      grind
    · grind

end Fifo.Represents

/-- A node is on one queue at most, and once; one that was popped has no link. -/
structure Inv (ops : List (Op ι κ)) (s : Fifos ι κ) (ls : κ → List ι) : Prop where
  represents : ∀ k, (s.queues k).Represents s.next (ls k)
  exclusive : Exclusive ls
  popped : ∀ k x, .pushBack k x ∈ ops → ¬ Mem ls x → s.next x = none

variable {ops : List (Op ι κ)} {s : Fifos ι κ} {ls : κ → List ι}

omit [DecidableEq ι] in
/-- The other queues keep their lists while the links of their nodes are kept. -/
theorem Inv.update (h : Inv ops s ls) {k : κ} {q : Fifo ι} (hq : q.Represents next l)
    (hframe : ∀ j ≠ k, ∀ y ∈ ls j, next y = s.next y) (j : κ) :
    (update s.queues k q j).Represents next (update ls k l j) := by
  rcases eq_or_ne j k with rfl | hj
  · rw [update_self, update_self]
    exact hq
  · have hold := h.represents j
    rw [update_of_ne hj, update_of_ne hj]
    refine { hold with linked := fun i x hx => ?_ }
    rw [hframe j hj x (mem_of_getElem? hx)]
    exact hold.linked i x hx

theorem Inv.step {op : Op ι κ} (h : Inv ops s ls) (hop : op.Allowed ls) :
    Inv (op :: ops) (s.step op).2 (op.apply ls) := by
  cases op with
  | pushBack k x =>
    obtain ⟨hq, hframe⟩ := (h.represents k).pushBack (h.exclusive.nodup k) fun hx => hop ⟨k, hx⟩
    refine ⟨h.update hq fun j hj y hy => ?_, h.exclusive.push hop, fun j y hy hoff => ?_⟩
    · refine hframe y (fun hyk => hj (h.exclusive.unique hy hyk)) ?_
      rintro rfl
      exact hop ⟨j, hy⟩
    · obtain ⟨hold, hne⟩ := not_or.mp (mt Mem_push.mpr hoff)
      refine (hframe y (fun hy => hold ⟨k, hy⟩) hne).trans (h.popped j y ?_ hold)
      exact (mem_cons.mp hy).resolve_left fun heq => hne (Op.pushBack.inj heq).2
  | popFront k =>
    obtain ⟨-, hq, hframe⟩ := (h.represents k).popFront (h.exclusive.nodup k)
    have hold {j y} (hy : .pushBack j y ∈ Op.popFront k :: ops) : .pushBack j y ∈ ops :=
      (mem_cons.mp hy).resolve_left fun heq => by cases heq
    refine ⟨h.update hq fun j hj y hy => ?_, ?_, fun j y hy hoff => (hframe y).trans ?_⟩
    · refine (hframe y).trans (if_neg fun heq => hj (h.exclusive.unique hy ?_))
      exact mem_of_mem_head? heq.symm
    · exact h.exclusive.update (h.exclusive.nodup k).tail fun y hy => .inl (mem_of_mem_tail hy)
    · split_ifs with hhead
      · rfl
      · refine h.popped j y (hold hy) ?_
        rintro ⟨i, hi⟩
        refine hoff ⟨i, mem_update.mpr ?_⟩
        by_cases hik : i = k
        · subst hik
          refine .inl ⟨rfl, ?_⟩
          cases hls : ls i <;> simp_all
        · exact .inr ⟨hik, hi⟩

theorem Run.inv (h : Run ops s ls) : Inv ops s ls := by
  induction h with
  | new next =>
    refine ⟨fun _ => ⟨rfl, rfl, rfl, fun i x hx => ?_⟩, ⟨fun _ => nodup_nil, fun hx => ?_⟩,
      fun _ _ hx => ?_⟩
    all_goals cases hx
  | step _ hop ih => exact ih.step hop

/-- **Each queue represents the nodes pushed on it and not popped, in order**: `Op.apply` changes
one list.  A pop returns the first node; the last one and one that was popped have no link. -/
theorem fifo_refines_list (h : Run ops s ls) :
    (∀ k, (s.queues k).Represents s.next (ls k) ∧ (s.step (.popFront k)).1 = (ls k).head? ∧
      ∀ x, (s.queues k).tail = some x → s.next x = none) ∧
    ∀ k x, .pushBack k x ∈ ops → ¬ Mem ls x → s.next x = none := by
  refine ⟨fun k => ⟨h.inv.represents k, ?_, fun x hx => ?_⟩, h.inv.popped⟩
  · exact ((h.inv.represents k).popFront (h.inv.exclusive.nodup k)).1
  · have hq := h.inv.represents k
    rw [hq.tail, getLast?_eq_getElem?] at hx
    rw [hq.linked _ x hx, getElem?_eq_none]
    omega

theorem fifo_refines_list_popped : ∃ s : Fifos Nat Nat, (s.queues 0).Represents s.next [2] ∧
    s.next 1 = none := by
  have hrun : Run [.popFront 0, .pushBack 0 2, .pushBack 0 1] _ _ :=
    .step (.step (.step (.new fun _ : Nat => none) (by simp [Op.Allowed, Mem])) (by
      simp [Op.Allowed, Op.apply, Mem, mem_push])) trivial
  obtain ⟨hq, hpopped⟩ := fifo_refines_list hrun
  exact ⟨_, (hq 0).1, hpopped 0 1 (by simp) (by simp [Op.apply, Mem, mem_update, push])⟩

/-! ### The queues of a rendezvous and of a notification -/

/-- Some linked queues stand for these lists. -/
def Queued (ls : κ → List ι) : Prop := ∃ ops s, Run ops s ls

theorem Queued.push (h : Queued ls) (k : κ) (hx : ¬ Mem ls x) : Queued (push ls k x) := by
  obtain ⟨ops, s, hrun⟩ := h
  exact ⟨.pushBack k x :: ops, _, hrun.step hx⟩

theorem Queued.pop (h : Queued ls) (k : κ) : Queued (Function.update ls k (ls k).tail) := by
  obtain ⟨ops, s, hrun⟩ := h
  exact ⟨.popFront k :: ops, _, hrun.step trivial⟩

/-- The senders of a rendezvous at `true`, its receivers at `false`. -/
def waiting (r : Rendezvous ι) (sending : Bool) : List ι := if sending then r.senders else r.receivers

section

variable {r : Rendezvous ι} {me : ι}

/-- **A send and a receive by a thread that waits nowhere, and an interrupt, are operations of the
linked queues.** -/
theorem queued_rendezvous (h : Queued (waiting r)) (hme : ¬ Mem (waiting r) me) :
    Queued (waiting (r.send me).1) ∧ Queued (waiting (r.receive me).1) ∧
      Queued (waiting r.signal.1) := by
  have hpop (sending : Bool) {r' : Rendezvous ι} (hr' : ∀ side, waiting r' side =
      Function.update (waiting r) sending (waiting r sending).tail side) : Queued (waiting r') := by
    rw [funext hr']
    exact h.pop sending
  have hpush (sending : Bool) {r' : Rendezvous ι} (hr' : ∀ side, waiting r' side =
      Queues.push (waiting r) sending me side) : Queued (waiting r') := by
    rw [funext hr']
    exact h.push sending hme
  refine ⟨?_, ?_, ?_⟩
  · unfold Rendezvous.send
    split
    · exact h
    · split
      · next hq => exact hpop false fun side => by cases side <;> simp [waiting, hq]
      · exact hpush true fun side => by cases side <;> simp [waiting, Queues.push]
  · unfold Rendezvous.receive
    split
    · exact h
    · split
      · next hq => exact hpop true fun side => by cases side <;> simp [waiting, hq]
      · exact hpush false fun side => by cases side <;> simp [waiting, Queues.push]
  · unfold Rendezvous.signal
    split
    · next hq => exact hpop false fun side => by cases side <;> simp [waiting, hq]
    · exact h

/-- So are a signal to a notification and a wait. -/
theorem queued_notification {n : Notification ι} (h : Queued fun _ : Unit => n.waiters)
    (hme : me ∉ n.waiters) (bits : Nat) (boundReceiving : Bool) :
    (Queued fun _ : Unit => (n.signal bits boundReceiving).1.waiters) ∧
      Queued fun _ : Unit => (n.wait me).1.waiters := by
  constructor
  · unfold Notification.signal
    split
    · exact h
    · split
      · next waiter rest hq =>
        have hrest : Function.update (fun _ : Unit => n.waiters) () n.waiters.tail = fun _ => rest := by
          funext side
          simp [hq]
        rw [← hrest]
        exact h.pop ()
      · split
        all_goals exact h
  · unfold Notification.wait
    split
    · exact h
    · have hlast : Queues.push (fun _ : Unit => n.waiters) () me = fun _ => n.waiters ++ [me] := by
        funext side
        simp [Queues.push]
      rw [← hlast]
      refine h.push () fun hmem => ?_
      obtain ⟨_, hmem⟩ := hmem
      exact hme hmem

end

end Nife.IntrusiveFifo
