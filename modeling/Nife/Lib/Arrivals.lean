/-
Who came to a queue, and what became of them.  A log lists, newest first, who joined, who was
taken from the queue in turn, and who was withdrawn from it out of turn.  `Settled log queue`
says that the log and the queue agree in both ways one asks of a queue: those who joined and
were not withdrawn are those who were taken, in the same order, and then those still in it; and
each time somebody joined is settled by one time of being taken, one of being withdrawn, or
one place in the queue.

There is one rule for each way a queue changes: a push at the back, a pop at the front, an
element withdrawn from anywhere, and the whole queue drained.
-/
import Mathlib.Data.List.Nodup

namespace Arrivals

/-- What happens to an element of a queue. -/
inductive Event (α : Type*)
  | joined (a : α)
  | taken (a : α)
  | withdrawn (a : α)
  deriving DecidableEq

variable {α : Type*} [DecidableEq α]

/-- Strike the last occurrence: the one that has waited least. -/
def eraseLast (a : α) (l : List α) : List α := (l.reverse.erase a).reverse

/-- Those who joined and were not withdrawn, in the order they joined. -/
def stayed : List (Event α) → List α
  | [] => []
  | .joined a :: log => stayed log ++ [a]
  | .taken _ :: log => stayed log
  | .withdrawn a :: log => eraseLast a (stayed log)

/-- Those who were taken, in the order they were. -/
def took : List (Event α) → List α
  | [] => []
  | .joined _ :: log => took log
  | .taken a :: log => took log ++ [a]
  | .withdrawn _ :: log => took log

/-- **The log and the queue agree.** -/
structure Settled (log : List (Event α)) (queue : List α) : Prop where
  order : stayed log = took log ++ queue
  once : ∀ a, log.count (.joined a) =
    log.count (.taken a) + log.count (.withdrawn a) + queue.count a

variable {log : List (Event α)} {q : List α} {a : α}

theorem eraseLast_append {l : List α} (ha : a ∈ q) : eraseLast a (l ++ q) = l ++ eraseLast a q := by
  unfold eraseLast
  rw [List.reverse_append, List.erase_append_left _ (List.mem_reverse.mpr ha), List.reverse_append,
    List.reverse_reverse]

theorem eraseLast_of_nodup (hnd : q.Nodup) : eraseLast a q = q.filter (· ≠ a) := by
  unfold eraseLast
  rw [(List.nodup_reverse.mpr hnd).erase_eq_filter, List.filter_reverse, List.reverse_reverse]
  refine List.filter_congr fun b _ => ?_
  rw [bne, beq_eq_decide, decide_not]

theorem Settled.nil : Settled ([] : List (Event α)) [] where
  order := rfl
  once _ := rfl

theorem Settled.joined (h : Settled log q) (a : α) : Settled (.joined a :: log) (q ++ [a]) where
  order := by
    show stayed log ++ [a] = took log ++ (q ++ [a])
    rw [h.order, List.append_assoc]
  once b := by
    have hb := h.once b
    by_cases hab : a = b
    · subst hab
      simp at hb ⊢
      omega
    · simp [hab] at hb ⊢
      omega

theorem Settled.taken (h : Settled log (a :: q)) : Settled (.taken a :: log) q where
  order := by
    show stayed log = took log ++ [a] ++ q
    rw [h.order, List.append_assoc]
    rfl
  once b := by
    have hb := h.once b
    by_cases hab : a = b
    · subst hab
      simp at hb ⊢
      omega
    · simp [hab] at hb ⊢
      omega

theorem Settled.withdrawn (h : Settled log q) (hnd : q.Nodup) (ha : a ∈ q) :
    Settled (.withdrawn a :: log) (q.filter (· ≠ a)) where
  order := by
    show eraseLast a (stayed log) = took log ++ q.filter (· ≠ a)
    rw [h.order, eraseLast_append ha, eraseLast_of_nodup hnd]
  once b := by
    have hb := h.once b
    by_cases hab : a = b
    · subst hab
      have hout : (q.filter (· ≠ a)).count a = 0 := List.count_eq_zero_of_not_mem (by simp)
      rw [List.count_eq_one_of_mem hnd ha] at hb
      rw [hout]
      simp at hb ⊢
      omega
    · have hba : b ≠ a := fun heq => hab heq.symm
      have hin : (q.filter (· ≠ a)).count b = q.count b :=
        List.count_filter (by simpa using hba)
      rw [hin]
      simp [hab] at hb ⊢
      omega

/-- Take the whole queue, from the front. -/
def drained (q : List α) (log : List (Event α)) : List (Event α) :=
  q.foldl (fun log a => .taken a :: log) log

theorem Settled.drained (h : Settled log q) : Settled (drained q log) [] := by
  induction q generalizing log with
  | nil => exact h
  | cons a q ih => exact ih h.taken

end Arrivals
