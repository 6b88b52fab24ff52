/-
Reading hostile bytes.  A computation ends in a value, refuses its input with a reason, or panics:
an access outside the bytes and a sum past 64 bits are panics (`slice`, `word`, `sum`).

`Settles x P v` says all there is to say about a check: it ends in `v` if the input meets `P` and
is refused otherwise, so it never panics.  The rules below put such statements together along the
computation: behind a requirement, one after the other, and over a loop.
-/
import Nife.Lib.Bytes
import Nife.Lib.Fallible

namespace Slices

open Fallible List

/-- How a computation ends without a value. -/
inductive Stop (ε : Type)
  | panic
  | refused (reason : ε)
  deriving DecidableEq, Repr

/-- A computation on hostile input. -/
abbrev Run (ε α : Type) := Except (Stop ε) α

/-- The number of some bytes, the lowest first. -/
def le : Bytes → Nat
  | [] => 0
  | b :: bs => b.toNat + 256 * le bs

/-- The `k` lowest bytes of a number, the lowest first. -/
def bytesOf : Nat → Nat → Bytes
  | 0, _ => []
  | k + 1, n => UInt8.ofNat (n % 256) :: bytesOf k (n / 256)

theorem length_bytesOf (k n : Nat) : (bytesOf k n).length = k := by
  induction k generalizing n with
  | zero => rfl
  | succ k ih => rw [bytesOf, length_cons, ih]

theorem le_bytesOf {k n : Nat} (h : n < 256 ^ k) : le (bytesOf k n) = n := by
  induction k generalizing n with
  | zero =>
    obtain rfl : n = 0 := by omega
    rfl
  | succ k ih =>
    have hlow : (UInt8.ofNat (n % 256)).toNat = n % 256 := by
      rw [UInt8.toNat_ofNat']
      omega
    rw [bytesOf, le, ih (by rw [Nat.pow_succ] at h; omega)]
    omega

/-- The `n` bytes from `start` on. -/
def part (bs : Bytes) (start n : Nat) : Bytes := (bs.drop start).take n

variable {ε α β σ τ : Type} {reason : ε}

def slice (bs : Bytes) (start stop : Nat) : Run ε Bytes :=
  if start ≤ stop ∧ stop ≤ bs.length then .ok (part bs start (stop - start)) else .error .panic

/-- The number of the `n` bytes at `start`, the lowest first. -/
def word (n : Nat) (bs : Bytes) (start : Nat) : Run ε Nat :=
  if start + n ≤ bs.length then .ok (le (part bs start n)) else .error .panic

/-- A sum of 64-bit numbers. -/
def sum (a b : Nat) : Run ε Nat := if a + b < 2 ^ 64 then .ok (a + b) else .error .panic

/-- Refuse the input unless `c`. -/
def require (c : Prop) [Decidable c] (reason : ε) : Run ε Unit :=
  if c then .ok () else .error (.refused reason)

section
variable {bs : Bytes} {start stop n m k : Nat}

theorem slice_ok (h : start ≤ stop) (h' : stop ≤ bs.length) :
    (slice bs start stop : Run ε Bytes) = .ok (part bs start (stop - start)) := if_pos ⟨h, h'⟩

theorem word_ok (h : start + n ≤ bs.length) :
    (word n bs start : Run ε Nat) = .ok (le (part bs start n)) := if_pos h

theorem sum_ok {a b : Nat} (h : a + b < 2 ^ 64) : (sum a b : Run ε Nat) = .ok (a + b) := if_pos h

theorem part_part (h : k + n ≤ m) : part (part bs start m) k n = part bs (start + k) n := by
  rw [part, part, part, drop_take, take_take, drop_drop, Nat.min_eq_left (by omega)]

theorem part_append {cs : Bytes} (h : start + n ≤ bs.length) :
    part (bs ++ cs) start n = part bs start n := by
  rw [part, part, drop_append_of_le_length (by omega),
    take_append_of_le_length (by rw [length_drop]; omega)]

theorem length_part (h : start + n ≤ bs.length) : (part bs start n).length = n := by
  rw [part, length_take, length_drop]
  omega

theorem word_part (h : start + m ≤ bs.length) (hk : k + n ≤ m) :
    (word n (part bs start m) k : Run ε Nat) = .ok (le (part bs (start + k) n)) := by
  rw [word_ok (by rw [length_part h]; exact hk), part_part hk]

end

/-! ### Settling a check -/

/-- The check ends in `v` if `P`, and refuses its input otherwise. -/
structure Settles (x : Run ε α) (P : Prop) (v : α) : Prop where
  ok : P → x = .ok v
  refused : ¬P → ∃ reason, x = .error (.refused reason)

namespace Settles

variable {x : Run ε α} {f : α → Run ε β} {P Q : Prop} {v : α} {w : β}

theorem ok_iff (h : Settles x P v) : (∃ u, x = .ok u) ↔ P := by
  refine ⟨fun ⟨u, hu⟩ => ?_, fun hP => ⟨v, h.ok hP⟩⟩
  by_contra hno
  obtain ⟨reason, hr⟩ := h.refused hno
  cases hu.symm.trans hr

theorem ne_panic (h : Settles x P v) : x ≠ .error .panic := by
  intro hpanic
  by_cases hP : P
  · cases hpanic.symm.trans (h.ok hP)
  · obtain ⟨reason, hr⟩ := h.refused hP
    cases hpanic.symm.trans hr

theorem congr (h : Settles x P v) (hiff : P ↔ Q) : Settles x Q v :=
  ⟨fun hQ => h.ok (hiff.mpr hQ), fun hQ => h.refused fun hP => hQ (hiff.mp hP)⟩

theorem of_ok (h : x = .ok v) : Settles x True v := ⟨fun _ => h, fun hno => absurd trivial hno⟩

theorem of_eq {y : Run ε α} (h : x = y) (hy : Settles y P v) : Settles x P v := h ▸ hy

theorem read (h : x = .ok v) (hf : Settles (f v) P w) : Settles (x >>= f) P w := by
  rw [h]
  exact hf

theorem require {c : Prop} [Decidable c] {f : Unit → Run ε β}
    (h : c → Settles (f ()) P w) : Settles (Slices.require c reason >>= f) (c ∧ P) w := by
  by_cases hc : c
  · rw [Slices.require, if_pos hc]
    exact (h hc).congr ⟨fun hP => ⟨hc, hP⟩, And.right⟩
  · rw [Slices.require, if_neg hc]
    exact ⟨fun hP => absurd hP.1 hc, fun _ => ⟨reason, rfl⟩⟩

theorem require_only {c : Prop} [Decidable c] : Settles (Slices.require c reason) c () :=
  ⟨fun hc => if_pos hc, fun hc => ⟨reason, if_neg hc⟩⟩

theorem bind (h : Settles x P v) (hf : P → Settles (f v) Q w) : Settles (x >>= f) (P ∧ Q) w := by
  by_cases hP : P
  · rw [h.ok hP]
    exact (hf hP).congr ⟨fun hQ => ⟨hP, hQ⟩, And.right⟩
  · obtain ⟨reason, hr⟩ := h.refused hP
    rw [hr]
    exact ⟨fun hPQ => absurd hPQ.1 hP, fun _ => ⟨reason, rfl⟩⟩

/-- A loop settles when each turn does, whatever the turns before came to. -/
theorem foldlM {l : List τ} {body : σ → τ → Run ε σ} {Good : τ → Prop} {step : σ → τ → σ}
    (hbody : ∀ s, ∀ x ∈ l, Settles (body s x) (Good x) (step s x)) (s : σ) :
    Settles (l.foldlM body s) (∀ x ∈ l, Good x) (l.foldl step s) := by
  induction l generalizing s with
  | nil => exact (of_ok rfl).congr (by simp)
  | cons x l ih =>
    rw [foldl_cons]
    refine ((hbody s x mem_cons_self).bind fun _ => ih (fun s y hy => ?_) _).congr
      forall_mem_cons.symm
    exact hbody s y (mem_cons_of_mem _ hy)

end Settles

/-! ### Safe computations -/

/-- The computation does not panic, and a value it ends in is good. -/
structure Safe (x : Run ε α) (P : α → Prop) : Prop where
  ne_panic : x ≠ .error .panic
  good : ∀ v, x = .ok v → P v

namespace Safe

variable {x : Run ε α} {f : α → Run ε β} {P : α → Prop} {Q : β → Prop} {v : α}

theorem of_ok (h : P v) : Safe (.ok v : Run ε α) P where
  ne_panic := nofun
  good := fun u hu => by
    cases hu
    exact h

theorem refused : Safe (.error (.refused reason) : Run ε α) P where
  ne_panic := nofun
  good := nofun

theorem bind (h : Safe x P) (hf : ∀ v, P v → Safe (f v) Q) : Safe (x >>= f) Q := by
  cases x with
  | ok v => exact hf v (h.good v rfl)
  | error stop =>
    refine ⟨fun hpanic => h.ne_panic ?_, fun u hu => ?_⟩
    · cases hpanic
      rfl
    · cases hu

end Safe

end Slices
