/-
Little-endian words in a byte-addressed medium.  `load` reads a number of `n` bytes, `store` lays
one down; a load sees the last store at its own place and no store that does not meet it.
-/
import Nife.Lib.Medium
import Mathlib.Algebra.Order.Group.Nat

namespace Words

open Medium

variable {m : Nat → BitVec 8} {addr a n k v : Nat}

/-- The `n` lowest bytes of a number, the lowest first. -/
def toBytes : Nat → Nat → List (BitVec 8)
  | 0, _ => []
  | n + 1, v => BitVec.ofNat 8 v :: toBytes n (v / 256)

/-- The number of a list of bytes, the lowest first. -/
def ofBytes : List (BitVec 8) → Nat
  | [] => 0
  | b :: bs => b.toNat + 256 * ofBytes bs

@[simp] theorem length_toBytes (n v : Nat) : (toBytes n v).length = n := by
  induction n generalizing v with
  | zero => rfl
  | succ n ih => rw [toBytes, List.length_cons, ih]

theorem ofBytes_toBytes (n v : Nat) : ofBytes (toBytes n v) = v % 256 ^ n := by
  induction n generalizing v with
  | zero => rw [Nat.pow_zero, Nat.mod_one]; rfl
  | succ n ih =>
    rw [toBytes, ofBytes, ih]
    change v % 256 + 256 * (v / 256 % 256 ^ n) = v % 256 ^ (n + 1)
    rw [Nat.pow_succ, Nat.mul_comm (256 ^ n), Nat.mod_mul]

/-- The number held in the `n` bytes from `addr` on. -/
def load (m : Nat → BitVec 8) (addr n : Nat) : Nat := ofBytes (window m addr n)

/-- The content after a number of `n` bytes was laid down at `addr`. -/
def store (m : Nat → BitVec 8) (addr n v : Nat) : Nat → BitVec 8 := overlay m addr (toBytes n v)

theorem load_store_self (h : v < 256 ^ n) : load (store m addr n v) addr n = v := by
  have hwindow := window_overlay_self m addr (toBytes n v)
  rw [length_toBytes] at hwindow
  rw [load, store, hwindow, ofBytes_toBytes, Nat.mod_eq_of_lt h]

theorem load_store_of_disjoint (h : a + k ≤ addr ∨ addr + n ≤ a) :
    load (store m addr n v) a k = load m a k := by
  rw [load, load, store, window_overlay_of_disjoint]
  rwa [length_toBytes]

end Words
