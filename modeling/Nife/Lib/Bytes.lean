/-
Byte strings, in byte order.

A byte string is compared as a Rust slice of bytes is: lexicographically, byte by byte, a proper
initial part before the whole.  The order on bytes is scoped, so that only a module that opens
`Bytes` sees it.
-/
import Mathlib.Data.Set.Finite.List

/-- A string of bytes. -/
abbrev Bytes := List UInt8

namespace Bytes

/-- The byte of an ASCII character. -/
def chr (c : Char) : UInt8 := c.toNat.toUInt8

/-- The bytes of an ASCII text. -/
def ascii (s : String) : Bytes := s.toList.map chr

/-- Space, tab, line feed, form feed and carriage return. -/
def isAsciiWhitespace (b : UInt8) : Bool :=
  b == 0x20 || b == 0x09 || b == 0x0a || b == 0x0c || b == 0x0d

scoped instance : LinearOrder UInt8 where
  le_refl := UInt8.le_refl
  le_trans _ _ _ := UInt8.le_trans
  le_antisymm _ _ := UInt8.le_antisymm
  le_total := UInt8.le_total
  lt_iff_le_not_ge a b := by
    rw [UInt8.not_le]
    exact ⟨fun h => ⟨UInt8.le_of_lt h, h⟩, fun h => h.2⟩
  toDecidableLE := inferInstance
  toDecidableEq := inferInstance
  toDecidableLT := inferInstance

/-- Byte strings of bounded length are finitely many. -/
theorem finite_length_le (n : ℕ) : {b : Bytes | b.length ≤ n}.Finite := by
  have : Finite UInt8 :=
    Finite.of_injective UInt8.toFin fun _ _ h => UInt8.toFin_inj.mp h
  exact List.finite_length_le UInt8 n

end Bytes
