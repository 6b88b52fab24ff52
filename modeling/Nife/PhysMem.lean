/-
Physical memory as the kernel sees it through the direct map: 512 words of 64 bits for
each 4 KiB frame, found by the frame's physical address.  Page tables and mapping-log
pages are two readings of the same words, so a page used as one while still linked as
the other is expressible, and what a stray walk reads is decided by what the page holds.
-/
import Mathlib.Tactic.Common

namespace Nife

/-- `page_frames::FRAME_SIZE`. -/
def frameSize : Nat := 4096

/-- The frames a 64-bit physical address can name. -/
def frameLimit : Nat := 0x10000000000000

/-- The words of each frame, by the frame's physical address and the word's index. -/
def PhysMem := Nat → Nat → Nat

namespace PhysMem

/-- Word `w` of the frame at `p`. -/
def word (m : PhysMem) (p w : Nat) : Nat := m p w

def store (m : PhysMem) (p w v : Nat) : PhysMem :=
  fun q x => if q = p ∧ x = w then v else m q x

/-- Zero the frame at `p`, as `memory_region::retype_run` does before it hands it out. -/
def zeroFrame (m : PhysMem) (p : Nat) : PhysMem := fun q x => if q = p then 0 else m q x

section

variable (m : PhysMem) {p q : Nat}

theorem word_store_self (p w v : Nat) : (m.store p w v).word p w = v := by
  simp [word, store]

theorem word_store_frame (w v x : Nat) (h : q ≠ p) : (m.store p w v).word q x = m.word q x := by
  simp [word, store, h]

theorem word_store_word (p : Nat) {w x : Nat} (v : Nat) (h : x ≠ w) :
    (m.store p w v).word p x = m.word p x := by
  simp [word, store, h]

theorem word_zeroFrame_frame (w : Nat) (h : q ≠ p) : (m.zeroFrame p).word q w = m.word q w := by
  simp [word, zeroFrame, h]

end

end PhysMem

end Nife
