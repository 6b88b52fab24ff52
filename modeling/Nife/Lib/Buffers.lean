/-
Arrays of bytes that hold a text at their start: what comes after the text is whatever was there.

`Holds cap buf len text` is that relation for an array of `cap` bytes and a length beside it.  The
lemmas below say what copying within the array and into it does to the text: a text is set
(`Holds.set`), opened to take more (`Holds.insert`) and closed over a part of it (`Holds.remove`).
An access outside the array is a panic.
-/
import Nife.Lib.Slices

namespace Buffers

open Slices List

variable {ε : Type}

/-- The difference of two unsigned numbers. -/
def less (a b : Nat) : Run ε Nat := if b ≤ a then .ok (a - b) else .error .panic

/-- A condition the program stops on if it fails. -/
def asserted (c : Prop) [Decidable c] : Run ε Unit := if c then .ok () else .error .panic

/-- The byte at an index. -/
def byteAt (bs : Bytes) (i : Nat) : Run ε UInt8 :=
  match bs[i]? with
  | some b => .ok b
  | none => .error .panic

/-- Copy bytes over those from `start` to `stop`, as many. -/
def copyFrom (dst : Bytes) (start stop : Nat) (src : Bytes) : Run ε Bytes :=
  if start ≤ stop ∧ stop ≤ dst.length ∧ src.length = stop - start then
    .ok (dst.take start ++ src ++ dst.drop stop)
  else .error .panic

/-- Copy the bytes from `start` to `stop` to another place of the same array. -/
def copyWithin (bs : Bytes) (start stop dest : Nat) : Run ε Bytes := do
  let src ← slice bs start stop
  copyFrom bs dest (dest + src.length) src

section
variable {x y m src : Bytes} {a b : Nat}

theorem less_ok (h : b ≤ a) : (less a b : Run ε Nat) = .ok (a - b) := if_pos h

theorem asserted_ok {c : Prop} [Decidable c] (h : c) : (asserted c : Run ε Unit) = .ok () := if_pos h

theorem slice_append (ha : a = x.length) (hb : b = x.length + m.length) :
    (slice (x ++ m ++ y) a b : Run ε Bytes) = .ok m := by
  subst ha hb
  rw [slice_ok (by omega) (by simp), part, append_assoc, drop_left,
    Nat.add_sub_cancel_left, take_left]

theorem copyFrom_append (ha : a = x.length) (hb : b = x.length + m.length)
    (hsrc : src.length = m.length) :
    (copyFrom (x ++ m ++ y) a b src : Run ε Bytes) = .ok (x ++ src ++ y) := by
  subst ha hb
  have hdrop : (x ++ m ++ y).drop (x.length + m.length) = y := by
    rw [← length_append, drop_left]
  rw [copyFrom, if_pos (by simp [hsrc]), hdrop, append_assoc x m y, take_left]

theorem byteAt_append {c : UInt8} (ha : a = x.length) :
    (byteAt (x ++ c :: y) a : Run ε UInt8) = .ok c := by
  subst ha
  rw [byteAt, getElem?_append_right (le_refl _), Nat.sub_self]
  rfl

end

/-! ### A text at the start of an array -/

/-- The array has `cap` bytes, and the first `len` of them are the text. -/
structure Holds (cap : Nat) (buf : Bytes) (len : Nat) (text : Bytes) : Prop where
  cap : buf.length = cap
  len : len = text.length
  text : ∃ rest, buf = text ++ rest

namespace Holds

variable {cap len n a b : Nat} {buf text x y m : Bytes}

theorem le_cap (h : Holds cap buf len text) : text.length ≤ cap := by
  obtain ⟨rest, hbuf⟩ := h.text
  rw [← h.cap, hbuf, length_append]
  omega

theorem take (h : Holds cap buf len text) : buf.take len = text := by
  obtain ⟨rest, hbuf⟩ := h.text
  rw [hbuf, h.len, take_left]

theorem of_le (hcap : buf.length = cap) (hlen : len ≤ cap) : Holds cap buf len (buf.take len) :=
  ⟨hcap, by rw [length_take, hcap, Nat.min_eq_left hlen], buf.drop len,
    (take_append_drop len buf).symm⟩

theorem nil (hcap : buf.length = cap) : Holds cap buf 0 [] := ⟨hcap, rfl, buf, rfl⟩

theorem slice (h : Holds cap buf len (x ++ m ++ y)) (ha : a = x.length)
    (hb : b = x.length + m.length) : (Slices.slice buf a b : Run ε Bytes) = .ok m := by
  obtain ⟨rest, hbuf⟩ := h.text
  rw [hbuf, append_assoc]
  exact slice_append ha hb

theorem whole (h : Holds cap buf len text) : (Slices.slice buf 0 len : Run ε Bytes) = .ok text := by
  obtain ⟨rest, hbuf⟩ := h.text
  rw [hbuf]
  exact slice_append (x := []) rfl (by rw [h.len, length_nil, Nat.zero_add])

theorem set (hcap : buf.length = cap) (hn : n = text.length) (hle : text.length ≤ cap) :
    ∃ buf', (copyFrom buf 0 n text : Run ε Bytes) = .ok buf' ∧ Holds cap buf' n text := by
  subst hn
  refine ⟨text ++ buf.drop text.length, ?_, ?_, rfl, _, rfl⟩
  · rw [copyFrom, if_pos ⟨Nat.zero_le _, by omega, rfl⟩]
    rfl
  · rw [length_append, length_drop]
    omega

/-- **The text opened at a place**: the tail is moved up and bytes are copied into the gap. -/
theorem insert (h : Holds cap buf len (x ++ y)) (ha : a = x.length) (hb : b = x.length + m.length)
    (hfits : len + m.length ≤ cap) :
    ∃ buf' buf'', (copyWithin buf a len b : Run ε Bytes) = .ok buf' ∧
      (copyFrom buf' a b m : Run ε Bytes) = .ok buf'' ∧
      Holds cap buf'' (len + m.length) (x ++ m ++ y) := by
  obtain ⟨rest, hbuf⟩ := h.text
  have hlen := h.len
  have hcap := h.cap
  rw [hbuf, length_append] at hcap
  rw [length_append] at hlen hcap
  -- what stands where the gap will be
  obtain ⟨gap, tail, hgap, hg⟩ : ∃ gap tail, y ++ rest = gap ++ tail ∧ gap.length = m.length :=
    ⟨(y ++ rest).take m.length, (y ++ rest).drop m.length, (take_append_drop _ _).symm, by
      rw [length_take, length_append]
      omega⟩
  have htail : y.length ≤ tail.length := by
    have := congrArg List.length hgap
    rw [length_append, length_append] at this
    omega
  have hmoved : (copyWithin buf a len b : Run ε Bytes) =
      .ok ((x ++ gap) ++ y ++ tail.drop y.length) := by
    have hsplit : x ++ y ++ rest = (x ++ gap) ++ tail.take y.length ++ tail.drop y.length := by
      rw [append_assoc, hgap, append_assoc, take_append_drop, append_assoc]
    have htake : (tail.take y.length).length = y.length := by
      rw [length_take]
      omega
    have hsrc : (Slices.slice buf a len : Run ε Bytes) = .ok y := by
      rw [hbuf]
      exact slice_append ha hlen
    rw [copyWithin, hsrc]
    refine Eq.trans ?_ (copyFrom_append (a := b) (b := b + y.length) (by simp [hb, hg])
      (by rw [htake]; simp [hb, hg]) htake.symm)
    rw [hbuf, hsplit]
    rfl
  refine ⟨_, x ++ m ++ (y ++ tail.drop y.length), hmoved, ?_, ?_, ?_, tail.drop y.length, ?_⟩
  · rw [append_assoc (x ++ gap)]
    exact copyFrom_append ha (by rw [hb, hg]) hg.symm
  · have := congrArg List.length hgap
    simp only [length_append, length_drop] at this ⊢
    omega
  · simp only [length_append]
    omega
  · simp only [append_assoc]

/-- **The text closed over a part of it.** -/
theorem remove (h : Holds cap buf len (x ++ m ++ y)) (ha : a = x.length)
    (hb : b = x.length + m.length) :
    ∃ buf', (copyWithin buf b len a : Run ε Bytes) = .ok buf' ∧
      Holds cap buf' (len - m.length) (x ++ y) := by
  obtain ⟨rest, hbuf⟩ := h.text
  have hlen := h.len
  rw [length_append, length_append] at hlen
  have hsrc : (Slices.slice buf b len : Run ε Bytes) = .ok y := by
    rw [hbuf]
    exact slice_append (by rw [hb, length_append]) (by rw [hlen, length_append])
  have htake : ((m ++ y ++ rest).take y.length).length = y.length := by
    rw [length_take, length_append, length_append]
    omega
  have hsplit : buf = x ++ (m ++ y ++ rest).take y.length ++ (m ++ y ++ rest).drop y.length := by
    rw [append_assoc, take_append_drop, hbuf]
    simp only [append_assoc]
  have hcap := h.cap
  refine ⟨x ++ y ++ (m ++ y ++ rest).drop y.length, ?_, ?_, ?_, _, rfl⟩
  · rw [copyWithin, hsrc]
    refine Eq.trans ?_ (copyFrom_append (a := a) (b := a + y.length) ha (by rw [htake, ha]) htake.symm)
    rw [← hsplit]
    rfl
  · rw [hbuf] at hcap
    simp only [length_append, length_drop] at hcap ⊢
    omega
  · rw [length_append]
    omega

end Holds

end Buffers
