/-
A terminal of unbounded width: printable bytes write a cell and advance, and a few control bytes and
escape sequences move the cursor and erase.

`At s base line k` says what the row of the cursor shows from a column on: the cells of a line and
nothing behind it, with the cursor `k` cells into it.  The lemmas say what each thing a program can
put does to that: a text overwrites (`At.text`), the cursor moves (`At.left`, `At.right`), the rest of
the row goes blank (`At.erase`), and the cursor starts a blank row (`At.newRow`, `At.clear`).
-/
import Nife.Lib.Bytes

/-- Where a terminal is in an escape sequence. -/
inductive ScreenEsc
  | ground | esc
  | csi (parameter : Option Nat)

/-- The cells of a terminal, row by row, and the cursor. -/
structure Screen where
  cells : Nat → Nat → Option UInt8
  (row col : Nat)
  esc : ScreenEsc

namespace Screen

open List

/-- A byte that has a cell. -/
def Printable (b : UInt8) : Prop := 0x20 ≤ b ∧ b ≤ 0x7e

instance : DecidablePred Printable := fun _ => inferInstanceAs (Decidable (_ ∧ _))

/-- The end of a sequence with its parameter. -/
def final (s : Screen) (b : UInt8) (parameter : Option Nat) : Screen :=
  let s := { s with esc := .ground }
  if b = 68 then { s with col := s.col - parameter.getD 1 }
  else if b = 67 then { s with col := s.col + parameter.getD 1 }
  else if b = 75 then
    { s with cells := fun r c => if r = s.row ∧ s.col ≤ c then none else s.cells r c }
  else if b = 74 ∧ parameter = some 2 then { s with cells := fun _ _ => none }
  else if b = 72 then { s with row := 0, col := 0 }
  else s

/-- One byte. -/
def step (s : Screen) (b : UInt8) : Screen :=
  match s.esc with
  | .esc => { s with esc := if b = 91 then .csi none else .ground }
  | .csi parameter =>
      if 48 ≤ b ∧ b ≤ 57 then { s with esc := .csi (some (parameter.getD 0 * 10 + (b - 48).toNat)) }
      else s.final b parameter
  | .ground =>
      if b = 0x1b then { s with esc := .esc }
      else if b = 8 then { s with col := s.col - 1 }
      else if b = 13 then { s with col := 0 }
      else if b = 10 then
        -- the next row is a blank one
        { s with row := s.row + 1, cells := fun r c => if r = s.row + 1 then none else s.cells r c }
      else if Printable b then
        { s with
          col := s.col + 1
          cells := fun r c => if r = s.row ∧ c = s.col then some b else s.cells r c }
      else s

/-- A terminal after bytes. -/
def shows (s : Screen) (bytes : Bytes) : Screen := bytes.foldl step s

theorem shows_append (s : Screen) (a b : Bytes) : s.shows (a ++ b) = (s.shows a).shows b :=
  foldl_append

/-- A terminal with the cursor on a blank row. -/
def fresh (cells : Nat → Nat → Option UInt8) (row col : Nat) : Screen :=
  ⟨fun r c => if r = row then none else cells r c, row, col, .ground⟩

/-- From the column `base` on, the row of the cursor shows the text and nothing else; the cursor is
`k` cells into it. -/
structure At (s : Screen) (base : Nat) (text : Bytes) (k : Nat) : Prop where
  ground : s.esc = .ground
  col : s.col = base + k
  cells : ∀ j, s.cells s.row (base + j) = text[j]?

/-- The parameter that digits add up to. -/
def number (parameter : Option Nat) (ds : Bytes) : Option Nat :=
  ds.foldl (fun p b => some (p.getD 0 * 10 + (b - 48).toNat)) parameter

variable {s : Screen} {ds : Bytes}

theorem shows_digits {parameter : Option Nat}
    (hesc : s.esc = .csi parameter) (hds : ∀ b ∈ ds, 48 ≤ b ∧ b ≤ 57) :
    s.shows ds = { s with esc := .csi (number parameter ds) } := by
  induction ds generalizing s parameter with
  | nil =>
    rw [shows, foldl_nil, number, foldl_nil, ← hesc]
  | cons b ds ih =>
    have hb := hds b mem_cons_self
    have hstep : s.step b =
        { s with esc := .csi (some (parameter.getD 0 * 10 + (b - 48).toNat)) } := by
      simp [step, hesc, if_pos hb]
    rw [shows, foldl_cons, hstep]
    exact ih rfl fun b hb => hds b (mem_cons_of_mem _ hb)

theorem shows_sequence {b : UInt8} (hground : s.esc = .ground)
    (hds : ∀ b ∈ ds, 48 ≤ b ∧ b ≤ 57) (hb : ¬(48 ≤ b ∧ b ≤ 57)) :
    s.shows (0x1b :: 91 :: ds ++ [b]) = s.final b (number none ds) := by
  have hbegin : s.shows [0x1b, 91] = { s with esc := .csi none } := by
    simp [shows, step, hground]
  have hdigits := shows_digits (s := { s with esc := .csi none }) rfl hds
  rw [show 0x1b :: 91 :: ds ++ [b] = [0x1b, 91] ++ ds ++ [b] by simp, shows_append, shows_append,
    hbegin, hdigits, shows, foldl_cons]
  simp only [step, if_neg hb]
  rfl

namespace At

variable {s : Screen} {base k n : Nat} {line t x y ds : Bytes} {b : UInt8}

theorem fresh (cells : Nat → Nat → Option UInt8) (row col : Nat) :
    At (fresh cells row col) col [] 0 := ⟨rfl, rfl, fun _ => if_pos rfl⟩

theorem shift (h : At s base (x ++ y) (x.length + k)) : At s (base + x.length) y k where
  ground := h.ground
  col := by rw [h.col, Nat.add_assoc]
  cells := fun j => by
    rw [Nat.add_assoc, h.cells, getElem?_append_right (by omega), Nat.add_sub_cancel_left]

theorem print (h : At s base line k) (hk : k ≤ line.length) (hb : Printable b) :
    At (s.step b) base (line.take k ++ b :: line.drop (k + 1)) (k + 1) := by
  have hesc : b ≠ 0x1b := by rintro rfl; exact absurd hb (by decide)
  have hbs : b ≠ 8 := by rintro rfl; exact absurd hb (by decide)
  have hcr : b ≠ 13 := by rintro rfl; exact absurd hb (by decide)
  have hlf : b ≠ 10 := by rintro rfl; exact absurd hb (by decide)
  have hstep : s.step b = { s with
      col := s.col + 1
      cells := fun r c => if r = s.row ∧ c = s.col then some b else s.cells r c } := by
    simp [step, h.ground, if_neg hesc, if_neg hbs, if_neg hcr, if_neg hlf, if_pos hb]
  rw [hstep]
  refine ⟨h.ground, by rw [h.col, add_assoc], fun j => ?_⟩
  have htake : (line.take k).length = k := by
    rw [length_take]
    omega
  have hcells := h.cells j
  simp only [h.col, true_and]
  rcases Nat.lt_trichotomy j k with hj | rfl | hj
  · rw [if_neg (by omega), hcells, getElem?_append_left (by omega), getElem?_take_of_lt hj]
  · rw [if_pos rfl, getElem?_append_right (by omega), htake, Nat.sub_self, getElem?_cons_zero]
  · obtain ⟨i, rfl⟩ : ∃ i, j = k + 1 + i := ⟨j - (k + 1), by omega⟩
    rw [if_neg (by omega), hcells, getElem?_append_right (by omega), htake,
      show k + 1 + i - k = i + 1 by omega, getElem?_cons_succ, getElem?_drop]

section

variable (h : At s base (x ++ y) x.length)
include h

/-- **A text overwrites what is under it.** -/
theorem text (htext : ∀ b ∈ t, Printable b) :
    At (s.shows t) base (x ++ t ++ y.drop t.length) (x ++ t).length := by
  induction t generalizing s x y with
  | nil => simpa [shows] using h
  | cons b t ih =>
    have hone := h.print (by simp) (htext b mem_cons_self)
    have hrest := ih (x := x ++ [b]) (by simpa using hone) fun b hb =>
      htext b (mem_cons_of_mem _ hb)
    rw [shows, foldl_cons, ← shows]
    simpa [drop_drop, Nat.add_comm] using hrest

theorem rest (htext : ∀ b ∈ t, Printable b)
    (hle : y.length ≤ t.length) : At (s.shows t) base (x ++ t) (x ++ t).length := by
  have hall := h.text htext
  rwa [drop_eq_nil_of_le hle, append_nil] at hall

theorem erase : At (s.shows [0x1b, 91, 75]) base x x.length := by
  have hstep : s.shows [0x1b, 91, 75] = { s with
      cells := fun r c => if r = s.row ∧ s.col ≤ c then none else s.cells r c } := by
    simp [shows, step, h.ground, final]
  rw [hstep]
  refine ⟨h.ground, h.col, fun j => ?_⟩
  have hcells := h.cells j
  simp only [h.col, true_and]
  by_cases hj : j < x.length
  · rw [if_neg (by omega), hcells, getElem?_append_left hj]
  · rw [if_pos (by omega), getElem?_eq_none (by omega)]

end

section

variable (h : At s base line k)
include h

theorem newRow : At (s.shows [13, 10]) 0 [] 0 := by
  have hstep : s.shows [13, 10] = { s with
      col := 0
      row := s.row + 1
      cells := fun r c => if r = s.row + 1 then none else s.cells r c } := by
    simp [shows, step, h.ground]
  rw [hstep]
  exact ⟨h.ground, rfl, fun j => by simp⟩

theorem clear : At (s.shows [0x1b, 91, 50, 74, 0x1b, 91, 72]) 0 [] 0 := by
  have hstep : s.shows [0x1b, 91, 50, 74, 0x1b, 91, 72] =
      { s with cells := fun _ _ => none, row := 0, col := 0 } := by
    simp [shows, step, h.ground, final]
  rw [hstep]
  exact ⟨h.ground, rfl, fun j => by simp⟩

theorem bell : At (s.shows [7]) base line k := by
  have hstep : s.shows [7] = s := by
    simp only [shows, foldl_cons, foldl_nil, step, h.ground]
    rfl
  rwa [hstep]

end

theorem left (h : At s base line (k + n)) (hds : ∀ b ∈ ds, 48 ≤ b ∧ b ≤ 57)
    (hn : (number none ds).getD 1 = n) : At (s.shows (0x1b :: 91 :: ds ++ [68])) base line k := by
  rw [shows_sequence h.ground hds (by decide), final, if_pos rfl]
  exact ⟨rfl, by simp only [h.col]; omega, h.cells⟩

theorem right (h : At s base line k) (hds : ∀ b ∈ ds, 48 ≤ b ∧ b ≤ 57)
    (hn : (number none ds).getD 1 = n) :
    At (s.shows (0x1b :: 91 :: ds ++ [67])) base line (k + n) := by
  rw [shows_sequence h.ground hds (by decide), final, if_neg (by decide), if_pos rfl]
  exact ⟨rfl, by simp only [h.col]; omega, h.cells⟩

theorem back (h : At s base line (k + 1)) : At (s.shows [8]) base line k := by
  have hstep : s.shows [8] = { s with col := s.col - 1 } := by simp [shows, step, h.ground]
  rw [hstep]
  exact ⟨h.ground, by rw [h.col]; rfl, h.cells⟩

end At

end Screen
