/-
Clipping a client's damage to its surface and to the screen.
-/
import Mathlib.Tactic.Common

namespace Nife.Compositor

def i32Min : Int := -2147483648

def i32Max : Int := 2147483647

/-- The result of `i32` arithmetic, if it does not overflow. -/
def i32 (n : Int) : Option Int := if i32Min ≤ n ∧ n ≤ i32Max then some n else none

def saturatingAdd (a b : Int) : Int := max i32Min (min i32Max (a + b))

/-- A rectangle of cells. -/
structure Rect where
  (x y : Int)
  (w h : Nat)
  deriving DecidableEq, Repr

namespace Rect

def empty : Rect := ⟨0, 0, 0, 0⟩

def screen : Rect := ⟨0, 0, 924, 344⟩

section

variable (r : Rect)

def isEmpty : Bool := r.w == 0 || r.h == 0

def extent (n : Nat) : Int := if i32Max < n then i32Max else n

def right : Int := saturatingAdd r.x (extent r.w)

def bottom : Int := saturatingAdd r.y (extent r.h)

def translate (dx dy : Int) : Option Rect := do
  return ⟨← i32 (r.x + dx), ← i32 (r.y + dy), r.w, r.h⟩

def intersect (r o : Rect) : Option Rect :=
  if r.isEmpty || o.isEmpty then some empty
  else
    let x := max r.x o.x
    let y := max r.y o.y
    let right := min r.right o.right
    let bottom := min r.bottom o.bottom
    if right ≤ x ∨ bottom ≤ y then some empty
    else do return ⟨x, y, (← i32 (right - x)).toNat, (← i32 (bottom - y)).toNat⟩

def Covers (p q : Int) : Prop := r.x ≤ p ∧ p < r.x + r.w ∧ r.y ≤ q ∧ q < r.y + r.h
  deriving Decidable

/-- The part of `r` on a surface, on the integers. -/
def clipped (W H : Nat) : Rect :=
  let w := (min (r.x + r.w) W - max r.x 0).toNat
  let h := (min (r.y + r.h) H - max r.y 0).toNat
  if 0 < w ∧ 0 < h then ⟨max r.x 0, max r.y 0, w, h⟩ else empty

end

end Rect

/-- A window of the scene. -/
structure Window where
  (originX originY : Int)
  (w h : Nat)
  deriving DecidableEq, Repr

def Window.bounds (win : Window) : Rect := ⟨0, 0, win.w, win.h⟩

def scene : List Window := [⟨8, 8, 64, 32⟩, ⟨40, 24, 48, 24⟩, ⟨-8, 30, 40, 40⟩]

def damageToScreen (win : Window) (damage : Rect) : Option Rect := do
  let inside ← damage.intersect win.bounds
  let placed ← inside.translate win.originX win.originY
  placed.intersect .screen

def Window.Fits (win : Window) : Prop :=
  (win.w ≤ i32Max ∧ win.h ≤ i32Max) ∧ (i32Min ≤ win.originX ∧ win.originX + win.w ≤ i32Max) ∧
    i32Min ≤ win.originY ∧ win.originY + win.h ≤ i32Max

namespace Rect

variable {r : Rect} {W H : Nat}

/-- On one axis the clamped edges meet where the edges do. -/
theorem clip_right {x : Int} {w : Nat} (hx : i32Min ≤ x ∧ x ≤ i32Max) (hW : W ≤ i32Max)
    (hw : w ≤ i32Max ∨ W ≤ x + i32Max) :
    min (saturatingAdd x (extent w)) (saturatingAdd 0 (extent W)) = min (x + w) W := by
  unfold saturatingAdd extent i32Min i32Max at *
  split_ifs <;> omega

/-- **`intersect` with a surface clips.** -/
theorem intersect_eq (hx : i32Min ≤ r.x ∧ r.x ≤ i32Max) (hy : i32Min ≤ r.y ∧ r.y ≤ i32Max)
    (hW : W ≤ i32Max ∧ H ≤ i32Max) (hw : r.w ≤ i32Max ∨ W ≤ r.x + i32Max)
    (hh : r.h ≤ i32Max ∨ H ≤ r.y + i32Max) :
    r.intersect ⟨0, 0, W, H⟩ = some (r.clipped W H) := by
  simp only [intersect, isEmpty, right, bottom, clip_right hx hW.1 hw, clip_right hy hW.2 hh,
    Bool.or_eq_true, beq_iff_eq]
  unfold clipped
  split
  · rw [if_neg (by omega)]
  · split
    · rw [if_neg (by omega)]
    · unfold i32Min at hx
      rw [i32, if_pos (by unfold i32Min; omega), i32, if_pos (by unfold i32Min; omega),
        if_pos (by omega)]
      rfl

theorem covers_clipped (p q : Int) :
    (r.clipped W H).Covers p q ↔ r.Covers p q ∧ Covers ⟨0, 0, W, H⟩ p q := by
  unfold clipped Covers
  dsimp only
  split_ifs
  · dsimp only
    omega
  · dsimp only [empty]
    omega

theorem clipped_eq_empty (h : ∀ p q, ¬ (r.clipped W H).Covers p q) : r.clipped W H = empty := by
  have hcorner := h (max r.x 0) (max r.y 0)
  unfold clipped Covers at *
  refine if_neg fun hpos => hcorner ?_
  rw [if_pos hpos]
  dsimp only
  omega

theorem clipped_bounds {i : Rect} (hi : r.clipped W H = i) :
    (0 ≤ i.x ∧ i.x + i.w ≤ W) ∧ 0 ≤ i.y ∧ i.y + i.h ≤ H := by
  subst hi
  unfold clipped
  dsimp only
  split_ifs
  · dsimp only
    omega
  · simp [empty]

end Rect

/-- What clipping should give: the pixels of the damage that lie on the surface, moved to the
window's origin and cut to the screen, and `EMPTY` when there are none. -/
def Window.Clips (win : Window) (damage : Rect) : Prop :=
  ∃ r, damageToScreen win damage = some r ∧ ((∀ p q, ¬ r.Covers p q) → r = .empty) ∧
    ∀ p q, r.Covers p q ↔ damage.Covers (p - win.originX) (q - win.originY) ∧
      win.bounds.Covers (p - win.originX) (q - win.originY) ∧ Rect.screen.Covers p q

/-- The cells of a surface that the screen shows, on one axis: from `0` or the screen's edge on, up
to the surface's end or the screen's. -/
def shown (origin : Int) (size limit : Nat) : Int × Int :=
  (max 0 (-origin), min (size : Int) (limit - origin))

/-- On one axis a stretch of `n` cells from `x` on has a cell in the range. -/
def Meets (x : Int) (n : Nat) (range : Int × Int) : Prop := max x range.1 < min (x + n) range.2
  deriving Decidable

/-- On one axis the stretch reaches as far into the range when it is cut to `i32::MAX` cells. -/
def Reaches (x : Int) (n : Nat) (range : Int × Int) : Prop := n ≤ i32Max ∨ range.2 ≤ x + i32Max
  deriving Decidable

/-- If any of the damage is to be seen, no cell of it that is to be seen is cut off. -/
def Window.Uncut (win : Window) (damage : Rect) : Prop :=
  Meets damage.x damage.w (shown win.originX win.w 924) →
    Meets damage.y damage.h (shown win.originY win.h 344) →
    Reaches damage.x damage.w (shown win.originX win.w 924) ∧
      Reaches damage.y damage.h (shown win.originY win.h 344)
  deriving Decidable

namespace Rect

/-- A rectangle cut to `i32::MAX` cells on each axis, which is how its edges are computed. -/
def clamped (r : Rect) : Rect := ⟨r.x, r.y, min r.w 2147483647, min r.h 2147483647⟩

theorem extent_min (n : Nat) : extent (min n 2147483647) = extent n := by
  unfold extent i32Max
  split_ifs <;> omega

theorem intersect_clamped (r o : Rect) : r.clamped.intersect o = r.intersect o := by
  have hempty : r.clamped.isEmpty = r.isEmpty := by
    rw [Bool.eq_iff_iff]
    simp only [isEmpty, clamped, Bool.or_eq_true, beq_iff_eq]
    omega
  have hright : r.clamped.right = r.right := congrArg (saturatingAdd r.x) (extent_min r.w)
  have hbottom : r.clamped.bottom = r.bottom := congrArg (saturatingAdd r.y) (extent_min r.h)
  simp only [intersect, hempty, hright, hbottom]
  rfl

end Rect

theorem Window.fits_of_scene {win : Window} (h : win ∈ scene ∨ win.Fits) : win.Fits := by
  refine h.elim (fun hmem => ?_) id
  have hall : ∀ win ∈ scene, win.Fits := by
    unfold Window.Fits
    decide
  exact hall win hmem

/-- A rectangle that is no wider or higher than `i32::MAX` is clipped exactly. -/
theorem clips_of_le {win : Window} (hwin : win.Fits) {damage : Rect}
    (hx : i32Min ≤ damage.x ∧ damage.x ≤ i32Max) (hy : i32Min ≤ damage.y ∧ damage.y ≤ i32Max)
    (hw : damage.w ≤ i32Max) (hh : damage.h ≤ i32Max) : win.Clips damage := by
  obtain ⟨hsize, hcolumns, hrows⟩ := hwin
  have hin := Rect.clipped_bounds (r := damage) (W := win.w) (H := win.h) rfl
  have hpixel := Rect.covers_clipped (r := damage) (W := win.w) (H := win.h)
  have hclip : damage.intersect win.bounds = _ := Rect.intersect_eq hx hy hsize (.inl hw) (.inl hh)
  generalize damage.clipped win.w win.h = i at *
  refine ⟨Rect.clipped ⟨i.x + win.originX, i.y + win.originY, i.w, i.h⟩ 924 344, ?_,
    Rect.clipped_eq_empty, fun p q => ?_⟩
  · rw [damageToScreen, hclip, Option.bind_eq_bind, Option.bind_some, Rect.translate, i32,
      if_pos (by omega), i32, if_pos (by omega)]
    refine Rect.intersect_eq ⟨?_, ?_⟩ ⟨?_, ?_⟩ (by decide) (.inl ?_) (.inl ?_) <;> dsimp only <;> omega
  · rw [Rect.covers_clipped, ← and_assoc]
    refine and_congr_left fun _ => (Iff.trans ?_ (hpixel _ _))
    simp only [Rect.Covers]
    omega

/-- **Clipping is exact** exactly when nothing that is to be seen lies beyond `i32::MAX` cells from
the rectangle's origin. -/
theorem damageToScreen_exact_iff (win : Window) (hwin : win ∈ scene ∨ win.Fits) (damage : Rect)
    (hx : i32Min ≤ damage.x ∧ damage.x ≤ i32Max) (hy : i32Min ≤ damage.y ∧ damage.y ≤ i32Max) :
    win.Clips damage ↔ win.Uncut damage := by
  -- the code sees the clamped rectangle only, and clips that one exactly
  obtain ⟨r, hr, hnone, hcovers⟩ : win.Clips damage.clamped :=
    clips_of_le (Window.fits_of_scene hwin) hx hy (by simp only [Rect.clamped, i32Max]; omega)
      (by simp only [Rect.clamped, i32Max]; omega)
  have hsame : damageToScreen win damage = some r := by
    rw [← hr, damageToScreen, damageToScreen, Rect.intersect_clamped]
  have hexact : win.Clips damage ↔ ∀ p q, win.bounds.Covers p q →
      Rect.screen.Covers (p + win.originX) (q + win.originY) → damage.Covers p q →
      damage.clamped.Covers p q := by
    constructor
    · rintro ⟨r', hr', -, hall⟩ p q hb hs hd
      obtain rfl : r = r' := Option.some.inj (hsame.symm.trans hr')
      have hp := (hall (p + win.originX) (q + win.originY)).mpr (by simpa using ⟨hd, hb, hs⟩)
      simpa using ((hcovers _ _).mp hp).1
    · intro hall
      refine ⟨r, hsame, hnone, fun p q => (hcovers p q).trans (and_congr_left fun hvis => ?_)⟩
      refine ⟨fun hc => ?_, fun hd => hall _ _ hvis.1 (by simpa using hvis.2) hd⟩
      simp only [Rect.Covers, Rect.clamped] at hc ⊢
      omega
  rw [hexact]
  unfold Window.Uncut Meets Reaches shown i32Max
  simp only [Rect.Covers, Rect.clamped, Window.bounds, Rect.screen]
  constructor
  · -- the first cell beyond the cut, in a row and a column that are to be seen
    intro hall hcols hrows
    constructor
    · by_contra hcut
      have hpixel := hall (max (damage.x + 2147483647) (max 0 (-win.originX)))
        (max damage.y (max 0 (-win.originY)))
      omega
    · by_contra hcut
      have hpixel := hall (max damage.x (max 0 (-win.originX)))
        (max (damage.y + 2147483647) (max 0 (-win.originY)))
      omega
  · intro huncut p q hb hs hd
    have hreach := huncut (by omega) (by omega)
    omega

/-- A rectangle of almost `2³²` columns that starts left of the surface shows a whole row. -/
theorem damageToScreen_exact_iff_wide :
    damageToScreen ⟨8, 8, 64, 32⟩ ⟨-1, 0, 4294967295, 1⟩ = some ⟨8, 8, 64, 1⟩ ∧
      Window.Clips ⟨8, 8, 64, 32⟩ ⟨-1, 0, 4294967295, 1⟩ :=
  ⟨by decide, (damageToScreen_exact_iff ⟨8, 8, 64, 32⟩ (.inl (by decide)) ⟨-1, 0, 4294967295, 1⟩
    (by decide) (by decide)).mpr (by decide)⟩

/-- **A rectangle wider than `i32::MAX` is cut short**: this one covers all columns of the window's
first row, and nothing of it is shown. -/
theorem damageToScreen_cut : (⟨8, 8, 64, 32⟩ : Window) ∈ scene ∧
    damageToScreen ⟨8, 8, 64, 32⟩ ⟨-2147483648, 0, 4294967295, 1⟩ = some .empty ∧
    Rect.Covers ⟨-2147483648, 0, 4294967295, 1⟩ 0 0 ∧ Rect.Covers ⟨0, 0, 64, 32⟩ 0 0 ∧
    Rect.screen.Covers 8 8 := by
  decide

end Nife.Compositor
