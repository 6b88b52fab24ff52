/-
The physical page frame allocator (`crates/page_frames/src/lib.rs`): one bit per frame, a
count of the used ones, and a hint where the next scan starts.

The functions are the source's: the two loops over the frames a byte range touches
(`markFree`, `markUsed`), the rotating scan (`alloc`), the scan for adjacent frames
(`allocContiguous`), its measure (`largestFreeRun`) and `free`, whose two panics are `none`.

Over them, `FreeRun a s c` says that the `c` frames from `s` on are all free.  Both scans are
described by it: `largestFreeRun` is the length of the longest such run, and
`allocContiguous` takes the first of the length it is asked for.  `Books` sets beside the
allocator the frames it handed out and has not been given back since.

Main result: `allocator_lawful`, that in every run the count is the number of set bits, that a
frame (or a run of frames) is found exactly when there is one, and that a frame on the books
can always be freed.
-/
import Nife.Lib.Bitmap
import Nife.Lib.Transition

namespace Nife.PageFrames

open List Option Bitmap

/-- The size of a page frame. -/
def frameSize : Nat := 4096

/-- A page frame by the address of its first byte. -/
structure PageFrame where
  addr : Nat
  aligned : frameSize ∣ addr
  deriving DecidableEq, Repr

/-- The frame `k` frames above. -/
def PageFrame.above (f : PageFrame) (k : Nat) : PageFrame where
  addr := f.addr + k * frameSize
  aligned := Nat.dvd_add f.aligned (Nat.dvd_mul_left _ _)

/-- A snapshot of an allocator's occupancy. -/
structure Stats where
  (total used : Nat)
  deriving DecidableEq, Repr

/-- The allocator: a set bit means used.  Its frames lie in the 64-bit address space. -/
structure PageFrameAllocator where
  (base total : Nat)
  base_aligned : frameSize ∣ base
  spans : base + total * frameSize ≤ 2 ^ 64
  bitmap : Bitmap total
  used : Nat
  /-- Where the next scan starts. -/
  hint : Nat
  deriving DecidableEq, Repr

namespace PageFrameAllocator

/-- Bytes of bitmap needed to track that many frames. -/
def bitmapBytes (frames : Nat) : Nat := (frames + 7) / 8

/-- An allocator with every frame marked used; `none` where the source's assertions fail. -/
def new (base total : Nat) (bytes : List (BitVec 8)) (spans : base + total * frameSize ≤ 2 ^ 64) :
    Option PageFrameAllocator :=
  if h : frameSize ∣ base ∧ bitmapBytes total ≤ bytes.length then
    some
      { base, total, base_aligned := h.1, spans
        bitmap := (Bitmap.mk bytes (by unfold bitmapBytes at h; omega)).fill 0xff#8
        used := total
        hint := 0 }
  else none

variable (a : PageFrameAllocator)

def stats : Stats := { total := a.total, used := a.used }

/-- The frame of an index. -/
def frame (i : Nat) : PageFrame where
  addr := a.base + i * frameSize
  aligned := Nat.dvd_add a.base_aligned (Nat.dvd_mul_left _ _)

section

variable (f : PageFrame)

def indexOf : Option Nat :=
  if f.addr < a.base then none
  else
    let i := (f.addr - a.base) / frameSize
    if i < a.total then some i else none

def isUsed : Option Bool := (a.indexOf f).map a.bitmap.get

def saturatingAdd (x y : Nat) : Nat := min (x + y) (2 ^ 64 - 1)

/-- The frame indices that `[start, start + size)` touches: the start rounds down, the end up. -/
def pageFrameRange (start size : Nat) : List Nat :=
  if size = 0 ∨ saturatingAdd start size ≤ a.base then []
  else
    let first := max start a.base - a.base
    let last := saturatingAdd start size - a.base
    let lo := first / frameSize
    let hi := min ((last + (frameSize - 1)) / frameSize) a.total
    if lo ≥ hi then [] else List.range' lo (hi - lo)

/-- One turn of the loop of `markFree`, over the bitmap and the count. -/
def freeOne {n : Nat} (s : Bitmap n × Nat) (i : Nat) : Bitmap n × Nat :=
  if s.1.get i then (s.1.set i false, s.2 - 1) else s

/-- One turn of the loop of `markUsed`. -/
def useOne {n : Nat} (s : Bitmap n × Nat) (i : Nat) : Bitmap n × Nat :=
  if !s.1.get i then (s.1.set i true, s.2 + 1) else s

def markFree (start size : Nat) : PageFrameAllocator :=
  let s := (a.pageFrameRange start size).foldl freeOne (a.bitmap, a.used)
  { a with bitmap := s.1, used := s.2, hint := 0 }

def markUsed (start size : Nat) : PageFrameAllocator :=
  let s := (a.pageFrameRange start size).foldl useOne (a.bitmap, a.used)
  { a with bitmap := s.1, used := s.2 }

/-- The indices from the hint to the end, then those before it. -/
def scanOrder : List Nat := List.range' a.hint (a.total - a.hint) ++ List.range a.hint

def alloc : PageFrameAllocator × Option PageFrame :=
  match a.scanOrder.find? (fun i => !a.bitmap.get i) with
  | none => (a, none)
  | some i =>
      ({ a with bitmap := a.bitmap.set i true, used := a.used + 1, hint := i + 1 },
        some (a.frame i))

/-- The scan of `allocContiguous` from index `i` on, with `left` indices to go: the start of
the first run of `count` free frames. -/
def scanRun (count : Nat) : (left i runStart run : Nat) → Option Nat
  | 0, _, _, _ => none
  | left + 1, i, runStart, run =>
      if a.bitmap.get i then scanRun count left (i + 1) (i + 1) 0
      else if run + 1 = count then some runStart
      else scanRun count left (i + 1) runStart (run + 1)

def allocContiguous (count : Nat) : PageFrameAllocator × Option PageFrame :=
  if count = 0 ∨ count > a.total then (a, none)
  else
    match a.scanRun count a.total 0 0 0 with
    | none => (a, none)
    | some runStart =>
        ({ a with bitmap := a.bitmap.setAll (List.range' runStart count), used := a.used + count },
          some (a.frame runStart))

/-- The scan of `largestFreeRun` from index `i` on. -/
def scanLargest : (left i run best : Nat) → Nat
  | 0, _, _, best => best
  | left + 1, i, run, best =>
      if a.bitmap.get i then scanLargest left (i + 1) 0 best
      else scanLargest left (i + 1) (run + 1) (if run + 1 > best then run + 1 else best)

def largestFreeRun : Nat := a.scanLargest a.total 0 0 0

/-- Return a frame; `none` is a panic, on a frame not tracked or not used. -/
def free : Option PageFrameAllocator :=
  match a.indexOf f with
  | none => none
  | some i =>
      if a.bitmap.get i then
        some { a with bitmap := a.bitmap.set i false, used := a.used - 1, hint := min a.hint i }
      else none

end

/-! ### Frames and their indices -/

variable {a} {a' : PageFrameAllocator} {f g : PageFrame} {i j c s : Nat}

theorem indexOf_eq_some : a.indexOf f = some i ↔ i < a.total ∧ f = a.frame i := by
  obtain ⟨addr, k, rfl⟩ := f
  obtain ⟨b, hb⟩ := a.base_aligned
  have hframe : (⟨frameSize * k, dvd_mul_right _ _⟩ : PageFrame) = a.frame i ↔
      frameSize * k = frameSize * b + i * frameSize := by
    rw [frame, PageFrame.mk.injEq, ← hb]
  rw [hframe]
  simp only [indexOf, hb, frameSize]
  split_ifs with hlt htotal
  · simp only [false_iff, not_and]
    omega
  · rw [Option.some.injEq]
    omega
  · simp only [false_iff, not_and]
    omega

theorem indexOf_frame (hi : i < a.total) : a.indexOf (a.frame i) = some i :=
  indexOf_eq_some.mpr ⟨hi, rfl⟩

theorem isUsed_frame (hi : i < a.total) : a.isUsed (a.frame i) = some (a.bitmap.get i) := by
  rw [isUsed, indexOf_frame hi, map_some]

variable {n left run : Nat} {b : Bool}

theorem isUsed_eq_some :
    a.isUsed f = some b ↔ ∃ i < a.total, f = a.frame i ∧ a.bitmap.get i = b := by
  rw [isUsed, map_eq_some_iff]
  constructor
  · rintro ⟨i, hi, hb⟩
    obtain ⟨hlt, rfl⟩ := indexOf_eq_some.mp hi
    exact ⟨i, hlt, rfl, hb⟩
  · rintro ⟨i, hlt, rfl, hb⟩
    exact ⟨i, indexOf_frame hlt, hb⟩

theorem frame_above (i k : Nat) : (a.frame i).above k = a.frame (i + k) := by
  simp [frame, PageFrame.above, Nat.add_mul, Nat.add_assoc]

theorem frame_inj (h : a.frame i = a.frame j) : i = j := by
  have haddr := congrArg PageFrame.addr h
  simp only [frame, frameSize] at haddr
  omega

/-- What a frame shares with a byte range. -/
def Touches (f : PageFrame) (start size : Nat) : Prop :=
  0 < size ∧ start < f.addr + frameSize ∧ f.addr < start + size

instance (f : PageFrame) (start size : Nat) : Decidable (Touches f start size) :=
  inferInstanceAs (Decidable (_ ∧ _))

variable {start size used hint best : Nat} {l : List Nat} {m : Bitmap a.total}

/-- **The range is the frames it touches**: the saturating sums lose none, since the last frame
ends where the address space does. -/
theorem mem_pageFrameRange :
    i ∈ a.pageFrameRange start size ↔ i < a.total ∧ Touches (a.frame i) start size := by
  have hspans := a.spans
  obtain ⟨b, hb⟩ := a.base_aligned
  simp only [pageFrameRange, Touches, frame, saturatingAdd, frameSize, hb] at *
  split_ifs with hnone hlo
  · simp only [not_mem_nil, false_iff, not_and]
    omega
  · simp only [not_mem_nil, false_iff, not_and]
    omega
  · rw [mem_range'_1]
    omega

/-! ### The loops over a range -/

/-- What a loop over a list of indices has done to the bitmap and the count. -/
structure Marked {n : Nat} (l : List Nat) (b : Bool) (s s' : Bitmap n × Nat) : Prop where
  get : ∀ j, s'.1.get j = if j ∈ l then b else s.1.get j
  count : s.2 = s.1.members.card → s'.2 = s'.1.members.card

theorem Marked.nil (s : Bitmap n × Nat) : Marked [] b s s where
  get := by simp
  count := id

theorem Marked.cons {s s' s'' : Bitmap n × Nat}
    (h : Marked [i] b s s') (hl : Marked l b s' s'') : Marked (i :: l) b s s'' where
  get j := by
    rw [hl.get, h.get]
    by_cases hj : j ∈ l <;> simp [hj]
  count hs := hl.count (h.count hs)

theorem marked_freeOne (s : Bitmap n × Nat) (hi : i < n) : Marked [i] false s (freeOne s i) := by
  unfold freeOne
  split
  case isTrue hget =>
    refine ⟨fun j => ?_, fun hs => ?_⟩
    · simp [get_set hi]
    · have hcard := card_set_false hi hget
      simp only [hs]
      omega
  case isFalse hget =>
    refine ⟨fun j => ?_, id⟩
    by_cases hj : j = i
    · simpa [hj] using hget
    · simp [hj]

theorem marked_useOne (s : Bitmap n × Nat) (hi : i < n) : Marked [i] true s (useOne s i) := by
  unfold useOne
  split
  case isTrue hget =>
    refine ⟨fun j => ?_, fun hs => ?_⟩
    · simp [get_set hi]
    · rw [card_set_true hi (by simpa using hget), hs]
  case isFalse hget =>
    refine ⟨fun j => ?_, id⟩
    by_cases hj : j = i
    · simpa [hj] using hget
    · simp [hj]

theorem marked_foldl {one : Bitmap n × Nat → Nat → Bitmap n × Nat}
    (hone : ∀ s i, i < n → Marked [i] b s (one s i)) (hl : ∀ i ∈ l, i < n)
    (s : Bitmap n × Nat) : Marked l b s (l.foldl one s) := by
  induction l generalizing s with
  | nil => exact Marked.nil s
  | cons i l ih =>
    exact (hone s i (hl i mem_cons_self)).cons (ih (fun k hk => hl k (mem_cons_of_mem i hk)) _)

theorem lt_total_of_mem (h : i ∈ a.pageFrameRange start size) : i < a.total :=
  (mem_pageFrameRange.mp h).1

theorem marked_markFree (a : PageFrameAllocator) (start size : Nat) :
    Marked (a.pageFrameRange start size) false (a.bitmap, a.used)
      ((a.markFree start size).bitmap, (a.markFree start size).used) :=
  marked_foldl (fun s _ hi => marked_freeOne s hi) (fun _ h => lt_total_of_mem h) _

theorem marked_markUsed (a : PageFrameAllocator) (start size : Nat) :
    Marked (a.pageFrameRange start size) true (a.bitmap, a.used)
      ((a.markUsed start size).bitmap, (a.markUsed start size).used) :=
  marked_foldl (fun s _ hi => marked_useOne s hi) (fun _ h => lt_total_of_mem h) _

/-! ### The invariant and the frames taken -/

/-- The count is the number of set bits, and the hint is no index past the end. -/
structure Sound (a : PageFrameAllocator) : Prop where
  used : a.used = a.bitmap.members.card
  hint : a.hint ≤ a.total

/-- The `c` frames from `f` on were free and are now used; every other frame is as it was. -/
structure Took (a : PageFrameAllocator) (f : PageFrame) (c : Nat) (a' : PageFrameAllocator) :
    Prop where
  inRange : ∃ i, f = a.frame i ∧ i + c ≤ a.total
  wasFree : ∀ k < c, a.isUsed (f.above k) = some false
  nowUsed : ∀ k < c, a'.isUsed (f.above k) = some true
  others : ∀ g, (∀ k < c, g ≠ f.above k) → a'.isUsed g = a.isUsed g

def FreeRun (a : PageFrameAllocator) (s c : Nat) : Prop :=
  s + c ≤ a.total ∧ ∀ j, s ≤ j → j < s + c → a.bitmap.get j = false

theorem FreeRun.took (h : a.FreeRun s c)
    (hm : ∀ j, m.get j = if s ≤ j ∧ j < s + c then true else a.bitmap.get j) :
    Took a (a.frame s) c { a with bitmap := m, used := used, hint := hint } where
  inRange := ⟨s, rfl, h.1⟩
  wasFree k hk := by
    have hlt := h.1
    rw [frame_above, isUsed_frame (by omega), h.2 _ (by omega) (by omega)]
  nowUsed k hk := by
    have hlt := h.1
    rw [frame_above, isUsed_eq_some]
    have hin : s + k < a.total := by omega
    exact ⟨s + k, hin, rfl, by rw [hm, if_pos (by omega)]⟩
  others g hg := by
    change (a.indexOf g).map m.get = (a.indexOf g).map a.bitmap.get
    cases hindex : a.indexOf g with
    | none => rfl
    | some i =>
      obtain ⟨-, rfl⟩ := indexOf_eq_some.mp hindex
      have houtside : ¬(s ≤ i ∧ i < s + c) := by
        rintro ⟨hsi, hic⟩
        apply hg (i - s) (by omega)
        rw [frame_above, Nat.add_sub_cancel' hsi]
      rw [map_some, map_some, hm, if_neg houtside]

/-! ### One frame -/

theorem mem_scanOrder (h : a.hint ≤ a.total) : i ∈ a.scanOrder ↔ i < a.total := by
  rw [scanOrder, mem_append, mem_range'_1, mem_range]
  omega

/-- **`alloc` takes a free frame when there is one**, and otherwise changes nothing. -/
theorem alloc_cases (ha : a.Sound) : (a.alloc = (a, none) ∧ ∀ i < a.total, a.bitmap.get i = true) ∨
      ∃ i < a.total, a.bitmap.get i = false ∧ a.alloc =
        ({ a with bitmap := a.bitmap.set i true, used := a.used + 1, hint := i + 1 },
          some (a.frame i)) := by
  unfold alloc
  cases hfind : a.scanOrder.find? fun i => !a.bitmap.get i with
  | none =>
    refine .inl ⟨rfl, fun i hi => ?_⟩
    have hnone := find?_eq_none.mp hfind i ((mem_scanOrder ha.hint).mpr hi)
    simpa using hnone
  | some i =>
    have hfree := find?_some hfind
    have hi := (mem_scanOrder ha.hint).mp (mem_of_find?_eq_some hfind)
    exact .inr ⟨i, hi, by simpa using hfree, rfl⟩

theorem freeRun_one (hi : i < a.total) (hfree : a.bitmap.get i = false) : a.FreeRun i 1 := by
  refine ⟨hi, fun j hij hj => ?_⟩
  rw [show j = i by omega]
  exact hfree

theorem alloc_took (ha : a.Sound) (h : a.alloc = (a', some f)) : Took a f 1 a' := by
  obtain ⟨hnone, -⟩ | ⟨i, hi, hfree, hsome⟩ := alloc_cases ha
  · rw [hnone] at h
    cases h
  · rw [hsome] at h
    cases h
    apply (freeRun_one hi hfree).took
    intro j
    rw [get_set hi]
    by_cases hj : j = i
    · simp [hj]
    · rw [if_neg hj, if_neg (by omega)]

theorem alloc_isSome (ha : a.Sound) : a.alloc.2.isSome ↔ ∃ i < a.total, a.bitmap.get i = false := by
  obtain ⟨hnone, hall⟩ | ⟨i, hi, hfree, hsome⟩ := alloc_cases ha
  · rw [hnone]
    simp only [isSome_none, Bool.false_eq_true, false_iff, not_exists, not_and, Bool.not_eq_false]
    exact hall
  · rw [hsome]
    simp only [isSome_some, true_iff]
    exact ⟨i, hi, hfree⟩

theorem Sound.alloc (ha : a.Sound) : a.alloc.1.Sound := by
  obtain ⟨hnone, -⟩ | ⟨i, hi, hfree, hsome⟩ := alloc_cases ha
  · rw [hnone]
    exact ha
  · rw [hsome]
    refine ⟨?_, hi⟩
    have hcard := card_set_true hi hfree
    simp [hcard, ha.used]

/-! ### Runs of frames -/

theorem FreeRun.mono {c' : Nat} (h : a.FreeRun s c) (hc : c' ≤ c) : a.FreeRun s c' :=
  ⟨by have := h.1; omega, fun j hs hj => h.2 j hs (by omega)⟩

theorem FreeRun.succ (h : a.FreeRun s c) (hend : s + c = i) (hi : i < a.total)
    (hget : a.bitmap.get i = false) : a.FreeRun s (c + 1) := by
  refine ⟨by omega, fun j hs hj => ?_⟩
  by_cases hji : j = i
  · rw [hji]
    exact hget
  · exact h.2 j hs (by omega)

theorem freeRun_zero (hs : s ≤ a.total) : a.FreeRun s 0 :=
  ⟨hs, fun j hj hj' => absurd hj' (by omega)⟩

theorem FreeRun.not_mem (h : a.FreeRun s c) (hused : a.bitmap.get i = true) :
    i < s ∨ s + c ≤ i := by
  by_contra hin
  rw [h.2 i (by omega) (by omega)] at hused
  cases hused

theorem scanRun_freeRun (hi : i + left = a.total) (hrun : s + run = i)
    (hfree : a.FreeRun s run) {r : Nat} (h : a.scanRun c left i s run = some r) :
    a.FreeRun r c := by
  -- the frames between the start of the run and the index are free
  induction left generalizing i s run with
  | zero => cases h
  | succ left ih =>
    unfold scanRun at h
    split at h
    case isTrue =>
      exact ih (i := i + 1) (s := i + 1) (by omega) rfl (freeRun_zero (by omega)) h
    case isFalse hget =>
      have hlonger := hfree.succ hrun (by omega) (by simpa using hget)
      split at h
      case isTrue hcount =>
        cases h
        exact hcount ▸ hlonger
      case isFalse => exact ih (s := s) (by omega) (by omega) hlonger h

theorem scanRun_none (hi : i + left = a.total) (hrun : s + run = i)
    (hshort : run < c) (hbefore : ∀ r < s, ¬a.FreeRun r c)
    (h : a.scanRun c left i s run = none) (r : Nat) : ¬a.FreeRun r c := by
  -- no run of the length asked for starts before the one being measured
  induction left generalizing i s run with
  | zero =>
    intro hr
    have := hr.1
    exact hbefore r (by omega) hr
  | succ left ih =>
    unfold scanRun at h
    split at h
    case isTrue hget =>
      refine ih (i := i + 1) (s := i + 1) (by omega) rfl (by omega) (fun r' hr' hrun' => ?_) h
      by_cases hs : r' < s
      · exact hbefore r' hs hrun'
      · have := hrun'.not_mem hget
        omega
    case isFalse =>
      split at h
      case isTrue => cases h
      case isFalse => exact ih (s := s) (by omega) (by omega) (by omega) hbefore h

theorem allocContiguous_cases (c : Nat) :
    (a.allocContiguous c = (a, none) ∧ (c = 0 ∨ ∀ s, ¬a.FreeRun s c)) ∨
      ∃ s, 0 < c ∧ a.FreeRun s c ∧ a.allocContiguous c =
        ({ a with bitmap := a.bitmap.setAll (List.range' s c), used := a.used + c },
          some (a.frame s)) := by
  unfold allocContiguous
  split
  case isTrue hc =>
    refine .inl ⟨rfl, hc.imp_right fun hgt s hs => ?_⟩
    have := hs.1
    omega
  case isFalse hc =>
    cases hscan : a.scanRun c a.total 0 0 0 with
    | none =>
      refine .inl ⟨rfl, .inr ?_⟩
      exact scanRun_none (zero_add _) rfl (by omega) (fun r hr => absurd hr (by omega)) hscan
    | some s =>
      have hrun := scanRun_freeRun (Nat.zero_add _) rfl (freeRun_zero (Nat.zero_le _)) hscan
      exact .inr ⟨s, by omega, hrun, rfl⟩

theorem get_setAll_range (h : a.FreeRun s c) (j : Nat) : (a.bitmap.setAll (List.range' s c)).get j =
      if s ≤ j ∧ j < s + c then true else a.bitmap.get j := by
  have hlt := h.1
  rw [get_setAll fun i hi => by rw [mem_range'_1] at hi; omega]
  simp

theorem allocContiguous_took (h : a.allocContiguous c = (a', some f)) : Took a f c a' := by
  obtain ⟨hnone, -⟩ | ⟨s, -, hrun, hsome⟩ := allocContiguous_cases (a := a) c
  · rw [hnone] at h
    cases h
  · rw [hsome] at h
    cases h
    exact hrun.took (get_setAll_range hrun)

theorem Sound.allocContiguous (ha : a.Sound) (c : Nat) : (a.allocContiguous c).1.Sound := by
  obtain ⟨hnone, -⟩ | ⟨s, -, hrun, hsome⟩ := allocContiguous_cases (a := a) c
  · rw [hnone]
    exact ha
  · rw [hsome]
    refine ⟨?_, ha.hint⟩
    have hlt := hrun.1
    have hcard := card_setAll (m := a.bitmap) (l := List.range' s c)
      (fun i hi => by rw [mem_range'_1] at hi; omega) nodup_range'
      (fun i hi => by rw [mem_range'_1] at hi; exact hrun.2 i hi.1 hi.2)
    simp [hcard, ha.used]

/-- The scan's answer is the length of a free run, if the two lengths it carries are. -/
theorem scanLargest_freeRun (hi : i + left = a.total) (hrun : s + run = i)
    (hfree : a.FreeRun s run) (hbest : ∃ r, a.FreeRun r best) :
    ∃ r, a.FreeRun r (a.scanLargest left i run best) := by
  induction left generalizing i s run best with
  | zero => exact hbest
  | succ left ih =>
    unfold scanLargest
    split
    case isTrue =>
      refine ih (i := i + 1) (s := i + 1) (by omega) rfl ?_ hbest
      exact ⟨by omega, fun j hj hj' => absurd hj' (by omega)⟩
    case isFalse hget =>
      have hlonger := hfree.succ hrun (by omega) (by simpa using hget)
      refine ih (s := s) (by omega) (by omega) hlonger ?_
      split
      · exact ⟨s, hlonger⟩
      · exact hbest

/-- No free run is longer than the scan's answer, if no free run behind the index is longer
than the best so far and none that reaches the index is longer than the current one. -/
theorem le_scanLargest (hi : i + left = a.total) (hle : run ≤ best)
    (hbest : ∀ r n, a.FreeRun r n → r + n ≤ i → n ≤ best)
    (hreach : ∀ r n, a.FreeRun r n → r ≤ i → i ≤ r + n → i ≤ r + run)
    (hr : a.FreeRun s c) : c ≤ a.scanLargest left i run best := by
  induction left generalizing i run best with
  | zero => exact hbest s c hr (by have := hr.1; omega)
  | succ left ih =>
    unfold scanLargest
    split
    case isTrue hget =>
      refine ih (by omega) (by omega) (fun r n hrn hend => ?_) (fun r n hrn hri hin => ?_)
      · rcases hrn.not_mem hget with hlt | hlt
        · omega
        · exact hbest r n hrn hlt
      · rcases hrn.not_mem hget with hlt | hlt
        all_goals omega
    case isFalse hget =>
      have hmax : run + 1 ≤ (if run + 1 > best then run + 1 else best) ∧
          best ≤ (if run + 1 > best then run + 1 else best) := by
        split <;> omega
      generalize (if run + 1 > best then run + 1 else best) = best' at hmax
      refine ih (by omega) hmax.1 (fun r n hrn hend => ?_) (fun r n hrn hri hin => ?_)
      · by_cases hlast : r + n ≤ i
        · exact (hbest r n hrn hlast).trans hmax.2
        · by_cases hn : n = 0
          · omega
          · have := hreach r n hrn (by omega) (by omega)
            omega
      · by_cases hrlast : r = i + 1
        · omega
        · have := hreach r n hrn (by omega) (by omega)
          omega

/-- **`largestFreeRun` measures what `allocContiguous` can satisfy.** -/
theorem le_largestFreeRun : c ≤ a.largestFreeRun ↔ ∃ s, a.FreeRun s c := by
  have hempty : a.FreeRun 0 0 := freeRun_zero (Nat.zero_le _)
  constructor
  · intro hc
    obtain ⟨s, hs⟩ := scanLargest_freeRun (a := a) (i := 0) (zero_add _) rfl hempty ⟨0, hempty⟩
    exact ⟨s, hs.mono hc⟩
  · rintro ⟨s, hs⟩
    exact le_scanLargest (zero_add _) le_rfl (fun r n _ h => by omega)
      (fun r n _ h _ => by omega) hs

theorem allocContiguous_isSome (c : Nat) :
    (a.allocContiguous c).2.isSome ↔ 0 < c ∧ c ≤ a.largestFreeRun := by
  rw [le_largestFreeRun]
  obtain ⟨hnone, hno⟩ | ⟨s, hc, hrun, hsome⟩ := allocContiguous_cases (a := a) c
  · rw [hnone]
    simp only [isSome_none, Bool.false_eq_true, false_iff, not_and, not_exists]
    intro hc
    exact hno.resolve_left (by omega)
  · rw [hsome]
    simp only [isSome_some, true_iff]
    exact ⟨hc, s, hrun⟩

/-! ### The other calls -/

theorem free_eq_some : a.free f = some a' ↔ ∃ i < a.total, f = a.frame i ∧ a.bitmap.get i = true ∧
      a' = { a with bitmap := a.bitmap.set i false, used := a.used - 1, hint := min a.hint i } := by
  unfold free
  cases hindex : a.indexOf f with
  | none =>
    simp only [reduceCtorEq, false_iff, not_exists, not_and]
    intro i hi hf
    rw [hf, indexOf_frame hi] at hindex
    cases hindex
  | some i =>
    obtain ⟨hi, rfl⟩ := indexOf_eq_some.mp hindex
    constructor
    · intro h
      dsimp only at h
      split at h
      case isTrue hget =>
        cases h
        exact ⟨i, hi, rfl, hget, rfl⟩
      case isFalse => cases h
    · rintro ⟨j, -, hj, hget, rfl⟩
      cases frame_inj hj
      simp [hget]

theorem free_isSome_of_used (h : a.isUsed f = some true) : (a.free f).isSome := by
  obtain ⟨i, hi, rfl, hget⟩ := isUsed_eq_some.mp h
  rw [free_eq_some.mpr ⟨i, hi, rfl, hget, rfl⟩]
  rfl

theorem Sound.free (ha : a.Sound) (h : a.free f = some a') : a'.Sound := by
  obtain ⟨i, hi, -, hget, rfl⟩ := free_eq_some.mp h
  refine ⟨?_, (min_le_left _ _).trans ha.hint⟩
  have hcard := card_set_false hi hget
  have hused := ha.used
  simp only
  omega

theorem Sound.markFree (ha : a.Sound) (start size : Nat) : (a.markFree start size).Sound :=
  ⟨(marked_markFree a start size).count ha.used, Nat.zero_le _⟩

theorem Sound.markUsed (ha : a.Sound) (start size : Nat) : (a.markUsed start size).Sound :=
  ⟨(marked_markUsed a start size).count ha.used, ha.hint⟩

theorem sound_new {base total : Nat} {bytes : List (BitVec 8)}
    {spans : base + total * frameSize ≤ 2 ^ 64} (h : new base total bytes spans = some a) :
    a.Sound := by
  unfold new at h
  split at h
  case isTrue =>
    cases h
    exact ⟨card_members_fill_ones.symm, Nat.zero_le _⟩
  case isFalse => cases h

theorem isUsed_of_get (h : a.isUsed f = some true)
    (hm : ∀ i < a.total, f = a.frame i → a.bitmap.get i = true → m.get i = true) :
    isUsed { a with bitmap := m, used := used, hint := hint } f = some true := by
  obtain ⟨i, hi, hf, hget⟩ := isUsed_eq_some.mp h
  exact isUsed_eq_some.mpr ⟨i, hi, hf, hm i hi hf hget⟩

end PageFrameAllocator

/-! ### Runs -/

open PageFrameAllocator

/-- The allocator beside the frames it handed out and has not been given back since, by `free`
or by a range marked free. -/
structure Books where
  allocator : PageFrameAllocator
  out : List PageFrame

/-- The calls on an allocator. -/
inductive Call
  | markFree (start size : Nat)
  | markUsed (start size : Nat)
  | alloc
  | allocContiguous (count : Nat)
  | free (f : PageFrame)
  deriving DecidableEq, Repr

namespace Books

/-- One call; a `free` that panics is no step. -/
def step (s : Books) : Call → Option Books
  | .markFree start size =>
      some ⟨s.allocator.markFree start size, s.out.filter fun f => ¬Touches f start size⟩
  | .markUsed start size => some { s with allocator := s.allocator.markUsed start size }
  | .alloc =>
      let r := s.allocator.alloc
      some ⟨r.1, r.2.toList ++ s.out⟩
  | .allocContiguous count =>
      let r := s.allocator.allocContiguous count
      some ⟨r.1, r.2.elim [] (fun f => (List.range count).map f.above) ++ s.out⟩
  | .free f => (s.allocator.free f).map fun a => ⟨a, s.out.filter (· ≠ f)⟩

/-- What holds of the allocator between any two calls. -/
structure Lawful (s : Books) : Prop where
  /-- The count is the number of frames whose bit is set. -/
  used : s.allocator.stats.used = s.allocator.bitmap.members.card
  /-- A frame is found exactly when one is free. -/
  alloc_isSome : s.allocator.alloc.2.isSome ↔
    ∃ i < s.allocator.total, s.allocator.bitmap.get i = false
  /-- The frame was free, and is the only one that changes. -/
  alloc_took : ∀ a' f, s.allocator.alloc = (a', some f) → Took s.allocator f 1 a'
  /-- A run of frames is found exactly when the largest one is long enough. -/
  allocContiguous_isSome : ∀ c, (s.allocator.allocContiguous c).2.isSome ↔
    0 < c ∧ c ≤ s.allocator.largestFreeRun
  /-- The frames of the run were free, and are the only ones that change. -/
  allocContiguous_took : ∀ c a' f, s.allocator.allocContiguous c = (a', some f) →
    Took s.allocator f c a'
  /-- Freeing a frame on the books does not panic. -/
  free_isSome : ∀ f ∈ s.out, (s.allocator.free f).isSome

/-- The allocator is sound and every frame on the books is used. -/
structure Kept (s : Books) : Prop where
  sound : s.allocator.Sound
  out : ∀ f ∈ s.out, s.allocator.isUsed f = some true

variable {s s' : Books}

theorem Kept.lawful (h : s.Kept) : s.Lawful where
  used := h.sound.used
  alloc_isSome := PageFrameAllocator.alloc_isSome h.sound
  alloc_took _ _ := PageFrameAllocator.alloc_took h.sound
  allocContiguous_isSome := PageFrameAllocator.allocContiguous_isSome
  allocContiguous_took _ _ _ := PageFrameAllocator.allocContiguous_took
  free_isSome f hf := free_isSome_of_used (h.out f hf)

variable {a : PageFrameAllocator} {f : PageFrame}

theorem isUsed_of_took {a' : PageFrameAllocator} {g : PageFrame} {c : Nat}
    (h : Took a f c a') (hg : a.isUsed g = some true) : a'.isUsed g = some true := by
  rw [h.others g]
  · exact hg
  · rintro k hk rfl
    rw [h.wasFree k hk] at hg
    cases hg

section

variable (h : s.Kept)
include h

theorem Kept.alloc : Kept ⟨s.allocator.alloc.1, s.allocator.alloc.2.toList ++ s.out⟩ := by
  refine ⟨h.sound.alloc, fun g hg => ?_⟩
  cases hr : s.allocator.alloc with
  | mk a' r =>
    rw [hr] at hg
    cases r with
    | none =>
      obtain ⟨hnone, -⟩ | ⟨i, -, -, hsome⟩ := alloc_cases h.sound
      · cases hnone.symm.trans hr
        exact h.out g hg
      · cases hsome.symm.trans hr
    | some f =>
      have htook := PageFrameAllocator.alloc_took h.sound hr
      rcases mem_cons.mp hg with rfl | hg
      · exact htook.nowUsed 0 one_pos
      · exact isUsed_of_took htook (h.out g hg)

theorem Kept.allocContiguous (c : Nat) : Kept ⟨(s.allocator.allocContiguous c).1,
      (s.allocator.allocContiguous c).2.elim [] (fun f => (List.range c).map f.above) ++ s.out⟩ := by
  refine ⟨h.sound.allocContiguous c, fun g hg => ?_⟩
  cases hr : s.allocator.allocContiguous c with
  | mk a' r =>
    rw [hr] at hg
    cases r with
    | none =>
      obtain ⟨hnone, -⟩ | ⟨i, -, -, hsome⟩ := allocContiguous_cases (a := s.allocator) c
      · cases hnone.symm.trans hr
        exact h.out g hg
      · cases hsome.symm.trans hr
    | some f =>
      have htook := PageFrameAllocator.allocContiguous_took hr
      rcases mem_append.mp hg with hg | hg
      · obtain ⟨k, hk, rfl⟩ := mem_map.mp hg
        exact htook.nowUsed k (mem_range.mp hk)
      · exact isUsed_of_took htook (h.out g hg)

theorem Kept.markFree (start size : Nat) :
    Kept ⟨s.allocator.markFree start size, s.out.filter fun f => ¬Touches f start size⟩ := by
  refine ⟨h.sound.markFree start size, fun f hf => ?_⟩
  rw [mem_filter, decide_eq_true_iff] at hf
  refine isUsed_of_get (h.out f hf.1) fun i hi hfi hget => ?_
  have hout : i ∉ s.allocator.pageFrameRange start size :=
    fun hmem => hf.2 (hfi ▸ (mem_pageFrameRange.mp hmem).2)
  have hmark := (marked_markFree s.allocator start size).get i
  rw [if_neg hout] at hmark
  exact hmark.trans hget

theorem Kept.markUsed (start size : Nat) :
    Kept { s with allocator := s.allocator.markUsed start size } := by
  refine ⟨h.sound.markUsed start size, fun f hf => ?_⟩
  refine isUsed_of_get (h.out f hf) fun i _ _ hget => ?_
  have hmark := (marked_markUsed s.allocator start size).get i
  rw [show s.allocator.bitmap.get i = true from hget, ite_self] at hmark
  exact hmark

theorem Kept.free (hfree : s.allocator.free f = some a) : Kept ⟨a, s.out.filter (· ≠ f)⟩ := by
  refine ⟨h.sound.free hfree, fun g hg => ?_⟩
  rw [mem_filter, decide_eq_true_iff] at hg
  obtain ⟨i, hi, rfl, -, rfl⟩ := free_eq_some.mp hfree
  refine isUsed_of_get (h.out g hg.1) fun j hj hgj hget => ?_
  have hne : j ≠ i := fun hji => hg.2 (hji ▸ hgj)
  rw [get_set hi, if_neg hne]
  exact hget

end

theorem Kept.step {c : Call} (h : s.Kept) (hs : s.step c = some s') : s'.Kept := by
  cases c with
  | markFree start size =>
    cases hs
    exact h.markFree start size
  | markUsed start size =>
    cases hs
    exact h.markUsed start size
  | alloc =>
    cases hs
    exact h.alloc
  | allocContiguous count =>
    cases hs
    exact h.allocContiguous count
  | free f =>
    obtain ⟨a, hfree, rfl⟩ := map_eq_some_iff.mp hs
    exact h.free hfree

/-- **The allocator never hands out a frame twice and finds one whenever one exists**, in every
run of its calls from `new`. -/
theorem allocator_lawful (base total : Nat) (bytes : List (BitVec 8))
    (spans : base + total * frameSize ≤ 2 ^ 64) (a : PageFrameAllocator)
    (hnew : new base total bytes spans = some a) (s : Books)
    (hrun : Transition.Reach step (fun _ _ => True) ⟨a, []⟩ s) : s.Lawful := by
  have hkept : s.Kept := by
    refine hrun.invariant Kept ⟨sound_new hnew, fun f hf => by cases hf⟩ ?_
    intro t c u ht _ hstep
    exact ht.step hstep
  exact hkept.lawful

/-- Nine frames at 64 KiB of which one range is real memory: two frames and a run of three are
taken, the run is given back in the middle, and one frame is marked free again. -/
theorem allocator_lawful_nine : ∃ s : Books,
    s.out = [⟨0x14000, by decide⟩, ⟨0x16000, by decide⟩, ⟨0x13000, by decide⟩] ∧
      s.allocator.stats.used = 5 ∧ s.Lawful := by
  have hnew : ∃ a, new 0x10000 9 [0, 0] (by decide) = some a := ⟨_, rfl⟩
  obtain ⟨a, hnew⟩ := hnew
  obtain ⟨s, hs⟩ : ∃ s, Transition.run step ⟨a, []⟩
      [.markFree 0x12001 0x6000, .alloc, .alloc, .allocContiguous 3,
        .free ⟨0x15000, by decide⟩, .markFree 0x12000 1] = some s := by
    cases hnew
    exact ⟨_, rfl⟩
  refine ⟨s, ?_, ?_, allocator_lawful _ _ _ _ a hnew s (Transition.Reach.of_run _ hs)⟩
  all_goals
    cases hnew
    cases hs
    decide +kernel

end Books

end Nife.PageFrames
