/-
The heap of a process: a first-fit allocator over donated ranges whose list of free blocks lives in
the free memory itself, in the order of the addresses.

`Heap` is the code's: a head, a count and the memory, walked through pointers to links.  `Lists h l`
says that the walk from the head sees the blocks `l`, and the lemmas below say what an allocation and
an insertion make of such a list.  Over them `World` has what the heap does not keep, the donated
ranges and the live allocations, and lets the process write to all memory that is not free.
-/
import Nife.Lib.Buffers
import Nife.Lib.Spans

namespace Nife.UserModeHeap

open Slices Buffers Spans List Function Fallible

def minAlign : Nat := 16

/-- A size and an alignment as the language admits them. -/
structure Layout where
  (size align : Nat)
  pow : ∃ k, align = 2 ^ k
  fits : size + align ≤ 2 ^ 63
  deriving DecidableEq

/-- The least multiple of `m` from `n` on. -/
def up (n m : Nat) : Nat := if n % m = 0 then n else n + (m - n % m)

def nextMultipleOf (n m : Nat) : Run Unit Nat :=
  if up n m < 2 ^ 64 then .ok (up n m) else .error .panic

/-- The bytes a layout costs; within the sizes of a layout nothing overflows. -/
def effectiveSize (layout : Layout) : Nat := up (max layout.size 1) minAlign

/-- The node at the front of a free block. -/
structure FreeBlock where
  size : Nat
  next : Option Nat

/-- The heap and the memory, by the addresses where a node can be. -/
structure Heap where
  head : Option Nat
  free : Nat
  mem : Nat → FreeBlock

/-- A pointer to a link: to the head, or into a node. -/
inductive Link
  | head
  | next (block : Nat)

/-- A pointer that is not null. -/
def nonNull (a : Nat) : Option Nat := if a = 0 then none else some a

namespace Heap

def new (mem : Nat → FreeBlock) : Heap := ⟨none, 0, mem⟩

section

variable (h : Heap)

def load : Link → Option Nat
  | .head => h.head
  | .next block => (h.mem block).next

def put (a : Nat) (node : FreeBlock) : Heap :=
  { h with mem := update h.mem a node }

def store (v : Option Nat) : Link → Heap
  | .head => { h with head := v }
  | .next block => h.put block { h.mem block with next := v }

/-- The remainder behind an allocation, and what comes after its front. -/
def splitTail (aligned size tail : Nat) (next : Option Nat) : Run Unit (Heap × Option Nat) :=
  if 0 < tail then do
    let t ← sum aligned size
    .ok (h.put t ⟨tail, next⟩, nonNull t)
  else .ok (h, next)

/-- Take the bytes from `aligned` on out of a block. -/
def carve (link : Link) (block aligned front size : Nat) : Run Unit (Heap × Option Nat) := do
  let rest ← less (h.mem block).size front
  let tail ← less rest size
  let (h, afterFront) ← h.splitTail aligned size tail (h.mem block).next
  -- a front keeps the block's place in the list; without one the link names what comes after
  let h := if 0 < front then h.put block ⟨front, afterFront⟩ else h.store afterFront link
  let free ← less h.free size
  .ok ({ h with free }, nonNull aligned)

/-- The loop of an allocation; a refusal stands for a walk that has not ended. -/
def allocFrom (h : Heap) (size align : Nat) : Nat → Link → Run Unit (Heap × Option Nat)
  | 0, _ => .error (.refused ())
  | fuel + 1, link =>
      match h.load link with
      | none => .ok (h, none)
      | some block => do
          let aligned ← nextMultipleOf block align
          let front ← less aligned block
          let need ← sum front size
          if need ≤ (h.mem block).size then h.carve link block aligned front size
          else h.allocFrom size align fuel (.next block)

/-- As many turns as blocks of the least size can be free. -/
def turns : Nat := h.free / minAlign + 1

def alloc (layout : Layout) : Run Unit (Heap × Option Nat) :=
  h.allocFrom (effectiveSize layout) (max layout.align minAlign) h.turns .head

/-- The link where the first block above an address is named. -/
def seek (h : Heap) (addr : Nat) : Nat → Link → Run Unit Link
  | 0, _ => .error (.refused ())
  | fuel + 1, link =>
      match h.load link with
      | none => .ok link
      | some block => if addr < block then .ok link else h.seek addr fuel (.next block)

/-- The size and the next block of a range once it has absorbed the one behind it. -/
def absorbNext (addr size : Nat) : Option Nat → Run Unit (Nat × Option Nat)
  | none => .ok (size, none)
  | some n => do
      let stop ← sum addr size
      if n = stop then do
        let size ← sum size (h.mem n).size
        .ok (size, (h.mem n).next)
      else .ok (size, some n)

/-- A new node, named by the link. -/
def place (link : Link) (addr size : Nat) (next : Option Nat) : Heap :=
  (h.put addr ⟨size, next⟩).store (nonNull addr) link

/-- The range joined to the block in front of it, the node the link is in, or a block of its own. -/
def joinPrev (addr size : Nat) (next : Option Nat) : Link → Run Unit Heap
  | .head => .ok (h.place .head addr size next)
  | .next prev => do
      let prevEnd ← sum prev (h.mem prev).size
      if prevEnd = addr then do
        let size ← sum (h.mem prev).size size
        .ok (h.put prev ⟨size, next⟩)
      else .ok (h.place (.next prev) addr size next)

def insertFree (addr size : Nat) : Run Unit Heap := do
  let free ← sum h.free size
  let h := { h with free }
  let link ← h.seek addr h.turns .head
  let (newSize, newNext) ← h.absorbNext addr size (h.load link)
  h.joinPrev addr newSize newNext link

def addRegion (start size : Nat) : Run Unit Heap := do
  asserted (start % minAlign = 0)
  asserted (size % minAlign = 0)
  if size = 0 then .ok h else h.insertFree start size

def dealloc (ptr : Nat) (layout : Layout) : Run Unit Heap :=
  h.insertFree ptr (effectiveSize layout)

end

end Heap

/-! ### Rounding up -/

section
variable {n m a : Nat}

theorem dvd_up (hm : 0 < m) : m ∣ up n m := by
  rw [up]
  split
  · next h => exact Nat.dvd_of_mod_eq_zero h
  · refine ⟨n / m + 1, ?_⟩
    have hdiv := Nat.div_add_mod n m
    have hlt := Nat.mod_lt n hm
    rw [Nat.mul_add]
    omega

theorem le_up : n ≤ up n m := by
  rw [up]
  split <;> omega

theorem up_lt (hm : 0 < m) : up n m < n + m := by
  rw [up]
  split <;> omega

theorem up_le (hm : 0 < m) (ha : m ∣ a) (hn : n ≤ a) : up n m ≤ a := by
  obtain ⟨k, hk⟩ := dvd_up (n := n) hm
  obtain ⟨j, rfl⟩ := ha
  have hlt := up_lt (n := n) hm
  rw [hk] at hlt ⊢
  refine Nat.mul_le_mul_left m ?_
  by_contra hjk
  have : m * (j + 1) ≤ m * k := Nat.mul_le_mul_left m (by omega)
  rw [Nat.mul_add] at this
  omega

end

namespace Layout

variable (layout : Layout)

theorem size_pos : 0 < effectiveSize layout := by
  have := le_up (n := max layout.size 1) (m := minAlign)
  rw [effectiveSize]
  omega

theorem dvd_size : 16 ∣ effectiveSize layout := dvd_up (by decide)

theorem size_lt : effectiveSize layout < layout.size + 17 := by
  have := up_lt (n := max layout.size 1) (m := minAlign) (by decide)
  rw [effectiveSize]
  rw [minAlign] at *
  omega

/-- What the code rounds to: a power of two that both the layout and the grid divide. -/
theorem rounding : ∃ k ≤ 63, max layout.align minAlign = 2 ^ k ∧ layout.align ∣ 2 ^ k ∧ 16 ∣ 2 ^ k ∧
    (2 ^ k = layout.align ∨ 2 ^ k = 16) := by
  obtain ⟨k, hk⟩ := layout.pow
  have hfits := layout.fits
  have hle : k ≤ 63 := (Nat.pow_le_pow_iff_right (by decide : 1 < 2)).mp (by omega)
  rw [hk, minAlign]
  by_cases hfour : k ≤ 4
  · have : 2 ^ k ≤ 2 ^ 4 := Nat.pow_le_pow_right (by decide) hfour
    exact ⟨4, by decide, by omega, Nat.pow_dvd_pow 2 hfour, by decide, .inr rfl⟩
  · have : 2 ^ 4 ≤ 2 ^ k := Nat.pow_le_pow_right (by decide) (by omega)
    exact ⟨k, hle, by omega, dvd_rfl, Nat.pow_dvd_pow 2 (by omega : 4 ≤ k), .inl rfl⟩

/-- The block has room for the layout at an address aligned to it. -/
def Fits (b : Span) : Prop :=
  ∃ a, layout.align ∣ a ∧ b.1 ≤ a ∧ a + effectiveSize layout ≤ b.1 + b.2

theorem fits_iff {b : Span} (hb : 16 ∣ b.1) : layout.Fits b ↔
    up b.1 (max layout.align minAlign) + effectiveSize layout ≤ b.1 + b.2 := by
  obtain ⟨k, -, hround, hdvd, hgrid, hcases⟩ := layout.rounding
  have hpos : 0 < 2 ^ k := Nat.two_pow_pos k
  rw [hround]
  constructor
  · rintro ⟨a, ha, hle, hfits⟩
    rcases hcases with heq | heq
    · have := up_le hpos (heq ▸ ha) hle
      omega
    · have := up_le hpos (heq ▸ hb) le_rfl
      omega
  · exact fun hfits => ⟨up b.1 (2 ^ k), hdvd.trans (dvd_up hpos), le_up, hfits⟩

end Layout

/-! ### The list in memory -/

/-- The nodes from `p` on are those of the blocks, and the last of them names `q`. -/
def Seg (mem : Nat → FreeBlock) : Option Nat → List Span → Option Nat → Prop
  | p, [], q => p = q
  | p, b :: l, q => p = some b.1 ∧ (mem b.1).size = b.2 ∧ Seg mem (mem b.1).next l q

def Lists (h : Heap) (l : List Span) : Prop := Seg h.mem h.head l none

/-- The link behind some blocks. -/
def linkOf (pre : List Span) : Link :=
  match pre.getLast? with
  | none => .head
  | some b => .next b.1

section
variable {mem mem' : Nat → FreeBlock} {h : Heap} {p q v : Option Nat} {l l' pre : List Span}

theorem seg_append : Seg mem p (l ++ l') q ↔ ∃ r, Seg mem p l r ∧ Seg mem r l' q := by
  induction l generalizing p with
  | nil => simp [Seg]
  | cons b l ih => simp [Seg, ih, and_assoc]

theorem Seg.congr (hseg : Seg mem p l q) (hmem : ∀ b ∈ l, mem' b.1 = mem b.1) : Seg mem' p l q := by
  induction l generalizing p with
  | nil => exact hseg
  | cons b l ih =>
    rw [forall_mem_cons] at hmem
    obtain ⟨hp, hsize, hrest⟩ := hseg
    refine ⟨hp, by rw [hmem.1, hsize], ?_⟩
    rw [hmem.1]
    exact ih hrest hmem.2

theorem linkOf_concat (pre : List Span) (b : Span) : linkOf (pre ++ [b]) = .next b.1 := by
  rw [linkOf, getLast?_append]
  rfl

theorem Seg.load (hseg : Seg h.mem h.head pre q) : h.load (linkOf pre) = q := by
  rcases eq_nil_or_concat' pre with rfl | ⟨pre, b, rfl⟩
  · exact hseg
  · obtain ⟨r, -, -, -, hlast⟩ := seg_append.mp hseg
    rw [linkOf_concat]
    exact hlast

variable {node : FreeBlock}

theorem mem_put_ne {a c : Nat} (hne : c ≠ a) : (h.put a node).mem c = h.mem c :=
  update_of_ne hne _ _

theorem mem_put {a : Nat} : (h.put a node).mem a = node :=
  update_self _ _ _

/-- Another block named behind some blocks of the list. -/
theorem Seg.store (hseg : Seg h.mem h.head pre q) (hnodup : (pre.map Prod.fst).Nodup) :
    Seg (h.store v (linkOf pre)).mem (h.store v (linkOf pre)).head pre v ∧
      ∀ a, a ∉ pre.map Prod.fst → (h.store v (linkOf pre)).mem a = h.mem a := by
  rcases eq_nil_or_concat' pre with rfl | ⟨pre, b, rfl⟩
  · exact ⟨rfl, fun _ _ => rfl⟩
  · obtain ⟨r, hpre, rfl, hsize, -⟩ := seg_append.mp hseg
    rw [linkOf_concat]
    rw [map_append, nodup_append] at hnodup
    refine ⟨seg_append.mpr ⟨some b.1, hpre.congr fun c hc => ?_, rfl, ?_, ?_⟩, fun a ha => ?_⟩
    · exact mem_put_ne (hnodup.2.2 c.1 (mem_map_of_mem hc) b.1 (by simp))
    · exact (congrArg FreeBlock.size mem_put).trans hsize
    · exact congrArg FreeBlock.next mem_put
    · exact mem_put_ne fun hab => ha (by simp [hab])

theorem nodup_of_apart (hl : Apart l) : (l.map Prod.fst).Nodup := by
  rw [nodup_iff_pairwise_ne, pairwise_map]
  exact hl.gaps.imp fun hst => by omega

end

/-- A block as the heap keeps them: on the grid, and where no sum overflows. -/
structure OnGrid (b : Span) : Prop where
  start : 0 < b.1
  aligned : 16 ∣ b.1
  size : 16 ∣ b.2
  stop : b.1 + b.2 ≤ 2 ^ 63

/-- The heap has these free blocks, in order on the grid with gaps, and counts them. -/
structure Sound (h : Heap) (l : List Span) : Prop where
  lists : Lists h l
  apart : Apart l
  grid : ∀ b ∈ l, OnGrid b
  free : h.free = total l

/-! ### Allocating -/

/-- What is left of a block behind an allocation. -/
def tailOf (b : Span) (a size : Nat) : List Span :=
  if a + size < b.1 + b.2 then [(a + size, b.1 + b.2 - (a + size))] else []

/-- What is left of a block. -/
def carved (b : Span) (a size : Nat) : List Span :=
  (if b.1 < a then [(b.1, a - b.1)] else []) ++ tailOf b a size

section
variable {h : Heap} {pre post l : List Span} {b : Span} {a size : Nat} {q : Option Nat}
variable {addr x fuel : Nat} {t : Span} {next : Option Nat}

theorem mem_tailOf (ht : t ∈ tailOf b a size) :
    a + size < b.1 + b.2 ∧ t = (a + size, b.1 + b.2 - (a + size)) := by
  rw [tailOf] at ht
  split at ht <;> simp_all

theorem onGrid_carved (hb : OnGrid b) (ha : 16 ∣ a) (hsize : 16 ∣ size) (hlow : b.1 ≤ a)
    (hfits : a + size ≤ b.1 + b.2) (ht : t ∈ carved b a size) : b.1 ≤ t.1 ∧ t.1 + t.2 ≤ b.1 + b.2 ∧ OnGrid t := by
  obtain ⟨hstart, haligned, hbsize, hstop⟩ := hb
  rw [carved, mem_append] at ht
  rcases ht with ht | ht
  · split at ht
    · obtain rfl := mem_singleton.mp ht
      exact ⟨le_refl _, by dsimp only; omega, hstart, haligned, by dsimp only; omega,
        by dsimp only; omega⟩
    · cases ht
  · obtain ⟨hlt, rfl⟩ := mem_tailOf ht
    exact ⟨by dsimp only; omega, by dsimp only; omega, by dsimp only; omega, Nat.dvd_add ha hsize,
      by dsimp only; omega, by dsimp only; omega⟩

theorem apart_carved (hsize : 0 < size) : Apart (carved b a size) := by
  rw [carved, tailOf]
  split <;> split <;> simp [apart_cons, apart_nil] <;> omega

theorem covers_carved : Covers (carved b a size) x ↔
    (b.1 ≤ x ∧ x < a) ∨ (a + size ≤ x ∧ x < b.1 + b.2) := by
  rw [carved, tailOf]
  split <;> split <;> simp [Covers, Inside] <;> omega

/-- **What is covered** once a block is carved: what was, without the allocation. -/
theorem covers_carve (hapart : Apart (pre ++ b :: post)) (ha : b.1 ≤ a)
    (hfits : a + size ≤ b.1 + b.2) : Covers (pre ++ carved b a size ++ post) x ↔
      Covers (pre ++ b :: post) x ∧ ¬Inside (a, size) x := by
  have hgaps := apart_append.mp hapart
  have hpre : Covers pre x → ¬Inside (a, size) x := by
    rintro ⟨c, hc, hin⟩ hx
    have := hgaps.2.2 c hc b mem_cons_self
    simp only [Inside] at hin hx
    omega
  have hpost : Covers post x → ¬Inside (a, size) x := by
    rintro ⟨c, hc, hin⟩ hx
    have := (apart_cons.mp hgaps.2.1).2.1 c hc
    simp only [Inside] at hin hx
    omega
  have hblock : ((b.1 ≤ x ∧ x < a) ∨ (a + size ≤ x ∧ x < b.1 + b.2)) ↔
      Inside b x ∧ ¬Inside (a, size) x := by
    simp only [Inside]
    omega
  rw [covers_append, covers_append, covers_append, covers_cons, covers_carved, hblock]
  constructor
  · rintro ((h | h) | h)
    · exact ⟨.inl h, hpre h⟩
    · exact ⟨.inr (.inl h.1), h.2⟩
    · exact ⟨.inr (.inr h), hpost h⟩
  · rintro ⟨h | h | h, hx⟩
    · exact .inl (.inl h)
    · exact .inl (.inr ⟨h, hx⟩)
    · exact .inr h

theorem total_carved (ha : b.1 ≤ a) (hfits : a + size ≤ b.1 + b.2) :
    total (carved b a size) + size = b.2 := by
  rw [carved, tailOf]
  split <;> split <;> simp [total] <;> omega

theorem splitTail_ok (hpost : Seg h.mem q post none) (hfar : ∀ c ∈ post, b.1 + b.2 < c.1)
    (hb : b.1 + b.2 ≤ 2 ^ 63) (ha : 0 < a) (hlow : b.1 ≤ a) (hfits : a + size ≤ b.1 + b.2) :
    ∃ h' after, h.splitTail a size (b.2 - (a - b.1) - size) q = .ok (h', after) ∧
      h'.free = h.free ∧ h'.head = h.head ∧ (∀ c < a + size, h'.mem c = h.mem c) ∧
      Seg h'.mem after (tailOf b a size ++ post) none := by
  by_cases htail : a + size < b.1 + b.2
  · refine ⟨h.put (a + size) ⟨b.2 - (a - b.1) - size, q⟩, some (a + size), ?_, rfl, rfl,
      fun c hc => mem_put_ne (by omega), ?_⟩
    · rw [Heap.splitTail, if_pos (by omega), sum_ok (by omega)]
      show Except.ok (_, nonNull (a + size)) = _
      rw [nonNull, if_neg (by omega)]
    · rw [tailOf, if_pos htail]
      refine ⟨rfl, ?_, ?_⟩
      · rw [mem_put]
        dsimp only
        omega
      · rw [mem_put]
        exact hpost.congr fun c hc => mem_put_ne (by have := hfar c hc; omega)
  · refine ⟨h, q, ?_, rfl, rfl, fun _ _ => rfl, ?_⟩
    · rw [Heap.splitTail, if_neg (by omega)]
    · rw [tailOf, if_neg htail]
      exact hpost

theorem carve_ok (hl : Lists h (pre ++ b :: post)) (hapart : Apart (pre ++ b :: post))
    (hb : b.1 + b.2 ≤ 2 ^ 63) (hstart : 0 < b.1) (hlow : b.1 ≤ a) (hsize : 0 < size)
    (hfits : a + size ≤ b.1 + b.2) (hfree : size ≤ h.free) :
    ∃ h', h.carve (linkOf pre) b.1 a (a - b.1) size = .ok (h', some a) ∧
      h'.free = h.free - size ∧ Lists h' (pre ++ carved b a size ++ post) := by
  obtain ⟨_, hpre, rfl, hbsize, hpost⟩ := seg_append.mp hl
  have hsplit := apart_append.mp hapart
  have hfar := (apart_cons.mp hsplit.2.1).2.1
  have hbefore : ∀ c ∈ pre, c.1 + c.2 < b.1 := fun c hc => hsplit.2.2 c hc b mem_cons_self
  obtain ⟨h₁, after, hsplitTail, hfree₁, hhead₁, hmem₁, hrest⟩ :=
    splitTail_ok hpost hfar hb (by omega) hlow hfits
  have hbehind : ∀ c ∈ tailOf b a size ++ post, a + size ≤ c.1 := by
    refine forall_mem_append.mpr ⟨fun c hc => ?_, fun c hc => ?_⟩
    · rw [(mem_tailOf hc).2]
    · have := hfar c hc
      omega
  have hpre₁ : Seg h₁.mem h₁.head pre (some b.1) := by
    rw [hhead₁]
    exact hpre.congr fun c hc => hmem₁ c.1 (by have := hbefore c hc; omega)
  have hrun : h.carve (linkOf pre) b.1 a (a - b.1) size = (do
      let free ← less (if 0 < a - b.1 then h₁.put b.1 ⟨a - b.1, after⟩
        else h₁.store after (linkOf pre)).free size
      .ok ({ (if 0 < a - b.1 then h₁.put b.1 ⟨a - b.1, after⟩
        else h₁.store after (linkOf pre)) with free }, nonNull a)) := by
    rw [Heap.carve, hbsize, less_ok (by omega)]
    show (less (b.2 - (a - b.1)) size >>= _) = _
    rw [less_ok (by omega)]
    show (h.splitTail a size (b.2 - (a - b.1) - size) _ >>= _) = _
    rw [hsplitTail]
    rfl
  have hnull : nonNull a = some a := if_neg (by omega)
  rw [hrun, hnull, append_assoc, carved]
  by_cases hfront : b.1 < a
  · rw [if_pos (by omega), if_pos hfront]
    refine ⟨{ h₁.put b.1 ⟨a - b.1, after⟩ with free := h.free - size }, ?_, rfl,
      seg_append.mpr ⟨some b.1, hpre₁.congr fun c hc => ?_, rfl, ?_, ?_⟩⟩
    · show (less h₁.free size >>= _) = _
      rw [hfree₁, less_ok hfree]
      rfl
    · exact mem_put_ne (by have := hbefore c hc; have := hsplit.1.pos c hc; omega)
    · exact congrArg FreeBlock.size mem_put
    · rw [show (Heap.mem _ b.1).next = after from congrArg FreeBlock.next mem_put]
      exact hrest.congr fun c hc => mem_put_ne (by have := hbehind c hc; omega)
  · obtain rfl : a = b.1 := by omega
    obtain ⟨hpre₂, hmem₂⟩ := hpre₁.store (v := after) (nodup_of_apart hsplit.1)
    rw [if_neg (by omega), if_neg hfront]
    refine ⟨{ h₁.store after (linkOf pre) with free := h.free - size }, ?_, rfl,
      seg_append.mpr ⟨after, hpre₂, hrest.congr fun c hc => ?_⟩⟩
    · have : (h₁.store after (linkOf pre)).free = h.free := by
        cases linkOf pre <;> exact hfree₁
      rw [this, less_ok hfree]
      rfl
    · refine hmem₂ c.1 fun hc' => ?_
      obtain ⟨d, hd, hdc⟩ := mem_map.mp hc'
      have := hbefore d hd
      have := hbehind c hc
      omega

/-- The lowest block with room for the layout gives it: `a` is the address, `pre` are the blocks
without room and `post` those behind. -/
structure Takes (layout : Layout) (pre : List Span) (b : Span) (a : Nat) : Prop where
  first : ∀ c ∈ pre, ¬layout.Fits c
  dvd : layout.align ∣ a
  grid : 16 ∣ a
  low : b.1 ≤ a
  high : a + effectiveSize layout ≤ b.1 + b.2

theorem allocFrom_ok (layout : Layout) (pre : List Span) (hl : Lists h (pre ++ post))
    (hapart : Apart (pre ++ post)) (hgrid : ∀ b ∈ post, OnGrid b) (hfree : total post ≤ h.free)
    (hfuel : post.length < fuel) :
    (h.allocFrom (effectiveSize layout) (max layout.align minAlign) fuel (linkOf pre) = .ok (h, none) ∧
      ∀ b ∈ post, ¬layout.Fits b) ∨
    ∃ mid b rest a h', post = mid ++ b :: rest ∧ Takes layout mid b a ∧
      h.allocFrom (effectiveSize layout) (max layout.align minAlign) fuel (linkOf pre) =
        .ok (h', some a) ∧
      h'.free = h.free - effectiveSize layout ∧
      Lists h' (pre ++ mid ++ carved b a (effectiveSize layout) ++ rest) := by
  obtain ⟨k, hk, hround, hdvd, hround16, hcases⟩ := layout.rounding
  have hpos : 0 < 2 ^ k := Nat.two_pow_pos k
  have hlfits := layout.fits
  have hlt := layout.size_lt
  -- on the blocks still ahead: the link is the one behind those already passed
  induction post generalizing pre fuel with
  | nil =>
    obtain ⟨fuel, rfl⟩ : ∃ n, fuel = n + 1 := ⟨fuel - 1, by simp at hfuel; omega⟩
    rw [append_nil] at hl
    refine .inl ⟨?_, by simp⟩
    rw [Heap.allocFrom, hl.load]
  | cons b post ih =>
    rcases fuel with - | fuel
    · cases hfuel
    obtain ⟨_, hpre, rfl, hbsize, hpost⟩ := seg_append.mp hl
    have hb := hgrid b mem_cons_self
    have hfits := layout.fits_iff hb.aligned
    rw [hround] at hfits ih ⊢
    have hstop := hb.stop
    -- below the middle of the address space rounding up stays below it
    have hlow := le_up (n := b.1) (m := 2 ^ k)
    have hfront := up_lt (n := b.1) hpos
    have hrun : h.allocFrom (effectiveSize layout) (2 ^ k) (fuel + 1) (linkOf pre) =
        if up b.1 (2 ^ k) - b.1 + effectiveSize layout ≤ b.2 then
          h.carve (linkOf pre) b.1 (up b.1 (2 ^ k)) (up b.1 (2 ^ k) - b.1) (effectiveSize layout)
        else h.allocFrom (effectiveSize layout) (2 ^ k) fuel (.next b.1) := by
      have hnext : nextMultipleOf b.1 (2 ^ k) = .ok (up b.1 (2 ^ k)) := if_pos (by omega)
      have hsum : up b.1 (2 ^ k) - b.1 + effectiveSize layout < 2 ^ 64 := by omega
      simp [Heap.allocFrom, hpre.load, hnext, less_ok hlow, sum_ok hsum, hbsize, bind, Except.bind]
    rw [total_cons] at hfree
    by_cases hroom : up b.1 (2 ^ k) - b.1 + effectiveSize layout ≤ b.2
    · obtain ⟨h', hcarve, hfree', hl'⟩ := carve_ok hl hapart hstop hb.start hlow layout.size_pos
        (by omega) (by omega)
      refine .inr ⟨[], b, post, up b.1 (2 ^ k), h', rfl, ⟨by simp, hdvd.trans (dvd_up hpos),
        hround16.trans (dvd_up hpos), hlow, by omega⟩, ?_, hfree', ?_⟩
      · rw [hrun, if_pos hroom, hcarve]
      · rwa [append_nil]
    · have hnot : ¬layout.Fits b := fun hfit => hroom (by have := hfits.mp hfit; omega)
      rw [hrun, if_neg hroom, ← linkOf_concat pre]
      rw [append_cons] at hl hapart
      rcases ih (pre ++ [b]) hl hapart (fun c hc => hgrid c (mem_cons_of_mem _ hc)) (by omega)
        (by simpa using hfuel) with ⟨hnone, hall⟩ | ⟨mid, c, rest, a, h', rfl, htakes, hsome, hrest⟩
      · exact .inl ⟨hnone, forall_mem_cons.mpr ⟨hnot, hall⟩⟩
      · refine .inr ⟨b :: mid, c, rest, a, h', rfl, { htakes with
          first := forall_mem_cons.mpr ⟨hnot, htakes.first⟩ }, hsome, ?_⟩
        rwa [append_cons]

/-! ### Inserting -/

theorem seek_ok (addr : Nat) (pre : List Span) (hl : Lists h (pre ++ post)) (hapart : Apart (pre ++ post))
    (hbefore : ∀ b ∈ pre, b.1 ≤ addr) (hfuel : post.length < fuel) :
    ∃ pre' post', pre ++ post = pre' ++ post' ∧ (∀ b ∈ pre', b.1 ≤ addr) ∧ (∀ b ∈ post', addr < b.1) ∧
      h.seek addr fuel (linkOf pre) = .ok (linkOf pre') := by
  induction post generalizing pre fuel with
  | nil =>
    obtain ⟨fuel, rfl⟩ : ∃ n, fuel = n + 1 := ⟨fuel - 1, by simp at hfuel; omega⟩
    refine ⟨pre, [], rfl, hbefore, by simp, ?_⟩
    rw [append_nil] at hl
    rw [Heap.seek, hl.load]
  | cons b post ih =>
    rcases fuel with - | fuel
    · cases hfuel
    obtain ⟨_, hpre, rfl, -, -⟩ := seg_append.mp hl
    by_cases hlt : addr < b.1
    · have hfar := (apart_cons.mp (apart_append.mp hapart).2.1).2.1
      refine ⟨pre, b :: post, rfl, hbefore, forall_mem_cons.mpr ⟨hlt, fun c hc => ?_⟩, ?_⟩
      · have := hfar c hc
        omega
      · simp [Heap.seek, hpre.load, if_pos hlt]
    · rw [append_cons] at hl hapart ⊢
      obtain ⟨pre', post', heq, hpre', hpost', hseek⟩ := ih (pre ++ [b]) hl hapart
        (forall_mem_append.mpr ⟨hbefore, by simpa using hlt⟩)
        (show post.length < fuel by simpa using hfuel)
      refine ⟨pre', post', heq, hpre', hpost', ?_⟩
      simp only [Heap.seek, hpre.load, if_neg hlt]
      rwa [linkOf_concat] at hseek

theorem absorbNext_ok (hpost : Seg h.mem q post none) (hapart : Apart post)
    (hgrid : ∀ b ∈ post, OnGrid b) (hnew : OnGrid (addr, size)) (hfar : ∀ b ∈ post, addr + size ≤ b.1) :
    ∃ newSize newNext rest, h.absorbNext addr size q = .ok (newSize, newNext) ∧
      Seg h.mem newNext rest none ∧ Apart rest ∧ (∀ b ∈ rest, b ∈ post) ∧
      (∀ b ∈ rest, addr + newSize < b.1) ∧ size ≤ newSize ∧ OnGrid (addr, newSize) ∧
      (∀ x, Covers ((addr, newSize) :: rest) x ↔ Covers ((addr, size) :: post) x) ∧
      newSize + total rest = size + total post := by
  cases post with
  | nil =>
    obtain rfl : q = none := hpost
    exact ⟨size, none, [], rfl, rfl, hapart, by simp, by simp, le_refl _, hnew,
      fun _ => Iff.rfl, rfl⟩
  | cons n post =>
    obtain ⟨rfl, hsize, hrest⟩ := id hpost
    have hn := hgrid n mem_cons_self
    have hnstop := hn.stop
    have hnfar := hfar n mem_cons_self
    have hsplit := apart_cons.mp hapart
    by_cases htouch : n.1 = addr + size
    · refine ⟨size + n.2, (h.mem n.1).next, post, ?_, hrest, hsplit.2.2,
        fun b hb => mem_cons_of_mem _ hb, fun b hb => ?_, by omega,
        ⟨hnew.start, hnew.aligned, Nat.dvd_add hnew.size hn.size, by dsimp only; omega⟩,
        fun x => ?_, by rw [total_cons]; omega⟩
      · have hsum : addr + size < 2 ^ 64 := by omega
        have hsum' : size + n.2 < 2 ^ 64 := by omega
        simp [Heap.absorbNext, sum_ok hsum, bind, Except.bind, if_pos htouch, hsize, sum_ok hsum']
      · have := hsplit.2.1 b hb
        omega
      · rw [covers_cons, covers_cons, covers_cons, ← or_assoc]
        refine or_congr ?_ Iff.rfl
        simp only [Inside]
        omega
    · refine ⟨size, some n.1, n :: post, ?_, hpost, hapart, fun b hb => hb,
        forall_mem_cons.mpr ⟨by omega, fun b hb => ?_⟩, le_refl _, hnew,
        fun _ => Iff.rfl, rfl⟩
      · have hsum : addr + size < 2 ^ 64 := by omega
        simp [Heap.absorbNext, sum_ok hsum, bind, Except.bind, if_neg htouch]
      · have := hsplit.2.1 b hb
        omega

theorem place_ok (size : Nat) (hpre : Seg h.mem h.head pre q) (hapart : Apart pre)
    (hlow : ∀ b ∈ pre, b.1 < addr) (hpost : Seg h.mem next post none)
    (hfar : ∀ b ∈ post, addr < b.1) (hnull : 0 < addr) :
    Lists (h.place (linkOf pre) addr size next) (pre ++ (addr, size) :: post) ∧
      (h.place (linkOf pre) addr size next).free = h.free := by
  have hput : Seg (h.put addr ⟨size, next⟩).mem (h.put addr ⟨size, next⟩).head pre q :=
    hpre.congr fun b hb => mem_put_ne (hlow b hb).ne
  obtain ⟨hpre', hmem⟩ := hput.store (v := some addr) (nodup_of_apart hapart)
  have hnot : ∀ a, addr ≤ a → a ∉ pre.map Prod.fst := by
    intro a ha hmem
    obtain ⟨b, hb, rfl⟩ := mem_map.mp hmem
    have := hlow b hb
    omega
  rw [Heap.place, nonNull, if_neg (by omega)]
  refine ⟨seg_append.mpr ⟨some addr, hpre', rfl, ?_, ?_⟩, ?_⟩
  · rw [hmem addr (hnot _ le_rfl), mem_put]
  · rw [hmem addr (hnot _ le_rfl), mem_put]
    refine hpost.congr fun b hb => ?_
    have hb := hfar b hb
    rw [hmem b.1 (hnot _ hb.le), mem_put_ne hb.ne']
  · cases linkOf pre <;> rfl

theorem joinPrev_ok (hpre : Seg h.mem h.head pre q) (hapart : Apart pre)
    (hgrid : ∀ b ∈ pre, OnGrid b) (hends : ∀ b ∈ pre, b.1 + b.2 ≤ addr)
    (hpost : Seg h.mem next post none) (hapartPost : Apart post) (hfar : ∀ b ∈ post, addr + size < b.1)
    (hnew : OnGrid (addr, size)) (hsize : 0 < size) :
    ∃ h' front, h.joinPrev addr size next (linkOf pre) = .ok h' ∧ h'.free = h.free ∧
      Lists h' (front ++ post) ∧ Apart (front ++ post) ∧ (∀ b ∈ front, OnGrid b) ∧
      (∀ x, Covers front x ↔ Inside (addr, size) x ∨ Covers pre x) ∧ total front = size + total pre := by
  have hstop := hnew.stop
  have hlow : ∀ b ∈ pre, b.1 < addr := by
    intro b hb
    have := hends b hb
    have := hapart.pos b hb
    omega
  have hplace := place_ok size hpre hapart hlow hpost
    (fun b hb => by have := hfar b hb; omega) hnew.start
  -- a block of its own, when none of those before ends where it starts
  have hown : (∀ b ∈ pre, b.1 + b.2 < addr) → ∃ front,
      Lists (h.place (linkOf pre) addr size next) (front ++ post) ∧ Apart (front ++ post) ∧
      (∀ b ∈ front, OnGrid b) ∧ (∀ x, Covers front x ↔ Inside (addr, size) x ∨ Covers pre x) ∧
      total front = size + total pre := by
    intro hgap
    refine ⟨pre ++ [(addr, size)], ?_, ?_, ?_, fun x => ?_, ?_⟩
    · rw [← append_cons]
      exact hplace.1
    · rw [← append_cons]
      exact apart_insert hapart hapartPost hsize hgap hfar
    · exact forall_mem_append.mpr ⟨hgrid, by simpa using hnew⟩
    · rw [covers_append, covers_cons, or_comm, or_iff_left covers_nil]
    · rw [total_append, add_comm, total]
      rfl
  rcases eq_nil_or_concat' pre with rfl | ⟨pre, p, rfl⟩
  · obtain ⟨front, hfront⟩ := hown (by simp)
    exact ⟨_, front, rfl, hplace.2, hfront⟩
  · obtain ⟨_, hsegPre, rfl, hpsize, -⟩ := seg_append.mp hpre
    have hsplit := apart_append.mp hapart
    have hp := hgrid p (by simp)
    have hpend := hends p (by simp)
    have hpbefore : ∀ b ∈ pre, b.1 + b.2 < p.1 := fun b hb => hsplit.2.2 b hb p (by simp)
    have hsum : p.1 + p.2 < 2 ^ 64 := by omega
    by_cases htouch : p.1 + p.2 = addr
    · have hsum' : p.2 + size < 2 ^ 64 := by omega
      refine ⟨h.put p.1 ⟨p.2 + size, next⟩, pre ++ [(p.1, p.2 + size)], ?_, rfl, ?_, ?_, ?_,
        fun x => ?_, ?_⟩
      · simp [linkOf_concat, Heap.joinPrev, hpsize, sum_ok hsum, bind, Except.bind, if_pos htouch, sum_ok hsum']
      · rw [← append_cons]
        refine seg_append.mpr ⟨some p.1, hsegPre.congr fun b hb => ?_, rfl, ?_, ?_⟩
        · exact mem_put_ne (by have := hpbefore b hb; have := hsplit.1.pos b hb; omega)
        · rw [mem_put]
        · rw [mem_put]
          exact hpost.congr fun b hb => mem_put_ne (by have := hfar b hb; omega)
      · rw [← append_cons]
        refine apart_insert hsplit.1 hapartPost (by dsimp only; omega) hpbefore fun b hb => ?_
        have := hfar b hb
        omega
      · refine forall_mem_append.mpr ⟨fun b hb => hgrid b (mem_append_left _ hb), ?_⟩
        rw [forall_mem_singleton]
        exact ⟨hp.start, hp.aligned, Nat.dvd_add hp.size hnew.size, by dsimp only; omega⟩
      · rw [covers_append, covers_append, covers_cons, covers_cons, or_iff_left covers_nil,
          or_iff_left covers_nil, or_left_comm]
        refine or_congr Iff.rfl ?_
        simp only [Inside]
        omega
      · simp only [total_append, total_cons]
        omega
    · obtain ⟨front, hfront⟩ := hown (forall_mem_append.mpr
        ⟨fun b hb => by have := hpbefore b hb; omega, by simp; omega⟩)
      rw [linkOf_concat] at hfront hplace ⊢
      refine ⟨_, front, ?_, hplace.2, hfront⟩
      simp [Heap.joinPrev, hpsize, sum_ok hsum, bind, Except.bind, if_neg htouch]

/-- **Inserting a range** that shares no bytes with the free blocks: the list covers it too. -/
theorem Sound.insertFree (hs : Sound h l) (hnew : OnGrid (addr, size)) (hsize : 0 < size)
    (hdisj : ∀ x, Inside (addr, size) x → ¬Covers l x) :
    ∃ h' l', h.insertFree addr size = .ok h' ∧ Sound h' l' ∧
      ∀ x, Covers l' x ↔ Inside (addr, size) x ∨ Covers l x := by
  obtain ⟨hl, hapart, hgrid, hfree⟩ := hs
  have hstop := hnew.stop
  have hstart := hnew.start
  have htotal := hapart.total_le (Nat.zero_le (2 ^ 63)) fun b hb => ⟨Nat.zero_le _, (hgrid b hb).stop⟩
  have hsum : h.free + size < 2 ^ 64 := by omega
  -- no more blocks than the count has room for, so the walk does not run out of turns
  have hcount := hapart.length_le fun b hb => (hgrid b hb).size
  obtain ⟨pre, post, heq, hpre, hpost, hseek⟩ := seek_ok (h := { h with free := h.free + size })
    addr [] hl hapart (by simp) (show l.length < (h.free + size) / 16 + 1 by omega)
  obtain rfl : l = pre ++ post := heq
  obtain ⟨q, hsegPre, hsegPost⟩ := seg_append.mp hl
  obtain ⟨hapartPre, hapartPost, -⟩ := apart_append.mp hapart
  -- the blocks before end where the range starts, those behind start where it ends
  have hends : ∀ b ∈ pre, b.1 + b.2 ≤ addr := by
    intro b hb
    by_contra hlt
    exact hdisj addr ⟨Nat.le_refl _, by dsimp only; omega⟩
      ⟨b, mem_append_left _ hb, hpre b hb, by omega⟩
  have hstarts : ∀ b ∈ post, addr + size ≤ b.1 := by
    intro b hb
    by_contra hlt
    have := hapartPost.pos b hb
    exact hdisj b.1 ⟨(hpost b hb).le, by dsimp only; omega⟩
      ⟨b, mem_append_right _ hb, Nat.le_refl _, by omega⟩
  obtain ⟨newSize, newNext, rest, habsorb, hsegRest, hapartRest, hsub, hfar, hge, hgridNew, hcov, htot⟩ :=
    absorbNext_ok (h := { h with free := h.free + size }) hsegPost hapartPost
      (fun b hb => hgrid b (mem_append_right _ hb)) hnew hstarts
  obtain ⟨h', front, hjoin, hfree', hl', hapart', hgridFront, hcovFront, htotFront⟩ :=
    joinPrev_ok (h := { h with free := h.free + size }) hsegPre hapartPre
      (fun b hb => hgrid b (mem_append_left _ hb)) hends hsegRest hapartRest hfar hgridNew
      (by omega)
  refine ⟨h', front ++ rest, ?_, ⟨hl', hapart', forall_mem_append.mpr ⟨hgridFront, fun b hb =>
    hgrid b (mem_append_right _ (hsub b hb))⟩, ?_⟩, fun x => ?_⟩
  · have hload : Heap.load { h with free := h.free + size } (linkOf pre) = q := Seg.load hsegPre
    refine bind_eq_ok.mpr ⟨_, sum_ok hsum, bind_eq_ok.mpr ⟨_, hseek,
      bind_eq_ok.mpr ⟨(newSize, newNext), ?_, hjoin⟩⟩⟩
    rw [hload, habsorb]
  · rw [total_append]
    rw [total_append] at hfree
    dsimp only at hfree'
    omega
  · have hx := hcov x
    rw [covers_cons, covers_cons] at hx
    rw [covers_append, covers_append, hcovFront, or_right_comm, hx, or_right_comm, or_assoc]

end

/-! ### Whole runs -/

/-- The heap, what was donated to it, and the live allocations with their layouts. -/
structure World where
  heap : Heap
  donated : List Span
  live : List (Nat × Layout)

/-- What a process does. -/
inductive Op
  | addRegion (start size : Nat)
  | alloc (layout : Layout)
  | dealloc (ptr : Nat) (layout : Layout)
  /-- The process writes to memory. -/
  | write (mem : Nat → FreeBlock)

def owned (p : Nat × Layout) : Span := (p.1, effectiveSize p.2)

namespace World

def new (mem : Nat → FreeBlock) : World := ⟨.new mem, [], []⟩

def liveSpans (w : World) : List Span := w.live.map owned

/-- What the contract of the heap asks of a process.  It may write wherever memory is not free. -/
def Permits (w : World) : Op → Prop
  | .addRegion start size => OnGrid (start, size) ∧ 0 < size ∧
      ∀ x, Inside (start, size) x → ¬Covers w.donated x
  | .alloc _ => True
  | .dealloc ptr layout => (ptr, layout) ∈ w.live
  | .write mem => ∀ x, Covers w.donated x → ¬Covers w.liveSpans x → mem x = w.heap.mem x

def step (w : World) : Op → Run Unit World
  | .addRegion start size => do
      let heap ← w.heap.addRegion start size
      .ok { w with heap, donated := (start, size) :: w.donated }
  | .alloc layout => do
      let (heap, ptr) ← w.heap.alloc layout
      .ok { w with heap, live := (ptr.map fun a => (a, layout)).toList ++ w.live }
  | .dealloc ptr layout => do
      let heap ← w.heap.dealloc ptr layout
      .ok { w with heap, live := w.live.erase (ptr, layout) }
  | .write mem => .ok { w with heap := { w.heap with mem } }

/-- What can come of a process that keeps the contract. -/
inductive Reaches (mem : Nat → FreeBlock) : World → Prop
  | new : Reaches mem (.new mem)
  | step {w w' : World} {op : Op} :
      Reaches mem w → w.Permits op → w.step op = .ok w' → Reaches mem w'

/-- **The invariant**: donated memory is the free blocks and the live allocations, and none of these
overlap. -/
structure Tidy (w : World) (l : List Span) : Prop where
  sound : Sound w.heap l
  split : ∀ x, Covers w.donated x ↔ Covers l x ∨ Covers w.liveSpans x
  disjoint : ∀ x, Covers l x → ¬Covers w.liveSpans x
  liveGrid : ∀ b ∈ w.liveSpans, OnGrid b
  liveApart : w.liveSpans.Pairwise fun s t => ∀ x, Inside s x → ¬Inside t x

variable {w : World} {l : List Span}

/-- **An allocation** from a sound heap: none when no block has room, else the lowest with room. -/
theorem Tidy.alloc (h : w.Tidy l) (layout : Layout) :
    (w.heap.alloc layout = .ok (w.heap, none) ∧ ∀ b ∈ l, ¬layout.Fits b) ∨
    ∃ pre b post a heap, l = pre ++ b :: post ∧ Takes layout pre b a ∧
      w.heap.alloc layout = .ok (heap, some a) ∧
      heap.free = w.heap.free - effectiveSize layout ∧
      Lists heap (pre ++ carved b a (effectiveSize layout) ++ post) := by
  obtain ⟨hlists, hapart, hgrid, hfree⟩ := h.sound
  have hcount := hapart.length_le fun b hb => (hgrid b hb).size
  exact allocFrom_ok layout [] hlists hapart hgrid hfree.ge (by
    rw [Heap.turns, minAlign]
    omega)

theorem Tidy.took {layout : Layout} {pre post : List Span} {b : Span} {a : Nat} {heap : Heap}
    (h : w.Tidy (pre ++ b :: post)) (htakes : Takes layout pre b a)
    (hfree : heap.free = w.heap.free - effectiveSize layout)
    (hlists : Lists heap (pre ++ carved b a (effectiveSize layout) ++ post)) :
    Tidy ⟨heap, w.donated, (a, layout) :: w.live⟩
      (pre ++ carved b a (effectiveSize layout) ++ post) := by
  obtain ⟨-, hapart, hgrid, hcount⟩ := h.sound
  obtain ⟨-, -, ha, hlow, hhigh⟩ := htakes
  have hb := hgrid b (by simp)
  have hcarved := fun t => onGrid_carved (t := t) hb ha layout.dvd_size hlow hhigh
  have hcov := fun x => covers_carve (x := x) hapart hlow hhigh
  have hold : ∀ x, Inside (a, effectiveSize layout) x → Covers (pre ++ b :: post) x := by
    refine fun x hx => ⟨b, by simp, ?_⟩
    simp only [Inside] at hx ⊢
    omega
  refine
    { sound :=
        { lists := hlists
          apart := hapart.replace (apart_carved layout.size_pos)
            fun t ht => ⟨(hcarved t ht).1, (hcarved t ht).2.1⟩
          grid := ?_
          free := ?_ }
      split := fun x => ?_
      disjoint := fun x hx => ?_
      liveGrid := forall_mem_cons.mpr ⟨?_, h.liveGrid⟩
      liveApart := pairwise_cons.mpr ⟨fun s hs x hx hin => ?_, h.liveApart⟩ }
  · rw [forall_mem_append, forall_mem_cons] at hgrid
    exact forall_mem_append.mpr ⟨forall_mem_append.mpr ⟨hgrid.1, fun t ht =>
      (hcarved t ht).2.2⟩, hgrid.2.2⟩
  · have := total_carved hlow hhigh
    simp only [total_append, total_cons] at hcount ⊢
    omega
  · have hlive : Covers (liveSpans ⟨heap, w.donated, (a, layout) :: w.live⟩) x ↔
        Inside (a, effectiveSize layout) x ∨ Covers w.liveSpans x := covers_cons
    rw [h.split x, hcov x, hlive]
    by_cases hx : Inside (a, effectiveSize layout) x
    · simp [hx, hold x hx]
    · simp [hx]
  · have hx := (hcov x).mp hx
    exact fun hlive => (covers_cons.mp hlive).elim hx.2 (h.disjoint x hx.1)
  · have hstart := hb.start
    exact ⟨by dsimp only [owned]; omega, ha, layout.dvd_size, hhigh.trans hb.stop⟩
  · exact h.disjoint x (hold x hx) ⟨s, hs, hin⟩

/-- A range that is not covered goes to the free blocks. -/
theorem Tidy.inserted (h : w.Tidy l) {s : Span} (hs : OnGrid s) (hpos : 0 < s.2)
    (hdisj : ∀ x, Inside s x → ¬Covers l x) (donated : List Span) {live : List (Nat × Layout)}
    (hsplit : ∀ x, Covers donated x ↔ (Inside s x ∨ Covers l x) ∨ Covers (live.map owned) x)
    (hlive : live.Sublist w.live) (hnew : ∀ x, Inside s x → ¬Covers (live.map owned) x) :
    ∃ heap l', w.heap.insertFree s.1 s.2 = .ok heap ∧ Tidy ⟨heap, donated, live⟩ l' := by
  obtain ⟨heap, l', hrun, hsound, hcov⟩ := h.sound.insertFree hs hpos hdisj
  have hsub : (live.map owned).Sublist w.liveSpans := hlive.map owned
  refine ⟨heap, l', hrun, hsound, fun x => ?_, fun x hx hlive' => ?_,
    fun b hb => h.liveGrid b (hsub.subset hb), h.liveApart.sublist hsub⟩
  · rw [hcov x]
    exact hsplit x
  · rcases (hcov x).mp hx with hin | hold
    · exact hnew x hin hlive'
    · obtain ⟨t, ht, hin⟩ := hlive'
      exact h.disjoint x hold ⟨t, hsub.subset ht, hin⟩

/-- **One step** that the contract permits ends, and keeps the heap tidy. -/
theorem Tidy.step (h : w.Tidy l) {op : Op} (hop : w.Permits op) :
    ∃ w' l', w.step op = .ok w' ∧ w'.Tidy l' := by
  cases op with
  | addRegion start size =>
    obtain ⟨hgrid, hpos, hfresh⟩ := hop
    have hnew : ∀ x, Inside (start, size) x → ¬(Covers l x ∨ Covers w.liveSpans x) :=
      fun x hx hold => hfresh x hx ((h.split x).mpr hold)
    obtain ⟨heap, l', hrun, hl'⟩ := h.inserted hgrid hpos (fun x hx hold => hnew x hx (.inl hold))
      ((start, size) :: w.donated)
      (fun x => by rw [covers_cons, h.split x, or_assoc]; rfl) (List.Sublist.refl w.live)
      (fun x hx hold => hnew x hx (.inr hold))
    refine ⟨⟨heap, _, w.live⟩, l', bind_eq_ok.mpr ⟨heap, ?_, rfl⟩, hl'⟩
    have halign := Nat.mod_eq_zero_of_dvd hgrid.aligned
    have hsize := Nat.mod_eq_zero_of_dvd hgrid.size
    rw [Heap.addRegion, minAlign, asserted_ok halign, asserted_ok hsize]
    show (if size = 0 then _ else _) = _
    rw [if_neg (by omega), hrun]
  | alloc layout =>
    rcases h.alloc layout with ⟨hrun, -⟩ | ⟨pre, b, post, a, heap, rfl, htakes, hrun, hfree, hlists⟩
    · exact ⟨w, l, bind_eq_ok.mpr ⟨_, hrun, rfl⟩, h⟩
    · exact ⟨_, _, bind_eq_ok.mpr ⟨_, hrun, rfl⟩, h.took htakes hfree hlists⟩
  | dealloc ptr layout =>
    have hmem : owned (ptr, layout) ∈ w.liveSpans := mem_map_of_mem hop
    have hperm : (w.live.map owned).Perm
        (owned (ptr, layout) :: (w.live.erase (ptr, layout)).map owned) :=
      (perm_cons_erase hop).map owned
    have hcov : ∀ x, Covers w.liveSpans x ↔ Inside (owned (ptr, layout)) x ∨
        Covers ((w.live.erase (ptr, layout)).map owned) x := by
      intro x
      rw [← covers_cons]
      exact exists_congr fun s => and_congr_left fun _ => hperm.mem_iff
    have hothers := (pairwise_cons.mp
      ((hperm.pairwise_iff fun hst x ht hs => hst x hs ht).mp h.liveApart)).1
    obtain ⟨heap, l', hrun, hl'⟩ := h.inserted (h.liveGrid _ hmem) layout.size_pos
      (fun x hx hold => h.disjoint x hold ⟨_, hmem, hx⟩) w.donated
      (fun x => by rw [h.split x, hcov x, ← or_assoc, or_comm (a := Covers l x)])
      erase_sublist (by
        rintro x hx ⟨t, ht, hin⟩
        exact hothers t ht x hx hin)
    exact ⟨_, l', bind_eq_ok.mpr ⟨heap, hrun, rfl⟩, hl'⟩
  | write mem =>
    -- the nodes of the list lie in free memory
    refine ⟨_, l, rfl, { h with sound := { h.sound with lists := h.sound.lists.congr fun b hb => ?_ } }⟩
    have hcov : Covers l b.1 := ⟨b, hb, le_refl _, by have := h.sound.apart.pos b hb; omega⟩
    exact hop b.1 ((h.split b.1).mpr (.inl hcov)) (h.disjoint b.1 hcov)

theorem Reaches.tidy {mem : Nat → FreeBlock} (h : Reaches mem w) : ∃ l, w.Tidy l := by
  induction h with
  | new =>
    exact ⟨[], ⟨rfl, apart_nil, by simp, rfl⟩, by simp [World.new, liveSpans],
      fun x hx => absurd hx covers_nil, by simp [World.new, liveSpans], List.Pairwise.nil⟩
  | step _ hop hrun ih =>
    obtain ⟨l, hl⟩ := ih
    obtain ⟨w', l', hrun', hl'⟩ := hl.step hop
    rw [hrun] at hrun'
    cases hrun'
    exact ⟨l', hl'⟩

end World

/-- **The heap is a coalescing allocator over every run** that keeps its contract, over memory with any
contents: the free blocks are in order on the grid with gaps and are counted, donated memory is the free
blocks and the live allocations without overlap, an allocation comes from the lowest block with room and
fails only without one, and with nothing live the free blocks are the maximal runs of what was donated.
Every permitted call ends. -/
theorem heap_coalesces (mem : Nat → FreeBlock) (w : World) (h : World.Reaches mem w) :
    (∃ l, w.Tidy l ∧
      (∀ layout, ((∃ heap, w.heap.alloc layout = .ok (heap, none)) ∧ ∀ b ∈ l, ¬layout.Fits b) ∨
        ∃ pre b post a heap, l = pre ++ b :: post ∧ w.heap.alloc layout = .ok (heap, some a) ∧
          Takes layout pre b a) ∧
      (w.live = [] → ∀ s, s ∈ l ↔ IsRun (Covers w.donated) s)) ∧
    ∀ op, w.Permits op → ∃ w', w.step op = .ok w' := by
  obtain ⟨l, hl⟩ := h.tidy
  refine ⟨⟨l, hl, fun layout => ?_, fun hlive s => ?_⟩, fun op hop => ?_⟩
  · rcases hl.alloc layout with ⟨hrun, hnone⟩ | ⟨pre, b, post, a, heap, heq, htakes, hrun, -, -⟩
    · exact .inl ⟨⟨_, hrun⟩, hnone⟩
    · exact .inr ⟨pre, b, post, a, heap, heq, hrun, htakes⟩
  · have hcov : Covers w.donated = Covers l := by
      funext x
      have hno : ¬Covers w.liveSpans x := by
        rw [World.liveSpans, hlive]
        exact covers_nil
      rw [hl.split x, or_iff_left hno]
    rw [hcov]
    exact hl.sound.apart.mem_iff_isRun
  · obtain ⟨w', -, hrun, -⟩ := hl.step hop
    exact ⟨w', hrun⟩

def sixteen : Layout := ⟨16, 16, ⟨4, rfl⟩, by decide⟩

/-- Twenty bytes at a multiple of 32: the block is split in front of them. -/
def twenty : Layout := ⟨20, 32, ⟨5, rfl⟩, by decide⟩

/-- Of a page donated, two allocations are taken and given back in the order they were taken: each
is merged with what is free beside it, and the page is one block again. -/
theorem heap_coalesces_merged : ∃ taken w, World.Reaches (fun _ => ⟨0, none⟩) taken ∧
    taken.live = [(4128, twenty), (4096, sixteen)] ∧ World.Reaches (fun _ => ⟨0, none⟩) w ∧
    w.donated = [(4096, 64)] ∧ w.live = [] ∧
    ∃ l, w.Tidy l ∧ ∀ s, s ∈ l ↔ IsRun (Covers w.donated) s := by
  have hpermits : World.Permits (.new fun _ => ⟨0, none⟩) (.addRegion 4096 64) :=
    ⟨⟨by decide, by decide, by decide, by decide⟩, by decide, fun x _ => covers_nil⟩
  have hdonated := World.Reaches.step .new hpermits rfl
  have hfirst := hdonated.step (show World.Permits _ (.alloc sixteen) from trivial) rfl
  have hsecond := hfirst.step (show World.Permits _ (.alloc twenty) from trivial) rfl
  have hone := hsecond.step (show World.Permits _ (.dealloc 4096 sixteen) from
    mem_cons_of_mem _ mem_cons_self) rfl
  have hnone := hone.step (show World.Permits _ (.dealloc 4128 twenty) from mem_cons_self) rfl
  obtain ⟨⟨l, hl, -, hruns⟩, -⟩ := heap_coalesces _ _ hnone
  exact ⟨_, _, hsecond, rfl, hnone, rfl, rfl, l, hl, hruns rfl⟩

/-- A range at the null address is lost: it is counted as free and is not in the list.  And above the
middle of the address space an allocation can stop the program: rounding up overflows. -/
theorem donation_out_of_reach :
    (∃ h, (Heap.new fun _ => ⟨0, none⟩).addRegion 0 16 = .ok h ∧ h.head = none ∧ h.free = 16) ∧
    ∃ h, (Heap.new fun _ => ⟨0, none⟩).addRegion (2 ^ 63 + 16) 16 = .ok h ∧
      h.alloc ⟨0, 2 ^ 63, ⟨63, rfl⟩, by decide⟩ = .error .panic :=
  ⟨⟨_, rfl, rfl, rfl⟩, _, rfl, rfl⟩

end Nife.UserModeHeap
