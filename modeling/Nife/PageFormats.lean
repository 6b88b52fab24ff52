/-
What the walk needs of a format, and that the four formats have it: an entry keeps its address
and its attributes in different bits, so a table pointer, a page and a block each decode to what
was encoded, and a block is told from a table.

The address lies in the bits of a mask; presence, kind and access are read from the others.  So
each law is one fact about masks and one computation over the constructors of `Flags`.
-/
import Nife.Paging

namespace Nife.Paging

open BitVec

/-! ### Words as fields of bits -/

/-- The bits of `x` lie in `mask`. -/
def Within (mask x : Word) : Prop := x &&& mask = x

variable {pa mask : Word} {size : PageSize} {x : Word}

theorem within_iff : Within mask x ↔ ∀ i, i < 64 → x.getLsbD i = true → mask.getLsbD i = true := by
  constructor
  · intro h i _ hx
    rw [← h, getLsbD_and, Bool.and_eq_true] at hx
    exact hx.2
  · intro h
    refine eq_of_getLsbD_eq fun i hi => ?_
    rw [getLsbD_and]
    rcases hx : x.getLsbD i with - | -
    · rfl
    · rw [h i hi hx]
      rfl

variable {b c : Word} {bits i k field : Nat}

/-- **Bits outside the mask are the other part's.** -/
theorem Within.or_and (h : Within mask x) (c : Word)
    (hb : mask &&& b = 0#64) : (x ||| c) &&& b = c &&& b := by
  have hx : x &&& b = 0#64 := by
    rw [← h, BitVec.and_assoc, hb, BitVec.and_zero]
  refine BitVec.eq_of_getLsbD_eq fun i hi => ?_
  have hbit := congrArg (BitVec.getLsbD · i) hx
  simp only [getLsbD_and, getLsbD_zero] at hbit
  simp [Bool.and_or_distrib_right, hbit]

theorem Within.test_or (h : Within mask x) (c : Word) (hb : mask &&& b = 0#64) :
    decide ((x ||| c) &&& b ≠ 0#64) = decide (c &&& b ≠ 0#64) := by
  rw [h.or_and c hb]

theorem Within.or_and_self (h : Within mask x) (hc : c &&& mask = 0#64) :
    (x ||| c) &&& mask = x := by
  refine eq_of_getLsbD_eq fun i hi => ?_
  have hbit := congrArg (getLsbD · i) hc
  have hx := congrArg (getLsbD · i) h
  simp only [getLsbD_and, getLsbD_zero] at hbit hx
  simp [Bool.and_or_distrib_right, hbit, hx]

/-- `pa` fits in `bits` bits. -/
def fitsIn (pa : Word) (bits : Nat) : Bool := pa >>> bits = 0#64

theorem getLsbD_of_fitsIn (h : fitsIn pa bits = true) (hi : bits ≤ i) : pa.getLsbD i = false := by
  have hzero : pa >>> bits = 0#64 := of_decide_eq_true h
  have hbit := congrArg (getLsbD · (i - bits)) hzero
  simp only [getLsbD_ushiftRight, getLsbD_zero] at hbit
  rwa [Nat.add_sub_cancel' hi] at hbit

theorem isMultipleOf_iff {a : Word} : isMultipleOf a b = true ↔ a.toNat % b.toNat = 0 := by
  rw [isMultipleOf, decide_eq_true_eq, ← toNat_inj]
  rfl

theorem getLsbD_of_isMultipleOf (h : isMultipleOf x (1#64 <<< k) = true)
    (hk : k < 64) (hi : i < k) : x.getLsbD i = false := by
  have hnat := isMultipleOf_iff.mp h
  have hpow : (1#64 <<< k).toNat = 2 ^ k := by
    rw [toNat_shiftLeft, Nat.shiftLeft_eq]
    show 1 * 2 ^ k % 2 ^ 64 = 2 ^ k
    rw [Nat.one_mul, Nat.mod_eq_of_lt (Nat.pow_lt_pow_right (by decide) hk)]
  rw [hpow] at hnat
  have hbit := congrArg (Nat.testBit · i) hnat
  simp only [Nat.testBit_mod_two_pow, hi, decide_true, Bool.true_and] at hbit
  rw [← testBit_toNat, hbit]
  exact Nat.zero_testBit i

/-- A word of `bits` bits whose low `k` bits are clear lies in a mask that has all between. -/
theorem within_of_aligned (hk : k < 64)
    (hmask : ∀ i, i < 64 → k ≤ i → i < bits → mask.getLsbD i = true)
    (hal : isMultipleOf pa (1#64 <<< k) = true) (hfits : fitsIn pa bits = true) :
    Within mask pa := by
  refine within_iff.mpr fun i hi hx => hmask i hi ?_ ?_
  · by_contra hlt
    rw [getLsbD_of_isMultipleOf hal hk (by omega)] at hx
    cases hx
  · by_contra hge
    rw [getLsbD_of_fitsIn hfits (by omega)] at hx
    cases hx

theorem bytes_eq (size : PageSize) : size.bytes = 1#64 <<< (12 + 9 * size.levelsAboveBottom) := by
  cases size <;> rfl

/-! ### What the walk needs -/

/-- A physical address that names a whole frame within the format's address field. -/
structure IsFrame (field : Nat) (pa : Word) : Prop where
  fits : fitsIn pa field = true
  aligned : isMultipleOf pa pageSize = true

/-- **The laws of a format** whose addresses have `field` bits and which shows the access
`flags` of a leaf as `shown flags`. -/
structure PageFormat.Lawful (F : PageFormat) (field : Nat) (shown : Flags → Flags) : Prop where
  three_le_levels : 3 ≤ F.levels
  split_le : F.splitShift ≤ 12 + 9 * F.levels
  block_le_split : 30 ≤ F.splitShift
  address_bits : 12 + 9 * F.levels ≤ 64
  absent_zero : F.isPresent 0#64 = false
  table : ∀ pa, IsFrame field pa →
    F.isPresent (F.tableEntry pa) = true ∧ F.isBlock (F.tableEntry pa) = false ∧
      F.entryPa (F.tableEntry pa) = pa
  leaf : ∀ pa flags, IsFrame field pa → flags ∈ Flags.constructors →
    F.isPresent (F.leafEntry pa flags) = true ∧ F.entryPa (F.leafEntry pa flags) = pa ∧
      F.leafFlags (F.leafEntry pa flags) = shown flags
  block : ∀ pa flags size e, F.blockEntry pa flags size = some e → size ≠ .size4KiB →
    fitsIn pa field = true → isMultipleOf pa size.bytes = true → flags ∈ Flags.constructors →
    F.isPresent e = true ∧ F.isBlock e = true ∧ F.entryPa e = pa ∧ F.leafFlags e = shown flags

theorem within_of_bytes (hmask : ∀ i, i < 64 → 12 + 9 * size.levelsAboveBottom ≤ i → i < field →
      mask.getLsbD i = true)
    (hal : isMultipleOf pa size.bytes = true) (hfits : fitsIn pa field = true) :
    Within mask pa := by
  rw [bytes_eq] at hal
  refine within_of_aligned ?_ hmask hal hfits
  cases size <;> decide

theorem isMultipleOf_pageSize
    (hal : isMultipleOf pa size.bytes = true) : isMultipleOf pa pageSize = true := by
  rw [isMultipleOf_iff] at hal ⊢
  cases size with
  | size4KiB => exact hal
  | size2MiB =>
    have hal : pa.toNat % 2097152 = 0 := hal
    show pa.toNat % 4096 = 0
    omega
  | size1GiB =>
    have hal : pa.toNat % 1073741824 = 0 := hal
    show pa.toNat % 4096 = 0
    omega

theorem and_not_bytes (hal : isMultipleOf pa size.bytes = true) :
    pa &&& ~~~(size.bytes - 1) = pa := by
  have hwide : fitsIn pa 64 = true := decide_eq_true (ushiftRight_eq_zero (Nat.le_refl _))
  refine within_of_bytes (fun i hi hk _ => ?_) hal hwide
  · revert i
    cases size <;> decide

theorem IsFrame.within (h : IsFrame field pa)
    (hmask : ∀ i, i < 64 → 12 ≤ i → i < field → mask.getLsbD i = true) : Within mask pa :=
  within_of_aligned (k := 12) (by decide) hmask h.aligned h.fits

/-- **Presence, kind and access are read outside the mask.** -/
structure PageFormat.Outside (F : PageFormat) (mask : Word) : Prop where
  isPresent : ∀ {x}, Within mask x → ∀ c, F.isPresent (x ||| c) = F.isPresent c
  isBlock : ∀ {x}, Within mask x → ∀ c, F.isBlock (x ||| c) = F.isBlock c
  leafFlags : ∀ {x}, Within mask x → ∀ c, F.leafFlags (x ||| c) = F.leafFlags c

/-! ### aarch64 -/

namespace Aarch64

theorem outside : format.Outside addrMask where
  isPresent h c := h.test_or c (b := valid) (by decide)
  isBlock {x} h c := by
    show decide ((x ||| c) &&& tableOrPage = 0#64) = _
    rw [h.or_and c (by decide)]
    rfl
  leafFlags {x} h c := by
    have hslot : ((x ||| c) >>> 2) &&& 0b111#64 = (c >>> 2) &&& 0b111#64 := by
      have hx : Within (addrMask >>> 2) (x >>> 2) := by
        rw [Within, ← ushiftRight_and_distrib, h]
      rw [ushiftRight_or_distrib, hx.or_and _ (by decide)]
    show leafFlags _ = leafFlags _
    unfold leafFlags
    rw [h.or_and c (b := apRo) (by decide), h.or_and c (b := apUser) (by decide),
      h.or_and c (b := uxn) (by decide), h.or_and c (b := pxn) (by decide),
      h.or_and c (b := ng) (by decide), hslot]

/-- What a leaf says besides its address, at the bottom and above it. -/
theorem attrs_decode : ∀ flags ∈ Flags.constructors,
    leafFlags (attrs flags ||| tableOrPage ||| valid) = flags ∧
      leafFlags (attrs flags ||| valid) = flags ∧
      (attrs flags ||| tableOrPage ||| valid) &&& addrMask = 0#64 ∧
      (attrs flags ||| valid) &&& addrMask = 0#64 ∧
      format.isPresent (attrs flags ||| tableOrPage ||| valid) = true ∧
      format.isPresent (attrs flags ||| valid) = true ∧
      format.isBlock (attrs flags ||| valid) = true := by
  decide

theorem mask_bits : ∀ i, i < 64 → 12 ≤ i → i < 48 → addrMask.getLsbD i = true := by decide

theorem lawful : format.Lawful 48 id where
  three_le_levels := by decide
  split_le := by decide
  block_le_split := by decide
  address_bits := by decide
  absent_zero := by decide
  table pa hpa := by
    have hw := hpa.within mask_bits
    have heq : format.tableEntry pa = pa ||| (tableOrPage ||| valid) := by
      show (pa &&& addrMask) ||| tableOrPage ||| valid = _
      rw [hw, BitVec.or_assoc]
    rw [heq, outside.isPresent hw, outside.isBlock hw]
    exact ⟨by decide, by decide, hw.or_and_self (by decide)⟩
  leaf pa flags hpa hflags := by
    have hw := hpa.within mask_bits
    have heq : format.leafEntry pa flags = pa ||| (attrs flags ||| tableOrPage ||| valid) := by
      show (pa &&& addrMask) ||| attrs flags ||| tableOrPage ||| valid = _
      rw [hw, BitVec.or_assoc, BitVec.or_assoc, ← BitVec.or_assoc (attrs flags)]
    obtain ⟨hdec, -, hmask, -, hpres, -, -⟩ := attrs_decode flags hflags
    rw [heq, outside.isPresent hw, outside.leafFlags hw]
    exact ⟨hpres, hw.or_and_self hmask, hdec⟩
  block pa flags size e he hsize hfits hal hflags := by
    have hw := IsFrame.within ⟨hfits, isMultipleOf_pageSize hal⟩ mask_bits
    have heq : e = pa ||| (attrs flags ||| valid) := by
      cases size with
      | size4KiB => exact absurd rfl hsize
      | size2MiB | size1GiB =>
        have he := Option.some.inj he
        rw [← he, hw, and_not_bytes hal, BitVec.or_assoc]
    obtain ⟨-, hdec, -, hmask, -, hpres, hblock⟩ := attrs_decode flags hflags
    rw [heq, outside.isPresent hw, outside.isBlock hw, outside.leafFlags hw]
    exact ⟨hpres, hblock, hw.or_and_self hmask, hdec⟩

end Aarch64

/-! ### Sv39 -/

namespace Sv39

def ppnField : Word := ppnMask <<< ppnShift

theorem within_ppn (y : Word) : Within ppnField ((y &&& ppnMask) <<< ppnShift) := by
  rw [Within, ppnField, ← BitVec.shiftLeft_and_distrib, BitVec.and_assoc, BitVec.and_self]

theorem outside : format.Outside ppnField where
  isPresent h c := h.test_or c (b := v) (by decide)
  isBlock h c := h.test_or c (b := r ||| w ||| Sv39.x) (by decide)
  leafFlags {x} h c := by
    show leafFlags _ = leafFlags _
    unfold leafFlags
    rw [h.or_and c (b := w) (by decide), h.or_and c (b := u) (by decide),
      h.or_and c (b := Sv39.x) (by decide), h.or_and c (b := g) (by decide),
      h.or_and c (b := swDevice) (by decide)]

theorem entryPa_or (hpa : IsFrame 56 pa) (hc : c >>> ppnShift = 0#64) :
    format.entryPa ((((pa >>> 12) &&& ppnMask) <<< ppnShift) ||| c) = pa := by
  refine eq_of_getLsbD_eq fun i hi => ?_
  show ((((((pa >>> 12) &&& ppnMask) <<< ppnShift) ||| c) >>> ppnShift &&& ppnMask) <<< 12).getLsbD i
    = _
  have hclear : c.getLsbD (10 + (i - 12)) = false :=
    getLsbD_of_fitsIn (decide_eq_true hc) (Nat.le_add_right ..)
  simp only [getLsbD_shiftLeft, getLsbD_and, getLsbD_ushiftRight,
    getLsbD_or, ppnShift, hclear, Bool.or_false, Nat.add_sub_cancel_left]
  rcases Nat.lt_or_ge i 12 with hlow | hlow
  · -- the offset bits are shifted in as zeros
    have hbit := getLsbD_of_isMultipleOf (k := 12) hpa.aligned (by decide) hlow
    simp [hlow, hbit]
  · rw [Nat.add_sub_cancel' hlow]
    rcases Nat.lt_or_ge i 56 with hhigh | hhigh
    · have hmask : ∀ j, j < 44 → ppnMask.getLsbD j = true := by decide
      have hj : 10 + (i - 12) < 64 := by omega
      simp [hi, Nat.not_lt.mpr hlow, hmask (i - 12) (by omega), hj]
    · rw [getLsbD_of_fitsIn hpa.fits hhigh]
      simp

theorem attrs_decode : ∀ flags ∈ Flags.constructors,
    leafFlags (v ||| attrs flags) = flags ∧ (v ||| attrs flags) >>> ppnShift = 0#64 ∧
      format.isPresent (v ||| attrs flags) = true ∧ format.isBlock (v ||| attrs flags) = true := by
  decide

theorem leaf_decode {flags : Flags} (hpa : IsFrame 56 pa) (hflags : flags ∈ Flags.constructors) :
    format.isPresent (leafEntry pa flags) = true ∧ format.isBlock (leafEntry pa flags) = true ∧
      format.entryPa (leafEntry pa flags) = pa ∧ leafFlags (leafEntry pa flags) = flags := by
  have hw := within_ppn (pa >>> 12)
  obtain ⟨hdec, hshift, hpres, hblock⟩ := attrs_decode flags hflags
  rw [leafEntry, BitVec.or_assoc]
  rw [outside.isPresent hw, outside.isBlock hw, entryPa_or hpa hshift]
  exact ⟨hpres, hblock, rfl, (outside.leafFlags hw _).trans hdec⟩

theorem lawful : format.Lawful 56 id where
  three_le_levels := by decide
  split_le := by decide
  block_le_split := by decide
  address_bits := by decide
  absent_zero := by decide
  table pa hpa := by
    have hw := within_ppn (pa >>> 12)
    exact ⟨(outside.isPresent hw _).trans (by decide), (outside.isBlock hw _).trans (by decide),
      entryPa_or hpa (by decide)⟩
  leaf pa flags hpa hflags := by
    obtain ⟨hpres, -, hentry, hdec⟩ := leaf_decode hpa hflags
    exact ⟨hpres, hentry, hdec⟩
  block pa flags size e he _ hfits hal hflags := by
    have he := Option.some.inj he
    rw [← he, and_not_bytes hal]
    exact leaf_decode ⟨hfits, isMultipleOf_pageSize hal⟩ hflags

end Sv39

/-! ### x86-64 -/

namespace Ia32e

theorem outside : format.Outside addrMask where
  isPresent h c := h.test_or c (b := p) (by decide)
  isBlock h c := h.test_or c (b := ps) (by decide)
  leafFlags {x} h c := by
    show leafFlags _ = leafFlags _
    unfold leafFlags
    rw [h.or_and c (b := rw) (by decide), h.or_and c (b := us) (by decide),
      h.or_and c (b := xd) (by decide), h.or_and c (b := swKernelExec) (by decide),
      h.or_and c (b := g) (by decide), h.or_and c (b := swDevice) (by decide)]

theorem attrs_decode : ∀ flags ∈ Flags.constructors,
    leafFlags (p ||| attrs flags) = flags ∧ leafFlags (p ||| ps ||| attrs flags) = flags ∧
      (p ||| attrs flags) &&& addrMask = 0#64 ∧ (p ||| ps ||| attrs flags) &&& addrMask = 0#64 ∧
      format.isPresent (p ||| attrs flags) = true ∧
      format.isPresent (p ||| ps ||| attrs flags) = true ∧
      format.isBlock (p ||| ps ||| attrs flags) = true := by
  decide

theorem mask_bits : ∀ i, i < 64 → 12 ≤ i → i < 52 → addrMask.getLsbD i = true := by decide

theorem lawful : format.Lawful 52 id where
  three_le_levels := by decide
  split_le := by decide
  block_le_split := by decide
  address_bits := by decide
  absent_zero := by decide
  table pa hpa := by
    have hw := hpa.within mask_bits
    have heq : format.tableEntry pa = pa ||| (p ||| rw ||| us) := by
      show (pa &&& addrMask) ||| p ||| rw ||| us = _
      rw [hw, BitVec.or_assoc, BitVec.or_assoc, ← BitVec.or_assoc p]
    rw [heq, outside.isPresent hw, outside.isBlock hw]
    exact ⟨by decide, by decide, hw.or_and_self (by decide)⟩
  leaf pa flags hpa hflags := by
    have hw := hpa.within mask_bits
    have heq : format.leafEntry pa flags = pa ||| (p ||| attrs flags) := by
      show (pa &&& addrMask) ||| p ||| attrs flags = _
      rw [hw, BitVec.or_assoc]
    obtain ⟨hdec, -, hmask, -, hpres, -, -⟩ := attrs_decode flags hflags
    rw [heq, outside.isPresent hw, outside.leafFlags hw]
    exact ⟨hpres, hw.or_and_self hmask, hdec⟩
  block pa flags size e he hsize hfits hal hflags := by
    have hw := IsFrame.within ⟨hfits, isMultipleOf_pageSize hal⟩ mask_bits
    have heq : e = pa ||| (p ||| ps ||| attrs flags) := by
      cases size with
      | size4KiB => exact absurd rfl hsize
      | size2MiB | size1GiB =>
        have he := Option.some.inj he
        rw [← he, hw, and_not_bytes hal, BitVec.or_assoc, BitVec.or_assoc, ← or_assoc p]
    obtain ⟨-, hdec, -, hmask, -, hpres, hblock⟩ := attrs_decode flags hflags
    rw [heq, outside.isPresent hw, outside.isBlock hw, outside.leafFlags hw]
    exact ⟨hpres, hblock, hw.or_and_self hmask, hdec⟩

end Ia32e

/-! ### VT-d -/

namespace Vtd

/-- All that a second-level leaf shows is whether it may be written. -/
def shown (flags : Flags) : Flags := ⟨setIf flags.isWritable capWrite⟩

theorem outside : format.Outside addrMask where
  isPresent h c := h.test_or c (b := r ||| w) (by decide)
  isBlock h c := h.test_or c (b := 1#64 <<< 7) (by decide)
  leafFlags {x} h c := by
    show Flags.mk (setIf (decide ((x ||| c) &&& w ≠ 0#64)) capWrite) = _
    rw [h.or_and c (by decide)]
    rfl

theorem attrs_decode : ∀ flags ∈ Flags.constructors,
    format.leafFlags (r ||| setIf flags.isWritable w) = shown flags ∧
      (r ||| setIf flags.isWritable w) &&& addrMask = 0#64 ∧
      format.isPresent (r ||| setIf flags.isWritable w) = true := by
  decide

theorem mask_bits : ∀ i, i < 64 → 12 ≤ i → i < 52 → addrMask.getLsbD i = true := by decide

theorem lawful : format.Lawful 52 shown where
  three_le_levels := by decide
  split_le := by decide
  block_le_split := by decide
  address_bits := by decide
  absent_zero := by decide
  table pa hpa := by
    have hw := hpa.within mask_bits
    have heq : format.tableEntry pa = pa ||| (r ||| w) := by
      show (pa &&& addrMask) ||| r ||| w = _
      rw [hw, BitVec.or_assoc]
    rw [heq, outside.isPresent hw, outside.isBlock hw]
    exact ⟨by decide, by decide, hw.or_and_self (by decide)⟩
  leaf pa flags hpa hflags := by
    have hw := hpa.within mask_bits
    have heq : format.leafEntry pa flags = pa ||| (r ||| setIf flags.isWritable w) := by
      show (pa &&& addrMask) ||| (r ||| setIf flags.isWritable w) = _
      rw [hw]
    obtain ⟨hdec, hmask, hpres⟩ := attrs_decode flags hflags
    rw [heq, outside.isPresent hw, outside.leafFlags hw]
    exact ⟨hpres, hw.or_and_self hmask, hdec⟩
  block pa flags size e he hsize := by
    cases size with
    | size4KiB => exact absurd rfl hsize
    | size2MiB | size1GiB => cases he

end Vtd

end Nife.Paging
