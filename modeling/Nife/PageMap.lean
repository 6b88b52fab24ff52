/-
The mapper is a finite map of pages.  Beside the mapper stands the list of what was mapped and
not unmapped since: pages and blocks, each with its physical address and its access.  In any run
of `map`, `map_block` and `unmap` from a zeroed root, on every format of a CPU and in either
half, `translate` answers for an address what the one entry of the list that contains it says,
and nothing if none does (`mapper_is_page_map`).  A call that fails changes no translation, even
if it has created tables on its way.

An address lies in a page or a block exactly when their indices agree down to its level; that is
what connects the list to the slots of the tree.
-/
import Mathlib.Data.List.Nodup
import Nife.Lib.Digits
import Nife.PageWalk

namespace Nife.Paging

open List PageFormat

open Digits (digit)

/-! ### Addresses and their indices -/

theorem index_eq (F : PageFormat) (va : Word) (level : Nat) :
    F.index va level = va.toNat / 2 ^ (12 + 9 * (F.levels - 1 - level)) % 512 := by
  have hmask : (0x1ff#64).toNat = 2 ^ 9 - 1 := rfl
  rw [index, BitVec.toNat_and, hmask, Nat.and_two_pow_sub_one_eq_mod,
    BitVec.toNat_ushiftRight, Nat.shiftRight_eq_div_pow, Nat.add_comm 12]

theorem index_eq_digit (F : PageFormat) (va : Word) {level k : Nat} (hk : level + k ≤ F.levels - 1) :
    F.index va level = digit 512 (F.levels - 1 - k - level) (va.toNat / 2 ^ (12 + 9 * k)) := by
  have hpow : (512 : Nat) = 2 ^ 9 := rfl
  have hexp : 12 + 9 * (F.levels - 1 - level) = 12 + 9 * k + 9 * (F.levels - 1 - k - level) := by
    omega
  rw [index_eq, digit, hexp, Nat.pow_add 2 (12 + 9 * k), ← Nat.div_div_eq_div_mul, hpow,
    ← Nat.pow_mul]

variable {e a v : Word} {F : PageFormat} {half : Half} {shown : Flags → Flags} {g : Mapping}
  {s : AddressSpace}

theorem top_eq {n : Nat}
    (hn : F.splitShift ≤ n) (ha : F.isInHalf half a = true) (hv : F.isInHalf half v = true) :
    a.toNat / 2 ^ n = v.toNat / 2 ^ n := by
  have hshift : a >>> F.splitShift = v >>> F.splitShift := by
    cases half with
    | low | high => exact (of_decide_eq_true ha).trans (of_decide_eq_true hv).symm
  have hnat := congrArg BitVec.toNat hshift
  rw [BitVec.toNat_ushiftRight, BitVec.toNat_ushiftRight, Nat.shiftRight_eq_div_pow,
    Nat.shiftRight_eq_div_pow] at hnat
  obtain ⟨k, rfl⟩ := Nat.exists_eq_add_of_le hn
  rw [Nat.pow_add, ← Nat.div_div_eq_div_mul, ← Nat.div_div_eq_div_mul, hnat]

theorem isInHalf_congr (h : a.toNat / 2 ^ F.splitShift = v.toNat / 2 ^ F.splitShift) :
    F.isInHalf half a = F.isInHalf half v := by
  have hshift : a >>> F.splitShift = v >>> F.splitShift := by
    apply BitVec.eq_of_toNat_eq
    rw [BitVec.toNat_ushiftRight, BitVec.toNat_ushiftRight, Nat.shiftRight_eq_div_pow,
      Nat.shiftRight_eq_div_pow, h]
  cases half with
  | low | high => rw [isInHalf, isInHalf, hshift]

/-- **Addresses whose indices agree down to a level lie in one leaf of that level.** -/
theorem path_eq_iff {k : Nat} (hk : k ≤ F.levels - 1)
    (hlevels : 0 < F.levels) (hsplit : F.splitShift ≤ 12 + 9 * F.levels)
    (ha : F.isInHalf half a = true) (hv : F.isInHalf half v = true) :
    F.path a (F.levels - k) = F.path v (F.levels - k) ↔
      a.toNat / 2 ^ (12 + 9 * k) = v.toNat / 2 ^ (12 + 9 * k) := by
  have hpath : F.path a (F.levels - k) = F.path v (F.levels - k) ↔
      ∀ l, l < F.levels - k → F.index a l = F.index v l := by
    rw [path, path, map_inj_left]
    exact forall_congr' fun l => by rw [mem_range]
  rw [hpath]
  constructor
  · intro hidx
    refine Digits.eq_of_digits (b := 512) (n := F.levels - k) ?_ fun j hj => ?_
    · have htop := top_eq hsplit ha hv
      have hexp : 12 + 9 * F.levels = 12 + 9 * k + 9 * (F.levels - k) := by omega
      have hpow : (512 : Nat) = 2 ^ 9 := rfl
      rwa [hexp, Nat.pow_add, ← Nat.div_div_eq_div_mul, ← Nat.div_div_eq_div_mul, Nat.pow_mul,
        ← hpow] at htop
    · -- digit `j` is the index at the level that many above the leaf
      have hl := hidx (F.levels - 1 - k - j) (by omega)
      have hlevel : F.levels - 1 - k - (F.levels - 1 - k - j) = j := by omega
      rwa [index_eq_digit F a (k := k) (by omega), index_eq_digit F v (k := k) (by omega),
        hlevel] at hl
  · intro heq l hl
    rw [index_eq_digit F a (k := k) (by omega), index_eq_digit F v (k := k) (by omega), heq]

/-! ### Mappings -/

/-- One mapping. -/
structure Mapping where
  (va pa : Word)
  size : PageSize
  flags : Flags
  deriving DecidableEq, Repr

namespace Mapping

def contains (g : Mapping) (va : Word) : Bool :=
  decide (g.va.toNat ≤ va.toNat) && decide (va.toNat < g.va.toNat + g.size.bytes.toNat)

section

variable (F : PageFormat)

/-- The level of its leaf. -/
def level (g : Mapping) : Nat := F.levels - 1 - g.size.levelsAboveBottom

/-- The slot of its leaf. -/
def slot (g : Mapping) : List Nat × Nat :=
  (F.path g.va (g.level F), F.index g.va (g.level F))

/-- Its leaf. -/
def entry (g : Mapping) : Option Word :=
  if g.size = .size4KiB then some (F.leafEntry g.pa g.flags) else F.blockEntry g.pa g.flags g.size

end

/-- What a successful `map` or `map_block` has checked, and what its caller keeps to. -/
structure Ok (F : PageFormat) (half : Half) (field : Nat) (g : Mapping) : Prop where
  half : F.isInHalf half g.va = true
  va : isMultipleOf g.va g.size.bytes = true
  pa : isMultipleOf g.pa g.size.bytes = true
  fits : fitsIn g.pa field = true
  flags : g.flags ∈ Flags.constructors
  entry : (g.entry F).isSome = true

variable {F : PageFormat} {half : Half} {field : Nat} {shown : Flags → Flags} {g : Mapping}
  {va : Word}

theorem bytes_toNat (s : PageSize) : s.bytes.toNat = 2 ^ (12 + 9 * s.levelsAboveBottom) := by
  cases s <;> rfl

theorem contains_iff_div (hal : isMultipleOf g.va g.size.bytes = true) : g.contains va = true ↔
      g.va.toNat / 2 ^ (12 + 9 * g.size.levelsAboveBottom)
        = va.toNat / 2 ^ (12 + 9 * g.size.levelsAboveBottom) := by
  rw [isMultipleOf_iff] at hal
  rw [contains, Bool.and_eq_true, decide_eq_true_eq, decide_eq_true_eq]
  cases hs : g.size with
  | size4KiB =>
    rw [hs] at hal
    change g.va.toNat % 4096 = 0 at hal
    change (_ ∧ va.toNat < g.va.toNat + 4096) ↔ g.va.toNat / 4096 = va.toNat / 4096
    omega
  | size2MiB =>
    rw [hs] at hal
    change g.va.toNat % 2097152 = 0 at hal
    change (_ ∧ va.toNat < g.va.toNat + 2097152) ↔ g.va.toNat / 2097152 = va.toNat / 2097152
    omega
  | size1GiB =>
    rw [hs] at hal
    change g.va.toNat % 1073741824 = 0 at hal
    change (_ ∧ va.toNat < g.va.toNat + 1073741824) ↔
      g.va.toNat / 1073741824 = va.toNat / 1073741824
    omega

theorem level_le (F : PageFormat) (g : Mapping) : g.level F ≤ F.levels - 1 := Nat.sub_le _ _

theorem levelsAboveBottom_le (s : PageSize) : s.levelsAboveBottom ≤ 2 := by
  cases s <;> decide

section

variable (hF : F.Lawful field shown)
include hF

theorem level_succ (g : Mapping) : g.level F + 1 = F.levels - g.size.levelsAboveBottom := by
  have hthree := hF.three_le_levels
  have htwo := levelsAboveBottom_le g.size
  unfold level
  omega

section

variable (hg : g.Ok F half field)
include hg

/-- **An address lies in a mapping exactly when the mapping's slot is on its path.** -/
theorem contains_iff (hva : F.isInHalf half va = true) :
    g.contains va = true ↔ g.slot F = (F.path va (g.level F), F.index va (g.level F)) := by
  have hthree := hF.three_le_levels
  have htwo := levelsAboveBottom_le g.size
  rw [contains_iff_div hg.va, ← path_eq_iff (by omega) (by omega) hF.split_le hg.half hva,
    ← level_succ hF, path_succ, path_succ, slot, Prod.mk.injEq,
    append_singleton_inj]

theorem half_of_contains (h : g.contains va = true) : F.isInHalf half va = true := by
  have hdiv := (contains_iff_div hg.va).mp h
  have hle : 12 + 9 * g.size.levelsAboveBottom ≤ F.splitShift := by
    have htwo := levelsAboveBottom_le g.size
    have hsplit := hF.block_le_split
    omega
  obtain ⟨k, hk⟩ := Nat.exists_eq_add_of_le hle
  rw [← hg.half]
  refine isInHalf_congr ?_
  rw [hk, Nat.pow_add, ← Nat.div_div_eq_div_mul, ← Nat.div_div_eq_div_mul, hdiv]

theorem Ok.decode (he : g.entry F = some e) :
    F.stop (g.level F) e = true ∧ F.entryPa e = g.pa ∧ F.leafFlags e = shown g.flags := by
  unfold Mapping.entry at he
  split at he
  · next hsize =>
    cases he
    obtain ⟨hpres, hpa, hflags⟩ := hF.leaf g.pa g.flags
      ⟨hg.fits, isMultipleOf_pageSize hg.pa⟩ hg.flags
    refine ⟨?_, hpa, hflags⟩
    rw [stop, hpres, level, hsize]
    simp [PageSize.levelsAboveBottom]
  · next hsize =>
    obtain ⟨hpres, hblock, hpa, hflags⟩ :=
      hF.block g.pa g.flags g.size e he hsize hg.fits hg.pa hg.flags
    refine ⟨?_, hpa, hflags⟩
    rw [stop, hpres, hblock]
    simp

end

end

theorem offset_toNat (hal : isMultipleOf g.va g.size.bytes = true) (h : g.contains va = true) :
    (va - g.va).toNat = va.toNat % g.size.bytes.toNat := by
  rw [isMultipleOf_iff] at hal
  rw [contains, Bool.and_eq_true, decide_eq_true_eq, decide_eq_true_eq] at h
  rw [BitVec.toNat_sub_of_le (BitVec.le_def.mpr h.1)]
  obtain ⟨q, hq⟩ := Nat.dvd_of_mod_eq_zero hal
  have hrem : va.toNat = (va.toNat - g.va.toNat) + g.size.bytes.toNat * q := by omega
  rw [hrem, Nat.add_mul_mod_self_left, Nat.mod_eq_of_lt (by omega)]
  omega

end Mapping

/-- **`translate` adds the offset.** -/
theorem Mapper.shows_eq {m : Mapper} {field : Nat} {va : Word}
    (hF : m.format.Lawful field shown) (hg : g.Ok m.format m.half field)
    (he : g.entry m.format = some e) (h : g.contains va = true) :
    m.shows va (g.level m.format) e = (g.pa + (va - g.va), shown g.flags) := by
  obtain ⟨-, hpa, hflags⟩ := hg.decode hF he
  have hthree := hF.three_le_levels
  have hoff := Mapping.offset_toNat hg.va h
  rw [Mapper.shows, hpa, hflags]
  split
  · next hlevel =>
    have hsize : g.size = .size4KiB := by
      unfold Mapping.level at hlevel
      cases hs : g.size with
      | size4KiB => rfl
      | size2MiB | size1GiB =>
        rw [hs] at hlevel
        simp only [PageSize.levelsAboveBottom] at hlevel
        omega
    have heq : va % pageSize = va - g.va := by
      apply BitVec.eq_of_toNat_eq
      rw [hoff, hsize]
      rfl
    rw [heq]
  · next hlevel =>
    have hspan : pageSize <<< (9 * (m.format.levels - 1 - g.level m.format)) = g.size.bytes := by
      have htwo := Mapping.levelsAboveBottom_le g.size
      have hk : m.format.levels - 1 - g.level m.format = g.size.levelsAboveBottom := by
        unfold Mapping.level
        omega
      rw [hk, PageSize.bytes]
    have heq : va &&& (g.size.bytes - 1) = va - g.va := by
      apply BitVec.eq_of_toNat_eq
      have hmask : (g.size.bytes - 1).toNat = 2 ^ (12 + 9 * g.size.levelsAboveBottom) - 1 := by
        cases g.size <;> rfl
      rw [hoff, BitVec.toNat_and, hmask, Nat.and_two_pow_sub_one_eq_mod, Mapping.bytes_toNat]
    dsimp only
    rw [hspan, and_not_bytes hg.pa, heq]

/-! ### One call -/

/-- What `map` and `map_block` do for the mapping `g`: on success its slot, which was free, holds
its leaf; on failure no leaf has changed. -/
structure Mapped (field : Nat) (m : Mapper) (g : Mapping) (r : Except MapError Unit × Mapper) :
    Prop where
  sound : r.2.Sound field
  ok : r.1 = .ok () → g.Ok m.format m.half field ∧ ∃ e, g.entry m.format = some e ∧
    m.leaf (g.slot m.format).1 (g.slot m.format).2 = none ∧
    m.Changed r.2 (g.slot m.format).1 (g.slot m.format).2 (some e)
  failed : ∀ err, r.1 = .error err → m.Kept r.2

section Calls

variable {m : Mapper} {field : Nat} {shown : Flags → Flags}

section

variable (h : m.Sound field)
include h

theorem mapped_of_error (g : Mapping) (err : MapError) : Mapped field m g (.error err, m) :=
  ⟨h, nofun, fun _ _ => .refl m⟩

section

variable (hF : m.format.Lawful field shown) {flags : Flags}
include hF

theorem mapped_of_install (hg : g.Ok m.format m.half field) (he : g.entry m.format = some e) :
    Mapped field m g (m.install g.va (g.level m.format) e) := by
  obtain ⟨hsound, hok, herr⟩ := Mapper.install_spec g.va h hF
    (Mapping.level_le m.format g) (hg.decode hF he).1
  exact ⟨hsound, fun hr => ⟨hg, e, he, hok hr⟩, herr⟩

theorem map_spec (va : Word) {pa : Word} (hpa : fitsIn pa field = true) (hflags : flags ∈ Flags.constructors) :
    Mapped field m ⟨va, pa, .size4KiB, flags⟩ (m.map va pa flags) := by
  unfold Mapper.map
  split
  · exact mapped_of_error h _ _
  · next hhalf =>
    split
    · exact mapped_of_error h _ _
    · next hal =>
      simp only [Bool.or_eq_true, Bool.not_eq_true', not_or, Bool.not_eq_false] at hal
      exact mapped_of_install (g := ⟨va, pa, .size4KiB, flags⟩) h hF
        ⟨by simpa using hhalf, hal.1, hal.2, hpa, hflags, rfl⟩ rfl

theorem mapBlock_spec {va pa : Word} {size : PageSize} (hpa : fitsIn pa field = true)
    (hflags : flags ∈ Flags.constructors) :
    Mapped field m ⟨va, pa, size, flags⟩ (m.mapBlock va pa size flags) := by
  unfold Mapper.mapBlock
  split
  · next hsize =>
    rw [hsize]
    exact map_spec h hF va hpa hflags
  · next hsize =>
    split
    · exact mapped_of_error h _ _
    · next hhalf =>
      split
      · exact mapped_of_error h _ _
      · next hal =>
        simp only [Bool.or_eq_true, Bool.not_eq_true', not_or, Bool.not_eq_false] at hal
        split
        · exact mapped_of_error h _ _
        · next leaf hleaf =>
          have he : Mapping.entry m.format ⟨va, pa, size, flags⟩ = some leaf :=
            (if_neg hsize).trans hleaf
          exact mapped_of_install (g := ⟨va, pa, size, flags⟩) h hF
            ⟨by simpa using hhalf, hal.1, hal.2, hpa, hflags, by rw [he]; rfl⟩ he

end

end

end Calls

/-! ### Runs -/

/-- The calls of a mapper. -/
inductive Call
  | map (va pa : Word) (flags : Flags)
  | mapBlock (va pa : Word) (size : PageSize) (flags : Flags)
  | unmap (va : Word)
  deriving DecidableEq, Repr

/-- A mapper and what is mapped: every mapping made and not unmapped since, newest first. -/
structure AddressSpace where
  mapper : Mapper
  live : List Mapping

namespace Call

def run (m : Mapper) : Call → Except MapError Unit × Mapper
  | .map va pa flags => m.map va pa flags
  | .mapBlock va pa size flags => m.mapBlock va pa size flags
  | .unmap va => ((m.unmap va).1.map fun _ => (), (m.unmap va).2)

/-- What a successful call makes of what was mapped. -/
def record (live : List Mapping) : Call → List Mapping
  | .map va pa flags => ⟨va, pa, .size4KiB, flags⟩ :: live
  | .mapBlock va pa size flags => ⟨va, pa, size, flags⟩ :: live
  | .unmap va => live.filter fun g => !g.contains va

/-- The caller's side: a physical address within the field, and flags from a constructor. -/
def Ok (field : Nat) : Call → Prop
  | .map _ pa flags => fitsIn pa field = true ∧ flags ∈ Flags.constructors
  | .mapBlock _ pa _ flags => fitsIn pa field = true ∧ flags ∈ Flags.constructors
  | .unmap _ => True

end Call

namespace AddressSpace

def apply (s : AddressSpace) (c : Call) : AddressSpace :=
  match c.run s.mapper with
  | (.ok _, m) => ⟨m, c.record s.live⟩
  | (.error _, m) => ⟨m, s.live⟩

/-- **The invariant**: the leaves of the tree are those of the mappings, each in a slot of its
own. -/
structure Tracks (s : AddressSpace) (field : Nat) : Prop where
  sound : s.mapper.Sound field
  ok : ∀ g ∈ s.live, g.Ok s.mapper.format s.mapper.half field
  leaf_iff : ∀ p i e, p.length ≤ s.mapper.format.levels - 1 →
    (s.mapper.leaf p i = some e ↔
      ∃ g ∈ s.live, g.slot s.mapper.format = (p, i) ∧ g.entry s.mapper.format = some e)
  distinct : (s.live.map (Mapping.slot s.mapper.format)).Nodup

variable {s : AddressSpace} {m' : Mapper} {field : Nat} {shown : Flags → Flags} {g : Mapping}
  {va : Word}

theorem length_slot (F : PageFormat) (g : Mapping) : (g.slot F).1.length ≤ F.levels - 1 := by
  rw [Mapping.slot, length_path]
  exact Mapping.level_le F g

variable (h : s.Tracks field)
include h

theorem Tracks.leaf_of_mem (hg : g ∈ s.live) : ∃ e, g.entry s.mapper.format = some e ∧
      s.mapper.leaf (g.slot s.mapper.format).1 (g.slot s.mapper.format).2 = some e := by
  obtain ⟨e, he⟩ := Option.isSome_iff_exists.mp (h.ok g hg).entry
  exact ⟨e, he, (h.leaf_iff _ _ e (length_slot _ g)).mpr ⟨g, hg, rfl, he⟩⟩

theorem Tracks.kept (hsound : m'.Sound field) (hk : s.mapper.Kept m') :
    Tracks ⟨m', s.live⟩ field := by
  refine ⟨hsound, fun g hg => ?_, fun p i e hp => ?_, ?_⟩
  · show g.Ok m'.format m'.half field
    rw [hk.format, hk.half]
    exact h.ok g hg
  · show m'.leaf p i = some e ↔ ∃ g ∈ s.live, g.slot m'.format = (p, i) ∧ g.entry m'.format = some e
    have hp : p.length ≤ s.mapper.format.levels - 1 := hk.format ▸ hp
    rw [hk.leaf p i hp, hk.format]
    exact h.leaf_iff p i e hp
  · show (s.live.map (Mapping.slot m'.format)).Nodup
    rw [hk.format]
    exact h.distinct

/-- **A mapping is added**, in a slot that was free. -/
theorem Tracks.mapped (hsound : m'.Sound field) (hg : g.Ok s.mapper.format s.mapper.half field)
    (he : g.entry s.mapper.format = some e)
    (hfree : s.mapper.leaf (g.slot s.mapper.format).1 (g.slot s.mapper.format).2 = none)
    (hc : s.mapper.Changed m' (g.slot s.mapper.format).1 (g.slot s.mapper.format).2 (some e)) :
    Tracks ⟨m', g :: s.live⟩ field := by
  have hother : ∀ g' ∈ s.live, g.slot s.mapper.format ≠ g'.slot s.mapper.format := by
    intro g' hg' heq
    obtain ⟨e', -, hleaf⟩ := h.leaf_of_mem hg'
    rw [← heq, hfree] at hleaf
    cases hleaf
  refine ⟨hsound, fun g' hg' => ?_, fun p i e' hp => ?_, ?_⟩
  · show g'.Ok m'.format m'.half field
    rw [hc.format, hc.half]
    rcases mem_cons.mp hg' with rfl | hg'
    · exact hg
    · exact h.ok g' hg'
  · show m'.leaf p i = some e' ↔
      ∃ g' ∈ g :: s.live, g'.slot m'.format = (p, i) ∧ g'.entry m'.format = some e'
    have hp : p.length ≤ s.mapper.format.levels - 1 := hc.format ▸ hp
    rw [hc.leaf p i hp, hc.format]
    split
    · next hslot =>
      -- the new slot: no other mapping is in it
      have hslot : g.slot s.mapper.format = (p, i) := by rw [hslot.1, hslot.2]
      rw [Option.some.injEq]
      constructor
      · rintro rfl
        exact ⟨g, mem_cons_self, hslot, he⟩
      · rintro ⟨g', hg', hslot', he'⟩
        rcases mem_cons.mp hg' with rfl | hg'
        · exact Option.some.inj (he.symm.trans he')
        · exact absurd (hslot.trans hslot'.symm) (hother g' hg')
    · next hslot =>
      rw [h.leaf_iff p i e' hp]
      constructor
      · rintro ⟨g', hg', hrest⟩
        exact ⟨g', mem_cons_of_mem _ hg', hrest⟩
      · rintro ⟨g', hg', hslot', he'⟩
        rcases mem_cons.mp hg' with rfl | hg'
        · exact absurd ⟨(congrArg Prod.fst hslot').symm, (congrArg Prod.snd hslot').symm⟩ hslot
        · exact ⟨g', hg', hslot', he'⟩
  · show ((g :: s.live).map (Mapping.slot m'.format)).Nodup
    rw [hc.format]
    refine nodup_cons.mpr ⟨fun hmem => ?_, h.distinct⟩
    obtain ⟨g', hg', heq⟩ := mem_map.mp hmem
    exact hother g' hg' heq.symm

section

variable (hF : s.mapper.format.Lawful field shown) {g' : Mapping}
include hF

/-- **What `translate` finds is the mapping that contains the address.** -/
theorem Tracks.translate {r : Word × Flags} : s.mapper.translate va = some r ↔
      ∃ g ∈ s.live, g.contains va = true ∧ r = (g.pa + (va - g.va), shown g.flags) := by
  rw [Mapper.translate_eq_some]
  constructor
  · rintro ⟨hhalf, d, e, hd, hleaf, rfl⟩
    obtain ⟨g, hg, hslot, he⟩ := (h.leaf_iff _ _ e (by simpa using hd)).mp hleaf
    -- the slot says at which level the mapping lies
    obtain rfl : g.level s.mapper.format = d := by
      have hlen := congrArg (fun x => x.1.length) hslot
      simpa [Mapping.slot] using hlen
    have hin := (Mapping.contains_iff hF (h.ok g hg) hhalf).mpr hslot
    exact ⟨g, hg, hin, Mapper.shows_eq hF (h.ok g hg) he hin⟩
  · rintro ⟨g, hg, hin, rfl⟩
    obtain ⟨e, he, hleaf⟩ := h.leaf_of_mem hg
    have hhalf := Mapping.half_of_contains hF (h.ok g hg) hin
    have hslot := (Mapping.contains_iff hF (h.ok g hg) hhalf).mp hin
    rw [hslot] at hleaf
    exact ⟨hhalf, g.level s.mapper.format, e, Mapping.level_le _ g, hleaf,
      (Mapper.shows_eq hF (h.ok g hg) he hin).symm⟩

theorem Tracks.slot_eq (hg : g ∈ s.live) (hg' : g' ∈ s.live) (hin : g.contains va = true)
    (hin' : g'.contains va = true) : g.slot s.mapper.format = g'.slot s.mapper.format := by
  have hhalf := Mapping.half_of_contains hF (h.ok g hg) hin
  have hslot := (Mapping.contains_iff hF (h.ok g hg) hhalf).mp hin
  have hslot' := (Mapping.contains_iff hF (h.ok g' hg') hhalf).mp hin'
  obtain ⟨e, -, hleaf⟩ := h.leaf_of_mem hg
  obtain ⟨e', -, hleaf'⟩ := h.leaf_of_mem hg'
  rw [hslot] at hleaf
  rw [hslot'] at hleaf'
  have hlevel := Mapper.leaf_unique (Mapping.level_le _ g) (Mapping.level_le _ g') hleaf hleaf'
  rw [hslot, hslot', hlevel]

theorem Tracks.unique (hg : g ∈ s.live) (hg' : g' ∈ s.live) (hin : g.contains va = true)
    (hin' : g'.contains va = true) : g = g' :=
  inj_on_of_nodup_map h.distinct hg hg' (h.slot_eq hF hg hg' hin hin')

theorem Tracks.unmapped
    (hsound : m'.Sound field) (hhalf : s.mapper.format.isInHalf s.mapper.half va = true)
    (hleaf : s.mapper.leaf (s.mapper.format.path va (s.mapper.format.levels - 1))
      (s.mapper.format.index va (s.mapper.format.levels - 1)) = some e)
    (hc : s.mapper.Changed m' (s.mapper.format.path va (s.mapper.format.levels - 1))
      (s.mapper.format.index va (s.mapper.format.levels - 1)) none) :
    Tracks ⟨m', s.live.filter fun g => !g.contains va⟩ field := by
  -- a mapping contains the page exactly when it is the one in the page's slot
  have hslot : ∀ g ∈ s.live, g.contains va = true ↔ g.slot s.mapper.format
      = (s.mapper.format.path va (s.mapper.format.levels - 1),
        s.mapper.format.index va (s.mapper.format.levels - 1)) := by
    intro g hg
    constructor
    · intro hin
      have heq := (Mapping.contains_iff hF (h.ok g hg) hhalf).mp hin
      obtain ⟨e', -, hleaf'⟩ := h.leaf_of_mem hg
      rw [heq] at hleaf'
      have hlevel := Mapper.leaf_unique (Mapping.level_le _ g) (le_refl _) hleaf' hleaf
      rw [heq, hlevel]
    · intro heq
      have hlevel : g.level s.mapper.format = s.mapper.format.levels - 1 := by
        have hlen := congrArg (fun x => x.1.length) heq
        simpa [Mapping.slot] using hlen
      refine (Mapping.contains_iff hF (h.ok g hg) hhalf).mpr ?_
      rw [heq, hlevel]
  refine ⟨hsound, fun g hg => ?_, fun p i e' hp => ?_, ?_⟩
  · show g.Ok m'.format m'.half field
    rw [hc.format, hc.half]
    exact h.ok g ((mem_filter.mp hg).1)
  · show m'.leaf p i = some e' ↔ ∃ g ∈ s.live.filter fun g => !g.contains va,
      g.slot m'.format = (p, i) ∧ g.entry m'.format = some e'
    have hp : p.length ≤ s.mapper.format.levels - 1 := hc.format ▸ hp
    rw [hc.leaf p i hp, hc.format]
    split
    · next hpi =>
      refine iff_of_false (by simp) ?_
      rintro ⟨g, hg, hs, -⟩
      obtain ⟨hg, hnot⟩ := mem_filter.mp hg
      rw [(hslot g hg).mpr (by rw [hs, hpi.1, hpi.2])] at hnot
      cases hnot
    · next hpi =>
      rw [h.leaf_iff p i e' hp]
      constructor
      · rintro ⟨g, hg, hs, he⟩
        refine ⟨g, mem_filter.mpr ⟨hg, ?_⟩, hs, he⟩
        rw [Bool.not_eq_true', ← Bool.not_eq_true]
        intro hin
        have heq := ((hslot g hg).mp hin).symm.trans hs
        exact hpi ⟨(congrArg Prod.fst heq).symm, (congrArg Prod.snd heq).symm⟩
      · rintro ⟨g, hg, hrest⟩
        exact ⟨g, (mem_filter.mp hg).1, hrest⟩
  · show ((s.live.filter _).map (Mapping.slot m'.format)).Nodup
    rw [hc.format]
    exact (filter_sublist.map _).nodup h.distinct

/-- **Every call keeps the invariant**, and one that fails changes no leaf. -/
theorem Tracks.run {c : Call} (hc : c.Ok field) : (s.apply c).Tracks field ∧
      (s.apply c).mapper.format = s.mapper.format ∧ (s.apply c).mapper.half = s.mapper.half ∧
      ∀ err, (c.run s.mapper).1 = .error err → s.mapper.Kept (c.run s.mapper).2 := by
  -- a page or a block is mapped, or nothing is
  have hmapped : ∀ {g : Mapping} {r : Except MapError Unit × Mapper}, c.run s.mapper = r →
      c.record s.live = g :: s.live → Mapped field s.mapper g r →
      (s.apply c).Tracks field ∧ (s.apply c).mapper.format = s.mapper.format ∧
        (s.apply c).mapper.half = s.mapper.half ∧
        ∀ err, (c.run s.mapper).1 = .error err → s.mapper.Kept (c.run s.mapper).2 := by
    rintro g ⟨err | ok, m'⟩ hrun hrecord hspec
    · have hk := hspec.failed err rfl
      rw [apply, hrun]
      exact ⟨h.kept hspec.sound hk, hk.format, hk.half, hspec.failed⟩
    · obtain ⟨hg, e, he, hfree, hchanged⟩ := hspec.ok rfl
      rw [apply, hrun]
      rw [hrecord]
      exact ⟨h.mapped hspec.sound hg he hfree hchanged, hchanged.format, hchanged.half, hspec.failed⟩
  cases c with
  | map va pa flags => exact hmapped rfl rfl (map_spec h.sound hF va hc.1 hc.2)
  | mapBlock va pa size flags => exact hmapped rfl rfl (mapBlock_spec h.sound hF hc.1 hc.2)
  | unmap va =>
    obtain ⟨hok, herr⟩ := Mapper.unmap_spec va h.sound hF
    rw [apply, Call.run]
    rcases hr : (s.mapper.unmap va).1 with err | ⟨pa, flush⟩
    · have hsame := herr err hr
      rw [hsame]
      exact ⟨h, rfl, rfl, fun _ _ => .refl _⟩
    · obtain ⟨hhalf, -, ⟨e, hleaf, -⟩, hsound, hchanged⟩ := hok pa flush hr
      refine ⟨h.unmapped hF hsound hhalf hleaf hchanged, hchanged.format, hchanged.half, ?_⟩
      intro err herr
      cases herr

end

end AddressSpace

/-! ### The formats of the CPUs -/

/-- The table formats of the CPUs. -/
inductive CpuFormat
  | aarch64 | sv39 | ia32e
  deriving DecidableEq, Repr

namespace CpuFormat

def format : CpuFormat → PageFormat
  | .aarch64 => Aarch64.format
  | .sv39 => Sv39.format
  | .ia32e => Ia32e.format

def field : CpuFormat → Nat
  | .aarch64 => 48
  | .sv39 => 56
  | .ia32e => 52

theorem lawful (c : CpuFormat) : c.format.Lawful c.field id := by
  cases c with
  | aarch64 => exact Aarch64.lawful
  | sv39 => exact Sv39.lawful
  | ia32e => exact Ia32e.lawful

end CpuFormat

section Zeroed

variable {F : PageFormat} {field : Nat} {shown : Flags → Flags} {root : Word}
  {frames : List (Option Word)} {memory : Word → Nat → Word} (hF : F.Lawful field shown)
  (hroot : ∀ i, memory root i = 0#64)

include hF hroot

theorem follow_zeroed {p : List Nat} {f : Word}
    (hp : RadixHeap.follow F.next memory root p = some f) : p = [] ∧ f = root := by
  rcases p with - | ⟨i, p⟩
  · exact ⟨rfl, (Option.some.inj hp).symm⟩
  · have hnone : RadixHeap.follow F.next memory root (i :: p) = none :=
      RadixHeap.follow_below (p := []) (i := i) rfl
        (by rw [hroot, next_of_absent hF.absent_zero]) ⟨p, rfl⟩
    rw [hnone] at hp
    cases hp

/-- **A run starts** with nothing mapped. -/
theorem tracks_zeroed (half : Half) (hframes : ∀ f, some f ∈ frames → IsFrame field f ∧ f ≠ root)
    (hdistinct : (frames.filterMap id).Nodup) :
    AddressSpace.Tracks ⟨⟨F, root, half, frames, memory⟩, []⟩ field := by
  have hmem : ∀ f ∈ frames.filterMap id, some f ∈ frames := by
    intro f hf
    obtain ⟨answer, hanswer, heq⟩ := mem_filterMap.mp hf
    exact (show answer = some f from heq) ▸ hanswer
  have htree : RadixHeap.Tree F.next memory root (F.levels - 1) fun f => f ∉ frames.filterMap id := by
    refine ⟨fun p f _ hp hpending => ?_, fun p q f _ _ hp hq => ?_⟩
    · exact (hframes f (hmem f hpending)).2 (follow_zeroed hF hroot hp).2
    · rw [(follow_zeroed hF hroot hp).1, (follow_zeroed hF hroot hq).1]
  refine ⟨⟨htree, fun f hf => (hframes f (hmem f hf)).1, hdistinct⟩, nofun,
    fun p i e _ => ?_, nodup_nil⟩
  refine iff_of_false (fun hleaf => ?_) fun ⟨g, hg, _⟩ => (by cases hg)
  obtain ⟨f, hf, rfl, hstop⟩ := RadixHeap.leaf_eq_some.mp hleaf
  obtain rfl := (follow_zeroed hF hroot hf).2
  have hstop : F.stop p.length (memory f i) = true := hstop
  rw [hroot, stop_of_absent hF.absent_zero] at hstop
  cases hstop

end Zeroed

theorem AddressSpace.Tracks.foldl {field : Nat}
    (hF : F.Lawful field shown) {calls : List Call} (hcalls : ∀ call ∈ calls, call.Ok field) (h : s.Tracks field) (hfmt : s.mapper.format = F) :
    (calls.foldl AddressSpace.apply s).Tracks field ∧
      (calls.foldl AddressSpace.apply s).mapper.format = F := by
  induction calls generalizing s with
  | nil => exact ⟨h, hfmt⟩
  | cons call calls ih =>
    obtain ⟨h', hfmt', -⟩ := h.run (hfmt ▸ hF) (hcalls call mem_cons_self)
    exact ih (fun call' hcall' => hcalls call' (mem_cons_of_mem _ hcall')) h' (hfmt'.trans hfmt)

/-! ### A finite map of pages -/

/-- The mapper answers as the list of what is mapped does. -/
structure IsPageMap (s : AddressSpace) (field : Nat) : Prop where
  translate : ∀ va pa flags, s.mapper.translate va = some (pa, flags) ↔
    ∃ g ∈ s.live, g.contains va = true ∧ pa = g.pa + (va - g.va) ∧ flags = g.flags
  /-- At most one mapping contains an address. -/
  unique : ∀ va, ∀ g ∈ s.live, ∀ g' ∈ s.live, g.contains va = true → g'.contains va = true → g = g'
  nodup : s.live.Nodup
  /-- A call that fails changes no translation. -/
  failed : ∀ c err m', Call.Ok field c → c.run s.mapper = (.error err, m') →
    ∀ va, m'.translate va = s.mapper.translate va

theorem AddressSpace.Tracks.isPageMap {field : Nat} (h : s.Tracks field)
    (hF : s.mapper.format.Lawful field id) : IsPageMap s field where
  translate va pa flags := by
    rw [h.translate hF]
    simp only [Prod.mk.injEq, id_eq]
  unique va g hg g' hg' hin hin' := h.unique hF hg hg' hin hin'
  nodup := h.distinct.of_map _
  failed c err m' hc hr va := by
    obtain ⟨htracks, -, -, hkept⟩ := h.run hF hc
    rw [AddressSpace.apply] at htracks
    have hkept := hkept err (by rw [hr])
    rw [hr] at hkept
    exact Mapper.translate_of_kept hkept va

/-- **The mapper implements a finite map of pages**, on every format of a CPU, in either half,
over every run of calls from a zeroed root. -/
theorem mapper_is_page_map (c : CpuFormat) (half : Half) (root : Word)
    (frames : List (Option Word)) (memory : Word → Nat → Word)
    (hroot : ∀ i, memory root i = 0#64)
    (hframes : ∀ f, some f ∈ frames → IsFrame c.field f ∧ f ≠ root)
    (hdistinct : (frames.filterMap id).Nodup) (calls : List Call)
    (hcalls : ∀ call ∈ calls, call.Ok c.field) :
    IsPageMap (calls.foldl AddressSpace.apply ⟨⟨c.format, root, half, frames, memory⟩, []⟩)
      c.field := by
  obtain ⟨hs, hfmt⟩ := (tracks_zeroed c.lawful hroot half hframes hdistinct).foldl
    c.lawful hcalls rfl
  refine hs.isPageMap ?_
  rw [hfmt]
  exact c.lawful

/-- A page and a block on Sv39, a page inside the block refused, and the page unmapped. -/
theorem mapper_is_page_map_sv39 :
    let s := [Call.map 0x400000 0x80001000 Flags.userCode,
        .mapBlock 0x40000000 0x80000000 .size1GiB Flags.userData,
        .map 0x40001000 0x80002000 Flags.userData, .unmap 0x400000].foldl AddressSpace.apply
      ⟨⟨Sv39.format, 0x1000, .low, [some 0x2000, some 0x3000], fun _ _ => 0⟩, []⟩
    s.mapper.translate 0x40001234 = some (0x80001234, Flags.userData) ∧
      s.mapper.translate 0x400000 = none ∧ IsPageMap s 56 := by
  refine ⟨by decide +kernel, by decide +kernel, ?_⟩
  refine mapper_is_page_map .sv39 .low 0x1000 [some 0x2000, some 0x3000] _ (fun _ => rfl) ?_
    (by decide) _ ?_
  · intro f hf
    simp only [mem_cons, Option.some.injEq, not_mem_nil, or_false] at hf
    rcases hf with rfl | rfl
    all_goals exact ⟨⟨by decide, by decide⟩, by decide⟩
  · intro call hcall
    simp only [mem_cons, not_mem_nil, or_false] at hcall
    rcases hcall with rfl | rfl | rfl | rfl
    · exact ⟨by decide, by decide⟩
    · exact ⟨by decide, by decide⟩
    · exact ⟨by decide, by decide⟩
    · trivial

end Nife.Paging
