/-
A device's DMA domain (`crates/paging`, `domain.rs`): an identity map over exactly the memory the
device was granted.  The grant is a list of regions; what a domain of pages can express of a
region is the whole pages inside it.

If the build succeeds, the tables translate an address exactly when its whole page lies in a
region of the grant, to itself and writable (`domain_confines`).  It fails when the grant cannot
be expressed: a base that is not a page's, a region without an end, a page outside the low half,
or a page granted twice.
-/
import Nife.PageMap

namespace Nife.Paging

open List BitVec AddressSpace

/-! ### The model -/

def checkedAdd (a b : Word) : Option Word :=
  if a.toNat + b.toNat < 0x10000000000000000 then some (a + b) else none

def checkedMul (a b : Word) : Option Word :=
  if a.toNat * b.toNat < 0x10000000000000000 then some (a * b) else none

/-- Memory that a device may reach. -/
structure DmaRegion where
  (base size : Word)
  deriving DecidableEq, Repr

def grantPages (r : DmaRegion) : Except MapError Word :=
  if !isMultipleOf r.base pageSize then .error .misaligned
  else if (checkedAdd r.base r.size).isNone then .error .badRegion
  else .ok (r.size / pageSize)

def grantPage (r : DmaRegion) (i : Word) : Option Word :=
  (checkedMul i pageSize).bind fun off =>
    (checkedAdd off pageSize).bind fun last =>
      if r.size < last then none else checkedAdd r.base off

/-- The pages of one region, from index `i` on. -/
def mapGrant (r : DmaRegion) : Nat → Nat → Mapper → Except MapError Unit × Mapper
  | 0, _, m => (.ok (), m)
  | count + 1, i, m =>
    match grantPage r (BitVec.ofNat 64 i) with
    | none => (.error .badRegion, m)
    | some page =>
      match m.map page page Flags.userData with
      | (.error e, m) => (.error e, m)
      | (.ok _, m) => mapGrant r count (i + 1) m

def mapRegions : List DmaRegion → Mapper → Except MapError Unit × Mapper
  | [], m => (.ok (), m)
  | r :: regions, m =>
    match grantPages r with
    | .error e => (.error e, m)
    | .ok pages =>
      match mapGrant r pages.toNat 0 m with
      | (.error e, m) => (.error e, m)
      | (.ok _, m) => mapRegions regions m

def buildIdentityDomain (F : PageFormat) (root : Word) (frames : List (Option Word))
    (memory : Word → Nat → Word) (regions : List DmaRegion) : Except MapError Unit × Mapper :=
  mapRegions regions ⟨F, root, .low, frames, memory⟩

/-! ### The pages of a grant -/

def DmaRegion.HoldsPage (r : DmaRegion) (iova : Word) : Prop :=
  r.base.toNat ≤ iova.toNat / 4096 * 4096 ∧
    iova.toNat / 4096 * 4096 + 4096 ≤ r.base.toNat + r.size.toNat

structure DmaRegion.Ok (r : DmaRegion) : Prop where
  aligned : isMultipleOf r.base pageSize = true
  ends : r.base.toNat + r.size.toNat < 0x10000000000000000

/-- Page `i` of a region. -/
def DmaRegion.page (r : DmaRegion) (i : Nat) : Word := r.base + BitVec.ofNat 64 (i * 4096)

/-- The whole pages of a region. -/
def DmaRegion.pages (r : DmaRegion) : List Word := (List.range (r.size.toNat / 4096)).map r.page

theorem grantPages_eq_ok {r : DmaRegion} {pages : Word} (h : grantPages r = .ok pages) :
    r.Ok ∧ pages.toNat = r.size.toNat / 4096 := by
  unfold grantPages at h
  split at h
  · cases h
  · next hal =>
    split_ifs at h with hend
    cases h
    refine ⟨⟨by simpa using hal, ?_⟩, by rw [toNat_udiv]; rfl⟩
    unfold checkedAdd at hend
    split at hend
    · next hlt => exact hlt
    · exact absurd rfl hend

variable {r : DmaRegion} {i : Nat}

theorem page_toNat (hr : r.Ok) (hi : (i + 1) * 4096 ≤ r.size.toNat) :
    (r.page i).toNat = r.base.toNat + i * 4096 := by
  have hend := hr.ends
  rw [DmaRegion.page, toNat_add, toNat_ofNat]
  omega

/-- **Every page the builder asks for is there.** -/
theorem grantPage_eq (hr : r.Ok) (hi : (i + 1) * 4096 ≤ r.size.toNat) :
    grantPage r (BitVec.ofNat 64 i) = some (r.page i) := by
  have hend := hr.ends
  have hindex : (BitVec.ofNat 64 i).toNat = i := by
    rw [toNat_ofNat]
    omega
  have hpage : pageSize.toNat = 4096 := rfl
  have hoff : BitVec.ofNat 64 i * pageSize = BitVec.ofNat 64 (i * 4096) := by
    rw [ofNat_mul]
    rfl
  have hoffNat : (BitVec.ofNat 64 (i * 4096)).toNat = i * 4096 := by
    rw [toNat_ofNat]
    omega
  have hlast : (BitVec.ofNat 64 (i * 4096) + pageSize).toNat = (i + 1) * 4096 := by
    rw [toNat_add, hpage]
    omega
  rw [grantPage, checkedMul, hindex, hpage, if_pos (by omega), Option.bind_some, hoff,
    checkedAdd, hpage, if_pos (by omega), Option.bind_some, if_neg, checkedAdd, hoffNat,
    if_pos (by omega), DmaRegion.page]
  rw [lt_def]
  omega

/-- **The pages of a region are those it holds whole.** -/
theorem exists_page_iff (hr : r.Ok) (iova : Word) :
    (∃ i, i < r.size.toNat / 4096 ∧ (r.page i).toNat ≤ iova.toNat ∧
      iova.toNat < (r.page i).toNat + 4096) ↔ r.HoldsPage iova := by
  have hal : r.base.toNat % 4096 = 0 := isMultipleOf_iff.mp hr.aligned
  unfold DmaRegion.HoldsPage
  constructor
  · rintro ⟨i, hi, hle, hlt⟩
    rw [page_toNat hr (by omega)] at hle hlt
    omega
  · rintro ⟨hle, hlt⟩
    refine ⟨(iova.toNat - r.base.toNat) / 4096, by omega, ?_⟩
    rw [page_toNat hr (by omega)]
    omega

/-! ### The build -/

/-- A page mapped to itself, for a device to read and write. -/
def identity (page : Word) : Mapping := ⟨page, page, .size4KiB, Flags.userData⟩

section Build

variable {m m' : Mapper} {live : List Mapping} {field : Nat} {shown : Flags → Flags} {u : Unit}

theorem fitsIn_mono {a : Word} {j k : Nat} (hjk : j ≤ k) (h : a >>> j = 0#64) :
    fitsIn a k = true := by
  refine decide_eq_true ?_
  obtain ⟨d, rfl⟩ := Nat.exists_eq_add_of_le hjk
  rw [shiftRight_add, h, zero_ushiftRight]

/-- **One page of the grant is mapped**, if it lies in the low half. -/
theorem map_identity (h : Tracks ⟨m, live⟩ field) (hF : m.format.Lawful field shown)
    (hsplit : m.format.splitShift ≤ field) (hlow : m.half = .low) {page : Word}
    (hr : m.map page page Flags.userData = (.ok u, m')) :
    Tracks ⟨m', identity page :: live⟩ field ∧ m'.format = m.format ∧
      m'.half = m.half := by
  have hhalf : m.format.isInHalf .low page = true := by
    by_contra hnot
    rw [Mapper.map, hlow, if_pos (by simpa using hnot)] at hr
    cases hr
  have hpublic : Flags.userData ∈ Flags.constructors := by decide
  have hspec := map_spec h.sound hF page (fitsIn_mono hsplit (of_decide_eq_true hhalf)) hpublic
  rw [hr] at hspec
  obtain ⟨hg, e, he, hfree, hchanged⟩ := hspec.ok rfl
  exact ⟨h.mapped hspec.sound hg he hfree hchanged, hchanged.format, hchanged.half⟩

theorem mapGrant_ok (hr : r.Ok) {count i : Nat} (hcount : (i + count) * 4096 ≤ r.size.toNat)
    (h : Tracks ⟨m, live⟩ field) (hF : m.format.Lawful field shown)
    (hsplit : m.format.splitShift ≤ field) (hlow : m.half = .low)
    (hgo : mapGrant r count i m = (.ok u, m')) :
    Tracks
        ⟨m', ((List.range' i count).map fun j => identity (r.page j)).reverse ++ live⟩ field ∧
      m'.format = m.format ∧ m'.half = m.half := by
  induction count generalizing i m live with
  | zero =>
    obtain rfl : m = m' := congrArg Prod.snd hgo
    exact ⟨h, rfl, rfl⟩
  | succ count ih =>
    have hi : (i + 1) * 4096 ≤ r.size.toNat :=
      Nat.le_trans (Nat.mul_le_mul_right 4096 (by omega)) hcount
    have hrest : (i + 1 + count) * 4096 ≤ r.size.toNat :=
      Nat.le_trans (Nat.mul_le_mul_right 4096 (by omega)) hcount
    rw [mapGrant, grantPage_eq hr hi] at hgo
    dsimp only at hgo
    split at hgo
    · cases hgo
    · next m₁ hmap =>
      obtain ⟨h₁, hfmt, hhalf⟩ := map_identity h hF hsplit hlow hmap
      obtain ⟨h₂, hfmt₂, hhalf₂⟩ := ih hrest h₁ (hfmt ▸ hF) (hfmt ▸ hsplit) (hhalf.trans hlow) hgo
      refine ⟨?_, hfmt₂.trans hfmt, hhalf₂.trans hhalf⟩
      rw [List.range'_succ, List.map_cons, List.reverse_cons, List.append_assoc]
      exact h₂

theorem mapRegions_ok {regions : List DmaRegion} (h : Tracks ⟨m, live⟩ field)
    (hF : m.format.Lawful field shown) (hsplit : m.format.splitShift ≤ field)
    (hlow : m.half = .low) (hgo : mapRegions regions m = (.ok u, m')) :
    Tracks
        ⟨m', ((regions.flatMap DmaRegion.pages).map identity).reverse ++ live⟩ field ∧
      (∀ r ∈ regions, r.Ok) ∧ m'.format = m.format ∧ m'.half = m.half := by
  induction regions generalizing m live with
  | nil =>
    obtain rfl : m = m' := congrArg Prod.snd hgo
    exact ⟨h, nofun, rfl, rfl⟩
  | cons r regions ih =>
    rw [mapRegions] at hgo
    split at hgo
    · cases hgo
    · next pages hpages =>
      obtain ⟨hr, hcount⟩ := grantPages_eq_ok hpages
      split at hgo
      · cases hgo
      · next m₁ hgrant =>
        obtain ⟨h₁, hfmt, hhalf⟩ := mapGrant_ok hr (by omega) h hF hsplit hlow hgrant
        obtain ⟨h₂, hok, hfmt₂, hhalf₂⟩ := ih h₁ (hfmt ▸ hF) (hfmt ▸ hsplit) (hhalf.trans hlow) hgo
        refine ⟨?_, ?_, hfmt₂.trans hfmt, hhalf₂.trans hhalf⟩
        · rw [hcount, ← List.range_eq_range', ← List.append_assoc, ← List.reverse_append] at h₂
          rw [flatMap_cons, map_append, DmaRegion.pages, map_map]
          exact h₂
        · intro r' hr'
          rcases mem_cons.mp hr' with rfl | hr'
          · exact hr
          · exact hok r' hr'

end Build

/-! ### The formats an IOMMU walks -/

/-- The table formats of the IOMMUs. -/
inductive IommuFormat
  | aarch64 | sv39 | vtd
  deriving DecidableEq, Repr

namespace IommuFormat

def format : IommuFormat → PageFormat
  | .aarch64 => Aarch64.format
  | .sv39 => Sv39.format
  | .vtd => Vtd.format

def field : IommuFormat → Nat
  | .aarch64 => 48
  | .sv39 => 56
  | .vtd => 52

def shown : IommuFormat → Flags → Flags
  | .aarch64 => id
  | .sv39 => id
  | .vtd => Vtd.shown

section

variable (f : IommuFormat)

theorem lawful : f.format.Lawful f.field f.shown := by
  cases f with
  | aarch64 => exact Aarch64.lawful
  | sv39 => exact Sv39.lawful
  | vtd => exact Vtd.lawful

theorem split_le_field : f.format.splitShift ≤ f.field := by
  cases f <;> decide

theorem writable_shown : (f.shown Flags.userData).isWritable = true := by
  cases f <;> decide

end

end IommuFormat

/-! ### The domain confines the device -/

/-- What a build that answers `r` says of the grant. -/
structure Confines (F : PageFormat) (regions : List DmaRegion) (r : Except MapError Unit × Mapper) :
    Prop where
  /-- Exactly the whole pages of the grant are translated, for writing. -/
  translated : r.1 = .ok () → ∀ iova,
    (∃ pa flags, r.2.translate iova = some (pa, flags) ∧ flags.isWritable = true) ↔
      ∃ region ∈ regions, region.HoldsPage iova
  /-- Whatever is translated is translated to itself. -/
  identity : r.1 = .ok () → ∀ iova pa flags, r.2.translate iova = some (pa, flags) → pa = iova
  shared : ∀ (i j : Nat) (a b : DmaRegion) iova, i ≠ j → regions[i]? = some a → regions[j]? = some b →
    a.HoldsPage iova → b.HoldsPage iova → ∃ err, r.1 = .error err
  unaligned : ∀ region ∈ regions, isMultipleOf region.base pageSize = false →
    ∃ err, r.1 = .error err
  wraps : ∀ region ∈ regions, 0x10000000000000000 ≤ region.base.toNat + region.size.toNat →
    ∃ err, r.1 = .error err
  outside : ∀ region ∈ regions, ∀ iova, region.HoldsPage iova → F.isInHalf .low iova = false →
    ∃ err, r.1 = .error err

section Confined

variable {regions : List DmaRegion} {iova : Word}

theorem exists_identity_iff (hok : ∀ r ∈ regions, r.Ok) :
    (∃ g ∈ ((regions.flatMap DmaRegion.pages).map identity).reverse ++ [], g.contains iova = true) ↔
      ∃ r ∈ regions, r.HoldsPage iova := by
  have hcontains : ∀ page : Word, (identity page).contains iova = true ↔
      page.toNat ≤ iova.toNat ∧ iova.toNat < page.toNat + 4096 := by
    intro page
    rw [Mapping.contains, Bool.and_eq_true, decide_eq_true_eq, decide_eq_true_eq]
    rfl
  rw [append_nil]
  constructor
  · rintro ⟨g, hg, hin⟩
    obtain ⟨page, hpage, rfl⟩ := mem_map.mp (mem_reverse.mp hg)
    obtain ⟨r, hr, hmem⟩ := mem_flatMap.mp hpage
    obtain ⟨i, hi, rfl⟩ := mem_map.mp hmem
    exact ⟨r, hr, (exists_page_iff (hok r hr) iova).mp ⟨i, mem_range.mp hi, (hcontains _).mp hin⟩⟩
  · rintro ⟨r, hr, hholds⟩
    obtain ⟨i, hi, hin⟩ := (exists_page_iff (hok r hr) iova).mpr hholds
    refine ⟨identity (r.page i), mem_reverse.mpr (mem_map_of_mem ?_), (hcontains _).mpr hin⟩
    exact mem_flatMap.mpr ⟨r, hr, mem_map_of_mem (mem_range.mpr hi)⟩

theorem not_shared (hok : ∀ r ∈ regions, r.Ok) (hnd : (regions.flatMap DmaRegion.pages).Nodup)
    {i j : Nat} {a b : DmaRegion} (hij : i ≠ j) (ha : regions[i]? = some a)
    (hb : regions[j]? = some b) (hha : a.HoldsPage iova) : ¬ b.HoldsPage iova := by
  intro hhb
  -- the page of `iova` is one of either region's
  have hshared : ¬ List.Disjoint a.pages b.pages := by
    have hoka := hok a (mem_of_getElem? ha)
    have hokb := hok b (mem_of_getElem? hb)
    obtain ⟨k, hk, hin⟩ := (exists_page_iff hoka iova).mpr hha
    obtain ⟨l, hl, hin'⟩ := (exists_page_iff hokb iova).mpr hhb
    have heq : a.page k = b.page l := by
      have hala : a.base.toNat % 4096 = 0 := isMultipleOf_iff.mp hoka.aligned
      have halb : b.base.toNat % 4096 = 0 := isMultipleOf_iff.mp hokb.aligned
      apply eq_of_toNat_eq
      rw [page_toNat hoka (by omega)] at hin ⊢
      rw [page_toNat hokb (by omega)] at hin' ⊢
      omega
    intro hdis
    exact hdis (mem_map_of_mem (mem_range.mpr hk)) (heq ▸ mem_map_of_mem (mem_range.mpr hl))
  obtain ⟨hi, hai⟩ := List.getElem?_eq_some_iff.mp ha
  obtain ⟨hj, hbj⟩ := List.getElem?_eq_some_iff.mp hb
  have hpair := pairwise_iff_getElem.mp (nodup_flatMap.mp hnd).2
  rcases Nat.lt_or_gt_of_ne hij with hlt | hlt
  · have hdis := hpair i j hi hj hlt
    rw [hai, hbj] at hdis
    exact hshared hdis
  · have hdis := hpair j i hj hi hlt
    rw [hai, hbj] at hdis
    exact hshared fun page hpa hpb => hdis hpb hpa

end Confined

/-- **A DMA domain confines its device to the grant**, on every format an IOMMU walks: a build on
a zeroed root, with fresh frames for its tables, that succeeds translates exactly the whole pages
of the grant; and no grant that pages cannot express is built. -/
theorem domain_confines (f : IommuFormat) (root : Word) (frames : List (Option Word))
    (memory : Word → Nat → Word) (hroot : ∀ i, memory root i = 0#64)
    (hframes : ∀ frame, some frame ∈ frames → IsFrame f.field frame ∧ frame ≠ root)
    (hdistinct : (frames.filterMap id).Nodup) (regions : List DmaRegion) :
    Confines f.format regions (buildIdentityDomain f.format root frames memory regions) := by
  have hstart := tracks_zeroed f.lawful hroot .low hframes hdistinct
  rcases hbuild : buildIdentityDomain f.format root frames memory regions with ⟨err | u, m⟩
  · -- a build that failed has nothing to show
    exact ⟨nofun, nofun,
      fun _ _ _ _ _ _ _ _ _ _ => ⟨err, rfl⟩, fun _ _ _ => ⟨err, rfl⟩, fun _ _ _ => ⟨err, rfl⟩,
      fun _ _ _ _ _ => ⟨err, rfl⟩⟩
  · obtain ⟨htracks, hok, hfmt, hhalf⟩ := mapRegions_ok hstart f.lawful f.split_le_field rfl hbuild
    have hF : m.format.Lawful f.field f.shown := by
      rw [hfmt]
      exact f.lawful
    have hnd : (regions.flatMap DmaRegion.pages).Nodup := by
      have hlive := htracks.distinct.of_map
      rw [append_nil] at hlive
      exact (nodup_reverse.mp hlive).of_map
    have htranslate : ∀ iova pa flags, m.translate iova = some (pa, flags) ↔
        (∃ region ∈ regions, region.HoldsPage iova) ∧ pa = iova ∧ flags = f.shown Flags.userData := by
      intro iova pa flags
      rw [← exists_identity_iff hok, htracks.translate hF]
      constructor
      · rintro ⟨g, hg, hin, heq⟩
        have hmem := hg
        rw [append_nil] at hmem
        obtain ⟨page, -, rfl⟩ := mem_map.mp (mem_reverse.mp hmem)
        rw [Prod.mk.injEq] at heq
        refine ⟨⟨_, hg, hin⟩, heq.1.trans ?_, heq.2⟩
        show page + (iova - page) = iova
        rw [BitVec.add_comm, BitVec.sub_add_cancel]
      · rintro ⟨⟨g, hg, hin⟩, rfl, rfl⟩
        refine ⟨g, hg, hin, ?_⟩
        have hmem := hg
        rw [append_nil] at hmem
        obtain ⟨page, -, rfl⟩ := mem_map.mp (mem_reverse.mp hmem)
        show (pa, _) = (page + (pa - page), _)
        rw [BitVec.add_comm page, BitVec.sub_add_cancel]
        rfl
    refine ⟨fun _ iova => ?_, fun _ iova pa flags h => ((htranslate iova pa flags).mp h).2.1,
      fun i j a b iova hij ha hb hha hhb => absurd hhb (not_shared hok hnd hij ha hb hha),
      fun region hr hal => ?_, fun region hr hwrap => ?_, fun region hr iova hholds hout => ?_⟩
    · constructor
      · rintro ⟨pa, flags, h, -⟩
        exact ((htranslate iova pa flags).mp h).1
      · intro h
        exact ⟨iova, _, (htranslate iova iova _).mpr ⟨h, rfl, rfl⟩, f.writable_shown⟩
    · rw [(hok region hr).aligned] at hal
      cases hal
    · exact absurd (hok region hr).ends (Nat.not_lt.mpr hwrap)
    · obtain ⟨g, hg, hin⟩ := (exists_identity_iff hok).mpr ⟨region, hr, hholds⟩
      have hin := Mapping.half_of_contains hF (htracks.ok g hg) hin
      rw [hhalf, hfmt, hout] at hin
      cases hin

/-- A grant of two regions on VT-d, the second with a partial page at its end. -/
theorem domain_confines_vtd :
    let r := buildIdentityDomain Vtd.format 0x1000 [some 0x2000, some 0x3000, some 0x4000]
      (fun _ _ => 0) [⟨0x10000, 0x2000⟩, ⟨0x20000, 0x1800⟩]
    r.1.toBool = true ∧ (r.2.translate 0x20abc).map Prod.fst = some 0x20abc ∧
      r.2.translate 0x21000 = none ∧
      Confines Vtd.format [⟨0x10000, 0x2000⟩, ⟨0x20000, 0x1800⟩] r := by
  refine ⟨by decide +kernel, by decide +kernel, by decide +kernel, ?_⟩
  refine domain_confines .vtd 0x1000 [some 0x2000, some 0x3000, some 0x4000] _ (fun _ => rfl) ?_
    (by decide) _
  intro frame hframe
  simp only [mem_cons, Option.some.injEq, not_mem_nil, or_false] at hframe
  rcases hframe with rfl | rfl | rfl
  all_goals exact ⟨⟨by decide, by decide⟩, by decide⟩

end Nife.Paging
