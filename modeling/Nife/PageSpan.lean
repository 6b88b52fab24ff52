/-
Mapping a stretch of addresses (`Mapper::map_span` and `map_range` of `crates/paging`).
`map_range` maps page by page; `map_span` takes at each step the largest leaf for which both
addresses are aligned and which fits in what is left.

The trees they build differ, the finite maps of pages do not: both lay pages and blocks end to
end over the same stretch, each at the same distance from its physical address (`Laid`), and
what is laid decides every translation (`map_span_agrees_with_map_range`).  A stretch that
`map_span` could lay was free, so `map_range` is refused nothing but frames for its tables.
-/
import Nife.PageMap

namespace Nife.Paging

open List BitVec Option Mapper

/-! ### The two loops -/

namespace PageSize

def fits (va pa remaining : Word) (size : PageSize) : Bool :=
  (va ||| pa) &&& (size.bytes - 1) = 0#64 && size.bytes ≤ remaining

/-- The leaf size for the next step of mapping `remaining` bytes from `va` to `pa`. -/
def largestFitting (va pa remaining : Word) (largest : PageSize) : PageSize :=
  let allowed := largest.levelsAboveBottom
  if 2 ≤ allowed && fits va pa remaining .size1GiB then .size1GiB
  else if 1 ≤ allowed && fits va pa remaining .size2MiB then .size2MiB
  else .size4KiB

end PageSize

namespace Mapper

/-- The loop of `map_span` with `done` bytes behind it; `none` is a loop that has not ended
within so many turns. -/
def spanLoop (va pa len : Word) (flags : Flags) (largest : PageSize) :
    Nat → Word → Mapper → Option (Except MapError Unit × Mapper)
  | 0, _, _ => none
  | turns + 1, done, m =>
    if done < len then
      let size := PageSize.largestFitting (va + done) (pa + done) (len - done) largest
      match m.mapBlock (va + done) (pa + done) size flags with
      | (.error e, m) => some (.error e, m)
      | (.ok _, m) => spanLoop va pa len flags largest turns (done + size.bytes) m
    else some (.ok (), m)

/-- A turn maps a page at least. -/
def mapSpan (m : Mapper) (va pa len : Word) (flags : Flags) (largest : PageSize) :
    Option (Except MapError Unit × Mapper) :=
  if !isMultipleOf len pageSize then some (.error .misaligned, m)
  else spanLoop va pa len flags largest (len.toNat / 4096 + 1) 0#64 m

/-- The loop of `map_range` from page `i`, with `count` pages to go. -/
def rangeLoop (va pa : Word) (flags : Flags) : Nat → Nat → Mapper → Except MapError Unit × Mapper
  | 0, _, m => (.ok (), m)
  | count + 1, i, m =>
    match m.map (va + BitVec.ofNat 64 i * pageSize) (pa + BitVec.ofNat 64 i * pageSize) flags with
    | (.error e, m) => (.error e, m)
    | (.ok _, m) => rangeLoop va pa flags count (i + 1) m

def mapRange (m : Mapper) (va pa : Word) (count : Nat) (flags : Flags) :
    Except MapError Unit × Mapper :=
  rangeLoop va pa flags count 0 m

end Mapper

/-! ### Sizes -/

theorem PageSize.bytes_le (s : PageSize) : 4096 ≤ s.bytes.toNat := by
  cases s <;> decide

theorem PageSize.bytes_mod (s : PageSize) : s.bytes.toNat % 4096 = 0 := by
  cases s <;> decide

theorem PageSize.largestFitting_le {va pa remaining : Word} {largest : PageSize}
    (h : 4096 ≤ remaining.toNat) :
    (largestFitting va pa remaining largest).bytes.toNat ≤ remaining.toNat := by
  have hfits : ∀ size, fits va pa remaining size = true → size.bytes.toNat ≤ remaining.toNat := by
    intro size hsize
    rw [fits, Bool.and_eq_true, decide_eq_true_eq, decide_eq_true_eq] at hsize
    exact le_def.mp hsize.2
  unfold largestFitting
  dsimp only
  split
  · next hbig => exact hfits _ (Bool.and_eq_true_iff.mp hbig).2
  · split
    · next hmid => exact hfits _ (Bool.and_eq_true_iff.mp hmid).2
    · exact h

/-! ### What is laid over a stretch -/

/-- Nothing is mapped in the `n` bytes from `va`, which are all in the mapper's half. -/
def Mapper.Free (m : Mapper) (va : Word) (n : Nat) : Prop :=
  ∀ v : Word, va.toNat ≤ v.toNat ∧ v.toNat < va.toNat + n →
    m.translate v = none ∧ m.format.isInHalf m.half v = true

variable {s : AddressSpace} {m m' : Mapper} {field : Nat} {shown : Flags → Flags} {va pa : Word}
  {flags : Flags} {off : Word} {len : Word} {gs : List Mapping}

/-- `gs` lies over the `done` bytes from `va`, and `m` holds it beside what `s` held. -/
structure Laid (field : Nat) (s : AddressSpace) (va pa : Word) (flags : Flags) (done : Nat)
    (m : Mapper) (gs : List Mapping) : Prop where
  tracks : AddressSpace.Tracks ⟨m, gs ++ s.live⟩ field
  format : m.format = s.mapper.format
  half : m.half = s.mapper.half
  shift : ∀ g ∈ gs, g.pa - g.va = pa - va ∧ g.flags = flags
  covers : ∀ v : Word, (∃ g ∈ gs, g.contains v = true) ↔
    va.toNat ≤ v.toNat ∧ v.toNat < va.toNat + done

namespace Laid

variable {done : Nat} {gs : List Mapping}

theorem nil (h : s.Tracks field) : Laid field s va pa flags 0 s.mapper [] := by
  refine ⟨h, rfl, rfl, nofun, fun v => ?_⟩
  refine iff_of_false (fun ⟨g, hg, _⟩ => (by cases hg)) ?_
  omega

section

variable (h : Laid field s va pa flags done m gs) (hF : s.mapper.format.Lawful field shown)
include h hF

/-- **A leaf is laid** behind what lies there. -/
theorem snoc (hflags : flags ∈ Flags.constructors) (hoff : off.toNat = done) (size : PageSize)
    (hva : va.toNat + done + size.bytes.toNat ≤ 2 ^ 64) (hpa : fitsIn (pa + off) field = true)
    (hm : m.mapBlock (va + off) (pa + off) size flags = (.ok (), m')) :
    ∃ g, Laid field s va pa flags (done + size.bytes.toNat) m' (g :: gs) := by
  have hspec : Mapped field m ⟨va + off, pa + off, size, flags⟩ (.ok (), m') :=
    hm ▸ mapBlock_spec h.tracks.sound (h.format ▸ hF) hpa hflags
  obtain ⟨hg, e, he, hfree, hchanged⟩ := hspec.ok rfl
  have hbytes := size.bytes_le
  have hstart : (va + off).toNat = va.toNat + done := by
    rw [toNat_add, hoff, Nat.mod_eq_of_lt (by omega)]
  refine ⟨⟨va + off, pa + off, size, flags⟩, h.tracks.mapped hspec.sound hg he hfree hchanged,
    hchanged.format.trans h.format, hchanged.half.trans h.half, fun g hg => ?_, fun v => ?_⟩
  · rcases mem_cons.mp hg with rfl | hg
    · refine ⟨?_, rfl⟩
      bv_omega
    · exact h.shift g hg
  · simp only [mem_cons, or_and_right, exists_or, exists_eq_left]
    rw [h.covers, Mapping.contains, Bool.and_eq_true, decide_eq_true_eq, decide_eq_true_eq]
    dsimp only
    omega

/-- **What is laid decides every translation.** -/
theorem translate (hs : s.Tracks field) (v : Word) :
    m.translate v = if va.toNat ≤ v.toNat ∧ v.toNat < va.toNat + done
      then some (pa + (v - va), shown flags) else s.mapper.translate v := by
  have hF' : m.format.Lawful field shown := h.format ▸ hF
  refine ext fun r => ?_
  have htranslate : m.translate v = some r ↔ _ := h.tracks.translate hF'
  split
  · next hin =>
    obtain ⟨g, hg, hgv⟩ := (h.covers v).mpr hin
    have heq : pa + (v - va) = g.pa + (v - g.va) := by
      have hshift := (h.shift g hg).1
      bv_omega
    rw [htranslate, Option.some.injEq, heq, ← (h.shift g hg).2]
    constructor
    · rintro ⟨g', hg', hgv', rfl⟩
      rw [h.tracks.unique hF' hg' (mem_append_left _ hg) hgv' hgv]
    · rintro rfl
      exact ⟨g, mem_append_left _ hg, hgv, rfl⟩
  · next hout =>
    rw [htranslate, hs.translate hF]
    constructor
    · rintro ⟨g, hg, hgv, rfl⟩
      rcases mem_append.mp hg with hg | hg
      · exact absurd ((h.covers v).mp ⟨g, hg, hgv⟩) hout
      · exact ⟨g, hg, hgv, rfl⟩
    · rintro ⟨g, hg, hgv, rfl⟩
      exact ⟨g, mem_append_right _ hg, hgv, rfl⟩

/-- **What was laid over was free**, and in the mapper's half. -/
theorem free (hs : s.Tracks field) : s.mapper.Free va done := by
  intro v hin
  have hF' : m.format.Lawful field shown := h.format ▸ hF
  obtain ⟨g, hg, hgv⟩ := (h.covers v).mpr hin
  have hmem : g ∈ gs ++ s.live := mem_append_left _ hg
  constructor
  · refine eq_none_iff_forall_ne_some.mpr fun r hr => ?_
    obtain ⟨g', hg', hgv', -⟩ := (hs.translate hF).mp hr
    obtain rfl := h.tracks.unique hF' hmem (mem_append_right _ hg') hgv hgv'
    -- one mapping would hold two places of the list
    have hnodup := h.tracks.distinct.of_map
    exact (nodup_append.mp hnodup).2.2 g hg g hg' rfl
  · have hhalf := Mapping.half_of_contains hF' (h.tracks.ok g hmem) hgv
    rwa [h.format, h.half] at hhalf

end

end Laid

/-! ### `map_span` -/

theorem fitsIn_add (h : pa.toNat + off.toNat < 2 ^ field) (hfield : field ≤ 64) :
    fitsIn (pa + off) field = true := by
  have hle : 2 ^ field ≤ 2 ^ 64 := Nat.pow_le_pow_right (by decide) hfield
  refine decide_eq_true (eq_of_toNat_eq ?_)
  rw [toNat_ushiftRight, Nat.shiftRight_eq_div_pow, toNat_add,
    Nat.mod_eq_of_lt (by omega), Nat.div_eq_of_lt h]
  rfl

section Span

variable (hF : s.mapper.format.Lawful field shown) (hfield : field ≤ 64)
  (hflags : flags ∈ Flags.constructors)
include hF hfield hflags

/-- **The loop of `map_span` ends**, and if nothing is refused it has laid the whole length. -/
theorem spanLoop_laid (largest : PageSize) (hlen : len.toNat % 4096 = 0)
    (hva : va.toNat + len.toNat ≤ 2 ^ 64) (hpa : pa.toNat + len.toNat ≤ 2 ^ field) (turns : Nat)
    (done : Word) (h : Laid field s va pa flags done.toNat m gs)
    (hdone : done.toNat % 4096 = 0) (hle : done.toNat ≤ len.toNat)
    (hturns : (len.toNat - done.toNat) / 4096 < turns) :
    ∃ r m', spanLoop va pa len flags largest turns done m = some (r, m') ∧
      (r = .ok () → ∃ gs', Laid field s va pa flags len.toNat m' gs') := by
  induction turns generalizing done m gs with
  | zero => omega
  | succ turns ih =>
    rw [spanLoop]
    split
    · next hlt =>
      have hlt : done.toNat < len.toNat := lt_def.mp hlt
      have hrest : (len - done).toNat = len.toNat - done.toNat :=
        toNat_sub_of_le (le_def.mpr hle)
      dsimp only
      generalize hsize : PageSize.largestFitting (va + done) (pa + done) (len - done) largest = size
      have hfit : size.bytes.toNat ≤ len.toNat - done.toNat := by
        rw [← hsize, ← hrest]
        exact PageSize.largestFitting_le (by omega)
      rcases hm : m.mapBlock (va + done) (pa + done) size flags with ⟨err | ok, m₁⟩
      · exact ⟨.error err, m₁, rfl, nofun⟩
      · obtain ⟨g, hg⟩ := h.snoc hF hflags rfl size (by omega) (fitsIn_add (by omega) hfield) hm
        have hbytes := size.bytes_le
        have hmod := size.bytes_mod
        have hnext : (done + size.bytes).toNat = done.toNat + size.bytes.toNat := by
          rw [toNat_add, Nat.mod_eq_of_lt (by omega)]
        rw [← hnext] at hg
        exact ih _ hg (by omega) (by omega) (by omega)
    · next hge =>
      have hge : ¬ done.toNat < len.toNat := fun hlt => hge (lt_def.mpr hlt)
      obtain heq : done.toNat = len.toNat := by omega
      exact ⟨.ok (), m, rfl, fun _ => ⟨gs, heq ▸ h⟩⟩

end Span

/-! ### Nothing but frames is missing -/

/-- The allocator has `n` frames to hand out before it may fail. -/
def Mapper.Supplies (m : Mapper) (n : Nat) : Prop :=
  ∃ fs : List Word, n ≤ fs.length ∧ fs.map some <+: m.frames

namespace Mapper

theorem Supplies.cons {n : Nat} (h : m.Supplies (n + 1)) :
    ∃ f rest, m.frames = some f :: rest ∧ Supplies { m with frames := rest } n := by
  obtain ⟨- | ⟨f, fs⟩, hlen, rest, heq⟩ := h
  · cases hlen
  · exact ⟨f, fs.map some ++ rest, heq.symm, fs, Nat.le_of_succ_le_succ hlen, prefix_append _ _⟩

theorem Supplies.mono {n k : Nat} (h : m.Supplies n) (hk : k ≤ n) : m.Supplies k := by
  obtain ⟨fs, hlen, hpre⟩ := h
  exact ⟨fs, le_trans hk hlen, hpre⟩

/-- **A descent with no leaf in its way arrives**, if there are frames for its tables. -/
theorem descend_arrives {v : Word} {count level n : Nat} {t : Word} (h : m.Sound field)
    (hF : m.format.Lawful field shown) (hlevel : level + count ≤ m.format.levels - 1)
    (ht : m.table (m.format.path v level) = some t)
    (hfree : ∀ d ≤ m.format.levels - 1, m.leaf (m.format.path v d) (m.format.index v d) = none)
    (hsup : m.Supplies (count + n)) :
    ∃ t' m', descend v count level t m = (.ok t', m') ∧ m'.Supplies n := by
  induction count generalizing level t m with
  | zero => exact ⟨t, m, rfl, hsup.mono (by omega)⟩
  | succ count ih =>
    rw [descend]
    split
    · next habsent =>
      obtain ⟨f, rest, hf, hsup'⟩ := Supplies.cons (n := count + n) (hsup.mono (by omega))
      obtain ⟨hsound, hkept, htable, hentry⟩ := h.create hF (by omega) ht (by simpa using habsent) hf
      rw [allocPageFrame, hf]
      dsimp only at hentry ⊢
      rw [hentry]
      refine ih hsound hF (by show _ ≤ m.format.levels - 1; omega) htable (fun d hd => ?_) hsup'
      have hd : d ≤ m.format.levels - 1 := hd
      exact (hkept.leaf _ _ (by simpa using hd)).trans (hfree d hd)
    · next hpres =>
      have hpres : m.format.isPresent (m.memory t (m.format.index v level)) = true := by
        simpa using hpres
      split
      · next hblock =>
        -- a block would be a leaf on the path
        have hstop : m.format.stop (m.format.path v level).length
            (m.memory t (m.format.index v level)) = true := by
          rw [PageFormat.stop, hpres, hblock]
          simp
        have hleaf := hfree level (by omega)
        rw [leaf, RadixHeap.leaf_eq_some.mpr ⟨t, ht, rfl, hstop⟩] at hleaf
        cases hleaf
      · next hblock =>
        exact ih h hF (by omega) (table_succ ht hpres (by simpa using hblock)) hfree
          (hsup.mono (by omega))

/-- **A free page is mapped**, if there are frames for its tables. -/
theorem map_succeeds {v p : Word} {n : Nat} (h : m.Sound field)
    (hF : m.format.Lawful field shown) (hhalf : m.format.isInHalf m.half v = true)
    (hv : isMultipleOf v pageSize = true) (hp : isMultipleOf p pageSize = true)
    (hnone : m.translate v = none) (hsup : m.Supplies (m.format.levels - 1 + n)) :
    ∃ m', m.map v p flags = (.ok (), m') ∧ m'.Supplies n := by
  have hfree : ∀ d ≤ m.format.levels - 1,
      m.leaf (m.format.path v d) (m.format.index v d) = none := by
    intro d hd
    refine eq_none_iff_forall_ne_some.mpr fun e he => ?_
    have hsome := translate_eq_some.mpr ⟨hhalf, d, e, hd, he, rfl⟩
    rw [hnone] at hsome
    cases hsome
  obtain ⟨t, m', hdescend, hsup'⟩ := descend_arrives h hF (le_of_eq (zero_add _))
    (m.table_root v) hfree hsup
  have hspec := descend_spec v h hF (le_of_eq (zero_add _)) (m.table_root v)
  rw [hdescend, zero_add] at hspec
  have hfmt : m'.format = m.format := hspec.kept.format
  have ht : m'.table (m.format.path v (m.format.levels - 1)) = some t := hspec.arrived t rfl
  rw [map, hhalf, hv, hp, install, hdescend]
  dsimp only
  rw [Bool.not_true, Bool.or_false, if_neg Bool.false_ne_true, if_neg Bool.false_ne_true, hfmt]
  split
  · next hpres =>
    have hstop : m'.format.stop (m.format.path v (m.format.levels - 1)).length
        (m'.memory t (m.format.index v (m.format.levels - 1))) = true := by
      rw [PageFormat.stop, hfmt, hpres]
      simp
    have hleaf := (hspec.kept.leaf _ _ (by simp)).trans (hfree _ (le_refl _))
    rw [leaf, RadixHeap.leaf_eq_some.mpr ⟨t, ht, rfl, hstop⟩] at hleaf
    cases hleaf
  · exact ⟨_, rfl, hsup'⟩

end Mapper

/-! ### `map_range` -/

section Range

variable (hF : s.mapper.format.Lawful field shown) (hs : s.Tracks field) (hfield : field ≤ 64)
  (hflags : flags ∈ Flags.constructors) (hva : va.toNat % 4096 = 0) (hpa : pa.toNat % 4096 = 0)
include hF hs hfield hflags hva hpa

/-- **`map_range` lays the pages it maps**, and over a free stretch only frames can fail it. -/
theorem rangeLoop_laid (count i : Nat) (hvaEnd : va.toNat + (i + count) * 4096 ≤ 2 ^ 64)
    (hpaEnd : pa.toNat + (i + count) * 4096 ≤ 2 ^ field)
    (h : Laid field s va pa flags (i * 4096) m gs) :
    ∃ r m', rangeLoop va pa flags count i m = (r, m') ∧
      (r = .ok () → ∃ gs', Laid field s va pa flags ((i + count) * 4096) m' gs') ∧
      (s.mapper.Free va ((i + count) * 4096) →
        m.Supplies (count * (s.mapper.format.levels - 1)) → r = .ok ()) := by
  induction count generalizing i m gs with
  | zero => exact ⟨.ok (), m, rfl, fun _ => ⟨gs, h⟩, fun _ _ => rfl⟩
  | succ count ih =>
    have hoff : (BitVec.ofNat 64 i * pageSize).toNat = i * 4096 := by
      rw [toNat_mul, toNat_ofNat, Nat.mod_eq_of_lt (by omega : i < 2 ^ 64)]
      exact Nat.mod_eq_of_lt (by show i * 4096 < _; omega)
    have hle : 2 ^ field ≤ 2 ^ 64 := Nat.pow_le_pow_right (by decide) hfield
    rw [rangeLoop]
    generalize hv : va + BitVec.ofNat 64 i * pageSize = v
    generalize hp : pa + BitVec.ofNat 64 i * pageSize = p
    have hvn : v.toNat = va.toNat + i * 4096 := by
      rw [← hv, toNat_add, hoff, Nat.mod_eq_of_lt (by omega)]
    have hpn : p.toNat = pa.toNat + i * 4096 := by
      rw [← hp, toNat_add, hoff, Nat.mod_eq_of_lt (by omega)]
    -- the page is as free as the stretch was
    have hmaps : s.mapper.Free va ((i + (count + 1)) * 4096) →
        m.Supplies ((count + 1) * (s.mapper.format.levels - 1)) →
        ∃ m', m.map v p flags = (.ok (), m') ∧ m'.Supplies (count * (s.mapper.format.levels - 1)) := by
      intro hfree hsup
      obtain ⟨hnone, hhalf⟩ := hfree v (by omega)
      rw [Nat.add_mul, Nat.one_mul, Nat.add_comm, ← h.format] at hsup
      rw [← h.format]
      refine map_succeeds h.tracks.sound (h.format ▸ hF) ?_ ?_ ?_ ?_ hsup
      · rw [h.format, h.half, hhalf]
      · exact isMultipleOf_iff.mpr (by show v.toNat % 4096 = 0; omega)
      · exact isMultipleOf_iff.mpr (by show p.toNat % 4096 = 0; omega)
      · rw [h.translate hF hs, if_neg (by omega), hnone]
    rcases hpage : m.map v p flags with ⟨err | ok, m₁⟩
    · refine ⟨.error err, m₁, rfl, nofun, fun hfree hsup => ?_⟩
      obtain ⟨m', hm', -⟩ := hmaps hfree hsup
      rw [hm'] at hpage
      cases hpage
    · have hfits : fitsIn (pa + BitVec.ofNat 64 i * pageSize) field = true :=
        fitsIn_add (by omega) hfield
      obtain ⟨g, hg⟩ := h.snoc hF hflags hoff .size4KiB
        (by show _ + 4096 ≤ _; omega) hfits (by rw [hv, hp]; exact hpage)
      have hnext : i * 4096 + PageSize.size4KiB.bytes.toNat = (i + 1) * 4096 := by
        show i * 4096 + 4096 = _
        omega
      rw [hnext] at hg
      have hassoc : i + (count + 1) = i + 1 + count := by omega
      rw [hassoc] at hvaEnd hpaEnd hmaps ⊢
      obtain ⟨r, m', hr, hlaid, hok⟩ := ih _ hvaEnd hpaEnd hg
      refine ⟨r, m', hr, hlaid, fun hfree hsup => hok hfree ?_⟩
      obtain ⟨m₂, hm₂, hsup₂⟩ := hmaps hfree hsup
      rw [hpage] at hm₂
      obtain rfl : m₁ = m₂ := congrArg Prod.snd hm₂
      exact hsup₂

end Range

/-! ### The two agree -/

/-- `map_span` over the `len` bytes from `va`, beside `map_range` over its pages. -/
structure SpanAgrees (m : Mapper) (va pa len : Word) (flags : Flags) (largest : PageSize) :
    Prop where
  returns : (m.mapSpan va pa len flags largest).isSome = true
  /-- It maps the bytes asked for and no other. -/
  covers : ∀ m', m.mapSpan va pa len flags largest = some (.ok (), m') → ∀ v : Word,
    m'.translate v = if va.toNat ≤ v.toNat ∧ v.toNat < va.toNat + len.toNat
      then some (pa + (v - va), flags) else m.translate v
  agrees : ∀ m₁ m₂, m.mapSpan va pa len flags largest = some (.ok (), m₁) →
    m.mapRange va pa (len.toNat / 4096) flags = (.ok (), m₂) →
    ∀ v, m₁.translate v = m₂.translate v
  succeeds : ∀ m₁, m.mapSpan va pa len flags largest = some (.ok (), m₁) →
    m.Supplies (len.toNat / 4096 * (m.format.levels - 1)) →
    ∃ m₂, m.mapRange va pa (len.toNat / 4096) flags = (.ok (), m₂)

theorem spanAgrees (hF : s.mapper.format.Lawful field id) (hs : s.Tracks field)
    (hfield : field ≤ 64) (hva : isMultipleOf va pageSize = true)
    (hpa : isMultipleOf pa pageSize = true) (hlen : isMultipleOf len pageSize = true)
    (hflags : flags ∈ Flags.constructors) (hvaEnd : va.toNat + len.toNat ≤ 2 ^ 64)
    (hpaEnd : pa.toNat + len.toNat ≤ 2 ^ field) (largest : PageSize) :
    SpanAgrees s.mapper va pa len flags largest := by
  have hmod : len.toNat % 4096 = 0 := isMultipleOf_iff.mp hlen
  have hcount : (0 + len.toNat / 4096) * 4096 = len.toNat := by omega
  obtain ⟨r₁, m₁, hr₁, hlaid₁⟩ := spanLoop_laid hF hfield hflags largest hmod hvaEnd hpaEnd
    (len.toNat / 4096 + 1) 0#64 (.nil hs) rfl (Nat.zero_le _) (Nat.lt_succ_self _)
  obtain ⟨r₂, m₂, hr₂, hlaid₂, hok₂⟩ := rangeLoop_laid hF hs hfield hflags
    (isMultipleOf_iff.mp hva) (isMultipleOf_iff.mp hpa) (len.toNat / 4096) 0 (by omega) (by omega)
    (by rw [Nat.zero_mul]; exact .nil hs)
  rw [hcount] at hlaid₂ hok₂
  have hspan : s.mapper.mapSpan va pa len flags largest = some (r₁, m₁) := by
    rw [mapSpan, hlen, Bool.not_true, if_neg Bool.false_ne_true, hr₁]
  have hrange : s.mapper.mapRange va pa (len.toNat / 4096) flags = (r₂, m₂) := hr₂
  constructor
  · rw [hspan]
    rfl
  · rintro m' hm' v
    cases hspan.symm.trans hm'
    obtain ⟨gs, hgs⟩ := hlaid₁ rfl
    exact hgs.translate hF hs v
  · rintro m' m'' hm' hm'' v
    cases hspan.symm.trans hm'
    cases hrange.symm.trans hm''
    obtain ⟨gs, hgs⟩ := hlaid₁ rfl
    obtain ⟨gs', hgs'⟩ := hlaid₂ rfl
    rw [hgs.translate hF hs, hgs'.translate hF hs]
  · rintro m' hm' hsup
    cases hspan.symm.trans hm'
    obtain ⟨gs, hgs⟩ := hlaid₁ rfl
    obtain rfl := hok₂ (hgs.free hF hs) hsup
    exact ⟨m₂, hrange⟩

/-- **`map_span` agrees with `map_range`**, on every format of a CPU, from every state that
calls reach from a zeroed root. -/
theorem map_span_agrees_with_map_range (c : CpuFormat) (half : Half) (root : Word)
    (frames : List (Option Word)) (memory : Word → Nat → Word)
    (hroot : ∀ i, memory root i = 0#64)
    (hframes : ∀ f, some f ∈ frames → IsFrame c.field f ∧ f ≠ root)
    (hdistinct : (frames.filterMap id).Nodup) (calls : List Call)
    (hcalls : ∀ call ∈ calls, call.Ok c.field) (va pa len : Word) (flags : Flags)
    (largest : PageSize) (hva : isMultipleOf va pageSize = true)
    (hpa : isMultipleOf pa pageSize = true) (hlen : isMultipleOf len pageSize = true)
    (hflags : flags ∈ Flags.constructors) (hvaEnd : va.toNat + len.toNat ≤ 2 ^ 64)
    (hpaEnd : pa.toNat + len.toNat ≤ 2 ^ c.field) :
    SpanAgrees (calls.foldl AddressSpace.apply ⟨⟨c.format, root, half, frames, memory⟩, []⟩).mapper
      va pa len flags largest := by
  obtain ⟨hs, hfmt⟩ := (tracks_zeroed c.lawful hroot half hframes hdistinct).foldl
    c.lawful hcalls rfl
  have hfield : c.field ≤ 64 := by cases c <;> decide
  refine spanAgrees ?_ hs hfield hva hpa hlen hflags hvaEnd hpaEnd largest
  rw [hfmt]
  exact c.lawful

/-- A block and a page behind it, on Sv39, beside a page already mapped. -/
theorem map_span_agrees_block_and_page :
    let m := ([Call.map 0x400000 0x80001000 Flags.userCode].foldl AddressSpace.apply
      ⟨⟨Sv39.format, 0x1000, .low, [some 0x2000, some 0x3000, some 0x4000, some 0x5000],
        fun _ _ => 0⟩, []⟩).mapper
    (m.mapSpan 0x40000000 0x80000000 0x201000 Flags.userData .size1GiB).map (·.1.isOk) = some true ∧
      SpanAgrees m 0x40000000 0x80000000 0x201000 Flags.userData .size1GiB := by
  refine ⟨by decide +kernel, ?_⟩
  refine map_span_agrees_with_map_range .sv39 .low 0x1000 _ _ (fun _ => rfl) ?_ (by decide) _ ?_
    _ _ _ _ _ (by decide) (by decide) (by decide) (by decide) (by decide) (by decide)
  · intro f hf
    simp only [List.mem_cons, Option.some.injEq, List.not_mem_nil, or_false] at hf
    rcases hf with rfl | rfl | rfl | rfl
    all_goals exact ⟨⟨by decide, by decide⟩, by decide⟩
  · intro call hcall
    obtain rfl := List.mem_singleton.mp hcall
    exact ⟨by decide, by decide⟩

end Nife.Paging
