/-
The walk as a tree.  The tables of a mapper form a tree in memory (`Lib/RadixHeap`): every table
was hung in by the walk, on a frame never handed out before.  Descending for a new mapping may
hang in empty tables on the way and fail half-way, which changes no leaf; installing a leaf
changes that leaf alone; `translate` reads the one leaf on its path.

So each operation is one change of the function from slots to leaves, and everything else is
said of that function.
-/
import Nife.PageFormats

namespace Nife.Paging

open PageFormat RadixHeap List Option

open RadixHeap (Tree follow)

/-! ### The tree of tables -/

namespace PageFormat

section

variable (F : PageFormat)

/-- The table that an entry above the bottom points at. -/
def next (e : Word) : Option Word :=
  if F.isPresent e && !F.isBlock e then some (F.entryPa e) else none

/-- A walk stops at a present entry at the bottom and at a block. -/
def stop (level : Nat) (e : Word) : Bool :=
  F.isPresent e && (level = F.levels - 1 || F.isBlock e)

def path (va : Word) (d : Nat) : List Nat := (List.range d).map (F.index va)

end

variable (F : PageFormat) (va : Word) {e : Word} {level : Nat}

@[simp] theorem length_path (d : Nat) : (F.path va d).length = d := by
  rw [path, length_map, length_range]

theorem path_succ (d : Nat) : F.path va (d + 1) = F.path va d ++ [F.index va d] := by
  rw [path, range_succ, map_append]
  rfl

variable {d d' : Nat}

theorem path_prefix (h : d ≤ d') : F.path va d <+: F.path va d' := by
  obtain ⟨k, rfl⟩ := Nat.exists_eq_add_of_le h
  rw [path, path, range_add, map_append]
  exact prefix_append ..

variable {F va}

theorem next_of_absent (h : F.isPresent e = false) : F.next e = none := by
  simp [PageFormat.next, h]

theorem next_of_block (h : F.isBlock e = true) : F.next e = none := by
  simp [PageFormat.next, h]

theorem stop_of_absent (h : F.isPresent e = false) : F.stop level e = false := by
  simp [stop, h]

theorem next_of_stop (hlevel : level < F.levels - 1) (h : F.stop level e = true) :
    F.next e = none := by
  rw [stop, Bool.and_eq_true, Bool.or_eq_true, decide_eq_true_eq] at h
  exact next_of_block (h.2.resolve_left (Nat.ne_of_lt hlevel))

end PageFormat

namespace Mapper

def table (m : Mapper) (p : List Nat) : Option Word := follow m.format.next m.memory m.root p

def leaf (m : Mapper) (p : List Nat) (i : Nat) : Option Word :=
  RadixHeap.leaf m.format.next m.format.stop m.memory m.root p i

def pending (m : Mapper) : List Word := m.frames.filterMap id

/-- **The invariant**: the tables form a tree on frames handed out before, and the allocator
hands out whole frames, none twice. -/
structure Sound (m : Mapper) (field : Nat) : Prop where
  tree : Tree m.format.next m.memory m.root (m.format.levels - 1) fun f => f ∉ m.pending
  frame : ∀ f ∈ m.pending, IsFrame field f
  distinct : m.pending.Nodup

/-- The same tables above the bottom, seen from outside: no leaf has changed. -/
structure Kept (m m' : Mapper) : Prop where
  format : m'.format = m.format
  root : m'.root = m.root
  half : m'.half = m.half
  leaf : ∀ p i, p.length ≤ m.format.levels - 1 → m'.leaf p i = m.leaf p i

theorem Kept.refl (m : Mapper) : Kept m m := ⟨rfl, rfl, rfl, fun _ _ _ => rfl⟩

variable {t : Word} {level count i : Nat} {m' : Mapper} {p : List Nat}
variable {m'' : Mapper} {rest : List (Option Word)} {tablePa e : Word}

theorem Kept.trans {m : Mapper} (h : Kept m m') (h' : Kept m' m'') : Kept m m'' :=
  ⟨h'.format.trans h.format, h'.root.trans h.root, h'.half.trans h.half,
    fun p i hp => (h'.leaf p i (h.format ▸ hp)).trans (h.leaf p i hp)⟩

variable {m : Mapper} {field : Nat} {shown : Flags → Flags} {va : Word}

/-! ### Descending -/

/-- Taking an answer of the allocator changes no table. -/
theorem Sound.alloc (h : m.Sound field) {answer : Option Word}
    (hf : m.frames = answer :: rest) : Sound { m with frames := rest } field := by
  have hsub : (Mapper.pending { m with frames := rest }) <:+ m.pending := by
    rw [pending, pending, hf]
    exact (suffix_cons answer rest).filterMap id
  refine ⟨⟨fun p f hp hfollow hmem => ?_, h.tree.unique⟩, fun f hmem => ?_, ?_⟩
  · exact h.tree.used p f hp hfollow (hsub.subset hmem)
  · exact h.frame f (hsub.subset hmem)
  · exact hsub.sublist.nodup h.distinct

/-- **A missing table is created**, and no leaf changes. -/
theorem Sound.create (h : m.Sound field) (hF : m.format.Lawful field shown)
    (hlevel : level < m.format.levels - 1) {new : Word} (ht : m.table (m.format.path va level) = some t)
    (habsent : m.format.isPresent (m.memory t (m.format.index va level)) = false)
    (hf : m.frames = some new :: rest) :
    let m' := ({ m with frames := rest }.zeroFrame new).setEntry t (m.format.index va level)
      (m.format.tableEntry new)
    m'.Sound field ∧ Kept m m' ∧ m'.table (m.format.path va (level + 1)) = some new ∧
      m'.format.entryPa (m'.memory t (m.format.index va level)) = new := by
  intro m'
  have hpending : m.pending = new :: Mapper.pending { m with frames := rest } := by
    rw [pending, hf]
    rfl
  have hnew : ¬ (new ∉ m.pending) := by simp [hpending]
  have hframe : IsFrame field new := h.frame new (by simp [hpending])
  obtain ⟨hpres, hblock, hpa⟩ := hF.table new hframe
  have hnext : m.format.next (m.format.tableEntry new) = some new := by
    rw [PageFormat.next, hpres, hblock, hpa]
    rfl
  have hzero : m.format.next 0#64 = none := next_of_absent hF.absent_zero
  have hdepth : (m.format.path va level).length < m.format.levels - 1 := by simpa using hlevel
  have hold : m.format.next (m.memory t (m.format.index va level)) = none :=
    next_of_absent habsent
  have hmem : m'.memory = link m.memory t (m.format.index va level)
      (m.format.tableEntry new) 0#64 new := rfl
  have hT' := h.tree.link hnew hdepth ht hnext hzero (i := m.format.index va level)
  refine ⟨⟨⟨fun p f hp hfollow => ?_, hT'.unique⟩, fun f hf' => ?_, ?_⟩, ⟨rfl, rfl, rfl, fun p i hp => ?_⟩, ?_, ?_⟩
  · -- the new table's frame is handed out once
    rcases hT'.used p f hp hfollow with hused | rfl
    · intro hmem'
      exact hused (hpending ▸ mem_cons_of_mem _ hmem')
    · have hdist := h.distinct
      rw [hpending] at hdist
      exact (nodup_cons.mp hdist).1
  · exact h.frame f (hpending ▸ mem_cons_of_mem _ hf')
  · have hdist := h.distinct
    rw [hpending] at hdist
    exact (nodup_cons.mp hdist).2
  · have hnotstop : m.format.stop (m.format.path va level).length (m.format.tableEntry new) = false := by
      simp [stop, hblock, Nat.ne_of_lt hlevel]
    exact leaf_link h.tree hnew hdepth ht hold hnext hzero hnotstop
      (stop_of_absent habsent) (fun d => stop_of_absent hF.absent_zero) hp
  · rw [path_succ]
    exact follow_link_self h.tree hnew hdepth ht hnext
  · show m.format.entryPa (m'.memory t _) = new
    have hself : m'.memory t (m.format.index va level) = m.format.tableEntry new := by
      rw [hmem, link, write_apply, if_pos ⟨rfl, rfl⟩]
    rw [hself, hpa]

theorem table_succ (ht : m.table (m.format.path va level) = some t)
    (hpres : m.format.isPresent (m.memory t (m.format.index va level)) = true)
    (hblock : m.format.isBlock (m.memory t (m.format.index va level)) = false) :
    m.table (m.format.path va (level + 1))
      = some (m.format.entryPa (m.memory t (m.format.index va level))) := by
  have ht : follow m.format.next m.memory m.root (m.format.path va level) = some t := ht
  rw [table, path_succ, follow_concat, ht, bind_some, PageFormat.next, hpres, hblock]
  rfl

/-- What a descent from `m` may leave: a sound mapper with the leaves of `m`, and, if it gets
there, the table at the end of the path. -/
structure Descended (field : Nat) (m : Mapper) (p : List Nat) (r : Except MapError Word × Mapper) :
    Prop where
  sound : r.2.Sound field
  kept : Kept m r.2
  arrived : ∀ t, r.1 = .ok t → r.2.table p = some t

theorem Descended.of_kept {r : Except MapError Word × Mapper}
    (hk : Kept m m') (h : Descended field m' p r) : Descended field m p r :=
  ⟨h.sound, hk.trans h.kept, h.arrived⟩

/-- **The descent**, however far it gets. -/
theorem descend_spec (va : Word) (h : m.Sound field)
    (hF : m.format.Lawful field shown) (hlevel : level + count ≤ m.format.levels - 1)
    (ht : m.table (m.format.path va level) = some tablePa) :
    Descended field m (m.format.path va (level + count)) (descend va count level tablePa m) := by
  induction count generalizing level tablePa m with
  | zero =>
    refine ⟨h, .refl m, fun t hok => ?_⟩
    obtain rfl : tablePa = t := by injection hok
    exact ht
  | succ count ih =>
    have hassoc : level + (count + 1) = level + 1 + count := by omega
    rw [descend, hassoc]
    split
    · next habsent =>
      have habsent : m.format.isPresent (m.memory tablePa (m.format.index va level)) = false := by
        simpa using habsent
      unfold allocPageFrame
      rcases hf : m.frames with - | ⟨- | new, rest⟩
      · exact ⟨h, .refl m, nofun⟩
      · exact ⟨h.alloc hf, ⟨rfl, rfl, rfl, fun _ _ _ => rfl⟩, nofun⟩
      · obtain ⟨hsound, hkept, htable, hentry⟩ :=
          h.create hF (by omega) ht habsent hf
        dsimp only at hentry ⊢
        rw [hentry]
        exact .of_kept hkept (ih hsound hF (by show _ ≤ m.format.levels - 1; omega) htable)
    · next hpres =>
      split
      · exact ⟨h, .refl m, nofun⟩
      · next hblock =>
        exact ih h hF (by omega) (table_succ ht (by simpa using hpres) (by simpa using hblock))

/-! ### Installing a leaf -/

/-- The leaf function with one slot changed. -/
structure Changed (m m' : Mapper) (p : List Nat) (i : Nat) (e : Option Word) : Prop where
  format : m'.format = m.format
  root : m'.root = m.root
  half : m'.half = m.half
  leaf : ∀ q j, q.length ≤ m.format.levels - 1 →
    m'.leaf q j = if q = p ∧ j = i then e else m.leaf q j

theorem Kept.changed {e : Option Word}
    (hk : Kept m m') (h : Changed m' m'' p i e) : Changed m m'' p i e :=
  ⟨h.format.trans hk.format, h.root.trans hk.root, h.half.trans hk.half, fun q j hq => by
    rw [h.leaf q j (hk.format ▸ hq), hk.leaf q j hq]⟩

/-- **One entry is written** in a table of the tree, over one that led nowhere. -/
theorem Sound.setEntry (h : m.Sound field)
    (hp : p.length ≤ m.format.levels - 1) (ht : m.table p = some t)
    (hold : p.length < m.format.levels - 1 → m.format.next (m.memory t i) = none)
    (he : p.length < m.format.levels - 1 → m.format.next e = none) :
    (m.setEntry t i e).Sound field ∧
      Changed m (m.setEntry t i e) p i (if m.format.stop p.length e then some e else none) :=
  ⟨⟨h.tree.write hp ht he, h.frame, h.distinct⟩, rfl, rfl, rfl, fun _ _ hq =>
    leaf_write h.tree hp ht hold he hq⟩

theorem table_root (m : Mapper) (va : Word) : m.table (m.format.path va 0) = some m.root := rfl

theorem leaf_of_absent (ht : m.table p = some t)
    (habsent : m.format.isPresent (m.memory t i) = false) : m.leaf p i = none := by
  have ht : follow m.format.next m.memory m.root p = some t := ht
  rw [leaf, RadixHeap.leaf, ht, bind_some, stop_of_absent habsent, if_neg (by simp)]

/-- **Installing a leaf** changes its slot, which was free; a failure changes nothing. -/
theorem install_spec (va : Word) (h : m.Sound field) (hF : m.format.Lawful field shown) {leafLevel : Nat}
    {leaf : Word} (hlevel : leafLevel ≤ m.format.levels - 1)
    (hleaf : m.format.stop leafLevel leaf = true) :
    (m.install va leafLevel leaf).2.Sound field ∧ ((m.install va leafLevel leaf).1 = .ok () →
        m.leaf (m.format.path va leafLevel) (m.format.index va leafLevel) = none ∧
        Changed m (m.install va leafLevel leaf).2 (m.format.path va leafLevel)
          (m.format.index va leafLevel) (some leaf)) ∧
      ∀ err, (m.install va leafLevel leaf).1 = .error err → Kept m (m.install va leafLevel leaf).2 := by
  have hd := descend_spec va h hF (by omega : 0 + leafLevel ≤ _) (m.table_root va)
  rw [Nat.zero_add] at hd
  unfold install
  rcases hr : descend va leafLevel 0 m.root m with ⟨err | t, m'⟩
  · rw [hr] at hd
    exact ⟨hd.sound, nofun, fun _ _ => hd.kept⟩
  · rw [hr] at hd
    obtain ⟨hsound, hkept, harrived⟩ := hd
    have ht : m'.table (m.format.path va leafLevel) = some t := harrived t rfl
    have hfmt := hkept.format
    dsimp only
    rw [hfmt]
    split
    · exact ⟨hsound, nofun, fun _ _ => hkept⟩
    · next habsent =>
      have habsent : m'.format.isPresent (m'.memory t (m.format.index va leafLevel)) = false := by
        rw [hfmt]
        simpa using habsent
      have hlen : (m.format.path va leafLevel).length ≤ m'.format.levels - 1 := by
        rw [hfmt, length_path]
        exact hlevel
      obtain ⟨hsound', hchanged⟩ := hsound.setEntry (e := leaf) hlen ht
        (fun _ => next_of_absent habsent)
        (fun hlt => next_of_stop hlt (by rw [hfmt, length_path]; exact hleaf))
      rw [length_path, hfmt, hleaf] at hchanged
      refine ⟨hsound', fun _ => ⟨?_, hkept.changed hchanged⟩, nofun⟩
      rw [← hkept.leaf _ _ (by simpa using hlevel)]
      exact leaf_of_absent ht habsent

/-! ### Removing a leaf -/

theorem unmapWalk_spec (ht : m.table (m.format.path va level) = some tablePa)
    (hok : m.unmapWalk va count level tablePa = .ok t) :
    m.table (m.format.path va (level + count)) = some t := by
  induction count generalizing level tablePa with
  | zero =>
    obtain rfl : tablePa = t := by injection hok
    exact ht
  | succ count ih =>
    rw [unmapWalk] at hok
    split at hok
    · cases hok
    · next hpres =>
      split_ifs at hok with hblock
      have hassoc : level + (count + 1) = level + 1 + count := by omega
      rw [hassoc]
      exact ih (table_succ ht (by simpa using hpres) (by simpa using hblock)) hok

/-- **Removing a leaf** empties its slot; a failure changes nothing. -/
theorem unmap_spec (va : Word) (h : m.Sound field) (hF : m.format.Lawful field shown) :
    (∀ pa flush, (m.unmap va).1 = .ok (pa, flush) →
      m.format.isInHalf m.half va = true ∧ isMultipleOf va pageSize = true ∧
      (∃ e, m.leaf (m.format.path va (m.format.levels - 1))
        (m.format.index va (m.format.levels - 1)) = some e ∧ pa = m.format.entryPa e) ∧
      (m.unmap va).2.Sound field ∧
      Changed m (m.unmap va).2 (m.format.path va (m.format.levels - 1))
        (m.format.index va (m.format.levels - 1)) none) ∧
      ∀ err, (m.unmap va).1 = .error err → (m.unmap va).2 = m := by
  unfold unmap
  split
  · exact ⟨nofun, fun _ _ => rfl⟩
  · next hhalf =>
    split
    · exact ⟨nofun, fun _ _ => rfl⟩
    · next hal =>
      rcases hwalk : m.unmapWalk va (m.format.levels - 1) 0 m.root with err | t
      · exact ⟨nofun, fun _ _ => rfl⟩
      · have ht := unmapWalk_spec (m.table_root va) hwalk
        rw [Nat.zero_add] at ht
        dsimp only
        split
        · exact ⟨nofun, fun _ _ => rfl⟩
        · next hpres =>
          have hlen : (m.format.path va (m.format.levels - 1)).length = m.format.levels - 1 :=
            length_path ..
          obtain ⟨hsound, hchanged⟩ := h.setEntry (e := 0#64)
            (i := m.format.index va (m.format.levels - 1)) (Nat.le_of_eq hlen) ht
            (fun hlt => absurd hlen (Nat.ne_of_lt hlt))
            (fun hlt => absurd hlen (Nat.ne_of_lt hlt))
          rw [stop_of_absent hF.absent_zero] at hchanged
          refine ⟨fun pa flush hok => ?_, nofun⟩
          have hpa := congrArg Prod.fst (Except.ok.inj hok)
          refine ⟨by simpa using hhalf, by simpa using hal, ⟨_, ?_, hpa.symm⟩, hsound, hchanged⟩
          refine leaf_eq_some.mpr ⟨t, ht, rfl, ?_⟩
          rw [stop]
          simpa using hpres

/-! ### Translating -/

/-- What `translate` reports of a leaf that it meets at level `d`. -/
def shows (m : Mapper) (va : Word) (d : Nat) (e : Word) : Word × Flags :=
  if d = m.format.levels - 1 then (m.format.entryPa e + va % pageSize, m.format.leafFlags e)
  else
    let span := pageSize <<< (9 * (m.format.levels - 1 - d))
    ((m.format.entryPa e &&& ~~~(span - 1)) + (va &&& (span - 1)), m.format.leafFlags e)

theorem translateWalk_spec (va : Word) (hlevel : level + count = m.format.levels - 1)
    (ht : m.table (m.format.path va level) = some t) :
    (∃ d e, d ≤ m.format.levels - 1 ∧ m.leaf (m.format.path va d) (m.format.index va d) = some e ∧
      m.translateWalk va count level t = some (m.shows va d e)) ∨
    ((∀ d, level ≤ d → d ≤ m.format.levels - 1 →
      m.leaf (m.format.path va d) (m.format.index va d) = none) ∧
      m.translateWalk va count level t = none) := by
  induction count generalizing level t with
  | zero =>
    rw [translateWalk]
    split
    · next habsent =>
      refine .inr ⟨fun d hle hge => ?_, rfl⟩
      obtain rfl : level = d := by omega
      exact leaf_of_absent ht (by simpa using habsent)
    · next hpres =>
      refine .inl ⟨level, m.memory t (m.format.index va level), by omega, ?_, ?_⟩
      · refine leaf_eq_some.mpr ⟨t, ht, rfl, ?_⟩
        rw [PageFormat.stop]
        simpa [← hlevel] using hpres
      · rw [shows, if_pos (by omega)]
  | succ count ih =>
    rw [translateWalk]
    split
    · next habsent =>
      have habsent : m.format.isPresent (m.memory t (m.format.index va level)) = false := by
        simpa using habsent
      refine .inr ⟨fun d hle hge => ?_, rfl⟩
      rcases Nat.eq_or_lt_of_le hle with rfl | hlt
      · exact leaf_of_absent ht habsent
      · -- nothing lies below an absent entry
        have hprefix := path_prefix m.format va hlt
        rw [path_succ] at hprefix
        rw [leaf, RadixHeap.leaf, follow_below ht (next_of_absent habsent) hprefix]
        rfl
    · next hpres =>
      have hpres : m.format.isPresent (m.memory t (m.format.index va level)) = true := by
        simpa using hpres
      split
      · next hblock =>
        refine .inl ⟨level, m.memory t (m.format.index va level), by omega, ?_, ?_⟩
        · refine leaf_eq_some.mpr ⟨t, ht, rfl, ?_⟩
          rw [PageFormat.stop, hpres, hblock]
          simp
        · rw [shows, if_neg (by omega)]
      · next hblock =>
        have hblock : m.format.isBlock (m.memory t (m.format.index va level)) = false := by
          simpa using hblock
        rcases ih (by omega) (table_succ ht hpres hblock) with hfound | ⟨hnone, heq⟩
        · exact .inl hfound
        · refine .inr ⟨fun d hle hge => ?_, heq⟩
          rcases Nat.eq_or_lt_of_le hle with rfl | hlt
          · have ht : follow m.format.next m.memory m.root (m.format.path va level) = some t := ht
            rw [leaf, RadixHeap.leaf, ht, bind_some, length_path,
              PageFormat.stop, hblock, if_neg]
            simp only [Bool.and_eq_true, Bool.or_false, decide_eq_true_eq]
            omega
          · exact hnone d hlt hge

theorem leaf_unique {e' : Word} (hd : d ≤ m.format.levels - 1) (hd' : d' ≤ m.format.levels - 1)
    (h : m.leaf (m.format.path va d) (m.format.index va d) = some e)
    (h' : m.leaf (m.format.path va d') (m.format.index va d') = some e') : d = d' := by
  have hnot : ∀ {a b : Nat} {x y : Word}, b ≤ m.format.levels - 1 →
      m.leaf (m.format.path va a) (m.format.index va a) = some x →
      m.leaf (m.format.path va b) (m.format.index va b) = some y → ¬ a < b := by
    intro a b x y hb ha hleaf hlt
    have hprefix := path_prefix m.format va hlt
    rw [path_succ] at hprefix
    have hnone := leaf_below (j := m.format.index va b)
      (fun e => next_of_stop (by rw [length_path]; omega)) ha hprefix
    rw [leaf, hnone] at hleaf
    cases hleaf
  have hle := hnot hd' h h'
  have hge := hnot hd h' h
  omega

/-- **`translate` reads the one leaf on the path.** -/
theorem translate_eq_some {r : Word × Flags} :
    m.translate va = some r ↔ m.format.isInHalf m.half va = true ∧ ∃ d e, d ≤ m.format.levels - 1 ∧
        m.leaf (m.format.path va d) (m.format.index va d) = some e ∧ r = m.shows va d e := by
  unfold translate
  split
  · next hhalf => simp_all
  · next hhalf =>
    have hhalf : m.format.isInHalf m.half va = true := by simpa using hhalf
    have hspec := translateWalk_spec va (Nat.zero_add _) (m.table_root va)
    constructor
    · intro hr
      rcases hspec with ⟨d, e, hd, hleaf, heq⟩ | ⟨-, heq⟩
      · rw [heq, Option.some.injEq] at hr
        exact ⟨hhalf, d, e, hd, hleaf, hr.symm⟩
      · rw [heq] at hr
        cases hr
    · rintro ⟨-, d, e, hd, hleaf, rfl⟩
      rcases hspec with ⟨d', e', hd', hleaf', heq⟩ | ⟨hnone, -⟩
      · obtain rfl := leaf_unique hd hd' hleaf hleaf'
        rw [hleaf, Option.some.injEq] at hleaf'
        rw [heq, hleaf']
      · rw [hnone d (Nat.zero_le d) hd] at hleaf
        cases hleaf

/-- **With the same leaves, the same translation.** -/
theorem translate_of_kept (hk : Kept m m') (va : Word) : m'.translate va = m.translate va := by
  have hshows : m'.shows = m.shows := by
    funext va d e
    rw [shows, shows, hk.format]
  refine ext fun r => ?_
  rw [translate_eq_some, translate_eq_some, hk.format, hk.half, hshows]
  refine and_congr_right fun _ => exists_congr fun d => exists_congr fun e => ?_
  refine and_congr_right fun hd => ?_
  rw [hk.leaf _ _ (by simpa using hd)]

end Mapper

end Nife.Paging
