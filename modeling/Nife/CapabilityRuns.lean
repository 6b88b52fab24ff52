/-
Capability tables over whole runs.  The run carries two ghosts beside the table: the counts
reached so far, newest first, and for each slot the capability that was put or inserted and
that the one in it now was derived from.  `bookkeeping_sound` is the whole account: the free
word, the count and the high-water mark are right after every sequence of operations, a refused
operation changes nothing, a sweep is a deletion of each slot that matches, and a derived
capability names its origin's object with no more than its rights.

At the end the kernel's own table (`Nife.CapabilityTable`), which has slots only, is this one
with the records forgotten (`kernel_table_refined`).
-/
import Nife.CapabilityStorage

namespace Nife

open List Option Function BitVec

namespace Storage

variable {O : Type*} {N : Nat}

/-- The operations on a table. -/
inductive CapOp (O : Type*)
  | insert (cap : Cap O)
  | insertAt (slot : Nat) (cap : Cap O)
  | put (slot : Nat) (cap : Cap O)
  | derive (source target : Nat) (rights : Rights)
  | delete (slot : Nat)
  | deleteMatching (p : O → Bool)

namespace CapabilityTable

/-- An operation with its answer: the slot it filled, if it says so. -/
def perform (t : CapabilityTable O N) : CapOp O → Except Error (Option Nat) × CapabilityTable O N
  | .insert cap => ((t.insert cap).1.map some, (t.insert cap).2)
  | .insertAt slot cap => ((t.insertAt slot cap).1.map some, (t.insertAt slot cap).2)
  | .put slot cap => ((t.put slot cap).1.map fun _ => none, (t.put slot cap).2)
  | .derive source target rights =>
    ((t.derive source target rights).1.map fun _ => none, (t.derive source target rights).2)
  | .delete slot => ((t.delete slot).1.map fun _ => none, (t.delete slot).2)
  | .deleteMatching p => (.ok none, t.deleteMatching p)

variable {t : CapabilityTable O N}

/-! ### What one operation does -/

theorem put_cases (t : CapabilityTable O N) (i : Nat) (cap : Cap O) :
    (N ≤ i ∧ t.put i cap = (.error .noSuchSlot, t)) ∨
      (i < N ∧ t.put i cap = (.ok (), (t.fill i cap).2)) := by
  unfold put
  rcases lt_or_ge i N with hi | hi
  · obtain ⟨b, hb⟩ : ∃ b, (t.fill i cap).1 = some b := fill_fst hi
    rcases hf : t.fill i cap with ⟨r, t'⟩
    rw [hf] at hb
    cases hb
    exact .inr ⟨hi, rfl⟩
  · rw [fill_of_le hi]
    exact .inl ⟨hi, rfl⟩

/-- **What one operation does**: it is refused and changes nothing, it fills a slot, or it
empties slots. -/
inductive Effect (t : CapabilityTable O N) :
    CapOp O → Except Error (Option Nat) × CapabilityTable O N → Prop
  | refused (op : CapOp O) (e : Error) : Effect t op (.error e, t)
  | inserted {i : Nat} (hi : i < N) (cap : Cap O) :
      Effect t (.insert cap) (.ok (some i), (t.fill i cap).2)
  | insertedAt {i : Nat} (hi : i < N) (cap : Cap O) :
      Effect t (.insertAt i cap) (.ok (some i), (t.fill i cap).2)
  | replaced {i : Nat} (hi : i < N) (cap : Cap O) : Effect t (.put i cap) (.ok none, (t.fill i cap).2)
  | derived {i j : Nat} (hj : j < N) {src : Cap O} (hsrc : t.slot i = some src) {rights : Rights}
      (hsub : rights.isSubsetOf src.rights = true) :
      Effect t (.derive i j rights) (.ok none, (t.fill j ⟨src.object, rights⟩).2)
  | deleted (i : Nat) : Effect t (.delete i) (.ok none, (t.empty i).2)
  | swept (p : O → Bool) : Effect t (.deleteMatching p) (.ok none, t.deleteMatching p)

variable {i : Nat}

/-- The lowest set bit of the free word is the lowest empty slot. -/
theorem Kept.firstFree_eq_some (h : t.Kept) (hi : t.firstFree = some i) :
    ∃ hN : i < N, t.slots ⟨i, hN⟩ = none ∧ ∀ j, (hj : j < i) → t.slots ⟨j, hj.trans hN⟩ ≠ none := by
  unfold firstFree at hi
  split_ifs at hi with hne
  cases hi
  obtain ⟨hlt, hnone⟩ := (h.free _).mp (getLsbD_true_ctz_of_ne_zero hne)
  refine ⟨hlt, hnone, fun j hj hempty => ?_⟩
  have hset := (h.free j).mpr ⟨hj.trans hlt, hempty⟩
  rw [getLsbD_false_of_lt_ctz hj] at hset
  cases hset

theorem Kept.firstFree_eq_none (h : t.Kept) : t.firstFree = none ↔ ∀ i, t.slots i ≠ none := by
  unfold firstFree
  constructor
  · intro hfull i hempty
    split_ifs at hfull with hzero
    have hset := (h.free i).mpr ⟨i.isLt, hempty⟩
    rw [hzero, getLsbD_zero] at hset
    cases hset
  · intro hfull
    rw [if_pos]
    apply eq_of_getLsbD_eq
    intro i _
    rw [getLsbD_zero, Bool.eq_false_iff]
    intro hset
    obtain ⟨hlt, hempty⟩ := (h.free i).mp hset
    exact hfull ⟨i, hlt⟩ hempty

theorem perform_effect (h : t.Kept) (op : CapOp O) : Effect t op (t.perform op) := by
  rcases op with cap | ⟨i, cap⟩ | ⟨i, cap⟩ | ⟨i, j, rights⟩ | i | p
  · simp only [perform, insert]
    rcases hf : t.firstFree with - | i
    · exact .refused _ _
    · obtain ⟨hi, -⟩ := h.firstFree_eq_some hf
      exact .inserted hi cap
  · simp only [perform, insertAt]
    split
    · exact .refused _ _
    · next hi =>
      split
      · exact .refused _ _
      · exact .insertedAt (Nat.lt_of_not_le hi) cap
  · rcases put_cases t i cap with ⟨-, hp⟩ | ⟨hi, hp⟩
    · simp only [perform, hp]
      exact .refused _ _
    · simp only [perform, hp]
      exact .replaced hi cap
  · simp only [perform, derive, get]
    rcases hs : t.slot i with - | src
    · exact .refused _ _
    · by_cases hsub : rights.isSubsetOf src.rights = true
      · simp only [hsub, if_true]
        rcases put_cases t j ⟨src.object, rights⟩ with ⟨-, hp⟩ | ⟨hj, hp⟩
        · rw [hp]
          exact .refused _ _
        · rw [hp]
          exact .derived hj hs hsub
      · simp only [hsub]
        exact .refused _ _
  · simp only [perform, delete]
    rcases hs : t.slot i with - | c
    · rw [empty_of_none hs]
      exact .refused _ _
    · rcases he : t.empty i with ⟨r, t'⟩
      have ht' : t' = (t.empty i).2 := by rw [he]
      rcases r with - | c'
      · -- a taken slot is emptied
        have hi : i < N := lt_of_slot (by rw [hs]; rfl)
        rw [slot, dif_pos hi] at hs
        simp only [empty, dif_pos hi] at he
        split at he
        · next hnone => rw [hs] at hnone; cases hnone
        · cases he
      · rw [ht']
        exact .deleted i
  · exact .swept p

/-! ### Rights only narrow -/

end CapabilityTable

theorem isSubsetOf_iff {a b : Rights} :
    a.isSubsetOf b = true ↔ ∀ i, a.bits.getLsbD i = true → b.bits.getLsbD i = true := by
  rw [Rights.isSubsetOf, beq_iff_eq]
  constructor
  · intro h i hi
    have hbit := congrArg (·.getLsbD i) h
    have hlt : i < 32 := lt_of_getLsbD hi
    simp only [getLsbD_and, getLsbD_not, hi, hlt] at hbit
    simpa using hbit
  · intro h
    apply eq_of_getLsbD_eq
    intro i hlt
    rw [getLsbD_and, getLsbD_not]
    rcases ha : a.bits.getLsbD i with - | -
    · simp
    · rw [h i ha]
      simp

/-- `c` names the object of `o` with no more than its rights. -/
def Within (c o : Cap O) : Prop := c.object = o.object ∧ c.rights.isSubsetOf o.rights = true

theorem Within.refl (c : Cap O) : Within c c := ⟨rfl, isSubsetOf_iff.mpr fun _ h => h⟩

theorem Within.narrow {c : Cap O} (h : Within c o) {rights : Rights}
    (hsub : rights.isSubsetOf c.rights = true) : Within ⟨c.object, rights⟩ o :=
  ⟨h.1, isSubsetOf_iff.mpr fun i hi => isSubsetOf_iff.mp h.2 i (isSubsetOf_iff.mp hsub i hi)⟩

/-! ### Runs -/

/-- A table and its two ghosts. -/
structure Holding (O : Type*) (N : Nat) where
  table : CapabilityTable O N
  /-- The counts after each operation so far, newest first. -/
  reached : List Nat
  /-- The capability put or inserted that the slot's present one comes from. -/
  origin : Nat → Option (Cap O)

namespace Holding

def new : Holding O N := ⟨.new, [0], fun _ => none⟩

/-- The origins after an operation and its answer. -/
def record (s : Holding O N) : CapOp O → Except Error (Option Nat) → Nat → Option (Cap O)
  | .insert cap, .ok (some slot) => update s.origin slot (some cap)
  | .insertAt slot cap, .ok _ => update s.origin slot (some cap)
  | .put slot cap, .ok _ => update s.origin slot (some cap)
  | .derive source target _, .ok _ => update s.origin target (s.origin source)
  | _, _ => s.origin

def apply (s : Holding O N) (op : CapOp O) : Holding O N :=
  ⟨(s.table.perform op).2, (s.table.perform op).2.used :: s.reached,
    s.record op (s.table.perform op).1⟩

def run (ops : List (CapOp O)) : Holding O N := ops.foldl apply new

/-- **The invariant.** -/
structure Inv (s : Holding O N) : Prop where
  kept : s.table.Kept
  /-- The high-water mark is the greatest count reached. -/
  peak : (∀ n ∈ s.reached, n ≤ s.table.peak) ∧ s.table.peak ∈ s.reached
  used : s.table.used ∈ s.reached
  derived : ∀ i c, s.table.slot i = some c → ∃ o, s.origin i = some o ∧ Within c o

theorem inv_new (hN : N ≤ maxSlots) : (new : Holding O N).Inv where
  kept := CapabilityTable.kept_new hN
  peak := ⟨fun n hn => le_of_eq (mem_singleton.mp hn), mem_cons_self⟩
  used := mem_cons_self
  derived i c hc := by
    simp only [new, CapabilityTable.slot, CapabilityTable.new] at hc
    split at hc <;> cases hc

variable {s : Holding O N} {t : CapabilityTable O N}

theorem slot_fill (hi : i < N) (cap : Cap O) (j : Nat) :
    (t.fill i cap).2.slot j = if j = i then some cap else t.slot j := by
  unfold CapabilityTable.slot
  by_cases hj : j < N
  · rw [dif_pos hj, dif_pos hj, CapabilityTable.slots_fill hi]
    by_cases hij : j = i
    · subst hij
      rw [update_self, if_pos rfl]
    · rw [update_of_ne (by simpa using hij), if_neg hij]
  · have hne : j ≠ i := fun h => hj (h ▸ hi)
    rw [dif_neg hj, dif_neg hj, if_neg hne]

theorem peak_fill (h : t.Kept) (hi : i < N) (cap : Cap O) :
    (t.fill i cap).2.peak = max t.peak (t.fill i cap).2.used := by
  have hle := h.used_le_peak
  by_cases hempty : (t.slots ⟨i, hi⟩).isNone
  · simp only [CapabilityTable.fill, dif_pos hi, hempty, if_true]
    split <;> omega
  · simp only [CapabilityTable.fill, dif_pos hi, hempty]
    exact (max_eq_left hle).symm

theorem peak_empty (t : CapabilityTable O N) (i : Nat) : (t.empty i).2.peak = t.peak := by
  unfold CapabilityTable.empty
  split
  · split <;> rfl
  · rfl

theorem peak_deleteMatching (h : t.Kept) (hN : N ≤ maxSlots) (p : O → Bool) :
    (t.deleteMatching p).peak = t.peak := by
  rw [CapabilityTable.deleteMatching_eq h hN]
  generalize (List.range N).filter (CapabilityTable.matchesAt p t) = l
  induction l generalizing t with
  | nil => rfl
  | cons i l ih =>
    rw [foldl_cons, CapabilityTable.delete_snd, ih (h.empty hN i), peak_empty]

theorem peak_cons {l : List Nat} {peak used : Nat} (h : (∀ n ∈ l, n ≤ peak) ∧ peak ∈ l) :
    (∀ n ∈ used :: l, n ≤ max peak used) ∧ max peak used ∈ used :: l := by
  constructor
  · intro n hn
    rcases mem_cons.mp hn with rfl | hn
    · exact le_max_right ..
    · exact (h.1 n hn).trans (le_max_left ..)
  · rcases le_total peak used with hle | hle
    · rw [max_eq_right hle]
      exact mem_cons_self
    · rw [max_eq_left hle]
      exact mem_cons_of_mem _ h.2

/-- A slot filled with a capability that comes from `o`. -/
theorem Inv.fill (h : s.Inv) (hN : N ≤ maxSlots) (hi : i < N) {cap : Cap O} (ho : Within cap o) :
    Inv (⟨(s.table.fill i cap).2, (s.table.fill i cap).2.used :: s.reached,
      update s.origin i (some o)⟩ : Holding O N) where
  kept := h.kept.fill hN i cap
  peak := by
    rw [peak_fill h.kept hi]
    exact peak_cons h.peak
  used := mem_cons_self
  derived j c hc := by
    rw [slot_fill hi] at hc
    by_cases hji : j = i
    · subst hji
      rw [if_pos rfl] at hc
      cases hc
      exact ⟨o, update_self .., ho⟩
    · rw [if_neg hji] at hc
      show ∃ o', update s.origin i (some o) j = some o' ∧ Within c o'
      rw [update_of_ne hji]
      exact h.derived j c hc

/-- Slots emptied: the mark stays, and what is left comes from where it did. -/
theorem Inv.shrink (h : s.Inv) (hk : t.Kept) (hpeak : t.peak = s.table.peak)
    (hslot : ∀ i c, t.slot i = some c → s.table.slot i = some c) :
    Inv (⟨t, t.used :: s.reached, s.origin⟩ : Holding O N) where
  kept := hk
  peak := by
    have hmax : t.peak = max s.table.peak t.used := by
      rw [← hpeak, max_eq_left hk.used_le_peak]
    rw [hmax]
    exact peak_cons h.peak
  used := mem_cons_self
  derived i c hc := h.derived i c (hslot i c hc)

theorem Inv.apply (h : s.Inv) (hN : N ≤ maxSlots) (op : CapOp O) : (s.apply op).Inv := by
  have heff := CapabilityTable.perform_effect h.kept op
  unfold Holding.apply
  generalize s.table.perform op = out at heff
  cases heff with
  | refused op e =>
    have hrec : s.record op (.error e) = s.origin := by rcases op with _ | _ | _ | _ | _ | _ <;> rfl
    simp only [hrec]
    exact h.shrink h.kept rfl fun _ _ hc => hc
  | inserted hi cap | insertedAt hi cap | replaced hi cap => exact h.fill hN hi (Within.refl cap)
  | derived hj hsrc hsub =>
    obtain ⟨o, ho, hw⟩ := h.derived _ _ hsrc
    have hfill := h.fill hN hj (hw.narrow hsub)
    rw [← ho] at hfill
    exact hfill
  | deleted i =>
    refine h.shrink (h.kept.empty hN i) (peak_empty ..) fun j c hc => ?_
    rw [CapabilityTable.slot_empty] at hc
    split_ifs at hc
    exact hc
  | swept p =>
    refine h.shrink (h.kept.deleteMatching hN p) (peak_deleteMatching h.kept hN p) fun j c hc => ?_
    rw [CapabilityTable.slot_deleteMatching h.kept hN] at hc
    exact (filter_eq_some_iff.mp hc).1

theorem inv_run (hN : N ≤ maxSlots) (ops : List (CapOp O)) : (run ops : Holding O N).Inv := by
  induction ops using List.reverseRecOn with
  | nil => exact inv_new hN
  | append_singleton ops op ih =>
    rw [run, foldl_append]
    exact ih.apply hN op

/-! ### The account of a run -/

/-- What holds after a run. -/
structure Sound (s : Holding O N) : Prop where
  free : ∀ i, s.table.free.getLsbD i = true ↔ ∃ h : i < N, s.table.slots ⟨i, h⟩ = none
  used : s.table.used = (Finset.univ.filter fun i => (s.table.slots i).isSome).card
  /-- The mark is the greatest of the counts reached. -/
  peak : (∀ n ∈ s.reached, n ≤ s.table.peak) ∧ s.table.peak ∈ s.reached
  /-- `insert` fills the lowest empty slot. -/
  insert_lowest : ∀ i, s.table.slots i = none → (∀ j < i, s.table.slots j ≠ none) → ∀ cap,
    (s.table.insert cap).1 = .ok i.val ∧
      (s.table.insert cap).2.slots = update s.table.slots i (some cap)
  insert_full : ∀ cap, (∃ e, (s.table.insert cap).1 = .error e) ↔ ∀ i, s.table.slots i ≠ none
  refused : ∀ op e, (s.table.perform op).1 = .error e → (s.table.perform op).2 = s.table
  /-- The sweep is a deletion of each slot that matches, and touches no other. -/
  sweep : ∀ p, s.table.deleteMatching p =
    ((List.range N).filter (CapabilityTable.matchesAt p s.table)).foldl
      (fun t i => (t.delete i).2) s.table
  sweep_slots : ∀ p i, (s.table.deleteMatching p).slot i =
    (s.table.slot i).filter fun c => !p c.object
  derived : ∀ i c, s.table.slot i = some c → ∃ o, s.origin i = some o ∧ Within c o

theorem Inv.insert_lowest (h : s.Inv) (i : Fin N) (hi : s.table.slots i = none)
    (hlow : ∀ j < i, s.table.slots j ≠ none) (cap : Cap O) :
    (s.table.insert cap).1 = .ok i.val ∧
      (s.table.insert cap).2.slots = update s.table.slots i (some cap) := by
  rcases hf : s.table.firstFree with - | k
  · exact absurd hi (h.kept.firstFree_eq_none.mp hf i)
  · obtain ⟨hk, hnone, hbelow⟩ := h.kept.firstFree_eq_some hf
    -- neither of the two lies below the other
    have hki : k = i.val := by
      rcases Nat.lt_trichotomy k i.val with hlt | heq | hgt
      · exact absurd hnone (hlow ⟨k, hk⟩ hlt)
      · exact heq
      · exact absurd hi (hbelow i.val hgt)
    subst hki
    simp only [CapabilityTable.insert, hf]
    exact ⟨trivial, CapabilityTable.slots_fill hk⟩

theorem Inv.sound (h : s.Inv) (hN : N ≤ maxSlots) : s.Sound where
  free := h.kept.free
  used := h.kept.used
  peak := h.peak
  insert_lowest := h.insert_lowest
  insert_full cap := by
    rw [← h.kept.firstFree_eq_none]
    unfold CapabilityTable.insert
    rcases s.table.firstFree with - | k
    · exact iff_of_true ⟨_, rfl⟩ rfl
    · exact iff_of_false (fun ⟨e, he⟩ => by cases he) (some_ne_none k)
  refused op e he := by
    have heff := CapabilityTable.perform_effect h.kept op
    generalize s.table.perform op = out at heff he
    cases heff with
    | refused op e => rfl
    | inserted hi cap => cases he
    | insertedAt hi cap | replaced hi cap | derived hj hsrc hsub | deleted i | swept p => cases he
  sweep := CapabilityTable.deleteMatching_eq h.kept hN
  sweep_slots := CapabilityTable.slot_deleteMatching h.kept hN
  derived := h.derived

/-- **Bookkeeping and authority are sound over whole runs**, for any object type and any
number of slots a word of free bits can hold. -/
theorem bookkeeping_sound (hN : N ≤ maxSlots) (ops : List (CapOp O)) :
    (run ops : Holding O N).Sound := (inv_run hN ops).sound hN

/-- A capability inserted, derived over itself with less, and deleted. -/
theorem bookkeeping_sound_selfDerive :
    2 ≤ maxSlots ∧ (run [.insert ⟨'a', .all⟩, .derive 0 0 .read, .delete 0] : Holding Char 2).Sound :=
  ⟨by decide, bookkeeping_sound (by decide) _⟩

end Holding

/-! ### The kernel's table -/

/-- What a kernel capability's object is here: the object with its two ghosts. -/
abbrev KernelObject := Object × Nat × Nat

def kernelCap (c : Cap KernelObject) : Nife.Cap :=
  ⟨c.object.1, c.rights, c.object.2.1, c.object.2.2⟩

/-- Forget the records. -/
def forget (t : CapabilityTable KernelObject capabilityTableSlots) : Nife.CapabilityTable :=
  ⟨fun i => (t.slots i).map kernelCap⟩

variable {t : CapabilityTable KernelObject capabilityTableSlots} {cap : Cap KernelObject}

theorem forget_fill (hi : i < capabilityTableSlots) :
    forget (t.fill i cap).2 = (forget t).fill ⟨i, hi⟩ (kernelCap cap) := by
  unfold forget Nife.CapabilityTable.fill
  rw [CapabilityTable.slots_fill hi]
  congr 1
  funext j
  by_cases hj : j = ⟨i, hi⟩
  · subst hj
    rw [update_self, update_self]
    rfl
  · rw [update_of_ne hj, update_of_ne hj]

/-- The lowest bit of the free word is the slot a scan finds first. -/
theorem firstFree_refines (h : t.Kept) : (forget t).firstFree.map Fin.val = t.firstFree := by
  have hnone : ∀ i, ((forget t).slots i).isNone = (t.slots i).isNone := by
    intro i
    simp [forget]
  rcases hf : t.firstFree with - | i
  · rw [map_eq_none_iff, Nife.CapabilityTable.firstFree, find?_eq_none]
    intro i _
    rw [hnone]
    simpa using h.firstFree_eq_none.mp hf i
  · obtain ⟨hi, hempty, hlow⟩ := h.firstFree_eq_some hf
    have hfind : (forget t).firstFree = some ⟨i, hi⟩ := by
      rw [Nife.CapabilityTable.firstFree, find?_eq_some_iff_getElem]
      refine ⟨by rw [hnone, hempty]; rfl, i, by simpa using hi, by simp, fun j hj => ?_⟩
      rw [hnone]
      simpa [isSome_iff_ne_none] using hlow j hj
    rw [hfind]
    rfl

theorem insert_refines (h : t.Kept) : (forget t).insert (kernelCap cap)
      = (t.insert cap).1.toOption.map fun i => (forget (t.insert cap).2, i) := by
  have hff := firstFree_refines h
  unfold Nife.CapabilityTable.insert CapabilityTable.insert
  rcases hf : t.firstFree with - | i
  · rw [hf, map_eq_none_iff] at hff
    rw [hff]
    rfl
  · rw [hf] at hff
    obtain ⟨k, hk, rfl⟩ := map_eq_some_iff.mp hff
    rw [hk]
    simp only [map_some, Except.toOption, forget_fill k.isLt]

theorem insertAt_refines : (forget t).insertAt i (kernelCap cap)
      = (t.insertAt i cap).1.toOption.map fun k => (forget (t.insertAt i cap).2, k) := by
  unfold Nife.CapabilityTable.insertAt CapabilityTable.insertAt CapabilityTable.slot
  by_cases hi : i < capabilityTableSlots
  · rw [dif_pos hi, if_neg (not_le.mpr hi), dif_pos hi]
    rcases hs : t.slots ⟨i, hi⟩ with - | c
    · simp [forget, hs, Except.toOption]
      exact (forget_fill hi).symm
    · simp [forget, hs, Except.toOption]
  · rw [dif_neg hi, if_pos (Nat.le_of_not_lt hi)]
    rfl

theorem delete_refines : (forget t).delete i = forget (t.delete i).2 := by
  rw [CapabilityTable.delete_snd]
  unfold Nife.CapabilityTable.delete forget
  congr 1
  funext j
  by_cases hi : i < capabilityTableSlots
  · rw [CapabilityTable.slots_empty hi]
    by_cases hj : j = ⟨i, hi⟩
    · subst hj
      rw [if_pos rfl, update_self]
      rfl
    · rw [update_of_ne hj, if_neg fun h => hj (Fin.ext h)]
  · have hne : j.val ≠ i := fun h => hi (h ▸ j.isLt)
    rw [CapabilityTable.empty_of_le (Nat.le_of_not_lt hi), if_neg hne]

theorem deleteMatching_refines (h : t.Kept) (p : Object → Bool) :
    (forget t).deleteMatching p = forget (t.deleteMatching fun o => p o.1) := by
  unfold Nife.CapabilityTable.deleteMatching forget
  congr 1
  funext j
  have hslot := CapabilityTable.slot_deleteMatching h (le_refl _) (fun o => p o.1) j
  rw [CapabilityTable.slot, CapabilityTable.slot, dif_pos j.isLt, dif_pos j.isLt] at hslot
  show ((t.slots j).map kernelCap).filter _ = _
  rw [hslot]
  rcases hs : t.slots j with - | c
  · rfl
  · by_cases hp : p c.object.1 <;> simp [Option.filter, kernelCap, hp]

/-- **The kernel's table is the one with records, forgotten**: after every run, each operation they
share answers alike and leaves tables that agree. -/
theorem kernel_table_refined (ops : List (CapOp KernelObject)) :
    let t := (Holding.run ops : Holding KernelObject capabilityTableSlots).table
    (∀ cap, (forget t).insert (kernelCap cap)
      = (t.insert cap).1.toOption.map fun i => (forget (t.insert cap).2, i)) ∧
    (∀ i cap, (forget t).insertAt i (kernelCap cap)
      = (t.insertAt i cap).1.toOption.map fun k => (forget (t.insertAt i cap).2, k)) ∧
    (∀ i, (forget t).delete i = forget (t.delete i).2) ∧
    ∀ p, (forget t).deleteMatching p = forget (t.deleteMatching fun o => p o.1) := by
  have h := (Holding.inv_run (le_refl _) ops).kept
  exact ⟨fun _ => insert_refines h, fun _ _ => insertAt_refines, fun _ => delete_refines,
    deleteMatching_refines h⟩

end Storage

end Nife
