/-
The registry every kernel object is named through (`crates/generational_table`).  A table
has a fixed number of slots, each with a generation; a name packs the slot and the
generation it was filled in.  Removing an entry bumps its slot's generation, so the old
name resolves to nothing even when the slot is filled again.

The structure carries what the code relies on: `live` counts the filled slots and every
slot at or above `top` is empty.  The lemmas at the end are the only ones later modules
use: a table is a partial map from names, and each operation changes it at one name.
-/
import Mathlib.Data.Finset.Card

namespace Nife

open List Option Function

/-- One slot: the generation its next or current name carries, and its entry. -/
structure Cell (T : Type*) where
  generation : Nat
  value : Option T
  deriving Repr

/-- The number of generations, and one more than the largest slot a name can hold. -/
def nameRadix : Nat := 0x100000000

/-- `Table<T, N>`, with `N` the length of `cells`. -/
structure Table (T : Type*) where
  cells : List (Cell T)
  (live top : Nat)
  fits : cells.length < nameRadix
  live_eq : live = cells.countP fun c => c.value.isSome
  above_top : ∀ i, top ≤ i → ∀ c, cells[i]? = some c → c.value = none

namespace Table

variable {T : Type*}

def new (n : Nat) (h : n < nameRadix) : Table T where
  cells := List.replicate n ⟨0, none⟩
  live := 0
  top := 0
  fits := by rwa [length_replicate]
  live_eq := by rw [countP_replicate]; rfl
  above_top := by
    intro i _ c hc
    rw [eq_of_mem_replicate (mem_of_getElem? hc)]

/-- A table with every slot filled for the first time, in order. -/
def ofList (l : List T) (h : l.length < nameRadix) : Table T where
  cells := l.map fun v => ⟨0, some v⟩
  live := l.length
  top := l.length
  fits := by rwa [length_map]
  live_eq := by simp [countP_map, comp_def]
  above_top := by
    intro i hi c hc
    have hlt := (List.getElem?_eq_some_iff.mp hc).1
    rw [List.length_map] at hlt
    omega

def name (slot generation : Nat) : Nat := generation * nameRadix + slot

def unpack (name : Nat) : Nat × Nat := (name % nameRadix, name / nameRadix)

def slotOf (t : Table T) (name : Nat) : Option Nat :=
  match t.cells[(unpack name).1]? with
  | none => none
  | some c =>
    if c.generation = (unpack name).2 ∧ c.value.isSome then some (unpack name).1 else none

/-- The value under a name. -/
def get (t : Table T) (name : Nat) : Option T :=
  (t.slotOf name).bind fun slot => (t.cells[slot]?).bind Cell.value

/-! ### The operations -/

section Counting

variable {α : Type*} {p : α → Bool} {f : α → α}

theorem countP_modify_of_eq (h : ∀ a, p (f a) = p a) (l : List α) (i : Nat) :
    (l.modify i f).countP p = l.countP p := by
  induction l generalizing i with
  | nil => simp
  | cons a l ih =>
    cases i with
    | zero => simp [countP_cons, h]
    | succ i => simp [countP_cons, ih]

theorem countP_modify {l : List α} {i : Nat} {a : α} (hi : l[i]? = some a) :
    (l.modify i f).countP p + (if p a then 1 else 0) = l.countP p + (if p (f a) then 1 else 0) := by
  induction l generalizing i with
  | nil => simp at hi
  | cons b l ih =>
    cases i with
    | zero =>
      cases hi
      simp only [modify_zero_cons, countP_cons]
      omega
    | succ i =>
      have hrec := ih (by simpa using hi)
      simp only [modify_succ_cons, countP_cons]
      omega

theorem countP_map_of_eq (h : ∀ a, p (f a) = p a) (l : List α) :
    (l.map f).countP p = l.countP p := by
  rw [countP_map]
  exact countP_congr fun a _ => by simp [h]

end Counting

/-- What `get_mut` is used for: change the entry a name resolves to. -/
def modify (t : Table T) (name : Nat) (f : T → T) : Table T where
  cells := t.cells.modify (unpack name).1 fun c =>
    if c.generation = (unpack name).2 then { c with value := c.value.map f } else c
  live := t.live
  top := t.top
  fits := by simpa using t.fits
  live_eq := by
    rw [t.live_eq, countP_modify_of_eq]
    intro c
    split <;> simp
  above_top := by
    intro i hi c hc
    rw [getElem?_modify] at hc
    obtain ⟨d, hd, rfl⟩ := map_eq_some_iff.mp hc
    have hnone := t.above_top i hi d hd
    split
    · split <;> simp [hnone]
    · exact hnone

/-- What `iter_mut` is used for: change every entry. -/
def map (t : Table T) (f : T → T) : Table T where
  cells := t.cells.map fun c => { c with value := c.value.map f }
  live := t.live
  top := t.top
  fits := by simpa using t.fits
  live_eq := by
    rw [t.live_eq, countP_map_of_eq]
    simp
  above_top := by
    intro i hi c hc
    rw [getElem?_map] at hc
    obtain ⟨d, hd, rfl⟩ := map_eq_some_iff.mp hc
    simp [t.above_top i hi d hd]

/-- The loop at the end of `remove`: lower `top` past empty slots. -/
def lowerTop (cells : List (Cell T)) : Nat → Nat
  | 0 => 0
  | n + 1 =>
    if ((cells[n]?).bind Cell.value).isSome then n + 1 else lowerTop cells n

theorem lowerTop_free (cells : List (Cell T)) (n i : Nat) (hi : lowerTop cells n ≤ i)
    (hn : i < n) : ∀ c, cells[i]? = some c → c.value = none := by
  induction n with
  | zero => omega
  | succ n ih =>
    unfold lowerTop at hi
    split at hi
    · omega
    · next hempty =>
      rcases Nat.lt_succ_iff_lt_or_eq.mp hn with hlt | rfl
      · exact ih hi hlt
      · intro c hc
        simpa [hc] using hempty

variable {v : T} {slot : Nat} {t' : Table T}

theorem slotOf_eq_some {t : Table T} {name : Nat} (h : t.slotOf name = some slot) :
    ∃ c, t.cells[slot]? = some c ∧ slot = (unpack name).1 ∧ c.generation = (unpack name).2 ∧
      c.value.isSome := by
  unfold slotOf at h
  split at h
  · cases h
  · next c hc =>
    split_ifs at h with hg
    cases h
    exact ⟨c, hc, rfl, hg⟩

/-- Empty a slot and bump its generation (which wraps), so that its names are stale. -/
def retire (c : Cell T) : Cell T := ⟨(c.generation + 1) % nameRadix, none⟩

section

variable (t : Table T)

/-- Empty a slot and end its generation. -/
def remove (name : Nat) : Table T :=
  match h : t.slotOf name with
  | none => t
  | some slot =>
    { cells := t.cells.modify slot retire
      live := t.live - 1
      top := if slot + 1 = t.top then lowerTop (t.cells.modify slot retire) t.top else t.top
      fits := by simpa using t.fits
      live_eq := by
        obtain ⟨c, hc, -, -, hsome⟩ := slotOf_eq_some h
        have hcount := countP_modify (p := fun c : Cell T => c.value.isSome) (f := retire) hc
        rw [if_pos hsome, if_neg (by simp [retire])] at hcount
        rw [t.live_eq]
        omega
      above_top := by
        intro i hi c hc
        rcases Nat.lt_or_ge i t.top with hlt | hge
        · -- only reached when `top` was lowered past `i`
          split at hi
          · exact lowerTop_free _ _ i hi hlt c hc
          · omega
        · rw [getElem?_modify] at hc
          obtain ⟨d, hd, rfl⟩ := map_eq_some_iff.mp hc
          split
          · rfl
          · exact t.above_top i hge d hd }

/-- Fill the first free slot; the entry is handed its name. -/
def insertWith (f : Nat → T) : Option (Nat × Table T) :=
  match h : t.cells.findIdx? fun c => c.value.isNone with
  | none => none
  | some slot =>
    match hc : t.cells[slot]? with
    | none => none
    | some c =>
      some (name slot c.generation,
        { cells := t.cells.modify slot fun c => { c with value := some (f (name slot c.generation)) }
          live := t.live + 1
          top := if t.top ≤ slot then slot + 1 else t.top
          fits := by simpa using t.fits
          live_eq := by
            obtain ⟨hlt, hfree, -⟩ := findIdx?_eq_some_iff_getElem.mp h
            have hcount := countP_modify (p := fun c : Cell T => c.value.isSome)
              (f := fun c => { c with value := some (f (name slot c.generation)) }) hc
            rw [getElem?_eq_getElem hlt] at hc
            cases hc
            rw [if_neg (by simpa using hfree), if_pos (by simp)] at hcount
            rw [t.live_eq]
            omega
          above_top := by
            intro i hi d hd
            have hne : slot ≠ i := by split at hi <;> omega
            have hge : t.top ≤ i := by split at hi <;> omega
            rw [getElem?_modify] at hd
            obtain ⟨e, he, rfl⟩ := map_eq_some_iff.mp hd
            rw [if_neg hne]
            exact t.above_top i hge e he })

/-- `remove` with what it returns: the entry it takes out, if the name resolves. -/
def removeEntry (name : Nat) : Option T × Table T :=
  match t.slotOf name with
  | none => (none, t)
  | some slot => ((t.cells[slot]?).bind Cell.value, t.remove name)

/-- `get_mut`: the entry a name resolves to, and the table after a write through the
reference. -/
def getMut (name : Nat) : Option (T × (T → Table T)) :=
  (t.slotOf name).bind fun slot => ((t.cells[slot]?).bind Cell.value).map fun v =>
    (v, fun w => t.modify name fun _ => w)

def len : Nat := t.live

/-- The filled slots from `start` on, in slot order, with their names and entries. -/
def iterFrom (start : Nat) : List (Nat × Nat × T) :=
  ((t.cells.take t.top).zipIdx.drop start).filterMap fun (c, slot) =>
    c.value.map fun v => (slot, name slot c.generation, v)

def liveSlots : List Nat :=
  (t.cells.take t.top).zipIdx.filterMap fun (c, slot) => c.value.map fun _ => slot

def values : List T := (t.cells.take t.top).filterMap Cell.value

/-- The filled slots below `top`, in slot order, with their names. -/
def iter : List (Nat × T) :=
  (t.cells.take t.top).zipIdx.filterMap fun (c, slot) =>
    c.value.map fun v => (name slot c.generation, v)

end

/-! ### A table as a partial map from names -/

variable {t : Table T} {n m : Nat} {f : Nat → T} {p : T → Bool}

theorem unpack_name (generation : Nat) (h : slot < nameRadix) :
    unpack (name slot generation) = (slot, generation) := by
  unfold unpack name
  rw [Nat.mul_comm, Nat.mul_add_mod, Nat.mod_eq_of_lt h, Nat.mul_add_div (by decide),
    Nat.div_eq_of_lt h, Nat.add_zero]

theorem name_unpack (n : Nat) : name (unpack n).1 (unpack n).2 = n := by
  rw [name, Nat.mul_comm]
  exact Nat.div_add_mod n nameRadix

theorem get_eq (t : Table T) (n : Nat) : t.get n = (t.cells[(unpack n).1]?).bind fun c =>
      if c.generation = (unpack n).2 then c.value else none := by
  unfold get slotOf
  rcases hc : t.cells[(unpack n).1]? with - | c
  · rfl
  · rcases hv : c.value with - | v
    · simp [hv]
    · by_cases hg : c.generation = (unpack n).2
      · simp [hv, hg, hc]
      · simp [hg]

theorem get_eq_some : t.get n = some v ↔
      ∃ c, t.cells[(unpack n).1]? = some c ∧ c.generation = (unpack n).2 ∧ c.value = some v := by
  rw [get_eq, bind_eq_some_iff]
  refine exists_congr fun c => and_congr_right fun _ => ?_
  split
  · next hg => simp [hg]
  · next hg => simp [hg]

theorem get_modify (t : Table T) (n : Nat) (f : T → T) (m : Nat) :
    (t.modify n f).get m = if m = n then (t.get n).map f else t.get m := by
  have hkey : (unpack n).1 = (unpack m).1 → m ≠ n → (unpack m).2 ≠ (unpack n).2 := by
    intro hslot hne hgen
    exact hne (by rw [← name_unpack m, ← name_unpack n, hslot, hgen])
  rw [get_eq]
  simp only [modify, getElem?_modify]
  rcases eq_or_ne m n with rfl | hmn
  · rw [if_pos rfl, get_eq]
    rcases t.cells[(unpack m).1]? with - | c
    · rfl
    · by_cases hg : c.generation = (unpack m).2 <;> simp [hg]
  · rw [if_neg hmn, get_eq]
    rcases t.cells[(unpack m).1]? with - | c
    · simp
    · by_cases hslot : (unpack n).1 = (unpack m).1
      · by_cases hg : c.generation = (unpack n).2
        · simp [hslot, hg, (hkey hslot hmn).symm]
        · simp [hg]
      · simp [hslot]

theorem get_map (t : Table T) (f : T → T) (m : Nat) : (t.map f).get m = (t.get m).map f := by
  rw [get_eq, get_eq]
  simp only [map, getElem?_map]
  rcases t.cells[(unpack m).1]? with - | c
  · rfl
  · by_cases hg : c.generation = (unpack m).2 <;> simp [hg]

theorem slotOf_eq_none (h : t.slotOf n = none) : t.get n = none := by
  rw [get, h, bind_none]

theorem get_remove (t : Table T) (n m : Nat) :
    (t.remove n).get m = if m = n then none else t.get m := by
  unfold remove
  split
  · next hslot =>
    split
    · next hmn => rw [hmn, slotOf_eq_none hslot]
    · rfl
  · next slot hslot =>
    obtain ⟨c, hc, rfl, hg, -⟩ := slotOf_eq_some hslot
    rw [get_eq, get_eq t m]
    by_cases hsm : (unpack n).1 = (unpack m).1
    · -- the slot is empty now, and before only `n` resolved in it
      rw [hsm] at hc
      by_cases hmn : m = n
      · subst hmn
        simp [retire]
      · have hne : c.generation ≠ (unpack m).2 := by
          intro hgm
          exact hmn (by rw [← name_unpack m, ← name_unpack n, hsm, ← hg, hgm])
        simp [hsm, hc, retire, hne]
    · have hmn : m ≠ n := fun h => hsm (by rw [h])
      simp [hsm, hmn]

/-- What an insert does to the slots: it fills an empty one, under the name its generation
gives. -/
theorem insertWith_eq_some (h : t.insertWith f = some (n, t')) :
    ∃ slot c, t.cells[slot]? = some c ∧ c.value = none ∧ n = name slot c.generation ∧
      t'.cells = t.cells.modify slot
        fun c => { c with value := some (f (name slot c.generation)) } := by
  unfold insertWith at h
  split at h
  · cases h
  · next slot hidx =>
    split at h
    · cases h
    · next c hc =>
      cases h
      obtain ⟨hlt, hfree, -⟩ := findIdx?_eq_some_iff_getElem.mp hidx
      refine ⟨slot, c, hc, ?_, rfl, rfl⟩
      rw [getElem?_eq_getElem hlt, Option.some.injEq] at hc
      rw [← hc]
      simpa using hfree

theorem insertWith_isSome (t : Table T) (f : Nat → T) (h : t.live < t.cells.length) :
    (t.insertWith f).isSome := by
  rw [t.live_eq, countP_lt_length_iff] at h
  obtain ⟨c, hc, hempty⟩ := h
  unfold insertWith
  split
  · next hidx =>
    have hfull := findIdx?_eq_none_iff.mp hidx c hc
    simp_all
  · next slot hidx =>
    have hlt := (findIdx?_eq_some_iff_getElem.mp hidx).1
    split
    · next hnone => exact absurd hlt (not_lt.mpr (getElem?_eq_none_iff.mp hnone))
    · rfl

/-- **A fresh entry's name resolved to nothing before, and nothing else changes.** -/
theorem get_insertWith (h : t.insertWith f = some (n, t')) :
    t.get n = none ∧ ∀ m, t'.get m = if m = n then some (f n) else t.get m := by
  obtain ⟨slot, c, hc, hempty, rfl, hcells⟩ := insertWith_eq_some h
  have hlt : slot < t.cells.length := (List.getElem?_eq_some_iff.mp hc).1
  have hname := unpack_name c.generation (lt_trans hlt t.fits)
  refine ⟨?_, fun m => ?_⟩
  · rw [get_eq, hname]
    simp [hc, hempty]
  · rw [get_eq, hcells]
    rcases eq_or_ne m (name slot c.generation) with rfl | hm
    · simp [hname, hc]
    · rw [if_neg hm, get_eq]
      by_cases hslot : slot = (unpack m).1
      · subst hslot
        have hne : c.generation ≠ (unpack m).2 := by
          intro hg
          exact hm (by rw [hg, name_unpack])
        simp [hc, hne]
      · simp [hslot]

theorem cells_remove (h : t.slotOf n = some slot) :
    (t.remove n).cells = t.cells.modify slot retire := by
  unfold remove
  split
  · next hnone => rw [hnone] at h; cases h
  · next slot' hslot =>
    rw [hslot, Option.some.injEq] at h
    exact congrArg (t.cells.modify · retire) h

theorem remove_of_none (h : t.slotOf n = none) : t.remove n = t := by
  unfold remove
  split
  · rfl
  · next slot hslot => rw [hslot] at h; cases h

theorem removeEntry_eq (t : Table T) (n : Nat) : t.removeEntry n = (t.get n, t.remove n) := by
  unfold removeEntry get
  rcases h : t.slotOf n with - | slot
  · rw [remove_of_none h]
    rfl
  · rfl

theorem getMut_fst (t : Table T) (n : Nat) : (t.getMut n).map Prod.fst = t.get n := by
  rw [getMut, map_bind]
  congr 1
  funext slot
  simp [comp_def]

theorem slotOf_eq_some_iff :
    t.slotOf n = some slot ↔ slot = (unpack n).1 ∧ ∃ v, t.get n = some v := by
  constructor
  · intro h
    obtain ⟨c, hc, rfl, hg, hsome⟩ := slotOf_eq_some h
    obtain ⟨v, hv⟩ := isSome_iff_exists.mp hsome
    exact ⟨rfl, v, get_eq_some.mpr ⟨c, hc, hg, hv⟩⟩
  · rintro ⟨rfl, v, hv⟩
    rcases hs : t.slotOf n with - | slot
    · rw [slotOf_eq_none hs] at hv
      cases hv
    · obtain ⟨-, -, rfl, -⟩ := slotOf_eq_some hs
      rfl

theorem modify_of_none {f : T → T} (h : t.get n = none) : t.modify n f = t := by
  have hcells : (t.modify n f).cells = t.cells := by
    apply ext_getElem?
    intro i
    simp only [modify, getElem?_modify]
    rcases hc : t.cells[i]? with - | c
    · rfl
    · rw [get_eq] at h
      by_cases hi : (unpack n).1 = i
      · rw [hi, hc, bind_some] at h
        by_cases hg : c.generation = (unpack n).2
        · rw [if_pos hg] at h
          rcases c with ⟨generation, value⟩
          simp only at h
          simp [h]
        · simp [hg]
      · simp [hi]
  rcases t with ⟨cells, live, top, fits, hlive, habove⟩
  simp only [modify] at hcells ⊢
  congr 1

/-! ### Names that were given out -/

/-- What a slot shows of its past: its generation, and whether it is filled. -/
def stamp (t : Table T) (slot : Nat) : Option (Nat × Bool) :=
  (t.cells[slot]?).map fun c => (c.generation, c.value.isSome)

/-- `n` may have been given out: its slot has passed its generation, or is filled in it. -/
def Issued (t : Table T) (n : Nat) : Prop :=
  ∃ g filled, t.stamp (unpack n).1 = some (g, filled) ∧
    ((unpack n).2 < g ∨ (unpack n).2 = g ∧ filled = true)

theorem stamp_of_get (h : t.get n = some v) : t.stamp (unpack n).1 = some ((unpack n).2, true) := by
  obtain ⟨c, hc, hg, hv⟩ := get_eq_some.mp h
  rw [stamp, hc, map_some, hg, hv]
  rfl

theorem stamp_modify (t : Table T) (n : Nat) (f : T → T) (i : Nat) :
    (t.modify n f).stamp i = t.stamp i := by
  simp only [stamp, modify, getElem?_modify]
  rcases t.cells[i]? with - | c
  · rfl
  · by_cases hi : (unpack n).1 = i
    · by_cases hg : c.generation = (unpack n).2 <;> simp [hi, hg]
    · simp [hi]

theorem stamp_insertWith (h : t.insertWith f = some (n, t')) :
    t.stamp (unpack n).1 = some ((unpack n).2, false) ∧
      ∀ i, t'.stamp i = if i = (unpack n).1 then some ((unpack n).2, true) else t.stamp i := by
  obtain ⟨slot, c, hc, hempty, rfl, hcells⟩ := insertWith_eq_some h
  have hlt : slot < t.cells.length := (List.getElem?_eq_some_iff.mp hc).1
  rw [unpack_name c.generation (lt_trans hlt t.fits)]
  refine ⟨by simp [stamp, hc, hempty], fun i => ?_⟩
  rw [stamp, hcells]
  by_cases hi : i = slot
  · simp [hi, hc]
  · simp [stamp, hi, Ne.symm hi]

/-- Before its generation wraps, a removed name's slot has passed it. -/
theorem stamp_remove (h : t.get n = some v) (hgen : (unpack n).2 + 1 < nameRadix) (i : Nat) :
    (t.remove n).stamp i
      = if i = (unpack n).1 then some ((unpack n).2 + 1, false) else t.stamp i := by
  have hslot : t.slotOf n = some (unpack n).1 := slotOf_eq_some_iff.mpr ⟨rfl, v, h⟩
  obtain ⟨c, hc, hg, -⟩ := get_eq_some.mp h
  rw [stamp, cells_remove hslot]
  by_cases hi : i = (unpack n).1
  · simp [hi, hc, retire, hg, Nat.mod_eq_of_lt hgen]
  · simp [stamp, hi, Ne.symm hi]

theorem Issued.of_stamp (hst : ∀ i, t'.stamp i = t.stamp i) (h : t.Issued n) : t'.Issued n := by
  obtain ⟨g, filled, hstamp, hle⟩ := h
  exact ⟨g, filled, (hst _).trans hstamp, hle⟩

/-- **A new name was never given out before**, and every name that was stays so. -/
theorem issued_insertWith (h : t.insertWith f = some (n, t')) :
    ¬ t.Issued n ∧ t'.Issued n ∧ ∀ m, t.Issued m → t'.Issued m := by
  obtain ⟨hbefore, hafter⟩ := stamp_insertWith h
  refine ⟨?_, ⟨_, true, (hafter _).trans (if_pos rfl), .inr ⟨rfl, rfl⟩⟩, fun m hm => ?_⟩
  · rintro ⟨g, filled, hst, hle⟩
    rw [hbefore] at hst
    cases hst
    rcases hle with hlt | ⟨-, hfilled⟩
    · exact lt_irrefl _ hlt
    · cases hfilled
  · obtain ⟨g, filled, hst, hle⟩ := hm
    by_cases hslot : (unpack m).1 = (unpack n).1
    · rw [hslot, hbefore] at hst
      cases hst
      refine ⟨_, true, (hafter _).trans (if_pos hslot), .inl ?_⟩
      rcases hle with hlt | ⟨-, hfilled⟩
      · exact hlt
      · cases hfilled
    · exact ⟨g, filled, ((hafter _).trans (if_neg hslot)).trans hst, hle⟩

theorem Issued.remove (h : t.get n = some v) (hgen : (unpack n).2 + 1 < nameRadix)
    (hm : t.Issued m) : (t.remove n).Issued m := by
  have hafter := stamp_remove h hgen
  obtain ⟨g, filled, hst, hle⟩ := hm
  by_cases hslot : (unpack m).1 = (unpack n).1
  · rw [hslot, stamp_of_get h] at hst
    cases hst
    refine ⟨_, false, (hafter _).trans (if_pos hslot), .inl ?_⟩
    omega
  · exact ⟨g, filled, ((hafter _).trans (if_neg hslot)).trans hst, hle⟩

theorem mem_of_get_ofList {l : List T} {h : l.length < nameRadix}
    (hv : (ofList l h).get n = some v) : v ∈ l := by
  obtain ⟨c, hc, -, hval⟩ := get_eq_some.mp hv
  obtain ⟨w, hw, rfl⟩ := mem_map.mp (mem_of_getElem? hc)
  simp only [Option.some.injEq] at hval
  exact hval ▸ hw

/-! ### Walking a table -/

theorem length_iter (t : Table T) : t.iter.length = t.live := by
  have hlen : t.iter.length = (t.cells.take t.top).countP fun c => c.value.isSome := by
    rw [iter, length_filterMap_eq_countP]
    conv_rhs => rw [← zipIdx_map_fst 0 (t.cells.take t.top), countP_map]
    exact countP_congr fun x _ => by simp
  -- what `top` cuts off is empty
  have hrest : (t.cells.drop t.top).countP (fun c => c.value.isSome) = 0 := by
    rw [countP_eq_zero]
    intro c hc
    obtain ⟨i, hi⟩ := mem_iff_getElem?.mp hc
    rw [getElem?_drop] at hi
    simp [t.above_top _ (Nat.le_add_right ..) c hi]
  rw [hlen, t.live_eq]
  conv_rhs => rw [← take_append_drop t.top t.cells, countP_append, hrest]
  rfl

theorem mem_iterFrom {start : Nat} : (slot, n, v) ∈ t.iterFrom start ↔
      start ≤ slot ∧ t.slotOf n = some slot ∧ t.get n = some v := by
  simp only [iterFrom, mem_filterMap, Prod.exists, map_eq_some_iff, Prod.mk.injEq]
  constructor
  · rintro ⟨c, i, hmem, w, hw, rfl, rfl, rfl⟩
    obtain ⟨k, hk⟩ := mem_iff_getElem?.mp hmem
    rw [getElem?_drop, getElem?_zipIdx, getElem?_take] at hk
    obtain ⟨d, hd, heq⟩ := map_eq_some_iff.mp hk
    simp only [Nat.zero_add, Prod.mk.injEq] at heq
    obtain ⟨rfl, rfl⟩ := heq
    split_ifs at hd
    have hlt : start + k < t.cells.length := (List.getElem?_eq_some_iff.mp hd).1
    have hname := unpack_name d.generation (lt_trans hlt t.fits)
    have hget : t.get (name (start + k) d.generation) = some w := by
      rw [get_eq_some, hname]
      exact ⟨d, hd, rfl, hw⟩
    exact ⟨Nat.le_add_right .., slotOf_eq_some_iff.mpr ⟨by rw [hname], w, hget⟩, hget⟩
  · rintro ⟨hstart, hslot, hget⟩
    obtain ⟨c, hc, hg, hv⟩ := get_eq_some.mp hget
    obtain ⟨rfl, -⟩ := slotOf_eq_some_iff.mp hslot
    refine ⟨c, (unpack n).1, mem_iff_getElem?.mpr ⟨(unpack n).1 - start, ?_⟩, v, hv, rfl, ?_, rfl⟩
    · have htop : (unpack n).1 < t.top := by
        by_contra htop
        rw [t.above_top _ (Nat.le_of_not_lt htop) c hc] at hv
        cases hv
      rw [getElem?_drop, getElem?_zipIdx, getElem?_take, Nat.add_sub_cancel' hstart,
        if_pos htop, hc]
      simp
    · rw [hg, name_unpack]

theorem pairwise_iterFrom (t : Table T) (start : Nat) :
    (t.iterFrom start).Pairwise fun a b => a.1 < b.1 := by
  have hslots : (t.cells.take t.top).zipIdx.Pairwise fun a b => a.2 < b.2 := by
    rw [← pairwise_map (f := Prod.snd) (R := (· < ·)), zipIdx_map_snd]
    exact pairwise_lt_range'
  refine List.Pairwise.filterMap _ ?_ (hslots.drop)
  rintro ⟨c, i⟩ ⟨d, j⟩ hlt x hx y hy
  obtain ⟨v, -, rfl⟩ := map_eq_some_iff.mp hx
  obtain ⟨w, -, rfl⟩ := map_eq_some_iff.mp hy
  exact hlt

theorem iter_eq (t : Table T) : t.iter = (t.iterFrom 0).map Prod.snd := by
  rw [iter, iterFrom, map_filterMap]
  congr 1
  funext ⟨c, i⟩
  simp [comp_def]

theorem mem_iter : (n, v) ∈ t.iter ↔ t.get n = some v := by
  rw [iter_eq, List.mem_map]
  constructor
  · rintro ⟨⟨slot, m, w⟩, hmem, heq⟩
    cases heq
    exact (mem_iterFrom.mp hmem).2.2
  · intro hget
    exact ⟨(_, n, v), mem_iterFrom.mpr ⟨Nat.zero_le _, slotOf_eq_some_iff.mpr ⟨rfl, v, hget⟩, hget⟩, rfl⟩

theorem liveSlots_eq (t : Table T) : t.liveSlots = (t.iterFrom 0).map Prod.fst := by
  rw [liveSlots, iterFrom, map_filterMap]
  congr 1
  funext ⟨c, i⟩
  simp [comp_def]

theorem values_eq (t : Table T) : t.values = (t.iterFrom 0).map fun e => e.2.2 := by
  rw [values, iterFrom, map_filterMap]
  conv_lhs => rw [← zipIdx_map_fst 0 (t.cells.take t.top), filterMap_map]
  congr 1
  funext ⟨c, i⟩
  simp [comp_def]

/-- The name of the first entry, in slot order, that satisfies `p`. -/
def find (t : Table T) (p : T → Bool) : Option Nat :=
  (t.iter.find? fun e => p e.2).map Prod.fst

theorem find_eq_none (h : t.find p = none) (hv : t.get n = some v) : p v = false := by
  have hfind := map_eq_none_iff.mp h
  simpa using find?_eq_none.mp hfind (n, v) (mem_iter.mpr hv)

def names (t : Table T) (p : T → Bool) : Finset Nat :=
  ((t.iter.filter fun e => p e.2).map Prod.fst).toFinset

theorem mem_names : n ∈ t.names p ↔ ∃ v, t.get n = some v ∧ p v := by
  simp [names, mem_iter]

theorem nodup_names_iter (t : Table T) : (t.iter.map Prod.fst).Nodup := by
  have hslots : (t.cells.take t.top).zipIdx.Pairwise fun a b => a.2 ≠ b.2 := by
    rw [← pairwise_map (f := Prod.snd) (R := (· ≠ ·)), zipIdx_map_snd]
    exact nodup_range'
  rw [iter, map_filterMap]
  refine List.Pairwise.filterMap _ ?_ (List.Pairwise.and_mem.mp hslots)
  rintro ⟨c, i⟩ ⟨d, j⟩ ⟨hc, hd, hne⟩ n hn m hm rfl
  have hlt : ∀ {c : Cell T} {i : Nat}, (c, i) ∈ (t.cells.take t.top).zipIdx → i < nameRadix := by
    intro c i h
    have hi := mem_zipIdx_iff_getElem?.mp h
    rw [getElem?_take] at hi
    split_ifs at hi
    exact lt_trans (List.getElem?_eq_some_iff.mp hi).1 t.fits
  obtain ⟨v, -, rfl⟩ : ∃ v, c.value = some v ∧ name i c.generation = n := by
    simpa using hn
  obtain ⟨w, -, heq⟩ : ∃ w, d.value = some w ∧ name j d.generation = name i c.generation := by
    simpa using hm
  -- equal names have equal slots
  have hslot := congrArg (fun n => (unpack n).1) heq
  rw [unpack_name _ (hlt hd), unpack_name _ (hlt hc)] at hslot
  exact hne hslot.symm

theorem card_names_eq (t : Table T) (p : T → Bool) :
    (t.names p).card = (t.iter.filter fun e => p e.2).length := by
  have hnd : ((t.iter.filter fun e => p e.2).map Prod.fst).Nodup :=
    (filter_sublist.map Prod.fst).nodup t.nodup_names_iter
  rw [names, toFinset_card_of_nodup hnd, length_map]

end Table

end Nife
