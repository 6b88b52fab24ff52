/-
The capability table as it is stored (`crates/capability`, `mod storage` and the mutators over
it), for any object type and any number of slots up to 32.  Beside the slots it keeps a word of
free bits, a count and a high-water mark, and `insert` takes its slot from the word alone.  Two
doors change a slot, `fill` and `empty`; every mutator goes through them.

`Kept` says that the three records agree with the slots, and each door keeps it.  The counters
are natural numbers here: with at most 32 slots neither comes near the end of a `u16`.
-/
import Nife.Capability
import Nife.Lib.BitSet
import Mathlib.Data.Fintype.Card

namespace Nife

open List Function BitVec

namespace Storage

/-- A capability to an object `O`. -/
structure Cap (O : Type*) where
  object : O
  rights : Rights
  deriving DecidableEq

/-- Why an operation is refused. -/
inductive Error
  | noSuchSlot | cannotWiden | noFreeSlot
  deriving DecidableEq, Repr

/-- One slot for each bit of the free word. -/
def maxSlots : Nat := 32

/-- The slots of a process, with their accounts. -/
structure CapabilityTable (O : Type*) (N : Nat) where
  slots : Fin N → Option (Cap O)
  /-- Bit `i` is set when slot `i` is empty. -/
  free : BitVec 32
  (used peak : Nat)

namespace CapabilityTable

variable {O : Type*} {N : Nat}

def allFree (N : Nat) : BitVec 32 :=
  if N = maxSlots then BitVec.allOnes 32 else (1#32 <<< N) - 1#32

def new : CapabilityTable O N := ⟨fun _ => none, allFree N, 0, 0⟩

def slot (t : CapabilityTable O N) (slot : Nat) : Option (Cap O) :=
  if h : slot < N then t.slots ⟨slot, h⟩ else none

section

variable (t : CapabilityTable O N)

def firstFree : Option Nat :=
  if t.free = 0#32 then none else some t.free.ctz.toNat

def occupiedMask : BitVec 32 := ~~~t.free &&& allFree N

/-- Door one: put `cap` in `slot`, occupied or not.  Answers whether it was empty. -/
def fill (slot : Nat) (cap : Cap O) : Option Bool × CapabilityTable O N :=
  if h : slot < N then
    let wasEmpty := (t.slots ⟨slot, h⟩).isNone
    let filled := { t with
      slots := update t.slots ⟨slot, h⟩ (some cap)
      free := t.free &&& ~~~(1#32 <<< slot) }
    (some wasEmpty,
      if wasEmpty then
        { filled with
          used := t.used + 1
          peak := if t.peak < t.used + 1 then t.used + 1 else t.peak }
      else filled)
  else (none, t)

/-- Door two: take what is in `slot`.  The high-water mark stays. -/
def empty (slot : Nat) : Option (Cap O) × CapabilityTable O N :=
  if h : slot < N then
    match t.slots ⟨slot, h⟩ with
    | none => (none, t)
    | some cap =>
      (some cap, { t with
        slots := update t.slots ⟨slot, h⟩ none
        free := t.free ||| (1#32 <<< slot)
        used := t.used - 1 })
  else (none, t)

/-! ### The mutators -/

def get (slot : Nat) : Except Error (Cap O) :=
  match t.slot slot with
  | none => .error .noSuchSlot
  | some cap => .ok cap

def insert (cap : Cap O) : Except Error Nat × CapabilityTable O N :=
  match t.firstFree with
  | none => (.error .noFreeSlot, t)
  | some slot => (.ok slot, (t.fill slot cap).2)

def insertAt (slot : Nat) (cap : Cap O) : Except Error Nat × CapabilityTable O N :=
  if N ≤ slot then (.error .noSuchSlot, t)
  else if (t.slot slot).isSome then (.error .noFreeSlot, t)
  else (.ok slot, (t.fill slot cap).2)

def put (slot : Nat) (cap : Cap O) : Except Error Unit × CapabilityTable O N :=
  match t.fill slot cap with
  | (none, t) => (.error .noSuchSlot, t)
  | (some _, t) => (.ok (), t)

def derive (source target : Nat) (rights : Rights) : Except Error Unit × CapabilityTable O N :=
  match t.get source with
  | .error e => (.error e, t)
  | .ok src =>
    if rights.isSubsetOf src.rights then t.put target ⟨src.object, rights⟩
    else (.error .cannotWiden, t)

def delete (slot : Nat) : Except Error Unit × CapabilityTable O N :=
  match t.empty slot with
  | (none, t) => (.error .noSuchSlot, t)
  | (some _, t) => (.ok (), t)

def matchesAt (p : O → Bool) (t : CapabilityTable O N) (slot : Nat) : Bool :=
  (t.slot slot).any fun c => p c.object

def deleteMatching (p : O → Bool) : CapabilityTable O N :=
  BitSet.forEach (fun t slot => if matchesAt p t slot then (t.empty slot).2 else t) t t.occupiedMask

end

/-! ### The doors -/

variable {t : CapabilityTable O N} {i : Nat} {cap : Cap O}

theorem slots_fill (hi : i < N) : (t.fill i cap).2.slots = update t.slots ⟨i, hi⟩ (some cap) := by
  simp only [fill, dif_pos hi]
  split <;> rfl

theorem fill_of_le (hi : N ≤ i) : t.fill i cap = (none, t) := dif_neg (not_lt.mpr hi)

theorem fill_fst (hi : i < N) : ∃ b, (t.fill i cap).1 = some b := by
  simp only [fill, dif_pos hi]
  exact ⟨_, rfl⟩

theorem slots_empty (hi : i < N) : (t.empty i).2.slots = update t.slots ⟨i, hi⟩ none := by
  simp only [empty, dif_pos hi]
  split
  · next h => rw [← h, update_eq_self]
  · rfl

theorem empty_of_le (hi : N ≤ i) : t.empty i = (none, t) := dif_neg (not_lt.mpr hi)

theorem empty_of_none (hi : t.slot i = none) : t.empty i = (none, t) := by
  unfold slot at hi
  unfold empty
  split at hi
  · next h =>
    rw [dif_pos h]
    split
    · rfl
    · next hsome => rw [hi] at hsome; cases hsome
  · next h => rw [dif_neg h]

theorem slot_empty (t : CapabilityTable O N) (i j : Nat) :
    (t.empty i).2.slot j = if j = i then none else t.slot j := by
  by_cases hi : i < N
  · unfold slot
    by_cases hj : j < N
    · rw [dif_pos hj, dif_pos hj, slots_empty hi]
      by_cases hij : j = i
      · subst hij
        rw [update_self, if_pos rfl]
      · rw [update_of_ne (by simpa using hij), if_neg hij]
    · rw [dif_neg hj, dif_neg hj, ite_self]
  · rw [empty_of_le (Nat.le_of_not_lt hi)]
    split
    · next h =>
      subst h
      exact dif_neg hi
    · rfl

/-! ### The three records -/

def occupied (t : CapabilityTable O N) : Finset (Fin N) :=
  Finset.univ.filter fun i => (t.slots i).isSome

/-- **The records agree with the slots.** -/
structure Kept (t : CapabilityTable O N) : Prop where
  free : ∀ i, t.free.getLsbD i = true ↔ ∃ h : i < N, t.slots ⟨i, h⟩ = none
  used : t.used = t.occupied.card
  used_le_peak : t.used ≤ t.peak

theorem getLsbD_allFree (hN : N ≤ maxSlots) (i : Nat) : (allFree N).getLsbD i = decide (i < N) := by
  unfold allFree
  split
  · next h =>
    subst h
    rw [getLsbD_allOnes]
    rfl
  · next h =>
    have hlt : N < 32 := lt_of_le_of_ne hN h
    have hshift : (1#32 <<< N).toNat = 2 ^ N := by
      rw [toNat_shiftLeft, Nat.shiftLeft_eq]
      exact (congrArg (· % 2 ^ 32) (Nat.one_mul _)).trans
        (Nat.mod_eq_of_lt (Nat.pow_lt_pow_right (by decide) hlt))
    have hle : 1#32 ≤ 1#32 <<< N := by
      rw [le_def, hshift]
      exact Nat.two_pow_pos N
    rw [BitVec.getLsbD, toNat_sub_of_le hle, hshift]
    exact Nat.testBit_two_pow_sub_one N i

theorem getLsbD_bit {i : Nat} (hi : i < 32) (j : Nat) :
    (1#32 <<< i).getLsbD j = decide (j = i) := by
  rw [getLsbD_shiftLeft]
  by_cases hji : j = i
  · subst hji
    simp [hi]
  · rcases lt_or_gt_of_ne hji with hlt | hgt
    · simp [hlt, hji]
    · have : ¬ j - i = 0 := by omega
      simp [this, hji]

theorem kept_new (hN : N ≤ maxSlots) : (new : CapabilityTable O N).Kept where
  free i := by simp [new, getLsbD_allFree hN]
  used := by simp [new, occupied]
  used_le_peak := le_refl 0

theorem mem_occupied {j : Fin N} : j ∈ t.occupied ↔ (t.slots j).isSome := by simp [occupied]

theorem occupied_update {t' : CapabilityTable O N} {k : Fin N} {v : Option (Cap O)}
    (h : t'.slots = update t.slots k v) :
    t'.occupied = if v.isSome then Insert.insert k t.occupied else t.occupied.erase k := by
  ext j
  rw [mem_occupied, h]
  by_cases hjk : j = k
  · subst hjk
    split <;> simp_all
  · rw [update_of_ne hjk]
    split <;> simp [mem_occupied, hjk]

theorem Kept.fill (h : t.Kept) (hN : N ≤ maxSlots) (i : Nat) (cap : Cap O) :
    (t.fill i cap).2.Kept := by
  rcases lt_or_ge i N with hi | hi
  swap
  · rw [fill_of_le hi]
    exact h
  have hslots : (t.fill i cap).2.slots = update t.slots ⟨i, hi⟩ (some cap) :=
    slots_fill hi
  have hocc : (t.fill i cap).2.occupied = Insert.insert ⟨i, hi⟩ t.occupied := occupied_update hslots
  have hfree : (t.fill i cap).2.free = t.free &&& ~~~(1#32 <<< i) := by
    simp only [CapabilityTable.fill, dif_pos hi]
    split <;> rfl
  have hbit : ∀ j, (t.fill i cap).2.free.getLsbD j = true ↔
      ∃ hj : j < N, (t.fill i cap).2.slots ⟨j, hj⟩ = none := by
    intro j
    rw [hfree, hslots, getLsbD_and, getLsbD_not, getLsbD_bit (lt_of_lt_of_le hi hN)]
    by_cases hji : j = i
    · subst hji
      simp
    · have hrow := h.free j
      have h32 : t.free.getLsbD j = true → j < 32 := lt_of_getLsbD
      simp only [hji, decide_false, Bool.not_false, Bool.and_true, Bool.and_eq_true,
        decide_eq_true_eq, hrow, update, Fin.mk.injEq, dite_false]
      exact ⟨fun hx => hx.1, fun hx => ⟨hx, h32 (hrow.mpr hx)⟩⟩
  refine ⟨hbit, ?_, ?_⟩
  · rw [hocc]
    by_cases hempty : (t.slots ⟨i, hi⟩).isNone
    · have hnot : (⟨i, hi⟩ : Fin N) ∉ t.occupied := by
        rw [mem_occupied]
        simpa using hempty
      rw [Finset.card_insert_of_notMem hnot, ← h.used]
      simp [CapabilityTable.fill, hi, hempty]
    · have hmem : (⟨i, hi⟩ : Fin N) ∈ t.occupied := by
        rw [mem_occupied]
        simpa [Option.isSome_iff_ne_none] using hempty
      rw [Finset.insert_eq_of_mem hmem, ← h.used]
      simp [CapabilityTable.fill, hi, hempty]
  · have hle := h.used_le_peak
    by_cases hempty : (t.slots ⟨i, hi⟩).isNone
    · simp only [CapabilityTable.fill, dif_pos hi, hempty, if_true]
      split <;> omega
    · simp only [CapabilityTable.fill, dif_pos hi, hempty]
      exact hle

theorem Kept.empty (h : t.Kept) (hN : N ≤ maxSlots) (i : Nat) : (t.empty i).2.Kept := by
  rcases hs : t.slot i with - | cap
  · rw [empty_of_none hs]
    exact h
  have hi : i < N := by
    by_contra hi
    rw [slot, dif_neg hi] at hs
    cases hs
  have hcap : t.slots ⟨i, hi⟩ = some cap := by rwa [slot, dif_pos hi] at hs
  have heq : (t.empty i).2 = { t with
      slots := update t.slots ⟨i, hi⟩ none
      free := t.free ||| (1#32 <<< i)
      used := t.used - 1 } := by
    simp only [CapabilityTable.empty, dif_pos hi]
    split
    · next hnone => rw [hcap] at hnone; cases hnone
    · rfl
  have hocc : (t.empty i).2.occupied = t.occupied.erase ⟨i, hi⟩ := occupied_update (slots_empty hi)
  refine ⟨fun j => ?_, ?_, ?_⟩
  · rw [heq]
    simp only [getLsbD_or, getLsbD_bit (lt_of_lt_of_le hi hN)]
    by_cases hji : j = i
    · subst hji
      simp [hi]
    · simp [hji, h.free j]
  · have hmem : (⟨i, hi⟩ : Fin N) ∈ t.occupied := by rw [mem_occupied, hcap]; rfl
    rw [hocc, Finset.card_erase_of_mem hmem, ← h.used, heq]
  · rw [heq]
    exact Nat.le_trans (Nat.sub_le ..) h.used_le_peak

/-! ### The sweep -/

theorem mem_occupiedMask (h : t.Kept) (hN : N ≤ maxSlots) :
    i ∈ BitSet.elements t.occupiedMask ↔ (t.slot i).isSome := by
  rw [BitSet.mem_elements, occupiedMask, getLsbD_and, getLsbD_not, getLsbD_allFree hN]
  unfold slot
  by_cases hi : i < N
  · have h32 : i < 32 := lt_of_lt_of_le hi hN
    have hrow := h.free i
    rw [dif_pos hi]
    rcases hs : t.slots ⟨i, hi⟩ with - | c
    · simp [hrow.mpr ⟨hi, hs⟩]
    · have hclear : t.free.getLsbD i = false := by
        rw [Bool.eq_false_iff]
        intro hset
        obtain ⟨_, hnone⟩ := hrow.mp hset
        rw [hs] at hnone
        cases hnone
      rw [hclear]
      simp [h32, hi]
  · simp [hi]

theorem slot_foldl_empty (l : List Nat) (t : CapabilityTable O N) (j : Nat) :
    (l.foldl (fun t i => (t.empty i).2) t).slot j = if j ∈ l then none else t.slot j := by
  induction l generalizing t with
  | nil => rw [foldl_nil, if_neg not_mem_nil]
  | cons i l ih =>
    rw [foldl_cons, ih, slot_empty]
    by_cases hjl : j ∈ l
    · rw [if_pos hjl, if_pos (mem_cons_of_mem _ hjl)]
    · rw [if_neg hjl]
      by_cases hji : j = i
      · rw [if_pos hji, if_pos (hji ▸ mem_cons_self)]
      · rw [if_neg hji, if_neg (by simp [hji, hjl])]

/-- Testing as one goes is testing first: an emptied slot is not visited again. -/
theorem foldl_matching (p : O → Bool) (l : List Nat) (hl : l.Nodup) (t : CapabilityTable O N) :
    l.foldl (fun t i => if matchesAt p t i then (t.empty i).2 else t) t
      = (l.filter (matchesAt p t)).foldl (fun t i => (t.empty i).2) t := by
  induction l generalizing t with
  | nil => rfl
  | cons i l ih =>
    obtain ⟨hi, hl⟩ := nodup_cons.mp hl
    rw [foldl_cons, filter_cons]
    by_cases hm : matchesAt p t i
    · rw [if_pos hm, if_pos hm, foldl_cons, ih hl]
      congr 1
      refine filter_congr fun j hj => ?_
      have hji : j ≠ i := fun h => hi (h ▸ hj)
      rw [matchesAt, slot_empty, if_neg hji, matchesAt]
    · rw [if_neg hm, if_neg hm, ih hl]

theorem matchesAt_isSome {p : O → Bool} (h : matchesAt p t i) : (t.slot i).isSome := by
  rw [matchesAt] at h
  rcases hs : t.slot i with - | c
  · rw [hs] at h
    cases h
  · rfl

theorem lt_of_slot (h : (t.slot i).isSome) : i < N := by
  by_contra hi
  rw [slot, dif_neg hi] at h
  cases h

theorem delete_snd (t : CapabilityTable O N) (i : Nat) : (t.delete i).2 = (t.empty i).2 := by
  unfold delete
  rcases h : t.empty i with ⟨- | c, t'⟩ <;> rfl

/-- **The sweep deletes every slot that matches, and nothing else.** -/
theorem deleteMatching_eq (h : t.Kept) (hN : N ≤ maxSlots) (p : O → Bool) : t.deleteMatching p
      = ((List.range N).filter (matchesAt p t)).foldl (fun t i => (t.delete i).2) t := by
  have hsame : (BitSet.elements t.occupiedMask).filter (matchesAt p t)
      = (List.range N).filter (matchesAt p t) := by
    have hrange : ∀ n, (List.range n).Pairwise (· < ·) := fun n => pairwise_lt_range
    refine List.SortedLT.eq_of_mem_iff (((hrange 32).filter _).filter _).sortedLT
      ((hrange N).filter _).sortedLT fun j => ?_
    rw [mem_filter, mem_filter, mem_occupiedMask h hN, mem_range]
    refine and_congr_left fun hm => iff_of_true (matchesAt_isSome hm) ?_
    exact lt_of_slot (matchesAt_isSome hm)
  rw [deleteMatching, BitSet.forEach_eq, foldl_matching p _ (BitSet.nodup_elements _), hsame]
  congr 1
  funext t i
  rw [delete_snd]

theorem slot_deleteMatching (h : t.Kept) (hN : N ≤ maxSlots) (p : O → Bool) (j : Nat) :
    (t.deleteMatching p).slot j = (t.slot j).filter fun c => !p c.object := by
  rw [deleteMatching_eq h hN]
  simp only [delete_snd]
  rw [slot_foldl_empty]
  rcases hs : t.slot j with - | c
  · rw [ite_self]
    rfl
  · have hj : j < N := lt_of_slot (by rw [hs]; rfl)
    by_cases hp : p c.object <;> simp [matchesAt, hs, hp, hj, Option.filter]

theorem Kept.deleteMatching (h : t.Kept) (hN : N ≤ maxSlots) (p : O → Bool) :
    (t.deleteMatching p).Kept := by
  rw [deleteMatching_eq h hN]
  generalize (List.range N).filter (matchesAt p t) = l
  induction l generalizing t with
  | nil => exact h
  | cons i l ih =>
    rw [foldl_cons, delete_snd]
    exact ih (h.empty hN i)

end CapabilityTable

end Storage

end Nife
