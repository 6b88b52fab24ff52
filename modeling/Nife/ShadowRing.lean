/-
What a call of the validator accepts, what it leaves in the shadow ring, and where it writes.

With the driver's memory unchanged during the call (`Bus.steady`), every copy of a descriptor is
the driver's own: several heads may share descriptors and chains may go round, and the shadow
entries written twice are written with the same words.  So the writes of an accepted call are
those of the driver's chains (`shadowHeads_steady`), and the shadow agrees with the driver's table
on every index they visit (`entry_after`).  A chain that goes round has visited all its indices
after `qsize` turns, so the two tables give the same chain however far it is followed.

Main result: `shadow_faithful`, the acceptance and the mirror for a driver that holds still, and
the places written and their order for one that does not.
-/
import Nife.DmaValidator
import Nife.Lib.Walk

namespace Nife.Validator

open Words List Bool Nife.Validator.Event Write

variable {q : Queue} {m s : Memory} {bus : Bus} {d : Nat} {desc : Desc} {ws : List Write}
variable {fromIdx toIdx : BitVec 16}

/-! ### Chains and batches -/

/-- The link of a descriptor. -/
def Desc.link (d : Desc) : Option Nat := if d.hasNext then some d.next.toNat else none

/-- The descriptors met in `n` turns from index `d` of a table, each with its index. -/
def chain (table : Nat → Desc) (n d : Nat) : List (Nat × Desc) :=
  (Walk.nodes (fun i => (table i).link) n d).map fun i => (i, table i)

def Queue.driverEntry (q : Queue) (m : Memory) (d : Nat) : Desc := descAt m q.driverDesc d

def Queue.driverHead (q : Queue) (m : Memory) (idx : BitVec 16) : BitVec 16 :=
  load16 m (q.driverAvail + 4 + q.slot idx * 2)

def Queue.shadowHead (q : Queue) (m : Memory) (idx : BitVec 16) : BitVec 16 :=
  load16 m (q.shadowAvail + 4 + q.slot idx * 2)

def indices : Nat → BitVec 16 → List (BitVec 16)
  | 0, _ => []
  | n + 1, idx => idx :: indices n (idx + 1)

def published (fromIdx toIdx : BitVec 16) : List (BitVec 16) :=
  indices (toIdx - fromIdx).toNat fromIdx

/-- The batch is one to accept: it fits the ring, its heads are in the table, and every descriptor
of their chains passes the check. -/
structure Acceptable (q : Queue) (m : Memory) (fromIdx toIdx : BitVec 16) : Prop where
  fits : (toIdx - fromIdx).toNat ≤ q.qsize.toNat
  heads : ∀ idx ∈ published fromIdx toIdx, (q.driverHead m idx).toNat < q.qsize.toNat
  chains : ∀ idx ∈ published fromIdx toIdx,
    ∀ c ∈ chain (q.driverEntry m) q.qsize.toNat (q.driverHead m idx).toNat,
      checkDescriptor q c.2 = true

/-- The shadow in `s` shows the device what the driver published in `m`. -/
structure Mirrors (q : Queue) (m : Memory) (fromIdx toIdx : BitVec 16) (s : Memory) : Prop where
  /-- Each chain is the driver's, however far it is followed. -/
  chains : ∀ idx ∈ published fromIdx toIdx, ∀ n,
    chain (q.entry s) n (q.driverHead m idx).toNat =
      chain (q.driverEntry m) n (q.driverHead m idx).toNat
  heads : ∀ idx ∈ published fromIdx toIdx, q.shadowHead s idx = q.driverHead m idx
  idx : load16 s (q.shadowAvail + 2) = toIdx

/-- A write into the shadow table, a slot of the shadow available ring or its index. -/
def Write.Lands (q : Queue) : Write → Prop
  | .write64 a _ => ∃ d < q.qsize.toNat, a = q.shadowDesc + d * 16 ∨ a = q.shadowDesc + d * 16 + 8
  | .write16 a _ => a = q.shadowAvail + 2 ∨
      ∃ slot < q.qsize.toNat, a = q.shadowAvail + 4 + slot * 2

/-- What a call writes, whatever it reads. -/
structure Confining (q : Queue) (toIdx : BitVec 16) (r : Bool × List Write) : Prop where
  lands : ∀ w ∈ r.2, w.Lands q
  /-- The index is written last, and only by a call that succeeds. -/
  idx : ∀ pre v post, r.2 = pre ++ Write.write16 (q.shadowAvail + 2) v :: post →
    r.1 = true ∧ v = toIdx ∧ post = []
  published : r.1 = true → ∃ pre, r.2 = pre ++ [Write.write16 (q.shadowAvail + 2) toIdx]
  /-- A head mirrored is in the table, and names an entry that passed the check. -/
  heads : ∀ pre slot head post, slot < q.qsize.toNat →
    r.2 = pre ++ Write.write16 (q.shadowAvail + 4 + slot * 2) head :: post →
    head.toNat < q.qsize.toNat ∧
      ∀ s, checkDescriptor q (q.entry (after s pre) head.toNat) = true

/-! ### A driver that holds still -/

/-- The driver's memory, unchanged during a call. -/
def Bus.steady (m : Memory) : Bus where
  read16 _ a := load16 m a
  read64 _ a := load64 m a

theorem readDesc_steady (q : Queue) (m : Memory) (d : BitVec 16) (t : Nat) :
    readDesc q (.steady m) d t = q.driverEntry m d.toNat := rfl

theorem chain_succ (table : Nat → Desc) (n d : Nat) :
    chain table (n + 1) d = (d, table d) :: (table d).link.elim [] (chain table n) := by
  rw [chain, Walk.nodes]
  cases (table d).link <;> rfl

variable {es : List Event} {table : Nat → Desc} {slot : Nat} {head : BitVec 16}
  {pre post : List Write}

theorem chain_of_link (n : Nat) (h : (table d).hasNext = true) :
    chain table (n + 1) d = (d, table d) :: chain table n (table d).next.toNat := by
  rw [chain_succ, Desc.link, if_pos h]
  rfl

theorem chain_of_end (n : Nat) (h : (table d).hasNext = false) :
    chain table (n + 1) d = [(d, table d)] := by
  rw [chain_succ, Desc.link, h]
  rfl

/-- A walk accepts exactly the chains that pass the check, and then copies them. -/
theorem shadowOneHead_steady (turns : Nat) (d : BitVec 16) (t : Nat) :
    ((shadowOneHead q (.steady m) turns d t).1 = true ↔
      ∀ c ∈ chain (q.driverEntry m) turns d.toNat, checkDescriptor q c.2 = true) ∧
    ((shadowOneHead q (.steady m) turns d t).1 = true →
      (shadowOneHead q (.steady m) turns d t).2.2 = (chain (q.driverEntry m) turns d.toNat).flatMap
          fun c => (copy c.1 c.2).writes q) := by
  induction turns generalizing d t with
  | zero => exact ⟨⟨nofun, fun _ => rfl⟩, fun _ => rfl⟩
  | succ turns ih =>
    obtain ⟨hcheck, heq⟩ | ⟨hcheck, hnext, heq⟩ | ⟨hcheck, hnext, heq⟩ :=
      shadowOneHead_succ q (.steady m) turns d t
    · rw [readDesc_steady] at hcheck
      rw [heq, chain_succ]
      simp [hcheck]
    · rw [readDesc_steady] at hcheck hnext
      rw [heq, chain_of_end turns hnext]
      simp [hcheck, readDesc_steady]
    · rw [readDesc_steady] at hcheck hnext
      obtain ⟨hiff, hws⟩ := ih (q.driverEntry m d.toNat).next (t + 2)
      rw [heq, chain_of_link turns hnext]
      refine ⟨?_, fun hok => ?_⟩
      · rw [readDesc_steady, hiff]
        simp [hcheck]
      · rw [flatMap_cons, ← hws hok]
        rfl

def headEvents (q : Queue) (m : Memory) (idx : BitVec 16) : List Event :=
  (chain (q.driverEntry m) q.qsize.toNat (q.driverHead m idx).toNat).map
    (fun c => Event.copy c.1 c.2) ++ [Event.mirror (q.slot idx) (q.driverHead m idx)]

/-- The loop accepts exactly the batches whose heads and chains do, and then mirrors them. -/
theorem shadowHeads_steady (left : Nat) (idx : BitVec 16) (t : Nat) :
    ((shadowHeads q (.steady m) left idx t).1 = true ↔
      ∀ i ∈ indices left idx, (q.driverHead m i).toNat < q.qsize.toNat ∧
        ∀ c ∈ chain (q.driverEntry m) q.qsize.toNat (q.driverHead m i).toNat,
          checkDescriptor q c.2 = true) ∧
    ((shadowHeads q (.steady m) left idx t).1 = true → (shadowHeads q (.steady m) left idx t).2 =
        ((indices left idx).flatMap (headEvents q m)).flatMap (writes q)) := by
  induction left generalizing idx t with
  | zero => exact ⟨⟨nofun, fun _ => rfl⟩, fun _ => rfl⟩
  | succ left ih =>
    rw [indices, forall_mem_cons]
    obtain ⟨hhead, heq⟩ | ⟨hhead, hwalk, heq⟩ | ⟨hhead, hwalk, heq⟩ :=
      shadowHeads_succ q (.steady m) left idx t
    · change q.qsize.toNat ≤ (q.driverHead m idx).toNat at hhead
      rw [heq]
      refine ⟨⟨fun h => absurd h false_ne_true, fun h => absurd h.1.1 (not_lt.mpr hhead)⟩, fun h => absurd h false_ne_true⟩
    · change (shadowOneHead q (.steady m) q.qsize.toNat (q.driverHead m idx) (t + 1)).1 = false
        at hwalk
      rw [heq]
      refine ⟨⟨fun h => absurd h false_ne_true, fun h => ?_⟩, fun h => absurd h false_ne_true⟩
      rw [(shadowOneHead_steady _ _ _).1.mpr h.1.2] at hwalk
      cases hwalk
    · change (q.driverHead m idx).toNat < q.qsize.toNat at hhead
      change (shadowOneHead q (.steady m) q.qsize.toNat (q.driverHead m idx) (t + 1)).1 = true
        at hwalk
      obtain ⟨hiff, hws⟩ := ih (idx + 1) (shadowOneHead q (.steady m) q.qsize.toNat
        (q.driverHead m idx) (t + 1)).2.1
      have hchain := (shadowOneHead_steady _ _ _).1.mp hwalk
      have hcopied := (shadowOneHead_steady _ _ _).2 hwalk
      rw [heq]
      refine ⟨?_, fun hok => ?_⟩
      · refine Iff.trans hiff ⟨fun h => ⟨⟨hhead, hchain⟩, h⟩, fun h => h.2⟩
      · rw [flatMap_cons, flatMap_append, ← hws hok, headEvents, flatMap_append,
          flatMap_map, append_assoc, ← hcopied]
        rfl

/-! ### The shadow after a list of events -/

theorem after_append (m : Memory) (ws ws' : List Write) :
    after m (ws ++ ws') = after (after m ws) ws' := foldl_append ..

/-- An event of an accepted batch writes what the driver's memory holds. -/
def Event.Holds (q : Queue) (m : Memory) : Event → Prop
  | .copy d desc => d < q.qsize.toNat ∧ desc = q.driverEntry m d
  | .mirror slot head => slot < q.qsize.toNat ∧ head = load16 m (q.driverAvail + 4 + slot * 2)

theorem entry_after_copy (q : Queue) (s : Memory) (d d' : Nat) (desc : Desc) :
    q.entry (after s ((copy d desc).writes q)) d' =
      if d' = d then desc else q.entry s d' := by
  change q.entry ((write64 (q.shadowDesc + d * 16 + 8) desc.word).on
    ((write64 (q.shadowDesc + d * 16) desc.addr).on s)) d' = _
  rw [entry_on_word, entry_on_addr, entry_on_addr, if_pos rfl]
  by_cases h : d' = d
  · rw [if_pos h, if_pos h]
  · rw [if_neg h, if_neg h, if_neg h]

theorem entry_after_mirror (head : BitVec 16) (hslot : slot < q.qsize.toNat)
    (hd : d < q.qsize.toNat) :
    q.entry (after s ((mirror slot head).writes q)) d = q.entry s d :=
  entry_on_avail head hd (by omega) (by omega)

theorem entry_after_of (P : Desc → Prop) (hd : d < q.qsize.toNat)
    (hcopy : ∀ desc, copy d desc ∈ es → P desc)
    (hslot : ∀ slot head, mirror slot head ∈ es → slot < q.qsize.toNat)
    (h : P (q.entry s d) ∨ ∃ desc, copy d desc ∈ es) :
    P (q.entry (after s (es.flatMap (writes q))) d) := by
  induction es generalizing s with
  | nil =>
    obtain h | ⟨desc, hmem⟩ := h
    · exact h
    · cases hmem
  | cons e es ih =>
    rw [flatMap_cons, after_append]
    refine ih (fun desc hmem => hcopy desc (mem_cons_of_mem e hmem))
      (fun slot head hmem => hslot slot head (mem_cons_of_mem e hmem)) ?_
    cases e with
    | copy d' desc' =>
      rw [entry_after_copy]
      split_ifs with hdd
      · exact .inl (hcopy desc' (by rw [hdd]; exact mem_cons_self))
      · refine h.imp_right fun ⟨desc, hmem⟩ => ⟨desc, ?_⟩
        rcases mem_cons.mp hmem with heq | hmem
        · cases heq
          exact absurd rfl hdd
        · exact hmem
    | mirror slot head =>
      rw [entry_after_mirror head (hslot slot head mem_cons_self) hd]
      refine h.imp_right fun ⟨desc, hmem⟩ => ⟨desc, ?_⟩
      rcases mem_cons.mp hmem with heq | hmem
      · cases heq
      · exact hmem

/-- **The shadow agrees with the driver on every index that was copied.** -/
theorem entry_after (hes : ∀ e ∈ es, e.Holds q m) (hd : d < q.qsize.toNat)
    (h : ∃ desc, copy d desc ∈ es) :
    q.entry (after s (es.flatMap (writes q))) d = q.driverEntry m d :=
  entry_after_of (· = q.driverEntry m d) hd (fun _ hmem => (hes _ hmem).2)
    (fun _ _ hmem => (hes _ hmem).1) (.inr h)

theorem slot_after (hes : ∀ e ∈ es, e.Holds q m) (hslot : slot < q.qsize.toNat)
    (h : load16 s (q.shadowAvail + 4 + slot * 2) = load16 m (q.driverAvail + 4 + slot * 2) ∨
      ∃ head, mirror slot head ∈ es) :
    load16 (after s (es.flatMap (writes q))) (q.shadowAvail + 4 + slot * 2) =
      load16 m (q.driverAvail + 4 + slot * 2) := by
  have hapart := q.shadow_apart
  unfold Apart at hapart
  induction es generalizing s with
  | nil =>
    obtain h | ⟨head, hmem⟩ := h
    · exact h
    · cases hmem
  | cons e es ih =>
    have he := hes e mem_cons_self
    rw [flatMap_cons, after_append]
    refine ih (fun e' he' => hes e' (mem_cons_of_mem e he')) ?_
    cases e with
    | copy d' desc' =>
      have hd' := he.1
      change load16 ((write64 (q.shadowDesc + d' * 16 + 8) desc'.word).on
        ((write64 (q.shadowDesc + d' * 16) desc'.addr).on s)) _ = _ ∨ _
      rw [load16_on_write64 _ (by omega), load16_on_write64 _ (by omega)]
      refine h.imp_right fun ⟨head, hmem⟩ => ⟨head, ?_⟩
      rcases mem_cons.mp hmem with heq | hmem
      · cases heq
      · exact hmem
    | mirror slot' head' =>
      change load16 ((write16 (q.shadowAvail + 4 + slot' * 2) head').on s) _ = _ ∨ _
      by_cases hss : slot = slot'
      · rw [hss, load16_on_self]
        exact .inl he.2
      · rw [load16_on_write16 _ (by omega)]
        refine h.imp_right fun ⟨head, hmem⟩ => ⟨head, ?_⟩
        rcases mem_cons.mp hmem with heq | hmem
        · cases heq
          exact absurd rfl hss
        · exact hmem

/-! ### The mirror -/

theorem visit_lt (hd : d < q.qsize.toNat)
    (h : ∀ c ∈ chain table q.qsize.toNat d, checkDescriptor q c.2 = true) (k x : Nat)
    (hk : k ≤ q.qsize.toNat) (hx : Walk.visit (fun i => (table i).link) d k = some x) :
    x < q.qsize.toNat := by
  cases k with
  | zero =>
    cases hx
    exact hd
  | succ k =>
    obtain ⟨y, hy, hlink⟩ := Option.bind_eq_some_iff.mp hx
    have hmem : (y, table y) ∈ chain table q.qsize.toNat d :=
      mem_map_of_mem (Walk.mem_nodes.mpr ⟨k, hk, hy⟩)
    rw [Desc.link] at hlink
    split at hlink
    case isTrue hnext =>
      cases hlink
      exact (checkDescriptor_iff.mp (h _ hmem)).2.2 hnext
    case isFalse => cases hlink

/-- Two tables that agree on a chain that passes give the same chain, however far it goes. -/
theorem chain_congr {table' : Nat → Desc} (hd : d < q.qsize.toNat)
    (h : ∀ c ∈ chain table q.qsize.toNat d, checkDescriptor q c.2 = true)
    (heq : ∀ c ∈ chain table q.qsize.toNat d, table' c.1 = table c.1) (n : Nat) :
    chain table' n d = chain table n d := by
  have hall : ∀ x ∈ Walk.nodes (fun i => (table i).link) n d, table' x = table x := by
    intro x hx
    have hcard := Walk.mem_nodes_of_card (Finset.range q.qsize.toNat) (fun k y hk hy => by
      rw [Finset.card_range] at hk
      exact Finset.mem_range.mpr (visit_lt hd h k y hk hy)) hx
    rw [Finset.card_range] at hcard
    exact heq (x, table x) (mem_map_of_mem hcard)
  rw [chain, Walk.nodes_congr fun x hx => by rw [hall x hx]]
  exact map_congr_left fun x hx => by rw [hall x hx]

theorem mem_chain_lt (hd : d < q.qsize.toNat)
    (h : ∀ c ∈ chain table q.qsize.toNat d, checkDescriptor q c.2 = true) {c : Nat × Desc}
    (hc : c ∈ chain table q.qsize.toNat d) : c.1 < q.qsize.toNat ∧ c.2 = table c.1 := by
  obtain ⟨x, hx, rfl⟩ := mem_map.mp hc
  obtain ⟨k, hk, hvisit⟩ := Walk.mem_nodes.mp hx
  exact ⟨visit_lt hd h k x hk.le hvisit, rfl⟩

theorem slot_lt (q : Queue) (idx : BitVec 16) : q.slot idx < q.qsize.toNat :=
  Nat.mod_lt _ q.qsize_pos

def batchEvents (q : Queue) (m : Memory) (fromIdx toIdx : BitVec 16) : List Event :=
  (published fromIdx toIdx).flatMap (headEvents q m)

theorem Acceptable.holds (h : Acceptable q m fromIdx toIdx) :
    ∀ e ∈ batchEvents q m fromIdx toIdx, e.Holds q m := by
  intro e he
  obtain ⟨idx, hidx, he⟩ := mem_flatMap.mp he
  rcases mem_append.mp he with he | he
  · obtain ⟨c, hc, rfl⟩ := mem_map.mp he
    exact mem_chain_lt (h.heads idx hidx) (h.chains idx hidx) hc
  · cases mem_singleton.mp he
    exact ⟨slot_lt q idx, rfl⟩

/-- A call accepts exactly the acceptable batches, and then writes their events. -/
theorem validateAndShadow_steady (q : Queue) (m : Memory) (fromIdx toIdx : BitVec 16) :
    ((validateAndShadow q (.steady m) fromIdx toIdx).1 = true ↔ Acceptable q m fromIdx toIdx) ∧
    ((validateAndShadow q (.steady m) fromIdx toIdx).1 = true →
      (validateAndShadow q (.steady m) fromIdx toIdx).2 =
        (batchEvents q m fromIdx toIdx).flatMap (writes q) ++
          [write16 (q.shadowAvail + 2) toIdx]) := by
  unfold validateAndShadow
  split
  case isTrue hmany =>
    exact ⟨⟨fun h => absurd h false_ne_true, fun h => absurd h.fits (not_le.mpr hmany)⟩, fun h => absurd h false_ne_true⟩
  case isFalse hfew =>
    obtain ⟨hiff, hws⟩ := shadowHeads_steady (q := q) (m := m) (toIdx - fromIdx).toNat fromIdx 0
    have hok : (shadowHeads q (.steady m) (toIdx - fromIdx).toNat fromIdx 0).1 = true ↔
        Acceptable q m fromIdx toIdx := by
      rw [hiff]
      exact ⟨fun h => ⟨not_lt.mp hfew, fun i hi => (h i hi).1, fun i hi => (h i hi).2⟩,
        fun h i hi => ⟨h.heads i hi, h.chains i hi⟩⟩
    cases hheads : (shadowHeads q (.steady m) (toIdx - fromIdx).toNat fromIdx 0).1 with
    | false =>
      rw [hheads] at hok
      simp only [hheads, Bool.not_false, if_true]
      exact ⟨hok, fun h => absurd h Bool.false_ne_true⟩
    | true =>
      rw [hheads] at hok
      simp only [hheads, Bool.not_true, Bool.false_eq_true, if_false]
      exact ⟨by simpa using hok, fun _ => by rw [hws hheads]; rfl⟩

theorem Acceptable.mirrors (h : Acceptable q m fromIdx toIdx) (s : Memory) :
    Mirrors q m fromIdx toIdx (after s ((batchEvents q m fromIdx toIdx).flatMap (writes q) ++
      [write16 (q.shadowAvail + 2) toIdx])) := by
  have hmem : ∀ idx ∈ published fromIdx toIdx, ∀ e ∈ headEvents q m idx,
      e ∈ batchEvents q m fromIdx toIdx :=
    fun idx hidx e he => mem_flatMap.mpr ⟨idx, hidx, he⟩
  rw [after_append]
  refine ⟨fun idx hidx n => ?_, fun idx hidx => ?_, load16_on_self _ _⟩
  · refine chain_congr (h.heads idx hidx) (h.chains idx hidx) (fun c hc => ?_) n
    have hlt := (mem_chain_lt (h.heads idx hidx) (h.chains idx hidx) hc).1
    change q.entry ((write16 _ _).on _) c.1 = _
    rw [entry_on_avail toIdx hlt (by omega) (by omega)]
    refine entry_after h.holds hlt ⟨c.2, hmem idx hidx _ ?_⟩
    exact mem_append_left _ (mem_map_of_mem hc)
  · change load16 ((write16 _ _).on _) _ = _
    rw [load16_on_write16 toIdx (by omega)]
    refine slot_after h.holds (slot_lt q idx) (.inr ⟨q.driverHead m idx, hmem idx hidx _ ?_⟩)
    exact mem_append_right _ (mem_singleton.mpr rfl)

/-! ### Any driver -/

theorem lands_events (h : ∀ e ∈ es, e.Sound q) {w : Write}
    (hw : w ∈ es.flatMap (writes q)) : w.Lands q := by
  obtain ⟨e, he, hw⟩ := mem_flatMap.mp hw
  have hsound := h e he
  cases e with
  | copy d desc =>
    rcases mem_cons.mp hw with rfl | hw
    · exact ⟨d, hsound.1, .inl rfl⟩
    · cases mem_singleton.mp hw
      exact ⟨d, hsound.1, .inr rfl⟩
  | mirror slot head =>
    cases mem_singleton.mp hw
    exact .inr ⟨slot, hsound.1, rfl⟩

theorem idx_notMem_events (v : BitVec 16) :
    write16 (q.shadowAvail + 2) v ∉ es.flatMap (writes q) := by
  intro hw
  obtain ⟨e, -, hw⟩ := mem_flatMap.mp hw
  cases e with
  | copy d desc => simp [writes] at hw
  | mirror slot head =>
    have haddr := (write16.inj (mem_singleton.mp hw)).1
    omega

theorem mirror_of_write (h : es.flatMap (writes q) =
      pre ++ write16 (q.shadowAvail + 4 + slot * 2) head :: post) :
    ∃ before rest, es = before ++ mirror slot head :: rest ∧
      pre = before.flatMap (writes q) := by
  induction es generalizing pre with
  | nil => simp at h
  | cons e es ih =>
    rw [flatMap_cons] at h
    cases e with
    | copy d desc =>
      -- both writes of a copy are 64 bits wide, so they lie in `pre`
      obtain - | ⟨w, pre⟩ := pre
      · simp [writes] at h
      obtain - | ⟨w', pre⟩ := pre
      · simp [writes] at h
      simp only [writes, cons_append, nil_append, List.cons.injEq] at h
      obtain ⟨rfl, rfl, h⟩ := h
      obtain ⟨before, rest, rfl, rfl⟩ := ih h
      exact ⟨.copy d desc :: before, rest, rfl, rfl⟩
    | mirror slot' head' =>
      obtain - | ⟨w, pre⟩ := pre
      · simp only [writes, cons_append, nil_append, List.cons.injEq, write16.injEq] at h
        obtain ⟨⟨haddr, rfl⟩, -⟩ := h
        refine ⟨[], es, ?_, rfl⟩
        rw [nil_append, show slot' = slot by omega]
      · simp only [writes, cons_append, nil_append, List.cons.injEq] at h
        obtain ⟨rfl, h⟩ := h
        obtain ⟨before, rest, rfl, rfl⟩ := ih h
        exact ⟨.mirror slot' head' :: before, rest, rfl, rfl⟩

theorem checked_after (hes : ∀ e ∈ es, e.Sound q) (hd : d < q.qsize.toNat)
    (h : ∃ desc, copy d desc ∈ es) :
    checkDescriptor q (q.entry (after s (es.flatMap (writes q))) d) = true :=
  entry_after_of (checkDescriptor q · = true) hd (fun _ hmem => (hes _ hmem).2)
    (fun _ _ hmem => (hes _ hmem).1) (.inr h)

theorem Ordered.copied {done : List Nat} {before rest : List Event}
    (h : Ordered done (before ++ Event.mirror slot head :: rest)) :
    head.toNat ∈ done ∨ ∃ desc, Event.copy head.toNat desc ∈ before := by
  induction before generalizing done with
  | nil =>
    cases h with
    | mirror _ _ hmem _ => exact .inl hmem
  | cons e before ih =>
    cases h with
    | copy d desc h =>
      rcases ih h with hmem | ⟨desc', hmem⟩
      · rcases mem_cons.mp hmem with heq | hmem
        · exact .inr ⟨desc, by rw [heq]; exact mem_cons_self⟩
        · exact .inl hmem
      · exact .inr ⟨desc', mem_cons_of_mem _ hmem⟩
    | mirror _ _ _ h =>
      exact (ih h).imp_right fun ⟨desc, hmem⟩ => ⟨desc, mem_cons_of_mem _ hmem⟩

/-- A list with one more write is split at that write or before it. -/
theorem concat_eq_append_cons {w v : Write} (h : ws ++ [w] = pre ++ v :: post) :
    (post = [] ∧ w = v) ∨ ∃ mid, ws = pre ++ v :: mid := by
  rcases eq_nil_or_concat post with rfl | ⟨mid, z, rfl⟩
  · exact .inl ⟨rfl, (List.cons.inj (append_inj' h rfl).2).1⟩
  · rw [concat_eq_append, ← cons_append, ← append_assoc] at h
    exact .inr ⟨mid, (append_inj' h rfl).1⟩

theorem Recorded.heads (h : Recorded q ws es)
    (heq : ws = pre ++ Write.write16 (q.shadowAvail + 4 + slot * 2) head :: post) :
    head.toNat < q.qsize.toNat ∧
      ∀ s, checkDescriptor q (q.entry (after s pre) head.toNat) = true := by
  obtain ⟨before, rest, rfl, rfl⟩ := mirror_of_write (h.writes ▸ heq)
  have hhead : head.toNat < q.qsize.toNat :=
    (h.sound (.mirror slot head) (by simp)).2
  refine ⟨hhead, fun s => checked_after ?_ hhead ?_⟩
  · exact fun e he => h.sound e (mem_append_left _ he)
  · exact (h.ordered []).copied.resolve_left not_mem_nil

theorem confining_validateAndShadow (q : Queue) (bus : Bus) (fromIdx toIdx : BitVec 16) :
    Confining q toIdx (validateAndShadow q bus fromIdx toIdx) := by
  obtain ⟨ws, es, hes, heq⟩ := validateAndShadow_recorded q bus fromIdx toIdx
  generalize validateAndShadow q bus fromIdx toIdx = r at heq
  obtain ⟨ok, all⟩ := r
  dsimp only at heq
  have hidx : ∀ v, write16 (q.shadowAvail + 2) v ∉ ws := by
    rw [hes.writes]
    exact idx_notMem_events
  cases ok with
  | false =>
    rw [if_neg (by decide), append_nil] at heq
    subst heq
    refine ⟨fun w hw => lands_events hes.sound (hes.writes ▸ hw), ?_, fun h => absurd h false_ne_true,
      fun pre slot head post _ h => hes.heads h⟩
    intro pre v post h
    refine absurd ?_ (hidx v)
    rw [show all = _ from h]
    exact mem_append_right _ mem_cons_self
  | true =>
    rw [if_pos rfl] at heq
    subst heq
    refine ⟨fun w hw => ?_, fun pre v post h => ?_, fun _ => ⟨ws, rfl⟩,
      fun pre slot head post hslot h => ?_⟩
    · rcases mem_append.mp hw with hw | hw
      · exact lands_events hes.sound (hes.writes ▸ hw)
      · cases mem_singleton.mp hw
        exact .inl rfl
    · rcases concat_eq_append_cons h with ⟨rfl, heq⟩ | ⟨mid, hws⟩
      · cases heq
        exact ⟨rfl, rfl, rfl⟩
      · exact absurd (by rw [hws]; simp) (hidx v)
    · rcases concat_eq_append_cons h with ⟨rfl, heq⟩ | ⟨mid, hws⟩
      · simp only [write16.injEq] at heq
        omega
      · exact hes.heads hws

theorem load_after (hws : ∀ w ∈ ws, w.Lands q) {a n : Nat}
    (ha : Apart q.shadowDesc (16 * q.qsize.toNat) a n ∧
      Apart q.shadowAvail (4 + 2 * q.qsize.toNat) a n) :
    load (after m ws) a n = load m a n := by
  induction ws generalizing m with
  | nil => rfl
  | cons w ws ih =>
    have hw := hws w mem_cons_self
    refine (ih fun w' hw' => hws w' (mem_cons_of_mem w hw')).trans ?_
    unfold Apart at ha
    cases w with
    | write16 b v =>
      refine load_store_of_disjoint ?_
      rcases hw with rfl | ⟨slot, hslot, rfl⟩ <;> omega
    | write64 b v =>
      refine load_store_of_disjoint ?_
      obtain ⟨d, hd, rfl | rfl⟩ := hw <;> omega

/-- The driver's rings read the same in both memories. -/
structure DriverKept (q : Queue) (m s : Memory) : Prop where
  entries : ∀ d < q.qsize.toNat, q.driverEntry s d = q.driverEntry m d
  heads : ∀ idx, q.driverHead s idx = q.driverHead m idx

/-- No write of a call changes the driver's rings: a driver that holds still is read as one. -/
theorem driverKept_after (hws : ∀ w ∈ ws, w.Lands q) : DriverKept q m (after m ws) := by
  have hdesc := q.desc_apart
  have havail := q.avail_apart
  unfold Apart at hdesc havail
  refine ⟨fun d hd => ?_, fun idx => ?_⟩
  · unfold Queue.driverEntry descAt load64
    rw [load_after hws (by unfold Apart; omega), load_after hws (by unfold Apart; omega)]
  · have hslot := slot_lt q idx
    unfold Queue.driverHead load16
    rw [load_after hws (by unfold Apart; omega)]

/-- **Shadow-ring validation is faithful and confining.**  With the driver's memory unchanged, a
call accepts exactly the acceptable batches and then the shadow mirrors them; whatever the
driver's memory does, it writes the shadow only, the index last and on success, and mirrors only
heads that name a checked entry. -/
theorem shadow_faithful (q : Queue) (fromIdx toIdx : BitVec 16) :
    (∀ m, ((validateAndShadow q (.steady m) fromIdx toIdx).1 = true ↔
        Acceptable q m fromIdx toIdx) ∧
      ((validateAndShadow q (.steady m) fromIdx toIdx).1 = true → Mirrors q m fromIdx toIdx
          (after m (validateAndShadow q (.steady m) fromIdx toIdx).2)) ∧
      ∀ pre, pre <+: (validateAndShadow q (.steady m) fromIdx toIdx).2 →
        DriverKept q m (after m pre)) ∧
    ∀ bus, Confining q toIdx (validateAndShadow q bus fromIdx toIdx) := by
  refine ⟨fun m => ?_, fun bus => confining_validateAndShadow q bus fromIdx toIdx⟩
  obtain ⟨hiff, hws⟩ := validateAndShadow_steady q m fromIdx toIdx
  refine ⟨hiff, fun hok => ?_, fun pre hpre => ?_⟩
  · rw [hws hok]
    exact (hiff.mp hok).mirrors m
  · have hlands := (confining_validateAndShadow q (.steady m) fromIdx toIdx).lands
    exact driverKept_after fun w hw => hlands w (hpre.subset hw)

end Nife.Validator
