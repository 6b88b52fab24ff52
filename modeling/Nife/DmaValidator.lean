/-
The DMA-confinement validator (`crates/direct_memory_access_validator/src/lib.rs`), which copies
the descriptors a driver publishes into the shadow ring a device reads, and
checks each one before.

A call reads the driver's memory, which the driver may change at any time: a `Bus` gives each
read its own answer, by the number of reads before it.  A call writes the shadow ring only; its
writes are kept in order, because the device reads the shadow at any time and so may see it
between two of them.  `validateAndShadow` is the source's function from a bus to its answer and
its writes.

A call is a list of *events*, each a descriptor copied (two writes) or a head mirrored, and on
success the index published (`validateAndShadow_recorded`).  Everything else is proved from that
list.

Main result: `shadow_confined`, that at every instant of every run the entries of the shadow
table lie in the region, in the runs where no address is laid down over a length that does not
fit it.  The two words of an entry are written one after the other, and `republished_overruns`
is a run in which the device can read the new address with the old length.
-/
import Nife.Lib.Words

namespace Nife.Validator

open Words List BitVec

/-- Memory, byte by byte. -/
abbrev Memory := Nat → BitVec 8

/-! ### Descriptors -/

def flagNext : BitVec 16 := 1#16

def flagIndirect : BitVec 16 := 4#16

def checkedAdd (x y : Nat) : Option Nat := if x + y < 2 ^ 64 then some (x + y) else none

/-- Is `[addr, addr + len)` wholly inside `[base, base + size)`? -/
def isInRegion (base size addr len : Nat) : Bool :=
  match checkedAdd addr len, checkedAdd base size with
  | some stop, some limit => decide (addr ≥ base) && decide (stop ≤ limit)
  | _, _ => false

/-- A split-ring descriptor as it sits in memory. -/
structure Desc where
  addr : BitVec 64
  /-- Length, flags and next index. -/
  word : BitVec 64
  deriving DecidableEq, Repr

namespace Desc

section

variable (d : Desc)

def bufLen : Nat := (d.word &&& 0xffffffff#64).toNat

def flags : BitVec 16 := ((d.word >>> 32) &&& 0xffff#64).setWidth 16

def next : BitVec 16 := ((d.word >>> 48) &&& 0xffff#64).setWidth 16

def isIndirect : Bool := d.flags &&& flagIndirect != 0

def hasNext : Bool := d.flags &&& flagNext != 0

end

variable {d e : Desc}

theorem isIndirect_congr (h : d.word = e.word) : d.isIndirect = e.isIndirect := by
  rw [isIndirect, isIndirect, flags, flags, h]

theorem bufLen_congr (h : d.word = e.word) : d.bufLen = e.bufLen := by
  rw [bufLen, bufLen, h]

end Desc

def Apart (a n b k : Nat) : Prop := a + n ≤ b ∨ b + k ≤ a

instance (a n b k : Nat) : Decidable (Apart a n b k) := inferInstanceAs (Decidable (_ ∨ _))

/-- A queue: the region its driver was granted, the driver's rings, and the shadow the device
reads.  None of the four address ranges wraps, and those of the shadow meet no other. -/
structure Queue where
  (base size : BitVec 64)
  qsize : BitVec 16
  (driverDesc driverAvail shadowDesc shadowAvail : Nat)
  qsize_pos : 0 < qsize.toNat
  driver_fits : driverDesc + 16 * qsize.toNat ≤ 2 ^ 64 ∧ driverAvail + 4 + 2 * qsize.toNat ≤ 2 ^ 64
  shadow_fits : shadowDesc + 16 * qsize.toNat ≤ 2 ^ 64 ∧ shadowAvail + 4 + 2 * qsize.toNat ≤ 2 ^ 64
  shadow_apart : Apart shadowDesc (16 * qsize.toNat) shadowAvail (4 + 2 * qsize.toNat)
  desc_apart : Apart shadowDesc (16 * qsize.toNat) driverDesc (16 * qsize.toNat) ∧
    Apart shadowDesc (16 * qsize.toNat) driverAvail (4 + 2 * qsize.toNat)
  avail_apart : Apart shadowAvail (4 + 2 * qsize.toNat) driverDesc (16 * qsize.toNat) ∧
    Apart shadowAvail (4 + 2 * qsize.toNat) driverAvail (4 + 2 * qsize.toNat)

/-- Whether a descriptor may be shown to the device. -/
def checkDescriptor (q : Queue) (d : Desc) : Bool :=
  if d.isIndirect then false
  else if !isInRegion q.base.toNat q.size.toNat d.addr.toNat d.bufLen then false
  else if d.hasNext && decide (d.next.toNat ≥ q.qsize.toNat) then false
  else true

/-! ### The validator -/

/-- The driver's memory as successive reads find it: what the `t`th read of a call answers. -/
structure Bus where
  read16 : Nat → Nat → BitVec 16
  read64 : Nat → Nat → BitVec 64

/-- One write to memory. -/
inductive Write
  | write16 (addr : Nat) (v : BitVec 16)
  | write64 (addr : Nat) (v : BitVec 64)
  deriving DecidableEq, Repr

/-- Descriptor `d` of the driver's table, by two reads. -/
def readDesc (q : Queue) (bus : Bus) (d : BitVec 16) (t : Nat) : Desc :=
  let src := q.driverDesc + d.toNat * 16
  { addr := bus.read64 t src, word := bus.read64 (t + 1) (src + 8) }

/-- Validate and copy one chain, from descriptor `d` on, in at most that many turns; the `t`th
read is the next.  The answer, the number of reads so far, and the writes in order. -/
def shadowOneHead (q : Queue) (bus : Bus) : Nat → BitVec 16 → Nat → Bool × Nat × List Write
  | 0, _, t => (true, t, [])
  | turns + 1, d, t =>
      let desc := readDesc q bus d t
      if !checkDescriptor q desc then (false, t + 2, [])
      else
        let dst := q.shadowDesc + d.toNat * 16
        let copied := [Write.write64 dst desc.addr, Write.write64 (dst + 8) desc.word]
        if !desc.hasNext then (true, t + 2, copied)
        else
          let rest := shadowOneHead q bus turns desc.next (t + 2)
          (rest.1, rest.2.1, copied ++ rest.2.2)

def Queue.slot (q : Queue) (idx : BitVec 16) : Nat := idx.toNat % q.qsize.toNat

/-- The loop of `validateAndShadow` over the published indices from `idx` on, `left` of them. -/
def shadowHeads (q : Queue) (bus : Bus) : Nat → BitVec 16 → Nat → Bool × List Write
  | 0, _, _ => (true, [])
  | left + 1, idx, t =>
      let slot := q.slot idx
      let head := bus.read16 t (q.driverAvail + 4 + slot * 2)
      if head.toNat ≥ q.qsize.toNat then (false, [])
      else
        let walk := shadowOneHead q bus q.qsize.toNat head (t + 1)
        if !walk.1 then (false, walk.2.2)
        else
          let rest := shadowHeads q bus left (idx + 1) walk.2.1
          (rest.1, walk.2.2 ++ Write.write16 (q.shadowAvail + 4 + slot * 2) head :: rest.2)

/-- Validate what the driver published from `fromIdx` up to `toIdx` and copy it to the shadow. -/
def validateAndShadow (q : Queue) (bus : Bus) (fromIdx toIdx : BitVec 16) : Bool × List Write :=
  if (toIdx - fromIdx).toNat > q.qsize.toNat then (false, [])
  else
    -- `idx` counts up, wrapping, until it is `toIdx`
    let heads := shadowHeads q bus (toIdx - fromIdx).toNat fromIdx 0
    if !heads.1 then heads
    else (true, heads.2 ++ [Write.write16 (q.shadowAvail + 2) toIdx])

/-! ### The shadow in memory -/

/-- Memory after a write. -/
def Write.on : Write → Memory → Memory
  | .write16 addr v, m => store m addr 2 v.toNat
  | .write64 addr v, m => store m addr 8 v.toNat

section

variable (m : Memory)

/-- Memory after a list of writes. -/
def after (ws : List Write) : Memory := ws.foldl (fun m w => w.on m) m

def load16 (addr : Nat) : BitVec 16 := BitVec.ofNat 16 (load m addr 2)

def load64 (addr : Nat) : BitVec 64 := BitVec.ofNat 64 (load m addr 8)

def descAt (table d : Nat) : Desc :=
  { addr := load64 m (table + d * 16), word := load64 m (table + d * 16 + 8) }

end

variable {q : Queue} {m : Memory} {bus : Bus} {d d' : Nat} {desc : Desc} {ws : List Write}

/-- Entry `d` of the shadow table. -/
def Queue.entry (q : Queue) (m : Memory) (d : Nat) : Desc := descAt m q.shadowDesc d

theorem load64_on_self (a : Nat) (v : BitVec 64) : load64 ((Write.write64 a v).on m) a = v := by
  rw [load64, Write.on, load_store_self v.isLt, ofNat_toNat, setWidth_eq]

theorem load16_on_self (a : Nat) (v : BitVec 16) : load16 ((Write.write16 a v).on m) a = v := by
  rw [load16, Write.on, load_store_self v.isLt, ofNat_toNat, setWidth_eq]

variable {a b : Nat} {es : List Event}

theorem load64_on_write64 (v : BitVec 64) (h : b + 8 ≤ a ∨ a + 8 ≤ b) :
    load64 ((Write.write64 a v).on m) b = load64 m b := by
  rw [load64, load64, Write.on, load_store_of_disjoint h]

theorem load64_on_write16 (v : BitVec 16) (h : b + 8 ≤ a ∨ a + 2 ≤ b) :
    load64 ((Write.write16 a v).on m) b = load64 m b := by
  rw [load64, load64, Write.on, load_store_of_disjoint h]

theorem load16_on_write64 (v : BitVec 64) (h : b + 2 ≤ a ∨ a + 8 ≤ b) :
    load16 ((Write.write64 a v).on m) b = load16 m b := by
  rw [load16, load16, Write.on, load_store_of_disjoint h]

theorem load16_on_write16 (v : BitVec 16) (h : b + 2 ≤ a ∨ a + 2 ≤ b) :
    load16 ((Write.write16 a v).on m) b = load16 m b := by
  rw [load16, load16, Write.on, load_store_of_disjoint h]

theorem entry_on_addr (q : Queue) (m : Memory) (d d' : Nat) (v : BitVec 64) :
    q.entry ((Write.write64 (q.shadowDesc + d * 16) v).on m) d' =
      if d' = d then ⟨v, (q.entry m d).word⟩ else q.entry m d' := by
  unfold Queue.entry descAt
  split_ifs with h
  · rw [h, load64_on_self, load64_on_write64 v (by omega)]
  · rw [load64_on_write64 v (by omega), load64_on_write64 v (by omega)]

theorem entry_on_word (q : Queue) (m : Memory) (d d' : Nat) (v : BitVec 64) :
    q.entry ((Write.write64 (q.shadowDesc + d * 16 + 8) v).on m) d' =
      if d' = d then ⟨(q.entry m d).addr, v⟩ else q.entry m d' := by
  unfold Queue.entry descAt
  split_ifs with h
  · rw [h, load64_on_self, load64_on_write64 v (by omega)]
  · rw [load64_on_write64 v (by omega), load64_on_write64 v (by omega)]

theorem entry_on_avail (v : BitVec 16) (hd : d < q.qsize.toNat)
    (hlo : q.shadowAvail ≤ a) (hhi : a + 2 ≤ q.shadowAvail + 4 + 2 * q.qsize.toNat) :
    q.entry ((Write.write16 a v).on m) d = q.entry m d := by
  have hapart := q.shadow_apart
  unfold Apart at hapart
  unfold Queue.entry descAt
  rw [load64_on_write16 v (by omega), load64_on_write16 v (by omega)]

/-! ### Events -/

/-- What a call does to the shadow before it publishes, one thing after the other. -/
inductive Event
  | copy (d : Nat) (desc : Desc)
  | mirror (slot : Nat) (head : BitVec 16)
  deriving DecidableEq, Repr

/-- The writes of an event. -/
def Event.writes (q : Queue) : Event → List Write
  | .copy d desc =>
      [.write64 (q.shadowDesc + d * 16) desc.addr, .write64 (q.shadowDesc + d * 16 + 8) desc.word]
  | .mirror slot head => [.write16 (q.shadowAvail + 4 + slot * 2) head]

/-- An event of a call: only checked descriptors are copied, and only into the table. -/
def Event.Sound (q : Queue) : Event → Prop
  | .copy d desc => d < q.qsize.toNat ∧ checkDescriptor q desc = true
  | .mirror slot head => slot < q.qsize.toNat ∧ head.toNat < q.qsize.toNat

theorem checkDescriptor_iff : checkDescriptor q desc = true ↔ desc.isIndirect = false ∧
      isInRegion q.base.toNat q.size.toNat desc.addr.toNat desc.bufLen = true ∧
      (desc.hasNext = true → desc.next.toNat < q.qsize.toNat) := by
  unfold checkDescriptor
  cases desc.isIndirect <;>
    cases isInRegion q.base.toNat q.size.toNat desc.addr.toNat desc.bufLen <;>
    cases desc.hasNext <;> simp

theorem shadowOneHead_succ (q : Queue) (bus : Bus) (turns : Nat) (d : BitVec 16) (t : Nat) :
    let desc := readDesc q bus d t
    let copied := (Event.copy d.toNat desc).writes q
    let rest := shadowOneHead q bus turns desc.next (t + 2)
    (checkDescriptor q desc = false ∧ shadowOneHead q bus (turns + 1) d t = (false, t + 2, [])) ∨
    (checkDescriptor q desc = true ∧ desc.hasNext = false ∧
      shadowOneHead q bus (turns + 1) d t = (true, t + 2, copied)) ∨
    (checkDescriptor q desc = true ∧ desc.hasNext = true ∧
      shadowOneHead q bus (turns + 1) d t = (rest.1, rest.2.1, copied ++ rest.2.2)) := by
  intro desc copied rest
  cases hcheck : checkDescriptor q desc with
  | false =>
    refine .inl ⟨rfl, ?_⟩
    simp [shadowOneHead, show checkDescriptor q (readDesc q bus d t) = false from hcheck]
  | true =>
    cases hnext : desc.hasNext with
    | false =>
      refine .inr (.inl ⟨rfl, rfl, ?_⟩)
      simp [shadowOneHead, show checkDescriptor q (readDesc q bus d t) = true from hcheck,
        show (readDesc q bus d t).hasNext = false from hnext, copied, desc, Event.writes]
    | true =>
      refine .inr (.inr ⟨rfl, rfl, ?_⟩)
      simp [shadowOneHead, show checkDescriptor q (readDesc q bus d t) = true from hcheck,
        show (readDesc q bus d t).hasNext = true from hnext, rest, copied, desc, Event.writes]

theorem shadowOneHead_copies (turns : Nat) {d : BitVec 16} (t : Nat) (hd : d.toNat < q.qsize.toNat) :
    ∃ copies : List (Nat × Desc),
      (shadowOneHead q bus turns d t).2.2 = copies.flatMap (fun c => (Event.copy c.1 c.2).writes q) ∧
      (∀ c ∈ copies, (Event.copy c.1 c.2).Sound q) ∧
      (0 < turns → (shadowOneHead q bus turns d t).1 = true → d.toNat ∈ copies.map Prod.fst) := by
  -- a link that passed the check stays inside the table, which carries the induction
  induction turns generalizing d t with
  | zero => exact ⟨[], rfl, by simp, by simp⟩
  | succ turns ih =>
    obtain ⟨-, heq⟩ | ⟨hcheck, -, heq⟩ | ⟨hcheck, hnext, heq⟩ := shadowOneHead_succ q bus turns d t
    · exact ⟨[], by rw [heq]; rfl, by simp, by simp [heq]⟩
    · refine ⟨[(d.toNat, readDesc q bus d t)], by rw [heq]; simp, ?_, by simp⟩
      rintro c hc
      cases mem_singleton.mp hc
      exact ⟨hd, hcheck⟩
    · have hlt := (checkDescriptor_iff.mp hcheck).2.2 hnext
      obtain ⟨copies, hws, hsound, -⟩ := ih (t + 2) hlt
      refine ⟨(d.toNat, readDesc q bus d t) :: copies, ?_, ?_, by simp⟩
      · rw [heq, hws, flatMap_cons]
      · intro c hc
        rcases mem_cons.mp hc with rfl | hc
        · exact ⟨hd, hcheck⟩
        · exact hsound c hc

/-- Every head was copied before it is mirrored; the indices in `done` were copied before. -/
inductive Ordered : List Nat → List Event → Prop
  | nil (done : List Nat) : Ordered done []
  | copy {done : List Nat} {es : List Event} (d : Nat) (desc : Desc) :
      Ordered (d :: done) es → Ordered done (.copy d desc :: es)
  | mirror {done : List Nat} {es : List Event} (slot : Nat) (head : BitVec 16) :
      head.toNat ∈ done → Ordered done es → Ordered done (.mirror slot head :: es)

theorem Ordered.copies {done : List Nat} (copies : List (Nat × Desc))
    (h : Ordered ((copies.map Prod.fst).reverse ++ done) es) :
    Ordered done (copies.map (fun c => Event.copy c.1 c.2) ++ es) := by
  induction copies generalizing done with
  | nil => exact h
  | cons c copies ih =>
    refine Ordered.copy _ _ (ih ?_)
    simpa using h

/-- The writes of a loop or a call up to the publication, as events. -/
structure Recorded (q : Queue) (ws : List Write) (es : List Event) : Prop where
  writes : ws = es.flatMap (Event.writes q)
  sound : ∀ e ∈ es, e.Sound q
  ordered : ∀ done, Ordered done es

theorem Recorded.nil (q : Queue) : Recorded q [] [] :=
  ⟨rfl, nofun, Ordered.nil⟩

theorem Recorded.walk {copies : List (Nat × Desc)}
    (hws : ws = copies.flatMap (fun c => (Event.copy c.1 c.2).writes q))
    (hcopies : ∀ c ∈ copies, (Event.copy c.1 c.2).Sound q) :
    Recorded q ws (copies.map fun c => Event.copy c.1 c.2) := by
  refine ⟨?_, ?_, fun done => ?_⟩
  · rw [hws, flatMap_map]
  · intro e he
    obtain ⟨c, hc, rfl⟩ := mem_map.mp he
    exact hcopies c hc
  · simpa using Ordered.copies copies (Ordered.nil _)

theorem Recorded.mirror {copies : List (Nat × Desc)} {head : BitVec 16} {slot : Nat}
    {rest : List Write}
    (hwalk : Recorded q ws (copies.map fun c => Event.copy c.1 c.2))
    (hmirror : (Event.mirror slot head).Sound q) (hhead : head.toNat ∈ copies.map Prod.fst)
    (hrest : Recorded q rest es) :
    Recorded q (ws ++ Write.write16 (q.shadowAvail + 4 + slot * 2) head :: rest)
      (copies.map (fun c => Event.copy c.1 c.2) ++ Event.mirror slot head :: es) := by
  refine ⟨?_, ?_, fun done => ?_⟩
  · rw [flatMap_append, flatMap_cons, ← hwalk.writes, ← hrest.writes]
    rfl
  · intro e he
    rcases mem_append.mp he with he | he
    · exact hwalk.sound e he
    · rcases mem_cons.mp he with rfl | he
      · exact hmirror
      · exact hrest.sound e he
  · refine Ordered.copies copies (Ordered.mirror slot head ?_ (hrest.ordered _))
    simp only [mem_append, mem_reverse]
    exact .inl hhead

theorem shadowHeads_succ (q : Queue) (bus : Bus) (left : Nat) (idx : BitVec 16) (t : Nat) :
    let head := bus.read16 t (q.driverAvail + 4 + q.slot idx * 2)
    let walk := shadowOneHead q bus q.qsize.toNat head (t + 1)
    let rest := shadowHeads q bus left (idx + 1) walk.2.1
    (q.qsize.toNat ≤ head.toNat ∧ shadowHeads q bus (left + 1) idx t = (false, [])) ∨
    (head.toNat < q.qsize.toNat ∧ walk.1 = false ∧
      shadowHeads q bus (left + 1) idx t = (false, walk.2.2)) ∨
    (head.toNat < q.qsize.toNat ∧ walk.1 = true ∧ shadowHeads q bus (left + 1) idx t =
      (rest.1, walk.2.2 ++ Write.write16 (q.shadowAvail + 4 + q.slot idx * 2) head :: rest.2)) := by
  intro head walk rest
  by_cases hhead : q.qsize.toNat ≤ head.toNat
  · refine .inl ⟨hhead, ?_⟩
    exact if_pos hhead
  · have hturn : shadowHeads q bus (left + 1) idx t = if !walk.1 then (false, walk.2.2) else
        (rest.1, walk.2.2 ++ Write.write16 (q.shadowAvail + 4 + q.slot idx * 2) head :: rest.2) := by
      exact if_neg hhead
    rw [hturn]
    cases hwalk : walk.1 with
    | false => exact .inr (.inl ⟨not_le.mp hhead, rfl, rfl⟩)
    | true => exact .inr (.inr ⟨not_le.mp hhead, rfl, rfl⟩)

theorem shadowHeads_recorded (q : Queue) (bus : Bus) (left : Nat) (idx : BitVec 16) (t : Nat) :
    ∃ es, Recorded q (shadowHeads q bus left idx t).2 es := by
  induction left generalizing idx t with
  | zero => exact ⟨[], Recorded.nil q⟩
  | succ left ih =>
    obtain ⟨-, heq⟩ | ⟨hhead, -, heq⟩ | ⟨hhead, hwalk, heq⟩ := shadowHeads_succ q bus left idx t
    · rw [heq]
      exact ⟨[], Recorded.nil q⟩
    · rw [heq]
      obtain ⟨copies, hws, hsound, -⟩ := shadowOneHead_copies q.qsize.toNat (t + 1) hhead
      exact ⟨_, Recorded.walk hws hsound⟩
    · rw [heq]
      obtain ⟨copies, hws, hsound, hfirst⟩ := shadowOneHead_copies q.qsize.toNat (t + 1) hhead
      obtain ⟨es, hes⟩ := ih (idx + 1) _
      have hslot : q.slot idx < q.qsize.toNat := Nat.mod_lt _ q.qsize_pos
      exact ⟨_, (Recorded.walk hws hsound).mirror ⟨hslot, hhead⟩ (hfirst q.qsize_pos hwalk) hes⟩

/-- **A call is its events, and on success the publication after them.** -/
theorem validateAndShadow_recorded (q : Queue) (bus : Bus) (fromIdx toIdx : BitVec 16) :
    ∃ ws es, Recorded q ws es ∧ (validateAndShadow q bus fromIdx toIdx).2 = ws ++
      if (validateAndShadow q bus fromIdx toIdx).1 then
        [Write.write16 (q.shadowAvail + 2) toIdx] else [] := by
  unfold validateAndShadow
  split
  · exact ⟨[], [], Recorded.nil q, rfl⟩
  · obtain ⟨es, hes⟩ := shadowHeads_recorded q bus (toIdx - fromIdx).toNat fromIdx 0
    refine ⟨_, es, hes, ?_⟩
    generalize shadowHeads q bus (toIdx - fromIdx).toNat fromIdx 0 = heads
    obtain ⟨ok, ws⟩ := heads
    cases ok <;> simp

/-! ### The shadow at every instant -/

/-- Every entry of the shadow in use is not indirect and lies in the region. -/
def Confined (q : Queue) (m : Memory) : Prop :=
  ∀ d < q.qsize.toNat, (q.entry m d).addr ≠ 0 ∨ (q.entry m d).word ≠ 0 →
    (q.entry m d).isIndirect = false ∧
      q.base.toNat ≤ (q.entry m d).addr.toNat ∧
      (q.entry m d).addr.toNat + (q.entry m d).bufLen ≤ q.base.toNat + q.size.toNat

theorem isInRegion_iff {base size addr len : Nat} : isInRegion base size addr len = true ↔
    addr + len < 2 ^ 64 ∧ base + size < 2 ^ 64 ∧ base ≤ addr ∧ addr + len ≤ base + size := by
  unfold isInRegion checkedAdd
  by_cases hstop : addr + len < 2 ^ 64
  · rw [if_pos hstop]
    split_ifs with hlimit
    · simp only [Bool.and_eq_true, decide_eq_true_eq, ge_iff_le, hstop, hlimit, true_and]
    · simp only [hlimit, false_and, and_false]
  · rw [if_neg hstop]
    simp only [hstop, false_and, Bool.false_eq_true]

theorem Confined.avail (v : BitVec 16) (h : Confined q m) (hlo : q.shadowAvail ≤ a)
    (hhi : a + 2 ≤ q.shadowAvail + 4 + 2 * q.qsize.toNat) :
    Confined q ((Write.write16 a v).on m) := by
  intro d hd
  rw [entry_on_avail v hd hlo hhi]
  exact h d hd

theorem Confined.not_indirect (h : Confined q m) (hd : d < q.qsize.toNat) :
    (q.entry m d).isIndirect = false := by
  by_cases hword : (q.entry m d).word = 0
  · rw [Desc.isIndirect, Desc.flags, hword]
    rfl
  · exact (h d hd (.inr hword)).1

/-- After the address word of an entry, the new address stands with the length held before. -/
theorem Confined.addr {v : BitVec 64} (h : Confined q m) (hd : d < q.qsize.toNat)
    (hin : isInRegion q.base.toNat q.size.toNat v.toNat (q.entry m d).bufLen = true) :
    Confined q ((Write.write64 (q.shadowDesc + d * 16) v).on m) := by
  intro d' hd'
  rw [entry_on_addr]
  split_ifs with heq
  · intro _
    obtain ⟨-, -, hbase, hlimit⟩ := isInRegion_iff.mp hin
    have hword : (⟨v, (q.entry m d).word⟩ : Desc).word = (q.entry m d).word := rfl
    rw [Desc.isIndirect_congr hword, Desc.bufLen_congr hword]
    exact ⟨h.not_indirect hd, hbase, hlimit⟩
  · exact h d' hd'

/-- After the other word, the entry is the descriptor that was checked. -/
theorem Confined.word (h : Confined q m) (hcheck : checkDescriptor q desc = true)
    (haddr : (q.entry m d).addr = desc.addr) :
    Confined q ((Write.write64 (q.shadowDesc + d * 16 + 8) desc.word).on m) := by
  intro d' hd'
  rw [entry_on_word]
  split_ifs with heq
  · rw [haddr]
    intro _
    obtain ⟨hindirect, hin, -⟩ := checkDescriptor_iff.mp hcheck
    obtain ⟨-, -, hbase, hlimit⟩ := isInRegion_iff.mp hin
    exact ⟨hindirect, hbase, hlimit⟩
  · exact h d' hd'

/-- The writes of a run, a copied descriptor being two of them. -/
inductive Sent (q : Queue) : List Write → Prop
  | nil : Sent q []
  | copy {ws : List Write} {d : Nat} {desc : Desc} : d < q.qsize.toNat →
      checkDescriptor q desc = true → Sent q ws →
      Sent q (.write64 (q.shadowDesc + d * 16) desc.addr ::
        .write64 (q.shadowDesc + d * 16 + 8) desc.word :: ws)
  | avail {ws : List Write} {a : Nat} (v : BitVec 16) : q.shadowAvail ≤ a →
      a + 2 ≤ q.shadowAvail + 4 + 2 * q.qsize.toNat → Sent q ws → Sent q (.write16 a v :: ws)

theorem Sent.append {ws' : List Write} (h : Sent q ws) (h' : Sent q ws') : Sent q (ws ++ ws') := by
  induction h with
  | nil => exact h'
  | copy hd hcheck _ ih => exact Sent.copy hd hcheck ih
  | avail v hlo hhi _ ih => exact Sent.avail v hlo hhi ih

theorem sent_events (h : ∀ e ∈ es, e.Sound q) : Sent q (es.flatMap (Event.writes q)) := by
  induction es with
  | nil => exact Sent.nil
  | cons e es ih =>
    refine Sent.append ?_ (ih fun e' he' => h e' (mem_cons_of_mem e he'))
    have he := h e mem_cons_self
    cases e with
    | copy d desc => exact Sent.copy he.1 he.2 Sent.nil
    | mirror slot head =>
      have hslot := he.1
      exact Sent.avail head (by omega) (by omega) Sent.nil

theorem sent_validateAndShadow (q : Queue) (bus : Bus) (fromIdx toIdx : BitVec 16) :
    Sent q (validateAndShadow q bus fromIdx toIdx).2 := by
  obtain ⟨ws, es, hes, heq⟩ := validateAndShadow_recorded q bus fromIdx toIdx
  rw [heq, hes.writes]
  refine (sent_events hes.sound).append ?_
  split
  · exact Sent.avail toIdx (by omega) (by omega) Sent.nil
  · exact Sent.nil

/-- A call of the validator, with the driver's memory as its reads find it. -/
structure Call where
  bus : Bus
  (fromIdx toIdx : BitVec 16)

def runWrites (q : Queue) (calls : List Call) : List Write :=
  calls.flatMap fun c => (validateAndShadow q c.bus c.fromIdx c.toIdx).2

theorem sent_runWrites (q : Queue) (calls : List Call) : Sent q (runWrites q calls) := by
  induction calls with
  | nil => exact Sent.nil
  | cons c calls ih =>
    rw [runWrites]
    exact (sent_validateAndShadow q c.bus c.fromIdx c.toIdx).append ih

/-- The address the driver gave for a descriptor fits the length that the entry it is copied
over still holds. -/
def Write.Fits (q : Queue) (m : Memory) : Write → Prop
  | .write16 _ _ => True
  | .write64 a v => ∀ d < q.qsize.toNat, a = q.shadowDesc + d * 16 →
      isInRegion q.base.toNat q.size.toNat v.toNat (q.entry m d).bufLen = true

instance (q : Queue) (m : Memory) (w : Write) : Decidable (w.Fits q m) :=
  match w with
  | .write16 _ _ => isTrue trivial
  | .write64 _ _ => inferInstanceAs (Decidable (∀ _, _ → _))

/-- Every address of a run fits so, where it is written. -/
def Fits (q : Queue) : Memory → List Write → Prop
  | _, [] => True
  | m, w :: ws => w.Fits q m ∧ Fits q (w.on m) ws

instance decidableFits (q : Queue) : (m : Memory) → (ws : List Write) → Decidable (Fits q m ws)
  | _, [] => isTrue trivial
  | m, w :: ws => @instDecidableAnd _ _ inferInstance (decidableFits q (w.on m) ws)

theorem Sent.confined (hsent : Sent q ws) (h : Confined q m) (hfits : Fits q m ws)
    {pre : List Write} (hpre : pre <+: ws) : Confined q (after m pre) := by
  -- the instants of a copied descriptor are the one between its two writes and the one after
  induction hsent generalizing m pre with
  | nil =>
    rw [prefix_nil.mp hpre]
    exact h
  | @copy ws d desc hd hcheck _ ih =>
    obtain rfl | ⟨pre', rfl, hpre'⟩ := prefix_cons_iff.mp hpre
    · exact h
    have hmid : Confined q ((Write.write64 (q.shadowDesc + d * 16) desc.addr).on m) :=
      h.addr hd (hfits.1 d hd rfl)
    obtain rfl | ⟨pre'', rfl, hpre''⟩ := prefix_cons_iff.mp hpre'
    · exact hmid
    refine ih (hmid.word hcheck ?_) hfits.2.2 hpre''
    rw [entry_on_addr, if_pos rfl]
  | avail v hlo hhi _ ih =>
    obtain rfl | ⟨pre', rfl, hpre'⟩ := prefix_cons_iff.mp hpre
    · exact h
    exact ih (h.avail v hlo hhi) hfits.2 hpre'

/-- A copy between whose two writes the shadow is confined met the condition. -/
theorem isInRegion_of_confined (hd : d < q.qsize.toNat) (hcheck : checkDescriptor q desc = true)
    (hmid : Confined q ((Write.write64 (q.shadowDesc + d * 16) desc.addr).on m)) :
    isInRegion q.base.toNat q.size.toNat desc.addr.toNat (q.entry m d).bufLen = true := by
  have hentry := hmid d hd
  have hkept : (⟨desc.addr, (q.entry m d).word⟩ : Desc).word = (q.entry m d).word := rfl
  rw [entry_on_addr, if_pos rfl, Desc.bufLen_congr hkept] at hentry
  obtain ⟨-, hin, -⟩ := checkDescriptor_iff.mp hcheck
  obtain ⟨-, hregion, hbase, hlimit⟩ := isInRegion_iff.mp hin
  have hlen : q.base.toNat ≤ desc.addr.toNat ∧
      desc.addr.toNat + (q.entry m d).bufLen ≤ q.base.toNat + q.size.toNat := by
    by_cases hword : (q.entry m d).word = 0
    · -- an entry that holds no length yet
      have hzero : (q.entry m d).bufLen = 0 := by
        simp [Desc.bufLen, hword]
      rw [hzero]
      exact ⟨hbase, le_trans (Nat.le_add_right _ _) hlimit⟩
    · exact (hentry (.inr hword)).2
  exact isInRegion_iff.mpr ⟨lt_of_le_of_lt hlen.2 hregion, hregion, hlen⟩

/-- **The condition is needed**: a run that is confined after every write met it. -/
theorem Sent.fits (hsent : Sent q ws)
    (h : ∀ pre, pre <+: ws → Confined q (after m pre)) : Fits q m ws := by
  induction hsent generalizing m with
  | nil => trivial
  | @copy ws d desc hd hcheck _ ih =>
    have hmid : Confined q ((Write.write64 (q.shadowDesc + d * 16) desc.addr).on m) :=
      h [.write64 (q.shadowDesc + d * 16) desc.addr] (cons_prefix_cons.mpr ⟨rfl, nil_prefix⟩)
    refine ⟨fun d' _ ha => ?_, fun d' _ ha => ?_, ih fun pre hpre => ?_⟩
    · obtain rfl : d = d' := by omega
      exact isInRegion_of_confined hd hcheck hmid
    · omega
    · have hafter := h _ (cons_prefix_cons.mpr ⟨rfl, cons_prefix_cons.mpr ⟨rfl, hpre⟩⟩)
      simp only [after, foldl_cons] at hafter ⊢
      exact hafter
  | avail v hlo hhi _ ih =>
    refine ⟨trivial, ih fun pre hpre => ?_⟩
    have hafter := h _ (cons_prefix_cons.mpr ⟨rfl, hpre⟩)
    simp only [after, foldl_cons] at hafter ⊢
    exact hafter

/-- **The device never sees an unchecked descriptor, even mid-copy**, exactly in the runs where each
address fits the length that its entry holds when it is copied: that of the last copy to the same
index, or none. -/
theorem shadow_confined (q : Queue) (calls : List Call) (m : Memory)
    (hzero : ∀ d < q.qsize.toNat, q.entry m d = ⟨0, 0⟩) :
    (∀ pre, pre <+: runWrites q calls → Confined q (after m pre)) ↔
      Fits q m (runWrites q calls) := by
  refine ⟨(sent_runWrites q calls).fits, fun hfits pre hpre => ?_⟩
  refine (sent_runWrites q calls).confined ?_ hfits hpre
  intro d hd hused
  rw [hzero d hd] at hused
  simp at hused

/-- Two entries, the region one page at `0x1000`, the driver's rings at its start. -/
def twoEntries : Queue where
  base := 0x1000
  size := 0x1000
  qsize := 2
  driverDesc := 0x1000
  driverAvail := 0x1100
  shadowDesc := 0x8000
  shadowAvail := 0x8100
  qsize_pos := by decide
  driver_fits := by decide
  shadow_fits := by decide
  shadow_apart := by decide
  desc_apart := by decide
  avail_apart := by decide

/-- A driver that publishes descriptor 0 with one buffer. -/
def Bus.offering (addr word : BitVec 64) : Bus where
  read16 _ _ := 0
  read64 _ a := if a = twoEntries.driverDesc then addr else word

/-- Descriptor 0 published twice, with two buffers of one length: the address and the length of
either fit the other. -/
theorem shadow_confined_halves : Fits twoEntries (fun _ => 0) (runWrites twoEntries
      [⟨.offering 0x1000 0x800, 0, 1⟩, ⟨.offering 0x1800 0x800, 1, 2⟩]) ∧
    ∀ pre, pre <+: runWrites twoEntries
      [⟨.offering 0x1000 0x800, 0, 1⟩, ⟨.offering 0x1800 0x800, 1, 2⟩] →
    Confined twoEntries (after (fun _ => 0) pre) :=
  ⟨by decide +kernel, (shadow_confined twoEntries _ _ (by decide +kernel)).mpr (by decide +kernel)⟩

/-- The whole region published as descriptor 0, then its last eight bytes: between the two writes
of the second copy the shadow holds the new address with the old length. -/
theorem republished_overruns :
    (∀ d < twoEntries.qsize.toNat, twoEntries.entry (fun _ => 0) d = ⟨0, 0⟩) ∧
    ∃ pre, pre <+: runWrites twoEntries
        [⟨.offering 0x1000 0x1000, 0, 1⟩, ⟨.offering 0x1ff8 8, 1, 2⟩] ∧
      twoEntries.entry (after (fun _ => 0) pre) 0 = ⟨0x1ff8, 0x1000⟩ ∧
      ¬Confined twoEntries (after (fun _ => 0) pre) := by
  have hmid : twoEntries.entry (after (fun _ => 0)
      [.write64 0x8000 0x1000, .write64 0x8008 0x1000, .write16 0x8104 0, .write16 0x8102 1,
        .write64 0x8000 0x1ff8]) 0 = ⟨0x1ff8, 0x1000⟩ := by
    decide +kernel
  refine ⟨by decide +kernel, _, ?_, hmid, ?_⟩
  · exact ⟨[.write64 0x8008 8, .write16 0x8106 0, .write16 0x8102 2], by decide +kernel⟩
  · intro hconfined
    have hlimit := hconfined 0 (by decide)
    exact absurd (hlimit (by decide)).2.2 (by decide)

end Nife.Validator
