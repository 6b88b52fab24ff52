/-
The file server's block cache (`BlockCache`, `CachedDisk`): direct-mapped and write-through,
over any `Disk`.  A single-block read of a block outside the header ring is answered from its
slot or remembered there; a write that succeeded refreshes the slots of its whole blocks and
invalidates that of a short last one.

The cache is *coherent* when every block it answers for is what the inner disk holds
(`CachedDisk.Coherent`).  Each operation is one change of the inner content and one of the
cache, taken block by block (`Coherent.refreshBlock`), and keeps coherence, with one exception:
a write that fails returns before the cache is touched.  If it had stored a prefix over a
cached block, the slot keeps the old bytes and answers with them
(`cached_read_stale_after_failed_write`).  Runs in which no failing write does that are
transparent (`cachedDisk_transparent`).
-/
import Nife.Disk
import Nife.Lib.Transition

namespace Nife

open Medium Transition List

/-- `u64::MAX`, the number `invalidate` writes into a slot. -/
def u64Max : Nat := 0xffffffffffffffff

/-- `redoxfs::HEADER_RING`. -/
def headerRing : Nat := 256

/-- Whether a block is one `CachedDisk` keeps: everything but the header ring. -/
def cacheable (block : Nat) : Bool := headerRing ≤ block

/-- `BlockCache`, at least one slot; a slot holds a block number and the block's bytes. -/
structure BlockCache where
  slots : List (Option (Nat × Block))
  pos : 0 < slots.length

namespace BlockCache

variable {c : BlockCache} {b b' : Nat} {data data' : Block}

def new (capacity : Nat) (h : 0 < capacity) : BlockCache :=
  ⟨List.replicate capacity none, by rwa [length_replicate]⟩

section

variable (c : BlockCache)

def slot (block : Nat) : Nat := block % c.slots.length

theorem slot_lt (c : BlockCache) (b : Nat) : c.slot b < c.slots.length := Nat.mod_lt _ c.pos

def answer (block : Nat) : Option (Nat × Block) → Option Block
  | some entry => if entry.1 = block then some entry.2 else none
  | none => none

def get (block : Nat) : Option Block :=
  answer block (c.slots[c.slot block]?).join

def setSlot (i : Nat) (entry : Nat × Block) : BlockCache :=
  ⟨c.slots.set i (some entry), by rw [length_set]; exact c.pos⟩

def insert (block : Nat) (data : Block) : BlockCache :=
  c.setSlot (c.slot block) (block, data)

/-- A dropped entry keeps its bytes under a number that is no block's. -/
def invalidate (block : Nat) : BlockCache :=
  match (c.slots[c.slot block]?).join with
  | some entry => if entry.1 = block then c.setSlot (c.slot block) (u64Max, entry.2) else c
  | none => c

end

@[simp] theorem get_new (capacity : Nat) (h : 0 < capacity) (b : Nat) :
    (new capacity h).get b = none := by
  have hslot : (List.replicate capacity (none : Option (Nat × Block)))[b % capacity]? = some none :=
    getElem?_replicate_of_lt (Nat.mod_lt _ h)
  show answer b ((List.replicate capacity none)[b % (List.replicate capacity _).length]?).join = _
  rw [length_replicate, hslot]
  rfl

theorem get_setSlot (c : BlockCache) (b b' : Nat) (entry : Nat × Block) :
    (c.setSlot (c.slot b) entry).get b'
      = if c.slot b' = c.slot b then answer b' (some entry) else c.get b' := by
  have hslot : (c.setSlot (c.slot b) entry).slot b' = c.slot b' :=
    congrArg (b' % ·) length_set
  unfold get
  rw [hslot]
  show answer b' (((c.slots.set (c.slot b) (some entry))[c.slot b']?).join) = _
  split_ifs with h
  · rw [h, getElem?_set_self (c.slot_lt b)]
    rfl
  · rw [getElem?_set_ne (Ne.symm h)]

/-- After an insert, `b` is answered with the new bytes, and what else is answered was before. -/
theorem get_insert (h : (c.insert b data).get b' = some data') :
    b' = b ∧ data' = data ∨ b' ≠ b ∧ c.get b' = some data' := by
  rw [insert, get_setSlot] at h
  by_cases hb : b' = b
  · subst hb
    rw [if_pos rfl, answer, if_pos rfl] at h
    exact .inl ⟨rfl, (Option.some.inj h).symm⟩
  · right
    split at h
    · rw [answer, if_neg (Ne.symm hb)] at h
      cases h
    · exact ⟨hb, h⟩

theorem get_insert_self (c : BlockCache) (b : Nat) (data : Block) :
    (c.insert b data).get b = some data := by
  rw [insert, get_setSlot, if_pos rfl, answer, if_pos rfl]

theorem get_invalidate (hb' : b' < u64Max) (h : (c.invalidate b).get b' = some data') :
    b' ≠ b ∧ c.get b' = some data' := by
  unfold invalidate at h
  split at h
  · next entry hentry =>
    split at h
    · next hnum =>
      -- the slot was `b`'s own: it answers for no block now
      rw [get_setSlot] at h
      split at h
      · rw [answer, if_neg (by show ¬ u64Max = b'; omega)] at h
        cases h
      · next hslot => exact ⟨fun hbb => hslot (congrArg c.slot hbb), h⟩
    · next hnum =>
      refine ⟨fun hbb => ?_, h⟩
      rw [hbb, get, hentry, answer, if_neg hnum] at h
      cases h
  · next hentry =>
    refine ⟨fun hbb => ?_, h⟩
    rw [hbb, get, hentry] at h
    cases h

end BlockCache

/-- A disk behind a cache. -/
structure CachedDisk (σ : Type*) where
  inner : σ
  cache : BlockCache

namespace CachedDisk

variable {σ : Type*} (D : Disk σ) {s s' : CachedDisk σ} {b n : Nat} {buffer landed : List UInt8}

def new (inner : σ) (capacity : Nat) (h : 0 < capacity) : CachedDisk σ :=
  ⟨inner, .new capacity h⟩

/-- `read_at` through the cache. -/
def readAt (s : CachedDisk σ) (block : Nat) (buffer : List UInt8) : ReadOutcome (CachedDisk σ) :=
  if h : buffer.length = blockSize ∧ cacheable block = true then
    match s.cache.get block with
    | some cached => ⟨s, cached.val, .ok blockSize⟩
    | none =>
      let r := D.readAt s.inner block buffer
      match r.result with
      | .error e => ⟨⟨r.disk, s.cache⟩, r.buffer, .error e⟩
      | .ok n =>
        -- a short count is passed on, and nothing is remembered
        let cache :=
          if n = blockSize then
            s.cache.insert block ⟨r.buffer, (D.length_readAt s.inner block buffer).trans h.1⟩
          else s.cache
        ⟨⟨r.disk, cache⟩, r.buffer, .ok n⟩
  else
    let r := D.readAt s.inner block buffer
    ⟨⟨r.disk, s.cache⟩, r.buffer, r.result⟩

/-- One round of the loop of `write_at`: the chunk that landed in block `b`. -/
def refreshBlock (cache : BlockCache) (b : Nat) (chunk : List UInt8) : BlockCache :=
  if cacheable b = false then cache
  else if h : chunk.length = blockSize then cache.insert b ⟨chunk, h⟩
  else cache.invalidate b

/-- The loop of `write_at`, over the bytes the inner disk confirmed. -/
def refresh (cache : BlockCache) (b : Nat) (landed : List UInt8) : BlockCache :=
  if _ : landed = [] then cache
  else refresh (refreshBlock cache b (landed.take blockSize)) (b + 1) (landed.drop blockSize)
termination_by landed.length
decreasing_by exact length_drop_blockSize ‹_›

/-- `write_at` through the cache. -/
def writeAt (s : CachedDisk σ) (block : Nat) (buffer : List UInt8) : WriteOutcome (CachedDisk σ) :=
  let r := D.writeAt s.inner block buffer
  match r.result with
  -- the question mark returns here, before the cache is touched
  | .error e => ⟨⟨r.disk, s.cache⟩, .error e⟩
  | .ok n => ⟨⟨r.disk, refresh s.cache block (buffer.take n)⟩, .ok n⟩

/-! ### Coherence -/

/-- Every block the cache answers for is cacheable and is what `bytes` holds there. -/
def Coheres (cache : BlockCache) (bytes : Nat → UInt8) : Prop :=
  ∀ b data, b < u64Max → cache.get b = some data →
    cacheable b = true ∧ data.val = window bytes (b * blockSize) blockSize

def Coherent (s : CachedDisk σ) : Prop := Coheres s.cache (D.bytes s.inner)

variable {cache : BlockCache} {bytes : Nat → UInt8} {chunk : List UInt8}

theorem window_overlay_block {b' : Nat} (hne : b' ≠ b) (hlen : chunk.length ≤ blockSize) :
    window (overlay bytes (b * blockSize) chunk) (b' * blockSize) blockSize
      = window bytes (b' * blockSize) blockSize := by
  refine window_overlay_of_disjoint ?_
  unfold blockSize at *
  omega

section

variable (h : Coheres cache bytes)
include h

/-- **One chunk written and its slot refreshed.** -/
theorem Coheres.refreshBlock (hlen : chunk.length ≤ blockSize) :
    Coheres (refreshBlock cache b chunk) (overlay bytes (b * blockSize) chunk) := by
  intro b' data hb' hget
  unfold CachedDisk.refreshBlock at hget
  split at hget
  · -- a header block: not in the cache, so another block is asked for
    next hring =>
      obtain ⟨hc, hdata⟩ := h b' data hb' hget
      have hne : b' ≠ b := by
        rintro rfl
        rw [hc] at hring
        cases hring
      exact ⟨hc, hdata.trans (window_overlay_block hne hlen).symm⟩
  · next hcache =>
    split at hget
    · next hfull =>
      rcases BlockCache.get_insert hget with ⟨rfl, rfl⟩ | ⟨hne, hold⟩
      · refine ⟨by simpa using hcache, ?_⟩
        show chunk = _
        rw [← hfull]
        exact (window_overlay_self ..).symm
      · obtain ⟨hc, hdata⟩ := h b' data hb' hold
        exact ⟨hc, hdata.trans (window_overlay_block hne hlen).symm⟩
    · obtain ⟨hne, hold⟩ := BlockCache.get_invalidate hb' hget
      obtain ⟨hc, hdata⟩ := h b' data hb' hold
      exact ⟨hc, hdata.trans (window_overlay_block hne hlen).symm⟩

/-- **A whole write and its refresh**, by induction over the chunks. -/
theorem Coheres.refresh (b : Nat) (landed : List UInt8) :
    Coheres (refresh cache b landed) (overlay bytes (b * blockSize) landed) := by
  fun_induction CachedDisk.refresh cache b landed generalizing bytes with
  | case1 cache b =>
    rw [overlay_nil]
    exact h
  | case2 cache b landed hne ih =>
    have hrest := ih (h.refreshBlock (length_take_le blockSize landed))
    rwa [Nat.add_mul, Nat.one_mul, overlay_drop] at hrest

theorem Coheres.insert (hc : cacheable b = true) {data : Block}
    (hdata : data.val = window bytes (b * blockSize) blockSize) :
    Coheres (cache.insert b data) bytes := by
  intro b' data' hb' hget
  rcases BlockCache.get_insert hget with ⟨rfl, rfl⟩ | ⟨-, hold⟩
  · exact ⟨hc, hdata⟩
  · exact h b' data' hb' hold

end

variable {D} {capacity : Nat} {block : Nat} {buffer : List UInt8}

theorem coherent_new (inner : σ) (hcap : 0 < capacity) : (new inner capacity hcap).Coherent D := by
  intro b data _ hget
  exact absurd (hget.symm.trans (BlockCache.get_new capacity hcap b)) nofun

theorem bytes_readAt (s : CachedDisk σ) (block : Nat) (buffer : List UInt8) :
    D.bytes (s.readAt D block buffer).disk.inner = D.bytes s.inner := by
  unfold readAt
  split
  · split
    · rfl
    · dsimp only
      split <;> exact D.bytes_readAt ..
  · exact D.bytes_readAt ..

theorem Coherent.readAt (h : s.Coherent D) (block : Nat) (buffer : List UInt8) :
    (s.readAt D block buffer).disk.Coherent D := by
  unfold Coherent
  rw [bytes_readAt]
  unfold CachedDisk.readAt
  split
  · next hone =>
    split
    · exact h
    · dsimp only
      split
      · exact h
      · next n hn =>
        split
        · next hfull =>
          subst hfull
          obtain ⟨-, hread⟩ := D.readAt_ok _ _ _ _ hn
          refine Coheres.insert h hone.2 ?_
          rw [← hread, take_of_length_le]
          exact Nat.le_of_eq ((D.length_readAt ..).trans hone.1)
        · exact h
  · exact h

theorem readAt_miss (hlen : buffer.length = blockSize)
    (hc : cacheable block = true) (hmiss : s.cache.get block = none)
    (hok : (D.readAt s.inner block buffer).result = .ok blockSize) :
    (s.readAt D block buffer).disk = ⟨(D.readAt s.inner block buffer).disk,
      s.cache.insert block ⟨_, (D.length_readAt s.inner block buffer).trans hlen⟩⟩ := by
  unfold readAt
  rw [dif_pos ⟨hlen, hc⟩]
  split
  · next cached hget => exact absurd (hmiss.symm.trans hget) nofun
  · dsimp only
    split
    · next e he => exact absurd (hok.symm.trans he) nofun
    · next n hn =>
      cases hok.symm.trans hn
      rw [if_pos rfl]

section

variable (h : s.Coherent D)
include h

/-- **A read that returns `Ok` delivers what the inner disk holds.** -/
theorem Coherent.delivers (hblock : block < u64Max)
    (hok : (s.readAt D block buffer).result = .ok n) :
    n ≤ buffer.length ∧ (s.readAt D block buffer).buffer.take n
        = window (D.bytes s.inner) (block * blockSize) n := by
  unfold CachedDisk.readAt at hok ⊢
  split at hok
  · next hone =>
    rw [dif_pos hone]
    rcases hget : s.cache.get block with - | cached
    · rw [hget] at hok
      dsimp only at hok ⊢
      rcases hr : (D.readAt s.inner block buffer).result with e | k
      · rw [hr] at hok
        cases hok
      · rw [hr] at hok
        cases hok
        exact D.readAt_ok _ _ _ _ hr
    · rw [hget] at hok
      cases hok
      obtain ⟨-, hdata⟩ := h block cached hblock hget
      refine ⟨Nat.le_of_eq hone.1.symm, ?_⟩
      rw [← hdata]
      exact take_of_length_le (Nat.le_of_eq cached.property)
  · next hone =>
    rw [dif_neg hone]
    exact D.readAt_ok _ _ _ _ hok

/-! ### Writes that fail -/

/-- A write that fails has left the inner disk as it was, or was for blocks none of which the
cache answers for. -/
def FailsSafely (D : Disk σ) (s : CachedDisk σ) (block : Nat) (buffer : List UInt8) : Prop :=
  ∀ e, (D.writeAt s.inner block buffer).result = .error e →
    D.bytes (D.writeAt s.inner block buffer).disk = D.bytes s.inner ∨
    ∀ b, block ≤ b → b * blockSize < block * blockSize + buffer.length → s.cache.get b = none

theorem Coherent.writeAt
    (hsafe : s.FailsSafely D block buffer) : (s.writeAt D block buffer).disk.Coherent D := by
  unfold CachedDisk.writeAt
  dsimp only
  split
  · next e he =>
    show Coheres s.cache (D.bytes (D.writeAt s.inner block buffer).disk)
    rcases hsafe e he with hsame | hout
    · rw [hsame]
      exact h
    · -- the prefix lies in blocks the cache does not answer for
      obtain ⟨k, hk⟩ := D.writeAt_error _ _ _ _ he
      intro b data hb hget
      obtain ⟨hc, hdata⟩ := h b data hb hget
      refine ⟨hc, hdata.trans ?_⟩
      rw [hk]
      refine (window_overlay_of_disjoint ?_).symm
      have hmiss : ¬ (block ≤ b ∧ b * blockSize < block * blockSize + buffer.length) := by
        rintro ⟨hle, hlt⟩
        rw [hout b hle hlt] at hget
        cases hget
      have htake : (buffer.take k).length ≤ buffer.length := length_take_le' k buffer
      unfold blockSize at *
      omega
  · next n hn =>
    obtain ⟨-, hwrite⟩ := D.writeAt_ok _ _ _ _ hn
    show Coheres (CachedDisk.refresh s.cache block (buffer.take n)) (D.bytes _)
    rw [hwrite]
    exact Coheres.refresh h block (buffer.take n)

/-! ### Runs -/

/-- A call of the file system. -/
inductive DiskCall
  | readAt (block : Nat) (buffer : List UInt8)
  | writeAt (block : Nat) (buffer : List UInt8)

/-- One call through the cache, for block numbers that leave room for the length below
`u64::MAX`. -/
def step (D : Disk σ) (s : CachedDisk σ) : DiskCall → Option (CachedDisk σ)
  | .readAt block buffer =>
    if block + buffer.length < u64Max then some (s.readAt D block buffer).disk else none
  | .writeAt block buffer =>
    if block + buffer.length < u64Max then some (s.writeAt D block buffer).disk else none

def CallOk (D : Disk σ) (s : CachedDisk σ) : DiskCall → Prop
  | .readAt _ _ => True
  | .writeAt block buffer => s.FailsSafely D block buffer

theorem Coherent.step {call : DiskCall} (hok : CallOk D s call)
    (hs : step D s call = some s') : s'.Coherent D := by
  cases call with
  | readAt block buffer =>
    obtain ⟨-, hs⟩ := Option.ite_none_right_eq_some.mp hs
    cases hs
    exact h.readAt block buffer
  | writeAt block buffer =>
    obtain ⟨-, hs⟩ := Option.ite_none_right_eq_some.mp hs
    cases hs
    exact h.writeAt hok

/-- Each slot that answers holds the inner disk's block, and each read that returns `Ok` delivers
the inner disk's bytes and changes none. -/
def Transparent (D : Disk σ) (s : CachedDisk σ) : Prop :=
  (∀ b data, b < u64Max → s.cache.get b = some data →
    data.val = window (D.bytes s.inner) (b * blockSize) blockSize) ∧
  ∀ block buffer n, block + buffer.length < u64Max →
    (s.readAt D block buffer).result = .ok n →
    n ≤ buffer.length ∧
      (s.readAt D block buffer).buffer.take n = window (D.bytes s.inner) (block * blockSize) n ∧
      D.bytes (s.readAt D block buffer).disk.inner = D.bytes s.inner

theorem Coherent.transparent : s.Transparent D := by
  refine ⟨fun b data hb hget => (h b data hb hget).2, fun block buffer n hroom hok => ?_⟩
  obtain ⟨hle, hbytes⟩ := h.delivers (by omega) hok
  exact ⟨hle, hbytes, bytes_readAt s block buffer⟩

end

/-- **The block cache is transparent**, over every inner disk and every capacity, in every run
whose failing writes leave the cached blocks alone. -/
theorem cachedDisk_transparent (D : Disk σ) (inner : σ) {capacity : Nat} (hcap : 0 < capacity)
    (h : Reach (step D) (CallOk D) (new inner capacity hcap) s) : s.Transparent D :=
  (h.invariant (Coherent D) (coherent_new inner hcap)
    fun _ _ _ hi hc hs => hi.step hc hs).transparent

/-! ### A disk with one bad block -/

/-- An image in memory that cannot write block `bad`. -/
structure MemoryImage where
  bytes : Nat → UInt8
  bad : Nat

def MemoryImage.held (s : MemoryImage) (b : Nat) : Block :=
  ⟨window s.bytes (b * blockSize) blockSize, length_window ..⟩

theorem MemoryImage.val_held (s : MemoryImage) (b : Nat) :
    (s.held b).val = window s.bytes (b * blockSize) blockSize := by
  rw [held]

def memoryIo : BlockIo MemoryImage where
  bytes := MemoryImage.bytes
  readBlock s b := (s, .ok (s.held b))
  writeBlock s b buf :=
    if b = s.bad then (s, .error eio)
    else ({ s with bytes := overlay s.bytes (b * blockSize) buf.val }, .ok ())
  bytes_readBlock _ _ := rfl
  readBlock_ok s b buf h := by
    rw [← Except.ok.inj h]
    exact s.val_held b
  writeBlock_ok s b buf h := by
    split at h
    · cases h
    · next hb => rw [if_neg hb]
  writeBlock_error s b buf e h := by
    split at h
    · next hb => exact ⟨0, by rw [if_pos hb, take_zero, overlay_nil]⟩
    · cases h

theorem memoryIo_read (s : MemoryImage) (b : Nat) (buffer : List UInt8) :
    (blockDiskRead memoryIo s b buffer).1 = s ∧
      (blockDiskRead memoryIo s b buffer).2.2 = .ok () := by
  fun_induction blockDiskRead memoryIo s b buffer with
  | case1 => exact ⟨rfl, rfl⟩
  | case2 s b buffer h s' e hr =>
    have hsnd := congrArg Prod.snd hr
    cases hsnd
  | case3 s b buffer h s' scratch hr chunk rest ih =>
    obtain ⟨rfl, -⟩ := Prod.mk.inj hr
    exact ih

/-- Two blocks written, the second of them bad: the first one has been stored. -/
theorem memoryIo_write_bad (m : Nat → UInt8) (b : Nat) (scratch : Block)
    (hlen : buffer.length = 2 * blockSize) :
    blockDiskWrite memoryIo ⟨m, b + 1⟩ b buffer scratch
      = (⟨overlay m (b * blockSize) (buffer.take blockSize), b + 1⟩, .error eio) := by
  have hpos : 0 < blockSize := by decide
  have hfirst : (buffer.take blockSize).length = blockSize := by
    rw [length_take]
    omega
  have hsecond : ((buffer.drop blockSize).take blockSize).length = blockSize := by
    rw [length_take, length_drop]
    omega
  have hne : buffer ≠ [] := ne_nil_of_length_pos (by omega)
  have hne' : buffer.drop blockSize ≠ [] :=
    ne_nil_of_length_pos (by rw [length_drop]; omega)
  have hwhole (s : MemoryImage) (b : Nat) {chunk : List UInt8} (h : chunk.length = blockSize)
      (scratch : Block) : blockDiskScratch memoryIo s b chunk scratch = (s, .ok scratch) :=
    if_neg (by omega)
  have hgood (m : Nat → UInt8) (buf : Block) : memoryIo.writeBlock ⟨m, b + 1⟩ b buf
      = (⟨overlay m (b * blockSize) buf.val, b + 1⟩, .ok ()) := if_neg (Nat.ne_of_lt b.lt_succ_self)
  have hbad (m : Nat → UInt8) (buf : Block) : memoryIo.writeBlock ⟨m, b + 1⟩ (b + 1) buf
      = (⟨m, b + 1⟩, .error eio) := if_pos rfl
  rw [blockDiskWrite, dif_neg hne]
  dsimp only
  rw [hwhole _ _ hfirst]
  dsimp only
  rw [hgood, overlay_withFront_all _ (by omega)]
  dsimp only
  rw [blockDiskWrite, dif_neg hne']
  dsimp only
  rw [hwhole _ _ hsecond]
  dsimp only
  rw [hbad]

/-- An image of zeros. -/
def zeros (bad : Nat) : MemoryImage := ⟨fun _ => 0, bad⟩

/-- The cache of one slot that holds `data` for block 300. -/
def remembering (data : Block) : BlockCache := (BlockCache.new 1 Nat.one_pos).insert 300 data

/-- Block 300 of an image of zeros read through a cache of one slot. -/
theorem step_readAt_zeros (bad : Nat) (hlen : buffer.length = blockSize) :
    ∃ data : Block, data.val = window (zeros bad).bytes (300 * blockSize) blockSize ∧
      step (BlockDisk memoryIo) (new (zeros bad) 1 Nat.one_pos) (.readAt 300 buffer)
        = some ⟨zeros bad, remembering data⟩ := by
  obtain ⟨hs, hok⟩ := memoryIo_read (zeros bad) 300 buffer
  have hbytes := blockDiskRead_ok memoryIo (zeros bad) 300 buffer hok
  rw [hlen] at hbytes
  have hresult : ((BlockDisk memoryIo).readAt (zeros bad) 300 buffer).result = .ok blockSize := by
    show wholeCount (blockDiskRead memoryIo (zeros bad) 300 buffer).2.2 buffer = _
    rw [hok, wholeCount, hlen]
  have hread := readAt_miss (s := new (zeros bad) 1 Nat.one_pos) hlen rfl
    (BlockCache.get_new 1 Nat.one_pos 300) hresult
  refine ⟨⟨_, ((BlockDisk memoryIo).length_readAt (zeros bad) 300 buffer).trans hlen⟩, hbytes, ?_⟩
  have hroom : 300 + buffer.length < u64Max := by
    rw [hlen]
    decide
  refine (if_pos hroom).trans ?_
  rw [hread]
  exact congrArg (fun d => some (CachedDisk.mk d _)) hs

/-- Two blocks written at `b`, the second of them bad, through a cache. -/
theorem step_writeAt_zeros (b : Nat) (cache : BlockCache)
    (hlen : buffer.length = 2 * blockSize) (hroom : b + 2 * blockSize < u64Max) :
    step (BlockDisk memoryIo) ⟨zeros (b + 1), cache⟩ (.writeAt b buffer)
      = some ⟨⟨overlay (zeros (b + 1)).bytes (b * blockSize) (buffer.take blockSize), b + 1⟩,
        cache⟩ := by
  have hwrite : (BlockDisk memoryIo).writeAt (zeros (b + 1)) b buffer
      = ⟨⟨overlay (zeros (b + 1)).bytes (b * blockSize) (buffer.take blockSize), b + 1⟩,
        .error eio⟩ := by
    show WriteOutcome.mk (blockDiskWrite memoryIo ⟨(zeros (b + 1)).bytes, b + 1⟩ b buffer _).1
      (wholeCount (blockDiskWrite memoryIo ⟨(zeros (b + 1)).bytes, b + 1⟩ b buffer _).2 _) = _
    rw [memoryIo_write_bad _ b _ hlen, wholeCount]
  rw [← hlen] at hroom
  refine (if_pos hroom).trans ?_
  unfold writeAt
  rw [hwrite]

theorem overlay_ones {m : Nat → UInt8} {addr : Nat} {ones : List UInt8} (h : ones[0]? = some 1) :
    overlay m addr (ones.take blockSize) addr = 1 := by
  have hadd := overlay_add m addr (ones.take blockSize) 0
  rw [getElem?_take_of_lt (by decide), h] at hadd
  exact hadd

theorem exists_buffer (n : Nat) (hn : 0 < n) :
    ∃ buffer : List UInt8, buffer.length = n ∧ buffer[0]? = some 1 :=
  ⟨List.replicate n 1, length_replicate, getElem?_replicate_of_lt hn⟩

/-- A write at block 310 fails on block 311; the cached block 300 is none of its blocks. -/
theorem cachedDisk_transparent_failing :
    ∃ s, Reach (step (BlockDisk memoryIo)) (CallOk (BlockDisk memoryIo))
        (new (zeros 311) 1 Nat.one_pos) s ∧
      (s.cache.get 300).isSome = true ∧ s.inner.bytes (310 * blockSize) = 1 ∧
      s.Transparent (BlockDisk memoryIo) := by
  obtain ⟨buffer, hlen, -⟩ := exists_buffer blockSize (by decide)
  obtain ⟨ones, hones, hone⟩ := exists_buffer (2 * blockSize) (by decide)
  obtain ⟨data, -, hread⟩ := step_readAt_zeros 311 hlen
  have hwrite := step_writeAt_zeros 310 (remembering data) hones (by decide)
  have hsafe : CallOk (BlockDisk memoryIo) ⟨zeros 311, remembering data⟩ (.writeAt 310 ones) := by
    intro e _
    right
    intro b hle _
    rcases hget : (remembering data).get b with - | d
    · rfl
    · rcases BlockCache.get_insert hget with ⟨rfl, -⟩ | ⟨-, hold⟩
      · omega
      · exact absurd (hold.symm.trans (BlockCache.get_new ..)) nofun
  have hwarm : Reach (step (BlockDisk memoryIo)) (CallOk (BlockDisk memoryIo))
      (new (zeros 311) 1 Nat.one_pos) ⟨zeros 311, remembering data⟩ :=
    Reach.refl.tail (a := .readAt 300 buffer) trivial hread
  have hreach := hwarm.tail hsafe hwrite
  refine ⟨_, hreach, ?_, ?_, cachedDisk_transparent _ _ _ hreach⟩
  · rw [remembering, BlockCache.get_insert_self]
    rfl
  · dsimp only
    exact overlay_ones hone

/-- **A failed write leaves a stale block in the cache**: block 300 was stored, block 301 was
not, and the cache goes on answering with what block 300 held before. -/
theorem cached_read_stale_after_failed_write :
    ∃ s, Reach (step (BlockDisk memoryIo)) (fun _ _ => True)
        (new (zeros 301) 1 Nat.one_pos) s ∧ ¬ s.Transparent (BlockDisk memoryIo) := by
  obtain ⟨buffer, hlen, -⟩ := exists_buffer blockSize (by decide)
  obtain ⟨ones, hones, hone⟩ := exists_buffer (2 * blockSize) (by decide)
  obtain ⟨data, hdata, hread⟩ := step_readAt_zeros 301 hlen
  have hwrite := step_writeAt_zeros 300 (remembering data) hones (by decide)
  have hwarm : Reach (step (BlockDisk memoryIo)) (fun _ _ => True)
      (new (zeros 301) 1 Nat.one_pos) ⟨zeros 301, remembering data⟩ :=
    Reach.refl.tail (a := .readAt 300 buffer) trivial hread
  refine ⟨_, hwarm.tail trivial hwrite, fun h => ?_⟩
  have hheld := h.1 300 data (by decide) (BlockCache.get_insert_self ..)
  -- the first byte of the block: zero in the cache, one on the disk
  have hzero : data.val[0]? = some 0 := by
    rw [hdata, getElem?_window _ _ (by decide)]
    rfl
  have hnew : data.val[0]? = some 1 := by
    rw [hheld, getElem?_window _ _ (by decide)]
    show some (overlay (zeros 301).bytes (300 * blockSize) (ones.take blockSize)
      (300 * blockSize)) = some 1
    rw [overlay_ones hone]
  rw [hzero] at hnew
  cases hnew

end CachedDisk

end Nife
