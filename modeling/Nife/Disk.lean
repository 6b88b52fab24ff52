/-
The disks below the file server's block cache (`redoxfs_server`).  RedoxFS asks a `Disk` for
bytes at a block number, in buffers of any length: shorter than a block, a block, or many.

`Disk` is the trait with the contract its users rely on: only `write_at` changes the content,
a call that returns `Ok(n)` has moved the first `n` bytes, and a write that returns an error
may have stored any prefix of its data.  Two implementations are below it, each proved to meet
the contract:

* `BlockDisk`, over a transport of single blocks (`BlockIo`);
* `IpcDisk`, over the block server's calls (`BlkServer`), which move up to
  `TRANSFER_BLOCKS` blocks through a region both sides share, or one at a time where the writes
  are read back or the crash injector may tear one (`ipcWriteAt`).

Both write a short last chunk by reading its block, replacing the front, and writing the whole
block back.
-/
import Nife.Lib.Medium

namespace Nife

open Medium List

/-- `syscall::error::Error`: an error number. -/
structure Error where
  errno : Nat
  deriving DecidableEq, Repr

def eio : Error := ⟨5⟩

/-- `BLOCK`, one filesystem block in bytes. -/
def blockSize : Nat := 4096

/-- A `[u8; BLOCK]`. -/
abbrev Block := { bytes : List UInt8 // bytes.length = blockSize }

variable {buffer : List UInt8} {m : Nat → UInt8} {addr : Nat}

theorem length_drop_blockSize (h : buffer ≠ []) :
    (buffer.drop blockSize).length < buffer.length := by
  have hpos := length_pos_iff.mpr h
  rw [length_drop, blockSize]
  omega

/-- What a `read_at` leaves: the disk, the caller's buffer and the result. -/
structure ReadOutcome (σ : Type*) where
  disk : σ
  buffer : List UInt8
  result : Except Error Nat

/-- What `write_at` leaves. -/
structure WriteOutcome (σ : Type*) where
  disk : σ
  result : Except Error Nat

/-- The `Disk` trait with its contract.  `bytes` is the content, by byte address. -/
structure Disk (σ : Type*) where
  bytes : σ → Nat → UInt8
  readAt : σ → Nat → List UInt8 → ReadOutcome σ
  writeAt : σ → Nat → List UInt8 → WriteOutcome σ
  /-- A read changes no byte of the disk and keeps the buffer's length. -/
  bytes_readAt : ∀ s block buffer, bytes (readAt s block buffer).disk = bytes s
  length_readAt : ∀ s block buffer, (readAt s block buffer).buffer.length = buffer.length
  readAt_ok : ∀ s block buffer n, (readAt s block buffer).result = .ok n →
    n ≤ buffer.length ∧
      (readAt s block buffer).buffer.take n = window (bytes s) (block * blockSize) n
  writeAt_ok : ∀ s block buffer n, (writeAt s block buffer).result = .ok n →
    n ≤ buffer.length ∧
      bytes (writeAt s block buffer).disk = overlay (bytes s) (block * blockSize) (buffer.take n)
  /-- A failed write has stored some prefix of its data, and nothing else. -/
  writeAt_error : ∀ s block buffer e, (writeAt s block buffer).result = .error e →
    ∃ k, bytes (writeAt s block buffer).disk
      = overlay (bytes s) (block * blockSize) (buffer.take k)

/-! ### Disks over a transport of single blocks -/

/-- The `BlockIo` trait with its contract: a block write that fails may be torn. -/
structure BlockIo (τ : Type*) where
  bytes : τ → Nat → UInt8
  readBlock : τ → Nat → τ × Except Error Block
  writeBlock : τ → Nat → Block → τ × Except Error Unit
  bytes_readBlock : ∀ s b, bytes (readBlock s b).1 = bytes s
  readBlock_ok : ∀ s b buf, (readBlock s b).2 = .ok buf →
    buf.val = window (bytes s) (b * blockSize) blockSize
  writeBlock_ok : ∀ s b buf, (writeBlock s b buf).2 = .ok () →
    bytes (writeBlock s b buf).1 = overlay (bytes s) (b * blockSize) buf.val
  writeBlock_error : ∀ s b buf e, (writeBlock s b buf).2 = .error e →
    ∃ k, bytes (writeBlock s b buf).1 = overlay (bytes s) (b * blockSize) (buf.val.take k)

section BlockDisk

variable {τ : Type*} (io : BlockIo τ)

/-- The loop of `BlockDisk::read_at`, from the chunk that block `b` fills on. -/
def blockDiskRead (s : τ) (b : Nat) (buffer : List UInt8) : τ × List UInt8 × Except Error Unit :=
  if _ : buffer = [] then (s, [], .ok ())
  else
    match io.readBlock s b with
    | (s, .error e) => (s, buffer, .error e)
    | (s, .ok scratch) =>
      let chunk := scratch.val.take buffer.length
      let rest := blockDiskRead s (b + 1) (buffer.drop blockSize)
      (rest.1, chunk ++ rest.2.1, rest.2.2)
termination_by buffer.length
decreasing_by exact length_drop_blockSize ‹_›

/-- `scratch[..chunk.len()].copy_from_slice(chunk)`. -/
def Block.withFront (scratch : Block) (chunk : List UInt8) (h : chunk.length ≤ blockSize) : Block :=
  ⟨chunk ++ scratch.val.drop chunk.length, by
    rw [length_append, length_drop, scratch.property]
    omega⟩

/-- A chunk shorter than a block is laid over what its block holds. -/
def blockDiskScratch (s : τ) (b : Nat) (chunk : List UInt8) (scratch : Block) :
    τ × Except Error Block :=
  if chunk.length < blockSize then io.readBlock s b else (s, .ok scratch)

/-- The loop of `BlockDisk::write_at`, with the scratch block it carries along. -/
def blockDiskWrite (s : τ) (b : Nat) (buffer : List UInt8) (scratch : Block) :
    τ × Except Error Unit :=
  if _ : buffer = [] then (s, .ok ())
  else
    let chunk := buffer.take blockSize
    match blockDiskScratch io s b chunk scratch with
    | (s, .error e) => (s, .error e)
    | (s, .ok scratch) =>
      let scratch := Block.withFront scratch chunk (length_take_le ..)
      match io.writeBlock s b scratch with
      | (s, .error e) => (s, .error e)
      | (s, .ok ()) => blockDiskWrite s (b + 1) (buffer.drop blockSize) scratch
termination_by buffer.length
decreasing_by exact length_drop_blockSize ‹_›

theorem bytes_blockDiskRead (s : τ) (b : Nat) (buffer : List UInt8) :
    io.bytes (blockDiskRead io s b buffer).1 = io.bytes s := by
  fun_induction blockDiskRead io s b buffer with
  | case1 => rfl
  | case2 s b buffer h s' e hr => exact (congrArg (io.bytes ·.1) hr).symm.trans (io.bytes_readBlock s b)
  | case3 s b buffer h s' scratch hr chunk rest ih =>
    exact ih.trans ((congrArg (io.bytes ·.1) hr).symm.trans (io.bytes_readBlock s b))

theorem length_blockDiskRead (s : τ) (b : Nat) (buffer : List UInt8) :
    (blockDiskRead io s b buffer).2.1.length = buffer.length := by
  fun_induction blockDiskRead io s b buffer with
  | case1 | case2 => rfl
  | case3 s b buffer h s' scratch hr chunk rest ih =>
    show (chunk ++ rest.2.1).length = _
    rw [length_append, ih, length_take, length_drop]
    omega

theorem blockDiskRead_ok (s : τ) (b : Nat) (buffer : List UInt8)
    (hok : (blockDiskRead io s b buffer).2.2 = .ok ()) :
    (blockDiskRead io s b buffer).2.1 = window (io.bytes s) (b * blockSize) buffer.length := by
  fun_induction blockDiskRead io s b buffer with
  | case1 => rfl
  | case2 s b buffer h s' e hr => cases hok
  | case3 s b buffer h s' scratch hr chunk rest ih =>
    have hs : io.bytes s' = io.bytes s :=
      (congrArg (io.bytes ·.1) hr).symm.trans (io.bytes_readBlock s b)
    have hblock := io.readBlock_ok s b scratch (congrArg Prod.snd hr)
    show chunk ++ rest.2.1 = _
    rw [ih hok, hs, length_drop, Nat.add_mul, Nat.one_mul]
    show scratch.val.take buffer.length ++ _ = _
    by_cases hle : buffer.length ≤ blockSize
    · rw [hblock, take_window _ _ hle, Nat.sub_eq_zero_of_le hle, window_zero, append_nil]
    · have hle : blockSize ≤ buffer.length := Nat.le_of_not_le hle
      rw [take_of_length_le (by rw [scratch.property]; exact hle), hblock, ← window_add,
        Nat.add_sub_of_le hle]

theorem bytes_blockDiskScratch (s : τ) (b : Nat) (chunk : List UInt8) (scratch : Block) :
    io.bytes (blockDiskScratch io s b chunk scratch).1 = io.bytes s := by
  unfold blockDiskScratch
  split
  · exact io.bytes_readBlock s b
  · rfl

variable {chunk : List UInt8} {scratch : Block}

theorem blockDiskScratch_short {s : τ} {b : Nat} {scratch' : Block}
    (hr : (blockDiskScratch io s b chunk scratch).2 = .ok scratch')
    (hshort : chunk.length < blockSize) :
    scratch'.val = window (io.bytes s) (b * blockSize) blockSize := by
  rw [blockDiskScratch, if_pos hshort] at hr
  exact io.readBlock_ok s b scratch' hr

/-- Writing a block with a new front stores a prefix of the front, wherever it stops. -/
theorem overlay_withFront (hlen : chunk.length ≤ blockSize)
    (hrest : chunk.length < blockSize → scratch.val = window m addr blockSize) (k : Nat) :
    overlay m addr ((scratch.withFront chunk hlen).val.take k) = overlay m addr (chunk.take k) := by
  show overlay m addr ((chunk ++ scratch.val.drop chunk.length).take k) = _
  by_cases hshort : chunk.length < blockSize
  · rw [hrest hshort, drop_window _ _ hlen, overlay_take_front]
  · rw [drop_of_length_le (by rw [scratch.property]; omega), append_nil]

theorem overlay_withFront_all (hlen : chunk.length ≤ blockSize)
    (hrest : chunk.length < blockSize → scratch.val = window m addr blockSize) :
    overlay m addr (scratch.withFront chunk hlen).val = overlay m addr chunk := by
  have h := overlay_withFront hlen hrest blockSize
  rwa [take_of_length_le hlen,
    take_of_length_le (Nat.le_of_eq (scratch.withFront chunk hlen).property)] at h

/-- **However far the loop came, it has stored a prefix**, and all of it if it succeeded. -/
theorem bytes_blockDiskWrite (s : τ) (b : Nat) (buffer : List UInt8) (scratch : Block) :
    ∃ k, io.bytes (blockDiskWrite io s b buffer scratch).1
        = overlay (io.bytes s) (b * blockSize) (buffer.take k) ∧
      ((blockDiskWrite io s b buffer scratch).2 = .ok () → buffer.length ≤ k) := by
  fun_induction blockDiskWrite io s b buffer scratch with
  | case1 s b scratch => exact ⟨0, by rw [take_nil, overlay_nil], fun _ => Nat.le_refl 0⟩
  | case2 s b buffer scratch h chunk s₁ e hr =>
    have hs₁ := bytes_blockDiskScratch io s b chunk scratch
    rw [hr] at hs₁
    exact ⟨0, by rw [take_zero, overlay_nil]; exact hs₁, nofun⟩
  | case3 s b buffer scratch h chunk s₁ scratch₁ hr scratch₂ s₂ e hw =>
    have hs₁ := bytes_blockDiskScratch io s b chunk scratch
    rw [hr] at hs₁
    obtain ⟨k, hk⟩ := io.writeBlock_error s₁ b scratch₂ e (congrArg Prod.snd hw)
    rw [hw, hs₁, overlay_withFront _ (blockDiskScratch_short io (congrArg Prod.snd hr)),
      take_take] at hk
    exact ⟨min k blockSize, hk, nofun⟩
  | case4 s b buffer scratch h chunk s₁ scratch₁ hr scratch₂ s₂ hw ih =>
    have hs₁ := bytes_blockDiskScratch io s b chunk scratch
    rw [hr] at hs₁
    have hs₂ := io.writeBlock_ok s₁ b scratch₂ (congrArg Prod.snd hw)
    rw [hw, hs₁, overlay_withFront_all _ (blockDiskScratch_short io (congrArg Prod.snd hr))]
      at hs₂
    obtain ⟨k, hk, hok⟩ := ih
    refine ⟨blockSize + k, ?_, fun h => ?_⟩
    · rw [hk, hs₂, Nat.add_mul, Nat.one_mul, overlay_take_add]
    · have hle := hok h
      rw [length_drop] at hle
      omega

/-- The unit result of a loop that moves a whole buffer, as the count its caller returns. -/
def wholeCount (r : Except Error Unit) (buffer : List UInt8) : Except Error Nat :=
  match r with
  | .ok () => .ok buffer.length
  | .error e => .error e

theorem wholeCount_eq_ok {r : Except Error Unit} {n : Nat}
    (h : wholeCount r buffer = .ok n) : r = .ok () ∧ n = buffer.length := by
  rcases r with e | ⟨⟩
  · cases h
  · cases h
    exact ⟨rfl, rfl⟩

/-- **`BlockDisk<T>` is a `Disk`.** -/
def BlockDisk : Disk τ where
  bytes := io.bytes
  readAt s block buffer :=
    let r := blockDiskRead io s block buffer
    ⟨r.1, r.2.1, wholeCount r.2.2 buffer⟩
  writeAt s block buffer :=
    let r := blockDiskWrite io s block buffer ⟨List.replicate blockSize 0, length_replicate⟩
    ⟨r.1, wholeCount r.2 buffer⟩
  bytes_readAt := bytes_blockDiskRead io
  length_readAt := length_blockDiskRead io
  readAt_ok s block buffer n h := by
    obtain ⟨hok, rfl⟩ := wholeCount_eq_ok h
    refine ⟨Nat.le_refl _, ?_⟩
    rw [take_of_length_le (Nat.le_of_eq (length_blockDiskRead io s block buffer))]
    exact blockDiskRead_ok io s block buffer hok
  writeAt_ok s block buffer n h := by
    obtain ⟨hok, rfl⟩ := wholeCount_eq_ok h
    obtain ⟨k, hk, hle⟩ := bytes_blockDiskWrite io s block buffer _
    refine ⟨Nat.le_refl _, hk.trans ?_⟩
    rw [take_of_length_le (hle hok), take_length]
  writeAt_error s block buffer e _ := by
    obtain ⟨k, hk, -⟩ := bytes_blockDiskWrite io s block buffer _
    exact ⟨k, hk⟩

end BlockDisk

/-! ### Disks over the block server -/

/-- `blk::TRANSFER_BLOCKS`. -/
def transferBlocks : Nat := 16

/-- The region shared with the block server, `blk::TRANSFER_MAX` bytes. -/
abbrev BlkPage := { bytes : List UInt8 // bytes.length = transferBlocks * blockSize }

/-- The block server behind `blk_n`: `READ` and `WRITE` of `count` blocks through the shared
region.  A negative reply is an error, and a failed `WRITE` may have stored a prefix. -/
structure BlkServer (τ : Type*) where
  bytes : τ → Nat → UInt8
  read : τ → Nat → Nat → BlkPage → τ × BlkPage × Int
  write : τ → Nat → Nat → BlkPage → τ × Int
  bytes_read : ∀ s b count page, bytes (read s b count page).1 = bytes s
  read_ok : ∀ s b count page, count ≤ transferBlocks → ¬ (read s b count page).2.2 < 0 →
    (read s b count page).2.1.val.take (count * blockSize)
      = window (bytes s) (b * blockSize) (count * blockSize)
  write_ok : ∀ s b count page, count ≤ transferBlocks → ¬ (write s b count page).2 < 0 →
    bytes (write s b count page).1
      = overlay (bytes s) (b * blockSize) (page.val.take (count * blockSize))
  write_error : ∀ s b count page, (write s b count page).2 < 0 →
    ∃ k, bytes (write s b count page).1
      = overlay (bytes s) (b * blockSize) ((page.val.take (count * blockSize)).take k)

section IpcDisk

variable {τ : Type*} (srv : BlkServer τ)

/-- `to_page`: the source over the front of the region. -/
def BlkPage.toPage (page : BlkPage) (src : List UInt8)
    (h : src.length ≤ transferBlocks * blockSize) : BlkPage :=
  ⟨src ++ page.val.drop src.length, by
    rw [length_append, length_drop, page.property]
    omega⟩

def fullBlocks (remaining : Nat) : Nat := min (remaining / blockSize) transferBlocks

theorem fullBlocks_le (remaining : Nat) : fullBlocks remaining ≤ transferBlocks :=
  Nat.min_le_right ..

theorem fullBlocks_mul_le (remaining : Nat) : fullBlocks remaining * blockSize ≤ remaining :=
  Nat.le_trans (Nat.mul_le_mul_right _ (Nat.min_le_left ..)) (Nat.div_mul_le_self ..)

theorem lt_of_fullBlocks {remaining : Nat} (h : ¬ 0 < fullBlocks remaining) :
    remaining < blockSize := by
  unfold fullBlocks transferBlocks blockSize at *
  omega

theorem length_drop_fullBlocks (h : 0 < fullBlocks buffer.length) :
    (buffer.drop (fullBlocks buffer.length * blockSize)).length < buffer.length := by
  have hle := fullBlocks_mul_le buffer.length
  rw [length_drop]
  unfold blockSize at *
  omega

theorem length_take_fullBlocks (buffer : List UInt8) :
    (buffer.take (fullBlocks buffer.length * blockSize)).length
      = fullBlocks buffer.length * blockSize := by
  rw [length_take, Nat.min_eq_left (fullBlocks_mul_le _)]

theorem length_take_fullBlocks_le (buffer : List UInt8) :
    (buffer.take (fullBlocks buffer.length * blockSize)).length ≤ transferBlocks * blockSize := by
  rw [length_take_fullBlocks]
  exact Nat.mul_le_mul_right _ (fullBlocks_le _)

/-- The loop of `IpcDisk::read_at`. -/
def ipcDiskRead (s : τ) (page : BlkPage) (b : Nat) (buffer : List UInt8) :
    τ × BlkPage × List UInt8 × Except Error Unit :=
  if buffer = [] then (s, page, [], .ok ())
  else if _ : 0 < fullBlocks buffer.length then
    let full := fullBlocks buffer.length
    let n := full * blockSize
    let r := srv.read s b full page
    if r.2.2 < 0 then (r.1, r.2.1, buffer, .error eio)
    else
      let rest := ipcDiskRead r.1 r.2.1 (b + full) (buffer.drop n)
      (rest.1, rest.2.1, r.2.1.val.take n ++ rest.2.2.1, rest.2.2.2)
  else
    -- only a tail shorter than a block remains: one whole-block read, partial copy
    let r := srv.read s b 1 page
    if r.2.2 < 0 then (r.1, r.2.1, buffer, .error eio)
    else (r.1, r.2.1, r.2.1.val.take buffer.length, .ok ())
termination_by buffer.length
decreasing_by exact length_drop_fullBlocks ‹_›

/-- The loop of `IpcDisk::write_at`, on the batched path. -/
def ipcDiskWrite (s : τ) (page : BlkPage) (b : Nat) (buffer : List UInt8) :
    τ × BlkPage × Except Error Unit :=
  if buffer = [] then (s, page, .ok ())
  else if _ : 0 < fullBlocks buffer.length then
    let full := fullBlocks buffer.length
    let page := page.toPage (buffer.take (full * blockSize)) (length_take_fullBlocks_le buffer)
    let r := srv.write s b full page
    if r.2 < 0 then (r.1, page, .error eio)
    else ipcDiskWrite r.1 page (b + full) (buffer.drop (full * blockSize))
  else
    have hshort : buffer.length < blockSize := lt_of_fullBlocks ‹_›
    let r := srv.read s b 1 page
    if r.2.2 < 0 then (r.1, r.2.1, .error eio)
    else
      let page := r.2.1.toPage buffer (by unfold transferBlocks; omega)
      let w := srv.write r.1 b 1 page
      if w.2 < 0 then (w.1, page, .error eio) else (w.1, page, .ok ())
termination_by buffer.length
decreasing_by exact length_drop_fullBlocks ‹_›

/-- A read changes no byte and keeps the buffer's length; if it succeeded it filled the buffer. -/
theorem ipcDiskRead_spec (s : τ) (page : BlkPage) (b : Nat) (buffer : List UInt8) :
    srv.bytes (ipcDiskRead srv s page b buffer).1 = srv.bytes s ∧
      (ipcDiskRead srv s page b buffer).2.2.1.length = buffer.length ∧
      ((ipcDiskRead srv s page b buffer).2.2.2 = .ok () →
        (ipcDiskRead srv s page b buffer).2.2.1
          = window (srv.bytes s) (b * blockSize) buffer.length) := by
  fun_induction ipcDiskRead srv s page b buffer with
  | case1 => exact ⟨rfl, rfl, fun _ => rfl⟩
  | case2 | case4 => exact ⟨srv.bytes_read .., rfl, nofun⟩
  | case3 s page b buffer h hfull full n r hr rest ih =>
    obtain ⟨hbytes, hlen, hok⟩ := ih
    have hread := srv.read_ok s b full page (fullBlocks_le _) hr
    have hle := Nat.add_sub_of_le (fullBlocks_mul_le buffer.length)
    refine ⟨hbytes.trans (srv.bytes_read ..), ?_, fun h => ?_⟩
    · rw [length_append, hlen, hread, length_window, length_drop, hle]
    · rw [hread, hok h, srv.bytes_read, length_drop, Nat.add_mul, ← window_add, hle]
  | case5 s page b buffer h hfull r hr =>
    have hle : buffer.length ≤ 1 * blockSize := by
      have hshort := lt_of_fullBlocks hfull
      omega
    have hfill : r.2.1.val.take buffer.length = window (srv.bytes s) (b * blockSize) buffer.length := by
      rw [← take_window _ _ hle, ← srv.read_ok s b 1 page (by decide) hr, take_take,
        Nat.min_eq_left hle]
    exact ⟨srv.bytes_read .., by rw [hfill, length_window], fun _ => hfill⟩

/-- What the next call sends once its whole blocks were copied to the region. -/
theorem take_toPage (page : BlkPage) (buffer : List UInt8) :
    (page.toPage (buffer.take (fullBlocks buffer.length * blockSize))
        (length_take_fullBlocks_le buffer)).val.take (fullBlocks buffer.length * blockSize)
      = buffer.take (fullBlocks buffer.length * blockSize) :=
  take_left' (length_take_fullBlocks buffer)

/-- A tail copied over the block that was just read keeps the rest of that block. -/
theorem take_toPage_tail {page : BlkPage} {tail : List UInt8} (h)
    (hle : tail.length ≤ 1 * blockSize)
    (hpage : page.val.take (1 * blockSize) = window m addr (1 * blockSize)) :
    (page.toPage tail h).val.take (1 * blockSize)
      = tail ++ window m (addr + tail.length) (1 * blockSize - tail.length) := by
  show (tail ++ page.val.drop tail.length).take (1 * blockSize) = _
  rw [take_append, take_of_length_le hle, ← drop_window _ _ hle, ← hpage, drop_take]

/-- A `WRITE` of a block of which only the front is new stores a prefix of that front. -/
theorem bytes_write_front (s : τ) (b : Nat) (page : BlkPage) (data : List UInt8)
    (hpage : page.val.take (1 * blockSize) = data ++
      window (srv.bytes s) (b * blockSize + data.length) (1 * blockSize - data.length)) :
    ∃ k, srv.bytes (srv.write s b 1 page).1 = overlay (srv.bytes s) (b * blockSize) (data.take k) ∧
      (¬ (srv.write s b 1 page).2 < 0 → data.length ≤ k) := by
  by_cases hw : (srv.write s b 1 page).2 < 0
  · obtain ⟨k, hk⟩ := srv.write_error s b 1 page hw
    rw [hpage, overlay_take_front] at hk
    exact ⟨k, hk, fun hno => absurd hw hno⟩
  · have hk := srv.write_ok s b 1 page (by decide) hw
    rw [hpage, overlay_front] at hk
    exact ⟨data.length, by rw [take_length]; exact hk, fun _ => Nat.le_refl _⟩

/-- A block is read, its front replaced and the block written back. -/
theorem bytes_readModifyWrite (s : τ) (b : Nat) (page : BlkPage) (data : List UInt8) (h)
    (hdata : data.length ≤ blockSize) (hr : ¬ (srv.read s b 1 page).2.2 < 0) :
    let r := srv.read s b 1 page
    let w := srv.write r.1 b 1 (r.2.1.toPage data h)
    ∃ k, srv.bytes w.1 = overlay (srv.bytes s) (b * blockSize) (data.take k) ∧
      (¬ w.2 < 0 → data.length ≤ k) := by
  have hblock := srv.read_ok s b 1 page (by decide) hr
  dsimp only
  rw [← srv.bytes_read s b 1 page] at hblock ⊢
  exact bytes_write_front srv _ b _ data (take_toPage_tail _ (by omega) hblock)

/-- **However far the loop came, it has stored a prefix**, and all of it if it succeeded. -/
theorem bytes_ipcDiskWrite (s : τ) (page : BlkPage) (b : Nat) (buffer : List UInt8) :
    ∃ k, srv.bytes (ipcDiskWrite srv s page b buffer).1
        = overlay (srv.bytes s) (b * blockSize) (buffer.take k) ∧
      ((ipcDiskWrite srv s page b buffer).2.2 = .ok () → buffer.length ≤ k) := by
  fun_induction ipcDiskWrite srv s page b buffer with
  | case1 s page b => exact ⟨0, by rw [take_nil, overlay_nil], fun _ => Nat.le_refl 0⟩
  | case2 s page b buffer h hfull full page' r hr =>
    obtain ⟨k, hk⟩ := srv.write_error s b full page' hr
    rw [take_toPage page buffer, take_take] at hk
    exact ⟨_, hk, nofun⟩
  | case3 s page b buffer h hfull full page' r hr ih =>
    have hw := srv.write_ok s b full page' (fullBlocks_le _) hr
    rw [take_toPage page buffer] at hw
    obtain ⟨k, hk, hok⟩ := ih
    refine ⟨full * blockSize + k, ?_, fun h => ?_⟩
    · rw [hk, hw, Nat.add_mul, overlay_take_add]
    · have hle := hok h
      rw [length_drop] at hle
      omega
  | case4 s page b buffer h hfull hshort r hr =>
    exact ⟨0, by rw [take_zero, overlay_nil]; exact srv.bytes_read .., nofun⟩
  | case5 s page b buffer h hfull hshort r hr page' w hw =>
    obtain ⟨k, hk, -⟩ := bytes_readModifyWrite srv s b page buffer _ (by omega) hr
    exact ⟨k, hk, nofun⟩
  | case6 s page b buffer h hfull hshort r hr page' w hw =>
    obtain ⟨k, hk, hall⟩ := bytes_readModifyWrite srv s b page buffer _ (by omega) hr
    exact ⟨k, hk, fun _ => hall hw⟩

/-- **`IpcDisk` is a `Disk`**, over the block server and the region it shares with it.  Its writes are
those of a boot that neither reads them back nor asks for a crash. -/
def IpcDisk : Disk (τ × BlkPage) where
  bytes s := srv.bytes s.1
  readAt s block buffer :=
    let r := ipcDiskRead srv s.1 s.2 block buffer
    ⟨(r.1, r.2.1), r.2.2.1, wholeCount r.2.2.2 buffer⟩
  writeAt s block buffer :=
    let r := ipcDiskWrite srv s.1 s.2 block buffer
    ⟨(r.1, r.2.1), wholeCount r.2.2 buffer⟩
  bytes_readAt s block buffer := (ipcDiskRead_spec srv s.1 s.2 block buffer).1
  length_readAt s block buffer := (ipcDiskRead_spec srv s.1 s.2 block buffer).2.1
  readAt_ok s block buffer n h := by
    obtain ⟨hok, rfl⟩ := wholeCount_eq_ok h
    obtain ⟨-, hlen, hfill⟩ := ipcDiskRead_spec srv s.1 s.2 block buffer
    refine ⟨Nat.le_refl _, ?_⟩
    rw [take_of_length_le (Nat.le_of_eq hlen)]
    exact hfill hok
  writeAt_ok s block buffer n h := by
    obtain ⟨hok, rfl⟩ := wholeCount_eq_ok h
    obtain ⟨k, hk, hle⟩ := bytes_ipcDiskWrite srv s.1 s.2 block buffer
    refine ⟨Nat.le_refl _, hk.trans ?_⟩
    rw [take_of_length_le (hle hok), take_length]
  writeAt_error s block buffer e _ := by
    obtain ⟨k, hk, -⟩ := bytes_ipcDiskWrite srv s.1 s.2 block buffer
    exact ⟨k, hk⟩

/-! ### Writes of one block at a time -/

/-- The crash injector's counters. -/
structure Injector where
  (atWrite armed blocks afterBlocks tearBytes : Nat)
  deriving DecidableEq, Repr

/-- Asked before each block write: is this the one to tear, and after how many bytes? -/
def Injector.tearNow (inj : Injector) : Injector × Option Nat :=
  if inj.armed = 0 then (inj, none)
  else
    let inj := { inj with blocks := inj.blocks + 1 }
    (inj, if inj.blocks = inj.afterBlocks then some inj.tearBytes else none)

/-- How a write ends: the process may die in it. -/
inductive WriteEnd
  | ok
  | error (e : Error)
  | panic
  deriving DecidableEq, Repr

/-- The front of a block is laid over what the block holds, and the process dies. -/
def tornWrite (s : τ) (page : BlkPage) (b : Nat) (chunk : List UInt8)
    (hchunk : chunk.length ≤ blockSize) (tear : Nat) : τ × BlkPage × WriteEnd :=
  if tear = 0 then (s, page, .panic)
  else
    let r := srv.read s b 1 page
    if r.2.2 < 0 then (r.1, r.2.1, .error eio)
    else
      let page := r.2.1.toPage (chunk.take tear) (by
        have := (chunk.take_sublist tear).length_le
        unfold transferBlocks
        omega)
      let w := srv.write r.1 b 1 page
      if w.2 < 0 then (w.1, page, .error eio) else (w.1, page, .panic)

/-- One chunk: a short one is laid over what its block holds, and with `verify` the block is read
back and compared. -/
def chunkWrite (verify : Bool) (s : τ) (page : BlkPage) (b : Nat) (chunk : List UInt8)
    (hchunk : chunk.length ≤ blockSize) : τ × BlkPage × WriteEnd :=
  let r := if chunk.length < blockSize then srv.read s b 1 page else (s, page, 0)
  if r.2.2 < 0 then (r.1, r.2.1, .error eio)
  else
    let page := r.2.1.toPage chunk (by unfold transferBlocks; omega)
    let w := srv.write r.1 b 1 page
    if w.2 < 0 then (w.1, page, .error eio)
    else if verify = false then (w.1, page, .ok)
    else
      let echo := srv.read w.1 b 1 page
      if echo.2.2 < 0 then (echo.1, echo.2.1, .error eio)
      else (echo.1, echo.2.1, if echo.2.1.val.take chunk.length = chunk then .ok else .panic)

/-- The loop of `write_at_unbatched`. -/
def writeAtUnbatched (verify : Bool) (inj : Injector) (s : τ) (page : BlkPage) (b : Nat)
    (buffer : List UInt8) : Injector × τ × BlkPage × WriteEnd :=
  if _ : buffer = [] then (inj, s, page, .ok)
  else
    have hchunk : (buffer.take blockSize).length ≤ blockSize := length_take_le _ _
    match inj.tearNow with
    | (inj, some tear) => (inj, tornWrite srv s page b (buffer.take blockSize) hchunk tear)
    | (inj, none) =>
      let w := chunkWrite srv verify s page b (buffer.take blockSize) hchunk
      if w.2.2 = .ok then writeAtUnbatched verify inj w.1 w.2.1 (b + 1) (buffer.drop blockSize)
      else (inj, w)
termination_by buffer.length
decreasing_by exact length_drop_blockSize ‹_›

/-- `IpcDisk::write_at`: in batches, unless every block may matter by itself. -/
def ipcWriteAt (verify : Bool) (inj : Injector) (s : τ × BlkPage) (block : Nat)
    (buffer : List UInt8) : Injector × τ × BlkPage × WriteEnd :=
  if verify = true ∨ inj.atWrite ≠ 0 then writeAtUnbatched srv verify inj s.1 s.2 block buffer
  else
    let r := ipcDiskWrite srv s.1 s.2 block buffer
    (inj, r.1, r.2.1, match r.2.2 with
      | .ok _ => .ok
      | .error e => .error e)

/-- What is on the platter after a write of `data`: a prefix of it, and all of it if the write was
`Ok`. -/
def Stores (s : τ) (addr : Nat) (data : List UInt8) (after : τ) (result : WriteEnd) : Prop :=
  ∃ k, srv.bytes after = overlay (srv.bytes s) addr (data.take k) ∧
    (result = .ok → data.length ≤ k)

variable {srv}

theorem stores_nothing {s after : τ} {data : List UInt8} {result : WriteEnd}
    (h : srv.bytes after = srv.bytes s) (hno : result ≠ .ok) : Stores srv s addr data after result :=
  ⟨0, by rw [h, take_zero, overlay_nil], fun hok => absurd hok hno⟩

/-- What stops in its first part has stored a prefix of the whole. -/
theorem Stores.of_take {s after : τ} {data : List UInt8} {result : WriteEnd} {n : Nat}
    (h : Stores srv s addr (data.take n) after result) (hno : result ≠ .ok) :
    Stores srv s addr data after result := by
  obtain ⟨k, hk, -⟩ := h
  rw [take_take] at hk
  exact ⟨_, hk, fun hok => absurd hok hno⟩

/-- And what goes on after its first block has stored that block and what followed. -/
theorem Stores.append {s mid after : τ} {data : List UInt8} {result : WriteEnd} {n : Nat}
    (h : Stores srv s addr (data.take n) mid .ok)
    (hrest : Stores srv mid (addr + n) (data.drop n) after result) :
    Stores srv s addr data after result := by
  obtain ⟨k, hk, hall⟩ := h
  obtain ⟨k', hk', hall'⟩ := hrest
  refine ⟨n + k', ?_, fun hok => ?_⟩
  · rw [hk', hk, take_of_length_le (hall rfl), overlay_take_add]
  · have hle := hall' hok
    rw [length_drop] at hle
    omega

theorem Injector.tearNow_armed {inj inj' : Injector} {r : Option Nat}
    (h : inj.tearNow = (inj', r)) : inj'.armed = inj.armed ∧ (r ≠ none → inj.armed ≠ 0) := by
  unfold Injector.tearNow at h
  split_ifs at h with harmed
  all_goals cases h
  · exact ⟨rfl, fun hno => absurd rfl hno⟩
  all_goals exact ⟨rfl, fun _ => harmed⟩

variable (srv)

section

variable (s : τ) (page : BlkPage) (b : Nat) (chunk : List UInt8) (hchunk : chunk.length ≤ blockSize)

theorem stores_tornWrite (tear : Nat) :
    Stores srv s (b * blockSize) chunk (tornWrite srv s page b chunk hchunk tear).1
      (tornWrite srv s page b chunk hchunk tear).2.2 ∧
    (tornWrite srv s page b chunk hchunk tear).2.2 ≠ .ok := by
  unfold tornWrite
  by_cases htear : tear = 0
  · rw [if_pos htear]
    exact ⟨stores_nothing rfl nofun, nofun⟩
  rw [if_neg htear]
  dsimp only
  split_ifs with hr hw
  · exact ⟨stores_nothing (srv.bytes_read ..) nofun, nofun⟩
  all_goals
    have hshort := (chunk.take_sublist tear).length_le
    obtain ⟨k, hk, -⟩ := bytes_readModifyWrite srv s b page (chunk.take tear) _ (by omega) hr
    rw [take_take] at hk
    exact ⟨⟨_, hk, nofun⟩, nofun⟩

include hchunk in
/-- What the region holds when a chunk is sent. -/
theorem take_chunk {r : τ × BlkPage × Int}
    (hr : r = if chunk.length < blockSize then srv.read s b 1 page else (s, page, 0))
    (hok : ¬ r.2.2 < 0) (h) :
    (r.2.1.toPage chunk h).val.take (1 * blockSize) = chunk ++
      window (srv.bytes r.1) (b * blockSize + chunk.length) (1 * blockSize - chunk.length) := by
  split_ifs at hr with hshort
  · subst hr
    have hblock := srv.read_ok s b 1 page (by decide) hok
    rw [← srv.bytes_read s b 1 page] at hblock
    exact take_toPage_tail _ (by omega) hblock
  · subst hr
    have hfull : chunk.length = 1 * blockSize := by omega
    rw [← hfull, Nat.sub_self, window_zero, append_nil]
    exact take_left

include hchunk in
/-- The contract of the server: what was stored is read back. -/
theorem take_readBack {m : Nat → UInt8} (hs : srv.bytes s = overlay m (b * blockSize) chunk)
    (hr : ¬ (srv.read s b 1 page).2.2 < 0) :
    (srv.read s b 1 page).2.1.val.take chunk.length = chunk := by
  have hle : chunk.length ≤ 1 * blockSize := by omega
  rw [← Nat.min_eq_left hle, ← take_take, srv.read_ok s b 1 page (by decide) hr, take_window _ _ hle,
    hs, window_overlay_self]

theorem stores_chunkWrite (verify : Bool) :
    Stores srv s (b * blockSize) chunk (chunkWrite srv verify s page b chunk hchunk).1
      (chunkWrite srv verify s page b chunk hchunk).2.2 ∧
    (chunkWrite srv verify s page b chunk hchunk).2.2 ≠ .panic := by
  unfold chunkWrite
  generalize hr : (if chunk.length < blockSize then srv.read s b 1 page else (s, page, 0)) = r
  dsimp only
  have hkept : srv.bytes r.1 = srv.bytes s := by
    rw [← hr]
    split_ifs
    · exact srv.bytes_read ..
    · rfl
  by_cases hneg : r.2.2 < 0
  · rw [if_pos hneg]
    exact ⟨stores_nothing hkept nofun, nofun⟩
  rw [if_neg hneg]
  have hsent := take_chunk srv s page b chunk hchunk hr.symm hneg (by unfold transferBlocks; omega)
  generalize hp : r.2.1.toPage chunk _ = sent at hsent ⊢
  obtain ⟨k, hk, hall⟩ := bytes_write_front srv r.1 b sent chunk hsent
  rw [hkept] at hk
  by_cases hw : (srv.write r.1 b 1 sent).2 < 0
  · rw [if_pos hw]
    exact ⟨⟨k, hk, nofun⟩, nofun⟩
  rw [if_neg hw]
  cases verify with
  | false => exact ⟨⟨k, hk, fun _ => hall hw⟩, nofun⟩
  | true =>
    rw [if_neg (by decide)]
    by_cases he : (srv.read (srv.write r.1 b 1 sent).1 b 1 sent).2.2 < 0
    · rw [if_pos he]
      exact ⟨⟨k, (srv.bytes_read ..).trans hk, nofun⟩, nofun⟩
    · have hstored := hk
      rw [take_of_length_le (hall hw)] at hstored
      rw [if_neg he, if_pos (take_readBack srv _ sent b chunk hchunk hstored he)]
      exact ⟨⟨k, (srv.bytes_read ..).trans hk, fun _ => hall hw⟩, nofun⟩

end

/-- **One block after the other, a prefix is stored**, and the process dies only by the injector. -/
theorem stores_writeAtUnbatched (verify : Bool) (inj : Injector) (s : τ) (page : BlkPage) (b : Nat)
    (buffer : List UInt8) :
    Stores srv s (b * blockSize) buffer (writeAtUnbatched srv verify inj s page b buffer).2.1
      (writeAtUnbatched srv verify inj s page b buffer).2.2.2 ∧
    ((writeAtUnbatched srv verify inj s page b buffer).2.2.2 = .panic → inj.armed ≠ 0) := by
  fun_induction writeAtUnbatched srv verify inj s page b buffer with
  | case1 inj s page b => exact ⟨⟨0, by rw [take_nil, overlay_nil], fun _ => Nat.le_refl 0⟩, nofun⟩
  | case2 inj s page b buffer h hchunk inj' tear htear =>
    obtain ⟨hstores, hno⟩ := stores_tornWrite srv s page b _ hchunk tear
    exact ⟨hstores.of_take hno, fun _ => (Injector.tearNow_armed htear).2 nofun⟩
  | case3 inj s page b buffer h hchunk inj' htear w hok ih =>
    obtain ⟨hstores, -⟩ := stores_chunkWrite srv s page b _ hchunk verify
    obtain ⟨hrest, harmed⟩ := ih
    rw [← (Injector.tearNow_armed htear).1]
    rw [show (b + 1) * blockSize = b * blockSize + blockSize by rw [Nat.add_mul, Nat.one_mul]]
      at hrest
    change Stores srv s (b * blockSize) (buffer.take blockSize) w.1 w.2.2 at hstores
    rw [hok] at hstores
    exact ⟨hstores.append hrest, harmed⟩
  | case4 inj s page b buffer h hchunk inj' htear w hno =>
    obtain ⟨hstores, hlives⟩ := stores_chunkWrite srv s page b _ hchunk verify
    exact ⟨hstores.of_take hno, fun hpanic => absurd hpanic hlives⟩

theorem stores_ipcWriteAt (verify : Bool) (inj : Injector) (s : τ × BlkPage) (block : Nat)
    (data : List UInt8) :
    Stores srv s.1 (block * blockSize) data (ipcWriteAt srv verify inj s block data).2.1
      (ipcWriteAt srv verify inj s block data).2.2.2 ∧
    ((ipcWriteAt srv verify inj s block data).2.2.2 = .panic → inj.armed ≠ 0) := by
  unfold ipcWriteAt
  split_ifs with hone
  · exact stores_writeAtUnbatched ..
  · obtain ⟨k, hk, hall⟩ := bytes_ipcDiskWrite srv s.1 s.2 block data
    dsimp only
    rcases hr : (ipcDiskWrite srv s.1 s.2 block data).2.2 with e | u
    · exact ⟨⟨k, hk, nofun⟩, nofun⟩
    · exact ⟨⟨k, hk, fun _ => hall hr⟩, nofun⟩

/-- The server refuses no call. -/
def BlkServer.Serves : Prop :=
  (∀ s b count page, 0 ≤ (srv.read s b count page).2.2) ∧
    ∀ s b count page, 0 ≤ (srv.write s b count page).2

section Serves

variable {srv} (hserves : srv.Serves)

include hserves

theorem ipcDiskRead_serves (s : τ) (page : BlkPage) (b : Nat) (buffer : List UInt8) :
    (ipcDiskRead srv s page b buffer).2.2.2 = .ok () := by
  fun_induction ipcDiskRead srv s page b buffer with
  | case1 | case5 => rfl
  | case2 _ _ _ _ _ _ _ r hr | case4 _ _ _ _ _ _ r hr =>
    exact absurd hr (Int.not_lt.mpr (hserves.1 ..))
  | case3 _ _ _ _ _ _ _ _ _ _ _ ih => exact ih

theorem ipcDiskWrite_serves (s : τ) (page : BlkPage) (b : Nat) (buffer : List UInt8) :
    (ipcDiskWrite srv s page b buffer).2.2 = .ok () := by
  fun_induction ipcDiskWrite srv s page b buffer with
  | case1 | case6 => rfl
  | case2 _ _ _ _ _ _ _ _ r hr => exact absurd hr (Int.not_lt.mpr (hserves.2 ..))
  | case3 _ _ _ _ _ _ _ _ _ _ ih => exact ih
  | case4 _ _ _ _ _ _ _ r hr => exact absurd hr (Int.not_lt.mpr (hserves.1 ..))
  | case5 _ _ _ _ _ _ _ _ _ _ w hw => exact absurd hw (Int.not_lt.mpr (hserves.2 ..))

theorem tornWrite_serves (s : τ) (page : BlkPage) (b : Nat) (chunk : List UInt8)
    (hchunk : chunk.length ≤ blockSize) (tear : Nat) (e : Error) :
    (tornWrite srv s page b chunk hchunk tear).2.2 ≠ .error e := by
  unfold tornWrite
  dsimp only
  split_ifs with htear hr hw
  · exact nofun
  · exact absurd hr (Int.not_lt.mpr (hserves.1 ..))
  · exact absurd hw (Int.not_lt.mpr (hserves.2 ..))
  · exact nofun

theorem chunkWrite_serves (verify : Bool) (s : τ) (page : BlkPage) (b : Nat) (chunk : List UInt8)
    (hchunk : chunk.length ≤ blockSize) (e : Error) :
    (chunkWrite srv verify s page b chunk hchunk).2.2 ≠ .error e := by
  unfold chunkWrite
  generalize hr : (if chunk.length < blockSize then srv.read s b 1 page else (s, page, 0)) = r
  have hread : ¬ r.2.2 < 0 := by
    rw [← hr]
    split_ifs
    · exact Int.not_lt.mpr (hserves.1 ..)
    · exact Int.lt_irrefl 0
  dsimp only
  rw [if_neg hread, if_neg (Int.not_lt.mpr (hserves.2 ..))]
  split_ifs with hverify hneg hecho
  · exact nofun
  · exact absurd hneg (Int.not_lt.mpr (hserves.1 ..))
  all_goals exact nofun

theorem writeAtUnbatched_serves (verify : Bool) (inj : Injector) (s : τ) (page : BlkPage) (b : Nat)
    (buffer : List UInt8) (e : Error) :
    (writeAtUnbatched srv verify inj s page b buffer).2.2.2 ≠ .error e := by
  fun_induction writeAtUnbatched srv verify inj s page b buffer with
  | case1 => exact nofun
  | case2 _ _ _ _ _ _ hchunk => exact tornWrite_serves hserves _ _ _ _ hchunk _ _
  | case3 _ _ _ _ _ _ _ _ _ _ _ ih => exact ih
  | case4 _ _ _ _ _ _ hchunk => exact chunkWrite_serves hserves _ _ _ _ _ hchunk _

/-- With such a server and the injector not armed a write comes to its end. -/
theorem ipcWriteAt_serves (verify : Bool) {inj : Injector} (harmed : inj.armed = 0)
    (s : τ × BlkPage) (block : Nat) (data : List UInt8) :
    (ipcWriteAt srv verify inj s block data).2.2.2 = .ok := by
  have hlives := (stores_ipcWriteAt srv verify inj s block data).2
  have hserved : ∀ e, (ipcWriteAt srv verify inj s block data).2.2.2 ≠ .error e := by
    intro e
    unfold ipcWriteAt
    split_ifs
    · exact writeAtUnbatched_serves hserves _ _ _ _ _ _ _
    · dsimp only
      rw [ipcDiskWrite_serves hserves]
      exact nofun
  rcases hr : (ipcWriteAt srv verify inj s block data).2.2.2 with _ | e | _
  · rfl
  · exact absurd hr (hserved e)
  · exact absurd harmed (hlives hr)

end Serves

end IpcDisk

/-- A server whose state is its platter and that refuses nothing. -/
def platter : BlkServer (Nat → UInt8) where
  bytes m := m
  read m b count page :=
    (m, page.toPage (window m (b * blockSize) (min count transferBlocks * blockSize)) (by
      rw [length_window]
      exact Nat.mul_le_mul_right _ (Nat.min_le_right ..)), 0)
  write m b count page := (overlay m (b * blockSize) (page.val.take (count * blockSize)), 0)
  bytes_read _ _ _ _ := rfl
  read_ok m b count page h _ := by
    dsimp only [BlkPage.toPage]
    rw [Nat.min_eq_left h]
    exact take_left' (length_window ..)
  write_ok _ _ _ _ _ _ := rfl
  write_error _ _ _ _ h := absurd h (Int.lt_irrefl 0)

theorem platter_serves : platter.Serves :=
  ⟨fun _ _ _ _ => Int.le_refl 0, fun _ _ _ _ => Int.le_refl 0⟩

/-- The region as it is mapped. -/
def BlkPage.zero : BlkPage := ⟨replicate (transferBlocks * blockSize) 0, length_replicate⟩

end Nife
