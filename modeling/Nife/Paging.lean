/-
Page tables (`crates/paging`).  Every format has tables of 512 entries in 4 KiB frames and maps
pages of 4 KiB, or blocks of 2 MiB and 1 GiB as leaves one and two levels up; they differ in the
number of levels and in the bits.  The walk is written once over what a format supplies: it
descends from the root, creates the tables that are missing, and writes a leaf.

Addresses and entries are 64-bit words.  The memory that holds the tables is read and written
by physical address, one table a frame, so the transform from physical addresses to pointers is
not modelled; an index has 9 bits, so a table is a function of a natural number.  What the frame
allocator will answer is a list, one answer a call.
-/
import Nife.Lib.RadixHeap

namespace Nife.Paging

/-- A word of a table. -/
abbrev Word := BitVec 64

def pageSize : Word := 4096#64

/-- `is_multiple_of`. -/
def isMultipleOf (a b : Word) : Bool := a % b = 0#64

/-! ### Sizes and access flags -/

/-- The sizes of a mapping. -/
inductive PageSize
  | size4KiB | size2MiB | size1GiB
  deriving DecidableEq, Repr

def PageSize.levelsAboveBottom : PageSize → Nat
  | .size4KiB => 0
  | .size2MiB => 1
  | .size1GiB => 2

def PageSize.bytes (s : PageSize) : Word := pageSize <<< (9 * s.levelsAboveBottom)

def capWrite : Word := 1#64 <<< 0
def capUser : Word := 1#64 <<< 1
def capUserExec : Word := 1#64 <<< 2
def capKernelExec : Word := 1#64 <<< 3
def capGlobal : Word := 1#64 <<< 4
def capDevice : Word := 1#64 <<< 5

/-- What access a mapping grants, whatever the format. -/
structure Flags where
  bits : Word
  deriving DecidableEq, Repr

namespace Flags

def kernelCode : Flags := ⟨capKernelExec ||| capGlobal⟩
def kernelRodata : Flags := ⟨capGlobal⟩
def kernelData : Flags := ⟨capWrite ||| capGlobal⟩
def device : Flags := ⟨capWrite ||| capGlobal ||| capDevice⟩
def userCode : Flags := ⟨capUser ||| capUserExec⟩
def userRodata : Flags := ⟨capUser⟩
def userData : Flags := ⟨capUser ||| capWrite⟩
def userDevice : Flags := ⟨capUser ||| capWrite ||| capDevice⟩

/-- The public constructors. -/
def constructors : List Flags :=
  [kernelCode, kernelRodata, kernelData, device, userCode, userRodata, userData, userDevice]

def isWritable (f : Flags) : Bool := f.bits &&& capWrite ≠ 0
def isKernelExecutable (f : Flags) : Bool := f.bits &&& capKernelExec ≠ 0
def isUserExecutable (f : Flags) : Bool := f.bits &&& capUserExec ≠ 0
def isUserAccessible (f : Flags) : Bool := f.bits &&& capUser ≠ 0
def isDevice (f : Flags) : Bool := f.bits &&& capDevice ≠ 0
def isGlobal (f : Flags) : Bool := f.bits &&& capGlobal ≠ 0

end Flags

/-- `cap` where a condition holds: one `caps |= cap` of a decoder, or `bits |= bit` of an
encoder. -/
def setIf (c : Bool) (cap : Word) : Word := if c then cap else 0#64

/-! ### What a format supplies -/

/-- The halves of the address space. -/
inductive Half
  | low | high
  deriving DecidableEq, Repr

/-- What an architecture says of its tables. -/
structure PageFormat where
  (levels splitShift : Nat)
  isPresent : Word → Bool
  (entryPa tableEntry : Word → Word)
  leafEntry : Word → Flags → Word
  leafFlags : Word → Flags
  blockEntry : Word → Flags → PageSize → Option Word
  isBlock : Word → Bool

namespace PageFormat

/-- The 9 bits of `va` that select an entry at `level`, 0 being the top. -/
def index (F : PageFormat) (va : Word) (level : Nat) : Nat :=
  ((va >>> (9 * (F.levels - 1 - level) + 12)) &&& 0x1ff#64).toNat

def isInHalf (F : PageFormat) (half : Half) (va : Word) : Bool :=
  match half with
  | .low => va >>> F.splitShift = 0#64
  | .high => va >>> F.splitShift = BitVec.allOnes 64 >>> F.splitShift

end PageFormat

/-! ### aarch64 -/

namespace Aarch64

def valid : Word := 1#64 <<< 0
def tableOrPage : Word := 1#64 <<< 1
def af : Word := 1#64 <<< 10
def shInner : Word := 0b11#64 <<< 8
def attrIndex (slot : Word) : Word := (slot &&& 0b111#64) <<< 2
def apRwEl1 : Word := 0b00#64 <<< 6
def apRwEl0 : Word := 0b01#64 <<< 6
def apRoEl1 : Word := 0b10#64 <<< 6
def apRoEl0 : Word := 0b11#64 <<< 6
def apRo : Word := 1#64 <<< 7
def apUser : Word := 1#64 <<< 6
def ng : Word := 1#64 <<< 11
def pxn : Word := 1#64 <<< 53
def uxn : Word := 1#64 <<< 54
def addrMask : Word := 0x0000fffffffff000#64
def mairDevice : Word := 0#64
def mairNormal : Word := 1#64

def attrs (flags : Flags) : Word :=
  af ||| setIf (!flags.isDevice) shInner
    ||| attrIndex (if flags.isDevice then mairDevice else mairNormal)
    ||| (match flags.isUserAccessible, flags.isWritable with
      | true, true => apRwEl0
      | true, false => apRoEl0
      | false, true => apRwEl1
      | false, false => apRoEl1)
    ||| setIf (!flags.isKernelExecutable) pxn
    ||| setIf (!flags.isUserExecutable) uxn
    ||| setIf (!flags.isGlobal) ng

def leafEntry (pa : Word) (flags : Flags) : Word :=
  (pa &&& addrMask) ||| attrs flags ||| tableOrPage ||| valid

def leafFlags (entry : Word) : Flags :=
  ⟨setIf (entry &&& apRo = 0#64) capWrite
    ||| setIf (entry &&& apUser ≠ 0#64) capUser
    ||| setIf (entry &&& uxn = 0#64) capUserExec
    ||| setIf (entry &&& pxn = 0#64) capKernelExec
    ||| setIf (entry &&& ng = 0#64) capGlobal
    ||| setIf ((entry >>> 2) &&& 0b111#64 = mairDevice) capDevice⟩

def format : PageFormat where
  levels := 4
  splitShift := 48
  isPresent entry := entry &&& valid ≠ 0#64
  entryPa entry := entry &&& addrMask
  tableEntry pa := (pa &&& addrMask) ||| tableOrPage ||| valid
  leafEntry := leafEntry
  leafFlags := leafFlags
  blockEntry pa flags size :=
    match size with
    | .size4KiB => some (leafEntry pa flags)
    | .size2MiB | .size1GiB =>
      some ((pa &&& addrMask &&& ~~~(size.bytes - 1)) ||| attrs flags ||| valid)
  isBlock entry := entry &&& tableOrPage = 0#64

end Aarch64

/-! ### RISC-V Sv39 -/

namespace Sv39

def v : Word := 1#64 <<< 0
def r : Word := 1#64 <<< 1
def w : Word := 1#64 <<< 2
def x : Word := 1#64 <<< 3
def u : Word := 1#64 <<< 4
def g : Word := 1#64 <<< 5
def a : Word := 1#64 <<< 6
def d : Word := 1#64 <<< 7
def swDevice : Word := 1#64 <<< 8
def ppnShift : Nat := 10
def ppnMask : Word := (1#64 <<< 44) - 1

def attrs (flags : Flags) : Word :=
  r ||| a ||| setIf flags.isWritable (w ||| d)
    ||| setIf (flags.isUserExecutable || flags.isKernelExecutable) x
    ||| setIf flags.isUserAccessible u
    ||| setIf flags.isGlobal g
    ||| setIf flags.isDevice swDevice

def leafEntry (pa : Word) (flags : Flags) : Word :=
  (((pa >>> 12) &&& ppnMask) <<< ppnShift) ||| v ||| attrs flags

def leafFlags (entry : Word) : Flags :=
  ⟨setIf (entry &&& w ≠ 0#64) capWrite
    ||| setIf (entry &&& u ≠ 0#64) capUser
    ||| setIf (entry &&& x ≠ 0#64) (if entry &&& u ≠ 0#64 then capUserExec else capKernelExec)
    ||| setIf (entry &&& g ≠ 0#64) capGlobal
    ||| setIf (entry &&& swDevice ≠ 0#64) capDevice⟩

def format : PageFormat where
  levels := 3
  splitShift := 38
  isPresent entry := entry &&& v ≠ 0#64
  entryPa entry := ((entry >>> ppnShift) &&& ppnMask) <<< 12
  tableEntry pa := (((pa >>> 12) &&& ppnMask) <<< ppnShift) ||| v
  leafEntry := leafEntry
  leafFlags := leafFlags
  blockEntry pa flags size := some (leafEntry (pa &&& ~~~(size.bytes - 1)) flags)
  isBlock entry := entry &&& (r ||| w ||| x) ≠ 0#64

end Sv39

/-! ### x86-64 -/

namespace Ia32e

def p : Word := 1#64 <<< 0
def rw : Word := 1#64 <<< 1
def us : Word := 1#64 <<< 2
def pwt : Word := 1#64 <<< 3
def pcd : Word := 1#64 <<< 4
def a : Word := 1#64 <<< 5
def d : Word := 1#64 <<< 6
def ps : Word := 1#64 <<< 7
def g : Word := 1#64 <<< 8
def swKernelExec : Word := 1#64 <<< 9
def swDevice : Word := 1#64 <<< 10
def xd : Word := 1#64 <<< 63
def addrMask : Word := 0x000ffffffffff000#64

def attrs (flags : Flags) : Word :=
  a ||| setIf flags.isWritable (rw ||| d)
    ||| setIf flags.isUserAccessible us
    ||| setIf flags.isGlobal g
    ||| setIf flags.isDevice (pcd ||| pwt ||| swDevice)
    ||| (if flags.isKernelExecutable then swKernelExec
      else if !flags.isUserExecutable then xd else 0#64)

def leafEntry (pa : Word) (flags : Flags) : Word := (pa &&& addrMask) ||| p ||| attrs flags

def leafFlags (entry : Word) : Flags :=
  ⟨setIf (entry &&& rw ≠ 0#64) capWrite
    ||| setIf (entry &&& us ≠ 0#64) capUser
    ||| setIf (entry &&& xd = 0#64)
      (if entry &&& us ≠ 0#64 then capUserExec
        else if entry &&& swKernelExec ≠ 0#64 then capKernelExec else 0#64)
    ||| setIf (entry &&& g ≠ 0#64) capGlobal
    ||| setIf (entry &&& swDevice ≠ 0#64) capDevice⟩

def format : PageFormat where
  levels := 4
  splitShift := 47
  isPresent entry := entry &&& p ≠ 0#64
  entryPa entry := entry &&& addrMask
  tableEntry pa := (pa &&& addrMask) ||| p ||| rw ||| us
  leafEntry := leafEntry
  leafFlags := leafFlags
  blockEntry pa flags size :=
    match size with
    | .size4KiB => some (leafEntry pa flags)
    | .size2MiB | .size1GiB =>
      some ((pa &&& addrMask &&& ~~~(size.bytes - 1)) ||| p ||| ps ||| attrs flags)
  isBlock entry := entry &&& ps ≠ 0#64

end Ia32e

/-! ### The second-level tables of an Intel IOMMU -/

namespace Vtd

def r : Word := 1#64 <<< 0
def w : Word := 1#64 <<< 1
def addrMask : Word := 0x000ffffffffff000#64

def leafEntry (pa : Word) (flags : Flags) : Word :=
  (pa &&& addrMask) ||| (r ||| setIf flags.isWritable w)

def format : PageFormat where
  levels := 4
  splitShift := 47
  isPresent entry := entry &&& (r ||| w) ≠ 0#64
  entryPa entry := entry &&& addrMask
  tableEntry pa := (pa &&& addrMask) ||| r ||| w
  leafEntry := leafEntry
  leafFlags entry := ⟨setIf (entry &&& w ≠ 0#64) capWrite⟩
  blockEntry pa flags size :=
    match size with
    | .size4KiB => some (leafEntry pa flags)
    | .size2MiB | .size1GiB => none
  isBlock entry := entry &&& (1#64 <<< 7) ≠ 0#64

end Vtd

/-! ### The walk -/

/-- Why a mapping is refused. -/
inductive MapError
  | outOfPageFrames | misaligned | alreadyMapped | wrongHalf | notMapped | insideBlock
  | unsupportedSize | badRegion
  deriving DecidableEq, Repr

/-- What a caller of `unmap` owes: the invalidation of one address. -/
structure TlbFlush where
  va : Word
  deriving DecidableEq, Repr

/-- A table and what it is edited with. -/
structure Mapper where
  format : PageFormat
  root : Word
  half : Half
  /-- What `alloc_page_frame` will answer, call by call; after that it has none. -/
  frames : List (Option Word)
  /-- The entries of the table at each physical address. -/
  memory : Word → Nat → Word

namespace Mapper

def allocPageFrame (m : Mapper) : Option Word × Mapper :=
  match m.frames with
  | [] => (none, m)
  | frame :: frames => (frame, { m with frames := frames })

def zeroFrame (m : Mapper) (frame : Word) : Mapper :=
  { m with memory := Function.update m.memory frame fun _ => 0#64 }

def setEntry (m : Mapper) (table : Word) (i : Nat) (entry : Word) : Mapper :=
  { m with memory := RadixHeap.write m.memory table i entry }

/-- The loop of `map` and `map_block`: descend `count` levels from `level`, creating the tables
that are missing. -/
def descend (va : Word) : Nat → Nat → Word → Mapper → Except MapError Word × Mapper
  | 0, _, tablePa, m => (.ok tablePa, m)
  | count + 1, level, tablePa, m =>
    let i := m.format.index va level
    let entry := m.memory tablePa i
    if !m.format.isPresent entry then
      match m.allocPageFrame with
      | (none, m) => (.error .outOfPageFrames, m)
      | (some new, m) =>
        let m := (m.zeroFrame new).setEntry tablePa i (m.format.tableEntry new)
        descend va count (level + 1) (m.format.entryPa (m.memory tablePa i)) m
    else if m.format.isBlock entry then (.error .alreadyMapped, m)
    else descend va count (level + 1) (m.format.entryPa entry) m

section

variable (m : Mapper)

/-- Descend to `leafLevel` and write `leaf` there, if the slot is free. -/
def install (va : Word) (leafLevel : Nat) (leaf : Word) : Except MapError Unit × Mapper :=
  match descend va leafLevel 0 m.root m with
  | (.error e, m) => (.error e, m)
  | (.ok tablePa, m) =>
    let i := m.format.index va leafLevel
    if m.format.isPresent (m.memory tablePa i) then (.error .alreadyMapped, m)
    else (.ok (), m.setEntry tablePa i leaf)

def map (va pa : Word) (flags : Flags) : Except MapError Unit × Mapper :=
  if !m.format.isInHalf m.half va then (.error .wrongHalf, m)
  else if !isMultipleOf va pageSize || !isMultipleOf pa pageSize then (.error .misaligned, m)
  else m.install va (m.format.levels - 1) (m.format.leafEntry pa flags)

def mapBlock (va pa : Word) (size : PageSize) (flags : Flags) : Except MapError Unit × Mapper :=
  if size = .size4KiB then m.map va pa flags
  else if !m.format.isInHalf m.half va then (.error .wrongHalf, m)
  else if !isMultipleOf va size.bytes || !isMultipleOf pa size.bytes then (.error .misaligned, m)
  else
    match m.format.blockEntry pa flags size with
    | none => (.error .unsupportedSize, m)
    | some leaf => m.install va (m.format.levels - 1 - size.levelsAboveBottom) leaf

/-- The loop of `unmap`: descend without creating anything. -/
def unmapWalk (m : Mapper) (va : Word) : Nat → Nat → Word → Except MapError Word
  | 0, _, tablePa => .ok tablePa
  | count + 1, level, tablePa =>
    let entry := m.memory tablePa (m.format.index va level)
    if !m.format.isPresent entry then .error .notMapped
    else if m.format.isBlock entry then .error .insideBlock
    else m.unmapWalk va count (level + 1) (m.format.entryPa entry)

def unmap (va : Word) : Except MapError (Word × TlbFlush) × Mapper :=
  if !m.format.isInHalf m.half va then (.error .wrongHalf, m)
  else if !isMultipleOf va pageSize then (.error .misaligned, m)
  else
    match m.unmapWalk va (m.format.levels - 1) 0 m.root with
    | .error e => (.error e, m)
    | .ok tablePa =>
      let i := m.format.index va (m.format.levels - 1)
      let entry := m.memory tablePa i
      if !m.format.isPresent entry then (.error .notMapped, m)
      else (.ok (m.format.entryPa entry, ⟨va⟩), m.setEntry tablePa i 0#64)

/-- The loop of `translate` and the leaf below it. -/
def translateWalk (m : Mapper) (va : Word) : Nat → Nat → Word → Option (Word × Flags)
  | 0, level, tablePa =>
    let entry := m.memory tablePa (m.format.index va level)
    if !m.format.isPresent entry then none
    else some (m.format.entryPa entry + va % pageSize, m.format.leafFlags entry)
  | count + 1, level, tablePa =>
    let entry := m.memory tablePa (m.format.index va level)
    if !m.format.isPresent entry then none
    else if m.format.isBlock entry then
      let span := pageSize <<< (9 * (m.format.levels - 1 - level))
      let base := m.format.entryPa entry &&& ~~~(span - 1)
      some (base + (va &&& (span - 1)), m.format.leafFlags entry)
    else m.translateWalk va count (level + 1) (m.format.entryPa entry)

/-- What the tables make of an address. -/
def translate (va : Word) : Option (Word × Flags) :=
  if !m.format.isInHalf m.half va then none
  else m.translateWalk va (m.format.levels - 1) 0 m.root

end

end Mapper

end Nife.Paging
