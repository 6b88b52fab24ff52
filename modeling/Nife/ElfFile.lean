/-
The front end of the ELF loader: a file is checked as a whole before a page of it is mapped.

`parse` reads the header, then `validate` every program header and every pair of them.  What it
accepts is stated on the fields of the file (`Accepted`), and `parse_exact` says that it accepts
exactly that and panics on nothing.  Two loadable segments may not touch a common page; beyond that
an empty segment at a page boundary may not lie inside another (`Accepted.outside`): it touches no
page and is refused all the same (`empty_segment_refused`).
-/
import Nife.Lib.Slices

namespace Nife.ElfFile

open Bytes Slices List Settles

/-- Why a file is refused. -/
inductive Error
  | tooSmall | badMagic | not64Bit | notLittleEndian | badVersion | wrongMachine | needsRelocation
  | notExecutable | badProgramHeaders | tooManyProgramHeaders | segmentTruncated
  | segmentOutOfBounds | addressOverflow | writableAndExecutable | segmentUnreachable
  | segmentsOverlap | entryNotExecutable
  deriving DecidableEq, Repr

/-- One loadable segment: what to map, where, and how. -/
structure Segment where
  (vaddr paddr memsz flags : Nat)
  data : Bytes
  deriving DecidableEq, Repr

namespace Segment

section

variable (s : Segment)

def isReadable : Bool := s.flags &&& 4 != 0

def isWritable : Bool := s.flags &&& 2 != 0

def isExecutable : Bool := s.flags &&& 1 != 0

/-- The range of pages the segment touches, with saturating 64-bit arithmetic. -/
def pageRange (pageSize : Nat) : Nat × Nat :=
  (s.vaddr / pageSize * pageSize,
    min (2 ^ 64 - 1) ((min (2 ^ 64 - 1) (s.vaddr + s.memsz) + (pageSize - 1)) / pageSize * pageSize))

end

end Segment

/-- A file that was accepted. -/
structure Elf where
  bytes : Bytes
  (entry phoff phnum phentsize : Nat)
  deriving DecidableEq, Repr

/-! ### Parsing -/

/-- The bounds of a segment: where its bytes end in the file. -/
def checkSegmentBounds (fileLen offset filesz vaddr memsz : Nat) : Run Error Nat := do
  require (filesz ≤ memsz) .segmentTruncated
  require (offset + filesz < 2 ^ 64) .segmentOutOfBounds
  require (offset + filesz ≤ fileLen) .segmentOutOfBounds
  require (vaddr + memsz < 2 ^ 64) .addressOverflow
  .ok (offset + filesz)

section

variable (elf : Elf)

/-- The program header at `i`, if it is a loadable segment. -/
def segmentAt (i : Nat) : Run Error (Option Segment) := do
  let off ← sum elf.phoff (i * elf.phentsize)
  let stop ← sum off 56
  let ph ← slice elf.bytes off stop
  let kind ← word 4 ph 0
  if kind ≠ 1 then .ok none
  else do
    let flags ← word 4 ph 4
    let offset ← word 8 ph 8
    let vaddr ← word 8 ph 16
    let paddr ← word 8 ph 24
    let filesz ← word 8 ph 32
    let memsz ← word 8 ph 40
    let stop ← checkSegmentBounds elf.bytes.length offset filesz vaddr memsz
    let data ← slice elf.bytes offset stop
    .ok (some ⟨vaddr, paddr, memsz, flags, data⟩)

def overlaps (a b : Segment) : Bool :=
  decide ((a.pageRange 4096).1 < (b.pageRange 4096).2) &&
    decide ((b.pageRange 4096).1 < (a.pageRange 4096).2)

/-- Check a segment against the program header at `j`. -/
def checkAgainst (seg : Segment) (_ : Unit) (j : Nat) : Run Error Unit := do
  match ← segmentAt elf j with
  | none => .ok ()
  | some other => require (overlaps seg other = false) .segmentsOverlap

def enters (seg : Segment) : Run Error Bool :=
  if seg.isExecutable = true ∧ seg.vaddr ≤ elf.entry then do
    let stop ← sum seg.vaddr seg.memsz
    .ok (decide (elf.entry < stop))
  else .ok false

/-- Check the program header at `i`, and note whether execution begins there. -/
def checkSegment (entryOk : Bool) (i : Nat) : Run Error Bool := do
  match ← segmentAt elf i with
  | none => .ok entryOk
  | some seg =>
      require (¬(seg.isWritable = true ∧ seg.isExecutable = true)) .writableAndExecutable
      require (seg.isReadable = true ∨ seg.isExecutable = true) .segmentUnreachable
      let entered ← enters elf seg
      (List.range i).foldlM (checkAgainst elf seg) ()
      .ok (entryOk || entered)

/-- Every check, before the caller maps a single page. -/
def validate : Run Error Unit := do
  let entryOk ← (List.range elf.phnum).foldlM (checkSegment elf) false
  require (entryOk = true) .entryNotExecutable

def parse (machine : Nat) (bytes : Bytes) : Run Error Elf := do
  require (64 ≤ bytes.length) .tooSmall
  let magic ← slice bytes 0 4
  require (magic = [0x7f, 0x45, 0x4c, 0x46]) .badMagic
  let fileClass ← word 1 bytes 4
  require (fileClass = 2) .not64Bit
  let encoding ← word 1 bytes 5
  require (encoding = 1) .notLittleEndian
  let version ← word 1 bytes 6
  require (version = 1) .badVersion
  let fileType ← word 2 bytes 16
  let fileMachine ← word 2 bytes 18
  require (fileMachine = machine) .wrongMachine
  require (fileType ≠ 3) .needsRelocation
  require (fileType = 2) .notExecutable
  let entry ← word 8 bytes 24
  let phoff ← word 8 bytes 32
  let phentsize ← word 2 bytes 54
  let phnum ← word 2 bytes 56
  require (56 ≤ phentsize) .badProgramHeaders
  require (phnum ≤ 64) .tooManyProgramHeaders
  require (phnum * phentsize < 2 ^ 64) .badProgramHeaders
  require (phoff + phnum * phentsize < 2 ^ 64) .badProgramHeaders
  require (phoff + phnum * phentsize ≤ bytes.length) .badProgramHeaders
  validate ⟨bytes, entry, phoff, phnum, phentsize⟩
  .ok ⟨bytes, entry, phoff, phnum, phentsize⟩

/-- One turn of the iterator over the segments: a program header in error is passed over. -/
def keepSegment (segs : List Segment) (i : Nat) : Run Error (List Segment) :=
  match segmentAt elf i with
  | .ok (some seg) => .ok (segs ++ [seg])
  | .ok none => .ok segs
  | .error (.refused _) => .ok segs
  | .error .panic => .error .panic

def segments : Run Error (List Segment) :=
  (List.range elf.phnum).foldlM (keepSegment elf) []

end

/-! ### What is accepted -/

/-- A program header. -/
structure ProgramHeader where
  (kind flags offset vaddr paddr filesz memsz : Nat)
  deriving DecidableEq

def Elf.header (elf : Elf) (i : Nat) : ProgramHeader :=
  let off := elf.phoff + i * elf.phentsize
  ⟨le (part elf.bytes off 4), le (part elf.bytes (off + 4) 4), le (part elf.bytes (off + 8) 8),
    le (part elf.bytes (off + 16) 8), le (part elf.bytes (off + 24) 8),
    le (part elf.bytes (off + 32) 8), le (part elf.bytes (off + 40) 8)⟩

def headerOf (bytes : Bytes) : Elf :=
  ⟨bytes, le (part bytes 24 8), le (part bytes 32 8), le (part bytes 56 2), le (part bytes 54 2)⟩

/-- The `n` bytes from `start` on are in the file, whose offsets are 64-bit numbers. -/
def InFile (bytes : Bytes) (start n : Nat) : Prop :=
  start + n < 2 ^ 64 ∧ start + n ≤ bytes.length

namespace ProgramHeader

def IsLoad (h : ProgramHeader) : Prop := h.kind = 1

instance (h : ProgramHeader) : Decidable h.IsLoad := inferInstanceAs (Decidable (h.kind = 1))

/-- The segment of a program header, with its bytes of the file. -/
def segment (h : ProgramHeader) (bytes : Bytes) : Segment :=
  ⟨h.vaddr, h.paddr, h.memsz, h.flags, part bytes h.offset h.filesz⟩

/-- A program header that can be read as a segment. -/
structure Bounded (h : ProgramHeader) (bytes : Bytes) : Prop where
  truncated : h.filesz ≤ h.memsz
  inFile : InFile bytes h.offset h.filesz
  address : h.vaddr + h.memsz < 2 ^ 64

/-- Not both writable and executable, and of some use. -/
structure Permitted (h : ProgramHeader) : Prop where
  exclusive : ¬(h.flags &&& 2 ≠ 0 ∧ h.flags &&& 1 ≠ 0)
  reachable : h.flags &&& 4 ≠ 0 ∨ h.flags &&& 1 ≠ 0

/-- Execution may begin at an address of the segment. -/
structure Enters (h : ProgramHeader) (entry : Nat) : Prop where
  executable : h.flags &&& 1 ≠ 0
  from_ : h.vaddr ≤ entry
  below : entry < h.vaddr + h.memsz

section

variable (h : ProgramHeader)

/-- The first page of the segment. -/
def firstPage : Nat := h.vaddr / 4096

def endPage : Nat := (h.vaddr + h.memsz + 4095) / 4096

/-- The segment touches a page. -/
def Touches (page : Nat) : Prop := h.firstPage ≤ page ∧ page < h.endPage

end

/-- The segment touches no page and stands between two pages of the other. -/
def Inside (h other : ProgramHeader) : Prop :=
  h.firstPage = h.endPage ∧ other.firstPage < h.firstPage ∧ h.firstPage < other.endPage

/-- Two segments that may stand in one file. -/
structure Apart (h other : ProgramHeader) : Prop where
  pages : ∀ page, ¬(h.Touches page ∧ other.Touches page)
  outside : ¬h.Inside other ∧ ¬other.Inside h

end ProgramHeader

/-- The table of program headers is in the file. -/
structure Elf.Table (elf : Elf) : Prop where
  size : 56 ≤ elf.phentsize
  few : elf.phnum ≤ 64
  inFile : InFile elf.bytes elf.phoff (elf.phnum * elf.phentsize)

/-- A file that can be loaded, on its own fields: the header, the table of program headers, each of
those to be loaded, where execution begins, and no page wanted by two of them. -/
structure WellFormed (machine : Nat) (bytes : Bytes) : Prop where
  size : 64 ≤ bytes.length
  magic : part bytes 0 4 = [0x7f, 0x45, 0x4c, 0x46]
  is64Bit : le (part bytes 4 1) = 2
  littleEndian : le (part bytes 5 1) = 1
  version : le (part bytes 6 1) = 1
  machine : le (part bytes 18 2) = machine
  executable : le (part bytes 16 2) = 2
  table : (headerOf bytes).Table
  bounded : ∀ i < (headerOf bytes).phnum, ((headerOf bytes).header i).IsLoad →
    ((headerOf bytes).header i).Bounded bytes ∧ ((headerOf bytes).header i).Permitted
  entry : ∃ i < (headerOf bytes).phnum, ((headerOf bytes).header i).IsLoad ∧
    ((headerOf bytes).header i).Enters (headerOf bytes).entry
  pages : ∀ i < (headerOf bytes).phnum, ∀ j < i, ((headerOf bytes).header i).IsLoad →
    ((headerOf bytes).header j).IsLoad → ∀ page,
    ¬(((headerOf bytes).header i).Touches page ∧ ((headerOf bytes).header j).Touches page)

/-- **A file that is accepted**: beyond that, no segment without a page stands inside another. -/
structure Accepted (machine : Nat) (bytes : Bytes) : Prop extends WellFormed machine bytes where
  outside : ∀ i < (headerOf bytes).phnum, ∀ j < i, ((headerOf bytes).header i).IsLoad →
    ((headerOf bytes).header j).IsLoad →
    ¬((headerOf bytes).header i).Inside ((headerOf bytes).header j) ∧
      ¬((headerOf bytes).header j).Inside ((headerOf bytes).header i)

/-! ### One program header -/

variable {elf : Elf} {bytes : Bytes} {h g : ProgramHeader} {i j : Nat}

theorem checkSegmentBounds_settles (h : ProgramHeader) (bytes : Bytes) :
    Settles (checkSegmentBounds bytes.length h.offset h.filesz h.vaddr h.memsz) (h.Bounded bytes)
      (h.offset + h.filesz) := by
  refine congr (.require fun _ => .require fun _ => .require fun _ => .require fun _ =>
    .of_ok rfl) ⟨?_, ?_⟩
  · rintro ⟨htrunc, h64, hlen, haddr, -⟩
    exact ⟨htrunc, ⟨h64, hlen⟩, haddr⟩
  · rintro ⟨htrunc, ⟨h64, hlen⟩, haddr⟩
    exact ⟨htrunc, h64, hlen, haddr, trivial⟩

section

variable (ht : elf.Table) (hi : i < elf.phnum)
include ht hi

theorem Elf.Table.inEntry : elf.phoff + i * elf.phentsize + 56 < 2 ^ 64 ∧
      elf.phoff + i * elf.phentsize + 56 ≤ elf.bytes.length := by
  obtain ⟨h64, hlen⟩ := ht.inFile
  have hnext : (i + 1) * elf.phentsize ≤ elf.phnum * elf.phentsize := Nat.mul_le_mul_right _ hi
  rw [Nat.add_mul] at hnext
  have := ht.size
  omega

theorem slice_entry :
    (slice elf.bytes (elf.phoff + i * elf.phentsize) (elf.phoff + i * elf.phentsize + 56) :
      Run Error Bytes) = .ok (part elf.bytes (elf.phoff + i * elf.phentsize) 56) := by
  rw [slice_ok (by omega) (ht.inEntry hi).2, Nat.add_sub_cancel_left]

theorem segmentAt_skip (hskip : ¬(elf.header i).IsLoad) : segmentAt elf i = .ok none := by
  obtain ⟨h64, hlen⟩ := ht.inEntry hi
  have hread : Settles (segmentAt elf i) True none :=
    .read (sum_ok (by omega)) <| .read (sum_ok h64) <| .read (slice_entry ht hi) <|
      .read (word_part hlen (by decide)) <| .of_ok (if_pos hskip)
  exact hread.ok trivial

theorem segmentAt_load (hload : (elf.header i).IsLoad) :
    Settles (segmentAt elf i) ((elf.header i).Bounded elf.bytes)
      (some ((elf.header i).segment elf.bytes)) := by
  obtain ⟨h64, hlen⟩ := ht.inEntry hi
  refine .read (sum_ok (by omega)) <| .read (sum_ok h64) <| .read (slice_entry ht hi) <|
    .read (word_part hlen (by decide)) <| .of_eq (if_neg (not_not.mpr hload)) ?_
  refine .read (word_part hlen (by decide)) <| .read (word_part hlen (by decide)) <|
    .read (word_part hlen (by decide)) <| .read (word_part hlen (by decide)) <|
    .read (word_part hlen (by decide)) <| .read (word_part hlen (by decide)) ?_
  refine ((checkSegmentBounds_settles (elf.header i) elf.bytes).bind fun hb =>
    .read (slice_ok (Nat.le_add_right _ _) hb.inFile.2) (.of_ok ?_)).congr
    ⟨And.left, fun hb => ⟨hb, trivial⟩⟩
  rw [Nat.add_sub_cancel_left]
  rfl

end

/-! ### Two program headers -/

theorem below_pageRange (hb : h.Bounded bytes) (page : Nat) :
    page * 4096 < ((h.segment bytes).pageRange 4096).2 ↔ page < h.endPage := by
  have haddr := hb.address
  simp only [Segment.pageRange, ProgramHeader.segment, ProgramHeader.endPage]
  omega

theorem overlaps_eq_false (hb : h.Bounded bytes) (gb : g.Bounded bytes) :
    overlaps (h.segment bytes) (g.segment bytes) = false ↔ h.Apart g := by
  have htest : overlaps (h.segment bytes) (g.segment bytes) = true ↔
      h.firstPage < g.endPage ∧ g.firstPage < h.endPage := by
    rw [overlaps, Bool.and_eq_true, decide_eq_true_eq, decide_eq_true_eq]
    exact and_congr (below_pageRange gb _) (below_pageRange hb _)
  have hh : h.firstPage ≤ h.endPage := by rw [ProgramHeader.firstPage, ProgramHeader.endPage]; omega
  have hg : g.firstPage ≤ g.endPage := by rw [ProgramHeader.firstPage, ProgramHeader.endPage]; omega
  rw [← Bool.not_eq_true, htest]
  constructor
  · intro hno
    refine ⟨?_, ?_, ?_⟩
    · rintro page ⟨⟨_, _⟩, _, _⟩
      omega
    all_goals
      rintro ⟨_, _, _⟩
      omega
  · rintro ⟨hpages, hin, hin'⟩ ⟨hlt, hlt'⟩
    -- the later of the two first pages is common to both, unless its segment has no page at all
    have hcommon := hpages (max h.firstPage g.firstPage)
    simp only [ProgramHeader.Touches, ProgramHeader.Inside] at hcommon hin hin'
    omega

/-- What is asked of a program header beside another. -/
def Beside (elf : Elf) (i j : Nat) : Prop :=
  (elf.header j).IsLoad → (elf.header j).Bounded elf.bytes ∧ (elf.header i).Apart (elf.header j)

theorem checkAgainst_settles (ht : elf.Table) (hb : (elf.header i).Bounded elf.bytes)
    (hj : j < elf.phnum) (s : Unit) :
    Settles (checkAgainst elf ((elf.header i).segment elf.bytes) s j) (Beside elf i j) () := by
  by_cases hload : (elf.header j).IsLoad
  · refine ((segmentAt_load ht hj hload).bind fun gb => .require_only).congr ⟨?_, ?_⟩
    · exact fun hclear _ => ⟨hclear.1, (overlaps_eq_false hb hclear.1).mp hclear.2⟩
    · exact fun hclear => ⟨(hclear hload).1,
        (overlaps_eq_false hb (hclear hload).1).mpr (hclear hload).2⟩
  · refine congr (.read (segmentAt_skip ht hj hload) (.of_ok rfl)) (iff_of_true trivial ?_)
    exact fun hno => absurd hno hload

/-! ### The whole table -/

/-- What is asked of a program header after those before it. -/
structure Sound (elf : Elf) (i : Nat) : Prop where
  bounded : (elf.header i).Bounded elf.bytes
  permitted : (elf.header i).Permitted
  beside : ∀ j ∈ List.range i, Beside elf i j

def Entered (elf : Elf) (i : Nat) : Prop :=
  (elf.header i).IsLoad ∧ (elf.header i).Enters elf.entry

instance (elf : Elf) (i : Nat) : Decidable (Entered elf i) :=
  decidable_of_iff ((elf.header i).IsLoad ∧ (elf.header i).flags &&& 1 ≠ 0 ∧
      (elf.header i).vaddr ≤ elf.entry ∧ elf.entry < (elf.header i).vaddr + (elf.header i).memsz)
    ⟨fun h => ⟨h.1, h.2.1, h.2.2.1, h.2.2.2⟩, fun h => ⟨h.1, h.2.1, h.2.2, h.2.3⟩⟩

theorem enters_eq (hload : (elf.header i).IsLoad) (hb : (elf.header i).Bounded elf.bytes) :
    enters elf ((elf.header i).segment elf.bytes) = .ok (decide (Entered elf i)) := by
  have hexec : ((elf.header i).segment elf.bytes).isExecutable = true ↔
      (elf.header i).flags &&& 1 ≠ 0 := bne_iff_ne
  by_cases hmay : ((elf.header i).segment elf.bytes).isExecutable = true ∧
      ((elf.header i).segment elf.bytes).vaddr ≤ elf.entry
  · have hstop : (sum ((elf.header i).segment elf.bytes).vaddr
        ((elf.header i).segment elf.bytes).memsz : Run Error Nat) =
        .ok ((elf.header i).vaddr + (elf.header i).memsz) := sum_ok hb.address
    rw [enters, if_pos hmay, hstop]
    refine congrArg Except.ok (decide_eq_decide.mpr ⟨fun hlt => ?_, fun hent => hent.2.below⟩)
    exact ⟨hload, hexec.mp hmay.1, hmay.2, hlt⟩
  · rw [enters, if_neg hmay]
    refine congrArg Except.ok (decide_eq_false fun hent => ?_).symm
    exact hmay ⟨hexec.mpr hent.2.executable, hent.2.from_⟩

theorem permitted_iff (h : ProgramHeader) (bytes : Bytes) :
    h.Permitted ↔ ¬((h.segment bytes).isWritable = true ∧ (h.segment bytes).isExecutable = true) ∧
      ((h.segment bytes).isReadable = true ∨ (h.segment bytes).isExecutable = true) := by
  simp only [Segment.isWritable, Segment.isExecutable, Segment.isReadable, bne_iff_ne]
  exact ⟨fun hp => ⟨hp.exclusive, hp.reachable⟩, fun hp => ⟨hp.1, hp.2⟩⟩

theorem checkSegment_settles (ht : elf.Table) (hi : i < elf.phnum) (entryOk : Bool) :
    Settles (checkSegment elf entryOk i) ((elf.header i).IsLoad → Sound elf i)
      (entryOk || decide (Entered elf i)) := by
  by_cases hload : (elf.header i).IsLoad
  · refine ((segmentAt_load ht hi hload).bind fun hb => .require fun _ => .require fun _ =>
    .read (enters_eq hload hb) <| bind (f := fun _ => .ok _) (foldlM (fun s j hj =>
        checkAgainst_settles ht hb ((mem_range.mp hj).trans hi) s) ()) fun _ =>
      .of_ok rfl).congr ⟨?_, ?_⟩
    · rintro ⟨hb, hwx, hrx, hbeside, -⟩ -
      exact ⟨hb, (permitted_iff _ elf.bytes).mpr ⟨hwx, hrx⟩, hbeside⟩
    · intro hsound
      obtain ⟨hb, hperm, hbeside⟩ := hsound hload
      obtain ⟨hwx, hrx⟩ := (permitted_iff _ elf.bytes).mp hperm
      exact ⟨hb, hwx, hrx, hbeside, trivial⟩
  · have hout : decide (Entered elf i) = false := decide_eq_false fun hent => hload hent.1
    rw [hout, Bool.or_false]
    refine congr (.read (segmentAt_skip ht hi hload) (.of_ok rfl)) (iff_of_true trivial ?_)
    exact fun hno => absurd hno hload

theorem foldl_or {test : Nat → Bool} (l : List Nat) (b : Bool) :
    l.foldl (fun found i => found || test i) b = (b || l.any test) := by
  induction l generalizing b with
  | nil => simp
  | cons i l ih => rw [foldl_cons, ih, any_cons, Bool.or_assoc]

theorem validate_settles (ht : elf.Table) :
    Settles (validate elf) ((∀ i ∈ List.range elf.phnum, (elf.header i).IsLoad → Sound elf i) ∧
      ∃ i < elf.phnum, Entered elf i) () := by
  refine ((foldlM (fun entryOk i hi =>
    checkSegment_settles ht (mem_range.mp hi) entryOk) false).bind fun _ =>
    .require_only).congr (and_congr_right fun _ => ?_)
  rw [foldl_or]
  simp

theorem sound_iff : (∀ i ∈ List.range elf.phnum, (elf.header i).IsLoad → Sound elf i) ↔
    (∀ i < elf.phnum, (elf.header i).IsLoad →
      (elf.header i).Bounded elf.bytes ∧ (elf.header i).Permitted) ∧
    ∀ i < elf.phnum, ∀ j < i, (elf.header i).IsLoad → (elf.header j).IsLoad →
      (elf.header i).Apart (elf.header j) := by
  constructor
  · intro hsound
    refine ⟨fun i hi hload => ?_, fun i hi j hj hload hload' => ?_⟩
    · have hs := hsound i (mem_range.mpr hi) hload
      exact ⟨hs.bounded, hs.permitted⟩
    · exact ((hsound i (mem_range.mpr hi) hload).beside j (mem_range.mpr hj) hload').2
  · rintro ⟨hbound, hapart⟩ i hi hload
    rw [mem_range] at hi
    refine ⟨(hbound i hi hload).1, (hbound i hi hload).2, fun j hj hload' => ?_⟩
    rw [mem_range] at hj
    exact ⟨(hbound j (hj.trans hi) hload').1, hapart i hi j hj hload hload'⟩

/-! ### The whole file -/

/-- **The check of a whole file is exact**, and panics on no bytes. -/
theorem parse_settles (machine : Nat) (bytes : Bytes) :
    Settles (parse machine bytes) (Accepted machine bytes) (headerOf bytes) := by
  refine (require fun hsize => .read (slice_ok (by decide) (by omega)) <|
    .require fun _ => .read (word_ok (by omega)) <| .require fun _ => .read (word_ok (by omega)) <|
    .require fun _ => .read (word_ok (by omega)) <| .require fun _ =>
    .read (word_ok (by omega)) <| .read (word_ok (by omega)) <| .require fun _ =>
    .require fun _ => .require fun _ => .read (word_ok (by omega)) <|
    .read (word_ok (by omega)) <| .read (word_ok (by omega)) <| .read (word_ok (by omega)) <|
    .require fun hentry => .require fun hfew => .require fun _ => .require fun h64 =>
    .require fun hlen => bind (f := fun _ => .ok _)
      (validate_settles (show (headerOf bytes).Table from ⟨hentry, hfew, h64, hlen⟩)) fun _ =>
      .of_ok rfl).congr ⟨?_, ?_⟩
  · rintro ⟨hsize, hmagic, hclass, henc, hver, hmach, -, htype, hentry, hfew, -, h64, hlen,
      ⟨hsound, henter⟩, -⟩
    obtain ⟨hbound, hapart⟩ := sound_iff.mp hsound
    refine ⟨⟨hsize, hmagic, hclass, henc, hver, hmach, htype, ⟨hentry, hfew, h64, hlen⟩, hbound,
      henter, ?_⟩, ?_⟩
    · exact fun i hi j hj hload hload' => (hapart i hi j hj hload hload').pages
    · exact fun i hi j hj hload hload' => (hapart i hi j hj hload hload').outside
  · intro ha
    have htype : le (part bytes 16 2) ≠ 3 := by
      rw [ha.executable]
      decide
    refine ⟨ha.size, ha.magic, ha.is64Bit, ha.littleEndian, ha.version, ha.machine, htype,
      ha.executable, ha.table.size, ha.table.few, ?_, ha.table.inFile.1, ha.table.inFile.2,
      ⟨sound_iff.mpr ⟨ha.bounded, fun i hi j hj hload hload' => ?_⟩, ha.entry⟩, trivial⟩
    · exact (Nat.le_add_left _ _).trans_lt ha.table.inFile.1
    · exact ⟨ha.pages i hi j hj hload hload', ha.outside i hi j hj hload hload'⟩

def Elf.load (elf : Elf) (i : Nat) : Option Segment :=
  if (elf.header i).IsLoad then some ((elf.header i).segment elf.bytes) else none

theorem segmentAt_accepted (ht : elf.Table)
    (hb : ∀ i < elf.phnum, (elf.header i).IsLoad → (elf.header i).Bounded elf.bytes)
    (hi : i < elf.phnum) : segmentAt elf i = .ok (elf.load i) := by
  by_cases hload : (elf.header i).IsLoad
  · rw [Elf.load, if_pos hload]
    exact (segmentAt_load ht hi hload).ok (hb i hi hload)
  · rw [Elf.load, if_neg hload]
    exact segmentAt_skip ht hi hload

theorem foldlM_keepSegment (segs : List Segment) (l : List Nat)
    (hl : ∀ i ∈ l, segmentAt elf i = .ok (elf.load i)) :
    l.foldlM (keepSegment elf) segs = .ok (segs ++ l.filterMap elf.load) := by
  induction l generalizing segs with
  | nil => simp [pure, Except.pure]
  | cons i l ih =>
    have hrest := fun segs => ih segs fun j hj => hl j (mem_cons_of_mem _ hj)
    have hturn : keepSegment elf segs i = .ok (segs ++ (elf.load i).toList) := by
      rw [keepSegment, hl i mem_cons_self]
      cases elf.load i <;> simp
    rw [foldlM_cons, hturn]
    refine (hrest _).trans ?_
    cases hload : elf.load i <;> simp [hload]

theorem segments_eq (ht : elf.Table)
    (hb : ∀ i < elf.phnum, (elf.header i).IsLoad → (elf.header i).Bounded elf.bytes) :
    segments elf = .ok ((List.range elf.phnum).filterMap elf.load) :=
  foldlM_keepSegment [] _ fun _ hi => segmentAt_accepted ht hb (mem_range.mp hi)

/-- **The front end of the loader is total and exact**: no bytes make it panic, it accepts what
`Accepted` says, and the segments of an accepted file are its loadable program headers in the order
of the table, each with its bytes of the file. -/
theorem parse_exact (machine : Nat) (bytes : Bytes) : parse machine bytes ≠ .error .panic ∧
    ((∃ elf, parse machine bytes = .ok elf) ↔ Accepted machine bytes) ∧
    ∀ elf, parse machine bytes = .ok elf →
      elf = headerOf bytes ∧ segments elf = .ok ((List.range elf.phnum).filterMap elf.load) := by
  have hsettles := parse_settles machine bytes
  refine ⟨hsettles.ne_panic, hsettles.ok_iff, fun elf helf => ?_⟩
  have ha : Accepted machine bytes := hsettles.ok_iff.mp ⟨elf, helf⟩
  obtain rfl : headerOf bytes = elf := Except.ok.inj ((hsettles.ok ha).symm.trans helf)
  exact ⟨rfl, segments_eq ha.table fun i hi hload => (ha.bounded i hi hload).1⟩

/-- A file of two segments: three pages of code from `0x1000` on, and nothing at `0x2000`. -/
def emptySegment : Bytes :=
  [0x7f, 0x45, 0x4c, 0x46, 2, 1, 1] ++ List.replicate 9 0 ++ [2, 0, 183, 0] ++
    List.replicate 5 0 ++ [0x10] ++ List.replicate 6 0 ++ [64] ++ List.replicate 21 0 ++
    [56, 0, 2] ++ List.replicate 7 0 ++
    ([1, 0, 0, 0, 5] ++ List.replicate 12 0 ++ [0x10] ++ List.replicate 23 0 ++ [0x30] ++
      List.replicate 14 0) ++
    ([1, 0, 0, 0, 4] ++ List.replicate 12 0 ++ [0x20] ++ List.replicate 38 0)

theorem emptySegment_wellFormed : WellFormed 183 emptySegment := by
  have hnum : (headerOf emptySegment).phnum = 2 := by decide +kernel
  have hcode : (headerOf emptySegment).header 0 = ⟨1, 5, 0, 0x1000, 0, 0, 0x3000⟩ := by
    decide +kernel
  have hempty : (headerOf emptySegment).header 1 = ⟨1, 4, 0, 0x2000, 0, 0, 0⟩ := by
    decide +kernel
  refine ⟨by decide +kernel, by decide, by decide, by decide, by decide, by decide, by decide,
    ⟨by decide +kernel, by decide +kernel, by decide +kernel, by decide +kernel⟩, ?_, ?_, ?_⟩
  · rw [hnum]
    intro i hi _
    obtain rfl | rfl : i = 0 ∨ i = 1 := by omega
    · rw [hcode]
      exact ⟨⟨by decide, ⟨by decide, by decide +kernel⟩, by decide⟩, ⟨by decide, by decide⟩⟩
    · rw [hempty]
      exact ⟨⟨by decide, ⟨by decide, by decide +kernel⟩, by decide⟩, ⟨by decide, by decide⟩⟩
  · refine ⟨0, by rw [hnum]; decide, ?_⟩
    exact ⟨rfl, by decide, by decide +kernel, by decide +kernel⟩
  · rw [hnum]
    intro i hi j hj _ _ page
    obtain ⟨rfl, rfl⟩ : i = 1 ∧ j = 0 := by omega
    rw [hempty]
    simp only [ProgramHeader.Touches, ProgramHeader.firstPage, ProgramHeader.endPage]
    omega

/-- The segment at `0x2000` touches no page at all, and the file is refused for a common page. -/
theorem empty_segment_refused : WellFormed 183 emptySegment ∧
    parse 183 emptySegment = .error (.refused .segmentsOverlap) :=
  ⟨emptySegment_wellFormed, by decide +kernel⟩

end Nife.ElfFile
