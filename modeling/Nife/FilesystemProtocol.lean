/-
The file-service contract (`filesystem_protocol`): how a request packs its opcode, handle and
length into the first word, what the verb table says of each opcode, and how names ride in a
page: the set of a name-set grant and the records of a directory listing.

Words are `u64`; the packing masks a handle to sixteen bits and a length to forty.
-/
import Mathlib.Data.Nat.Bitwise

namespace Nife

open List

/-! ### Errors -/

/-- `reply_err`: an errno as a reply's first word, the negated number. -/
def replyErr (errno : UInt64) : UInt64 := 0 - errno

/-- Whether a reply's first word, read as an `i64`, is negative. -/
def isErr (r0 : UInt64) : Bool := 0x8000000000000000 ≤ r0

def enoent : UInt64 := 2
def ebadf : UInt64 := 9
def einval : UInt64 := 22
def emfile : UInt64 := 24

/-! ### Request words -/

namespace Fs

/-- `fs::ROOT`, the handle of the directory an endpoint is bound to. -/
def root : UInt64 := 0

def maxLen : UInt64 := 0xffffffffff

def maxHandle : UInt64 := 0xffff

/-- Opcode in bits 63:56, handle in bits 55:40, length in bits 39:0. -/
def req (operation handle len : UInt64) : UInt64 :=
  (operation <<< 56) ||| ((handle &&& maxHandle) <<< 40) ||| (len &&& maxLen)

def reqHandle (w0 : UInt64) : UInt64 := (w0 >>> 40) &&& maxHandle

def reqLen (w0 : UInt64) : UInt64 := w0 &&& maxLen

/-- The destination half of a `RENAME`, in the second word. -/
def renameDst (handle len : UInt64) : UInt64 := ((handle &&& maxHandle) <<< 40) ||| (len &&& maxLen)

def dstHandle (w1 : UInt64) : UInt64 := (w1 >>> 40) &&& maxHandle

def dstLen (w1 : UInt64) : UInt64 := w1 &&& maxLen

end Fs

/-- The opcode of a request word. -/
def operation (w0 : UInt64) : UInt64 := w0 >>> 56

namespace Fs

variable {op handle len : UInt64}

theorem toNat_and_maxHandle (h : UInt64) : (h &&& maxHandle).toNat = h.toNat % 65536 := by
  exact Nat.and_two_pow_sub_one_eq_mod h.toNat 16

theorem toNat_and_maxLen (h : UInt64) : (h &&& maxLen).toNat = h.toNat % 1099511627776 := by
  exact Nat.and_two_pow_sub_one_eq_mod h.toNat 40

theorem toNat_operation (w : UInt64) : (operation w).toNat = w.toNat / 72057594037927936 := by
  unfold operation
  exact Nat.shiftRight_eq_div_pow _ 56

theorem toNat_reqHandle (w : UInt64) : (reqHandle w).toNat = w.toNat / 1099511627776 % 65536 := by
  unfold reqHandle
  rw [toNat_and_maxHandle]
  exact congrArg (· % 65536) (Nat.shiftRight_eq_div_pow _ 40)

theorem operation_lt (w : UInt64) : (operation w).toNat < 256 := by
  have hw := w.toNat_lt
  rw [toNat_operation]
  omega

theorem toNat_shift_handle (h : UInt64) :
    ((h &&& maxHandle) <<< 40).toNat = (h.toNat % 65536) <<< 40 := by
  rw [UInt64.toNat_shiftLeft, toNat_and_maxHandle]
  show (h.toNat % 65536) <<< 40 % _ = _
  omega

theorem toNat_renameDst (handle len : UInt64) : (renameDst handle len).toNat
      = handle.toNat % 65536 * 1099511627776 + len.toNat % 1099511627776 := by
  unfold renameDst
  rw [UInt64.toNat_or, toNat_shift_handle, toNat_and_maxLen,
    ← Nat.shiftLeft_add_eq_or_of_lt (i := 40) (by omega), Nat.shiftLeft_eq]

theorem toNat_req (handle len : UInt64) (hop : op.toNat < 256) :
    (req op handle len).toNat = op.toNat * 72057594037927936
      + handle.toNat % 65536 * 1099511627776 + len.toNat % 1099511627776 := by
  have htop : (op <<< 56).toNat = op.toNat <<< 56 := by
    show op.toNat <<< 56 % _ = _
    omega
  unfold req
  -- the three fields do not overlap, so each `or` adds
  rw [UInt64.toNat_or, UInt64.toNat_or, htop, toNat_shift_handle, toNat_and_maxLen,
    ← Nat.shiftLeft_add_eq_or_of_lt (i := 56) (by rw [Nat.shiftLeft_eq]; omega)]
  have hjoin : op.toNat <<< 56 + (handle.toNat % 65536) <<< 40
      = (op.toNat * 65536 + handle.toNat % 65536) <<< 40 := by
    omega
  rw [hjoin, ← Nat.shiftLeft_add_eq_or_of_lt (i := 40) (by omega)]
  omega

theorem operation_req (handle len : UInt64) (hop : op.toNat < 256) :
    operation (req op handle len) = op := by
  apply UInt64.toNat_inj.mp
  rw [toNat_operation, toNat_req _ _ hop]
  omega

theorem reqHandle_req (len : UInt64) (hop : op.toNat < 256) (hh : handle ≤ maxHandle) :
    reqHandle (req op handle len) = handle := by
  have hh : handle.toNat ≤ 65535 := hh
  apply UInt64.toNat_inj.mp
  rw [toNat_reqHandle, toNat_req _ _ hop]
  omega

theorem reqLen_req (handle : UInt64) (hop : op.toNat < 256) (hl : len ≤ maxLen) :
    reqLen (req op handle len) = len := by
  have hl : len.toNat ≤ 1099511627775 := hl
  apply UInt64.toNat_inj.mp
  unfold reqLen
  rw [toNat_and_maxLen, toNat_req _ _ hop]
  omega

theorem dstHandle_renameDst (len : UInt64) (hh : handle ≤ maxHandle) :
    dstHandle (renameDst handle len) = handle := by
  have hh : handle.toNat ≤ 65535 := hh
  apply UInt64.toNat_inj.mp
  rw [show dstHandle (renameDst handle len) = reqHandle (renameDst handle len) from rfl,
    toNat_reqHandle, toNat_renameDst]
  omega

theorem dstLen_renameDst (handle : UInt64) (hl : len ≤ maxLen) :
    dstLen (renameDst handle len) = len := by
  have hl : len.toNat ≤ 1099511627775 := hl
  apply UInt64.toNat_inj.mp
  unfold dstLen
  rw [toNat_and_maxLen, toNat_renameDst]
  omega

end Fs

/-! ### The verb table -/

/-- The opcodes of the contract. -/
inductive FsOp
  | open_ | read | write | close | fstat | create | truncate | opendir | readdir | mkdir | rename
  | unlink | rmdir | getxattr | setxattr | listxattr | removexattr | statfs | sync | getmtime
  | setmtime | setmtimeAt
  deriving DecidableEq, Repr

/-- The opcode's number. -/
def FsOp.code : FsOp → UInt64
  | .open_ => 1
  | .read => 2
  | .write => 3
  | .close => 4
  | .fstat => 5
  | .create => 6
  | .truncate => 7
  | .opendir => 8
  | .readdir => 9
  | .mkdir => 10
  | .rename => 11
  | .unlink => 12
  | .rmdir => 13
  | .getxattr => 14
  | .setxattr => 15
  | .listxattr => 16
  | .removexattr => 17
  | .statfs => 18
  | .sync => 19
  | .getmtime => 20
  | .setmtime => 21
  | .setmtimeAt => 22

/-- What the length field of a request word counts. -/
inductive Operand
  | none | name | payload | rename
  deriving DecidableEq, Repr

/-- One row of the table. -/
structure Verb where
  operation : FsOp
  operand : Operand
  /-- Whether the second word carries something the server reads. -/
  carriesW1 : Bool
  /-- Whether a successful reply is a new handle. -/
  mintsHandle : Bool
  deriving DecidableEq, Repr

namespace Verb

def carriesLen (v : Verb) : Bool := v.operand ≠ .none

def takesName (v : Verb) : Bool := v.operand = .name ∨ v.operand = .rename

/-- `verb::TABLE`, in opcode order. -/
def table : List Verb :=
  [ ⟨.open_, .name, true, true⟩,
    ⟨.read, .payload, true, false⟩,
    ⟨.write, .payload, true, false⟩,
    ⟨.close, .none, false, false⟩,
    ⟨.fstat, .none, false, false⟩,
    ⟨.create, .name, false, true⟩,
    ⟨.truncate, .none, true, false⟩,
    ⟨.opendir, .name, true, true⟩,
    ⟨.readdir, .none, true, false⟩,
    ⟨.mkdir, .name, true, true⟩,
    ⟨.rename, .rename, true, false⟩,
    ⟨.unlink, .name, false, false⟩,
    ⟨.rmdir, .name, false, false⟩,
    ⟨.getxattr, .payload, false, false⟩,
    ⟨.setxattr, .payload, true, false⟩,
    ⟨.listxattr, .none, false, false⟩,
    ⟨.removexattr, .payload, false, false⟩,
    ⟨.statfs, .none, false, false⟩,
    ⟨.sync, .none, false, false⟩,
    ⟨.getmtime, .name, false, false⟩,
    ⟨.setmtime, .name, false, false⟩,
    ⟨.setmtimeAt, .name, true, false⟩ ]

/-- The row for an opcode, or `none` if the contract does not carry it. -/
def of (code : UInt64) : Option Verb :=
  if code < FsOp.open_.code ∨ FsOp.setmtimeAt.code < code then none
  else table[(code - FsOp.open_.code).toNat]?

variable {code : UInt64} {v : Verb}

theorem code_of (h : of code = some v) : v.operation.code = code := by
  have hrows : ∀ i, i < table.length → ∀ v, table[i]? = some v →
      v.operation.code.toNat = i + 1 := by decide
  unfold of at h
  split_ifs at h with hin
  rw [not_or, UInt64.not_lt] at hin
  obtain ⟨hi, -⟩ := List.getElem?_eq_some_iff.mp h
  have hcode := hrows _ hi v h
  have hle : 1 ≤ code.toNat := hin.1
  apply UInt64.toNat_inj.mp
  rw [hcode, UInt64.toNat_sub_of_le _ _ hin.1]
  show code.toNat - 1 + 1 = code.toNat
  omega

theorem mints_of (h : of code = some v) (hm : v.mintsHandle = true) :
    v.operation ≠ .close ∧ v.operand ≠ .rename := by
  have hrows : ∀ v ∈ table, v.mintsHandle = true → v.operation ≠ .close ∧ v.operand ≠ .rename := by
    decide
  unfold of at h
  split_ifs at h
  exact hrows v (mem_of_getElem? h) hm

theorem ne_of_operand (hv : of code = some v) (hclose : code ≠ FsOp.close.code) :
    v.operation ≠ .close ∧ (v.operand ≠ .rename → code ≠ FsOp.rename.code) := by
  refine ⟨fun h => hclose ?_, fun h hcode => h ?_⟩
  · rw [← code_of hv, h]
  · rw [hcode] at hv
    cases hv
    rfl

theorem not_mints_of_rename (hv : of code = some v)
    (h : v.operand = .rename) : v.mintsHandle = false := by
  by_contra hm
  exact (mints_of hv (by simpa using hm)).2 h

end Verb

/-! ### Sets of names -/

/-- `grant::MAX_NAME`, the longest name a grant carries. -/
def grantMaxName : Nat := 16

/-- A name, and whether it was a directory when the grant was planned. -/
abbrev NameEntry := List UInt8 × Bool

namespace Nameset

/-- `nameset::MAX_NAMES`. -/
def maxNames : Nat := 8

/-- A record's header: the name's length, and bit 7 for a directory. -/
def header (e : NameEntry) : UInt8 := UInt8.ofNat e.1.length ||| (if e.2 then 0x80 else 0)

/-- The loop of `encode`, at offset `n` of a buffer of `out` bytes. -/
def encodeFrom (out : Nat) : List NameEntry → Nat → Option (List UInt8)
  | [], n => if n < out then some [0] else none
  | e :: rest, n =>
    if e.1 = [] ∨ grantMaxName < e.1.length then none
    else if out < n + 1 + e.1.length + 1 then none
    else (encodeFrom out rest (n + 1 + e.1.length)).map fun bytes => header e :: e.1 ++ bytes

/-- `encode`: the set as bytes, or `none` rather than a part of it. -/
def encode (names : List NameEntry) (out : Nat) : Option (List UInt8) :=
  if maxNames < names.length then none else encodeFrom out names 0

/-- `iter`: stops at the terminator, and at a record that runs off the end. -/
def iter (buf : List UInt8) : List NameEntry :=
  match buf with
  | [] => []
  | head :: rest =>
    let len := (head &&& 0x7f).toNat
    if len = 0 ∨ rest.length < len then []
    else (rest.take len, head &&& 0x80 != 0) :: iter (rest.drop len)
termination_by buf.length
decreasing_by
  rw [List.length_drop, List.length_cons]
  omega

/-- `contains`: **the whole of the attenuation**. -/
def contains (buf name : List UInt8) : Bool := (iter buf).any fun e => e.1 = name

theorem header_split (e : NameEntry) (h : e.1.length ≤ grantMaxName) :
    (header e &&& 0x7f).toNat = e.1.length ∧ (header e &&& 0x80 != 0) = e.2 := by
  have hall : ∀ n, n < 17 → ∀ d : Bool,
      ((UInt8.ofNat n ||| (if d then 0x80 else 0)) &&& 0x7f).toNat = n ∧
        ((UInt8.ofNat n ||| (if d then 0x80 else 0)) &&& 0x80 != 0) = d := by decide
  exact hall e.1.length (by unfold grantMaxName at h; omega) e.2

variable {e : NameEntry}

theorem iter_cons (hne : e.1 ≠ []) (hlen : e.1.length ≤ grantMaxName)
    (rest : List UInt8) : iter (header e :: e.1 ++ rest) = e :: iter rest := by
  obtain ⟨hl, hd⟩ := header_split e hlen
  have hpos := length_pos_iff.mpr hne
  rw [cons_append, iter, hl, hd, if_neg (by rw [length_append]; omega), take_left' rfl, drop_left' rfl]

variable {out : Nat}
variable {names : List NameEntry} {n : Nat} {bytes : List UInt8}

/-- What was encoded is what is walked, whatever follows it in the buffer. -/
theorem iter_encodeFrom (h : encodeFrom out names n = some bytes) (rest : List UInt8) :
    iter (bytes ++ rest) = names := by
  induction names generalizing n bytes with
  | nil =>
    obtain ⟨-, h⟩ := Option.ite_none_right_eq_some.mp h
    cases h
    rw [singleton_append, iter]
    rfl
  | cons e names ih =>
    rw [encodeFrom] at h
    split at h
    · cases h
    · next hname =>
      rw [not_or, not_lt] at hname
      split_ifs at h
      obtain ⟨bytes', hb, rfl⟩ := Option.map_eq_some_iff.mp h
      rw [append_assoc, iter_cons hname.1 hname.2, ih hb]

theorem encodeFrom_names (h : encodeFrom out names n = some bytes) :
    ∀ e ∈ names, e.1 ≠ [] ∧ e.1.length ≤ grantMaxName := by
  induction names generalizing n bytes with
  | nil => nofun
  | cons e names ih =>
    rw [encodeFrom] at h
    split at h
    · cases h
    · next hname =>
      rw [not_or, not_lt] at hname
      split_ifs at h
      obtain ⟨bytes', hb, rfl⟩ := Option.map_eq_some_iff.mp h
      intro e' he'
      rcases mem_cons.mp he' with rfl | he'
      · exact hname
      · exact ih hb e' he'

end Nameset

/-! ### Directory listings -/

namespace Dirent

/-- `record_len`. -/
def recordLen (nameLen : Nat) : Nat := 2 + nameLen

/-- `encode` into a buffer of `out` bytes. -/
def encode (out : Nat) (e : NameEntry) : Option (List UInt8) :=
  if 255 < e.1.length ∨ out < recordLen e.1.length then none
  else some ((if e.2 then 1 else 0) :: UInt8.ofNat e.1.length :: e.1)

/-- `iter`: stops at the first record that runs off the end. -/
def iter (buf : List UInt8) : List NameEntry :=
  match buf with
  | flags :: len :: rest =>
    if rest.length < len.toNat then []
    else (rest.take len.toNat, flags &&& 1 != 0) :: iter (rest.drop len.toNat)
  | _ => []
termination_by buf.length
decreasing_by
  simp only [List.length_drop, List.length_cons]
  omega

theorem iter_encode {rec : List UInt8} (h : encode out e = some rec)
    (rest : List UInt8) : iter (rec ++ rest) = e :: iter rest := by
  unfold encode at h
  split at h
  · cases h
  · next hfit =>
    rw [not_or] at hfit
    cases h
    have hlen : (UInt8.ofNat e.1.length).toNat = e.1.length := by
      rw [UInt8.toNat_ofNat']
      omega
    have hflag : ((if e.2 then (1 : UInt8) else 0) &&& 1 != 0) = e.2 := by
      rcases e.2 with - | -
      · rfl
      · rfl
    rw [cons_append, cons_append, iter, hlen, hflag,
      if_neg (by rw [length_append]; omega), take_left' rfl, drop_left' rfl]

end Dirent

end Nife
