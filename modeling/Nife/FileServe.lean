/-
The file server's request loop (`redoxfs_server`, `bin/redoxfs_server.rs`): what one request
carries, which handle its badge may use, which operation of the server it asks for, and what is
done around that operation.

`requested` is everything the loop does before it calls the server: the handle field goes
through the badge's binding, a rename's second handle too, and the client's bytes are cut out of
its own window.  `serve` is one round of the loop.
-/
import Nife.FileServer

namespace Nife

open Fallible

/-! ### Text -/

def isContinuation (b : UInt8) : Bool := 128 ≤ b ∧ b ≤ 191

/-- Whether two bytes start a character of three. -/
def startsThree (a b : UInt8) : Bool :=
  (a = 224 ∧ 160 ≤ b ∧ b ≤ 191) ∨ (225 ≤ a ∧ a ≤ 236 ∧ isContinuation b) ∨
    (a = 237 ∧ 128 ≤ b ∧ b ≤ 159) ∨ (238 ≤ a ∧ a ≤ 239 ∧ isContinuation b)

/-- Whether two bytes start a character of four. -/
def startsFour (a b : UInt8) : Bool :=
  (a = 240 ∧ 144 ≤ b ∧ b ≤ 191) ∨ (241 ≤ a ∧ a ≤ 243 ∧ isContinuation b) ∨
    (a = 244 ∧ 128 ≤ b ∧ b ≤ 143)

/-- `core::str::from_utf8` succeeds. -/
def validUtf8 : List UInt8 → Bool
  | [] => true
  | [a] => a < 128
  | [a, b] => if a < 128 then validUtf8 [b] else 194 ≤ a ∧ a ≤ 223 ∧ isContinuation b
  | [a, b, c] =>
    if a < 128 then validUtf8 [b, c]
    else if 194 ≤ a ∧ a ≤ 223 then isContinuation b && validUtf8 [c]
    else startsThree a b ∧ isContinuation c
  | a :: b :: c :: d :: rest =>
    if a < 128 then validUtf8 (b :: c :: d :: rest)
    else if 194 ≤ a ∧ a ≤ 223 then isContinuation b && validUtf8 (c :: d :: rest)
    else if 224 ≤ a ∧ a ≤ 239 then
      startsThree a b && isContinuation c && validUtf8 (d :: rest)
    else startsFour a b && isContinuation c && isContinuation d && validUtf8 rest

/-! ### Requests -/

/-- One request: its two words, the badge it came under, and the bytes of that badge's
window. -/
structure FileRequest where
  (w0 w1 badge : UInt64)
  window : Nat → UInt8

namespace FileRequest

/-- `fs::BIND` and `fs::UNBIND`, the control verbs outside the table. -/
def bindCode : UInt64 := 64

def unbindCode : UInt64 := 65

/-- The page a reply of the server's own length stays inside. -/
def block : Nat := 4096

/-- `fs::TRANSFER_MAX`. -/
def transferMax : Nat := 65536

section

variable (r : FileRequest)

def code : UInt64 := operation r.w0

/-- The handle field. -/
def raw : Nat := (Fs.reqHandle r.w0).toNat

def len : Nat := min (Fs.reqLen r.w0).toNat block

def bulkLen : Nat := min (Fs.reqLen r.w0).toNat transferMax

def cut (start len : Nat) : List UInt8 :=
  (List.range len).map fun i => r.window (start + i)

def text (start len : Nat) : Except Errno Name :=
  if validUtf8 (r.cut start len) then .ok (r.cut start len) else .error .einval

def name : Except Errno Name := r.text 0 r.len

end

end FileRequest

namespace Server

open FileRequest

variable {B : Type} [ByteStore B]

section

variable (s : Server B)

/-- The handle the request may use.  `BIND` and `UNBIND` name a handle of the binder's own; a
scoped badge cannot close its root. -/
def admission (r : FileRequest) : Except Errno Nat :=
  if r.code = bindCode ∨ r.code = unbindCode then .ok r.raw
  else if r.code = FsOp.close.code ∧ r.raw = 0 ∧ s.isScoped r.badge.toNat then .error .einval
  else s.admitted r.badge.toNat r.raw

/-- The rename a request asks for: the second handle is admitted too. -/
def renameRequest (r : FileRequest) (h : Nat) : Except Errno ServerOp :=
  let dstLen := (Fs.dstLen r.w1).toNat
  if block < r.len + dstLen then .error .einval
  else do
    let src ← r.text 0 r.len
    let dst ← r.text r.len dstLen
    let dstDir ← s.admitted r.badge.toNat (Fs.dstHandle r.w1).toNat
    return .rename h src dstDir dst

/-- The operation of a verb in the table, through handle `h`. -/
def verbRequest (r : FileRequest) (h : Nat) : FsOp → Except Errno ServerOp
  | .open_ => r.name.map fun name => .openFilePath h name r.w1
  | .read => .ok (.read h r.w1.toNat r.bulkLen)
  | .write => .ok (.write h r.w1.toNat (r.cut 0 r.bulkLen))
  | .close => .ok (.close h)
  | .fstat => .ok (.fstat h)
  | .create => r.name.map fun name => .createFileAt h name
  | .truncate => .ok (.truncate h r.w1.toNat)
  | .opendir => r.name.map fun name => .openDir h name r.w1
  | .readdir => .ok (.readDir h (r.w1.toNat % 4294967296) block)
  | .mkdir => r.name.map fun name => .makeDir h name r.w1
  | .rename => s.renameRequest r h
  | .unlink => r.name.map fun name => .unlink h name
  | .rmdir => r.name.map fun name => .rmdir h name
  | .getxattr =>
    if Xattr.maxName < r.len then .error .erange else .ok (.getXattr h (r.cut 0 r.len) block)
  | .setxattr =>
    let valueLen := r.w1.toNat % 4294967296
    if block < r.len + valueLen then .error .einval
    else .ok (.setXattr h (r.cut 0 r.len) (r.w1.toNat / 4294967296) (r.cut r.len valueLen))
  | .listxattr => .ok (.listXattr h block)
  | .removexattr => .ok (.removeXattr h (r.cut 0 r.len))
  | .statfs => .ok (.statfs h)
  | .sync => .ok (.syncPermitted h)
  | .getmtime => r.name.map fun name => .mtime h name
  | .setmtime => r.name.map fun name => .setMtimeNow h name
  | .setmtimeAt => r.name.map fun name => .setMtimeAt h name r.w1.toNat

/-- The operation a request asks for. -/
def requested (r : FileRequest) : Except Errno ServerOp := do
  let h ← s.admission r
  if r.code = bindCode then return .bind r.badge.toNat h r.w1.toNat
  else if r.code = unbindCode then return .unbind r.badge.toNat r.w1.toNat
  else
    match Verb.of r.code with
    | none => .error .einval
    | some v => s.verbRequest r h v.operation

end

/-- A reply: the answer, and the second word, which is the size of an opened file. -/
structure FileReply where
  answer : Except Errno ServerAnswer
  size : Nat

def openedSize (r : FileRequest) (h : Nat) : Serve B Nat := do
  if r.code = FsOp.open_.code then
    match ← attempt (fstat h) with
    | .ok n => return n
    | .error _ => return 0
  else return 0

/-- One round of the loop: a handle that was minted is its badge's. -/
def serve (s : Server B) (r : FileRequest) : FileReply × Server B :=
  match s.requested r with
  | .error e => (⟨.error e, 0⟩, s)
  | .ok op =>
    match run (perform op) s with
    | (.ok (.handle h), s) =>
      let s := (run (claim h r.badge.toNat) s).2
      let size := run (openedSize r h) s
      (⟨.ok (.handle h), size.1.toOption.getD 0⟩, size.2)
    | (answer, s) => (⟨answer, 0⟩, s)

end Server

end Nife
