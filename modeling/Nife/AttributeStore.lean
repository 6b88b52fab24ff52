/-
Extended attributes (`filesystem_protocol::xattr` and the store functions of
`redoxfs_server`).  The engine has none: the server keeps one directory in the image's root, and
in it one file for each node that has attributes, named by the node's number in hexadecimal.
The file's bytes are records, one for each attribute: the name's length, the type code, the
value's length, the name, the value.
-/
import Nife.RedoxFs

namespace Nife

open Fallible

namespace Xattr

/-! ### Limits -/

def maxName : Nat := 255
def maxValue : Nat := 3072
def maxCount : Nat := 16

/-- The largest type code, `i32::MAX`. -/
def maxKind : Nat := 2147483647

/-- `.nife-attrs`. -/
def storeDir : Name := [46, 110, 105, 102, 101, 45, 97, 116, 116, 114, 115]

/-- An attribute's name is not empty, not longer than `maxName` and free of NUL. -/
def isValidName (name : Name) : Bool := name ≠ [] ∧ name.length ≤ maxName ∧ (0 : UInt8) ∉ name

/-- One attribute. -/
structure Record where
  name : Name
  kind : Nat
  value : List UInt8
  deriving DecidableEq, Repr

/-! ### A node's blob -/

/-- `store::RECORD_HEADER`. -/
def recordHeader : Nat := 7

def recordLen (nameLen valueLen : Nat) : Nat := recordHeader + nameLen + valueLen

/-- `store::MAX_BYTES`. -/
def maxBytes : Nat := maxCount * recordLen maxName maxValue

def byteAt (n place : Nat) : UInt8 := UInt8.ofNat (n / place)

/-- The record at the start of a blob, and the rest of the blob. -/
def next (blob : List UInt8) : Option (Record × List UInt8) :=
  match blob with
  | n :: k0 :: k1 :: k2 :: k3 :: v0 :: v1 :: body =>
    let nameLen := n.toNat
    let valueLen := v0.toNat + 256 * v1.toNat
    if nameLen = 0 ∨ body.length < nameLen + valueLen then none
    else
      some (⟨body.take nameLen,
        k0.toNat + 256 * k1.toNat + 65536 * k2.toNat + 16777216 * k3.toNat,
        (body.drop nameLen).take valueLen⟩, body.drop (nameLen + valueLen))
  | _ => none

/-- At most `n` records of a blob. -/
def walkRecords : Nat → List UInt8 → List Record
  | 0, _ => []
  | n + 1, blob =>
    match next blob with
    | none => []
    | some (r, rest) => r :: walkRecords n rest

section

variable (blob : List UInt8)

/-- `store::iter`: a record takes at least a byte, so the blob's length is enough rounds. -/
def iter : List Record := walkRecords blob.length blob

/-- `store::get`. -/
def get (name : Name) : Option (Nat × List UInt8) :=
  ((iter blob).find? fun r => r.name = name).map fun r => (r.kind, r.value)

/-- A record's bytes. -/
def encode (r : Record) : List UInt8 :=
  UInt8.ofNat r.name.length :: byteAt r.kind 1 :: byteAt r.kind 256 :: byteAt r.kind 65536 ::
    byteAt r.kind 16777216 :: byteAt r.value.length 1 :: byteAt r.value.length 256 ::
    (r.name ++ r.value)

def writeRecord (room : Nat) (r : Record) : Option (List UInt8) :=
  if room < recordLen r.name.length r.value.length ∨ maxName < r.name.length ∨
      maxValue < r.value.length then none
  else some (encode r)

/-- Records one after the other. -/
def writeRecords : Nat → List Record → Option (List UInt8)
  | _, [] => some []
  | room, r :: rs =>
    match writeRecord room r with
    | none => none
    | some bytes => (writeRecords (room - bytes.length) rs).map (bytes ++ ·)

/-- `store::set`: the blob with an attribute set, in `room` bytes. -/
def set (name : Name) (kind : Nat) (value : List UInt8) (room : Nat) : Except Errno (List UInt8) :=
  if ¬ isValidName name then .error .erange
  else if maxValue < value.length then .error .e2big
  else if maxKind < kind then .error .einval
  else
    match writeRecords room
        ((iter blob).map fun r => if r.name = name then ⟨name, kind, value⟩ else r) with
    | none => .error .enospc
    | some bytes =>
      if (iter blob).any fun r => r.name = name then .ok bytes
      else if maxCount ≤ (iter blob).length then .error .enospc
      else
        match writeRecord (room - bytes.length) ⟨name, kind, value⟩ with
        | none => .error .enospc
        | some last => .ok (bytes ++ last)

/-- `store::remove`: the blob without an attribute. -/
def remove (name : Name) (room : Nat) : Except Errno (List UInt8) :=
  if ¬ isValidName name then .error .erange
  else
    match writeRecords room ((iter blob).filter fun r => r.name ≠ name) with
    | none => .error .enospc
    | some bytes =>
      if (iter blob).any fun r => r.name = name then .ok bytes else .error .enodata

/-- The names that fit in `room` bytes, each after its length; the first that does not fit
ends the list. -/
def listNames : Nat → List Record → List UInt8
  | _, [] => []
  | room, r :: rs =>
    if isValidName r.name ∧ 1 + r.name.length ≤ room then
      UInt8.ofNat r.name.length :: (r.name ++ listNames (room - (1 + r.name.length)) rs)
    else []

/-- `store::list`. -/
def list (room : Nat) : List UInt8 := listNames room (iter blob)

end

/-- A hexadecimal digit. -/
def hexDigit (n : Nat) : UInt8 := if n < 10 then 48 + UInt8.ofNat n else 97 + UInt8.ofNat n - 10

/-- `store::file_name`: the number of a node in eight hexadecimal digits.  They are ASCII, so
the server's conversion of them to a string never fails. -/
def fileName (id : Nat) : Name :=
  [268435456, 16777216, 1048576, 65536, 4096, 256, 16, 1].map fun place => hexDigit (id / place % 16)

end Xattr

/-! ### The store in the image -/

namespace Tx

open Xattr

variable {B : Type} [ByteStore B]

/-- The store's directory, if there is one.  Only `ENOENT` is absence. -/
def findStore : Tx B (Option Nat) := do
  match ← attempt (ask (·.findNode rootNode storeDir)) with
  | .ok (id, _) => return some id
  | .error .enoent => return none
  | .error e => fail e

/-- A node's blob; empty when it has none. -/
def readAttrs (id : Nat) : Tx B (List UInt8) := do
  match ← findStore with
  | none => return []
  | some dir =>
    match ← attempt (ask (·.findNode dir (fileName id))) with
    | .error .enoent => return []
    | .error e => fail e
    | .ok (blobId, node) =>
      require (decide ((ByteStore.bytes node.body).length ≤ maxBytes)) .eio
      ask (·.readNode blobId 0 (ByteStore.bytes node.body).length)

def dropStoreIfEmpty : Tx B Unit := do
  match ← attempt (removeNode rootNode storeDir .directory) with
  | .ok _ => return ()
  | .error .enotempty => return ()
  | .error .enoent => return ()
  | .error e => fail e

/-- Take a node's attributes away. -/
def purgeAttrs (id : Nat) : Tx B Unit := do
  match ← findStore with
  | none => return ()
  | some dir =>
    match ← attempt (removeNode dir (fileName id) .file) with
    | .ok _ => dropStoreIfEmpty
    | .error .enoent => return ()
    | .error e => fail e

def openStore (now : Nat) : Tx B Nat := do
  match ← findStore with
  | some dir => return dir
  | none => createNode rootNode storeDir .directory now

/-- The store's file for a node, created if there is none. -/
def openBlob (dir id now : Nat) : Tx B Nat := do
  match ← attempt (ask (·.findNode dir (fileName id))) with
  | .ok (blobId, _) => return blobId
  | .error .enoent => createNode dir (fileName id) .file now
  | .error e => fail e

/-- Replace a node's blob; an empty one is removed. -/
def writeAttrs (id : Nat) (blob : List UInt8) (now : Nat) : Tx B Unit := do
  if blob = [] then purgeAttrs id
  else
    let dir ← openStore now
    let blobId ← openBlob dir id now
    let _ ← writeNode blobId 0 blob now
    -- a write does not shrink a file
    truncateNode blobId blob.length now

end Tx

end Nife
