/-
The storage engine under the file server (`vendor/redoxfs`, `transaction.rs`), as the server
meets it: nodes numbered by tree slots, directories as names for nodes, link counts, the table
of open nodes and the list of nodes unlinked while open.

What is kept from the source is which node a name or a number reaches, when a node's number is
freed and which number the next node takes, and every error the server can meet.  How blocks
hold all this (the tree's four levels, the hash trees of directories, the allocator) is not
modelled, and the device neither fails nor fills.  A file's bytes are behind `ByteStore`: the
engine keeps a small file inside its node and a larger one in records, and the server sees the
difference only where a file's number is used as a directory's.

A node carries the serial number of its creation.  The engine stores no such number; no
operation reads it, and it is what says that a node is the same object as before.
-/
import Mathlib.Data.List.AList
import Nife.SubtreeScope

namespace Nife

open Fallible Function

/-! ### A file's bytes -/

/-- Storage for one file's bytes. -/
class ByteStore (B : Type) where
  empty : B
  /-- Whether the bytes are kept inside the node. -/
  inline : B → Bool
  bytes : B → List UInt8
  /-- Write at an offset; the flag says whether anything changed. -/
  write : B → Nat → List UInt8 → Except Errno (B × Bool)
  truncate : B → Nat → Except Errno B
  /-- What is left of a file's records when directory blocks are written over them. -/
  overlay : B → B
  bytes_empty : bytes empty = []
  inline_empty : inline empty = true
  bytes_write : ∀ {b b' : B} {offset : Nat} {data : List UInt8} {changed : Bool},
    write b offset data = .ok (b', changed) → ((bytes b').drop offset).take data.length = data
  write_unchanged : ∀ {b b' : B} {offset : Nat} {data : List UInt8},
    write b offset data = .ok (b', false) → b' = b
  bytes_truncate : ∀ {b b' : B} {size : Nat}, truncate b size = .ok b' →
    (bytes b').length = size ∧ (size ≤ (bytes b).length → bytes b' = (bytes b).take size)

/-- Bytes kept as a list, with the engine's limit on what stays inside a node. -/
structure PlainBytes where
  inline : Bool
  bytes : List UInt8
  deriving DecidableEq, Repr

namespace PlainBytes

/-- `size_of::<NodeLevelData>`: a write that ends at or past it moves the bytes to records. -/
def inlineLimit : Nat := 3968

/-- The bytes with `data` written at `offset`; a gap reads as zeros. -/
def overwrite (bytes : List UInt8) (offset : Nat) (data : List UInt8) : List UInt8 :=
  bytes.take offset ++ List.replicate (offset - bytes.length) 0 ++ data ++
    bytes.drop (offset + data.length)

theorem take_drop_overwrite (bytes : List UInt8) (offset : Nat) (data : List UInt8) :
    ((overwrite bytes offset data).drop offset).take data.length = data := by
  have hlen : (bytes.take offset ++ List.replicate (offset - bytes.length) (0 : UInt8)).length =
      offset := by
    simp
    omega
  rw [overwrite, List.append_assoc, List.drop_left' hlen, List.take_left' rfl]

instance : ByteStore PlainBytes where
  empty := ⟨true, []⟩
  inline b := b.inline
  bytes b := b.bytes
  write b offset data :=
    .ok (⟨b.inline && decide (offset + data.length < inlineLimit),
      overwrite b.bytes offset data⟩, true)
  truncate b size := .ok ⟨b.inline, b.bytes.take size ++ List.replicate (size - b.bytes.length) 0⟩
  overlay _ := ⟨false, []⟩
  bytes_empty := rfl
  inline_empty := rfl
  bytes_write h := by
    cases h
    exact take_drop_overwrite _ _ _
  write_unchanged h := by cases h
  bytes_truncate h := by
    cases h
    refine ⟨by simp; omega, fun hle => ?_⟩
    rw [Nat.sub_eq_zero_of_le hle, List.replicate_zero, List.append_nil]

end PlainBytes

variable {B : Type}

/-! ### Nodes and images -/

/-- A node: a directory, a file or a symbolic link. -/
structure Node (B : Type) where
  kind : Kind
  (links mtime : Nat)
  /-- A file's bytes; a directory's are its names. -/
  body : B
  serial : Nat

/-- The names of an image: a directory's number and a name give a node's number. -/
abbrev NameTable := AList fun _ : Nat × Name => Nat

/-- A mounted image. -/
structure Image (B : Type) where
  nodes : Nat → Option (Node B)
  names : NameTable
  /-- `node_usages`; 0 where the table has no entry. -/
  usages : Nat → Nat
  /-- The release list: nodes unlinked while open. -/
  release : List Nat
  /-- How many nodes were ever created. -/
  created : Nat

/-- `TreePtr::root`. -/
def rootNode : Nat := 1

/-- `DIR_ENTRY_MAX_LENGTH`. -/
def dirEntryMaxLength : Nat := 252

namespace Image

def blank [ByteStore B] : Image B where
  nodes id := if id = rootNode then some ⟨.directory, 0, 0, ByteStore.empty, 0⟩ else none
  names := ∅
  usages _ := 0
  release := []
  created := 1

/-! ### Reading -/

section

variable (img : Image B)

/-- The node with a number, or `ENOENT`. -/
def readTree (id : Nat) : Except Errno (Node B) :=
  match img.nodes id with
  | some n => .ok n
  | none => .error .enoent

/-- `level_data`: `EIO` for a node whose bytes are inside it. -/
def levelData [ByteStore B] (n : Node B) : Except Errno Unit :=
  if n.kind ≠ .directory ∧ ByteStore.inline n.body then .error .eio else .ok ()

/-- The names in a directory, with the nodes they name. -/
def children (dir : Nat) : List (Name × Nat) :=
  img.names.entries.filterMap fun e => if e.1.1 = dir then some (e.1.2, e.2) else none

def childNodes [ByteStore B] (img : Image B) (dir : Nat) : Except Errno (List (Name × Nat)) := do
  let parent ← img.readTree dir
  levelData parent
  return img.children dir

def findNode [ByteStore B] (img : Image B) (dir : Nat) (name : Name) :
    Except Errno (Nat × Node B) := do
  let parent ← img.readTree dir
  levelData parent
  match img.names.lookup (dir, name) with
  | none => .error .enoent
  | some id =>
    let node ← img.readTree id
    return (id, node)

def checkName [ByteStore B] (img : Image B) (dir : Nat) (name : Name) : Except Errno Unit :=
  if (58 : UInt8) ∈ name then .error .einval
  else if dirEntryMaxLength < name.length then .error .einval
  else
    match img.findNode dir name with
    | .ok _ => .error .eexist
    | .error _ => .ok ()

def readNode [ByteStore B] (img : Image B) (id offset len : Nat) : Except Errno (List UInt8) := do
  let node ← img.readTree id
  return ((ByteStore.bytes node.body).drop offset).take len

/-! ### The tree's slots -/

/-- Whether a number is a slot of the tree: each of the four levels has 254 entries. -/
def treeSlot (id : Nat) : Bool :=
  id ≠ 0 ∧ id % 256 < 254 ∧ id / 256 % 256 < 254 ∧ id / 65536 % 256 < 254 ∧
    id / 16777216 % 256 < 254

/-- The first free slot among the `n` numbers from `id` on. -/
def firstFree (img : Image B) : Nat → Nat → Option Nat
  | 0, _ => none
  | n + 1, id =>
    if treeSlot id ∧ (img.nodes id).isNone then some id else firstFree img n (id + 1)

/-- How many numbers a `u32` has. -/
def slotLimit : Nat := 4294967296

/-! ### Changes of one image -/

def setNode (id : Nat) (n : Node B) : Image B :=
  { img with nodes := update img.nodes id (some n) }

/-- Directory blocks written into a node: nothing of a directory's own, and a file's records
are overwritten. -/
def markDirectory [ByteStore B] (img : Image B) (id : Nat) : Image B :=
  match img.nodes id with
  | some n =>
    if n.kind = .directory then img
    else img.setNode id { n with body := ByteStore.overlay n.body }
  | none => img

def addName [ByteStore B] (img : Image B) (dir : Nat) (name : Name) (id : Nat) : Image B :=
  { img.markDirectory dir with names := img.names.insert (dir, name) id }

def dropName [ByteStore B] (img : Image B) (dir : Nat) (name : Name) : Image B :=
  { img.markDirectory dir with names := img.names.erase (dir, name) }

/-- A node's slot freed, and with it the blocks that held its names. -/
def freeNode (id : Nat) : Image B :=
  { img with
    nodes := update img.nodes id none
    names := ⟨img.names.entries.filter fun e => e.1.1 ≠ id,
      img.names.nodupKeys.sublist List.filter_sublist⟩ }

end

end Image

/-! ### Transactions -/

/-- A computation on an image inside one transaction. -/
abbrev Tx (B : Type) := Act Errno (Image B)

namespace Tx

open Image

variable [ByteStore B]

/-- Put a new node in the first free slot, or `ENOSPC`. -/
def insertTree (kind : Kind) (ctime : Nat) : Tx B Nat := do
  let img ← get
  match img.firstFree slotLimit 0 with
  | none => fail .enospc
  | some id =>
    modify fun img =>
      { img.setNode id ⟨kind, 0, ctime, ByteStore.empty, img.created⟩ with
        created := img.created + 1 }
    return id

section

variable (dir : Nat)

def linkNode (name : Name) (id : Nat) : Tx B Unit := do
  let parent ← ask (·.readTree dir)
  let node ← ask (·.readTree id)
  lift (levelData parent)
  modify fun img => (img.addName dir name id).setNode id { node with links := node.links + 1 }

def createNode (name : Name) (kind : Kind) (ctime : Nat) : Tx B Nat := do
  ask (·.checkName dir name)
  let _ ← ask (·.readTree dir)
  let id ← insertTree kind ctime
  linkNode dir name id
  return id

/-- Put the node on the release list while it is open; free it otherwise. -/
def releaseNode (id : Nat) : Tx B Unit := do
  let img ← get
  if 0 < img.usages id then modify fun img => { img with release := img.release ++ [id] }
  else do
    let _ ← ask (·.readTree id)
    modify (·.freeNode id)

/-- Take a name away; the node's number comes back when it was the last. -/
def removeNode (name : Name) (mode : Kind) : Tx B (Option Nat) := do
  let parent ← ask (·.readTree dir)
  lift (levelData parent)
  let (id, node) ← ask (·.findNode dir name)
  let img ← get
  if mode = .directory then
    require (node.kind = .directory) .enotdir
    require (¬ (img.children id ≠ [] ∧ node.links = 1)) .enotempty
  else
    require (node.kind ≠ .directory) .eisdir
  modify (·.dropName dir name)
  if 1 < node.links then do
    modify (·.setNode id { node with links := node.links - 1 })
    return none
  else do
    -- the count of a node that goes is not written back
    releaseNode id
    return some id

def renameNode (origDir : Nat) (origName : Name) (newDir : Nat) (newName : Name) : Tx B Unit := do
  let (origId, orig) ← ask (·.findNode origDir origName)
  match ← attempt (ask (·.findNode newDir newName)) with
  | .ok (newId, new) =>
    if newId = origId then return ()
    else do
      let _ ← removeNode newDir newName new.kind
      relink origId orig
  | .error _ => relink origId orig
where
  relink (origId : Nat) (orig : Node B) : Tx B Unit := do
    ask (·.checkName newDir newName)
    linkNode newDir newName origId
    let _ ← removeNode origDir origName orig.kind
    return ()

def onOpenNode (id : Nat) : Tx B Unit := do
  let img ← get
  require (img.usages id + 1 < 18446744073709551616) .einval
  modify fun img => { img with usages := update img.usages id (img.usages id + 1) }

def releaseAll : List Nat → Tx B Unit
  | [] => pure ()
  | id :: ids => do
    releaseNode id
    releaseAll ids

/-- Free the nodes of the release list that are no longer open. -/
def releaseUnusedNodes : Tx B Unit := do
  let img ← get
  modify fun img => { img with release := img.release.filter fun id => 0 < img.usages id }
  releaseAll (img.release.filter fun id => img.usages id = 0)

def onCloseNode (id : Nat) : Tx B Unit := do
  let img ← get
  if img.usages id = 0 then return ()
  else do
    modify fun img => { img with usages := update img.usages id (img.usages id - 1) }
    if 0 < img.usages id - 1 then return () else releaseUnusedNodes

def writeNode (id offset : Nat) (data : List UInt8) (mtime : Nat) : Tx B Nat := do
  let node ← ask (·.readTree id)
  let (body, changed) ← lift (ByteStore.write node.body offset data)
  if changed then
    modify (·.setNode id { node with body := body, mtime := max node.mtime mtime })
  return data.length

def truncateNode (id size mtime : Nat) : Tx B Unit := do
  let node ← ask (·.readTree id)
  if (ByteStore.bytes node.body).length = size then return ()
  else do
    let body ← lift (ByteStore.truncate node.body size)
    modify (·.setNode id { node with body := body, mtime := max node.mtime mtime })

/-- Read a name's node and write it back with another modification time. -/
def setMtime (name : Name) (seconds : Nat) : Tx B Unit := do
  let (id, node) ← ask (·.findNode dir name)
  modify (·.setNode id { node with mtime := seconds })

end

end Tx

end Nife
