/-
The file server (`redoxfs_server`): one mounted image, the table of handles and what each
names and may do, the memo, and the bindings of badges to subtree grants.

Every verb of the source's `Server` is here under its name, as a computation on the server's
state that may fail and keeps what it did when it fails.  `perform` runs one operation of the
server, and a run of the server is any sequence of them.
-/
import Mathlib.Data.List.Sort
import Nife.AttributeStore
import Nife.Memo

namespace Nife

open Fallible Function

/-! ### Names -/

/-- `check_component`: one name, and neither the attribute store's nor one with a backslash or
a colon. -/
def checkComponent (name : Name) : Except Errno Unit :=
  if ¬ isName name ∨ name = Xattr.storeDir ∨ (92 : UInt8) ∈ name ∨ (58 : UInt8) ∈ name then
    .error .einval
  else .ok ()

def nameLe : Name → Name → Bool
  | [], _ => true
  | _ :: _, [] => false
  | a :: as, b :: bs => a < b ∨ (a = b ∧ nameLe as bs)

/-! ### Listings -/

section Listing

variable {B : Type} [ByteStore B]

/-- The children as `READDIR` lists them: each with its node and kind, in the order of their
names. -/
def Image.kinds (img : Image B) : List (Name × Nat) → Except Errno (List Child)
  | [] => .ok []
  | (name, id) :: rest => do
    let node ← img.readTree id
    let children ← img.kinds rest
    return ⟨name, id, node.kind⟩ :: children

/-- `list`: a directory's children without the attribute store. -/
def Image.list (img : Image B) (dir : Nat) : Except Errno (List Child) := do
  let entries ← img.childNodes dir
  let children ← img.kinds (entries.filter fun e => e.1 ≠ Xattr.storeDir)
  return children.insertionSort fun a b => nameLe a.name b.name

end Listing

/-- The records of `children` that fit in `room` bytes; a record is never split. -/
def encodeChildren : Nat → List Child → List UInt8
  | _, [] => []
  | room, c :: cs =>
    match Dirent.encode room (c.name, c.kind = .directory) with
    | some record => record ++ encodeChildren (room - record.length) cs
    | none => []

/-- `encode_listing`. -/
def encodeListing (listing : List Child) (cursor room : Nat) : List UInt8 :=
  encodeChildren room (listing.drop cursor)

/-! ### The server -/

/-- What one handle names, and what may be done through it. -/
inductive Entry
  | dir (ptr : Nat) (rights : DirRights)
  | file (ptr : Nat) (rights : DirRights)
  deriving DecidableEq, Repr

namespace Entry

def ptr : Entry → Nat
  | .dir p _ => p
  | .file p _ => p

def rights : Entry → DirRights
  | .dir _ r => r
  | .file _ r => r

end Entry

/-- The state of the file server. -/
structure Server (B : Type) where
  fs : Image B
  /-- The open handles; a handle is an index. -/
  handles : List (Option Entry)
  clock : Nat
  memo : Memo
  /-- The badge that minted each handle; 0 for a handle no bound badge minted. -/
  owners : List Nat
  bindings : Bindings clientWindows

/-- A verb of the server. -/
abbrev Serve (B : Type) := Act Errno (Server B)

namespace Server

variable {B : Type} [ByteStore B]

/-- `Server::open` on a mounted image: handle 0 is the root, with every right. -/
def opened (img : Image B) : Server B where
  fs := img
  handles := [some (.dir rootNode (DirRights.root Dir.all))]
  clock := 1
  memo := Memo.empty
  owners := [0]
  bindings := Bindings.new

/-! ### Handles -/

def entryAt (s : Server B) (h : Nat) : Option Entry := s.handles[h]?.join

section

variable (h : Nat)

def entry : Serve B Entry :=
  ask fun s =>
    match s.entryAt h with
    | some e => .ok e
    | none => .error .ebadf

def dirAt : Serve B (Nat × DirRights) := do
  match ← entry h with
  | .dir ptr rights => return (ptr, rights)
  | .file .. => fail .enotdir

def fileAt (needed : UInt64) (refusal : Errno) : Serve B Nat := do
  match ← entry h with
  | .file ptr rights =>
    require (rights.allows needed) refusal
    return ptr
  | .dir .. => fail .eisdir

def nodeAt (needed : UInt64) (refusal : Errno) : Serve B Nat := do
  let e ← entry h
  require (e.rights.allows needed) refusal
  return e.ptr

/-- The first free slot of the table, or the one past its end. -/
def freeSlot (s : Server B) : Nat := s.handles.findIdx (·.isNone)

/-- Put an entry in the table, in a freed slot before growing it. -/
def install (e : Entry) : Serve B Nat := do
  let s ← get
  let i := s.freeSlot
  modify fun s =>
    if i < s.handles.length then
      { s with handles := s.handles.set i (some e), owners := s.owners.set i 0 }
    else { s with handles := s.handles ++ [some e], owners := s.owners ++ [0] }
  return i

/-! ### Transactions -/

/-- `fs.tx`: a failed transaction leaves the image as it was; the table of open nodes is not
part of the transaction. -/
def tx {α : Type} (m : Tx B α) : Serve B α := fun s =>
  match run m s.fs with
  | (.ok a, img) => (.ok a, { s with fs := img })
  | (.error e, img) => (.error e, { s with fs := { s.fs with usages := img.usages } })

/-- A transaction that changes nothing. -/
def look {α : Type} (m : Tx B α) : Serve B α := tx m

/-- A transaction that changes the namespace or a node: everything remembered is forgotten
first. -/
def change {α : Type} (m : Tx B α) : Serve B α := do
  modify fun s => { s with memo := s.memo.forget }
  tx m

/-- A transaction that changes one file's bytes. -/
def changeFile {α : Type} (ptr : Nat) (m : Tx B α) : Serve B α := do
  modify fun s => { s with memo := s.memo.forgetFile ptr }
  tx m

def tick : Serve B Nat := do
  modify fun s => { s with clock := s.clock + 1 }
  let s ← get
  return s.clock

/-! ### Paths -/

/-- A name in a directory, and what it is: from the memo when it can answer, from the engine
otherwise, and remembered. -/
def lookup (parent : Nat) (name : Name) : Serve B (Nat × Kind) := do
  let s ← get
  match s.memo.lookup parent name with
  | some (some found) => return found
  | some none => fail .enoent
  | none =>
    let (ptr, node) ← look (ask (·.findNode parent name))
    modify fun s => { s with memo := s.memo.keepFound parent name ptr node.kind }
    return (ptr, node.kind)

/-- The child directory `name` of `parent`, once `rights` allows `needed`. -/
def childDir (parent : Nat) (rights : DirRights) (name : Name) (needed : UInt64) :
    Serve B (Nat × DirRights) := do
  require (rights.allows needed) .enoent
  let (ptr, kind) ← lookup parent name
  match landing kind true with
  | some r => fail r.errno
  | none => return (ptr, rights)

/-- Every component is checked before any is looked up. -/
def checkComponents (path : Name) : Except Errno Unit :=
  if (path.splitOn separator).all fun c => (checkComponent c).toOption.isSome then .ok ()
  else .error .einval

/-- Every component of `path` but the last, descended from `handle`, and the last. -/
def walkPrefix (path : Name) (hop : UInt64) : Serve B (Nat × DirRights × Name) := do
  let (ptr, rights) ← dirAt h
  lift (checkComponents path)
  walk lookup ptr rights path hop

/-! ### Verbs that mint a handle -/

/-- Count one more open of a node. -/
def countOpen (ptr : Nat) : Serve B Unit := do
  let s ← get
  require (s.fs.usages ptr + 1 < 18446744073709551616) .einval
  modify fun s =>
    { s with fs := { s.fs with usages := update s.fs.usages ptr (s.fs.usages ptr + 1) } }

def openFilePath (name : Name) (requested : UInt64) : Serve B Nat := do
  let (parent, rights, last) ← walkPrefix h name requested
  require (!rights.deniesAll (Dir.read ||| Dir.write)) .enoent
  let (ptr, kind) ← lookup parent last
  require (kind ≠ .directory) .eisdir
  match landing kind false with
  | some r => fail r.errno
  | none =>
    countOpen ptr
    install (.file ptr (rights.attenuate (Dir.read ||| Dir.write)))

def openDir (name : Name) (requested : UInt64) : Serve B Nat := do
  let (parent, rights, last) ← walkPrefix h name requested
  let (ptr, rights) ← childDir parent rights last Dir.descend
  require (rights.attenuate requested = DirRights.root requested) .eperm
  install (.dir ptr (rights.attenuate requested))

def createAbsent (parent : Nat) (name : Name) (kind : Kind) (now : Nat) : Tx B Nat := do
  match ← attempt (ask (·.findNode parent name)) with
  | .ok _ => fail .eexist
  | .error _ => Tx.createNode parent name kind now

def makeDir (name : Name) (requested : UInt64) : Serve B Nat := do
  lift (checkComponent name)
  let (parent, rights) ← dirAt h
  require (rights.allows Dir.create) .erofs
  require (rights.allows Dir.descend) .eperm
  require (rights.attenuate requested = DirRights.root requested) .eperm
  let now ← tick
  let ptr ← change (createAbsent parent name .directory now)
  install (.dir ptr (rights.attenuate requested))

def createFileAt (name : Name) : Serve B Nat := do
  lift (checkComponent name)
  let (parent, rights) ← dirAt h
  require (rights.allows Dir.create) .erofs
  let now ← tick
  let ptr ← change do
    let ptr ← createAbsent parent name .file now
    Tx.onOpenNode ptr
    return ptr
  install (.file ptr (rights.attenuate (Dir.read ||| Dir.write)))

/-! ### Reading and writing -/

def readDir (h cursor room : Nat) : Serve B (List UInt8) := do
  let (ptr, rights) ← dirAt h
  require (rights.allows Dir.enumerate) .eperm
  let s ← get
  match s.memo.listing ptr with
  | some listing => return encodeListing listing cursor room
  | none =>
    let listing ← look (ask (·.list ptr))
    modify fun s => { s with memo := s.memo.keepListing ptr listing }
    return encodeListing listing cursor room

/-- A small file's whole body. -/
def smallBody (ptr : Nat) : Tx B (Option (List UInt8)) := do
  let node ← ask (·.readTree ptr)
  let size := (ByteStore.bytes node.body).length
  if ¬ Memo.wouldKeep size then return none
  else do
    let body ← ask (·.readNode ptr 0 size)
    return some body

/-- The first read of a file since anything changed: a small one is read whole. -/
def fillFile (ptr : Nat) : Serve B Unit := do
  let s ← get
  if (s.memo.file ptr).isNone ∧ ¬ s.memo.isLarge ptr then
    match ← look (smallBody ptr) with
    | some body => modify fun s => { s with memo := s.memo.keepFile ptr body }
    | none => modify fun s => { s with memo := s.memo.markLarge ptr }
  else return ()

def read (h offset len : Nat) : Serve B (List UInt8) := do
  let ptr ← fileAt h Dir.read .ebadf
  fillFile ptr
  let s ← get
  match s.memo.file ptr with
  | some body => return (body.drop offset).take len
  | none => look (ask (·.readNode ptr offset len))

def write (h offset : Nat) (data : List UInt8) : Serve B Nat := do
  let ptr ← fileAt h Dir.write .erofs
  let now ← tick
  changeFile ptr (Tx.writeNode ptr offset data now)

def fstat : Serve B Nat := do
  let ptr ← fileAt h 0 .ebadf
  let s ← get
  match s.memo.file ptr with
  | some body => return body.length
  | none =>
    let node ← look (ask (·.readTree ptr))
    return (ByteStore.bytes node.body).length

def truncate (h size : Nat) : Serve B Unit := do
  let ptr ← fileAt h Dir.write .erofs
  let now ← tick
  changeFile ptr (Tx.truncateNode ptr size now)

/-! ### Names that move and go -/

/-- The transaction of `rename`. -/
def renameTx (srcParent : Nat) (src : Name) (dstParent : Nat) (dst : Name) : Tx B Unit := do
  let (id, node) ← ask (·.findNode srcParent src)
  require (¬ (node.kind = .directory ∧ srcParent ≠ dstParent)) .einval
  match ← attempt (ask (·.findNode dstParent dst)) with
  | .ok (existingId, existing) =>
    if existingId = id then return ()
    else do
      require (¬ (existing.kind = .directory ∧ node.kind ≠ .directory)) .eisdir
      require (¬ (existing.kind ≠ .directory ∧ node.kind = .directory)) .enotdir
      Tx.renameNode srcParent src dstParent dst
      -- the replaced node's attributes go with its last name
      if existing.links = 1 then Tx.purgeAttrs existingId else return ()
  | .error _ => Tx.renameNode srcParent src dstParent dst

def rename (srcDir : Nat) (src : Name) (dstDir : Nat) (dst : Name) : Serve B Unit := do
  lift (checkComponent src)
  lift (checkComponent dst)
  let (srcParent, srcRights) ← dirAt srcDir
  let (dstParent, dstRights) ← dirAt dstDir
  require (srcRights.allows Dir.remove && dstRights.allows Dir.create) .erofs
  change (renameTx srcParent src dstParent dst)

/-- Take a name away, and the node's attributes with its last name. -/
def removeTx (parent : Nat) (name : Name) (mode : Kind) : Tx B Unit := do
  match ← Tx.removeNode parent name mode with
  | some id => Tx.purgeAttrs id
  | none => return ()

/-- `unlink` and `rmdir`, which differ in the kind they remove. -/
def removeName (mode : Kind) (h : Nat) (name : Name) : Serve B Unit := do
  lift (checkComponent name)
  let (parent, rights) ← dirAt h
  require (rights.allows Dir.remove) .erofs
  change (removeTx parent name mode)

def unlink (name : Name) : Serve B Unit := removeName .file h name

def rmdir (name : Name) : Serve B Unit := removeName .directory h name

/-! ### Modification times -/

def mtime (h : Nat) (name : Name) : Serve B Nat := do
  lift (checkComponent name)
  let (parent, rights) ← dirAt h
  require (rights.allows Dir.read) .enoent
  let (_, node) ← look (ask (·.findNode parent name))
  return node.mtime

def setMtimeNow (name : Name) : Serve B Unit := do
  lift (checkComponent name)
  let (parent, rights) ← dirAt h
  require (rights.allows Dir.write) .erofs
  let now ← tick
  change (Tx.setMtime parent name now)

def setMtimeAt (name : Name) (seconds : Nat) : Serve B Unit := do
  lift (checkComponent name)
  let (parent, rights) ← dirAt h
  require (rights.allows (Dir.write ||| Dir.setTime)) .erofs
  change (Tx.setMtime parent name seconds)

/-! ### Extended attributes -/

def attributeTx (ptr : Nat) (name : Name) (room : Nat) : Tx B (Nat × List UInt8) := do
  let blob ← Tx.readAttrs ptr
  match Xattr.get blob name with
  | none => fail .enodata
  | some (kind, value) =>
    require (value.length ≤ room) .erange
    return (kind, value)

def getXattr (name : Name) (room : Nat) : Serve B (Nat × List UInt8) := do
  require (Xattr.isValidName name) .erange
  let ptr ← nodeAt h Dir.read .ebadf
  look (attributeTx ptr name room)

def setAttributeTx (ptr : Nat) (name : Name) (kind : Nat) (value : List UInt8) (now : Nat) :
    Tx B Unit := do
  let blob ← Tx.readAttrs ptr
  let out ← lift (Xattr.set blob name kind value
    (blob.length + Xattr.recordLen name.length value.length))
  Tx.writeAttrs ptr out now

def setXattr (name : Name) (kind : Nat) (value : List UInt8) : Serve B Unit := do
  require (Xattr.isValidName name) .erange
  require (value.length ≤ Xattr.maxValue) .e2big
  let ptr ← nodeAt h Dir.write .erofs
  let now ← tick
  change (setAttributeTx ptr name kind value now)

def namesTx (ptr room : Nat) : Tx B (List UInt8) := do
  let blob ← Tx.readAttrs ptr
  return Xattr.list blob room

def listXattr (h room : Nat) : Serve B (List UInt8) := do
  let ptr ← nodeAt h Dir.read .ebadf
  look (namesTx ptr room)

def removeAttributeTx (ptr : Nat) (name : Name) (now : Nat) : Tx B Unit := do
  let blob ← Tx.readAttrs ptr
  let out ← lift (Xattr.remove blob name blob.length)
  Tx.writeAttrs ptr out now

def removeXattr (name : Name) : Serve B Unit := do
  require (Xattr.isValidName name) .erange
  let ptr ← nodeAt h Dir.write .erofs
  let now ← tick
  change (removeAttributeTx ptr name now)

/-! ### Closing -/

/-- Count one open of a node less; the engine frees what was unlinked while open. -/
def countClose (ptr : Nat) : Serve B Unit := do
  let s ← get
  let uses := s.fs.usages ptr
  if uses = 0 then return ()
  else if 1 < uses then
    modify fun s => { s with fs := { s.fs with usages := update s.fs.usages ptr (uses - 1) } }
  else if s.fs.release = [] then
    modify fun s => { s with fs := { s.fs with usages := update s.fs.usages ptr 0 } }
  else tx (Tx.onCloseNode ptr)

/-- Release a handle; the bound directory cannot be closed. -/
def close : Serve B Unit := do
  require (h ≠ 0) .einval
  let e ← entry h
  modify fun s => { s with handles := s.handles.set h none }
  match e with
  | .dir .. => return ()
  | .file ptr _ => countClose ptr

/-! ### The image and the device -/

/-- The check of `statfs`; the numbers it answers are the allocator's. -/
def statfs : Serve B Unit := do
  let _ ← entry h
  return ()

def syncPermitted : Serve B Unit := do
  let _ ← nodeAt h Dir.write .erofs
  return ()

end

/-! ### Subtree grants -/

section

variable (s : Server B)

/-- The badge that minted a handle, if the handle is open. -/
def owner (h : Nat) : Option Nat :=
  match s.entryAt h with
  | some _ => some (s.owners.getD h 0)
  | none => none

/-- The handle a request under `badge` may use.  The cast to `u32` keeps an index of the
table as it is. -/
def admitted (badge requested : Nat) : Except Errno Nat :=
  match admitHandle (s.bindings.of badge) badge requested (s.owner requested) with
  | .ok h => .ok (if h < s.handles.length then h else h % 4294967296)
  | .error r => .error r.errno

def isScoped (badge : Nat) : Bool := s.bindings.of badge ≠ .opened

/-- Record that `badge` minted a handle, if `badge` is bound. -/
def claim (h badge : Nat) : Serve B Unit :=
  modify fun s =>
    match s.bindings.of badge with
    | .bound _ => { s with owners := s.owners.set h badge }
    | _ => s

def bind (caller h badge : Nat) : Serve B Unit := do
  let _ ← dirAt h
  let s ← get
  match s.bindings.bind caller badge h with
  | .ok bindings => modify fun s => { s with bindings := bindings }
  | .error r => fail r.errno

/-- Close the handles of a list, whatever each close answers. -/
def closeMinted : List Nat → Serve B Unit
  | [] => return ()
  | h :: hs => do
    modify fun s => { s with owners := s.owners.set h 0 }
    let _ ← attempt (close h)
    closeMinted hs

def mintedBy (badge : Nat) : List Nat :=
  (List.range s.owners.length).filter fun h => s.owner h = some badge

end

/-- Take `badge`'s grant back: close what it minted and the grant's root. -/
def unbind (caller badge : Nat) : Serve B Unit := do
  let s ← get
  match s.bindings.unbind caller badge with
  | .error r => fail r.errno
  | .ok (root, bindings) =>
    modify fun s => { s with bindings := bindings }
    closeMinted (s.mintedBy badge)
    if root ≠ 0 then do
      let _ ← attempt (close root)
      return ()
    else return ()

end Server

/-! ### Operations -/

/-- The operations of the server. -/
inductive ServerOp
  | openFilePath (h : Nat) (name : Name) (requested : UInt64)
  | openDir (h : Nat) (name : Name) (requested : UInt64)
  | makeDir (h : Nat) (name : Name) (requested : UInt64)
  | createFileAt (h : Nat) (name : Name)
  | readDir (h cursor room : Nat)
  | read (h offset len : Nat)
  | write (h offset : Nat) (data : List UInt8)
  | fstat (h : Nat)
  | truncate (h size : Nat)
  | rename (srcDir : Nat) (src : Name) (dstDir : Nat) (dst : Name)
  | unlink (h : Nat) (name : Name)
  | rmdir (h : Nat) (name : Name)
  | mtime (h : Nat) (name : Name)
  | setMtimeNow (h : Nat) (name : Name)
  | setMtimeAt (h : Nat) (name : Name) (seconds : Nat)
  | getXattr (h : Nat) (name : Name) (room : Nat)
  | setXattr (h : Nat) (name : Name) (kind : Nat) (value : List UInt8)
  | listXattr (h room : Nat)
  | removeXattr (h : Nat) (name : Name)
  | close (h : Nat)
  | statfs (h : Nat)
  | syncPermitted (h : Nat)
  | claim (h badge : Nat)
  | bind (caller h badge : Nat)
  | unbind (caller badge : Nat)

/-- What an operation answers. -/
inductive ServerAnswer
  | done
  | handle (h : Nat)
  | bytes (data : List UInt8)
  | number (n : Nat)
  | attribute (kind : Nat) (value : List UInt8)
  deriving DecidableEq, Repr

namespace Server

variable {B : Type} [ByteStore B]

def andDone (m : Serve B Unit) : Serve B ServerAnswer := do
  m
  return .done

/-- One operation. -/
def perform : ServerOp → Serve B ServerAnswer
  | .openFilePath h name requested => .handle <$> openFilePath h name requested
  | .openDir h name requested => .handle <$> openDir h name requested
  | .makeDir h name requested => .handle <$> makeDir h name requested
  | .createFileAt h name => .handle <$> createFileAt h name
  | .readDir h cursor room => .bytes <$> readDir h cursor room
  | .read h offset len => .bytes <$> read h offset len
  | .write h offset data => .number <$> write h offset data
  | .fstat h => .number <$> fstat h
  | .truncate h size => andDone (truncate h size)
  | .rename srcDir src dstDir dst => andDone (rename srcDir src dstDir dst)
  | .unlink h name => andDone (unlink h name)
  | .rmdir h name => andDone (rmdir h name)
  | .mtime h name => .number <$> mtime h name
  | .setMtimeNow h name => andDone (setMtimeNow h name)
  | .setMtimeAt h name seconds => andDone (setMtimeAt h name seconds)
  | .getXattr h name room => (fun r => .attribute r.1 r.2) <$> getXattr h name room
  | .setXattr h name kind value => andDone (setXattr h name kind value)
  | .listXattr h room => .bytes <$> listXattr h room
  | .removeXattr h name => andDone (removeXattr h name)
  | .close h => andDone (close h)
  | .statfs h => andDone (statfs h)
  | .syncPermitted h => andDone (syncPermitted h)
  | .claim h badge => andDone (claim h badge)
  | .bind caller h badge => andDone (bind caller h badge)
  | .unbind caller badge => andDone (unbind caller badge)

end Server

end Nife
