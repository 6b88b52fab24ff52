/-
The rights a directory handle carries (`filesystem_protocol::dir`) and what a subtree grant
can reach (`crates/subtree_scope`): which byte strings are names, how a path is walked one
component at a time, what a badge is to a server, and which handle a request under a badge
may use.

A path's lookups are the server's, so `walk` is given the lookup as a computation on the
server's state; its other steps read nothing but the path and the rights.
-/
import Nife.FilesystemProtocol
import Nife.Lib.Fallible

namespace Nife

open Fallible

/-! ### Errors -/

/-- The errors of the file service. -/
inductive Errno
  | eperm | enoent | eio | e2big | ebadf | eexist | exdev | enotdir | eisdir | einval | enospc
  | erofs | erange | enotempty | eloop | enodata
  deriving DecidableEq, Repr

/-! ### DirRights -/

namespace Dir

def enumerate : UInt64 := 1
def read : UInt64 := 2
def write : UInt64 := 4
def create : UInt64 := 8
def remove : UInt64 := 16
def descend : UInt64 := 32
def setTime : UInt64 := 64

/-- Every right the contract defines. -/
def all : UInt64 := enumerate ||| read ||| write ||| create ||| remove ||| descend ||| setTime

end Dir

/-- A rights set on one directory or file handle. -/
structure DirRights where
  bits : UInt64
  deriving DecidableEq, Repr

namespace DirRights

/-- The rights the endpoint's bound directory carries. -/
def root (mask : UInt64) : DirRights := ⟨mask &&& Dir.all⟩

section

variable (r : DirRights)

/-- What the parent has, intersected with what was asked for. -/
def attenuate (requested : UInt64) : DirRights := ⟨r.bits &&& requested⟩

def allows (needed : UInt64) : Bool := r.bits &&& needed = needed

def deniesAll (any : UInt64) : Bool := r.bits &&& any = 0

end

end DirRights

/-! ### Names and walks -/

/-- A name, as the bytes the wire carries. -/
abbrev Name := List UInt8

/-- Why a binding is refused. -/
inductive Refusal
  | malformed | notFound | notADirectory | narrowed | symlink | mountCrossing | notYours | refused
  deriving DecidableEq, Repr

def Refusal.errno : Refusal → Errno
  | .malformed => .einval
  | .notFound => .enoent
  | .notADirectory => .enotdir
  | .narrowed => .eperm
  | .refused => .eperm
  | .symlink => .eloop
  | .mountCrossing => .exdev
  | .notYours => .ebadf

/-- What a server found under a name. -/
inductive Kind
  | directory | file | symlink | mountPoint
  deriving DecidableEq, Repr

/-- `/`. -/
def separator : UInt8 := 47

/-- Whether `c` is one name: not empty, not `.` or `..`, and free of `/` and NUL. -/
def isName (c : Name) : Bool :=
  c ≠ [] ∧ c ≠ [46] ∧ c ≠ [46, 46] ∧ separator ∉ c ∧ (0 : UInt8) ∉ c

def checkPath (path : Name) : Bool := (path.splitOn separator).all isName

/-- Whether a verb may land on a node of this kind: `none`, or why not. -/
def landing : Kind → Bool → Option Refusal
  | .symlink, _ => some .symlink
  | .mountPoint, _ => some .mountCrossing
  | .directory, true => none
  | .file, false => none
  | .file, true => some .notADirectory
  | .directory, false => some .malformed

/-- The steps of `walk`: each needs `DESCEND` on the directory it leaves, lands on a
directory, and carries `DESCEND | hop` or is refused. -/
def walkSteps {σ N : Type*} (lookup : N → Name → Act Errno σ (N × Kind)) (hop : UInt64) :
    N → DirRights → List Name → Act Errno σ (N × DirRights)
  | node, rights, [] => pure (node, rights)
  | node, rights, step :: rest =>
    if ¬ rights.allows Dir.descend then fail Refusal.notFound.errno
    else do
      let (child, kind) ← lookup node step
      match landing kind true with
      | some r => fail r.errno
      | none =>
        let granted := rights.attenuate (Dir.descend ||| hop)
        if granted ≠ DirRights.root (Dir.descend ||| hop) then fail Refusal.narrowed.errno
        else walkSteps lookup hop child granted rest

/-- Resolve every component of `path` but the last. -/
def walk {σ N : Type*} (lookup : N → Name → Act Errno σ (N × Kind)) (start : N) (rights : DirRights)
    (path : Name) (hop : UInt64) : Act Errno σ (N × DirRights × Name) :=
  if ¬ checkPath path then fail Refusal.malformed.errno
  else do
    let steps := path.splitOn separator
    let (node, rights) ← walkSteps lookup hop start rights steps.dropLast
    pure (node, rights, steps.getLastD [])

/-! ### Bindings -/

/-- What one badge is to a server. -/
inductive Binding
  | opened
  | bound (root : Nat)
  | revoked
  deriving DecidableEq, Repr

/-- The handle a request under `badge` may use, or why not: `requested` is the handle the
client sent and `owner` the badge that minted it, if such a handle is open. -/
def admitHandle (binding : Binding) (badge requested : Nat) (owner : Option Nat) :
    Except Refusal Nat :=
  match binding with
  | .opened => .ok requested
  | .revoked => .error .notYours
  | .bound root =>
    if requested = 0 then .ok root
    else if owner = some badge then .ok requested
    else .error .notYours

/-- `fs::CLIENT_WINDOWS`. -/
def clientWindows : Nat := 8

/-- Every badge's binding, for a server with `B` client windows; badge `b` is index `b`. -/
structure Bindings (B : Nat) where
  state : Nat → Binding

namespace Bindings

variable {B : Nat}

/-- Every badge open. -/
def new : Bindings B := ⟨fun _ => .opened⟩

/-- The table slot for `badge`; a badge past the windows folds to 0. -/
def index (B badge : Nat) : Nat := if badge < B then badge else 0

section

variable (b : Bindings B)

/-- What `badge` is.  Badge 0 is always open; a badge with no window reaches nothing. -/
def of (badge : Nat) : Binding :=
  if badge ≠ 0 ∧ B ≤ badge then .revoked
  else if index B badge = 0 then .opened
  else b.state (index B badge)

def set (i : Nat) (v : Binding) : Bindings B := ⟨Function.update b.state i v⟩

/-- Bind `badge` to the directory handle `root`, asked for by `caller`. -/
def bind (caller badge root : Nat) : Except Refusal (Bindings B) :=
  if b.of caller ≠ .opened then .error .refused
  else
    match index B badge, b.state (index B badge) with
    | 0, _ => .error .refused
    | _, .bound _ => .error .refused
    | i, _ => .ok (b.set i (.bound root))

/-- Take `badge`'s grant back, asked for by `caller`; the grant's root comes back. -/
def unbind (caller badge : Nat) : Except Refusal (Nat × Bindings B) :=
  if b.of caller ≠ .opened then .error .refused
  else
    match index B badge, b.state (index B badge) with
    | 0, _ => .error .refused
    | i, .bound root => .ok (root, b.set i .revoked)
    | _, _ => .error .refused

end

end Bindings

end Nife
