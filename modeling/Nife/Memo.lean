/-
What the file server remembers between requests (`redoxfs_server`, `memo.rs`): the listings of
directories, names found one at a time, the bytes of small files and the numbers of files too
large to keep.  Each half has a budget and a count beside it of what it holds.
-/
import Mathlib.Data.Finset.Basic
import Nife.RedoxFs

namespace Nife

/-- The largest file whose bytes are kept. -/
def fileMax : Nat := 262144

def fileBudget : Nat := 2097152

/-- The most names kept at once. -/
def nameBudget : Nat := 16384

/-- One child in a listing. -/
structure Child where
  name : Name
  ptr : Nat
  kind : Kind
  deriving DecidableEq, Repr

abbrev Found := AList fun _ : Name => Nat × Kind

/-- What the server remembers of the image. -/
structure Memo where
  listings : AList fun _ : Nat => List Child
  found : AList fun _ : Nat => Found
  /-- Names held across `listings` and `found`. -/
  names : Nat
  files : AList fun _ : Nat => List UInt8
  fileBytes : Nat
  large : Finset Nat

namespace Memo

/-- `Memo::default`. -/
def empty : Memo := ⟨∅, ∅, 0, ∅, 0, ∅⟩

section

variable (m : Memo)

def forgetFiles : Memo := { m with files := ∅, fileBytes := 0, large := ∅ }

/-- Forget everything: a namespace changed. -/
def forget : Memo := { m with listings := ∅, found := ∅, names := 0 }.forgetFiles

/-- Forget one file's bytes. -/
def forgetFile (id : Nat) : Memo :=
  { m with
    files := m.files.erase id
    fileBytes := m.fileBytes - ((m.files.lookup id).elim 0 List.length)
    large := m.large.erase id }

def listing (dir : Nat) : Option (List Child) := m.listings.lookup dir

/-- Drop every name when `n` more would not fit. -/
def roomFor (n : Nat) : Memo :=
  if nameBudget < m.names + n then { m with listings := ∅, found := ∅, names := 0 } else m

/-- Keep a directory's listing. -/
def keepListing (dir : Nat) (children : List Child) : Memo :=
  if nameBudget < children.length then m
  else
    let m := m.roomFor children.length
    -- a listing answers every name, so the names found one at a time go
    let m := { m with
      found := m.found.erase dir
      names := m.names - ((m.found.lookup dir).elim 0 fun f => f.entries.length) }
    { m with
      listings := m.listings.insert dir children
      names := m.names + children.length - ((m.listings.lookup dir).elim 0 List.length) }

def foundIn (dir : Nat) : Found := (m.found.lookup dir).getD ∅

def keepFound (dir : Nat) (name : Name) (child : Nat) (kind : Kind) : Memo :=
  if (m.listings.lookup dir).isSome then m
  else
    let m := m.roomFor 1
    { m with
      found := m.found.insert dir ((m.foundIn dir).insert name (child, kind))
      names := if ((m.foundIn dir).lookup name).isNone then m.names + 1 else m.names }

/-- A name in a directory: `none` if nothing kept answers it, `some none` if the directory's
listing is kept and the name is not in it. -/
def lookup (m : Memo) (dir : Nat) (name : Name) : Option (Option (Nat × Kind)) :=
  match m.listing dir with
  | none => ((m.foundIn dir).lookup name).map some
  | some list => some ((list.find? fun c => c.name = name).map fun c => (c.ptr, c.kind))

/-- A file's bytes. -/
def file (id : Nat) : Option (List UInt8) := m.files.lookup id

def wouldKeep (size : Nat) : Bool := size ≤ fileMax

def isLarge (id : Nat) : Bool := id ∈ m.large

def markLarge (id : Nat) : Memo := { m with large := insert id m.large }

/-- Keep a file's bytes, dropping every file first if they would not fit. -/
def keepFile (id : Nat) (body : List UInt8) : Memo :=
  if fileMax < body.length then m
  else
    let m := if fileBudget < m.fileBytes + body.length then m.forgetFiles else m
    { m with
      files := m.files.insert id body
      fileBytes := m.fileBytes + body.length - ((m.files.lookup id).elim 0 List.length) }

end

end Memo

end Nife
