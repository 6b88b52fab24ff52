/-
What a capability is (`crates/capability`, `kernel/src/cap.rs`): the object it names and the
rights it carries, and the 32-slot table each thread holds its capabilities in.

A `Cap` also carries two ghosts that no modelled function reads.  `stamp` is the time of the
message that carried this copy (for a `Reply`, of the `CALL` it answers); `born` is the time
the `RETYPE` or `SLICE` that first minted it began.  Object equality, which is what every
sweep compares, does not see them.
-/
import Mathlib.Data.PNat.Defs
import Mathlib.Data.List.FinRange

namespace Nife

/-- The name of a thread. -/
abbrev ThreadId := Nat

/-- The name of an endpoint. -/
abbrev RendezvousId := Nat

/-- The name of a notification. -/
abbrev NotificationId := Nat

/-! ### Rights -/

/-- A mask of rights. -/
structure Rights where
  bits : BitVec 32
  deriving DecidableEq, Repr

namespace Rights

def none : Rights := ⟨0⟩

def read : Rights := ⟨1⟩

def write : Rights := ⟨2⟩

def grant : Rights := ⟨4⟩

def enumerate : Rights := ⟨8⟩

def all : Rights := ⟨0b1111⟩

def fromBits (bits : BitVec 32) : Rights := ⟨bits &&& all.bits⟩

def allows (self needed : Rights) : Bool := self.bits &&& needed.bits == needed.bits

def isSubsetOf (self other : Rights) : Bool := self.bits &&& ~~~other.bits == 0

end Rights

/-! ### Objects and capabilities -/

/-- What a capability can name.  A `Rendezvous` carries the badge of this copy; a `PageFrame`
is a run of `count` frames from `phys`, never empty. -/
inductive Object
  | rendezvous (ep : RendezvousId) (badge : Nat)
  | memoryRegion (region : Nat)
  | irq (intid : Nat)
  | pageFrame (phys : Nat) (count : ℕ+)
  | deviceFrame (phys : Nat)
  | reply (caller : ThreadId)
  | addressSpace (id : Nat)
  | threadControlBlock (tid : ThreadId)
  | notification (id : NotificationId)
  | timer (id : Nat)
  | virtio (id : Nat)
  | portRange (base count : Nat)
  deriving DecidableEq, Repr

/-- A capability of the kernel. -/
structure Cap where
  object : Object
  rights : Rights
  (stamp born : Nat)
  deriving DecidableEq, Repr

namespace Cap

/-- The one-shot capability minted for a `CALL`: it may be invoked and not passed on. -/
def reply (caller : ThreadId) (stamp : Nat) : Cap := ⟨.reply caller, .write, stamp, 0⟩

def isReply (c : Cap) : Bool :=
  match c.object with
  | .reply _ => true
  | _ => false

end Cap

/-! ### Capability tables -/

def capabilityTableSlots : Nat := 32

/-- `CapabilityTable`: its slots.  The free mask and the counters the source keeps beside
them are functions of the slots. -/
structure CapabilityTable where
  slots : Fin capabilityTableSlots → Option Cap

namespace CapabilityTable

def new : CapabilityTable := ⟨fun _ => none⟩

section

variable (t : CapabilityTable)

def get (slot : Nat) : Option Cap :=
  if h : slot < capabilityTableSlots then t.slots ⟨slot, h⟩ else none

/-- The lowest empty slot. -/
def firstFree : Option (Fin capabilityTableSlots) :=
  (List.finRange capabilityTableSlots).find? fun i => (t.slots i).isNone

def fill (slot : Fin capabilityTableSlots) (cap : Cap) : CapabilityTable :=
  ⟨Function.update t.slots slot (some cap)⟩

/-- Fill the lowest empty slot; `none` when the table is full. -/
def insert (cap : Cap) : Option (CapabilityTable × Nat) :=
  t.firstFree.map fun slot => (t.fill slot cap, slot.val)

/-- Fill the slot asked for; `none` when there is no such slot or it is taken. -/
def insertAt (slot : Nat) (cap : Cap) : Option (CapabilityTable × Nat) :=
  if h : slot < capabilityTableSlots then
    if (t.slots ⟨slot, h⟩).isSome then none else some (t.fill ⟨slot, h⟩ cap, slot)
  else none

def insertInto (target : Option Nat) (cap : Cap) : Option (CapabilityTable × Nat) :=
  match target with
  | none => t.insert cap
  | some slot => t.insertAt slot cap

/-- Empty a slot; deleting from an empty or absent slot changes nothing. -/
def delete (slot : Nat) : CapabilityTable :=
  ⟨fun i => if i.val = slot then none else t.slots i⟩

def deleteMatching (p : Object → Bool) : CapabilityTable :=
  ⟨fun i => (t.slots i).filter fun c => !p c.object⟩

/-- The value that stands for "no capability came with this message". -/
def noCap : Nat := 0xffffffffffffffff

/-- `insert(cap).unwrap_or(NO_CAP)`: a capability that does not fit is dropped. -/
def install (cap : Cap) : CapabilityTable × Nat :=
  (t.insert cap).getD (t, noCap)

end

end CapabilityTable

end Nife
