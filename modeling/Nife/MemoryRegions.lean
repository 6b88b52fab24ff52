/-
The accounting of physical memory (`crates/memory_regions`): regions of pages, each with a
watermark below which its pages have been handed out, carved into child regions or retyped
for the region itself.  Destroying a region is two steps with work between them: the claim
takes it out of the table, and, once its mappings are revoked, its pages go back to the
parent's budget.

Page numbers are `u64` and every run fits; the child count is a `u32` and `split` adds to it
unchecked, so it wraps in a build without overflow checks, which is the build that ships.
The counts of what pages were spent on decide nothing and are left out.  `retyped` is a ghost:
the runs retyped out of a region, which no function reads.
-/
import Nife.GenerationalTable
import Nife.Lib.Run

namespace Nife

/-! ### The arithmetic -/

/-- The number of `u64` values. -/
def u64Radix : Nat := 0x10000000000000000

/-- The number of `u32` values. -/
def u32Radix : Nat := 0x100000000

/-- `split_new_watermark`. -/
def splitNewWatermark (parentPages parentWatermark want : Nat) : Option Nat :=
  if want = 0 then none
  else if u64Radix ≤ parentWatermark + want then none
  else if parentPages < parentWatermark + want then none
  else some (parentWatermark + want)

/-- `retype_pages`: zero asks for one page. -/
def retypePages (requested : Nat) : Nat := if requested = 0 then 1 else requested

def retypeNewWatermark (pages watermark requested : Nat) : Option Nat :=
  splitNewWatermark pages watermark (retypePages requested)

/-- What a destruction does with the pages. -/
inductive DestroyOutcome
  | refused | freeToGlobal
  | returnToParent (unbump : Nat)
  deriving DecidableEq, Repr

def destroyOutcome (pinned : Bool) (children : Nat) (isRoot isLifoTop : Bool) (childPages : Nat) :
    DestroyOutcome :=
  if pinned ∨ 0 < children then .refused
  else if isRoot then .freeToGlobal
  else .returnToParent (if isLifoTop then childPages else 0)

def coalescedWatermark (watermark retypedTo liveTo : Nat) (quiescent : Bool) : Nat :=
  if ¬ quiescent then watermark else min (max retypedTo liveTo) watermark

theorem splitNewWatermark_eq_some {pages watermark want new : Nat}
    (h : splitNewWatermark pages watermark want = some new) :
    0 < want ∧ new = watermark + want ∧ new ≤ pages := by
  unfold splitNewWatermark at h
  split at h
  · cases h
  · split at h
    · cases h
    · split at h
      · cases h
      · next h0 _ hle =>
        cases h
        exact ⟨Nat.pos_of_ne_zero h0, rfl, Nat.le_of_not_lt hle⟩

/-! ### The table -/

/-- The parent of a region that came from the frame allocator. -/
def noParent : Nat := 0xffffffffffffffff

/-- A region of the registry. -/
structure Region where
  (basePage pages watermark retypedTo : Nat)
  pinned : Bool
  (parent children : Nat)
  retyped : List Run
  deriving DecidableEq, Repr

def Region.run (r : Region) : Run := ⟨r.basePage, r.pages⟩

def Region.fresh (basePage pages parent : Nat) : Region where
  basePage := basePage
  pages := pages
  watermark := 0
  retypedTo := 0
  pinned := false
  parent := parent
  children := 0
  retyped := []

/-- What the winner of a destruction has to return. -/
structure DestroyClaim where
  (basePage pages parent : Nat)
  isRoot : Bool
  deriving DecidableEq, Repr

def DestroyClaim.run (c : DestroyClaim) : Run := ⟨c.basePage, c.pages⟩

/-- `RegionTable<N>`. -/
abbrev RegionTable := Table Region

namespace RegionTable

section

variable (t : RegionTable)

def insertRoot (basePage pages : Nat) : Option (Nat × RegionTable) :=
  t.insertWith fun _ => .fresh basePage pages noParent

/-- `split`.  When the table is full the run stays spent and the child count stays raised. -/
def split (parent pages : Nat) : RegionTable × Option Nat :=
  match t.get parent with
  | none => (t, none)
  | some r =>
    match splitNewWatermark r.pages r.watermark pages with
    | none => (t, none)
    | some newWatermark =>
      let carved := t.modify parent fun r =>
        { r with
          watermark := newWatermark
          children := (r.children + 1) % u32Radix }
      match carved.insertWith fun _ => .fresh (r.basePage + r.watermark) pages parent with
      | none => (carved, none)
      | some (name, t) => (t, some name)

def retypeRun (name requested : Nat) : Option (Nat × RegionTable) :=
  match t.get name with
  | none => none
  | some r =>
    match retypeNewWatermark r.pages r.watermark requested with
    | none => none
    | some new =>
      some (r.basePage + r.watermark, t.modify name fun r =>
        { r with
          watermark := new
          retypedTo := new
          retyped := ⟨r.basePage + r.watermark, new - r.watermark⟩ :: r.retyped })

def retypePage (name : Nat) : Option (Nat × RegionTable) := t.retypeRun name 1

def retypeObjectPage (name : Nat) : Option (Nat × RegionTable) :=
  match t.get name with
  | none => none
  | some r =>
    if r.pages ≤ r.watermark then none
    else
      some (r.basePage + r.watermark, t.modify name fun r =>
        { r with
          pinned := true
          watermark := r.watermark + 1
          retypedTo := r.watermark + 1
          retyped := ⟨r.basePage + r.watermark, 1⟩ :: r.retyped })

def unpin (name : Nat) : RegionTable :=
  t.modify name fun r => { r with pinned := false }

def usage (name : Nat) : Option (Nat × Nat) :=
  (t.get name).map fun r => (r.watermark, r.pages)

def bounds (name : Nat) : Option (Nat × Nat) :=
  (t.get name).map fun r => (r.basePage, r.pages)

/-- The first to destroy a region wins it. -/
def claimForDestroy (name : Nat) : Option (DestroyClaim × RegionTable) :=
  match t.get name with
  | none => none
  | some r =>
    let isRoot := decide (r.parent = noParent)
    if destroyOutcome r.pinned r.children isRoot false r.pages = .refused then none
    else some (⟨r.basePage, r.pages, r.parent, isRoot⟩, t.remove name)

/-- The scan of `return_to_parent`: how many live children `parent` has, and where the highest
ends, in the parent's own page offsets. -/
def liveChildren (parent parentBase : Nat) : Nat × Nat :=
  (t.iter.filter fun e => e.2.parent = parent).foldl
    (fun acc e => (acc.1 + 1, max acc.2 (e.2.basePage + e.2.pages - parentBase))) (0, 0)

end

def returnToParent (t : RegionTable) (claim : DestroyClaim) : RegionTable :=
  if claim.isRoot then t
  else
    match t.get claim.parent with
    | none => t
    | some parent =>
      let live := t.liveChildren claim.parent parent.basePage
      t.modify claim.parent fun p =>
        let isLifoTop := decide (claim.basePage + claim.pages = p.basePage + p.watermark)
        let watermark :=
          match destroyOutcome false 0 false isLifoTop claim.pages with
          | .returnToParent unbump => p.watermark - unbump
          | _ => p.watermark
        let children := p.children - 1
        { p with
          watermark := coalescedWatermark watermark p.retypedTo live.2 (children = live.1)
          children := children }

end RegionTable

/-! ### Runs of the table -/

/-- The table, and the claims whose pages are still on their way back. -/
structure Regions where
  table : RegionTable
  claims : List DestroyClaim

/-- The operations on the registry. -/
inductive RegionAction
  | insertRoot (basePage pages : Nat)
  | split (parent pages : Nat)
  | retypeRun (name requested : Nat)
  | retypePage (name : Nat)
  | retypeObjectPage (name : Nat)
  | unpin (name : Nat)
  | claimForDestroy (name : Nat)
  | returnToParent (claim : DestroyClaim)
  /-- A claimed root's run goes back to the frame allocator. -/
  | freeToAllocator (claim : DestroyClaim)
  deriving DecidableEq, Repr

namespace Regions

def empty (n : Nat) (h : n < nameRadix) : Regions := ⟨.new n h, []⟩

section

variable (s : Regions)

/-- What the frame allocator hands out: page numbers that fit, and none of a root that is live
or claimed. -/
def allocatable (run : Run) : Bool :=
  run.first + run.count ≤ u64Radix &&
    (s.table.iter.all fun e => e.2.parent ≠ noParent || decide (run.Disjoint e.2.run)) &&
    s.claims.all fun c => !c.isRoot || decide (run.Disjoint c.run)

/-- One operation; `none` when it is not due. -/
def step : RegionAction → Option Regions
  | .insertRoot basePage pages =>
    if s.allocatable ⟨basePage, pages⟩ then
      some { s with table := ((s.table.insertRoot basePage pages).map Prod.snd).getD s.table }
    else none
  | .split parent pages => some { s with table := (s.table.split parent pages).1 }
  | .retypeRun name requested =>
    some { s with table := ((s.table.retypeRun name requested).map Prod.snd).getD s.table }
  | .retypePage name =>
    some { s with table := ((s.table.retypePage name).map Prod.snd).getD s.table }
  | .retypeObjectPage name =>
    some { s with table := ((s.table.retypeObjectPage name).map Prod.snd).getD s.table }
  | .unpin name => some { s with table := s.table.unpin name }
  | .claimForDestroy name =>
    match s.table.claimForDestroy name with
    | none => some s
    | some (claim, t) => some ⟨t, claim :: s.claims⟩
  | .returnToParent claim =>
    if claim ∈ s.claims ∧ ¬ claim.isRoot then
      some ⟨s.table.returnToParent claim, s.claims.erase claim⟩
    else none
  | .freeToAllocator claim =>
    if claim ∈ s.claims ∧ claim.isRoot then some { s with claims := s.claims.erase claim } else none

/-- The same operations on the table alone, with roots wherever the caller puts them. -/
def openStep : RegionAction → Option Regions
  | .insertRoot basePage pages =>
    some { s with table := ((s.table.insertRoot basePage pages).map Prod.snd).getD s.table }
  | a => s.step a

/-- One operation on the table alone, with arguments that are `u64`. -/
def tableStep (a : RegionAction) : Option Regions :=
  match a with
  | .insertRoot basePage pages =>
    if basePage < u64Radix ∧ pages < u64Radix then s.openStep (.insertRoot basePage pages) else none
  | a => s.openStep a

end

end Regions

end Nife
