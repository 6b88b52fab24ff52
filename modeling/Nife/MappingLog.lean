/-
The mapping log (`kernel/src/revoke.rs`): a registry of live address spaces, and for
each of them a chain of log pages that record what the space has mapped.  A log page is
a frame of physical memory read as a link, a count of entries ever written and 170
entries of three words; an entry whose page is 0 is a tombstone.

Pages are named by physical address and reached with no check on the address, so every
walk here is over `PhysMem`: what `listMapping` touches on a page that is on no chain is
whatever that page holds.  A walk is given one unit of fuel more than there are frames,
so a walk that runs out has met some page twice and does not end in the kernel either.

`Log.Inv` is the invariant of the registry and its chains; `Log.inv_reach` proves it of
every state the log's own operations reach.
-/
import Nife.Lib.Chain
import Nife.Lib.Slots
import Nife.Lib.Transition
import Nife.PhysMem

namespace Nife

open Chains List Option PhysMem

/-! ### Log pages -/

/-- `LOG_ENTRIES`: how many entries fit a log page after its header. -/
def logEntries : Nat := 170

/-- `MAX_SPACES`: `MAX_THREADS + 32`. -/
def maxSpaces : Nat := 256 + 32

/-- One recorded mapping: `va` maps `phys` under the capability whose run starts at
`object`; `phys = 0` is a tombstone. -/
structure LogEntry where
  (phys va object : Nat)
  deriving DecidableEq, Repr

section

variable (m : PhysMem)

/-- The next (older) log page of the chain; 0 ends it. -/
def logNext (p : Nat) : Nat := m.word p 0

/-- High-water mark of the entries ever written to the page. -/
def logUsed (p : Nat) : Nat := m.word p 1

def logEntry (p i : Nat) : LogEntry :=
  ⟨m.word p (2 + 3 * i), m.word p (3 + 3 * i), m.word p (4 + 3 * i)⟩

def setLogEntry (p i : Nat) (e : LogEntry) : PhysMem :=
  ((m.store p (2 + 3 * i) e.phys).store p (3 + 3 * i) e.va).store p (4 + 3 * i) e.object

/-- Tombstone entry `i`: only its page is cleared. -/
def tombstone (p i : Nat) : PhysMem := m.store p (2 + 3 * i) 0

end

/-- What authority a mapping was made under. -/
inductive PageMapSource
  | capability (base : Nat)
  | noCapability
  deriving DecidableEq, Repr

/-- The object address filed with a record. -/
def PageMapSource.object : PageMapSource → Nat → Nat
  | .capability base, _ => base
  | .noCapability, phys => phys

/-! ### The registry of live spaces -/

/-- A live address space as revocation sees it: its root, the region that pays for its
records, and its newest log page. -/
structure SpaceLog where
  (root region head : Nat)
  deriving DecidableEq, Repr

/-- The registry array and one past its highest live slot. -/
structure Registry where
  spaces : List (Option SpaceLog)
  top : Nat
  deriving DecidableEq, Repr

namespace Registry

def new : Registry := ⟨List.replicate maxSpaces none, 0⟩

section

variable (r : Registry)

/-- Every live space. -/
def live : List SpaceLog := (r.spaces.take r.top).reduceOption

/-- The live space rooted at `root`: the first of them, in slot order. -/
def find (r : Registry) (root : Nat) : Option SpaceLog := r.live.find? (·.root = root)

/-- Take the first free slot; `none` when the registry is full. -/
def claim (log : SpaceLog) : Option Registry :=
  match r.spaces.findIdx? Option.isNone with
  | none => none
  | some slot => some ⟨r.spaces.set slot (some log), if r.top ≤ slot then slot + 1 else r.top⟩

/-- The downward walk of `release`: the first live slot below `top` stops it. -/
def lowerTop (spaces : List (Option SpaceLog)) : Nat → Nat
  | 0 => 0
  | top + 1 => if (spaces[top]?.join).isSome then top + 1 else lowerTop spaces top

/-- Drop every entry naming `root` and bring the bound back down. -/
def release (root : Nat) : Registry :=
  let spaces := (r.spaces.take r.top).map (Option.filter (·.root ≠ root)) ++ r.spaces.drop r.top
  ⟨spaces, lowerTop spaces r.top⟩

/-- `space.head = head` on the first live space rooted at `root`. -/
def setHead (root head : Nat) : Registry :=
  ⟨Slots.updateFirst (·.root = root) (fun l => { l with head := head }) (r.spaces.take r.top)
    ++ r.spaces.drop r.top, r.top⟩

end

end Registry

/-! ### The operations of `revoke.rs` on the log -/

/-- The log: the registry and the memory that holds its chains. -/
structure Log where
  registry : Registry
  mem : PhysMem

/-- The first slot below the page's used count that holds a tombstone. -/
def firstTombstone (m : PhysMem) (p : Nat) : Option Nat :=
  (List.range (min (logUsed m p) logEntries)).find? fun i => (logEntry m p i).phys = 0

/-- The search of `record_mapping` for a free slot in the chain from `p`: the first
tombstone, or headroom in any page.  `some none` is a chain with no room;
`none` is a walk that does not end. -/
def recordInChain (m : PhysMem) (e : LogEntry) : Nat → Nat → Option (Option PhysMem)
  | 0, _ => none
  | fuel + 1, p =>
    if p = 0 then some none
    else match firstTombstone m p with
      | some i => some (some (setLogEntry m p i e))
      | none =>
        if logUsed m p < logEntries then
          some (some ((setLogEntry m p (logUsed m p) e).store p 1 (logUsed m p + 1)))
        else recordInChain m e fuel (logNext m p)

/-- A fresh log page becomes the head of its space's chain.  It comes zeroed from
`retype_page`. -/
def prependPage (m : PhysMem) (fresh head : Nat) (e : LogEntry) : PhysMem :=
  ((setLogEntry ((m.zeroFrame fresh).store fresh 0 head) fresh 0 e)).store fresh 1 1

/-- `record_mapping`, given what `retype_page` on the space's region answers when the
chain has no room.  The Boolean is the function's own result. -/
def recordMapping (l : Log) (fresh : Option Nat) (phys root va : Nat) (under : PageMapSource) :
    Option (Log × Bool) :=
  let e : LogEntry := ⟨phys, va, under.object phys⟩
  match l.registry.find root with
  | none => some (l, false)
  | some space =>
    match recordInChain l.mem e (frameLimit + 1) space.head with
    | none => none
    | some (some m) => some ({ l with mem := m }, true)
    | some none =>
      match fresh with
      | none => some (l, false)
      | some f =>
        some (⟨l.registry.setHead root f, prependPage l.mem f space.head e⟩, true)

/-- The first slot below the page's used count that records `va ↦ phys`. -/
def firstRecord (m : PhysMem) (p phys va : Nat) : Option Nat :=
  (List.range (min (logUsed m p) logEntries)).find? fun i =>
    (logEntry m p i).phys = phys ∧ (logEntry m p i).va = va

/-- The walk of `forget_mapping`: tombstone the first record of `va ↦ phys`. -/
def forgetInChain (m : PhysMem) (phys va : Nat) : Nat → Nat → Option PhysMem
  | 0, _ => none
  | fuel + 1, p =>
    if p = 0 then some m
    else match firstRecord m p phys va with
      | some i => some (tombstone m p i)
      | none => forgetInChain m phys va fuel (logNext m p)

/-- `forget_mapping`. -/
def forgetMapping (l : Log) (phys root va : Nat) : Option Log :=
  match l.registry.find root with
  | none => some l
  | some space =>
    (forgetInChain l.mem phys va (frameLimit + 1) space.head).map fun m => { l with mem := m }

/-- `register_space`. -/
def registerSpace (l : Log) (root region : Nat) : Log × Bool :=
  match l.registry.claim ⟨root, region, 0⟩ with
  | none => (l, false)
  | some r => ({ l with registry := r }, true)

/-- `forget_root`. -/
def forgetRoot (l : Log) (root : Nat) : Log := { l with registry := l.registry.release root }

/-- The inner loop of `unmap_matching` over one page: unmap and tombstone the entries
that `q` selects.  `unmap` is `mmu::unmap_user_at` on the space's root. -/
def unmapPage (unmap : PhysMem → Nat → PhysMem) (q : LogEntry → Bool) (m : PhysMem) (p : Nat) :
    PhysMem :=
  (List.range (min (logUsed m p) logEntries)).foldl
    (fun m i => if q (logEntry m p i) then tombstone (unmap m (logEntry m p i).va) p i else m) m

/-- `unmap_matching` over the pages of one space's chain. -/
def unmapChain (unmap : PhysMem → Nat → PhysMem) (q : LogEntry → Bool) :
    Nat → PhysMem → Nat → Option PhysMem
  | 0, _, _ => none
  | fuel + 1, m, p =>
    if p = 0 then some m
    else
      let m := unmapPage unmap q m p
      unmapChain unmap q fuel m (logNext m p)

/-- `unmap_matching`: every recorded mapping of `phys` outside `spare`'s space and, when
`object` is given, under that object only. -/
def unmapMatching (unmap : PhysMem → Nat → Nat → PhysMem) (phys spare : Nat)
    (object : Option Nat) : List SpaceLog → PhysMem → Option PhysMem
  | [], m => some m
  | space :: rest, m =>
    if space.root = spare then unmapMatching unmap phys spare object rest m
    else
      (unmapChain (fun m va => unmap m space.root va)
        (fun e => e.phys = phys ∧ object.all (e.object = ·)) (frameLimit + 1) m space.head).bind
        (unmapMatching unmap phys spare object rest)

/-! ### `list_mapping` -/

/-- What a walk touches: a page's header, or one of its entries. -/
inductive Access
  | page (p : Nat)
  | entry (p i : Nat)
  deriving DecidableEq, Repr

/-- How a walk ends.  `panicked` is the bounds check of `page.entries[index]`;
`unfinished` is a walk longer than memory has frames. -/
inductive ListOutcome
  | returned (next va : Nat)
  | panicked | unfinished
  deriving DecidableEq, Repr

/-- How the scan of one page ends. -/
inductive Scan
  | hit (index va : Nat)
  | exhausted | panicked
  deriving DecidableEq, Repr

/-- The inner loop of `list_mapping` over `n` entries of page `p` from `index` on, with
the entries it reads. -/
def scanPage (m : PhysMem) (p : Nat) : Nat → Nat → List Access × Scan
  | 0, _ => ([], .exhausted)
  | n + 1, index =>
    if index < logEntries then
      let entry := logEntry m p index
      if entry.phys ≠ 0 then ([.entry p index], .hit (index + 1) entry.va)
      else
        let rest := scanPage m p n (index + 1)
        (.entry p index :: rest.1, rest.2)
    else ([], .panicked)

/-- The outer loop of `list_mapping` from `index` of page `p` on. -/
def listWalk (m : PhysMem) : Nat → Nat → Nat → List Access × ListOutcome
  | 0, _, _ => ([], .unfinished)
  | fuel + 1, p, index =>
    if p = 0 then ([], .returned 0 0)
    else
      let scan := scanPage m p (logUsed m p - index) index
      match scan.2 with
      | .hit i va => (.page p :: scan.1, .returned (p ||| i) va)
      | .panicked => (.page p :: scan.1, .panicked)
      | .exhausted =>
        let rest := listWalk m fuel (logNext m p) 0
        (.page p :: scan.1 ++ rest.1, rest.2)

/-- `cursor & PAGE_MASK`. -/
def cursorPage (cursor : Nat) : Nat := cursor / frameSize * frameSize

/-- `cursor & !PAGE_MASK`. -/
def cursorIndex (cursor : Nat) : Nat := cursor % frameSize

/-- `list_mapping`, with everything it touches. -/
def listMapping (l : Log) (root cursor : Nat) : List Access × ListOutcome :=
  match l.registry.find root with
  | none => ([], .returned 0 0)
  | some space =>
    if cursor = 0 then listWalk l.mem (frameLimit + 1) space.head 0
    else listWalk l.mem (frameLimit + 1) (cursorPage cursor) (cursorIndex cursor)

/-! ### The registry keeps its bound -/

/-- Every slot from `top` on is free, so that a walk bounded by `top` is a full one. -/
structure Registry.WF (r : Registry) : Prop where
  free : ∀ i, r.top ≤ i → r.spaces[i]?.join = none
  top_le : r.top ≤ r.spaces.length

namespace Registry

variable {r r' : Registry} {log space : SpaceLog} {root : Nat}

theorem wf_new : Registry.new.WF where
  free := by
    intro i _
    rw [Registry.new, getElem?_replicate]
    split <;> rfl
  top_le := Nat.zero_le _

theorem live_eq (h : r.WF) : r.live = r.spaces.reduceOption := Slots.reduceOption_take h.free

theorem claim_spec (h : r.WF) (hc : r.claim log = some r') :
    r'.WF ∧ ∃ pre post, r.live = pre ++ post ∧ r'.live = pre ++ log :: post := by
  rw [claim] at hc
  split at hc
  case h_1 => cases hc
  case h_2 slot hslot =>
    obtain ⟨hlt, hnone, -⟩ := findIdx?_eq_some_iff_getElem.mp hslot
    have hfree : r.spaces[slot]? = some none := by
      rw [getElem?_eq_getElem hlt, isNone_iff_eq_none.mp hnone]
    cases hc
    have hwf : Registry.WF
        ⟨r.spaces.set slot (some log), if r.top ≤ slot then slot + 1 else r.top⟩ := by
      refine ⟨fun i hi => ?_, ?_⟩
      · -- above the new bound lie only slots above the old one, and never `slot` itself
        change (if r.top ≤ slot then slot + 1 else r.top) ≤ i at hi
        have hne : slot ≠ i := by
          rintro rfl
          split at hi <;> omega
        have hle : r.top ≤ i := by split at hi <;> omega
        simp only [getElem?_set_ne hne]
        exact h.free i hle
      · have htop := h.top_le
        simp only [length_set]
        split <;> omega
    refine ⟨hwf, ?_⟩
    rw [live_eq h, live_eq hwf]
    exact Slots.exists_insert log hfree

theorem lowerTop_le (spaces : List (Option SpaceLog)) (top : Nat) : lowerTop spaces top ≤ top := by
  induction top with
  | zero => exact Nat.le_refl _
  | succ top ih =>
    rw [lowerTop]
    split
    · exact Nat.le_refl _
    · omega

theorem lowerTop_free (spaces : List (Option SpaceLog)) (top i : Nat)
    (hi : lowerTop spaces top ≤ i) (hlt : i < top) : spaces[i]?.join = none := by
  induction top with
  | zero => omega
  | succ top ih =>
    rw [lowerTop] at hi
    split at hi
    case isTrue => omega
    case isFalse hnone =>
      by_cases hit : i = top
      · subst hit
        exact not_isSome_iff_eq_none.mp hnone
      · exact ih hi (by omega)

theorem release_spec (h : r.WF) (root : Nat) :
    (r.release root).WF ∧ (r.release root).live = r.live.filter (·.root ≠ root) := by
  have hlen : ((r.spaces.take r.top).map (Option.filter (·.root ≠ root))).length = r.top := by
    rw [length_map, length_take, Nat.min_eq_left h.top_le]
  have hwf : (r.release root).WF := by
    refine ⟨fun i hi => ?_, ?_⟩
    · by_cases hlt : i < r.top
      · exact lowerTop_free _ _ _ hi hlt
      · simp only [release]
        rw [getElem?_append_right (by omega), getElem?_drop]
        exact h.free _ (by omega)
    · have hle := lowerTop_le (r.release root).spaces r.top
      simp only [release, length_append, hlen, length_drop]
      simp only [release] at hle
      omega
  refine ⟨hwf, ?_⟩
  rw [live_eq hwf, release, reduceOption_append, Slots.reduceOption_drop h.free,
    append_nil, Slots.reduceOption_map_filter, live]

theorem setHead_spec (h : r.WF) (hf : r.find root = some space) (head : Nat) :
    (r.setHead root head).WF ∧ ∃ pre post, r.live = pre ++ space :: post ∧
      (r.setHead root head).live = pre ++ { space with head := head } :: post := by
  have hlen : (Slots.updateFirst (·.root = root) (fun l => { l with head := head })
      (r.spaces.take r.top)).length = r.top := by
    rw [Slots.length_updateFirst, length_take, Nat.min_eq_left h.top_le]
  have hwf : (r.setHead root head).WF := by
    refine ⟨fun i hi => ?_, ?_⟩
    · change r.top ≤ i at hi
      simp only [setHead]
      rw [getElem?_append_right (by omega), getElem?_drop]
      exact h.free _ (by omega)
    · have htop := h.top_le
      simp only [setHead, length_append, hlen, length_drop]
      omega
  obtain ⟨pre, post, hlive, -, hupd⟩ :=
    Slots.exists_updateFirst (fun l => { l with head := head }) hf
  refine ⟨hwf, pre, post, hlive, ?_⟩
  rw [live_eq hwf, setHead, reduceOption_append, Slots.reduceOption_drop h.free, append_nil, hupd]

end Registry

/-! ### Chains under the operations -/

/-- The pages `ps` are a log chain from `head`: frames, none filled past its 170
entries. -/
structure LogChain (m : PhysMem) (head : Nat) (ps : List Nat) : Prop where
  chain : Chain (logNext m) head ps
  frame : ∀ p ∈ ps, p % frameSize = 0 ∧ p < frameSize * frameLimit
  used : ∀ p ∈ ps, logUsed m p ≤ logEntries

def OnChain (m : PhysMem) (head p : Nat) : Prop := ∃ ps, Chain (logNext m) head ps ∧ p ∈ ps

variable {m : PhysMem} {head p : Nat} {ps : List Nat}

theorem LogChain.length_le (h : LogChain m head ps) : ps.length ≤ frameLimit :=
  h.chain.length_le (fun p hp => (h.frame p hp).1) (fun p hp => (h.frame p hp).2)

theorem LogChain.onChain_iff (h : LogChain m head ps) : OnChain m head p ↔ p ∈ ps := by
  refine ⟨fun ⟨ps', hc, hp⟩ => ?_, fun hp => ⟨ps, h.chain, hp⟩⟩
  rw [h.chain.unique hc]
  exact hp

/-- On the pages of `K`, `m'` is `m` with entries rewritten: no link has moved and no
page is overfull that was not. -/
structure LogEdit (K : Nat → Prop) (m m' : PhysMem) : Prop where
  next : ∀ p, K p → logNext m' p = logNext m p
  used : ∀ p, K p → logUsed m p ≤ logEntries → logUsed m' p ≤ logEntries

namespace LogEdit

variable {K : Nat → Prop} {m m₁ m₂ : PhysMem} {p head : Nat} {ps : List Nat}

theorem refl (m : PhysMem) : LogEdit K m m := ⟨fun _ _ => rfl, fun _ _ h => h⟩

theorem trans (h₁ : LogEdit K m m₁) (h₂ : LogEdit K m₁ m₂) : LogEdit K m m₂ where
  next q hq := (h₂.next q hq).trans (h₁.next q hq)
  used q hq h := h₂.used q hq (h₁.used q hq h)

theorem of_word_eq (h : ∀ p, K p → ∀ w, m₁.word p w = m.word p w) : LogEdit K m m₁ where
  next q hq := h q hq 0
  used q hq hle := (h q hq 1).trans_le hle

theorem store (m : PhysMem) (p w v : Nat) (hw : 2 ≤ w) : LogEdit K m (m.store p w v) where
  next q _ := by
    by_cases hq : q = p
    · subst hq
      exact m.word_store_word q v (by omega)
    · exact m.word_store_frame w v 0 hq
  used q _ h := by
    have heq : logUsed (m.store p w v) q = logUsed m q := by
      by_cases hq : q = p
      · subst hq
        exact m.word_store_word q v (by omega)
      · exact m.word_store_frame w v 1 hq
    rw [heq]
    exact h

theorem setLogEntry (m : PhysMem) (p i : Nat) (e : LogEntry) : LogEdit K m (setLogEntry m p i e) :=
  ((store m p _ _ (by omega)).trans (store _ p _ _ (by omega))).trans (store _ p _ _ (by omega))

theorem setUsed (m : PhysMem) (p n : Nat) (hn : n ≤ logEntries) : LogEdit K m (m.store p 1 n) where
  next q _ := by
    by_cases hq : q = p
    · subst hq
      exact m.word_store_word q n (by omega)
    · exact m.word_store_frame 1 n 0 hq
  used q _ h := by
    by_cases hq : q = p
    · subst hq
      exact (m.word_store_self q 1 n).trans_le hn
    · exact (m.word_store_frame 1 n 1 hq).trans_le h

theorem chain (h : LogEdit K m m₁) (hc : LogChain m head ps) (hK : ∀ p ∈ ps, K p) :
    LogChain m₁ head ps where
  chain := hc.chain.congr fun q hq => h.next q (hK q hq)
  frame := hc.frame
  used q hq := h.used q (hK q hq) (hc.used q hq)

end LogEdit

variable {K : Nat → Prop} {m m' : PhysMem} {e : LogEntry} {fuel p : Nat}

theorem recordInChain_edit (h : recordInChain m e fuel p = some (some m')) : LogEdit K m m' := by
  induction fuel generalizing p with
  | zero => cases h
  | succ fuel ih =>
    rw [recordInChain] at h
    split at h
    case isTrue => cases h
    case isFalse =>
      split at h
      case h_1 i _ =>
        cases h
        exact LogEdit.setLogEntry m p i e
      case h_2 =>
        split at h
        case isTrue hlt =>
          cases h
          exact (LogEdit.setLogEntry m p _ e).trans (LogEdit.setUsed _ p _ hlt)
        case isFalse => exact ih h

theorem forgetInChain_edit {phys va fuel p : Nat}
    (h : forgetInChain m phys va fuel p = some m') : LogEdit K m m' := by
  induction fuel generalizing p with
  | zero => cases h
  | succ fuel ih =>
    rw [forgetInChain] at h
    split at h
    case isTrue =>
      cases h
      exact LogEdit.refl m
    case isFalse =>
      split at h
      case h_1 i _ =>
        cases h
        exact LogEdit.store m p _ _ (by omega)
      case h_2 => exact ih h

variable {unmap : PhysMem → Nat → PhysMem}

theorem unmapPage_edit
    (hun : ∀ m va, LogEdit K m (unmap m va)) (q : LogEntry → Bool) (m : PhysMem) (p : Nat) :
    LogEdit K m (unmapPage unmap q m p) := by
  have aux : ∀ (is : List Nat) (m₁ : PhysMem), LogEdit K m m₁ → LogEdit K m (is.foldl
      (fun m i => if q (logEntry m p i) then tombstone (unmap m (logEntry m p i).va) p i else m)
      m₁) := by
    intro is
    induction is with
    | nil => exact fun _ h => h
    | cons i is ih =>
      intro m₁ h
      refine ih _ (h.trans ?_)
      show LogEdit K m₁ (if q (logEntry m₁ p i) then _ else m₁)
      split
      · exact (hun m₁ _).trans (LogEdit.store _ p _ _ (by omega))
      · exact LogEdit.refl m₁
  exact aux _ m (LogEdit.refl m)

theorem unmapChain_edit (hun : ∀ m va, LogEdit K m (unmap m va)) {q : LogEntry → Bool}
    (h : unmapChain unmap q fuel m p = some m') : LogEdit K m m' := by
  induction fuel generalizing p m with
  | zero => cases h
  | succ fuel ih =>
    rw [unmapChain] at h
    split at h
    case isTrue =>
      cases h
      exact LogEdit.refl _
    case isFalse => exact (unmapPage_edit hun q m p).trans (ih h)

theorem unmapMatching_edit {unmap : PhysMem → Nat → Nat → PhysMem}
    (hun : ∀ m root va, LogEdit K m (unmap m root va)) {phys spare : Nat} {object : Option Nat}
    {spaces : List SpaceLog}
    (h : unmapMatching unmap phys spare object spaces m = some m') : LogEdit K m m' := by
  induction spaces generalizing m with
  | nil =>
    simp only [unmapMatching, Option.some.injEq] at h
    subst h
    exact LogEdit.refl m
  | cons space rest ih =>
    rw [unmapMatching] at h
    split at h
    case isTrue => exact ih h
    case isFalse =>
      obtain ⟨m₁, h₁, h₂⟩ := bind_eq_some_iff.mp h
      exact (unmapChain_edit (fun m va => hun m space.root va) h₁).trans (ih h₂)

/-! ### A fresh log page -/

section

variable (m : PhysMem)

theorem setLogEntry_frame {p q : Nat} (i : Nat) (e : LogEntry) (w : Nat)
    (h : q ≠ p) : (setLogEntry m p i e).word q w = m.word q w := by
  rw [setLogEntry, word_store_frame _ _ _ _ h, word_store_frame _ _ _ _ h,
    word_store_frame _ _ _ _ h]

theorem setLogEntry_word (p i : Nat) (e : LogEntry) {w : Nat}
    (h : w < 2 + 3 * i ∨ 5 + 3 * i ≤ w) : (setLogEntry m p i e).word p w = m.word p w := by
  rw [setLogEntry, word_store_word _ _ _ (by omega),
    word_store_word _ _ _ (by omega), word_store_word _ _ _ (by omega)]

theorem prependPage_frame {f q : Nat} (head : Nat) (e : LogEntry) (w : Nat)
    (h : q ≠ f) : (prependPage m f head e).word q w = m.word q w := by
  rw [prependPage, word_store_frame _ _ _ _ h, setLogEntry_frame _ _ _ _ h,
    word_store_frame _ _ _ _ h, word_zeroFrame_frame _ _ h]

theorem logNext_prependPage (f head : Nat) (e : LogEntry) :
    logNext (prependPage m f head e) f = head := by
  rw [logNext, prependPage, word_store_word _ _ _ (by omega),
    setLogEntry_word _ _ _ _ (by omega), word_store_self]

theorem logUsed_prependPage (f head : Nat) (e : LogEntry) :
    logUsed (prependPage m f head e) f = 1 := by
  rw [logUsed, prependPage, word_store_self]

end

/-! ### The log's own runs -/

/-- The invariant of the log: a bounded registry, a finite chain of log pages for each
live space, and no page on two chains. -/
structure Log.Inv (l : Log) : Prop where
  wf : l.registry.WF
  chains : ∀ space ∈ l.registry.live, ∃ ps, LogChain l.mem space.head ps
  disjoint : l.registry.live.Pairwise fun a b =>
    ∀ p, OnChain l.mem a.head p → ¬ OnChain l.mem b.head p

def Log.Owns (l : Log) (p : Nat) : Prop := ∃ space ∈ l.registry.live, OnChain l.mem space.head p

/-- The steps that touch the log.  `store` is any other write to memory, by the kernel
or by a program: page tables, stacks, user pages. -/
inductive LogAction
  | registerSpace (root region : Nat)
  | forgetRoot (root : Nat)
  | recordMapping (fresh : Option Nat) (phys root va : Nat) (under : PageMapSource)
  | forgetMapping (phys root va : Nat)
  | unmapMatching (phys spare : Nat) (object : Option Nat)
  | store (p w v : Nat)

/-- One step.  The page-table half of an unmap is `store` steps of its own here. -/
def Log.step (l : Log) : LogAction → Option Log
  | .registerSpace root region => some (registerSpace l root region).1
  | .forgetRoot root => some (forgetRoot l root)
  | .recordMapping fresh phys root va under => (recordMapping l fresh phys root va under).map (·.1)
  | .forgetMapping phys root va => forgetMapping l phys root va
  | .unmapMatching phys spare object =>
    (unmapMatching (fun m _ _ => m) phys spare object l.registry.live l.mem).map
      fun m => { l with mem := m }
  | .store p w v => some { l with mem := l.mem.store p w v }

/-- Log pages are the log's own: `retype_page` hands out a frame on no chain, and nothing
else writes to a page that is on one. -/
def Log.Exclusive (l : Log) : LogAction → Prop
  | .recordMapping (some f) _ _ _ _ =>
    f ≠ 0 ∧ f % frameSize = 0 ∧ f < frameSize * frameLimit ∧ ¬ l.Owns f
  | .store p _ _ => ¬ l.Owns p
  | _ => True

def Log.new (m : PhysMem) : Log := ⟨Registry.new, m⟩

namespace Log

variable {l l' : Log} {m : PhysMem}

theorem inv_new (m : PhysMem) : (Log.new m).Inv where
  wf := Registry.wf_new
  chains := by intro space h; cases h
  disjoint := List.Pairwise.nil

/-- **Rewriting entries keeps the invariant.**  The chains are those they were. -/
theorem Inv.edit (h : l.Inv) (he : LogEdit l.Owns l.mem m) : Inv { l with mem := m } := by
  have hchain : ∀ space ∈ l.registry.live, ∀ ps, LogChain l.mem space.head ps →
      LogChain m space.head ps := by
    intro space hs ps hc
    exact he.chain hc fun p hp => ⟨space, hs, ps, hc.chain, hp⟩
  have hon : ∀ space ∈ l.registry.live, ∀ p,
      OnChain m space.head p → OnChain l.mem space.head p := by
    intro space hs p hp
    obtain ⟨ps, hc⟩ := h.chains space hs
    rw [(hchain space hs ps hc).onChain_iff] at hp
    exact hc.onChain_iff.mpr hp
  refine ⟨h.wf, ?_, ?_⟩
  · intro space hs
    obtain ⟨ps, hc⟩ := h.chains space hs
    exact ⟨ps, hchain space hs ps hc⟩
  · refine h.disjoint.imp_of_mem ?_
    intro a b ha hb hab p hpa hpb
    exact hab p (hon a ha p hpa) (hon b hb p hpb)

theorem Inv.registerSpace (h : l.Inv) (root region : Nat) :
    (Nife.registerSpace l root region).1.Inv := by
  rw [Nife.registerSpace]
  split
  case h_1 => exact h
  case h_2 r hr =>
    obtain ⟨hwf, pre, post, hlive, hlive'⟩ := Registry.claim_spec h.wf hr
    -- the new space has no log page yet, so its chain is empty
    have hnil : ∀ p, ¬ OnChain l.mem 0 p := by
      rintro p ⟨ps, hc, hp⟩
      rw [hc.eq_nil_of_zero] at hp
      cases hp
    refine ⟨hwf, ?_, ?_⟩
    · intro space hs
      change space ∈ r.live at hs
      rw [hlive', mem_append, mem_cons] at hs
      rcases hs with hs | rfl | hs
      · exact h.chains space (by rw [hlive]; exact mem_append_left _ hs)
      · exact ⟨[], Chain.nil, by simp, by simp⟩
      · exact h.chains space (by rw [hlive]; exact mem_append_right _ hs)
    · have hdis := h.disjoint
      show r.live.Pairwise _
      rw [hlive, pairwise_append] at hdis
      rw [hlive', pairwise_append]
      refine ⟨hdis.1, pairwise_cons.mpr ⟨fun b _ p hp => absurd hp (hnil p), hdis.2.1⟩, ?_⟩
      intro a ha b hb
      rcases mem_cons.mp hb with rfl | hb
      · exact fun p _ => hnil p
      · exact hdis.2.2 a ha b hb

theorem Inv.forgetRoot (h : l.Inv) (root : Nat) : (Nife.forgetRoot l root).Inv := by
  obtain ⟨hwf, hlive⟩ := Registry.release_spec h.wf root
  refine ⟨hwf, ?_, ?_⟩
  · intro space hs
    change space ∈ (l.registry.release root).live at hs
    rw [hlive] at hs
    exact h.chains space (mem_of_mem_filter hs)
  · show (l.registry.release root).live.Pairwise _
    rw [hlive]
    exact h.disjoint.filter _

theorem Inv.prepend (h : l.Inv) {root f : Nat} {space : SpaceLog}
    (hf : l.registry.find root = some space) (h0 : f ≠ 0)
    (hframe : f % frameSize = 0 ∧ f < frameSize * frameLimit) (hown : ¬ l.Owns f) :
    Inv ⟨l.registry.setHead root f, prependPage l.mem f space.head e⟩ := by
  obtain ⟨hwf, pre, post, hlive, hlive'⟩ := Registry.setHead_spec h.wf hf f
  -- outside the fresh page nothing is written, so the old chains stand
  have he : LogEdit l.Owns l.mem (prependPage l.mem f space.head e) :=
    LogEdit.of_word_eq fun q hq w => prependPage_frame _ _ _ _ (by rintro rfl; exact hown hq)
  have hold := h.edit he
  have hmem : space ∈ l.registry.live := by rw [hlive]; simp
  obtain ⟨ps, hps⟩ := hold.chains space hmem
  have hnew : LogChain (prependPage l.mem f space.head e) f (f :: ps) := by
    refine ⟨Chain.cons h0 ?_, ?_, ?_⟩
    · rw [logNext_prependPage]
      exact hps.chain
    · intro q hq
      rcases mem_cons.mp hq with rfl | hq
      · exact hframe
      · exact hps.frame q hq
    · intro q hq
      rcases mem_cons.mp hq with rfl | hq
      · rw [logUsed_prependPage]
        decide
      · exact hps.used q hq
  have hfresh : ∀ b ∈ l.registry.live, ¬ OnChain (prependPage l.mem f space.head e) b.head f := by
    intro b hb hon
    obtain ⟨bs, hbs⟩ := h.chains b hb
    have hbs' := he.chain hbs fun p hp => ⟨b, hb, bs, hbs.chain, hp⟩
    exact hown ⟨b, hb, bs, hbs.chain, hbs'.onChain_iff.mp hon⟩
  have hsplit : ∀ p, OnChain (prependPage l.mem f space.head e) f p →
      p = f ∨ OnChain (prependPage l.mem f space.head e) space.head p := by
    intro p hp
    rw [hnew.onChain_iff, mem_cons] at hp
    exact hp.imp_right fun hp => hps.onChain_iff.mpr hp
  have hdis := hold.disjoint
  change l.registry.live.Pairwise _ at hdis
  rw [hlive, pairwise_append, pairwise_cons] at hdis
  obtain ⟨hpre, ⟨hspace, hpost⟩, hcross⟩ := hdis
  refine ⟨hwf, ?_, ?_⟩
  · intro b hb
    change b ∈ (l.registry.setHead root f).live at hb
    rw [hlive', mem_append, mem_cons] at hb
    rcases hb with hb | rfl | hb
    · exact hold.chains b (by rw [hlive]; simp [hb])
    · exact ⟨f :: ps, hnew⟩
    · exact hold.chains b (by rw [hlive]; simp [hb])
  · show (l.registry.setHead root f).live.Pairwise _
    rw [hlive', pairwise_append, pairwise_cons]
    refine ⟨hpre, ⟨?_, hpost⟩, ?_⟩
    · intro b hb p hp hpb
      rcases hsplit p hp with rfl | hp
      · exact hfresh b (by rw [hlive]; simp [hb]) hpb
      · exact hspace b hb p hp hpb
    · intro a ha b hb p hpa hpb
      rcases mem_cons.mp hb with rfl | hb
      · rcases hsplit p hpb with rfl | hpb
        · exact hfresh a (by rw [hlive]; simp [ha]) hpa
        · exact hcross a ha space (mem_cons_self ..) p hpa hpb
      · exact hcross a ha b (mem_cons_of_mem _ hb) p hpa hpb

theorem inv_step {a : LogAction} (h : l.Inv) (hC : l.Exclusive a) (hs : l.step a = some l') :
    l'.Inv := by
  cases a with
  | registerSpace root region =>
    cases hs
    exact h.registerSpace root region
  | forgetRoot root =>
    cases hs
    exact h.forgetRoot root
  | recordMapping fresh phys root va under =>
    obtain ⟨⟨l₁, b⟩, hr, rfl⟩ := map_eq_some_iff.mp hs
    simp only [Nife.recordMapping] at hr
    split at hr
    case h_1 =>
      cases hr
      exact h
    case h_2 space hf =>
      split at hr
      case h_1 => cases hr
      case h_2 m hm =>
        cases hr
        exact h.edit (recordInChain_edit hm)
      case h_3 =>
        cases fresh with
        | none =>
          cases hr
          exact h
        | some f =>
          cases hr
          obtain ⟨h0, halign, hlt, hown⟩ := hC
          exact h.prepend hf h0 ⟨halign, hlt⟩ hown
  | forgetMapping phys root va =>
    simp only [step, Nife.forgetMapping] at hs
    split at hs
    case h_1 =>
      cases hs
      exact h
    case h_2 space hf =>
      obtain ⟨m, hm, rfl⟩ := map_eq_some_iff.mp hs
      exact h.edit (forgetInChain_edit hm)
  | unmapMatching phys spare object =>
    obtain ⟨m, hm, rfl⟩ := map_eq_some_iff.mp hs
    exact h.edit (unmapMatching_edit (fun m _ _ => LogEdit.refl m) hm)
  | store p w v =>
    cases hs
    refine h.edit (LogEdit.of_word_eq ?_)
    intro q hq x
    refine l.mem.word_store_frame w v x ?_
    rintro rfl
    exact hC hq

/-- **The invariant holds in every state the log's operations reach.** -/
theorem inv_reach (h : Transition.Reach step Exclusive (Log.new m) l) : l.Inv :=
  h.invariant Inv (inv_new m) fun _ _ _ hi hC hs => inv_step hi hC hs

end Log

end Nife
