/-
Subtree grants over whole runs of the request loop.  Beside the server stands a ledger that no
code reads: how many handles were minted, which mint a slot holds, under which binding it was
minted, and what the root of each grant was when it was bound.

A binding keeps the number of a handle.  The server does not keep that handle open: an open
badge's `CLOSE` and an `UNBIND` close the slot whichever grants it is the root of, and the next
handle minted takes it (`closed_root_renamed`).  As long as no slot is closed that is the root
of a grant that stands, a bound badge stays in its grant (`bound_badges_confined`).  What needs no
condition is in `handles_sound`.
-/
import Nife.BadgeBindings
import Nife.Lib.Transition
import Nife.ServerTable

namespace Nife

open Fallible Transition List Function ServerTable Server Bindings Except

/-! ### Requests -/

def ServerOp.handles : ServerOp → List Nat
  | .openFilePath h .. | .openDir h .. | .makeDir h .. | .createFileAt h .. | .readDir h ..
  | .read h .. | .write h .. | .fstat h | .truncate h .. | .unlink h .. | .rmdir h ..
  | .mtime h .. | .setMtimeNow h .. | .setMtimeAt h .. | .getXattr h .. | .setXattr h ..
  | .listXattr h .. | .removeXattr h .. | .close h | .statfs h | .syncPermitted h
  | .claim h .. | .bind _ h _ => [h]
  | .rename srcDir _ dstDir _ => [srcDir, dstDir]
  | .unbind .. => []

/-- Whether an operation is one of the table of verbs, which a request asks for through
admitted handles. -/
def ServerOp.isVerb : ServerOp → Bool
  | .claim .. | .bind .. | .unbind .. => false
  | _ => true

variable {op : ServerOp}

theorem ServerOp.handles_ne_nil (h : op.isVerb = true) : op.handles ≠ [] := by
  cases op
  case claim | bind | unbind => cases h
  all_goals simp [handles]

theorem ok_of_map {ε α β : Type} {f : α → β} {x : Except ε α} {b : β} (h : x.map f = .ok b) :
    ∃ a, x = .ok a ∧ f a = b := by
  cases x with
  | error e => cases h
  | ok a => exact ⟨a, rfl, ok.inj h⟩

variable {h : Nat}

namespace Server

variable {B : Type} {s : Server B} {r : FileRequest} {op : ServerOp}

open FileRequest

theorem renameRequest_eq (hr : s.renameRequest r h = .ok op) :
    ∃ src dstDir dst raw, s.admitted r.badge.toNat raw = .ok dstDir ∧
      op = .rename h src dstDir dst := by
  unfold renameRequest at hr
  dsimp only at hr
  split at hr
  · cases hr
  rcases hsrc : r.text 0 r.len with e | src
  · rw [hsrc] at hr
    cases hr
  rcases hdst : r.text r.len (Fs.dstLen r.w1).toNat with e | dst
  · rw [hsrc, hdst] at hr
    cases hr
  rcases hto : s.admitted r.badge.toNat (Fs.dstHandle r.w1).toNat with e | dstDir
  · rw [hsrc, hdst, hto] at hr
    cases hr
  rw [hsrc, hdst, hto] at hr
  cases hr
  exact ⟨src, dstDir, dst, _, hto, rfl⟩

theorem verbRequest_admitted {v : FsOp} (hr : s.verbRequest r h v = .ok op) :
    op.isVerb = true ∧ ∀ k ∈ op.handles, k = h ∨ ∃ raw, s.admitted r.badge.toNat raw = .ok k := by
  have hone : ∀ op' : ServerOp, op = op' → op'.isVerb = true → op'.handles = [h] →
      op.isVerb = true ∧ ∀ k ∈ op.handles, k = h ∨ ∃ raw, s.admitted r.badge.toNat raw = .ok k := by
    rintro _ rfl hverb hhandles
    refine ⟨hverb, fun k hk => .inl ?_⟩
    rw [hhandles] at hk
    exact mem_singleton.mp hk
  cases v
  case open_ | create | opendir | mkdir | unlink | rmdir | getmtime | setmtime | setmtimeAt =>
    obtain ⟨name, -, hop⟩ := ok_of_map hr
    exact hone _ hop.symm rfl rfl
  case read | write | close | fstat | truncate | readdir | listxattr | removexattr | statfs |
      sync =>
    exact hone _ (ok.inj hr).symm rfl rfl
  case getxattr =>
    simp only [verbRequest] at hr
    split_ifs at hr
    exact hone _ (ok.inj hr).symm rfl rfl
  case setxattr =>
    simp only [verbRequest] at hr
    split_ifs at hr
    exact hone _ (ok.inj hr).symm rfl rfl
  case rename =>
    obtain ⟨src, dstDir, dst, raw, hto, rfl⟩ := renameRequest_eq hr
    refine ⟨rfl, fun k hk => ?_⟩
    rcases mem_cons.mp hk with rfl | hk
    · exact .inl rfl
    · rw [mem_singleton.mp hk]
      exact .inr ⟨raw, hto⟩

/-- **What a request can ask for**: a control verb under its own badge, or a verb all of whose
handles were admitted. -/
theorem requested_cases (hr : s.requested r = .ok op) :
    (∃ h badge, op = .bind r.badge.toNat h badge) ∨ (∃ badge, op = .unbind r.badge.toNat badge) ∨
      op.isVerb = true ∧ ∀ k ∈ op.handles, ∃ raw, s.admitted r.badge.toNat raw = .ok k := by
  unfold requested at hr
  rcases hadm : s.admission r with e | h
  · rw [hadm] at hr
    cases hr
  rw [hadm] at hr
  change (if r.code = bindCode then _ else _) = _ at hr
  split at hr
  · exact .inl ⟨h, _, (ok.inj hr).symm⟩
  next hbind =>
  split at hr
  · exact .inr (.inl ⟨_, (ok.inj hr).symm⟩)
  next hunbind =>
  rcases hv : Verb.of r.code with - | v
  · rw [hv] at hr
    cases hr
  rw [hv] at hr
  obtain ⟨hverb, hall⟩ := verbRequest_admitted hr
  refine .inr (.inr ⟨hverb, fun k hk => ?_⟩)
  rcases hall k hk with rfl | hraw
  · unfold admission at hadm
    rw [if_neg (by simp [hbind, hunbind])] at hadm
    split_ifs at hadm
    exact ⟨_, hadm⟩
  · exact hraw

variable {badge caller : Nat}

theorem admitted_of_bound {raw h root : Nat} (hb : s.bindings.of badge = .bound root)
    (hroot : root < s.handles.length) (hadm : s.admitted badge raw = .ok h) :
    h = root ∨ s.table.entryAt h ≠ none ∧ s.table.ownerAt h = badge := by
  unfold admitted at hadm
  rw [hb, admitHandle] at hadm
  by_cases h0 : raw = 0
  · rw [if_pos h0] at hadm
    dsimp only at hadm
    rw [if_pos hroot] at hadm
    exact .inl (ok.inj hadm).symm
  rw [if_neg h0] at hadm
  by_cases hown : s.owner raw = some badge
  · rw [if_pos hown] at hadm
    rcases he : s.entryAt raw with - | e
    · simp [owner, he] at hown
    have hlt : raw < s.handles.length := lt_of_entryAt (t := s.table) he
    change ok (if raw < s.handles.length then raw else raw % 4294967296) = _ at hadm
    rw [if_pos hlt] at hadm
    cases hadm
    have he' : s.table.entryAt raw = some e := he
    refine .inr ⟨by simp [he'], ?_⟩
    rw [owner, he] at hown
    exact Option.some.inj hown
  · rw [if_neg hown] at hadm
    cases hadm

theorem admitted_of_revoked (hb : s.bindings.of badge = .revoked) (raw : Nat) :
    s.admitted badge raw = .error .ebadf := by
  unfold admitted
  rw [hb]
  rfl

/-- A badge that is not open cannot bind or unbind: it is told so, and nothing changes. -/
theorem control_refused (hc : s.bindings.of caller ≠ .opened) (h badge : Nat) :
    (∃ e, run (andDone (bind caller h badge)) s = (.error e, s)) ∧
      ∃ e, run (andDone (unbind caller badge)) s = (.error e, s) := by
  refine ⟨?_, Refusal.refused.errno, ?_⟩
  · have hdir : ∃ x, run (dirAt h) s = (x, s) := by
      rcases he : s.entryAt h with - | ⟨ptr, rights⟩ | ⟨ptr, rights⟩
      · exact ⟨_, run_bind_error (run_entry_none he) _⟩
      · exact ⟨.ok (ptr, rights), by rw [dirAt, run_bind_ok (run_entry he)]; rfl⟩
      · exact ⟨.error .enotdir, by rw [dirAt, run_bind_ok (run_entry he)]; rfl⟩
    obtain ⟨e | d, hdir⟩ := hdir
    · exact ⟨e, by rw [run_andDone, bind, run_bind_error hdir]; rfl⟩
    · refine ⟨Refusal.refused.errno, ?_⟩
      rw [run_andDone, bind, run_bind_ok hdir, run_bind_ok (run_get s)]
      simp only [bind_of_not_opened hc]
      rfl
  · rw [run_andDone, unbind, run_bind_ok (run_get s)]
    simp only [unbind_of_not_opened hc]
    rfl

end Server

/-! ### The ledger -/

/-- What was minted and granted. -/
structure Ledger where
  /-- How many handles were ever minted, the root counted. -/
  mints : Nat
  /-- Which mint a slot holds. -/
  mint : Nat → Nat
  /-- The badge a slot was minted under while bound, and the number of that binding. -/
  minter : Nat → Option (Nat × Nat)
  /-- What a badge's root named when it was bound, and which mint that was. -/
  granted : Nat → Option (Entry × Nat)
  /-- How often a badge was bound. -/
  epoch : Nat → Nat

namespace Ledger

def new : Ledger := ⟨1, fun _ => 0, fun _ => none, fun _ => none, fun _ => 0⟩

/-- Slot `h` was minted, under the binding `who`. -/
def mintSlot (l : Ledger) (h : Nat) (who : Option (Nat × Nat)) : Ledger :=
  { l with
    mints := l.mints + 1
    mint := update l.mint h l.mints
    minter := update l.minter h who }

/-- A request of `badge` minted slot `h`. -/
def recordMint (l : Ledger) (binding : Binding) (badge h : Nat) : Ledger :=
  l.mintSlot h
    (match binding with
    | .bound _ => some (badge, l.epoch badge)
    | _ => none)

/-- Slot `h` became the root of `badge`. -/
def recordGrant (l : Ledger) (e : Option Entry) (h badge : Nat) : Ledger :=
  { l with
    granted := update l.granted badge (e.map fun e => (e, l.mint h))
    epoch := update l.epoch badge (l.epoch badge + 1) }

variable (l : Ledger) (who : Option (Nat × Nat)) {h k : Nat}

theorem minter_mintSlot : (l.mintSlot h who).minter h = who := update_self ..

theorem minter_mintSlot_ne (hk : k ≠ h) : (l.mintSlot h who).minter k = l.minter k :=
  update_of_ne hk ..

theorem mint_mintSlot_ne (hk : k ≠ h) : (l.mintSlot h who).mint k = l.mint k :=
  update_of_ne hk ..

end Ledger

/-- The server and the ledger. -/
structure Grants (B : Type) where
  server : Server B
  ledger : Ledger

namespace Grants

variable {B : Type} [ByteStore B]

def opened (img : Image B) : Grants B := ⟨Server.opened img, Ledger.new⟩

section

variable (g : Grants B)

/-- The ledger after an operation for `badge` that answered `a`. -/
def record (badge : Nat) (op : ServerOp) (a : Except Errno ServerAnswer) : Ledger :=
  match op, a with
  | _, .ok (.handle h) => g.ledger.recordMint (g.server.bindings.of badge) badge h
  | .bind _ h badge, .ok _ => g.ledger.recordGrant (g.server.entryAt h) h badge
  | _, _ => g.ledger

/-- The ledger after a request. -/
def nextLedger (r : FileRequest) : Ledger :=
  match g.server.requested r with
  | .error _ => g.ledger
  | .ok op => g.record r.badge.toNat op (run (Server.perform op) g.server).1

/-- One round of the request loop. -/
def next (r : FileRequest) : Grants B := ⟨(g.server.serve r).2, g.nextLedger r⟩

def step (r : FileRequest) : Option (Grants B) := some (g.next r)

end

end Grants

/-- The slots an operation closes. -/
def Server.closes {B : Type} (s : Server B) : ServerOp → List Nat
  | .close h => [h]
  | .unbind caller badge =>
    match s.bindings.unbind caller badge with
    | .ok (root, _) => s.mintedBy badge ++ [root]
    | .error _ => []
  | _ => []

namespace Grants

variable {B : Type}

/-- No slot is closed that is the root of a grant which stands; an `UNBIND` closes the root of
the grant it takes back, and the endpoint's own root is never closed. -/
def RootsKept (g : Grants B) (r : FileRequest) : Prop :=
  ∀ op, g.server.requested r = .ok op → ∀ h ∈ g.server.closes op, ∀ badge,
    g.server.bindings.of badge = .bound h → h = 0 ∨ ∃ caller, op = .unbind caller badge

/-- Handle `h` is `badge`'s root and what it was when it was bound, or `badge` minted it under
the binding that stands. -/
def WithinGrant (g : Grants B) (badge root h : Nat) : Prop :=
  (h = root ∧ ∃ e n, g.ledger.granted badge = some (e, n) ∧ g.server.entryAt h = some e ∧
      g.ledger.mint h = n) ∨
    (∃ e, g.server.entryAt h = some e) ∧
      g.ledger.minter h = some (badge, g.ledger.epoch badge)

variable [ByteStore B]

structure Confined (g : Grants B) : Prop where
  /-- A bound badge's verbs use its root and what it minted under this binding; its control
  verbs are refused. -/
  request : ∀ (r : FileRequest) (root : Nat) (op : ServerOp),
    g.server.bindings.of r.badge.toNat = .bound root → g.server.requested r = .ok op →
    (∀ h ∈ op.handles, g.WithinGrant r.badge.toNat root h) ∨
      op.isVerb = false ∧ ∃ e, run (Server.perform op) g.server = (.error e, g.server)
  /-- A handle minted under a binding is open only while that binding stands. -/
  minted : ∀ h e badge n, g.server.entryAt h = some e → g.ledger.minter h = some (badge, n) →
    (∃ root, g.server.bindings.of badge = .bound root) ∧ n = g.ledger.epoch badge
  /-- A revoked badge reaches nothing. -/
  revoked : ∀ r : FileRequest, g.server.bindings.of r.badge.toNat = .revoked →
    ∃ e, g.server.serve r = (⟨.error e, 0⟩, g.server)
  /-- An `UNBIND` that succeeds leaves its badge revoked. -/
  unbound : ∀ (r : FileRequest) caller badge, g.server.requested r = .ok (.unbind caller badge) →
    (g.server.serve r).1.answer = .ok .done →
    (g.server.serve r).2.bindings.of badge = .revoked
  /-- A revoked badge stays so until an open badge's `BIND`. -/
  rebound : ∀ (r : FileRequest) badge, g.server.bindings.of badge = .revoked →
    (g.server.serve r).2.bindings.of badge ≠ .revoked →
    g.server.bindings.of r.badge.toNat = .opened ∧
      ∃ h, g.server.requested r = .ok (.bind r.badge.toNat h badge)

end Grants

/-! ### The invariant -/

structure Ledger.Agrees (l : Ledger) (t : ServerTable) : Prop where
  length : t.owners.length = t.handles.length
  root : t.entryAt 0 ≠ none
  rootOwner : t.ownerAt 0 = 0
  bound : ∀ badge root, t.bindings.of badge = .bound root →
    ∃ e, l.granted badge = some (e, l.mint root) ∧ t.entryAt root = some e
  owned : ∀ h, t.entryAt h ≠ none → t.ownerAt h ≠ 0 →
    (∃ root, t.bindings.of (t.ownerAt h) = .bound root) ∧
      l.minter h = some (t.ownerAt h, l.epoch (t.ownerAt h))
  minted : ∀ h badge n, t.entryAt h ≠ none → l.minter h = some (badge, n) →
    t.ownerAt h = badge ∧ badge ≠ 0

namespace Ledger.Agrees

variable {l : Ledger} {t : ServerTable} {h root : Nat}

theorem freeSlot_lt_install (e : Entry) (hlen : t.owners.length = t.handles.length) :
    t.freeSlot < (t.install e).owners.length := by
  have hle := t.freeSlot_le
  unfold ServerTable.install
  split <;> simp <;> omega

theorem ownerAt_claim (hb : t.bindings.of badge = .bound root)
    (hlt : h < t.owners.length) (k : Nat) :
    (t.claim h badge).ownerAt k = if k = h then badge else t.ownerAt k := by
  unfold ServerTable.claim
  rw [hb]
  simp only [ownerAt, getD_eq_getElem?_getD, getElem?_set, eq_comm (a := h)]
  split
  · rfl
  · rfl

theorem claim_of_not_bound (hb : ∀ root, t.bindings.of badge ≠ .bound root) :
    t.claim h badge = t := by
  unfold ServerTable.claim
  split
  · next root hr => exact absurd hr (hb root)
  · rfl

theorem freeSlot_ne (ha : l.Agrees t) : t.freeSlot ≠ 0 := by
  intro h0
  exact ha.root (h0 ▸ t.entryAt_freeSlot)

/-- A mint without a claim: the new entry stands in a slot that was free, so no grant's root is
touched. -/
theorem install (ha : l.Agrees t) (e : Entry) :
    (l.mintSlot t.freeSlot none).Agrees (t.install e) where
  length := length_install e ha.length
  root := by
    rw [entryAt_install, if_neg ha.freeSlot_ne.symm]
    exact ha.root
  rootOwner := by
    rw [ownerAt_install e 0 ha.length, if_neg ha.freeSlot_ne.symm]
    exact ha.rootOwner
  bound := by
    intro badge root hb
    rw [bindings_install] at hb
    obtain ⟨e', hg, he'⟩ := ha.bound badge root hb
    have hne : root ≠ t.freeSlot := by
      intro heq
      rw [heq, t.entryAt_freeSlot] at he'
      cases he'
    refine ⟨e', ?_, ?_⟩
    · rw [l.mint_mintSlot_ne none hne]
      exact hg
    · rw [entryAt_install, if_neg hne, he']
  owned := by
    intro h hopen howner
    rw [ownerAt_install e h ha.length] at howner ⊢
    split at howner
    · exact absurd rfl howner
    next hne =>
    rw [entryAt_install, if_neg hne] at hopen
    rw [if_neg hne, bindings_install, l.minter_mintSlot_ne none hne]
    exact ha.owned h hopen howner
  minted := by
    intro h badge n hopen hm
    by_cases hh : h = t.freeSlot
    · rw [hh, l.minter_mintSlot] at hm
      cases hm
    · rw [l.minter_mintSlot_ne none hh] at hm
      rw [entryAt_install, if_neg hh] at hopen
      rw [ownerAt_install e h ha.length, if_neg hh]
      exact ha.minted h badge n hopen hm

/-- A bound badge claims a slot whose minting was recorded for no binding. -/
theorem claim (ha : (l.mintSlot h none).Agrees t)
    (hb : t.bindings.of badge = .bound root) (hlt : h < t.owners.length) (h0 : h ≠ 0) :
    (l.mintSlot h (some (badge, l.epoch badge))).Agrees (t.claim h badge) := by
  have hentry : ∀ k, (t.claim h badge).entryAt k = t.entryAt k := by
    intro k
    unfold ServerTable.claim
    split <;> rfl
  have hbind := t.bindings_claim h badge
  have hbadge : badge ≠ 0 := by
    rintro rfl
    cases hb
  refine ⟨?_, ?_, ?_, ?_, ?_, ?_⟩
  · unfold ServerTable.claim
    split <;> simp [ha.length]
  · rw [hentry]
    exact ha.root
  · rw [ownerAt_claim hb hlt, if_neg (Ne.symm h0)]
    exact ha.rootOwner
  · intro b r hbr
    rw [hbind] at hbr
    rw [hentry]
    exact ha.bound b r hbr
  · intro k hopen howner
    rw [hentry] at hopen
    rw [ownerAt_claim hb hlt] at howner ⊢
    rw [hbind]
    by_cases hk : k = h
    · rw [if_pos hk, hk, l.minter_mintSlot]
      exact ⟨⟨root, hb⟩, rfl⟩
    · rw [if_neg hk] at howner ⊢
      have hm := ha.owned k hopen howner
      rwa [l.minter_mintSlot_ne _ hk] at hm ⊢
  · intro k b n hopen hm
    rw [hentry] at hopen
    rw [ownerAt_claim hb hlt]
    by_cases hk : k = h
    · rw [hk, l.minter_mintSlot] at hm
      cases hm
      rw [if_pos hk]
      exact ⟨rfl, hbadge⟩
    · rw [l.minter_mintSlot_ne _ hk] at hm
      rw [if_neg hk]
      exact ha.minted k b n hopen ((l.minter_mintSlot_ne none hk).trans hm)

theorem mint (ha : l.Agrees t) (e : Entry) (badge : Nat) :
    (l.recordMint (t.bindings.of badge) badge t.freeSlot).Agrees
      ((t.install e).claim t.freeSlot badge) := by
  have hi := ha.install e
  have hbi := bindings_install t e
  rcases hb : t.bindings.of badge with - | root | -
  · rw [claim_of_not_bound (by simp [hbi, hb])]
    exact hi
  · exact claim hi (hbi ▸ hb) (freeSlot_lt_install e ha.length) ha.freeSlot_ne
  · rw [claim_of_not_bound (by simp [hbi, hb])]
    exact hi

theorem close (ha : l.Agrees t)
    (hkept : ∀ badge, t.bindings.of badge = .bound h → h = 0) : l.Agrees (t.close h) := by
  have hopened : ∀ k, (t.close h).entryAt k ≠ none → t.entryAt k ≠ none := by
    intro k hk
    rw [entryAt_close] at hk
    split at hk
    · exact absurd rfl hk
    · exact hk
  refine ⟨length_close h ha.length, ?_, ?_, ?_, ?_, ?_⟩
  · rw [entryAt_close, if_neg fun hh => hh.2 hh.1.symm]
    exact ha.root
  · rw [ownerAt_close]
    exact ha.rootOwner
  · intro badge root hb
    rw [bindings_close] at hb
    obtain ⟨e, hg, he⟩ := ha.bound badge root hb
    refine ⟨e, hg, ?_⟩
    rw [entryAt_close, if_neg, he]
    rintro ⟨rfl, h0⟩
    exact h0 (hkept badge hb)
  · intro k hopen
    rw [ownerAt_close, bindings_close]
    exact ha.owned k (hopened k hopen)
  · intro k badge n hopen hm
    rw [ownerAt_close]
    exact ha.minted k badge n (hopened k hopen) hm

variable {bindings : Bindings clientWindows}

theorem bind (ha : l.Agrees t) {e : Entry}
    (he : t.entryAt h = some e) (hb : t.bindings.bind caller badge h = .ok bindings) :
    (l.recordGrant (some e) h badge).Agrees { t with bindings := bindings } := by
  obtain ⟨-, -, hfree, hof⟩ := bind_ok hb
  refine ⟨ha.length, ha.root, ha.rootOwner, ?_, ?_, ha.minted⟩
  · intro b root hbr
    show ∃ e', update l.granted badge (some (e, l.mint h)) b = _ ∧ _
    by_cases hbb : b = badge
    · subst hbb
      rw [hof, if_pos rfl] at hbr
      cases hbr
      exact ⟨e, update_self .., he⟩
    · rw [hof, if_neg hbb] at hbr
      rw [update_of_ne hbb]
      exact ha.bound b root hbr
  · intro k hopen howner
    obtain ⟨⟨root, hroot⟩, hm⟩ := ha.owned k hopen howner
    -- the owner is bound already, so it is not the badge that was free
    have hne : t.ownerAt k ≠ badge := by
      intro heq
      exact hfree root (heq ▸ hroot)
    refine ⟨⟨root, ?_⟩, ?_⟩
    · show bindings.of (t.ownerAt k) = _
      rw [hof, if_neg hne, hroot]
    · show l.minter k = some (t.ownerAt k, update l.epoch badge _ (t.ownerAt k))
      rw [update_of_ne hne, hm]

theorem unbind (ha : l.Agrees t) {root : Nat}
    {minted : List Nat} (hu : t.bindings.unbind caller badge = .ok (root, bindings))
    (hminted : ∀ h, h ∈ minted ↔ h < t.owners.length ∧ t.ownerAt h = badge ∧ t.entryAt h ≠ none)
    (hkept : ∀ h, h ∈ minted ∨ h = root → ∀ b, t.bindings.of b = .bound h → h = 0 ∨ b = badge) :
    l.Agrees ((closeAll { t with bindings := bindings } minted).close root) := by
  obtain ⟨-, hroot, hof⟩ := unbind_ok hu
  have hentry : ∀ k, ((closeAll { t with bindings := bindings } minted).close
      root).entryAt k = if (k = root ∨ k ∈ minted) ∧ k ≠ 0 then none else t.entryAt k := by
    intro k
    rw [entryAt_close, entryAt_closeAll]
    show (if _ then none else if _ then none else t.entryAt k) = _
    by_cases hk : k = root
    · subst hk
      by_cases h0 : k = 0 <;> simp [h0]
    · simp [hk]
  have howner : ∀ k, ((closeAll { t with bindings := bindings } minted).close
      root).ownerAt k = if k ∈ minted then 0 else t.ownerAt k := by
    intro k
    rw [ownerAt_close, ownerAt_closeAll]
    rfl
  have hbind : ((closeAll { t with bindings := bindings } minted).close
      root).bindings = bindings := by
    rw [bindings_close, bindings_closeAll]
  have hopened : ∀ k, ((closeAll { t with bindings := bindings } minted).close
      root).entryAt k ≠ none → t.entryAt k ≠ none ∧ (k ∈ minted → k = 0) := by
    intro k hk
    rw [hentry] at hk
    split at hk
    · exact absurd rfl hk
    next hno =>
    refine ⟨hk, fun hmem => ?_⟩
    by_contra h0
    exact hno ⟨.inr hmem, h0⟩
  refine ⟨length_close _ (length_closeAll _ ha.length), ?_, ?_, ?_, ?_, ?_⟩
  · rw [hentry, if_neg fun hh => hh.2 rfl]
    exact ha.root
  · rw [howner]
    split
    · rfl
    · exact ha.rootOwner
  · intro b r hbr
    rw [hbind, hof] at hbr
    split at hbr
    · cases hbr
    next hne =>
    obtain ⟨e, hg, he⟩ := ha.bound b r hbr
    refine ⟨e, hg, ?_⟩
    rw [hentry, if_neg, he]
    rintro ⟨hclosed, h0⟩
    rcases hkept r hclosed.symm b hbr with hz | hb
    · exact h0 hz
    · exact hne hb
  · intro k hopen hown
    rw [howner] at hown ⊢
    split at hown
    · exact absurd rfl hown
    next hmem =>
    obtain ⟨hk, -⟩ := hopened k hopen
    obtain ⟨⟨r, hr⟩, hm⟩ := ha.owned k hk hown
    have hlt : k < t.owners.length := by
      by_contra hge
      rw [ownerAt, getD_eq_getElem?_getD, getElem?_eq_none (Nat.le_of_not_lt hge)] at hown
      exact hown rfl
    have hne : t.ownerAt k ≠ badge := fun heq => hmem ((hminted k).mpr ⟨hlt, heq, hk⟩)
    rw [if_neg hmem, hbind, hof, if_neg hne]
    exact ⟨⟨r, hr⟩, hm⟩
  · intro k b n hopen hm
    obtain ⟨hk, hzero⟩ := hopened k hopen
    obtain ⟨heq, hb0⟩ := ha.minted k b n hk hm
    have hmem : k ∉ minted := by
      intro hmem
      rw [hzero hmem, ha.rootOwner] at heq
      exact hb0 heq.symm
    rw [howner, if_neg hmem]
    exact ⟨heq, hb0⟩

theorem opened {B : Type} (img : Image B) : Ledger.new.Agrees (Server.opened img).table := by
  refine ⟨rfl, by simp [Server.table, Server.opened, ServerTable.entryAt], rfl, ?_, ?_, ?_⟩
  · intro badge root hb
    have hof : (Bindings.new : Bindings clientWindows).of badge ≠ .bound root := by
      unfold Bindings.of
      split
      · simp
      · split <;> simp [Bindings.new]
    exact absurd hb hof
  · intro h hopen howner
    rcases h with - | h
    · exact absurd rfl howner
    · simp [Server.table, Server.opened, ServerTable.entryAt] at hopen
  · intro h badge n hopen hm
    cases hm

end Ledger.Agrees

/-! ### One round -/

namespace Server

variable {B : Type} [ByteStore B] {s : Server B} {r : FileRequest} {op : ServerOp}

theorem serve_error {e : Errno} (hr : s.requested r = .error e) :
    s.serve r = (⟨.error e, 0⟩, s) := by
  unfold serve
  rw [hr]

theorem frames_openedSize (r : FileRequest) (h : Nat) :
    Frames table (openedSize r h : Serve B Nat) := by
  refine frames_ite ((frames_fstat h).attempt.bind fun a => ?_) (frames_pure _)
  cases a with
  | error e | ok n => exact frames_pure _

theorem serve_handle (hr : s.requested r = .ok op) (ha : (run (perform op) s).1 = .ok (.handle h)) :
    (s.serve r).1.answer = .ok (.handle h) ∧
      (s.serve r).2.table = (run (perform op) s).2.table.claim h r.badge.toNat := by
  unfold serve
  rw [hr]
  dsimp only
  rcases hrun : run (perform op) s with ⟨a, s'⟩
  rw [hrun] at ha
  subst ha
  exact ⟨rfl, (frames_openedSize r h _).trans (table_claim h _ s')⟩

theorem serve_other (hr : s.requested r = .ok op)
    (ha : ∀ h, (run (perform op) s).1 ≠ .ok (.handle h)) :
    s.serve r = (⟨(run (perform op) s).1, 0⟩, (run (perform op) s).2) := by
  unfold serve
  rw [hr]
  dsimp only
  rcases hrun : run (perform op) s with ⟨a, s'⟩
  rw [hrun] at ha
  split
  · next h s'' heq =>
    cases heq
    exact absurd rfl (ha h)
  · next heq =>
    cases heq
    rfl

/-- **What a round does to the bindings**: nothing, or what one control verb of its own badge
does. -/
theorem serve_bindings (s : Server B) (r : FileRequest) : ((s.serve r).2.bindings = s.bindings ∧
        ∀ c b, s.requested r = .ok (.unbind c b) → ∃ e, (s.serve r).1.answer = .error e) ∨
      (∃ h badge, s.requested r = .ok (.bind r.badge.toNat h badge) ∧
        s.bindings.bind r.badge.toNat badge h = .ok (s.serve r).2.bindings) ∨
      ∃ badge root, s.requested r = .ok (.unbind r.badge.toNat badge) ∧
        s.bindings.unbind r.badge.toNat badge = .ok (root, (s.serve r).2.bindings) := by
  rcases hr : s.requested r with e | op
  · rw [serve_error hr]
    exact .inl ⟨rfl, by simp⟩
  have hstep := perform_table op s
  have hcases := requested_cases hr
  generalize hans : (run (perform op) s).1 = a at hstep
  generalize htab : (run (perform op) s).2.table = t at hstep
  have hother : (∀ h, a ≠ .ok (.handle h)) →
      (s.serve r).1.answer = a ∧ (s.serve r).2.bindings = t.bindings := by
    intro hne
    rw [serve_other hr (hans ▸ hne), ← htab]
    exact ⟨hans, rfl⟩
  cases hstep with
  | same hhandle hbind hunbind =>
    obtain ⟨ha, hb⟩ := hother hhandle
    refine .inl ⟨hb, fun c b hop => ?_⟩
    rw [ha]
    exact hunbind c b (ok.inj hop)
  | mint e hbind hunbind hclose =>
    refine .inl ⟨?_, fun c b hop => absurd (ok.inj hop) (hunbind c b)⟩
    have ht := (serve_handle hr hans).2
    rw [htab] at ht
    have hb : (s.serve r).2.table.bindings = s.table.bindings := by
      rw [ht, bindings_claim, bindings_install]
    exact hb
  | close h hhandle =>
    refine .inl ⟨?_, by simp⟩
    rw [(hother hhandle).2, bindings_close]
    rfl
  | claim h badge =>
    rcases hcases with ⟨h, b, hop⟩ | ⟨b, hop⟩ | ⟨hverb, -⟩
    · cases hop
    · cases hop
    · cases hverb
  | bind caller h badge hdir hbind =>
    rcases hcases with ⟨h', b, hop⟩ | ⟨b, hop⟩ | ⟨hverb, -⟩
    · cases hop
      refine .inr (.inl ⟨h, badge, rfl, ?_⟩)
      rw [(hother (by simp)).2]
      exact hbind
    · cases hop
    · cases hverb
  | @unbind caller badge root bindings minted hunbind hminted =>
    rcases hcases with ⟨h', b, hop⟩ | ⟨b, hop⟩ | ⟨hverb, -⟩
    · cases hop
    · cases hop
      refine .inr (.inr ⟨badge, root, rfl, ?_⟩)
      rw [(hother (by simp)).2, bindings_close, bindings_closeAll]
      exact hunbind
    · cases hverb

/-! ### The handles of every run -/

/-- Handle 0 is the root with every right and nobody's, and every handle has an owner beside it. -/
structure Rooted (t : ServerTable) : Prop where
  length : t.owners.length = t.handles.length
  root : t.entryAt 0 = some (.dir rootNode (DirRights.root Dir.all))
  owner : t.ownerAt 0 = 0

namespace Rooted

variable {t : ServerTable} (ht : Rooted t)
include ht

theorem freeSlot_ne : t.freeSlot ≠ 0 := by
  intro h0
  have hnone := t.entryAt_freeSlot
  rw [h0, ht.root] at hnone
  cases hnone

theorem close (h : Nat) : Rooted (t.close h) where
  length := length_close h ht.length
  root := by
    rw [entryAt_close, if_neg fun hh => hh.2 hh.1.symm]
    exact ht.root
  owner := (t.ownerAt_close h 0).trans ht.owner

theorem closeAll (hs : List Nat) : Rooted (t.closeAll hs) where
  length := length_closeAll hs ht.length
  root := by
    rw [entryAt_closeAll, if_neg fun hh => hh.2 rfl]
    exact ht.root
  owner := by
    rw [ownerAt_closeAll, ht.owner, ite_self]

theorem mint (e : Entry) (badge : Nat) : Rooted ((t.install e).claim t.freeSlot badge) := by
  have hi : Rooted (t.install e) := by
    refine ⟨length_install e ht.length, ?_, ?_⟩
    · rw [entryAt_install, if_neg ht.freeSlot_ne.symm, ht.root]
    · rw [ownerAt_install e 0 ht.length, if_neg ht.freeSlot_ne.symm, ht.owner]
  unfold ServerTable.claim
  split
  · refine ⟨by simpa using hi.length, hi.root, ?_⟩
    rw [ownerAt, getD_eq_getElem?_getD, getElem?_set_ne ht.freeSlot_ne]
    simpa [ownerAt] using hi.owner
  · exact hi

end Rooted

/-- A handle that a request is answered with was free and is open, and no other handle changed. -/
def MintsFresh (s : Server B) (r : FileRequest) : Prop :=
  ∀ h, (s.serve r).1.answer = .ok (.handle h) →
    h ≠ 0 ∧ s.entryAt h = none ∧ ∃ e, ∀ k, (s.serve r).2.entryAt k =
      if k = h then some e else s.entryAt k

theorem Rooted.serve (ht : Rooted s.table) (r : FileRequest) :
    Rooted (s.serve r).2.table ∧ s.MintsFresh r := by
  unfold MintsFresh
  rcases hr : s.requested r with e | op
  · rw [serve_error hr]
    exact ⟨ht, nofun⟩
  have hstep := perform_table op s
  generalize hans : (run (perform op) s).1 = a at hstep
  generalize htab : (run (perform op) s).2.table = t at hstep
  have hother (hne : ∀ h, a ≠ .ok (.handle h)) (hrt : Rooted t) :
      Rooted (s.serve r).2.table ∧ s.MintsFresh r := by
    unfold MintsFresh
    rw [serve_other hr (hans ▸ hne)]
    exact ⟨htab ▸ hrt, fun h ha => absurd (hans.symm.trans ha) (hne h)⟩
  cases hstep with
  | same hhandle => exact hother hhandle ht
  | mint e =>
    obtain ⟨ha, ht'⟩ := serve_handle hr hans
    rw [htab] at ht'
    refine ⟨ht' ▸ ht.mint e _, fun h hh => ?_⟩
    rw [ha] at hh
    cases hh
    refine ⟨ht.freeSlot_ne, s.table.entryAt_freeSlot, e, fun k => ?_⟩
    refine Eq.trans ?_ (s.table.entryAt_install e k)
    show (s.serve r).2.table.entryAt k = _
    rw [ht']
    unfold ServerTable.claim
    split <;> rfl
  | close h hhandle => exact hother hhandle (ht.close h)
  | claim h badge =>
    rcases requested_cases hr with ⟨h, b, hop⟩ | ⟨b, hop⟩ | ⟨hverb, -⟩
    · cases hop
    · cases hop
    · cases hverb
  | bind => exact hother (by simp) { ht with }
  | @unbind caller badge root bindings minted =>
    have hb : Rooted { s.table with bindings := bindings } := { ht with }
    exact hother (by simp) ((hb.closeAll minted).close root)

/-- **Whatever is asked, in whatever order**: handle 0 stays the root's and nobody's, and a handle
that the server mints was not open. -/
theorem handles_sound (img : Image B) (rs : List FileRequest) :
    let s := rs.foldl (fun s r => (s.serve r).2) (opened img)
    Rooted s.table ∧ ∀ r, s.MintsFresh r := by
  have ht : Rooted (rs.foldl (fun s r => (s.serve r).2) (opened img)).table := by
    induction rs using reverseRecOn with
    | nil => exact ⟨rfl, rfl, rfl⟩
    | append_singleton rs r ih =>
      rw [foldl_append]
      exact (ih.serve r).1
  exact ⟨ht, fun r => (ht.serve r).2⟩

end Server

namespace Grants

variable {B : Type} {g g' : Grants B} {r : FileRequest}

theorem record_same {a : Except Errno ServerAnswer}
    (hhandle : ∀ h, a ≠ .ok (.handle h)) (hbind : ∀ c h b, op = .bind c h b → ∃ e, a = .error e) :
    g.record badge op a = g.ledger := by
  unfold record
  split
  · next h => exact absurd rfl (hhandle h)
  · next c h b a' _ =>
    obtain ⟨e, he⟩ := hbind _ _ _ rfl
    cases he
  · rfl

variable [ByteStore B]

/-- **One round keeps the agreement**, unless it closes the root of a grant that stands. -/
theorem agrees_step (ha : g.ledger.Agrees g.server.table) (hkept : g.RootsKept r)
    (hs : g.step r = some g') : g'.ledger.Agrees g'.server.table := by
  cases hs
  show (g.nextLedger r).Agrees (g.server.serve r).2.table
  rcases hr : g.server.requested r with e | op
  · rw [serve_error hr, nextLedger, hr]
    exact ha
  rw [nextLedger, hr]
  dsimp only
  have hstep := perform_table op g.server
  generalize hans : (run (perform op) g.server).1 = a at hstep ⊢
  generalize htab : (run (perform op) g.server).2.table = t at hstep
  cases hstep with
  | same hhandle hbind hunbind =>
    rw [record_same hhandle hbind, serve_other hr (hans ▸ hhandle)]
    show g.ledger.Agrees (run (perform op) g.server).2.table
    rw [htab]
    exact ha
  | mint e =>
    rw [(serve_handle hr hans).2, htab]
    exact ha.mint e r.badge.toNat
  | close h hhandle =>
    rw [record_same hhandle (by simp), serve_other hr (hans ▸ hhandle)]
    show g.ledger.Agrees (run (perform _) g.server).2.table
    rw [htab]
    refine ha.close fun badge hb => ?_
    rcases hkept _ hr h (mem_singleton_self h) badge hb with h0 | ⟨c, hop⟩
    · exact h0
    · cases hop
  | claim h badge =>
    rcases requested_cases hr with ⟨h, b, hop⟩ | ⟨b, hop⟩ | ⟨hverb, -⟩
    · cases hop
    · cases hop
    · cases hverb
  | bind caller h badge hdir hbind =>
    rw [serve_other hr (by rw [hans]; simp)]
    show (g.ledger.recordGrant (g.server.entryAt h) h badge).Agrees
      (run (perform _) g.server).2.table
    rw [htab, show g.server.entryAt h = _ from hdir]
    exact ha.bind hdir hbind
  | unbind caller badge hunbind hminted =>
    rw [serve_other hr (by rw [hans]; simp)]
    show g.ledger.Agrees (run (perform _) g.server).2.table
    rw [htab]
    refine ha.unbind hunbind hminted fun h hclosed b hb => ?_
    have hmem : h ∈ g.server.closes (.unbind caller badge) := by
      have hu : g.server.bindings.unbind caller badge = _ := hunbind
      rw [closes, hu, mem_append, mem_singleton, mem_mintedBy]
      exact hclosed.imp_left (hminted h).mp
    rcases hkept _ hr h hmem b hb with h0 | ⟨c, hop⟩
    · exact .inl h0
    · cases hop
      exact .inr rfl

theorem confined_of_agrees (ha : g.ledger.Agrees g.server.table) : g.Confined where
  request := by
    intro r root op hb hr
    have hclosed : g.server.bindings.of r.badge.toNat ≠ .opened := by
      rw [hb]
      simp
    rcases requested_cases hr with ⟨h, badge, rfl⟩ | ⟨badge, rfl⟩ | ⟨-, hadm⟩
    · exact .inr ⟨rfl, (control_refused hclosed h badge).1⟩
    · exact .inr ⟨rfl, (control_refused hclosed 0 badge).2⟩
    obtain ⟨e, hg, he⟩ := ha.bound _ root hb
    have hlt : root < g.server.handles.length := lt_of_entryAt he
    refine .inl fun h hh => ?_
    obtain ⟨raw, hraw⟩ := hadm h hh
    rcases admitted_of_bound hb hlt hraw with rfl | ⟨hopen, howner⟩
    · exact .inl ⟨rfl, e, _, hg, he, rfl⟩
    · have hne : g.server.table.ownerAt h ≠ 0 := by
        rw [howner]
        intro h0
        rw [h0] at hb
        cases hb
      have hm := (ha.owned h hopen hne).2
      rw [howner] at hm
      exact .inr ⟨Option.ne_none_iff_exists'.mp hopen, hm⟩
  minted := by
    intro h e badge n he hm
    have hopen : g.server.table.entryAt h ≠ none := by
      rw [show g.server.table.entryAt h = some e from he]
      simp
    obtain ⟨howner, h0⟩ := ha.minted h badge n hopen hm
    obtain ⟨hbound, hm'⟩ := ha.owned h hopen (howner ▸ h0)
    rw [hm] at hm'
    cases hm'
    exact ⟨hbound, rfl⟩
  revoked := by
    intro r hb
    have hclosed : g.server.bindings.of r.badge.toNat ≠ .opened := by
      rw [hb]
      simp
    rcases hr : g.server.requested r with e | op
    · exact ⟨e, serve_error hr⟩
    have hrefused : ∃ e, run (perform op) g.server = (.error e, g.server) := by
      rcases requested_cases hr with ⟨h, badge, rfl⟩ | ⟨badge, rfl⟩ | ⟨hverb, hadm⟩
      · exact (control_refused hclosed h badge).1
      · exact (control_refused hclosed 0 badge).2
      · obtain ⟨h, hh⟩ := exists_mem_of_ne_nil _ (ServerOp.handles_ne_nil hverb)
        obtain ⟨raw, hraw⟩ := hadm h hh
        rw [admitted_of_revoked hb] at hraw
        cases hraw
    obtain ⟨e, hrun⟩ := hrefused
    refine ⟨e, ?_⟩
    rw [serve_other hr (by rw [hrun]; simp), hrun]
  unbound := by
    intro r caller badge hr hans
    rcases serve_bindings g.server r with ⟨-, hunbind⟩ | ⟨h, b, hr', -⟩ | ⟨b, root, hr', hu⟩
    · obtain ⟨e, he⟩ := hunbind caller badge hr
      rw [hans] at he
      cases he
    · rw [hr] at hr'
      cases hr'
    · rw [hr] at hr'
      cases hr'
      rw [(unbind_ok hu).2.2, if_pos rfl]
  rebound := by
    intro r badge hb hb'
    rcases serve_bindings g.server r with ⟨hsame, -⟩ | ⟨h, b, hr, hbind⟩ | ⟨b, root, -, hu⟩
    · rw [hsame] at hb'
      exact absurd hb hb'
    · obtain ⟨hopen, -, -, hof⟩ := bind_ok hbind
      rw [hof] at hb'
      split at hb'
      · next heq => exact ⟨hopen, h, heq ▸ hr⟩
      · exact absurd hb hb'
    · rw [(unbind_ok hu).2.2] at hb'
      split at hb'
      · exact absurd rfl hb'
      · exact absurd hb hb'

/-- **Bound badges stay in their grants**, in every run of the request loop in which no slot is
closed that is the root of a grant which stands. -/
theorem bound_badges_confined (img : Image B)
    (h : Reach step RootsKept (opened img) g) : g.Confined :=
  confined_of_agrees <|
    h.invariant (fun g => g.ledger.Agrees g.server.table) (Ledger.Agrees.opened img)
      fun _ _ _ ha hkept hs => agrees_step ha hkept hs

/-! ### Runs -/

/-- A request of an open badge for the directory whose name is one byte, with every right. -/
def makeDirRequest (name : UInt8) : FileRequest :=
  ⟨Fs.req FsOp.mkdir.code Fs.root 1, Dir.all, 0, fun _ => name⟩

/-- `BIND` badge 1 to handle 1. -/
def bindRequest : FileRequest := ⟨Fs.req FileRequest.bindCode 1 0, 1, 0, fun _ => 0⟩

/-- `CLOSE` handle 1. -/
def closeRequest : FileRequest := ⟨Fs.req FsOp.close.code 1 0, 0, 0, fun _ => 0⟩

/-- Badge 1 lists its root. -/
def listRequest : FileRequest := ⟨Fs.req FsOp.readdir.code Fs.root 0, 0, 1, fun _ => 0⟩

/-- Badge 1 bound to a fresh directory. -/
def granted : Grants PlainBytes := ((opened Image.blank).next (makeDirRequest 100)).next bindRequest

omit [ByteStore B] in
theorem rootsKept_of_nil
    (h : (g.server.requested r).toOption.map g.server.closes = some []) : g.RootsKept r := by
  intro op hop k hk
  rw [hop] at h
  rw [Option.some.inj h] at hk
  cases hk

/-- A badge bound to a directory that an open badge made. -/
theorem bound_badge_confined_once : granted.server.bindings.of 1 = .bound 1 ∧ granted.Confined := by
  refine ⟨by decide +kernel, bound_badges_confined Image.blank ?_⟩
  exact (Reach.refl.tail (rootsKept_of_nil (by decide +kernel)) rfl).tail
    (rootsKept_of_nil (by decide +kernel)) rfl

/-- **A grant's root can be renamed under its badge.**  The open badge closes the handle that
badge 1 is bound to and makes another directory: the new handle takes the slot, and it is badge
1's root. -/
theorem closed_root_renamed :
    ∃ g : Grants PlainBytes, Reach step (fun _ _ => True) (opened Image.blank) g ∧
      g.server.bindings.of 1 = .bound 1 ∧ ¬ g.Confined := by
  refine ⟨(granted.next closeRequest).next (makeDirRequest 101),
    (((Reach.refl.tail trivial rfl).tail trivial rfl).tail trivial rfl).tail trivial rfl,
    by decide +kernel, fun hconf => ?_⟩
  have hhandles : (((granted.next closeRequest).next (makeDirRequest 101)).server.requested
      listRequest).toOption.map (fun op => (op.handles, op.isVerb)) = some ([1], true) := by
    decide +kernel
  rcases hr : ((granted.next closeRequest).next (makeDirRequest 101)).server.requested
      listRequest with e | op
  · rw [hr] at hhandles
    cases hhandles
  rw [hr] at hhandles
  obtain ⟨hh, hverb⟩ := Prod.mk.inj (Option.some.inj hhandles)
  rcases hconf.request listRequest 1 op (by decide +kernel) hr with hin | ⟨hctl, -⟩
  · have hmint : ((granted.next closeRequest).next (makeDirRequest 101)).ledger.granted 1 =
        some (.dir 2 (DirRights.root Dir.all), 1) := by decide +kernel
    have hminter : ((granted.next closeRequest).next (makeDirRequest 101)).ledger.minter 1 =
        none := by decide +kernel
    rcases hin 1 (by rw [hh]; exact mem_singleton_self 1) with ⟨-, e, n, hg, he, -⟩ | ⟨-, hm⟩
    · have hg' := hmint.symm.trans hg
      cases he
      cases hg'
    · rw [hminter] at hm
      cases hm
  · rw [hverb] at hctl
    cases hctl

end Grants

end Nife
