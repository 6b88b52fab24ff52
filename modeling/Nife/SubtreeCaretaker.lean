/-
The subtree caretaker (`fs_subtree_caretaker`): a directory capability attenuated to what is
reached through one handle.  It checks nothing; it renumbers.  Each request's handle is looked
up in the client's table, the request goes on with the server's handle in its place, and a handle
the server mints gets a number of the client's own.

A session is the table, the handles open in the server on the caretaker's behalf, and the
numbers the client holds.  `client_confined` is over every run: any words, any opcodes, and any
server that mints handles which are not open, as long as they fit sixteen bits.  A larger number
is masked when it is packed, and the request goes out with another handle in it
(`forwarded_handle_truncated`).
-/
import Nife.Caretaker
import Nife.Lib.Transition

namespace Nife

open Dialogue Transition Option

/-- The transfer unit, `PAGE`. -/
def transferPage : UInt64 := 4096

/-- One round of `serve`. -/
def subtreeServe (t : HandleTable) (w0 w1 : UInt64) : Serving :=
  let len := min (Fs.reqLen w0) transferPage
  let code := operation w0
  match t.get (Fs.reqHandle w0) with
  | none => t.refuse (fun _ => none) ebadf
  | some serverHandle =>
    match Verb.of code with
    | none => t.refuse (fun _ => none) einval
    | some v =>
      if code = FsOp.close.code then
        t.closeHandle (fun _ => none) (Fs.reqHandle w0) serverHandle
      else if v.operand = .rename then
        match t.get (Fs.dstHandle w1) with
        | some dst =>
          t.forwardRename (fun _ => none) code serverHandle len dst
            (min (Fs.dstLen w1) transferPage)
        | none => t.refuse (fun _ => none) ebadf
      else t.forwardVerb (fun _ => none) code v serverHandle len w1

variable {dir w0 w1 : UInt64} {t : HandleTable} {opened : List UInt64} {answers : List Answer}
  {p : Played (List UInt64) Call Served}

theorem round_subtreeServe (h : Linked dir t opened) (hfit : mintFits w0 answers = true)
    (hp : play fileServer opened answers (subtreeServe t w0 w1) = some p) : Round dir t w0 p := by
  unfold subtreeServe at hp
  rcases hc : t.get (Fs.reqHandle w0) with - | serverHandle
  · rw [hc] at hp
    exact Round.refuse h (by decide) (fun _ => .inr hc) hp
  rw [hc] at hp
  dsimp only at hp
  rcases hv : Verb.of (operation w0) with - | v
  · rw [hv] at hp
    refine Round.refuse h (by decide) (fun hclose => ?_) hp
    rw [hclose] at hv
    cases hv
  rw [hv] at hp
  dsimp only at hp
  split at hp
  · next hclose => exact Round.closeHandle h hclose hc hp
  · next hclose =>
    obtain ⟨hne, hren⟩ := Verb.ne_of_operand hv hclose
    split at hp
    · next hop =>
      rcases hd : t.get (Fs.dstHandle w1) with - | dst
      · rw [hd] at hp
        exact Round.refuse h (by decide) (fun hcode => absurd hcode hclose) hp
      · rw [hd] at hp
        exact Round.forwardRename h hv hne (Verb.not_mints_of_rename hv hop) (h.mem hc)
          (h.mem hd) _ hp
    · next hop =>
      exact Round.forwardVerb h hv hne (hren hop) (h.mem hc) (le_of_mintFits hfit hv) hp

/-! ### Sessions -/

/-- A client's request and what the server answers while it is served. -/
structure Exchange where
  (w0 w1 : UInt64)
  answers : List Answer

namespace Session

variable {s s' : Session} {e : Exchange}

/-- The rounds that this request and these answers can make. -/
def serveSubtree (s : Session) (e : Exchange) : Option (Played (List UInt64) Call Served) :=
  play fileServer s.opened e.answers (subtreeServe s.table e.w0 e.w1)

def stepSubtree (s : Session) (e : Exchange) : Option Session :=
  (s.serveSubtree e).map (s.after e.w0)

theorem Inv.stepSubtree (h : s.Inv dir) (hfit : mintFits e.w0 e.answers = true) (hs : s.stepSubtree e = some s') :
    s'.Inv dir := by
  obtain ⟨p, hp, rfl⟩ := map_eq_some_iff.mp hs
  exact h.after (round_subtreeServe h.linked hfit hp)

/-- **The client is confined** in this state. -/
structure Confined (dir : UInt64) (s : Session) : Prop where
  /-- Every handle in every request that would be forwarded is one open on the caretaker's behalf
  when it is sent: the granted directory's, or one minted for this client and not closed since. -/
  forwards : ∀ e p, mintFits e.w0 e.answers = true → s.serveSubtree e = some p → ∀ q ∈ p.asked, q.2.Within q.1
  distinct : ∀ c c' h, s.table.get c = some h → s.table.get c' = some h → c = c'
  root : s.table.get Fs.root = some dir
  /-- A number the client does not hold is refused, with no request sent. -/
  refused : ∀ w0 w1, Fs.reqHandle w0 ∉ s.held →
    subtreeServe s.table w0 w1 = .done ⟨s.table, replyErr ebadf, 0, fun _ => none⟩
  refusedDst : ∀ w0 w1, operation w0 = FsOp.rename.code → Fs.dstHandle w1 ∉ s.held →
    subtreeServe s.table w0 w1 = .done ⟨s.table, replyErr ebadf, 0, fun _ => none⟩
  /-- The handles open on the caretaker's behalf are exactly those in its table. -/
  noLeak : ∀ h, h ∈ s.opened ↔ ∃ c, s.table.get c = some h
  held : ∀ c, c ∈ s.held ↔ ∃ h, s.table.get c = some h

theorem Inv.confined (h : s.Inv dir) : s.Confined dir where
  forwards e p hfit hp := (round_subtreeServe h.linked hfit hp).within
  distinct := h.linked.inj
  root := h.linked.root
  refused w0 w1 hw := by
    unfold subtreeServe
    rw [h.get_eq_none hw]
    rfl
  refusedDst w0 w1 hop hw := by
    unfold subtreeServe
    rw [h.get_eq_none hw, hop]
    -- whether or not the source is held, the answer is the same
    rcases s.table.get (Fs.reqHandle w0) with - | serverHandle
    · rfl
    · rfl
  noLeak := h.linked.opened_iff
  held c := by rw [h.held, isSome_iff_exists]

/-- **The subtree caretaker confines its client**, in every run whose handles fit the sixteen
bits that a request has for them. -/
theorem client_confined (hdir : dir ≤ Fs.maxHandle)
    (h : Reach stepSubtree (fun _ e => mintFits e.w0 e.answers = true) (start dir) s) : s.Confined dir :=
  (h.invariant (Inv dir) (inv_start hdir) fun _ _ _ hi hc hs => hi.stepSubtree hc hs).confined

/-- An `OPEN` of a three-byte name in the granted directory, answered with a handle; where the
table is full, the `CLOSE` that follows is answered too. -/
def openOf (handle : UInt64) (closed : List Answer) : Exchange :=
  ⟨Fs.req FsOp.open_.code Fs.root 3, 0, ⟨handle, 0⟩ :: closed⟩

/-- Sixteen opens behind the granted directory: the last finds no slot and is closed again. -/
theorem client_confined_overflow :
    ∃ s, Reach stepSubtree (fun _ e => mintFits e.w0 e.answers = true) (start 1) s ∧
      s.held.length = 16 ∧ s.opened.length = 16 ∧ s.Confined 1 := by
  have hrun : (Transition.runIf stepSubtree (fun _ e => mintFits e.w0 e.answers = true) (start 1)
      ((List.range 15).map (fun i => openOf (UInt64.ofNat (i + 2)) []) ++
        [openOf 40 [⟨0, 0⟩]])).any (fun s =>
      decide (s.held.length = 16) && decide (s.opened.length = 16)) = true := by decide +kernel
  obtain ⟨s, hs, hc⟩ := (any_eq_true _ _).mp hrun
  rw [Bool.and_eq_true, decide_eq_true_eq, decide_eq_true_eq] at hc
  have hreach := Reach.of_runIf _ hs
  exact ⟨s, hreach, hc.1, hc.2, client_confined (by decide) hreach⟩

/-- **A handle beyond sixteen bits is truncated.**  The server mints 0x10005; the read of it goes
out for handle 5, which is not open on the caretaker's behalf. -/
theorem forwarded_handle_truncated :
    ∃ s, Reach stepSubtree (fun _ _ => True) (start 1) s ∧ ∃ e p, s.serveSubtree e = some p ∧
      ∃ q ∈ p.asked, ¬ q.2.Within q.1 := by
  have hrun : (Transition.run stepSubtree (start 1) [openOf 0x10005 []]).any (fun s =>
    (s.serveSubtree ⟨Fs.req FsOp.read.code 1 8, 0, [⟨8, 0⟩]⟩).any fun p =>
      p.asked.any fun q => !(q.1.contains (Fs.reqHandle q.2.w0))) = true := by decide +kernel
  obtain ⟨s, hs, hc⟩ := (any_eq_true _ _).mp hrun
  obtain ⟨p, hp, hq⟩ := (any_eq_true _ _).mp hc
  obtain ⟨q, hmem, hout⟩ := List.any_eq_true.mp hq
  refine ⟨s, Reach.of_run _ hs, _, p, hp, q, hmem, fun hw => ?_⟩
  rw [List.contains_iff_mem.mpr hw.1] at hout
  cases hout

end Session

end Nife
