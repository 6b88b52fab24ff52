/-
The file server keeps the contract that the caretakers' confinement rests on (`fileServer`).  A
handle that it opened on a caretaker's behalf stays open until the caretaker closes it, as long as
no other client closes it, so no minting request is answered with it.
-/
import Nife.Caretaker
import Nife.Grants

namespace Nife

open Fallible List Except FileRequest ServerTable

/-- The request that a call is, under the caretaker's badge. -/
def Call.request (c : Call) (badge : UInt64) (window : Nat → UInt8) : FileRequest :=
  ⟨c.w0, c.w1, badge, window⟩

namespace Server

variable {B : Type}

/-- A reply in words, as far as a caretaker reads it: a handle as it is, an error below zero. -/
def FileReply.Sent (reply : FileReply) (a : Answer) : Prop :=
  match reply.answer with
  | .ok (.handle h) => a.r0.toNat = h
  | .ok _ => True
  | .error _ => isErr a.r0 = true

/-- What reaches the server: a call of the caretaker's and the answer to it, or a request of
another client's. -/
inductive Traffic
  | call (c : Call) (window : Nat → UInt8) (a : Answer)
  | other (r : FileRequest)

/-- The handles open on the caretaker's behalf are open. -/
def Backed (s : Server B) (opened : List UInt64) : Prop := ∀ h ∈ opened, s.entryAt h.toNat ≠ none

variable {s : Server B} {r : FileRequest} {op : ServerOp} {v : Verb} {h k : Nat}

/-! ### What a verb asks for -/

theorem requested_verb (hv : Verb.of r.code = some v) (hr : s.requested r = .ok op) :
    ∃ h, s.admission r = .ok h ∧ s.verbRequest r h v.operation = .ok op := by
  have hne : r.code ≠ bindCode ∧ r.code ≠ unbindCode := by
    constructor
    all_goals
      intro heq
      rw [heq] at hv
      cases hv
  unfold requested at hr
  rcases hadm : s.admission r with e | h
  · rw [hadm] at hr
    cases hr
  rw [hadm] at hr
  change (if r.code = bindCode then _ else _) = _ at hr
  rw [if_neg hne.1, if_neg hne.2, hv] at hr
  exact ⟨h, rfl, hr⟩

theorem admitted_raw (hroot : ¬(r.raw = 0 ∧ s.isScoped r.badge.toNat = true))
    (hadm : s.admitted r.badge.toNat r.raw = .ok h) : h = r.raw := by
  have hcast : (if r.raw < s.handles.length then r.raw else r.raw % 4294967296) = r.raw := by
    have hraw := Fs.toNat_reqHandle r.w0
    unfold raw
    split_ifs
    · rfl
    · omega
  unfold admitted at hadm
  unfold isScoped at hroot
  rcases hb : s.bindings.of r.badge.toNat with - | root | -
  all_goals
    rw [hb] at hadm hroot
    simp only [admitHandle] at hadm
  · cases hadm
    exact hcast
  · rw [if_neg fun h0 => hroot ⟨h0, rfl⟩] at hadm
    split_ifs at hadm
    cases hadm
    exact hcast
  · cases hadm

theorem verbRequest_close {op : FsOp} (hr : s.verbRequest r h op = .ok (.close k)) :
    op = .close ∧ k = h := by
  cases op
  case close =>
    cases hr
    exact ⟨rfl, rfl⟩
  case open_ | create | opendir | mkdir | unlink | rmdir | getmtime | setmtime | setmtimeAt =>
    obtain ⟨name, -, hop⟩ := ok_of_map hr
    cases hop
  case read | write | fstat | truncate | readdir | listxattr | removexattr | statfs | sync =>
    cases hr
  case getxattr | setxattr =>
    simp only [verbRequest] at hr
    split_ifs at hr
    all_goals cases hr
  case rename =>
    obtain ⟨src, dstDir, dst, raw, -, hop⟩ := renameRequest_eq hr
    cases hop

/-- A request that closes a handle names it. -/
theorem requested_close (hv : Verb.of r.code = some v) (hr : s.requested r = .ok (.close h)) :
    v.operation = .close ∧ h = r.raw := by
  obtain ⟨h', hadm, hreq⟩ := requested_verb hv hr
  obtain ⟨hclose, rfl⟩ := verbRequest_close hreq
  refine ⟨hclose, ?_⟩
  have hcode : r.code = FsOp.close.code := by rw [← Verb.code_of hv, hclose]
  unfold admission at hadm
  rw [hcode, if_neg (by decide)] at hadm
  split_ifs at hadm with hroot
  exact admitted_raw (fun h0 => hroot ⟨rfl, h0⟩) hadm

/-! ### What a verb does to the handles -/

variable [ByteStore B]

/-- A verb closes no handle but the one that a `CLOSE` names. -/
theorem serve_keeps (ht : Rooted s.table) (hv : Verb.of r.code = some v)
    (hk : v.operation = .close → k ≠ r.raw) (hopen : s.entryAt k ≠ none) :
    (s.serve r).2.entryAt k ≠ none := by
  rcases hr : s.requested r with e | op
  · rw [serve_error hr]
    exact hopen
  by_cases hh : ∃ h, (run (perform op) s).1 = .ok (.handle h)
  · obtain ⟨h, hh⟩ := hh
    obtain ⟨-, -, e, hentry⟩ := (ht.serve r).2 h (serve_handle hr hh).1
    rw [hentry]
    split_ifs
    · exact Option.some_ne_none e
    · exact hopen
  rw [serve_other hr (not_exists.mp hh)]
  show (run (perform op) s).2.table.entryAt k ≠ none
  have hstep := perform_table op s
  generalize (run (perform op) s).1 = a at hstep hh
  generalize (run (perform op) s).2.table = t at hstep
  cases hstep with
  | same => exact hopen
  | mint e => exact absurd ⟨_, rfl⟩ hh
  | close h =>
    obtain ⟨hclose, rfl⟩ := requested_close hv hr
    rw [entryAt_close, if_neg fun h' => hk hclose h'.1]
    exact hopen
  | claim | bind | unbind =>
    obtain ⟨h, -, hreq⟩ := requested_verb hv hr
    cases (verbRequest_admitted hreq).1

theorem perform_mints (hv : Verb.of r.code = some v) (hm : v.mintsHandle = true)
    (hreq : s.verbRequest r h v.operation = .ok op) :
    ∃ m : Serve B Nat, perform op = ServerAnswer.handle <$> m := by
  have hrows : ∀ v ∈ Verb.table, v.mintsHandle = true → v.operation = .open_ ∨
      v.operation = .create ∨ v.operation = .opendir ∨ v.operation = .mkdir := by decide
  unfold Verb.of at hv
  split_ifs at hv
  rcases hrows v (mem_of_getElem? hv) hm with hop | hop | hop | hop
  all_goals
    rw [hop] at hreq
    obtain ⟨name, -, rfl⟩ := ok_of_map hreq
    exact ⟨_, rfl⟩

theorem minting_answer (hv : Verb.of r.code = some v) (hm : v.mintsHandle = true) :
    (∃ e, (s.serve r).1.answer = .error e) ∨ ∃ h, (s.serve r).1.answer = .ok (.handle h) := by
  rcases hr : s.requested r with e | op
  · rw [serve_error hr]
    exact .inl ⟨e, rfl⟩
  obtain ⟨h, -, hreq⟩ := requested_verb hv hr
  obtain ⟨m, hop⟩ := perform_mints hv hm hreq
  have ha := congrArg Prod.fst (run_map ServerAnswer.handle m s)
  rw [← hop] at ha
  rcases hrun : (run m s).1 with e | n
  · rw [hrun] at ha
    rw [serve_other hr (by simp [ha, Except.map])]
    exact .inl ⟨e, ha⟩
  · rw [hrun] at ha
    exact .inr ⟨n, (serve_handle hr ha).1⟩

theorem minted_of_sent {a : Answer} (hv : Verb.of r.code = some v) (hm : v.mintsHandle = true)
    (ha : (s.serve r).1.Sent a) (herr : isErr a.r0 = false) :
    (s.serve r).1.answer = .ok (.handle a.r0.toNat) := by
  unfold FileReply.Sent at ha
  rcases minting_answer (s := s) hv hm with ⟨e, hans⟩ | ⟨h, hans⟩
  · rw [hans] at ha
    exact absurd (herr.symm.trans ha) (by decide)
  · rw [hans] at ha
    rw [hans, ← ha]

/-- **One call**: the contract allows the server's answer, and the handles that it then counts as
open are. -/
theorem Backed.call {opened : List UInt64} {c : Call} {badge : UInt64} {window : Nat → UInt8}
    {a : Answer} (hb : s.Backed opened) (ht : Rooted s.table)
    (hv : Verb.of (operation c.w0) = some v) (ha : (s.serve (c.request badge window)).1.Sent a) :
    ∃ opened', fileServer opened c a = some opened' ∧
      (s.serve (c.request badge window)).2.Backed opened' := by
  unfold fileServer
  rw [hv]
  dsimp only
  generalize hr : c.request badge window = r at ha ⊢
  have hraw : r.raw = (Fs.reqHandle c.w0).toNat := by rw [← hr]; rfl
  have hv : Verb.of r.code = some v := by rw [← hr]; exact hv
  by_cases hclose : v.operation = .close
  · refine ⟨_, if_pos hclose, fun h hh => ?_⟩
    obtain ⟨hmem, hne⟩ := mem_filter.mp hh
    refine serve_keeps ht hv (fun _ heq => ?_) (hb h hmem)
    exact of_decide_eq_true hne (UInt64.toNat_inj.mp (heq.trans hraw))
  rw [if_neg hclose]
  have hkept : (s.serve r).2.Backed opened := fun h hh =>
    serve_keeps ht hv (fun h' => absurd h' hclose) (hb h hh)
  by_cases hmint : v.mintsHandle = true ∧ isErr a.r0 = false
  · -- what is no error is a handle that was free, so none of those that are open
    have hans := minted_of_sent hv hmint.1 ha hmint.2
    obtain ⟨-, hfree, e, hentry⟩ := (ht.serve r).2 _ hans
    rw [if_pos hmint, if_neg fun hmem => hb _ hmem hfree]
    refine ⟨_, rfl, fun h hh => ?_⟩
    rcases mem_cons.mp hh with rfl | hh
    · rw [hentry, if_pos rfl]
      exact Option.some_ne_none e
    · exact hkept h hh
  · exact ⟨_, if_neg hmint, hkept⟩

/-! ### Whole runs -/

/-- The server's answers are ones that `fileServer` allows, for as long as the caretaker's calls
are verbs of the table and no other client closes one of its handles. -/
def Meets (badge : UInt64) (s : Server B) (opened : List UInt64) : List Traffic → Prop
  | [] => True
  | .call c window a :: rest =>
    Verb.of (operation c.w0) ≠ none → (s.serve (c.request badge window)).1.Sent a →
      ∃ opened', fileServer opened c a = some opened' ∧
        Meets badge (s.serve (c.request badge window)).2 opened' rest
  | .other r :: rest =>
    (s.serve r).2.Backed opened → Meets badge (s.serve r).2 opened rest

theorem Backed.meets {opened : List UInt64} (hb : s.Backed opened) (ht : Rooted s.table)
    (badge : UInt64) (ts : List Traffic) : Meets badge s opened ts := by
  induction ts generalizing s opened with
  | nil => trivial
  | cons t ts ih =>
    cases t with
    | call c window a =>
      intro hverb ha
      obtain ⟨v, hv⟩ := Option.ne_none_iff_exists'.mp hverb
      obtain ⟨opened', hallowed, hb'⟩ := hb.call ht hv ha
      exact ⟨opened', hallowed, ih hb' (ht.serve _).1⟩
    | other r => exact fun hb' => ih hb' (ht.serve r).1

/-- **The server keeps the caretakers' contract**, on any image and beside any other clients. -/
theorem server_meets_contract (img : Image B) (badge : UInt64) (ts : List Traffic) :
    Meets badge (opened img) [] ts :=
  Backed.meets (forall_mem_nil _) ⟨rfl, rfl, rfl⟩ badge ts

end Server

end Nife
