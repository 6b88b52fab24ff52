/-
What the subtree and the name-set caretaker have in common: a table of sixteen slots that turns
the client's handle numbers into the file server's, and the three ways a request is passed on
(a `CLOSE`, a `RENAME` with its second handle, and everything else, which may mint).

A caretaker serves one request as a dialogue with the file server.  The server is any program
that answers; all that is asked of it is that a handle it mints is not one that is open on the
caretaker's behalf, and that `CLOSE` frees (`fileServer`).  `Linked` ties the table to the set of
handles open there, and every way of passing a request on keeps it, as long as the numbers the
server mints fit the sixteen bits a request word has for them.
-/
import Nife.FilesystemProtocol
import Nife.Lib.Dialogue

namespace Nife

open Dialogue List Option Fs FsOp

/-! ### The handle table -/

/-- `Table([Option<u64>; SLOTS])`: the server's handle for each of the client's sixteen. -/
structure HandleTable where
  slots : List (Option UInt64)
  len : slots.length = 16

namespace HandleTable

variable {t t' : HandleTable} {c c' server : UInt64}

/-- Slot 0 is the granted directory. -/
def start (dir : UInt64) : HandleTable := ⟨some dir :: List.replicate 15 none, rfl⟩

def get (t : HandleTable) (client : UInt64) : Option UInt64 := (t.slots[client.toNat]?).join

def set (t : HandleTable) (client : UInt64) (entry : Option UInt64) : HandleTable :=
  ⟨t.slots.set client.toNat entry, by rw [List.length_set, t.len]⟩

/-- The first free slot but slot 0, and the client's number for it. -/
def install (t : HandleTable) (server : UInt64) : Option (HandleTable × UInt64) :=
  match (t.slots.drop 1).findIdx? Option.isNone with
  | none => none
  | some i => some (t.set (UInt64.ofNat (i + 1)) (some server), UInt64.ofNat (i + 1))

theorem get_start (dir c : UInt64) : (start dir).get c = if c = 0 then some dir else none := by
  unfold get start
  by_cases hc : c = 0
  · subst hc
    rfl
  · have hpos : c.toNat ≠ 0 := fun h => hc (UInt64.toNat_inj.mp h)
    obtain ⟨k, hk⟩ := Nat.exists_eq_succ_of_ne_zero hpos
    rw [if_neg hc, hk]
    show ((List.replicate 15 (none : Option UInt64))[k]?).join = none
    rw [getElem?_replicate]
    split <;> rfl

theorem lt_of_get (h : t.get c = some server) : c.toNat < 16 := by
  rw [← t.len]
  by_contra hge
  rw [get, getElem?_eq_none (by omega)] at h
  cases h

theorem get_set (hc : c.toNat < 16) (entry : Option UInt64) (c' : UInt64) :
    (t.set c entry).get c' = if c' = c then entry else t.get c' := by
  show ((t.slots.set c.toNat entry)[c'.toNat]?).join = _
  split_ifs with h
  · rw [h, getElem?_set_self (by rw [t.len]; exact hc)]
    rfl
  · rw [getElem?_set_ne fun hn => h (UInt64.toNat_inj.mp hn.symm)]
    rfl

theorem install_eq_some (h : t.install server = some (t', c)) :
    c ≠ 0 ∧ c.toNat < 16 ∧ t.get c = none ∧ t' = t.set c (some server) := by
  unfold install at h
  split at h
  · cases h
  · next i hi =>
    cases h
    obtain ⟨hlt, hnone, -⟩ := findIdx?_eq_some_iff_getElem.mp hi
    have hlen : i + 1 < 16 := by
      rw [length_drop, t.len] at hlt
      omega
    have hnat : (UInt64.ofNat (i + 1)).toNat = i + 1 := by
      rw [UInt64.toNat_ofNat']
      omega
    refine ⟨fun h0 => ?_, by omega, ?_, rfl⟩
    · have := congrArg UInt64.toNat h0
      rw [hnat] at this
      exact absurd this (Nat.succ_ne_zero i)
    · have hdrop : t.slots[i + 1]? = (t.slots.drop 1)[i]? := by
        rw [getElem?_drop, Nat.add_comm]
      rw [get, hnat, hdrop, getElem?_eq_getElem hlt]
      exact isNone_iff_eq_none.mp hnone

theorem not_isErr (hc : c.toNat < 16) : isErr c = false := by
  refine decide_eq_false fun hle => ?_
  have hle : 9223372036854775808 ≤ c.toNat := hle
  omega

end HandleTable

/-! ### Requests passed on -/

/-- A request to the file server: its two words, and the bytes of the shared page that the
caretaker has written while serving the client's request. -/
structure Call where
  (w0 w1 : UInt64)
  staged : Nat → Option UInt8

/-- The two words of a reply. -/
structure Answer where
  (r0 r1 : UInt64)

/-- What one round of the serve loop leaves: the table, the reply's two words, and the bytes of
the shared page that the caretaker has written. -/
structure Served where
  table : HandleTable
  (r size : UInt64)
  staged : Nat → Option UInt8

/-- A round: calls of the server until the client is answered. -/
abbrev Serving := Dialogue Call Answer Served

namespace HandleTable

section

variable (t : HandleTable)

def refuse (staged : Nat → Option UInt8) (errno : UInt64) : Serving :=
  .done ⟨t, replyErr errno, 0, staged⟩

/-- `CLOSE`: the granted directory is not the client's to close. -/
def closeHandle (staged : Nat → Option UInt8) (client serverHandle : UInt64) : Serving :=
  if client = Fs.root then t.refuse staged einval
  else .ask ⟨Fs.req FsOp.close.code serverHandle 0, 0, staged⟩ fun a =>
    .done ⟨t.set client none, a.r0, 0, staged⟩

/-- `RENAME`, with both handles translated. -/
def forwardRename (staged : Nat → Option UInt8)
    (code serverHandle len dst dstLen : UInt64) : Serving :=
  .ask ⟨Fs.req code serverHandle len, Fs.renameDst dst dstLen, staged⟩ fun a =>
    .done ⟨t, a.r0, 0, staged⟩

/-- Every other verb: one forward, and a number of the client's own for a handle it minted. -/
def forwardVerb (staged : Nat → Option UInt8) (code : UInt64) (v : Verb)
    (serverHandle len w1 : UInt64) : Serving :=
  let n := if v.carriesLen then len else 0
  let second := if v.carriesW1 then w1 else 0
  .ask ⟨Fs.req code serverHandle n, second, staged⟩ fun a =>
    let size := if code = FsOp.open_.code then a.r1 else 0
    if v.mintsHandle = false ∨ isErr a.r0 = true then .done ⟨t, a.r0, size, staged⟩
    else
      match t.install a.r0 with
      | some (t', client) => .done ⟨t', client, size, staged⟩
      | none =>
        -- the handle is given straight back
        .ask ⟨Fs.req FsOp.close.code a.r0 0, 0, staged⟩ fun _ =>
          .done ⟨t, replyErr emfile, size, staged⟩

end

variable {S : Type*} {step : S → Call → Answer → Option S} {s : S} {answers : List Answer}
  {p : Played S Call Served} {staged : Nat → Option UInt8} {t : HandleTable}

/-- What a forward may ask: the request itself, and the `CLOSE` of a handle that found no slot. -/
theorem asked_forwardVerb {code serverHandle len w1 : UInt64} {v : Verb}
    (hp : play step s answers (t.forwardVerb staged code v serverHandle len w1) = some p) :
    ∀ q ∈ p.asked, q.2 = ⟨req code serverHandle (if v.carriesLen then len else 0),
        if v.carriesW1 then w1 else 0, staged⟩ ∨
      ∃ h, q.2 = ⟨req close.code h 0, 0, staged⟩ := by
  obtain ⟨a, rest, s', p', -, -, hp', rfl⟩ := play_ask hp
  dsimp only at hp'
  split at hp'
  · obtain rfl := play_done hp'
    rintro q (_ | ⟨_, ⟨⟩⟩)
    exact .inl rfl
  · rcases hi : t.install a.r0 with - | ⟨t', client⟩
    · rw [hi] at hp'
      obtain ⟨b, rest', s'', p'', -, -, hp'', rfl⟩ := play_ask hp'
      obtain rfl := play_done hp''
      rintro q (_ | ⟨_, _ | ⟨_, ⟨⟩⟩⟩)
      · exact .inl rfl
      · exact .inr ⟨a.r0, rfl⟩
    · rw [hi] at hp'
      obtain rfl := play_done hp'
      rintro q (_ | ⟨_, ⟨⟩⟩)
      exact .inl rfl

theorem asked_closeHandle {client serverHandle : UInt64}
    (hp : play step s answers (t.closeHandle staged client serverHandle) = some p) :
    ∀ q ∈ p.asked, q.2 = ⟨req close.code serverHandle 0, 0, staged⟩ := by
  unfold closeHandle at hp
  split at hp
  · obtain rfl := play_done hp
    nofun
  · obtain ⟨a, rest, s', p', -, -, hp', rfl⟩ := play_ask hp
    obtain rfl := play_done hp'
    rintro q (_ | ⟨_, ⟨⟩⟩)
    rfl

end HandleTable

/-! ### The file server -/

/-- The handles open on the caretaker's behalf after the server has answered `a` to `c`.  A
minting reply that names one of them is none that the server gives. -/
def fileServer (opened : List UInt64) (c : Call) (a : Answer) : Option (List UInt64) :=
  match Verb.of (operation c.w0) with
  | none => some opened
  | some v =>
    if v.operation = .close then some (opened.filter (· ≠ Fs.reqHandle c.w0))
    else if v.mintsHandle = true ∧ isErr a.r0 = false then
      if a.r0 ∈ opened then none else some (a.r0 :: opened)
    else some opened

/-- Every handle that a call carries is open on the caretaker's behalf. -/
def Call.Within (opened : List UInt64) (c : Call) : Prop :=
  Fs.reqHandle c.w0 ∈ opened ∧
    (operation c.w0 = FsOp.rename.code → Fs.dstHandle c.w1 ∈ opened)

/-- The table and the handles open on the caretaker's behalf. -/
structure Linked (dir : UInt64) (t : HandleTable) (opened : List UInt64) : Prop where
  root : t.get 0 = some dir
  opened_iff : ∀ h, h ∈ opened ↔ ∃ c, t.get c = some h
  inj : ∀ c c' h, t.get c = some h → t.get c' = some h → c = c'
  fits : ∀ h ∈ opened, h ≤ Fs.maxHandle

namespace Linked

variable {dir client serverHandle code : UInt64} {t : HandleTable} {opened : List UInt64}
  {staged : Nat → Option UInt8} {answers : List Answer} {v : Verb}
  {p : Played (List UInt64) Call Served}

theorem mem (h : Linked dir t opened) (hc : t.get client = some serverHandle) :
    serverHandle ∈ opened := (h.opened_iff serverHandle).mpr ⟨client, hc⟩

theorem start (hdir : dir ≤ maxHandle) : Linked dir (.start dir) [dir] where
  root := by rw [HandleTable.get_start, if_pos rfl]
  opened_iff h := by
    simp only [mem_singleton, HandleTable.get_start]
    constructor
    · rintro rfl
      exact ⟨0, if_pos rfl⟩
    · rintro ⟨c, hc⟩
      split_ifs at hc
      exact (Option.some.inj hc).symm
  inj c c' h hc hc' := by
    rw [HandleTable.get_start] at hc hc'
    split_ifs at hc with h0
    split_ifs at hc' with h0'
    rw [h0, h0']
  fits h hh := by
    obtain rfl := mem_singleton.mp hh
    exact hdir

theorem close (h : Linked dir t opened) (hne : client ≠ 0) (hc : t.get client = some serverHandle) :
    Linked dir (t.set client none) (opened.filter (· ≠ serverHandle)) := by
  have hlt := HandleTable.lt_of_get hc
  have hget : ∀ c h', (t.set client none).get c = some h' ↔ c ≠ client ∧ t.get c = some h' := by
    intro c h'
    rw [HandleTable.get_set hlt]
    split
    · next he => exact ⟨nofun, fun hx => absurd he hx.1⟩
    · next hn => exact ⟨fun hx => ⟨hn, hx⟩, fun hx => hx.2⟩
  refine ⟨(hget 0 dir).mpr ⟨Ne.symm hne, h.root⟩, fun h' => ?_, fun c c' h' hx hx' => ?_,
    fun h' hh => h.fits h' (mem_filter.mp hh).1⟩
  · rw [mem_filter, h.opened_iff]
    constructor
    · rintro ⟨⟨c, hc'⟩, hdiff⟩
      refine ⟨c, (hget c h').mpr ⟨fun hcc => ?_, hc'⟩⟩
      rw [hcc, hc] at hc'
      exact of_decide_eq_true hdiff (Option.some.inj hc').symm
    · rintro ⟨c, hc'⟩
      obtain ⟨hcc, hold⟩ := (hget c h').mp hc'
      refine ⟨⟨c, hold⟩, decide_eq_true fun heq => hcc ?_⟩
      exact h.inj c client h' hold (heq ▸ hc)
  · exact h.inj c c' h' ((hget c h').mp hx).2 ((hget c' h').mp hx').2

theorem mint (h : Linked dir t opened) {t' : HandleTable} (hnew : serverHandle ∉ opened)
    (hfit : serverHandle ≤ maxHandle) (hi : t.install serverHandle = some (t', client)) :
    Linked dir t' (serverHandle :: opened) := by
  obtain ⟨hne, hlt, hfree, rfl⟩ := HandleTable.install_eq_some hi
  have hget : ∀ c h', (t.set client (some serverHandle)).get c = some h' ↔
      c = client ∧ h' = serverHandle ∨ c ≠ client ∧ t.get c = some h' := by
    intro c h'
    rw [HandleTable.get_set hlt]
    split
    · next he =>
      rw [Option.some.injEq]
      exact ⟨fun hx => .inl ⟨he, hx.symm⟩, fun hx => hx.elim (fun y => y.2.symm)
        fun y => absurd he y.1⟩
    · next hn =>
      exact ⟨fun hx => .inr ⟨hn, hx⟩, fun hx => hx.elim (fun y => absurd y.1 hn) fun y => y.2⟩
  have hold : ∀ c, t.get c ≠ some serverHandle := fun c hc =>
    hnew ((h.opened_iff serverHandle).mpr ⟨c, hc⟩)
  refine ⟨(hget 0 dir).mpr (.inr ⟨Ne.symm hne, h.root⟩), fun h' => ?_,
    fun c c' h' hx hx' => ?_, fun h' hh => ?_⟩
  · rw [mem_cons, h.opened_iff]
    constructor
    · rintro (rfl | ⟨c, hc⟩)
      · exact ⟨client, (hget client h').mpr (.inl ⟨rfl, rfl⟩)⟩
      · refine ⟨c, (hget c h').mpr (.inr ⟨fun hcc => ?_, hc⟩)⟩
        rw [hcc, hfree] at hc
        cases hc
    · rintro ⟨c, hc⟩
      rcases (hget c h').mp hc with ⟨-, rfl⟩ | ⟨-, hc⟩
      · exact .inl rfl
      · exact .inr ⟨c, hc⟩
  · rcases (hget c h').mp hx with ⟨rfl, rfl⟩ | ⟨-, hc⟩
    · rcases (hget c' h').mp hx' with ⟨rfl, -⟩ | ⟨-, hc'⟩
      · rfl
      · exact absurd hc' (hold c')
    · rcases (hget c' h').mp hx' with ⟨-, rfl⟩ | ⟨-, hc'⟩
      · exact absurd hc (hold c)
      · exact h.inj c c' h' hc hc'
  · rcases mem_cons.mp hh with rfl | hh
    · exact hfit
    · exact h.fits h' hh

theorem fileServer_close (h : serverHandle ≤ maxHandle) (opened : List UInt64) (a : Answer) :
    fileServer opened ⟨req FsOp.close.code serverHandle 0, 0, staged⟩ a
      = some (opened.filter (· ≠ serverHandle)) := by
  have hop : operation (req FsOp.close.code serverHandle 0) = FsOp.close.code :=
    operation_req _ _ (by decide)
  unfold fileServer
  rw [hop]
  show (if _ then some (opened.filter (· ≠ reqHandle _)) else _) = _
  rw [if_pos rfl, reqHandle_req _ (by decide) h]

theorem fileServer_forward (hv : Verb.of code = some v) (hcode : code.toNat < 256)
    (hclose : v.operation ≠ .close) (handle n w1 : UInt64) (a : Answer) :
    fileServer opened ⟨req code handle n, w1, staged⟩ a
      = if v.mintsHandle = true ∧ isErr a.r0 = false then
          if a.r0 ∈ opened then none else some (a.r0 :: opened)
        else some opened := by
  unfold fileServer
  rw [operation_req _ _ hcode, hv]
  dsimp only
  rw [if_neg hclose]

end Linked

/-! ### One round -/

/-- The numbers the client holds after its request `w0` was answered with `r`: what it was
returned and has not closed since. -/
def clientHolds (held : List UInt64) (w0 r : UInt64) : List UInt64 :=
  match Verb.of (operation w0) with
  | none => held
  | some v =>
    if v.operation = .close then
      if Fs.reqHandle w0 = Fs.root then held else held.filter (· ≠ Fs.reqHandle w0)
    else if v.mintsHandle = true ∧ isErr r = false then r :: held
    else held

/-- What one round of a caretaker comes to: table and server stay linked, every handle sent was
open on the caretaker's behalf, and the live slots are the numbers the client holds. -/
structure Round (dir : UInt64) (t : HandleTable) (w0 : UInt64)
    (p : Played (List UInt64) Call Served) : Prop where
  linked : Linked dir p.result.table p.state
  within : ∀ q ∈ p.asked, q.2.Within q.1
  held : ∀ held, (∀ c, c ∈ held ↔ (t.get c).isSome = true) →
    ∀ c, c ∈ clientHolds held w0 p.result.r ↔ (p.result.table.get c).isSome = true

namespace Round

variable {dir w0 w1 serverHandle len : UInt64} {t : HandleTable} {opened : List UInt64}
  {staged : Nat → Option UInt8} {answers : List Answer} {v : Verb}
  {p : Played (List UInt64) Call Served}

/-- A refusal forwards nothing.  A refused `CLOSE` names the root or a number not held. -/
theorem refuse (h : Linked dir t opened) {errno : UInt64} (herr : isErr (replyErr errno) = true)
    (hclose : operation w0 = close.code →
      reqHandle w0 = root ∨ t.get (reqHandle w0) = none)
    (hp : play fileServer opened answers (t.refuse staged errno) = some p) : Round dir t w0 p := by
  obtain rfl := play_done hp
  refine ⟨h, nofun, fun held hheld c => ?_⟩
  rw [← hheld c]
  unfold clientHolds
  split
  · rfl
  · next v hv =>
    split
    · next hop =>
      have hcode : operation w0 = close.code := by
        rw [← Verb.code_of hv, hop]
      split
      · rfl
      · next hroot =>
        have hnone := (hclose hcode).resolve_left hroot
        rw [mem_filter, decide_eq_true_eq]
        refine ⟨fun hc => hc.1, fun hc => ⟨hc, ?_⟩⟩
        rintro rfl
        rw [hheld, hnone] at hc
        cases hc
    · rw [if_neg (by rw [herr]; simp)]

theorem closeHandle (h : Linked dir t opened) (hop : operation w0 = close.code)
    (hc : t.get (reqHandle w0) = some serverHandle)
    (hp : play fileServer opened answers (t.closeHandle staged (reqHandle w0) serverHandle)
      = some p) : Round dir t w0 p := by
  unfold HandleTable.closeHandle at hp
  split at hp
  · next hroot => exact refuse h (by decide) (fun _ => .inl hroot) hp
  · next hroot =>
    obtain ⟨a, rest, opened', p', -, hs, hp', rfl⟩ := play_ask hp
    obtain rfl := play_done hp'
    have hmem := h.mem hc
    rw [Linked.fileServer_close (h.fits _ hmem)] at hs
    cases hs
    have hsent : operation (req close.code serverHandle 0) = close.code :=
      operation_req _ _ (by decide)
    refine ⟨h.close hroot hc, ?_, fun held hheld c => ?_⟩
    · rintro q (_ | ⟨_, ⟨⟩⟩)
      refine ⟨?_, fun hren => absurd (hsent.symm.trans hren) (by decide)⟩
      rw [reqHandle_req _ (by decide) (h.fits _ hmem)]
      exact hmem
    · show c ∈ clientHolds held w0 a.r0 ↔ ((t.set (reqHandle w0) none).get c).isSome = true
      rw [HandleTable.get_set (HandleTable.lt_of_get hc)]
      unfold clientHolds
      rw [hop]
      show c ∈ (if close = .close then
        if reqHandle w0 = root then held else held.filter (· ≠ reqHandle w0) else _) ↔ _
      rw [if_pos rfl, if_neg hroot, mem_filter, decide_eq_true_eq, hheld]
      split
      · next he => exact ⟨fun hx => absurd he hx.2, nofun⟩
      · next hn => exact ⟨fun hx => hx.1, fun hx => ⟨hx, hn⟩⟩

theorem clientHolds_same {r : UInt64} (hv : Verb.of (operation w0) = some v)
    (hclose : v.operation ≠ .close) (hr : v.mintsHandle = false ∨ isErr r = true)
    (held : List UInt64) : clientHolds held w0 r = held := by
  unfold clientHolds
  rw [hv]
  dsimp only
  rw [if_neg hclose, if_neg]
  rintro ⟨hm, he⟩
  rcases hr with hr | hr
  · rw [hr] at hm
    cases hm
  · rw [hr] at he
    cases he

theorem forwardRename (h : Linked dir t opened) (hv : Verb.of (operation w0) = some v)
    (hclose : v.operation ≠ .close) (hm : v.mintsHandle = false)
    (hc : serverHandle ∈ opened) {dst : UInt64} (hd : dst ∈ opened) (dstLen : UInt64)
    (hp : play fileServer opened answers
      (t.forwardRename staged (operation w0) serverHandle len dst dstLen) = some p) :
    Round dir t w0 p := by
  obtain ⟨a, rest, opened', p', -, hs, hp', rfl⟩ := play_ask hp
  obtain rfl := play_done hp'
  rw [Linked.fileServer_forward hv (operation_lt w0) hclose, if_neg (by rw [hm]; simp)] at hs
  cases hs
  refine ⟨h, ?_, fun held hheld c => ?_⟩
  · rintro q (_ | ⟨_, ⟨⟩⟩)
    refine ⟨?_, fun _ => ?_⟩
    · rw [reqHandle_req _ (operation_lt w0) (h.fits _ hc)]
      exact hc
    · rw [dstHandle_renameDst _ (h.fits _ hd)]
      exact hd
  · rw [clientHolds_same hv hclose (.inl hm)]
    exact hheld c

/-- **Every other verb.**  The reply's handle, if there is one, must fit its field. -/
theorem forwardVerb (h : Linked dir t opened) (hv : Verb.of (operation w0) = some v)
    (hclose : v.operation ≠ .close) (hren : operation w0 ≠ rename.code)
    (hc : serverHandle ∈ opened)
    (hfit : v.mintsHandle = true → ∀ a, answers.head? = some a → isErr a.r0 = false →
      a.r0 ≤ maxHandle)
    (hp : play fileServer opened answers
      (t.forwardVerb staged (operation w0) v serverHandle len w1) = some p) :
    Round dir t w0 p := by
  obtain ⟨a, rest, opened', p', rfl, hs, hp', rfl⟩ := play_ask hp
  rw [Linked.fileServer_forward hv (operation_lt w0) hclose] at hs
  -- the first question carries the translated handle
  have hwithin : ∀ n second, Call.Within opened
      ⟨req (operation w0) serverHandle n, second, staged⟩ := by
    intro n second
    refine ⟨?_, fun hop => absurd ?_ hren⟩
    · rw [reqHandle_req _ (operation_lt w0) (h.fits _ hc)]
      exact hc
    · rwa [operation_req _ _ (operation_lt w0)] at hop
  dsimp only at hp'
  split at hp'
  · next hplain =>
    obtain rfl := play_done hp'
    rw [if_neg (by rintro ⟨hm, he⟩; rw [hm, he] at hplain; simp at hplain)] at hs
    cases hs
    refine ⟨h, ?_, fun held hheld c => ?_⟩
    · rintro q (_ | ⟨_, ⟨⟩⟩)
      exact hwithin ..
    · rw [clientHolds_same hv hclose hplain]
      exact hheld c
  · next hmint =>
    rw [not_or, Bool.not_eq_false, Bool.not_eq_true] at hmint
    rw [if_pos hmint] at hs
    split_ifs at hs with hnew
    cases hs
    have hle := hfit hmint.1 a rfl hmint.2
    rcases hi : t.install a.r0 with - | ⟨t', client⟩
    · -- no slot: the handle is closed again, and the server is as it was
      rw [hi] at hp'
      obtain ⟨b, rest', opened'', p'', -, hs', hp'', rfl⟩ := play_ask hp'
      obtain rfl := play_done hp''
      rw [Linked.fileServer_close hle] at hs'
      cases hs'
      have hback : (a.r0 :: opened).filter (· ≠ a.r0) = opened := by
        rw [filter_cons_of_neg (by simp), filter_eq_self]
        intro x hx
        exact decide_eq_true fun he => hnew (he ▸ hx)
      refine ⟨?_, ?_, fun held hheld c => ?_⟩
      · rw [hback]
        exact h
      · rintro q (_ | ⟨_, _ | ⟨_, ⟨⟩⟩⟩)
        · exact hwithin ..
        · refine ⟨?_, fun hop => ?_⟩
          · rw [reqHandle_req _ (by decide) hle]
            exact mem_cons_self
          · rw [operation_req _ _ (by decide)] at hop
            exact absurd hop (by decide)
      · have herr : isErr (replyErr emfile) = true := by decide
        rw [clientHolds_same hv hclose (.inr herr)]
        exact hheld c
    · rw [hi] at hp'
      obtain rfl := play_done hp'
      obtain ⟨hne, hlt, hfree, ht'⟩ := HandleTable.install_eq_some hi
      refine ⟨h.mint hnew hle hi, ?_, fun held hheld c => ?_⟩
      · rintro q (_ | ⟨_, ⟨⟩⟩)
        exact hwithin ..
      · show c ∈ clientHolds held w0 client ↔ (t'.get c).isSome = true
        have hnum := HandleTable.not_isErr hlt
        unfold clientHolds
        rw [hv]
        dsimp only
        rw [if_neg hclose, if_pos ⟨hmint.1, hnum⟩, ht', HandleTable.get_set hlt,
          mem_cons, hheld]
        split
        · next he => exact ⟨fun _ => rfl, fun _ => .inl he⟩
        · next hn => exact ⟨fun hx => hx.resolve_left hn, .inr⟩

end Round

/-- A handle minted for this request, which is the first answer to it, fits the handle field. -/
def mintFits (w0 : UInt64) (answers : List Answer) : Bool :=
  match Verb.of (operation w0), answers.head? with
  | some v, some a => !v.mintsHandle || isErr a.r0 || a.r0 ≤ Fs.maxHandle
  | _, _ => true

theorem le_of_mintFits {w0 : UInt64} {answers : List Answer} {v : Verb} (h : mintFits w0 answers = true)
    (hv : Verb.of (operation w0) = some v) (hm : v.mintsHandle = true) (a : Answer)
    (ha : answers.head? = some a) (he : isErr a.r0 = false) : a.r0 ≤ maxHandle := by
  unfold mintFits at h
  rw [hv, ha] at h
  simpa [hm, he] using h

/-! ### Sessions -/

/-- The table, the handles open in the server on the caretaker's behalf, and the numbers that
the client was returned and has not closed since. -/
structure Session where
  table : HandleTable
  (opened held : List UInt64)

namespace Session

variable {s : Session} {dir w0 : UInt64} {p : Played (List UInt64) Call Served}

/-- `serve(dir)`, before the first request. -/
def start (dir : UInt64) : Session := ⟨.start dir, [dir], [0]⟩

/-- After one round. -/
def after (s : Session) (w0 : UInt64) (p : Played (List UInt64) Call Served) : Session :=
  ⟨p.result.table, p.state, clientHolds s.held w0 p.result.r⟩

/-- What every round keeps. -/
structure Inv (dir : UInt64) (s : Session) : Prop where
  linked : Linked dir s.table s.opened
  held : ∀ c, c ∈ s.held ↔ (s.table.get c).isSome = true

theorem inv_start (hdir : dir ≤ maxHandle) : (start dir).Inv dir where
  linked := .start hdir
  held c := by
    show c ∈ [0] ↔ _
    rw [mem_singleton]
    show _ ↔ ((HandleTable.start dir).get c).isSome = true
    rw [HandleTable.get_start]
    split
    · next h => exact ⟨fun _ => rfl, fun _ => h⟩
    · next h => exact ⟨fun hc => absurd hc h, nofun⟩

theorem Inv.after (h : s.Inv dir) (hr : Round dir s.table w0 p) : (s.after w0 p).Inv dir :=
  ⟨hr.linked, hr.held s.held h.held⟩

theorem Inv.get_eq_none (h : s.Inv dir) {c : UInt64} (hc : c ∉ s.held) : s.table.get c = none := by
  rw [← not_isSome_iff_eq_none, ← h.held]
  exact hc

end Session

end Nife
