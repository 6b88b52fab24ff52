/-
The name-set caretaker (`fs_nameset_caretaker`): a directory capability attenuated to a set of
names in it.  It renumbers handles as the subtree caretaker does and asks one question besides:
is the name that a request gives in the granted directory in the set?

The names stand in a page that the client, the caretaker and the file server share.  The
caretaker reads the page, checks what it read, writes the checked bytes back and forwards; the
server reads the page again, and by then the client may have rewritten every byte the caretaker
did not write (`Agrees`).  For a single name that is enough.  Of a path, which `OPEN` and
`OPENDIR` take, only the first component is checked and written back, and not the `/` behind it:
a client that overwrites the `/` makes the component longer after the check
(`opened_outside_set`).  As long as the `/` stays, no request reaches a name outside the set
(`names_confined`).
-/
import Nife.Caretaker
import Nife.Lib.Medium
import Nife.Lib.Transition
import Mathlib.Data.List.TakeWhile

namespace Nife

open Dialogue Medium Transition Dirent Fs

/-! ### The shared page -/

/-- `PAGE`, in bytes. -/
def sharedPage : Nat := 4096

def slash : UInt8 := 47

/-- `put_at`, on top of what was written before. -/
def putAt (staged : Nat → Option UInt8) (off : Nat) (bytes : List UInt8) : Nat → Option UInt8 :=
  fun i =>
    if off ≤ i ∧ i < off + bytes.length ∧ i < sharedPage then bytes[i - off]? else staged i

section

variable (page : Nat → UInt8)

/-- `first_component`: up to the first `/`, or all of the name. -/
def firstComponent (len : Nat) : Nat :=
  ((List.range (min len (grantMaxName + 1))).find? fun i => page i = slash).getD len

/-- `name_at`: a name too long for a grant is no name at all. -/
def nameAt (off len : Nat) : List UInt8 :=
  if len = 0 ∨ grantMaxName < len ∨ sharedPage < off + len then [] else window page off len

/-- The loop of `list`, at offset `off` of the page. -/
def listFrom (names : List NameEntry) (off : Nat) : List UInt8 :=
  match names with
  | [] => []
  | e :: rest =>
    match Dirent.encode (Dirent.recordLen grantMaxName) e with
    | none => []
    | some rec =>
      if sharedPage < off + rec.length then [] else rec ++ listFrom rest (off + rec.length)

/-- `list`: the set from `cursor` on, as directory entries at the start of the page. -/
def listing (set : List UInt8) (cursor : Nat) : List UInt8 :=
  listFrom ((Nameset.iter set).drop cursor) 0

/-- Whether the server splits the name of this verb at `/`. -/
def takesPath (code : UInt64) : Bool := code = FsOp.open_.code ∨ code = FsOp.opendir.code

/-- The part of the name that is checked. -/
def checkedLen (code : UInt64) (len : Nat) : Nat :=
  if takesPath code then firstComponent page len else len

end

/-- The `RENAME` arm of `serve`: both names are read, each is checked if its directory is the
granted one, and both are written back. -/
def namesetRename (dir : UInt64) (set : List UInt8) (t : HandleTable) (page : Nat → UInt8)
    (staged : Nat → Option UInt8) (filtered : Bool) (code serverHandle : UInt64) (len : Nat)
    (w1 : UInt64) : Serving :=
  let dstLen := min (Fs.dstLen w1).toNat sharedPage
  let src := nameAt page 0 len
  let dst := nameAt page len dstLen
  let dstHandle := t.get (Fs.dstHandle w1)
  let srcOk := !filtered || Nameset.contains set src
  let dstOk := dstHandle != some dir || Nameset.contains set dst
  if (srcOk && dstOk) = false then t.refuse staged enoent
  else
    let staged := putAt (putAt staged 0 src) len dst
    match dstHandle with
    | some d =>
      t.forwardRename staged code serverHandle (UInt64.ofNat len) d (UInt64.ofNat dstLen)
    | none => t.refuse staged ebadf

/-- One round of `serve`; `page` is the shared page as the caretaker reads it. -/
def namesetServe (dir : UInt64) (set : List UInt8) (t : HandleTable) (page : Nat → UInt8)
    (w0 w1 : UInt64) : Serving :=
  let len := min (Fs.reqLen w0).toNat sharedPage
  let code := operation w0
  let asked := Fs.reqHandle w0
  match t.get asked with
  | none => t.refuse (fun _ => none) ebadf
  | some serverHandle =>
    match Verb.of code with
    | none => t.refuse (fun _ => none) einval
    | some v =>
      let filtered := asked == Fs.root
      let named := filtered && v.takesName && v.operand == .name
      let name := nameAt page 0 (checkedLen page code len)
      if named && !Nameset.contains set name then t.refuse (fun _ => none) enoent
      else
        -- the checked bytes are written back before anything is forwarded
        let staged := if named then putAt (fun _ => none) 0 name else fun _ => none
        if code = FsOp.close.code then t.closeHandle staged asked serverHandle
        else if code = FsOp.readdir.code ∧ filtered = true then
          let bytes := listing set w1.toNat
          .done ⟨t, UInt64.ofNat bytes.length, 0, putAt staged 0 bytes⟩
        else if v.operand = .rename then
          namesetRename dir set t page staged filtered code serverHandle len w1
        else t.forwardVerb staged code v serverHandle (UInt64.ofNat len) w1

/-! ### One round -/

variable {dir w0 w1 : UInt64} {set : List UInt8} {t : HandleTable} {opened : List UInt64}
  {answers : List Answer} {page seen : Nat → UInt8} {p : Played (List UInt64) Call Served}

variable {staged : Nat → Option UInt8} {len off : Nat} {v : Verb} {bytes : List UInt8}

theorem Round.list (h : Linked dir t opened) (hop : operation w0 = FsOp.readdir.code) {r : UInt64}

    (hp : play fileServer opened answers (.done ⟨t, r, 0, staged⟩) = some p) : Round dir t w0 p := by
  obtain rfl := play_done hp
  refine ⟨h, nofun, fun held hheld c => ?_⟩
  have hsame : clientHolds held w0 r = held := by
    unfold clientHolds
    rw [hop]
    rfl
  show c ∈ clientHolds held w0 r ↔ _
  rw [hsame]
  exact hheld c

variable {serverHandle code : UInt64} {filtered : Bool} {c : Call}

theorem Round.namesetRename (h : Linked dir t opened)
    (hv : Verb.of (operation w0) = some v) (hclose : operation w0 ≠ FsOp.close.code)
    (hop : v.operand = .rename) (hc : serverHandle ∈ opened)

    (hp : play fileServer opened answers (namesetRename dir set t page staged filtered
      (operation w0) serverHandle len w1) = some p) : Round dir t w0 p := by
  obtain ⟨hne, -⟩ := Verb.ne_of_operand hv hclose
  unfold Nife.namesetRename at hp
  dsimp only at hp
  split at hp
  · exact Round.refuse h (by decide) (fun hcode => absurd hcode hclose) hp
  · rcases hd : t.get (dstHandle w1) with - | dst
    · rw [hd] at hp
      exact Round.refuse h (by decide) (fun hcode => absurd hcode hclose) hp
    · rw [hd] at hp
      exact Round.forwardRename h hv hne (Verb.not_mints_of_rename hv hop) hc (h.mem hd) _ hp

/-- **One round of the name-set caretaker** renumbers as the subtree caretaker does. -/
theorem round_namesetServe (h : Linked dir t opened) (hfit : mintFits w0 answers = true)
    (hp : play fileServer opened answers (namesetServe dir set t page w0 w1) = some p) :
    Round dir t w0 p := by
  unfold namesetServe at hp
  dsimp only at hp
  rcases hc : t.get (reqHandle w0) with - | serverHandle
  · rw [hc] at hp
    exact Round.refuse h (by decide) (fun _ => .inr hc) hp
  rw [hc] at hp
  rcases hv : Verb.of (operation w0) with - | v
  · rw [hv] at hp
    refine Round.refuse h (by decide) (fun hclose => ?_) hp
    rw [hclose] at hv
    cases hv
  rw [hv] at hp
  dsimp only at hp
  split at hp
  · next hout =>
    refine Round.refuse h (by decide) (fun hclose => ?_) hp
    rw [hclose] at hv
    cases hv
    rw [Bool.and_eq_true, Bool.and_eq_true] at hout
    exact absurd hout.1.2 (by decide)
  split at hp
  · next hclose => exact Round.closeHandle h hclose hc hp
  next hclose =>
  split at hp
  · next hlist => exact Round.list h hlist.1 hp
  split at hp
  · next hop => exact Round.namesetRename h hv hclose hop (h.mem hc) hp
  · next hop =>
    obtain ⟨hne, hren⟩ := Verb.ne_of_operand hv hclose
    exact Round.forwardVerb h hv hne (hren hop) (h.mem hc) (le_of_mintFits hfit hv) hp

/-! ### What the server reads -/

/-- A page that still holds what the caretaker wrote. -/
def Agrees (staged : Nat → Option UInt8) (seen : Nat → UInt8) : Prop :=
  ∀ i b, staged i = some b → seen i = b

theorem Agrees.window_putAt
    (h : Agrees (putAt staged off bytes) seen) (hfit : off + bytes.length ≤ sharedPage) :
    window seen off bytes.length = bytes := by
  refine List.ext_getElem? fun i => ?_
  by_cases hi : i < bytes.length
  · rw [getElem?_window _ _ hi, List.getElem?_eq_getElem hi]
    refine congrArg some (h (off + i) _ ?_)
    rw [putAt, if_pos ⟨by omega, by omega, by omega⟩, Nat.add_sub_cancel_left,
      List.getElem?_eq_getElem hi]
  · rw [List.getElem?_eq_none (by simpa using hi), List.getElem?_eq_none (by omega)]

theorem Agrees.of_putAt {later : List UInt8}
    {at' : Nat} (h : Agrees (putAt (putAt staged off bytes) at' later) seen)
    (hafter : off + bytes.length ≤ at') : Agrees (putAt (fun _ => none) off bytes) seen := by
  intro i b hb
  unfold putAt at hb
  split_ifs at hb with hin
  refine h i b ?_
  unfold putAt
  rw [if_neg (by omega), if_pos hin]
  exact hb

theorem nameAt_of_ne_nil (h : nameAt page off len ≠ []) :
    0 < len ∧ len ≤ grantMaxName ∧ off + len ≤ sharedPage ∧
      nameAt page off len = window page off len := by
  unfold nameAt at h ⊢
  split at h
  · exact absurd rfl h
  · next hok =>
    rw [if_neg hok]
    exact ⟨by omega, by omega, by omega, rfl⟩

/-- **A name that was read, checked and written back is the name the server reads.** -/
theorem Agrees.window_nameAt
    (h : Agrees (putAt staged off (nameAt page off len)) seen) (hne : nameAt page off len ≠ []) :
    window seen off len = nameAt page off len := by
  obtain ⟨-, -, hfit, hread⟩ := nameAt_of_ne_nil hne
  have hl : (nameAt page off len).length = len := by rw [hread, length_window]
  have hsame := h.window_putAt (by rw [hl]; exact hfit)
  rwa [hl] at hsame

theorem firstComponent_cases (page : Nat → UInt8) (len : Nat) :
    (firstComponent page len < len ∧ page (firstComponent page len) = slash ∧
      ∀ j, j < firstComponent page len → page j ≠ slash) ∨
    (firstComponent page len = len ∧ ∀ j, j < min len (grantMaxName + 1) → page j ≠ slash) := by
  unfold firstComponent
  rcases hf : (List.range (min len (grantMaxName + 1))).find? fun i => page i = slash with - | i
  · right
    refine ⟨rfl, fun j hj => ?_⟩
    simpa using List.find?_range_eq_none.mp hf j hj
  · left
    obtain ⟨hi, hmem, hbefore⟩ := List.find?_range_eq_some.mp hf
    have hlt := List.mem_range.mp hmem
    exact ⟨by show i < len; omega, by simpa using hi, fun j hj => by simpa using hbefore j hj⟩

/-- The name that a request resolves in its directory: the first component of a path, or the
whole name. -/
def resolved (code : UInt64) (name : List UInt8) : List UInt8 :=
  if takesPath code then name.takeWhile (· ≠ slash) else name

/-- The component that was checked is the one resolved, if the `/` behind it is still there. -/
theorem resolved_checked {name : List UInt8}
    (hread : nameAt page 0 (checkedLen page code len) = name) (hne : name ≠ [])
    (hseen : window seen 0 name.length = name)
    (hslash : takesPath code = true → firstComponent page len < len →
      seen (firstComponent page len) = slash) :
    resolved code (window seen 0 len) = name := by
  have hlen := nameAt_of_ne_nil (hread ▸ hne)
  rw [hread] at hlen
  obtain ⟨hpos, hmax, -, hname⟩ := hlen
  have hnl : name.length = checkedLen page code len := by
    rw [hname, length_window]
  unfold checkedLen at hname hnl hmax hpos
  unfold resolved
  by_cases hpath : takesPath code = true
  · rw [if_pos hpath] at hname hnl hmax hpos ⊢
    have hfree (hbefore : ∀ j, j < firstComponent page len → page j ≠ slash) :
        ∀ b ∈ name, decide (b ≠ slash) = true := by
      intro b hb
      rw [hname] at hb
      obtain ⟨j, hj, rfl⟩ := List.mem_map.mp hb
      rw [zero_add]
      exact decide_eq_true (hbefore j (List.mem_range.mp hj))
    rcases firstComponent_cases page len with ⟨hlt, -, hbefore⟩ | ⟨hall, hbefore⟩
    · -- the name, the slash that was found, and the rest
      obtain ⟨d, hd⟩ := Nat.exists_eq_add_of_lt hlt
      have hend := hslash hpath hlt
      rw [← hnl] at hend hd
      rw [hd, add_assoc, window_add, hseen, add_comm d 1, window_add]
      show (name ++ (seen (0 + name.length + 0) :: _)).takeWhile _ = name
      rw [zero_add, add_zero, hend, List.takeWhile_append_of_pos (hfree hbefore)]
      simp
    · rw [hall] at hnl hmax
      rw [← hnl, hseen]
      refine List.takeWhile_eq_self_iff.mpr (hfree fun j hj => hbefore j ?_)
      omega
  · rw [if_neg hpath] at hnl ⊢
    rw [← hnl, hseen]

/-- Where a call acts on the granted directory `dir`, the names that the server reads from the
page `seen` are names that `Granted` admits. -/
structure Call.NamesIn (dir : UInt64) (Granted : List UInt8 → Prop) (c : Call)
    (seen : Nat → UInt8) : Prop where
  name : ∀ v, Verb.of (operation c.w0) = some v → v.operand = .name → Fs.reqHandle c.w0 = dir →
    Granted (resolved (operation c.w0) (window seen 0 (Fs.reqLen c.w0).toNat))
  source : operation c.w0 = FsOp.rename.code → Fs.reqHandle c.w0 = dir →
    Granted (window seen 0 (Fs.reqLen c.w0).toNat)
  destination : operation c.w0 = FsOp.rename.code → Fs.dstHandle c.w1 = dir →
    Granted (window seen (Fs.reqLen c.w0).toNat (Fs.dstLen c.w1).toNat)

theorem Call.NamesIn.of_operand {Granted : List UInt8 → Prop}
    (hv : Verb.of (operation c.w0) = some v) (hname : v.operand ≠ .name)
    (hren : v.operand ≠ .rename) : c.NamesIn dir Granted seen := by
  have hcode : operation c.w0 ≠ FsOp.rename.code := by
    intro hcode
    rw [hcode] at hv
    cases hv
    exact hren rfl
  refine ⟨fun v' hv' hop => ?_, fun hop => absurd hop hcode, fun hop => absurd hop hcode⟩
  cases hv.symm.trans hv'
  exact absurd hop hname

theorem Call.NamesIn.close {Granted : List UInt8 → Prop} {handle w1 : UInt64}

    (hc : c = ⟨req FsOp.close.code handle 0, w1, staged⟩) : c.NamesIn dir Granted seen := by
  subst hc
  have hop : operation (req FsOp.close.code handle 0) = FsOp.close.code :=
    operation_req _ _ (by decide)
  refine .of_operand (v := ⟨.close, .none, false, false⟩) ?_ (by decide) (by decide)
  show Verb.of (operation (req FsOp.close.code handle 0)) = _
  rw [hop]
  decide

theorem toNat_reqLen_req {op : UInt64} (handle : UInt64) (hop : op.toNat < 256)
    (hlen : len ≤ sharedPage) : (reqLen (req op handle (UInt64.ofNat len))).toNat = len := by
  have hnat : (UInt64.ofNat len).toNat = len := by
    rw [UInt64.toNat_ofNat']
    unfold sharedPage at hlen
    omega
  rw [reqLen_req handle hop, hnat]
  show (UInt64.ofNat len).toNat ≤ 1099511627775
  unfold sharedPage at hlen
  omega

theorem toNat_dstLen_renameDst (handle : UInt64) (hlen : len ≤ sharedPage) :
    (dstLen (renameDst handle (UInt64.ofNat len))).toNat = len := by
  have hnat : (UInt64.ofNat len).toNat = len := by
    rw [UInt64.toNat_ofNat']
    unfold sharedPage at hlen
    omega
  rw [dstLen_renameDst handle, hnat]
  show (UInt64.ofNat len).toNat ≤ 1099511627775
  unfold sharedPage at hlen
  omega

/-- The `/` at which the caretaker cut a path is still there when the server reads the page. -/
def SlashKept (page : Nat → UInt8) (w0 : UInt64) (seen : Nat → UInt8) : Prop :=
  takesPath (operation w0) = true →
    firstComponent page (min (Fs.reqLen w0).toNat sharedPage)
      < min (Fs.reqLen w0).toNat sharedPage →
    seen (firstComponent page (min (Fs.reqLen w0).toNat sharedPage)) = slash

/-- Both names of a rename, each where its directory is the granted one. -/
theorem names_namesetRename {Granted : List UInt8 → Prop} (h : Linked dir t opened)
    (hset : ∀ name, Nameset.contains set name = true → name ≠ [] ∧ Granted name)
    (hcode : code.toNat < 256) (hv : Verb.of code = some v)
    (hop : v.operand = .rename) (hc : serverHandle ∈ opened)
    (hroot : serverHandle = dir → filtered = true)
    (hlen : len ≤ sharedPage)
    (hp : play fileServer opened answers (namesetRename dir set t page staged filtered code
      serverHandle len w1) = some p) :
    ∀ q ∈ p.asked, ∀ seen, Agrees q.2.staged seen → q.2.NamesIn dir Granted seen := by
  have hdst : min (dstLen w1).toNat sharedPage ≤ sharedPage := min_le_right ..
  unfold namesetRename at hp
  dsimp only at hp
  split at hp
  · obtain rfl := play_done hp
    nofun
  next hok =>
  rcases hd : t.get (dstHandle w1) with - | dst
  · rw [hd] at hp
    obtain rfl := play_done hp
    nofun
  rw [hd] at hp hok
  rw [Bool.not_eq_false, Bool.and_eq_true, Bool.or_eq_true, Bool.or_eq_true] at hok
  obtain ⟨a, rest, opened', p', -, -, hp', rfl⟩ := play_ask hp
  obtain rfl := play_done hp'
  rintro q (_ | ⟨_, ⟨⟩⟩) seen hagree
  refine ⟨fun v' hv' hname => ?_, fun _ hdir => ?_, fun _ hdir => ?_⟩
  · rw [operation_req _ _ hcode] at hv'
    cases hv.symm.trans hv'
    rw [hop] at hname
    cases hname
  · rw [reqHandle_req _ hcode (h.fits _ hc)] at hdir
    obtain ⟨hne, hgranted⟩ := hset _ (hok.1.resolve_left (by rw [hroot hdir]; nofun))
    obtain ⟨-, -, -, hread⟩ := nameAt_of_ne_nil hne
    have hback := Agrees.of_putAt hagree (by rw [hread, length_window, zero_add])
    rw [toNat_reqLen_req _ hcode hlen, hback.window_nameAt hne]
    exact hgranted
  · rw [dstHandle_renameDst _ (h.fits _ (h.mem hd))] at hdir
    obtain ⟨hne, hgranted⟩ := hset _ (hok.2.resolve_left (by rw [hdir]; simp))
    rw [toNat_reqLen_req _ hcode hlen, toNat_dstLen_renameDst _ hdst, hagree.window_nameAt hne]
    exact hgranted

/-- **Every name sent for the granted directory is in the set**, whatever else the client has
rewritten. -/
theorem names_namesetServe {Granted : List UInt8 → Prop} (h : Linked dir t opened)
    (hset : ∀ name, Nameset.contains set name = true → name ≠ [] ∧ Granted name)
    (hp : play fileServer opened answers (namesetServe dir set t page w0 w1) = some p) :
    ∀ q ∈ p.asked, ∀ seen, Agrees q.2.staged seen → SlashKept page w0 seen →
      q.2.NamesIn dir Granted seen := by
  have hlt := operation_lt w0
  have hlen : min (reqLen w0).toNat sharedPage ≤ sharedPage := min_le_right ..
  unfold namesetServe at hp
  dsimp only at hp
  rcases hc : t.get (reqHandle w0) with - | serverHandle
  · rw [hc] at hp
    obtain rfl := play_done hp
    nofun
  rw [hc] at hp
  rcases hv : Verb.of (operation w0) with - | v
  · rw [hv] at hp
    obtain rfl := play_done hp
    nofun
  rw [hv] at hp
  dsimp only at hp
  -- the granted directory's handle is only reached through client number 0
  have hroot : serverHandle = dir → (reqHandle w0 == root) = true := by
    rintro rfl
    exact beq_iff_eq.mpr (h.inj _ _ _ hc h.root)
  split at hp
  · obtain rfl := play_done hp
    nofun
  next hin =>
  split at hp
  · intro q hq seen _ _
    exact .close (HandleTable.asked_closeHandle hp q hq)
  split at hp
  · obtain rfl := play_done hp
    nofun
  split at hp
  · next hop =>
    exact fun q hq seen hagree _ =>
      names_namesetRename h hset hlt hv hop (h.mem hc) hroot hlen hp q hq seen hagree
  next hop =>
  intro q hq seen hagree hslash
  rcases HandleTable.asked_forwardVerb hp q hq with hqe | ⟨handle, hqe⟩
  swap
  · exact .close hqe
  by_cases hname : v.operand = .name
  swap
  · refine .of_operand (v := v) ?_ hname hop
    rw [hqe, operation_req _ _ hlt]
    exact hv
  have hren : operation q.2.w0 ≠ FsOp.rename.code := by
    rw [hqe, operation_req _ _ hlt]
    intro hcode
    rw [hcode] at hv
    cases hv
    exact hop rfl
  refine ⟨fun v' _ _ hdir => ?_, fun hcode => absurd hcode hren, fun hcode => absurd hcode hren⟩
  have hcarries : v.carriesLen = true := by
    unfold Verb.carriesLen
    rw [hname]
    rfl
  have htakes : v.takesName = true := by
    unfold Verb.takesName
    rw [hname]
    rfl
  rw [hqe] at hdir hagree
  rw [reqHandle_req _ hlt (h.fits _ (h.mem hc))] at hdir
  rw [hroot hdir, htakes, hname] at hin hagree
  -- the name was found in the set, and its bytes were put back
  obtain ⟨hne, hgranted⟩ := hset _ (by simpa using hin)
  have hseen := Agrees.window_nameAt
    (show Agrees (putAt (fun _ => none) 0 (nameAt page 0 _)) seen from hagree) hne
  rw [hqe, operation_req _ _ hlt, if_pos hcarries, toNat_reqLen_req _ hlt hlen]
  obtain ⟨-, -, -, hread⟩ := nameAt_of_ne_nil hne
  rw [resolved_checked rfl hne (by rw [hread, length_window, ← hread]; exact hseen) hslash]
  exact hgranted

/-! ### Listings -/

/-- Names that a grant can carry are listed whole while there is room for the longest of them. -/
theorem iter_listFrom {names : List NameEntry}
    (hnames : ∀ e ∈ names, e.1.length ≤ grantMaxName) (off : Nat)
    (hroom : off + recordLen grantMaxName * names.length ≤ sharedPage) :
    iter (listFrom names off) = names ∧
      (listFrom names off).length ≤ recordLen grantMaxName * names.length := by
  induction names generalizing off with
  | nil =>
    refine ⟨?_, Nat.zero_le _⟩
    rw [iter]
    intro isDir len rest hcons
    cases hcons
  | cons e names ih =>
    have hlen := hnames e List.mem_cons_self
    have henc : encode (recordLen grantMaxName) e
        = some ((if e.2 then 1 else 0) :: UInt8.ofNat e.1.length :: e.1) := by
      unfold encode
      rw [if_neg]
      unfold recordLen grantMaxName at *
      omega
    rw [List.length_cons, Nat.mul_succ] at hroom ⊢
    have hrec : 2 + e.1.length ≤ recordLen grantMaxName :=
      Nat.add_le_add_left hlen 2
    rw [listFrom, henc]
    dsimp only
    rw [if_neg (by simp only [List.length_cons]; omega)]
    obtain ⟨hiter, hle⟩ := ih (fun e' he' => hnames e' (List.mem_cons_of_mem _ he'))
      (off + (e.1.length + 1 + 1)) (by omega)
    refine ⟨?_, ?_⟩
    · rw [iter_encode henc]
      exact congrArg (e :: ·) hiter
    · simp only [List.length_append, List.length_cons]
      omega

/-! ### Sessions -/

/-- A client's request, what the server answers while it is served, and the shared page as the
caretaker reads it. -/
structure PageExchange where
  (w0 w1 : UInt64)
  answers : List Answer
  page : Nat → UInt8

namespace Session

variable {s s' : Session} {e : PageExchange} {names : List NameEntry} {out : Nat}

def serveNameset (dir : UInt64) (set : List UInt8) (s : Session) (e : PageExchange) :
    Option (Played (List UInt64) Call Served) :=
  play fileServer s.opened e.answers (namesetServe dir set s.table e.page e.w0 e.w1)

def stepNameset (dir : UInt64) (set : List UInt8) (s : Session) (e : PageExchange) :
    Option Session := (s.serveNameset dir set e).map (s.after e.w0)

theorem Inv.stepNameset (h : s.Inv dir) (hfit : mintFits e.w0 e.answers = true)
    (hs : s.stepNameset dir set e = some s') : s'.Inv dir := by
  obtain ⟨p, hp, rfl⟩ := Option.map_eq_some_iff.mp hs
  exact h.after (round_namesetServe h.linked hfit hp)

/-- A name of the set. -/
def Granted (names : List NameEntry) (name : List UInt8) : Prop := ∃ d, (name, d) ∈ names

/-- **The client reaches no name outside the set** in this state. -/
structure NamesConfined (dir : UInt64) (set : List UInt8) (names : List NameEntry) (s : Session) :
    Prop where
  forwards : ∀ e p, s.serveNameset dir set e = some p → ∀ q ∈ p.asked, ∀ seen,
    Agrees q.2.staged seen → SlashKept e.page e.w0 seen → q.2.NamesIn dir (Granted names) seen
  /-- A listing of the granted directory is the set from the cursor on, with no request sent. -/
  lists : ∀ page w0 w1, operation w0 = FsOp.readdir.code → Fs.reqHandle w0 = Fs.root →
    ∃ bytes, namesetServe dir set s.table page w0 w1
        = .done ⟨s.table, UInt64.ofNat bytes.length, 0, putAt (fun _ => none) 0 bytes⟩ ∧
      bytes.length ≤ sharedPage ∧ Dirent.iter bytes = names.drop w1.toNat

theorem Inv.namesConfined (h : s.Inv dir) {rest : List UInt8}
    (hset : Nameset.encode names out = some bytes) :
    s.NamesConfined dir (bytes ++ rest) names := by
  unfold Nameset.encode at hset
  split at hset
  · cases hset
  next hcount =>
  have hiter := Nameset.iter_encodeFrom hset rest
  have hnames := Nameset.encodeFrom_names hset
  refine ⟨fun e p hp => names_namesetServe h.linked (fun name hname => ?_) hp,
    fun page w0 w1 hop hroot => ?_⟩
  · rw [Nameset.contains, hiter, List.any_eq_true] at hname
    obtain ⟨e, he, heq⟩ := hname
    obtain rfl := of_decide_eq_true heq
    exact ⟨(hnames e he).1, e.2, he⟩
  · have hget : s.table.get (reqHandle w0) = some dir := by
      rw [hroot]
      exact h.linked.root
    have hall : ∀ e ∈ names.drop w1.toNat, e.1.length ≤ grantMaxName :=
      fun e he => (hnames e (List.mem_of_mem_drop he)).2
    have hlist := iter_listFrom hall 0 (by
      rw [List.length_drop]
      unfold recordLen grantMaxName sharedPage Nameset.maxNames at *
      omega)
    refine ⟨listing (bytes ++ rest) w1.toNat, ?_, ?_, ?_⟩
    · have hv : Verb.of FsOp.readdir.code = some ⟨.readdir, .none, true, false⟩ := by decide
      unfold namesetServe
      dsimp only
      rw [hget, hop, hroot]
      rfl
    · unfold listing
      rw [hiter]
      refine le_trans hlist.2 ?_
      rw [List.length_drop]
      unfold recordLen grantMaxName sharedPage Nameset.maxNames at *
      omega
    · unfold listing
      rw [hiter]
      exact hlist.1

/-- **The name-set caretaker never lets a request reach a name outside its set**, in every run in
which the `/` of a path stays where the caretaker found it. -/
theorem names_confined {out : Nat} {bytes rest : List UInt8}
    (hset : Nameset.encode names out = some bytes) (hdir : dir ≤ Fs.maxHandle)
    (h : Reach (stepNameset dir (bytes ++ rest)) (fun _ e => mintFits e.w0 e.answers = true)
      (start dir) s) : s.NamesConfined dir (bytes ++ rest) names :=
  (h.invariant (Inv dir) (inv_start hdir) fun _ _ _ hi hc hs => hi.stepNameset hc hs).namesConfined
    hset

/-- The set of the one name `a`. -/
def setOfA : List UInt8 := [1, 97, 0]

def threeBytes (x y z : UInt8) : Nat → UInt8 := fun i => [x, y, z].getD i 0

/-- An `OPEN` of the first three bytes of the page in the granted directory. -/
def openThree (page : Nat → UInt8) : PageExchange :=
  ⟨Fs.req FsOp.open_.code Fs.root 3, 0, [⟨2, 0⟩], page⟩

/-- `a/b` is opened through the set of the one name `a`. -/
theorem names_confined_path :
    ∃ s, Reach (stepNameset 1 setOfA) (fun _ e => mintFits e.w0 e.answers = true) (start 1) s ∧
      s.held = [1, 0] ∧ s.NamesConfined 1 setOfA [([97], false)] := by
  have hrun : (Transition.runIf (stepNameset 1 setOfA)
      (fun _ e => mintFits e.w0 e.answers = true) (start 1)
      [openThree (threeBytes 97 slash 98)]).any (fun s => decide (s.held = [1, 0])) = true := by
    decide +kernel
  obtain ⟨s, hs, hc⟩ := (Option.any_eq_true _ _).mp hrun
  have hreach := Reach.of_runIf _ hs
  have hset : Nameset.encode [([97], false)] 137 = some setOfA := by decide +kernel
  have hconfined := names_confined hset (by decide)
    (show Reach (stepNameset 1 (setOfA ++ [])) _ _ s from hreach)
  exact ⟨s, hreach, of_decide_eq_true hc, hconfined⟩

/-- **The `/` is not written back.**  The client sends `a/b`, the caretaker checks and writes back
`a`, and the client turns the `/` into an `x`: the server opens `axb`. -/
theorem opened_outside_set : ∃ s, Reach (stepNameset 1 setOfA) (fun _ _ => True) (start 1) s ∧
      ∃ e p, s.serveNameset 1 setOfA e = some p ∧ ∃ q ∈ p.asked, ∃ seen, Agrees q.2.staged seen ∧
        ¬ q.2.NamesIn 1 (Granted [([97], false)]) seen := by
  have hin : Nameset.contains setOfA [97] = true := by decide +kernel
  have hserve : namesetServe 1 setOfA (.start 1) (threeBytes 97 slash 98)
      (Fs.req FsOp.open_.code Fs.root 3) 0 = (HandleTable.start 1).forwardVerb
        (putAt (fun _ => none) 0 [97]) FsOp.open_.code ⟨.open_, .name, true, true⟩ 1 3 0 := by
    refine (if_neg fun hout => ?_).trans rfl
    have hout := (Bool.and_eq_true _ _ ▸ hout).2
    exact absurd (hout.symm.trans (congrArg not hin)) nofun
  have hp : (start 1).serveNameset 1 setOfA (openThree (threeBytes 97 slash 98))
      = some ⟨[2, 1], ⟨(HandleTable.start 1).set 1 (some 2), 1, 0, putAt (fun _ => none) 0 [97]⟩,
        [([1], ⟨Fs.req FsOp.open_.code 1 3, 0, putAt (fun _ => none) 0 [97]⟩)]⟩ :=
    (congrArg (play fileServer [1] [⟨2, 0⟩]) hserve).trans rfl
  refine ⟨start 1, .refl, _, _, hp, _, List.mem_cons_self, threeBytes 97 120 98,
    fun i b hb => ?_, fun h => ?_⟩
  · -- the caretaker has written the first byte only
    dsimp only [putAt] at hb
    split_ifs at hb with hin
    obtain rfl : i = 0 := by simpa using hin.2.1
    exact Option.some.inj hb
  · obtain ⟨d, hd⟩ := h.name ⟨.open_, .name, true, true⟩ (by decide) rfl (by decide)
    have hread : resolved (operation (Fs.req FsOp.open_.code 1 3)) (window (threeBytes 97 120 98) 0
        (Fs.reqLen (Fs.req FsOp.open_.code 1 3)).toNat) = [97, 120, 98] := by decide
    have hname := hread.symm.trans (congrArg Prod.fst (List.mem_singleton.mp hd))
    exact absurd hname (by decide)

end Session

end Nife
