/-
What the server's verbs do to the table of handles, the owners beside it and the bindings.
Four verbs put one entry in the table's first free slot, `close` empties one slot, `claim`
writes one owner, `bind` and `unbind` change one binding and `unbind` closes what was minted
under it.  Every other verb leaves all three as they were (`Frames table`).
-/
import Nife.FileServe

namespace Nife

open Fallible List

/-- The open handles, their owners and the bindings. -/
structure ServerTable where
  handles : List (Option Entry)
  owners : List Nat
  bindings : Bindings clientWindows

namespace ServerTable

section

variable (t : ServerTable)

def entryAt (h : Nat) : Option Entry := t.handles[h]?.join

def freeSlot : Nat := t.handles.findIdx (·.isNone)

/-- The owner of a slot; 0 past the end. -/
def ownerAt (h : Nat) : Nat := t.owners.getD h 0

def install (e : Entry) : ServerTable :=
  if t.freeSlot < t.handles.length then
    { t with handles := t.handles.set t.freeSlot (some e), owners := t.owners.set t.freeSlot 0 }
  else { t with handles := t.handles ++ [some e], owners := t.owners ++ [0] }

def close (h : Nat) : ServerTable :=
  if h = 0 ∨ t.entryAt h = none then t else { t with handles := t.handles.set h none }

/-- Empty the slots of a list and disown them. -/
def closeAll (t : ServerTable) : List Nat → ServerTable
  | [] => t
  | h :: hs => closeAll (({ t with owners := t.owners.set h 0 } : ServerTable).close h) hs

/-- Write the owner of a slot, for a bound badge. -/
def claim (h badge : Nat) : ServerTable :=
  match t.bindings.of badge with
  | .bound _ => { t with owners := t.owners.set h badge }
  | _ => t

end

variable {t : ServerTable}

/-! ### Slots after each change -/

theorem entryAt_freeSlot (t : ServerTable) : t.entryAt t.freeSlot = none := by
  by_cases hi : t.freeSlot < t.handles.length
  · have hnone : (t.handles[t.freeSlot]).isNone = true := findIdx_getElem
    rw [entryAt, getElem?_eq_getElem hi]
    simpa using hnone
  · rw [entryAt, getElem?_eq_none (Nat.le_of_not_lt hi)]
    rfl

variable {h : Nat} {e : Entry}

theorem lt_of_entryAt (he : t.entryAt h = some e) : h < t.handles.length := by
  by_contra hge
  rw [entryAt, getElem?_eq_none (Nat.le_of_not_lt hge)] at he
  cases he

theorem freeSlot_le (t : ServerTable) : t.freeSlot ≤ t.handles.length := findIdx_le_length

theorem entryAt_install (t : ServerTable) (e : Entry) (h : Nat) :
    (t.install e).entryAt h = if h = t.freeSlot then some e else t.entryAt h := by
  have hle := t.freeSlot_le
  unfold install
  split
  case isTrue hi =>
    simp only [entryAt, getElem?_set, eq_comm (a := t.freeSlot)]
    split
    · rfl
    · rfl
  case isFalse hi =>
    have hlen : t.freeSlot = t.handles.length := by omega
    simp only [entryAt, getElem?_append, hlen]
    split
    · rw [if_neg (by omega)]
    · next hge =>
      split_ifs with heq
      · rw [heq, Nat.sub_self]
        rfl
      · rw [getElem?_eq_none (by simp; omega), getElem?_eq_none (by omega)]

theorem ownerAt_install (e : Entry) (h : Nat) (hlen : t.owners.length = t.handles.length) :
    (t.install e).ownerAt h = if h = t.freeSlot then 0 else t.ownerAt h := by
  have hle := t.freeSlot_le
  unfold install
  split
  case isTrue hi =>
    simp only [ownerAt, getD_eq_getElem?_getD, getElem?_set, eq_comm (a := t.freeSlot)]
    split
    · rw [if_pos (by omega)]
      rfl
    · rfl
  case isFalse hi =>
    simp only [ownerAt, getD_eq_getElem?_getD, getElem?_append]
    split
    · rw [if_neg (by omega)]
    · next hge =>
      split_ifs with heq
      · rw [show h - t.owners.length = 0 by omega]
        rfl
      · rw [getElem?_eq_none (by simp; omega), getElem?_eq_none (by omega)]

theorem length_install (e : Entry) (hlen : t.owners.length = t.handles.length) :
    (t.install e).owners.length = (t.install e).handles.length := by
  unfold install
  split <;> simp [hlen]

section

variable (t : ServerTable)

theorem bindings_install (e : Entry) : (t.install e).bindings = t.bindings := by
  unfold install
  split <;> rfl

theorem bindings_claim (h badge : Nat) : (t.claim h badge).bindings = t.bindings := by
  unfold claim
  split <;> rfl

theorem entryAt_close (h k : Nat) :
    (t.close h).entryAt k = if k = h ∧ h ≠ 0 then none else t.entryAt k := by
  unfold close
  split
  case isTrue hno =>
    split
    · next hk =>
      rw [hk.1]
      exact hno.resolve_left hk.2
    · rfl
  case isFalse hyes =>
    simp only [entryAt, getElem?_set]
    rw [not_or] at hyes
    by_cases hk : k = h
    · subst hk
      rw [if_pos (c := k = k ∧ k ≠ 0) ⟨rfl, hyes.1⟩, if_pos rfl]
      split <;> rfl
    · rw [if_neg (Ne.symm hk), if_neg (fun hh => hk hh.1)]

theorem ownerAt_close (h k : Nat) : (t.close h).ownerAt k = t.ownerAt k := by
  unfold close
  split <;> rfl

theorem bindings_close (h : Nat) : (t.close h).bindings = t.bindings := by
  unfold close
  split <;> rfl

end

theorem length_close (h : Nat) (hlen : t.owners.length = t.handles.length) :
    (t.close h).owners.length = (t.close h).handles.length := by
  unfold close
  split <;> simp [hlen]

section

variable (t : ServerTable)

theorem entryAt_closeAll (hs : List Nat) (k : Nat) :
    (t.closeAll hs).entryAt k = if k ∈ hs ∧ k ≠ 0 then none else t.entryAt k := by
  induction hs generalizing t with
  | nil => simp [closeAll]
  | cons h hs ih =>
    rw [closeAll, ih, entryAt_close]
    show (if _ then _ else if _ then none else t.entryAt k) = _
    by_cases h0 : k = 0
    · simp [h0]
      intro hh
      exact absurd hh.symm
    · by_cases hk : k = h
      · subst hk
        simp [h0]
      · simp [hk]

theorem ownerAt_closeAll (hs : List Nat) (k : Nat) :
    (t.closeAll hs).ownerAt k = if k ∈ hs then 0 else t.ownerAt k := by
  induction hs generalizing t with
  | nil => simp [closeAll]
  | cons h hs ih =>
    rw [closeAll, ih, ownerAt_close]
    have hset : ({ t with owners := t.owners.set h 0 } : ServerTable).ownerAt k =
        if k = h then 0 else t.ownerAt k := by
      simp only [ownerAt, getD_eq_getElem?_getD, getElem?_set, eq_comm (a := h)]
      split
      · split <;> rfl
      · rfl
    rw [hset]
    by_cases hk : k = h
    all_goals simp [hk]

theorem bindings_closeAll (hs : List Nat) : (t.closeAll hs).bindings = t.bindings := by
  induction hs generalizing t with
  | nil => rfl
  | cons h hs ih =>
    rw [closeAll, ih, bindings_close]

end

theorem length_closeAll (hs : List Nat) (hlen : t.owners.length = t.handles.length) :
    (t.closeAll hs).owners.length = (t.closeAll hs).handles.length := by
  induction hs generalizing t with
  | nil => exact hlen
  | cons h hs ih => exact ih (length_close h (by simpa using hlen))

end ServerTable

namespace Server

variable {B : Type} {α : Type}

def table (s : Server B) : ServerTable := ⟨s.handles, s.owners, s.bindings⟩

/-! ### Verbs that leave the table as it was -/

theorem frames_entry (h : Nat) : Frames table (entry h : Serve B Entry) := frames_ask _

theorem frames_dirAt (h : Nat) : Frames table (dirAt h : Serve B (Nat × DirRights)) := by
  refine (frames_entry h).bind fun e => ?_
  cases e with
  | dir => exact frames_pure _
  | file => exact frames_fail _

theorem frames_fileAt (h : Nat) (needed : UInt64) (refusal : Errno) :
    Frames table (fileAt h needed refusal : Serve B Nat) := by
  refine (frames_entry h).bind fun e => ?_
  cases e with
  | dir => exact frames_fail _
  | file => exact (frames_require _ _).bind fun _ => frames_pure _

theorem frames_nodeAt (h : Nat) (needed : UInt64) (refusal : Errno) :
    Frames table (nodeAt h needed refusal : Serve B Nat) :=
  (frames_entry h).bind fun _ => (frames_require _ _).bind fun _ => frames_pure _

theorem frames_tx (m : Tx B α) : Frames table (tx m) := by
  intro s
  show table (tx m s).2 = table s
  unfold tx
  split <;> rfl

theorem frames_change (m : Tx B α) : Frames table (change m) :=
  Frames.bind (frames_modify fun _ => rfl) fun _ => frames_tx m

theorem frames_changeFile (ptr : Nat) (m : Tx B α) : Frames table (changeFile ptr m) :=
  Frames.bind (frames_modify fun _ => rfl) fun _ => frames_tx m

theorem frames_tick : Frames table (tick : Serve B Nat) :=
  Frames.bind (frames_modify fun _ => rfl) fun _ => frames_get.bind fun _ => frames_pure _

theorem frames_countOpen (ptr : Nat) : Frames table (countOpen ptr : Serve B Unit) :=
  frames_get.bind fun _ => (frames_require _ _).bind fun _ => frames_modify fun _ => rfl

theorem frames_countClose (ptr : Nat) : Frames table (countClose ptr : Serve B Unit) :=
  frames_get.bind fun _ => frames_ite (frames_pure _) <| frames_ite (frames_modify fun _ => rfl) <|
    frames_ite (frames_modify fun _ => rfl) (frames_tx _)

variable [ByteStore B]

theorem frames_lookup (parent : Nat) (name : Name) :
    Frames table (lookup parent name : Serve B (Nat × Kind)) := by
  refine frames_get.bind fun s => ?_
  rcases s.memo.lookup parent name with - | - | found
  · exact (frames_tx _).bind fun _ =>
    Frames.bind (frames_modify fun _ => rfl) fun _ => frames_pure _
  · exact frames_fail _
  · exact frames_pure _

theorem frames_walkSteps (hop : UInt64) (node : Nat) (rights : DirRights) (steps : List Name) :
    Frames table (walkSteps lookup hop node rights steps : Serve B (Nat × DirRights)) := by
  induction steps generalizing node rights with
  | nil => exact frames_pure _
  | cons step rest ih =>
    refine frames_ite (frames_fail _) ((frames_lookup node step).bind fun ⟨child, kind⟩ => ?_)
    dsimp only
    split
    · exact frames_fail _
    · exact frames_ite (frames_fail _) (ih _ _)

theorem frames_walkPrefix (h : Nat) (path : Name) (hop : UInt64) :
    Frames table (walkPrefix h path hop : Serve B (Nat × DirRights × Name)) :=
  (frames_dirAt h).bind fun _ => (frames_lift _).bind fun _ =>
    frames_ite (frames_fail _) ((frames_walkSteps _ _ _ _).bind fun _ => frames_pure _)

theorem frames_childDir (parent : Nat) (rights : DirRights) (name : Name) (needed : UInt64) :
    Frames table (childDir parent rights name needed : Serve B (Nat × DirRights)) := by
  refine (frames_require _ _).bind fun _ =>
    (frames_lookup parent name).bind fun ⟨ptr, kind⟩ => ?_
  dsimp only
  split
  · exact frames_fail _
  · exact frames_pure _

theorem frames_readDir (h cursor room : Nat) :
    Frames table (readDir h cursor room : Serve B (List UInt8)) := by
  refine (frames_dirAt h).bind fun d => (frames_require _ _).bind fun _ =>
    frames_get.bind fun s => ?_
  rcases s.memo.listing d.1 with - | listing
  · exact (frames_tx _).bind fun _ =>
    Frames.bind (frames_modify fun _ => rfl) fun _ => frames_pure _
  · exact frames_pure _

theorem frames_fillFile (ptr : Nat) : Frames table (fillFile ptr : Serve B Unit) := by
  refine frames_get.bind fun s => frames_ite ((frames_tx _).bind fun body => ?_) (frames_pure _)
  cases body with
  | none | some body => exact frames_modify fun _ => rfl

theorem frames_read (h offset len : Nat) :
    Frames table (read h offset len : Serve B (List UInt8)) := by
  refine (frames_fileAt _ _ _).bind fun ptr => (frames_fillFile ptr).bind fun _ =>
    frames_get.bind fun s => ?_
  rcases s.memo.file ptr with - | body
  · exact frames_tx _
  · exact frames_pure _

theorem frames_fstat (h : Nat) : Frames table (fstat h : Serve B Nat) := by
  refine (frames_fileAt _ _ _).bind fun ptr => frames_get.bind fun s => ?_
  rcases s.memo.file ptr with - | body
  · exact (frames_tx _).bind fun _ => frames_pure _
  · exact frames_pure _

theorem frames_write (h offset : Nat) (data : List UInt8) :
    Frames table (write h offset data : Serve B Nat) :=
  (frames_fileAt _ _ _).bind fun _ => frames_tick.bind fun _ => frames_changeFile _ _

theorem frames_truncate (h size : Nat) : Frames table (truncate h size : Serve B Unit) :=
  (frames_fileAt _ _ _).bind fun _ => frames_tick.bind fun _ => frames_changeFile _ _

theorem frames_rename (srcDir : Nat) (src : Name) (dstDir : Nat) (dst : Name) :
    Frames table (rename srcDir src dstDir dst : Serve B Unit) :=
  (frames_lift _).bind fun _ => (frames_lift _).bind fun _ => (frames_dirAt _).bind fun _ =>
    (frames_dirAt _).bind fun _ => (frames_require _ _).bind fun _ => frames_change _

theorem frames_removeName (mode : Kind) (h : Nat) (name : Name) :
    Frames table (removeName mode h name : Serve B Unit) :=
  (frames_lift _).bind fun _ => (frames_dirAt _).bind fun _ => (frames_require _ _).bind fun _ =>
    frames_change _

theorem frames_mtime (h : Nat) (name : Name) : Frames table (mtime h name : Serve B Nat) :=
  (frames_lift _).bind fun _ => (frames_dirAt _).bind fun _ => (frames_require _ _).bind fun _ =>
    (frames_tx _).bind fun _ => frames_pure _

theorem frames_setMtimeNow (h : Nat) (name : Name) :
    Frames table (setMtimeNow h name : Serve B Unit) :=
  (frames_lift _).bind fun _ => (frames_dirAt _).bind fun _ => (frames_require _ _).bind fun _ =>
    frames_tick.bind fun _ => frames_change _

theorem frames_setMtimeAt (h : Nat) (name : Name) (seconds : Nat) :
    Frames table (setMtimeAt h name seconds : Serve B Unit) :=
  (frames_lift _).bind fun _ => (frames_dirAt _).bind fun _ => (frames_require _ _).bind fun _ =>
    frames_change _

theorem frames_getXattr (h : Nat) (name : Name) (room : Nat) :
    Frames table (getXattr h name room : Serve B (Nat × List UInt8)) :=
  (frames_require _ _).bind fun _ => (frames_nodeAt _ _ _).bind fun _ => frames_tx _

theorem frames_setXattr (h : Nat) (name : Name) (kind : Nat) (value : List UInt8) :
    Frames table (setXattr h name kind value : Serve B Unit) :=
  (frames_require _ _).bind fun _ => (frames_require _ _).bind fun _ =>
    (frames_nodeAt _ _ _).bind fun _ => frames_tick.bind fun _ => frames_change _

theorem frames_listXattr (h room : Nat) : Frames table (listXattr h room : Serve B (List UInt8)) :=
  (frames_nodeAt _ _ _).bind fun _ => frames_tx _

theorem frames_removeXattr (h : Nat) (name : Name) :
    Frames table (removeXattr h name : Serve B Unit) :=
  (frames_require _ _).bind fun _ => (frames_nodeAt _ _ _).bind fun _ =>
    frames_tick.bind fun _ => frames_change _

/-! ### Verbs that mint a handle -/

/-- `m` fails and leaves the table, or puts one entry in its first free slot and answers the
slot. -/
def Mints (m : Serve B Nat) : Prop :=
  ∀ s, (∃ e, (run m s).1 = .error e ∧ (run m s).2.table = s.table) ∨
    ∃ e, (run m s).1 = .ok s.table.freeSlot ∧ (run m s).2.table = s.table.install e

omit [ByteStore B] in
theorem mints_install (e : Entry) : Mints (install e : Serve B Nat) := by
  refine fun s => .inr ⟨e, rfl, ?_⟩
  show table (if s.freeSlot < s.handles.length then _ else _) =
    if s.freeSlot < s.handles.length then _ else _
  by_cases hi : s.freeSlot < s.handles.length
  · rw [if_pos hi, if_pos hi]
    rfl
  · rw [if_neg hi, if_neg hi]
    rfl

omit [ByteStore B] in
theorem mints_fail (e : Errno) : Mints (fail e : Serve B Nat) := fun _ => .inl ⟨e, rfl, rfl⟩

omit [ByteStore B] in
theorem mints_bind {f : α → Serve B Nat} (hm : Frames table m)
    (hf : ∀ a, Mints (f a)) : Mints (m >>= f) := by
  intro s
  have ht := hm s
  rw [run_bind]
  rcases h : run m s with ⟨e | a, s'⟩
  · rw [h] at ht
    exact .inl ⟨e, rfl, ht⟩
  · rw [h] at ht
    rw [← ht]
    exact hf a s'

theorem mints_openFilePath (h : Nat) (name : Name) (requested : UInt64) :
    Mints (openFilePath h name requested : Serve B Nat) := by
  refine mints_bind (frames_walkPrefix h name requested) fun ⟨parent, rights, last⟩ =>
    mints_bind (frames_require _ _) fun _ =>
      mints_bind (frames_lookup parent last) fun ⟨ptr, kind⟩ =>
        mints_bind (frames_require _ _) fun _ => ?_
  rcases landing kind false with - | r
  · exact mints_bind (frames_countOpen ptr) fun _ => mints_install _
  · exact mints_fail _

theorem mints_openDir (h : Nat) (name : Name) (requested : UInt64) :
    Mints (openDir h name requested : Serve B Nat) :=
  mints_bind (frames_walkPrefix h name requested) fun _ =>
    mints_bind (frames_childDir _ _ _ _) fun _ =>
      mints_bind (frames_require _ _) fun _ => mints_install _

theorem mints_makeDir (h : Nat) (name : Name) (requested : UInt64) :
    Mints (makeDir h name requested : Serve B Nat) :=
  mints_bind (frames_lift _) fun _ => mints_bind (frames_dirAt h) fun _ =>
    mints_bind (frames_require _ _) fun _ => mints_bind (frames_require _ _) fun _ =>
      mints_bind (frames_require _ _) fun _ => mints_bind frames_tick fun _ =>
        mints_bind (frames_change _) fun _ => mints_install _

theorem mints_createFileAt (h : Nat) (name : Name) : Mints (createFileAt h name : Serve B Nat) :=
  mints_bind (frames_lift _) fun _ => mints_bind (frames_dirAt h) fun _ =>
    mints_bind (frames_require _ _) fun _ => mints_bind frames_tick fun _ =>
      mints_bind (frames_change _) fun _ => mints_install _

/-! ### Verbs that close -/

omit [ByteStore B]

variable {s : Server B}

theorem run_entry (he : s.entryAt h = some e) : run (entry h) s = (.ok e, s) := by
  rw [entry, run_ask, he]

theorem run_entry_none (he : s.entryAt h = none) : run (entry h) s = (.error .ebadf, s) := by
  rw [entry, run_ask, he]

theorem table_close (h : Nat) (s : Server B) : (run (close h) s).2.table = s.table.close h := by
  by_cases h0 : h = 0
  · subst h0
    rfl
  have hreq : run (require (decide (h ≠ 0)) Errno.einval) s = (.ok ⟨⟩, s) := by
    simp [h0]
  rcases he : s.entryAt h with - | e
  · have hnone : s.table.entryAt h = none := he
    rw [close, run_bind_ok hreq, run_bind_error (run_entry_none he), ServerTable.close,
      if_pos (.inr hnone)]
  · have hsome : s.table.entryAt h = some e := he
    rw [close, run_bind_ok hreq, run_bind_ok (run_entry he),
      ServerTable.close, if_neg (by rw [hsome]; simp [h0])]
    cases e with
    | dir => rfl
    | file ptr rights => exact frames_countClose ptr _

theorem table_closeMinted (hs : List Nat) (s : Server B) :
    (run (closeMinted hs) s).2.table = s.table.closeAll hs := by
  induction hs generalizing s with
  | nil => rfl
  | cons h hs ih =>
    rw [closeMinted, run_bind_ok (run_modify _ _), run_bind_ok (run_attempt _ _), ih, table_close]
    rfl

end Server

/-! ### One operation -/

/-- What an operation answering `a` may do to the table. -/
inductive TableStep (t : ServerTable) : ServerOp → Except Errno ServerAnswer → ServerTable → Prop
  | same {op : ServerOp} {a : Except Errno ServerAnswer} (hhandle : ∀ h, a ≠ .ok (.handle h))
      (hbind : ∀ c h b, op = .bind c h b → ∃ e, a = .error e)
      (hunbind : ∀ c b, op = .unbind c b → ∃ e, a = .error e) : TableStep t op a t
  | mint {op : ServerOp} (e : Entry) (hbind : ∀ c h b, op ≠ .bind c h b)
      (hunbind : ∀ c b, op ≠ .unbind c b) (hclose : ∀ h, op ≠ .close h) :
      TableStep t op (.ok (.handle t.freeSlot)) (t.install e)
  | close (h : Nat) {a : Except Errno ServerAnswer} (hhandle : ∀ k, a ≠ .ok (.handle k)) :
      TableStep t (.close h) a (t.close h)
  | claim (h badge : Nat) : TableStep t (.claim h badge) (.ok .done) (t.claim h badge)
  | bind (caller h badge : Nat) {bindings : Bindings clientWindows} {ptr : Nat} {rights : DirRights}
      (hdir : t.entryAt h = some (.dir ptr rights))
      (hbind : t.bindings.bind caller badge h = .ok bindings) :
      TableStep t (.bind caller h badge) (.ok .done) { t with bindings := bindings }
  | unbind (caller badge : Nat) {root : Nat} {bindings : Bindings clientWindows} {minted : List Nat}
      (hunbind : t.bindings.unbind caller badge = .ok (root, bindings))
      (hminted : ∀ h, h ∈ minted ↔
        h < t.owners.length ∧ t.ownerAt h = badge ∧ t.entryAt h ≠ none) :
      TableStep t (.unbind caller badge) (.ok .done)
        ((ServerTable.closeAll { t with bindings := bindings } minted).close root)

namespace Server

variable {B : Type} {α : Type}
variable {op : ServerOp}

theorem tableStep_of_frames {m : Serve B ServerAnswer} (hm : Frames table m)
    (s : Server B) (hhandle : ∀ h, (run m s).1 ≠ .ok (.handle h))
    (hbind : ∀ c h b, op ≠ .bind c h b) (hunbind : ∀ c b, op ≠ .unbind c b) :
    TableStep s.table op (run m s).1 (run m s).2.table := by
  rw [hm s]
  exact .same hhandle (fun c h b h' => absurd h' (hbind c h b))
    fun c b h' => absurd h' (hunbind c b)

theorem tableStep_map (f : α → ServerAnswer)
    (hm : Frames table m) (s : Server B) (hf : ∀ a h, f a ≠ .handle h)
    (hbind : ∀ c h b, op ≠ .bind c h b) (hunbind : ∀ c b, op ≠ .unbind c b) :
    TableStep s.table op (run (f <$> m) s).1 (run (f <$> m) s).2.table := by
  refine tableStep_of_frames (hm.map f) s (fun h hh => ?_) hbind hunbind
  rw [run_map] at hh
  rcases hr : (run m s).1 with e | a
  · rw [hr] at hh
    cases hh
  · rw [hr] at hh
    exact hf a h (Except.ok.inj hh)

theorem run_andDone (m : Serve B Unit) (s : Server B) :
    run (andDone m) s = ((run m s).1.map fun _ => .done, (run m s).2) := by
  rw [andDone, run_bind]
  rcases run m s with ⟨e | a, s'⟩
  · rfl
  · rfl

theorem andDone_ne_handle (m : Serve B Unit) (s : Server B) (h : Nat) :
    (run (andDone m) s).1 ≠ .ok (.handle h) := by
  rw [run_andDone]
  rcases run m s with ⟨e | a, s'⟩
  all_goals
    intro hh
    cases hh

theorem tableStep_andDone {m : Serve B Unit} (hm : Frames table m) (s : Server B)
    (hbind : ∀ c h b, op ≠ .bind c h b) (hunbind : ∀ c b, op ≠ .unbind c b) :
    TableStep s.table op (run (andDone m) s).1 (run (andDone m) s).2.table :=
  tableStep_of_frames (hm.bind fun _ => frames_pure _) s (andDone_ne_handle m s) hbind hunbind

theorem tableStep_mints {m : Serve B Nat} (hm : Mints m) (s : Server B)
    (hbind : ∀ c h b, op ≠ .bind c h b) (hunbind : ∀ c b, op ≠ .unbind c b)
    (hclose : ∀ h, op ≠ .close h) :
    TableStep s.table op (run (ServerAnswer.handle <$> m) s).1
      (run (ServerAnswer.handle <$> m) s).2.table := by
  rw [run_map]
  rcases hm s with ⟨e, hr, ht⟩ | ⟨e, hr, ht⟩
  · simp only [hr, ht]
    exact .same (by simp [Except.map]) (fun c h b h' => absurd h' (hbind c h b))
      fun c b h' => absurd h' (hunbind c b)
  · simp only [hr, ht]
    exact .mint e hbind hunbind hclose

theorem tableStep_bind (caller h badge : Nat) (s : Server B) :
    TableStep s.table (.bind caller h badge) (run (andDone (bind caller h badge)) s).1
      (run (andDone (bind caller h badge)) s).2.table := by
  have hfail : ∀ (e : Errno) (s' : Server B), run (bind caller h badge) s = (.error e, s') →
      s'.table = s.table → TableStep s.table (.bind caller h badge)
        (run (andDone (bind caller h badge)) s).1
        (run (andDone (bind caller h badge)) s).2.table := by
    intro e s' hr ht
    simp only [run_andDone, hr, ht]
    exact .same (by simp [Except.map]) (fun _ _ _ _ => ⟨e, rfl⟩) fun _ _ _ => ⟨e, rfl⟩
  rcases he : s.entryAt h with - | ⟨ptr, rights⟩ | ⟨ptr, rights⟩
  · exact hfail .ebadf s (run_bind_error (run_bind_error (run_entry_none he) _) _) rfl
  · have hdir : run (dirAt h) s = (.ok (ptr, rights), s) := by
      rw [dirAt, run_bind_ok (run_entry he)]
      rfl
    rcases hb : s.bindings.bind caller badge h with r | bindings
    · refine hfail r.errno s ?_ rfl
      rw [bind, run_bind_ok hdir, run_bind_ok (run_get s)]
      simp only [hb]
      rfl
    · have hrun : run (bind caller h badge) s = (.ok (), { s with bindings := bindings }) := by
        rw [bind, run_bind_ok hdir, run_bind_ok (run_get s)]
        simp only [hb]
        rfl
      simp only [run_andDone, hrun]
      exact .bind caller h badge he hb
  · refine hfail .enotdir s (run_bind_error ?_ _) rfl
    rw [dirAt, run_bind_ok (run_entry he)]
    rfl

theorem mem_mintedBy (s : Server B) (badge h : Nat) : h ∈ s.mintedBy badge ↔
      h < s.table.owners.length ∧ s.table.ownerAt h = badge ∧ s.table.entryAt h ≠ none := by
  have howner : s.owner h = some badge ↔ s.table.ownerAt h = badge ∧ s.table.entryAt h ≠ none := by
    unfold owner
    rcases he : s.entryAt h with - | e
    · have hnone : s.table.entryAt h = none := he
      simp [hnone]
    · have hsome : s.table.entryAt h = some e := he
      rw [hsome]
      simp [ServerTable.ownerAt, table]
  rw [mintedBy, mem_filter, mem_range, decide_eq_true_iff, howner]
  rfl

theorem table_claim (h badge : Nat) (s : Server B) :
    (run (claim h badge) s).2.table = s.table.claim h badge := by
  have hb : s.table.bindings.of badge = s.bindings.of badge := rfl
  rw [claim, run_modify, ServerTable.claim, hb]
  rcases s.bindings.of badge with - | - | -
  all_goals rfl

theorem run_closeMinted (hs : List Nat) (s : Server B) :
    run (closeMinted hs) s = (.ok (), (run (closeMinted hs) s).2) := by
  induction hs generalizing s with
  | nil => rfl
  | cons h hs ih =>
    rw [closeMinted, run_bind_ok (run_modify _ _), run_bind_ok (run_attempt _ _), ih]

theorem tableStep_unbind (caller badge : Nat) (s : Server B) :
    TableStep s.table (.unbind caller badge) (run (andDone (unbind caller badge)) s).1
      (run (andDone (unbind caller badge)) s).2.table := by
  rcases hu : s.bindings.unbind caller badge with r | ⟨root, bindings⟩
  · have hrun : run (unbind caller badge) s = (.error r.errno, s) := by
      rw [unbind, run_bind_ok (run_get s)]
      simp only [hu]
      rfl
    simp only [run_andDone, hrun]
    exact .same (by simp [Except.map]) (fun _ _ _ _ => ⟨_, rfl⟩) fun _ _ _ => ⟨_, rfl⟩
  · have hrun : (run (unbind caller badge) s).1 = .ok () ∧ (run (unbind caller badge) s).2.table =
        (ServerTable.closeAll { s.table with bindings := bindings } (s.mintedBy badge)).close
          root := by
      rw [unbind, run_bind_ok (run_get s)]
      simp only [hu]
      have hmod : run (modify fun s : Server B => { s with bindings := bindings } :
          Serve B Unit) s = (.ok (), { s with bindings := bindings }) := run_modify _ _
      have hminted := run_closeMinted (s.mintedBy badge) { s with bindings := bindings }
      have ht := table_closeMinted (s.mintedBy badge) { s with bindings := bindings }
      rw [run_bind_ok hmod, run_bind_ok hminted]
      by_cases h0 : root = 0
      · rw [if_neg (by simp [h0])]
        refine ⟨rfl, ?_⟩
        rw [ServerTable.close, if_pos (.inl h0)]
        exact ht
      · rw [if_pos h0, run_bind_ok (run_attempt _ _)]
        refine ⟨rfl, ?_⟩
        rw [run_pure, table_close, ht]
        rfl
    have hr : (run (andDone (unbind caller badge)) s).1 = .ok .done := by
      rw [run_andDone, hrun.1]
      rfl
    have hstep := TableStep.unbind (t := s.table) caller badge hu fun h => mem_mintedBy s badge h
    rwa [hr, run_andDone, hrun.2]

variable [ByteStore B]

theorem perform_table (op : ServerOp) (s : Server B) :
    TableStep s.table op (run (perform op) s).1 (run (perform op) s).2.table := by
  cases op with
  | openFilePath h name requested =>
    exact tableStep_mints (mints_openFilePath h name requested) s (by simp) (by simp) (by simp)
  | openDir h name requested =>
    exact tableStep_mints (mints_openDir h name requested) s (by simp) (by simp) (by simp)
  | makeDir h name requested =>
    exact tableStep_mints (mints_makeDir h name requested) s (by simp) (by simp) (by simp)
  | createFileAt h name => exact tableStep_mints (mints_createFileAt h name) s (by simp) (by simp) (by simp)
  | readDir h cursor room =>
    exact tableStep_map _ (frames_readDir h cursor room) s (by simp) (by simp) (by simp)
  | read h offset len => exact tableStep_map _ (frames_read h offset len) s (by simp) (by simp) (by simp)
  | write h offset data => exact tableStep_map _ (frames_write h offset data) s (by simp) (by simp) (by simp)
  | fstat h => exact tableStep_map _ (frames_fstat h) s (by simp) (by simp) (by simp)
  | truncate h size => exact tableStep_andDone (frames_truncate h size) s (by simp) (by simp)
  | rename srcDir src dstDir dst =>
    exact tableStep_andDone (frames_rename srcDir src dstDir dst) s (by simp) (by simp)
  | unlink h name => exact tableStep_andDone (frames_removeName _ h name) s (by simp) (by simp)
  | rmdir h name => exact tableStep_andDone (frames_removeName _ h name) s (by simp) (by simp)
  | mtime h name => exact tableStep_map _ (frames_mtime h name) s (by simp) (by simp) (by simp)
  | setMtimeNow h name => exact tableStep_andDone (frames_setMtimeNow h name) s (by simp) (by simp)
  | setMtimeAt h name seconds =>
    exact tableStep_andDone (frames_setMtimeAt h name seconds) s (by simp) (by simp)
  | getXattr h name room => exact tableStep_map _ (frames_getXattr h name room) s (by simp) (by simp) (by simp)
  | setXattr h name kind value =>
    exact tableStep_andDone (frames_setXattr h name kind value) s (by simp) (by simp)
  | listXattr h room => exact tableStep_map _ (frames_listXattr h room) s (by simp) (by simp) (by simp)
  | removeXattr h name => exact tableStep_andDone (frames_removeXattr h name) s (by simp) (by simp)
  | close h =>
    have ht : (run (perform (.close h)) s).2.table = s.table.close h := by
      rw [perform, run_andDone, ← table_close]
    rw [ht]
    exact .close h (andDone_ne_handle _ s)
  | statfs h =>
    exact tableStep_andDone ((frames_entry h).bind fun _ => frames_pure _) s (by simp) (by simp)
  | syncPermitted h =>
    exact tableStep_andDone ((frames_nodeAt h _ _).bind fun _ => frames_pure _) s (by simp) (by simp)
  | claim h badge =>
    have ht : (run (perform (.claim h badge)) s).2.table = s.table.claim h badge := by
      rw [perform, run_andDone, table_claim]
    rw [ht]
    exact .claim h badge
  | bind caller h badge => exact tableStep_bind caller h badge s
  | unbind caller badge => exact tableStep_unbind caller badge s

end Server

end Nife
