/-
A replaced line editor: the state of the line discipline and of the raw queue is written into a page
and absorbed by a fresh pair.

Two engines that show the same editor cannot be told apart (`Twin`), and what is written is all of the
editor but the parser, the browsing, the last completed line and the memory of a carriage return.  The
first three are left out on purpose, between keys nothing depends on them.  The fourth does matter: a
line feed after a carriage return is swallowed, and after a replacement it completes an empty line
(`handoff_forgets_cr`).  Otherwise the pair carries on as if nothing had happened
(`handoff_carries_on_iff`).
-/
import Nife.EditorRuns

namespace Nife.LineEditor

open Slices Buffers List Fallible LineDisc

/-! ### The raw queue -/

def rawQueueMax : Nat := 64

/-- A queue as it is packed. -/
structure RawQueue where
  buf : Bytes
  (head len : Nat)
  deriving DecidableEq, Repr

namespace RawQueue

def new : RawQueue := ⟨List.replicate rawQueueMax 0, 0, 0⟩

section

variable (q : RawQueue)

/-- One byte at the end. -/
def push1 (b : UInt8) : Run Unit RawQueue := do
  let i := (q.head + q.len) % rawQueueMax
  let buf ← copyFrom q.buf i (i + 1) [b]
  .ok { q with buf, len := q.len + 1 }

/-- As many bytes as there is room for, and how many these were. -/
def push (bytes : Bytes) : Run Unit (RawQueue × Nat) := do
  let room ← less rawQueueMax q.len
  let n := min bytes.length room
  let q ← (bytes.take n).foldlM push1 q
  .ok (q, n)

/-- The oldest `n` bytes. -/
def peek (n : Nat) : Run Unit Bytes :=
  (List.range n).mapM fun i => byteAt q.buf ((q.head + i) % rawQueueMax)

/-- Up to eight bytes, the first lowest in a word. -/
def pop8 : Run Unit (RawQueue × Option (Nat × Nat)) :=
  if q.len = 0 then .ok (q, none)
  else do
    let n := min q.len 8
    let bytes ← q.peek n
    .ok ({ q with head := (q.head + n) % rawQueueMax, len := q.len - n }, some (n, le bytes))

end

end RawQueue

/-! ### The blob -/

def magicWord : Nat := 0x5444454c

def layout : Nat := 1

/-- Where the packing stands. -/
structure Writer where
  buf : Bytes
  pos : Nat
  full : Bool

namespace Writer

def bytes (w : Writer) (b : Bytes) : Run Unit Writer :=
  if w.buf.length < w.pos + b.length then .ok { w with full := true }
  else do
    let buf ← copyFrom w.buf w.pos (w.pos + b.length) b
    .ok { w with buf, pos := w.pos + b.length }

def u32 (w : Writer) (v : Nat) : Run Unit Writer := w.bytes (bytesOf 4 (v % 2 ^ 32))

def field (w : Writer) (b : Bytes) : Run Unit Writer := do
  let w ← w.u32 b.length
  w.bytes b

def new (buf : Bytes) : Run Unit Writer := do
  let w ← u32 ⟨buf, 0, false⟩ magicWord
  w.u32 layout

def finish (w : Writer) : Option Nat := if w.full then none else some w.pos

end Writer

/-- Where the unpacking stands. -/
structure Reader where
  buf : Bytes
  pos : Nat

namespace Reader

def bytes (r : Reader) (n : Nat) : Run Unit (Bytes × Reader) :=
  if r.pos + n ≤ r.buf.length then .ok (part r.buf r.pos n, { r with pos := r.pos + n })
  else .error (.refused ())

def u32 (r : Reader) : Run Unit (Nat × Reader) := do
  let (b, r) ← r.bytes 4
  .ok (le b, r)

/-- A field into an array: its length and the array. -/
def field (r : Reader) (out : Bytes) : Run Unit (Nat × Bytes × Reader) := do
  let (n, r) ← r.u32
  if out.length < n then .error (.refused ())
  else do
    let (src, r) ← r.bytes n
    let out ← copyFrom out 0 n src
    .ok (n, out, r)

/-- Open a blob. -/
def new (buf : Bytes) : Run Unit Reader := do
  let (word, r) ← u32 ⟨buf, 0⟩
  if word ≠ magicWord then .error (.refused ())
  else do
    let (found, r) ← r.u32
    if found ≠ layout then .error (.refused ()) else .ok r

end Reader

namespace LineDisc

def save (d : LineDisc) (w : Writer) : Run Unit Writer := do
  let line ← slice d.buf 0 d.len
  let w ← w.field line
  let w ← w.u32 d.cur
  let killed ← slice d.kill 0 d.killLen
  let w ← w.field killed
  let prompt ← slice d.prompt 0 d.promptLen
  let w ← w.field prompt
  let w ← w.u32 d.histCount
  let w ← w.u32 d.histNext
  d.hist.foldlM (fun w entry => do
    let line ← slice entry.1 0 entry.2
    w.field line) w

/-- The entries of the history, each into a new array. -/
def restoreHist (r : Reader) : List (Bytes × Nat) → Run Unit (List (Bytes × Nat) × Reader)
  | [] => .ok ([], r)
  | _ :: rest => do
      let (n, line, r) ← r.field (List.replicate lineMax 0)
      let (entries, r) ← restoreHist r rest
      .ok ((line, n) :: entries, r)

def restore (d : LineDisc) (r : Reader) : Run Unit (LineDisc × Reader) := do
  let (len, buf, r) ← r.field d.buf
  let (cur, r) ← r.u32
  if len < cur then .error (.refused ())
  else do
    let (killLen, kill, r) ← r.field d.kill
    let (promptLen, prompt, r) ← r.field d.prompt
    let (count, r) ← r.u32
    let (next, r) ← r.u32
    let (hist, r) ← restoreHist r d.hist
    .ok ({ d with
      buf, len, cur, kill, killLen, prompt, promptLen, hist
      histCount := min count histMax
      histNext := next % histMax
      browse := none }, r)

end LineDisc

namespace RawQueue

def save (q : RawQueue) (w : Writer) : Run Unit Writer := do
  let unread ← q.peek q.len
  w.field unread

def restore (r : Reader) : Run Unit (RawQueue × Reader) := do
  let (n, buf, r) ← r.field (List.replicate rawQueueMax 0)
  let unread ← slice buf 0 n
  let (q, _) ← new.push unread
  .ok (q, r)

end RawQueue

/-- Write both into a page: the page, and how much of it was written if all of it fitted. -/
def saveBoth (page : Bytes) (d : LineDisc) (q : RawQueue) : Run Unit (Bytes × Option Nat) := do
  let w ← Writer.new page
  let w ← d.save w
  let w ← q.save w
  .ok (w.buf, w.finish)

/-- Absorb both out of a page into fresh instances. -/
def absorb (page : Bytes) : Run Unit (LineDisc × RawQueue) := do
  let r ← Reader.new page
  let (d, r) ← LineDisc.new.restore r
  let (q, _) ← RawQueue.restore r
  .ok (d, q)

/-! ### Calls -/

/-- What can be asked of the pair. -/
inductive Op
  | feed (b : UInt8)
  | startLine (prompt : Bytes)
  | resumeLine (prompt : Bytes)
  | repaint
  | insertText (text : Bytes)
  | abandon | pending
  | push (bytes : Bytes)
  | pop8 | isEmpty

/-- What a call gives. -/
inductive Out
  | fed (echo : Bytes) (seen : Seen)
  | painted (echo : Bytes)
  | silent
  | pending (text : Bytes) (cur : Nat)
  | pushed (n : Nat)
  | popped (bytes : Option (Nat × Nat))
  | empty (yes : Bool)
  deriving DecidableEq

def Op.run (ar : Arith) (d : LineDisc) (q : RawQueue) : Op → Run Unit ((LineDisc × RawQueue) × Out)
  | .feed b => do
      let (d, echo, event) ← d.feed ar b
      .ok ((d, q), .fed echo (event, if event = .line then some d.line else none))
  | .startLine prompt => do
      let (d, echo) ← d.startLine prompt
      .ok ((d, q), .painted echo)
  | .resumeLine prompt => do
      let d ← d.resumeLine prompt
      .ok ((d, q), .silent)
  | .repaint => do
      let echo ← d.repaint
      .ok ((d, q), .painted echo)
  | .insertText text => do
      let (d, echo) ← d.insertText text
      .ok ((d, q), .painted echo)
  | .abandon => .ok ((d.abandon, q), .silent)
  | .pending => do
      let text ← slice d.buf 0 d.len
      .ok ((d, q), .pending text d.cur)
  | .push bytes => do
      let (q, n) ← q.push bytes
      .ok ((d, q), .pushed n)
  | .pop8 => do
      let (q, bytes) ← q.pop8
      .ok ((d, q), .popped bytes)
  | .isEmpty => .ok ((d, q), .empty (q.len = 0))

def operate (ar : Arith) (d : LineDisc) (q : RawQueue) :
    List Op → Run Unit ((LineDisc × RawQueue) × List Out)
  | [] => .ok ((d, q), [])
  | op :: ops => do
      let (s, out) ← op.run ar d q
      let (last, outs) ← operate ar s.1 s.2 ops
      .ok (last, out :: outs)

/-! ### Two engines for one editor -/

namespace Editor

/-- The same with another line completed before. -/
def carry (x : Bytes) (y : Editor × Bytes) : Editor × Bytes := ({ y.1 with done := x }, y.2)

variable {e : Editor} (x : Bytes)

theorem insert_carry (b : UInt8) : { e with done := x }.insert b = carry x (e.insert b) :=
  (apply_ite (carry x) (lineMax ≤ e.text.length) (e, [7]) (e.put [b])).symm

theorem insertText_carry (t : Bytes) : { e with done := x }.insertText t = carry x (e.insertText t) := by
  induction t generalizing e with
  | nil => rfl
  | cons b t ih =>
    simp only [insertText, insert_carry]
    split
    · simp only [carry, ih]
    · exact ih

theorem cutFrom_carry (a : Nat) : { e with done := x }.cutFrom a = carry x (e.cutFrom a) := by
  simp only [cutFrom]
  split <;> rfl

theorem killFrom_carry (a : Nat) : { e with done := x }.killFrom a = carry x (e.killFrom a) :=
  cutFrom_carry (e := { e with killed := e.left.drop a }) x a

theorem yank_carry : { e with done := x }.yank = carry x e.yank :=
  (apply_ite (carry x) (e.killed.take (lineMax - e.text.length) = [])
    (e, if e.killed = [] then [] else [7]) (e.put (e.killed.take (lineMax - e.text.length)))).symm

theorem press_carry (key : Key) : { e with done := x }.press key = carry x (e.press key) := by
  cases key with
  | left =>
    simp only [press, goLeft]
    split <;> rfl
  | right =>
    simp only [press, goRight]
    split <;> rfl
  | older =>
    simp only [press, older]
    split
    all_goals split <;> rfl
  | newer =>
    simp only [press, newer]
    split
    · rfl
    · split <;> rfl
  | home | stop => rfl
  | delete =>
    simp only [press, deleteAt]
    split <;> rfl

/-- The same for an output with an event; a completed line is the new one. -/
def carryEvent (x : Bytes) (y : Editor × Bytes × Event) : Editor × Bytes × Event :=
  ({ y.1 with done := if y.2.2 = .line then y.1.done else x }, y.2)

theorem ite_carry {c : Prop} [Decidable c] {y y' z z' : Editor × Bytes × Event}
    (hy : z = carryEvent x y) (hy' : z' = carryEvent x y') :
    (if c then z else z') = carryEvent x (if c then y else y') := by
  split
  · exact hy
  · exact hy'

theorem quiet_carry {y z : Editor × Bytes} (h : z = carry x y) : quiet z = carryEvent x (quiet y) := by
  rw [h]
  rfl

theorem typed_carry (b : UInt8) : { e with done := x }.typed b = carryEvent x (e.typed b) := by
  rw [typed]
  refine ite_carry x rfl <| ite_carry x rfl <| ite_carry x rfl <| ite_carry x rfl <|
    ite_carry x ?_ <| ite_carry x rfl <| ite_carry x rfl <|
    ite_carry x (quiet_carry x (press_carry x .left)) <|
    ite_carry x (quiet_carry x (press_carry x .right)) <| ite_carry x rfl <|
    ite_carry x (quiet_carry x (killFrom_carry x 0)) <|
    ite_carry x (quiet_carry x (killFrom_carry x e.wordStart)) <|
    ite_carry x (quiet_carry x (yank_carry x)) <| ite_carry x rfl <|
    ite_carry x (quiet_carry x (cutFrom_carry x _)) <|
    ite_carry x (quiet_carry x (insert_carry x b)) rfl
  exact ite_carry x rfl (quiet_carry x (press_carry x .delete))

theorem take_carry (b : UInt8) (decoded : Decoded) :
    { e with done := x }.take b decoded = carryEvent x (e.take b decoded) := by
  cases decoded with
  | plain => exact typed_carry x b
  | more next => rfl
  | final p =>
    simp only [take]
    cases csiFinal b p with
    | none => rfl
    | some key => exact quiet_carry x (press_carry (e := { e with esc := .idle }) x key)

theorem feed_carry (ar : Arith) (b : UInt8) :
    { e with done := x }.feed ar b = (e.feed ar b).map (carryEvent x) := by
  simp only [feed]
  split
  · rfl
  · cases escape ar e.esc b with
    | error stop => rfl
    | ok decoded => exact congrArg Except.ok (take_carry (e := { e with wasCr := false }) x b decoded)

end Editor

/-- Both engines show one editor, but for the line that was completed last. -/
def Twin (d d' : LineDisc) : Prop := ∃ e x, Shows d e ∧ Shows d' { e with done := x }

/-- The ring of the raw queue holds these bytes, the oldest first. -/
structure Queued (q : RawQueue) (unread : Bytes) : Prop where
  size : q.buf.length = 64
  inside : q.head < 64
  len : q.len = unread.length
  le : unread.length ≤ 64
  held : ∀ i < unread.length, q.buf[(q.head + i) % 64]? = unread[i]?

namespace Queued

variable {q : RawQueue} {unread : Bytes}

theorem new : Queued .new [] where
  size := length_replicate
  inside := by decide
  len := rfl
  le := by decide
  held := fun i hi => absurd hi (Nat.not_lt_zero i)

section

variable (h : Queued q unread)
include h

theorem push1 (hroom : unread.length < 64) (b : UInt8) :
    ∃ q', q.push1 b = .ok q' ∧ Queued q' (unread ++ [b]) := by
  have hi : (q.head + q.len) % rawQueueMax < q.buf.length := by
    rw [h.size]
    exact Nat.mod_lt _ (by decide)
  obtain ⟨i, hidx⟩ : ∃ i, (q.head + q.len) % rawQueueMax = i := ⟨_, rfl⟩
  rw [hidx] at hi
  have hcopy : (copyFrom q.buf i (i + 1) [b] : Run Unit Bytes) = .ok (q.buf.set i b) := by
    rw [copyFrom, if_pos ⟨Nat.le_succ i, hi, by simp⟩, set_eq_take_append_cons_drop, if_pos hi]
    simp
  refine ⟨{ q with buf := q.buf.set i b, len := q.len + 1 }, ?_, ?_⟩
  · simp only [RawQueue.push1, hidx, hcopy]
    rfl
  · have hsize := h.size
    have hlen := h.len
    have hmod : i = (q.head + unread.length) % 64 := by rw [← hidx, hlen, rawQueueMax]
    refine ⟨by simp [h.size], h.inside, by simp [hlen], by simp; omega, fun j hj => ?_⟩
    rw [length_append, length_singleton] at hj
    dsimp only
    by_cases hlast : j = unread.length
    · subst hlast
      rw [← hmod, getElem?_set_self (by omega), getElem?_append_right (le_refl _), Nat.sub_self]
      rfl
    · rw [getElem?_set_ne (by omega), h.held j (by omega), getElem?_append_left (by omega)]

theorem pushAll (bytes : Bytes) (hroom : unread.length + bytes.length ≤ 64) :
    ∃ q', bytes.foldlM RawQueue.push1 q = .ok q' ∧ Queued q' (unread ++ bytes) := by
  induction bytes generalizing q unread with
  | nil => exact ⟨q, rfl, by rwa [append_nil]⟩
  | cons b bytes ih =>
    rw [length_cons] at hroom
    obtain ⟨q₁, hpush, h₁⟩ := h.push1 (by omega) b
    obtain ⟨q₂, hrest, h₂⟩ := ih h₁ (by simp; omega)
    refine ⟨q₂, bind_eq_ok.mpr ⟨q₁, hpush, hrest⟩, ?_⟩
    rwa [append_assoc, singleton_append] at h₂

theorem push (bytes : Bytes) :
    ∃ q', q.push bytes = .ok (q', min bytes.length (64 - unread.length)) ∧
      Queued q' (unread ++ bytes.take (min bytes.length (64 - unread.length))) := by
  have hlen := h.len
  have hle := h.le
  obtain ⟨q', hpush, hq'⟩ := h.pushAll (bytes.take (min bytes.length (64 - unread.length)))
    (by rw [length_take]; omega)
  refine ⟨q', ?_, hq'⟩
  refine bind_eq_ok.mpr ⟨_, less_ok (by rw [hlen]; exact hle), ?_⟩
  rw [hlen]
  exact bind_eq_ok.mpr ⟨q', hpush, rfl⟩

theorem peek {n : Nat} (hn : n ≤ unread.length) : q.peek n = .ok (unread.take n) := by
  induction n with
  | zero => rfl
  | succ n ih =>
    have hbyte : (byteAt q.buf ((q.head + n) % rawQueueMax) : Run Unit UInt8) = .ok unread[n] := by
      rw [byteAt, rawQueueMax, h.held n (by omega), getElem?_eq_getElem (by omega)]
    have hfirst := ih (by omega)
    rw [RawQueue.peek] at hfirst ⊢
    rw [range_succ, mapM_append, hfirst, mapM_cons, hbyte, ← take_append_getElem (by omega)]
    rfl

theorem pop8 : ∃ q', q.pop8 = .ok (q',
      if unread = [] then none else some (min unread.length 8, Slices.le (unread.take (min unread.length 8)))) ∧
    Queued q' (unread.drop (min unread.length 8)) := by
  have hlen := h.len
  by_cases hempty : unread = []
  · refine ⟨q, ?_, ?_⟩
    · rw [RawQueue.pop8, if_pos (by rw [hlen, hempty]; rfl), if_pos hempty]
    · subst hempty
      exact h
  · have hpos := length_pos_iff.mpr hempty
    have hle := h.le
    refine ⟨{ q with
      head := (q.head + min unread.length 8) % rawQueueMax
      len := q.len - min unread.length 8 }, ?_, ?_⟩
    · rw [RawQueue.pop8, if_neg (by omega), if_neg hempty, hlen]
      exact bind_eq_ok.mpr ⟨_, h.peek (Nat.min_le_left _ _), rfl⟩
    · refine ⟨h.size, Nat.mod_lt _ (by decide), by rw [length_drop, hlen], ?_, fun i hi => ?_⟩
      · rw [length_drop]
        omega
      · rw [length_drop] at hi
        dsimp only
        rw [getElem?_drop, ← h.held _ (by omega), rawQueueMax]
        congr 1
        omega

end

end Queued

/-- The pairs cannot be told apart. -/
def Pair (s s' : LineDisc × RawQueue) : Prop :=
  Twin s.1 s'.1 ∧ ∃ unread, Queued s.2 unread ∧ Queued s'.2 unread

/-- Two runs end alike: in pairs as above with one output, or both stopped. -/
def Alike {ο : Type} (x x' : Run Unit ((LineDisc × RawQueue) × ο)) : Prop :=
  (∃ s s' out, x = .ok (s, out) ∧ x' = .ok (s', out) ∧ Pair s s') ∨
    ∃ stop, x = .error stop ∧ x' = .error stop

section
variable {d d' : LineDisc} {q q' : RawQueue}
variable {ο : Type}

/-- What two refinements give as an outcome of a call. -/
theorem Alike.of_refines (out : ο → Out) {x x' : Run Unit (LineDisc × ο)}
    {y : Editor × ο} {z : Bytes} (hq : ∃ unread, Queued q unread ∧ Queued q' unread)
    (h : Refines x y) (h' : Refines x' ({ y.1 with done := z }, y.2)) :
    Alike (x >>= fun v => .ok ((v.1, q), out v.2)) (x' >>= fun v => .ok ((v.1, q'), out v.2)) := by
  obtain ⟨d₁, hx, hd₁⟩ := h
  obtain ⟨d₂, hx', hd₂⟩ := h'
  rw [hx, hx']
  exact .inl ⟨(d₁, q), (d₂, q'), out y.2, rfl, rfl, ⟨y.1, z, hd₁, hd₂⟩, hq⟩

theorem feed_alike (ar : Arith) (b : UInt8) (h : Pair (d, q) (d', q')) :
    Alike ((Op.feed b).run ar d q) ((Op.feed b).run ar d' q') := by
  obtain ⟨⟨e, x, hd, hd'⟩, hq⟩ := h
  -- both follow the editor, which differs only in the line completed last
  rcases hd.feed ar b with ⟨y, hfeed, d₁, hrun, hd₁⟩ | ⟨stop, hfeed, hrun⟩
  · rcases hd'.feed ar b with ⟨y', hfeed', d₂, hrun', hd₂⟩ | ⟨stop, hfeed', -⟩
    · rw [Editor.feed_carry, hfeed] at hfeed'
      cases hfeed'
      have hseen : (if y.2.2 = .line then some d₁.line else none) =
          if y.2.2 = .line then some d₂.line else none := by
        by_cases hline : y.2.2 = .line
        · have hdone := hd₂.done.take
          simp only [Editor.carryEvent, if_pos hline] at hdone
          rw [line, line, hd₁.done.take, hdone]
        · rw [if_neg hline, if_neg hline]
      simp only [Op.run, hrun, hrun']
      exact .inl ⟨(d₁, q), (d₂, q'), .fed y.2.1 (y.2.2, if y.2.2 = .line then some d₁.line else none),
        rfl, by rw [hseen]; rfl, ⟨y.1, _, hd₁, hd₂⟩, hq⟩
    · rw [Editor.feed_carry, hfeed] at hfeed'
      cases hfeed'
  · rcases hd'.feed ar b with ⟨y', hfeed', -⟩ | ⟨stop', hfeed', hrun'⟩
    · rw [Editor.feed_carry, hfeed] at hfeed'
      cases hfeed'
    · rw [Editor.feed_carry, hfeed] at hfeed'
      cases hfeed'
      simp only [Op.run, hrun, hrun']
      exact .inr ⟨stop, rfl, rfl⟩

/-- **One call** on pairs that cannot be told apart. -/
theorem Op.run_alike (ar : Arith) (op : Op) (h : Pair (d, q) (d', q')) :
    Alike (op.run ar d q) (op.run ar d' q') := by
  obtain ⟨⟨e, x, hd, hd'⟩, unread, hq, hq'⟩ := id h
  cases op with
  | feed b => exact feed_alike ar b h
  | startLine prompt => exact .of_refines .painted h.2 (hd.startLine _) (hd'.startLine _)
  | resumeLine prompt =>
    obtain ⟨d₁, hrun, hd₁⟩ := hd.resumeLine prompt
    obtain ⟨d₂, hrun', hd₂⟩ := hd'.resumeLine prompt
    simp only [Op.run, hrun, hrun']
    exact .inl ⟨(d₁, q), (d₂, q'), _, rfl, rfl, ⟨_, x, hd₁, hd₂⟩, h.2⟩
  | repaint =>
    simp only [Op.run, hd.repaint, hd'.repaint]
    exact .inl ⟨_, _, _, rfl, rfl, h⟩
  | insertText text =>
    have hsame := hd'.insertText text
    rw [Editor.insertText_carry] at hsame
    exact .of_refines .painted h.2 (hd.insertText text) hsame
  | abandon => exact .inl ⟨_, _, _, rfl, rfl, ⟨_, x, hd.abandon, hd'.abandon⟩, h.2⟩
  | pending =>
    have hcur : d'.cur = d.cur := hd'.cur.trans hd.cur.symm
    refine .inl ⟨_, _, _, bind_eq_ok.mpr ⟨_, hd.line.whole, rfl⟩,
      bind_eq_ok.mpr ⟨_, hd'.line.whole, ?_⟩, h⟩
    exact congrArg (fun cur => Except.ok ((d', q'), Out.pending (e.left ++ e.right) cur)) hcur
  | push bytes =>
    obtain ⟨q₁, hrun, hq₁⟩ := hq.push bytes
    obtain ⟨q₂, hrun', hq₂⟩ := hq'.push bytes
    simp only [Op.run, hrun, hrun']
    exact .inl ⟨(d, q₁), (d', q₂), _, rfl, rfl, h.1, _, hq₁, hq₂⟩
  | pop8 =>
    obtain ⟨q₁, hrun, hq₁⟩ := hq.pop8
    obtain ⟨q₂, hrun', hq₂⟩ := hq'.pop8
    simp only [Op.run, hrun, hrun']
    exact .inl ⟨(d, q₁), (d', q₂), _, rfl, rfl, h.1, _, hq₁, hq₂⟩
  | isEmpty =>
    have hlen : q'.len = q.len := hq'.len.trans hq.len.symm
    refine .inl ⟨_, _, _, rfl, ?_, h⟩
    rw [Op.run, hlen]

/-- **Any calls** on pairs that cannot be told apart. -/
theorem operate_alike (ar : Arith) (ops : List Op) (h : Pair (d, q) (d', q')) :
    Alike (operate ar d q ops) (operate ar d' q' ops) := by
  induction ops generalizing d d' q q' with
  | nil => exact .inl ⟨(d, q), (d', q'), [], rfl, rfl, h⟩
  | cons op ops ih =>
    simp only [operate]
    rcases op.run_alike ar h with ⟨s, s', out, hrun, hrun', hs⟩ | ⟨stop, hrun, hrun'⟩
    · rcases ih hs with ⟨t, t', outs, hrest, hrest', ht⟩ | ⟨stop, hrest, hrest'⟩
      · refine .inl ⟨t, t', out :: outs, ?_, ?_, ht⟩
        · exact bind_eq_ok.mpr ⟨_, hrun, bind_eq_ok.mpr ⟨_, hrest, rfl⟩⟩
        · exact bind_eq_ok.mpr ⟨_, hrun', bind_eq_ok.mpr ⟨_, hrest', rfl⟩⟩
      · refine .inr ⟨stop, ?_, ?_⟩
        · simp only [hrun, hrest, bind, Except.bind]
        · simp only [hrun', hrest', bind, Except.bind]
    · rw [hrun, hrun']
      exact .inr ⟨stop, rfl, rfl⟩

theorem Alike.outputs {x x' : Run Unit ((LineDisc × RawQueue) × ο)} (h : Alike x x') :
    x.map Prod.snd = x'.map Prod.snd := by
  rcases h with ⟨s, s', out, hx, hx', -⟩ | ⟨stop, hx, hx'⟩
  · rw [hx, hx']
    rfl
  · rw [hx, hx']

/-- Whatever was reached shows an editor and holds some bytes. -/
theorem reached {ar : Arith} {ops : List Op} {outs : List Out}
    (h : operate ar .new .new ops = .ok ((d, q), outs)) :
    (∃ e, Shows d e) ∧ ∃ unread, Queued q unread := by
  have hnew : Pair (.new, .new) (.new, .new) :=
    ⟨⟨.new, [], shows_new, shows_new⟩, [], .new, .new⟩
  rcases operate_alike ar ops hnew with ⟨s, s', out, hrun, -, ⟨e, x, hs, -⟩, unread, hq, -⟩ |
    ⟨stop, hrun, -⟩
  · rw [h] at hrun
    cases hrun
    exact ⟨⟨e, hs⟩, unread, hq⟩
  · rw [h] at hrun
    cases hrun

end

/-! ### What is written is read -/

def frame (b : Bytes) : Bytes := bytesOf 4 b.length ++ b

/-- The writer has put these bytes at the start of the page. -/
structure Wrote (page : Bytes) (w : Writer) (out : Bytes) : Prop where
  full : w.full = false
  pos : w.pos = out.length
  buf : w.buf = out ++ page.drop out.length
  le : out.length ≤ page.length

/-- The step writes these bytes, wherever there is room for them. -/
def Emits (f : Writer → Run Unit Writer) (b : Bytes) : Prop :=
  ∀ page w out, Wrote page w out → out.length + b.length ≤ page.length →
    ∃ w', f w = .ok w' ∧ Wrote page w' (out ++ b)

namespace Emits

variable {f g : Writer → Run Unit Writer} {b c : Bytes}

theorem bytes (b : Bytes) : Emits (·.bytes b) b := by
  intro page w out h hfits
  have hsize : w.buf.length = page.length := by
    rw [h.buf, length_append, length_drop]
    omega
  have hsplit : page.drop out.length =
      (page.drop out.length).take b.length ++ page.drop (out ++ b).length := by
    rw [length_append, ← drop_drop, take_append_drop]
  have hput : (copyFrom w.buf w.pos (w.pos + b.length) b : Run Unit Bytes) =
      .ok (out ++ b ++ page.drop (out ++ b).length) := by
    have hroom : ((page.drop out.length).take b.length).length = b.length := by
      rw [length_take, length_drop]
      omega
    rw [h.buf, hsplit, ← append_assoc]
    exact copyFrom_append h.pos (by rw [h.pos, hroom]) hroom.symm
  refine ⟨{ w with buf := out ++ b ++ page.drop (out ++ b).length, pos := w.pos + b.length }, ?_,
    h.full, by rw [h.pos, length_append], rfl, by rw [length_append]; exact hfits⟩
  dsimp only
  rw [Writer.bytes, if_neg (by rw [h.pos]; omega), hput]
  rfl

variable {v : Nat}

theorem u32 (hv : v < 2 ^ 32) : Emits (·.u32 v) (bytesOf 4 v) := by
  have hput : (fun w : Writer => w.u32 v) = (·.bytes (bytesOf 4 v)) := by
    funext w
    rw [Writer.u32, Nat.mod_eq_of_lt hv]
  rw [hput]
  exact bytes _

theorem bind (hf : Emits f b) (hg : Emits g c) : Emits (fun w => f w >>= g) (b ++ c) := by
  intro page w out h hfits
  rw [length_append] at hfits
  obtain ⟨w₁, hrun, h₁⟩ := hf page w out h (by omega)
  obtain ⟨w₂, hrun', h₂⟩ := hg page w₁ _ h₁ (by rw [length_append]; omega)
  rw [append_assoc] at h₂
  exact ⟨w₂, bind_eq_ok.mpr ⟨w₁, hrun, hrun'⟩, h₂⟩

variable {α : Type}

theorem read {x : Run Unit α} {a : α} {f : α → Writer → Run Unit Writer} (h : x = .ok a)
    (hf : Emits (f a) b) : Emits (fun w => x >>= fun v => f v w) b := by
  rw [h]
  exact hf

theorem field {b : Bytes} (hb : b.length < 2 ^ 32) : Emits (·.field b) (frame b) :=
  (u32 hb).bind (bytes b)

theorem each {step : Writer → α → Run Unit Writer} {text : α → Bytes} {l : List α}
    (h : ∀ a ∈ l, Emits (step · a) (text a)) : Emits (l.foldlM step) (l.map text).flatten := by
  induction l with
  | nil =>
    intro page w out hw _
    refine ⟨w, rfl, ?_⟩
    rwa [map_nil, flatten_nil, append_nil]
  | cons a l ih =>
    exact (h a mem_cons_self).bind (ih fun b hb => h b (mem_cons_of_mem _ hb))

end Emits

/-- These bytes are what the reader has before it. -/
def Ahead (r : Reader) (l : Bytes) : Prop := ∃ pre, r.buf = pre ++ l ∧ r.pos = pre.length

namespace Ahead

variable {r : Reader} {b l : Bytes}

theorem bytes (h : Ahead r (b ++ l)) : ∃ r', r.bytes b.length = .ok (b, r') ∧ Ahead r' l := by
  obtain ⟨pre, hbuf, hpos⟩ := h
  refine ⟨{ r with pos := r.pos + b.length }, ?_, pre ++ b, ?_, ?_⟩
  · have hpart : part r.buf r.pos b.length = b := by
      rw [part, hbuf, hpos, drop_left, take_left]
    rw [Reader.bytes, if_pos, hpart]
    rw [hbuf, length_append, length_append]
    omega
  · rw [hbuf, append_assoc]
  · rw [hpos, length_append]

theorem u32 (hv : v < 2 ^ 32) (h : Ahead r (bytesOf 4 v ++ l)) :
    ∃ r', r.u32 = .ok (v, r') ∧ Ahead r' l := by
  obtain ⟨r', hread, hr'⟩ := h.bytes
  refine ⟨r', bind_eq_ok.mpr ⟨_, hread, ?_⟩, hr'⟩
  exact congrArg (fun n => Except.ok (n, r')) (le_bytesOf hv)

theorem field {cap : Nat} (out : Bytes) (hcap : out.length = cap) (hle : b.length ≤ cap)
    (hb : b.length < 2 ^ 32) (h : Ahead r (frame b ++ l)) :
    ∃ out' r', r.field out = .ok (b.length, out', r') ∧ Holds cap out' b.length b ∧ Ahead r' l := by
  rw [frame] at h
  obtain ⟨r₁, hlen, h₁⟩ := h.u32 hb
  obtain ⟨r₂, hbytes, h₂⟩ := h₁.bytes
  obtain ⟨out', hcopy, hout⟩ := Holds.set (ε := Unit) hcap rfl hle
  refine ⟨out', r₂, ?_, hout, h₂⟩
  refine bind_eq_ok.mpr ⟨_, hlen, ?_⟩
  dsimp only
  rw [if_neg (by omega)]
  exact bind_eq_ok.mpr ⟨_, hbytes, bind_eq_ok.mpr ⟨_, hcopy, rfl⟩⟩

theorem hist (slots : List (Bytes × Nat)) {lines : List Bytes} (hsize : slots.length = lines.length)
    (hlines : ∀ line ∈ lines, line.length ≤ lineMax)
    (h : Ahead r ((lines.map frame).flatten ++ l)) :
    ∃ entries r', restoreHist r slots = .ok (entries, r') ∧ Ahead r' l ∧
      entries.map slotText = lines ∧ ∀ s ∈ entries, Holds lineMax s.1 s.2 (slotText s) := by
  induction lines generalizing r slots with
  | nil =>
    obtain rfl := length_eq_zero_iff.mp hsize
    exact ⟨[], r, rfl, h, rfl, by simp⟩
  | cons line lines ih =>
    obtain ⟨slot, slots, rfl⟩ := exists_cons_of_length_eq_add_one hsize
    rw [map_cons, flatten_cons, append_assoc] at h
    have hline := hlines line mem_cons_self
    obtain ⟨out, r₁, hread, hout, h₁⟩ := h.field (List.replicate lineMax 0)
      length_replicate hline (by rw [lineMax] at hline; omega)
    obtain ⟨entries, r₂, hrest, h₂, htext, hheld⟩ := ih slots (by simpa using hsize)
      (fun other hother => hlines other (mem_cons_of_mem _ hother)) h₁
    have htake : slotText (out, line.length) = line := hout.take
    refine ⟨(out, line.length) :: entries, r₂, ?_, h₂, ?_, forall_mem_cons.mpr ⟨?_, hheld⟩⟩
    · exact bind_eq_ok.mpr ⟨_, hread, bind_eq_ok.mpr ⟨_, hrest, rfl⟩⟩
    · rw [map_cons, htext, htake]
    · rwa [htake]

end Ahead

/-- What is written of an engine with this text, kill buffer and prompt. -/
def LineDisc.image (d : LineDisc) (text killed prompt : Bytes) : Bytes :=
  frame text ++ (bytesOf 4 d.cur ++ (frame killed ++ (frame prompt ++ (bytesOf 4 d.histCount ++
    (bytesOf 4 d.histNext ++ ((d.hist.map slotText).map frame).flatten)))))

section
variable {d : LineDisc} {q : RawQueue} {e : Editor} {unread : Bytes}

theorem Shows.sizes (h : Shows d e) : (e.left ++ e.right).length ≤ 256 ∧ e.killed.length ≤ 256 ∧
    e.prompt.length ≤ 64 ∧ d.cur ≤ (e.left ++ e.right).length ∧ d.histCount ≤ 8 ∧ d.histNext < 8 ∧
    ∀ line ∈ d.hist.map slotText, line.length ≤ 256 := by
  refine ⟨h.line.le_cap, h.kill.le_cap, h.prompt.le_cap, ?_, ?_, h.hist.inside, fun line hline => ?_⟩
  · rw [h.cur, length_append]
    exact Nat.le_add_right _ _
  · rw [h.hist.counted]
    exact h.hist.le
  · obtain ⟨s, hs, rfl⟩ := mem_map.mp hline
    exact (h.hist.held s hs).le_cap

theorem save_emits (h : Shows d e) :
    Emits d.save (d.image (e.left ++ e.right) e.killed e.prompt) := by
  obtain ⟨hline, hkill, hprompt, hcur, hcount, hnext, hlines⟩ := h.sizes
  refine .read h.line.whole <| (Emits.field ?_).bind <| (Emits.u32 ?_).bind <|
    .read h.kill.whole <| (Emits.field ?_).bind <| .read h.prompt.whole <| (Emits.field ?_).bind <|
    (Emits.u32 ?_).bind <| (Emits.u32 ?_).bind ?_
  · omega
  · omega
  · omega
  · omega
  · omega
  · omega
  · rw [map_map]
    refine .each fun s hs => .read (h.hist.held s hs).whole (.field ?_)
    have hslot := hlines _ (mem_map_of_mem hs)
    omega

theorem length_flatten_frame (lines : List Bytes) (h : ∀ line ∈ lines, line.length ≤ lineMax) :
    (lines.map frame).flatten.length ≤ 260 * lines.length := by
  induction lines with
  | nil => exact Nat.zero_le _
  | cons line lines ih =>
    have hline := h line mem_cons_self
    have hrest := ih fun other hother => h other (mem_cons_of_mem _ hother)
    simp only [map_cons, flatten_cons, length_append, length_cons, frame,
      length_bytesOf, lineMax] at hline hrest ⊢
    omega

variable {page l : Bytes} {r : Reader}

/-- **Saving fits a page** and writes the image of both. -/
theorem saveBoth_ok (h : Shows d e) (hq : Queued q unread) (hpage : page.length = 4096) :
    ∃ page' n rest, saveBoth page d q = .ok (page', some n) ∧ page' =
      bytesOf 4 magicWord ++ (bytesOf 4 layout ++ (d.image (e.left ++ e.right) e.killed e.prompt ++
        (frame unread ++ rest))) := by
  obtain ⟨hline, hkill, hprompt, -, -, -, hslots⟩ := h.sizes
  have hunread := hq.le
  have hlines := length_flatten_frame _ hslots
  rw [length_map, h.hist.size] at hlines
  have hread : q.peek q.len = .ok unread := by
    have hpeek := hq.peek (le_refl _)
    rwa [take_length, ← hq.len] at hpeek
  have hemits : Emits (fun w => w.u32 magicWord >>= fun w => w.u32 layout >>= fun w => d.save w >>= q.save)
      (bytesOf 4 magicWord ++ (bytesOf 4 layout ++
        (d.image (e.left ++ e.right) e.killed e.prompt ++ frame unread))) :=
    (Emits.u32 (by decide)).bind <| (Emits.u32 (by decide)).bind <| (save_emits h).bind <|
      .read hread <| .field (by omega)
  obtain ⟨w, hsave, hw⟩ := hemits page ⟨page, 0, false⟩ [] ⟨rfl, rfl, rfl, Nat.zero_le _⟩ (by
    simp only [image, frame, length_append, length_bytesOf, length_nil,
      hpage] at hline hkill hprompt hunread hlines ⊢
    omega)
  obtain ⟨w₁, hmagic, hsave⟩ := bind_eq_ok.mp hsave
  obtain ⟨w₂, hlayout, hsave⟩ := bind_eq_ok.mp hsave
  obtain ⟨w₃, hdisc, hqueue⟩ := bind_eq_ok.mp hsave
  have hnew : Writer.new page = .ok w₂ := bind_eq_ok.mpr ⟨w₁, hmagic, hlayout⟩
  refine ⟨w.buf, w.pos, _, ?_, hw.buf.trans (by simp only [nil_append, append_assoc]; rfl)⟩
  refine bind_eq_ok.mpr ⟨w₂, hnew, bind_eq_ok.mpr ⟨w₃, hdisc, bind_eq_ok.mpr ⟨w, hqueue, ?_⟩⟩⟩
  rw [Writer.finish, hw.full]
  rfl

/-- **What was written of an engine between keys is read back** as an engine that shows the same. -/
theorem restore_ok (h : Shows d e) (hesc : e.esc = .idle) (hbrowse : e.browsing = none)
    (hcr : e.wasCr = false)
    (hr : Ahead r (d.image (e.left ++ e.right) e.killed e.prompt ++ l)) :
    ∃ d' r', new.restore r = .ok (d', r') ∧ Ahead r' l ∧ Shows d' { e with done := [] } := by
  obtain ⟨hline, hkill, hprompt, hcur, hcount, hnext, hlines⟩ := h.sizes
  simp only [image, append_assoc] at hr
  obtain ⟨buf, r₁, hread₁, hbuf, hr⟩ := hr.field new.buf length_replicate hline (by omega)
  obtain ⟨r₂, hread₂, hr⟩ := hr.u32 (by omega)
  obtain ⟨kill, r₃, hread₃, hkill', hr⟩ := hr.field new.kill length_replicate hkill
    (by omega)
  obtain ⟨prompt, r₄, hread₄, hprompt', hr⟩ := hr.field new.prompt length_replicate
    hprompt (by omega)
  obtain ⟨r₅, hread₅, hr⟩ := hr.u32 (by omega)
  obtain ⟨r₆, hread₆, hr⟩ := hr.u32 (by omega)
  obtain ⟨entries, r₇, hread₇, hr, htext, hheld⟩ := hr.hist new.hist
    (by rw [length_map, h.hist.size]; rfl) hlines
  refine ⟨{ new with
    buf, kill, prompt
    len := (e.left ++ e.right).length
    cur := d.cur
    killLen := e.killed.length
    promptLen := e.prompt.length
    hist := entries
    histCount := min d.histCount histMax
    histNext := d.histNext % histMax }, r₇, ?_, hr, ?_⟩
  · refine bind_eq_ok.mpr ⟨_, hread₁, bind_eq_ok.mpr ⟨_, hread₂, ?_⟩⟩
    dsimp only
    rw [if_neg (by omega)]
    exact bind_eq_ok.mpr ⟨_, hread₃, bind_eq_ok.mpr ⟨_, hread₄,
      bind_eq_ok.mpr ⟨_, hread₅, bind_eq_ok.mpr ⟨_, hread₆,
      bind_eq_ok.mpr ⟨_, hread₇, rfl⟩⟩⟩⟩⟩
  · have hcount' : min d.histCount histMax = d.histCount := Nat.min_eq_left hcount
    have hnext' : d.histNext % histMax = d.histNext := Nat.mod_eq_of_lt hnext
    rw [hcount', hnext']
    exact
      { line := hbuf
        cur := h.cur
        done := shows_new.done
        kill := hkill'
        hist :=
          { size := by
              have hsize := congrArg List.length htext
              rw [length_map, length_map, h.hist.size] at hsize
              exact hsize
            held := hheld
            inside := hnext
            counted := h.hist.counted
            le := h.hist.le
            newest := by
              rw [htext]
              exact h.hist.newest }
        browse := by
          rw [hbrowse]
          exact length_replicate
        prompt := hprompt'
        esc := hesc.symm
        wasCr := hcr.symm }

theorem restoreQueue_ok (hle : unread.length ≤ 64) (hr : Ahead r (frame unread ++ l)) :
    ∃ q' r', RawQueue.restore r = .ok (q', r') ∧ Queued q' unread := by
  obtain ⟨buf, r', hread, hbuf, -⟩ := hr.field (List.replicate rawQueueMax 0)
    length_replicate hle (by omega)
  obtain ⟨q', hpush, hq'⟩ := Queued.new.push unread
  refine ⟨q', r', bind_eq_ok.mpr ⟨_, hread, bind_eq_ok.mpr ⟨_, hbuf.whole,
    bind_eq_ok.mpr ⟨_, hpush, rfl⟩⟩⟩, ?_⟩
  rwa [nil_append, length_nil, Nat.sub_zero, Nat.min_eq_left hle, take_length] at hq'

/-- **A pair saved between keys and absorbed** cannot be told from the first. -/
theorem absorb_saved (h : Shows d e) (hq : Queued q unread) (hesc : d.esc = .idle)
    (hbrowse : d.browse = none) (hcr : d.lastWasCr = false)
    (hpage : page.length = 4096) :
    ∃ page' n s, saveBoth page d q = .ok (page', some n) ∧ absorb page' = .ok s ∧ Pair (d, q) s := by
  -- between keys the editor has what the page does not hold at its fresh value
  have hbrowsing : e.browsing = none := by
    rcases h.browsing_cases with ⟨-, he⟩ | ⟨below, hd, -⟩
    · exact he
    · rw [hbrowse] at hd
      cases hd
  obtain ⟨page', n, rest, hsave, hpage'⟩ := saveBoth_ok h hq hpage
  have hr : Ahead ⟨page', 0⟩ page' := ⟨[], rfl, rfl⟩
  rw [hpage'] at hr
  obtain ⟨r₁, hmagic, hr⟩ := hr.u32 (by decide)
  obtain ⟨r₂, hlayout, hr⟩ := hr.u32 (by decide)
  obtain ⟨d', r₃, hdisc, hr, hd'⟩ := restore_ok h (h.esc.symm.trans hesc) hbrowsing
    (h.wasCr.symm.trans hcr) hr
  obtain ⟨q', r₄, hqueue, hq'⟩ := restoreQueue_ok hq.le hr
  refine ⟨page', n, (d', q'), hsave, ?_, ⟨e, [], h, hd'⟩, unread, hq, hq'⟩
  rw [← hpage'] at hmagic
  have hopen : Reader.new page' = .ok r₂ := by
    refine bind_eq_ok.mpr ⟨_, hmagic, ?_⟩
    dsimp only
    rw [hlayout]
    rfl
  exact bind_eq_ok.mpr ⟨_, hopen, bind_eq_ok.mpr ⟨_, hdisc, bind_eq_ok.mpr ⟨_, hqueue, rfl⟩⟩⟩

end

/-! ### Any blob -/

structure InBounds (d : LineDisc) (q : RawQueue) : Prop where
  line : d.len ≤ lineMax ∧ d.buf.length = lineMax
  cursor : d.cur ≤ d.len
  kill : d.killLen ≤ lineMax ∧ d.kill.length = lineMax
  done : d.doneLen ≤ lineMax ∧ d.done.length = lineMax
  prompt : d.promptLen ≤ promptMax ∧ d.prompt.length = promptMax
  slots : d.hist.length = histMax ∧ ∀ s ∈ d.hist, s.2 ≤ lineMax ∧ s.1.length = lineMax
  ring : d.histCount ≤ histMax ∧ d.histNext < histMax
  queue : q.len ≤ rawQueueMax ∧ q.head < rawQueueMax ∧ q.buf.length = rawQueueMax

section
variable (r : Reader)

theorem safe_bytes (n : Nat) : Safe (r.bytes n) (fun v => v.1.length = n) := by
  rw [Reader.bytes]
  split
  · next h => exact .of_ok (length_part h)
  · exact .refused

theorem safe_u32 : Safe r.u32 (fun _ => True) :=
  (safe_bytes r 4).bind fun _ _ => .of_ok trivial

theorem safe_field (out : Bytes) :
    Safe (r.field out) (fun v => v.1 ≤ out.length ∧ v.2.1.length = out.length) := by
  refine (safe_u32 r).bind fun v _ => ?_
  dsimp only
  split
  · exact .refused
  · next hle =>
    refine (safe_bytes v.2 v.1).bind fun src hsrc => ?_
    obtain ⟨out', hcopy, hout⟩ := Holds.set (ε := Unit) (show out.length = _ from rfl) hsrc.symm
      (by omega)
    rw [hcopy]
    exact .of_ok ⟨by omega, hout.cap⟩

theorem safe_restoreHist (slots : List (Bytes × Nat)) : Safe (restoreHist r slots)
    (fun v => v.1.length = slots.length ∧ ∀ s ∈ v.1, s.2 ≤ lineMax ∧ s.1.length = lineMax) := by
  induction slots generalizing r with
  | nil => exact .of_ok ⟨rfl, by simp⟩
  | cons slot slots ih =>
    refine (safe_field r _).bind fun v hv => (ih _).bind fun w hw => .of_ok ⟨?_, ?_⟩
    · rw [length_cons, length_cons, hw.1]
    · rw [length_replicate] at hv
      exact forall_mem_cons.mpr ⟨hv, hw.2⟩

/-- **Every blob** is refused or absorbed into a pair within its bounds. -/
theorem safe_absorb (blob : Bytes) : Safe (absorb blob) (fun s => InBounds s.1 s.2) := by
  have hopen : Safe (Reader.new blob) (fun _ => True) := by
    refine (safe_u32 _).bind ?_
    rintro ⟨word, r⟩ -
    dsimp only
    split
    · exact .refused
    · refine (safe_u32 _).bind ?_
      rintro ⟨found, r⟩ -
      split
      · exact .refused
      · exact .of_ok trivial
  have hqueue : ∀ r, Safe (RawQueue.restore r) (fun s => ∃ unread, Queued s.1 unread) := by
    refine fun r => (safe_field r _).bind fun v hv => ?_
    have hslice := (Holds.of_le hv.2 hv.1).whole (ε := Unit)
    obtain ⟨q', hpush, hq'⟩ := Queued.new.push (v.2.1.take v.1)
    simp only [hslice, hpush, bind, Except.bind]
    exact .of_ok ⟨_, hq'⟩
  refine hopen.bind fun r _ => Safe.bind (P := fun s => ∀ q unread, Queued q unread →
    InBounds s.1 q) ?_ fun s hs => (hqueue s.2).bind fun t ht => ?_
  · refine (safe_field r _).bind fun line hline => (safe_u32 _).bind fun cur _ => ?_
    dsimp only
    split
    · exact .refused
    · next hcur =>
      refine (safe_field _ _).bind fun kill hkill => (safe_field _ _).bind fun prompt hprompt =>
        (safe_u32 _).bind fun count _ => (safe_u32 _).bind fun next _ =>
        (safe_restoreHist _ _).bind fun hist hhist => .of_ok fun q unread hq => ?_
      simp only [new, length_replicate] at hline hkill hprompt hhist
      exact
        { line := hline
          cursor := by
            dsimp only
            omega
          kill := hkill
          done := by simp [new]
          prompt := hprompt
          slots := hhist
          ring := ⟨Nat.min_le_right _ _, Nat.mod_lt _ (by decide)⟩
          queue := ⟨hq.len.le.trans hq.le, hq.inside, hq.size⟩ }
  · obtain ⟨unread, hunread⟩ := ht
    exact .of_ok (hs _ _ hunread)

end

/-! ### The replacement -/

/-- The pair is saved into the page and absorbed, and what was absorbed answers every further calls as
the pair does. -/
def CarriesOn (ar : Arith) (page : Bytes) (d : LineDisc) (q : RawQueue) : Prop :=
  ∃ page' n s, saveBoth page d q = .ok (page', some n) ∧ absorb page' = .ok s ∧
    ∀ more, (operate ar s.1 s.2 more).map Prod.snd = (operate ar d q more).map Prod.snd

/-- Restoring leaves the parser and the memory of a carriage return as they are. -/
theorem restore_keeps {d d' : LineDisc} {r r' : Reader} (h : d.restore r = .ok (d', r')) :
    d'.esc = d.esc ∧ d'.lastWasCr = d.lastWasCr := by
  obtain ⟨⟨len, buf, r₁⟩, -, h⟩ := bind_eq_ok.mp h
  obtain ⟨⟨cur, r₂⟩, -, h⟩ := bind_eq_ok.mp h
  dsimp only at h
  split_ifs at h
  obtain ⟨⟨killLen, kill, r₃⟩, -, h⟩ := bind_eq_ok.mp h
  obtain ⟨⟨promptLen, prompt, r₄⟩, -, h⟩ := bind_eq_ok.mp h
  obtain ⟨⟨count, r₅⟩, -, h⟩ := bind_eq_ok.mp h
  obtain ⟨⟨next, r₆⟩, -, h⟩ := bind_eq_ok.mp h
  obtain ⟨⟨hist, r₇⟩, -, h⟩ := bind_eq_ok.mp h
  cases h
  exact ⟨rfl, rfl⟩

theorem absorb_fresh {page : Bytes} {s : LineDisc × RawQueue} (h : absorb page = .ok s) :
    s.1.esc = .idle ∧ s.1.lastWasCr = false := by
  obtain ⟨r, -, h⟩ := bind_eq_ok.mp h
  obtain ⟨⟨d, r'⟩, hd, h⟩ := bind_eq_ok.mp h
  obtain ⟨⟨q, r''⟩, -, h⟩ := bind_eq_ok.mp h
  cases h
  exact restore_keeps hd

/-- A line feed that does not follow a carriage return completes a line. -/
theorem event_feed_lineFeed {ar : Arith} {d : LineDisc} (hesc : d.esc = .idle)
    (hcr : d.lastWasCr = false) {x : LineDisc × Bytes × Event} (h : d.feed ar 10 = .ok x) :
    x.2.2 = .line := by
  have htyped : d.feed ar 10 = LineDisc.finishLine { d with lastWasCr := false } := by
    simp [LineDisc.feed, hcr, hesc, escape, LineDisc.take, LineDisc.typed, bind, Except.bind]
  rw [htyped] at h
  obtain ⟨line, -, h⟩ := bind_eq_ok.mp h
  obtain ⟨done, -, h⟩ := bind_eq_ok.mp h
  obtain ⟨d', -, h⟩ := bind_eq_ok.mp h
  cases h
  rfl

/-- After a carriage return a line feed tells the pair from what it is replaced by. -/
theorem not_carriesOn {ar : Arith} {page : Bytes} {d : LineDisc} {q : RawQueue}
    (hcr : d.lastWasCr = true) : ¬ CarriesOn ar page d q := by
  rintro ⟨page', n, s, -, habsorb, hmore⟩
  obtain ⟨hesc, hfresh⟩ := absorb_fresh habsorb
  have hfed : (operate ar d q [.feed 10]).map Prod.snd = .ok [.fed [] (.none, none)] := by
    simp [operate, Op.run, LineDisc.feed, hcr, bind, Except.bind, Except.map]
  rw [← hmore] at hfed
  rcases hfeed : s.1.feed ar 10 with e | x
  · simp [operate, Op.run, hfeed, bind, Except.bind, Except.map] at hfed
  · have hline := event_feed_lineFeed hesc hfresh hfeed
    simp [operate, Op.run, hfeed, hline, bind, Except.bind, Except.map] at hfed

/-- **A replaced line editor carries on**: a pair that was reached by any calls, and is not within an
escape sequence or browsing, carries on exactly if it is not after a carriage return.  No blob makes
the absorbing panic or leaves a cursor or a length out of its bounds. -/
theorem handoff_carries_on_iff (ar : Arith) (ops : List Op) (d : LineDisc) (q : RawQueue)
    (outs : List Out) (page : Bytes) (hreach : operate ar .new .new ops = .ok ((d, q), outs))
    (hesc : d.esc = .idle) (hbrowse : d.browse = none) (hpage : page.length = 4096) :
    (CarriesOn ar page d q ↔ d.lastWasCr = false) ∧
      ∀ blob, Safe (absorb blob) (fun s => InBounds s.1 s.2) := by
  refine ⟨⟨fun hcarries => ?_, fun hcr => ?_⟩, safe_absorb⟩
  · by_contra hcr
    exact not_carriesOn (by simpa using hcr) hcarries
  · obtain ⟨⟨e, he⟩, unread, hq⟩ := reached hreach
    obtain ⟨page', n, s, hsave, habsorb, hs⟩ := absorb_saved he hq hesc hbrowse hcr hpage
    exact ⟨page', n, s, hsave, habsorb, fun more => (operate_alike ar more hs).outputs.symm⟩

/-- A line completed, `ab` killed, and `xy` typed with the cursor moved back by one; three bytes are
queued. -/
def session : List Op :=
  [.startLine [62, 32], .feed 108, .feed 115, .feed 10, .startLine [62, 32], .feed 97, .feed 98,
    .feed 21, .feed 120, .feed 121, .feed 2, .push [7, 8, 9]]

/-- All of it is carried over. -/
theorem handoff_carries_on_iff_session : ∃ d q outs,
    operate checked .new .new session = .ok ((d, q), outs) ∧
      [d.promptLen, d.histCount, d.killLen, d.len, d.cur, q.len] = [2, 1, 2, 2, 1, 3] ∧
      CarriesOn checked (List.replicate 4096 0) d q := by
  have heval : (operate checked .new .new session).toOption.map (fun x =>
      ((x.1.1.esc, x.1.1.browse, x.1.1.lastWasCr),
        [x.1.1.promptLen, x.1.1.histCount, x.1.1.killLen, x.1.1.len, x.1.1.cur, x.1.2.len])) =
      some ((.idle, none, false), [2, 1, 2, 2, 1, 3]) := by
    decide +kernel
  rcases h : operate checked .new .new session with e | ⟨⟨d, q⟩, outs⟩
  · rw [h] at heval
    cases heval
  · rw [h] at heval
    have hshown := Option.some.inj heval
    obtain ⟨hesc, hbrowse, hcr⟩ : d.esc = .idle ∧ d.browse = none ∧ d.lastWasCr = false := by
      simpa using congrArg Prod.fst hshown
    refine ⟨d, q, outs, rfl, congrArg Prod.snd hshown, ?_⟩
    exact (handoff_carries_on_iff checked session d q outs _ h hesc hbrowse length_replicate).1.mpr hcr

/-- The outputs of the calls on the pair after some others, and on what it is replaced by. -/
def replaced (page : Bytes) (ops more : List Op) : Run Unit (List Out × List Out) := do
  let (s, _) ← operate checked .new .new ops
  let (page, _) ← saveBoth page s.1 s.2
  let t ← absorb page
  let (_, first) ← operate checked s.1 s.2 more
  let (_, second) ← operate checked t.1 t.2 more
  .ok (first, second)

/-- A terminal that ends its lines in two bytes, replaced between them: the second byte completes an
empty line. -/
theorem handoff_forgets_cr : replaced (List.replicate 4096 0) [.feed 13] [.feed 10] =
    .ok ([.fed [] (.none, none)], [.fed [13, 10] (.line, some [])]) := by
  decide +kernel

end Nife.LineEditor
