/-
What the line discipline is for: a text with a cursor in it.  The state of `Editor` is the text before
the cursor and after it, the text that was killed last, the completed lines from the newest to the
oldest, and while these are browsed the line that waits below them.

`Shows d e` says that the arrays of the engine hold what the editor has, and `feed_refines` that the
engine then does what the editor does, byte by byte: the same events, the same echo, and nothing
outside an array.
-/
import Nife.LineEditor
import Mathlib.Data.List.DropRight

namespace Nife.LineEditor

open Slices Buffers List LineDisc Holds

/-! ### The editor -/

/-- Completed lines that are being browsed: which one is shown, and the line below them. -/
structure Browsing where
  shown : Nat
  (left right : Bytes)
  deriving DecidableEq, Repr

/-- A text with a cursor, and what surrounds it. -/
structure Editor where
  (left right killed : Bytes)
  /-- The completed lines, the newest first. -/
  history : List Bytes
  browsing : Option Browsing
  prompt : Bytes
  /-- The line that was completed last. -/
  done : Bytes
  esc : EscState
  wasCr : Bool
  deriving DecidableEq, Repr

/-- A number in decimal. -/
def decimal (n : Nat) : Bytes := (Nat.digits 10 n).reverse.map fun d => 48 + UInt8.ofNat d

/-- The sequence that moves the cursor, for any number of cells. -/
def moveBy (dir : UInt8) : Nat → Bytes
  | 0 => []
  | 1 => [0x1b, 91, dir]
  | n => 0x1b :: 91 :: decimal n ++ [dir]

namespace Editor

def new : Editor := ⟨[], [], [], [], none, [], [], .idle, false⟩

section

variable (e : Editor)

/-- The text. -/
def text : Bytes := e.left ++ e.right

def abandon : Editor := { e with left := [], right := [], browsing := none }

def repaint : Bytes := e.prompt ++ e.text ++ moveBy 68 e.right.length

def startLine (prompt : Bytes) : Editor × Bytes :=
  let e := { e with prompt := prompt.take promptMax }
  (e, e.repaint)

/-- Bytes at the cursor. -/
def put (bytes : Bytes) : Editor × Bytes :=
  ({ e with left := e.left ++ bytes }, bytes ++ e.right ++ moveBy 68 e.right.length)

def insert (b : UInt8) : Editor × Bytes :=
  if lineMax ≤ e.text.length then (e, [7]) else e.put [b]

def insertText (e : Editor) : Bytes → Editor × Bytes
  | [] => (e, [])
  | b :: text =>
      if 0x20 ≤ b ∧ b ≤ 0x7e then
        let next := e.insert b
        let rest := next.1.insertText text
        (rest.1, next.2 ++ rest.2)
      else e.insertText text

/-- What is echoed when the cursor goes back and the rest of the row is painted again. -/
def redraw (back : Nat) (rest : Bytes) : Bytes :=
  moveBy 68 back ++ rest ++ eraseRest ++ moveBy 68 rest.length

/-- Without the text before the cursor from the place `a` on. -/
def cutFrom (a : Nat) : Editor × Bytes :=
  if e.left.length ≤ a then (e, [])
  else ({ e with left := e.left.take a }, redraw (e.left.length - a) e.right)

def backspace : Editor × Bytes := e.cutFrom (e.left.length - 1)

def deleteAt : Editor × Bytes :=
  if e.right = [] then (e, []) else ({ e with right := e.right.tail }, redraw 0 e.right.tail)

def killEnd : Editor × Bytes :=
  ({ e with right := [], killed := e.right }, eraseRest)

def killFrom (a : Nat) : Editor × Bytes :=
  { e with killed := e.left.drop a }.cutFrom a

/-- Where the word before the cursor begins: behind it are blanks, before it is a blank. -/
def wordStart : Nat :=
  ((e.left.rdropWhile (· == 32)).rdropWhile (· != 32)).length

def killWord : Editor × Bytes := e.killFrom e.wordStart

def yank : Editor × Bytes :=
  let bytes := e.killed.take (lineMax - e.text.length)
  if bytes = [] then (e, if e.killed = [] then [] else [7]) else e.put bytes

def goLeft : Editor × Bytes :=
  match e.left.getLast? with
  | none => (e, [])
  | some b => ({ e with left := e.left.dropLast, right := b :: e.right }, [8])

def goRight : Editor × Bytes :=
  match e.right with
  | [] => (e, [])
  | b :: right => ({ e with left := e.left ++ [b], right }, [0x1b, 91, 67])

def home : Editor × Bytes :=
  ({ e with left := [], right := e.text }, moveBy 68 e.left.length)

def stop : Editor × Bytes :=
  ({ e with left := e.text, right := [] }, moveBy 67 e.right.length)

/-- Another text in place of the whole line, with the cursor somewhere in it. -/
def replace (left right : Bytes) : Editor × Bytes :=
  ({ e with left, right },
    moveBy 68 e.left.length ++ (left ++ right) ++ eraseRest ++ moveBy 68 right.length)

/-- The line that was completed `k` lines ago, over the line that waits. -/
def browse (below : Browsing) (k : Nat) : Editor × Bytes :=
  { e with browsing := some { below with shown := k } }.replace (e.history.getD (k - 1) []) []

def older : Editor × Bytes :=
  match e.browsing with
  | none => if e.history = [] then (e, [7]) else e.browse ⟨0, e.left, e.right⟩ 1
  | some below =>
      if below.shown < e.history.length then e.browse below (below.shown + 1) else (e, [7])

def newer : Editor × Bytes :=
  match e.browsing with
  | none => (e, [7])
  | some below =>
      if below.shown = 1 then { e with browsing := none }.replace below.left below.right
      else e.browse below (below.shown - 1)

/-- The completed lines with another: an empty line and a repetition are not kept. -/
def remember (history : List Bytes) (line : Bytes) : List Bytes :=
  if line = [] ∨ history.head? = some line then history else (line :: history).take histMax

def finishLine : Editor × Bytes × Event :=
  ({ e with
      left := []
      right := []
      browsing := none
      prompt := []
      done := e.text
      history := remember e.history e.text }, [13, 10], .line)

def press : Key → Editor × Bytes
  | .left => e.goLeft
  | .right => e.goRight
  | .older => e.older
  | .newer => e.newer
  | .home => e.home
  | .stop => e.stop
  | .delete => e.deleteAt

/-- An operation that ends no line. -/
def quiet (x : Editor × Bytes) : Editor × Bytes × Event := (x.1, x.2, .none)

def typed (b : UInt8) : Editor × Bytes × Event :=
  if b = 0x1b then ({ e with esc := .esc }, [], .none)
  else if b = 13 ∨ b = 10 then finishLine { e with wasCr := b = 13 }
  else if b = 3 then (e.abandon, [94, 67, 13, 10], .interrupt)
  else if b = 9 then (e, [], .tab)
  else if b = 4 then if e.text = [] then (e, [], .eof) else quiet e.deleteAt
  else if b = 1 then quiet e.home
  else if b = 5 then quiet e.stop
  else if b = 2 then quiet e.goLeft
  else if b = 6 then quiet e.goRight
  else if b = 11 then quiet e.killEnd
  else if b = 21 then quiet (e.killFrom 0)
  else if b = 23 then quiet e.killWord
  else if b = 25 then quiet e.yank
  else if b = 12 then (e, [0x1b, 91, 50, 74, 0x1b, 91, 72] ++ e.repaint, .none)
  else if b = 8 ∨ b = 0x7f then quiet e.backspace
  else if 0x20 ≤ b ∧ b ≤ 0x7e then quiet (e.insert b)
  else (e, [], .none)

/-- What becomes of a byte once the escape parser has seen it. -/
def take (b : UInt8) : Decoded → Editor × Bytes × Event
  | .more next => ({ e with esc := next }, [], .none)
  | .final p =>
      let e := { e with esc := .idle }
      match csiFinal b p with
      | some key => quiet (e.press key)
      | none => (e, [], .none)
  | .plain => e.typed b

end

def feed (ar : Arith) (e : Editor) (b : UInt8) : Run Unit (Editor × Bytes × Event) :=
  let wasCr := e.wasCr
  let e := { e with wasCr := false }
  if b = 10 ∧ wasCr = true then .ok (e, [], .none)
  else do
    let decoded ← escape ar e.esc b
    .ok (e.take b decoded)

end Editor

/-! ### The arrays of the engine -/

def slotText (s : Bytes × Nat) : Bytes := s.1.take s.2

/-- The ring holds the lines: `next` is the slot of the next one, and before it is the newest. -/
structure Rings (slots : List (Bytes × Nat)) (count next : Nat) (lines : List Bytes) : Prop where
  size : slots.length = 8
  held : ∀ s ∈ slots, Holds lineMax s.1 s.2 (slotText s)
  inside : next < 8
  counted : count = lines.length
  le : lines.length ≤ 8
  newest : ∀ k < lines.length, (slots.map slotText)[(next + 7 - k) % 8]? = lines[k]?

/-- Where the browsing of an engine and of an editor agree. -/
def Browses (stash : Bytes × Nat × Nat) (count : Nat) : Option Nat → Option Browsing → Prop
  | none, none => stash.1.length = lineMax
  | some k, some below => k = below.shown ∧ 0 < k ∧ k ≤ count ∧
      Holds lineMax stash.1 stash.2.1 (below.left ++ below.right) ∧ stash.2.2 = below.left.length
  | _, _ => False

/-- **The engine shows the editor**: its arrays hold what the editor has. -/
structure Shows (d : LineDisc) (e : Editor) : Prop where
  line : Holds lineMax d.buf d.len (e.left ++ e.right)
  cur : d.cur = e.left.length
  done : Holds lineMax d.done d.doneLen e.done
  kill : Holds lineMax d.kill d.killLen e.killed
  hist : Rings d.hist d.histCount d.histNext e.history
  browse : Browses d.stash d.histCount d.browse e.browsing
  prompt : Holds promptMax d.prompt d.promptLen e.prompt
  esc : d.esc = e.esc
  wasCr : d.lastWasCr = e.wasCr

/-- The operation ends as that of the editor, with the same output. -/
def Refines {ο : Type} (x : Run Unit (LineDisc × ο)) (y : Editor × ο) : Prop :=
  ∃ d, x = .ok (d, y.2) ∧ Shows d y.1

theorem shows_new : Shows .new .new where
  line := .nil length_replicate
  cur := rfl
  done := .nil length_replicate
  kill := .nil length_replicate
  hist :=
    { size := rfl
      held := by
        intro s hs
        rw [new, mem_replicate] at hs
        rw [hs.2]
        exact .of_le length_replicate (Nat.zero_le _)
      inside := by decide
      counted := rfl
      le := by decide
      newest := fun k hk => absurd hk (Nat.not_lt_zero k) }
  browse := length_replicate
  prompt := .nil length_replicate
  esc := rfl
  wasCr := rfl

theorem decimal_succ (n : Nat) : decimal (n + 1) =
    decimal ((n + 1) / 10) ++ [48 + UInt8.ofNat ((n + 1) % 10)] := by
  rw [decimal, decimal]
  simp

theorem putDigits_eq {i v : Nat} (seq : Bytes) (hi : (decimal v).length ≤ i)
    (hseq : i ≤ seq.length) : putDigits i v seq = .ok (i - (decimal v).length,
      seq.take (i - (decimal v).length) ++ decimal v ++ seq.drop i) := by
  induction i generalizing v seq with
  | zero =>
    cases v with
    | zero => simp [putDigits, decimal]
    | succ v =>
      rw [decimal_succ, length_append, length_singleton] at hi
      omega
  | succ i ih =>
    cases v with
    | zero => simp [putDigits, decimal]
    | succ v =>
      have hlen := congrArg List.length (decimal_succ v)
      rw [length_append, length_singleton] at hlen
      have hput : (copyFrom seq i (i + 1) [48 + UInt8.ofNat ((v + 1) % 10)] : Run Unit Bytes) =
          .ok (seq.take i ++ [48 + UInt8.ofNat ((v + 1) % 10)] ++ seq.drop (i + 1)) :=
        if_pos ⟨by omega, hseq, by simp⟩
      rw [putDigits, hput]
      refine (ih _ (by omega) (by simp; omega)).trans (congrArg Except.ok ?_)
      have hsub : i + 1 - (decimal (v + 1)).length = i - (decimal ((v + 1) / 10)).length := by
        omega
      have hi : i = (seq.take i).length := by
        rw [length_take]
        omega
      rw [hsub, decimal_succ, append_assoc (seq.take i), drop_left' hi.symm,
        take_append_of_le_length (by omega), take_take, min_eq_left (by omega)]
      simp

variable {k n : Nat} {ο : Type}

theorem length_decimal (hn : n < 10 ^ k) : (decimal n).length ≤ k := by
  induction k generalizing n with
  | zero =>
    obtain rfl : n = 0 := by omega
    exact le_rfl
  | succ k ih =>
    cases n with
    | zero => exact Nat.zero_le _
    | succ n =>
      have hrest := ih (n := (n + 1) / 10) (by omega)
      rw [decimal_succ, length_append, length_singleton]
      omega

/-- The sequences are written for any distance within a line. -/
theorem csiMove_eq (dir : UInt8) (hn : n ≤ lineMax) : csiMove n dir = .ok (moveBy dir n) := by
  match n with
  | 0 | 1 => rfl
  | n + 2 =>
    have hlen : (decimal (n + 2)).length ≤ 3 := length_decimal (by rw [lineMax] at hn; omega)
    have hdigits := putDigits_eq (i := 10) (v := n + 2) (0x1b :: 91 :: List.replicate 9 0)
      (by omega) (by decide)
    simp only [csiMove, moveBy, hdigits]
    -- at most three digits: the array is short enough to compute with
    generalize decimal (n + 2) = digits at hlen
    rcases digits with _ | ⟨x, _ | ⟨y, _ | ⟨z, _ | ⟨_, _⟩⟩⟩⟩
    · rfl
    · rfl
    · rfl
    · rfl
    · simp only [length_cons] at hlen
      omega

variable {d : LineDisc} {e : Editor}

theorem Refines.read {α : Type} {x : Run Unit α} {a : α} {f : α → Run Unit (LineDisc × ο)}
    {y : Editor × ο} (h : x = .ok a) (hf : Refines (f a) y) : Refines (x >>= f) y := by
  rw [h]
  exact hf

theorem Refines.of_ok {out : ο} (h : Shows d e) : Refines (.ok (d, out)) (e, out) :=
  ⟨d, rfl, h⟩

theorem Refines.ite {c : Prop} [Decidable c] {x x' : Run Unit (LineDisc × ο)}
    {y y' : Editor × ο} (hx : c → Refines x y) (hx' : Refines x' y') :
    Refines (if c then x else x') (if c then y else y') := by
  by_cases hc : c
  · rw [if_pos hc, if_pos hc]
    exact hx hc
  · rw [if_neg hc, if_neg hc]
    exact hx'

namespace Shows

section

variable (h : Shows d e)
include h

theorem len : d.len = e.left.length + e.right.length := by
  rw [h.line.len, length_append]

theorem bounded : e.left.length + e.right.length ≤ lineMax := by
  rw [← length_append]
  exact h.line.le_cap

theorem cur_le : d.cur ≤ d.len := by
  rw [h.cur, h.len]
  omega

theorem back : csiLeft (d.len - d.cur) = .ok (moveBy 68 e.right.length) := by
  have hb := h.bounded
  have htail : d.len - d.cur = e.right.length := by
    rw [h.len, h.cur]
    omega
  rw [htail]
  exact csiMove_eq _ (by omega)

theorem toStart : csiLeft d.cur = .ok (moveBy 68 e.left.length) := by
  have hb := h.bounded
  rw [h.cur]
  exact csiMove_eq _ (by omega)

/-! ### Painting and inserting -/

theorem repaint : d.repaint = .ok e.repaint := by
  have hread : Settles d.repaint True e.repaint :=
    .read h.prompt.whole <| .read h.line.whole <| .read (less_ok h.cur_le) <| .read h.back <|
      .of_ok rfl
  exact hread.ok trivial

theorem resumeLine (prompt : Bytes) :
    ∃ d', d.resumeLine prompt = .ok d' ∧ Shows d' { e with prompt := prompt.take promptMax } := by
  have htext : (prompt.take promptMax).length = min prompt.length promptMax := by
    rw [length_take, min_comm]
  have hshown : (slice prompt 0 (min prompt.length promptMax) : Run Unit Bytes) =
      .ok (prompt.take promptMax) := by
    rw [slice_ok (Nat.zero_le _) (Nat.min_le_left _ _), part, drop_zero]
    refine congrArg Except.ok (take_eq_take_iff.mpr ?_)
    omega
  obtain ⟨kept, hcopy, hkept⟩ := set (ε := Unit) h.prompt.cap htext.symm
    (by rw [htext]; exact min_le_right _ _)
  refine ⟨{ d with prompt := kept, promptLen := min prompt.length promptMax }, ?_,
    { h with prompt := hkept }⟩
  have hread : Settles (d.resumeLine prompt) True
      { d with prompt := kept, promptLen := min prompt.length promptMax } :=
    .read hshown <| .read hcopy <| .of_ok rfl
  exact hread.ok trivial

theorem startLine (prompt : Bytes) : Refines (d.startLine prompt) (e.startLine prompt) := by
  obtain ⟨d', hresume, hd'⟩ := h.resumeLine prompt
  exact .read hresume <| .read hd'.repaint <| .of_ok hd'

theorem echoed {left bytes : Bytes} (hleft : e.left = left ++ bytes) (hn : n = bytes.length) :
    Refines (d.echoed n) (e, bytes ++ e.right ++ moveBy 68 e.right.length) := by
  have hcur := h.cur
  rw [hleft, length_append] at hcur
  have hline := h.line
  rw [hleft] at hline
  have hshown : (slice d.buf (d.cur - n) d.len : Run Unit Bytes) = .ok (bytes ++ e.right) := by
    have hsplit : Holds lineMax d.buf d.len (left ++ (bytes ++ e.right) ++ []) := by
      simpa using hline
    refine hsplit.slice (by omega) ?_
    rw [h.len, hleft, length_append, length_append]
    omega
  exact .read (less_ok (by omega)) <| .read hshown <| .read (less_ok h.cur_le) <|
    .read h.back <| .of_ok h

theorem put (bytes : Bytes) (hn : n = bytes.length)
    (hfits : e.left.length + e.right.length + bytes.length ≤ lineMax) :
    ∃ buf' buf'', (copyWithin d.buf d.cur d.len (d.cur + n) : Run Unit Bytes) = .ok buf' ∧
      (copyFrom buf' d.cur (d.cur + n) bytes : Run Unit Bytes) = .ok buf'' ∧
      Shows { d with buf := buf'', len := d.len + n, cur := d.cur + n } (e.put bytes).1 := by
  obtain ⟨buf', buf'', hmove, hcopy, hline⟩ := h.line.insert (ε := Unit) (m := bytes) (a := d.cur)
    (b := d.cur + n) h.cur (by rw [h.cur, hn]) (by rw [h.len]; exact hfits)
  refine ⟨buf', buf'', hmove, hcopy, { h with line := ?_, cur := ?_ }⟩
  · rw [hn]
    exact hline
  · rw [Editor.put, length_append, h.cur, hn]

theorem insert (b : UInt8) : Refines (d.insert b) (e.insert b) := by
  have hlen : d.len = e.text.length := h.line.len
  by_cases hfull : lineMax ≤ e.text.length
  · rw [Editor.insert, if_pos hfull, LineDisc.insert, if_pos (hlen ▸ hfull)]
    exact .of_ok h
  · rw [Editor.insert, if_neg hfull, LineDisc.insert, if_neg (hlen ▸ hfull)]
    obtain ⟨buf', buf'', hmove, hcopy, hput⟩ := h.put [b] rfl (by
      rw [Editor.text, length_append] at hfull
      simp only [length_singleton]
      omega)
    refine .read hmove <| .read hcopy ?_
    by_cases hend : d.cur + 1 = d.len + 1
    · have hright : e.right = [] := by
        have hl := h.len
        rw [h.cur] at hend
        exact length_eq_zero_iff.mp (by omega)
      have hecho : (e.put [b]).2 = [b] := by simp [Editor.put, hright, moveBy]
      rw [if_pos hend]
      exact ⟨_, by rw [hecho]; rfl, hput⟩
    · dsimp only
      rw [if_neg hend]
      exact hput.echoed rfl rfl

theorem insertText (text : Bytes) : Refines (d.insertText text) (e.insertText text) := by
  induction text generalizing d e with
  | nil => exact .of_ok h
  | cons b text ih =>
    by_cases hb : 0x20 ≤ b ∧ b ≤ 0x7e
    · rw [insertText, Editor.insertText, if_pos hb, if_pos hb]
      obtain ⟨d', hd', hshows⟩ := h.insert b
      obtain ⟨d'', hd'', hshows'⟩ := ih hshows
      exact .read hd' <| .read hd'' <| .of_ok hshows'
    · rw [insertText, Editor.insertText, if_neg hb, if_neg hb]
      exact ih h

/-! ### Deleting -/

variable {x y : Bytes} {a : Nat} {m : Bytes}

theorem deleteRange {b : Nat}
    (htext : e.left ++ e.right = x ++ m ++ y) (hm : m ≠ []) (ha : a = x.length)
    (hb : b = x.length + m.length) (hcur : d.cur = a ∨ d.cur = b) :
    Refines (d.deleteRange a b)
      ({ e with left := x, right := y }, Editor.redraw (d.cur - a) y) := by
  have hline := h.line
  rw [htext] at hline
  have hlen : d.len = x.length + m.length + y.length := by
    rw [hline.len, length_append, length_append]
  have hpos := length_pos_iff.mpr hm
  have hbound := hline.le_cap
  rw [length_append, length_append] at hbound
  obtain ⟨buf', hmove, hline'⟩ := hline.remove (ε := Unit) ha hb
  have hnew : d.curWithout a b = .ok x.length := by
    rcases hcur with hcur | hcur
    · rw [curWithout, if_neg (by omega), hcur, min_self, ha]
    · rw [curWithout, if_pos (by omega), less_ok (by omega)]
      exact congrArg Except.ok (by omega)
  have hshows : Shows { d with buf := buf', len := d.len - (b - a), cur := x.length }
      { e with left := x, right := y } := by
    refine { h with line := ?_, cur := rfl }
    rw [show d.len - (b - a) = d.len - m.length by omega]
    exact hline'
  have htail : (slice buf' a (d.len - (b - a)) : Run Unit Bytes) = .ok y := by
    have hsplit : Holds lineMax buf' (d.len - m.length) (x ++ y ++ []) := by
      rw [append_nil]
      exact hline'
    exact hsplit.slice ha (by omega)
  refine .read (asserted_ok ⟨by omega, by omega, by omega⟩) <| .read (less_ok (by omega)) ?_
  rw [if_neg (by omega)]
  refine .read hmove <| .read (less_ok (by omega)) <| .read hnew <| .read (less_ok (by omega)) <|
    .read (csiMove_eq _ (by omega)) <| .read htail <| .read (less_ok hshows.cur_le) <|
    .read hshows.back <| .of_ok hshows

theorem cutFrom (a : Nat) (ha : a ≤ e.left.length) :
    Refines (d.deleteRange a d.cur) (e.cutFrom a) := by
  by_cases hnone : e.left.length ≤ a
  · rw [Editor.cutFrom, if_pos hnone]
    have hcur := h.cur
    have hle := h.cur_le
    refine .read (asserted_ok ⟨by omega, by omega, by omega⟩) <| .read (less_ok (by omega)) ?_
    rw [if_pos (by omega)]
    exact .of_ok h
  · rw [Editor.cutFrom, if_neg hnone, ← h.cur]
    refine h.deleteRange (m := e.left.drop a) (by rw [take_append_drop]) ?_ ?_ ?_ (.inr rfl)
    · exact drop_eq_nil_iff.not.mpr hnone
    · rw [length_take]
      omega
    · rw [← length_append, take_append_drop, h.cur]

theorem backspace : Refines d.backspace e.backspace := by
  have hcur := h.cur
  by_cases hzero : d.cur = 0
  · rw [LineDisc.backspace, if_pos hzero, Editor.backspace, Editor.cutFrom, if_pos (by omega)]
    exact .of_ok h
  · rw [LineDisc.backspace, if_neg hzero, Editor.backspace, ← hcur]
    exact h.cutFrom _ (by omega)

theorem deleteAt : Refines d.deleteAt e.deleteAt := by
  have hcur := h.cur
  have hlen := h.len
  cases hright : e.right with
  | nil =>
    rw [hright, length_nil] at hlen
    rw [LineDisc.deleteAt, if_pos (by omega), Editor.deleteAt, if_pos hright]
    exact .of_ok h
  | cons b right =>
    rw [hright, length_cons] at hlen
    rw [LineDisc.deleteAt, if_neg (by omega), Editor.deleteAt, hright]
    have hdelete := h.deleteRange (x := e.left) (m := [b]) (y := right) (a := d.cur)
      (b := d.cur + 1) (by simp [hright]) (by simp) hcur (by simp [hcur]) (.inl rfl)
    rw [Nat.sub_self] at hdelete
    exact hdelete

/-! ### Killing and yanking -/

theorem keep {b : Nat} (htext : e.left ++ e.right = x ++ m ++ y)
    (ha : a = x.length) (hb : b = x.length + m.length) :
    ∃ d', d.keep a b = .ok d' ∧ Shows d' { e with killed := m } ∧ d'.cur = d.cur ∧
      d'.len = d.len := by
  have hline := h.line
  rw [htext] at hline
  have hbound := hline.le_cap
  rw [length_append, length_append] at hbound
  obtain ⟨kill, hcopy, hkill⟩ := set (ε := Unit) h.kill.cap 
    (show b - a = m.length by omega) (by omega)
  have hread : Settles (d.keep a b) True { d with kill, killLen := b - a } :=
    .read (less_ok (by omega)) <| .read (hline.slice ha hb) <| .read hcopy <| .of_ok rfl
  exact ⟨_, hread.ok trivial, { h with kill := hkill }, rfl, rfl⟩

theorem killEnd : Refines d.killEnd e.killEnd := by
  obtain ⟨d', hkeep, hd', hcur, -⟩ := h.keep (x := e.left) (m := e.right) (y := []) (a := d.cur)
    (b := d.len) (by simp) h.cur h.len
  refine .read hkeep <| .of_ok { hd' with line := ?_, cur := ?_ }
  · obtain ⟨rest, hbuf⟩ := hd'.line.text
    rw [append_nil]
    exact ⟨hd'.line.cap, hd'.cur, e.right ++ rest, by rw [hbuf, append_assoc]⟩
  · exact hd'.cur

theorem killFrom (a : Nat) (ha : a ≤ e.left.length) : Refines (d.killFrom a) (e.killFrom a) := by
  have hcur := h.cur
  obtain ⟨d', hkeep, hd', -, -⟩ := h.keep (x := e.left.take a) (m := e.left.drop a) (y := e.right)
    (a := a) (b := d.cur) (by rw [take_append_drop]) (by rw [length_take]; omega)
    (by rw [← length_append, take_append_drop, hcur])
  refine .read hkeep ?_
  exact hd'.cutFrom a ha

end

theorem retreat {p : UInt8 → Bool} {buf : Bytes} (hbuf : buf = x ++ y)
    (ha : a = x.length) : LineDisc.retreat p buf a = .ok (x.rdropWhile p).length := by
  subst ha hbuf
  induction x using List.reverseRecOn generalizing y with
  | nil => rfl
  | append_singleton x b ih =>
    rw [length_append, length_singleton, LineDisc.retreat, append_assoc,
      singleton_append, byteAt_append rfl, rdropWhile_concat]
    change (if p b = true then LineDisc.retreat p (x ++ b :: y) x.length
      else .ok (x.length + 1)) = _
    by_cases hb : p b = true
    · rw [if_pos hb, if_pos hb]
      exact ih
    · rw [if_neg hb, if_neg hb, length_append, length_singleton]

variable (h : Shows d e)
include h

theorem killWord : Refines d.killWord e.killWord := by
  obtain ⟨rest, hbuf⟩ := h.line.text
  rw [append_assoc] at hbuf
  have hblanks := retreat (p := (· == 32)) hbuf h.cur
  obtain ⟨tail, htail⟩ : ∃ tail, e.left = e.left.rdropWhile (· == 32) ++ tail :=
    ( rdropWhile_prefix _ _).imp fun _ ht => ht.symm
  rw [htail, append_assoc] at hbuf
  refine .read hblanks <| .read (retreat hbuf rfl) (h.killFrom _ ?_)
  exact (( rdropWhile_prefix _ _).trans ( rdropWhile_prefix _ _)).length_le

theorem yank : Refines d.yank e.yank := by
  have hbound := h.bounded
  have hlen := h.len
  have htext : e.text.length = d.len := h.line.len.symm
  have hn : min d.killLen (lineMax - d.len) = (e.killed.take (lineMax - e.text.length)).length := by
    rw [length_take, htext, h.kill.len, min_comm]
  refine .read (less_ok (by omega)) ?_
  by_cases hnone : e.killed.take (lineMax - e.text.length) = []
  · have hecho : (if 0 < d.killLen then [7] else [] : Bytes) =
        if e.killed = [] then [] else [7] := by
      rw [h.kill.len]
      by_cases hk : e.killed = []
      · rw [if_pos hk, hk, if_neg (by simp)]
      · rw [if_neg hk, if_pos (length_pos_iff.mpr hk)]
    rw [hnone] at hn
    simp only [Editor.yank, hnone, if_true, hn, hecho]
    exact .of_ok h
  · have hpos := length_pos_iff.mpr hnone
    simp only [Editor.yank, if_neg hnone, hn, if_neg hpos.ne']
    obtain ⟨buf', buf'', hmove, hcopy, hput⟩ := h.put
      (e.killed.take (lineMax - e.text.length)) rfl (by
        omega)
    have hsrc : (slice d.kill 0 (e.killed.take (lineMax - e.text.length)).length : Run Unit Bytes) =
        .ok (e.killed.take (lineMax - e.text.length)) := by
      have hkill := h.kill
      rw [← take_append_drop (lineMax - e.text.length) e.killed] at hkill
      exact slice (x := []) hkill rfl (by simp)
    exact .read hmove <| .read hsrc <| .read hcopy <| hput.echoed rfl rfl

/-! ### Moving -/

theorem goLeft : Refines d.left e.goLeft := by
  have hcur := h.cur
  rcases eq_nil_or_concat' e.left with hleft | ⟨left, b, hleft⟩
  · rw [hleft, length_nil] at hcur
    rw [LineDisc.left, if_neg (by omega)]
    simp only [Editor.goLeft, hleft, getLast?_nil]
    exact .of_ok h
  · have hline := h.line
    rw [hleft, length_append, length_singleton] at hcur
    rw [hleft, append_assoc] at hline
    rw [LineDisc.left, if_pos (by omega)]
    simp only [Editor.goLeft, hleft, getLast?_concat, dropLast_concat]
    exact .of_ok { h with line := hline, cur := by simp only [hcur, Nat.add_sub_cancel] }

theorem goRight : Refines d.right e.goRight := by
  have hcur := h.cur
  have hlen := h.len
  cases hright : e.right with
  | nil =>
    rw [hright, length_nil] at hlen
    rw [LineDisc.right, if_neg (by omega)]
    simp only [Editor.goRight, hright]
    exact .of_ok h
  | cons b right =>
    have hline := h.line
    rw [hright, length_cons] at hlen
    rw [hright, ← singleton_append, ← append_assoc] at hline
    rw [LineDisc.right, if_pos (by omega)]
    simp only [Editor.goRight, hright]
    exact .of_ok { h with line := hline, cur := by simp only [hcur, length_append, length_singleton] }

theorem home : Refines d.home e.home :=
  .read h.toStart <| .of_ok { h with cur := rfl }

theorem stop : Refines d.stop e.stop := by
  have hforth : csiRight (d.len - d.cur) = .ok (moveBy 67 e.right.length) := by
    have hb := h.bounded
    have hlen := h.len
    have hcur := h.cur
    rw [show d.len - d.cur = e.right.length by omega]
    exact csiMove_eq _ (by omega)
  refine .read (less_ok h.cur_le) <| .read hforth <| .of_ok { h with line := ?_, cur := h.line.len }
  simp only [Editor.text, append_nil]
  exact h.line

/-! ### The history -/

theorem replaceLine {text : Bytes} (htext : text.length ≤ lineMax) :
    Refines (d.replaceLine text) (e.replace text []) := by
  have hn : min text.length lineMax = text.length := min_eq_left htext
  obtain ⟨buf, hcopy, hbuf⟩ := set (ε := Unit) h.line.cap (n := text.length) rfl htext
  have hsrc : (slice text 0 text.length : Run Unit Bytes) = .ok text := by
    rw [slice_ok (Nat.zero_le _) le_rfl, part, Nat.sub_zero, drop_zero, take_length]
  refine .read h.toStart ?_
  rw [hn]
  refine .read hsrc <| .read hcopy <| .read hbuf.whole ?_
  have hecho : (e.replace text []).2 = moveBy 68 e.left.length ++ text ++ eraseRest := by
    simp [Editor.replace, moveBy]
  refine ⟨{ d with buf, len := text.length, cur := text.length }, by rw [hecho],
    { h with line := ?_, cur := rfl }⟩
  simp only [Editor.replace, append_nil]
  exact hbuf

theorem held (hk : k < e.history.length) :
    ∃ s, d.hist[(d.histNext + 7 - k) % 8]? = some s ∧ slotText s = e.history.getD k [] ∧
      Holds lineMax s.1 s.2 (slotText s) := by
  have hnew := h.hist.newest k hk
  rw [getElem?_map, getElem?_eq_getElem hk] at hnew
  obtain ⟨s, hs, htext⟩ := Option.map_eq_some_iff.mp hnew
  refine ⟨s, hs, ?_, h.hist.held s (mem_of_getElem? hs)⟩
  rw [htext, getD_eq_getElem?_getD, getElem?_eq_getElem hk, Option.getD_some]

theorem recent (hpos : 0 < k) (hk : k ≤ e.history.length) :
    d.recent k = .ok (e.history.getD (k - 1) []) := by
  have hle := h.hist.le
  obtain ⟨s, hs, htext, hholds⟩ := h.held (k := k - 1) (by omega)
  have hidx : (d.histNext + 7 - (k - 1)) % 8 = (d.histNext + histMax - k) % histMax := by
    simp only [histMax]
    congr 1
    omega
  rw [hidx] at hs
  have hslot : d.slot ((d.histNext + histMax - k) % histMax) = .ok (slotText s) := by
    rw [slot, hs]
    exact hholds.whole
  have hread : Settles (d.recent k) True (slotText s) :=
    .read (less_ok (by simp only [histMax]; omega)) <| .of_ok hslot
  rw [hread.ok trivial, htext]

theorem history_le (hk : k < e.history.length) : (e.history.getD k []).length ≤ lineMax := by
  obtain ⟨s, -, htext, hholds⟩ := h.held hk
  rw [← htext]
  exact hholds.le_cap

theorem browse_line (below : Browsing) (hpos : 0 < k)
    (hk : k ≤ e.history.length) (hstash : Holds lineMax d.stash.1 d.stash.2.1 (below.left ++ below.right))
    (hcur : d.stash.2.2 = below.left.length) :
    Refines ({ d with browse := some k }.recent k >>= { d with browse := some k }.replaceLine)
      (e.browse below k) := by
  have hshows : Shows { d with browse := some k }
      { e with browsing := some { below with shown := k } } :=
    { h with browse := ⟨rfl, hpos, by rw [h.hist.counted]; exact hk, hstash, hcur⟩ }
  exact .read (hshows.recent hpos hk) (hshows.replaceLine (h.history_le (by omega)))

theorem browsing_cases : (d.browse = none ∧ e.browsing = none) ∨
    ∃ below, d.browse = some below.shown ∧ e.browsing = some below ∧ 0 < below.shown ∧
      below.shown ≤ e.history.length ∧
      Holds lineMax d.stash.1 d.stash.2.1 (below.left ++ below.right) ∧
      d.stash.2.2 = below.left.length := by
  have hbrowse := h.browse
  cases hd : d.browse with
  | none =>
    cases he : e.browsing with
    | none => exact .inl ⟨rfl, rfl⟩
    | some below =>
      rw [hd, he] at hbrowse
      exact hbrowse.elim
  | some k =>
    cases he : e.browsing with
    | none =>
      rw [hd, he] at hbrowse
      exact hbrowse.elim
    | some below =>
      rw [hd, he] at hbrowse
      obtain ⟨hk, hpos, hle, hstash, hcur⟩ := hbrowse
      rw [h.hist.counted] at hle
      subst hk
      exact .inr ⟨below, rfl, rfl, hpos, hle, hstash, hcur⟩

theorem older : Refines d.histPrev e.older := by
  rcases h.browsing_cases with ⟨hd, he⟩ | ⟨below, hd, he, hpos, hle, hstash, hcur⟩
  · by_cases hnone : e.history = []
    · have hcount : d.histCount = 0 := by rw [h.hist.counted, hnone, length_nil]
      simp only [histPrev, Editor.older, hd, he, hnone, hcount, if_true]
      exact .of_ok h
    · have hlen := length_pos_iff.mpr hnone
      have hcount : d.histCount ≠ 0 := by
        rw [h.hist.counted]
        exact hlen.ne'
      have hcap : d.stash.1.length = lineMax := by
        have hbrowse := h.browse
        rwa [hd, he] at hbrowse
      obtain ⟨stash, hcopy, hstash⟩ := set (ε := Unit) hcap h.line.len h.line.le_cap
      simp only [histPrev, Editor.older, hd, he, if_neg hnone, if_neg hcount]
      refine .read h.line.whole <| .read hcopy ?_
      have hshows : Shows { d with stash := (stash, d.len, d.cur) } e := { h with
        browse := by
          simp only [hd, he, Browses]
          exact hstash.cap }
      exact hshows.browse_line ⟨0, e.left, e.right⟩ one_pos hlen hstash h.cur
  · simp only [histPrev, Editor.older, hd, he]
    by_cases hmore : below.shown < e.history.length
    · rw [if_pos hmore, if_pos (by rw [h.hist.counted]; exact hmore)]
      exact h.browse_line below (Nat.succ_pos _) hmore hstash hcur
    · rw [if_neg hmore, if_neg (by rw [h.hist.counted]; exact hmore)]
      exact .of_ok h

theorem newer : Refines d.histNextEntry e.newer := by
  rcases h.browsing_cases with ⟨hd, he⟩ | ⟨below, hd, he, hpos, hle, hstash, hcur⟩
  · simp only [histNextEntry, Editor.newer, hd, he]
    exact .of_ok h
  · simp only [histNextEntry, Editor.newer, hd, he]
    by_cases hfirst : below.shown = 1
    · rw [if_pos hfirst, if_pos hfirst]
      have hshows : Shows { d with browse := none } { e with browsing := none } :=
        { h with browse := hstash.cap }
      obtain ⟨d', hreplace, hd'⟩ := hshows.replaceLine hstash.le_cap
      have hbound := hstash.le_cap
      have hslen := hstash.len
      rw [length_append] at hbound hslen
      have hback : csiLeft (d.stash.2.1 - d.stash.2.2) = .ok (moveBy 68 below.right.length) := by
        rw [show d.stash.2.1 - d.stash.2.2 = below.right.length by omega]
        exact csiMove_eq _ (by omega)
      refine .read hstash.whole <| .read hreplace <| .read (less_ok (by omega)) <| .read hback ?_
      refine ⟨{ d' with cur := d.stash.2.2 }, ?_, { hd' with line := ?_, cur := hcur }⟩
      · simp [Editor.replace, moveBy]
      · have hline := hd'.line
        simpa [Editor.replace] using hline
    · rw [if_neg hfirst, if_neg hfirst]
      exact .read (less_ok (by omega)) (h.browse_line below (by omega) (by omega) hstash hcur)

/-! ### Completing a line -/

theorem repeatsNewest : d.repeatsNewest = .ok (decide (e.history.head? = some e.text)) := by
  cases hhist : e.history with
  | nil =>
    rw [LineDisc.repeatsNewest, if_pos (by rw [h.hist.counted, hhist, length_nil])]
    rfl
  | cons line lines =>
    have hrecent := h.recent one_pos (by rw [hhist, length_cons]; omega)
    rw [hhist] at hrecent
    have hread : Settles d.repeatsNewest True (decide (line = e.text)) := by
      rw [LineDisc.repeatsNewest, if_neg (by rw [h.hist.counted, hhist]; simp)]
      exact .read hrecent <| .read h.line.whole <| .of_ok rfl
    rw [hread.ok trivial]
    simp

end Shows

/-- A line in the next slot is the newest, and the oldest is given up. -/
theorem Rings.push {slots : List (Bytes × Nat)} {count next : Nat} {lines : List Bytes}
    (h : Rings slots count next lines) {entry : Bytes × Nat} {line : Bytes}
    (hentry : Holds lineMax entry.1 entry.2 line) :
    Rings (slots.set next entry) (min (count + 1) histMax) ((next + 1) % histMax)
      ((line :: lines).take histMax) where
  size := by rw [length_set, h.size]
  held := by
    intro s hs
    rcases mem_or_eq_of_mem_set hs with hs | rfl
    · exact h.held s hs
    · rw [slotText, hentry.take]
      exact hentry
  inside := Nat.mod_lt _ (by decide)
  counted := by rw [length_take, length_cons, h.counted, Nat.min_comm]
  le := by
    rw [length_take]
    exact min_le_left _ _
  newest := by
    intro k hk
    have hsize := h.size
    have hinside := h.inside
    rw [length_take, length_cons, histMax] at hk
    rw [getElem?_map, getElem?_take_of_lt (by rw [histMax]; omega)]
    cases k with
    | zero =>
      have hidx : ((next + 1) % histMax + 7 - 0) % 8 = next := by
        rw [histMax]
        omega
      rw [hidx, getElem?_set_self (by omega)]
      simp [slotText, hentry.take]
    | succ k =>
      have hidx : ((next + 1) % histMax + 7 - (k + 1)) % 8 = (next + 7 - k) % 8 := by
        rw [histMax]
        omega
      rw [hidx, getElem?_set_ne (by omega), ← getElem?_map, h.newest k (by omega)]
      rfl

namespace Shows

section

variable (h : Shows d e)
include h

theorem record : ∃ hist', d.record = .ok { d with
      hist := hist'
      histNext := (d.histNext + 1) % histMax
      histCount := min (d.histCount + 1) histMax } ∧
    Rings hist' (min (d.histCount + 1) histMax) ((d.histNext + 1) % histMax)
      ((e.text :: e.history).take histMax) := by
  have hsize := h.hist.size
  have hinside := h.hist.inside
  obtain ⟨entry, hentry⟩ : ∃ entry, d.hist[d.histNext]? = some entry :=
    ⟨_, getElem?_eq_getElem (by omega)⟩
  have hcap := (h.hist.held entry (mem_of_getElem? hentry)).cap
  obtain ⟨text, hcopy, htext⟩ := set (ε := Unit) hcap h.line.len h.line.le_cap
  refine ⟨d.hist.set d.histNext (text, d.len), ?_, h.hist.push htext⟩
  rw [LineDisc.record, hentry]
  have hread := Settles.read (f := fun line => do
    let text ← copyFrom entry.1 0 d.len line
    .ok { d with
      hist := d.hist.set d.histNext (text, d.len)
      histNext := (d.histNext + 1) % histMax
      histCount := min (d.histCount + 1) histMax }) h.line.whole (.read hcopy (.of_ok rfl))
  exact hread.ok trivial

theorem remember : ∃ hist' next count, d.remember = .ok { d with
      hist := hist', histNext := next, histCount := count } ∧
    Rings hist' count next (Editor.remember e.history e.text) := by
  have hlen : d.len = e.text.length := h.line.len
  by_cases hempty : e.text = []
  · refine ⟨d.hist, d.histNext, d.histCount, ?_, ?_⟩
    · rw [LineDisc.remember, if_pos (by rw [hlen, hempty, length_nil])]
    · rw [Editor.remember, if_pos (.inl hempty)]
      exact h.hist
  · have hpos := length_pos_iff.mpr hempty
    rw [LineDisc.remember, if_neg (by omega), h.repeatsNewest]
    by_cases hknown : e.history.head? = some e.text
    · refine ⟨d.hist, d.histNext, d.histCount, ?_, ?_⟩
      · simp only [hknown, decide_true]
        rfl
      · rw [Editor.remember, if_pos (.inr hknown)]
        exact h.hist
    · obtain ⟨hist', hrecord, hrings⟩ := h.record
      refine ⟨hist', (d.histNext + 1) % histMax, min (d.histCount + 1) histMax, ?_, ?_⟩
      · simp only [hknown, decide_false]
        exact hrecord
      · rw [Editor.remember, if_neg (not_or.mpr ⟨hempty, hknown⟩)]
        exact hrings

theorem finishLine : Refines d.finishLine e.finishLine := by
  obtain ⟨done, hcopy, hdone⟩ := set (ε := Unit) h.done.cap h.line.len h.line.le_cap
  have hshows : Shows { d with done, doneLen := d.len } { e with done := e.text } :=
    { h with done := hdone }
  obtain ⟨hist', next, count, hremember, hrings⟩ := hshows.remember
  have hstash : d.stash.1.length = lineMax := by
    rcases h.browsing_cases with ⟨hd, he⟩ | ⟨below, -, -, -, -, hstash, -⟩
    · have hbrowse := h.browse
      rwa [hd, he] at hbrowse
    · exact hstash.cap
  refine .read h.line.whole <| .read hcopy <| .read hremember <| .of_ok ?_
  exact
    { line := .nil h.line.cap
      cur := rfl
      done := hdone
      kill := h.kill
      hist := hrings
      browse := hstash
      prompt := .nil h.prompt.cap
      esc := h.esc
      wasCr := h.wasCr }

theorem abandon : Shows d.abandon e.abandon := by
  refine { h with line := .nil h.line.cap, cur := rfl, browse := ?_ }
  rcases h.browsing_cases with ⟨hd, he⟩ | ⟨below, -, -, -, -, hstash, -⟩
  · have hbrowse := h.browse
    rwa [hd, he] at hbrowse
  · exact hstash.cap

end

/-! ### One byte -/

theorem quiet {x : Run Unit (LineDisc × Bytes)} {y : Editor × Bytes} (h : Refines x y) :
    Refines (quiet x) (Editor.quiet y) := by
  obtain ⟨d, hx, hshows⟩ := h
  exact .read hx (.of_ok hshows)

section

variable (h : Shows d e)
include h

theorem press (key : Key) : Refines (d.press key) (e.press key) := by
  cases key with
  | left => exact h.goLeft
  | right => exact h.goRight
  | older => exact h.older
  | newer => exact h.newer
  | home => exact h.home
  | stop => exact h.stop
  | delete => exact h.deleteAt

theorem typed (b : UInt8) : Refines (d.typed b) (e.typed b) := by
  have hempty : d.len = 0 ↔ e.text = [] := by
    rw [show d.len = e.text.length from h.line.len, length_eq_zero_iff]
  unfold LineDisc.typed Editor.typed
  refine .ite (fun _ => .of_ok { h with esc := rfl }) <|
    .ite (fun _ => Shows.finishLine { h with wasCr := rfl }) <|
    .ite (fun _ => .of_ok h.abandon) <| .ite (fun _ => .of_ok h) <| .ite (fun _ => ?_) <|
    .ite (fun _ => quiet h.home) <| .ite (fun _ => quiet h.stop) <|
    .ite (fun _ => quiet h.goLeft) <| .ite (fun _ => quiet h.goRight) <|
    .ite (fun _ => quiet h.killEnd) <| .ite (fun _ => quiet (h.killFrom 0 (Nat.zero_le _))) <|
    .ite (fun _ => quiet h.killWord) <| .ite (fun _ => quiet h.yank) <|
    .ite (fun _ => .read h.repaint (.of_ok h)) <| .ite (fun _ => quiet h.backspace) <|
    .ite (fun _ => quiet (h.insert b)) (.of_ok h)
  by_cases hnone : e.text = []
  · rw [if_pos hnone, if_pos (hempty.mpr hnone)]
    exact .of_ok h
  · rw [if_neg hnone, if_neg (mt hempty.mp hnone)]
    exact quiet h.deleteAt

theorem take (b : UInt8) (decoded : Decoded) : Refines (d.take b decoded) (e.take b decoded) := by
  cases decoded with
  | plain => exact h.typed b
  | more next => exact .of_ok { h with esc := rfl }
  | final p =>
    have hidle : Shows { d with esc := .idle } { e with esc := .idle } := { h with esc := rfl }
    simp only [LineDisc.take, Editor.take]
    cases hkey : csiFinal b p with
    | none => exact .of_ok hidle
    | some key => exact quiet (hidle.press key)

/-- **The engine does with a byte what the editor does**, for any arithmetic. -/
theorem feed (ar : Arith) (b : UInt8) : (∃ y, e.feed ar b = .ok y ∧ Refines (d.feed ar b) y) ∨
      ∃ s, e.feed ar b = .error s ∧ d.feed ar b = .error s := by
  have hclear : Shows { d with lastWasCr := false } { e with wasCr := false } :=
    { h with wasCr := rfl }
  rw [show e.feed ar b = if b = 10 ∧ d.lastWasCr = true then
      .ok ({ e with wasCr := false }, [], .none)
    else (do
      let decoded ← escape ar d.esc b
      .ok (Editor.take { e with wasCr := false } b decoded)) by rw [h.wasCr, h.esc]; rfl]
  split_ifs with hlf
  · rw [LineDisc.feed, if_pos hlf]
    exact .inl ⟨_, rfl, .of_ok hclear⟩
  · rw [LineDisc.feed, if_neg hlf]
    cases hdecoded : escape ar d.esc b with
    | error s => exact .inr ⟨s, rfl, rfl⟩
    | ok decoded => exact .inl ⟨_, rfl, .read rfl (hclear.take b decoded)⟩

end

end Shows

end Nife.LineEditor
