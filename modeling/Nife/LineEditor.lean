/-
The line discipline of the terminal: bytes come in one at a time, an edited line comes out, and what
the person should see is echoed.

`LineDisc` is the engine with its fixed arrays, and its methods are the code's, in the order it does
things: an access outside an array, a difference below zero and an overflow are panics.  Each method
gives the engine after it and the bytes it put to the sink.

The parser of escape sequences counts in machine words.  What an overflow does depends on how the
program was built, so the methods take the arithmetic as a parameter: `checked` stops, `wrapping`
goes on with what is left of the number.  `unbounded` counts as one does on paper.
-/
import Nife.Lib.Buffers
import Mathlib.Data.Nat.Digits.Defs

namespace Nife.LineEditor

open Slices Buffers

def lineMax : Nat := 256

def histMax : Nat := 8

def promptMax : Nat := 64

/-- What one input byte amounted to. -/
inductive Event
  | none | line | eof | interrupt | tab
  deriving DecidableEq, Repr

/-- The state of the escape parser; `csi` has the two parameters and the number of semicolons. -/
inductive EscState
  | idle | esc
  | csi (first second n : Nat)
  | ss3
  deriving DecidableEq, Repr

/-! ### Escape sequences -/

/-- How the parser counts: another digit of a parameter, and another semicolon. -/
structure Arith where
  digit : Nat → Nat → Run Unit Nat
  next : Nat → Run Unit Nat

/-- Words with overflow checks. -/
def checked : Arith where
  digit p d := if min 65535 (p * 10) + d < 65536 then .ok (min 65535 (p * 10) + d) else .error .panic
  next n := sum n 1

/-- Words without. -/
def wrapping : Arith where
  digit p d := .ok ((min 65535 (p * 10) + d) % 65536)
  next n := .ok ((n + 1) % 2 ^ 64)

/-- Numbers. -/
def unbounded : Arith where
  digit p d := .ok (p * 10 + d)
  next n := .ok (n + 1)

/-- What the parser makes of a byte. -/
inductive Decoded
  /-- It is outside an escape sequence. -/
  | plain
  /-- It is swallowed. -/
  | more (next : EscState)
  /-- It ends a sequence with a first parameter. -/
  | final (p : Nat)
  deriving DecidableEq, Repr

def isDigit (b : UInt8) : Prop := 48 ≤ b ∧ b ≤ 57

instance (b : UInt8) : Decidable (isDigit b) := inferInstanceAs (Decidable (_ ∧ _))

/-- One byte of the escape parser. -/
def escape (ar : Arith) (state : EscState) (b : UInt8) : Run Unit Decoded :=
  match state with
  | .idle => .ok .plain
  | .esc => .ok (.more (if b = 91 then .csi 0 0 0 else if b = 79 then .ss3 else .idle))
  | .csi first second n =>
      if isDigit b then
        if n = 0 then do
          let first ← ar.digit first (b - 48).toNat
          .ok (.more (.csi first second n))
        else do
          let second ← ar.digit second (b - 48).toNat
          .ok (.more (.csi first second n))
      else if b = 59 then do
        let n ← ar.next n
        .ok (.more (.csi first second n))
      else if 0x40 ≤ b ∧ b ≤ 0x7e then .ok (.final first)
      else .ok (.more .idle)
  | .ss3 => .ok (.final 0)

/-- The keys of the editor. -/
inductive Key
  | left | right | older | newer | home | stop | delete
  deriving DecidableEq, Repr

/-- The key of a final byte with its first parameter. -/
def csiFinal (b : UInt8) (p : Nat) : Option Key :=
  if b = 68 then some .left
  else if b = 67 then some .right
  else if b = 65 then some .older
  else if b = 66 then some .newer
  else if b = 72 ∨ b = 126 ∧ (p = 1 ∨ p = 7) then some .home
  else if b = 70 ∨ b = 126 ∧ (p = 4 ∨ p = 8) then some .stop
  else if b = 126 ∧ p = 3 then some .delete
  else none

/-! ### Moving the cursor -/

/-- The decimal digits of a number into an array from its index `i` down. -/
def putDigits : Nat → Nat → Bytes → Run Unit (Nat × Bytes)
  | i, 0, seq => .ok (i, seq)
  | 0, _ + 1, _ => .error .panic
  | i + 1, v + 1, seq => do
      let seq ← copyFrom seq i (i + 1) [48 + UInt8.ofNat ((v + 1) % 10)]
      putDigits i ((v + 1) / 10) seq

/-- The sequence that moves the cursor `n` cells in a direction. -/
def csiMove (n : Nat) (dir : UInt8) : Run Unit Bytes :=
  match n with
  | 0 => .ok []
  | 1 => .ok [0x1b, 91, dir]
  | n => do
      let (i, seq) ← putDigits 10 n (0x1b :: 91 :: List.replicate 9 0)
      let seq ← copyWithin seq i 10 2
      let digits ← less 10 i
      let seq ← copyFrom seq (2 + digits) (3 + digits) [dir]
      slice seq 0 (3 + digits)

def csiLeft (n : Nat) : Run Unit Bytes := csiMove n 68

def csiRight (n : Nat) : Run Unit Bytes := csiMove n 67

/-- Erase to the end of the row. -/
def eraseRest : Bytes := [0x1b, 91, 75]

/-! ### The engine -/

/-- The editing engine. -/
structure LineDisc where
  buf : Bytes
  (len cur : Nat)
  done : Bytes
  doneLen : Nat
  kill : Bytes
  killLen : Nat
  hist : List (Bytes × Nat)
  (histCount histNext : Nat)
  browse : Option Nat
  stash : Bytes × Nat × Nat
  prompt : Bytes
  promptLen : Nat
  esc : EscState
  lastWasCr : Bool
  deriving DecidableEq, Repr

namespace LineDisc

def new : LineDisc where
  buf := List.replicate lineMax 0
  len := 0
  cur := 0
  done := List.replicate lineMax 0
  doneLen := 0
  kill := List.replicate lineMax 0
  killLen := 0
  hist := List.replicate histMax (List.replicate lineMax 0, 0)
  histCount := 0
  histNext := 0
  browse := none
  stash := (List.replicate lineMax 0, 0, 0)
  prompt := List.replicate promptMax 0
  promptLen := 0
  esc := .idle
  lastWasCr := false

section

variable (d : LineDisc)

/-- The completed line. -/
def line : Bytes := d.done.take d.doneLen

def abandon : LineDisc := { d with len := 0, cur := 0, browse := none }

/-- The prompt, the line and the cursor where it was. -/
def repaint : Run Unit Bytes := do
  let prompt ← slice d.prompt 0 d.promptLen
  let line ← slice d.buf 0 d.len
  let tail ← less d.len d.cur
  let back ← csiLeft tail
  .ok (prompt ++ line ++ back)

def resumeLine (prompt : Bytes) : Run Unit LineDisc := do
  let n := min prompt.length promptMax
  let shown ← slice prompt 0 n
  let kept ← copyFrom d.prompt 0 n shown
  .ok { d with prompt := kept, promptLen := n }

def startLine (prompt : Bytes) : Run Unit (LineDisc × Bytes) := do
  let d ← d.resumeLine prompt
  let echo ← d.repaint
  .ok (d, echo)

/-- Echo the `n` bytes before the cursor and the tail, and walk back over the tail. -/
def echoed (n : Nat) : Run Unit (LineDisc × Bytes) := do
  let start ← less d.cur n
  let shown ← slice d.buf start d.len
  let tail ← less d.len d.cur
  let back ← csiLeft tail
  .ok (d, shown ++ back)

def insert (b : UInt8) : Run Unit (LineDisc × Bytes) :=
  if lineMax ≤ d.len then .ok (d, [7])
  else do
    let buf ← copyWithin d.buf d.cur d.len (d.cur + 1)
    let buf ← copyFrom buf d.cur (d.cur + 1) [b]
    let d := { d with buf, len := d.len + 1, cur := d.cur + 1 }
    if d.cur = d.len then .ok (d, [b]) else d.echoed 1

/-- Text at the cursor, its printable bytes only. -/
def insertText (d : LineDisc) : Bytes → Run Unit (LineDisc × Bytes)
  | [] => .ok (d, [])
  | b :: text =>
      if 0x20 ≤ b ∧ b ≤ 0x7e then do
        let (d, echo) ← d.insert b
        let (d, echo') ← d.insertText text
        .ok (d, echo ++ echo')
      else d.insertText text

/-- The cursor once the bytes from `a` to `b` are gone. -/
def curWithout (a b : Nat) : Run Unit Nat :=
  if b ≤ d.cur then less d.cur (b - a) else .ok (min d.cur a)

/-- Remove the bytes from `a` to `b` and repaint what changed. -/
def deleteRange (a b : Nat) : Run Unit (LineDisc × Bytes) := do
  asserted (a ≤ b ∧ b ≤ d.len ∧ a ≤ d.cur)
  let removed ← less b a
  if removed = 0 then .ok (d, [])
  else do
    let oldCur := d.cur
    let buf ← copyWithin d.buf b d.len a
    let len ← less d.len removed
    let cur ← d.curWithout a b
    let d := { d with buf, len, cur }
    let back ← less oldCur a
    let toStart ← csiLeft back
    let tail ← slice d.buf a d.len
    let rest ← less d.len d.cur
    let toCursor ← csiLeft rest
    .ok (d, toStart ++ tail ++ eraseRest ++ toCursor)

def backspace : Run Unit (LineDisc × Bytes) :=
  if d.cur = 0 then .ok (d, []) else d.deleteRange (d.cur - 1) d.cur

def deleteAt : Run Unit (LineDisc × Bytes) :=
  if d.cur = d.len then .ok (d, []) else d.deleteRange d.cur (d.cur + 1)

/-- The bytes from `a` to `b` into the kill buffer. -/
def keep (a b : Nat) : Run Unit LineDisc := do
  let n ← less b a
  let src ← slice d.buf a b
  let kill ← copyFrom d.kill 0 n src
  .ok { d with kill, killLen := n }

def killEnd : Run Unit (LineDisc × Bytes) := do
  let d ← d.keep d.cur d.len
  .ok ({ d with len := d.cur }, eraseRest)

def killFrom (a : Nat) : Run Unit (LineDisc × Bytes) := do
  let d ← d.keep a d.cur
  d.deleteRange a d.cur

/-- Back over the bytes before `a` that satisfy `p`. -/
def retreat (p : UInt8 → Bool) (buf : Bytes) : Nat → Run Unit Nat
  | 0 => .ok 0
  | a + 1 => do
      let b ← byteAt buf a
      if p b then retreat p buf a else .ok (a + 1)

def killWord : Run Unit (LineDisc × Bytes) := do
  let a ← retreat (· == 32) d.buf d.cur
  let a ← retreat (· != 32) d.buf a
  d.killFrom a

def yank : Run Unit (LineDisc × Bytes) := do
  let room ← less lineMax d.len
  let n := min d.killLen room
  if n = 0 then .ok (d, if 0 < d.killLen then [7] else [])
  else do
    let buf ← copyWithin d.buf d.cur d.len (d.cur + n)
    let src ← slice d.kill 0 n
    let buf ← copyFrom buf d.cur (d.cur + n) src
    { d with buf, len := d.len + n, cur := d.cur + n }.echoed n

def left : Run Unit (LineDisc × Bytes) :=
  if 0 < d.cur then .ok ({ d with cur := d.cur - 1 }, [8]) else .ok (d, [])

def right : Run Unit (LineDisc × Bytes) :=
  if d.cur < d.len then .ok ({ d with cur := d.cur + 1 }, [0x1b, 91, 67]) else .ok (d, [])

def home : Run Unit (LineDisc × Bytes) := do
  let back ← csiLeft d.cur
  .ok ({ d with cur := 0 }, back)

def stop : Run Unit (LineDisc × Bytes) := do
  let tail ← less d.len d.cur
  let forth ← csiRight tail
  .ok ({ d with cur := d.len }, forth)

def replaceLine (text : Bytes) : Run Unit (LineDisc × Bytes) := do
  let back ← csiLeft d.cur
  let n := min text.length lineMax
  let src ← slice text 0 n
  let buf ← copyFrom d.buf 0 n src
  let d := { d with buf, len := n, cur := n }
  let shown ← slice d.buf 0 n
  .ok (d, back ++ shown ++ eraseRest)

/-- The history entry in a slot. -/
def slot (i : Nat) : Run Unit Bytes :=
  match d.hist[i]? with
  | some (entry, n) => slice entry 0 n
  | none => .error .panic

/-- The history entry that was completed `k` lines ago. -/
def recent (k : Nat) : Run Unit Bytes := do
  let back ← less (d.histNext + histMax) k
  d.slot (back % histMax)

def histPrev : Run Unit (LineDisc × Bytes) :=
  match d.browse with
  | none =>
      if d.histCount = 0 then .ok (d, [7])
      else do
        let src ← slice d.buf 0 d.len
        let stash ← copyFrom d.stash.1 0 d.len src
        let d := { d with stash := (stash, d.len, d.cur), browse := some 1 }
        let entry ← d.recent 1
        d.replaceLine entry
  | some k =>
      if k < d.histCount then do
        let d := { d with browse := some (k + 1) }
        let entry ← d.recent (k + 1)
        d.replaceLine entry
      else .ok (d, [7])

def histNextEntry : Run Unit (LineDisc × Bytes) :=
  match d.browse with
  | none => .ok (d, [7])
  | some k =>
      if k = 1 then do
        let text ← slice d.stash.1 0 d.stash.2.1
        let (d', echo) ← { d with browse := none }.replaceLine text
        let tail ← less d.stash.2.1 d.stash.2.2
        let back ← csiLeft tail
        .ok ({ d' with cur := d.stash.2.2 }, echo ++ back)
      else do
        let k ← less k 1
        let d := { d with browse := some k }
        let entry ← d.recent k
        d.replaceLine entry

def repeatsNewest : Run Unit Bool :=
  if d.histCount = 0 then .ok false
  else do
    let entry ← d.recent 1
    let line ← slice d.buf 0 d.len
    .ok (entry = line)

/-- A line into the history. -/
def record : Run Unit LineDisc :=
  match d.hist[d.histNext]? with
  | none => .error .panic
  | some entry => do
      let line ← slice d.buf 0 d.len
      let text ← copyFrom entry.1 0 d.len line
      .ok { d with
        hist := d.hist.set d.histNext (text, d.len)
        histNext := (d.histNext + 1) % histMax
        histCount := min (d.histCount + 1) histMax }

/-- A line into the history, unless it is empty or repeats the newest entry. -/
def remember : Run Unit LineDisc :=
  if d.len = 0 then .ok d
  else do
    let known ← d.repeatsNewest
    if known then .ok d else d.record

def finishLine : Run Unit (LineDisc × Bytes × Event) := do
  let line ← slice d.buf 0 d.len
  let done ← copyFrom d.done 0 d.len line
  let d ← { d with done, doneLen := d.len }.remember
  .ok ({ d with len := 0, cur := 0, browse := none, promptLen := 0 }, [13, 10], .line)

def press : Key → Run Unit (LineDisc × Bytes)
  | .left => d.left
  | .right => d.right
  | .older => d.histPrev
  | .newer => d.histNextEntry
  | .home => d.home
  | .stop => d.stop
  | .delete => d.deleteAt

end

def quiet (x : Run Unit (LineDisc × Bytes)) : Run Unit (LineDisc × Bytes × Event) := do
  let (d, echo) ← x
  .ok (d, echo, .none)

/-- A byte outside an escape sequence. -/
def typed (d : LineDisc) (b : UInt8) : Run Unit (LineDisc × Bytes × Event) :=
  if b = 0x1b then .ok ({ d with esc := .esc }, [], .none)
  else if b = 13 ∨ b = 10 then finishLine { d with lastWasCr := b = 13 }
  else if b = 3 then .ok (d.abandon, [94, 67, 13, 10], .interrupt)
  else if b = 9 then .ok (d, [], .tab)
  else if b = 4 then if d.len = 0 then .ok (d, [], .eof) else quiet d.deleteAt
  else if b = 1 then quiet d.home
  else if b = 5 then quiet d.stop
  else if b = 2 then quiet d.left
  else if b = 6 then quiet d.right
  else if b = 11 then quiet d.killEnd
  else if b = 21 then quiet (d.killFrom 0)
  else if b = 23 then quiet d.killWord
  else if b = 25 then quiet d.yank
  else if b = 12 then do
    let echo ← d.repaint
    .ok (d, [0x1b, 91, 50, 74, 0x1b, 91, 72] ++ echo, .none)
  else if b = 8 ∨ b = 0x7f then quiet d.backspace
  else if 0x20 ≤ b ∧ b ≤ 0x7e then quiet (d.insert b)
  else .ok (d, [], .none)

/-- What becomes of a byte once the escape parser has seen it. -/
def take (d : LineDisc) (b : UInt8) : Decoded → Run Unit (LineDisc × Bytes × Event)
  | .more next => .ok ({ d with esc := next }, [], .none)
  | .final p =>
      let d := { d with esc := .idle }
      match csiFinal b p with
      | some key => quiet (d.press key)
      | none => .ok (d, [], .none)
  | .plain => d.typed b

/-- Feed one wire byte. -/
def feed (ar : Arith) (d : LineDisc) (b : UInt8) : Run Unit (LineDisc × Bytes × Event) :=
  let wasCr := d.lastWasCr
  let d := { d with lastWasCr := false }
  if b = 10 ∧ wasCr = true then .ok (d, [], .none)
  else do
    let decoded ← escape ar d.esc b
    d.take b decoded

end LineDisc

end Nife.LineEditor
