/-
The echo keeps the screen true.  On a terminal of unbounded width the row of the cursor shows the
pending line from some column on and nothing behind it, with the cursor where it is in the line.

Each operation repaints only what it changed, with relative moves, so this is one lemma an operation
of the editor (`Displays`).  A repaint and a new prompt begin where the cursor is: the line is then
further to the right, and has covered what was there.  `screen_true` carries it over every sequence of
calls of the engine.
-/
import Nife.EditorRuns
import Nife.Lib.Screen

namespace Nife.LineEditor

open Slices Screen List Fallible

/-! ### Moving by a number -/

theorem number_append (p : Option Nat) (ds : Bytes) (b : UInt8) :
    number p (ds ++ [b]) = some ((number p ds).getD 0 * 10 + (b - 48).toNat) := by
  rw [number, foldl_append, foldl_cons, foldl_nil, ← number]

theorem digit_toNat {d : Nat} (hd : d < 10) :
    (48 ≤ 48 + UInt8.ofNat d ∧ 48 + UInt8.ofNat d ≤ 57) ∧ (48 + UInt8.ofNat d - 48).toNat = d := by
  have hall : ∀ d ∈ List.range 10, (48 ≤ 48 + UInt8.ofNat d ∧ 48 + UInt8.ofNat d ≤ 57) ∧
      (48 + UInt8.ofNat d - 48).toNat = d := by
    decide
  exact hall d (mem_range.mpr hd)

theorem decimal_number (n : Nat) : (∀ b ∈ decimal n, 48 ≤ b ∧ b ≤ 57) ∧
    (number none (decimal n)).getD 0 = n ∧ (0 < n → (number none (decimal n)).isSome) := by
  induction n using Nat.strongRecOn with
  | ind n ih =>
    cases n with
    | zero => exact ⟨by simp [decimal], rfl, fun h => absurd h (Nat.lt_irrefl 0)⟩
    | succ n =>
      obtain ⟨hdigits, hvalue, -⟩ := ih ((n + 1) / 10) (by omega)
      have hlast := digit_toNat (d := (n + 1) % 10) (by omega)
      rw [decimal_succ, number_append, hvalue]
      refine ⟨?_, ?_, fun _ => rfl⟩
      · intro b hb
        rcases mem_append.mp hb with hb | hb
        · exact hdigits b hb
        · rw [mem_singleton.mp hb]
          exact hlast.1
      · rw [Option.getD_some]
        omega

variable {s : Screen} {base k n : Nat} {line : Bytes}

theorem moves (n : Nat) : (n = 0 ∧ ∀ dir, moveBy dir n = []) ∨ ∃ ds, (∀ b ∈ ds, 48 ≤ b ∧ b ≤ 57) ∧
    (number none ds).getD 1 = n ∧ ∀ dir, moveBy dir n = 0x1b :: 91 :: ds ++ [dir] := by
  match n with
  | 0 => exact .inl ⟨rfl, fun _ => rfl⟩
  | 1 => exact .inr ⟨[], by simp, rfl, fun _ => rfl⟩
  | n + 2 =>
    obtain ⟨hdigits, hvalue, hsome⟩ := decimal_number (n + 2)
    refine .inr ⟨decimal (n + 2), hdigits, ?_, fun _ => rfl⟩
    obtain ⟨v, hv⟩ := Option.isSome_iff_exists.mp (hsome (Nat.succ_pos _))
    rw [hv] at hvalue ⊢
    exact hvalue

theorem at_left (h : At s base line (k + n)) : At (s.shows (moveBy 68 n)) base line k := by
  rcases moves n with ⟨rfl, hnil⟩ | ⟨ds, hds, hn, hmove⟩
  · rw [hnil]
    exact h
  · rw [hmove]
    exact h.left hds hn

theorem at_right (h : At s base line k) : At (s.shows (moveBy 67 n)) base line (k + n) := by
  rcases moves n with ⟨rfl, hnil⟩ | ⟨ds, hds, hn, hmove⟩
  · rw [hnil]
    exact h
  · rw [hmove]
    exact h.right hds hn

/-! ### The editor -/

/-- A text of printable bytes. -/
def Clean (t : Bytes) : Prop := ∀ b ∈ t, Printable b

variable {d : LineDisc} {t t' : Bytes} {ar : Arith} {e : Editor}

theorem Clean.append (h : Clean t) (h' : Clean t') : Clean (t ++ t') := fun b hb =>
  (mem_append.mp hb).elim (h b) (h' b)

theorem Clean.sublist (h : Clean t) (hsub : t' ⊆ t) : Clean t' :=
  fun b hb => h b (hsub hb)

/-- Every text of the editor is printable. -/
structure AllClean (e : Editor) : Prop where
  left : Clean e.left
  right : Clean e.right
  killed : Clean e.killed
  history : ∀ line ∈ e.history, Clean line
  browsing : ∀ below, e.browsing = some below → Clean below.left ∧ Clean below.right
  prompt : Clean e.prompt

/-- **The screen is true to the editor.** -/
structure Displays (s : Screen) (e : Editor) : Prop where
  row : ∃ base, At s base (e.left ++ e.right) e.left.length
  clean : AllClean e

/-- An operation and its echo keep the screen true. -/
def Keeping (s : Screen) (y : Editor × Bytes) : Prop := Displays (s.shows y.2) y.1

namespace Displays

variable {e : Editor} {x y : Bytes}

/-- The rest of the row is painted again behind `x`, and the cursor goes back to where it stood. -/
theorem painted (h : At s base (x ++ line) x.length) (hclean : Clean y) :
    At (s.shows (y ++ eraseRest ++ moveBy 68 y.length)) base (x ++ y) x.length := by
  rw [shows_append, shows_append]
  refine at_left (n := y.length) ?_
  rw [← length_append]
  exact (h.text hclean).erase

theorem redrawn (h : At s base (x ++ line) (x.length + n)) (hclean : Clean y) :
    At (s.shows (Editor.redraw n y)) base (x ++ y) x.length := by
  rw [Editor.redraw, append_assoc, append_assoc, shows_append, ← append_assoc]
  exact painted (at_left h) hclean

section

variable (h : Displays s e)
include h

theorem put {bytes : Bytes} (hclean : Clean bytes) : Keeping s (e.put bytes) := by
  obtain ⟨base, hat⟩ := h.row
  refine ⟨⟨base, ?_⟩, { h.clean with left := h.clean.left.append hclean }⟩
  rw [Editor.put, shows_append]
  have hall := hat.rest (t := bytes ++ e.right) (hclean.append h.clean.right) (by simp)
  refine at_left (n := e.right.length) ?_
  simpa [Nat.add_assoc] using hall

variable {b : UInt8} {prompt : Bytes}

theorem insert (hb : Printable b) : Keeping s (e.insert b) := by
  rw [Editor.insert]
  split
  · obtain ⟨base, hat⟩ := h.row
    exact ⟨⟨base, hat.bell⟩, h.clean⟩
  · exact h.put fun b' hb' => mem_singleton.mp hb' ▸ hb

theorem cutFrom (a : Nat) : Keeping s (e.cutFrom a) := by
  rw [Editor.cutFrom]
  split
  · exact h
  · next hlt =>
    obtain ⟨base, hat⟩ := h.row
    refine ⟨⟨base, ?_⟩, { h.clean with left := h.clean.left.sublist (take_subset _ _) }⟩
    have hcut : At s base (e.left.take a ++ (e.left.drop a ++ e.right))
        ((e.left.take a).length + (e.left.length - a)) := by
      rw [← append_assoc, take_append_drop, length_take,
        show min a e.left.length + (e.left.length - a) = e.left.length by omega]
      exact hat
    exact redrawn hcut h.clean.right

theorem deleteAt : Keeping s e.deleteAt := by
  rw [Editor.deleteAt]
  split
  · exact h
  · obtain ⟨base, hat⟩ := h.row
    have hclean := h.clean.right.sublist (tail_subset _)
    exact ⟨⟨base, redrawn (n := 0) hat hclean⟩, { h.clean with right := hclean }⟩

theorem killEnd : Keeping s e.killEnd := by
  obtain ⟨base, hat⟩ := h.row
  refine ⟨⟨base, ?_⟩, { h.clean with right := ?_, killed := h.clean.right }⟩
  · rw [Editor.killEnd, append_nil]
    exact hat.erase
  · exact fun b hb => by cases hb

theorem killFrom (a : Nat) : Keeping s (e.killFrom a) :=
  cutFrom (e := { e with killed := e.left.drop a })
    ⟨h.row, { h.clean with killed := h.clean.left.sublist (drop_subset _ _) }⟩ a

theorem yank : Keeping s e.yank := by
  simp only [Editor.yank]
  split
  · obtain ⟨base, hat⟩ := h.row
    split
    · exact h
    · exact ⟨⟨base, hat.bell⟩, h.clean⟩
  · exact h.put (h.clean.killed.sublist (take_subset _ _))

theorem goLeft : Keeping s e.goLeft := by
  rcases eq_nil_or_concat' e.left with hleft | ⟨left, b, hleft⟩
  · simp only [Editor.goLeft, hleft, getLast?_nil]
    exact h
  · obtain ⟨base, hat⟩ := h.row
    have hclean := h.clean.left
    rw [hleft, append_assoc, length_append] at hat
    rw [hleft] at hclean
    simp only [Editor.goLeft, hleft, getLast?_concat, dropLast_concat]
    refine ⟨⟨base, hat.back⟩, { h.clean with left := ?_, right := ?_ }⟩
    · exact hclean.sublist (subset_append_left _ _)
    · exact Clean.append (t := [b]) (hclean.sublist (subset_append_right _ _)) h.clean.right

theorem goRight : Keeping s e.goRight := by
  cases hright : e.right with
  | nil =>
    simp only [Editor.goRight, hright]
    exact h
  | cons b right =>
    obtain ⟨base, hat⟩ := h.row
    have hclean := h.clean.right
    rw [hright] at hat hclean
    simp only [Editor.goRight, hright]
    refine ⟨⟨base, ?_⟩, { h.clean with left := ?_, right := ?_ }⟩
    · have hmoved := at_right (n := 1) hat
      simpa [moveBy] using hmoved
    · exact h.clean.left.append fun b' hb' => hclean b' (by simp_all)
    · exact hclean.sublist (subset_cons_self _ _)

theorem home : Keeping s e.home := by
  obtain ⟨base, hat⟩ := h.row
  refine ⟨⟨base, at_left (n := e.left.length) ?_⟩, { h.clean with left := ?_, right := ?_ }⟩
  · simpa [Editor.home, Editor.text] using hat
  · exact fun b hb => by cases hb
  · exact h.clean.left.append h.clean.right

theorem stop : Keeping s e.stop := by
  obtain ⟨base, hat⟩ := h.row
  refine ⟨⟨base, ?_⟩, { h.clean with left := ?_, right := ?_ }⟩
  · have hmoved := at_right (n := e.right.length) hat
    simpa [Editor.stop, Editor.text] using hmoved
  · exact h.clean.left.append h.clean.right
  · exact fun b hb => by cases hb

/-! ### The history -/

theorem replace {left right : Bytes} {below : Option Browsing}
    (hleft : Clean left) (hright : Clean right)
    (hbelow : ∀ b, below = some b → Clean b.left ∧ Clean b.right) :
    Keeping s ({ e with browsing := below }.replace left right) := by
  obtain ⟨base, hat⟩ := h.row
  refine ⟨⟨base, ?_⟩, { h.clean with left := hleft, right := hright, browsing := hbelow }⟩
  rw [Editor.replace, shows_append, shows_append, shows_append]
  refine at_left (n := right.length) ?_
  rw [← length_append]
  have hstart : At (s.shows (moveBy 68 e.left.length)) base ([] ++ (e.left ++ e.right)) 0 :=
    at_left (by simpa using hat)
  exact (hstart.text (hleft.append hright)).erase

theorem browse {below : Browsing} (k : Nat)
    (hbelow : Clean below.left ∧ Clean below.right) : Keeping s (e.browse below k) := by
  refine h.replace ?_ (fun b hb => by cases hb) fun b hb => ?_
  · intro b hb
    by_cases hk : k - 1 < e.history.length
    · rw [getD_eq_getElem?_getD, getElem?_eq_getElem hk] at hb
      exact h.clean.history _ (getElem_mem hk) b hb
    · rw [getD_eq_getElem?_getD, getElem?_eq_none (by omega)] at hb
      cases hb
  · cases hb
    exact hbelow

theorem ring : Keeping s (e, [7]) := by
  obtain ⟨base, hat⟩ := h.row
  exact ⟨⟨base, hat.bell⟩, h.clean⟩

theorem older : Keeping s e.older := by
  rw [Editor.older]
  cases hb : e.browsing with
  | none =>
    dsimp only
    split
    · exact h.ring
    · exact h.browse 1 ⟨h.clean.left, h.clean.right⟩
  | some below =>
    dsimp only
    split
    · exact h.browse _ (h.clean.browsing below hb)
    · exact h.ring

theorem newer : Keeping s e.newer := by
  rw [Editor.newer]
  cases hb : e.browsing with
  | none => exact h.ring
  | some below =>
    have hbelow := h.clean.browsing below hb
    dsimp only
    split
    · exact h.replace hbelow.1 hbelow.2 fun b hb => by cases hb
    · exact h.browse _ hbelow

theorem press (key : Key) : Keeping s (e.press key) := by
  cases key with
  | left => exact h.goLeft
  | right => exact h.goRight
  | older => exact h.older
  | newer => exact h.newer
  | home => exact h.home
  | stop => exact h.stop
  | delete => exact h.deleteAt

/-! ### Rows -/

/-- A prompt and the line are painted from the cursor on, over what is there. -/
theorem repaint : Displays (s.shows e.repaint) e := by
  obtain ⟨base, hat⟩ := h.row
  refine ⟨⟨base + (e.left ++ e.prompt).length, ?_⟩, h.clean⟩
  have hpainted := hat.rest (t := e.prompt ++ e.text)
    (h.clean.prompt.append (h.clean.left.append h.clean.right)) (by simp [Editor.text]; omega)
  rw [Editor.repaint, shows_append]
  refine at_left (n := e.right.length) ?_
  refine At.shift (x := e.left ++ e.prompt) ?_
  simpa [Editor.text, Nat.add_assoc] using hpainted

theorem startLine (hclean : Clean prompt) : Keeping s (e.startLine prompt) :=
  repaint (e := { e with prompt := prompt.take promptMax })
    ⟨h.row, { h.clean with prompt := hclean.sublist (take_subset _ _) }⟩

end

theorem emptied {history : List Bytes} {done : Bytes} {wasCr : Bool}
    (hrow : ∃ base, At s base [] 0) (h : AllClean e) (hprompt : Clean prompt)
    (hhistory : ∀ line ∈ history, Clean line) :
    Displays s { e with left := [], right := [], browsing := none, prompt, history, done, wasCr } where
  row := hrow
  clean :=
    { left := fun b hb => by cases hb
      right := fun b hb => by cases hb
      killed := h.killed
      history := hhistory
      browsing := fun b hb => by cases hb
      prompt := hprompt }

theorem finishLine (h : Displays s e) : Displays (s.shows e.finishLine.2.1) e.finishLine.1 := by
  obtain ⟨base, hat⟩ := h.row
  refine emptied ⟨0, hat.newRow⟩ h.clean (fun b hb => by cases hb) fun line hline => ?_
  rw [Editor.remember] at hline
  split at hline
  · exact h.clean.history line hline
  · rcases mem_cons.mp (mem_of_mem_take hline) with rfl | hline
    · exact h.clean.left.append h.clean.right
    · exact h.clean.history line hline

theorem interrupted (h : Displays s e) : Displays (s.shows [94, 67, 13, 10]) e.abandon := by
  obtain ⟨base, hat⟩ := h.row
  have hrow := (hat.text (t := [94, 67]) (by simp [Printable])).newRow
  exact emptied ⟨0, hrow⟩ h.clean h.clean.prompt h.clean.history

theorem cleared (h : Displays s e) :
    Displays (s.shows ([0x1b, 91, 50, 74, 0x1b, 91, 72] ++ e.repaint)) e := by
  obtain ⟨base, hat⟩ := h.row
  have hpainted := (hat.clear).rest (x := []) (y := []) (t := e.prompt ++ e.text)
    (h.clean.prompt.append (h.clean.left.append h.clean.right)) (by simp)
  refine ⟨⟨0 + e.prompt.length, ?_⟩, h.clean⟩
  rw [shows_append, Editor.repaint, shows_append]
  refine at_left (n := e.right.length) ?_
  refine At.shift ?_
  simpa [Editor.text, Nat.add_assoc] using hpainted

/-! ### One byte -/

/-- An operation with an event keeps the screen true. -/
def Fed (s : Screen) (y : Editor × Bytes × Event) : Prop := Displays (s.shows y.2.1) y.1

theorem Fed.ite {c : Prop} [Decidable c] {y y' : Editor × Bytes × Event} (hy : c → Fed s y)
    (hy' : Fed s y') : Fed s (if c then y else y') := by
  split
  · next hc => exact hy hc
  · exact hy'

section

variable (h : Displays s e)
include h

theorem typed (b : UInt8) : Fed s (e.typed b) := by
  have hsame : ∀ {event : Event}, Fed s (e, [], event) := h
  have hquiet : ∀ {y : Editor × Bytes}, Keeping s y → Fed s (Editor.quiet y) := id
  refine .ite (fun _ => ⟨h.row, { h.clean with }⟩) <| .ite (fun _ => ?_) <|
    .ite (fun _ => h.interrupted) <| .ite (fun _ => hsame) <|
    .ite (fun _ => .ite (fun _ => hsame) (hquiet h.deleteAt)) <| .ite (fun _ => hquiet h.home) <|
    .ite (fun _ => hquiet h.stop) <| .ite (fun _ => hquiet h.goLeft) <|
    .ite (fun _ => hquiet h.goRight) <| .ite (fun _ => hquiet h.killEnd) <|
    .ite (fun _ => hquiet (h.killFrom 0)) <| .ite (fun _ => hquiet (h.killFrom _)) <|
    .ite (fun _ => hquiet h.yank) <| .ite (fun _ => h.cleared) <|
    .ite (fun _ => hquiet (h.cutFrom _)) <| .ite (fun hb => hquiet (h.insert hb)) hsame
  exact finishLine (e := { e with wasCr := decide (b = 13) }) ⟨h.row, { h.clean with }⟩

theorem take (b : UInt8) (decoded : Decoded) : Fed s (e.take b decoded) := by
  cases decoded with
  | plain => exact h.typed b
  | more next => exact ⟨h.row, { h.clean with }⟩
  | final p =>
    have hidle : Displays s { e with esc := .idle } := ⟨h.row, { h.clean with }⟩
    rw [Editor.take]
    cases csiFinal b p with
    | none => exact hidle
    | some key => exact hidle.press key

theorem feed {y : Editor × Bytes × Event} (hy : e.feed ar b = .ok y) : Fed s y := by
  have hclear : Displays s { e with wasCr := false } := ⟨h.row, { h.clean with }⟩
  rw [Editor.feed] at hy
  split at hy
  · cases hy
    exact hclear
  · obtain ⟨decoded, -, hy⟩ := bind_eq_ok.mp hy
    cases hy
    exact hclear.take b decoded

theorem insertText {text : Bytes} (hclean : Clean text) : Keeping s (e.insertText text) := by
  induction text generalizing s e with
  | nil => exact h
  | cons b text ih =>
    have hb : 0x20 ≤ b ∧ b ≤ 0x7e := hclean b mem_cons_self
    have hrest := fun b hb => hclean b (mem_cons_of_mem _ hb)
    rw [Editor.insertText, if_pos hb, Keeping, shows_append]
    exact ih (h.insert hb) hrest

end

end Displays

/-! ### Calls -/

/-- A text of printable bytes. -/
abbrev Printed := { t : Bytes // Clean t }

/-- The calls that paint. -/
inductive Call
  | startLine (prompt : Printed)
  | repaint
  | insertText (text : Printed)
  | feed (b : UInt8)

def Call.engine (ar : Arith) (d : LineDisc) : Call → Run Unit (LineDisc × Bytes)
  | .startLine prompt => d.startLine prompt.1
  | .repaint => do
      let echo ← d.repaint
      .ok (d, echo)
  | .insertText text => d.insertText text.1
  | .feed b => do
      let (d, echo, _) ← d.feed ar b
      .ok (d, echo)

/-- Calls one after the other, their echo on a terminal. -/
def perform (ar : Arith) (d : LineDisc) (s : Screen) : List Call → Run Unit (LineDisc × Screen)
  | [] => .ok (d, s)
  | call :: calls => do
      let (d, echo) ← call.engine ar d
      perform ar d (s.shows echo) calls

/-- The row of the cursor holds the pending line from some column on and is blank behind it, and the
cursor stands where it is in the line. -/
def OnScreen (d : LineDisc) (s : Screen) : Prop :=
  ∃ base, s.col = base + d.cur ∧ ∀ j, s.cells s.row (base + j) = (d.buf.take d.len)[j]?

theorem OnScreen.of (h : Shows d e) (hs : Displays s e) : OnScreen d s := by
  obtain ⟨base, hat⟩ := hs.row
  refine ⟨base, by rw [hat.col, h.cur], fun j => ?_⟩
  rw [hat.cells, h.line.take]

/-- One call keeps the screen true, unless it stops where the editor does. -/
theorem Call.engine_displays (h : Shows d e) (hs : Displays s e) (call : Call) (ar : Arith) :
    (∃ d' echo e', call.engine ar d = .ok (d', echo) ∧ Shows d' e' ∧ Displays (s.shows echo) e') ∨
      ∃ b stop, e.feed ar b = .error stop ∧ call.engine ar d = .error stop := by
  cases call with
  | startLine prompt =>
    obtain ⟨d', hd', hshows⟩ := h.startLine prompt.1
    exact .inl ⟨d', _, _, hd', hshows, hs.startLine prompt.2⟩
  | repaint => exact .inl ⟨d, _, e, bind_eq_ok.mpr ⟨_, h.repaint, rfl⟩, h, hs.repaint⟩
  | insertText text =>
    obtain ⟨d', hd', hshows⟩ := h.insertText text.1
    exact .inl ⟨d', _, _, hd', hshows, hs.insertText text.2⟩
  | feed b =>
    rcases h.feed ar b with ⟨y, hy, d', hd', hshows⟩ | ⟨stop, hstop, hd⟩
    · exact .inl ⟨d', _, _, bind_eq_ok.mpr ⟨_, hd', rfl⟩, hshows, hs.feed hy⟩
    · refine .inr ⟨b, stop, hstop, ?_⟩
      rw [Call.engine, hd]
      rfl

theorem perform_displays {d' : LineDisc} {s s' : Screen}
    {calls : List Call} (h : Shows d e) (hs : Displays s e)
    (hrun : perform ar d s calls = .ok (d', s')) : OnScreen d' s' := by
  induction calls generalizing d s e with
  | nil =>
    cases hrun
    exact .of h hs
  | cons call calls ih =>
    obtain ⟨⟨d₁, echo⟩, hcall, hrun⟩ := bind_eq_ok.mp hrun
    rcases call.engine_displays h hs ar with ⟨d₂, echo', e', hok, h', hs'⟩ | ⟨-, stop, -, herror⟩
    · cases hcall.symm.trans hok
      exact ih h' hs' hrun
    · cases hcall.symm.trans herror

theorem feed_wrapping (e : Editor) (b : UInt8) : ∃ y, e.feed wrapping b = .ok y := by
  have hescape : ∃ decoded, escape wrapping e.esc b = .ok decoded := by
    cases e.esc with
    | idle | esc | ss3 => exact ⟨_, rfl⟩
    | csi first second n =>
      simp only [escape]
      split_ifs <;> exact ⟨_, rfl⟩
  obtain ⟨decoded, hdecoded⟩ := hescape
  rw [Editor.feed]
  split
  · exact ⟨_, rfl⟩
  · exact ⟨_, bind_eq_ok.mpr ⟨decoded, hdecoded, rfl⟩⟩

theorem perform_wrapping {s : Screen} (calls : List Call)
    (h : Shows d e) (hs : Displays s e) : ∃ d' s', perform wrapping d s calls = .ok (d', s') := by
  induction calls generalizing d s e with
  | nil => exact ⟨d, s, rfl⟩
  | cons call calls ih =>
    rcases call.engine_displays h hs wrapping with ⟨d₁, echo, e', hok, h', hs'⟩ |
      ⟨b, stop, hstop, -⟩
    · obtain ⟨d', s', hrun⟩ := ih h' hs'
      exact ⟨d', s', bind_eq_ok.mpr ⟨_, hok, hrun⟩⟩
    · obtain ⟨y, hy⟩ := feed_wrapping e b
      cases hy.symm.trans hstop

/-- **The echo keeps the screen true**: after any calls from a new engine on a blank row, the row of
the cursor holds the pending line and nothing behind it, and the cursor stands where it is in the line.
Without overflow checks every call returns; with them this is so after every call that does. -/
theorem screen_true (cells : Nat → Nat → Option UInt8) (row col : Nat) (calls : List Call) :
    (∃ d s, perform wrapping .new (fresh cells row col) calls = .ok (d, s) ∧ OnScreen d s) ∧
    ∀ d s, perform checked .new (fresh cells row col) calls = .ok (d, s) → OnScreen d s := by
  have hs : Displays (fresh cells row col) .new := by
    refine ⟨⟨col, .fresh cells row col⟩, ?_⟩
    constructor <;> intro b hb <;> cases hb
  obtain ⟨d, s, hrun⟩ := perform_wrapping calls shows_new hs
  exact ⟨⟨d, s, hrun, perform_displays shows_new hs hrun⟩,
    fun d s hrun => perform_displays shows_new hs hrun⟩

end Nife.LineEditor
