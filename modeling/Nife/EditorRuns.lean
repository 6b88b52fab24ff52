/-
Whole runs of the line discipline, from a new engine and over any bytes.

The engine refines the editor along a run (`drive_refines`), and as long as no parameter of an escape
sequence leaves 16 bits, the machine arithmetic is that of numbers (`drive_checked`): nothing panics,
and events and completed lines are the editor's (`engine_refines_editor`).  Past 16 bits the parameter
overflows: with overflow checks the engine stops, and without them `65537` is taken for `1`
(`parameter_overflows`).
-/
import Nife.Editor

namespace Nife.LineEditor

open Slices List Fallible Editor

/-- What a byte amounted to: the event, and with it the line if one was completed. -/
abbrev Seen := Event × Option Bytes

def drive {σ : Type} (feed : σ → UInt8 → Run Unit (σ × Bytes × Event)) (line : σ → Bytes) (s : σ) :
    List UInt8 → Run Unit (σ × List Seen)
  | [] => .ok (s, [])
  | b :: bytes => do
      let (s, _, event) ← feed s b
      let (last, seen) ← drive feed line s bytes
      .ok (last, (event, if event = .line then some (line s) else none) :: seen)

section
variable {σ : Type} {feed : σ → UInt8 → Run Unit (σ × Bytes × Event)} {line : σ → Bytes}
variable {echo : Bytes} {seen : List Seen} {s s' last : σ} {event : Event}

theorem drive_cons {b : UInt8} {bytes : List UInt8} (hb : feed s b = .ok (s', echo, event))
    (hrest : drive feed line s' bytes = .ok (last, seen)) :
    drive feed line s (b :: bytes) =
      .ok (last, (event, if event = .line then some (line s') else none) :: seen) := by
  exact bind_eq_ok.mpr ⟨_, hb, bind_eq_ok.mpr ⟨_, hrest, rfl⟩⟩

theorem drive_append {first rest : List UInt8} {seen' : List Seen}
    (hfirst : drive feed line s first = .ok (s', seen))
    (hrest : drive feed line s' rest = .ok (last, seen')) :
    drive feed line s (first ++ rest) = .ok (last, seen ++ seen') := by
  induction first generalizing s seen with
  | nil =>
    cases hfirst
    exact hrest
  | cons b first ih =>
    obtain ⟨⟨t, echo, event⟩, hb, hfirst⟩ := bind_eq_ok.mp hfirst
    obtain ⟨⟨t', seen₁⟩, hdrive, hfirst⟩ := bind_eq_ok.mp hfirst
    cases hfirst
    exact drive_cons hb (ih hdrive)

end

/-- **The engine refines the editor along a run**, for any arithmetic. -/
theorem drive_refines {ar : Arith} {d : LineDisc} {e last : Editor} {bytes : List UInt8}
    (h : Shows d e)
    (hrun : drive (feed ar) done e bytes = .ok (last, seen)) :
    ∃ d', drive (LineDisc.feed ar) LineDisc.line d bytes = .ok (d', seen) ∧ Shows d' last := by
  induction bytes generalizing d e seen with
  | nil =>
    cases hrun
    exact ⟨d, rfl, h⟩
  | cons b bytes ih =>
    obtain ⟨⟨e', echo, event⟩, hfeed, hrun⟩ := bind_eq_ok.mp hrun
    obtain ⟨⟨last', seen'⟩, hdrive, hrun⟩ := bind_eq_ok.mp hrun
    cases hrun
    rcases h.feed ar b with ⟨y, hy, d', hd', hshows⟩ | ⟨s, hs, -⟩
    · cases hfeed.symm.trans hy
      obtain ⟨d'', hrun', hlast⟩ := ih hshows hdrive
      refine ⟨d'', ?_, hlast⟩
      have hline : d'.line = e'.done := hshows.done.take
      rw [← hline]
      exact drive_cons hd' hrun'
    · cases hfeed.symm.trans hs

/-! ### What a byte leaves alone -/

namespace Editor

structure Keeps (e e' : Editor) : Prop where
  history : e'.history = e.history
  esc : e'.esc = e.esc
  wasCr : e'.wasCr = e.wasCr

variable {e : Editor}

theorem keeps_insert (b : UInt8) : Keeps e (e.insert b).1 := by
  rw [insert]
  split <;> exact ⟨rfl, rfl, rfl⟩

theorem keeps_cutFrom (a : Nat) : Keeps e (e.cutFrom a).1 := by
  rw [cutFrom]
  split <;> exact ⟨rfl, rfl, rfl⟩

theorem keeps_yank : Keeps e e.yank.1 := by
  simp only [yank]
  split <;> exact ⟨rfl, rfl, rfl⟩

theorem keeps_press (key : Key) : Keeps e (e.press key).1 := by
  cases key with
  | left =>
    simp only [press, goLeft]
    split <;> exact ⟨rfl, rfl, rfl⟩
  | right =>
    simp only [press, goRight]
    split <;> exact ⟨rfl, rfl, rfl⟩
  | older =>
    simp only [press, older]
    split
    all_goals split <;> exact ⟨rfl, rfl, rfl⟩
  | newer =>
    simp only [press, newer]
    split
    · exact ⟨rfl, rfl, rfl⟩
    · split <;> exact ⟨rfl, rfl, rfl⟩
  | home | stop => exact ⟨rfl, rfl, rfl⟩
  | delete =>
    simp only [press, deleteAt]
    split <;> exact ⟨rfl, rfl, rfl⟩

/-- An output that ends no line and keeps the history and the parser. -/
structure Calm (e : Editor) (y : Editor × Bytes × Event) : Prop where
  keeps : Keeps e y.1
  event : y.2.2 ≠ .line

theorem calm_quiet {x : Editor × Bytes} (h : Keeps e x.1) : Calm e (quiet x) :=
  ⟨h, by simp [quiet]⟩

theorem calm_self (h : event ≠ .line) : Calm e (e, echo, event) :=
  ⟨⟨rfl, rfl, rfl⟩, h⟩

theorem Calm.ite {c : Prop} [Decidable c] {y' : Editor × Bytes × Event} (h : Calm e y)
    (h' : Calm e y') : Calm e (if c then y else y') := by
  split
  · exact h
  · exact h'

theorem keeps_killFrom (a : Nat) : Keeps e (e.killFrom a).1 := by
  have h := keeps_cutFrom (e := { e with killed := e.left.drop a }) a
  exact { h with }

/-- What a plain byte does to the history and the parser: an escape begins a sequence, and only the
end of a line is remembered. -/
theorem typed_cases (e : Editor) (b : UInt8) :
    (b = 0x1b ∧ e.typed b = ({ e with esc := .esc }, [], .none)) ∨
    (b ≠ 0x1b ∧ e.typed b = finishLine { e with wasCr := b = 13 }) ∨
    (b ≠ 0x1b ∧ Calm e (e.typed b)) := by
  by_cases hesc : b = 0x1b
  · exact .inl ⟨hesc, if_pos hesc⟩
  · by_cases hend : b = 13 ∨ b = 10
    · exact .inr (.inl ⟨hesc, by rw [typed, if_neg hesc, if_pos hend]⟩)
    · refine .inr (.inr ⟨hesc, ?_⟩)
      rw [typed, if_neg hesc, if_neg hend]
      exact .ite ⟨⟨rfl, rfl, rfl⟩, by simp⟩ <| .ite (calm_self (by simp)) <|
        .ite (.ite (calm_self (by simp)) (calm_quiet (keeps_press .delete))) <|
        .ite (calm_quiet (keeps_press .home)) <| .ite (calm_quiet (keeps_press .stop)) <|
        .ite (calm_quiet (keeps_press .left)) <| .ite (calm_quiet (keeps_press .right)) <|
        .ite (calm_quiet ⟨rfl, rfl, rfl⟩) <| .ite (calm_quiet (keeps_killFrom 0)) <|
        .ite (calm_quiet (keeps_killFrom _)) <| .ite (calm_quiet keeps_yank) <|
        .ite (calm_self (by simp)) <| .ite (calm_quiet (keeps_cutFrom _)) <|
        .ite (calm_quiet (keeps_insert b)) (calm_self (by simp))

end Editor

/-! ### The parser -/

/-- The state of the parser after another byte, counting in numbers. -/
def scan (st : EscState) (b : UInt8) : EscState :=
  match escape unbounded st b with
  | .ok (.more next) => next
  | .ok .plain => if b = 0x1b then .esc else .idle
  | _ => .idle

/-- The counts of a sequence fit their words. -/
def Counts : EscState → Prop
  | .csi first second n => first < 65536 ∧ second < 65536 ∧ n < 2 ^ 64
  | _ => True

instance : DecidablePred Counts
  | .csi _ _ _ => inferInstanceAs (Decidable (_ ∧ _))
  | .idle => .isTrue trivial
  | .esc => .isTrue trivial
  | .ss3 => .isTrue trivial

/-- No sequence in the bytes has a parameter beyond 16 bits: the first, or the digits of all the
others together, however many there are. -/
def InRange (bytes : List UInt8) : Prop := ∀ first, first <+: bytes → Counts (first.foldl scan .idle)

/-- The parser never stops when it counts in numbers, and passes a byte on only when it is idle. -/
theorem escape_unbounded (st : EscState) (b : UInt8) :
    ∃ decoded, escape unbounded st b = .ok decoded ∧ (decoded = .plain → st = .idle) := by
  cases st with
  | idle => exact ⟨_, rfl, fun _ => rfl⟩
  | esc | ss3 => exact ⟨_, rfl, nofun⟩
  | csi first second n =>
    simp only [escape]
    split_ifs <;> exact ⟨_, rfl, nofun⟩

/-- Checked arithmetic is that of numbers while the counts fit. -/
theorem escape_checked {b : UInt8} (h : Counts (scan st b)) :
    escape checked st b = escape unbounded st b := by
  have hdigit : ∀ {p d : Nat}, p * 10 + d < 65536 → checked.digit p d = unbounded.digit p d := by
    intro p d hlt
    have hmin : min 65535 (p * 10) = p * 10 := Nat.min_eq_right (by omega)
    simp [checked, unbounded, hmin, if_pos hlt]
  cases st with
  | idle | esc | ss3 => rfl
  | csi first second n =>
    by_cases hb : isDigit b
    · by_cases hn : n = 0
      · simp only [scan, escape, if_pos hb, if_pos hn] at h ⊢
        rw [hdigit h.1]
      · simp only [scan, escape, if_pos hb, if_neg hn] at h ⊢
        rw [hdigit h.2.1]
    · by_cases hsemi : b = 59
      · simp only [scan, escape, if_neg hb, if_pos hsemi] at h ⊢
        rw [show checked.next n = unbounded.next n from sum_ok h.2.2]
      · simp [escape, if_neg hb, if_neg hsemi]

namespace Editor

/-- A carriage return is remembered only outside a sequence. -/
def Ready (e : Editor) : Prop := e.wasCr = true → e.esc = .idle

/-- One byte, counting in numbers: what the parser and the history become. -/
structure Fed (e : Editor) (b : UInt8) (y : Editor × Bytes × Event) : Prop where
  esc : y.1.esc = scan e.esc b
  ready : y.1.Ready
  history : y.1.history = if y.2.2 = .line then remember e.history y.1.done else e.history

theorem fed_of_calm {e e' : Editor} {b : UInt8} (h : Calm e' y)
    (hesc : e'.esc = scan e.esc b) (hcr : e'.wasCr = false) (hhist : e'.history = e.history) :
    Fed e b y := by
  refine ⟨h.keeps.esc.trans hesc, fun hno => ?_, ?_⟩
  · rw [h.keeps.wasCr, hcr] at hno
    cases hno
  · rw [if_neg h.event, h.keeps.history, hhist]

theorem take_fed (e : Editor) (b : UInt8) {decoded : Decoded}
    (hdecoded : escape unbounded e.esc b = .ok decoded) (hplain : decoded = .plain → e.esc = .idle) :
    Fed e b (take { e with wasCr := false } b decoded) := by
  cases decoded with
  | more next =>
    have hnext : next = scan e.esc b := by rw [scan, hdecoded]
    exact fed_of_calm (calm_self (e := { e with wasCr := false, esc := next }) (by simp)) hnext rfl
      rfl
  | final p =>
    have hidle : EscState.idle = scan e.esc b := by rw [scan, hdecoded]
    rw [take]
    cases hkey : csiFinal b p with
    | none =>
      exact fed_of_calm (calm_self (e := { e with wasCr := false, esc := .idle }) (by simp)) hidle
        rfl rfl
    | some key =>
      exact fed_of_calm (calm_quiet (keeps_press (e := { e with wasCr := false, esc := .idle }) key))
        hidle rfl rfl
  | plain =>
    have hidle := hplain rfl
    have hscan : scan e.esc b = if b = 0x1b then .esc else .idle := by rw [scan, hdecoded]
    rw [take]
    rcases typed_cases { e with wasCr := false } b with ⟨hb, ht⟩ | ⟨hb, ht⟩ | ⟨hb, hcalm⟩
    · rw [ht]
      exact fed_of_calm (calm_self (e := { e with wasCr := false, esc := .esc }) (by simp))
        (by rw [hscan, if_pos hb]) rfl rfl
    · rw [ht]
      refine ⟨?_, fun _ => hidle, rfl⟩
      rw [hscan, if_neg hb]
      exact hidle
    · exact fed_of_calm hcalm (by rw [hscan, if_neg hb]; exact hidle) rfl rfl

theorem feed_unbounded (e : Editor) (hready : e.Ready) (b : UInt8) :
    ∃ y, e.feed unbounded b = .ok y ∧ Fed e b y ∧
      (Counts (scan e.esc b) → e.feed checked b = .ok y) := by
  by_cases hlf : b = 10 ∧ e.wasCr = true
  · have hidle := hready hlf.2
    refine ⟨_, if_pos hlf, fed_of_calm (calm_self (e := { e with wasCr := false }) (by simp)) ?_ rfl rfl,
      fun _ => if_pos hlf⟩
    rw [hlf.1, hidle]
    rfl
  · obtain ⟨decoded, hdecoded, hplain⟩ := escape_unbounded e.esc b
    refine ⟨take { e with wasCr := false } b decoded, ?_, e.take_fed b hdecoded hplain, fun hc => ?_⟩
    · rw [feed, if_neg hlf]
      exact bind_eq_ok.mpr ⟨decoded, hdecoded, rfl⟩
    · rw [feed, if_neg hlf]
      exact bind_eq_ok.mpr ⟨decoded, (escape_checked hc).trans hdecoded, rfl⟩

end Editor

/-- The lines that were completed. -/
def completed (seen : List Seen) : List Bytes := seen.filterMap Prod.snd

/-- Along a run in range checked arithmetic is that of numbers, and the history is made of the
completed lines. -/
theorem drive_checked {e : Editor} {bytes : List UInt8} (hready : e.Ready)
    (hrange : ∀ first, first <+: bytes → Counts (first.foldl scan e.esc)) :
    ∃ last seen, drive (feed checked) done e bytes = .ok (last, seen) ∧
      drive (feed unbounded) done e bytes = .ok (last, seen) ∧
      last.history = (completed seen).foldl remember e.history := by
  induction bytes generalizing e with
  | nil => exact ⟨e, [], rfl, rfl, rfl⟩
  | cons b bytes ih =>
    obtain ⟨⟨e', echo, event⟩, hfeed, hfed, hchecked⟩ := e.feed_unbounded hready b
    have hesc := hfed.esc
    obtain ⟨last, seen, hlast, hlast', hhist⟩ := ih (e := e') hfed.ready fun first hfirst => by
      rw [show e'.esc = scan e.esc b from hesc]
      exact hrange _ (cons_prefix_cons.mpr ⟨rfl, hfirst⟩)
    have hcounts := hrange [b] (cons_prefix_cons.mpr ⟨rfl, nil_prefix⟩)
    refine ⟨last, _, drive_cons (hchecked hcounts) hlast, drive_cons hfeed hlast', ?_⟩
    have hhist' := hfed.history
    by_cases hline : event = .line
    · rw [if_pos hline] at hhist'
      rw [if_pos hline, hhist, hhist']
      rfl
    · rw [if_neg hline] at hhist'
      rw [if_neg hline, hhist, hhist']
      rfl

/-! ### What the sequences do -/

def value (ds : List UInt8) (p : Nat) : Nat := ds.foldl (fun p b => p * 10 + (b - 48).toNat) p

/-- Nothing to act on, `n` times. -/
def nothing (n : Nat) : List Seen := List.replicate n (.none, none)

/-- A run of the editor, counting in numbers. -/
def Runs (e : Editor) (bytes : List UInt8) (last : Editor) : Prop :=
  drive (Editor.feed unbounded) Editor.done e bytes = .ok (last, nothing bytes.length)

namespace Runs

variable {e e' last : Editor} {b : UInt8} {bytes rest : List UInt8}

theorem nil : Runs e [] e := rfl

theorem append (h : Runs e bytes e') (h' : Runs e' rest last) : Runs e (bytes ++ rest) last := by
  rw [Runs, drive_append h h', nothing, nothing, nothing, length_append, replicate_add]

theorem cons (h : e.feed unbounded b = .ok (e', echo, .none))
    (h' : Runs e' bytes last) : Runs e (b :: bytes) last := drive_cons h h'

end Runs

namespace Editor

variable {e : Editor} {b : UInt8} {p q n : Nat} {ds l : List UInt8}

section

variable (hcr : e.wasCr = false)
include hcr

theorem feed_esc {next : EscState} (h : escape unbounded st b = .ok (.more next)) :
    feed unbounded { e with esc := st } b = .ok ({ e with esc := next }, [], .none) := by
  rw [feed, if_neg (by simp [hcr])]
  refine bind_eq_ok.mpr ⟨_, h, ?_⟩
  simp [take, hcr]

theorem runs_digits (hds : ∀ b ∈ ds, isDigit b) :
    Runs { e with esc := .csi p q 0 } ds { e with esc := .csi (value ds p) q 0 } := by
  induction ds generalizing p with
  | nil => exact .nil
  | cons b ds ih =>
    have hb := hds b mem_cons_self
    have hstep : escape unbounded (.csi p q 0) b =
        .ok (.more (.csi (p * 10 + (b - 48).toNat) q 0)) := by
      simp only [escape, if_pos hb]
      rfl
    exact .cons (feed_esc hcr hstep) (ih fun b hb => hds b (mem_cons_of_mem _ hb))

theorem runs_more (hl : ∀ b ∈ l, isDigit b ∨ b = 59) (hn : n ≠ 0) :
    ∃ q' n', Runs { e with esc := .csi p q n } l { e with esc := .csi p q' n' } := by
  induction l generalizing q n with
  | nil => exact ⟨q, n, .nil⟩
  | cons b l ih =>
    have hrest := fun b hb => hl b (mem_cons_of_mem _ hb)
    by_cases hb : isDigit b
    · have hstep : escape unbounded (.csi p q n) b =
          .ok (.more (.csi p (q * 10 + (b - 48).toNat) n)) := by
        simp only [escape, if_pos hb, if_neg hn]
        rfl
      obtain ⟨q', n', hrun⟩ := ih hrest hn
      exact ⟨q', n', .cons (feed_esc hcr hstep) hrun⟩
    · have hstep : escape unbounded (.csi p q n) b = .ok (.more (.csi p q (n + 1))) := by
        simp only [escape, if_neg hb, if_pos ((hl b mem_cons_self).resolve_left hb)]
        rfl
      obtain ⟨q', n', hrun⟩ := ih hrest (Nat.succ_ne_zero n)
      exact ⟨q', n', .cons (feed_esc hcr hstep) hrun⟩

def keyed (e : Editor) (b : UInt8) (p : Nat) : Editor :=
  match csiFinal b p with
  | some key => (e.press key).1
  | none => e

theorem runs_final (hb : 0x40 ≤ b ∧ b ≤ 0x7e) :
    Runs { e with esc := .csi p q n } [b] (keyed { e with esc := .idle } b p) := by
  have hdigit : ¬isDigit b := fun h => absurd (UInt8.le_trans hb.1 h.2) (by decide)
  have hsemi : b ≠ 59 := by
    rintro rfl
    exact absurd hb.1 (by decide)
  have hstep : escape unbounded (.csi p q n) b = .ok (.final p) := by
    simp [escape, if_neg hdigit, if_neg hsemi, if_pos hb]
  have hfeed : feed unbounded { e with esc := .csi p q n } b = .ok (take e b (.final p)) := by
    rw [feed, if_neg (by simp [hcr])]
    refine bind_eq_ok.mpr ⟨_, hstep, ?_⟩
    simp [take, hcr]
  rw [take] at hfeed
  rw [keyed]
  cases hkey : csiFinal b p with
  | none | some key =>
    rw [hkey] at hfeed
    exact .cons hfeed .nil

end

def IsMore (more : List UInt8) : Prop :=
  more = [] ∨ ∃ l, more = 59 :: l ∧ ∀ b ∈ l, isDigit b ∨ b = 59

section

variable (hidle : e.esc = .idle) (hcr : e.wasCr = false)
include hidle hcr

/-- **A sequence acts as its key with its first parameter**, which is a number in decimal. -/
theorem runs_sequence (hds : ∀ b ∈ ds, isDigit b) (hmore : IsMore l) (hb : 0x40 ≤ b ∧ b ≤ 0x7e) :
    Runs e (0x1b :: 91 :: (ds ++ (l ++ [b]))) (e.keyed b (value ds 0)) := by
  have he : { e with esc := .idle } = e := by rw [← hidle]
  have hbegin : e.feed unbounded 0x1b = .ok ({ e with esc := .esc }, [], .none) := by
    rw [feed, hidle]
    simp only [← hcr]
    rfl
  refine .cons hbegin <| .cons (feed_esc hcr rfl) <| (runs_digits hcr hds).append ?_
  rw [← he]
  rcases hmore with rfl | ⟨l, rfl, hl⟩
  · exact runs_final hcr hb
  · have hsemi : escape unbounded (.csi (value ds 0) 0 0) 59 = .ok (.more (.csi (value ds 0) 0 1)) :=
      rfl
    obtain ⟨q', n', hrun⟩ := runs_more (e := e) (p := value ds 0) (q := 0) hcr hl one_ne_zero
    exact (Runs.cons (feed_esc hcr hsemi) hrun).append (runs_final hcr hb)

/-! ### Browsing -/

/-- The arrow keys. -/
def up : List UInt8 := [0x1b, 91, 65]

def down : List UInt8 := [0x1b, 91, 66]

theorem runs_up : Runs e up e.older.1 :=
  runs_sequence hidle hcr (forall_mem_nil _) (.inl rfl) (by decide)

theorem runs_down : Runs e down e.newer.1 :=
  runs_sequence hidle hcr (forall_mem_nil _) (.inl rfl) (by decide)

end

theorem older_browse {below : Browsing} (h : e.browsing = some below)
    (hmore : below.shown < e.history.length) : e.older = e.browse below (below.shown + 1) := by
  rw [older, h]
  exact if_pos hmore

/-- The editor with the line of `k` lines ago over the line that was there. -/
def showing (e : Editor) (k : Nat) : Editor :=
  { e with
    left := e.history.getD (k - 1) []
    right := []
    browsing := some ⟨k, e.left, e.right⟩ }

/-- **Up `k` times shows the line of `k` lines ago.** -/
theorem runs_ups (hidle : e.esc = .idle) (hcr : e.wasCr = false) (hnew : e.browsing = none) {k : Nat}
    (hk : k + 1 ≤ e.history.length) :
    Runs e (List.replicate (k + 1) up).flatten (e.showing (k + 1)) := by
  induction k with
  | zero =>
    have hsome : e.history ≠ [] := by
      rintro h
      rw [h] at hk
      cases hk
    have holder : e.older.1 = e.showing 1 := by
      simp only [older, hnew, if_neg hsome]
      rfl
    rw [← holder]
    exact runs_up hidle hcr
  | succ k ih =>
    have holder : (e.showing (k + 1)).older.1 = e.showing (k + 2) := by
      rw [older_browse (e := e.showing (k + 1)) rfl hk]
      rfl
    rw [replicate_succ', flatten_append, ← holder]
    exact (ih (by omega)).append (runs_up hidle hcr)

/-- **Down again restores the line and the cursor.** -/
theorem runs_downs (hidle : e.esc = .idle) (hcr : e.wasCr = false) (hnew : e.browsing = none)
    (k : Nat) : Runs (e.showing (k + 1)) (List.replicate (k + 1) down).flatten e := by
  induction k with
  | zero =>
    have hnewer : (e.showing 1).newer.1 = e := by
      simp [newer, showing, replace, ← hnew]
    have hrun := runs_down (e := e.showing 1) hidle hcr
    rwa [hnewer] at hrun
  | succ k ih =>
    have hrun := runs_down (e := e.showing (k + 2)) hidle hcr
    exact hrun.append ih

end Editor

structure Keyboard : Prop where
  /-- Up `k` times shows the line that was completed `k` lines ago. -/
  older : ∀ (e : Editor) (k : Nat), e.esc = .idle → e.wasCr = false → e.browsing = none →
    k + 1 ≤ e.history.length → Runs e (List.replicate (k + 1) Editor.up).flatten (e.showing (k + 1))
  /-- Down past the newest restores the text and the cursor. -/
  newer : ∀ (e : Editor) (k : Nat), e.esc = .idle → e.wasCr = false → e.browsing = none →
    Runs (e.showing (k + 1)) (List.replicate (k + 1) Editor.down).flatten e
  /-- A sequence acts as its final byte with its first parameter. -/
  sequence : ∀ (e : Editor) (ds l : List UInt8) (b : UInt8), e.esc = .idle → e.wasCr = false →
    (∀ b ∈ ds, isDigit b) → Editor.IsMore l → 0x40 ≤ b ∧ b ≤ 0x7e →
    Runs e (0x1b :: 91 :: (ds ++ (l ++ [b]))) (e.keyed b (value ds 0))
  /-- With `~` it is home, end or delete just if the parameter says so. -/
  tilde : ∀ p, csiFinal 126 p = if p = 1 ∨ p = 7 then some .home
    else if p = 4 ∨ p = 8 then some .stop else if p = 3 then some .delete else none
  /-- Any other final byte but those of the arrows, home and end does nothing. -/
  other : ∀ b, b ∉ [65, 66, 67, 68, 70, 72, 126] → ∀ p, csiFinal b p = none

theorem keyboard : Keyboard where
  older := fun _ _ hidle hcr hnew hk => runs_ups hidle hcr hnew hk
  newer := fun _ k hidle hcr hnew => runs_downs hidle hcr hnew k
  sequence := fun _ _ _ _ hidle hcr hds hmore hb => runs_sequence hidle hcr hds hmore hb
  tilde := fun p => by simp [csiFinal]
  other := fun b hb p => by
    simp only [mem_cons, not_mem_nil, or_false, not_or] at hb
    obtain ⟨h65, h66, h67, h68, h70, h72, h126⟩ := hb
    simp [csiFinal, h65, h66, h67, h68, h70, h72, h126]

/-! ### The engine -/

/-- **The engine refines the editor and stops nowhere**, while the parameters of escape sequences
stay within 16 bits: events and completed lines are the editor's, the history is made of the completed
lines, and the cursor and the length stay in bounds. -/
theorem engine_refines_editor (bytes : List UInt8) (hrange : InRange bytes) :
    (∃ d e seen, drive (LineDisc.feed checked) LineDisc.line .new bytes = .ok (d, seen) ∧
      drive (Editor.feed unbounded) Editor.done .new bytes = .ok (e, seen) ∧ Shows d e ∧
      d.cur ≤ d.len ∧ d.len ≤ lineMax ∧ e.history.length ≤ histMax ∧
      e.history = (completed seen).foldl Editor.remember []) ∧ Keyboard := by
  have hready : Editor.new.Ready := nofun
  obtain ⟨e, seen, hchecked, hunbounded, hhist⟩ := drive_checked hready hrange
  obtain ⟨d, hrun, hshows⟩ := drive_refines shows_new hchecked
  refine ⟨⟨d, e, seen, hrun, hunbounded, hshows, hshows.cur_le, ?_, hshows.hist.le, hhist⟩, keyboard⟩
  rw [hshows.len]
  exact hshows.bounded

/-- A line typed, edited with home and delete, and completed. -/
theorem engine_refines_editor_line :
    let bytes : List UInt8 := [97, 98, 0x1b, 91, 55, 126, 0x1b, 91, 51, 126, 13]
    InRange bytes ∧ ∃ d e seen,
      drive (LineDisc.feed checked) LineDisc.line .new bytes = .ok (d, seen) ∧
      drive (Editor.feed unbounded) Editor.done .new bytes = .ok (e, seen) ∧ Shows d e := by
  have hrange : InRange [97, 98, 0x1b, 91, 55, 126, 0x1b, 91, 51, 126, 13] := by
    intro first hfirst
    have hall : ∀ first ∈ List.inits [97, 98, 0x1b, 91, 55, 126, 0x1b, 91, 51, 126, 13],
        Counts (first.foldl scan .idle) := by
      decide +kernel
    exact hall first ((mem_inits _ _).mpr hfirst)
  obtain ⟨⟨d, e, seen, hd, he, hshows, -⟩, -⟩ := engine_refines_editor _ hrange
  exact ⟨hrange, d, e, seen, hd, he, hshows⟩

/-- The parameter `65536` stops an engine with overflow checks; without them `65537` is taken for `1`
and sends the cursor home, where the editor does nothing. -/
theorem parameter_overflows :
    drive (LineDisc.feed checked) LineDisc.line .new [0x1b, 91, 54, 53, 53, 51, 54] =
      .error .panic ∧
    (drive (LineDisc.feed wrapping) LineDisc.line .new [97, 0x1b, 91, 54, 53, 53, 51, 55, 126]).map
      (fun last => (last.1.cur, last.1.len)) = .ok (0, 1) ∧
    (drive (Editor.feed unbounded) Editor.done .new [97, 0x1b, 91, 54, 53, 53, 51, 55, 126]).map
      (fun last => (last.1.left, last.1.right)) = .ok ([97], []) := by
  decide +kernel

end Nife.LineEditor
