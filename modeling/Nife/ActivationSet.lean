/-
The activation set (`crates/activation_set/src/lib.rs`): what is installed, as a text of rows and
default pointers that is never edited, only succeeded.  With it come the two functions of
`crates/measured_boot/src/lib.rs` that write a digest and read it.

The functions are the source's, from text to text: `entries` and `defaults` read a generation line
by line, and `withEntry`, `withoutEntry` and `withoutVersion` write the next one into a buffer of
a given size.

`render rows pointers` is the text of rows and pointers.  It reads back as them if every name in
it is *legible* (`reads_render`): good, and in the last column not ending in white space, since a
line is trimmed before it is split.  The rows of any readable generation are legible
(`Reads.legible`), however the text came about.
-/
import Nife.Lib.Text
import Mathlib.Data.List.Flatten

namespace Nife.Activation

open List Option Text UInt8

/-- Why a text is refused. -/
inductive Error
  | malformed | badName | notInstalled | tooSmall | taken | imageName | ambiguous
  deriving DecidableEq, Repr

/-- A SHA-256. -/
structure Digest where
  bytes : List UInt8
  length : bytes.length = 32
  deriving DecidableEq, Repr

/-! ### Digests in hexadecimal -/

def hexDigits : List Char :=
  ['0', '1', '2', '3', '4', '5', '6', '7', '8', '9', 'a', 'b', 'c', 'd', 'e', 'f']

def hexByte (b : UInt8) : Text :=
  [hexDigits.getD (b >>> 4).toNat '0', hexDigits.getD (b &&& 0xf).toNat '0']

def hex (d : Digest) : Text := d.bytes.flatMap hexByte

def nibble (c : UInt8) : Option UInt8 :=
  if 48 ≤ c ∧ c ≤ 57 then some (c - 48)
  else if 97 ≤ c ∧ c ≤ 102 then some (c - 97 + 10)
  else if 65 ≤ c ∧ c ≤ 70 then some (c - 65 + 10)
  else none

/-- The loop of `parseHex`, two digits a turn. -/
def parsePairs : List UInt8 → Option (List UInt8)
  | hi :: lo :: rest =>
      (nibble hi).bind fun h => (nibble lo).bind fun l =>
        (parsePairs rest).map fun out => (h <<< 4 ||| l) :: out
  | [] => some []
  | [_] => none

def parseHex (t : Text) : Option Digest :=
  let bytes := t.bytes
  if bytes.length ≠ 64 then none
  else
    -- 64 digits make 32 bytes
    (parsePairs bytes).bind fun out => if h : out.length = 32 then some ⟨out, h⟩ else none

/-! ### Reading a generation -/

/-- One installed program; the digest is the row's key and the rest are labels. -/
structure Entry where
  (program version package : Text)
  digest : Digest
  deriving DecidableEq, Repr

/-- The row that the bare word for a program runs. -/
structure Pointer where
  program : Text
  digest : Digest
  deriving DecidableEq, Repr

/-- What the package column says when the owner vouched for the bytes. -/
def owner : Text := ['o', 'w', 'n', 'e', 'r']

/-- What a vouch's version column carries. -/
def noVersion : Text := ['-']

def defaultWord : Text := ['d', 'e', 'f', 'a', 'u', 'l', 't']

/-- Whether a name may stand in a line. -/
def goodName (name : Text) : Bool :=
  !name.isEmpty && name.head? != some '#' && name.bytes.all fun b => b > 0x20 && b != 0x7f

/-- What a line of the text is. -/
inductive Line
  | row (e : Entry)
  | pointer (p : Pointer)
  | malformed
  deriving DecidableEq, Repr

def classify (line : Text) : Line :=
  match line.splitOn ' ' with
  | [] => .malformed
  | first :: rest =>
      if first = defaultWord then
        match rest with
        | [program, digits] =>
            match (parseHex digits).filter fun _ => goodName program with
            | some digest => .pointer { program, digest }
            | none => .malformed
        | _ => .malformed
      else
        match rest with
        | [program, version, package] =>
            match parseHex first with
            | none => .malformed
            | some digest =>
                if !goodName program || !goodName version || !goodName package then .malformed
                else .row { digest, program, version, package }
        | _ => .malformed

section

variable (table : Text)

/-- The lines of a generation that say something. -/
def statements : List Text :=
  (table.lines.map Text.trim).filter fun line => !line.isEmpty && line.head? != some '#'

def Line.asEntry : Line → Option (Except Error Entry)
  | .row e => some (.ok e)
  | .pointer _ => none
  | .malformed => some (.error .malformed)

def Line.asPointer : Line → Option (Except Error Pointer)
  | .pointer p => some (.ok p)
  | .row _ => none
  | .malformed => some (.error .malformed)

/-- The rows of a generation, an error for each line that is malformed. -/
def entries : List (Except Error Entry) :=
  (statements table).filterMap fun line => (classify line).asEntry

/-- The pointers of a generation, an error for each line that is malformed. -/
def defaults : List (Except Error Pointer) :=
  (statements table).filterMap fun line => (classify line).asPointer

/-- Run a loop over the items of an iterator, which ends at the first error. -/
def forEach {α σ : Type} (items : List (Except Error α)) (s : σ) (body : σ → α → Except Error σ) :
    Except Error σ := items.foldlM (fun s item => item >>= body s) s

def defaultOf (table program : Text) : Except Error (Option Digest) := do
  let (found, count) ← forEach (defaults table) (none, 0) fun s pointer =>
    pure (if pointer.program = program then (some pointer.digest, s.2 + 1) else s)
  if count > 1 then .error .malformed else .ok found

/-- The first row that a loop with an early return answers with. -/
def firstRow (p : Entry → Bool) : List (Except Error Entry) → Except Error (Option Entry)
  | [] => .ok none
  | entry :: rest => do
      let entry ← entry
      if p entry then .ok (some entry) else firstRow p rest

/-- The entry a bare name at the prompt runs. -/
def lookup (table program : Text) : Except Error (Option Entry) := do
  match ← defaultOf table program with
  | none => .ok none
  | some digest =>
      match ← firstRow (fun e => e.program = program && e.package != owner && e.digest = digest)
          (entries table) with
      | some entry => .ok (some entry)
      | none => .error .malformed

/-- The row that bytes with this digest belong to, the first of them. -/
def lookupDigest (digest : Digest) : Except Error (Option Entry) :=
  forEach (entries table) none fun found entry =>
    pure (if found.isNone && entry.digest = digest then some entry else found)

end

/-! ### Writing the next generation -/

/-- A buffer of `room` bytes, with the text written so far. -/
structure Writer where
  room : Nat
  text : Text

namespace Writer

def bytes (w : Writer) (piece : Text) : Except Error Writer :=
  if w.text.bytes.length + piece.bytes.length ≤ w.room then
    .ok { w with text := w.text ++ piece }
  else .error .tooSmall

section

variable (w : Writer)

def entry (e : Entry) : Except Error Writer :=
  [hex e.digest, [' '], e.program, [' '], e.version, [' '], e.package, ['\n']].foldlM bytes w

def pointer (program : Text) (digest : Digest) : Except Error Writer :=
  [defaultWord ++ [' '], program, [' '], hex digest, ['\n']].foldlM bytes w

def entryIf (b : Bool) (e : Entry) : Except Error Writer :=
  if b then w.entry e else pure w

def pointerIf (b : Bool) (program : Text) (digest : Digest) : Except Error Writer :=
  if b then w.pointer program digest else pure w

end

end Writer

/-- Does an install replace this row?  A vouch replaces the vouch of its name, a package the row of
the same bytes. -/
def replacedHere (vouch : Bool) (entry existing : Entry) : Bool :=
  (existing.package == owner) == vouch && existing.program == entry.program &&
    if vouch then true else existing.digest == entry.digest

def takenBy (vouch : Bool) (entry existing : Entry) : Bool :=
  !vouch && existing.program == entry.program && existing.package != owner &&
    existing.package != entry.package

section

variable (entry : Entry)

def installRow (s : Writer × Bool) (existing : Entry) : Except Error (Writer × Bool) :=
  if replacedHere (entry.package == owner) entry existing then do
    let w ← s.1.entry entry
    pure (w, true)
  else do
    let w ← s.1.entry existing
    pure (w, s.2)

/-- Does an install move this pointer?  A vouch moves none. -/
def movedHere (existing : Pointer) : Bool :=
  !(entry.package == owner) && existing.program == entry.program

def installPointer (s : Writer × Bool) (existing : Pointer) : Except Error (Writer × Bool) :=
  if movedHere entry existing then do
    let w ← s.1.pointer entry.program entry.digest
    pure (w, true)
  else do
    let w ← s.1.pointer existing.program existing.digest
    pure (w, s.2)

end

/-- The next generation, with `entry` installed, written into `room` bytes. -/
def withEntry (table : Text) (entry : Entry) (imageCarries : Bool) (room : Nat) :
    Except Error Text :=
  let vouch := entry.package == owner
  if !goodName entry.program || !goodName entry.version || !goodName entry.package then
    .error .badName
  else if !vouch && imageCarries then .error .imageName
  else do
    -- refuse before writing a byte
    forEach (entries table) () fun _ existing =>
      if takenBy vouch entry existing then .error .taken else pure ()
    let (w, replaced) ← forEach (entries table) (⟨room, []⟩, false) (installRow entry)
    let w ← w.entryIf (!replaced) entry
    let (w, pointed) ← forEach (defaults table) (w, false) (installPointer entry)
    let w ← w.pointerIf (!vouch && !pointed) entry.program entry.digest
    pure w.text

def removeRow (program : Text) (s : Writer × Bool) (existing : Entry) :
    Except Error (Writer × Bool) :=
  if existing.program == program && existing.package != owner then pure (s.1, true)
  else do
    let w ← s.1.entry existing
    pure (w, s.2)

/-- The next generation, without a program's package rows and its pointer. -/
def withoutEntry (table program : Text) (room : Nat) : Except Error Text := do
  let (w, removed) ← forEach (entries table) (⟨room, []⟩, false) (removeRow program)
  let w ← forEach (defaults table) w fun w existing =>
    w.pointerIf (existing.program != program) existing.program existing.digest
  if removed then pure w.text else .error .notInstalled

/-- What one pass over the rows decides for `withoutVersion`: the row to remove, the first that
would survive it, and whether the survivors are all of one version. -/
structure Decision where
  (target survivor : Option Entry)
  uniform : Bool
  deriving DecidableEq, Repr

def decideRow (program version : Text) (s : Decision) (existing : Entry) : Decision :=
  if existing.program != program || existing.package == owner then s
  else if existing.version == version && s.target.isNone then { s with target := some existing }
  else
    { s with
      uniform := s.uniform && s.survivor.elim true (fun first => first.version == existing.version)
      survivor := some (s.survivor.getD existing) }

def sameRow (target existing : Entry) : Bool :=
  existing.program == target.program && existing.version == target.version &&
    existing.digest == target.digest

/-- A row in the writing loop of `withoutVersion`. -/
def skipRow (target : Entry) (s : Writer × Bool) (existing : Entry) :
    Except Error (Writer × Bool) :=
  if !s.2 && sameRow target existing then pure (s.1, true)
  else do
    let w ← s.1.entry existing
    pure (w, s.2)

/-- A pointer in the writing loop of `withoutVersion`. -/
def repoint (program : Text) (movePointer : Bool) (survivor : Option Entry) (w : Writer)
    (existing : Pointer) : Except Error Writer :=
  if existing.program == program && movePointer then
    match survivor with
    | none => pure w
    | some survivor => w.pointer program survivor.digest
  else w.pointer existing.program existing.digest

/-- The next generation, without the first row of a program at a version. -/
def withoutVersion (table program version : Text) (room : Nat) : Except Error Text := do
  let s ← forEach (entries table) ⟨none, none, true⟩ fun s existing =>
    pure (decideRow program version s existing)
  match s.target with
  | none => .error .notInstalled
  | some target => do
      let pointed ← defaultOf table program
      let movePointer := pointed.any (· == target.digest)
      if movePointer && !s.uniform then .error .ambiguous
      else do
        let (w, _) ← forEach (entries table) (⟨room, []⟩, false) (skipRow target)
        let w ← forEach (defaults table) w (repoint program movePointer s.survivor)
        pure w.text

/-! ### Good names -/

variable {table name : Text} {e : Entry} {p : Pointer} {rows : List Entry} {ptrs : List Pointer}

theorem goodName_ne_nil (h : goodName name = true) : name ≠ [] := by
  rintro rfl
  cases h

variable {c : Char} {line : Text}

theorem goodName_notMem {b : UInt8} (h : goodName name = true)
    (hc : String.utf8EncodeChar c = [b]) (hb : ¬(b > 0x20)) : c ∉ name := by
  intro hmem
  have hall := (Bool.and_eq_true_iff.mp h).2
  rw [List.all_eq_true] at hall
  have hbyte := hall b (mem_flatMap.mpr ⟨c, hmem, by rw [hc]; exact mem_singleton_self b⟩)
  rw [Bool.and_eq_true, decide_eq_true_eq] at hbyte
  exact hb hbyte.1

theorem goodName_space (h : goodName name = true) : ' ' ∉ name :=
  goodName_notMem (b := 0x20) h (by decide) (by decide)

theorem goodName_newline (h : goodName name = true) : '\n' ∉ name :=
  goodName_notMem (b := 0x0a) h (by decide) (by decide)

/-! ### Hexadecimal digits read back -/

theorem nibble_digit (k : Fin 16) :
    (String.utf8EncodeChar (hexDigits.getD k '0')).map nibble = [some (ofNat k)] := by
  revert k
  decide

theorem recombine (b : UInt8) : (b >>> 4).toNat < 16 ∧ (b &&& 0xf).toNat < 16 ∧
    (b >>> 4) <<< 4 ||| (b &&& 0xf) = b := by
  have hall : ∀ n : Fin 256, ((UInt8.ofNat n) >>> 4).toNat < 16 ∧ ((UInt8.ofNat n) &&& 0xf).toNat < 16 ∧
      ((UInt8.ofNat n) >>> 4) <<< 4 ||| ((UInt8.ofNat n) &&& 0xf) = UInt8.ofNat n := by
    decide +kernel
  have hb := hall ⟨b.toNat, b.toNat_lt⟩
  rwa [UInt8.ofNat_toNat] at hb

theorem parsePairs_hexByte (b : UInt8) (rest : List UInt8) :
    parsePairs ((hexByte b).bytes ++ rest) = (parsePairs rest).map (b :: ·) := by
  obtain ⟨hhi, hlo, hb⟩ := recombine b
  obtain ⟨x, hx, hnx⟩ := map_eq_singleton_iff.mp (nibble_digit ⟨_, hhi⟩)
  obtain ⟨y, hy, hny⟩ := map_eq_singleton_iff.mp (nibble_digit ⟨_, hlo⟩)
  rw [UInt8.ofNat_toNat] at hnx hny
  have hbytes : (hexByte b).bytes = [x, y] := by
    simp only [hexByte, Text.bytes, flatMap_cons, flatMap_nil, hx, hy, append_nil,
      cons_append, nil_append]
  rw [hbytes]
  change (nibble x).bind _ = _
  rw [hnx, bind_some, hny, bind_some, hb]
  rfl

theorem parsePairs_hex (l : List UInt8) : parsePairs (bytes (l.flatMap hexByte)) = some l := by
  induction l with
  | nil => rfl
  | cons b l ih => rw [flatMap_cons, bytes_append, parsePairs_hexByte, ih, map_some]

theorem length_bytes_hexByte (b : UInt8) : (hexByte b).bytes.length = 2 := by
  obtain ⟨hhi, hlo, -⟩ := recombine b
  have hx := congrArg List.length (nibble_digit ⟨_, hhi⟩)
  have hy := congrArg List.length (nibble_digit ⟨_, hlo⟩)
  rw [length_map] at hx hy
  simp only [hexByte, bytes, flatMap_cons, flatMap_nil, length_append, hx, hy,
    length_cons, length_nil]

theorem length_bytes_hex (l : List UInt8) :
    (bytes (l.flatMap hexByte)).length = 2 * l.length := by
  induction l with
  | nil => rfl
  | cons b l ih =>
    rw [flatMap_cons, bytes_append, length_append, length_bytes_hexByte, length_cons]
    omega

/-- **A digest written in hexadecimal reads back.** -/
theorem parseHex_hex (d : Digest) : parseHex (hex d) = some d := by
  have hlen : (hex d).bytes.length = 64 := by
    rw [hex, length_bytes_hex, d.length]
  unfold parseHex
  rw [if_neg (not_not.mpr hlen), hex, parsePairs_hex, bind_some, dif_pos d.length]

theorem mem_hexDigits_of_mem_hex {d : Digest} (h : c ∈ hex d) : c ∈ hexDigits := by
  obtain ⟨b, -, hc⟩ := mem_flatMap.mp h
  obtain ⟨hhi, hlo, -⟩ := recombine b
  have hget : ∀ k : Fin 16, hexDigits.getD k '0' ∈ hexDigits := by decide
  rcases mem_cons.mp hc with rfl | hc
  · exact hget ⟨_, hhi⟩
  · rw [mem_singleton.mp hc]
    exact hget ⟨_, hlo⟩

theorem hex_ne_nil (d : Digest) : hex d ≠ [] := by
  intro h
  have hread := parseHex_hex d
  rw [h] at hread
  cases hread

theorem hex_ne_defaultWord (d : Digest) : hex d ≠ defaultWord := by
  intro h
  have hread := parseHex_hex d
  rw [h] at hread
  cases hread

/-! ### A rendered generation -/

/-- The line of a row. -/
def rowLine (e : Entry) : Text := [' '].intercalate [hex e.digest, e.program, e.version, e.package]

/-- The line of a pointer. -/
def pointerLine (p : Pointer) : Text := [' '].intercalate [defaultWord, p.program, hex p.digest]

/-- The text of rows and pointers. -/
def render (rows : List Entry) (ptrs : List Pointer) : Text :=
  Text.unlines (rows.map rowLine ++ ptrs.map pointerLine)

/-- The names of a row are good, and its line does not end in white space. -/
structure Legible (e : Entry) : Prop where
  program : goodName e.program = true
  version : goodName e.version = true
  package : goodName e.package = true
  last : ∀ c, e.package.getLast? = some c → Text.isWhitespace c = false

theorem notMem_hex (d : Digest) (hc : c ∉ hexDigits) : c ∉ hex d :=
  fun h => hc (mem_hexDigits_of_mem_hex h)

theorem classify_rowLine (h : Legible e) : classify (rowLine e) = .row e := by
  have hsplit : (rowLine e).splitOn ' ' = [hex e.digest, e.program, e.version, e.package] := by
    refine List.splitOn_intercalate ' ' ?_ (by simp)
    simp only [List.forall_mem_cons, List.not_mem_nil, false_imp_iff, implies_true, and_true]
    exact ⟨notMem_hex _ (by decide), goodName_space h.program, goodName_space h.version,
      goodName_space h.package⟩
  unfold classify
  rw [hsplit]
  simp [hex_ne_defaultWord, parseHex_hex, h.program, h.version, h.package]

theorem classify_pointerLine (h : goodName p.program = true) :
    classify (pointerLine p) = .pointer p := by
  have hsplit : (pointerLine p).splitOn ' ' = [defaultWord, p.program, hex p.digest] := by
    refine List.splitOn_intercalate ' ' ?_ (by simp)
    simp only [List.forall_mem_cons, List.not_mem_nil, false_imp_iff, implies_true, and_true]
    exact ⟨by decide, goodName_space h, notMem_hex _ (by decide)⟩
  unfold classify
  rw [hsplit]
  simp [parseHex_hex, h, Option.filter]

/-- A line that is read as it was written: it is one line, its own trim, and neither blank nor a
comment. -/
structure Plain (l : Text) : Prop where
  newline : '\n' ∉ l
  first : ∃ c, l.head? = some c ∧ Text.isWhitespace c = false ∧ c ≠ '#'
  last : ∀ c, l.getLast? = some c → Text.isWhitespace c = false

theorem statements_unlines {ls : List Text} (h : ∀ l ∈ ls, Plain l) :
    statements (unlines ls) = ls := by
  have hlines : lines (unlines ls) = ls := by
    refine lines_unlines fun l hl => ⟨(h l hl).newline, fun hcr => ?_⟩
    exact absurd ((h l hl).last _ hcr) (by decide)
  have htrim : ls.map trim = ls := by
    conv_rhs => rw [← map_id ls]
    refine map_congr_left fun l hl => trim_eq_self (fun c hc => ?_) (h l hl).last
    obtain ⟨c', hc', hws, -⟩ := (h l hl).first
    rw [hc', Option.some.injEq] at hc
    exact hc ▸ hws
  rw [statements, hlines, htrim, filter_eq_self]
  intro l hl
  obtain ⟨c, hc, -, hne⟩ := (h l hl).first
  cases l with
  | nil => cases hc
  | cons c' l =>
    cases hc
    simp [hne]

theorem digit_plain (h : c ∈ hexDigits) : isWhitespace c = false ∧ c ≠ '#' := by
  have hall : hexDigits.all (fun c => !isWhitespace c && c != '#') = true := by decide
  simpa using all_eq_true.mp hall c h

theorem plain_rowLine (h : Legible e) : Plain (rowLine e) := by
  obtain ⟨c, digits, hhex⟩ := exists_cons_of_ne_nil (hex_ne_nil e.digest)
  have hc := digit_plain (mem_hexDigits_of_mem_hex (d := e.digest) (by rw [hhex]; exact mem_cons_self))
  refine ⟨?_, ⟨c, ?_, hc⟩, fun c hlast => ?_⟩
  · have hhexn := notMem_hex (c := '\n') e.digest (by decide)
    have hpn := goodName_newline h.program
    have hvn := goodName_newline h.version
    have hkn := goodName_newline h.package
    simp [rowLine, hhexn, hpn, hvn, hkn]
  · simp [rowLine, hhex]
  · refine h.last c ?_
    rw [← hlast]
    exact (getLast?_intercalate _ [_, _, _] (goodName_ne_nil h.package)).symm

theorem plain_pointerLine (h : goodName p.program = true) : Plain (pointerLine p) := by
  refine ⟨?_, ⟨'d', ?_, by decide, by decide⟩, fun c hlast => ?_⟩
  · have hhexn := notMem_hex (c := '\n') p.digest (by decide)
    have hpn := goodName_newline h
    have hdn : '\n' ∉ defaultWord := by decide
    simp [pointerLine, hhexn, hpn, hdn]
  · simp [pointerLine, defaultWord]
  · refine (digit_plain (mem_hexDigits_of_mem_hex (d := p.digest) (mem_of_getLast? ?_))).1
    rw [← hlast]
    exact (getLast?_intercalate _ [_, _] (hex_ne_nil p.digest)).symm

theorem statements_render (hrows : ∀ e ∈ rows, Legible e)
    (hptrs : ∀ p ∈ ptrs, goodName p.program = true) :
    statements (render rows ptrs) = rows.map rowLine ++ ptrs.map pointerLine := by
  refine statements_unlines fun l hl => ?_
  rcases mem_append.mp hl with hl | hl
  · obtain ⟨e, he, rfl⟩ := mem_map.mp hl
    exact plain_rowLine (hrows e he)
  · obtain ⟨p, hp, rfl⟩ := mem_map.mp hl
    exact plain_pointerLine (hptrs p hp)

/-- Lines that all become something, or all nothing, in a `filterMap`. -/
theorem filterMap_lines {α β : Type} {l : List α} {line : α → Text} {f : Line → Option β}
    {g : α → Option β} (h : ∀ a ∈ l, f (classify (line a)) = g a) :
    (l.map line).filterMap (fun t => f (classify t)) = l.filterMap g := by
  rw [filterMap_map]
  exact filterMap_congr h

section

variable (hrows : ∀ e ∈ rows, Legible e) (hptrs : ∀ p ∈ ptrs, goodName p.program = true)
include hrows hptrs

/-- **A rendered generation reads back as its rows.** -/
theorem entries_render : entries (render rows ptrs) = rows.map .ok := by
  rw [entries, statements_render hrows hptrs, filterMap_append,
    filterMap_lines (g := fun e => some (.ok e)) fun e he => by rw [classify_rowLine (hrows e he)]; rfl,
    filterMap_lines (g := fun _ => none) fun p hp => by rw [classify_pointerLine (hptrs p hp)]; rfl]
  simp

theorem defaults_render : defaults (render rows ptrs) = ptrs.map .ok := by
  rw [defaults, statements_render hrows hptrs, filterMap_append,
    filterMap_lines (g := fun _ => none) fun e he => by rw [classify_rowLine (hrows e he)]; rfl,
    filterMap_lines (g := fun p => some (.ok p)) fun p hp => by
      rw [classify_pointerLine (hptrs p hp)]; rfl]
  simp

/-! ### Readable generations -/

/-- The generation reads as these rows and pointers, with no error. -/
structure Reads (table : Text) (rows : List Entry) (ptrs : List Pointer) : Prop where
  entries : entries table = rows.map .ok
  defaults : defaults table = ptrs.map .ok

theorem reads_render : Reads (render rows ptrs) rows ptrs :=
  ⟨entries_render hrows hptrs, defaults_render hrows hptrs⟩

end

theorem reads_nil : Reads [] [] [] := by
  constructor <;> rfl

theorem legible_of_classify (h : classify line = .row e)
    (hlast : ∀ c, line.getLast? = some c → isWhitespace c = false) : Legible e := by
  have hjoin : [' '].intercalate (line.splitOn ' ') = line := intercalate_splitOn ' '
  unfold classify at h
  split at h
  · cases h
  case h_2 first rest hsplit =>
    rw [hsplit] at hjoin
    split at h
    case isTrue =>
      split at h
      · split at h <;> cases h
      · cases h
    case isFalse =>
      split at h
      case h_2 => cases h
      case h_1 program version package =>
        split at h
        · cases h
        split at h
        · cases h
        case h_2.isFalse hgood =>
          cases h
          simp only [Bool.or_eq_true, Bool.not_eq_true', not_or, Bool.not_eq_false] at hgood
          refine ⟨hgood.1.1, hgood.1.2, hgood.2, fun c hc => hlast c ?_⟩
          rw [← hjoin, ← hc]
          exact getLast?_intercalate _ [_, _, _] (goodName_ne_nil hgood.2)

theorem goodName_of_classify (h : classify line = .pointer p) : goodName p.program = true := by
  unfold classify at h
  split at h
  · cases h
  split at h
  case isTrue =>
    split at h
    · split at h
      case h_1 hfilter =>
        cases h
        exact (filter_eq_some_iff.mp hfilter).2
      case h_2 => cases h
    · cases h
  case isFalse =>
    split at h
    · split at h
      · cases h
      · split at h <;> cases h
    · cases h

theorem Reads.legible (h : Reads table rows ptrs) : ∀ e ∈ rows, Legible e := by
  intro e he
  have hmem : Except.ok e ∈ Activation.entries table := by
    rw [h.entries]
    exact mem_map_of_mem he
  obtain ⟨line, hline, heq⟩ := mem_filterMap.mp hmem
  obtain ⟨l, -, rfl⟩ := mem_map.mp (mem_filter.mp hline).1
  cases hclass : classify (trim l) with
  | row e' =>
    rw [hclass] at heq
    cases heq
    exact legible_of_classify hclass fun c hc => getLast?_trim hc
  | pointer | malformed => rw [hclass] at heq; cases heq

theorem Reads.goodName (h : Reads table rows ptrs) :
    ∀ p ∈ ptrs, Activation.goodName p.program = true := by
  intro p hp
  have hmem : Except.ok p ∈ Activation.defaults table := by
    rw [h.defaults]
    exact mem_map_of_mem hp
  obtain ⟨line, -, heq⟩ := mem_filterMap.mp hmem
  cases hclass : classify line with
  | pointer p' =>
    rw [hclass] at heq
    cases heq
    exact goodName_of_classify hclass
  | row | malformed => rw [hclass] at heq; cases heq

end Nife.Activation
