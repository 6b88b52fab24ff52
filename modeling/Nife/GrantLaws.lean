/-
A plan never exceeds its manifest, its line or what the shell holds, and uses the whole line.

Every slot's planner is inverted once: what it read, what it granted, and where the next positional
is.  A grant from an operand lies in the directory that the operand's leading steps lead to, and
its names are the operand's last component or the names expanded for that very operand (`Operand`).
From the parts together: `plan_within` bounds the endowment, and `usedUp_iff` says what each
token of the line was used for, provided the line has no more tokens than are read.
-/
import Nife.GrantPlan

namespace Nife.GrantPlan

open Bytes Fallible List Manifest Parsing NameSet

variable {line token : Bytes} {run : RunSpec} {prog : Bytes} {m : Manifest} {holds : Holdings}
variable {expanded : Expansion} {e : Endowment} {index next next' : Nat}

/-! ### Operands -/

/-- The operand `token`, at this index, designates these names in this directory: the directory is
the place its leading steps lead to, and the names are its last component or those expanded for
it. -/
structure Operand (holds : Holdings) (expanded : Expansion) (index : Nat) (token : Bytes)
    (which : Which) (dir : Cwd) (names : NameSet) : Prop where
  designates : ∃ parsed lead last place, path token = .ok parsed ∧
    parsed.splitLastComponent = some (lead, last) ∧
    (holds.anchor parsed.fromRoot lead).1.apply (holds.anchor parsed.fromRoot lead).2 =
      .ok place ∧
    holds.locate place = (which, dir) ∧
    (names.texts = [last] ∨ expanded.place = some index ∧ names = expanded.names)

variable {s names : NameSet} {flags n : Nat} {p : Parsing} {letter : UInt8} {toks : List Bytes}

theorem texts_one {name : Bytes} {isDir : Bool} (h : one name isDir = some s) :
    s.texts = [name] := by
  simp only [one, push, Name.new] at h
  split at h
  · cases h
  · split at h
    · rename_i hname
      split_ifs at hname
      cases hname
      cases h
      rfl
    · cases h

theorem forPositional_eq_some (h : expanded.forPositional index = some s) :
    expanded.place = some index ∧ s = expanded.names := by
  unfold Expansion.forPositional at h
  split_ifs at h
  exact ⟨‹_›, (Option.some.inj h).symm⟩

theorem designateNames_ok {magic : Bool} {last : Bytes}
    (h : designateNames magic last index expanded = .ok names) :
    names.texts = [last] ∨ expanded.place = some index ∧ names = expanded.names := by
  unfold designateNames at h
  split at h
  · split at h
    · cases h
    · rename_i set hset
      split_ifs at h
      cases h
      exact .inr (forPositional_eq_some hset)
  · split at h
    · cases h
    · rename_i hone
      cases h
      exact .inl (texts_one hone)

variable {which : Which} {dir : Cwd} {v : Nat} {t : Bytes × Bool}

theorem designate_ok (h : designate token index holds expanded = .ok (which, dir, names)) :
    Operand holds expanded index token which dir names := by
  obtain ⟨magic, -, h⟩ := bind_eq_ok.mp h
  obtain ⟨parsed, hparsed, h⟩ := bind_eq_ok.mp h
  split at h
  · cases h
  · rename_i lead last hsplit
    obtain ⟨place, hplace, h⟩ := bind_eq_ok.mp h
    obtain ⟨names', hnames, h⟩ := bind_eq_ok.mp h
    cases h
    exact ⟨parsed, lead, last, place, mapError_eq_ok hparsed, hsplit, mapError_eq_ok hplace, rfl,
      designateNames_ok hnames⟩

theorem texts_only {n : Name} (h : s.only = some n) : s.texts = [n.bytes] := by
  unfold only at h
  split at h
  · rename_i e he
    cases h
    rw [texts, he]
    rfl
  · cases h

/-- A file grant comes from a directory the shell holds, and names one file of the operand. -/
theorem designateFile_ok {many : Refusal} {writable : Bool} {g : FileGrant}
    (h : designateFile many token index holds expanded writable = .ok g) :
    holds.dir = true ∧ g.writable = writable ∧
      ∃ names, Operand holds expanded index token g.which g.dir names ∧
        names.texts = [g.name.bytes] := by
  unfold designateFile at h
  split_ifs at h with hdir
  obtain ⟨⟨which, dir, names⟩, hdes, h⟩ := bind_eq_ok.mp h
  simp only at h
  split at h
  · cases h
  · rename_i hname
    cases h
    exact ⟨by simpa using hdir, rfl, names, designate_ok hdes, texts_only hname⟩

/-! ### Slots -/

namespace Manifest

section

variable (m : Manifest)

def argSlots : Nat := if m.arg = .required then 1 else 0

def fileSlots : Nat := if m.file = .forbidden then 0 else 1

def dirSlots : Nat := if m.dir = .forbidden then 0 else 1

def fileIndex : Nat := m.argSlots

def dirIndex : Nat := m.argSlots + m.fileSlots

def inputIndex : Nat := m.argSlots + m.fileSlots + m.dirSlots

end

end Manifest

theorem planArg_ok (hwords : m.arg.hearsWords = false) (h : planArg run m = .ok (v, next)) :
    next = m.argSlots ∧
      (m.arg = .required → ∃ t, run.pos[0]? = some t ∧ parseU64 t.1 = some v) := by
  unfold planArg at h
  split at h
  · rename_i harg
    split at h
    · cases h
    · rename_i first hfirst
      split at h
      · cases h
      · rename_i hv
        cases h
        exact ⟨by simp [argSlots, harg], fun _ => ⟨first, hfirst, hv⟩⟩
  · rename_i harg
    cases h
    exact ⟨by simp [argSlots, harg], fun hreq => by rw [harg] at hreq; cases hreq⟩
  · rename_i harg
    rw [harg] at hwords
    cases hwords

theorem planArg_words (hwords : m.arg.hearsWords = true)
    (h : planArg run m = .ok (v, next)) : next = run.pos.length := by
  unfold planArg at h
  split at h
  · rename_i harg
    rw [harg] at hwords
    cases hwords
  · rename_i harg
    rw [harg] at hwords
    cases hwords
  · obtain ⟨_, -, h⟩ := bind_eq_ok.mp h
    cases h
    rfl

theorem planFile_ok {file : Option FileGrant}
    (h : planFile run m holds expanded next = .ok (file, next')) :
    next' = next + m.fileSlots ∧ (m.file = .forbidden ∧ file = none ∨
        ∃ g t names, m.file = .required g.writable ∧ file = some g ∧ run.pos[next]? = some t ∧
          holds.dir = true ∧ Operand holds expanded next t.1 g.which g.dir names ∧
          names.texts = [g.name.bytes]) := by
  unfold planFile at h
  split at h
  · rename_i hfile
    cases h
    exact ⟨by simp [fileSlots, hfile], .inl ⟨hfile, rfl⟩⟩
  · rename_i writable hfile
    split at h
    · cases h
    · rename_i t ht
      obtain ⟨g, hg, h⟩ := bind_eq_ok.mp h
      cases h
      obtain ⟨hdir, rfl, names, hop, hname⟩ := designateFile_ok hg
      exact ⟨by simp [fileSlots, hfile], .inr ⟨g, t, names, hfile, rfl, ht, hdir, hop, hname⟩⟩

theorem planDir_ok {dir : Option DirGrant}
    (h : planDir run m holds expanded flags next = .ok (dir, next')) :
    next' = next + m.dirSlots ∧ (m.dir = .forbidden ∧ dir = none ∨
        ∃ g t flag, m.dir = .required flag ∧ dir = some g ∧ run.pos[next]? = some t ∧
          holds.dir = true ∧ Operand holds expanded next t.1 g.which g.dir g.names ∧
          g.subtree = subtreeTyped m flags flag) := by
  unfold planDir at h
  split at h
  · rename_i hdir
    cases h
    exact ⟨by simp [dirSlots, hdir], .inl ⟨hdir, rfl⟩⟩
  · rename_i flag hspec
    split at h
    · cases h
    · rename_i t ht
      split_ifs at h with hdir
      obtain ⟨⟨which, dir, names⟩, hdes, h⟩ := bind_eq_ok.mp h
      cases h
      exact ⟨by simp [dirSlots, hspec],
        .inr ⟨_, t, flag, hspec, rfl, ht, by simpa using hdir, designate_ok hdes, rfl⟩⟩

theorem planInput_ok {source : Source}
    (h : planInput run m holds expanded .none next = .ok (source, next')) :
    (source = .none ∧ next' = next ∧ (m.input = .forbidden ∨ run.pos[next]? = none)) ∨
      ∃ g t names, m.input ≠ .forbidden ∧ source = .file g ∧ next' = next + 1 ∧
        run.pos[next]? = some t ∧ holds.dir = true ∧
        Operand holds expanded next t.1 g.which g.dir names ∧ names.texts = [g.name.bytes] := by
  unfold planInput at h
  split at h
  · rename_i w token hinput _ hpos
    obtain ⟨g, hg, h⟩ := bind_eq_ok.mp h
    cases h
    obtain ⟨hdir, -, names, hop, hname⟩ := designateFile_ok hg
    exact .inr ⟨g, token, names, by simp [hinput], rfl, rfl, hpos, hdir, hop, hname⟩
  · rename_i hno
    cases h
    refine .inl ⟨rfl, rfl, ?_⟩
    cases hinput : m.input with
    | forbidden => exact .inl rfl
    | required w =>
      refine .inr (Option.eq_none_iff_forall_ne_some.mpr fun t ht => ?_)
      exact hno w t hinput rfl ht

/-- The parts of a plan. -/
structure Planned (run : RunSpec) (m : Manifest) (holds : Holdings) (expanded : Expansion)
    (e : Endowment) : Prop where
  readable : run.misquoted = none
  expected : m.arg.hearsWords = false → run.unexpected = none
  flags : planFlags m (if m.arg.hearsWords = true then [] else run.opts) = .ok e.flags
  slots : ∃ n₁ n₂ n₃ n₄ dir, planArg run m = .ok (e.arg, n₁) ∧
    planFile run m holds expanded n₁ = .ok (e.file, n₂) ∧
    planDir run m holds expanded e.flags n₂ = .ok (dir, n₃) ∧
    planWords m holds expanded dir = .ok e.dir ∧
    planInput run m holds expanded .none n₃ = .ok (e.source, n₄) ∧ run.pos[n₄]? = none
  mem : planMem m run.mem = .ok e.memPages

theorem planned_of_planAgainst (h : planAgainst run prog m holds expanded = .ok e) :
    Planned run m holds expanded e := by
  unfold planAgainst planAgainstWith at h
  split at h
  · cases h
  · rename_i hread
    split at h
    · cases h
    · rename_i hexp
      obtain ⟨flags, hflags, h⟩ := bind_eq_ok.mp h
      obtain ⟨⟨arg, n₁⟩, harg, h⟩ := bind_eq_ok.mp h
      obtain ⟨⟨file, n₂⟩, hfile, h⟩ := bind_eq_ok.mp h
      obtain ⟨⟨dir, n₃⟩, hdir, h⟩ := bind_eq_ok.mp h
      obtain ⟨dir', hwords, h⟩ := bind_eq_ok.mp h
      obtain ⟨⟨source, n₄⟩, hinput, h⟩ := bind_eq_ok.mp h
      simp only at h
      split at h
      · cases h
      · rename_i hall
        obtain ⟨mem, hmem, h⟩ := bind_eq_ok.mp h
        obtain ⟨diagnostics, hstreams, h⟩ := bind_eq_ok.mp h
        cases h
        refine ⟨hread, fun hno => ?_, hflags,
          ⟨n₁, n₂, n₃, n₄, dir, harg, hfile, hdir, hwords, hinput, hall⟩, hmem⟩
        by_contra hsome
        exact hexp ⟨hsome, hno⟩

/-! ### What was typed -/

/-- The option letter was typed, in an unquoted cluster. -/
def Typed (line : Bytes) (letter : UInt8) : Prop :=
  ∃ token ∈ tokens line, ∃ letters, read token = .ok ⟨chr '-' :: letters, false⟩ ∧
    letter ∈ letters

/-- The number was typed, behind an unquoted `--mem`. -/
def MemTyped (line : Bytes) (n : Nat) : Prop :=
  ∃ before flag value after, tokens line = before ++ flag :: value :: after ∧
    read flag = .ok ⟨ascii "--mem", false⟩ ∧ ∃ w, read value = .ok w ∧ parseU64 w.text = some n

theorem opts_place {w : Word} (h : letter ∈ (p.place w).run.opts) :
    letter ∈ p.run.opts ∨ ∃ letters, w = ⟨chr '-' :: letters, false⟩ ∧ letter ∈ letters := by
  unfold place refuse at h
  split_ifs at h with hflag
  · refine (mem_append.mp h).imp id fun hl => ⟨w.text.tail, ?_, hl⟩
    obtain ⟨text, quoted⟩ := w
    obtain ⟨rfl, hhead⟩ := hflag
    obtain ⟨letters, rfl⟩ := head?_eq_some_iff.mp hhead
    rfl
  all_goals exact .inl h

theorem mem_place (p : Parsing) (w : Word) : (p.place w).run.mem = p.run.mem := by
  unfold place refuse
  split_ifs <;> rfl

theorem opts_tokens (h : letter ∈ (p.tokens toks).run.opts) :
    letter ∈ p.run.opts ∨ ∃ token ∈ toks, ∃ letters,
      read token = .ok ⟨chr '-' :: letters, false⟩ ∧ letter ∈ letters := by
  fun_induction Parsing.tokens p toks with
  | case1 p => exact .inl h
  | case2 p token rest r _ ih =>
    refine (ih h).imp id ?_
    rintro ⟨t, ht, found⟩
    exact ⟨t, mem_cons_of_mem _ ht, found⟩
  | case3 p token w _ _ => exact .inl h
  | case4 p token w _ _ value rest ih =>
    refine (ih h).imp id ?_
    rintro ⟨t, ht, found⟩
    exact ⟨t, mem_cons_of_mem _ (mem_cons_of_mem _ ht), found⟩
  | case5 p token rest w hread _ ih =>
    rcases ih h with hl | ⟨t, ht, found⟩
    · refine (opts_place hl).imp id ?_
      rintro ⟨letters, rfl, hletter⟩
      exact ⟨token, mem_cons_self, letters, hread, hletter⟩
    · exact .inr ⟨t, mem_cons_of_mem _ ht, found⟩

theorem mem_tokens (h : (p.tokens toks).run.mem = some n) :
    p.run.mem = some n ∨ ∃ before flag value after, toks = before ++ flag :: value :: after ∧
      read flag = .ok ⟨ascii "--mem", false⟩ ∧
      ∃ w, read value = .ok w ∧ parseU64 w.text = some n := by
  fun_induction Parsing.tokens p toks with
  | case1 p => exact .inl h
  | case2 p token rest r _ ih =>
    refine (ih h).imp id ?_
    rintro ⟨before, flag, value, after, rfl, found⟩
    exact ⟨token :: before, flag, value, after, rfl, found⟩
  | case3 p token w _ _ => exact .inl h
  | case4 p token w hread hmem value rest ih =>
    right
    rcases ih h with hset | ⟨before, flag, value', after, rfl, found⟩
    · obtain ⟨text, quoted⟩ := w
      obtain ⟨rfl, rfl⟩ := hmem
      refine ⟨[], token, value, rest, rfl, hread, ?_⟩
      simp only [Parsing.setMem, memValue] at hset
      cases hvalue : read value with
      | error r =>
        rw [hvalue] at hset
        cases hset
      | ok w =>
        rw [hvalue] at hset
        exact ⟨w, rfl, hset⟩
    · exact ⟨token :: value :: before, flag, value', after, rfl, found⟩
  | case5 p token rest w _ _ ih =>
    rcases ih h with hold | ⟨before, flag, value, after, rfl, found⟩
    · exact .inl (mem_place p w ▸ hold)
    · exact .inr ⟨token :: before, flag, value, after, rfl, found⟩

theorem typed_of_opts (h : letter ∈ (parseRun line).opts) : Typed line letter := by
  obtain h | ⟨token, htoken, letters, hread, hl⟩ := opts_tokens h
  · cases h
  · rw [tokenize_eq_take] at htoken
    exact ⟨token, mem_of_mem_take htoken, letters, hread, hl⟩

theorem memTyped_of_mem (h : (parseRun line).mem = some n) : MemTyped line n := by
  obtain h | ⟨before, flag, value, after, hsplit, hflag, hvalue⟩ := mem_tokens h
  · cases h
  · refine ⟨before, flag, value, after ++ (tokens line).drop maxTokens, ?_, hflag, hvalue⟩
    rw [tokenize_eq_take] at hsplit
    conv_lhs => rw [← take_append_drop maxTokens (tokens line), hsplit]
    simp

/-- **A bit is set exactly for each letter typed**, and every letter typed is declared. -/
theorem planFlags_ok {opts : List UInt8} (h : planFlags m opts = .ok flags) :
    (∀ letter ∈ opts, letter ∈ m.flags.letters) ∧
      ∀ i, flags.testBit i = true ↔ ∃ letter ∈ opts, m.flags.letters.idxOf? letter = some i := by
  suffices ∀ (opts : List UInt8) (acc : Nat), opts.foldlM (addFlag m) acc = .ok flags →
      (∀ letter ∈ opts, letter ∈ m.flags.letters) ∧ ∀ i, flags.testBit i = true ↔
        acc.testBit i = true ∨ ∃ letter ∈ opts, m.flags.letters.idxOf? letter = some i by
    simpa using this opts 0 h
  intro opts
  induction opts with
  | nil =>
    intro acc h
    cases h
    simp
  | cons letter opts ih =>
    intro acc h
    rw [foldlM_cons] at h
    obtain ⟨acc', hletter, h⟩ := bind_eq_ok.mp h
    unfold addFlag at hletter
    split at hletter
    · cases hletter
    · rename_i bit hbit
      cases hletter
      obtain ⟨hdeclared, hbits⟩ := ih _ h
      have hmem : letter ∈ m.flags.letters := by
        by_contra hno
        rw [idxOf?_eq_none_iff.mpr hno] at hbit
        cases hbit
      refine ⟨List.forall_mem_cons.mpr ⟨hmem, hdeclared⟩, fun i => ?_⟩
      rw [hbits i, Nat.testBit_or, Nat.one_shiftLeft, Nat.testBit_two_pow]
      simp [hbit, or_assoc]

theorem planWords_ok {dir dir' : Option DirGrant} (h : planWords m holds expanded dir = .ok dir') :
    dir' = dir ∨ m.arg.hearsWords = true ∧ holds.dir = true ∧ ∃ d, expanded.designation = some d ∧
        dir' = some ⟨.a, holds.cwd, if d.here = true then .empty else d.names, true⟩ := by
  unfold planWords at h
  split at h
  · rename_i grant d harg hd
    split at h
    · cases h
      exact .inl rfl
    · split at h
      · cases h
      · rename_i hdir
        cases h
        exact .inr ⟨by rw [harg]; rfl, by simpa using hdir, d, hd, rfl⟩
  · cases h
    exact .inl rfl

theorem planMem_ok {mem : Option Nat} {pages : Nat} (h : planMem m mem = .ok pages) :
    m.mem = .forbidden ∧ pages = 0 ∨
      ∃ min max, m.mem = .required min max ∧ min ≤ pages ∧ pages ≤ max ∧ mem = some pages := by
  unfold planMem at h
  cases hspec : m.mem with
  | forbidden =>
    rw [hspec] at h
    cases mem with
    | none =>
      cases h
      exact .inl ⟨rfl, rfl⟩
    | some _ => cases h
  | required min max =>
    rw [hspec] at h
    cases mem with
    | none => cases h
    | some n =>
      simp only at h
      split_ifs at h with hrange
      cases h
      exact .inr ⟨min, max, rfl, by omega, by omega, rfl⟩

theorem idxOf?_inj {l : List UInt8} {a b : UInt8} {i : Nat} (ha : l.idxOf? a = some i)
    (hb : l.idxOf? b = some i) : a = b := by
  obtain ⟨_, rfl, -⟩ := idxOf?_eq_some_iff.mp ha
  obtain ⟨_, rfl, -⟩ := idxOf?_eq_some_iff.mp hb
  rfl

theorem subtreeTyped_eq_true {flag : Option UInt8} (h : subtreeTyped m flags flag = true) :
    ∃ letter bit, flag = some letter ∧ m.flags.letters.idxOf? letter = some bit ∧
      flags.testBit bit = true := by
  cases flag with
  | none => cases h
  | some letter =>
    simp only [subtreeTyped] at h
    split at h
    · cases h
    · rename_i bit hbit
      exact ⟨letter, bit, rfl, hbit, h⟩

/-! ### A plan is within its manifest, its line and its holdings -/

/-- The names are granted from the positional at this index: in the directory that its leading
steps lead to, and each is its last component or a member of the expansion of this positional. -/
def Granted (run : RunSpec) (holds : Holdings) (expanded : Expansion) (index : Nat) (which : Which)
    (dir : Cwd) (names : List Bytes) : Prop :=
  ∃ token parsed lead last place, run.pos[index]? = some token ∧ path token.1 = .ok parsed ∧
    parsed.splitLastComponent = some (lead, last) ∧
    (holds.anchor parsed.fromRoot lead).1.apply (holds.anchor parsed.fromRoot lead).2 =
      .ok place ∧
    holds.locate place = (which, dir) ∧
    ∀ name ∈ names, name = last ∨ expanded.place = some index ∧ name ∈ expanded.names.texts

theorem Operand.granted
    (h : Operand holds expanded index t.1 which dir names) (ht : run.pos[index]? = some t) :
    Granted run holds expanded index which dir names.texts := by
  obtain ⟨parsed, lead, last, place, hparsed, hsplit, hplace, hlocate, hnames⟩ := h.designates
  refine ⟨t, parsed, lead, last, place, ht, hparsed, hsplit, hplace, hlocate, fun name hname => ?_⟩
  rcases hnames with hnames | ⟨hindex, rfl⟩
  · rw [hnames] at hname
    exact .inl (mem_singleton.mp hname)
  · exact .inr ⟨hindex, hname⟩

/-- What an endowment keeps to. -/
structure Within (line : Bytes) (m : Manifest) (holds : Holdings) (expanded : Expansion)
    (e : Endowment) : Prop where
  /-- There is a file exactly if the manifest requires one, written to only if it says so. -/
  file : e.file.isSome = true ↔ m.file ≠ .forbidden
  writable : ∀ g, e.file = some g → m.file = .required g.writable
  /-- Memory is granted only where required, within the bounds, and as typed. -/
  mem : m.mem = .forbidden ∧ e.memPages = 0 ∨ ∃ min max, m.mem = .required min max ∧
    min ≤ e.memPages ∧ e.memPages ≤ max ∧ (parseRun line).mem = some e.memPages ∧
    MemTyped line e.memPages
  /-- A bit is set only for a declared letter that was typed. -/
  flags : ∀ i, e.flags.testBit i = true →
    ∃ letter, m.flags.letters.idxOf? letter = some i ∧ Typed line letter
  /-- Only the manifest's option, typed unquoted, widens a directory grant to what is below. -/
  subtree : m.arg.hearsWords = false → ∀ g, e.dir = some g → g.subtree = true →
    ∃ letter, m.dir = .required (some letter) ∧ Typed line letter
  /-- A shell without a directory grants nothing in one. -/
  noDirectory : holds.dir = false → e.file = none ∧ e.dir = none ∧ ∀ g, e.source ≠ .file g
  /-- What is granted in each slot comes from the positional in that slot. -/
  fileNames : ∀ g, e.file = some g →
    Granted (parseRun line) holds expanded m.fileIndex g.which g.dir [g.name.bytes]
  dirNames : m.arg.hearsWords = false → ∀ g, e.dir = some g →
    Granted (parseRun line) holds expanded m.dirIndex g.which g.dir g.names.texts
  sourceNames : ∀ g, e.source = .file g →
    Granted (parseRun line) holds expanded m.inputIndex g.which g.dir [g.name.bytes]
  /-- A program that hears words is granted the names that the shell designated, and what is below
  them. -/
  wordNames : m.arg.hearsWords = true → ∀ g, e.dir = some g →
    ∃ d, expanded.designation = some d ∧ g.names = (if d.here = true then .empty else d.names) ∧
      g.subtree = true

/-- The slots of a program that hears no words. -/
structure Slots (run : RunSpec) (m : Manifest) (holds : Holdings) (expanded : Expansion)
    (e : Endowment) : Prop where
  arg : m.arg = .required → ∃ t, run.pos[0]? = some t ∧ parseU64 t.1 = some e.arg
  file : m.file = .forbidden ∧ e.file = none ∨
    ∃ g t names, m.file = .required g.writable ∧ e.file = some g ∧
      run.pos[m.fileIndex]? = some t ∧ holds.dir = true ∧
      Operand holds expanded m.fileIndex t.1 g.which g.dir names ∧ names.texts = [g.name.bytes]
  dir : m.dir = .forbidden ∧ e.dir = none ∨
    ∃ g t flag, m.dir = .required flag ∧ e.dir = some g ∧ run.pos[m.dirIndex]? = some t ∧
      holds.dir = true ∧ Operand holds expanded m.dirIndex t.1 g.which g.dir g.names ∧
      g.subtree = subtreeTyped m e.flags flag
  input : (e.source = .none ∧ run.pos[m.inputIndex]? = none) ∨
    ∃ g t names, m.input ≠ .forbidden ∧ e.source = .file g ∧ run.pos[m.inputIndex]? = some t ∧
      run.pos[m.inputIndex + 1]? = none ∧ holds.dir = true ∧
      Operand holds expanded m.inputIndex t.1 g.which g.dir names ∧ names.texts = [g.name.bytes]

theorem Planned.toSlots (h : Planned run m holds expanded e) (hwords : m.arg.hearsWords = false) :
    Slots run m holds expanded e := by
  obtain ⟨n₁, n₂, n₃, n₄, dir, hplanArg, hplanFile, hplanDir, hdes, hinput, hall⟩ := h.slots
  obtain ⟨rfl, harg⟩ := planArg_ok hwords hplanArg
  obtain ⟨rfl, hfile⟩ := planFile_ok hplanFile
  obtain ⟨rfl, hdir⟩ := planDir_ok hplanDir
  have hsame : e.dir = dir := (planWords_ok hdes).resolve_right fun ⟨hw, _⟩ => by
    rw [hwords] at hw
    cases hw
  refine ⟨harg, hfile, hsame ▸ hdir, ?_⟩
  rcases planInput_ok hinput with ⟨hsource, rfl, -⟩ | ⟨g, t, names, hreq, hsource, rfl, found⟩
  · exact .inl ⟨hsource, hall⟩
  · obtain ⟨ht, hholds, hop, hname⟩ := found
    exact .inr ⟨g, t, names, hreq, hsource, ht, hall, hholds, hop, hname⟩

/-- A program that hears words is granted no operand. -/
theorem Planned.words (h : Planned run m holds expanded e) (hwords : m.arg.hearsWords = true) :
    (m.file = .forbidden ∧ e.file = none) ∧ e.source = .none ∧
      (e.dir = none ∨ holds.dir = true ∧ ∃ d, expanded.designation = some d ∧
        e.dir = some ⟨.a, holds.cwd, if d.here = true then .empty else d.names, true⟩) := by
  obtain ⟨n₁, n₂, n₃, n₄, dir, hplanArg, hplanFile, hplanDir, hdes, hinput, hall⟩ := h.slots
  obtain rfl := planArg_words hwords hplanArg
  -- every positional is a word, so no slot finds one
  have hnone : ∀ k, run.pos.length ≤ k → run.pos[k]? = none := fun k hk =>
    getElem?_eq_none hk
  obtain ⟨rfl, hfile⟩ := planFile_ok hplanFile
  obtain ⟨rfl, hdir⟩ := planDir_ok hplanDir
  have hnofile : m.file = .forbidden ∧ e.file = none := by
    refine hfile.resolve_right ?_
    rintro ⟨g, t, names, -, -, ht, -⟩
    rw [hnone _ le_rfl] at ht
    cases ht
  have hnodir : m.dir = .forbidden ∧ dir = none := by
    refine hdir.resolve_right ?_
    rintro ⟨g, t, flag, -, -, ht, -⟩
    rw [hnone _ (Nat.le_add_right _ _)] at ht
    cases ht
  have hnosource : e.source = .none := by
    rcases planInput_ok hinput with ⟨hsource, -⟩ | ⟨g, t, names, -, -, -, ht, -⟩
    · exact hsource
    · rw [hnone _ ((Nat.le_add_right _ _).trans (Nat.le_add_right _ _))] at ht
      cases ht
  refine ⟨hnofile, hnosource, ?_⟩
  rcases planWords_ok hdes with hsame | ⟨-, hholds, found⟩
  · exact .inl (hsame.trans hnodir.2)
  · exact .inr ⟨hholds, found⟩

/-- **A plan never exceeds its manifest, its line or its holdings.** -/
theorem plan_within (h : planAgainst (parseRun line) prog m holds expanded = .ok e) :
    Within line m holds expanded e := by
  have hplan := planned_of_planAgainst h
  have hmem : m.mem = .forbidden ∧ e.memPages = 0 ∨ ∃ min max, m.mem = .required min max ∧
      min ≤ e.memPages ∧ e.memPages ≤ max ∧ (parseRun line).mem = some e.memPages ∧
      MemTyped line e.memPages :=
    (planMem_ok hplan.mem).imp id fun ⟨min, max, hspec, hmin, hmax, htyped⟩ =>
      ⟨min, max, hspec, hmin, hmax, htyped, memTyped_of_mem htyped⟩
  cases hwords : m.arg.hearsWords with
  | true =>
    obtain ⟨⟨hspec, hfile⟩, hsource, hdir⟩ := hplan.words hwords
    have hflags : e.flags = 0 := by
      have := hplan.flags
      rw [hwords, if_pos rfl] at this
      exact (Except.ok.inj this).symm
    refine ⟨by simp [hfile, hspec], by simp [hfile], hmem, by simp [hflags],
      fun hno => ?_, fun hholds => ⟨hfile, ?_, by simp [hsource]⟩, by simp [hfile],
      fun hno => ?_, by simp [hsource], fun _ g hg => ?_⟩
    · rw [hwords] at hno
      cases hno
    · refine hdir.resolve_right fun ⟨hhave, _⟩ => ?_
      rw [hholds] at hhave
      cases hhave
    · rw [hwords] at hno
      cases hno
    · rcases hdir with hnone | ⟨-, d, hd, hsome⟩
      · rw [hnone] at hg
        cases hg
      · obtain rfl := Option.some.inj (hg.symm.trans hsome)
        exact ⟨d, hd, rfl, rfl⟩
  | false =>
    have hslots := hplan.toSlots hwords
    have hopts := hplan.flags
    rw [hwords, if_neg Bool.false_ne_true] at hopts
    have hbits := (planFlags_ok hopts).2
    refine ⟨?_, fun g hg => ?_, hmem, fun i hi => ?_, fun _ g hg hsub => ?_, fun hholds => ?_,
      fun g hg => ?_, fun _ g hg => ?_, fun g hg => ?_, fun hno => ?_⟩
    · rcases hslots.file with ⟨hspec, hnone⟩ | ⟨g, t, names, hspec, hsome, -⟩
      · simp [hspec, hnone]
      · simp [hspec, hsome]
    · rcases hslots.file with ⟨-, hnone⟩ | ⟨g', t, names, hspec, hsome, -⟩
      · rw [hnone] at hg
        cases hg
      · cases hg.symm.trans hsome
        exact hspec
    · obtain ⟨letter, htyped, hbit⟩ := (hbits i).mp hi
      exact ⟨letter, hbit, typed_of_opts htyped⟩
    · rcases hslots.dir with ⟨-, hnone⟩ | ⟨g', t, flag, hspec, hsome, -, -, -, hflag⟩
      · rw [hnone] at hg
        cases hg
      · cases hg.symm.trans hsome
        obtain ⟨letter, bit, rfl, hbit, hset⟩ := subtreeTyped_eq_true (hflag ▸ hsub)
        obtain ⟨letter', htyped, hbit'⟩ := (hbits bit).mp hset
        obtain rfl := idxOf?_inj hbit hbit'
        exact ⟨letter, hspec, typed_of_opts htyped⟩
    · have hno : holds.dir ≠ true := by simp [hholds]
      refine ⟨?_, ?_, fun g hg => ?_⟩
      · exact (hslots.file.resolve_right fun ⟨_, _, _, _, _, _, hd, _⟩ => hno hd).2
      · exact (hslots.dir.resolve_right fun ⟨_, _, _, _, _, _, hd, _⟩ => hno hd).2
      · rcases hslots.input with ⟨hnone, -⟩ | ⟨_, _, _, -, -, -, -, hd, -⟩
        · rw [hnone] at hg
          cases hg
        · exact hno hd
    · rcases hslots.file with ⟨-, hnone⟩ | ⟨g', t, names, -, hsome, ht, -, hop, hname⟩
      · rw [hnone] at hg
        cases hg
      · cases hg.symm.trans hsome
        exact hname ▸ hop.granted ht
    · rcases hslots.dir with ⟨-, hnone⟩ | ⟨g', t, flag, -, hsome, ht, -, hop, -⟩
      · rw [hnone] at hg
        cases hg
      · cases hg.symm.trans hsome
        exact hop.granted ht
    · rcases hslots.input with ⟨hnone, -⟩ | ⟨g', t, names, -, hsome, ht, -, -, hop, hname⟩
      · rw [hnone] at hg
        cases hg
      · cases hg.symm.trans hsome
        exact hname ▸ hop.granted ht
    · rw [hwords] at hno
      cases hno

/-- A shell that stands at the root of the one tree it holds. -/
def atRoot : Holdings := ⟨true, none, .root, ⟨[], Nat.zero_le _⟩⟩

/-- The manifest of `rm`. -/
def rm : Manifest where
  arg := .forbidden
  mem := .forbidden
  file := .forbidden
  dir := .required (some (chr 'r'))
  flags := ⟨ascii "rfv", by decide, by decide⟩
  output := .bytes
  input := .forbidden
  reports := true
  interruptible := false

/-- `rm -r logs/old`. -/
theorem plan_within_rm : ∃ e, planAgainst (parseRun (ascii "rm -r logs/old")) (ascii "rm") rm atRoot
    .none = .ok e ∧ (e.dir.map fun g => (g.names.texts, g.subtree)) = some ([ascii "old"], true) ∧
      Within (ascii "rm -r logs/old") rm atRoot .none e := by
  have heval : (planAgainst (parseRun (ascii "rm -r logs/old")) (ascii "rm") rm atRoot .none).map
      (fun e => e.dir.map fun g => (g.names.texts, g.subtree)) =
      .ok (some ([ascii "old"], true)) := by decide +kernel
  cases hplan : planAgainst (parseRun (ascii "rm -r logs/old")) (ascii "rm") rm atRoot .none with
  | error r =>
    rw [hplan] at heval
    cases heval
  | ok e =>
    rw [hplan] at heval
    exact ⟨e, rfl, Except.ok.inj heval, plan_within hplan⟩

/-- The manifest of `std_exerciser`, which hears words. -/
def stdExerciser : Manifest where
  arg := .words .readOnly
  mem := .forbidden
  file := .forbidden
  dir := .forbidden
  flags := ⟨[], by decide, by decide⟩
  output := .bytes
  input := .forbidden
  reports := true
  interruptible := false

/-- A line whose second word names something below a directory. -/
def wordLine : Bytes := ascii "std_exerciser needle src/main.rs"

/-- What the shell designates for it where there is a directory `src`. -/
def srcDesignated : Expansion :=
  .designated ⟨(NameSet.one (ascii "src") true).getD .empty, false⟩

/-- **A program that hears words is granted names that no positional designates.** -/
theorem words_beyond_operands :
    ∃ e g, planAgainst (parseRun wordLine) (ascii "std_exerciser") stdExerciser atRoot
        srcDesignated = .ok e ∧ e.dir = some g ∧ g.names.texts = [ascii "src"] ∧
      ∀ index which dir,
        ¬ Granted (parseRun wordLine) atRoot srcDesignated index which dir g.names.texts := by
  have heval : (planAgainst (parseRun wordLine) (ascii "std_exerciser") stdExerciser atRoot
      srcDesignated).map (fun e => e.dir.map fun g => g.names.texts) =
      .ok (some [ascii "src"]) := by decide +kernel
  have hlast : ∀ t ∈ (parseRun wordLine).pos,
      ((path t.1).toOption.bind Path.splitLastComponent).map Prod.snd ≠ some (ascii "src") := by
    decide +kernel
  cases hplan : planAgainst (parseRun wordLine) (ascii "std_exerciser") stdExerciser atRoot
      srcDesignated with
  | error r =>
    rw [hplan] at heval
    cases heval
  | ok e =>
    rw [hplan] at heval
    obtain ⟨g, hg, hnames⟩ := Option.map_eq_some_iff.mp (Except.ok.inj heval)
    refine ⟨e, g, rfl, hg, hnames, fun index which dir hgranted => ?_⟩
    obtain ⟨t, parsed, lead, last, place, ht, hparsed, hsplit, -, -, hall⟩ := hgranted
    rw [hnames] at hall
    obtain rfl : ascii "src" = last :=
      (hall _ mem_cons_self).resolve_right fun ⟨hindex, _⟩ => nomatch hindex
    refine hlast t (mem_of_getElem? ht) ?_
    rw [hparsed]
    exact congrArg (Option.map Prod.snd) hsplit

/-! ### A plan uses the whole line -/

/-- The positional at this index was placed into one of the manifest's slots. -/
inductive Placed (m : Manifest) (holds : Holdings) (expanded : Expansion) (e : Endowment) :
    Nat → Bytes → Prop
  | arg {token : Bytes} : m.arg = .required → parseU64 token = some e.arg →
      Placed m holds expanded e 0 token
  | file {token : Bytes} {g : FileGrant} {names : NameSet} : m.file = .required g.writable →
      e.file = some g → Operand holds expanded m.fileIndex token g.which g.dir names →
      names.texts = [g.name.bytes] → Placed m holds expanded e m.fileIndex token
  | dir {token : Bytes} {g : DirGrant} : m.dir ≠ .forbidden → e.dir = some g →
      Operand holds expanded m.dirIndex token g.which g.dir g.names →
      Placed m holds expanded e m.dirIndex token
  | input {token : Bytes} {g : FileGrant} {names : NameSet} : m.input ≠ .forbidden →
      e.source = .file g → Operand holds expanded m.inputIndex token g.which g.dir names →
      names.texts = [g.name.bytes] → Placed m holds expanded e m.inputIndex token

theorem Slots.placed (h : Slots run m holds expanded e)
    (ht : run.pos[index]? = some t) : Placed m holds expanded e index t.1 := by
  have hlt : index < run.pos.length := (List.getElem?_eq_some_iff.mp ht).1
  -- the positionals fill the slots in order, so the index says which slot this one is in
  by_cases harg : index < m.argSlots
  · have hreq : m.arg = .required := by
      by_contra hno
      simp [argSlots, hno] at harg
    obtain rfl : index = 0 := by simpa [argSlots, hreq] using harg
    obtain ⟨t', ht', hv⟩ := h.arg hreq
    cases ht.symm.trans ht'
    exact .arg hreq hv
  by_cases hfile : index < m.dirIndex
  · rcases h.file with ⟨hno, -⟩ | ⟨g, t', names, hreq, hg, ht', -, hop, hname⟩
    · simp only [dirIndex, fileSlots, hno] at hfile
      exact absurd hfile harg
    · obtain rfl : index = m.fileIndex := by
        simp only [dirIndex, fileIndex, fileSlots] at hfile ⊢
        split at hfile <;> omega
      cases ht.symm.trans ht'
      exact .file hreq hg hop hname
  by_cases hdir : index < m.inputIndex
  · rcases h.dir with ⟨hno, -⟩ | ⟨g, t', flag, hreq, hg, ht', -, hop, -⟩
    · simp only [inputIndex, dirSlots, hno] at hdir
      exact absurd hdir hfile
    · obtain rfl : index = m.dirIndex := by
        simp only [inputIndex, dirIndex, dirSlots] at hdir hfile ⊢
        split at hdir <;> omega
      cases ht.symm.trans ht'
      exact .dir (by simp [hreq]) hg hop
  rcases h.input with ⟨-, hnone⟩ | ⟨g, t', names, hreq, hg, ht', hlast, -, hop, hname⟩
  · have := getElem?_eq_none_iff.mp hnone
    omega
  · obtain rfl : index = m.inputIndex := by
      have := getElem?_eq_none_iff.mp hlast
      omega
    cases ht.symm.trans ht'
    exact .input hreq hg hop hname

/-- The planned line was used up: every token was read, and put to a use in what was kept of the
line; and the options and the memory kept are those of the endowment. -/
structure UsedUp (line : Bytes) (m : Manifest) (holds : Holdings) (expanded : Expansion)
    (e : Endowment) : Prop where
  /-- No token was dropped without being looked at. -/
  examined : ∀ (i : Nat) (t : Bytes), (tokens line)[i]? = some t → (tokenize maxTokens line)[i]? = some t
  consumed : Consumed (parseRun line) (· ∈ m.flags.letters) (Placed m holds expanded e) false 0 []
    none (tokens line)
  flags : ∀ i, e.flags.testBit i = true ↔
    ∃ letter ∈ (parseRun line).opts, m.flags.letters.idxOf? letter = some i
  mem : m.mem = .forbidden ∧ e.memPages = 0 ∨
    ∃ min max, m.mem = .required min max ∧ (parseRun line).mem = some e.memPages

/-- **No word of a line is silently ignored, exactly if there are at most sixteen**: every token
was then the program's name, a `--mem` flag or its value, a cluster of declared options, or a
positional placed into a slot. -/
theorem usedUp_iff (hwords : m.arg.hearsWords = false)
    (hplan : planAgainst (parseRun line) prog m holds expanded = .ok e) :
    UsedUp line m holds expanded e ↔ (tokens line).length ≤ maxTokens := by
  constructor
  · intro hused
    by_contra hlong
    have hlt : maxTokens < (tokens line).length := not_le.mp hlong
    have hread := hused.examined maxTokens _ (getElem?_eq_getElem hlt)
    rw [tokenize_eq_take, getElem?_eq_none (by simp)] at hread
    cases hread
  · intro hshort
    have h := planned_of_planAgainst hplan
    have hflags := h.flags
    rw [hwords, if_neg Bool.false_ne_true] at hflags
    have hall : tokenize maxTokens line = tokens line := by
      rw [tokenize_eq_take, take_of_length_le hshort]
    have hconsumed := consumed_of_tokens (h.expected hwords) h.readable (planFlags_ok hflags).1
      fun k t ht => (h.toSlots hwords).placed ht
    refine ⟨fun i t ht => hall ▸ ht, hall ▸ hconsumed, fun i => ?_, ?_⟩
    · exact (planFlags_ok hflags).2 i
    · exact (planMem_ok h.mem).imp id fun ⟨min, max, hspec, _, _, htyped⟩ =>
        ⟨min, max, hspec, htyped⟩

/-- `rm -rv notes.txt`. -/
theorem usedUp_iff_rm : ∃ e, planAgainst (parseRun (ascii "rm -rv notes.txt")) (ascii "rm") rm
    atRoot .none = .ok e ∧ e.flags = 5 ∧ UsedUp (ascii "rm -rv notes.txt") rm atRoot .none e := by
  have heval : (planAgainst (parseRun (ascii "rm -rv notes.txt")) (ascii "rm") rm atRoot
      .none).map (fun e => e.flags) = .ok 5 := by decide +kernel
  cases hplan : planAgainst (parseRun (ascii "rm -rv notes.txt")) (ascii "rm") rm atRoot .none with
  | error r =>
    rw [hplan] at heval
    cases heval
  | ok e =>
    rw [hplan] at heval
    exact ⟨e, rfl, Except.ok.inj heval, (usedUp_iff rfl hplan).mpr (by decide +kernel)⟩

/-- A word that does not begin with an unquoted `-`. -/
def plainWord (token : Bytes) : Bool :=
  match read token with
  | .ok w => w.quoted || decide (w.text.head? ≠ some (chr '-'))
  | .error _ => false

/-- An unquoted `--mem`. -/
def memFlag (token : Bytes) : Bool :=
  match read token with
  | .ok w => decide (w = ⟨ascii "--mem", false⟩)
  | .error _ => false

/-- A line that is used up has no more plain words than it has a program, kept positionals and
memory values. -/
theorem Consumed.countP_plainWord_le {Declared : UInt8 → Prop} {Fits : Nat → Bytes → Prop}
    {named : Bool} {opts : Bytes} {mem : Option Nat}
    (h : Consumed run Declared Fits named n opts mem toks) :
    toks.countP plainWord + n ≤ (!named).toNat + run.pos.length + toks.countP memFlag := by
  induction h with
  | done => simp
  | @mem _ _ _ _ flag _ _ hread _ ih =>
    have hflag : memFlag flag = true := by simp [memFlag, hread]
    have hplain : plainWord flag = false := by simp [plainWord, hread, ascii]
    rw [countP_cons_of_neg (by simp [hplain]), countP_cons_of_pos hflag, countP_cons, countP_cons]
    split_ifs <;> omega
  | @memLast _ _ _ _ flag hread _ ih =>
    have hplain : plainWord flag = false := by simp [plainWord, hread, ascii]
    rw [countP_cons_of_neg (by simp [hplain]), countP_cons]
    omega
  | @options _ _ _ _ token _ _ hread _ _ _ ih =>
    have hplain : plainWord token = false := by simp [plainWord, hread]
    rw [countP_cons_of_neg (by simp [hplain]), countP_cons]
    omega
  | program hread _ _ _ ih =>
    simp only [List.countP_cons, Bool.not_true, Bool.not_false, Bool.toNat_true,
      Bool.toNat_false] at ih ⊢
    split_ifs <;> omega
  | positional hread _ _ _ _ ih =>
    simp only [List.countP_cons] at ih ⊢
    split_ifs <;> omega

/-- A line of seventeen tokens, of which the last is a second positional. -/
def longLine : Bytes :=
  ascii "rm -r -r -r -r -r -r -r -r --mem x --mem x --mem x notes.txt other.txt"

/-- **The seventeenth token is dropped unseen**: `rm` has one slot and is planned for `notes.txt`,
though `other.txt` was typed too. -/
theorem seventeenth_dropped : (tokens longLine).getLast? = some (ascii "other.txt") ∧
      ∃ e, planAgainst (parseRun longLine) (ascii "rm") rm atRoot .none = .ok e ∧
        e.dir.map (fun g => g.names.texts) = some [ascii "notes.txt"] ∧
        ¬ Consumed (parseRun longLine) (· ∈ rm.flags.letters) (Placed rm atRoot .none e) false 0 []
          none (tokens longLine) := by
  have heval : (planAgainst (parseRun longLine) (ascii "rm") rm atRoot .none).map
      (fun e => e.dir.map fun g => g.names.texts) = .ok (some [ascii "notes.txt"]) := by
    decide +kernel
  have hcount : (tokens longLine).countP plainWord = 6 ∧ (tokens longLine).countP memFlag = 3 := by
    decide +kernel
  refine ⟨by decide +kernel, ?_⟩
  cases hplan : planAgainst (parseRun longLine) (ascii "rm") rm atRoot .none with
  | error r =>
    rw [hplan] at heval
    cases heval
  | ok e =>
    rw [hplan] at heval
    refine ⟨e, rfl, Except.ok.inj heval, fun hused => ?_⟩
    have hkept : (parseRun longLine).pos.length = 1 := by decide +kernel
    have := hused.countP_plainWord_le
    rw [hcount.1, hcount.2, hkept] at this
    exact absurd this (by decide)

end Nife.GrantPlan
