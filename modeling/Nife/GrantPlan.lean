/-
What a program is granted for a line.

A manifest declares the slots of a program: an argument, a file, a directory, an input.  The
planner fills them from the positionals of the line, in that order, and checks the rest of the line
against the manifest; what comes out is the exact authority to hand the child, or a refusal.  An
operand designates a directory, found by walking its leading steps from where the shell stands, and
a set of names in it: the name typed, or for a pattern the names the shell expanded it to.

Each slot is one function that takes the running index of the next positional and returns it
(`planArg`, `planFile`, `planDir`, `planInput`); `planAgainstWith` runs them in the source's order.
-/
import Nife.Navigation
import Nife.RunSpec

namespace Nife.GrantPlan

open Bytes

/-! ### Manifests -/

/-- What a program that hears words may do with what they designate. -/
inductive WordGrant
  | readOnly | readWrite | create
  deriving DecidableEq, Repr

/-- What a program wants as operands. -/
inductive ArgSpec
  | required | forbidden
  | words (grant : WordGrant)
  deriving DecidableEq, Repr

def ArgSpec.hearsWords : ArgSpec → Bool
  | words _ => true
  | _ => false

/-- What memory it wants. -/
inductive MemSpec
  | forbidden
  | required (min max : Nat)
  deriving DecidableEq, Repr

/-- Whether it wants a file. -/
inductive FileSpec
  | forbidden
  | required (writable : Bool)
  deriving DecidableEq, Repr

/-- Whether it wants a directory. -/
inductive DirSpec
  | forbidden
  | required (subtreeFlag : Option UInt8)
  deriving DecidableEq, Repr

/-- Whether it reads a stream. -/
inductive InputSpec
  | forbidden
  | required (writesWhileReading : Bool)
  deriving DecidableEq, Repr

/-- What it writes. -/
inductive OutputSpec
  | silent | words | bytes
  | bytesAndDiagnostics (slot : Nat)
  deriving DecidableEq, Repr

def OutputSpec.isByteStream : OutputSpec → Bool
  | bytes => true
  | bytesAndDiagnostics _ => true
  | _ => false

def OutputSpec.diagnosticsSlot : OutputSpec → Option Nat
  | bytesAndDiagnostics slot => some slot
  | _ => none

/-- The option letters a program declares: at most sixteen, each once. -/
structure Flags where
  letters : List UInt8
  length_le : letters.length ≤ 16
  nodup : letters.Nodup
  deriving DecidableEq, Repr

/-- What a program declares, as far as the planner reads it. -/
structure Manifest where
  arg : ArgSpec
  mem : MemSpec
  file : FileSpec
  dir : DirSpec
  flags : Flags
  output : OutputSpec
  input : InputSpec
  (reports interruptible : Bool)
  deriving DecidableEq, Repr

/-! ### Grants -/

/-- One name in one directory of one of the trees. -/
structure FileGrant where
  which : Which
  dir : Cwd
  name : Name
  writable : Bool
  deriving DecidableEq, Repr

/-- A directory and the names in it, or all of them for no names; and whether to go below it. -/
structure DirGrant where
  which : Which
  dir : Cwd
  names : NameSet
  subtree : Bool
  deriving DecidableEq, Repr

/-- How a redirection opens its file. -/
inductive Mode
  | truncate | append
  deriving DecidableEq, Repr

/-- Where the output goes. -/
inductive Sink
  | report | pipe
  | file (grant : FileGrant) (mode : Mode)
  deriving DecidableEq, Repr

/-- Where the input comes from. -/
inductive Source
  | none | pipe
  | file (grant : FileGrant)
  deriving DecidableEq, Repr

/-- Where the diagnostics go. -/
inductive Diagnostics
  | none | printed
  | file (grant : FileGrant) (mode : Mode)
  deriving DecidableEq, Repr

/-- What the operators of a line decided for a stage. -/
structure Streams where
  sink : Sink
  source : Source
  diagnostics : Option (FileGrant × Mode)
  deriving DecidableEq, Repr

/-- A line with no operators. -/
def Streams.default : Streams := ⟨.report, .none, Option.none⟩

/-- Exactly what the child is handed. -/
structure Endowment where
  prog : Bytes
  (arg memPages : Nat)
  file : Option FileGrant
  dir : Option DirGrant
  flags : Nat
  sink : Sink
  source : Source
  diagnostics : Diagnostics
  (reports interruptible writesWhileReading : Bool)
  deriving DecidableEq, Repr

/-! ### What the shell expanded -/

/-- Which of a line's words name something here, for a program that hears words. -/
structure Designation where
  names : NameSet
  here : Bool
  deriving DecidableEq, Repr

/-- What the shell expanded: the names of one positional, or the line's designation. -/
structure Expansion where
  place : Option Nat
  names : NameSet
  words : Option Bool
  deriving DecidableEq, Repr

namespace Expansion

def none : Expansion := ⟨Option.none, .empty, Option.none⟩

def designated (d : Designation) : Expansion := ⟨Option.none, d.names, some d.here⟩

def designation (e : Expansion) : Option Designation := e.words.map fun here => ⟨e.names, here⟩

def «at» (index : Nat) (names : NameSet) : Expansion := ⟨some index, names, Option.none⟩

/-- The names of the positional at `index`, if that is the one expanded. -/
def forPositional (e : Expansion) (index : Nat) : Option NameSet :=
  if e.place = some index then some e.names else Option.none

end Expansion

/-! ### Words -/

def argumentCapacity : Nat := 4080

/-- Run `f` over words with their quotes off, up to the first refusal: its own, that of a word that
cannot be read, or that of an unquoted pattern.  The state is kept in either case. -/
def eachWordOf {σ : Type} (f : σ → Bytes → σ × Option Refusal) : List Bytes → σ → σ × Option Refusal
  | [], s => (s, none)
  | token :: rest, s =>
      match read token with
      | .error r => (s, some r)
      | .ok w =>
          if w.quoted = false ∧ Glob.hasMagic w.text = true then (s, some .patternInArguments)
          else
            match f s w.text with
            | (s, some r) => (s, some r)
            | (s, none) => eachWordOf f rest s

/-- Every word of a line. -/
def eachWord {σ : Type} (line : Bytes) (f : σ → Bytes → σ × Option Refusal) (s : σ) :
    σ × Option Refusal :=
  eachWordOf f (tokens line) s

def checkWords (line : Bytes) : Except Refusal Unit :=
  match (eachWord line (fun used w =>
    let used := used + (4 + w.length)
    (used, if argumentCapacity < used then some .argumentsTooLong else none)) 0).2 with
  | some r => .error r
  | none => .ok ()

/-! ### Operands -/

/-- The names a last component designates: the names it was expanded to for a pattern, and
otherwise the name itself. -/
def designateNames (magic : Bool) (last : Bytes) (index : Nat) (expanded : Expansion) :
    Except Refusal NameSet :=
  if magic = true then
    match expanded.forPositional index with
    | none => .error .unexpanded
    | some set => if set.entries = [] then .error .noMatch else .ok set
  else
    match NameSet.one last false with
    | none => .error .fileNotNameable
    | some names => .ok names

section

variable (token : Bytes)

/-- What one operand designates: the tree, the directory its leading steps lead to, and the names
in it. -/
def designate (index : Nat) (holds : Holdings) (expanded : Expansion) :
    Except Refusal (Which × Cwd × NameSet) := do
  let magic ← magicComponent token
  let parsed ← (path token).mapError navRefusal
  match parsed.splitLastComponent with
  | none => .error .fileNotNameable
  | some (lead, last) =>
      let (start, rest) := holds.anchor parsed.fromRoot lead
      let place ← (start.apply rest).mapError navRefusal
      let names ← designateNames magic last index expanded
      .ok ((holds.locate place).1, (holds.locate place).2, names)

/-- The one file an operand designates; `many` is the refusal of more than one. -/
def designateFile (many : Refusal) (token : Bytes) (index : Nat) (holds : Holdings)
    (expanded : Expansion) (writable : Bool) : Except Refusal FileGrant :=
  if holds.dir = false then .error (.noSuchCapability .file)
  else do
    let (which, dir, names) ← designate token index holds expanded
    match names.only with
    | none => .error many
    | some name => .ok ⟨which, dir, name, writable⟩

/-- The file a redirection names. -/
def redirectTarget (holds : Holdings) (writable : Bool) : Except Refusal FileGrant :=
  designateFile .fileNotNameable token 0 holds .none writable

/-- The refusal of a token that no slot can hold. -/
def unplaceable (m : Manifest) : Refusal :=
  if (parseU64 token).isSome = true ∧ m.arg = .forbidden then .argForbidden
  else if parseU64 token = none ∧ m.file = .forbidden ∧ m.dir = .forbidden then .fileForbidden
  else .unexpected

end

/-! ### The planner -/

section

variable (m : Manifest)

/-- The bit of one option letter, which is its place among the declared ones. -/
def addFlag (flags : Nat) (letter : UInt8) : Except Refusal Nat :=
  match m.flags.letters.idxOf? letter with
  | none => .error .noSuchOption
  | some bit => .ok (flags ||| 1 <<< bit)

def planFlags (opts : List UInt8) : Except Refusal Nat := opts.foldlM (addFlag m) 0

/-- The argument, and the index of the next positional. -/
def planArg (run : RunSpec) (m : Manifest) : Except Refusal (Nat × Nat) :=
  match m.arg with
  | .required =>
      match run.pos[0]? with
      | none => .error .argRequired
      | some first =>
          match parseU64 first.1 with
          | none => .error .argRequired
          | some v => .ok (v, 1)
  | .forbidden => .ok (0, 0)
  | .words _ => do
      let _ ← checkWords run.line
      .ok (0, run.pos.length)

def planFile (run : RunSpec) (m : Manifest) (holds : Holdings) (expanded : Expansion)
    (next : Nat) : Except Refusal (Option FileGrant × Nat) :=
  match m.file with
  | .forbidden => .ok (none, next)
  | .required writable =>
      match run.pos[next]? with
      | none => .error .fileRequired
      | some token => do
          let grant ← designateFile .ambiguousFile token.1 next holds expanded writable
          .ok (some grant, next + 1)

/-- Whether the option that widens a directory grant to what is below it was typed. -/
def subtreeTyped (flags : Nat) : Option UInt8 → Bool
  | none => false
  | some letter =>
      match m.flags.letters.idxOf? letter with
      | none => false
      | some bit => flags.testBit bit

def planDir (run : RunSpec) (m : Manifest) (holds : Holdings) (expanded : Expansion) (flags : Nat)
    (next : Nat) : Except Refusal (Option DirGrant × Nat) :=
  match m.dir with
  | .forbidden => .ok (none, next)
  | .required subtreeFlag =>
      match run.pos[next]? with
      | none => .error .pathRequired
      | some token =>
          if holds.dir = false then .error (.noSuchCapability .file)
          else do
            let (which, dir, names) ← designate token.1 next holds expanded
            .ok (some ⟨which, dir, names, subtreeTyped m flags subtreeFlag⟩, next + 1)

/-- The directory grant of a program that hears words, in place of the one planned. -/
def planWords (holds : Holdings) (expanded : Expansion) (dir : Option DirGrant) :
    Except Refusal (Option DirGrant) :=
  match m.arg, expanded.designation with
  | .words _, some d =>
      if d.here = false ∧ d.names.entries = [] then .ok dir
      else if holds.dir = false then .error (.noSuchCapability .file)
      else .ok (some ⟨.a, holds.cwd, if d.here = true then .empty else d.names, true⟩)
  | _, _ => .ok dir

/-- The input operand, taken where the line names no source. -/
def planInput (run : RunSpec) (m : Manifest) (holds : Holdings) (expanded : Expansion)
    (source : Source) (next : Nat) : Except Refusal (Source × Nat) :=
  match m.input, source, run.pos[next]? with
  | .required _, .none, some token => do
      let grant ← designateFile .ambiguousFile token.1 next holds expanded false
      .ok (.file grant, next + 1)
  | _, _, _ => .ok (source, next)

def planMem (mem : Option Nat) : Except Refusal Nat :=
  match m.mem, mem with
  | .forbidden, none => .ok 0
  | .forbidden, some _ => .error .memForbidden
  | .required _ _, none => .error .memRequired
  | .required min max, some n =>
      if n < min ∨ max < n then .error (.memOutOfRange min max) else .ok n

/-- Whether the program can be wired as the line asks, and where its second stream goes. -/
def checkStreams (streams : Streams) : Except Refusal Diagnostics :=
  if streams.sink ≠ .report ∧ m.output.isByteStream = false then .error .notAByteStream
  else do
    let diagnostics ←
      match m.output.diagnosticsSlot, streams.diagnostics with
      | none, none => .ok .none
      | none, some _ => .error .noDiagnosticStream
      | some _, none => .ok .printed
      | some _, some (grant, mode) => .ok (.file grant mode)
    match m.input, streams.source with
    | .required _, .none => .error .inputRequired
    | .forbidden, .none => .ok diagnostics
    | .forbidden, _ => .error .inputForbidden
    | .required _, _ => .ok diagnostics

end

/-- A parsed line against a manifest, with what the operators decided. -/
def planAgainstWith (run : RunSpec) (prog : Bytes) (m : Manifest) (holds : Holdings)
    (expanded : Expansion) (streams : Streams) : Except Refusal Endowment := do
  match run.misquoted with
  | some r => .error r
  | none =>
      if run.unexpected ≠ none ∧ m.arg.hearsWords = false then .error .unexpected
      else
        let flags ← planFlags m (if m.arg.hearsWords = true then [] else run.opts)
        let (arg, next) ← planArg run m
        let (file, next) ← planFile run m holds expanded next
        let (dir, next) ← planDir run m holds expanded flags next
        let dir ← planWords m holds expanded dir
        let (source, next) ← planInput run m holds expanded streams.source next
        match run.pos[next]? with
        | some extra => .error (unplaceable extra.1 m)
        | none =>
            let memPages ← planMem m run.mem
            let diagnostics ← checkStreams m { streams with source }
            .ok
              { prog, arg, memPages, file, dir, flags, sink := streams.sink, source, diagnostics
                reports := m.reports
                interruptible := m.interruptible
                writesWhileReading := decide (m.input = .required true) }

/-- A line with no operators. -/
def planAgainst (run : RunSpec) (prog : Bytes) (m : Manifest) (holds : Holdings)
    (expanded : Expansion) : Except Refusal Endowment :=
  planAgainstWith run prog m holds expanded .default

end Nife.GrantPlan
