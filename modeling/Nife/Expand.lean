/-
Patterns, and the sets of names they designate.

A grant carries names, and a name is a component of bounded length (`Name`).  `NameSet` is the
namespace a grant designates, at most eight names.  An `Expander` is offered the entries of a
directory one by one and collects those its pattern matches: all of them, or the refusal to grant a
part of what the line said; or, in a batch, the eight smallest behind a watermark, with the fact
whether there are more.
-/
import Nife.Glob
import Nife.Lib.Smallest

namespace Nife.GrantPlan

open Bytes

/-- The kind of capability a line designated and the shell cannot back. -/
inductive CapKind
  | file
  deriving DecidableEq, Repr

/-- Why a line is not run. -/
inductive Refusal
  | noSuchProgram
  | noSuchCapability (kind : CapKind)
  | fileForbidden | fileRequired | pathRequired | noSuchOption | fileNotNameable | memForbidden
  | memRequired
  | memOutOfRange (min max : Nat)
  | argRequired | argForbidden | noMatch | tooManyNames | matchNotNameable | patternInPath
  | unexpanded | ambiguousFile | noRedirectTarget | redirectRepeated | redirectMidPipeline
  | wordAfterRedirect | emptyStage | tooManyStages | patternInRedirect | notAByteStream
  | noDiagnosticStream | inputForbidden | inputRequired | noReaderButThisShell | notAPipelineStage
  | unexpected | unclosedQuote | partlyQuoted | emptySegment | tooManySegments | patternInArguments
  | argumentsTooLong
  deriving DecidableEq, Repr

/-! ### Names -/

/-- The longest name a grant can carry. -/
def maxFileName : Nat := 16

def fileNameFits (name : Bytes) : Bool :=
  !name.isEmpty && decide (name.length ≤ maxFileName) && name != ascii "." && name != ascii ".." &&
    !name.contains (chr '/') && !name.contains (chr '\\')

/-- A name that can travel in a grant. -/
structure Name where
  bytes : Bytes
  fits : fileNameFits bytes = true
  deriving DecidableEq, Repr

def Name.new (name : Bytes) : Option Name :=
  if h : fileNameFits name = true then some ⟨name, h⟩ else none

theorem Name.new_bytes (name : Name) : Name.new name.bytes = some name := dif_pos name.fits

theorem fileNameFits_length {name : Bytes} (h : fileNameFits name = true) :
    name.length ≤ maxFileName := by
  simp only [fileNameFits, Bool.and_eq_true, decide_eq_true_eq] at h
  exact h.1.1.1.1.2

def maxNames : Nat := 8

/-- The namespace a grant designates: the names, each with whether it is a directory. -/
structure NameSet where
  entries : List (Name × Bool)
  bounded : entries.length ≤ maxNames
  deriving DecidableEq, Repr

namespace NameSet

def empty : NameSet := ⟨[], Nat.zero_le _⟩

section

variable (s : NameSet)

/-- The names, in the order held. -/
def texts : List Bytes := s.entries.map fun e => e.1.bytes

def contains (s : NameSet) (name : Bytes) : Bool := s.texts.contains name

/-- Add a name: nothing if the set is full, holds it, or the name cannot travel. -/
def push (name : Bytes) (isDir : Bool) : Option NameSet :=
  if h : s.entries.length = maxNames ∨ s.contains name = true then none
  else
    match Name.new name with
    | some n => some ⟨s.entries ++ [(n, isDir)], by
        have := s.bounded
        rw [List.length_append, List.length_singleton]
        omega⟩
    | none => none

/-- The set of exactly one name. -/
def one (name : Bytes) (isDir : Bool) : Option NameSet := empty.push name isDir

/-- Put a name in its place in byte order, pushing the largest out of a full set; and whether the
set had room before. -/
def keepSmallest (name : Name) (isDir : Bool) : NameSet × Bool :=
  let place := s.entries.findIdx fun e => decide (name.bytes < e.1.bytes)
  let room := decide (s.entries.length < maxNames)
  if room = false ∧ place = maxNames then (s, false)
  else
    (⟨(s.entries.take place ++ (name, isDir) :: s.entries.drop place).take maxNames,
      List.length_take_le _ _⟩, room)

/-- The last name held. -/
def last : Option Name := s.entries.getLast?.map Prod.fst

def only : Option Name :=
  match s.entries with
  | [e] => some e.1
  | _ => none

end

end NameSet

/-! ### Expanding a pattern -/

/-- Where a batch starts: at the beginning, or behind the last name of the batch before. -/
inductive Resume
  | start
  | after (name : Name)
  deriving DecidableEq, Repr

/-- Whether an earlier batch is past the name. -/
def Resume.passed (name : Bytes) : Resume → Bool
  | start => false
  | after w => decide (name ≤ w.bytes)

/-- The names one invocation is handed, and whether the pattern matches more. -/
structure Batch where
  names : NameSet
  more : Bool
  deriving DecidableEq, Repr

/-- The state of an expansion. -/
structure Expander where
  pattern : Bytes
  set : NameSet
  refused : Option Refusal
  resume : Option Resume
  more : Bool
  deriving DecidableEq, Repr

namespace Expander

def new (pattern : Bytes) : Expander := ⟨pattern, .empty, none, none, false⟩

def batch (pattern : Bytes) (resume : Resume) : Expander :=
  ⟨pattern, .empty, none, some resume, false⟩

/-- Offer one directory entry. -/
def offer (e : Expander) (name : Bytes) (isDir : Bool) : Expander :=
  if Glob.matches e.pattern name = false ∨ e.set.contains name = true then e
  else if fileNameFits name = false then
    { e with refused := some (e.refused.getD .matchNotNameable) }
  else
    match e.resume with
    | none =>
        match e.set.push name isDir with
        | some set => { e with set }
        | none => { e with refused := some (e.refused.getD .tooManyNames) }
    | some resume =>
        if resume.passed name = true then e
        else
          match Name.new name with
          | none => e
          | some n =>
              let kept := e.set.keepSmallest n isDir
              { e with set := kept.1, more := e.more || !kept.2 }

def finish (e : Expander) : Except Refusal NameSet :=
  match e.refused with
  | some r => .error r
  | none => if e.set.entries = [] then .error .noMatch else .ok e.set

/-- The batch.  Only the first batch of a sweep is refused for being empty. -/
def finishBatch (e : Expander) : Except Refusal Batch :=
  match e.refused with
  | some r => .error r
  | none =>
      if e.set.entries = [] ∧ e.resume = some .start then .error .noMatch
      else .ok ⟨e.set, e.more⟩

end Expander

/-- Where the next batch resumes, or `none` when this was the last. -/
def Batch.next (b : Batch) : Option Resume :=
  if b.more = false then none
  else
    match b.names.last with
    | none => none
    | some last => (Name.new last.bytes).map .after

end Nife.GrantPlan
