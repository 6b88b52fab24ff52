/-
A command line with its operators taken out.

A line is cut at its bare `|` into at most four stages.  Behind the words of a stage come its
redirections, `<`, `>`, `>>`, `2>` and `2>>`, each with the name it is followed by (`redirects`).
`split` then refuses a line that answers one question twice: an input that is not at the head, an
output that is not at the tail, a name that is a pattern and so designates more than one thing.
A quoted name is no pattern, and passes.
-/
import Nife.GrantPlan

namespace Nife.GrantPlan

open Bytes List

/-- The most stages of a pipeline. -/
def maxStages : Nat := 4

/-- The operators of one character. -/
def isOp (b : UInt8) : Bool := b == chr '|' || b == chr '<' || b == chr '>'

/-- Whether a `2>` starts here, provided a word may. -/
def isDiagOp (line : Bytes) : Bool :=
  line.head? == some (chr '2') && line.tail.head? == some (chr '>')

/-- White space off both ends. -/
def trim (s : Bytes) : Bytes :=
  ((s.dropWhile isAsciiWhitespace).reverse.dropWhile isAsciiWhitespace).reverse

/-! ### Stages -/

/-- The stream an operator names. -/
inductive Stream
  | input | output | diagnostics
  deriving DecidableEq, Repr

/-- A stage: its words, and the names behind its operators. -/
structure Stage where
  words : Bytes
  (input output diagnostics : Option Word)
  (append diagAppend : Bool)
  deriving DecidableEq, Repr

def Stage.new (words : Bytes) : Stage := ⟨words, none, none, none, false, false⟩

/-- The name of a stream of the stage, which may be given once. -/
def Stage.redirect (s : Stage) (stream : Stream) (append : Bool) (name : Word) :
    Except Refusal Stage :=
  match stream with
  | .input => if s.input = none then .ok { s with input := some name } else .error .redirectRepeated
  | .output =>
      if s.output = none then .ok { s with output := some name, append }
      else .error .redirectRepeated
  | .diagnostics =>
      if s.diagnostics = none then
        .ok { s with diagnostics := some name, diagAppend := append }
      else .error .redirectRepeated

/-- The words of a stage: up to the first operator outside quotes.  `boundary` says whether a word
may start here, `2>` being an operator only there.  Also what is behind them, and the quote they
end in. -/
def stageWords : Quote → Bool → Bytes → Bytes × Bytes × Quote
  | q, _, [] => ([], [], q)
  | q, boundary, b :: rest =>
      if q = .bare ∧ (isOp b = true ∨ boundary = true ∧ isDiagOp (b :: rest) = true) then
        ([], b :: rest, q)
      else
        let r := stageWords (q.step b) (isAsciiWhitespace b) rest
        (b :: r.1, r.2)

/-- The redirection operator at the head of the line: its stream, whether it appends, and what is
behind it. -/
def redirection : Bytes → Option (Stream × Bool × Bytes)
  | [] => none
  | b :: rest =>
      if b = chr '<' then some (.input, false, rest)
      else if b = chr '>' then
        if rest.head? = some (chr '>') then some (.output, true, rest.tail)
        else some (.output, false, rest)
      else if isDiagOp (b :: rest) = true then
        if rest.tail.head? = some (chr '>') then some (.diagnostics, true, rest.tail.tail)
        else some (.diagnostics, false, rest.tail)
      else none

/-- The name behind an operator, which may be quoted, and what is behind it. -/
def redirectName (line : Bytes) : Bytes × Bytes :=
  span (fun b => isAsciiWhitespace b || isOp b) .bare (line.dropWhile isAsciiWhitespace)

theorem length_redirection {line rest : Bytes} {stream : Stream} {append : Bool}
    (h : redirection line = some (stream, append, rest)) : rest.length < line.length := by
  cases line with
  | nil => cases h
  | cons b line =>
    simp only [redirection] at h
    split_ifs at h
    all_goals
      cases h
      simp only [length_tail, length_cons]
      omega

theorem length_redirectName (line : Bytes) : (redirectName line).2.length ≤ line.length := by
  have hsplit := congrArg length
    (span_append (fun b => isAsciiWhitespace b || isOp b) .bare (line.dropWhile isAsciiWhitespace))
  rw [length_append] at hsplit
  exact (Nat.le_of_add_left_le hsplit.le).trans (dropWhile_suffix _).length_le

/-- The redirections of a stage, which come after its words, and what is behind them. -/
def redirects (s : Stage) (line : Bytes) : Except Refusal (Stage × Bytes) :=
  match _hop : redirection line with
  | none => .ok (s, line)
  | some (stream, append, rest) =>
      if (redirectName rest).1 = [] then .error .noRedirectTarget
      else
        match read (redirectName rest).1 with
        | .error r => .error r
        | .ok name =>
            match s.redirect stream append name with
            | .error r => .error r
            | .ok s =>
                let next := (redirectName rest).2.dropWhile isAsciiWhitespace
                if next ≠ [] ∧ next.head?.any isOp = false ∧ isDiagOp next = false then
                  .error .wordAfterRedirect
                else redirects s next
termination_by line.length
decreasing_by
  exact ((List.dropWhile_suffix _).length_le.trans (length_redirectName rest)).trans_lt
    (length_redirection _hop)

/-- The stages of a line, where there is room for so many. -/
def stagesOf : Nat → Bytes → Except Refusal (List Stage)
  | 0, _ => .error .tooManyStages
  | room + 1, line =>
      if (stageWords .bare true line).2.2 ≠ .bare then .error .unclosedQuote
      else do
        let (stage, rest) ← redirects (.new (trim (stageWords .bare true line).1))
          (stageWords .bare true line).2.1
        match rest with
        | [] => .ok [stage]
        -- the operator that is left is `|`
        | _ :: rest => do
            let stages ← stagesOf room rest
            .ok (stage :: stages)

/-! ### Lines -/

/-- A line with the operators taken out: the stages, and the names on its ends. -/
structure Line where
  stages : List Bytes
  (input output diagnostics : Option Bytes)
  (append diagAppend : Bool)
  deriving DecidableEq, Repr

section

variable (stages : List Stage)

def inputName : Option Word := stages.head?.bind Stage.input

def outputName : Option Word := stages.getLast?.bind Stage.output

def diagnosticsName : Option Word := stages.getLast?.bind Stage.diagnostics

/-- Input belongs to the head and output to the tail. -/
def misplaced : Bool :=
  stages.tail.any (fun s => s.input.isSome) ||
    stages.dropLast.any (fun s => s.output.isSome || s.diagnostics.isSome)

/-- An unquoted pattern, which designates the wrong number of things. -/
def Word.isPattern (w : Word) : Bool := !w.quoted && Glob.hasMagic w.text

/-- The line of these stages, unless it answers one question twice. -/
def lineOf : Except Refusal Line :=
  if 1 < stages.length ∧ stages.any (fun s => s.words.isEmpty) = true then .error .emptyStage
  else if misplaced stages = true then .error .redirectMidPipeline
  else if (inputName stages).any Word.isPattern = true ∨
      (outputName stages).any Word.isPattern = true ∨
      (diagnosticsName stages).any Word.isPattern = true then .error .patternInRedirect
  else
    .ok
      { stages := stages.map Stage.words
        input := (inputName stages).map Word.text
        output := (outputName stages).map Word.text
        diagnostics := (diagnosticsName stages).map Word.text
        append := (stages.getLast?.map Stage.append).getD false
        diagAppend := (stages.getLast?.map Stage.diagAppend).getD false }

end

def split (line : Bytes) : Except Refusal Line := do
  let stages ← stagesOf maxStages line
  lineOf stages

variable {stages : List Stage}

theorem lineOf_ok {l : Line} (h : lineOf stages = .ok l) :
    l.input = (inputName stages).map Word.text ∧ l.output = (outputName stages).map Word.text ∧
      l.diagnostics = (diagnosticsName stages).map Word.text := by
  unfold lineOf at h
  split_ifs at h
  cases h
  exact ⟨rfl, rfl, rfl⟩

theorem lineOf_pattern (h : lineOf stages = .error .patternInRedirect) :
    ∃ w : Word, w.isPattern = true ∧ (inputName stages = some w ∨ outputName stages = some w ∨
        diagnosticsName stages = some w) := by
  unfold lineOf at h
  split_ifs at h with _ _ hpattern
  · cases h
  · cases h
  · rcases hpattern with hp | hp | hp
    · obtain ⟨w, hw, hpat⟩ := (Option.any_eq_true _ _).mp hp
      exact ⟨w, hpat, .inl hw⟩
    · obtain ⟨w, hw, hpat⟩ := (Option.any_eq_true _ _).mp hp
      exact ⟨w, hpat, .inr (.inl hw)⟩
    · obtain ⟨w, hw, hpat⟩ := (Option.any_eq_true _ _).mp hp
      exact ⟨w, hpat, .inr (.inr hw)⟩

end Nife.GrantPlan
