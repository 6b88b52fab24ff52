/-
A program invocation, before any manifest is asked about it.

`parseRun` reads at most sixteen tokens of a line.  It takes `--mem` with the token behind it, the
clusters of short options and the program's name, and keeps the other tokens in order: which of
them is the argument and which the file is the manifest's question.  What it cannot place it keeps
as `unexpected`, and a token whose quotes do not make sense as `misquoted`, so that the planner can
refuse the line.

The loop only ever adds to what it has kept (`Extends`), so what is missing at the end was never
met: a run that ends with neither complaint put every token it read to a use (`Consumed`).
-/
import Nife.Quoting
import Nife.Lib.Fallible

namespace Nife.GrantPlan

open List (prefix_refl)

open Bytes

/-- A base-10 number below 2^64. -/
def parseU64 (s : Bytes) : Option Nat :=
  if s = [] then none
  else
    s.foldlM (fun v b =>
      if 0x30 ≤ b ∧ b ≤ 0x39 then
        let v := v * 10 + (b.toNat - 0x30)
        if v < 2 ^ 64 then some v else none
      else none) 0

/-- The token behind a `--mem` flag; one that is no number leaves no grant. -/
def memValue (value : Bytes) : Option Nat :=
  (read value).toOption.bind fun v => parseU64 v.text

/-- An ASCII letter. -/
def isAsciiAlphabetic (b : UInt8) : Bool :=
  decide (0x41 ≤ b ∧ b ≤ 0x5a) || decide (0x61 ≤ b ∧ b ≤ 0x7a)

def maxTokens : Nat := 16

def maxPositionals : Nat := 4

/-- The most short-option letters kept. -/
def maxFlags : Nat := 8

/-- A parsed invocation: the program's name, the whole line, the `--mem` value, the positional
words with whether each was quoted, the option letters, and what the planner has to refuse. -/
structure RunSpec where
  (prog line : Bytes)
  mem : Option Nat
  pos : List (Bytes × Bool)
  opts : List UInt8
  unexpected : Option Bytes
  misquoted : Option Refusal
  deriving DecidableEq, Repr

/-- The parser's state: what it has kept, and whether it has met the program's name. -/
structure Parsing where
  run : RunSpec
  haveProg : Bool
  deriving DecidableEq, Repr

namespace Parsing

section

variable (p : Parsing)

/-- A token nothing can place.  The first one is kept. -/
def refuse (t : Bytes) : Parsing :=
  { p with run := { p.run with unexpected := some (p.run.unexpected.getD t) } }

/-- A token whose quotes do not make sense.  The first complaint is kept. -/
def misquote (r : Refusal) : Parsing :=
  { p with run := { p.run with misquoted := some (p.run.misquoted.getD r) } }

def setMem (value : Bytes) : Parsing :=
  { p with run := { p.run with mem := memValue value } }

/-- One word that is not the `--mem` flag. -/
def place (w : Word) : Parsing :=
  if w.quoted = false ∧ w.text.head? = some (chr '-') then
    if w.text.tail ≠ [] ∧ w.text.tail.all isAsciiAlphabetic = true ∧
        p.run.opts.length + w.text.tail.length ≤ maxFlags then
      { p with run := { p.run with opts := p.run.opts ++ w.text.tail } }
    else p.refuse w.text
  else if p.haveProg = false then { run := { p.run with prog := w.text }, haveProg := true }
  else if p.run.pos.length < maxPositionals then
    { p with run := { p.run with pos := p.run.pos ++ [(w.text, w.quoted)] } }
  else p.refuse w.text

end

/-- The tokens of a line in turn. -/
def tokens (p : Parsing) : List Bytes → Parsing
  | [] => p
  | token :: rest =>
      match read token with
      | .error r => tokens (p.misquote r) rest
      | .ok w =>
          if w.quoted = false ∧ w.text = ascii "--mem" then
            match rest with
            | [] => p
            | value :: rest => tokens (p.setMem value) rest
          else tokens (p.place w) rest

end Parsing

/-- The invocation a line spells. -/
def parseRun (line : Bytes) : RunSpec :=
  (Parsing.tokens ⟨⟨[], line, none, [], [], none, none⟩, false⟩ (tokenize maxTokens line)).run

/-! ### What the loop keeps -/

variable {p q : Parsing} {toks : List Bytes}

/-- `q` has kept everything `p` has, and complained of everything `p` has. -/
structure Extends (p q : Parsing) : Prop where
  line : q.run.line = p.run.line
  pos : p.run.pos <+: q.run.pos
  opts : p.run.opts <+: q.run.opts
  unexpected : q.run.unexpected = none → p.run.unexpected = none
  misquoted : q.run.misquoted = none → p.run.misquoted = none
  prog : p.haveProg = true → q.run.prog = p.run.prog ∧ q.haveProg = true

theorem Extends.refl (p : Parsing) : Extends p p :=
  ⟨rfl, prefix_refl _, prefix_refl _, id, id, fun h => ⟨rfl, h⟩⟩

theorem Extends.trans {r : Parsing} (h : Extends p q) (h' : Extends q r) : Extends p r :=
  ⟨h'.line.trans h.line, h.pos.trans h'.pos, h.opts.trans h'.opts, h.unexpected ∘ h'.unexpected,
    h.misquoted ∘ h'.misquoted, fun hp =>
      ⟨(h'.prog (h.prog hp).2).1.trans (h.prog hp).1, (h'.prog (h.prog hp).2).2⟩⟩

section

variable (p : Parsing)

theorem extends_refuse (t : Bytes) : Extends p (p.refuse t) :=
  ⟨rfl, prefix_refl _, prefix_refl _, by simp [Parsing.refuse], id, fun h => ⟨rfl, h⟩⟩

theorem extends_misquote (r : Refusal) : Extends p (p.misquote r) :=
  ⟨rfl, prefix_refl _, prefix_refl _, id, by simp [Parsing.misquote], fun h => ⟨rfl, h⟩⟩

theorem extends_setMem (value : Bytes) : Extends p (p.setMem value) :=
  ⟨rfl, prefix_refl _, prefix_refl _, id, id, fun h => ⟨rfl, h⟩⟩

theorem extends_place (w : Word) : Extends p (p.place w) := by
  unfold Parsing.place
  split
  · split
    · exact ⟨rfl, prefix_refl _, List.prefix_append _ _, id, id, fun h => ⟨rfl, h⟩⟩
    · exact extends_refuse p w.text
  split
  · rename_i hnone
    exact ⟨rfl, prefix_refl _, prefix_refl _, id, id, fun h => by simp [hnone] at h⟩
  split
  · exact ⟨rfl, List.prefix_append _ _, prefix_refl _, id, id, fun h => ⟨rfl, h⟩⟩
  · exact extends_refuse p w.text

end

/-- What one word is put to, if it is put to anything: option letters, the program's name, or the
next positional. -/
theorem place_cases {w : Word} (h : (p.place w).run.unexpected = none) :
    (∃ letters, w = ⟨chr '-' :: letters, false⟩ ∧ letters ≠ [] ∧
      p.place w = { p with run := { p.run with opts := p.run.opts ++ letters } }) ∨
    (w.quoted = true ∨ w.text.head? ≠ some (chr '-')) ∧ (p.haveProg = false ∧
        p.place w = { run := { p.run with prog := w.text }, haveProg := true } ∨
      p.haveProg = true ∧
        p.place w = { p with run := { p.run with pos := p.run.pos ++ [(w.text, w.quoted)] } }) := by
  have hrefused : p.place w ≠ p.refuse w.text := fun heq => by
    rw [heq] at h
    cases h
  unfold Parsing.place at h hrefused ⊢
  split_ifs at h hrefused ⊢ with hflag hletters hprog hroom
  · obtain ⟨text, quoted⟩ := w
    obtain ⟨rfl, hhead⟩ := hflag
    obtain ⟨letters, rfl⟩ : ∃ letters, text = chr '-' :: letters :=
      (List.head?_eq_some_iff).mp hhead
    exact .inl ⟨letters, rfl, hletters.1, rfl⟩
  · exact absurd rfl hrefused
  all_goals
    have hword : w.quoted = true ∨ w.text.head? ≠ some (chr '-') := by
      rw [not_and_or, Bool.not_eq_false] at hflag
      exact hflag
  · exact .inr ⟨hword, .inl ⟨hprog, rfl⟩⟩
  · exact .inr ⟨hword, .inr ⟨by simpa using hprog, rfl⟩⟩
  · exact absurd rfl hrefused

theorem extends_tokens (p : Parsing) (toks : List Bytes) : Extends p (p.tokens toks) := by
  fun_induction Parsing.tokens p toks with
  | case1 p => exact .refl p
  | case2 p token rest r _ ih => exact (extends_misquote p r).trans ih
  | case3 p token w _ _ => exact .refl p
  | case4 p token w _ _ value rest ih => exact (extends_setMem p value).trans ih
  | case5 p token rest w _ _ ih => exact (extends_place p w).trans ih

/-- Every token put to a use in what was kept of the line: the `--mem` flag with the token behind
it, which is the memory kept unless another follows; a cluster of declared option letters, which are
kept in order; the program's name; or the next positional, which is placed.  The indices say whether
the program's name is behind, and how many positionals, which letters and which memory are; at the
end of the line they are what was kept. -/
inductive Consumed (run : RunSpec) (Declared : UInt8 → Prop) (Placed : Nat → Bytes → Prop) :
    Bool → Nat → Bytes → Option Nat → List Bytes → Prop
  | done {named : Bool} :
      Consumed run Declared Placed named run.pos.length run.opts run.mem []
  | mem {named : Bool} {n : Nat} {opts : Bytes} {mem : Option Nat} {flag value : Bytes}
      {rest : List Bytes} :
      read flag = .ok ⟨ascii "--mem", false⟩ →
      Consumed run Declared Placed named n opts (memValue value) rest →
      Consumed run Declared Placed named n opts mem (flag :: value :: rest)
  | memLast {named : Bool} {n : Nat} {opts : Bytes} {mem : Option Nat} {flag : Bytes} :
      read flag = .ok ⟨ascii "--mem", false⟩ → Consumed run Declared Placed named n opts mem [] →
      Consumed run Declared Placed named n opts mem [flag]
  | options {named : Bool} {n : Nat} {opts : Bytes} {mem : Option Nat} {token letters : Bytes}
      {rest : List Bytes} :
      read token = .ok ⟨chr '-' :: letters, false⟩ → letters ≠ [] →
      (∀ letter ∈ letters, Declared letter) →
      Consumed run Declared Placed named n (opts ++ letters) mem rest →
      Consumed run Declared Placed named n opts mem (token :: rest)
  | program {n : Nat} {opts : Bytes} {mem : Option Nat} {token : Bytes} {w : Word}
      {rest : List Bytes} :
      read token = .ok w → (w.quoted = true ∨ w.text.head? ≠ some (chr '-')) →
      run.prog = w.text → Consumed run Declared Placed true n opts mem rest →
      Consumed run Declared Placed false n opts mem (token :: rest)
  | positional {n : Nat} {opts : Bytes} {mem : Option Nat} {token : Bytes} {w : Word}
      {rest : List Bytes} :
      read token = .ok w → (w.quoted = true ∨ w.text.head? ≠ some (chr '-')) →
      run.pos[n]? = some (w.text, w.quoted) → Placed n w.text →
      Consumed run Declared Placed true (n + 1) opts mem rest →
      Consumed run Declared Placed true n opts mem (token :: rest)

/-- **A line that is not complained of was used to its last token**: provided every option letter
kept is declared and every positional kept is placed. -/
theorem consumed_of_tokens {Declared : UInt8 → Prop} {Placed : Nat → Bytes → Prop}
    (hunexpected : (p.tokens toks).run.unexpected = none)
    (hmisquoted : (p.tokens toks).run.misquoted = none)
    (hopts : ∀ letter ∈ (p.tokens toks).run.opts, Declared letter)
    (hpos : ∀ k t, (p.tokens toks).run.pos[k]? = some t → Placed k t.1) :
    Consumed (p.tokens toks).run Declared Placed p.haveProg p.run.pos.length p.run.opts p.run.mem
      toks := by
  fun_induction Parsing.tokens p toks with
  | case1 p => exact .done
  | case2 p token rest r _ ih =>
    have := (extends_tokens (p.misquote r) rest).misquoted hmisquoted
    cases this
  | case3 p token w hread hmem =>
    obtain ⟨text, quoted⟩ := w
    obtain ⟨rfl, rfl⟩ := hmem
    exact .memLast hread .done
  | case4 p token w hread hmem value rest ih =>
    obtain ⟨text, quoted⟩ := w
    obtain ⟨rfl, rfl⟩ := hmem
    exact .mem hread (ih hunexpected hmisquoted hopts hpos)
  | case5 p token rest w hread hmem ih =>
    have hrest := ih hunexpected hmisquoted hopts hpos
    have hlater := extends_tokens (p.place w) rest
    rcases place_cases (hlater.unexpected hunexpected) with
      ⟨letters, rfl, hne, hplace⟩ | ⟨hword, ⟨hprog, hplace⟩ | ⟨hprog, hplace⟩⟩
    · have hkept := hlater.opts
      have hdeclared : ∀ letter ∈ letters, Declared letter := fun letter hl => by
        refine hopts letter (hkept.subset ?_)
        rw [hplace]
        exact List.mem_append_right _ hl
      rw [hplace] at hrest ⊢
      exact .options hread hne hdeclared hrest
    · have hname : ((p.place w).tokens rest).run.prog = w.text := by
        rw [(hlater.prog (by rw [hplace])).1, hplace]
      rw [hplace] at hrest hname ⊢
      rw [hprog]
      exact .program hread hword hname hrest
    · obtain ⟨later, hkept⟩ := hlater.pos
      have hthere : ((p.place w).tokens rest).run.pos[p.run.pos.length]? =
          some (w.text, w.quoted) := by
        rw [← hkept, hplace]
        simp
      have hplaced : Placed p.run.pos.length w.text := hpos _ (w.text, w.quoted) hthere
      rw [hplace] at hrest hthere ⊢
      simp only [hprog, List.length_append, List.length_singleton] at hrest hthere ⊢
      exact .positional hread hword hthere hplaced hrest

end Nife.GrantPlan
