/-
What a word of a command line is.

A quote delimits a word and never rewrites one: `read` takes the quotes off a token, or refuses a
token that would have to be put together from pieces.  `span` finds where a token ends, which is at
the first byte outside quotes that the caller says ends one, and `tokenize` cuts a line into the
tokens between unquoted white space, as many as its caller has room for.  `tokens` is the same with
no such bound, and the bounded reading is an initial part of it (`tokenize_eq_take`).
-/
import Nife.Expand

namespace Nife.GrantPlan

open Bytes List

/-- The bytes that quote. -/
def singleQuote : UInt8 := 0x27

@[inherit_doc singleQuote]
def doubleQuote : UInt8 := 0x22

/-- The quote a scanner is inside. -/
inductive Quote
  | bare | single | double
  deriving DecidableEq, Repr

/-- The quote after one more byte. -/
def Quote.step (q : Quote) (b : UInt8) : Quote :=
  match q with
  | bare => if b = singleQuote then single else if b = doubleQuote then double else bare
  | single => if b = singleQuote then bare else single
  | double => if b = doubleQuote then bare else double

/-- A token with its quotes taken off, and whether they were there. -/
structure Word where
  text : Bytes
  quoted : Bool
  deriving DecidableEq, Repr

/-- Take the quotes off one whole token. -/
def read (token : Bytes) : Except Refusal Word :=
  match token with
  | [] => .ok ⟨[], false⟩
  | first :: inner =>
      if first ≠ singleQuote ∧ first ≠ doubleQuote then
        if (first :: inner).contains (singleQuote) || (first :: inner).contains (doubleQuote) then
          .error .partlyQuoted
        else .ok ⟨first :: inner, false⟩
      else
        match inner.idxOf? first with
        | some place =>
            -- only a closing quote at the end wraps the whole token
            if place + 2 = (first :: inner).length then .ok ⟨inner.dropLast, true⟩
            else .error .partlyQuoted
        | none => .error .unclosedQuote

/-- The token at the head of the line, up to the first byte outside quotes that `stop` names, and
what is behind it. -/
def span (stop : UInt8 → Bool) : Quote → Bytes → Bytes × Bytes
  | _, [] => ([], [])
  | q, b :: rest =>
      if q = .bare ∧ stop b = true then ([], b :: rest)
      else
        let (token, behind) := span stop (q.step b) rest
        (b :: token, behind)

def tokenize : Nat → Bytes → List Bytes
  | 0, _ => []
  | limit + 1, line =>
      let rest := line.dropWhile isAsciiWhitespace
      if rest = [] then []
      else
        let (token, behind) := span isAsciiWhitespace .bare rest
        token :: tokenize limit behind

/-- Every token of the line. -/
def tokens (line : Bytes) : List Bytes := tokenize line.length line

/-! ### The bounded reading -/

variable {stop : UInt8 → Bool} {line : Bytes}

theorem span_append (stop : UInt8 → Bool) (q : Quote) (line : Bytes) :
    (span stop q line).1 ++ (span stop q line).2 = line := by
  fun_induction span stop q line with
  | case1 | case2 => rfl
  | case3 q b rest _ token behind hrest ih => simpa [hrest] using ih

theorem length_span {b : UInt8} {rest : Bytes} (hb : stop b = false) :
    (span stop .bare (b :: rest)).2.length ≤ rest.length := by
  have hsplit := span_append stop (Quote.bare.step b) rest
  rw [span, if_neg (by simp [hb])]
  have := congrArg length hsplit
  rw [length_append] at this
  exact (Nat.le_add_left _ _).trans_eq this

theorem tokenize_nil (limit : Nat) : tokenize limit [] = [] := by
  cases limit <;> rfl

theorem length_behind (hrest : line.dropWhile isAsciiWhitespace ≠ []) :
    (span isAsciiWhitespace .bare (line.dropWhile isAsciiWhitespace)).2.length < line.length := by
  obtain ⟨b, rest, hb⟩ := exists_cons_of_ne_nil hrest
  have hstop : isAsciiWhitespace b = false := by
    have := head_dropWhile_not isAsciiWhitespace hrest
    simpa [hb] using this
  have hle := (dropWhile_suffix (l := line) isAsciiWhitespace).length_le
  rw [hb] at hle ⊢
  exact (length_span hstop).trans_lt (by simpa using hle)

theorem tokenize_eq_tokens {limit : Nat} (h : line.length ≤ limit) :
    tokenize limit line = tokens line := by
  suffices ∀ n line, line.length ≤ n → ∀ limit, line.length ≤ limit →
      tokenize limit line = tokenize n line from this _ _ le_rfl _ h
  intro n
  induction n with
  | zero =>
    intro line hn limit _
    obtain rfl := length_eq_zero_iff.mp (Nat.le_zero.mp hn)
    rw [tokenize_nil, tokenize_nil]
  | succ n ih =>
    intro line hn limit hlimit
    cases limit with
    | zero =>
      obtain rfl := length_eq_zero_iff.mp (Nat.le_zero.mp hlimit)
      rw [tokenize_nil, tokenize_nil]
    | succ limit =>
      simp only [tokenize]
      split
      · rfl
      · rename_i hrest
        have hlt := length_behind hrest
        rw [ih _ (by omega) limit (by omega)]

/-- **A reading with bounded room is an initial part of the whole.** -/
theorem tokenize_eq_take (limit : Nat) (line : Bytes) :
    tokenize limit line = (tokens line).take limit := by
  induction limit generalizing line with
  | zero => rfl
  | succ limit ih =>
    by_cases hrest : line.dropWhile isAsciiWhitespace = []
    · have hnone : ∀ n, tokenize n line = [] := by
        intro n
        cases n <;> simp [tokenize, hrest]
      rw [hnone, tokens, hnone, take_nil]
    · have hlt := length_behind hrest
      have hall : tokens line =
          (span isAsciiWhitespace .bare (line.dropWhile isAsciiWhitespace)).1 ::
            tokens (span isAsciiWhitespace .bare (line.dropWhile isAsciiWhitespace)).2 := by
        rw [← tokenize_eq_tokens (Nat.le_succ line.length), tokenize]
        simp only [hrest, if_false]
        rw [tokenize_eq_tokens hlt.le]
      rw [hall, take_succ_cons, ← ih, tokenize]
      simp only [hrest, if_false]

example : tokens (ascii "wc  'my notes'\ta\"b c\"") =
    ["wc", "'my notes'", "a\"b c\""].map ascii := by decide

end Nife.GrantPlan
