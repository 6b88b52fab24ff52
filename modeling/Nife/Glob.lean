/-
The shell's pattern matcher.

A pattern is decoded one element at a time (`decode`): a star, a question mark, a literal or
escaped byte, or a bracket class, which is scanned against the byte in hand.  `matchSteps` runs
the elements over a name and remembers only the most recent star: when an element does not fit, the
star absorbs one more byte and the match resumes behind it.  Beside the answer it counts the steps
it charged.

A place in the pattern or in the name is the part that is left from there on, so a `Scan` holds two
rests and the place to come back to.  What it carries as fields is what makes the loop end: the
rests only shrink, and what a star may still absorb is never less than what is left of the name.
The measure that the loop descends by also pays for its steps (`matchSteps_le_costBound`).
-/
import Nife.Lib.Bytes

namespace Nife.Glob

open List (length_cons)

open Bytes

/-- Whether a leading dot has to be matched by a literal one. -/
inductive Dot
  | special | ordinary
  deriving DecidableEq, Repr

/-- One element of a pattern, with the pattern behind it. -/
inductive Elem
  | star
  | any (next : Bytes)
  | byte (b : UInt8) (next : Bytes)
  | cls (hit : Bool) (next : Bytes)
  deriving DecidableEq, Repr

/-! ### Decoding -/

/-- A byte of a class, escaped or not, and what is behind it. -/
def unescape (b : UInt8) : Bytes → UInt8 × Bytes
  | [] => (b, [])
  | c :: rest => if b = chr '\\' then (c, rest) else (b, c :: rest)

/-- The upper end of a range and what is behind it, if a range goes on here. -/
def upperEnd : Bytes → Option (UInt8 × Bytes)
  | dash :: b :: rest =>
      if dash = chr '-' ∧ b ≠ chr ']' then some (unescape b rest) else none
  | _ => none

theorem length_unescape (b : UInt8) (rest : Bytes) : (unescape b rest).2.length ≤ rest.length := by
  cases rest with
  | nil => exact le_rfl
  | cons c rest =>
    simp only [unescape]
    split <;> simp

variable {c : UInt8} {p : Bytes}

theorem length_upperEnd {hi : UInt8 × Bytes} (h : upperEnd p = some hi) :
    hi.2.length < p.length := by
  match p, h with
  | dash :: b :: rest, h =>
    simp only [upperEnd, Option.ite_none_right_eq_some, Option.some.injEq] at h
    have hlen := length_unescape b rest
    rw [h.2] at hlen
    simp only [length_cons]
    omega

/-- The members of a bracket class against the byte `c`, up to the closing bracket: whether it is
in the class and what is behind it, or nothing if no bracket closes it; and the bytes scanned. -/
def classScan (c : UInt8) (negated hit atStart : Bool) (scanned : Nat) (p : Bytes) :
    Option (Bool × Bytes) × Nat :=
  match p with
  | [] => (none, scanned)
  | b :: rest =>
      -- a closing bracket in the first place is a member
      if b = chr ']' ∧ atStart = false then (some (xor hit negated, rest), scanned + 1)
      else
        let lo := unescape b rest
        let scanned := scanned + 1 + (rest.length - lo.2.length)
        match _h : upperEnd lo.2 with
        | some hi =>
            classScan c negated (hit || decide (lo.1 ≤ c ∧ c ≤ hi.1)) false
              (scanned + (lo.2.length - hi.2.length)) hi.2
        | none => classScan c negated (hit || decide (lo.1 = c)) false scanned lo.2
termination_by p.length
decreasing_by
  · have := length_upperEnd _h
    have hlo : lo.2.length ≤ rest.length := length_unescape b rest
    simp only [List.length_cons]
    omega
  · exact Nat.lt_succ_of_le (length_unescape b rest)

/-- The class that opens before `p`, against the byte `c`. -/
def classAt (p : Bytes) (c : UInt8) : Option (Bool × Bytes) × Nat :=
  if p.head? = some (chr '!') ∨ p.head? = some (chr '^') then
    classScan c true false true 2 p.tail
  else classScan c false false true 1 p

/-- The next element of the pattern, a class already compared with `c`, and the bytes looked at. -/
def decode (p : Bytes) (c : UInt8) : Option (Elem × Nat) :=
  match p with
  | [] => none
  | b :: rest =>
      if b = chr '*' then some (.star, 1)
      else if b = chr '?' then some (.any rest, 1)
      else if b = chr '\\' then
        match rest with
        | escaped :: rest => some (.byte escaped rest, 2)
        | [] => some (.byte (chr '\\') [], 1)
      else if b = chr '[' then
        match classAt rest c with
        | (some (hit, next), scanned) => some (.cls hit next, scanned)
        | (none, scanned) => some (.byte (chr '[') rest, scanned)
      else some (.byte b rest, 1)

def Elem.next (p : Bytes) : Elem → Bytes
  | .star => p.tail
  | .any next => next
  | .byte _ next => next
  | .cls _ next => next

variable {scanned : Nat} {found : Bool × Bytes}

theorem length_classScan {negated hit atStart : Bool}
    (h : (classScan c negated hit atStart scanned p).1 = some found) :
    found.2.length < p.length := by
  fun_induction classScan c negated hit atStart scanned p with
  | case1 => cases h
  | case2 hit atStart scanned b rest _ =>
    cases h
    simp
  | case3 hit atStart scanned b rest _ lo scanned' hi hhi ih =>
    have := ih h
    have := length_upperEnd hhi
    have hlo : lo.2.length ≤ rest.length := length_unescape b rest
    simp only [length_cons]
    omega
  | case4 hit atStart scanned b rest _ lo scanned' _ ih =>
    have := ih h
    have hlo : lo.2.length ≤ rest.length := length_unescape b rest
    simp only [length_cons]
    omega

theorem length_classAt (h : (classAt p c).1 = some found) : found.2.length < p.length + 1 := by
  unfold classAt at h
  split at h
  · have := length_classScan h
    simp only [List.length_tail] at this
    omega
  · have := length_classScan h
    omega

/-- **Every element takes something from the pattern.** -/
theorem length_next {elem : Elem}
    (h : decode p c = some (elem, scanned)) : (elem.next p).length < p.length := by
  match p, h with
  | b :: rest, h =>
    simp only [decode] at h
    split at h
    · cases h
      simp [Elem.next]
    split at h
    · cases h
      simp [Elem.next]
    split at h
    · split at h <;> cases h
      · exact Nat.lt_succ_of_lt (Nat.lt_succ_self _)
      · exact Nat.zero_lt_succ _
    split at h
    · split at h
      · rename_i hit next scanned hcls
        cases h
        exact length_classAt (congrArg Prod.fst hcls)
      · cases h
        simp [Elem.next]
    · cases h
      simp [Elem.next]

/-- Whether the pattern is more than a name: whether any element is not a literal byte. -/
def hasMagic (p : Bytes) : Bool :=
  match _h : decode p 0 with
  | some (.byte _ next, _) => hasMagic next
  | some _ => true
  | none => false
termination_by p.length
decreasing_by exact length_next _h

/-- Whether the pattern opens with a dot that stands for itself. -/
def opensWithALiteralDot (p : Bytes) : Bool :=
  match decode p 0 with
  | some (.byte b _, _) => b == chr '.'
  | _ => false

/-! ### Matching -/

/-- Where a match stands: what is left of the name and of the pattern, and, behind the most recent
star, the pattern to resume with and the name it was left with. -/
structure Scan (pattern : Bytes) where
  (rest pat : Bytes)
  star : Option (Bytes × Bytes)
  pat_le : pat.length ≤ pattern.length
  resume_le : ∀ s ∈ star, s.1.length ≤ pattern.length
  rest_le : ∀ s ∈ star, rest.length ≤ s.2.length

namespace Scan

variable {pattern : Bytes}

section

variable (s : Scan pattern)

/-- An element took the byte in hand. -/
def past (c : UInt8) (rest next : Bytes) (hrest : s.rest = c :: rest)
    (hnext : next.length ≤ pattern.length) : Scan pattern where
  rest := rest
  pat := next
  star := s.star
  pat_le := hnext
  resume_le := s.resume_le
  rest_le p hp := by
    have := s.rest_le p hp
    rw [hrest, List.length_cons] at this
    omega

/-- A star: the match goes on behind it, and comes back to it. -/
def hold (next : Bytes) (hnext : next.length ≤ pattern.length) : Scan pattern where
  rest := s.rest
  pat := next
  star := some (next, s.rest)
  pat_le := hnext
  resume_le p hp := by
    cases hp
    exact hnext
  rest_le p hp := by
    cases hp
    exact le_rfl

/-- One element applied to the byte in hand, `none` if it does not fit or the pattern is at its
end; and the bytes scanned. -/
def advance (c : UInt8) (rest : Bytes) (hrest : s.rest = c :: rest) : Option (Scan pattern) × Nat :=
  match h : decode s.pat c with
  | none => (none, 0)
  | some (elem, scanned) =>
      have hnext : (elem.next s.pat).length ≤ pattern.length := (length_next h).le.trans s.pat_le
      match elem, hnext with
      | .star, hnext => (some (s.hold s.pat.tail hnext), scanned)
      | .any next, hnext => (some (s.past c rest next hrest hnext), scanned)
      | .byte b next, hnext =>
          (if b = c then some (s.past c rest next hrest hnext) else none, scanned)
      | .cls hit next, hnext => (if hit then some (s.past c rest next hrest hnext) else none, scanned)

/-- The most recent star absorbs one more byte. -/
def retry : Option (Scan pattern) :=
  match h : s.star with
  | none => none
  | some (resume, held) =>
      some
        { rest := held.tail
          pat := resume
          star := some (resume, held.tail)
          pat_le := s.resume_le (resume, held) h
          resume_le := by
            rintro p hp
            cases hp
            exact s.resume_le (resume, held) h
          rest_le := by
            rintro p hp
            cases hp
            exact le_rfl }

/-- What the match may still do: for each byte that can still be absorbed, the whole pattern. -/
def left : Nat :=
  (match s.star with
    | none => s.rest.length + 1
    | some p => p.2.length) * (pattern.length + 1) + s.pat.length

end

variable {rest : Bytes}
variable {next : Bytes} {s s' : Scan pattern}

theorem left_past (s : Scan pattern) (hrest : s.rest = c :: rest)
    (hnext : next.length < s.pat.length) :
    (s.past c rest next hrest (hnext.le.trans s.pat_le)).left < s.left := by
  obtain ⟨_, pat, star, _, _, _⟩ := s
  simp only at hrest hnext
  subst hrest
  cases star with
  | none =>
    simp only [left, past, List.length_cons, Nat.add_mul]
    omega
  | some p =>
    simp only [left, past]
    omega

theorem left_hold (s : Scan pattern) (hnext : next.length < s.pat.length) :
    (s.hold next (hnext.le.trans s.pat_le)).left < s.left := by
  obtain ⟨rest, pat, star, _, _, hrest⟩ := s
  simp only at hnext
  cases star with
  | none =>
    simp only [left, hold, Nat.add_mul]
    omega
  | some p =>
    have hle := Nat.mul_le_mul_right (pattern.length + 1) (hrest p rfl)
    simp only [left, hold]
    omega

theorem left_advance
    (hrest : s.rest = c :: rest) (h : (s.advance c rest hrest).1 = some s') : s'.left < s.left := by
  unfold advance at h
  split at h
  · cases h
  · rename_i elem scanned hdec
    have hnext := length_next hdec
    cases elem with
    | star =>
      cases h
      exact s.left_hold hnext
    | any next =>
      cases h
      exact s.left_past hrest hnext
    | byte b next =>
      obtain ⟨_, rfl⟩ : b = c ∧ _ = s' := by simpa using h
      exact s.left_past hrest hnext
    | cls hit next =>
      obtain ⟨_, rfl⟩ : hit = true ∧ _ = s' := by simpa using h
      exact s.left_past hrest hnext

theorem left_retry (hrest : s.rest = c :: rest) (h : s.retry = some s') : s'.left < s.left := by
  obtain ⟨_, pat, star, _, hresume, hheld⟩ := s
  simp only at hrest
  subst hrest
  match star with
  | none => cases h
  | some (resume, held) =>
    cases h
    have hlt : resume.length ≤ pattern.length := hresume (resume, held) rfl
    have hpos := hheld (resume, held) rfl
    obtain ⟨d, held, rfl⟩ : ∃ d held', held = d :: held' :=
      List.exists_cons_of_length_pos (by simp only [List.length_cons] at hpos; omega)
    simp only [left, List.tail_cons, List.length_cons, Nat.succ_mul]
    omega

end Scan

/-- The matcher's loop: the answer and the steps charged. -/
def matchLoop {pattern : Bytes} (s : Scan pattern) (steps : Nat) : Bool × Nat :=
  match hrest : s.rest with
  | [] =>
      -- the name is spent: whatever is left of the pattern has to be stars
      ((s.pat.dropWhile (· == chr '*')).isEmpty,
        steps + (s.pat.takeWhile (· == chr '*')).length)
  | c :: rest =>
      match _hadv : s.advance c rest hrest with
      | (some s', scanned) => matchLoop s' (steps + scanned)
      | (none, scanned) =>
          match _hretry : s.retry with
          | some s' => matchLoop s' (steps + scanned + 1)
          | none => (false, steps + scanned)
termination_by s.left
decreasing_by
  · exact Scan.left_advance hrest (congrArg Prod.fst _hadv)
  · exact Scan.left_retry hrest _hretry

/-- Whether the name matches the pattern, and the steps it took. -/
def matchSteps (pattern name : Bytes) (dot : Dot) : Bool × Nat :=
  if dot = .special ∧ name.head? = some (chr '.') ∧ opensWithALiteralDot pattern = false then
    (false, 0)
  else
    matchLoop
      { rest := name
        pat := pattern
        star := none
        pat_le := le_rfl
        resume_le := fun _ hs => nomatch hs
        rest_le := fun _ hs => nomatch hs : Scan pattern } 0

def «matches» (pattern name : Bytes) : Bool := (matchSteps pattern name .special).1

example : «matches» (ascii "log[0-9]*.t?t") (ascii "log7x.txt") = true := by decide +kernel

example : hasMagic (ascii "[foo") = false := by decide +kernel

/-! ### What a match costs -/

/-- `usize` arithmetic that stops at the largest number. -/
def saturate (n : Nat) : Nat := min n (2 ^ 64 - 1)

def costBound (patternLen nameLen : Nat) : Nat :=
  let iterations := saturate (saturate (nameLen + 2) * saturate (saturate (nameLen + patternLen) + 1))
  saturate (saturate (saturate (iterations * saturate (saturate (patternLen * 2) + 2)) + patternLen) + 2)

theorem scanned_classScan (c : UInt8) (negated hit atStart : Bool) (scanned : Nat) (p : Bytes) :
    (classScan c negated hit atStart scanned p).2 ≤ scanned + p.length := by
  fun_induction classScan c negated hit atStart scanned p with
  | case1 => exact Nat.le_add_right ..
  | case2 => simp
  | case3 hit atStart scanned b rest _ lo scanned' hi hhi ih =>
    have := length_upperEnd hhi
    have hlo : lo.2.length ≤ rest.length := length_unescape b rest
    simp only [length_cons]
    omega
  | case4 hit atStart scanned b rest _ lo scanned' _ ih =>
    have hlo : lo.2.length ≤ rest.length := length_unescape b rest
    simp only [length_cons]
    omega

/-- **Decoding an element looks at no more than the rest of the pattern.** -/
theorem scanned_decode {elem : Elem} (h : decode p c = some (elem, scanned)) :
    scanned ≤ p.length := by
  rcases p with - | ⟨b, rest⟩
  · cases h
  have hclass : (classAt rest c).2 ≤ rest.length + 1 := by
    unfold classAt
    split
    · next hneg =>
      have := scanned_classScan c true false true 2 rest.tail
      cases rest with
      | nil => simp at hneg
      | cons d rest =>
        simp only [length_cons, List.tail_cons] at this ⊢
        omega
    · exact (scanned_classScan ..).trans (by omega)
  simp only [decode] at h
  simp only [length_cons]
  split_ifs at h
  · cases h
    omega
  · cases h
    omega
  · split at h <;> cases h <;> simp
  · split at h <;> cases h <;> simp_all
  · cases h
    omega

variable {pattern rest : Bytes} {s s' : Scan pattern}

theorem Scan.scanned_advance (s : Scan pattern) (hrest : s.rest = c :: rest) :
    (s.advance c rest hrest).2 ≤ pattern.length := by
  unfold advance
  split
  · exact Nat.zero_le _
  · next elem scanned hdec =>
    have := (scanned_decode hdec).trans s.pat_le
    cases elem <;> exact this

/-- A round costs at most one pass over the pattern and one step back. -/
theorem Scan.pays (hlt : s'.left < s.left) (hle : scanned ≤ pattern.length) :
    scanned + 1 + s'.left * (pattern.length + 1) ≤ s.left * (pattern.length + 1) := by
  have := Nat.mul_le_mul_right (pattern.length + 1) hlt
  rw [Nat.succ_mul] at this
  omega

/-- **What the match may still do pays for every round.** -/
theorem matchLoop_cost (s : Scan pattern) (steps : Nat) :
    (matchLoop s steps).2 ≤ steps + s.left * (pattern.length + 1) + pattern.length := by
  fun_induction matchLoop s steps with
  | case1 s steps hrest =>
    have hlen := (List.takeWhile_sublist (· == chr '*') (l := s.pat)).length_le.trans s.pat_le
    omega
  | case2 s steps c rest hrest s' scanned hadv ih =>
    have hle := s.scanned_advance hrest
    rw [hadv] at hle
    have := Scan.pays (Scan.left_advance hrest (congrArg Prod.fst hadv)) hle
    omega
  | case3 s steps c rest hrest scanned hadv s' hretry ih =>
    have hle := s.scanned_advance hrest
    rw [hadv] at hle
    have := Scan.pays (Scan.left_retry hrest hretry) hle
    omega
  | case4 s steps c rest hrest scanned hadv =>
    have hle := s.scanned_advance hrest
    rw [hadv] at hle
    dsimp only at hle ⊢
    omega

theorem saturate_add (a b : Nat) : saturate (saturate a + b) = saturate (a + b) := by
  unfold saturate
  omega

theorem saturate_mul (a b : Nat) : saturate (saturate a * saturate b) = saturate (a * b) := by
  unfold saturate
  rcases Nat.eq_zero_or_pos a with rfl | ha
  · simp
  rcases Nat.eq_zero_or_pos b with rfl | hb
  · simp
  rcases le_total a (2 ^ 64 - 1) with hla | hla
  · rcases le_total b (2 ^ 64 - 1) with hlb | hlb
    · rw [min_eq_left hla, min_eq_left hlb]
    · rw [min_eq_left hla, min_eq_right hlb, min_eq_right (Nat.le_mul_of_pos_left _ ha),
        min_eq_right (hlb.trans (Nat.le_mul_of_pos_left _ ha))]
  · rw [min_eq_right hla, min_eq_right (hla.trans (Nat.le_mul_of_pos_right _ hb)),
      min_eq_right (Nat.le_mul_of_pos_right _ (lt_min hb (by decide)))]

/-- **A match costs no more than its bound**, as the counter counts it, and the counter does not
wrap where the bound is below the largest number. -/
theorem matchSteps_le_costBound (pattern name : Bytes) (dot : Dot) :
    (matchSteps pattern name dot).2 % 2 ^ 64 ≤ costBound pattern.length name.length ∧
      (costBound pattern.length name.length < 2 ^ 64 - 1 →
        (matchSteps pattern name dot).2 ≤ costBound pattern.length name.length) := by
  generalize hn : name.length = n
  generalize hp : pattern.length = k
  have hsteps : (matchSteps pattern name dot).2 ≤ ((n + 1) * (k + 1) + k) * (k + 1) + k := by
    unfold matchSteps
    split
    · exact Nat.zero_le _
    · have := matchLoop_cost ⟨name, pattern, none, le_rfl, nofun, nofun⟩ 0
      simpa only [Scan.left, hn, hp, zero_add] using this
  have hbound : ((n + 1) * (k + 1) + k) * (k + 1) + k ≤
      (n + 2) * (n + k + 1) * (k * 2 + 2) + k + 2 := by
    have hrounds : (n + 1) * (k + 1) + k ≤ (n + 2) * (n + k + 1) := by
      refine Nat.le_trans ?_ (Nat.mul_le_mul_left (n + 2) (by omega : k + 1 ≤ n + k + 1))
      rw [Nat.succ_mul (n + 1)]
      omega
    have := Nat.mul_le_mul hrounds (by omega : k + 1 ≤ k * 2 + 2)
    omega
  have hcost : costBound k n = saturate ((n + 2) * (n + k + 1) * (k * 2 + 2) + k + 2) := by
    simp only [costBound, saturate_add, saturate_mul]
  rw [hcost]
  refine ⟨le_min ((Nat.mod_le _ _).trans (hsteps.trans hbound)) ?_, fun hlt => ?_⟩
  · exact Nat.le_sub_one_of_lt (Nat.mod_lt _ (by decide))
  · have hlt := (min_lt_iff.mp hlt).resolve_right (lt_irrefl _)
    rw [saturate, min_eq_left hlt.le]
    exact hsteps.trans hbound

end Nife.Glob
