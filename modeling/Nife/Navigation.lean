/-
Paths, positions, and the trees they lie in.

A token is parsed into steps, each one component down or one level up, before anything is asked of
a server (`path`).  A position is the list of components below the shell's own root, so nothing
above the root can be named: a step up from the root is refused.  A shell may hold a second tree,
mounted at a position of the first; `Holdings.locate` says which tree serves a position and where
inside it.

A position is the list of its components here; `PackedPosition` has the arrays that hold them.
-/
import Nife.Expand
import Nife.Lib.Fallible

namespace Nife.GrantPlan

open Bytes List

/-- Why a path is refused. -/
inductive Refused
  | notAName | tooDeep | atYourRoot
  deriving DecidableEq, Repr

/-- The most levels below the root that are tracked. -/
def maxDepth : Nat := 8

/-- The longest component. -/
def maxName : Nat := 16

/-- Whether a component can be a name at all. -/
def componentFits (part : Bytes) : Bool :=
  !part.isEmpty && decide (part.length ≤ maxName) && part != ascii "." && part != ascii ".." &&
    !part.contains (chr '/') && !part.contains (chr '\\') && !part.contains (chr ':') &&
    !part.contains 0

/-! ### Paths -/

/-- One step of a path. -/
inductive Step
  | down (name : Bytes)
  | up
  deriving DecidableEq, Repr

/-- The steps of a token, and whether they start at the root. -/
structure Path where
  steps : List Step
  fromRoot : Bool
  deriving DecidableEq, Repr

def pathSteps (steps : List Step) : List Bytes → Except Refused (List Step)
  | [] => .ok steps
  | part :: parts =>
      if part = [] ∨ part = ascii "." then pathSteps steps parts
      else if steps.length = maxDepth then .error .tooDeep
      else if part = ascii ".." then pathSteps (steps ++ [.up]) parts
      else if componentFits part = false then .error .notAName
      else pathSteps (steps ++ [.down part]) parts

/-- The path a token names. -/
def path (token : Bytes) : Except Refused Path :=
  let fromRoot := token.head? == some (chr '/')
  if token = [] then .error .notAName
  else do
    let steps ← pathSteps [] (token.splitOn (chr '/'))
    -- a lone dot names the place one already is
    if steps = [] ∧ fromRoot = false then .error .notAName else .ok ⟨steps, fromRoot⟩

/-- The last component, and the steps to the directory that holds it. -/
def Path.splitLastComponent (p : Path) : Option (List Step × Bytes) :=
  match p.steps.getLast? with
  | some (.down name) => some (p.steps.dropLast, name)
  | _ => none

/-! ### Positions -/

/-- A position: the components below the root. -/
structure Cwd where
  components : List Bytes
  depth_le : components.length ≤ maxDepth
  fits : ∀ c ∈ components, componentFits c = true
  deriving DecidableEq, Repr

namespace Cwd

def root : Cwd := ⟨[], Nat.zero_le _, fun _ h => nomatch h⟩

def depth (c : Cwd) : Nat := c.components.length

/-- One level down, if the name fits and the position is not too deep. -/
def descend (c : Cwd) (name : Bytes) : Option Cwd :=
  if h : c.components.length = maxDepth ∨ componentFits name = false then none
  else some ⟨c.components ++ [name], by
      have := c.depth_le
      rw [length_append, length_singleton]
      omega, by
      intro part hpart
      rcases mem_append.mp hpart with hpart | hpart
      · exact c.fits part hpart
      · rw [mem_singleton.mp hpart]
        simpa using (not_or.mp h).2⟩

/-- One level up, if there is one. -/
def ascend (c : Cwd) : Option Cwd :=
  if c.components = [] then none
  else some ⟨c.components.dropLast,
    (dropLast_sublist _).length_le.trans c.depth_le,
    fun part hpart => c.fits part (mem_of_mem_dropLast hpart)⟩

/-- Where the steps lead, all of them or none. -/
def apply (c : Cwd) : List Step → Except Refused Cwd
  | [] => .ok c
  | .up :: steps =>
      match c.ascend with
      | some c => c.apply steps
      | none => .error .atYourRoot
  | .down name :: steps =>
      if componentFits name = false then .error .notAName
      else
        match c.descend name with
        | some c => c.apply steps
        | none => .error .tooDeep

/-- The text of a position, as far as a buffer has room. -/
def render (c : Cwd) (room : Nat) : Bytes :=
  (if c.components = [] then [chr '/'] else c.components.flatMap (chr '/' :: ·)).take room

def resolve (c : Cwd) (p : Path) : Except Refused Cwd :=
  (if p.fromRoot then root else c).apply p.steps

end Cwd

def renderMax : Nat := 1 + maxDepth * (1 + maxName)

/-! ### What the shell holds -/

/-- The trees a shell holds. -/
inductive Which
  | a | b
  deriving DecidableEq, Repr

/-- A second tree, and where it is mounted in the first: not at the root. -/
structure SecondDir where
  mount : Cwd
  mounted : mount.components ≠ []
  deriving DecidableEq, Repr

/-- The most names a shell binds. -/
def maxBinds : Nat := 4

/-- The names bound to a position. -/
structure Bindings where
  entries : List (Bytes × Cwd)
  bounded : entries.length ≤ maxBinds
  deriving DecidableEq, Repr

def Bindings.lookup (b : Bindings) (name : Bytes) : Option Cwd := b.entries.lookup name

/-- What the shell holds: whether it has a directory, a second one, where it stands, and the names
it bound. -/
structure Holdings where
  dir : Bool
  second : Option SecondDir
  cwd : Cwd
  binds : Bindings
  deriving DecidableEq, Repr

namespace Holdings

/-- Where a sequence of steps starts, and the steps left from there. -/
def anchor (h : Holdings) (fromRoot : Bool) (steps : List Step) : Cwd × List Step :=
  if fromRoot = false then (h.cwd, steps)
  else
    match steps with
    | .down first :: rest =>
        match h.binds.lookup first with
        | some pos => (pos, rest)
        | none => (.root, steps)
    | _ => (.root, steps)

/-- The tree a place is in, and where. -/
def locate (h : Holdings) (place : Cwd) : Which × Cwd :=
  match h.second with
  | some sd =>
      if sd.mount.components <+: place.components then
        (.b, ⟨place.components.drop sd.mount.depth, by
            have := place.depth_le
            rw [length_drop]
            omega,
          fun part hpart => place.fits part (mem_of_mem_drop hpart)⟩)
      else (.a, place)
  | none => (.a, place)

/-- The position in the one tree of a position inside one of the two. -/
def place (h : Holdings) (which : Which) (pos : Cwd) : Cwd :=
  match which, h.second with
  | .b, some sd => pos.components.foldl (fun place c => (place.descend c).getD place) sd.mount
  | _, _ => pos

end Holdings

/-! ### Patterns in paths -/

/-- A navigation refusal, as the planner reports it. -/
def navRefusal (_ : Refused) : Refusal := .fileNotNameable

/-- Whether the last component of a token is a pattern; a pattern before it is refused. -/
def magicComponent (token : Bytes) : Except Refusal Bool := do
  let parsed ← (path token).mapError navRefusal
  match parsed.steps.getLast? with
  | none => .ok false
  | some last =>
      if parsed.steps.dropLast.any (fun step =>
          match step with
          | .down name => Glob.hasMagic name
          | .up => false) then .error .patternInPath
      else
        match last with
        | .down name => .ok (Glob.hasMagic name)
        | .up => .ok false

/-! ### A token of one component -/

variable {name : Bytes}

section

variable (h : componentFits name = true)
include h

theorem componentFits_cases :
    name ≠ [] ∧ name.length ≤ maxName ∧ name ≠ ascii "." ∧ name ≠ ascii ".." ∧ chr '/' ∉ name := by
  simp only [componentFits, Bool.and_eq_true, Bool.not_eq_true', bne_iff_ne, ne_eq,
    decide_eq_true_eq, isEmpty_eq_false_iff, contains_eq_mem, decide_eq_false_iff_not] at h
  exact ⟨h.1.1.1.1.1.1.1, h.1.1.1.1.1.1.2, h.1.1.1.1.1.2, h.1.1.1.1.2, h.1.1.1.2⟩

/-- **A token that is one component names one step down.** -/
theorem path_component : path name = .ok ⟨[.down name], false⟩ := by
  obtain ⟨hne, -, hdot, hup, hslash⟩ := componentFits_cases h
  have hroot : (name.head? == some (chr '/')) = false := by
    rw [beq_eq_false_iff_ne]
    intro hhead
    exact hslash (mem_of_head? hhead)
  have hsplit : name.splitOn (chr '/') = [name] := splitOn_eq_singleton hslash
  simp [path, hroot, hsplit, pathSteps, hne, hdot, hup, h, maxDepth]
  rfl

theorem magicComponent_component : magicComponent name = .ok (Glob.hasMagic name) := by
  rw [magicComponent, path_component h]
  rfl

end

/-! ### A position and its place -/

variable {c c' : Cwd} {steps : List Step} {parts : List Bytes}

theorem Cwd.eq_of_components (h : c.components = c'.components) : c = c' := by
  cases c
  cases c'
  cases h
  rfl

theorem Cwd.exists_descend {name : Bytes} {cs : List Bytes}
    (h : c'.components = c.components ++ name :: cs) :
    ∃ next, c.descend name = some next ∧ componentFits name = true ∧
      c'.components = next.components ++ cs := by
  have hdepth := c'.depth_le
  have hfits := c'.fits name (by simp [h])
  rw [h, length_append, length_cons] at hdepth
  have hdescend : ¬(c.components.length = maxDepth ∨ componentFits name = false) := by
    rw [hfits, not_or]
    exact ⟨by omega, Bool.noConfusion⟩
  exact ⟨_, dif_neg hdescend, hfits, by rw [h, append_assoc]; rfl⟩

theorem foldl_descend {place : Cwd} (cs : List Bytes) {all : Cwd}
    (hall : all.components = place.components ++ cs) :
    cs.foldl (fun place c => (place.descend c).getD place) place = all := by
  induction cs generalizing place with
  | nil => exact Cwd.eq_of_components (by rw [hall, append_nil]; rfl)
  | cons c cs ih =>
    obtain ⟨next, hnext, -, hrest⟩ := Cwd.exists_descend hall
    rw [foldl_cons, hnext]
    exact ih hrest

/-- **`place` undoes `locate`.** -/
theorem Holdings.place_locate (h : Holdings) (c : Cwd) :
    h.place (h.locate c).1 (h.locate c).2 = c := by
  unfold locate
  split
  · next sd hsd =>
    split
    · next hmount =>
      obtain ⟨inside, hinside⟩ := hmount
      simp only [place, hsd]
      refine foldl_descend _ ?_
      rw [← hinside]
      simp [Cwd.depth]
    · rfl
  · rfl

/-! ### Where a text leads -/

/-- The step of a part, if it is one. -/
def stepOf (part : Bytes) : Option Step :=
  if part = [] ∨ part = ascii "." then none else if part = ascii ".." then some .up
  else some (.down part)

theorem splitOn_flatMap {x : UInt8} (h : ∀ p ∈ parts, x ∉ p) :
    (parts.flatMap (x :: ·)).splitOn x = [] :: parts := by
  induction parts using reverseRecOn with
  | nil => rfl
  | append_singleton parts p ih =>
    rw [flatMap_append, flatMap_singleton, splitOn_append_cons_self,
      ih fun p hp => h p (by simp [hp]), splitOn_eq_singleton (h p (by simp))]
    rfl

theorem pathSteps_eq_ok {start : List Step} (hle : start.length ≤ maxDepth) :
    pathSteps start parts = .ok steps ↔ steps = start ++ parts.filterMap stepOf ∧
      steps.length ≤ maxDepth ∧
      ∀ part ∈ parts, part ∈ [[], ascii ".", ascii ".."] ∨ componentFits part = true := by
  induction parts generalizing start with
  | nil => simp only [pathSteps, Except.ok.injEq]; grind
  | cons part parts ih =>
    rw [pathSteps, filterMap_cons, stepOf, forall_mem_cons]
    split_ifs <;> grind

theorem path_eq_ok {token : Bytes} {fromRoot : Bool} :
    path token = .ok ⟨steps, fromRoot⟩ ↔ token ≠ [] ∧
    (steps = (token.splitOn (chr '/')).filterMap stepOf ∧ steps.length ≤ maxDepth ∧
      ∀ part ∈ token.splitOn (chr '/'), part ∈ [[], ascii ".", ascii ".."] ∨
        componentFits part = true) ∧
    fromRoot = (token.head? == some (chr '/')) ∧ (steps = [] → fromRoot = true) := by
  unfold path
  split_ifs with hne
  · simp [hne]
  · rw [Fallible.bind_eq_ok]
    simp only [pathSteps_eq_ok (show [].length ≤ maxDepth from Nat.zero_le _)]
    grind

theorem apply_append (left right : List Step) :
    c.apply (left ++ right) = c.apply left >>= (·.apply right) := by
  induction left generalizing c with
  | nil => rfl
  | cons step left ih =>
    cases step with
    | up =>
      rw [cons_append, Cwd.apply, Cwd.apply]
      cases c.ascend with
      | none => rfl
      | some c => exact ih
    | down name =>
      rw [cons_append, Cwd.apply, Cwd.apply]
      split_ifs
      · rfl
      · cases c.descend name with
        | none => rfl
        | some c => exact ih

theorem apply_down (cs : List Bytes) (h : c'.components = c.components ++ cs) :
    c.apply (cs.map .down) = .ok c' := by
  induction cs generalizing c with
  | nil => exact congrArg _ (Cwd.eq_of_components (by rw [h, append_nil]))
  | cons name cs ih =>
    obtain ⟨next, hnext, hfits, hrest⟩ := Cwd.exists_descend h
    rw [map_cons, Cwd.apply, hfits, if_neg Bool.noConfusion, hnext]
    exact ih hrest

theorem depth_apply (h : c.apply steps = .ok c') :
    c'.depth + 2 * steps.count .up = c.depth + steps.length := by
  induction steps generalizing c with
  | nil => cases h; rfl
  | cons step steps ih =>
    cases step with
    | up =>
      rw [Cwd.apply, Cwd.ascend] at h
      split_ifs at h with hroot
      grind [ih h, Cwd.depth, length_dropLast, length_pos_iff]
    | down name =>
      rw [Cwd.apply, Cwd.descend] at h
      split_ifs at h
      grind [ih h, Cwd.depth]

theorem length_flatMap_le (cs : List Bytes) (h : ∀ p ∈ cs, p.length ≤ maxName) :
    (cs.flatMap (chr '/' :: ·)).length ≤ cs.length * (1 + maxName) := by
  induction cs with
  | nil => rfl
  | cons p cs ih =>
    have hp := h p mem_cons_self
    have hcs := ih fun p hp => h p (mem_cons_of_mem _ hp)
    rw [flatMap_cons, length_append, length_cons, length_cons, Nat.add_mul]
    omega

theorem path_render {room : Nat} (hroom : renderMax ≤ room) :
    path (c.render room) = .ok ⟨c.components.map .down, true⟩ := by
  have hlen := length_flatMap_le c.components fun p hp => (componentFits_cases (c.fits p hp)).2.1
  have hmax := Nat.mul_le_mul_right (1 + maxName) c.depth_le
  unfold Cwd.render
  split_ifs with hroot
  · rw [hroot, take_of_length_le ((Nat.le_add_right 1 _).trans hroom)]
    rfl
  · have hstep p (hp : p ∈ c.components) : stepOf p = some (.down p) := by
      obtain ⟨hne, -, hdot, hup, -⟩ := componentFits_cases (c.fits p hp)
      rw [stepOf, if_neg (not_or.mpr ⟨hne, hdot⟩), if_neg hup]
    rw [take_of_length_le ((hlen.trans hmax).trans ((Nat.le_add_left _ _).trans hroom)), path_eq_ok,
      splitOn_flatMap fun p hp => (componentFits_cases (c.fits p hp)).2.2.2.2,
      filterMap_cons_none rfl, (filterMap_congr hstep).trans (congrFun filterMap_eq_map _)]
    obtain ⟨p, cs, hcs⟩ := exists_cons_of_ne_nil hroot
    grind [c.depth_le, c.fits]

/-- A relative path `p/q` has the steps of `p` and then those of `q`. -/
theorem path_append {p q : Bytes} {ps qs pqs : Path} (hp : path p = .ok ps) (hq : path q = .ok qs)
    (hrel : ps.fromRoot = false) (h : path (p ++ chr '/' :: q) = .ok pqs) :
    pqs = ⟨ps.steps ++ qs.steps, false⟩ := by
  obtain ⟨psteps, proot⟩ := ps
  obtain ⟨qsteps, qroot⟩ := qs
  obtain ⟨steps, fromRoot⟩ := pqs
  obtain ⟨hne, ⟨rfl, -⟩, hproot, -⟩ := path_eq_ok.mp hp
  obtain ⟨-, ⟨rfl, -⟩, -⟩ := path_eq_ok.mp hq
  obtain ⟨-, ⟨rfl, -⟩, rfl, -⟩ := path_eq_ok.mp h
  rw [splitOn_append_cons_self, filterMap_append, head?_append_of_ne_nil _ hne, ← hproot]
  exact congrArg (Path.mk _) hrel

end Nife.GrantPlan
