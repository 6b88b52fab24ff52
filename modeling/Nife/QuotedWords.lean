/-
What the shell expands before it plans, and what a quoted word designates.

`expansion` reads the directory for the first pattern among the positionals of a line.  It passes
over every quoted one, so what it expands is never keyed to a quoted word (`expansion_place`).  The
planner asks the same question again of the bare text (`designate`), and a redirection is planned
with nothing expanded.  A quoted word without a metacharacter therefore designates itself, as an
operand and as a redirection (`quoted_designates_itself`); one that has a metacharacter is refused
as a pattern that nobody expanded (`designate_quoted_pattern`).  The words of a program that hears
words are looked up where the shell stands, but in its first tree (`words_granted_at_cwd_iff`).
-/
import Nife.CommandLine
import Nife.GrantLaws

namespace Nife.GrantPlan

open Bytes Fallible

/-! ### Expanding a line -/

/-- Why a name is not bound. -/
inductive BindRefused
  | notAName | alreadyBound | tooMany | reservedLabel
  deriving DecidableEq, Repr

/-- What a builtin has to say. -/
inductive Say
  | nothing
  | refused (why : Refused)
  | failed (errno : Int)
  | noDirectory | needsAName | notAnInstant
  | cannot (why : Refusal)
  | cannotBind (why : BindRefused)
  | heapFull
  deriving DecidableEq, Repr

/-- Whether a token is to be resolved rather than printed. -/
def isPattern (token : Bytes) : Except Refusal Bool :=
  if Glob.hasMagic token = false then .ok false else magicComponent token

/-- Add a name to a designation. -/
def Designation.name (d : Designation) (name : Bytes) (isDir : Bool) :
    Designation × Option Refusal :=
  if d.names.contains name = true then (d, none)
  else if fileNameFits name = false then (d, some .matchNotNameable)
  else
    match d.names.push name isDir with
    | some names => ({ d with names }, none)
    | none => (d, some .tooManyNames)

/-- The walk over a line's words: what is designated so far, whether the next word is the program's
name, and what the directory answered that ends it. -/
structure Walk where
  found : Designation
  first : Bool
  said : Option Say
  deriving DecidableEq, Repr

/-- A word without the `./` in front of it. -/
def stripHere : Bytes → Bytes
  | a :: b :: rest => if a = chr '.' ∧ b = chr '/' then stripHere rest else a :: b :: rest
  | w => w

/-- The name a word may designate here: its first component. -/
def firstComponent (w : Bytes) : Bytes := (w.splitOn (chr '/')).headD w

/-- Look one word up here. -/
def Walk.word (grant : WordGrant) (resolve : Bytes → Except Say NameSet) (walk : Walk) (w : Bytes) :
    Walk × Option Refusal :=
  let next := { walk with first := false }
  if walk.first = true ∨ w.head? = some (chr '-') ∨ walk.said ≠ none then (next, none)
  else
    let rest := stripHere w
    if rest = [] ∨ rest = ascii "." then
      ({ next with found := { walk.found with here := true } }, none)
    else
      let name := firstComponent rest
      if rest.head? = some (chr '/') ∨ name = ascii ".." ∨ name = [] ∨
          Glob.hasMagic name = true then (next, none)
      else
        let add (name : Bytes) (isDir : Bool) : Walk × Option Refusal :=
          ({ next with found := (walk.found.name name isDir).1 },
            (walk.found.name name isDir).2)
        match resolve name with
        | .ok set =>
            match set.entries.head? with
            | some (found, isDir) => add found.bytes isDir
            | none => (next, none)
        | .error (.cannot .noMatch) => if grant = .create then add name false else (next, none)
        | .error .noDirectory => ({ next with said := some .noDirectory }, none)
        | .error (.failed errno) => ({ next with said := some (.failed errno) }, none)
        | .error _ => (next, none)

/-- What a walk comes to: a shell that holds no directory designates nothing. -/
def Walk.answer (walk : Walk) (refused : Option Refusal) : Except Say Expansion :=
  match walk.said, refused with
  | some .noDirectory, _ => .ok (.designated ⟨.empty, false⟩)
  | some say, _ => .error say
  | none, some r => .error (.cannot r)
  | none, none => .ok (.designated walk.found)

/-- Which of a line's words name something here. -/
def designation (line : Bytes) (grant : WordGrant) (resolve : Bytes → Except Say NameSet) :
    Except Say Expansion :=
  let walked := eachWord line (Walk.word grant resolve) ⟨⟨.empty, false⟩, true, none⟩
  walked.1.answer walked.2

/-- The first pattern among the positionals that is not quoted, expanded. -/
def expandFrom (expand : Bytes → Except Say NameSet) : Nat → List (Bytes × Bool) →
    Except Say Expansion
  | _, [] => .ok .none
  | i, (token, quoted) :: rest =>
      if quoted = true then expandFrom expand (i + 1) rest
      else
        match isPattern token with
        | .ok false => expandFrom expand (i + 1) rest
        | .ok true => do
            let names ← expand token
            .ok (.at i names)
        | .error r => .error (.cannot r)

/-- What the shell expands before it plans.  `manifestOf` is the catalogue of programs and `expand`
the shell's directory read. -/
def expansion (manifestOf : Bytes → Option Manifest) (run : RunSpec)
    (expand : Bytes → Except Say NameSet) : Except Say Expansion :=
  match (manifestOf run.prog).map Manifest.arg with
  | some (.words grant) => designation run.line grant expand
  | _ => expandFrom expand 0 run.pos

variable {manifestOf : Bytes → Option Manifest} {run : RunSpec} {m : Manifest}
variable {expand : Bytes → Except Say NameSet} {expanded : Expansion} {holds : Holdings}
variable {line t : Bytes} {index : Nat}

theorem designation_place {grant : WordGrant} (h : designation line grant expand = .ok expanded) :
    expanded.place = none := by
  simp only [designation, Walk.answer] at h
  split at h
  all_goals
    cases h
    try rfl

theorem expandFrom_place {pos : List (Bytes × Bool)} {i : Nat}
    (h : expandFrom expand i pos = .ok expanded) (hplace : expanded.place = some index) :
    ∃ k token, index = i + k ∧ pos[k]? = some (token, false) := by
  fun_induction expandFrom expand i pos with
  | case1 =>
    cases h
    cases hplace
  | case2 i token rest ih | case3 i token quoted rest hquoted _ ih =>
    obtain ⟨k, token', rfl, hk⟩ := ih h
    exact ⟨k + 1, token', by omega, hk⟩
  | case4 i token quoted rest hquoted _ =>
    obtain ⟨names, -, h⟩ := bind_eq_ok.mp h
    cases h
    cases hplace
    exact ⟨0, token, rfl, by simpa using hquoted⟩
  | case5 => cases h

/-- **What the shell expands is never keyed to a quoted word.** -/
theorem expansion_place (h : expansion manifestOf run expand = .ok expanded)
    (hquoted : run.pos[index]? = some (t, true)) : expanded.place ≠ some index := by
  intro hplace
  unfold expansion at h
  split at h
  · rw [designation_place h] at hplace
    cases hplace
  · obtain ⟨k, token, rfl, hk⟩ := expandFrom_place h hplace
    rw [Nat.zero_add, hk] at hquoted
    cases hquoted

/-! ### A single component -/

/-- A legal single component that is not a pattern. -/
structure PlainName (t : Bytes) : Prop where
  component : componentFits t = true
  fits : fileNameFits t = true
  plain : Glob.hasMagic t = false

namespace PlainName

section

variable (h : PlainName t)

/-- The name itself. -/
def toName : Name := ⟨t, h.fits⟩

/-- The set of the one name. -/
def names : NameSet := ⟨[(h.toName, false)], Nat.succ_le_succ (Nat.zero_le _)⟩

/-- The file of that name where the shell stands. -/
def file (holds : Holdings) (writable : Bool) : FileGrant :=
  ⟨(holds.locate holds.cwd).1, (holds.locate holds.cwd).2, h.toName, writable⟩

end

theorem one (h : PlainName t) : NameSet.one t false = some h.names := by
  simp [NameSet.one, NameSet.push, NameSet.empty, NameSet.contains, NameSet.texts, maxNames,
    Name.new, h.fits, toName, names]

theorem designate (h : PlainName t) (index : Nat) (holds : Holdings) (expanded : Expansion) :
    GrantPlan.designate t index holds expanded =
      .ok ((holds.locate holds.cwd).1, (holds.locate holds.cwd).2, h.names) := by
  have hnames : designateNames false t index expanded = .ok h.names := by
    simp [designateNames, h.one]
  rw [GrantPlan.designate, magicComponent_component h.component, path_component h.component,
    h.plain]
  show (designateNames false t index expanded >>= _) = _
  rw [hnames]
  rfl

theorem designateFile (h : PlainName t) (hdir : holds.dir = true) (many : Refusal) (index : Nat)
    (expanded : Expansion) (writable : Bool) :
    GrantPlan.designateFile many t index holds expanded writable = .ok (h.file holds writable) := by
  rw [GrantPlan.designateFile, if_neg (by simp [hdir]), h.designate]
  rfl

end PlainName

/-- **A quoted pattern is refused**, as one that nobody expanded. -/
theorem designate_quoted_pattern (hexp : expansion manifestOf run expand = .ok expanded)
    (hquoted : run.pos[index]? = some (t, true)) (hfits : componentFits t = true)
    (hmagic : Glob.hasMagic t = true) :
    designate t index holds expanded = .error .unexpanded := by
  have hnone : expanded.forPositional index = none := if_neg (expansion_place hexp hquoted)
  have hnames : designateNames true t index expanded = .error .unexpanded := by
    simp [designateNames, hnone]
  rw [designate, magicComponent_component hfits, path_component hfits, hmagic]
  show (designateNames true t index expanded >>= _) = _
  rw [hnames]
  rfl

/-! ### A quoted word designates itself -/

/-- The positional at this index, wherever it lands, is planned as exactly one name where the shell
stands. -/
structure SlotDesignates (run : RunSpec) (m : Manifest) (holds : Holdings) (expanded : Expansion)
    (index : Nat) (h : PlainName t) : Prop where
  /-- No slot refuses it. -/
  file : ∀ writable, m.file = .required writable →
    planFile run m holds expanded index = .ok (some (h.file holds writable), index + 1)
  dir : ∀ flag flags, m.dir = .required flag → planDir run m holds expanded flags index =
    .ok (some ⟨(holds.locate holds.cwd).1, (holds.locate holds.cwd).2, h.names,
      subtreeTyped m flags flag⟩, index + 1)
  input : m.input ≠ .forbidden →
    planInput run m holds expanded .none index = .ok (.file (h.file holds false), index + 1)
  /-- In a plan, the slot it lands in holds it. -/
  plan : m.arg.hearsWords = false → ∀ prog e,
    planAgainst run prog m holds expanded = .ok e →
      (∀ writable, m.file = .required writable → index = m.fileIndex →
        e.file = some (h.file holds writable)) ∧
      (∀ flag, m.dir = .required flag → index = m.dirIndex →
        e.dir = some ⟨(holds.locate holds.cwd).1, (holds.locate holds.cwd).2, h.names,
          subtreeTyped m e.flags flag⟩) ∧
      (m.input ≠ .forbidden → index = m.inputIndex → e.source = .file (h.file holds false))

/-- A redirection name of the line is kept as typed, refused only as an unquoted pattern, and
designates exactly the file of that name where the shell stands. -/
structure RedirectDesignates (line : Bytes) (stages : List Stage) (holds : Holdings)
    (h : PlainName t) : Prop where
  exempt : split line = .error .patternInRedirect → ∃ w : Word, w.isPattern = true ∧
    (inputName stages = some w ∨ outputName stages = some w ∨ diagnosticsName stages = some w)
  kept : ∀ l, split line = .ok l →
    (inputName stages = some ⟨t, true⟩ → l.input = some t) ∧
    (outputName stages = some ⟨t, true⟩ → l.output = some t) ∧
    (diagnosticsName stages = some ⟨t, true⟩ → l.diagnostics = some t)
  target : ∀ writable, redirectTarget t holds writable = .ok (h.file holds writable)

theorem slotDesignates (h : PlainName t) (hdir : holds.dir = true) {quoted : Bool}
    (ht : run.pos[index]? = some (t, quoted)) : SlotDesignates run m holds expanded index h := by
  have hfile : ∀ writable, m.file = .required writable →
      planFile run m holds expanded index = .ok (some (h.file holds writable), index + 1) := by
    intro writable hspec
    simp only [planFile, hspec, ht, h.designateFile hdir]
    rfl
  have hdirs : ∀ flag flags, m.dir = .required flag → planDir run m holds expanded flags index =
      .ok (some ⟨(holds.locate holds.cwd).1, (holds.locate holds.cwd).2, h.names,
        subtreeTyped m flags flag⟩, index + 1) := by
    intro flag flags hspec
    simp only [planDir, hspec, ht, hdir, h.designate]
    rfl
  have hinput : m.input ≠ .forbidden → planInput run m holds expanded .none index =
      .ok (.file (h.file holds false), index + 1) := by
    intro hspec
    cases hreq : m.input with
    | forbidden => exact absurd hreq hspec
    | required w =>
      simp only [planInput, hreq, ht, h.designateFile hdir]
      rfl
  refine ⟨hfile, hdirs, hinput, fun hwords prog e hplan => ?_⟩
  obtain ⟨n₁, n₂, n₃, n₄, dir, hplanArg, hplanFile, hplanDir, hdes, hplanInput, -⟩ :=
    (planned_of_planAgainst hplan).slots
  obtain ⟨rfl, -⟩ := planArg_ok hwords hplanArg
  obtain ⟨rfl, -⟩ := planFile_ok hplanFile
  obtain ⟨rfl, -⟩ := planDir_ok hplanDir
  have hsame : e.dir = dir := (planWords_ok hdes).resolve_right fun ⟨hw, _⟩ => by
    rw [hwords] at hw
    cases hw
  refine ⟨fun writable hspec hindex => ?_, fun flag hspec hindex => ?_, fun hspec hindex => ?_⟩
  · subst hindex
    exact (congrArg Prod.fst (Except.ok.inj ((hfile writable hspec).symm.trans hplanFile))).symm
  · subst hindex
    rw [hsame]
    exact (congrArg Prod.fst (Except.ok.inj ((hdirs flag e.flags hspec).symm.trans hplanDir))).symm
  · subst hindex
    exact (congrArg Prod.fst (Except.ok.inj ((hinput hspec).symm.trans hplanInput))).symm

theorem redirectDesignates (h : PlainName t) (hdir : holds.dir = true) {stages : List Stage}
    (hstages : stagesOf maxStages line = .ok stages) : RedirectDesignates line stages holds h := by
  have hline : split line = lineOf stages := by
    rw [split, hstages]
    rfl
  refine ⟨fun hsplit => lineOf_pattern (hline ▸ hsplit), fun l hsplit => ?_,
    fun writable => h.designateFile hdir _ _ _ _⟩
  obtain ⟨hin, hout, hdiag⟩ := lineOf_ok (hline ▸ hsplit)
  exact ⟨fun hname => by rw [hin, hname]; rfl, fun hname => by rw [hout, hname]; rfl,
    fun hname => by rw [hdiag, hname]; rfl⟩

/-- **A quoted word designates itself**, provided it has no metacharacter: as an operand that lands
in a file, directory or input slot, and as the name of a redirection, whatever was expanded. -/
theorem quoted_designates_itself (hdir : holds.dir = true) (h : PlainName t) :
    (∀ m expanded index, (parseRun line).pos[index]? = some (t, true) →
      SlotDesignates (parseRun line) m holds expanded index h) ∧
    ∀ stages, stagesOf maxStages line = .ok stages → RedirectDesignates line stages holds h :=
  ⟨fun _ _ _ ht => slotDesignates h hdir ht, fun _ hstages => redirectDesignates h hdir hstages⟩

/-- `rm "two words"` and `date > "two words"`. -/
theorem quoted_designates_two_words : ∃ h : PlainName (ascii "two words"),
    (∀ m expanded, SlotDesignates (parseRun (ascii "rm \"two words\"")) m atRoot expanded 0 h) ∧
    RedirectDesignates (ascii "date > \"two words\"")
      [⟨ascii "date", none, some ⟨ascii "two words", true⟩, none, false, false⟩] atRoot h := by
  have h : PlainName (ascii "two words") :=
    ⟨by decide +kernel, by decide +kernel, by decide +kernel⟩
  exact ⟨h, fun m expanded => (quoted_designates_itself rfl h).1 m expanded 0 (by decide +kernel),
    (quoted_designates_itself rfl h).2 _ (by decide +kernel)⟩

/-- **A quoted pattern designates nothing**: `rm "*.txt"` is refused whatever the directory lists, and
so is the name that `date > "*.txt"` redirects to. -/
theorem quoted_pattern_refused :
    (componentFits (ascii "*.txt") = true ∧ fileNameFits (ascii "*.txt") = true) ∧
    ((parseRun (ascii "rm \"*.txt\"")).pos = [(ascii "*.txt", true)] ∧
      ∀ (manifestOf : Bytes → Option Manifest) (expand : Bytes → Except Say NameSet),
        manifestOf (ascii "rm") = some rm →
        expansion manifestOf (parseRun (ascii "rm \"*.txt\"")) expand = .ok .none ∧
        planAgainst (parseRun (ascii "rm \"*.txt\"")) (ascii "rm") rm atRoot .none =
          .error .unexpanded) ∧
    (split (ascii "date > \"*.txt\"")).map Line.output = .ok (some (ascii "*.txt")) ∧
      redirectTarget (ascii "*.txt") atRoot true = .error .unexpanded := by
  refine ⟨by decide +kernel, ⟨by decide +kernel, fun manifestOf expand hrm => ⟨?_, ?_⟩⟩,
    by decide +kernel, by decide +kernel⟩
  · have hprog : (parseRun (ascii "rm \"*.txt\"")).prog = ascii "rm" := by decide +kernel
    have hpos : (parseRun (ascii "rm \"*.txt\"")).pos = [(ascii "*.txt", true)] := by decide +kernel
    rw [expansion, hprog, hrm, hpos]
    rfl
  · decide +kernel

/-! ### Where the words of a line are looked up -/

/-- The directory grant is of the place where the shell stands, which is where a plain operand is
designated. -/
def Endowment.AtCwd (e : Endowment) (holds : Holdings) : Prop :=
  ∃ g, e.dir = some g ∧ (g.which, g.dir) = holds.locate holds.cwd ∧
    (∀ t (ht : PlainName t) index expanded,
      designate t index holds expanded = .ok (g.which, g.dir, ht.names)) ∧
    holds.place g.which g.dir = holds.cwd

/-- The shell stands at or below the mount point of a second tree. -/
def Holdings.InSecond (holds : Holdings) : Prop :=
  ∃ sd, holds.second = some sd ∧ sd.mount.components <+: holds.cwd.components

theorem Holdings.locate_cwd (holds : Holdings) :
    (holds.InSecond → (holds.locate holds.cwd).1 = .b) ∧
      (¬ holds.InSecond → holds.locate holds.cwd = (.a, holds.cwd)) := by
  unfold Holdings.locate Holdings.InSecond
  split
  · next sd hsd =>
    rw [hsd]
    split_ifs with hpre
    · exact ⟨fun _ => rfl, fun hno => absurd ⟨sd, rfl, hpre⟩ hno⟩
    · refine ⟨?_, fun _ => rfl⟩
      rintro ⟨sd', hsd', hpre'⟩
      cases hsd'
      exact absurd hpre' hpre
  · next hsd =>
    refine ⟨?_, fun _ => rfl⟩
    rintro ⟨sd, hsd', -⟩
    rw [hsd] at hsd'
    cases hsd'

/-- The planner grants the words' directory in the first tree, at the position of the shell. -/
theorem planned_words {prog : Bytes} {e : Endowment} {d : Designation}
    (hwords : m.arg.hearsWords = true) (hd : expanded.designation = some d)
    (hsome : ¬(d.here = false ∧ d.names.entries = []))
    (h : planAgainst run prog m holds expanded = .ok e) :
    ∃ g, e.dir = some g ∧ g.which = .a ∧ g.dir = holds.cwd := by
  obtain ⟨-, -, -, -, dir, -, -, -, hplan, -⟩ := (planned_of_planAgainst h).slots
  rw [planWords, hd] at hplan
  split at hplan
  · next heq =>
    cases heq
    rw [if_neg hsome] at hplan
    split at hplan
    · cases hplan
    · exact ⟨_, (Except.ok.inj hplan).symm, rfl, rfl⟩
  · next hno =>
    cases harg : m.arg with
    | words grant => exact absurd rfl (hno grant d harg)
    | required | forbidden =>
      rw [harg] at hwords
      cases hwords

/-- **The words of a line are looked up where the shell stands**, as a plain operand is, exactly
while it stands in its first tree. -/
theorem words_granted_at_cwd_iff {prog : Bytes} {e : Endowment} {d : Designation}
    (hwords : m.arg.hearsWords = true) (hd : expanded.designation = some d)
    (hsome : ¬(d.here = false ∧ d.names.entries = []))
    (h : planAgainst run prog m holds expanded = .ok e) : e.AtCwd holds ↔ ¬ holds.InSecond := by
  obtain ⟨g, hg, hwhich, hdir⟩ := planned_words hwords hd hsome h
  constructor
  · rintro ⟨g', hg', hat, -⟩ hin
    obtain rfl : g = g' := Option.some.inj (hg.symm.trans hg')
    have hb := holds.locate_cwd.1 hin
    rw [← hat, hwhich] at hb
    cases hb
  · intro hout
    have hlocate := holds.locate_cwd.2 hout
    have hback := holds.place_locate holds.cwd
    refine ⟨g, hg, ?_, fun t ht index expanded' => ?_, ?_⟩
    · rw [hlocate, hwhich, hdir]
    · rw [ht.designate, hlocate, hwhich, hdir]
    · rw [hlocate] at hback
      rw [hwhich, hdir]
      exact hback

def mountPoint : Cwd := ⟨[ascii "sd"], by decide, by decide⟩

/-- A shell with a second tree mounted at `/sd` that stands in `/src` of the first. -/
def besideMount : Holdings :=
  { atRoot with second := some ⟨mountPoint, by decide⟩, cwd := ⟨[ascii "src"], by decide, by decide⟩ }

/-- It is granted the name `src` below `/src`, where it stands. -/
theorem words_granted_at_cwd_iff_beside : ∃ e, planAgainst (parseRun wordLine)
    (ascii "std_exerciser") stdExerciser besideMount srcDesignated = .ok e ∧ e.AtCwd besideMount := by
  have heval : (planAgainst (parseRun wordLine) (ascii "std_exerciser") stdExerciser besideMount
      srcDesignated).isOk = true := by decide +kernel
  cases h : planAgainst (parseRun wordLine) (ascii "std_exerciser") stdExerciser besideMount
      srcDesignated with
  | error r =>
    rw [h] at heval
    cases heval
  | ok e =>
    refine ⟨e, rfl, (words_granted_at_cwd_iff rfl rfl (by decide +kernel) h).mpr ?_⟩
    rintro ⟨sd, hsd, hpre⟩
    cases hsd
    exact absurd hpre (by decide +kernel)

/-- **In the second tree the words are looked up in the first**: the shell stands at the root of the
tree mounted at `/sd`, and the grant is of `sd` in the other tree. -/
theorem words_granted_in_first_tree :
    ((planAgainst (parseRun wordLine) (ascii "std_exerciser") stdExerciser
        { atRoot with second := some ⟨mountPoint, by decide⟩, cwd := mountPoint }
        srcDesignated).map fun e => e.dir.map fun g => (g.which, g.dir)) =
      .ok (some (.a, mountPoint)) ∧
    Holdings.locate { atRoot with second := some ⟨mountPoint, by decide⟩, cwd := mountPoint }
      mountPoint = (.b, .root) := by
  decide +kernel

end Nife.GrantPlan
