/-
The arrays behind a position.

The source packs a position into a table of eight names of sixteen bytes, a table of their lengths
and a count.  Here are its operations on those arrays, where an access out of bounds is a panic and
what comes back is an answer together with the position as it is left.

One place has one representation (`Cwd.pack`): a name is followed by zeros, and so are the names,
because a name that is popped is zeroed.  Each operation on the arrays of a position is the operation
on its list of components, so it never panics, every position that is reached is packed
(`Reachable.packed`), and the laws of positions are laws of the arrays (`navigation_algebra`).
-/
import Nife.Navigation
import Nife.Lib.Buffers

namespace Nife.GrantPlan

open Bytes List Slices Buffers

/-- The element at an index that has to be there. -/
def elementAt {α : Type} (xs : List α) (i : Nat) : Run Refused α :=
  match xs[i]? with
  | some x => .ok x
  | none => .error .panic

/-- A position, as the source keeps it. -/
structure PackedCwd where
  names : List Bytes
  lens : List Nat
  depth : Nat
  deriving DecidableEq, Repr

namespace PackedCwd

def root : PackedCwd :=
  ⟨replicate maxDepth (replicate maxName 0), replicate maxDepth 0, 0⟩

section

variable (s : PackedCwd)

/-- Record a descent, and say whether there was one. -/
def descend (name : Bytes) : Run Refused (Bool × PackedCwd) :=
  if s.depth = maxDepth ∨ componentFits name = false then .ok (false, s)
  else do
    let row ← elementAt s.names s.depth
    let row ← copyFrom row 0 name.length name
    let _ ← elementAt s.lens s.depth
    .ok (true, ⟨s.names.set s.depth row, s.lens.set s.depth (name.length % 256), s.depth + 1⟩)

/-- Pop one level and zero it, and say whether there was one. -/
def ascend : Run Refused (Bool × PackedCwd) :=
  if s.depth = 0 then .ok (false, s)
  else do
    let depth := s.depth - 1
    let _ ← elementAt s.names depth
    let _ ← elementAt s.lens depth
    .ok (true, ⟨s.names.set depth (replicate maxName 0), s.lens.set depth 0, depth⟩)

/-- The component at a level, of which the first below the root is 0. -/
def component (level : Nat) : Run Refused Bytes := do
  let row ← elementAt s.names level
  let len ← elementAt s.lens level
  slice row 0 len

end

/-- The steps taken one after the other, up to one that cannot be taken. -/
def walk (next : PackedCwd) : List Step → Run Refused PackedCwd
  | [] => .ok next
  | .up :: steps => do
      let (taken, next) ← next.ascend
      if taken = false then .error (.refused .atYourRoot) else next.walk steps
  | .down name :: steps =>
      if componentFits name = false then .error (.refused .notAName)
      else do
        let (taken, next) ← next.descend name
        if taken = false then .error (.refused .tooDeep) else next.walk steps

/-- Take the steps on a copy, and move there at the end. -/
def apply (s : PackedCwd) (steps : List Step) : Run Refused Unit × PackedCwd :=
  match s.walk steps with
  | .ok next => (.ok (), next)
  | .error e => (.error e, s)

/-- Where a parsed token leads. -/
def resolve (s : PackedCwd) (p : Path) : Run Refused PackedCwd := do
  let (answer, next) := (if p.fromRoot then root else s).apply p.steps
  answer
  .ok next

/-- Where a token leads. -/
def resolveToken (s : PackedCwd) (token : Bytes) : Run Refused PackedCwd := do
  let p ← (path token).mapError .refused
  s.resolve p

/-- One more byte, if the buffer has room. -/
def put (room : Nat) (out : Bytes) (b : UInt8) : Bytes :=
  if out.length < room then out ++ [b] else out

/-- The text of a position, in a buffer with this much room. -/
def render (s : PackedCwd) (room : Nat) : Run Refused Bytes :=
  if s.depth = 0 then .ok (put room [] (chr '/'))
  else (range s.depth).foldlM (fun out level => do
    let name ← s.component level
    .ok (name.foldl (put room) (put room out (chr '/')))) []

/-- Whether two positions have the same components at these levels. -/
def agree (s m : PackedCwd) : List Nat → Run Refused Bool
  | [] => .ok true
  | level :: levels => do
      let name ← s.component level
      let name' ← m.component level
      if name = name' then s.agree m levels else .ok false

/-- Descend by the components that another position has at these levels. -/
def follow (s : PackedCwd) (pos : PackedCwd) : List Nat → Run Refused PackedCwd
  | [] => .ok pos
  | level :: levels => do
      let name ← s.component level
      let (_, pos) ← pos.descend name
      s.follow pos levels

/-- Which tree serves a position, and where inside it, if a second one is mounted at `mount`. -/
def locate (mount : Option PackedCwd) (place : PackedCwd) : Run Refused (Which × PackedCwd) :=
  match mount with
  | some m =>
      if m.depth ≤ place.depth then do
        if ← place.agree m (range m.depth) then
          let inside ← place.follow root (range' m.depth (place.depth - m.depth))
          .ok (.b, inside)
        else .ok (.a, place)
      else .ok (.a, place)
  | none => .ok (.a, place)

/-- The position in the one tree of a position inside one of the two. -/
def place (mount : Option PackedCwd) (which : Which) (pos : PackedCwd) : Run Refused PackedCwd :=
  match which, mount with
  | .b, some m => pos.follow m (range pos.depth)
  | _, _ => .ok pos

/-- The positions that descents and steps lead to. -/
inductive Reachable : PackedCwd → Prop
  | root : Reachable root
  | descend {s s' : PackedCwd} {name : Bytes} {taken : Bool} : Reachable s →
      s.descend name = .ok (taken, s') → Reachable s'
  | apply {s : PackedCwd} (steps : List Step) : Reachable s → Reachable (s.apply steps).2

end PackedCwd

/-! ### The arrays of a list of components -/

/-- A name in its sixteen bytes. -/
def padded (name : Bytes) : Bytes := name ++ replicate (maxName - name.length) 0

/-- Some entries and as many empty ones as the table has left. -/
def table {α : Type} (entries : List α) (empty : α) : List α :=
  entries ++ replicate (maxDepth - entries.length) empty

/-- The arrays of a position. -/
def Cwd.pack (c : Cwd) : PackedCwd :=
  ⟨table (c.components.map padded) (replicate maxName 0), table (c.components.map length) 0,
    c.depth⟩

section

variable {α : Type} {xs : List α} {x y empty : α} {level room : Nat} {name out : Bytes}

theorem elementAt_ok (h : xs[level]? = some x) : elementAt xs level = .ok x := by
  rw [elementAt, h]

theorem table_getElem? (h : xs[level]? = some x) : (table xs empty)[level]? = some x := by
  rw [table, getElem?_append_left (List.getElem?_eq_some_iff.mp h).1, h]

theorem table_next (hlevel : level = xs.length) (h : level < maxDepth) :
    (table xs empty)[level]? = some empty := by
  subst hlevel
  rw [table, getElem?_append_right le_rfl, Nat.sub_self, getElem?_replicate, if_pos (by omega)]

theorem table_push (hlevel : level = xs.length) (h : level < maxDepth) :
    (table xs empty).set level x = table (xs ++ [x]) empty := by
  subst hlevel
  obtain ⟨k, hk⟩ : ∃ k, maxDepth - xs.length = k + 1 := ⟨maxDepth - xs.length - 1, by omega⟩
  have hk' : maxDepth - (xs ++ [x]).length = k := by
    rw [length_append, length_singleton]
    omega
  rw [table, table, hk, hk', set_append_right _ _ le_rfl, Nat.sub_self, replicate_succ, set_cons_zero,
    append_assoc]
  rfl

/-- Emptying the last entry is forgetting it. -/
theorem table_pop (hlevel : level = xs.length) (h : level < maxDepth) :
    (table (xs ++ [x]) empty).set level empty = table xs empty := by
  have hforget : table (xs ++ [empty]) empty = table xs empty := by
    obtain ⟨k, hk⟩ : ∃ k, maxDepth - xs.length = k + 1 := ⟨maxDepth - xs.length - 1, by omega⟩
    have hk' : maxDepth - (xs ++ [empty]).length = k := by
      rw [length_append, length_singleton]
      omega
    rw [table, table, hk, hk', append_assoc, replicate_succ]
    rfl
  rw [← table_push hlevel h, set_set, table_push hlevel h, hforget]

theorem copyFrom_padded (h : name.length ≤ maxName) :
    (copyFrom (replicate maxName 0) 0 name.length name : Run Refused Bytes) = .ok (padded name) := by
  rw [copyFrom, if_pos ⟨Nat.zero_le _, by rw [length_replicate]; exact h, rfl⟩, take_zero, nil_append,
    drop_replicate, padded]

theorem slice_padded : (slice (padded name) 0 name.length : Run Refused Bytes) = .ok name := by
  rw [slice_ok (Nat.zero_le _) (by simp [padded]), part, drop_zero, Nat.sub_zero, padded, take_left]

theorem foldl_put (bs : Bytes) :
    bs.foldl (PackedCwd.put room) (out.take room) = (out ++ bs).take room := by
  induction bs generalizing out with
  | nil => rw [foldl_nil, append_nil]
  | cons b bs ih =>
    have hput : PackedCwd.put room (out.take room) b = (out ++ [b]).take room := by
      rw [PackedCwd.put, length_take]
      split_ifs with hroom
      · rw [take_of_length_le (by omega), take_of_length_le (by simp; omega)]
      · rw [take_append_of_le_length (by omega)]
    rw [foldl_cons, hput, ih, append_assoc, singleton_append]

end

/-! ### Each operation on the arrays of a position -/

variable {c c' m : Cwd} {name : Bytes} {level room : Nat}

theorem component_pack (h : c.components[level]? = some name) :
    c.pack.component level = .ok name := by
  have hrow : c.pack.names[level]? = some (padded name) :=
    table_getElem? (by rw [getElem?_map, h]; rfl)
  have hlen : c.pack.lens[level]? = some name.length :=
    table_getElem? (by rw [getElem?_map, h]; rfl)
  rw [PackedCwd.component, elementAt_ok hrow, elementAt_ok hlen]
  exact slice_padded

theorem descend_pack (c : Cwd) (name : Bytes) :
    c.pack.descend name = .ok (match c.descend name with
      | some c' => (true, c'.pack)
      | none => (false, c.pack)) := by
  unfold PackedCwd.descend Cwd.descend
  rw [show c.pack.depth = c.components.length from rfl]
  by_cases hno : c.components.length = maxDepth ∨ componentFits name = false
  · rw [if_pos hno, dif_pos hno]
  · obtain ⟨hdepth, hfits⟩ := not_or.mp hno
    have hlt : c.depth < maxDepth := lt_of_le_of_ne c.depth_le hdepth
    have hlen : name.length ≤ maxName := (componentFits_cases (by simpa using hfits)).2.1
    have hbyte : name.length % 256 = name.length := Nat.mod_eq_of_lt (hlen.trans_lt (by decide))
    have hrow : c.pack.names[c.depth]? = some (replicate maxName 0) :=
      table_next (length_map _).symm hlt
    have hzero : c.pack.lens[c.depth]? = some 0 := table_next (length_map _).symm hlt
    rw [if_neg hno, dif_neg hno]
    have hnames : c.pack.names.set c.depth (padded name) =
        table ((c.components ++ [name]).map padded) (replicate maxName 0) := by
      rw [map_append]
      exact table_push (length_map _).symm hlt
    have hlens : c.pack.lens.set c.depth name.length =
        table ((c.components ++ [name]).map length) 0 := by
      rw [map_append]
      exact table_push (length_map _).symm hlt
    simp only [Cwd.depth] at hrow hzero hnames hlens
    simp only [elementAt_ok hrow, copyFrom_padded hlen, elementAt_ok hzero, hbyte, hnames, hlens,
      bind, Except.bind]
    simp [Cwd.pack, Cwd.depth]

theorem ascend_pack (c : Cwd) :
    c.pack.ascend = .ok (match c.ascend with
      | some c' => (true, c'.pack)
      | none => (false, c.pack)) := by
  obtain ⟨components, hle, hfits⟩ := c
  rcases eq_nil_or_concat' components with rfl | ⟨cs, p, rfl⟩
  · rfl
  · have hlt : cs.length < maxDepth := by
      rw [length_append, length_singleton] at hle
      omega
    have hlast {α : Type} (f : Bytes → α) (empty : α) :
        (table ((cs ++ [p]).map f) empty)[cs.length]? = some (f p) :=
      table_getElem? (by simp)
    have hpop {α : Type} (f : Bytes → α) (empty : α) :
        (table ((cs ++ [p]).map f) empty).set cs.length empty = table (cs.map f) empty := by
      rw [map_append]
      exact table_pop (length_map _).symm hlt
    have hdepth : (cs ++ [p]).length - 1 = cs.length := by simp
    unfold PackedCwd.ascend Cwd.ascend
    rw [if_neg (by simp [Cwd.pack, Cwd.depth]), if_neg (by simp)]
    simp only [Cwd.pack, Cwd.depth, hdepth, elementAt_ok (hlast _ _), hpop, bind, Except.bind,
      dropLast_concat]

theorem walk_pack (c : Cwd) (steps : List Step) :
    c.pack.walk steps = ((c.apply steps).mapError .refused).map Cwd.pack := by
  induction steps generalizing c with
  | nil => rfl
  | cons step steps ih =>
    cases step with
    | up =>
      rw [PackedCwd.walk, Cwd.apply, ascend_pack]
      cases c.ascend with
      | none => rfl
      | some c' => exact ih c'
    | down name =>
      rw [PackedCwd.walk, Cwd.apply]
      split_ifs
      · rfl
      · rw [descend_pack]
        cases c.descend name with
        | none => rfl
        | some c' => exact ih c'

theorem apply_pack (h : c.apply steps = .ok c') : c.pack.apply steps = (.ok (), c'.pack) := by
  rw [PackedCwd.apply, walk_pack, h]
  rfl

theorem apply_pack_error {e : Refused} (h : c.apply steps = .error e) :
    c.pack.apply steps = (.error (.refused e), c.pack) := by
  rw [PackedCwd.apply, walk_pack, h]
  rfl

theorem resolve_pack (c : Cwd) (p : Path) :
    c.pack.resolve p = ((c.resolve p).mapError .refused).map Cwd.pack := by
  have hstart : (if p.fromRoot = true then PackedCwd.root else c.pack) =
      (if p.fromRoot = true then Cwd.root else c).pack := by
    split_ifs <;> rfl
  rw [PackedCwd.resolve, hstart, Cwd.resolve]
  cases h : (if p.fromRoot = true then Cwd.root else c).apply p.steps with
  | error e =>
    rw [apply_pack_error h]
    rfl
  | ok c' =>
    rw [apply_pack h]
    rfl

theorem resolveToken_pack (c : Cwd) (token : Bytes) :
    c.pack.resolveToken token = ((path token >>= c.resolve).mapError .refused).map Cwd.pack := by
  rw [PackedCwd.resolveToken]
  cases path token with
  | error e => rfl
  | ok p => exact resolve_pack c p

/-- The levels of a position that are left carry its components that are left. -/
theorem component_drop {rest : List Bytes} (h : c.components.drop level = name :: rest) :
    c.pack.component level = .ok name ∧ c.components.drop (level + 1) = rest := by
  have hget : c.components[level]? = some name := by
    have := congrArg (fun l => l[0]?) h
    simpa using this
  refine ⟨component_pack hget, ?_⟩
  rw [← drop_drop, h]
  rfl

/-- The loop of `render`, from some level on. -/
theorem foldlM_render (rest : List Bytes) (out : Bytes) (h : c.components.drop level = rest) :
    (range' level rest.length).foldlM (fun out level => do
      let name ← c.pack.component level
      .ok (name.foldl (PackedCwd.put room) (PackedCwd.put room out (chr '/')))) (out.take room) =
    (.ok ((out ++ rest.flatMap (chr '/' :: ·)).take room) : Run Refused Bytes) := by
  induction rest generalizing level out with
  | nil =>
    rw [flatMap_nil, append_nil]
    rfl
  | cons name rest ih =>
    obtain ⟨hname, hrest⟩ := component_drop h
    have hput : name.foldl (PackedCwd.put room) (PackedCwd.put room (out.take room) (chr '/')) =
        (out ++ chr '/' :: name).take room := foldl_put (chr '/' :: name)
    rw [length_cons, range'_succ, foldlM_cons, hname]
    change foldlM _ (foldl _ _ name) _ = _
    rw [hput, ih _ hrest, flatMap_cons, append_assoc]

theorem render_pack (c : Cwd) (room : Nat) : c.pack.render room = .ok (c.render room) := by
  unfold PackedCwd.render Cwd.render
  rw [show c.pack.depth = c.components.length from rfl]
  by_cases hroot : c.components = []
  · have hput : PackedCwd.put room [] (chr '/') = [chr '/'].take room := by
      cases room <;> simp [PackedCwd.put]
    rw [if_pos hroot, if_pos (by rw [hroot]; rfl), hput]
  · rw [if_neg hroot, if_neg (by simpa using hroot), range_eq_range']
    simpa only [take_nil, nil_append] using foldlM_render c.components [] drop_zero

/-- Two positions agree on some levels if these components of theirs are the same. -/
theorem agree_pack (n : Nat) (hc : level + n ≤ c.components.length)
    (hm : level + n ≤ m.components.length) :
    c.pack.agree m.pack (range' level n) =
      .ok (decide ((c.components.drop level).take n = (m.components.drop level).take n)) := by
  induction n generalizing level with
  | zero => rfl
  | succ n ih =>
    have hcl := drop_eq_getElem_cons (show level < c.components.length by omega)
    have hml := drop_eq_getElem_cons (show level < m.components.length by omega)
    rw [range'_succ, PackedCwd.agree, (component_drop hcl).1, (component_drop hml).1, hcl, hml,
      take_succ_cons, take_succ_cons]
    change (if c.components[level] = m.components[level] then _ else _) = _
    split_ifs with hname
    · rw [ih (by omega) (by omega)]
      simp [hname]
    · simp [hname]

theorem follow_pack (rest : List Bytes) (h : c.components.drop level = rest) (pos : Cwd) :
    c.pack.follow pos.pack (range' level rest.length) =
      .ok (rest.foldl (fun place c => (place.descend c).getD place) pos).pack := by
  induction rest generalizing level pos with
  | nil => rfl
  | cons name rest ih =>
    obtain ⟨hname, hrest⟩ := component_drop h
    rw [length_cons, range'_succ, PackedCwd.follow, hname, foldl_cons]
    change (pos.pack.descend name >>= _) = _
    rw [descend_pack]
    cases pos.descend name with
    | none => exact ih hrest pos
    | some next => exact ih hrest next

/-- The mount point's arrays. -/
def Holdings.mountPack (h : Holdings) : Option PackedCwd := h.second.map fun sd => sd.mount.pack

theorem locate_pack (h : Holdings) (c : Cwd) :
    c.pack.locate h.mountPack = .ok ((h.locate c).1, (h.locate c).2.pack) := by
  unfold PackedCwd.locate Holdings.mountPack Holdings.locate
  cases h.second with
  | none => rfl
  | some sd =>
    simp only [Option.map_some]
    rw [show c.pack.depth = c.components.length from rfl,
      show sd.mount.pack.depth = sd.mount.components.length from rfl]
    by_cases hle : sd.mount.components.length ≤ c.components.length
    · have hagree : c.pack.agree sd.mount.pack (range sd.mount.components.length) =
          .ok (decide (sd.mount.components <+: c.components)) := by
        rw [range_eq_range', agree_pack _ (by omega) (by omega)]
        simp [prefix_iff_eq_take, eq_comm]
      rw [if_pos hle, hagree]
      by_cases hpre : sd.mount.components <+: c.components
      · have hfollow := follow_pack (c.components.drop sd.mount.components.length) rfl .root
        rw [length_drop] at hfollow
        simp only [hpre, decide_true, if_true, bind, Except.bind]
        rw [show PackedCwd.root = Cwd.root.pack from rfl, hfollow]
        exact congrArg (fun inside : Cwd => Except.ok (Which.b, inside.pack)) (foldl_descend _ rfl)
      · simp [hpre, bind, Except.bind]
    · have hno : ¬ sd.mount.components <+: c.components := fun hpre => hle hpre.length_le
      rw [if_neg hle, if_neg hno]

theorem place_pack (h : Holdings) (which : Which) (pos : Cwd) :
    pos.pack.place h.mountPack which = .ok (h.place which pos).pack := by
  unfold PackedCwd.place Holdings.mountPack Holdings.place
  cases which with
  | a => rfl
  | b =>
    cases h.second with
    | none => rfl
    | some sd =>
      simp only [Option.map_some]
      rw [show pos.pack.depth = pos.components.length from rfl, range_eq_range']
      exact follow_pack pos.components drop_zero sd.mount

/-! ### The laws of positions, on the arrays -/

/-- **Every position that is reached is packed.** -/
theorem PackedCwd.Reachable.packed {s : PackedCwd} (h : s.Reachable) : ∃ c : Cwd, s = c.pack := by
  induction h with
  | root => exact ⟨.root, rfl⟩
  | @descend s s' name taken _ hdescend ih =>
    obtain ⟨c, rfl⟩ := ih
    rw [descend_pack] at hdescend
    cases hc : c.descend name with
    | none =>
      rw [hc] at hdescend
      exact ⟨c, (congrArg Prod.snd (Except.ok.inj hdescend)).symm⟩
    | some c' =>
      rw [hc] at hdescend
      exact ⟨c', (congrArg Prod.snd (Except.ok.inj hdescend)).symm⟩
  | apply steps _ ih =>
    obtain ⟨c, rfl⟩ := ih
    cases hc : c.apply steps with
    | error e => exact ⟨c, by rw [apply_pack_error hc]⟩
    | ok c' => exact ⟨c', by rw [apply_pack hc]⟩

theorem walk_pack_eq_ok {s : PackedCwd} :
    c.pack.walk steps = .ok s ↔ ∃ c', c.apply steps = .ok c' ∧ s = c'.pack := by
  rw [walk_pack]
  cases c.apply steps with
  | error e => simp [Except.mapError, Except.map]
  | ok c' => simp [Except.mapError, Except.map, eq_comm]

theorem resolveToken_pack_eq_ok {s : PackedCwd} {token : Bytes} :
    c.pack.resolveToken token = .ok s ↔
      ∃ p c', path token = .ok p ∧ c.resolve p = .ok c' ∧ s = c'.pack := by
  rw [resolveToken_pack]
  cases path token with
  | error e => simp [Except.mapError, Except.map, bind, Except.bind]
  | ok p =>
    simp only [bind, Except.bind, Except.ok.injEq, exists_eq_left', exists_and_left]
    cases c.resolve p with
    | error e => simp [Except.mapError, Except.map]
    | ok c' => simp [Except.mapError, Except.map, eq_comm]

/-- **Navigation is a path algebra**, on the arrays of any position that is reached: steps that
cannot all be taken leave it as it is, and nothing panics; a rendered position leads back to itself
from anywhere; a path `p/q` leads where `q` leads from where `p` does, whenever both lead somewhere;
steps that lead somewhere never go above the root; and `place` undoes `locate`. -/
theorem navigation_algebra (s : PackedCwd) (hs : s.Reachable) :
    (∀ steps, (s.apply steps).1 ≠ .error .panic ∧
      ∀ e, (s.apply steps).1 = .error e → (s.apply steps).2 = s) ∧
    (∀ (here : PackedCwd) room, here.Reachable → renderMax ≤ room →
      ∃ text, s.render room = .ok text ∧ here.resolveToken text = .ok s) ∧
    (∀ (p q : Bytes) (s₁ s₂ s₃ : PackedCwd), p.head? ≠ some (chr '/') → q.head? ≠ some (chr '/') →
      s.resolveToken p = .ok s₁ → s₁.resolveToken q = .ok s₂ →
      s.resolveToken (p ++ chr '/' :: q) = .ok s₃ → s₃ = s₂) ∧
    (∀ (steps before : List Step) s', s.walk steps = .ok s' → before <+: steps →
      ∃ there, s.walk before = .ok there ∧
        there.depth + 2 * before.count .up = s.depth + before.length) ∧
    ∀ mount : PackedCwd, mount.Reachable → mount ≠ .root →
      ∃ which pos, s.locate (some mount) = .ok (which, pos) ∧
        pos.place (some mount) which = .ok s := by
  obtain ⟨c, rfl⟩ := hs.packed
  refine ⟨fun steps => ?_, fun here room hhere hroom => ?_, fun p q s₁ s₂ s₃ hp hq h₁ h₂ h₃ => ?_,
    fun steps before s' h hpre => ?_, fun mount hmount hroot => ?_⟩
  · cases hc : c.apply steps with
    | error e =>
      rw [apply_pack_error hc]
      exact ⟨nofun, fun _ _ => rfl⟩
    | ok c' =>
      rw [apply_pack hc]
      exact ⟨nofun, nofun⟩
  · obtain ⟨here, rfl⟩ := hhere.packed
    exact ⟨_, render_pack c room, resolveToken_pack_eq_ok.mpr
      ⟨_, c, path_render hroom, apply_down _ rfl, rfl⟩⟩
  · obtain ⟨ps, c₁, hps, hc₁, rfl⟩ := resolveToken_pack_eq_ok.mp h₁
    obtain ⟨qs, c₂, hqs, hc₂, rfl⟩ := resolveToken_pack_eq_ok.mp h₂
    obtain ⟨rs, c₃, hrs, hc₃, rfl⟩ := resolveToken_pack_eq_ok.mp h₃
    have hrel : ps.fromRoot = false := by
      rw [(path_eq_ok.mp hps).2.2.1]
      simpa using hp
    have hrel' : qs.fromRoot = false := by
      rw [(path_eq_ok.mp hqs).2.2.1]
      simpa using hq
    obtain rfl := path_append hps hqs hrel hrs
    rw [Cwd.resolve, hrel, if_neg Bool.false_ne_true] at hc₁
    rw [Cwd.resolve, hrel', if_neg Bool.false_ne_true] at hc₂
    have hc₃' : c.apply (ps.steps ++ qs.steps) = .ok c₃ := hc₃
    rw [apply_append, hc₁] at hc₃'
    rw [Except.ok.inj (hc₃'.symm.trans hc₂)]
  · obtain ⟨c', hc', -⟩ := walk_pack_eq_ok.mp h
    obtain ⟨after, rfl⟩ := hpre
    rw [apply_append] at hc'
    obtain ⟨there, hthere, -⟩ := Fallible.bind_eq_ok.mp hc'
    exact ⟨there.pack, walk_pack_eq_ok.mpr ⟨there, hthere, rfl⟩, depth_apply hthere⟩
  · obtain ⟨m, rfl⟩ := hmount.packed
    have hmounted : m.components ≠ [] := fun hnil => by
      obtain rfl : m = .root := Cwd.eq_of_components hnil
      exact hroot rfl
    let h : Holdings := ⟨true, some ⟨m, hmounted⟩, .root, ⟨[], Nat.zero_le _⟩⟩
    refine ⟨_, _, locate_pack h c, ?_⟩
    have hplace := place_pack h (h.locate c).1 (h.locate c).2
    rw [h.place_locate] at hplace
    exact hplace

/-- `/sd/logs`, reached past a name that was popped. -/
def inLogs : PackedCwd :=
  (PackedCwd.root.apply [.down (ascii "sd"), .down (ascii "tmp"), .up, .down (ascii "logs")]).2

/-- A second tree at `/sd`. -/
def atSd : PackedCwd := (PackedCwd.root.apply [.down (ascii "sd")]).2

/-- A position below the mount point: its text, and its place. -/
theorem navigation_algebra_logs : inLogs.render renderMax = .ok (ascii "/sd/logs") ∧
    atSd.resolveToken (ascii "/sd/logs") = .ok inLogs ∧
    ∃ which pos, inLogs.locate (some atSd) = .ok (which, pos) ∧
      pos.place (some atSd) which = .ok inLogs := by
  have hlogs : inLogs.Reachable := .apply _ .root
  have hsd : atSd.Reachable := .apply _ .root
  obtain ⟨-, hrender, -, -, hplace⟩ := navigation_algebra inLogs hlogs
  have htext : inLogs.render renderMax = .ok (ascii "/sd/logs") := by decide +kernel
  obtain ⟨text, hshown, hback⟩ := hrender atSd renderMax hsd le_rfl
  obtain rfl : ascii "/sd/logs" = text := Except.ok.inj (htext.symm.trans hshown)
  exact ⟨htext, hback, hplace atSd hsd (by decide +kernel)⟩

end Nife.GrantPlan
