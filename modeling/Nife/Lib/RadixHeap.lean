/-
Trees of tables in a heap.  A heap gives each table, by its address, an entry at each index; an
entry either leads to another table (`next`) or not.  A path of indices is followed from a root
as long as the entries lead on.  The tables form a tree to a depth when no table is reached by
two paths.

What a tree holds is its leaves: the entries at which a walk stops.  Two changes keep a tree a
tree, and the rules say what each does to the leaves.  Writing an entry that leads nowhere
changes the one leaf it is written at (`leaf_write`); hanging a fresh empty table into a slot
that led nowhere changes none (`leaf_link`).  No other entry is affected, because no other path
comes through the table that was written.
-/
import Mathlib.Data.List.Induction

namespace RadixHeap

open Function List Option

variable {φ ι ε : Type*} [DecidableEq φ] [DecidableEq ι] {next : ε → Option φ}

/-! ### Following paths -/

/-- The table that a path of indices leads to from `root`. -/
def follow (next : ε → Option φ) (H : φ → ι → ε) (root : φ) (p : List ι) : Option φ :=
  p.foldlM (fun f i => next (H f i)) root

variable {H : φ → ι → ε} {root f g : φ} {p q : List ι} {i j : ι} {e : ε}

omit [DecidableEq φ] [DecidableEq ι] in
theorem follow_append (p r : List ι) :
    follow next H root (p ++ r) = (follow next H root p).bind fun f => follow next H f r := by
  unfold follow
  rw [foldlM_append]
  rfl

omit [DecidableEq φ] [DecidableEq ι] in
theorem follow_concat (p : List ι) (i : ι) :
    follow next H root (p ++ [i]) = (follow next H root p).bind fun f => next (H f i) := by
  rw [follow_append]
  congr 1
  funext f
  show (next (H f i)).bind some = _
  exact bind_fun_some _

omit [DecidableEq φ] [DecidableEq ι] in
/-- Nothing lies below an entry that leads nowhere. -/
theorem follow_below (hf : follow next H root p = some f) (he : next (H f i) = none)
    (hq : p ++ [i] <+: q) : follow next H root q = none := by
  obtain ⟨r, rfl⟩ := hq
  rw [follow_append, follow_concat, hf, bind_some, he]
  rfl

/-! ### Trees -/

/-- The tables that paths of at most `depth` indices lead to are in use, and no two paths lead
to one table. -/
structure Tree (next : ε → Option φ) (H : φ → ι → ε) (root : φ) (depth : Nat) (used : φ → Prop) :
    Prop where
  used : ∀ p f, p.length ≤ depth → follow next H root p = some f → used f
  unique : ∀ p q f, p.length ≤ depth → q.length ≤ depth → follow next H root p = some f →
    follow next H root q = some f → p = q

/-- One entry is written. -/
def write (H : φ → ι → ε) (f : φ) (i : ι) (e : ε) : φ → ι → ε :=
  update H f (update (H f) i e)

theorem write_apply (H : φ → ι → ε) (f : φ) (i : ι) (e : ε) (g : φ) (j : ι) :
    write H f i e g j = if g = f ∧ j = i then e else H g j := by
  unfold write
  by_cases hg : g = f
  · subst hg
    rw [update_self]
    by_cases hj : j = i
    · subst hj
      simp
    · simp [hj]
  · simp [hg]

variable {depth : Nat} {used : φ → Prop}

/-- **Paths that do not come through the entry written lead where they led.** -/
theorem follow_write (hT : Tree next H root depth used) (hp : p.length ≤ depth)
    (hf : follow next H root p = some f) (hq : q.length ≤ depth) (hnot : ¬ p ++ [i] <+: q) :
    follow next (write H f i e) root q = follow next H root q := by
  induction q using reverseRecOn with
  | nil => rfl
  | append_singleton q j ih =>
    rw [length_append, length_singleton] at hq
    have hnot' : ¬ p ++ [i] <+: q := fun h => hnot (h.trans (prefix_append q [j]))
    rw [follow_concat, follow_concat, ih (by omega) hnot']
    rcases hg : follow next H root q with - | g
    · rfl
    · rw [bind_some, bind_some, write_apply, if_neg]
      rintro ⟨rfl, rfl⟩
      -- the path is the one to the table written
      obtain rfl := hT.unique p q g hp (by omega) hf hg
      exact hnot prefix_rfl

theorem follow_write_self (hT : Tree next H root depth used) (hp : p.length ≤ depth)
    (hf : follow next H root p = some f) : follow next (write H f i e) root p = some f := by
  rw [follow_write hT hp hf hp, hf]
  intro h
  have hle := h.length_le
  rw [length_append, length_singleton] at hle
  omega

/-! ### Leaves -/

/-- The entry at the end of a path, if a walk stops there; `stop` may depend on the depth. -/
def leaf (next : ε → Option φ) (stop : Nat → ε → Bool) (H : φ → ι → ε) (root : φ) (p : List ι)
    (i : ι) : Option ε :=
  (follow next H root p).bind fun f => if stop p.length (H f i) then some (H f i) else none

variable {stop : Nat → ε → Bool}

omit [DecidableEq φ] [DecidableEq ι] in
theorem leaf_eq_some : leaf next stop H root p i = some e ↔
    ∃ f, follow next H root p = some f ∧ H f i = e ∧ stop p.length e = true := by
  unfold leaf
  rw [bind_eq_some_iff]
  refine exists_congr fun f => and_congr_right fun _ => ?_
  split
  · next hs =>
    rw [Option.some.injEq]
    exact ⟨fun h => ⟨h, h ▸ hs⟩, fun h => h.1⟩
  · next hs =>
    refine iff_of_false (by simp) ?_
    rintro ⟨rfl, h⟩
    exact hs h

omit [DecidableEq φ] [DecidableEq ι] in
/-- **A walk stops once**: below a leaf there is no other. -/
theorem leaf_below (hstop : ∀ e, stop p.length e = true → next e = none)
    (h : leaf next stop H root p i = some e) (hq : p ++ [i] <+: q) :
    leaf next stop H root q j = none := by
  obtain ⟨f, hf, rfl, hs⟩ := leaf_eq_some.mp h
  rw [leaf, follow_below hf (hstop _ hs) hq]
  rfl

section

variable (hT : Tree next H root depth used)
include hT

section

variable (hp : p.length ≤ depth) (hf : follow next H root p = some f)
include hp hf

/-- Below an entry that leads nowhere there is nothing. -/
theorem follow_write_below (he : p.length < depth → next e = none)
    (hq : q.length ≤ depth) (hthrough : p ++ [i] <+: q) :
    p.length < depth ∧ follow next (write H f i e) root q = none := by
  have hle := hthrough.length_le
  rw [length_append, length_singleton] at hle
  have hnext : next (write H f i e f i) = none := by
    rw [write_apply, if_pos ⟨rfl, rfl⟩, he (by omega)]
  exact ⟨by omega, follow_below (follow_write_self hT hp hf) hnext hthrough⟩

/-- Writing an entry that leads nowhere, where none led on before, keeps the tree a tree. -/
theorem Tree.write (he : p.length < depth → next e = none) :
    Tree next (write H f i e) root depth used := by
  have hsub : ∀ q g, q.length ≤ depth → follow next (RadixHeap.write H f i e) root q = some g →
      follow next H root q = some g := by
    intro q g hq hg
    by_cases hthrough : p ++ [i] <+: q
    · rw [(follow_write_below hT hp hf he hq hthrough).2] at hg
      cases hg
    · rwa [follow_write hT hp hf hq hthrough] at hg
  exact ⟨fun q g hq hg => hT.used q g hq (hsub q g hq hg),
    fun q q' g hq hq' hg hg' => hT.unique q q' g hq hq' (hsub q g hq hg) (hsub q' g hq' hg')⟩

/-- **One leaf is written**, and no other changes. -/
theorem leaf_write (hold : p.length < depth → next (H f i) = none)
    (he : p.length < depth → next e = none) (hq : q.length ≤ depth) :
    leaf next stop (write H f i e) root q j
      = if q = p ∧ j = i then (if stop p.length e then some e else none)
        else leaf next stop H root q j := by
  by_cases hself : q = p ∧ j = i
  · obtain ⟨rfl, rfl⟩ := hself
    have hwritten : write H f j e f j = e := by rw [write_apply, if_pos ⟨rfl, rfl⟩]
    rw [if_pos (show q = q ∧ j = j from ⟨rfl, rfl⟩), leaf, follow_write_self hT hp hf,
      bind_some, hwritten]
  · rw [if_neg hself]
    by_cases hthrough : p ++ [i] <+: q
    · -- below the entry there was nothing, and there is nothing
      obtain ⟨hlt, hnone⟩ := follow_write_below hT hp hf he hq hthrough
      rw [leaf, leaf, follow_below hf (hold hlt) hthrough, hnone]
      rfl
    · rw [leaf, leaf, follow_write hT hp hf hq hthrough]
      rcases hg : follow next H root q with - | g
      · rfl
      · have hne : ¬ (g = f ∧ j = i) := by
          rintro ⟨rfl, rfl⟩
          exact hself ⟨hT.unique q p g hq hp hg hf, rfl⟩
        rw [bind_some, bind_some, write_apply, if_neg hne]

end

/-! ### A new table -/

omit [DecidableEq ι] in
theorem follow_update {new : φ} (hnew : ¬ used new) (t : ι → ε) (hq : q.length ≤ depth) :
    follow next (update H new t) root q = follow next H root q := by
  induction q using reverseRecOn with
  | nil => rfl
  | append_singleton q j ih =>
    rw [length_append, length_singleton] at hq
    rw [follow_concat, follow_concat, ih (by omega)]
    rcases hg : follow next H root q with - | g
    · rfl
    · have hne : g ≠ new := by
        rintro rfl
        exact hnew (hT.used q g (by omega) hg)
      rw [bind_some, bind_some, update_of_ne hne]

omit [DecidableEq ι] in
theorem Tree.update {new : φ} (hnew : ¬ used new)
    (t : ι → ε) : Tree next (update H new t) root depth used := by
  refine ⟨fun q g hq hg => ?_, fun q q' g hq hq' hg hg' => ?_⟩
  · rw [follow_update hT hnew t hq] at hg
    exact hT.used q g hq hg
  · rw [follow_update hT hnew t hq] at hg
    rw [follow_update hT hnew t hq'] at hg'
    exact hT.unique q q' g hq hq' hg hg'

end

/-- A table `new`, empty, is hung into a slot. -/
def link (H : φ → ι → ε) (f : φ) (i : ι) (e z : ε) (new : φ) : φ → ι → ε :=
  write (update H new fun _ => z) f i e

section Link

variable {z : ε} {new : φ} (hT : Tree next H root depth used) (hnew : ¬ used new)
  (hp : p.length < depth) (hf : follow next H root p = some f) (hold : next (H f i) = none)
  (he : next e = some new) (hz : next z = none)

include hT hnew hp hf

theorem follow_link_of_not (hq : q.length ≤ depth) (hnot : ¬ p ++ [i] <+: q) :
    follow next (link H f i e z new) root q = follow next H root q := by
  have hf' := (follow_update hT hnew (fun _ => z) (Nat.le_of_lt hp)).trans hf
  rw [link, follow_write (hT.update hnew _) (Nat.le_of_lt hp) hf' hq hnot,
    follow_update hT hnew _ hq]

include he

theorem follow_link_self : follow next (link H f i e z new) root (p ++ [i]) = some new := by
  have hf' := (follow_update hT hnew (fun _ => z) (Nat.le_of_lt hp)).trans hf
  rw [link, follow_concat, follow_write_self (hT.update hnew _) (Nat.le_of_lt hp) hf',
    bind_some, write_apply, if_pos ⟨rfl, rfl⟩, he]

omit he in
theorem link_new (j : ι) : link H f i e z new new j = z := by
  have hne : new ≠ f := by
    rintro rfl
    exact hnew (hT.used p new (Nat.le_of_lt hp) hf)
  rw [link, write_apply, if_neg (fun h => hne h.1), update_self]

include hz

theorem follow_link_below (hthrough : p ++ [i] <+: q) (hne : q ≠ p ++ [i]) :
    follow next (link H f i e z new) root q = none := by
  obtain ⟨r, rfl⟩ := hthrough
  rcases r with - | ⟨j, r⟩
  · exact absurd (append_nil _) hne
  · refine follow_below (i := j) (follow_link_self hT hnew hp hf he) ?_ ⟨r, by simp⟩
    rw [link_new hT hnew hp hf, hz]

theorem Tree.link : Tree next (link H f i e z new) root depth fun g => used g ∨ g = new := by
  have hcases : ∀ q g, q.length ≤ depth → follow next (RadixHeap.link H f i e z new) root q = some g →
      (q = p ++ [i] ∧ g = new) ∨ (follow next H root q = some g ∧ used g) := by
    intro q g hq hg
    by_cases hthrough : p ++ [i] <+: q
    · by_cases hself : q = p ++ [i]
      · rw [hself, follow_link_self hT hnew hp hf he, Option.some.injEq] at hg
        exact .inl ⟨hself, hg.symm⟩
      · rw [follow_link_below hT hnew hp hf he hz hthrough hself] at hg
        cases hg
    · rw [follow_link_of_not hT hnew hp hf hq hthrough] at hg
      exact .inr ⟨hg, hT.used q g hq hg⟩
  refine ⟨fun q g hq hg => ?_, fun q q' g hq hq' hg hg' => ?_⟩
  · rcases hcases q g hq hg with ⟨-, rfl⟩ | ⟨-, hu⟩
    · exact .inr rfl
    · exact .inl hu
  · rcases hcases q g hq hg with ⟨rfl, rfl⟩ | ⟨hg, hu⟩ <;>
      rcases hcases q' _ hq' hg' with ⟨rfl, hn⟩ | ⟨hg', hu'⟩
    · rfl
    · exact absurd hu' hnew
    · exact absurd (hn ▸ hu) hnew
    · exact hT.unique q q' g hq hq' hg hg'

include hold

/-- **A new table changes no leaf.** -/
theorem leaf_link (hse : stop p.length e = false) (hsold : stop p.length (H f i) = false)
    (hsz : ∀ d, stop d z = false) (hq : q.length ≤ depth) :
    leaf next stop (RadixHeap.link H f i e z new) root q j = leaf next stop H root q j := by
  by_cases hthrough : p ++ [i] <+: q
  · -- nothing was below the slot, and the table there is empty
    have hbefore : leaf next stop H root q j = none := by
      rw [leaf, follow_below hf hold hthrough]
      rfl
    rw [hbefore]
    by_cases hself : q = p ++ [i]
    · rw [hself, leaf, follow_link_self hT hnew hp hf he, bind_some,
        link_new hT hnew hp hf, hsz, if_neg (by simp)]
    · rw [leaf, follow_link_below hT hnew hp hf he hz hthrough hself]
      rfl
  · rw [leaf, leaf, follow_link_of_not hT hnew hp hf hq hthrough]
    rcases hg : follow next H root q with - | g
    · rfl
    · have hne : g ≠ new := by
        rintro rfl
        exact hnew (hT.used q g hq hg)
      rw [bind_some, bind_some, RadixHeap.link, write_apply]
      by_cases hslot : g = f ∧ j = i
      · -- the slot itself leads on now, and was no leaf before
        obtain ⟨rfl, rfl⟩ := hslot
        obtain rfl := hT.unique q p g hq (Nat.le_of_lt hp) hg hf
        simp [hse, hsold]
      · rw [if_neg hslot, update_of_ne hne]

end Link

end RadixHeap
