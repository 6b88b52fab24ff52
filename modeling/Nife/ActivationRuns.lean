/-
Runs of edits on an activation set, each applied to the text the one before wrote.

The rows and pointers of a generation are seen one program at a time: its package rows, its
vouches and its pointers.  An edit changes the lists of its own program only, so what holds of
every program is kept by looking at one (`Tidy`).  Beside the text stands `newest`, the digest
that was installed last for each program, until its row is removed.

Main result: `generations_wellFormed`, that every generation of a run is readable, has one pointer
for each program with a package row, and resolves a bare name to the newest install.
-/
import Nife.ActivationEdits
import Nife.Lib.Transition
import Mathlib.Data.List.Nodup

namespace Nife.Activation

open List Option Bool Function Activation Rows

variable {table : Text} {e : Entry} {rows : List Entry} {ptrs : List Pointer} {p q : Text}

/-! ### One program at a time -/

def packageRows (p : Text) (rows : List Entry) : List Entry := rows.filter (removedHere p)

/-- The rows of a program that the owner vouched for. -/
def vouchRows (p : Text) (rows : List Entry) : List Entry :=
  rows.filter fun x => x.program == p && x.package == owner

/-- The pointers of a program. -/
def pointersOf (p : Text) (ptrs : List Pointer) : List Pointer :=
  ptrs.filter fun x => x.program == p

/-- The rows and pointers of one program are in order. -/
structure Tidy (p : Text) (rows : List Entry) (ptrs : List Pointer) : Prop where
  pointed : packageRows p rows ≠ [] →
    ∃ x ∈ packageRows p rows, pointersOf p ptrs = [⟨p, x.digest⟩]
  unpointed : packageRows p rows = [] → pointersOf p ptrs = []
  distinct : ((packageRows p rows).map Entry.digest).Nodup
  package : ∀ x ∈ packageRows p rows, ∀ y ∈ packageRows p rows, x.package = y.package
  vouch : (vouchRows p rows).length ≤ 1

theorem Tidy.congr {rows' : List Entry} {ptrs' : List Pointer} (h : Tidy p rows ptrs)
    (hrows : packageRows p rows' = packageRows p rows)
    (hptrs : pointersOf p ptrs' = pointersOf p ptrs)
    (hvouch : (vouchRows p rows').length ≤ 1) : Tidy p rows' ptrs' := by
  obtain ⟨h₁, h₂, h₃, h₄, -⟩ := h
  rw [← hrows, ← hptrs] at h₁ h₂
  rw [← hrows] at h₃ h₄
  exact ⟨h₁, h₂, h₃, h₄, hvouch⟩

variable {x : Entry} {α : Type} {l : List α} {text : Text} {f : α → Bool} {room : Nat}

theorem mem_packageRows :
    x ∈ packageRows p rows ↔ x ∈ rows ∧ x.program = p ∧ x.package ≠ owner := by
  rw [packageRows, mem_filter, removedHere, and_eq_true, beq_iff_eq, bne_iff_ne]

theorem mem_vouchRows : x ∈ vouchRows p rows ↔ x ∈ rows ∧ x.program = p ∧ x.package = owner := by
  rw [vouchRows, mem_filter, and_eq_true, beq_iff_eq, beq_iff_eq]

/-! ### Installs -/

theorem replacedHere_iff {vouch : Bool} (hv : (e.package == owner) = vouch) :
    replacedHere vouch e x = true ↔ x.program = e.program ∧ (x.package = owner ↔ e.package = owner) ∧
      (e.package ≠ owner → x.digest = e.digest) := by
  subst hv
  unfold replacedHere
  by_cases he : e.package = owner <;> by_cases hx : x.package = owner <;> simp [he, hx]

variable {a : α} {P : α → Bool} {movePointer : Bool} {survivor : Option Entry} {d : Digest}
  {program : Text}

/-- A view that tells rows apart by program and kind sees an install as one on what it sees. -/
theorem filter_installRows (P : Entry → Bool)
    (hP : ∀ x, replacedHere (e.package == owner) e x = true → P x = P e) :
    (installRows e rows).filter P =
      if P e then installRows e (rows.filter P) else rows.filter P := by
  have hsame : ∀ x, P (if replacedHere (e.package == owner) e x then e else x) = P x := by
    intro x
    split
    case isTrue hx => exact (hP x hx).symm
    case isFalse => rfl
  rw [installRows, List.filter_append, List.filter_map]
  simp only [comp_def, hsame]
  cases he : P e with
  | true =>
    have hany : (rows.filter P).any (replacedHere (e.package == owner) e) =
        rows.any (replacedHere (e.package == owner) e) := by
      rw [List.any_filter]
      refine any_congr rfl fun x => ?_
      cases hx : replacedHere (e.package == owner) e x with
      | false => simp
      | true => simp [hP x hx, he]
    rw [installRows, hany]
    congr 1
    cases rows.any (replacedHere (e.package == owner) e) <;> simp [he]
  | false =>
    rw [map_replace_of_not]
    · cases rows.any (replacedHere (e.package == owner) e) <;> simp [he]
    · intro x hx hhere
      have hPx := (mem_filter.mp hx).2
      rw [hP x hhere, he] at hPx
      cases hPx

theorem packageRows_installRows (p : Text) : packageRows p (installRows e rows) =
    if removedHere p e then installRows e (packageRows p rows) else packageRows p rows := by
  refine filter_installRows _ fun x hx => ?_
  obtain ⟨hprogram, hkind, -⟩ := (replacedHere_iff rfl).mp hx
  unfold removedHere
  rw [hprogram]
  by_cases he : e.package = owner
  · rw [he, hkind.mpr he]
  · rw [bne_iff_ne.mpr he, bne_iff_ne.mpr fun hx => he (hkind.mp hx)]

theorem vouchRows_installRows (p : Text) : vouchRows p (installRows e rows) =
    if e.program == p && e.package == owner then installRows e (vouchRows p rows)
    else vouchRows p rows := by
  refine filter_installRows _ fun x hx => ?_
  obtain ⟨hprogram, hkind, -⟩ := (replacedHere_iff rfl).mp hx
  rw [hprogram]
  by_cases he : e.package = owner
  · rw [he, hkind.mpr he]
  · rw [beq_eq_false_iff_ne.mpr he, beq_eq_false_iff_ne.mpr fun hx => he (hkind.mp hx)]

theorem movedHere_iff {x : Pointer} :
    movedHere e x = true ↔ e.package ≠ owner ∧ x.program = e.program := by
  unfold movedHere
  simp

theorem pointersOf_installPointers (p : Text) : pointersOf p (installPointers e ptrs) =
    (pointersOf p ptrs).map (fun x => if movedHere e x then ⟨e.program, e.digest⟩ else x) ++
      pointersOf p (if !(e.package == owner) && !ptrs.any (movedHere e) then
        [⟨e.program, e.digest⟩] else []) := by
  have hsame : ∀ x : Pointer, ((if movedHere e x then ⟨e.program, e.digest⟩ else x).program == p) =
      (x.program == p) := by
    intro x
    split
    case isTrue hx => rw [(movedHere_iff.mp hx).2]
    case isFalse => rfl
  rw [pointersOf, installPointers, List.filter_append, List.filter_map]
  simp only [comp_def, hsame]
  rfl

theorem pointersOf_install_other (hp : e.package = owner ∨ e.program ≠ p) :
    pointersOf p (installPointers e ptrs) = pointersOf p ptrs := by
  rw [pointersOf_installPointers, map_replace_of_not]
  · rcases hp with hp | hp
    · simp [hp, pointersOf]
    · split <;> simp [hp, pointersOf]
  · intro x hx hhere
    obtain ⟨hpackage, hprogram⟩ := movedHere_iff.mp hhere
    have hxp := beq_iff_eq.mp (mem_filter.mp hx).2
    rcases hp with hp | hp
    · exact hpackage hp
    · exact hp (hprogram.symm.trans hxp)

theorem pointersOf_install_self (he : e.package ≠ owner)
    (hone : (pointersOf e.program ptrs).length ≤ 1) :
    pointersOf e.program (installPointers e ptrs) = [⟨e.program, e.digest⟩] := by
  have hmoved : movedHere e = fun x => x.program == e.program := by
    funext x
    unfold movedHere
    simp [he]
  have hmap : (pointersOf e.program ptrs).map (fun x =>
    if movedHere e x then ⟨e.program, e.digest⟩ else x) =
      (pointersOf e.program ptrs).map fun _ => ⟨e.program, e.digest⟩ := by
    refine map_congr_left fun x hx => if_pos ?_
    rw [hmoved]
    exact (mem_filter.mp hx).2
  have hany : ptrs.any (movedHere e) = !(pointersOf e.program ptrs).isEmpty := by
    rw [hmoved, pointersOf, Bool.eq_iff_iff]
    simp
  rw [pointersOf_installPointers, hmap, hany]
  match pointersOf e.program ptrs, hone with
  | [], _ => simp [he, pointersOf]
  | [x], _ => simp [pointersOf]

theorem map_digest_installRows (he : e.package ≠ owner) : (installRows e rows).map Entry.digest =
    rows.map Entry.digest ++
      if rows.any (replacedHere (e.package == owner) e) then [] else [e.digest] := by
  have hsame : rows.map (Entry.digest ∘ fun x =>
    if replacedHere (e.package == owner) e x then e else x) = rows.map Entry.digest := by
    refine List.map_congr_left fun x _ => ?_
    simp only [comp_apply]
    split
    case isTrue hx => exact (((replacedHere_iff rfl).mp hx).2.2 he).symm
    case isFalse => rfl
  rw [installRows, List.map_append, List.map_map, hsame]
  congr 1
  split <;> rfl

section

variable (h : Tidy p rows ptrs)
include h

theorem length_pointersOf_le : (pointersOf p ptrs).length ≤ 1 := by
  by_cases hrows : packageRows p rows = []
  · rw [h.unpointed hrows]
    exact Nat.zero_le _
  · obtain ⟨x, -, hx⟩ := h.pointed hrows
    rw [hx]
    exact le_rfl

/-- **An install of a package keeps every program in order.** -/
theorem Tidy.install (he : e.package ≠ owner)
    (htaken : ∀ x ∈ rows, takenBy (e.package == owner) e x = false) :
    Tidy p (installRows e rows) (installPointers e ptrs) := by
  have hvouch : (vouchRows p (installRows e rows)).length ≤ 1 := by
    rw [vouchRows_installRows, if_neg (by simp [he])]
    exact h.vouch
  by_cases hp : e.program = p
  case neg =>
    refine h.congr ?_ (pointersOf_install_other (.inr hp)) hvouch
    rw [packageRows_installRows, if_neg (by simp [removedHere, hp])]
  case pos =>
    subst hp
    have hrows : packageRows e.program (installRows e rows) =
        installRows e (packageRows e.program rows) := by
      rw [packageRows_installRows, if_pos (by simp [removedHere, he])]
    have hpackage : ∀ x ∈ packageRows e.program rows, x.package = e.package := by
      intro x hx
      obtain ⟨hmem, hprogram, hx⟩ := mem_packageRows.mp hx
      have := htaken x hmem
      unfold takenBy at this
      simpa [he, hprogram, hx] using this
    refine ⟨fun _ => ⟨e, ?_, ?_⟩, fun hnil => ?_, ?_, ?_, hvouch⟩
    · rw [hrows]
      exact self_mem_installRows e _
    · exact pointersOf_install_self he (length_pointersOf_le h)
    · rw [hrows] at hnil
      exact absurd (hnil ▸ self_mem_installRows e _) not_mem_nil
    · rw [hrows, map_digest_installRows he]
      cases hany : (packageRows e.program rows).any (replacedHere (e.package == owner) e) with
      | true => simpa using h.distinct
      | false =>
        rw [List.nodup_append]
        refine ⟨h.distinct, nodup_singleton _, fun d hd d' hd' => ?_⟩
        rw [mem_singleton.mp hd']
        rintro rfl
        obtain ⟨x, hx, hdigest⟩ := mem_map.mp hd
        obtain ⟨-, hprogram, hxp⟩ := mem_packageRows.mp hx
        have hhere : replacedHere (e.package == owner) e x = true :=
          (replacedHere_iff rfl).mpr ⟨hprogram, by simp [he, hxp], fun _ => hdigest⟩
        rw [List.any_eq_false] at hany
        exact hany x hx hhere
    · have hall : ∀ x ∈ packageRows e.program (installRows e rows), x.package = e.package := by
        intro x hx
        rw [hrows] at hx
        rcases mem_installRows hx with rfl | hx
        · rfl
        · exact hpackage x hx
      intro x hx y hy
      rw [hall x hx, hall y hy]

/-- A vouch keeps every program in order: it replaces the one of its name, and moves nothing. -/
theorem Tidy.vouched (he : e.package = owner) :
    Tidy p (installRows e rows) (installPointers e ptrs) := by
  have hrows : packageRows p (installRows e rows) = packageRows p rows := by
    rw [packageRows_installRows, if_neg (by simp [removedHere, he])]
  refine h.congr hrows (pointersOf_install_other (.inl he)) ?_
  by_cases hp : e.program = p
  case neg =>
    rw [vouchRows_installRows, if_neg (by simp [hp])]
    exact h.vouch
  case pos =>
    rw [vouchRows_installRows, if_pos (by simp [hp, he]), installRows, length_append]
    cases hany : (vouchRows p rows).any (replacedHere (e.package == owner) e) with
    | true => simpa using h.vouch
    | false =>
      -- every vouch of the name would be replaced, so there is none
      have hnil : vouchRows p rows = [] := by
        refine eq_nil_iff_forall_not_mem.mpr fun x hx => ?_
        obtain ⟨-, hprogram, hxp⟩ := mem_vouchRows.mp hx
        rw [List.any_eq_false] at hany
        refine hany x hx ((replacedHere_iff rfl).mpr ⟨hprogram.trans hp.symm, ?_, ?_⟩)
        · simp [he, hxp]
        · exact fun hne => absurd he hne
      simp [hnil]

/-! ### Removals -/

/-- A removal leaves the program nothing but its vouches, and every other program as it was. -/
theorem Tidy.remove (q : Text) :
    Tidy p (rows.filter fun x => !removedHere q x) (ptrs.filter fun x => x.program != q) := by
  have hvouch : (vouchRows p (rows.filter fun x => !removedHere q x)).length ≤ 1 := by
    refine (List.Sublist.length_le ?_).trans h.vouch
    exact filter_sublist.filter _
  by_cases hp : p = q
  · subst hp
    have hrows : packageRows p (rows.filter fun x => !removedHere p x) = [] := by
      rw [packageRows, List.filter_filter, List.filter_eq_nil_iff]
      intro x _
      simp
    have hptrs : pointersOf p (ptrs.filter fun x => x.program != p) = [] := by
      rw [pointersOf, List.filter_filter, List.filter_eq_nil_iff]
      intro x _
      simp
    refine ⟨fun hne => absurd hrows hne, fun _ => hptrs, ?_, ?_, hvouch⟩
    · rw [hrows]
      exact nodup_nil
    · rw [hrows]
      exact nofun
  · refine h.congr ?_ ?_ hvouch
    · rw [packageRows, List.filter_filter]
      refine filter_congr fun x _ => ?_
      unfold removedHere
      by_cases hx : x.program = p <;> simp [hx, hp]
    · rw [pointersOf, List.filter_filter]
      refine filter_congr fun x _ => ?_
      by_cases hx : x.program = p <;> simp [hx, hp]

end

/-! ### The removal of a version -/

variable {version : Text}

theorem decision_eq : decision p version rows =
    (packageRows p rows).foldl (decideRow p version) ⟨none, none, true⟩ := by
  rw [decision, packageRows, foldl_filter]
  congr 1
  funext s x
  unfold decideRow removedHere
  by_cases hp : x.program = p <;> by_cases hx : x.package = owner <;> simp [hp, hx]

/-- The target is the first row at the version, the survivor the first of the others. -/
theorem foldl_decideRow (version : Text) (s : Decision)
    (hrows : ∀ x ∈ rows, removedHere p x = true) :
    (rows.foldl (decideRow p version) s).target =
      s.target.or (rows.find? fun x => x.version == version) ∧
    (rows.foldl (decideRow p version) s).survivor = s.survivor.or (if s.target.isSome then rows else
        rows.eraseP fun x => x.version == version).head? := by
  induction rows generalizing s with
  | nil => simp
  | cons x rows ih =>
    have hx := hrows x mem_cons_self
    have hskip : (x.program != p || x.package == owner) = false := by
      unfold removedHere at hx
      simp only [and_eq_true, beq_iff_eq, bne_iff_ne] at hx
      simp [hx.1, hx.2]
    obtain ⟨htarget, hsurvivor⟩ := ih (s := decideRow p version s x)
      fun y hy => hrows y (mem_cons_of_mem x hy)
    rw [foldl_cons, htarget, hsurvivor]
    unfold decideRow
    simp only [hskip, false_eq_true, if_false]
    obtain ⟨target, survivor, uniform⟩ := s
    by_cases hv : x.version = version <;> cases target <;> cases survivor <;> simp [hv]

theorem pointersOf_repointed : pointersOf p (repointed q movePointer survivor ptrs) =
      repointed q movePointer survivor (pointersOf p ptrs) := by
  induction ptrs with
  | nil => rfl
  | cons x ptrs ih =>
    have hcons : pointersOf p (repointed q movePointer survivor (x :: ptrs)) =
        pointersOf p (repointed q movePointer survivor [x]) ++
          repointed q movePointer survivor (pointersOf p ptrs) := by
      rw [← ih, pointersOf, pointersOf, pointersOf, ← filter_append, repointed, repointed,
        flatMap_singleton]
      rfl
    rw [hcons, repointed, flatMap_singleton, pointersOf, pointersOf, pointersOf]
    cases hmove : x.program == q && movePointer with
    | true =>
      have hx : x.program = q := beq_iff_eq.mp (and_eq_true_iff.mp hmove).1
      by_cases hp : q = p
      · cases survivor <;> simp [hx, hp, repointed, (and_eq_true_iff.mp hmove).2]
      · cases survivor <;> simp [hx, hp]
    | false =>
      by_cases hp : x.program = p
      · have hstays : ¬(p = q ∧ movePointer = true) := by simpa [hp] using hmove
        simp [hp, repointed, hstays]
      · simp [hp]

theorem repointed_of_ne (h : ∀ x ∈ ptrs, (x.program == q && movePointer) = false) :
    repointed q movePointer survivor ptrs = ptrs := by
  induction ptrs with
  | nil => rfl
  | cons x ptrs ih =>
    rw [repointed, flatMap_cons, ← repointed,
      ih fun y hy => h y (mem_cons_of_mem x hy), h x mem_cons_self]
    rfl

/-- Vouches carry no version and package rows do. -/
def Versioned (rows : List Entry) : Prop := ∀ x ∈ rows, x.package = owner ↔ x.version = noVersion

/-- The rows of a generation and the row to remove from it. -/
structure Removal (p version : Text) (rows : List Entry) (target : Entry) : Prop where
  versioned : Versioned rows
  find : (packageRows p rows).find? (fun x => x.version == version) = some target

variable {target : Entry}

section

variable (h : Removal q version rows target)
include h

theorem Removal.mem : target ∈ packageRows q rows :=
  mem_of_find?_eq_some h.find

/-- Only a package row of the program can be taken for the target: a vouch has another version. -/
theorem Removal.of_sameRow (hx : x ∈ rows)
    (hsame : sameRow target x = true) : x ∈ packageRows q rows ∧ x.version = target.version ∧
      x.digest = target.digest := by
  obtain ⟨hmem, hprogram, hpackage⟩ := mem_packageRows.mp h.mem
  simp only [sameRow, and_eq_true, beq_iff_eq] at hsame
  refine ⟨mem_packageRows.mpr ⟨hx, hsame.1.1.trans hprogram, fun howner => ?_⟩, hsame.1.2, hsame.2⟩
  have hversion := (h.versioned x hx).mp howner
  rw [hsame.1.2, ← h.versioned target hmem] at hversion
  exact hpackage hversion

theorem Removal.packageRows : packageRows q (rows.eraseP (sameRow target)) =
      (packageRows q rows).eraseP fun x => x.version == version := by
  have hversion : target.version = version := by
    simpa using find?_some h.find
  rw [Activation.packageRows, filter_eraseP_of_imp fun x hx hsame => ?_]
  · refine eraseP_congr h.find ?_ fun x hx hsame => ?_
    · simp [sameRow]
    · have hx := (h.of_sameRow (mem_filter.mp hx).1 hsame).2.1
      simp [hx, hversion]
  · exact (mem_filter.mp (h.of_sameRow hx hsame).1).2

theorem Removal.packageRows_other (hp : p ≠ q) :
    Activation.packageRows p (rows.eraseP (sameRow target)) = Activation.packageRows p rows := by
  refine filter_eraseP_of_not fun x hx hsame => ?_
  have hprogram := (mem_packageRows.mp (h.of_sameRow hx hsame).1).2.1
  unfold removedHere
  simp [hprogram, Ne.symm hp]

theorem Removal.digest_ne (hdistinct : ((Activation.packageRows q rows).map Entry.digest).Nodup)
    (hx : x ∈ Activation.packageRows q (rows.eraseP (sameRow target))) :
    x.digest ≠ target.digest := by
  obtain ⟨hversion, as, bs, hsplit, has⟩ := find?_eq_some_iff_append.mp h.find
  have herase : (as ++ target :: bs).eraseP (fun x => x.version == version) = as ++ bs := by
    rw [eraseP_append_right _ fun a ha => by simpa using has a ha]
    simp [hversion]
  rw [h.packageRows, hsplit, herase] at hx
  rw [hsplit, map_append, map_cons, nodup_middle, nodup_cons] at hdistinct
  intro hd
  exact hdistinct.1 (by rw [← hd, ← map_append]; exact mem_map_of_mem hx)

end

/-- **The removal of a version keeps every program in order**: its pointer moves to the survivor
when it named the removed row, and goes with the last one. -/
theorem Tidy.removeVersion (h : Tidy p rows ptrs)
    (hr : Removal q version rows target) {pointed : Option Digest}
    (hpointed : pointed = (pointersOf q ptrs).head?.map Pointer.digest) :
    Tidy p (rows.eraseP (sameRow target)) (repointed q (pointed == some target.digest)
      ((packageRows q rows).eraseP fun x => x.version == version).head? ptrs) := by
  have hvouch : (vouchRows p (rows.eraseP (sameRow target))).length ≤ 1 :=
    (eraseP_sublist.filter _).length_le.trans h.vouch
  by_cases hp : p = q
  case neg =>
    refine h.congr (hr.packageRows_other hp) ?_ hvouch
    rw [pointersOf_repointed, repointed_of_ne fun x hx => ?_]
    have hprogram : x.program = p := by simpa using (mem_filter.mp hx).2
    simp [hprogram, hp]
  case pos =>
    subst hp
    obtain ⟨x, hx, hptrs⟩ := h.pointed (ne_nil_of_mem hr.mem)
    rw [hptrs] at hpointed
    have hsub : List.Sublist (packageRows p (rows.eraseP (sameRow target))) (packageRows p rows) :=
      eraseP_sublist.filter _
    have hkept : pointersOf p (repointed p (pointed == some target.digest)
        ((packageRows p rows).eraseP fun x => x.version == version).head? ptrs) =
        if x.digest = target.digest then
          ((packageRows p rows).eraseP fun x => x.version == version).head?.toList.map
            fun e => ⟨p, e.digest⟩
        else [⟨p, x.digest⟩] := by
      rw [pointersOf_repointed, hptrs, hpointed]
      by_cases hd : x.digest = target.digest <;> simp [repointed]
    refine ⟨fun hne => ?_, fun hnil => ?_, ?_, ?_, hvouch⟩
    · rw [hkept]
      by_cases hd : x.digest = target.digest
      · rw [hr.packageRows] at hne ⊢
        obtain ⟨y, ys, hys⟩ := exists_cons_of_ne_nil hne
        refine ⟨y, by rw [hys]; exact mem_cons_self, ?_⟩
        rw [if_pos hd, hys]
        rfl
      · refine ⟨x, ?_, by rw [if_neg hd]⟩
        obtain ⟨hmem, hprogram, hpackage⟩ := mem_packageRows.mp hx
        refine mem_packageRows.mpr ⟨(mem_eraseP_of_neg ?_).mpr hmem, hprogram, hpackage⟩
        exact fun hsame => hd (hr.of_sameRow hmem hsame).2.2
    · rw [hkept]
      have hd : x.digest = target.digest := by
        by_contra hd
        obtain ⟨hmem, hprogram, hpackage⟩ := mem_packageRows.mp hx
        have hstays : x ∈ packageRows p (rows.eraseP (sameRow target)) :=
          mem_packageRows.mpr ⟨(mem_eraseP_of_neg fun hsame =>
            hd (hr.of_sameRow hmem hsame).2.2).mpr hmem, hprogram, hpackage⟩
        rw [hnil] at hstays
        cases hstays
      rw [hr.packageRows] at hnil
      rw [if_pos hd, hnil]
      rfl
    · exact h.distinct.sublist (hsub.map _)
    · exact fun y hy z hz => h.package y (hsub.subset hy) z (hsub.subset hz)

/-! ### Lookups -/

theorem Reads.defaultOf (hr : Reads table rows ptrs) (hone : (pointersOf p ptrs).length ≤ 1) :
    Activation.defaultOf table p = .ok ((pointersOf p ptrs).head?.map Pointer.digest) := by
  have hfold : ptrs.foldl (fun (s : Option Digest × Nat) x =>
    if x.program = p then (some x.digest, s.2 + 1) else s) (none, 0) =
      (pointersOf p ptrs).foldl (fun s x => (some x.digest, s.2 + 1)) (none, 0) := by
    rw [pointersOf, foldl_filter]
    simp
  rw [Activation.defaultOf, hr.defaults, forEach_pure, hfold]
  match pointersOf p ptrs, hone with
  | [], _ | [_], _ => rfl

theorem firstRow_ok (f : Entry → Bool) : firstRow f (rows.map .ok) = .ok (rows.find? f) := by
  induction rows with
  | nil => rfl
  | cons x rows ih =>
    rw [map_cons, find?_cons]
    change (if f x then _ else _) = _
    cases f x with
    | true => rfl
    | false =>
      rw [if_neg Bool.false_ne_true, ih]

theorem Reads.lookup_pointed (hr : Reads table rows ptrs) (hx : x ∈ packageRows p rows)
    (hptr : pointersOf p ptrs = [⟨p, x.digest⟩]) :
    ∃ y ∈ packageRows p rows, y.digest = x.digest ∧ lookup table p = .ok (some y) := by
  have hdefault : Activation.defaultOf table p = .ok (some x.digest) := by
    rw [hr.defaultOf (by rw [hptr]; exact le_rfl), hptr]
    rfl
  obtain ⟨hmem, hprogram, hpackage⟩ := mem_packageRows.mp hx
  cases hfind : rows.find? (fun e => e.program = p && e.package != owner && e.digest = x.digest) with
  | none =>
    have hnone := find?_eq_none.mp hfind x hmem
    simp [hprogram, hpackage] at hnone
  | some y =>
    have hy := find?_some hfind
    simp only [and_eq_true, decide_eq_true_eq, bne_iff_ne] at hy
    refine ⟨y, mem_packageRows.mpr ⟨mem_of_find?_eq_some hfind, hy.1.1, hy.1.2⟩, hy.2, ?_⟩
    rw [lookup, hdefault]
    change (firstRow _ (Activation.entries table) >>= _) = _
    rw [hr.entries, firstRow_ok, hfind]
    rfl

theorem Reads.lookup_unpointed (hr : Reads table rows ptrs) (hptr : pointersOf p ptrs = []) :
    lookup table p = .ok none := by
  have hdefault : Activation.defaultOf table p = .ok none := by
    rw [hr.defaultOf (by rw [hptr]; exact Nat.zero_le _), hptr]
    rfl
  rw [lookup, hdefault]
  rfl

/-! ### Runs of edits -/

/-- Does the text have a package row of the program with this digest? -/
def hasRow (text p : Text) (d : Digest) : Bool :=
  (entries text).any fun x => match x with
    | .ok e => removedHere p e && e.digest == d
    | .error _ => false

/-- A generation, beside the digest installed last for each program and not removed since. -/
structure Generation where
  text : Text
  newest : Text → Option Digest

/-- The edits that write the next generation, each into a buffer of some size. -/
inductive Edit
  | withEntry (e : Entry) (imageCarries : Bool) (room : Nat)
  | withoutEntry (program : Text) (room : Nat)
  | withoutVersion (program version : Text) (room : Nat)
  deriving DecidableEq, Repr

namespace Generation

def empty : Generation := ⟨[], fun _ => none⟩

/-- After a removal, the newest installs that still have their row. -/
def removed (s : Generation) (text : Text) : Generation :=
  ⟨text, fun p => (s.newest p).filter (hasRow text p)⟩

def step (s : Generation) : Edit → Option Generation
  | .withEntry e imageCarries room =>
      match Activation.withEntry s.text e imageCarries room with
      | .ok text => some ⟨text, if e.package = owner then s.newest else
          fun p => if p = e.program then some e.digest else s.newest p⟩
      | .error _ => none
  | .withoutEntry program room =>
      match Activation.withoutEntry s.text program room with
      | .ok text => some (s.removed text)
      | .error _ => none
  | .withoutVersion program version room =>
      match Activation.withoutVersion s.text program version room with
      | .ok text => some (s.removed text)
      | .error _ => none

end Generation

/-- Printable ASCII. -/
def Printable (t : Text) : Prop := ∀ c ∈ t, 0x20 ≤ c.val.toNat ∧ c.val.toNat ≤ 0x7e

instance (t : Text) : Decidable (Printable t) :=
  List.decidableBAll (fun c : Char => 0x20 ≤ c.val.toNat ∧ c.val.toNat ≤ 0x7e) t

/-- The entries that installers write: printable, and without a version exactly for a vouch. -/
def Edit.Customary : Edit → Prop
  | .withEntry e _ _ => Printable e.program ∧ Printable e.version ∧ Printable e.package ∧
      (e.package = owner ↔ e.version = noVersion)
  | _ => True

instance (edit : Edit) : Decidable edit.Customary :=
  match edit with
  | .withEntry e _ _ => inferInstanceAs (Decidable (Printable e.program ∧ Printable e.version ∧
      Printable e.package ∧ (e.package = owner ↔ e.version = noVersion)))
  | .withoutEntry _ _ => inferInstanceAs (Decidable True)
  | .withoutVersion _ _ _ => inferInstanceAs (Decidable True)

structure WellFormed (rows : List Entry) (ptrs : List Pointer) : Prop where
  /-- A program with a package row has exactly one pointer, to one of its package rows. -/
  pointed : ∀ p, packageRows p rows ≠ [] →
    ∃ x ∈ packageRows p rows, pointersOf p ptrs = [⟨p, x.digest⟩]
  /-- No other program has one. -/
  unpointed : ∀ p, packageRows p rows = [] → pointersOf p ptrs = []
  /-- No two package rows share their program and digest. -/
  distinct : ∀ p, ((packageRows p rows).map Entry.digest).Nodup
  /-- The package rows of a program are of one package. -/
  package : ∀ p, ∀ x ∈ packageRows p rows, ∀ y ∈ packageRows p rows, x.package = y.package
  vouch : ∀ p, (vouchRows p rows).length ≤ 1

/-- What a generation answers. -/
structure Answers (s : Generation) (rows : List Entry) : Prop where
  /-- A bare name resolves exactly when the program has a package row, and to one of them. -/
  found : ∀ p, packageRows p rows ≠ [] →
    ∃ x ∈ packageRows p rows, lookup s.text p = .ok (some x)
  absent : ∀ p, packageRows p rows = [] → lookup s.text p = .ok none
  /-- It resolves to the newest install while that has its row. -/
  newest : ∀ p d, s.newest p = some d →
    ∃ x ∈ packageRows p rows, x.digest = d ∧ lookup s.text p = .ok (some x)

/-- What is kept along a run: the generation reads as rows and pointers that are in order, and
the pointer of a program names its newest install. -/
structure Kept (s : Generation) (rows : List Entry) (ptrs : List Pointer) : Prop where
  reads : Reads s.text rows ptrs
  versioned : Versioned rows
  tidy : ∀ p, Tidy p rows ptrs
  newest : ∀ p d, s.newest p = some d → pointersOf p ptrs = [⟨p, d⟩]

variable {s s' : Generation}

theorem Kept.wellFormed (h : Kept s rows ptrs) : WellFormed rows ptrs :=
  ⟨fun p => (h.tidy p).pointed, fun p => (h.tidy p).unpointed, fun p => (h.tidy p).distinct,
    fun p => (h.tidy p).package, fun p => (h.tidy p).vouch⟩

theorem Kept.answers (h : Kept s rows ptrs) : Answers s rows := by
  refine ⟨fun p hne => ?_, fun p hnil => ?_, fun p d hd => ?_⟩
  · obtain ⟨x, hx, hptr⟩ := (h.tidy p).pointed hne
    obtain ⟨y, hy, -, hlookup⟩ := h.reads.lookup_pointed hx hptr
    exact ⟨y, hy, hlookup⟩
  · exact h.reads.lookup_unpointed ((h.tidy p).unpointed hnil)
  · have hptr := h.newest p d hd
    have hne : packageRows p rows ≠ [] := by
      intro hnil
      rw [(h.tidy p).unpointed hnil] at hptr
      cases hptr
    obtain ⟨x, hx, hptr'⟩ := (h.tidy p).pointed hne
    rw [hptr, List.cons.injEq, Pointer.mk.injEq] at hptr'
    obtain ⟨y, hy, hdigest, hlookup⟩ := h.reads.lookup_pointed hx (hptr'.1.2 ▸ hptr)
    exact ⟨y, hy, hdigest.trans hptr'.1.2.symm, hlookup⟩

theorem kept_empty : Kept .empty [] [] := by
  refine ⟨reads_nil, nofun, fun p => ?_, nofun⟩
  exact ⟨fun hne => absurd rfl hne, fun _ => rfl, nodup_nil,
    nofun, Nat.zero_le _⟩

theorem last_of_printable {t : Text} (hgood : goodName t = true) (h : Printable t) (c : Char)
    (hc : t.getLast? = some c) : Text.isWhitespace c = false := by
  have hmem := mem_of_getLast? hc
  have hrange := h c hmem
  have hspace : c.val.toNat ≠ 0x20 := by
    intro hv
    have heq : c = ' ' := Char.ext (UInt32.toNat.inj hv)
    exact goodName_space hgood (heq ▸ hmem)
  unfold Text.isWhitespace
  simp only [or_eq_false_iff, and_eq_false_iff, beq_eq_false_iff_ne, decide_eq_false_iff_not]
  omega

theorem hasRow_iff (h : Reads table rows ptrs) :
    hasRow table p d = true ↔ ∃ x ∈ packageRows p rows, x.digest = d := by
  unfold hasRow
  rw [h.entries, List.any_map, List.any_eq_true]
  constructor
  · rintro ⟨x, hx, hrow⟩
    simp only [comp_apply, and_eq_true, beq_iff_eq] at hrow
    exact ⟨x, mem_filter.mpr ⟨hx, hrow.1⟩, hrow.2⟩
  · rintro ⟨x, hx, hd⟩
    obtain ⟨hmem, hrow⟩ := mem_filter.mp hx
    exact ⟨x, hmem, by simp [hrow, hd]⟩

theorem newest_removed {p : Text} (h : (s.removed text).newest p = some d) :
    s.newest p = some d ∧ hasRow text p d = true := by
  have := filter_eq_some_iff.mp h
  exact ⟨this.1, this.2⟩

/-- **An accepted install keeps the generation well formed.** -/
theorem Kept.withEntry {imageCarries : Bool} (h : Kept s rows ptrs)
    (hcustom : (Edit.withEntry e imageCarries room).Customary)
    (hok : withEntry s.text e imageCarries room = .ok text) :
    Kept ⟨text, if e.package = owner then s.newest else
        fun p => if p = e.program then some e.digest else s.newest p⟩
      (installRows e rows) (installPointers e ptrs) := by
  obtain ⟨⟨-, -, hpackage⟩, htaken, -⟩ := withEntry_ok h.reads hok
  obtain ⟨-, -, hprintable, hversion⟩ := hcustom
  have hversioned : Versioned (installRows e rows) := by
    intro x hx
    rcases mem_installRows hx with rfl | hx
    · exact hversion
    · exact h.versioned x hx
  refine ⟨reads_withEntry h.reads hok (last_of_printable hpackage hprintable), hversioned,
    fun p => ?_, fun p d hd => ?_⟩
  · by_cases howner : e.package = owner
    · exact (h.tidy p).vouched howner
    · exact (h.tidy p).install howner htaken
  · dsimp only at hd
    by_cases howner : e.package = owner
    · rw [if_pos howner] at hd
      rw [pointersOf_install_other (.inl howner)]
      exact h.newest p d hd
    · rw [if_neg howner] at hd
      by_cases hp : p = e.program
      · rw [if_pos hp, Option.some.injEq] at hd
        rw [hp, ← hd]
        exact pointersOf_install_self howner (length_pointersOf_le (h.tidy e.program))
      · rw [if_neg hp] at hd
        rw [pointersOf_install_other (.inr (Ne.symm hp))]
        exact h.newest p d hd

theorem reads_render_of (h : Reads table rows ptrs) (rows' : List Entry) (ptrs' : List Pointer)
    (hrows : ∀ x ∈ rows', x ∈ rows)
    (hptrs : ∀ x ∈ ptrs', x ∈ ptrs ∨ ∃ y ∈ rows, x.program = y.program) :
    Reads (render rows' ptrs') rows' ptrs' := by
  refine reads_render (fun x hx => h.legible x (hrows x hx)) (fun x hx => ?_)
  rcases hptrs x hx with hx | ⟨y, hy, hprogram⟩
  · exact h.goodName x hx
  · rw [hprogram]
    exact (h.legible y hy).program

/-- **An accepted removal keeps the generation well formed.** -/
theorem Kept.withoutEntry (h : Kept s rows ptrs)
    (hok : withoutEntry s.text program room = .ok text) :
    Kept (s.removed text) (rows.filter fun x => !removedHere program x)
      (ptrs.filter fun x => x.program != program) := by
  obtain ⟨-, rfl⟩ := withoutEntry_ok h.reads hok
  have hreads := reads_render_of h.reads (rows.filter fun x => !removedHere program x)
    (ptrs.filter fun x => x.program != program)
    (fun x hx => (mem_filter.mp hx).1) (fun x hx => .inl (mem_filter.mp hx).1)
  refine ⟨hreads, fun x hx => h.versioned x (mem_filter.mp hx).1,
    fun p => (h.tidy p).remove program, fun p d hd => ?_⟩
  obtain ⟨hnewest, hrow⟩ := newest_removed hd
  obtain ⟨x, hx, -⟩ := (hasRow_iff hreads).mp hrow
  have hp : p ≠ program := by
    rintro rfl
    obtain ⟨hmem, hprogram, hpackage⟩ := mem_packageRows.mp hx
    have := (mem_filter.mp hmem).2
    simp [removedHere, hprogram, hpackage] at this
  rw [pointersOf, List.filter_filter, ← h.newest p d hnewest]
  refine filter_congr fun x _ => ?_
  by_cases hx : x.program = p <;> simp [hx, hp]

/-- **The accepted removal of a version keeps the generation well formed.** -/
theorem Kept.withoutVersion {version : Text} (h : Kept s rows ptrs)
    (hok : Activation.withoutVersion s.text program version room = .ok text) :
    ∃ rows' ptrs', Kept (s.removed text) rows' ptrs' := by
  obtain ⟨target, pointed, htarget, hpointed, -, rfl⟩ := withoutVersion_ok h.reads hok
  have hall : ∀ x ∈ packageRows program rows, removedHere program x = true :=
    fun x hx => (mem_filter.mp hx).2
  obtain ⟨hfind, hsurvivor⟩ := foldl_decideRow version ⟨none, none, true⟩ hall
  rw [← decision_eq] at hfind hsurvivor
  rw [htarget] at hfind
  have hremoval : Removal program version rows target := ⟨h.versioned, hfind.symm⟩
  rw [h.reads.defaultOf (length_pointersOf_le (h.tidy program)), Except.ok.injEq] at hpointed
  rw [hsurvivor]
  have hreads := reads_render_of h.reads (rows.eraseP (sameRow target))
    (repointed program (pointed == some target.digest)
      ((packageRows program rows).eraseP fun x => x.version == version).head? ptrs)
    (fun x hx => mem_of_mem_eraseP hx) (fun x hx => ?_)
  · refine ⟨_, _, hreads, fun x hx => h.versioned x (mem_of_mem_eraseP hx),
      fun p => (h.tidy p).removeVersion hremoval hpointed.symm, fun p d hd => ?_⟩
    obtain ⟨hnewest, hrow⟩ := newest_removed hd
    have hptr := h.newest p d hnewest
    rw [pointersOf_repointed, repointed_of_ne fun x hx => ?_]
    · exact hptr
    · refine eq_false_iff.mpr fun hmoved => ?_
      -- the pointer moves only off the removed row, whose digest is newest no longer
      obtain ⟨y, hy, hdigest⟩ := (hasRow_iff hreads).mp hrow
      rw [hptr, mem_singleton] at hx
      rw [hx, and_eq_true, beq_iff_eq] at hmoved
      obtain ⟨hprogram, hmoved⟩ := hmoved
      subst hprogram
      rw [← hpointed, hptr] at hmoved
      exact hremoval.digest_ne (h.tidy _).distinct hy (hdigest.trans (by simpa using hmoved))
  · obtain ⟨y, hy, hx⟩ := mem_flatMap.mp hx
    split at hx
    · obtain ⟨e, -, rfl⟩ := mem_map.mp hx
      obtain ⟨hmem, hprogram, -⟩ := mem_packageRows.mp hremoval.mem
      exact .inr ⟨target, hmem, hprogram.symm⟩
    · exact .inl (mem_singleton.mp hx ▸ hy)

theorem Kept.step {edit : Edit} (h : Kept s rows ptrs) (hcustom : edit.Customary)
    (hstep : s.step edit = some s') : ∃ rows' ptrs', Kept s' rows' ptrs' := by
  cases edit with
  | withEntry e imageCarries room =>
    simp only [Generation.step] at hstep
    split at hstep
    case h_1 text hok =>
      cases hstep
      exact ⟨_, _, h.withEntry hcustom hok⟩
    case h_2 => cases hstep
  | withoutEntry program room =>
    simp only [Generation.step] at hstep
    split at hstep
    case h_1 text hok =>
      cases hstep
      exact ⟨_, _, h.withoutEntry hok⟩
    case h_2 => cases hstep
  | withoutVersion program version room =>
    simp only [Generation.step] at hstep
    split at hstep
    case h_1 text hok =>
      cases hstep
      exact h.withoutVersion hok
    case h_2 => cases hstep

/-- **Every generation that a run of edits writes is well formed, and answers a bare name with the
newest install that has its row.** -/
theorem generations_wellFormed
    (h : Transition.Reach Generation.step (fun _ edit => edit.Customary) .empty s) :
    ∃ rows ptrs, Reads s.text rows ptrs ∧ WellFormed rows ptrs ∧ Answers s rows := by
  obtain ⟨rows, ptrs, hkept⟩ :=
    h.invariant (I := fun s => ∃ rows ptrs, Kept s rows ptrs) ⟨[], [], kept_empty⟩
      fun s edit s' ⟨rows, ptrs, hkept⟩ hcustom hstep => hkept.step hcustom hstep
  exact ⟨rows, ptrs, hkept.reads, hkept.wellFormed, hkept.answers⟩

/-- An install, a second version, a vouch, and the removal of the second version. -/
def fourEdits : List Edit :=
  [.withEntry zeroRow false 512,
    .withEntry ⟨['a'], ['2'], ['p'], ⟨List.replicate 32 2, rfl⟩⟩ false 512,
    .withEntry zeroVouch false 512, .withoutVersion ['a'] ['2'] 512]

theorem generations_wellFormed_four :
    ∃ s, Transition.runIf Generation.step (fun _ edit => edit.Customary) .empty fourEdits = some s ∧
      ∃ rows ptrs, Reads s.text rows ptrs ∧ WellFormed rows ptrs ∧ Answers s rows := by
  have hruns : (Transition.runIf Generation.step (fun _ edit => edit.Customary) .empty
      fourEdits).isSome = true := by
    decide +kernel
  obtain ⟨s, hs⟩ := isSome_iff_exists.mp hruns
  exact ⟨s, hs, generations_wellFormed (Transition.Reach.of_runIf fourEdits hs)⟩

end Nife.Activation
