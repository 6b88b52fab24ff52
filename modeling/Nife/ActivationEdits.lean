/-
What the three edits of an activation set write.  From a readable generation an accepted edit
writes the text of a change of its rows and pointers (`withEntry_ok`, `withoutEntry_ok`,
`withoutVersion_ok`), and that text reads back as the changed lists.

`goodName` refuses white space by its bytes and so only the ASCII part of it, while a line is
trimmed of all of Unicode's: a package name that ends in a no-break space is accepted and reads
back without it (`noBreak_lost`).

Main result: `withEntry_readsBack_iff`, that an accepted install reads back as given exactly when the package
name does not end in white space.
-/
import Nife.ActivationSet
import Nife.Lib.Fallible
import Nife.Lib.Rows

namespace Nife.Activation

open List Text Writer Rows

open Fallible (bind_eq_ok)

variable {table : Text} {e : Entry} {p : Pointer} {rows : List Entry} {ptrs : List Pointer}

/-! ### What the edits write -/

variable {program text : Text} {α σ : Type} {s s' : Writer × Bool} {room : Nat} {x : Entry}
  {imageCarries : Bool}

/-- A loop over items that are all good is the loop over what they hold. -/
theorem forEach_ok (body : σ → α → Except Error σ) (l : List α) (s : σ) :
    forEach (l.map .ok) s body = l.foldlM body s := by
  rw [forEach, foldlM_map]
  rfl

theorem forEach_pure (f : σ → α → σ) (l : List α) (s : σ) :
    forEach (l.map .ok) s (fun s x => pure (f s x)) = .ok (l.foldl f s) := by
  rw [forEach_ok]
  exact foldlM_pure

/-- A loop whose turns each append some lines and may raise a flag. -/
theorem foldlM_lines {body : σ → α → Except Error σ} {g : α → List Text}
    (out : σ → Text) (flag : σ → Bool) (hit : α → Bool)
    (hbody : ∀ s x s', body s x = .ok s' →
      out s' = out s ++ unlines (g x) ∧ flag s' = (flag s || hit x))
    {l : List α} {s s' : σ} (h : l.foldlM body s = .ok s') :
    out s' = out s ++ unlines (l.flatMap g) ∧ flag s' = (flag s || l.any hit) := by
  induction l generalizing s with
  | nil =>
    cases h
    simp [unlines]
  | cons x l ih =>
    obtain ⟨t, hx, ht⟩ := bind_eq_ok.mp h
    obtain ⟨hout, hflag⟩ := hbody s x t hx
    obtain ⟨hout', hflag'⟩ := ih ht
    refine ⟨?_, ?_⟩
    · rw [hout', hout, flatMap_cons, unlines_append, append_assoc]
    · rw [hflag', hflag, any_cons, Bool.or_assoc]

namespace Writer

variable {w w' : Writer} {digest : Digest}

theorem bytes_ok {piece : Text} (h : w.bytes piece = .ok w') : w'.text = w.text ++ piece := by
  unfold bytes at h
  split_ifs at h
  cases h
  rfl

theorem foldlM_bytes {pieces : List Text} (h : pieces.foldlM bytes w = .ok w') :
    w'.text = w.text ++ pieces.flatten := by
  induction pieces generalizing w with
  | nil =>
    cases h
    simp
  | cons piece pieces ih =>
    obtain ⟨v, hv, hrest⟩ := bind_eq_ok.mp h
    rw [ih hrest, bytes_ok hv, flatten_cons, append_assoc]

theorem entry_ok (h : w.entry e = .ok w') : w'.text = w.text ++ unlines [rowLine e] := by
  rw [foldlM_bytes h]
  simp [unlines, rowLine]

theorem entryIf_ok {b : Bool} (h : w.entryIf b e = .ok w') :
    w'.text = w.text ++ unlines (if b then [rowLine e] else []) := by
  cases b with
  | true => exact entry_ok h
  | false =>
    cases h
    exact (append_nil _).symm

theorem pointer_ok (h : w.pointer program digest = .ok w') :
    w'.text = w.text ++ unlines [pointerLine ⟨program, digest⟩] := by
  rw [foldlM_bytes h]
  simp [unlines, pointerLine]

theorem pointerIf_ok {b : Bool} (h : w.pointerIf b program digest = .ok w') :
    w'.text = w.text ++ unlines (if b then [pointerLine ⟨program, digest⟩] else []) := by
  cases b with
  | true => exact pointer_ok h
  | false =>
    cases h
    exact (append_nil _).symm

end Writer

theorem installRow_ok (h : installRow e s x = .ok s') : s'.1.text = s.1.text ++
      unlines [rowLine (if replacedHere (e.package == owner) e x then e else x)] ∧
    s'.2 = (s.2 || replacedHere (e.package == owner) e x) := by
  unfold installRow at h
  generalize replacedHere (e.package == owner) e x = here at h ⊢
  cases here <;> obtain ⟨w, hw, h⟩ := bind_eq_ok.mp h
  all_goals
    cases h
    exact ⟨entry_ok hw, by simp⟩

theorem installPointer_ok {x : Pointer} (h : installPointer e s x = .ok s') :
    s'.1.text = s.1.text ++
      unlines [pointerLine (if movedHere e x then ⟨e.program, e.digest⟩ else x)] ∧
    s'.2 = (s.2 || movedHere e x) := by
  unfold installPointer at h
  generalize movedHere e x = here at h ⊢
  cases here <;> obtain ⟨w, hw, h⟩ := bind_eq_ok.mp h
  all_goals
    cases h
    exact ⟨pointer_ok hw, by simp⟩

/-- The rows after an install. -/
def installRows (e : Entry) (rows : List Entry) : List Entry :=
  let replaced := replacedHere (e.package == owner) e
  rows.map (fun x => if replaced x then e else x) ++ if rows.any replaced then [] else [e]

/-- The pointers after an install. -/
def installPointers (e : Entry) (ptrs : List Pointer) : List Pointer :=
  ptrs.map (fun p => if movedHere e p then ⟨e.program, e.digest⟩ else p) ++
    if !(e.package == owner) && !ptrs.any (movedHere e) then [⟨e.program, e.digest⟩] else []

theorem foldlM_taken {vouch : Bool} (h : rows.foldlM (fun _ existing =>
      if takenBy vouch e existing then .error .taken else pure ()) () = Except.ok (ε := Error) ()) :
    ∀ x ∈ rows, takenBy vouch e x = false := by
  induction rows with
  | nil => exact nofun
  | cons x rows ih =>
    rw [foldlM_cons] at h
    obtain ⟨⟨⟩, hx, hrest⟩ := bind_eq_ok.mp h
    rw [forall_mem_cons]
    refine ⟨?_, ih hrest⟩
    cases htaken : takenBy vouch e x with
    | false => rfl
    | true =>
      rw [htaken] at hx
      cases hx

/-- **What an accepted install writes**, and what it was accepted for. -/
theorem withEntry_ok (hr : Reads table rows ptrs)
    (h : withEntry table e imageCarries room = .ok text) :
    (goodName e.program = true ∧ goodName e.version = true ∧ goodName e.package = true) ∧
    (∀ x ∈ rows, takenBy (e.package == owner) e x = false) ∧
    text = render (installRows e rows) (installPointers e ptrs) := by
  unfold withEntry at h
  dsimp only at h
  split at h
  case isTrue => cases h
  case isFalse hgood =>
    simp only [Bool.or_eq_true, Bool.not_eq_true', not_or, Bool.not_eq_false] at hgood
    split at h
    case isTrue => cases h
    case isFalse =>
      rw [hr.entries, hr.defaults, forEach_ok, forEach_ok] at h
      obtain ⟨⟨⟩, htaken, h⟩ := bind_eq_ok.mp h
      obtain ⟨⟨w₁, replaced⟩, hrows, h⟩ := bind_eq_ok.mp h
      obtain ⟨w₂, hlast, h⟩ := bind_eq_ok.mp h
      rw [forEach_ok] at h
      obtain ⟨⟨w₃, pointed⟩, hptrs, h⟩ := bind_eq_ok.mp h
      obtain ⟨w₄, hpoint, h⟩ := bind_eq_ok.mp h
      cases h
      refine ⟨⟨hgood.1.1, hgood.1.2, hgood.2⟩, foldlM_taken htaken, ?_⟩
      obtain ⟨hrtext, hrflag⟩ := foldlM_lines (fun s => s.1.text) Prod.snd _
        (fun _ _ _ => installRow_ok) hrows
      obtain ⟨hptext, hpflag⟩ := foldlM_lines (fun s => s.1.text) Prod.snd _
        (fun _ _ _ => installPointer_ok) hptrs
      rw [Bool.false_or] at hrflag hpflag
      rw [pointerIf_ok hpoint, hptext, entryIf_ok hlast, hrtext, hrflag, hpflag]
      simp only [nil_append, ← unlines_append, render, installRows, installPointers]
      congr 1
      cases rows.any (replacedHere (e.package == owner) e) <;>
        cases !(e.package == owner) && !ptrs.any (movedHere e) <;>
        simp [Function.comp_def, ← map_eq_flatMap]

/-- Is this a row that a removal of the program takes? -/
def removedHere (program : Text) (x : Entry) : Bool := x.program == program && x.package != owner

theorem removeRow_ok (h : removeRow program s x = .ok s') :
    s'.1.text = s.1.text ++ unlines (if !removedHere program x then [rowLine x] else []) ∧
    s'.2 = (s.2 || removedHere program x) := by
  unfold removeRow at h
  rw [← removedHere] at h
  cases hgone : removedHere program x with
  | true =>
    rw [hgone] at h
    cases h
    exact ⟨(append_nil _).symm, (Bool.or_true _).symm⟩
  | false =>
    rw [hgone] at h
    obtain ⟨w, hw, h⟩ := bind_eq_ok.mp h
    cases h
    exact ⟨entry_ok hw, (Bool.or_false _).symm⟩

/-- **What a removal writes**, and what it was accepted for. -/
theorem withoutEntry_ok (hr : Reads table rows ptrs)
    (h : withoutEntry table program room = .ok text) :
    rows.any (removedHere program) = true ∧
    text = render (rows.filter fun x => !removedHere program x)
      (ptrs.filter fun x => x.program != program) := by
  unfold withoutEntry at h
  rw [hr.entries, hr.defaults, forEach_ok] at h
  obtain ⟨⟨w₁, removed⟩, hrows, h⟩ := bind_eq_ok.mp h
  dsimp only at h
  rw [forEach_ok] at h
  obtain ⟨w₂, hptrs, h⟩ := bind_eq_ok.mp h
  obtain ⟨hrtext, hrflag⟩ := foldlM_lines (fun s => s.1.text) Prod.snd _
    (fun _ _ _ => removeRow_ok) hrows
  obtain ⟨hptext, -⟩ := foldlM_lines Writer.text (fun _ => false) (fun _ => false)
    (fun _ _ _ hs => ⟨Writer.pointerIf_ok hs, rfl⟩) hptrs
  rw [Bool.false_or] at hrflag
  split at h
  case isFalse => cases h
  case isTrue hremoved =>
    cases h
    refine ⟨hrflag ▸ hremoved, ?_⟩
    rw [hptext, hrtext, nil_append, ← unlines_append, flatMap_if, flatMap_if]
    rfl

theorem foldlM_skipRow {target : Entry} (h : rows.foldlM (skipRow target) s = .ok s') :
    s'.1.text = s.1.text ++
      unlines ((if s.2 then rows else rows.eraseP (sameRow target)).map rowLine) := by
  induction rows generalizing s with
  | nil =>
    cases h
    simp [unlines]
  | cons x rows ih =>
    obtain ⟨t, hx, ht⟩ := bind_eq_ok.mp h
    rw [ih ht]
    unfold skipRow at hx
    split at hx
    case isTrue hskip =>
      cases hx
      simp only [Bool.and_eq_true, Bool.not_eq_true'] at hskip
      simp only [hskip.1, if_true, Bool.false_eq_true, if_false]
      rw [eraseP_cons_of_pos hskip.2]
    case isFalse hkeep =>
      obtain ⟨w, hw, hx⟩ := bind_eq_ok.mp hx
      cases hx
      rw [entry_ok hw, append_assoc, ← unlines_append]
      cases hskipped : s.2 with
      | true => rfl
      | false =>
        have hne : ¬sameRow target x = true := by
          simpa [hskipped] using hkeep
        rw [eraseP_cons_of_neg hne]
        rfl

def repointed (program : Text) (movePointer : Bool) (survivor : Option Entry)
    (ptrs : List Pointer) : List Pointer :=
  ptrs.flatMap fun x =>
    if x.program == program && movePointer then
      survivor.toList.map fun e => ⟨program, e.digest⟩
    else [x]

theorem repoint_ok {movePointer : Bool} {survivor : Option Entry} {w w' : Writer}
    {x : Pointer} (h : repoint program movePointer survivor w x = .ok w') :
    w'.text = w.text ++
      unlines ((repointed program movePointer survivor [x]).map pointerLine) := by
  unfold repoint at h
  rw [repointed, flatMap_singleton]
  split at h
  case isTrue hmove =>
    rw [if_pos hmove]
    cases survivor with
    | none =>
      cases h
      exact (append_nil _).symm
    | some e => exact pointer_ok h
  case isFalse hkeep =>
    rw [if_neg hkeep]
    exact pointer_ok h

def decision (program version : Text) (rows : List Entry) : Decision :=
  rows.foldl (decideRow program version) ⟨none, none, true⟩

/-- **What the removal of a version writes**, and what it was accepted for. -/
theorem withoutVersion_ok {version : Text}
    (hr : Reads table rows ptrs) (h : withoutVersion table program version room = .ok text) :
    ∃ target pointed, (decision program version rows).target = some target ∧
      defaultOf table program = .ok pointed ∧
      (pointed = some target.digest → (decision program version rows).uniform = true) ∧
      text = render (rows.eraseP (sameRow target))
        (repointed program (pointed == some target.digest) (decision program version rows).survivor
          ptrs) := by
  unfold withoutVersion at h
  rw [hr.entries, forEach_pure] at h
  obtain ⟨s, hs, h⟩ := bind_eq_ok.mp h
  cases hs
  rw [← decision] at h
  split at h
  · cases h
  case h_2 target htarget =>
    obtain ⟨pointed, hpointed, h⟩ := bind_eq_ok.mp h
    have hmove : pointed.any (· == target.digest) = (pointed == some target.digest) := by
      cases pointed <;> simp
    dsimp only at h
    rw [hmove] at h
    refine ⟨target, pointed, htarget, hpointed, ?_⟩
    split at h
    · cases h
    case isFalse hambiguous =>
      rw [hr.defaults, forEach_ok] at h
      obtain ⟨⟨w₁, skipped⟩, hrows, h⟩ := bind_eq_ok.mp h
      rw [forEach_ok] at h
      obtain ⟨w₂, hptrs, h⟩ := bind_eq_ok.mp h
      cases h
      refine ⟨fun hp => ?_, ?_⟩
      · by_contra hu
        exact hambiguous (by simp [hp, hu])
      · obtain ⟨hptext, -⟩ := foldlM_lines text (fun _ => false) (fun _ => false)
          (fun _ _ _ hs => ⟨repoint_ok hs, rfl⟩) hptrs
        have hrtext := foldlM_skipRow hrows
        rw [hptext, hrtext, nil_append, ← unlines_append, render, repointed, map_flatMap]
        simp [repointed]

/-! ### Lookups in a readable generation -/

theorem foldl_first (d : Digest) (found : Option Entry) :
    rows.foldl (fun found x => if found.isNone && x.digest = d then some x else found) found =
      found.or (rows.find? fun x => x.digest = d) := by
  induction rows generalizing found with
  | nil => simp
  | cons x rows ih =>
    rw [foldl_cons, ih]
    cases found with
    | some _ => rfl
    | none =>
      by_cases hx : x.digest = d
      all_goals simp [hx]

theorem Reads.lookupDigest (hr : Reads table rows ptrs) (d : Digest) :
    Activation.lookupDigest table d = .ok (rows.find? fun x => x.digest = d) := by
  rw [Activation.lookupDigest, hr.entries, forEach_pure, foldl_first, Option.none_or]

theorem Reads.finds (hr : Reads table rows ptrs) (he : e ∈ rows) :
    ∃ x, Activation.lookupDigest table e.digest = .ok (some x) ∧ x.digest = e.digest := by
  rw [hr.lookupDigest]
  cases hfind : rows.find? fun x => x.digest = e.digest with
  | none =>
    have hnone := find?_eq_none.mp hfind e he
    simp at hnone
  | some x =>
    have hx := find?_some hfind
    exact ⟨x, rfl, by simpa using hx⟩

/-! ### An accepted install reads back -/

theorem mem_installRows (h : x ∈ installRows e rows) : x = e ∨ x ∈ rows := by
  rcases mem_append.mp h with h | h
  · obtain ⟨y, hy, rfl⟩ := mem_map.mp h
    split
    · exact .inl rfl
    · exact .inr hy
  · split at h
    · cases h
    · exact .inl (mem_singleton.mp h)

theorem mem_installPointers {x : Pointer} (h : x ∈ installPointers e ptrs) :
    x = ⟨e.program, e.digest⟩ ∨ x ∈ ptrs := by
  rcases mem_append.mp h with h | h
  · obtain ⟨y, hy, rfl⟩ := mem_map.mp h
    split
    · exact .inl rfl
    · exact .inr hy
  · split at h
    · exact .inl (mem_singleton.mp h)
    · cases h

theorem self_mem_installRows (e : Entry) (rows : List Entry) : e ∈ installRows e rows := by
  cases hany : rows.any (replacedHere (e.package == owner) e) with
  | false =>
    refine mem_append_right _ ?_
    rw [hany]
    exact mem_singleton_self e
  | true =>
    obtain ⟨x, hx, hhere⟩ := any_eq_true.mp hany
    exact mem_append_left _ (mem_map.mpr ⟨x, hx, if_pos hhere⟩)

/-- An accepted install of a legible entry is read back as the installed rows and pointers. -/
theorem reads_withEntry
    (hr : Reads table rows ptrs) (h : withEntry table e imageCarries room = .ok text)
    (hlast : ∀ c, e.package.getLast? = some c → isWhitespace c = false) :
    Reads text (installRows e rows) (installPointers e ptrs) := by
  obtain ⟨⟨hprogram, hversion, hpackage⟩, -, rfl⟩ := withEntry_ok hr h
  refine reads_render (fun x hx => ?_) (fun x hx => ?_)
  · rcases mem_installRows hx with rfl | hx
    · exact ⟨hprogram, hversion, hpackage, hlast⟩
    · exact hr.legible x hx
  · rcases mem_installPointers hx with rfl | hx
    · exact hprogram
    · exact hr.goodName x hx

/-- The text is readable, its rows are the old ones with the entry in its place, and every digest is
found, the digest of a vouch that the entry replaced apart. -/
def ReadsBack (text : Text) (e : Entry) (rows : List Entry) : Prop :=
  (∃ ptrs, Reads text (installRows e rows) ptrs) ∧
    (∀ x ∈ installRows e rows, ∃ y, lookupDigest text x.digest = .ok (some y) ∧
      y.digest = x.digest) ∧
    ∀ x ∈ rows, (e.package = owner ∧ x.package = owner ∧ x.program = e.program) ∨
      ∃ y, lookupDigest text x.digest = .ok (some y) ∧ y.digest = x.digest

theorem readsBack_of_last (hr : Reads table rows ptrs)
    (h : withEntry table e imageCarries room = .ok text)
    (hlast : ∀ c, e.package.getLast? = some c → isWhitespace c = false) :
    ReadsBack text e rows := by
  have hreads := reads_withEntry hr h hlast
  refine ⟨⟨_, hreads⟩, fun x hx => hreads.finds hx, fun x hx => ?_⟩
  cases hhere : replacedHere (e.package == owner) e x with
  | false =>
    refine .inr (hreads.finds (e := x) (mem_append_left _ ?_))
    exact mem_map.mpr ⟨x, hx, by simp [hhere]⟩
  | true =>
    unfold replacedHere at hhere
    by_cases hvouch : e.package = owner
    · left
      simpa [hvouch] using hhere
    · right
      have hdigest : x.digest = e.digest := by
        simp only [beq_eq_false_iff_ne.mpr hvouch, Bool.and_eq_true, Bool.false_eq_true, if_false,
          beq_iff_eq] at hhere
        exact hhere.2
      rw [hdigest]
      exact hreads.finds (self_mem_installRows e rows)

/-- **An accepted install reads back** exactly when its package name does not end in white space. -/
theorem withEntry_readsBack_iff (table : Text) (rows : List Entry) (ptrs : List Pointer)
    (hr : Reads table rows ptrs) (e : Entry) (imageCarries : Bool) (room : Nat) (text : Text)
    (h : withEntry table e imageCarries room = .ok text) :
    ReadsBack text e rows ↔
      ∀ c, e.package.getLast? = some c → Text.isWhitespace c = false := by
  constructor
  · -- what is read from a trimmed line does not end in white space
    rintro ⟨⟨ptrs', hreads⟩, -⟩
    exact (hreads.legible e (self_mem_installRows e rows)).last
  · exact fun hlast => readsBack_of_last hr h hlast

/-- The digest of all zeros. -/
def zeroDigest : Digest := ⟨List.replicate 32 0, rfl⟩

/-- An owner's vouch for those bytes. -/
def zeroVouch : Entry := ⟨['a'], noVersion, owner, zeroDigest⟩

/-- A package's program with those bytes. -/
def zeroRow : Entry := ⟨['a'], ['1'], ['p'], zeroDigest⟩

/-- A package installed over a vouch of the same name, which stays beside it. -/
theorem withEntry_readsBack_iff_beside : ∃ text, (∃ ptrs, Reads text [zeroVouch, zeroRow] ptrs) ∧
    ∃ y, lookupDigest text zeroDigest = .ok (some y) ∧ y.digest = zeroDigest := by
  have hreads : Reads (render [zeroVouch] []) [zeroVouch] [] := by
    refine reads_render (fun e he => ?_) nofun
    rw [mem_singleton.mp he]
    refine ⟨by decide, by decide, by decide, fun c hc => ?_⟩
    cases hc
    decide
  have hok : (withEntry (render [zeroVouch] []) zeroRow false 512).toOption.isSome = true := by
    decide +kernel
  cases htext : withEntry (render [zeroVouch] []) zeroRow false 512 with
  | error _ =>
    rw [htext] at hok
    cases hok
  | ok text =>
    have hlast : ∀ c, zeroRow.package.getLast? = some c → Text.isWhitespace c = false := by
      intro c hc
      cases hc
      decide
    have hback := (withEntry_readsBack_iff _ _ _ hreads zeroRow false 512 text htext).mpr hlast
    exact ⟨text, hback.1, hback.2.1 _ (self_mem_installRows _ _)⟩

/-- A package name that ends in a no-break space is accepted; it reads back without it, and one
that is nothing else makes the table unreadable. -/
theorem noBreak_lost :
    (withEntry [] { zeroRow with package := ['p', '\u00a0'] } false 512).map entries =
      .ok [.ok zeroRow] ∧
    (withEntry [] { zeroRow with package := ['\u00a0'] } false 512).map entries =
      .ok [.error .malformed] := by
  constructor <;> decide +kernel

end Nife.Activation
