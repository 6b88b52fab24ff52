/-
The bindings of badges over whole sequences of requests.

`bind_ok` and `unbind_ok` say everything a request that succeeds does: its caller was open, and one
badge changes.  A request that fails changes nothing (`serve`).  So the binding of a badge only
ever goes from open to bound, and then between bound and revoked, and each change is asked for by a
caller that is open at that moment (`badges_confined`).
-/
import Nife.SubtreeScope

namespace Nife

open Function

namespace Bindings

variable {B : Nat} {badge : Nat} {b b' : Bindings B}

theorem index_of_lt (h : badge < B) : index B badge = badge := if_pos h

theorem of_eq (h0 : badge ≠ 0) (h : badge < B) : b.of badge = b.state badge := by
  rw [of, if_neg (by omega), index_of_lt h, if_neg h0]

theorem of_set {i : Nat} (h0 : i ≠ 0) (h : i < B) (v : Binding)
    (badge : Nat) : (b.set i v).of badge = if badge = i then v else b.of badge := by
  by_cases hi : badge = i
  · subst hi
    rw [of_eq h0 h, if_pos rfl]
    exact update_self ..
  · rw [if_neg hi]
    unfold of
    split
    · rfl
    · split
      · rfl
      · next hwin hidx =>
        have hlt : badge < B := by
          by_contra hge
          exact hwin ⟨by omega, by omega⟩
        rw [index_of_lt hlt]
        exact update_of_ne hi ..

theorem eq_of_index_ne (h : index B badge ≠ 0) : index B badge = badge ∧ badge ≠ 0 ∧ badge < B := by
  unfold index at h ⊢
  split at h
  · next hlt =>
    rw [if_pos hlt]
    exact ⟨rfl, h, hlt⟩
  · exact absurd rfl h

theorem bind_ok {caller badge root : Nat} (h : b.bind caller badge root = .ok b') :
    b.of caller = .opened ∧ badge ≠ 0 ∧ (∀ r, b.of badge ≠ .bound r) ∧
      ∀ k, b'.of k = if k = badge then .bound root else b.of k := by
  unfold bind at h
  split at h
  · cases h
  next hopen =>
  by_cases hz : index B badge = 0
  · rw [hz] at h
    cases h
  obtain ⟨hidx, h0, hlt⟩ := eq_of_index_ne hz
  rw [hidx] at h
  obtain ⟨i, rfl⟩ := Nat.exists_eq_succ_of_ne_zero h0
  refine ⟨not_not.mp hopen, h0, ?_⟩
  rw [of_eq h0 hlt]
  rcases hs : b.state (i + 1) with - | r | -
  · rw [hs] at h
    cases h
    exact ⟨by simp, fun k => of_set h0 hlt _ k⟩
  · rw [hs] at h
    cases h
  · rw [hs] at h
    cases h
    exact ⟨by simp, fun k => of_set h0 hlt _ k⟩

theorem unbind_ok {caller badge root : Nat} (h : b.unbind caller badge = .ok (root, b')) :
    b.of caller = .opened ∧ b.of badge = .bound root ∧
      ∀ k, b'.of k = if k = badge then .revoked else b.of k := by
  unfold unbind at h
  split at h
  · cases h
  next hopen =>
  by_cases hz : index B badge = 0
  · rw [hz] at h
    cases h
  obtain ⟨hidx, h0, hlt⟩ := eq_of_index_ne hz
  rw [hidx] at h
  obtain ⟨i, rfl⟩ := Nat.exists_eq_succ_of_ne_zero h0
  refine ⟨not_not.mp hopen, ?_⟩
  rw [of_eq h0 hlt]
  rcases hs : b.state (i + 1) with - | r | -
  · rw [hs] at h
    cases h
  · rw [hs] at h
    cases h
    exact ⟨rfl, fun k => of_set h0 hlt _ k⟩
  · rw [hs] at h
    cases h

theorem bind_of_not_opened {caller : Nat} (h : b.of caller ≠ .opened)
    (badge root : Nat) : b.bind caller badge root = .error .refused := if_pos h

theorem unbind_of_not_opened {caller : Nat} (h : b.of caller ≠ .opened)
    (badge : Nat) : b.unbind caller badge = .error .refused := if_pos h

/-! ### Requests -/

/-- A request to the table. -/
inductive Request
  | bind (caller badge root : Nat)
  | unbind (caller badge : Nat)

def Request.caller : Request → Nat
  | bind caller _ _ => caller
  | unbind caller _ => caller

/-- The table after a request; one that is refused leaves it as it was. -/
def serve (b : Bindings B) : Request → Bindings B
  | .bind caller badge root =>
      match b.bind caller badge root with
      | .ok b' => b'
      | .error _ => b
  | .unbind caller badge =>
      match b.unbind caller badge with
      | .ok (_, b') => b'
      | .error _ => b

/-- The table after some requests. -/
def after (b : Bindings B) (requests : List Request) : Bindings B := requests.foldl serve b

/-- **All that a request can do**: nothing; or an open caller binds a badge that is not bound, or
takes the grant of a bound one back. -/
theorem serve_cases (b : Bindings B) (request : Request) : (∀ k, (b.serve request).of k = b.of k) ∨
    b.of request.caller = .opened ∧
      ((∃ caller badge root, request = .bind caller badge root ∧ badge ≠ 0 ∧
          (∀ k, (b.serve request).of k = if k = badge then .bound root else b.of k)) ∨
        ∃ caller badge root, request = .unbind caller badge ∧ b.of badge = .bound root ∧
          ∀ k, (b.serve request).of k = if k = badge then .revoked else b.of k) := by
  cases request with
  | bind caller badge root =>
    cases h : b.bind caller badge root with
    | error r => exact .inl fun k => by simp only [serve, h]
    | ok b' =>
      obtain ⟨hopen, hne, -, hof⟩ := bind_ok h
      refine .inr ⟨hopen, .inl ⟨caller, badge, root, rfl, hne, fun k => ?_⟩⟩
      simpa only [serve, h] using hof k
  | unbind caller badge =>
    cases h : b.unbind caller badge with
    | error r => exact .inl fun k => by simp only [serve, h]
    | ok result =>
      obtain ⟨root, b'⟩ := result
      obtain ⟨hopen, hbound, hof⟩ := unbind_ok h
      refine .inr ⟨hopen, .inr ⟨caller, badge, root, rfl, hbound, fun k => ?_⟩⟩
      simpa only [serve, h] using hof k

theorem serve_not_opened {request : Request} (h : b.of badge ≠ .opened) :
    (b.serve request).of badge ≠ .opened := by
  rcases serve_cases b request with hsame | ⟨-, ⟨_, _, _, -, -, hof⟩ | ⟨_, _, _, -, -, hof⟩⟩
  · rwa [hsame]
  all_goals
    rw [hof]
    split
    · simp
    · exact h

/-- **Once a badge is not open it never is again.** -/
theorem after_not_opened (h : b.of badge ≠ .opened) (requests : List Request) :
    (b.after requests).of badge ≠ .opened := by
  induction requests generalizing b with
  | nil => exact h
  | cons request requests ih => exact ih (serve_not_opened h)

theorem of_zero (b : Bindings B) : b.of 0 = .opened := by
  simp [of, index]

theorem of_ge (b : Bindings B) (h0 : badge ≠ 0) (h : B ≤ badge) : b.of badge = .revoked :=
  if_pos ⟨h0, h⟩

/-- A revoked badge stays revoked up to a request of an open caller that binds it. -/
theorem revoked_until (hrev : b.of badge = .revoked) (requests : List Request)
    (h : (b.after requests).of badge ≠ .revoked) :
    ∃ before caller root rest, requests = before ++ .bind caller badge root :: rest ∧
      (b.after before).of badge = .revoked ∧ (b.after before).of caller = .opened := by
  induction requests generalizing b with
  | nil => exact absurd hrev h
  | cons request requests ih =>
    by_cases hstill : (b.serve request).of badge = .revoked
    · obtain ⟨before, caller, root, rest, rfl, hbefore, hopen⟩ := ih hstill h
      exact ⟨request :: before, caller, root, rest, rfl, hbefore, hopen⟩
    · rcases serve_cases b request with
        hsame | ⟨hopen, ⟨caller, k, root, rfl, -, hof⟩ | ⟨_, k, _, -, -, hof⟩⟩
      · exact absurd ((hsame badge).trans hrev) hstill
      · obtain rfl : badge = k := by
          by_contra hne
          exact hstill (by rw [hof, if_neg hne, hrev])
        exact ⟨[], caller, root, requests, rfl, hrev, hopen⟩
      · refine absurd ?_ hstill
        rw [hof]
        split
        · rfl
        · exact hrev

/-- The table that a fresh one has become after these requests. -/
def reached (B : Nat) (requests : List Request) : Bindings B := new.after requests

theorem reached_append (requests more : List Request) :
    reached B (requests ++ more) = (reached B requests).after more :=
  List.foldl_append

/-- What holds of every badge after these requests to a fresh table. -/
structure Laws (B : Nat) (requests : List Request) : Prop where
  /-- A badge that was bound is never open again. -/
  never_open_again : ∀ badge root more,
    (reached B requests).of badge = .bound root →
      (reached B (requests ++ more)).of badge ≠ .opened
  /-- Only a request of an open caller changes a binding. -/
  changed_by_open : ∀ request badge,
    (reached B (requests ++ [request])).of badge ≠
      (reached B requests).of badge →
    (reached B requests).of request.caller = .opened
  unbadged : (reached B requests).of 0 = .opened
  windowless : ∀ badge, badge ≠ 0 → B ≤ badge →
    (reached B requests).of badge = .revoked
  /-- A bound badge reaches its root, and the handles it minted. -/
  bound_reaches : ∀ badge root requested owner handle,
    (reached B requests).of badge = .bound root →
    admitHandle ((reached B requests).of badge) badge requested owner =
      .ok handle →
    requested = 0 ∧ handle = root ∨ owner = some badge ∧ handle = requested
  /-- A revoked badge reaches nothing. -/
  revoked_reaches : ∀ badge requested owner,
    (reached B requests).of badge = .revoked →
    admitHandle ((reached B requests).of badge) badge requested owner =
      .error .notYours
  /-- And so it stays until an open caller binds it. -/
  revoked_until : ∀ badge more,
    (reached B requests).of badge = .revoked →
    (reached B (requests ++ more)).of badge ≠ .revoked →
    ∃ before caller root rest, more = before ++ .bind caller badge root :: rest ∧
      (reached B (requests ++ before)).of badge = .revoked ∧
      (reached B (requests ++ before)).of caller = .opened

/-- **Badge confinement is permanent.** -/
theorem badges_confined (B : Nat) (requests : List Request) : Laws B requests where
  never_open_again badge root more hbound := by
    rw [reached_append]
    refine after_not_opened ?_ more
    rw [hbound]
    simp
  changed_by_open request badge hchanged := by
    rw [reached_append] at hchanged
    rcases serve_cases (reached B requests) request with hsame | ⟨hopen, -⟩
    · exact absurd (hsame badge) hchanged
    · exact hopen
  unbadged := of_zero _
  windowless _ h0 h := of_ge _ h0 h
  bound_reaches badge root requested owner handle hbound hok := by
    rw [hbound] at hok
    simp only [admitHandle] at hok
    split_ifs at hok with hroot howner
    · cases hok
      exact .inl ⟨hroot, rfl⟩
    · cases hok
      exact .inr ⟨howner, rfl⟩
  revoked_reaches badge requested owner hrev := by
    rw [hrev]
    rfl
  revoked_until badge more hrev hmore := by
    rw [reached_append] at hmore
    obtain ⟨before, caller, root, rest, hsplit, hbefore, hopen⟩ :=
      Bindings.revoked_until hrev more hmore
    refine ⟨before, caller, root, rest, hsplit, ?_, ?_⟩
    · rw [reached_append]
      exact hbefore
    · rw [reached_append]
      exact hopen

end Bindings

end Nife
