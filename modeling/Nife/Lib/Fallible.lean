/-
Computations on a state that may fail and keep what they did to the state when they do:
the shape of a method on a mutable object that returns a result or an error.
`Act ε σ α` is such a computation; `run` runs it.

`Frames f m` says that `m` leaves what `f` reads of the state as it was, whichever way it ends.
-/
import Mathlib.Tactic.Common

namespace Fallible

universe u

/-- An outcome of two parts is good when both parts are. -/
theorem bind_eq_ok {ε : Type*} {α β : Type u} {x : Except ε α} {f : α → Except ε β} {b : β} :
    x >>= f = .ok b ↔ ∃ a, x = .ok a ∧ f a = .ok b := by
  cases x with
  | error _ =>
    refine ⟨fun h => ?_, fun ⟨_, h, _⟩ => ?_⟩
    · cases h
    · cases h
  | ok a =>
    refine ⟨fun h => ⟨a, rfl, h⟩, fun ⟨_, ha, h⟩ => ?_⟩
    cases ha
    exact h

theorem mapError_eq_ok {ε δ α : Type*} {x : Except ε α} {f : ε → δ} {a : α}
    (h : x.mapError f = .ok a) : x = .ok a := by
  cases x with
  | error _ => cases h
  | ok b =>
    cases h
    rfl

/-- What each turn of a loop keeps is kept by the loop. -/
theorem foldlM_invariant {ε τ : Type*} {σ : Type u} {body : σ → τ → Except ε σ} (I : σ → Prop)
    (hbody : ∀ s x s', I s → body s x = .ok s' → I s') {l : List τ} {s s' : σ} (hs : I s)
    (h : l.foldlM body s = .ok s') : I s' := by
  induction l generalizing s with
  | nil =>
    cases h
    exact hs
  | cons x l ih =>
    obtain ⟨t, ht, h⟩ := bind_eq_ok.mp h
    exact ih (hbody s x t hs ht) h

/-- A computation that ends in an outcome and a state. -/
def Act (ε σ α : Type*) := σ → Except ε α × σ

variable {ε σ : Type*} {α β : Type u} {m : Act ε σ α}

def run (m : Act ε σ α) (s : σ) : Except ε α × σ := m s

instance : Monad (Act ε σ) where
  pure a := fun s => (.ok a, s)
  bind m f := fun s =>
    match m s with
    | (.ok a, s') => f a s'
    | (.error e, s') => (.error e, s')

/-- Fail, with the state as it stands. -/
def fail (e : ε) : Act ε σ α := fun s => (.error e, s)

def get : Act ε σ σ := fun s => (.ok s, s)

def modify (f : σ → σ) : Act ε σ Unit := fun s => (.ok (), f s)

/-- An outcome that does not depend on the state or change it. -/
def lift (x : Except ε α) : Act ε σ α := fun s => (x, s)

/-- An outcome read off the state. -/
def ask (f : σ → Except ε α) : Act ε σ α := fun s => (f s, s)

/-- Fail with `e` unless `c`. -/
def require (c : Bool) (e : ε) : Act ε σ PUnit := if c then pure ⟨⟩ else fail e

/-- Whether a failure or a result, as a result. -/
def attempt (m : Act ε σ α) : Act ε σ (Except ε α) := fun s => (.ok (m s).1, (m s).2)

@[simp] theorem run_pure (a : α) (s : σ) : run (pure a : Act ε σ α) s = (.ok a, s) := rfl

@[simp] theorem run_get (s : σ) : run (get : Act ε σ σ) s = (.ok s, s) := rfl

@[simp] theorem run_modify (f : σ → σ) (s : σ) :
    run (modify f : Act ε σ Unit) s = (.ok (), f s) := rfl

@[simp] theorem run_ask (f : σ → Except ε α) (s : σ) : run (ask f : Act ε σ α) s = (f s, s) := rfl

@[simp] theorem run_require (c : Bool) (e : ε) (s : σ) :
    run (require c e : Act ε σ PUnit) s = (if c then .ok ⟨⟩ else .error e, s) := by
  cases c <;> rfl

@[simp] theorem run_attempt (m : Act ε σ α) (s : σ) :
    run (attempt m) s = (.ok (run m s).1, (run m s).2) := rfl

theorem run_bind (m : Act ε σ α) (f : α → Act ε σ β) (s : σ) : run (m >>= f) s = match run m s with
      | (.ok a, s') => run (f a) s'
      | (.error e, s') => (.error e, s') := rfl

theorem run_bind_ok {s s' : σ} {a : α} (h : run m s = (.ok a, s'))
    (f : α → Act ε σ β) : run (m >>= f) s = run (f a) s' := by
  rw [run_bind, h]

theorem run_bind_error {s s' : σ} {e : ε} (h : run m s = (.error e, s'))
    (f : α → Act ε σ β) : run (m >>= f) s = (.error e, s') := by
  rw [run_bind, h]

@[simp] theorem run_map (f : α → β) (m : Act ε σ α) (s : σ) :
    run (f <$> m) s = ((run m s).1.map f, (run m s).2) := by
  show run (m >>= pure ∘ f) s = _
  rw [run_bind]
  rcases run m s with ⟨e | a, s'⟩
  · rfl
  · rfl

/-! ### Frames -/

/-- `m` leaves what `f` reads of the state as it was, whichever way it ends. -/
def Frames {τ : Type*} (f : σ → τ) (m : Act ε σ α) : Prop := ∀ s, f (run m s).2 = f s

section Frames

variable {τ : Type*} {f : σ → τ}

theorem Frames.bind {g : α → Act ε σ β} (hm : Frames f m)
    (hg : ∀ a, Frames f (g a)) : Frames f (m >>= g) := by
  intro s
  rw [run_bind]
  rcases h : run m s with ⟨e | a, s'⟩
  · exact (congrArg (f ·.2) h).symm.trans (hm s)
  · exact (hg a s').trans ((congrArg (f ·.2) h).symm.trans (hm s))

theorem Frames.map (hm : Frames f m) (g : α → β) : Frames f (g <$> m) :=
  fun s => (congrArg (f ·.2) (run_map g m s)).trans (hm s)

theorem Frames.attempt (hm : Frames f m) : Frames f (attempt m) := hm

theorem frames_pure (a : α) : Frames f (pure a : Act ε σ α) := fun _ => rfl

theorem frames_fail (e : ε) : Frames f (fail e : Act ε σ α) := fun _ => rfl

theorem frames_get : Frames f (get : Act ε σ σ) := fun _ => rfl

theorem frames_ask (g : σ → Except ε α) : Frames f (ask g : Act ε σ α) := fun _ => rfl

theorem frames_lift (x : Except ε α) : Frames f (lift x : Act ε σ α) := fun _ => rfl

theorem frames_require (c : Bool) (e : ε) : Frames f (require c e : Act ε σ PUnit) := fun s => by
  rw [run_require]

theorem frames_modify {g : σ → σ} (h : ∀ s, f (g s) = f s) : Frames f (modify g : Act ε σ Unit) := h

theorem frames_ite {c : Prop} [Decidable c] {m n : Act ε σ α} (hm : Frames f m)
    (hn : Frames f n) : Frames f (if c then m else n) := by
  split
  · exact hm
  · exact hn

end Frames

end Fallible
