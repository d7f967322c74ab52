/-
  Actions that change a state and may fail.

  What an action gives and where it ends, and what its parts say about it: if
  every part leads from a state to a related one, so does the whole.
-/
import Mathlib.Order.Defs.Unbundled
import ZMachine.Fault

namespace ZMachine

/-! ## Running an action -/

section

variable {ε σ α β : Type}

theorem run_bind (x : EStateM ε σ α) (f : α → EStateM ε σ β) (s : σ) :
    (x >>= f) s =
      match x s with
      | .ok a s => f a s
      | .error e s => .error e s := by
  simp only [Bind.bind, EStateM.bind]
  cases x s <;> rfl

theorem run_get (s : σ) : (get : EStateM ε σ σ) s = .ok s s := rfl

theorem run_modify (f : σ → σ) (s : σ) : (modify f : EStateM ε σ PUnit) s = .ok ⟨⟩ (f s) := rfl

end

/-! ## Where an action ends -/

/-- The state in which an action ends, whether or not it fails. -/
def endState {ε σ α : Type} : EStateM.Result ε σ α → σ
  | .ok _ s => s
  | .error _ s => s

@[simp] theorem endState_ok {ε σ α : Type} (a : α) (s : σ) :
    endState (.ok a s : EStateM.Result ε σ α) = s := rfl

@[simp] theorem endState_error {ε σ α : Type} (e : ε) (s : σ) :
    endState (.error e s : EStateM.Result ε σ α) = s := rfl

/-- What an action that does not fail gives. -/
def value? {ε σ α : Type} : EStateM.Result ε σ α → Option α
  | .ok a _ => some a
  | .error .. => none

theorem eq_ok_of_value? {ε σ α : Type} {r : EStateM.Result ε σ α} {a : α} (h : value? r = some a) :
    r = .ok a (endState r) := by
  cases r with
  | ok b s =>
      cases h
      rfl
  | error => cases h

/-- A result that is there, for inputs on which it can be computed. -/
theorem Except.eq_ok_getD {ε α : Type} {x : Except ε α} (d : α) (there : x.toOption.isSome = true) :
    x = .ok (x.toOption.getD d) := by
  cases x with
  | ok a => rfl
  | error e => cases there

theorem Except.bind_eq_ok {ε α β : Type} {x : Except ε α} {f : α → Except ε β} {b : β} :
    (x >>= f) = .ok b ↔ ∃ a, x = .ok a ∧ f a = .ok b := by
  cases x with
  | ok a => simp [bind, Except.bind]
  | error e => simp [bind, Except.bind]

theorem Except.map_eq_ok {ε α β : Type} {f : α → β} {x : Except ε α} {b : β}
    (h : x.map f = .ok b) : ∃ a, x = .ok a ∧ f a = b := by
  cases x with
  | error e => cases h
  | ok a => exact ⟨a, rfl, by cases h; rfl⟩

/-- Why an action failed. -/
def fault? {ε σ α : Type} : EStateM.Result ε σ α → Option ε
  | .ok .. => none
  | .error e _ => some e

theorem eq_error_of_fault? {ε σ α : Type} {r : EStateM.Result ε σ α} {e : ε}
    (h : fault? r = some e) : r = .error e (endState r) := by
  cases r with
  | ok => cases h
  | error =>
      cases h
      rfl

/-- Wherever an action begins, it ends in a related state. -/
def Leads {ε σ α : Type} (R : σ → σ → Prop) (x : EStateM ε σ α) : Prop :=
  ∀ s, R s (endState (x s))

namespace Leads

variable {ε σ α β : Type} {R : σ → σ → Prop}

theorem mono {R' : σ → σ → Prop} {x : EStateM ε σ α} (h : ∀ s s', R s s' → R' s s')
    (hx : Leads R x) : Leads R' x := fun s => h _ _ (hx s)

theorem of_ok {x : EStateM ε σ α} (hx : Leads R x) {s s' : σ} {a : α} (h : x s = .ok a s') :
    R s s' := by
  have := hx s
  rwa [h] at this

theorem of_error {x : EStateM ε σ α} (hx : Leads R x) {s s' : σ} {e : ε} (h : x s = .error e s') :
    R s s' := by
  have := hx s
  rwa [h] at this

theorem modified {f : σ → σ} (h : ∀ s, R s (f s)) : Leads R (modify f : EStateM ε σ PUnit) := h

theorem ite {x y : EStateM ε σ α} (c : Prop) [Decidable c] (hx : Leads R x) (hy : Leads R y) :
    Leads R (if c then x else y) := by
  split
  · exact hx
  · exact hy

variable [IsPreorder σ R]

@[simp] theorem pure (a : α) : Leads R (Pure.pure a : EStateM ε σ α) :=
  fun s => refl_of R s

@[simp] theorem throw (e : ε) : Leads R (MonadExcept.throw e : EStateM ε σ α) :=
  fun s => refl_of R s

@[simp] theorem get : Leads R (MonadState.get : EStateM ε σ σ) :=
  fun s => refl_of R s

@[simp] theorem bind {x : EStateM ε σ α} {f : α → EStateM ε σ β} (hx : Leads R x)
    (hf : ∀ a, Leads R (f a)) : Leads R (x >>= f) := by
  intro s
  have first := hx s
  cases h : x s with
  | error e s' =>
      rw [h] at first
      simpa [Bind.bind, EStateM.bind, h] using first
  | ok a s' =>
      rw [h] at first
      have second := hf a s'
      simpa [Bind.bind, EStateM.bind, h] using trans_of R first second

@[simp] theorem map {x : EStateM ε σ α} (f : α → β) (hx : Leads R x) : Leads R (f <$> x) := by
  rw [map_eq_pure_bind]
  exact hx.bind fun a => .pure (f a)

@[simp] theorem discard {x : EStateM ε σ α} (hx : Leads R x) :
    Leads R (Functor.discard x : EStateM ε σ PUnit) := map _ hx

theorem mapM {x : β → EStateM ε σ α} (bs : List β) (hx : ∀ b, Leads R (x b)) :
    Leads R (bs.mapM x) := by
  induction bs with
  | nil => simp
  | cons b bs ih => simp [hx b, ih]

end Leads

/-- A result changes nothing. -/
@[simp] theorem Leads.lift {σ α : Type} {R : σ → σ → Prop} [IsPreorder σ R] (x : Except Fault α) :
    Leads R (liftM x : EStateM Fault σ α) := by
  intro s
  cases x <;> exact refl_of R s

/-- An action that leads somewhere from this state, and goes on from there. -/
theorem Leads.after {ε σ α β : Type} {R : σ → σ → Prop} [IsPreorder σ R] {x : EStateM ε σ α}
    {f : α → EStateM ε σ β} {s : σ} (first : R s (endState (x s))) (rest : ∀ a, Leads R (f a)) :
    R s (endState ((x >>= f) s)) := by
  rw [run_bind]
  cases hx : x s with
  | ok a t =>
      rw [hx] at first
      exact trans_of R first (rest a t)
  | error e t =>
      rw [hx] at first
      exact first

end ZMachine
