/-
  Two actions side by side.

  Two actions go in lockstep if, from related states, both succeed with
  related results in related states, or both fail.  Lockstep passes from the
  parts of an action to the whole, so it is shown of the parts alone.
-/
import ZMachine.Compile.Run

namespace ZMachine

variable {ε ε' σ τ ρ α β γ δ : Type}

/-! ## Related results -/

/-- Both results are successes that `V` relates, or failures that `F` relates. -/
inductive Joint (V : α → σ → β → τ → Prop) (F : ε → σ → ε' → τ → Prop) :
    EStateM.Result ε σ α → EStateM.Result ε' τ β → Prop where
  | ok {a : α} {s : σ} {b : β} {t : τ} (h : V a s b t) : Joint V F (.ok a s) (.ok b t)
  | error {e : ε} {s : σ} {e' : ε'} {t : τ} (h : F e s e' t) : Joint V F (.error e s) (.error e' t)

theorem Joint.mono {V V' : α → σ → β → τ → Prop} {F F' : ε → σ → ε' → τ → Prop}
    {x : EStateM.Result ε σ α} {y : EStateM.Result ε' τ β} (h : Joint V F x y)
    (hV : ∀ a s b t, V a s b t → V' a s b t) (hF : ∀ e s e' t, F e s e' t → F' e s e' t) :
    Joint V' F' x y := by
  cases h with
  | ok h => exact .ok (hV _ _ _ _ h)
  | error h => exact .error (hF _ _ _ _ h)

/-- From states that `S` relates, two actions lead to results that `V` and states that `S` relates,
or to failures that `F` relates. -/
def Lockstep (S : σ → τ → Prop) (F : ε → σ → ε' → τ → Prop) (V : α → β → Prop)
    (x : EStateM ε σ α) (y : EStateM ε' τ β) : Prop :=
  ∀ s t, S s t → Joint (fun a s b t => V a b ∧ S s t) F (x s) (y t)

namespace Lockstep

variable {S : σ → τ → Prop} {F : ε → σ → ε' → τ → Prop} {V : α → β → Prop} {W : γ → δ → Prop}

theorem pure {a : α} {b : β} (h : V a b) :
    Lockstep S F V (Pure.pure a : EStateM ε σ α) (Pure.pure b : EStateM ε' τ β) :=
  fun _ _ hs => .ok ⟨h, hs⟩

theorem throw {e : ε} {e' : ε'} (h : ∀ s t, S s t → F e s e' t) :
    Lockstep S F V (MonadExcept.throw e : EStateM ε σ α)
      (MonadExcept.throw e' : EStateM ε' τ β) :=
  fun s t hs => .error (h s t hs)

theorem mono {V' : α → β → Prop} {x : EStateM ε σ α} {y : EStateM ε' τ β} (h : Lockstep S F V x y)
    (hV : ∀ a b, V a b → V' a b) : Lockstep S F V' x y :=
  fun s t hs => (h s t hs).mono (fun _ _ _ _ h => ⟨hV _ _ h.1, h.2⟩) fun _ _ _ _ h => h

/-- The rest of an action, from a state that its first part leads to. -/
theorem bind_at {x : EStateM ε σ α} {y : EStateM ε' τ β} {f : α → EStateM ε σ γ}
    {g : β → EStateM ε' τ δ} {s : σ} {t : τ} {V : α → σ → β → τ → Prop} {U : γ → σ → δ → τ → Prop}
    (first : Joint V F (x s) (y t))
    (rest : ∀ a s b t, V a s b t → Joint U F (f a s) (g b t)) :
    Joint U F ((x >>= f) s) ((y >>= g) t) := by
  simp only [Bind.bind, EStateM.bind]
  cases hx : x s <;> cases hy : y t <;> rw [hx, hy] at first <;> cases first
  · rename_i h
    exact rest _ _ _ _ h
  · rename_i h
    exact .error h

theorem bind {x : EStateM ε σ α} {y : EStateM ε' τ β} {f : α → EStateM ε σ γ}
    {g : β → EStateM ε' τ δ} (first : Lockstep S F V x y)
    (rest : ∀ a b, V a b → Lockstep S F W (f a) (g b)) : Lockstep S F W (x >>= f) (y >>= g) :=
  fun s t hs => bind_at (first s t hs) fun a s b t h => rest a b h.1 s t h.2

end Lockstep

/-! ## Actions with a state of their own -/

/-- An action with a state of its own beside the state of the others.  A failure leaves nothing of
it. -/
def flat (x : StateT (List ρ) (EStateM ε σ) α) : EStateM ε (List ρ × σ) α := fun (own, s) =>
  match x own s with
  | .ok (a, own) s => .ok a (own, s)
  | .error e s => .error e ([], s)

theorem flat_bind (x : StateT (List ρ) (EStateM ε σ) α) (f : α → StateT (List ρ) (EStateM ε σ) β) :
    flat (x >>= f) = flat x >>= fun a => flat (f a) := by
  funext ⟨own, s⟩
  simp only [flat, Bind.bind, StateT.bind, EStateM.bind]
  cases x own s <;> rfl

theorem run_flat_bind (x : StateT (List ρ) (EStateM ε σ) α)
    (f : α → StateT (List ρ) (EStateM ε σ) β) (p : List ρ × σ) :
    flat (x >>= f) p =
      match flat x p with
      | .ok a p => flat (f a) p
      | .error e p => .error e p := by
  rw [flat_bind]
  simp only [Bind.bind, EStateM.bind]
  cases flat x p <;> rfl

theorem flat_lift (x : EStateM ε σ α) (own : List ρ) (s : σ) :
    flat (liftM x : StateT (List ρ) (EStateM ε σ) α) (own, s) =
      match x s with
      | .ok a s => .ok a (own, s)
      | .error e s => .error e ([], s) := by
  simp only [flat, liftM, monadLift, MonadLift.monadLift, StateT.lift, Bind.bind, EStateM.bind]
  cases x s <;> rfl

end ZMachine
