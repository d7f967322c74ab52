/-
  What operations leave to store and to test.

  An opcode whose encoding names a result variable leaves a value, and one
  whose encoding carries a branch leaves a test.
-/
import ZMachine.Compile.Needs
import ZMachine.Machine.Perform
import ZMachine.Proofs.Actions

namespace ZMachine

variable {ε σ α β : Type}

/-- Every result of an action has a property. -/
def Yields (Q : α → Prop) (x : EStateM ε σ α) : Prop := ∀ s a s', x s = .ok a s' → Q a

namespace Yields

variable {Q : α → Prop} {R : β → Prop}

theorem pure {a : α} (h : Q a) : Yields Q (Pure.pure a : EStateM ε σ α) := by
  intro s b s' ran
  cases ran
  exact h

theorem throw (e : ε) : Yields Q (MonadExcept.throw e : EStateM ε σ α) := by
  intro s b s' ran
  cases ran

theorem bind {x : EStateM ε σ α} {f : α → EStateM ε σ β} (hf : ∀ a, Yields R (f a)) :
    Yields R (x >>= f) := by
  intro s b s' ran
  simp only [Bind.bind, EStateM.bind] at ran
  split at ran
  · exact hf _ _ _ _ ran
  · cases ran

theorem ite {x y : EStateM ε σ α} (c : Prop) [Decidable c] (hx : Yields Q x) (hy : Yields Q y) :
    Yields Q (if c then x else y) := by
  split
  · exact hx
  · exact hy

theorem lift {x : Except Fault α} (h : ∀ a, x = .ok a → Q a) :
    Yields Q (liftM x : EStateM Fault σ α) := by
  intro s a s' ran
  cases x with
  | ok b =>
      cases ran
      exact h _ rfl
  | error e => cases ran

end Yields

/-- An outcome has what an opcode promises: a value to store, a test to branch on. -/
structure Outcome.Meets (version : Nat) (opcode : Opcode) (o : Outcome) : Prop where
  value : opcode.hasStore version = true → o.value?.isSome = true
  test : opcode.hasBranch version = true → o.test?.isSome = true

namespace Machine

variable {version : Nat} {opcode : Opcode}

theorem meets_done (hs : opcode.hasStore version = false) (hb : opcode.hasBranch version = false) :
    Outcome.done.Meets version opcode := ⟨by simp [hs], by simp [hb]⟩

theorem meets_value (w : Word) (hb : opcode.hasBranch version = false) :
    (Outcome.value w).Meets version opcode := ⟨fun _ => rfl, by simp [hb]⟩

theorem meets_test (passed : Bool) (hs : opcode.hasStore version = false) :
    (Outcome.test passed).Meets version opcode := ⟨by simp [hs], fun _ => rfl⟩

theorem meets_valueTest (w : Word) (passed : Bool) :
    (Outcome.valueTest w passed).Meets version opcode := ⟨fun _ => rfl, fun _ => rfl⟩

/-- What an opcode leaves when it is carried out. -/
abbrev Leaves (version : Nat) (opcode : Opcode) (x : MachineM Outcome) : Prop :=
  Yields (Outcome.Meets version opcode) x

theorem leaves_doing (x : MachineM Unit) (hs : opcode.hasStore version = false)
    (hb : opcode.hasBranch version = false) : Leaves version opcode (doing x) :=
  .bind fun _ => .pure (meets_done hs hb)

theorem leaves_screen (command : ScreenCommand) (hs : opcode.hasStore version = false)
    (hb : opcode.hasBranch version = false) : Leaves version opcode (screen command) :=
  .bind fun _ => .pure (meets_done hs hb)

theorem meets_arithmetic {args : List Word} {o : Outcome}
    (h : performArithmetic opcode args = .ok o) : o.Meets version opcode := by
  unfold performArithmetic at h
  dsimp only at h
  split at h
  -- Tests of one operand and of two, then values; a division looks at its divisor first.
  case h_1 | h_4 =>
    obtain ⟨_, _, h⟩ := Except.bind_eq_ok.mp h
    cases h
    exact meets_test _ rfl
  case h_2 | h_3 | h_5 =>
    obtain ⟨_, _, h⟩ := Except.bind_eq_ok.mp h
    obtain ⟨_, _, h⟩ := Except.bind_eq_ok.mp h
    cases h
    exact meets_test _ rfl
  case h_8 =>
    obtain ⟨_, _, h⟩ := Except.bind_eq_ok.mp h
    cases h
    exact meets_value _ rfl
  case h_12 | h_13 =>
    obtain ⟨_, _, h⟩ := Except.bind_eq_ok.mp h
    split at h
    · cases h
    · obtain ⟨_, _, h⟩ := Except.bind_eq_ok.mp h
      cases h
      exact meets_value _ rfl
  case h_16 => cases h
  all_goals
    obtain ⟨_, _, h⟩ := Except.bind_eq_ok.mp h
    obtain ⟨_, _, h⟩ := Except.bind_eq_ok.mp h
    cases h
    exact meets_value _ rfl

theorem leaves_object (args : List Word) :
    Leaves version opcode (performObject opcode args) := by
  unfold performObject
  refine .bind fun s => ?_
  dsimp only
  split
  case h_3 | h_4 | h_5 | h_6 | h_14 => exact leaves_doing _ rfl rfl
  case h_15 => exact .throw _
  all_goals refine .bind fun _ => ?_
  case h_1 => exact .bind fun _ => .bind fun _ => .pure (meets_test _ rfl)
  case h_2 => exact .bind fun _ => .bind fun _ => .pure (meets_test _ rfl)
  case h_7 => exact .bind fun _ => .pure (meets_valueTest _ _)
  case h_8 => exact .bind fun _ => .pure (meets_valueTest _ _)
  case h_9 => exact .bind fun _ => .pure (meets_value _ rfl)
  case h_13 => exact .bind fun _ => .pure (meets_value _ rfl)
  all_goals exact .bind fun _ => .bind fun _ => .pure (meets_value _ rfl)

theorem meets_scanTable {m : Memory} {value : Word} {words : Bool} {stride count a : Nat}
    {o : Outcome} (h : scanTable m value words stride count a = .ok o) :
    o.Meets version opcode := by
  induction count generalizing a with
  | zero =>
      cases h
      exact meets_valueTest _ _
  | succ count ih =>
      unfold scanTable at h
      obtain ⟨entry, _, h⟩ := Except.bind_eq_ok.mp h
      split at h
      · cases h
        exact meets_valueTest _ _
      · exact ih h

theorem leaves_memory (args : List Word) :
    Leaves version opcode (performMemory opcode args) := by
  unfold performMemory
  dsimp only
  split
  case h_5 | h_7 => exact leaves_doing _ rfl rfl
  case h_10 => exact .throw _
  case h_1 | h_2 => exact .bind fun _ => .bind fun _ => .bind fun _ => .pure (meets_value _ rfl)
  case h_3 | h_4 => exact .bind fun _ => .bind fun _ => leaves_doing _ rfl rfl
  case h_6 =>
    refine .bind fun _ => .bind fun _ => .bind fun _ => ?_
    exact .bind fun s => .lift fun o h => meets_scanTable h
  case h_8 => exact .bind fun _ => .bind fun _ => .bind fun _ => .pure (meets_test _ rfl)
  case h_9 =>
    refine .bind fun _ => .bind fun _ => .ite _ ?_ ?_
    · exact .bind fun _ => .pure (meets_value _ rfl)
    · exact .bind fun _ => .pure (meets_value _ rfl)

theorem leaves_text (args : List Word) : Leaves version opcode (performText opcode args) := by
  unfold performText
  dsimp only
  split
  case h_2 =>
    refine .bind fun s => .bind fun w => ?_
    split
    · exact leaves_doing _ rfl rfl
    · exact .pure (meets_done rfl rfl)
  case h_4 => exact .bind fun _ => .bind fun _ => .pure (meets_value _ rfl)
  case h_8 => exact .bind fun _ => .bind fun _ => .bind fun _ => leaves_doing _ rfl rfl
  case h_9 => exact .bind fun _ => .bind fun _ => leaves_doing _ rfl rfl
  case h_10 =>
    exact .bind fun _ => .bind fun _ => .bind fun _ => .bind fun _ => .bind fun _ =>
      leaves_doing _ rfl rfl
  case h_11 =>
    exact .bind fun _ => .bind fun _ => .bind fun _ => .bind fun _ => .bind fun _ =>
      .bind fun _ => leaves_doing _ rfl rfl
  case h_12 => exact .throw _
  all_goals exact leaves_doing _ rfl rfl

theorem leaves_performScreen (args : List Word) :
    Leaves version opcode (performScreen opcode args) := by
  unfold performScreen
  dsimp only
  split
  case h_1 =>
    exact .bind fun _ => .bind fun _ => .bind fun _ => .bind fun _ => .pure (meets_done rfl rfl)
  case h_2 =>
    refine .bind fun _ => ?_
    split
    · exact .bind fun _ => .pure (meets_done rfl rfl)
    · exact .pure (meets_done rfl rfl)
  case h_3 => exact leaves_doing _ rfl rfl
  case h_9 => exact .bind fun _ => .bind fun _ => .bind fun _ => leaves_doing _ rfl rfl
  case h_12 | h_13 => exact .bind fun _ => .bind fun _ => leaves_screen _ rfl rfl
  case h_14 => exact leaves_screen _ rfl rfl
  case h_15 => exact .bind fun _ => .bind fun _ => .pure (meets_value _ rfl)
  case h_16 | h_17 | h_18 => exact .pure (meets_done rfl rfl)
  case h_19 => exact .pure (meets_test _ rfl)
  case h_20 => exact .throw _
  all_goals exact .bind fun _ => leaves_screen _ rfl rfl

theorem leaves_file (h : opcode.interpreterOnly = false) :
    Leaves version opcode (performFile opcode) := by
  unfold performFile
  split
  case h_1 => exact .bind fun _ => .pure (meets_test _ rfl)
  case h_2 => exact .pure (meets_test _ rfl)
  case h_3 => exact .pure (meets_done rfl rfl)
  case h_10 => exact .throw _
  all_goals cases h

/-- Every opcode leaves what its encoding promises. -/
theorem leaves_perform (h : opcode.interpreterOnly = false) (args : List Word) :
    Leaves version opcode (perform opcode args) := by
  unfold perform
  split
  all_goals first
    | exact .lift fun o h => meets_arithmetic h
    | exact leaves_object args
    | exact leaves_memory args
    | exact leaves_text args
    | exact leaves_performScreen args
    | exact leaves_file h

end Machine
end ZMachine
