/-
  Code that is run twice.

  Code runs alike on two sides if its helpers do: from related states, both
  sides give the same value, or the same failure, in related states.  The
  first side may get lost on the way; then nothing is said of the second, and
  the first stays lost.
-/
import ZMachine.Proofs.Compiling
import ZMachine.Proofs.Effects

namespace ZMachine

variable {ε σ τ α β : Type} {Lost : σ → Prop} {S : σ → τ → Prop}

/-! ## Two sides -/

/-- The same value in related states. -/
def Agree (S : σ → τ → Prop) (a : α) (s : σ) (b : α) (t : τ) : Prop := a = b ∧ S s t

/-- From related states, the actions agree on their value or failure, unless the first one gets
lost.  Who is lost stays lost. -/
structure Tracks (Lost : σ → Prop) (S : σ → τ → Prop) (x : EStateM ε σ α) (y : EStateM ε τ α) :
    Prop where
  lost : ∀ s, Lost s → Lost (endState (x s))
  joint : ∀ s t, S s t → Lost (endState (x s)) ∨ Joint (Agree S) (Agree S) (x s) (y t)

namespace Tracks

theorem pure (a : α) : Tracks Lost S (Pure.pure a : EStateM ε σ α)
    (Pure.pure a : EStateM ε τ α) where
  lost _ h := h
  joint _ _ h := .inr (.ok ⟨rfl, h⟩)

theorem throw (e : ε) :
    Tracks Lost S (MonadExcept.throw e : EStateM ε σ α) (MonadExcept.throw e : EStateM ε τ α) where
  lost _ h := h
  joint _ _ h := .inr (.error ⟨rfl, h⟩)

theorem bind {x : EStateM ε σ α} {y : EStateM ε τ α} {f : α → EStateM ε σ β} {g : α → EStateM ε τ β}
    (first : Tracks Lost S x y) (rest : ∀ a, Tracks Lost S (f a) (g a)) :
    Tracks Lost S (x >>= f) (y >>= g) := by
  -- Once lost, the second part does not bring it back.
  have stays (s : σ) (h : Lost (endState (x s))) : Lost (endState ((x >>= f) s)) := by
    simp only [Bind.bind, EStateM.bind]
    cases hx : x s with
    | ok a s' =>
        rw [hx] at h
        exact (rest a).lost s' h
    | error e s' =>
        rw [hx] at h
        exact h
  refine ⟨fun s h => stays s (first.lost s h), fun s t related => ?_⟩
  rcases first.joint s t related with lost | joint
  · exact .inl (stays s lost)
  · simp only [Bind.bind, EStateM.bind]
    generalize x s = r at joint ⊢
    generalize y t = r' at joint ⊢
    cases joint with
    | ok agree =>
        obtain ⟨rfl, related⟩ := agree
        exact (rest _).joint _ _ related
    | error agree => exact .inr (.error agree)

end Tracks

/-- A relation of actions on two sides that holds of a whole if it holds of its parts. -/
class Compositional (T : {α : Type} → EStateM ε σ α → EStateM ε τ α → Prop) : Prop where
  pure {α : Type} (a : α) : T (Pure.pure a : EStateM ε σ α) (Pure.pure a : EStateM ε τ α)
  bind {α β : Type} {x : EStateM ε σ α} {y : EStateM ε τ α} {f : α → EStateM ε σ β}
    {g : α → EStateM ε τ β} (first : T x y) (rest : ∀ a, T (f a) (g a)) : T (x >>= f) (y >>= g)

instance : Compositional (Tracks Lost S : {α : Type} → EStateM ε σ α → EStateM ε τ α → Prop) where
  pure := Tracks.pure
  bind := Tracks.bind

section

variable {T : {α : Type} → EStateM ε σ α → EStateM ε τ α → Prop}

/-- The same for actions that have words of their own. -/
def Own (T : {α : Type} → EStateM ε σ α → EStateM ε τ α → Prop)
    (x : StateT (List Word) (EStateM ε σ) α) (y : StateT (List Word) (EStateM ε τ) α) : Prop :=
  ∀ own, T (x own) (y own)

namespace Own

theorem get_bind {f : List Word → StateT (List Word) (EStateM ε σ) β}
    {g : List Word → StateT (List Word) (EStateM ε τ) β} (rest : ∀ own, Own T (f own) (g own)) :
    Own T (get >>= f) (get >>= g) :=
  fun own => rest own own

variable [Compositional T]

theorem pure (a : α) :
    Own T (Pure.pure a : StateT (List Word) (EStateM ε σ) α)
      (Pure.pure a : StateT (List Word) (EStateM ε τ) α) :=
  fun own => Compositional.pure (a, own)

theorem bind {x : StateT (List Word) (EStateM ε σ) α} {y : StateT (List Word) (EStateM ε τ) α}
    {f : α → StateT (List Word) (EStateM ε σ) β} {g : α → StateT (List Word) (EStateM ε τ) β}
    (first : Own T x y) (rest : ∀ a, Own T (f a) (g a)) : Own T (x >>= f) (y >>= g) :=
  fun own => Compositional.bind (first own) fun p => rest p.1 p.2

theorem lift {x : EStateM ε σ α} {y : EStateM ε τ α} (h : T x y) :
    Own T (liftM x : StateT (List Word) (EStateM ε σ) α)
      (liftM y : StateT (List Word) (EStateM ε τ) α) :=
  fun own => Compositional.bind h fun a => Compositional.pure (a, own)

theorem set (new : List Word) :
    Own T (MonadStateOf.set new : StateT (List Word) (EStateM ε σ) PUnit)
      (MonadStateOf.set new : StateT (List Word) (EStateM ε τ) PUnit) :=
  fun _ => Compositional.pure (PUnit.unit, new)

theorem discard {x : StateT (List Word) (EStateM ε σ) α} {y : StateT (List Word) (EStateM ε τ) α}
    (h : Own T x y) : Own T (Functor.discard x) (Functor.discard y) :=
  h.bind fun _ => .pure _

theorem mapM {ι : Type} {x : ι → StateT (List Word) (EStateM ε σ) α}
    {y : ι → StateT (List Word) (EStateM ε τ) α} (is : List ι)
    (h : ∀ i, Own T (x i) (y i)) : Own T (is.mapM x) (is.mapM y) := by
  induction is with
  | nil => exact .pure []
  | cons i is ih =>
      rw [List.mapM_cons, List.mapM_cons]
      exact (h i).bind fun a => ih.bind fun as => .pure (a :: as)

end Own

/-! ## Helpers -/

theorem getElem?_forall₂ {P : α → β → Prop} {as : List α} {bs : List β} (h : List.Forall₂ P as bs)
    (n : Nat) :
    (as[n]? = none ∧ bs[n]? = none) ∨ ∃ a b, as[n]? = some a ∧ bs[n]? = some b ∧ P a b := by
  induction h generalizing n with
  | nil => exact .inl ⟨rfl, rfl⟩
  | cons first _ ih =>
      cases n with
      | zero => exact .inr ⟨_, _, rfl, rfl, first⟩
      | succ n => simpa using ih n

/-- Helpers that run alike on two sides, where `R` relates the numbers of texts. -/
structure Helpers.Alike (T : {α : Type} → EStateM ε σ α → EStateM ε τ α → Prop)
    (R : Nat → Nat → Prop) (h : Helpers (EStateM ε σ)) (h' : Helpers (EStateM ε τ)) : Prop where
  trap {α : Type} (f : Fault) : T (h.trap f : EStateM ε σ α) (h'.trap f)
  exhausted {α : Type} : T (h.exhausted : EStateM ε σ α) h'.exhausted
  push (w : Word) : T (h.push w) (h'.push w)
  pop : T h.pop h'.pop
  peek : T h.peek h'.peek
  replaceTop (w : Word) : T (h.replaceTop w) (h'.replaceTop w)
  readGlobal (i : Byte) : T (h.readGlobal i) (h'.readGlobal i)
  writeGlobal (i : Byte) (w : Word) : T (h.writeGlobal i w) (h'.writeGlobal i w)
  perform (opcode : Opcode) (args : List Word) :
    T (h.perform opcode args) (h'.perform opcode args)
  call (a : Nat) (args : List Word) : T (h.call a args) (h'.call a args)
  callPacked (packed : Word) (args : List Word) :
    T (h.callPacked packed args) (h'.callPacked packed args)
  print {n n' : Nat} (same : R n n') : T (h.print n) (h'.print n')
  readLine (textBuffer parseBuffer : Word) :
    T (h.readLine textBuffer parseBuffer) (h'.readLine textBuffer parseBuffer)
  readChar : T h.readChar h'.readChar
  quit {α : Type} : T (h.quit : EStateM ε σ α) h'.quit

namespace Helpers.Alike

variable [Compositional T] {R : Nat → Nat → Prop} {h : Helpers (EStateM ε σ)}
    {h' : Helpers (EStateM ε τ)}

theorem readLocal (alike : Alike T R h h') (index : Byte) :
    Own T (h.readLocal index) (h'.readLocal index) := by
  refine .get_bind fun own => ?_
  split
  · exact .pure _
  · exact .lift (alike.trap _)

theorem writeLocal (alike : Alike T R h h') (index : Byte) (w : Word) :
    Own T (h.writeLocal index w) (h'.writeLocal index w) := by
  refine .get_bind fun own => ?_
  split
  · exact .set _
  · exact .lift (alike.trap _)

theorem readVariable (alike : Alike T R h h') (v : Variable) :
    Own T (h.readVariable v) (h'.readVariable v) := by
  cases v with
  | stack => exact .lift alike.pop
  | localVar i => exact alike.readLocal i
  | globalVar i => exact .lift (alike.readGlobal i)

theorem writeVariable (alike : Alike T R h h') (v : Variable) (w : Word) :
    Own T (h.writeVariable v w) (h'.writeVariable v w) := by
  cases v with
  | stack => exact .lift (alike.push w)
  | localVar i => exact alike.writeLocal i w
  | globalVar i => exact .lift (alike.writeGlobal i w)

theorem peekVariable (alike : Alike T R h h') (v : Variable) :
    Own T (h.peekVariable v) (h'.peekVariable v) := by
  cases v with
  | stack => exact .lift alike.peek
  | localVar i => exact alike.readVariable (.localVar i)
  | globalVar i => exact alike.readVariable (.globalVar i)

theorem replaceVariable (alike : Alike T R h h') (v : Variable) (w : Word) :
    Own T (h.replaceVariable v w) (h'.replaceVariable v w) := by
  cases v with
  | stack => exact .lift (alike.replaceTop w)
  | localVar i => exact alike.writeVariable (.localVar i) w
  | globalVar i => exact alike.writeVariable (.globalVar i) w

theorem operand (alike : Alike T R h h') (o : Operand) :
    Own T (h.operand o) (h'.operand o) := by
  cases o with
  | large w => exact .pure w
  | small b => exact .pure _
  | var v => exact alike.readVariable v

theorem store (alike : Alike T R h h') (target : Option Variable) (w : Word) :
    Own T (h.store target w) (h'.store target w) := by
  cases target with
  | none => exact .pure ()
  | some v => exact alike.writeVariable v w

theorem compute (alike : Alike T R h h') (operation : Arithmetic) (values : List Word) :
    Own T (h.compute operation values) (h'.compute operation values) := by
  cases operation with
  | add | sub | mul | and | or | not => exact .pure _
  | div | mod =>
      simp only [Helpers.compute]
      split
      · exact .lift (alike.trap _)
      · exact .pure _

theorem performed (alike : Alike T R h h') (opcode : Opcode) (values : List Word) :
    Own T (h.performed opcode values) (h'.performed opcode values) :=
  .lift (alike.perform opcode values)

theorem pullTable (alike : Alike T R h h') (table : Word) :
    Own T (h.pullTable table) (h'.pullTable table) := by
  refine (alike.performed _ _).bind fun free => (alike.performed _ _).bind fun top => ?_
  exact (alike.performed _ _).discard.bind fun _ => .pure _

/-! ## Code -/

/-- A value that is stored is stored on both sides. -/
theorem stores (alike : Alike T R h h') (target : Option Variable)
    {x : StateT (List Word) (EStateM ε σ) α} {y : StateT (List Word) (EStateM ε τ) α}
    (tracks : Own T x y) (value : α → Word) (control : α → Control) :
    Own T (x >>= fun a => h.store target (value a) >>= fun _ => Pure.pure (control a))
      (y >>= fun a => h'.store target (value a) >>= fun _ => Pure.pure (control a)) :=
  tracks.bind fun _ => (alike.store target _).bind fun _ => .pure _

theorem act (alike : Alike T R h h') (values : List Word) {a a' : Action}
    (same : a.Alike R a') : Own T (h.act values a) (h'.act values a') := by
  cases same with
  | print same => exact (Own.lift (alike.print same)).bind fun _ => .pure _
  | printLeave same => exact (Own.lift (alike.print same)).bind fun _ => .pure _
  -- What prints nothing is the same action on both sides, so one case for each action is enough.
  | silent _ silent =>
      cases a with
      | nothing | leave | leaveFirst | jump | compare => exact .pure _
      | print n | printLeave n => cases silent
      | leavePopped => exact (Own.lift alike.pop).bind fun _ => .pure _
      | refuse opcode => exact .lift (alike.trap _)
      | quit => exact .lift alike.quit
      | drop => exact (Own.lift alike.pop).discard.bind fun _ => .pure _
      | push => exact (Own.lift (alike.push _)).bind fun _ => .pure _
      | callNothing target => exact (alike.store target 0).bind fun _ => .pure _
      | call address target =>
          exact alike.stores target (.lift (alike.call _ _)) id fun _ => .next
      | callPacked target =>
          exact alike.stores target (.lift (alike.callPacked _ _)) id fun _ => .next
      | pullTop target => exact alike.stores target (.lift alike.pop) id fun _ => .next
      | pullTable target => exact alike.stores target (alike.pullTable _) id fun _ => .next
      | readLine target => exact alike.stores target (.lift (alike.readLine _ _)) id fun _ => .next
      | readChar target => exact alike.stores target (.lift alike.readChar) id fun _ => .next
      | compute operation target =>
          exact alike.stores target (alike.compute operation values) id fun _ => .next
      | copy c target => exact alike.stores target (alike.peekVariable _) id fun _ => .next
      | access opcode target =>
          exact alike.stores target (alike.performed opcode values) (fun o => o.value?.getD 0)
            fun _ => .next
      | perform opcode target b =>
          exact alike.stores target (alike.performed opcode values) (fun o => o.value?.getD 0)
            fun o => Helpers.branch b (o.test?.getD false)
      | pullInto c =>
          exact (Own.lift alike.pop).bind fun w =>
            (alike.replaceVariable _ w).bind fun _ => .pure _
      | replace c => exact (alike.replaceVariable _ _).bind fun _ => .pure _
      | adjust c delta =>
          exact (alike.peekVariable _).bind fun w =>
            (alike.replaceVariable _ _).bind fun _ => .pure _
      | adjustTest c delta comparison b =>
          exact (alike.peekVariable _).bind fun w =>
            (alike.replaceVariable _ _).bind fun _ => .pure _

theorem step (alike : Alike T R h h') {s s' : CodeStep} (same : s.Alike R s') :
    Own T (h.step s) (h'.step s') := by
  obtain ⟨operands, action⟩ := same
  rw [Helpers.step, Helpers.step, operands]
  exact (Own.mapM _ alike.operand).bind fun values => alike.act values action

theorem steps (alike : Alike T R h h') {ss ss' : List CodeStep}
    (same : List.Forall₂ (CodeStep.Alike R) ss ss') : Own T (h.steps ss) (h'.steps ss') := by
  induction same with
  | nil => exact .pure _
  | cons first _ ih =>
      refine (alike.step first).bind fun control => ?_
      cases control with
      | next => exact ih
      | block | leave => exact .pure _

theorem blocks (alike : Alike T R h h') {c c' : Code} (same : c.Alike R c')
    (bound number : Nat) : Own T (h.blocks c bound number) (h'.blocks c' bound number) := by
  induction bound generalizing number with
  | zero => exact .lift alike.exhausted
  | succ bound ih =>
      rw [Helpers.blocks, Helpers.blocks, ← Array.getElem?_toList, ← Array.getElem?_toList]
      -- Both codes have as many blocks, so both miss the number or none does.
      rcases getElem?_forall₂ same.blocks number with
        ⟨beyond, beyond'⟩ | ⟨b, b', there, there', blocks⟩
      · rw [beyond, beyond']
        exact .pure 0
      · rw [there, there']
        refine (alike.steps blocks.steps).bind fun control => ?_
        cases control with
        | leave w => exact .pure w
        | block n => exact ih n
        | next =>
            dsimp only
            rw [blocks.next]
            cases b'.next with
            | none => exact .pure 0
            | some n => exact ih n

/-- The same code runs alike. -/
theorem runCode (alike : Alike T R h h') {c c' : Code} (same : c.Alike R c')
    (bound : Nat) (args : List Word) : T (h.runCode c bound args) (h'.runCode c' bound args) := by
  rw [Helpers.runCode, Helpers.runCode, same.defaults]
  exact Compositional.bind (alike.blocks same bound 0 _) fun p => Compositional.pure p.1

end Helpers.Alike

end

end ZMachine
