/-
  Helpers that compiled code calls.

  Which helpers a step calls can be read off the step.  They are all that it
  depends on: tables of helpers that agree on them run the code alike.
-/
import ZMachine.Compile.Routine
import ZMachine.Compile.Run

namespace ZMachine

/-! ## Helpers that code calls -/

namespace Scope

variable (e : Scope)

/-- The helper that carries out an opcode in compiled code: memory accesses have their own. -/
def accessHelper : Opcode → Helper
  | .loadw => .loadWord
  | .loadb => .loadByte
  | .storew => .storeWord
  | .storeb => .storeByte
  | _ => .perform

/-- The helpers that an action calls. -/
def actionHelpers : Action → List Helper
  | .nothing | .leave _ | .leaveFirst | .jump _ | .compare .. => []
  | .leavePopped | .drop => [.pop]
  | .refuse _ => [.trap]
  | .print _ | .printLeave _ => [.printLiteral]
  | .quit => [.quit]
  | .push => [.push]
  | .callNothing target => e.storeHelpers target
  | .call _ target => .callDirect :: e.storeHelpers target
  | .callPacked target => .callPacked :: e.storeHelpers target
  | .pullTop target => .pop :: e.storeHelpers target
  | .pullTable target => .loadWord :: .storeWord :: e.storeHelpers target
  | .pullInto c => .pop :: e.cellWriteHelpers c
  | .adjust c _ | .adjustTest c .. => e.cellReadHelpers c ++ e.cellWriteHelpers c
  | .replace c => e.cellWriteHelpers c
  | .copy c target => e.cellReadHelpers c ++ e.storeHelpers target
  | .readLine target => .readLine :: e.storeHelpers target
  | .readChar target => .readChar :: e.storeHelpers target
  | .compute operation target =>
      (if operation = .div ∨ operation = .mod then [.trap] else []) ++ e.storeHelpers target
  | .access opcode target => accessHelper opcode :: e.storeHelpers target
  | .perform _ target _ => .perform :: e.storeHelpers target

/-- The helpers that a step calls. -/
def stepHelpers (s : CodeStep) : List Helper :=
  e.operandHelpers s.operands ++ e.actionHelpers s.action

/-- The helpers that code calls. -/
def codeHelpers (c : Code) : List Helper := c.steps.flatMap e.stepHelpers

end Scope

/-! ## Tables of helpers -/

namespace Helpers

variable {m : Type → Type} [Monad m]

/-- Tables that give up alike and carry out alike the helpers with the property `calls`.  The
helpers for a variable that is known only when the code runs reach variables of every kind. -/
structure Agree (calls : Helper → Prop) (h h' : Helpers m) : Prop where
  trap : ∀ {α : Type} (f : Fault), (h.trap f : m α) = h'.trap f
  exhausted : ∀ {α : Type}, (h.exhausted : m α) = h'.exhausted
  push : calls .push → h.push = h'.push
  pop : calls .pop → h.pop = h'.pop
  peek : calls .peek ∨ calls .readVariable → h.peek = h'.peek
  replaceTop : calls .replaceTop ∨ calls .writeVariable → h.replaceTop = h'.replaceTop
  readGlobal : calls .readGlobal ∨ calls .readVariable → h.readGlobal = h'.readGlobal
  writeGlobal : calls .writeGlobal ∨ calls .writeVariable → h.writeGlobal = h'.writeGlobal
  perform : ∀ opcode, calls .perform ∨ calls (Scope.accessHelper opcode) →
    h.perform opcode = h'.perform opcode
  call : calls .callDirect → h.call = h'.call
  callPacked : calls .callPacked → h.callPacked = h'.callPacked
  print : calls .printLiteral → h.print = h'.print
  readLine : calls .readLine → h.readLine = h'.readLine
  readChar : calls .readChar → h.readChar = h'.readChar
  quit : calls .quit → ∀ {α : Type}, (h.quit : m α) = h'.quit

variable {calls : Helper → Prop} {h h' : Helpers m} {e : Scope}

theorem readLocal_agree (same : h.Agree calls h') (index : Byte) :
    h.readLocal index = h'.readLocal index := by
  simp only [readLocal, same.trap]

theorem writeLocal_agree (same : h.Agree calls h') (index : Byte) (w : Word) :
    h.writeLocal index w = h'.writeLocal index w := by
  simp only [writeLocal, same.trap]

theorem readVariable_agree (same : h.Agree calls h') {v : Variable}
    (called : ∀ x ∈ e.readHelpers v, calls x) : h.readVariable v = h'.readVariable v := by
  cases v with
  | stack => simp only [readVariable, same.pop (called _ (by simp [Scope.readHelpers]))]
  | localVar i => exact readLocal_agree same i
  | globalVar i =>
      simp only [readVariable, same.readGlobal (.inl (called _ (by simp [Scope.readHelpers])))]

theorem writeVariable_agree (same : h.Agree calls h') {v : Variable}
    (called : ∀ x ∈ e.writeHelpers v, calls x) : h.writeVariable v = h'.writeVariable v := by
  funext w
  cases v with
  | stack => simp only [writeVariable, same.push (called _ (by simp [Scope.writeHelpers]))]
  | localVar i => exact writeLocal_agree same i w
  | globalVar i =>
      simp only [writeVariable, same.writeGlobal (.inl (called _ (by simp [Scope.writeHelpers])))]

theorem store_agree (same : h.Agree calls h') {target : Option Variable}
    (called : ∀ x ∈ e.storeHelpers target, calls x) : h.store target = h'.store target := by
  cases target with
  | none => rfl
  | some v => exact writeVariable_agree (e := e) same called

theorem peekVariable_agree (same : h.Agree calls h') {c : Cell}
    (called : ∀ x ∈ e.cellReadHelpers c, calls x) (values : List Word) :
    h.peekVariable (cell c values) = h'.peekVariable (cell c values) := by
  cases c with
  | named v =>
      cases v with
      | stack =>
          simp only [cell, peekVariable,
            same.peek (.inl (called _ (by simp [Scope.cellReadHelpers])))]
      | localVar i => exact readLocal_agree same i
      | globalVar i => exact readVariable_agree (e := e) (v := .globalVar i) same called
  | computed =>
      have any : calls .readVariable := called _ (by simp [Scope.cellReadHelpers])
      simp only [cell]
      generalize Variable.ofByte _ = v
      cases v with
      | stack => simp only [peekVariable, same.peek (.inr any)]
      | localVar i => exact readLocal_agree same i
      | globalVar i => simp only [peekVariable, readVariable, same.readGlobal (.inr any)]

theorem replaceVariable_agree (same : h.Agree calls h') {c : Cell}
    (called : ∀ x ∈ e.cellWriteHelpers c, calls x) (values : List Word) :
    h.replaceVariable (cell c values) = h'.replaceVariable (cell c values) := by
  funext w
  cases c with
  | named v =>
      cases v with
      | stack =>
          have top := same.replaceTop (.inl (called _ (by simp [Scope.cellWriteHelpers])))
          simp only [cell, replaceVariable, top]
      | localVar i => exact writeLocal_agree same i w
      | globalVar i =>
          exact congrFun (writeVariable_agree (e := e) (v := .globalVar i) same called) w
  | computed =>
      have any : calls .writeVariable := called _ (by simp [Scope.cellWriteHelpers])
      simp only [cell]
      generalize Variable.ofByte _ = v
      cases v with
      | stack => simp only [replaceVariable, same.replaceTop (.inr any)]
      | localVar i => exact writeLocal_agree same i w
      | globalVar i => simp only [replaceVariable, writeVariable, same.writeGlobal (.inr any)]

theorem compute_agree (same : h.Agree calls h') (operation : Arithmetic) (values : List Word) :
    h.compute operation values = h'.compute operation values := by
  cases operation <;> simp only [compute, same.trap]

theorem pullTable_agree (same : h.Agree calls h') (load : calls .loadWord)
    (store : calls .storeWord) (table : Word) : h.pullTable table = h'.pullTable table := by
  simp only [pullTable, performed, same.perform .loadw (.inr load),
    same.perform .storew (.inr store)]

theorem act_agree (same : h.Agree calls h') {a : Action} (called : ∀ x ∈ e.actionHelpers a, calls x)
    (values : List Word) : h.act values a = h'.act values a := by
  -- What the action itself calls comes first, then what storing the result calls.
  cases a with
  | nothing | leave | leaveFirst | jump | compare => rfl
  | leavePopped | drop => simp only [act, same.pop (called _ (List.mem_singleton_self _))]
  | refuse opcode => simp only [act, same.trap]
  | print n | printLeave n =>
      simp only [act, same.print (called _ (List.mem_singleton_self _))]
  | quit => simp only [act, same.quit (called _ (List.mem_singleton_self _))]
  | push => simp only [act, same.push (called _ (List.mem_singleton_self _))]
  | callNothing target => simp only [act, store_agree same called]
  | call address target =>
      obtain ⟨first, rest⟩ := List.forall_mem_cons.mp called
      simp only [act, same.call first, store_agree same rest]
  | callPacked target =>
      obtain ⟨first, rest⟩ := List.forall_mem_cons.mp called
      simp only [act, same.callPacked first, store_agree same rest]
  | pullTop target =>
      obtain ⟨first, rest⟩ := List.forall_mem_cons.mp called
      simp only [act, same.pop first, store_agree same rest]
  | pullTable target =>
      obtain ⟨load, rest⟩ := List.forall_mem_cons.mp called
      obtain ⟨save, rest⟩ := List.forall_mem_cons.mp rest
      simp only [act, pullTable_agree same load save, store_agree same rest]
  | pullInto c =>
      obtain ⟨first, rest⟩ := List.forall_mem_cons.mp called
      simp only [act, same.pop first, replaceVariable_agree same rest]
  | adjust c delta =>
      obtain ⟨read, write⟩ := List.forall_mem_append.mp called
      simp only [act, peekVariable_agree same read, replaceVariable_agree same write]
  | adjustTest c delta comparison b =>
      obtain ⟨read, write⟩ := List.forall_mem_append.mp called
      simp only [act, peekVariable_agree same read, replaceVariable_agree same write]
  | replace c => simp only [act, replaceVariable_agree same called]
  | copy c target =>
      obtain ⟨read, write⟩ := List.forall_mem_append.mp called
      simp only [act, peekVariable_agree same read, store_agree same write]
  | readLine target =>
      obtain ⟨first, rest⟩ := List.forall_mem_cons.mp called
      simp only [act, same.readLine first, store_agree same rest]
  | readChar target =>
      obtain ⟨first, rest⟩ := List.forall_mem_cons.mp called
      simp only [act, same.readChar first, store_agree same rest]
  | compute operation target =>
      obtain ⟨-, rest⟩ := List.forall_mem_append.mp called
      simp only [act, compute_agree same, store_agree same rest]
  | access opcode target =>
      obtain ⟨first, rest⟩ := List.forall_mem_cons.mp called
      simp only [act, performed, same.perform opcode (.inr first), store_agree same rest]
  | perform opcode target b =>
      obtain ⟨first, rest⟩ := List.forall_mem_cons.mp called
      simp only [act, performed, same.perform opcode (.inl first), store_agree same rest]

theorem operand_agree (same : h.Agree calls h') {operands : List Operand}
    (called : ∀ x ∈ e.operandHelpers operands, calls x) :
    ∀ o ∈ operands, h.operand o = h'.operand o := by
  intro o mem
  cases o with
  | var v =>
      refine readVariable_agree (e := e) same fun x hx => called x ?_
      exact List.mem_flatMap.mpr ⟨_, mem, hx⟩
  | large => rfl
  | small => rfl

theorem mapM_congr {α β : Type} {M : Type → Type} [Monad M] {f g : α → M β} {as : List α}
    (same : ∀ a ∈ as, f a = g a) : as.mapM f = as.mapM g := by
  -- The monad need not be lawful, so the induction is on the loop behind it.
  unfold List.mapM
  generalize ([] : List β) = done
  induction as generalizing done with
  | nil => rfl
  | cons a as ih =>
      have rest := ih fun a ha => same a (List.mem_cons_of_mem _ ha)
      simp only [List.mapM.loop, same a List.mem_cons_self, rest]

theorem step_agree (same : h.Agree calls h') {s : CodeStep}
    (called : ∀ x ∈ e.stepHelpers s, calls x) : h.step s = h'.step s := by
  obtain ⟨read, acts⟩ := List.forall_mem_append.mp called
  simp only [step, mapM_congr (operand_agree same read), act_agree same acts]

theorem steps_agree (same : h.Agree calls h') {ss : List CodeStep}
    (called : ∀ s ∈ ss, ∀ x ∈ e.stepHelpers s, calls x) : h.steps ss = h'.steps ss := by
  induction ss with
  | nil => rfl
  | cons s rest ih =>
      obtain ⟨first, more⟩ := List.forall_mem_cons.mp called
      simp only [steps, step_agree same first, ih more]

theorem blocks_agree (same : h.Agree calls h') {code : Code}
    (called : ∀ x ∈ e.codeHelpers code, calls x) (bound number : Nat) :
    h.blocks code bound number = h'.blocks code bound number := by
  induction bound generalizing number with
  | zero => simp only [blocks, same.exhausted]
  | succ bound ih =>
      unfold blocks
      cases found : code.blocks[number]? with
      | none => rfl
      | some b =>
          have steps : h.steps b.steps = h'.steps b.steps := by
            refine steps_agree (e := e) same fun s hs x hx => called x ?_
            have mem : b ∈ code.blocks.toList :=
              Array.mem_toList_iff.mpr (Array.mem_of_getElem? found)
            exact List.mem_flatMap.mpr ⟨s, List.mem_flatMap.mpr ⟨b, mem, hs⟩, hx⟩
          simp only [steps, ih]

/-- Code depends on no helper but those that it calls. -/
theorem runCode_agree {code : Code} (same : h.Agree (· ∈ e.codeHelpers code) h') (bound : Nat)
    (args : List Word) : h.runCode code bound args = h'.runCode code bound args := by
  simp only [runCode, blocks_agree same (fun _ mem => mem)]

end Helpers

end ZMachine
