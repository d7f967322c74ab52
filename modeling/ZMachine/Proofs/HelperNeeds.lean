/-
  Helpers that compiled code needs.

  Which groups of helpers a routine needs is found out beforehand, from its
  instructions alone; the compiler then asks for helpers one by one.  What it
  asks for belongs to the groups found beforehand, and the code calls nothing
  but what was asked for.
-/
import ZMachine.Proofs.Compiling
import ZMachine.Proofs.HelperCalls

namespace ZMachine

variable {α β : Type}

/-! ## Asking -/

/-- An action of the compiler that fails for want of a helper only if the helper has the property
`W`; its results have the property `Q`. -/
structure CompileM.Asks (W : Helper → Prop) (Q : α → Prop) (x : CompileM α) : Prop where
  missing : ∀ {pool more : List String} {address : Nat} {h : Helper},
    x pool = .error (.missingHelper address h) more → W h
  result : ∀ {pool more : List String} {a : α}, x pool = .ok a more → Q a

namespace CompileM.Asks

variable {W W' : Helper → Prop} {Q : α → Prop} {R : β → Prop}

theorem pure {a : α} (h : Q a) : Asks W Q (Pure.pure a : CompileM α) where
  missing := nofun
  result ran := by
    cases ran
    exact h

theorem throw {e : CompileError} (he : ∀ address h, e = .missingHelper address h → W h) :
    Asks W Q (MonadExcept.throw e : CompileM α) where
  missing ran := by
    cases ran
    exact he _ _ rfl
  result := nofun

theorem bind {x : CompileM α} {f : α → CompileM β} (hx : Asks W Q x)
    (hf : ∀ a, Q a → Asks W R (f a)) : Asks W R (x >>= f) where
  missing ran := by
    simp only [Bind.bind, EStateM.bind] at ran
    split at ran
    · rename_i a mid first
      exact (hf a (hx.result first)).missing ran
    · rename_i e mid first
      cases ran
      exact hx.missing first
  result ran := by
    obtain ⟨a, mid, first, rest⟩ := Scope.bind_ok ran
    exact (hf a (hx.result first)).result rest

theorem map {x : CompileM α} {f : α → β} (hx : Asks W Q x) (hf : ∀ a, Q a → R (f a)) :
    Asks W R (f <$> x) := by
  rw [map_eq_pure_bind]
  exact hx.bind fun a ha => .pure (hf a ha)

theorem mono {x : CompileM α} (hx : Asks W Q x) (hW : ∀ h, W h → W' h) : Asks W' Q x where
  missing ran := hW _ (hx.missing ran)
  result := hx.result

theorem mapM {ι : Type} {f : ι → CompileM α} {is : List ι} (h : ∀ i ∈ is, Asks W Q (f i)) :
    Asks W (fun as => ∀ a ∈ as, Q a) (is.mapM f) := by
  induction is with
  | nil => exact .pure (by simp)
  | cons i is ih =>
      rw [List.mapM_cons]
      refine (h i (by simp)).bind fun a ha => ?_
      refine (ih fun j hj => h j (by simp [hj])).bind fun as has => .pure ?_
      exact List.forall_mem_cons.mpr ⟨ha, has⟩

end CompileM.Asks

open CompileM

/-! ## Groups found beforehand -/

/-- The group of the helpers that reach a variable. -/
def Variable.group : Variable → HelperGroup
  | .stack => .stack
  | .localVar _ => .core
  | .globalVar _ => .memory

namespace Needs

/-- Helpers of groups that are needed. -/
def Covers (n : Needs) (hs : List Helper) : Prop := ∀ h ∈ hs, n.wants h.group = true

variable {n : Needs} {i : Instruction}

theorem covers_nil : n.Covers [] := nofun

theorem covers_cons {h : Helper} {hs : List Helper} (first : n.wants h.group = true)
    (rest : n.Covers hs) : n.Covers (h :: hs) :=
  List.forall_mem_cons.mpr ⟨first, rest⟩

theorem covers_append {hs hs' : List Helper} (h : n.Covers hs) (h' : n.Covers hs') :
    n.Covers (hs ++ hs') := fun _ mem => (List.mem_append.mp mem).elim (h _) (h' _)

theorem covers_single {h : Helper} (first : n.wants h.group = true) : n.Covers [h] :=
  covers_cons first covers_nil

variable {opcode : Opcode}

theorem wants_stack (op : i.opcode = opcode) (uses : opcode.usesStack = true) :
    (ofInstruction i).wants .stack = true := by
  simp [wants, ofInstruction, op, uses]

theorem wants_memory (op : i.opcode = opcode) (uses : opcode.usesMemory = true) :
    (ofInstruction i).wants .memory = true := by
  simp [wants, ofInstruction, op, uses]

theorem wants_screen (op : i.opcode = opcode) (uses : opcode.usesScreen = true) :
    (ofInstruction i).wants .screen = true := by
  simp [wants, ofInstruction, op, uses]

/-- Naming a variable needs the group of its helpers. -/
theorem wants_variable {v : Variable} (named : v ∈ i.variables) :
    (ofInstruction i).wants v.group = true := by
  cases v with
  | stack => exact Bool.or_eq_true_iff.mpr (.inl (List.any_eq_true.mpr ⟨_, named, rfl⟩))
  | localVar _ => rfl
  | globalVar _ => exact Bool.or_eq_true_iff.mpr (.inl (List.any_eq_true.mpr ⟨_, named, rfl⟩))

theorem covers_of_group {v : Variable} {hs : List Helper} (named : v ∈ i.variables)
    (same : ∀ h ∈ hs, h.group = v.group) : (ofInstruction i).Covers hs := fun h mem => by
  rw [same h mem]
  exact wants_variable named

theorem wants_join (a b : Needs) (g : HelperGroup) :
    (a.join b).wants g = (a.wants g || b.wants g) := by
  cases g <;> rfl

/-- A routine needs what its instructions need. -/
theorem wants_scan {r : Routine} (mem : i ∈ r.instructions) {g : HelperGroup}
    (h : (ofInstruction i).wants g = true) : (scan r).wants g = true := by
  have fold (is : List Needs) (n : Needs) (wanted : n.wants g = true ∨ ∃ a ∈ is, a.wants g = true) :
      (is.foldl join n).wants g = true := by
    -- What is needed stays needed.
    induction is generalizing n with
    | nil => simpa using wanted
    | cons a is ih =>
        apply ih
        rw [wants_join]
        simpa [or_assoc] using wanted
  exact fold _ _ (.inr ⟨_, List.mem_map_of_mem mem, h⟩)

end Needs

/-! ## What an instruction asks for -/

namespace Scope

variable (e : Scope)

/-- Whether helpers are available, each of them. -/
def Has (hs : List Helper) : Prop := ∀ h ∈ hs, e.available h = true

/-- Whether a helper is needed but not available. -/
def Lacks (n : Needs) (h : Helper) : Prop := n.wants h.group = true ∧ e.available h = false

variable {e} {i : Instruction} {W : Helper → Prop}

open Needs (ofInstruction)

theorem group_readHelpers (v : Variable) : ∀ h ∈ e.readHelpers v, h.group = v.group := by
  cases v <;> grind [readHelpers, Helper.group, Variable.group]

theorem group_writeHelpers (v : Variable) : ∀ h ∈ e.writeHelpers v, h.group = v.group := by
  cases v <;> grind [writeHelpers, Helper.group, Variable.group]

theorem group_cellReadHelpers (v : Variable) :
    ∀ h ∈ e.cellReadHelpers (.named v), h.group = v.group := by
  cases v <;> grind [cellReadHelpers, readHelpers, Helper.group, Variable.group]

theorem group_cellWriteHelpers (v : Variable) :
    ∀ h ∈ e.cellWriteHelpers (.named v), h.group = v.group := by
  cases v <;> grind [cellWriteHelpers, writeHelpers, Helper.group, Variable.group]

theorem covers_storeHelpers : (ofInstruction i).Covers (e.storeHelpers i.store) := by
  unfold storeHelpers
  cases target : i.store with
  | none => exact Needs.covers_nil
  | some v =>
      have named : v ∈ i.variables := by simp [Instruction.variables, target]
      exact Needs.covers_of_group named (group_writeHelpers v)

theorem covers_operandHelpers {operands : List Operand} (sub : operands ⊆ i.operands) :
    (ofInstruction i).Covers (e.operandHelpers operands) := by
  intro h mem
  obtain ⟨o, ho, mem⟩ := List.mem_flatMap.mp mem
  cases o with
  | var v =>
      have named : v ∈ i.variables := by
        simp only [Instruction.variables, List.mem_append, List.mem_filterMap]
        exact .inl (.inl ⟨_, sub ho, rfl⟩)
      exact Needs.covers_of_group named (group_readHelpers v) h mem
  | large => simp [Operand.toVariable?] at mem
  | small => simp [Operand.toVariable?] at mem

/-- The variable whose number is the first operand is among those that the instruction names. -/
theorem mem_variables_of_cellOf {v : Variable} (indirect : i.opcode.hasIndirectVariable = true)
    (named : cellOf i = .named v) : v ∈ i.variables := by
  unfold cellOf at named
  split at named
  · rename_i w constant
    cases named
    simp [Instruction.variables, indirect, constant]
  · cases named

theorem covers_cellReadHelpers (indirect : i.opcode.hasIndirectVariable = true) :
    (ofInstruction i).Covers (e.cellReadHelpers (cellOf i)) := by
  cases cell : cellOf i with
  | computed => exact Needs.covers_single rfl
  | named v =>
      have named := mem_variables_of_cellOf indirect cell
      exact Needs.covers_of_group named (group_cellReadHelpers v)

theorem covers_cellWriteHelpers (indirect : i.opcode.hasIndirectVariable = true) :
    (ofInstruction i).Covers (e.cellWriteHelpers (cellOf i)) := by
  cases cell : cellOf i with
  | computed => exact Needs.covers_single rfl
  | named v =>
      have named := mem_variables_of_cellOf indirect cell
      exact Needs.covers_of_group named (group_cellWriteHelpers v)

theorem access?_eq_some {opcode : Opcode} {count : Nat} {h : Helper}
    (found : access? opcode count = some h) :
    h = accessHelper opcode ∧ h.group = .memory ∧ opcode.usesMemory = true := by
  unfold access? at found
  split at found <;> cases found <;> exact ⟨rfl, rfl, rfl⟩

theorem operandsRead_subset (i : Instruction) : operandsRead i ⊆ i.operands := by
  unfold operandsRead
  split
  case h_11 =>
    split
    · exact List.nil_subset _
    · exact List.Subset.refl _
  all_goals exact List.nil_subset _

theorem asks_require {n : Needs} {address : Nat} {h : Helper} (wanted : n.wants h.group = true) :
    Asks (e.Lacks n) (fun _ => e.available h = true) (e.require address h) := by
  unfold require
  split
  · exact .pure ‹_›
  · rename_i missing
    apply Asks.throw
    rintro _ _ ⟨⟩
    exact ⟨wanted, by simpa using missing⟩

theorem asks_requireAll {n : Needs} {address : Nat} {hs : List Helper} (covered : n.Covers hs) :
    Asks (e.Lacks n) (fun _ => e.Has hs) (e.requireAll address hs) := by
  unfold requireAll
  induction hs with
  | nil => exact .pure nofun
  | cons h hs ih =>
      obtain ⟨wanted, covered⟩ := List.forall_mem_cons.mp covered
      refine (asks_require wanted).bind fun _ first => ?_
      have rest := ih covered
      exact ⟨rest.missing, fun ran => List.forall_mem_cons.mpr ⟨first, rest.result ran⟩⟩

theorem asks_blockAt (address target : Nat) : Asks W any (e.blockAt address target) := by
  unfold blockAt
  split
  · exact .pure trivial
  · exact .throw nofun

theorem asks_branchOf (i : Instruction) : Asks W any (e.branchOf i) := by
  unfold branchOf
  split
  · exact .pure trivial
  · rename_i b _
    refine Asks.bind (Q := any) ?_ fun _ _ => (asks_blockAt _ _).bind fun _ _ => .pure trivial
    cases b.target with
    | returnFalse => exact .pure trivial
    | returnTrue => exact .pure trivial
    | address a => exact (asks_blockAt _ _).map fun _ _ => trivial

theorem asks_requireOperand (i : Instruction) (index : Nat) :
    Asks W any (requireOperand i index) := by
  unfold requireOperand
  split
  · exact .pure trivial
  · exact .throw nofun

theorem asks_textOf (i : Instruction) : Asks W any (e.textOf i) := by
  unfold textOf
  split
  · exact .pure trivial
  · exact .throw nofun

theorem asks_literal (text : String) : Asks W any (literal text) where
  missing {pool _ _ _} ran := by
    obtain ⟨n, more, ok, -⟩ := run_literal text pool
    rw [ok] at ran
    cases ran
  result _ := trivial

/-- What an instruction asks for is needed by it, and its action calls nothing else. -/
abbrev AsksOwn (e : Scope) (i : Instruction) (x : CompileM Action) : Prop :=
  Asks (e.Lacks (ofInstruction i)) (fun a => e.Has (e.actionHelpers a)) x

theorem asksOwn_need {hs : List Helper} (covered : (ofInstruction i).Covers hs) {a : Action}
    (calls : e.actionHelpers a = hs) :
    e.AsksOwn i (e.requireAll i.address hs >>= fun _ => Pure.pure a) :=
  (asks_requireAll covered).bind fun _ has => .pure (calls ▸ has)

theorem asks_indirect (indirect : i.opcode.hasIndirectVariable = true) :
    e.AsksOwn i (e.indirect i) := by
  have read : (ofInstruction i).Covers (e.cellReadHelpers (cellOf i)) :=
    covers_cellReadHelpers indirect
  have write : (ofInstruction i).Covers (e.cellWriteHelpers (cellOf i)) :=
    covers_cellWriteHelpers indirect
  have change := Needs.covers_append read write
  -- Whatever is done to the variable, it is read, written or both.
  unfold Scope.indirect
  refine (asks_requireOperand i 0).bind fun _ _ => ?_
  split
  · exact asksOwn_need change rfl
  · exact asksOwn_need change rfl
  · refine (asks_requireOperand i 1).bind fun _ _ => (asks_requireAll change).bind fun _ has => ?_
    exact (asks_branchOf i).bind fun _ _ => .pure has
  · refine (asks_requireOperand i 1).bind fun _ _ => (asks_requireAll change).bind fun _ has => ?_
    exact (asks_branchOf i).bind fun _ _ => .pure has
  · exact (asks_requireOperand i 1).bind fun _ _ => asksOwn_need write rfl
  · rename_i pull
    exact asksOwn_need (Needs.covers_cons (Needs.wants_stack pull rfl) write) rfl
  · exact asksOwn_need (Needs.covers_append read covers_storeHelpers) rfl

theorem asks_call : e.AsksOwn i (e.call i) := by
  have stored : (ofInstruction i).Covers (e.storeHelpers i.store) := covers_storeHelpers
  unfold Scope.call
  refine (asks_requireOperand i 0).bind fun _ _ => ?_
  split
  · split
    · exact asksOwn_need stored rfl
    · exact asksOwn_need (Needs.covers_cons rfl stored) rfl
  · exact asksOwn_need (Needs.covers_cons rfl stored) rfl

theorem asks_data : e.AsksOwn i (e.data i) := by
  have stored : (ofInstruction i).Covers (e.storeHelpers i.store) := covers_storeHelpers
  unfold Scope.data
  dsimp only
  split
  · rename_i operation _
    refine asksOwn_need (Needs.covers_append ?_ stored) rfl
    split
    · exact Needs.covers_single rfl
    · exact Needs.covers_nil
  · split
    · exact (asks_branchOf i).bind fun _ _ => .pure nofun
    · split
      · rename_i found
        obtain ⟨rfl, group, uses⟩ := access?_eq_some found
        refine asksOwn_need (Needs.covers_cons ?_ stored) rfl
        rw [group]
        exact Needs.wants_memory rfl uses
      · refine (asks_requireAll (Needs.covers_cons rfl stored)).bind fun _ has => ?_
        exact (asks_branchOf i).bind fun _ _ => .pure has

/-- Printing a text of the pool. -/
theorem asks_print (screen : (ofInstruction i).wants .screen = true) (text : String)
    {print : Nat → Action} (calls : ∀ n, e.actionHelpers (print n) = [.printLiteral]) :
    e.AsksOwn i (do
      let n ← literal text
      e.requireAll i.address [.printLiteral]
      return print n) :=
  (asks_literal text).bind fun n _ => asksOwn_need (Needs.covers_single screen) (calls n)

theorem asks_action : e.AsksOwn i (e.action i) := by
  have stored : (ofInstruction i).Covers (e.storeHelpers i.store) := covers_storeHelpers
  have trap : (ofInstruction i).Covers [.trap] := Needs.covers_single rfl
  -- The cases are those of the compiler, in its order; the opcode counts where a group hangs on it.
  unfold Scope.action
  dsimp only
  split
  · exact .pure nofun
  · exact .pure nofun
  · exact .pure nofun
  · exact (asks_requireOperand i 0).bind fun _ _ => .pure nofun
  · rename_i op
    exact asksOwn_need (Needs.covers_single (Needs.wants_stack op rfl)) rfl
  · split
    · exact (asks_blockAt _ _).bind fun _ _ => .pure nofun
    · exact asksOwn_need trap rfl
  · rename_i op
    refine (asks_textOf i).bind fun text _ => ?_
    exact asks_print (Needs.wants_screen op rfl) text fun _ => rfl
  · rename_i op
    refine (asks_textOf i).bind fun text _ => ?_
    exact asks_print (Needs.wants_screen op rfl) (text ++ "\n") fun _ => rfl
  · rename_i op
    exact asks_print (Needs.wants_screen op rfl) "\n" fun _ => rfl
  · exact asksOwn_need (Needs.covers_single rfl) rfl
  · rename_i op
    exact asksOwn_need (Needs.covers_single (Needs.wants_stack op rfl)) rfl
  · rename_i op
    refine (asks_requireOperand i 0).bind fun _ _ => ?_
    exact asksOwn_need (Needs.covers_single (Needs.wants_stack op rfl)) rfl
  · rename_i op
    refine (asks_requireOperand i 0).bind fun _ _ => ?_
    exact asksOwn_need (Needs.covers_cons (Needs.wants_screen op rfl) stored) rfl
  · rename_i op
    refine (asks_requireOperand i 0).bind fun _ _ => ?_
    exact asksOwn_need (Needs.covers_cons (Needs.wants_screen op rfl) stored) rfl
  · rename_i op
    exact asksOwn_need (Needs.covers_cons (Needs.wants_screen op rfl) stored) rfl
  · split
    · exact asks_call
    · split
      · rename_i pull
        -- The word comes off the stack, or off a table if there is an operand.
        have top := Needs.wants_stack pull.1 rfl
        have table := Needs.wants_memory pull.1 rfl
        split
        · exact asksOwn_need (Needs.covers_cons top stored) rfl
        · exact asksOwn_need (Needs.covers_cons table (Needs.covers_cons table stored)) rfl
      · split
        · rename_i indirect
          exact asks_indirect indirect
        · split
          · exact asksOwn_need trap rfl
          · exact asks_data

theorem asks_step :
    Asks (e.Lacks (ofInstruction i)) (fun s => e.Has (e.stepHelpers s)) (e.step i) := by
  unfold Scope.step
  refine (asks_requireAll (covers_operandHelpers (operandsRead_subset i))).bind fun _ read => ?_
  refine asks_action.bind fun a acts => .pure ?_
  exact List.forall_mem_append.mpr ⟨read, acts⟩

/-! ## What a routine asks for -/

theorem asks_steps (is : List Instruction)
    (lacks : ∀ i ∈ is, ∀ h, e.Lacks (ofInstruction i) h → W h) :
    Asks W (fun p => ∀ s ∈ p.1, e.Has (e.stepHelpers s)) (e.steps is) := by
  induction is with
  | nil =>
      unfold Scope.steps
      exact .pure (by simp)
  | cons i rest ih =>
      unfold Scope.steps
      refine (asks_step.mono (lacks i (by simp))).bind fun s first => ?_
      split
      · exact .pure (by simpa using first)
      · split
        · exact .pure (by simpa using first)
        · refine (ih fun j hj => lacks j (by simp [hj])).bind fun p more => .pure ?_
          exact List.forall_mem_cons.mpr ⟨first, more⟩

theorem asks_block (b : Block)
    (lacks : ∀ i ∈ b.instructions, ∀ h, e.Lacks (ofInstruction i) h → W h) :
    Asks W (fun c => ∀ s ∈ c.steps, e.Has (e.stepHelpers s)) (e.block b) := by
  unfold Scope.block
  refine (asks_steps b.instructions lacks).bind fun p has => ?_
  obtain ⟨steps, last⟩ := p
  dsimp only
  split
  · exact (asks_blockAt _ _).bind fun _ _ => .pure has
  · exact .pure has

/-- A routine asks for helpers of the groups that its instructions need, and its code calls no
others. -/
theorem asks_blocks {r : Routine} (built : e.graph = .build r) :
    Asks (e.Lacks (.scan r)) (fun cs => ∀ c ∈ cs, ∀ s ∈ c.steps, e.Has (e.stepHelpers s))
      (e.graph.blocks.mapM e.block) := by
  refine Asks.mapM fun b hb => ?_
  rw [built] at hb
  obtain ⟨_, _, -, -, part⟩ := FlowGraph.mem_build hb
  -- The instructions of a block are instructions of the routine.
  exact asks_block b fun i hi h lacks => ⟨Needs.wants_scan (part.subset hi) lacks.1, lacks.2⟩

end Scope

/-! ## Routines -/

/-- A routine asks for a helper if compiling it fails for want of that helper when some others are
available. -/
def AsksFor (story : StoryText) (r : Routine) (pool : List String) (h : Helper) : Prop :=
  ∃ (available : Helper → Bool) (address : Nat) (more : List String),
    let scope : Scope := { Scope.ofRoutine story r with available }
    (scope.graph.blocks.mapM scope.block) pool = .error (.missingHelper address h) more

theorem wants_of_asksFor {story : StoryText} {r : Routine} {pool : List String} {h : Helper}
    (asks : AsksFor story r pool h) : (Needs.scan r).wants h.group = true := by
  obtain ⟨available, address, more, failed⟩ := asks
  exact ((Scope.asks_blocks rfl).missing failed).1

theorem compile_ne_missingHelper (story : StoryText) (r : Routine) (pool : List String)
    (address : Nat) (h : Helper) (more : List String) :
    compile story true r pool ≠ .error (.missingHelper address h) more := by
  intro failed
  have run := run_compile story r pool
  split at run
  · obtain ⟨statistics, ran, -⟩ := run
    rw [ran] at failed
    cases failed
  · rename_i blocks
    rw [run] at failed
    cases failed
    obtain ⟨wanted, missing⟩ := (Scope.asks_blocks rfl).missing blocks
    -- What is needed is available.
    have there : (Scope.ofRoutine story r).available h = true := wanted
    rw [there] at missing
    cases missing

theorem wants_of_mem_codeHelpers {story : StoryText} {r : Routine} {pool more : List String}
    {code : Code} {statistics : CompileStatistics}
    (compiled : compile story true r pool = .ok (code, statistics) more) {h : Helper}
    (called : h ∈ (Scope.ofRoutine story r).codeHelpers code) :
    statistics.needs.wants h.group = true := by
  obtain ⟨needs, -, blocks, ran, same⟩ := compile_ok compiled
  obtain ⟨s, hs, called⟩ := List.mem_flatMap.mp called
  obtain ⟨c, hc, hs⟩ := List.mem_flatMap.mp hs
  rw [same, List.toList_toArray] at hc
  rw [needs]
  exact (Scope.asks_blocks rfl).result ran c hc s hs h called

/-- The groups of helpers found beforehand are enough.  Whatever helper compiling the routine asks
for belongs to one of them, so that compiling never fails for want of a helper when there are all;
the statistics name the group of every helper that the code calls, and tables that agree on the
helpers that it calls run it alike. -/
theorem needs_suffice (story : StoryText) (r : Routine) (pool : List String) :
    (∀ h, AsksFor story r pool h → (Needs.scan r).wants h.group = true) ∧
    (∀ address h more, compile story true r pool ≠ .error (.missingHelper address h) more) ∧
    ∀ code statistics more, compile story true r pool = .ok (code, statistics) more →
      (∀ h ∈ (Scope.ofRoutine story r).codeHelpers code,
        (h.group = .stack → statistics.needs.stack = true) ∧
        (h.group = .memory → statistics.needs.memory = true) ∧
        (h.group = .screen → statistics.needs.screen = true)) ∧
      ∀ {m : Type → Type} [Monad m] (h h' : Helpers m),
        h.Agree (· ∈ (Scope.ofRoutine story r).codeHelpers code) h' →
          ∀ bound args, h.runCode code bound args = h'.runCode code bound args := by
  refine ⟨fun h asks => wants_of_asksFor asks, compile_ne_missingHelper story r pool, ?_⟩
  intro code statistics more compiled
  refine ⟨fun h called => ?_, fun h h' same bound args => Helpers.runCode_agree same bound args⟩
  have wanted := wants_of_mem_codeHelpers compiled called
  exact ⟨fun group => by rwa [group] at wanted, fun group => by rwa [group] at wanted,
    fun group => by rwa [group] at wanted⟩

/-- A routine that adds a global to itself and returns the sum by way of the stack. -/
def doubling : Routine where
  address := 0x100
  defaults := []
  instructions :=
    [{ address := 0x101, length := 4, opcode := .add
       operands := [.var (.globalVar 0), .var (.globalVar 0)], store := some .stack, branch := none
       text := none },
     { address := 0x105, length := 1, opcode := .retPopped, operands := [], store := none
       branch := none, text := none }]

/-- A story of version 5 without texts. -/
def textless : StoryText where
  memory := .ofBytes #[]
  header := { (default : Header) with version := 5 }
  tables := { (default : TextTables) with version := 5 }

/-- Helpers for one global, 21, and a stack that holds its double. -/
def fixedHelpers : Helpers Option :=
  { Helpers.none with readGlobal := fun _ => some 21, push := fun _ => some (), pop := some 42 }

/-- The code of `doubling`. -/
def doublingCode : Code where
  address := 0x100
  defaults := []
  blocks :=
    #[{ steps :=
          [{ operands := [.var (.globalVar 0), .var (.globalVar 0)]
             action := .compute .add (some .stack) },
           { operands := [], action := .leavePopped }]
        next := none }]

theorem compile_doubling : ∃ statistics,
    compile textless true doubling [] = .ok (doublingCode, statistics) [] := ⟨_, rfl⟩

theorem needs_suffice_doubling :
    (Needs.scan doubling).wants Helper.push.group = true ∧
      (∀ address h more,
        compile textless true doubling [] ≠ .error (.missingHelper address h) more) ∧
      ∃ statistics, compile textless true doubling [] = .ok (doublingCode, statistics) [] ∧
        statistics.needs.stack = true ∧ statistics.needs.memory = true ∧
        { fixedHelpers with print := fun _ => some () }.runCode doublingCode 1 [] = some 42 := by
  obtain ⟨asked, never, runs⟩ := needs_suffice textless doubling []
  obtain ⟨statistics, compiled⟩ := compile_doubling
  obtain ⟨groups, alike⟩ := runs doublingCode statistics [] compiled
  refine ⟨asked .push ⟨fun h => h != .push, 0x101, [], rfl⟩, never, statistics, compiled,
    ?_, ?_, ?_⟩
  · exact (groups .push (by decide)).1 rfl
  · exact (groups .readGlobal (by decide)).2.1 rfl
  · have silent : .printLiteral ∉ (Scope.ofRoutine textless doubling).codeHelpers doublingCode := by
      decide
    -- The tables differ in printing only.
    have same :
        fixedHelpers.Agree (· ∈ (Scope.ofRoutine textless doubling).codeHelpers doublingCode)
        { fixedHelpers with print := fun _ => some () } := by
      constructor
      case print => exact fun called => absurd called silent
      all_goals intros; rfl
    exact (alike _ _ same 1 []).symm.trans rfl

end ZMachine
