/-
  What instructions are compiled to.

  Compiling an instruction goes through its opcode, then through the shape of
  its operands.  Said once for each of the four parts of the compiler: the
  actions that can come of it, and what was found out about the instruction
  on the way.  Whatever holds of compiled actions is then proved by cases.
-/
import ZMachine.Proofs.Compiling

namespace ZMachine
namespace Scope

variable {e : Scope} {i : Instruction} {pool more : List String} {action : Action}

/-! ## What success says -/

theorem requireOperand_ok {index : Nat} (h : requireOperand i index pool = .ok () more) :
    index < i.operands.length := by
  unfold requireOperand at h
  split at h
  · assumption
  · cases h

/-- Requiring helpers only stands in the way of an action. -/
theorem require_ok {address : Nat} {hs : List Helper} {made : Action}
    (h : (e.requireAll address hs >>= fun _ => pure action) pool = .ok made more) :
    made = action ∧ more = pool := by
  obtain ⟨r, -, still⟩ := e.still_requireAll address hs
  simp only [Bind.bind, EStateM.bind, still] at h
  cases r with
  | error e => cases h
  | ok _ =>
      cases h
      exact ⟨rfl, rfl⟩

theorem textOf_ok {text : String} (h : e.textOf i pool = .ok text more) :
    e.story.tables.decodeWords e.story.memory (i.text.getD []) = .ok text := by
  unfold textOf at h
  cases decoded : e.story.tables.decodeWords e.story.memory (i.text.getD []) with
  | ok text =>
      rw [decoded] at h
      cases h
      rfl
  | error e =>
      rw [decoded] at h
      cases h

theorem literal_ok {text : String} {n : Nat} (h : literal text pool = .ok n more) :
    more[n]? = some text := by
  obtain ⟨n', more', ran, found, -⟩ := run_literal text pool
  rw [ran] at h
  cases h
  exact found

/-- The branch of an instruction and what it was compiled to. -/
theorem branchOf_ok {b : Option CodeBranch} (h : e.branchOf i pool = .ok b more) :
    match i.branch with
    | none => b = none
    | some test => ∃ c, b = some c ∧ c.condition = test.condition ∧
        e.graph.indexOf? i.next = some c.otherwise ∧
        match test.target with
        | .returnFalse => c.taken = .leave 0
        | .returnTrue => c.taken = .leave 1
        | .address a => ∃ n, c.taken = .block n ∧ e.graph.indexOf? a = some n := by
  unfold branchOf at h
  cases htest : i.branch with
  | none =>
      rw [htest] at h
      cases h
      rfl
  | some test =>
      rw [htest] at h
      obtain ⟨taken, mid, htaken, h⟩ := bind_ok h
      obtain ⟨otherwise, mid', hother, h⟩ := bind_ok h
      cases h
      refine ⟨_, rfl, rfl, (blockAt_ok hother).1, ?_⟩
      -- Only a target that is an address has to be the first of a block.
      cases htarget : test.target with
      | returnFalse =>
          rw [htarget] at htaken
          cases htaken
          rfl
      | returnTrue =>
          rw [htarget] at htaken
          cases htaken
          rfl
      | address a =>
          rw [htarget] at htaken
          change (Exit.block <$> e.blockAt i.address a) pool = _ at htaken
          rw [map_eq_pure_bind] at htaken
          obtain ⟨n, mid'', hn, htaken⟩ := bind_ok htaken
          cases htaken
          exact ⟨n, rfl, (blockAt_ok hn).1⟩

theorem isSome_branchOf {b : Option CodeBranch} (h : e.branchOf i pool = .ok b more) :
    b.isSome = i.branch.isSome := by
  have shape := branchOf_ok h
  cases hb : i.branch with
  | none =>
      rw [hb] at shape
      subst shape
      rfl
  | some test =>
      rw [hb] at shape
      obtain ⟨c, rfl, -⟩ := shape
      rfl

/-! ## The parts of the compiler -/

/-- A call became the action. -/
inductive MakesCall (e : Scope) (i : Instruction) : Action → Prop where
  | nothing (target : i.operands.head?.bind Operand.constant? = some 0) :
      MakesCall e i (.callNothing i.store)
  | routine {packed : Word} (target : i.operands.head?.bind Operand.constant? = some packed)
      (nonzero : packed ≠ 0) : MakesCall e i (.call (e.story.header.routineAddress packed) i.store)
  | packed (target : i.operands.head?.bind Operand.constant? = none) :
      MakesCall e i (.callPacked i.store)

theorem makesCall (h : e.call i pool = .ok action more) :
    0 < i.operands.length ∧ e.MakesCall i action := by
  unfold call at h
  obtain ⟨_, _, first, h⟩ := bind_ok h
  refine ⟨requireOperand_ok first, ?_⟩
  -- A call of zero does nothing; the address is known if the operand is a constant.
  cases target : i.operands.head?.bind Operand.constant? with
  | none =>
      rw [target] at h
      obtain ⟨rfl, -⟩ := require_ok h
      exact .packed target
  | some packed =>
      rw [target] at h
      dsimp only at h
      by_cases zero : packed = 0
      · rw [if_pos zero] at h
        obtain ⟨rfl, -⟩ := require_ok h
        exact .nothing (zero ▸ target)
      · rw [if_neg zero] at h
        obtain ⟨rfl, -⟩ := require_ok h
        exact .routine target zero

/-- An instruction whose first operand names a variable became the action. -/
inductive MakesIndirect (e : Scope) (i : Instruction) : Action → Prop where
  | inc (op : i.opcode = .inc) : MakesIndirect e i (.adjust (cellOf i) 1)
  | dec (op : i.opcode = .dec) : MakesIndirect e i (.adjust (cellOf i) 0xffff)
  | incChk (op : i.opcode = .incChk) (second : 1 < i.operands.length) {b : Option CodeBranch}
      {pool more : List String} (branch : e.branchOf i pool = .ok b more) :
      MakesIndirect e i (.adjustTest (cellOf i) 1 .greater b)
  | decChk (op : i.opcode = .decChk) (second : 1 < i.operands.length) {b : Option CodeBranch}
      {pool more : List String} (branch : e.branchOf i pool = .ok b more) :
      MakesIndirect e i (.adjustTest (cellOf i) 0xffff .less b)
  | store (op : i.opcode = .store) (second : 1 < i.operands.length) :
      MakesIndirect e i (.replace (cellOf i))
  | load (op : i.opcode = .load) : MakesIndirect e i (.copy (cellOf i) i.store)
  | pull (op : i.opcode = .pull) : MakesIndirect e i (.pullInto (cellOf i))

theorem indirect_cases {opcode : Opcode} (indirect : opcode.hasIndirectVariable = true) :
    opcode = .inc ∨ opcode = .dec ∨ opcode = .incChk ∨ opcode = .decChk ∨ opcode = .store ∨
      opcode = .load ∨ opcode = .pull := by
  revert indirect
  cases opcode <;> simp [Opcode.hasIndirectVariable]

theorem makesIndirect (indirect : i.opcode.hasIndirectVariable = true)
    (h : e.indirect i pool = .ok action more) :
    0 < i.operands.length ∧ e.MakesIndirect i action := by
  unfold Scope.indirect at h
  obtain ⟨_, _, first, h⟩ := bind_ok h
  refine ⟨requireOperand_ok first, ?_⟩
  -- One case for each opcode that names a variable by its number.
  rcases indirect_cases indirect with op | op | op | op | op | op | op <;> simp only [op] at h
  · obtain ⟨rfl, -⟩ := require_ok h
    exact .inc op
  · obtain ⟨rfl, -⟩ := require_ok h
    exact .dec op
  · obtain ⟨_, _, second, h⟩ := bind_ok h
    obtain ⟨_, _, -, h⟩ := bind_ok h
    obtain ⟨b, _, branch, h⟩ := bind_ok h
    cases h
    exact .incChk op (requireOperand_ok second) branch
  · obtain ⟨_, _, second, h⟩ := bind_ok h
    obtain ⟨_, _, -, h⟩ := bind_ok h
    obtain ⟨b, _, branch, h⟩ := bind_ok h
    cases h
    exact .decChk op (requireOperand_ok second) branch
  · obtain ⟨_, _, second, h⟩ := bind_ok h
    obtain ⟨rfl, -⟩ := require_ok h
    exact .store op (requireOperand_ok second)
  · obtain ⟨rfl, -⟩ := require_ok h
    exact .load op
  · obtain ⟨rfl, -⟩ := require_ok h
    exact .pull op

/-- An instruction that works on values only became the action. -/
inductive MakesData (e : Scope) (i : Instruction) : Action → Prop where
  | compute {operation : Arithmetic}
      (found : arithmetic? i.opcode i.operands.length = some operation) :
      MakesData e i (.compute operation i.store)
  | compare {comparison : Comparison}
      (found : comparison? i.opcode i.operands.length = some comparison) {b : Option CodeBranch}
      {pool more : List String} (branch : e.branchOf i pool = .ok b more) :
      MakesData e i (.compare comparison b)
  | access {helper : Helper} (found : access? i.opcode i.operands.length = some helper) :
      MakesData e i (.access i.opcode i.store)
  | perform (other : access? i.opcode i.operands.length = none) {b : Option CodeBranch}
      {pool more : List String} (branch : e.branchOf i pool = .ok b more) :
      MakesData e i (.perform i.opcode i.store b)

theorem makesData (h : e.data i pool = .ok action more) : e.MakesData i action := by
  unfold data at h
  dsimp only at h
  -- The kinds of data operations are tried in this order.
  cases arithmetic : arithmetic? i.opcode i.operands.length with
  | some operation =>
      rw [arithmetic] at h
      obtain ⟨rfl, -⟩ := require_ok h
      exact .compute arithmetic
  | none =>
      rw [arithmetic] at h
      cases compared : comparison? i.opcode i.operands.length with
      | some comparison =>
          rw [compared] at h
          obtain ⟨b, _, branch, h⟩ := bind_ok h
          cases h
          exact .compare compared branch
      | none =>
          rw [compared] at h
          cases access : access? i.opcode i.operands.length with
          | some helper =>
              rw [access] at h
              obtain ⟨rfl, -⟩ := require_ok h
              exact .access access
          | none =>
              rw [access] at h
              obtain ⟨_, _, -, h⟩ := bind_ok h
              obtain ⟨b, _, branch, h⟩ := bind_ok h
              cases h
              exact .perform access branch

/-! ## Instructions -/

/-- The opcodes besides the terminal ones that are compiled each in a way of its own. -/
def ownWay : List Opcode := [.nop, .print, .newLine, .pop, .push, .sread, .aread, .readChar]

/-- The instruction became the action; `more` is the pool that has its text. -/
inductive Makes (e : Scope) (i : Instruction) (more : List String) : Action → Prop where
  | nop (op : i.opcode = .nop) : Makes e i more .nothing
  | rtrue (op : i.opcode = .rtrue) : Makes e i more (.leave 1)
  | rfalse (op : i.opcode = .rfalse) : Makes e i more (.leave 0)
  | ret (op : i.opcode = .ret) (first : 0 < i.operands.length) : Makes e i more .leaveFirst
  | retPopped (op : i.opcode = .retPopped) : Makes e i more .leavePopped
  | jump (op : i.opcode = .jump) {target n : Nat} (constant : i.jumpTarget? = some target)
      (block : e.graph.indexOf? target = some n) : Makes e i more (.jump n)
  | computedJump (op : i.opcode = .jump) (computed : i.jumpTarget? = none) :
      Makes e i more (.refuse .jump)
  | print (op : i.opcode = .print) {text : String} {n : Nat}
      (same : e.story.tables.decodeWords e.story.memory (i.text.getD []) = .ok text)
      (found : more[n]? = some text) : Makes e i more (.print n)
  | printRet (op : i.opcode = .printRet) {text : String} {n : Nat}
      (same : e.story.tables.decodeWords e.story.memory (i.text.getD []) = .ok text)
      (found : more[n]? = some (text ++ "\n")) : Makes e i more (.printLeave n)
  | newLine (op : i.opcode = .newLine) {n : Nat} (found : more[n]? = some "\n") :
      Makes e i more (.print n)
  | quit (op : i.opcode = .quit) : Makes e i more .quit
  | pop (op : i.opcode = .pop) : Makes e i more .drop
  | push (op : i.opcode = .push) (first : 0 < i.operands.length) : Makes e i more .push
  | readLine (op : i.opcode = .sread ∨ i.opcode = .aread) (first : 0 < i.operands.length) :
      Makes e i more (.readLine i.store)
  | readChar (op : i.opcode = .readChar) : Makes e i more (.readChar i.store)
  | call (call : i.opcode.isCall = true) (first : 0 < i.operands.length) {action : Action}
      (made : e.MakesCall i action) : Makes e i more action
  | pullTop (op : i.opcode = .pull) (stores : i.store.isSome = true) (empty : i.operands = []) :
      Makes e i more (.pullTop i.store)
  | pullTable (op : i.opcode = .pull) (stores : i.store.isSome = true) (table : i.operands ≠ []) :
      Makes e i more (.pullTable i.store)
  | indirect (indirect : i.opcode.hasIndirectVariable = true)
      (unstored : i.opcode = .pull → i.store = none) (first : 0 < i.operands.length)
      {action : Action} (made : e.MakesIndirect i action) : Makes e i more action
  | refused (call : i.opcode.isCall = false) (refused : i.opcode.interpreterOnly = true) :
      Makes e i more (.refuse i.opcode)
  | data (call : i.opcode.isCall = false) (direct : i.opcode.hasIndirectVariable = false)
      (passes : i.opcode.isTerminal = false) (translated : i.opcode.interpreterOnly = false)
      (other : i.opcode ∉ ownWay) {action : Action} (made : e.MakesData i action) :
      Makes e i more action

theorem terminal_cases {opcode : Opcode} (translated : opcode.interpreterOnly = false)
    (ends : opcode.isTerminal = true) : opcode = .rtrue ∨ opcode = .rfalse ∨ opcode = .ret ∨
      opcode = .retPopped ∨ opcode = .jump ∨ opcode = .printRet ∨ opcode = .quit := by
  unfold Opcode.isTerminal at ends
  split at ends
  case h_8 => cases translated
  case h_9 => cases translated
  case h_10 => cases ends
  all_goals decide

/-- Compiling gives a result, from one pool to another. -/
def Gives {α : Type} (x : CompileM α) (pool : List String) (a : α) (more : List String) : Prop :=
  x pool = .ok a more

theorem ownWay_cases {opcode : Opcode} (own : opcode ∈ ownWay) : opcode = .nop ∨ opcode = .print ∨
    opcode = .newLine ∨ opcode = .pop ∨ opcode = .push ∨ opcode = .sread ∨ opcode = .aread ∨
      opcode = .readChar := by
  simpa [ownWay] using own

/-- An instruction that ends a block leaves the routine, jumps or ends the story. -/
theorem makes_terminal {after : List String} (translated : i.opcode.interpreterOnly = false)
    (ends : i.opcode.isTerminal = true) (h : Gives (e.action i) pool action after)
    (grows : after <+: more) : e.Makes i more action := by
  rcases terminal_cases translated ends with op | op | op | op | op | op | op <;>
    simp only [Scope.action, op] at h
  · cases h
    exact .rtrue op
  · cases h
    exact .rfalse op
  · obtain ⟨_, _, first, h⟩ := bind_ok h
    cases h
    exact .ret op (requireOperand_ok first)
  · obtain ⟨rfl, -⟩ := require_ok h
    exact .retPopped op
  · -- Only a target that is known can be looked for among the blocks.
    split at h
    · rename_i target constant
      obtain ⟨n, _, found, h⟩ := bind_ok h
      cases h
      exact .jump op constant (blockAt_ok found).1
    · rename_i computed
      obtain ⟨rfl, -⟩ := require_ok h
      exact .computedJump op computed
  · obtain ⟨text, _, same, h⟩ := bind_ok h
    obtain ⟨n, _, found, h⟩ := bind_ok h
    obtain ⟨rfl, rfl⟩ := require_ok h
    exact .printRet op (textOf_ok same) (getElem?_of_isPrefix grows (literal_ok found))
  · obtain ⟨rfl, -⟩ := require_ok h
    exact .quit op

/-- An instruction that is compiled in a way of its own prints, or uses the stack or the input. -/
theorem makes_ownWay {after : List String} (own : i.opcode ∈ ownWay)
    (h : Gives (e.action i) pool action after) (grows : after <+: more) :
    e.Makes i more action := by
  rcases ownWay_cases own with op | op | op | op | op | op | op | op <;>
    simp only [Scope.action, op] at h
  · cases h
    exact .nop op
  · obtain ⟨text, _, same, h⟩ := bind_ok h
    obtain ⟨n, _, found, h⟩ := bind_ok h
    obtain ⟨rfl, rfl⟩ := require_ok h
    exact .print op (textOf_ok same) (getElem?_of_isPrefix grows (literal_ok found))
  · obtain ⟨n, _, found, h⟩ := bind_ok h
    obtain ⟨rfl, rfl⟩ := require_ok h
    exact .newLine op (getElem?_of_isPrefix grows (literal_ok found))
  · obtain ⟨rfl, -⟩ := require_ok h
    exact .pop op
  · obtain ⟨_, _, first, h⟩ := bind_ok h
    obtain ⟨rfl, -⟩ := require_ok h
    exact .push op (requireOperand_ok first)
  · obtain ⟨_, _, first, h⟩ := bind_ok h
    obtain ⟨rfl, -⟩ := require_ok h
    exact .readLine (.inl op) (requireOperand_ok first)
  · obtain ⟨_, _, first, h⟩ := bind_ok h
    obtain ⟨rfl, -⟩ := require_ok h
    exact .readLine (.inr op) (requireOperand_ok first)
  · obtain ⟨rfl, -⟩ := require_ok h
    exact .readChar op

/-- All other opcodes are compiled in groups, each group by a part of its own. -/
theorem action_grouped (passes : i.opcode.interpreterOnly = false → i.opcode.isTerminal = false)
    (other : i.opcode ∉ ownWay) : e.action i =
      if i.opcode.isCall then e.call i
      else if i.opcode = .pull ∧ i.store.isSome then
        if i.operands.isEmpty then do
          e.requireAll i.address (.pop :: e.storeHelpers i.store)
          return .pullTop i.store
        else do
          e.requireAll i.address (.loadWord :: .storeWord :: e.storeHelpers i.store)
          return .pullTable i.store
      else if i.opcode.hasIndirectVariable then e.indirect i
      else if i.opcode.interpreterOnly then do
        e.requireAll i.address [.trap]
        return .refuse i.opcode
      else e.data i := by
  unfold Scope.action
  dsimp only
  split
  case h_16 => rfl
  all_goals
    rename_i op
    rw [op] at passes other
    first
    | exact absurd (by decide) other
    | exact absurd (passes rfl) (by decide)

theorem makes_grouped {after : List String}
    (passes : i.opcode.interpreterOnly = false → i.opcode.isTerminal = false)
    (other : i.opcode ∉ ownWay) (h : Gives (e.action i) pool action after) :
    e.Makes i more action := by
  rw [action_grouped passes other] at h
  by_cases call : i.opcode.isCall = true
  · rw [if_pos call] at h
    obtain ⟨first, made⟩ := makesCall h
    exact .call call first made
  rw [if_neg call] at h
  by_cases pull : i.opcode = .pull ∧ i.store.isSome = true
  · rw [if_pos pull] at h
    by_cases empty : i.operands.isEmpty = true
    · rw [if_pos empty] at h
      obtain ⟨rfl, -⟩ := require_ok h
      exact .pullTop pull.1 pull.2 (List.isEmpty_iff.mp empty)
    · rw [if_neg empty] at h
      obtain ⟨rfl, -⟩ := require_ok h
      exact .pullTable pull.1 pull.2 (mt List.isEmpty_iff.mpr empty)
  rw [if_neg pull] at h
  by_cases indirect : i.opcode.hasIndirectVariable = true
  · rw [if_pos indirect] at h
    obtain ⟨first, made⟩ := makesIndirect indirect h
    exact .indirect indirect (fun op => by simpa [op] using pull) first made
  rw [if_neg indirect] at h
  by_cases refused : i.opcode.interpreterOnly = true
  · rw [if_pos refused] at h
    obtain ⟨rfl, -⟩ := require_ok h
    exact .refused (Bool.eq_false_iff.mpr call) refused
  · rw [if_neg refused] at h
    have translated := Bool.eq_false_iff.mpr refused
    exact .data (Bool.eq_false_iff.mpr call) (Bool.eq_false_iff.mpr indirect) (passes translated)
      translated other (makesData h)

/-- Every compiled instruction is one of these. -/
theorem makes {after : List String} (h : e.action i pool = .ok action after)
    (grows : after <+: more) : e.Makes i more action := by
  by_cases own : i.opcode ∈ ownWay
  · exact makes_ownWay own h grows
  · by_cases ends : i.opcode.interpreterOnly = false ∧ i.opcode.isTerminal = true
    · exact makes_terminal ends.1 ends.2 h grows
    · exact makes_grouped (fun translated => Bool.eq_false_iff.mpr fun t => ends ⟨translated, t⟩)
        own h

/-- A step has the operands that are read and the action that was made of the instruction. -/
theorem Becomes.parts {step : CodeStep} (h : e.Becomes pool i step) :
    step.operands = operandsRead i ∧
      ∃ before after, e.action i before = .ok step.action after ∧ after <+: pool := by
  obtain ⟨before, after, ran, grows⟩ := h
  unfold Scope.step at ran
  obtain ⟨_, between, -, ran⟩ := bind_ok ran
  obtain ⟨action, _, made, ran⟩ := bind_ok ran
  cases ran
  exact ⟨rfl, between, after, made, grows⟩

theorem Becomes.makes {step : CodeStep} (h : e.Becomes pool i step) :
    step.operands = operandsRead i ∧ e.Makes i pool step.action := by
  obtain ⟨reads, before, after, made, grows⟩ := h.parts
  exact ⟨reads, Scope.makes made grows⟩

theorem action_call (call : i.opcode.isCall = true) : e.action i = e.call i := by
  unfold Scope.action
  split
  case h_16 => rw [if_pos call]
  all_goals
    rename_i op
    rw [op] at call
    cases call

end Scope
end ZMachine
