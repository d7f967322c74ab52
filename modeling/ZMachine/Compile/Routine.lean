/-
  From routines to compiled code.

  Every instruction of a routine becomes one step.  Compiling fails where a
  helper is wanted that is not available, where control would go to an
  address that begins no block, where an operand is missing and where a text
  cannot be read.  Texts go to a pool of literals, each of them once; those
  of a routine that fails stay there.
-/
import ZMachine.Compile.Code
import ZMachine.Compile.Needs
import ZMachine.Routine.Flow
import ZMachine.Text.Decode

namespace ZMachine

/-- Why a routine cannot be compiled. -/
inductive CompileError where
  /-- The instruction at `address` needs a helper that is not available. -/
  | missingHelper (address : Nat) (helper : Helper)
  /-- Control would pass from the instruction at `address` to one that begins no block. -/
  | invalidJumpTarget (address target : Nat)
  /-- The routine itself is malformed. -/
  | fault (cause : Fault)
deriving DecidableEq, Repr, Inhabited

/-- Wording of a compile error. -/
def CompileError.message : CompileError → String
  | missingHelper address helper =>
      "instruction at " ++ Show.address 5 address ++ " needs helper " ++ helper.symbol
  | invalidJumpTarget address target =>
      "invalid jump target " ++ Show.address 5 target ++ " from " ++ Show.address 5 address
  | fault cause => cause.message

/-- The part of a story that compiling reads. -/
structure StoryText where
  memory : Memory
  header : Header
  tables : TextTables

/-- What the instructions of one routine are compiled against. -/
structure Scope where
  story : StoryText
  graph : FlowGraph
  localCount : Nat
  /-- Helpers that may be called. -/
  available : Helper → Bool

/-- Compiling adds to the pool of literals. -/
abbrev CompileM := EStateM CompileError (List String)

namespace Scope

variable (e : Scope)

/-- Fails unless a helper is available. -/
def require (address : Nat) (h : Helper) : CompileM Unit :=
  if e.available h then return () else throw (.missingHelper address h)

/-- Fails unless every helper is available. -/
def requireAll (address : Nat) (hs : List Helper) : CompileM Unit := hs.forM (e.require address)

/-- The helpers that reading a variable calls. -/
def readHelpers : Variable → List Helper
  | .stack => [.pop]
  | .localVar i => if i.toNat < e.localCount then [] else [.trap]
  | .globalVar _ => [.readGlobal]

/-- The helpers that writing a variable calls. -/
def writeHelpers : Variable → List Helper
  | .stack => [.push]
  | .localVar i => if i.toNat < e.localCount then [] else [.trap]
  | .globalVar _ => [.writeGlobal]

/-- The helpers that storing a result calls. -/
def storeHelpers (store : Option Variable) : List Helper :=
  (store.map e.writeHelpers).getD []

/-- The helpers that reading a cell calls; the stack is read in place. -/
def cellReadHelpers : Cell → List Helper
  | .named .stack => [.peek]
  | .named v => e.readHelpers v
  | .computed => [.readVariable]

/-- The helpers that writing a cell calls; the stack is written in place. -/
def cellWriteHelpers : Cell → List Helper
  | .named .stack => [.replaceTop]
  | .named v => e.writeHelpers v
  | .computed => [.writeVariable]

/-- The helpers that reading the operands calls. -/
def operandHelpers (operands : List Operand) : List Helper :=
  operands.flatMap fun o => (o.toVariable?.map e.readHelpers).getD []

/-- Number of the block that begins at `target`. -/
def blockAt (address target : Nat) : CompileM Nat :=
  match e.graph.indexOf? target with
  | some n => return n
  | none => throw (.invalidJumpTarget address target)

/-- The branch of an instruction. -/
def branchOf (i : Instruction) : CompileM (Option CodeBranch) :=
  match i.branch with
  | none => return none
  | some b => do
      let taken ← (match b.target with
        | .returnFalse => return .leave 0
        | .returnTrue => return .leave 1
        | .address a => Exit.block <$> e.blockAt i.address a)
      return some { condition := b.condition, taken, otherwise := ← e.blockAt i.address i.next }

/-- Number of a text in the pool. -/
def literal (text : String) : CompileM Nat := do
  let pool ← get
  match pool.idxOf? text with
  | some n => return n
  | none =>
      set (pool ++ [text])
      return pool.length

/-- Fails unless an instruction has an operand at a position. -/
def requireOperand (i : Instruction) (index : Nat) : CompileM Unit :=
  if index < i.operands.length then return ()
  else throw (.fault (.missingOperand i.opcode index))

/-- Text that an instruction prints. -/
def textOf (i : Instruction) : CompileM String :=
  match e.story.tables.decodeWords e.story.memory (i.text.getD []) with
  | .ok s => return s
  | .error cause => throw (.fault (.image cause))

/-- The variable that the first operand names. -/
def cellOf (i : Instruction) : Cell :=
  match i.operands.head?.bind Operand.constant? with
  | some n => .named (.ofByte n.toUInt8)
  | none => .computed

/-- Compile an instruction whose first operand names a variable. -/
def indirect (i : Instruction) : CompileM Action := do
  let need := e.requireAll i.address
  let cell := cellOf i
  let delta : Word := if i.opcode = .inc ∨ i.opcode = .incChk then 1 else 0xffff
  requireOperand i 0
  match i.opcode with
  | .inc | .dec =>
      need (e.cellReadHelpers cell ++ e.cellWriteHelpers cell)
      return .adjust cell delta
  | .incChk | .decChk =>
      requireOperand i 1
      need (e.cellReadHelpers cell ++ e.cellWriteHelpers cell)
      let comparison := if i.opcode = .incChk then Comparison.greater else .less
      return .adjustTest cell delta comparison (← e.branchOf i)
  | .store =>
      requireOperand i 1
      need (e.cellWriteHelpers cell)
      return .replace cell
  | .pull =>
      need (.pop :: e.cellWriteHelpers cell)
      return .pullInto cell
  | _ =>
      need (e.cellReadHelpers cell ++ e.storeHelpers i.store)
      return .copy cell i.store

/-- Compile a call. -/
def call (i : Instruction) : CompileM Action := do
  let need := e.requireAll i.address
  requireOperand i 0
  match i.operands.head?.bind Operand.constant? with
  | some packed =>
      if packed = 0 then
        need (e.storeHelpers i.store)
        return .callNothing i.store
      else
        need (.callDirect :: e.storeHelpers i.store)
        return .call (e.story.header.routineAddress packed) i.store
  | none =>
      need (.callPacked :: e.storeHelpers i.store)
      return .callPacked i.store

/-- The operation on words that an opcode with a number of operands stands for. -/
def arithmetic? : Opcode → Nat → Option Arithmetic
  | .add, 2 => some .add
  | .sub, 2 => some .sub
  | .mul, 2 => some .mul
  | .div, 2 => some .div
  | .mod, 2 => some .mod
  | .and, 2 => some .and
  | .or, 2 => some .or
  | .not, 1 => some .not
  | _, _ => none

/-- The test on words that an opcode with a number of operands stands for. -/
def comparison? : Opcode → Nat → Option Comparison
  | .je, _ + 2 => some .equalsAny
  | .jl, 2 => some .less
  | .jg, 2 => some .greater
  | .jz, 1 => some .zero
  | .test, 2 => some .hasBits
  | _, _ => none

/-- The helper for a memory access that an opcode with a number of operands stands for. -/
def access? : Opcode → Nat → Option Helper
  | .loadw, 2 => some .loadWord
  | .loadb, 2 => some .loadByte
  | .storew, 3 => some .storeWord
  | .storeb, 3 => some .storeByte
  | _, _ => none

/-- Compile an instruction that works on values only. -/
def data (i : Instruction) : CompileM Action := do
  let need := e.requireAll i.address
  let count := i.operands.length
  match arithmetic? i.opcode count with
  | some operation =>
      let traps := if operation = .div ∨ operation = .mod then [Helper.trap] else []
      need (traps ++ e.storeHelpers i.store)
      return .compute operation i.store
  | none =>
      match comparison? i.opcode count with
      | some comparison => return .compare comparison (← e.branchOf i)
      | none =>
          match access? i.opcode count with
          | some helper =>
              need (helper :: e.storeHelpers i.store)
              return .access i.opcode i.store
          | none =>
              need (.perform :: e.storeHelpers i.store)
              return .perform i.opcode i.store (← e.branchOf i)

/-- Compile what an instruction does with its operands. -/
def action (i : Instruction) : CompileM Action := do
  let need := e.requireAll i.address
  match i.opcode with
  | .nop => return .nothing
  | .rtrue => return .leave 1
  | .rfalse => return .leave 0
  | .ret =>
      requireOperand i 0
      return .leaveFirst
  | .retPopped =>
      need [.pop]
      return .leavePopped
  | .jump =>
      match i.jumpTarget? with
      | some target => return .jump (← e.blockAt i.address target)
      | none =>
          need [.trap]
          return .refuse .jump
  | .print =>
      let id ← literal (← e.textOf i)
      need [.printLiteral]
      return .print id
  | .printRet =>
      let id ← literal ((← e.textOf i) ++ "\n")
      need [.printLiteral]
      return .printLeave id
  | .newLine =>
      let id ← literal "\n"
      need [.printLiteral]
      return .print id
  | .quit =>
      need [.quit]
      return .quit
  | .pop =>
      need [.pop]
      return .drop
  | .push =>
      requireOperand i 0
      need [.push]
      return .push
  | .sread | .aread =>
      requireOperand i 0
      need (.readLine :: e.storeHelpers i.store)
      return .readLine i.store
  | .readChar =>
      need (.readChar :: e.storeHelpers i.store)
      return .readChar i.store
  | opcode =>
      if opcode.isCall then e.call i
      else if opcode = .pull ∧ i.store.isSome then
        if i.operands.isEmpty then
          need (.pop :: e.storeHelpers i.store)
          return .pullTop i.store
        else
          need (.loadWord :: .storeWord :: e.storeHelpers i.store)
          return .pullTable i.store
      else if opcode.hasIndirectVariable then e.indirect i
      else if opcode.interpreterOnly then
        need [.trap]
        return .refuse opcode
      else e.data i

/-- The operands that an instruction reads. -/
def operandsRead (i : Instruction) : List Operand :=
  match i.opcode with
  | .nop | .rtrue | .rfalse | .retPopped | .jump | .print | .printRet | .newLine | .quit | .pop =>
      []
  | opcode => if opcode.interpreterOnly then [] else i.operands

/-- Compile an instruction. -/
def step (i : Instruction) : CompileM CodeStep := do
  let operands := operandsRead i
  e.requireAll i.address (e.operandHelpers operands)
  return { operands, action := ← e.action i }

/-- Compile instructions up to the first that control does not pass; the last part of the result is
the address of the instruction compiled last, unless it is such a one. -/
def steps : List Instruction → CompileM (List CodeStep × Option Nat)
  | [] => return ([], none)
  | i :: rest => do
      let first ← e.step i
      if first.action.endsBlock then return ([first], none)
      else if rest.isEmpty then return ([first], some i.address)
      else
        let (more, last) ← steps rest
        return (first :: more, last)

/-- Compile a block. -/
def block (b : Block) : CompileM CodeBlock := do
  let (steps, last) ← e.steps b.instructions
  match last, b.instructions.getLast? with
  | some address, some i => return { steps, next := some (← e.blockAt address i.next) }
  | _, _ => return { steps, next := none }

end Scope

/-- What compiling a routine produced. -/
structure CompileStatistics where
  address : Nat
  /-- Number of compiled instructions. -/
  instructions : Nat
  locals : Nat
  /-- Reads of variables known only when the code runs. -/
  computedReads : Nat
  /-- Writes of variables known only when the code runs. -/
  computedWrites : Nat
  needs : Needs
deriving DecidableEq, Repr, Inhabited

/-- Compile a routine.  Of the helpers that there are, those of the groups that the routine needs
are available. -/
def compile (story : StoryText) (helpers : Bool) (r : Routine) :
    CompileM (Code × CompileStatistics) := do
  let needs := Needs.scan r
  let scope : Scope :=
    { story, graph := .build r, localCount := r.localCount
      available := fun h => helpers && needs.wants h.group }
  let blocks ← scope.graph.blocks.mapM scope.block
  let code : Code := { address := r.address, defaults := r.defaults, blocks := blocks.toArray }
  return (code, {
    address := r.address
    instructions := code.steps.length
    locals := r.localCount
    computedReads := code.steps.foldr (fun s n => s.action.computedReads + n) 0
    computedWrites := code.steps.foldr (fun s n => s.action.computedWrites + n) 0
    needs })

end ZMachine
