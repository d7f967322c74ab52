/-
  Compiled code.

  A compiled routine is a list of blocks; a block is a list of steps, one for
  each instruction, whose branches lead to blocks by number and whose texts
  stand in a pool of literals.  A step reads its operands in order and then
  acts on their values.
-/
import ZMachine.Opcode.Traits
import ZMachine.Operand

namespace ZMachine

/-- Where a taken branch goes: out of the routine, or to a block. -/
inductive Exit where
  | leave (w : Word)
  | block (number : Nat)
deriving DecidableEq, Repr, Inhabited

/-- A branch of compiled code. -/
structure CodeBranch where
  condition : Bool
  taken : Exit
  /-- Block in which control goes on otherwise. -/
  otherwise : Nat
deriving DecidableEq, Repr, Inhabited

/-- A variable that an operand names: known when compiling, or by the value of the first operand. -/
inductive Cell where
  | named (v : Variable)
  | computed
deriving DecidableEq, Repr, Inhabited

/-- Operations on words that need no helper, division by zero apart. -/
inductive Arithmetic where
  | add
  | sub
  | mul
  | div
  | mod
  | and
  | or
  | not
deriving DecidableEq, Repr, Inhabited

/-- Tests on words. -/
inductive Comparison where
  /-- The first value equals one of the others. -/
  | equalsAny
  | less
  | greater
  | zero
  /-- All bits of the second value are set in the first. -/
  | hasBits
deriving DecidableEq, Repr, Inhabited

/-- What a step does with the values of its operands. -/
inductive Action where
  | nothing
  /-- Return a fixed value. -/
  | leave (w : Word)
  /-- Return the first value. -/
  | leaveFirst
  /-- Return the top of the stack. -/
  | leavePopped
  | jump (block : Nat)
  /-- Only the interpreter can carry out this opcode. -/
  | refuse (opcode : Opcode)
  | print (literal : Nat)
  /-- Print and return true. -/
  | printLeave (literal : Nat)
  | quit
  /-- Drop the top of the stack. -/
  | drop
  | push
  /-- A call to address 0, which yields 0. -/
  | callNothing (store : Option Variable)
  | call (address : Nat) (store : Option Variable)
  /-- Call the routine whose packed address is the first value. -/
  | callPacked (store : Option Variable)
  /-- Take a word off the stack. -/
  | pullTop (store : Option Variable)
  /-- Take a word off the stack kept in the table at the first value. -/
  | pullTable (store : Option Variable)
  /-- Move the top of the stack to a variable. -/
  | pullInto (cell : Cell)
  /-- Add to a variable. -/
  | adjust (cell : Cell) (delta : Word)
  /-- Add to a variable and compare the sum with the second value. -/
  | adjustTest (cell : Cell) (delta : Word) (comparison : Comparison) (branch : Option CodeBranch)
  /-- Set a variable to the second value. -/
  | replace (cell : Cell)
  /-- Copy a variable. -/
  | copy (cell : Cell) (store : Option Variable)
  | readLine (store : Option Variable)
  | readChar (store : Option Variable)
  | compute (operation : Arithmetic) (store : Option Variable)
  | compare (comparison : Comparison) (branch : Option CodeBranch)
  /-- Carry out a memory access. -/
  | access (opcode : Opcode) (store : Option Variable)
  /-- Carry out an opcode as the interpreter does. -/
  | perform (opcode : Opcode) (store : Option Variable) (branch : Option CodeBranch)
deriving DecidableEq, Repr, Inhabited

/-- One compiled instruction. -/
structure CodeStep where
  operands : List Operand
  action : Action
deriving DecidableEq, Repr, Inhabited

/-- One compiled block. -/
structure CodeBlock where
  steps : List CodeStep
  /-- Block in which control goes on after the last step, if it gets there. -/
  next : Option Nat
deriving DecidableEq, Repr, Inhabited

/-- One compiled routine. -/
structure Code where
  address : Nat
  /-- Initial values of the locals. -/
  defaults : List Word
  blocks : Array CodeBlock
deriving DecidableEq, Repr, Inhabited

namespace Action

/-- Whether control never passes to the following step of the block. -/
def endsBlock : Action → Bool
  | leave _ | leaveFirst | leavePopped | jump _ | printLeave _ | quit => true
  | refuse opcode => opcode.isTerminal
  | adjustTest _ _ _ branch | compare _ branch | perform _ _ branch => branch.isSome
  | _ => false

/-- Number of reads of variables that are known only when the code runs. -/
def computedReads : Action → Nat
  | adjust .computed _ | adjustTest .computed .. | copy .computed _ => 1
  | _ => 0

/-- Number of writes of variables that are known only when the code runs. -/
def computedWrites : Action → Nat
  | adjust .computed _ | adjustTest .computed .. | replace .computed | pullInto .computed => 1
  | _ => 0

end Action

namespace Code

/-- All steps in order. -/
def steps (c : Code) : List CodeStep := c.blocks.toList.flatMap CodeBlock.steps

end Code

end ZMachine
