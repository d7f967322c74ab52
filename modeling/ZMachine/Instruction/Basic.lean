/-
  Decoded instructions: opcode, operands, and what may follow them (a result
  variable, a branch, text).
-/
import ZMachine.Fault
import ZMachine.Opcode.Traits
import ZMachine.Operand

namespace ZMachine

/-- Where a taken branch goes. -/
inductive BranchTarget where
  | returnFalse
  | returnTrue
  | address (a : Nat)
deriving DecidableEq, Repr, Inhabited

/-- Addresses of code are counted modulo 2^32. -/
def addressSpace : Nat := 0x100000000

/-- Address at distance `offset - 2` from the end `next` of an instruction. -/
def relativeTarget (next : Nat) (offset : Int) : Nat :=
  ((next + offset - 2) % addressSpace).toNat

/-- The branch of an instruction. -/
structure Branch where
  /-- The branch is taken when the test has this result. -/
  condition : Bool
  /-- Offset as encoded. -/
  offset : Int
  target : BranchTarget
deriving DecidableEq, Repr, Inhabited

namespace Branch

/-- The branch of an instruction that ends at `next`.  Offsets 0 and 1 return from the routine. -/
def ofOffset (condition : Bool) (offset : Int) (next : Nat) : Branch :=
  { condition, offset
    target :=
      if offset = 0 then .returnFalse
      else if offset = 1 then .returnTrue
      else .address (relativeTarget next offset) }

/-- Where the branch goes, unless it returns. -/
def address? (b : Branch) : Option Nat :=
  match b.target with
  | .address a => some a
  | _ => none

/-- Listing text. -/
def text (b : Branch) : String :=
  let polarity := if b.condition then "" else "~"
  match b.target with
  | .returnFalse => "?" ++ polarity ++ "rfalse"
  | .returnTrue => "?" ++ polarity ++ "rtrue"
  | .address a => "?" ++ polarity ++ Show.hex 5 a

end Branch

/-- One decoded instruction. -/
structure Instruction where
  address : Nat
  /-- Number of bytes of the encoding. -/
  length : Nat
  opcode : Opcode
  operands : List Operand
  store : Option Variable
  branch : Option Branch
  /-- Encoded text; its last word has the top bit set. -/
  text : Option (List Word)
deriving DecidableEq, Repr, Inhabited

namespace Instruction

/-- Address of the following instruction. -/
def next (i : Instruction) : Nat := i.address + i.length

/-- The operand at a position. -/
def operand (i : Instruction) (index : Nat) : Except ImageError Operand :=
  match i.operands[index]? with
  | some o => .ok o
  | none => .error (.omittedOperand i.address)

/-- Where a jump with a constant operand goes. -/
def jumpTarget? (i : Instruction) : Option Nat := do
  guard (i.opcode = .jump)
  let offset ← (← i.operands.head?).constant?
  return relativeTarget i.next (Word.signed offset)

/-- The addresses within the routine that control may reach besides the next instruction. -/
def targets (i : Instruction) : List Nat :=
  (i.branch.bind Branch.address?).toList ++ i.jumpTarget?.toList

/-- One line of a listing. -/
def listing (i : Instruction) : String :=
  Show.hex 5 i.address ++ ": " ++ i.opcode.text ++
  match i.jumpTarget? with
  | some target => " " ++ Show.hex 5 target
  | none =>
      String.join (i.operands.map fun o => " " ++ o.text)
      ++ (match i.store with
          | some v => " -> " ++ v.text
          | none => "")
      ++ (match i.branch with
          | some b => " " ++ b.text
          | none => "")
      ++ (match i.text with
          | some ws => " [" ++ Nat.repr ws.length ++ " word(s)]"
          | none => "")

end Instruction

end ZMachine
