/-
  The flow of control in a routine.

  A block is a run of instructions that control enters at the first and
  leaves at the last one.  It ends after a branch, a call or an instruction
  that control does not pass, and before the target of a branch or jump.
-/
import ZMachine.Routine.Basic

namespace ZMachine

/-- A block of a routine. -/
structure Block where
  /-- Address of the first instruction. -/
  start : Nat
  /-- Position of the first instruction in the routine. -/
  first : Nat
  instructions : List Instruction
  /-- Whether a branch or jump leads here. -/
  isTarget : Bool
  /-- Where control may go on: the next instruction, if control passes to it, then the targets. -/
  successors : List Nat
deriving DecidableEq, Repr, Inhabited

/-- Position after the last instruction. -/
def Block.stop (b : Block) : Nat := b.first + b.instructions.length

/-- The blocks of a routine in ascending order of their addresses. -/
structure FlowGraph where
  blocks : List Block
  /-- Targets that are no instructions of the routine. -/
  external : Ascending
deriving DecidableEq, Repr, Inhabited

/-- Whether a block ends after an instruction, whatever follows. -/
def Instruction.endsBlock (i : Instruction) : Bool :=
  i.branch.isSome || i.opcode.isTerminal || i.opcode.isCall

namespace FlowGraph

/-- Where control may go on after the last instruction `i` of a block. -/
def successors (i : Instruction) (isLast : Bool) : List Nat :=
  let fallthrough := if i.opcode.isTerminal || isLast then [] else [i.next]
  i.targets.foldl (fun found a => if found.contains a then found else found ++ [a]) fallthrough

/-- The block of a run of instructions, the first of them at position `first`. -/
def block (targets : List Nat) (first : Nat) (run : List Instruction) (isLast : Bool) : Block :=
  let start := (run.head?.map Instruction.address).getD 0
  { start, first, instructions := run
    isTarget := targets.contains start
    successors := (run.getLast?.map fun i => successors i isLast).getD [] }

/-- The blocks of consecutive runs of instructions, the first of them at position `first`. -/
def ofRuns (targets : List Nat) : Nat → List (List Instruction) → List Block
  | _, [] => []
  | first, run :: rest =>
      block targets first run rest.isEmpty :: ofRuns targets (first + run.length) rest

/-- Divide a routine into blocks. -/
def build (r : Routine) : FlowGraph :=
  let (targets, external) :=
    (r.instructions.flatMap Instruction.targets).partition fun a => (r.indexOf? a).isSome
  let joined (i j : Instruction) : Bool := !(i.endsBlock || targets.contains j.address)
  { blocks := ofRuns targets 0 (r.instructions.splitBy joined)
    external := .ofList external }

/-- Position of the block that begins at `a`. -/
def indexOf? (g : FlowGraph) (a : Nat) : Option Nat :=
  Ascending.indexOf? (g.blocks.map Block.start) a

end FlowGraph

end ZMachine
