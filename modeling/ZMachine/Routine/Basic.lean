/-
  Routines.

  A routine begins with its locals and ends with the first instruction from
  which control does not pass on and beyond which no branch or jump of the
  routine leads.
-/
import ZMachine.Header
import ZMachine.Instruction.Cache
import ZMachine.Stack

namespace ZMachine

/-- Numbers in ascending order, each of them once. -/
abbrev Ascending := List Nat

namespace Ascending

/-- Add a number at its place, unless it is there. -/
def insert (n : Nat) : Ascending → Ascending
  | [] => [n]
  | m :: rest =>
      if n < m then n :: m :: rest
      else if n = m then m :: rest
      else m :: Ascending.insert n rest

/-- The numbers of a list. -/
def ofList (ns : List Nat) : Ascending := ns.foldr insert []

/-- Position of a number, which can only be in one half of the list. -/
def indexOf? (ns : Ascending) (a : Nat) : Option Nat :=
  if _more : 1 < ns.length then
    let half := ns.length / 2
    if a < ns.getD half 0 then indexOf? (ns.take half) a
    else (indexOf? (ns.drop half) a).map (half + ·)
  else if ns.head? = some a then some 0
  else none
termination_by ns.length
decreasing_by
  · rw [List.length_take]
    omega
  · rw [List.length_drop]
    omega

end Ascending

/-- A decoded routine. -/
structure Routine where
  address : Nat
  /-- Initial values of the locals. -/
  defaults : List Word
  /-- Instructions in ascending order of their addresses. -/
  instructions : List Instruction
deriving DecidableEq, Repr, Inhabited

/-- Instructions that are read before a routine counts as malformed. -/
def maxRoutineInstructions : Nat := 0x4000

/-- Decode through the cache. -/
def DecodeCache.fetch (m : Memory) (a : Nat) : EStateM Fault DecodeCache Instruction := fun c =>
  match c.decode m a with
  | (.ok i, c) => .ok i c
  | (.error e, c) => .error (.image e) c

namespace Routine

/-- Initial values of the locals of the routine at `address`, and the address of its first
instruction.  Up to version 4 the values are written down, later they are zero. -/
def readLocals (m : Memory) (version address : Nat) : Except Fault (List Word × Nat) := do
  let count := (← m.readByte address).toNat
  if maxLocals < count then throw (.invalidRoutine address)
  if version ≤ 4 then
    return (← m.readWords (address + 1) count, address + 1 + count * 2)
  else return (List.replicate count 0, address + 1)

/-- Instructions from `pc` up to the end of the routine at `address`.  `furthest` is the furthest
address that a branch or jump has led to, `limit` how many instructions may follow. -/
def readInstructions (m : Memory) (address : Nat) :
    Nat → Nat → Nat → EStateM Fault DecodeCache (List Instruction)
  | 0, _, _ => throw (.invalidRoutine address)
  | limit + 1, pc, furthest => do
      let i ← DecodeCache.fetch m pc
      let furthest := i.targets.foldl max furthest
      if i.opcode.isTerminal ∧ furthest < i.next then return [i]
      return i :: (← readInstructions m address limit i.next furthest)

/-- Decode the routine at `address`. -/
def read (m : Memory) (address : Nat) : EStateM Fault DecodeCache Routine := do
  let version := (← get).version
  let (defaults, entry) ← readLocals m version address
  let instructions ← readInstructions m address maxRoutineInstructions entry entry
  return { address, defaults, instructions }

/-- Number of locals. -/
def localCount (r : Routine) : Nat := r.defaults.length

/-- Address of the first instruction. -/
def entry (r : Routine) : Nat := (r.instructions.head?.map Instruction.address).getD r.address

/-- Address after the last instruction. -/
def stop (r : Routine) : Nat := (r.instructions.getLast?.map Instruction.next).getD r.address

/-- Position of the instruction that begins at `a`. -/
def indexOf? (r : Routine) (a : Nat) : Option Nat :=
  Ascending.indexOf? (r.instructions.map Instruction.address) a

/-- The routine that an instruction calls by a constant address. -/
def callTarget? (h : Header) (i : Instruction) : Option Nat := do
  guard i.opcode.isCall
  let packed ← (← i.operands.head?).constant?
  guard (packed ≠ 0)
  return h.routineAddress packed

/-- Addresses of the routines that are called by constant addresses. -/
def calls (r : Routine) (h : Header) : Ascending :=
  .ofList (r.instructions.filterMap (callTarget? h))

end Routine

end ZMachine
