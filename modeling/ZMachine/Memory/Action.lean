/-
  Actions on memory that may fail half way.

  An action that fails keeps the writes made before the failure.
-/
import ZMachine.Memory.Basic

namespace ZMachine

/-- An action on memory. -/
abbrev MemoryM := EStateM Fault Memory

namespace MemoryM

/-- Look something up without changing anything. -/
def query {α : Type} (f : Memory → Except Fault α) : MemoryM α := fun m =>
  match f m with
  | .ok a => .ok a m
  | .error e => .error e m

/-- Write a run of bytes as one change. -/
def writeBytes (a : Nat) (bs : List Byte) : MemoryM Unit := fun m =>
  if bs.isEmpty then .ok () m
  else if m.fits a bs.length then .ok () (m.commit a bs)
  else .error (.image (.outOfRange a bs.length m.size)) m

/-- Write one byte. -/
def writeByte (a : Nat) (b : Byte) : MemoryM Unit := writeBytes a [b]

/-- Write one word. -/
def writeWord (a : Nat) (w : Word) : MemoryM Unit := writeBytes a (Word.bytes w)

/-- Read one byte. -/
def readByte (a : Nat) : MemoryM Byte := query fun m => m.readByte a

/-- Read one word. -/
def readWord (a : Nat) : MemoryM Word := query fun m => m.readWord a

end MemoryM

end ZMachine
