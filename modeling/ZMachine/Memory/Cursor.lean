/-
  Reading the image from front to back.

  A cursor is an address that moves past what it reads; a failed read leaves
  no new position.
-/
import ZMachine.Memory.Basic

namespace ZMachine

/-- A reading action: from a position to a value and the position after it. -/
abbrev Cursor := StateT Nat (Except ImageError)

namespace Cursor

variable (m : Memory)

/-- Read a byte and move past it. -/
def byte : Cursor Byte := do
  let a ← get
  let b ← m.readByte a
  set (a + 1)
  return b

/-- Read a word and move past it. -/
def word : Cursor Word := do
  let a ← get
  let w ← m.readWord a
  set (a + 2)
  return w

/-- Read a 32-bit value and move past it. -/
def dword : Cursor UInt32 := do
  let a ← get
  let v ← m.readDword a
  set (a + 4)
  return v

/-- Read `len` bytes and move past them. -/
def bytes (len : Nat) : Cursor (List Byte) := do
  let a ← get
  let bs ← m.readBytes a len
  set (a + len)
  return bs

/-- Read `count` words and move past them. -/
def words (count : Nat) : Cursor (List Word) := do
  let a ← get
  let ws ← m.readWords a count
  set (a + count * 2)
  return ws

/-- Move `len` bytes forward without reading. -/
def skip (len : Nat) : Cursor Unit := modify (· + len)

end Cursor

end ZMachine
