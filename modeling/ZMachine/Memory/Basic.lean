/-
  The story image in memory.

  Every access is checked against the size of the image.  A write either
  changes all of its bytes or none, and is reported, after it is complete, to
  every subscribed observer in the order of subscription.  Empty writes and
  reloads are not reported.
-/
import ZMachine.Fault

namespace ZMachine

/-- A completed write: where it began, what stood there and what stands there now. -/
structure Change where
  address : Nat
  old : List Byte
  new : List Byte
deriving DecidableEq, Repr, Inhabited

/-- The story image together with the observers of its writes. -/
structure Memory where
  bytes : Array Byte
  /-- Numbers of the subscribed observers, oldest first. -/
  observers : List UInt32 := []
  /-- Number that the next observer gets. -/
  nextObserver : UInt32 := 0
  /-- Reports not yet collected, oldest first: observer and change. -/
  notices : Array (UInt32 × Change) := #[]
deriving Inhabited

/-- Overwrite consecutive bytes from index `a` on; what falls outside is dropped. -/
def overwrite (bytes : Array Byte) (a : Nat) : List Byte → Array Byte
  | [] => bytes
  | b :: bs => overwrite (bytes.setIfInBounds a b) (a + 1) bs

namespace Memory

/-- Memory without observers. -/
def ofBytes (bytes : Array Byte) : Memory := { bytes }

/-- Number of bytes. -/
def size (m : Memory) : Nat := m.bytes.size

/-- Bytes can be counted up to this number, the largest of 64 bits. -/
def lengthLimit : Nat := 0xffffffffffffffff

/-- Fails unless `len` bytes at `a` lie inside the image. -/
def check (m : Memory) (a len : Nat) : Except ImageError Unit :=
  if a + len ≤ m.size then .ok () else .error (.outOfRange a len m.size)

/-- The byte at `a`, zero outside of the image. -/
def byteAt (m : Memory) (a : Nat) : Byte := m.bytes.getD a 0

/-- The word at `a`, its bytes zero outside of the image. -/
def wordAt (m : Memory) (a : Nat) : Word := Word.ofBytes (m.byteAt a) (m.byteAt (a + 1))

/-- Read one byte. -/
def readByte (m : Memory) (a : Nat) : Except ImageError Byte := do
  m.check a 1
  return m.byteAt a

/-- Read one word. -/
def readWord (m : Memory) (a : Nat) : Except ImageError Word := do
  m.check a 2
  return m.wordAt a

/-- Read a 32-bit value. -/
def readDword (m : Memory) (a : Nat) : Except ImageError UInt32 := do
  m.check a 4
  return dwordOfBytes (m.byteAt a) (m.byteAt (a + 1)) (m.byteAt (a + 2)) (m.byteAt (a + 3))

/-- Read `len` bytes. -/
def readBytes (m : Memory) (a len : Nat) : Except ImageError (List Byte) := do
  m.check a len
  return (m.bytes.extract a (a + len)).toList

/-- Read `count` words. -/
def readWords (m : Memory) (a count : Nat) : Except ImageError (List Word) := do
  m.check a (min (count * 2) lengthLimit)
  return (List.range count).map fun i => m.wordAt (a + i * 2)

/-- Report a change to every observer. -/
def notify (m : Memory) (change : Change) : Memory :=
  { m with notices := m.observers.foldl (fun log id => log.push (id, change)) m.notices }

/-- Whether `len` bytes at `a` lie inside the image. -/
def fits (m : Memory) (a len : Nat) : Bool := a + len ≤ m.size

/-- Carry out a write that fits, and report it. -/
def commit (m : Memory) (a : Nat) (bs : List Byte) : Memory :=
  if m.observers.isEmpty then { m with bytes := overwrite m.bytes a bs }
  else
    let old := (m.bytes.extract a (a + bs.length)).toList
    { m with bytes := overwrite m.bytes a bs }.notify ⟨a, old, bs⟩

/-- Write a run of bytes as one change. -/
def writeBytes (m : Memory) (a : Nat) (bs : List Byte) : Except ImageError Memory :=
  if bs.isEmpty then .ok m
  else if m.fits a bs.length then .ok (m.commit a bs)
  else .error (.outOfRange a bs.length m.size)

/-- Write one byte. -/
def writeByte (m : Memory) (a : Nat) (b : Byte) : Except ImageError Memory := m.writeBytes a [b]

/-- Write one word. -/
def writeWord (m : Memory) (a : Nat) (w : Word) : Except ImageError Memory :=
  m.writeBytes a (Word.bytes w)

/-- Write a 32-bit value. -/
def writeDword (m : Memory) (a : Nat) (v : UInt32) : Except ImageError Memory :=
  m.writeBytes a (dwordBytes v)

/-- Write consecutive words as one change. -/
def writeWords (m : Memory) (a : Nat) (ws : List Word) : Except ImageError Memory :=
  m.writeBytes a (wordBytes ws)

/-- Replace the first bytes of the image, unreported. -/
def reload (m : Memory) (bs : List Byte) : Except ImageError Memory := do
  m.check 0 bs.length
  return { m with bytes := overwrite m.bytes 0 bs }

/-- A copy of the bytes, without the observers. -/
def copy (m : Memory) : Memory := ofBytes m.bytes

/-- Add an observer and return its number. -/
def subscribe (m : Memory) : UInt32 × Memory :=
  (m.nextObserver,
    { m with observers := m.observers ++ [m.nextObserver], nextObserver := m.nextObserver + 1 })

/-- Remove an observer; says whether there was one. -/
def unsubscribe (m : Memory) (id : UInt32) : Bool × Memory :=
  (m.observers.contains id, { m with observers := m.observers.filter (· != id) })

/-- Collect the reports made so far. -/
def takeNotices (m : Memory) : Array (UInt32 × Change) × Memory :=
  (m.notices, { m with notices := #[] })

/-- One-line description: size and number of observers. -/
def summary (m : Memory) : String :=
  "Memory \x7b size: " ++ Nat.repr m.size ++ ", observers: " ++ Nat.repr m.observers.length
    ++ " \x7d"

end Memory

end ZMachine
