/-
  Decoding with a memory.

  Decoded instructions are kept by address, except those below a floor:
  that region is written often and its instructions are decoded afresh each
  time.  A write has to drop the kept instructions that it overlaps.
-/
import Std.Data.HashMap
import ZMachine.Instruction.Decode

namespace ZMachine

/-- Decoded instructions by address, and how often they were of use. -/
structure DecodeCache where
  version : Nat
  /-- Instructions below this address are not kept. -/
  floor : Nat := 0
  kept : Std.HashMap Nat Instruction := {}
  hits : Nat := 0
  misses : Nat := 0
deriving Inhabited

namespace DecodeCache

/-- Decode the instruction at `a`, or take the kept one. -/
def decode (c : DecodeCache) (m : Memory) (a : Nat) :
    Except ImageError Instruction × DecodeCache :=
  if a < c.floor then (ZMachine.decode m c.version a, c)
  else
    match c.kept[a]? with
    | some i => (.ok i, { c with hits := c.hits + 1 })
    | none =>
        match ZMachine.decode m c.version a with
        | .ok i => (.ok i, { c with misses := c.misses + 1, kept := c.kept.insert a i })
        | .error e => (.error e, { c with misses := c.misses + 1 })

/-- Largest address, at which ranges end that would reach beyond it. -/
def lastAddress : Nat := addressSpace - 1

/-- Drop the kept instructions that overlap the `len` bytes at `a`. -/
def invalidate (c : DecodeCache) (a len : Nat) : DecodeCache :=
  let stop := min (a + len) lastAddress
  { c with kept := c.kept.filter fun start i => decide (stop ≤ start ∨ i.next ≤ a) }

/-- Drop every kept instruction. -/
def clear (c : DecodeCache) : DecodeCache := { c with kept := {} }

/-- Number of kept instructions. -/
def count (c : DecodeCache) : Nat := c.kept.size

end DecodeCache

end ZMachine
