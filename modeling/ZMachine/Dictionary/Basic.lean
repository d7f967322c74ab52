/-
  Dictionaries.

  A dictionary lists word separators and entries of equal length, which
  begin with an encoded word.  A non-negative count says that the entries are
  sorted, and lets the search halve its range.
-/
import ZMachine.Memory.Cursor

namespace ZMachine

/-- Head of a dictionary. -/
structure Dictionary where
  address : Nat
  /-- ZSCII codes that separate words and are words themselves. -/
  separators : List Byte
  /-- Number of bytes of an entry. -/
  entryLength : Byte
  entryCount : Nat
  sorted : Bool
  /-- Address of the first entry. -/
  entries : Nat
deriving DecidableEq, Repr, Inhabited

/-- Lexicographic order of words. -/
def compareWords : List Word → List Word → Ordering
  | [], [] => .eq
  | [], _ :: _ => .lt
  | _ :: _, [] => .gt
  | a :: as, b :: bs => if a < b then .lt else if b < a then .gt else compareWords as bs

namespace Dictionary

/-- Read the head of the dictionary at `a`. -/
def read (m : Memory) (a : Nat) : Except ImageError Dictionary :=
  let head : Cursor Dictionary := do
    let separatorCount ← Cursor.byte m
    let separators ← Cursor.bytes m separatorCount.toNat
    let entryLength ← Cursor.byte m
    let count := Word.signed (← Cursor.word m)
    return {
      address := a, separators, entryLength
      entryCount := count.natAbs
      sorted := 0 ≤ count
      entries := ← get }
  head.run' a

/-- Address of an entry. -/
def entryAddress (d : Dictionary) (index : Nat) : Nat := d.entries + index * d.entryLength.toNat

/-- How the entry at `a` compares with an encoded word. -/
def compareAt (m : Memory) (a : Nat) (encoded : List Word) : Except ImageError Ordering := do
  return compareWords (← m.readWords a encoded.length) encoded

/-- Search the entries from `low` up to, not including, `high`, halving the range. -/
def lookupSorted (d : Dictionary) (m : Memory) (encoded : List Word) (low high : Nat) :
    Except ImageError Nat :=
  if _h : low < high then do
    -- The lower of two middles.
    let middle := (low + high - 1) / 2
    let a := d.entryAddress middle
    match ← compareAt m a encoded with
    | .eq => return a
    | .lt => d.lookupSorted m encoded (middle + 1) high
    | .gt => d.lookupSorted m encoded low middle
  else return 0
termination_by high - low

/-- Search `count` entries from `index` on, one after the other. -/
def lookupLinear (d : Dictionary) (m : Memory) (encoded : List Word) :
    Nat → Nat → Except ImageError Nat
  | 0, _ => return 0
  | count + 1, index => do
      let a := d.entryAddress index
      if (← compareAt m a encoded) = .eq then return a
      else d.lookupLinear m encoded count (index + 1)

/-- Address of the entry of an encoded word; 0 if there is none. -/
def lookup (d : Dictionary) (m : Memory) (encoded : List Word) : Except ImageError Nat :=
  if d.sorted then d.lookupSorted m encoded 0 d.entryCount
  else d.lookupLinear m encoded d.entryCount 0

end Dictionary

end ZMachine
