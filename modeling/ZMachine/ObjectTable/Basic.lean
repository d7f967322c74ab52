/-
  The object table of a story.

  Objects are numbered from 1; an entry holds attributes, links to parent,
  sibling and child, and the address of the properties.  The table does not
  say how many objects there are: the entries end where the first property
  table begins.

  The size of the image, where the search for the first property table
  starts, is a natural number here and has no limit.  A size that is cut to
  32 bits differs from it only for images of 4 GiB and more.
-/
import ZMachine.Header
import ZMachine.Memory.Action
import ZMachine.ObjectTable.Layout

namespace ZMachine

/-- Where the objects of a story are. -/
structure ObjectTable where
  version : Nat
  /-- Address of the property defaults. -/
  defaults : Nat
  /-- Number of objects. -/
  count : Nat
deriving DecidableEq, Repr, Inhabited

/-- One of the three links of an object. -/
inductive ObjectLink where
  | parent
  | sibling
  | child
deriving DecidableEq, Repr, Inhabited

/-- Position of a link among the links of an entry. -/
def ObjectLink.slot : ObjectLink → Nat
  | parent => 0
  | sibling => 1
  | child => 2

namespace ObjectTable

/-- The layout of the table. -/
def layout (t : ObjectTable) : ObjectLayout := .of t.version

/-- Address of the first entry. -/
def entries (t : ObjectTable) : Nat := t.defaults + t.layout.defaults * 2

/-- Count entries until one reaches beyond `lowest`, the lowest property table seen so far. -/
def scan (m : Memory) (l : ObjectLayout) (entries : Nat) : Nat → Nat → Nat → Nat
  | 0, count, _ => count
  | limit + 1, count, lowest =>
      let entry := entries + count * l.entrySize
      if lowest < entry + l.entrySize then count
      else
        let properties := (m.wordAt (entry + l.propertyOffset)).toNat
        let lowest := if properties = 0 then lowest else min lowest properties
        scan m l entries limit (count + 1) lowest

/-- The object table that a header names; without objects if it names none. -/
def ofHeader (m : Memory) (h : Header) : ObjectTable :=
  let l := ObjectLayout.of h.version
  let defaults := h.objectTable.toNat
  let count :=
    if defaults = 0 then 0 else scan m l (defaults + l.defaults * 2) l.maxObjects 0 m.size
  { version := h.version, defaults, count }

/-- Number of attributes of an object. -/
def attributeCount (t : ObjectTable) : Nat := t.layout.attributes

/-- Address of the entry of an object. -/
def entry (t : ObjectTable) (object : Word) : Except Fault Nat :=
  if object = 0 ∨ t.count < object.toNat then .error (.invalidObject object)
  else .ok (t.entries + (object.toNat - 1) * t.layout.entrySize)

/-- Address of a link in the entry at `entry`. -/
def linkAddress (t : ObjectTable) (entry : Nat) (link : ObjectLink) : Nat :=
  entry + t.layout.attributeBytes + link.slot * t.layout.linkBytes

/-- The object that a link leads to. -/
def link (t : ObjectTable) (m : Memory) (link : ObjectLink) (object : Word) :
    Except Fault Word := do
  let a := t.linkAddress (← t.entry object) link
  if t.version ≤ 3 then return (← m.readByte a).toUInt16
  else m.readWord a

/-- Change a link. -/
def setLink (t : ObjectTable) (link : ObjectLink) (object value : Word) : MemoryM Unit := do
  let a := t.linkAddress (← t.entry object) link
  if t.version ≤ 3 then MemoryM.writeByte a value.toUInt8
  else MemoryM.writeWord a value

/-- Byte and mask of an attribute of an object. -/
def attributeBit (t : ObjectTable) (object number : Word) : Except Fault (Nat × Byte) := do
  if t.attributeCount ≤ number.toNat then throw (.invalidAttribute number)
  let entry ← t.entry object
  return (entry + number.toNat / 8, 0x80 >>> (number % 8).toUInt8)

/-- Whether an attribute of an object is set. -/
def testAttribute (t : ObjectTable) (m : Memory) (object number : Word) : Except Fault Bool := do
  let (a, mask) ← t.attributeBit object number
  let byte ← m.readByte a
  return byte &&& mask != 0

/-- Set or clear an attribute of an object.  Nothing is written if it has that value already. -/
def setAttribute (t : ObjectTable) (object number : Word) (value : Bool) : MemoryM Unit := do
  let (a, mask) ← t.attributeBit object number
  let old ← MemoryM.readByte a
  let new := if value then old ||| mask else old &&& ~~~mask
  unless new = old do MemoryM.writeByte a new

end ObjectTable

end ZMachine
