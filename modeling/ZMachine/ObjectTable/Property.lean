/-
  Properties of objects.

  A property table begins with the short name of the object; the properties
  follow in descending order of their numbers and end with a zero byte.
-/
import ZMachine.ObjectTable.Basic

namespace ZMachine

/-- One property as it stands in a property table. -/
structure Property where
  number : Byte
  /-- Address of its first byte. -/
  address : Nat
  /-- Number of bytes beyond the first before the data. -/
  extra : Nat
  /-- Number of bytes of data. -/
  length : Nat
deriving DecidableEq, Repr, Inhabited

namespace Property

/-- Address of the data. -/
def data (p : Property) : Nat := p.address + 1 + p.extra

/-- Number of bytes that the property takes. -/
def extent (p : Property) : Nat := 1 + p.extra + p.length

/-- Address of the property after this one. -/
def next (p : Property) : Nat := p.address + p.extent

end Property

namespace ObjectTable

/-- Address of the property table of an object. -/
def propertyTable (t : ObjectTable) (m : Memory) (object : Word) : Except Fault Nat := do
  let entry ← t.entry object
  return (← m.readWord (entry + t.layout.propertyOffset)).toNat

/-- Address of the short name of an object, and its length in words. -/
def shortName (t : ObjectTable) (m : Memory) (object : Word) : Except Fault (Nat × Byte) := do
  let table ← t.propertyTable m object
  return (table + 1, ← m.readByte table)

/-- Length in the second byte of a long property: six bits, where 0 stands for 64. -/
def longLength (b : Byte) : Nat :=
  let len := (b &&& 0x3f).toNat
  if len = 0 then 64 else len

/-- Length told by the only byte before the data. -/
def shortLength (version : Nat) (size : Byte) : Nat :=
  if version ≤ 3 then (size >>> 5).toNat + 1 else if size &&& 0x40 ≠ 0 then 2 else 1

/-- The property at an address; none at the end of the table. -/
def propertyAt (t : ObjectTable) (m : Memory) (a : Nat) : Except Fault (Option Property) := do
  let size ← m.readByte a
  if size = 0 then return none
  else if t.version ≤ 3 then
    return some ⟨size &&& 0x1f, a, 0, shortLength t.version size⟩
  else if size &&& 0x80 ≠ 0 then
    return some ⟨size &&& 0x3f, a, 1, longLength (← m.readByte (a + 1))⟩
  else return some ⟨size &&& 0x3f, a, 0, shortLength t.version size⟩

/-- Address of the first property of an object. -/
def firstPropertyAddress (t : ObjectTable) (m : Memory) (object : Word) : Except Fault Nat := do
  let (name, words) ← t.shortName m object
  return name + words.toNat * 2

/-- The first property of an object. -/
def firstProperty (t : ObjectTable) (m : Memory) (object : Word) :
    Except Fault (Option Property) := do
  t.propertyAt m (← t.firstPropertyAddress m object)

/-- The property with a number, looked for from `a` on as long as the numbers are greater. -/
def findPropertyFrom (t : ObjectTable) (m : Memory) (number : Word) (a : Nat) :
    Except Fault (Option Property) :=
  if a < m.size then do
    match ← t.propertyAt m a with
    | none => return none
    | some p =>
        if p.number.toUInt16 = number then return some p
        else if p.number.toUInt16 < number then return none
        else t.findPropertyFrom m number (a + p.extent)
  else t.propertyAt m a
termination_by m.size - a
decreasing_by simp only [Property.extent]; omega

/-- The property of an object with a number. -/
def findProperty (t : ObjectTable) (m : Memory) (object number : Word) :
    Except Fault (Option Property) := do
  t.findPropertyFrom m number (← t.firstPropertyAddress m object)

/-- Value of a property for the objects that lack it. -/
def defaultProperty (t : ObjectTable) (m : Memory) (number : Word) : Except Fault Word := do
  if number = 0 ∨ t.layout.defaults < number.toNat then throw (.missingProperty 0 number)
  m.readWord (t.defaults + (number.toNat - 1) * 2)

/-- Value of a property: of one byte, or the first two bytes of a longer one. -/
def property (t : ObjectTable) (m : Memory) (object number : Word) : Except Fault Word := do
  match ← t.findProperty m object number with
  | some p => if p.length = 1 then return (← m.readByte p.data).toUInt16 else m.readWord p.data
  | none => t.defaultProperty m number

/-- Address of the data of a property; 0 if the object lacks it. -/
def propertyAddress (t : ObjectTable) (m : Memory) (object number : Word) : Except Fault Nat := do
  return ((← t.findProperty m object number).map Property.data).getD 0

/-- Number of the property after the one with a number, or of the first property after 0. -/
def nextProperty (t : ObjectTable) (m : Memory) (object number : Word) : Except Fault Byte := do
  let next ←
    if number = 0 then t.firstProperty m object
    else
      match ← t.findProperty m object number with
      | some p => t.propertyAt m p.next
      | none => throw (.missingProperty object number)
  return (next.map Property.number).getD 0

/-- Length of the property whose data is at `a`; 0 for address 0. -/
def propertyLength (t : ObjectTable) (m : Memory) (a : Nat) : Except Fault Nat := do
  if a = 0 then return 0
  let size ← m.readByte (a - 1)
  if 3 < t.version ∧ size &&& 0x80 ≠ 0 then return longLength size
  else return shortLength t.version size

/-- Overwrite a property. -/
def setProperty (t : ObjectTable) (object number value : Word) : MemoryM Unit := do
  match ← MemoryM.query fun m => t.findProperty m object number with
  | some p =>
      if p.length = 1 then MemoryM.writeByte p.data value.toUInt8
      else MemoryM.writeWord p.data value
  | none => throw (.missingProperty object number)

end ObjectTable

end ZMachine
