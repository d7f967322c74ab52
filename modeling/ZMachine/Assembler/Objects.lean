/-
  Laying out an object table: property defaults, object entries, and a
  property table for each object with its name and its properties in
  descending order.
-/
import ZMachine.Assembler.Basic
import ZMachine.ObjectTable.Layout

namespace ZMachine

/-- Description of one object. -/
structure ObjectEntry where
  /-- Numbers of the attributes that are set. -/
  attributes : List Byte := []
  parent : Word := 0
  sibling : Word := 0
  child : Word := 0
  name : String := ""
  /-- Properties with their data, in any order. -/
  properties : List (Byte × List Byte) := []
deriving Repr, Inhabited

namespace Assembler

/-- The bytes that introduce a property of a length, if the version has one. -/
def propertyHeader? (version : Nat) (number : Byte) (len : Nat) : Option (List Byte) :=
  if version ≤ 3 then
    if 1 ≤ len ∧ len ≤ 8 then some [(len - 1).toUInt8 <<< 5 ||| number &&& 0x1f] else none
  else if len = 1 then some [number &&& 0x3f]
  else if len = 2 then some [0x40 ||| number &&& 0x3f]
  else if 3 ≤ len ∧ len ≤ 64 then
    some [0x80 ||| number &&& 0x3f, 0x80 ||| len.toUInt8 &&& 0x3f]
  else none

/-- Append one property, or remember that it cannot be encoded. -/
def property (asm : Assembler) (p : Byte × List Byte) : Assembler :=
  match propertyHeader? asm.version p.1 p.2.length with
  | some header => asm.emit (header ++ p.2)
  | none => asm.fail (.propertyLength p.1 p.2.length)

/-- Properties by descending number; equal numbers keep their order. -/
def sortProperties (ps : List (Byte × List Byte)) : List (Byte × List Byte) :=
  ps.mergeSort fun p q => decide (q.1 ≤ p.1)

/-- The name of an object with its length in words; nothing for the empty name. -/
def nameBytes (version : Nat) (name : String) : List Byte :=
  if name.isEmpty then [0]
  else
    let words := encodeText version name.toList
    words.length.toUInt8 :: wordBytes words

/-- Append the property table of an object; returns its address. -/
def propertyTable (asm : Assembler) (o : ObjectEntry) : Nat × Assembler :=
  let table := asm.position
  let asm := asm.emit (nameBytes asm.version o.name)
  (table, ((sortProperties o.properties).foldl property asm).emit [0])

/-- Set one attribute bit of the entry at `entry`. -/
def setAttributeBit (entry : Nat) (bytes : Array Byte) (n : Byte) : Array Byte :=
  let a := entry + n.toNat / 8
  bytes.setIfInBounds a (bytes.getD a 0 ||| 0x80 >>> (n % 8))

/-- The links of an object as they stand in its entry. -/
def linkBytes (version : Nat) (o : ObjectEntry) : List Byte :=
  if version ≤ 3 then [o.parent.toUInt8, o.sibling.toUInt8, o.child.toUInt8]
  else wordBytes [o.parent, o.sibling, o.child]

/-- Fill in the entry at `entry` and append the property table of the object. -/
def objectEntry (asm : Assembler) (entry : Nat) (o : ObjectEntry) : Assembler :=
  let layout := ObjectLayout.of asm.version
  let asm := { asm with bytes := o.attributes.foldl (setAttributeBit entry) asm.bytes }
  let (table, asm) := asm.propertyTable o
  asm.patch (entry + layout.attributeBytes)
    (linkBytes asm.version o ++ Word.bytes table.toUInt16)

/-- Append an object table and name it in the header; returns its address. -/
def objectTable (asm : Assembler) (defaults : List Word) (objects : List ObjectEntry) :
    Nat × Assembler :=
  let layout := ObjectLayout.of asm.version
  let table := asm.position
  let asm := asm.text ((List.range layout.defaults).map fun i => defaults.getD i 0)
  let (entries, asm) := asm.zeros (objects.length * layout.entrySize)
  let asm :=
    objects.zipIdx.foldl (fun asm (o, i) => asm.objectEntry (entries + i * layout.entrySize) o) asm
  (table, asm.patchWord HeaderField.objectTable table.toUInt16)

end Assembler

end ZMachine
