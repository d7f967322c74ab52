/-
  The layout of object tables: how many property defaults precede the
  entries, and how an entry is divided into attributes, links and the
  address of its properties.
-/

namespace ZMachine

/-- Sizes that depend on the version. -/
structure ObjectLayout where
  /-- Number of property defaults before the entries. -/
  defaults : Nat
  /-- Bytes of attributes at the start of an entry. -/
  attributeBytes : Nat
  /-- Bytes of each of the three links. -/
  linkBytes : Nat
  /-- Largest number of objects. -/
  maxObjects : Nat
deriving DecidableEq, Repr, Inhabited

namespace ObjectLayout

/-- The layout of a version. -/
def of (version : Nat) : ObjectLayout :=
  if version ≤ 3 then ⟨31, 4, 1, 255⟩ else ⟨63, 6, 2, 65535⟩

/-- Offset of the address of the properties in an entry. -/
def propertyOffset (l : ObjectLayout) : Nat := l.attributeBytes + 3 * l.linkBytes

/-- Number of bytes of an entry. -/
def entrySize (l : ObjectLayout) : Nat := l.propertyOffset + 2

/-- Number of attributes of an object. -/
def attributes (l : ObjectLayout) : Nat := l.attributeBytes * 8

end ObjectLayout

end ZMachine
