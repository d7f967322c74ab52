/-
  The story header: the first 64 bytes of the image.

  The header names the format version, the tables of the story and where it
  starts.  Routines and strings are referred to by packed addresses, which
  the version unpacks.
-/
import ZMachine.Memory.Basic

namespace ZMachine

namespace HeaderField

/-! ## Offsets of the header fields -/

def version : Nat := 0x00
def flags1 : Nat := 0x01
def release : Nat := 0x02
def highMemory : Nat := 0x04
def initialPc : Nat := 0x06
def dictionary : Nat := 0x08
def objectTable : Nat := 0x0a
def globals : Nat := 0x0c
def staticMemory : Nat := 0x0e
def flags2 : Nat := 0x10
def serial : Nat := 0x12
def abbreviations : Nat := 0x18
def fileLength : Nat := 0x1a
def checksum : Nat := 0x1c
def interpreterNumber : Nat := 0x1e
def interpreterVersion : Nat := 0x1f
def screenHeight : Nat := 0x20
def screenWidth : Nat := 0x21
def screenWidthUnits : Nat := 0x22
def screenHeightUnits : Nat := 0x24
def fontWidth : Nat := 0x26
def fontHeight : Nat := 0x27
def routinesOffset : Nat := 0x28
def stringsOffset : Nat := 0x2a
def terminatingChars : Nat := 0x2e
def standardRevision : Nat := 0x32
def alphabetTable : Nat := 0x34
def extensionTable : Nat := 0x36

end HeaderField

/-- Number of bytes of the header. -/
def headerSize : Nat := 64

/-- What a packed address is multiplied by. -/
def packedMultiplier (version : Nat) : Nat :=
  if 1 ≤ version ∧ version ≤ 3 then 2 else if 4 ≤ version ∧ version ≤ 7 then 4 else 8

/-- Number of bytes that one unit of the header's file length stands for. -/
def lengthScale (version : Nat) : Nat :=
  if 1 ≤ version ∧ version ≤ 3 then 2 else if version = 4 ∨ version = 5 then 4 else 8

/-- The fields of the header, read once when a story is loaded. -/
structure Header where
  version : Nat
  release : Word
  serial : List Byte
  highMemoryBase : Word
  initialPc : Word
  dictionary : Word
  objectTable : Word
  globals : Word
  staticMemoryBase : Word
  abbreviations : Word
  /-- File length in bytes. -/
  fileLength : Nat
  checksum : Word
  /-- Added to packed routine addresses in versions 6 and 7, in units of eight bytes. -/
  routinesOffset : Word
  /-- Added to packed string addresses in versions 6 and 7, in units of eight bytes. -/
  stringsOffset : Word
  terminatingChars : Word
  /-- Custom alphabet table, from version 5 on. -/
  alphabetTable : Word
deriving DecidableEq, Repr, Inhabited

namespace Header

/-- Read the header of an image. -/
def read (m : Memory) : Except ImageError Header := do
  if m.size < headerSize then throw (.truncatedHeader m.size)
  let v ← m.readByte HeaderField.version
  unless 1 ≤ v ∧ v ≤ 8 do throw (.unsupportedVersion v)
  let version := v.toNat
  let offsets := version = 6 ∨ version = 7
  let field (present : Bool) (offset : Nat) : Word := if present then m.wordAt offset else 0
  return {
    version
    release := m.wordAt HeaderField.release
    serial := (List.range 6).map fun i => m.byteAt (HeaderField.serial + i)
    highMemoryBase := m.wordAt HeaderField.highMemory
    initialPc := m.wordAt HeaderField.initialPc
    dictionary := m.wordAt HeaderField.dictionary
    objectTable := m.wordAt HeaderField.objectTable
    globals := m.wordAt HeaderField.globals
    staticMemoryBase := m.wordAt HeaderField.staticMemory
    abbreviations := m.wordAt HeaderField.abbreviations
    fileLength := (m.wordAt HeaderField.fileLength).toNat * lengthScale version
    checksum := m.wordAt HeaderField.checksum
    routinesOffset := field offsets HeaderField.routinesOffset
    stringsOffset := field offsets HeaderField.stringsOffset
    terminatingChars := field (5 ≤ version) HeaderField.terminatingChars
    alphabetTable := field (5 ≤ version) HeaderField.alphabetTable }

/-- Address of the routine that a packed address refers to. -/
def routineAddress (h : Header) (packed : Word) : Nat :=
  packed.toNat * packedMultiplier h.version
    + if h.version = 6 ∨ h.version = 7 then h.routinesOffset.toNat * 8 else 0

/-- Address of the text that a packed address refers to. -/
def stringAddress (h : Header) (packed : Word) : Nat :=
  packed.toNat * packedMultiplier h.version
    + if h.version = 6 ∨ h.version = 7 then h.stringsOffset.toNat * 8 else 0

/-- Address of the main routine.  Outside of version 6 the header names its first instruction,
which follows a byte that declares no locals. -/
def mainRoutine (h : Header) : Nat :=
  if h.version = 6 then h.routineAddress h.initialPc else h.initialPc.toNat - 1

end Header

end ZMachine
