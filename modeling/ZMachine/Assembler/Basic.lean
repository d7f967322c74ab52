/-
  Building story images.

  An assembler appends bytes after an empty header.  Labels may be used
  before they are bound; branches and jumps to them are filled in at the
  end.  The first misuse is remembered and reported by `finish`.
-/
import ZMachine.Assembler.Encode
import ZMachine.Header
import ZMachine.Text.Alphabet

namespace ZMachine

/-- What refers to a label. -/
inductive ReferenceKind where
  | branch (condition : Bool)
  | jump
deriving DecidableEq, Repr, Inhabited

/-- Two bytes at `site` that are to hold the distance to a label. -/
structure Reference where
  site : Nat
  label : Nat
  kind : ReferenceKind
deriving DecidableEq, Repr, Inhabited

/-- A story image in the making. -/
structure Assembler where
  version : Nat
  bytes : Array Byte
  /-- Addresses of the labels, once bound. -/
  labels : Array (Option Nat) := #[]
  references : Array Reference := #[]
  /-- The first misuse. -/
  failure : Option AssemblyError := none
deriving Inhabited

namespace Assembler

/-- An image with an empty header. -/
def start (version : Byte) : Assembler where
  version := version.toNat
  bytes := (Array.replicate headerSize 0).setIfInBounds HeaderField.version version

/-- Address of the next byte. -/
def position (asm : Assembler) : Nat := asm.bytes.size

/-- Overwrite bytes already there. -/
def patch (asm : Assembler) (a : Nat) (bs : List Byte) : Assembler :=
  { asm with bytes := overwrite asm.bytes a bs }

/-- Overwrite a word already there. -/
def patchWord (asm : Assembler) (a : Nat) (w : Word) : Assembler := asm.patch a (Word.bytes w)

/-- Append bytes. -/
def emit (asm : Assembler) (bs : List Byte) : Assembler :=
  { asm with bytes := asm.bytes ++ bs.toArray }

/-- Append a word. -/
def word (asm : Assembler) (w : Word) : Assembler := asm.emit (Word.bytes w)

/-- Append zero bytes; returns their address. -/
def zeros (asm : Assembler) (len : Nat) : Nat × Assembler :=
  (asm.position, { asm with bytes := asm.bytes ++ Array.replicate len 0 })

/-- Append zero bytes up to a multiple of `alignment`. -/
def align (asm : Assembler) (alignment : Nat) : Assembler :=
  let rest := asm.bytes.size % alignment
  if rest = 0 then asm
  else { asm with bytes := asm.bytes ++ Array.replicate (alignment - rest) 0 }

/-- Number of global variables. -/
def globalCount : Nat := 240

/-- Append the table of globals and name it in the header; returns its address. -/
def globals (asm : Assembler) (initial : List Word) : Nat × Assembler :=
  let (table, asm) := asm.zeros (globalCount * 2)
  let asm := asm.patch table (wordBytes (initial.take globalCount))
  (table, asm.patchWord HeaderField.globals table.toUInt16)

/-- Begin a routine; returns its address.  Initial values of locals are stored before version 5
only. -/
def routine (asm : Assembler) (locals : List Word) : Nat × Assembler :=
  let asm := asm.align (packedMultiplier asm.version)
  let start := asm.position
  let asm := asm.emit [locals.length.toUInt8]
  (start, if asm.version < 5 then asm.emit (wordBytes locals) else asm)

/-- Packed form of an address. -/
def pack (asm : Assembler) (a : Nat) : Word := (a / packedMultiplier asm.version).toUInt16

/-- Name a routine as the one where the story starts. -/
def setMain (asm : Assembler) (routine : Nat) : Assembler :=
  let value : Word :=
    if asm.version = 6 then asm.pack routine
    else
      let locals := (asm.bytes.getD routine 0).toNat
      let defaults := if asm.version < 5 then locals * 2 else 0
      (routine + 1 + defaults).toUInt16
  asm.patchWord HeaderField.initialPc value

/-- A new label, not yet bound. -/
def label (asm : Assembler) : Nat × Assembler :=
  (asm.labels.size, { asm with labels := asm.labels.push none })

/-- Bind a label to the present position. -/
def bindLabel (asm : Assembler) (l : Nat) : Assembler :=
  { asm with labels := asm.labels.setIfInBounds l (some asm.position) }

/-- A new label, bound to the present position. -/
def here (asm : Assembler) : Nat × Assembler :=
  let (l, asm) := asm.label
  (l, asm.bindLabel l)

/-- Remember a misuse, unless there was one before. -/
def fail (asm : Assembler) (e : AssemblyError) : Assembler :=
  { asm with failure := asm.failure.or (some e) }

/-- Append an opcode with its operands. -/
def op (asm : Assembler) (opcode : Opcode) (operands : List Operand) : Assembler :=
  match Encode.instruction asm.version opcode operands with
  | .ok bs => asm.emit bs
  | .error e => asm.fail e

/-- Append the result variable of an instruction. -/
def store (asm : Assembler) (v : Variable) : Assembler := asm.emit [v.toByte]

/-- Append a reference to a label. -/
def refer (asm : Assembler) (l : Nat) (kind : ReferenceKind) : Assembler :=
  { asm with references := asm.references.push ⟨asm.position, l, kind⟩ }.emit [0, 0]

/-- Append a branch to a label. -/
def branch (asm : Assembler) (condition : Bool) (l : Nat) : Assembler :=
  asm.refer l (.branch condition)

/-- Append a branch with a given offset. -/
def branchOffset (asm : Assembler) (condition : Bool) (offset : Int) : Assembler :=
  asm.emit (Encode.branch condition offset)

/-- Append a branch that returns from the routine. -/
def branchReturn (asm : Assembler) (condition value : Bool) : Assembler :=
  asm.branchOffset condition (if value then 1 else 0)

/-- Append a jump to a label. -/
def jump (asm : Assembler) (l : Nat) : Assembler := (asm.emit [0x8c]).refer l .jump

/-- Append words of encoded text. -/
def text (asm : Assembler) (ws : List Word) : Assembler := asm.emit (wordBytes ws)

/-- Append an instruction that prints a text. -/
def print (asm : Assembler) (s : String) : Assembler :=
  (asm.op .print []).text (encodeText asm.version s.toList)

/-- Append an encoded text; returns its address. -/
def string (asm : Assembler) (s : String) : Nat × Assembler :=
  (asm.position, asm.text (encodeText asm.version s.toList))

/-- Fill in one reference. -/
def resolve (labels : Array (Option Nat)) (bytes : Array Byte) (r : Reference) :
    Except AssemblyError (Array Byte) :=
  match labels.getD r.label none with
  | none => .error (.unboundLabel r.label)
  | some target =>
      -- Offsets count from the end of their two bytes, less two.
      let offset : Int := target - r.site
      match r.kind with
      | .branch condition =>
          if -8192 ≤ offset ∧ offset ≤ 8191 then
            .ok (overwrite bytes r.site (Encode.longBranch condition offset))
          else .error (.branchOutOfRange r.site target)
      | .jump => .ok (overwrite bytes r.site (Word.bytes (Word.ofInt offset)))

/-- Sum of the bytes after the header, modulo 2^16. -/
def checksumOf (bytes : Array Byte) : Word :=
  (bytes.toList.drop headerSize).foldl (fun sum b => sum + b.toUInt16) 0

/-- The finished image: references filled in, padded, with file length and checksum. -/
def finish (asm : Assembler) : Except AssemblyError (Array Byte) := do
  if let some e := asm.failure then throw e
  let bytes ← asm.references.toList.foldlM (resolve asm.labels) asm.bytes
  let scale := lengthScale asm.version
  let asm := { asm with bytes }.align scale
  let asm := asm.patchWord HeaderField.fileLength (asm.position / scale).toUInt16
  return (asm.patchWord HeaderField.checksum (checksumOf asm.bytes)).bytes

end Assembler

end ZMachine
