/-
  Decoding instructions.

  The first byte of an instruction tells its form: long, short, variable or,
  from version 5 on, extended.  The form gives the opcode and the operand
  kinds; operands, result variable, branch and text follow in this order.
  The result depends on the version and on the bytes read, and on nothing
  else.

  The length of an instruction is a natural number here and has no limit.
  A length that is cut to 32 bits differs from it only where an instruction
  takes 4 GiB and more, which only an image of that size has room for.
-/
import ZMachine.Instruction.Basic
import ZMachine.Memory.Cursor

namespace ZMachine

/-- First byte of an extended instruction. -/
def extendedMark : Byte := 0xbe

/-- The words of the text at `a`, up to and including the first word with its top bit set. -/
def Memory.textWords (m : Memory) (a : Nat) : Except ImageError (List Word) :=
  if a + 2 ≤ m.size then
    let w := m.wordAt a
    if w &&& 0x8000 ≠ 0 then .ok [w]
    else
      match m.textWords (a + 2) with
      | .ok ws => .ok (w :: ws)
      | .error e => .error e
  else .error (.outOfRange a 2 m.size)
termination_by m.size - a

namespace Decode

/-- The four operand kinds in a byte, from its top bits down. -/
def kindsOfByte (b : Byte) : List OperandKind :=
  [.ofBits (b >>> 6), .ofBits (b >>> 4), .ofBits (b >>> 2), .ofBits b]

/-- Kind of an operand of a long form, whose bit tells a variable from a small constant. -/
def longKind (first mask : Byte) : OperandKind :=
  if first &&& mask = 0 then .small else .var

/-- Opcode and operand kinds, from the first byte on. -/
def opcodeAndKinds (m : Memory) (version : Nat) : Cursor (Opcode × List OperandKind) := do
  let first ← Cursor.byte m
  if first = extendedMark ∧ 5 ≤ version then
    let number ← Cursor.byte m
    let kinds ← Cursor.byte m
    return (.lookup .ext number version, kindsOfByte kinds)
  else if first >>> 6 = 3 then
    -- The variable form, which opcodes with two operands may take as well.
    let cls := if first &&& 0x20 = 0 then OpcodeClass.op2 else .varOps
    let opcode := Opcode.lookup cls (first &&& 0x1f) version
    let kinds ← Cursor.byte m
    if opcode.isDoubleVariable then
      let more ← Cursor.byte m
      return (opcode, kindsOfByte kinds ++ kindsOfByte more)
    else return (opcode, kindsOfByte kinds)
  else if first >>> 6 = 2 then
    -- The short form: one operand of this kind, or none.
    let kind := OperandKind.ofBits (first >>> 4)
    if kind = .omitted then return (.lookup .op0 (first &&& 0x0f) version, [])
    else return (.lookup .op1 (first &&& 0x0f) version, [kind])
  else
    -- The long form.
    return (.lookup .op2 (first &&& 0x1f) version, [longKind first 0x40, longKind first 0x20])

/-- Operands of the given kinds; the first omitted one ends the list. -/
def operands (m : Memory) : List OperandKind → Cursor (List Operand)
  | [] => return []
  | .omitted :: _ => return []
  | .large :: ks => do
      let w ← Cursor.word m
      return .large w :: (← operands m ks)
  | .small :: ks => do
      let b ← Cursor.byte m
      return .small b :: (← operands m ks)
  | .var :: ks => do
      let b ← Cursor.byte m
      return .var (.ofByte b) :: (← operands m ks)

/-- Two's complement reading of 14 bits. -/
def signed14 (raw : Nat) : Int := if raw < 0x2000 then raw else (raw : Int) - 0x4000

/-- Condition and offset of a branch: six unsigned bits in one byte, or fourteen signed ones in
two. -/
def branch (m : Memory) : Cursor (Bool × Int) := do
  let first ← Cursor.byte m
  let condition := decide (first &&& 0x80 ≠ 0)
  let high := (first &&& 0x3f).toNat
  if first &&& 0x40 ≠ 0 then return (condition, (high : Int))
  else
    let second ← Cursor.byte m
    return (condition, signed14 (high * 256 + second.toNat))

/-- Text, up to the word that ends it. -/
def text (m : Memory) : Cursor (List Word) := do
  let a ← get
  let ws ← m.textWords a
  set (a + ws.length * 2)
  return ws

/-- Read `x` if it is present. -/
def optional {α : Type} (present : Bool) (x : Cursor α) : Cursor (Option α) :=
  if present then some <$> x else return none

/-- The instruction that begins at `address`, the present position. -/
def body (m : Memory) (version address : Nat) : Cursor Instruction := do
  let (opcode, kinds) ← opcodeAndKinds m version
  let operands ← operands m kinds
  let store ← optional (opcode.hasStore version) (Variable.ofByte <$> Cursor.byte m)
  let test ← optional (opcode.hasBranch version) (branch m)
  -- A branch counts from its own end, not from that of the text.
  let branchEnd ← get
  let text ← optional opcode.hasText (text m)
  let stop ← get
  return {
    address, opcode, operands, store, text
    length := stop - address
    branch := test.map fun (condition, offset) => .ofOffset condition offset branchEnd }

end Decode

/-- The instruction at `address`. -/
def decode (m : Memory) (version address : Nat) : Except ImageError Instruction :=
  (Decode.body m version address).run' address

/-- The texts of up to `count` consecutive instructions; stops at the first that cannot be
decoded. -/
def listingFrom (m : Memory) (version : Nat) : Nat → Nat → List String × Option ImageError
  | 0, _ => ([], none)
  | count + 1, a =>
      match decode m version a with
      | .ok i =>
          let (rest, stop) := listingFrom m version count i.next
          (i.listing :: rest, stop)
      | .error e => ([], some e)

end ZMachine
