/-
  Encoding of instructions.

  The bytes of an opcode with its operands, and of a branch.  Decoding these
  bytes gives the instruction back.
-/
import ZMachine.Opcode.Traits
import ZMachine.Operand

namespace ZMachine

/-- Misuse of the assembler. -/
inductive AssemblyError where
  /-- The version has no such opcode. -/
  | notEncodable (opcode : Opcode) (version : Nat)
  /-- The opcode cannot take so many operands. -/
  | operandCount (opcode : Opcode) (count : Nat)
  /-- A label is used and never bound. -/
  | unboundLabel (label : Nat)
  /-- The branch whose offset stands at `site` cannot reach its target. -/
  | branchOutOfRange (site target : Nat)
  /-- The version has no property of this length. -/
  | propertyLength (number : Byte) (length : Nat)
deriving DecidableEq, Repr, Inhabited

/-- Wording of an assembly error. -/
def AssemblyError.message (e : AssemblyError) : String :=
  "assembly error: " ++
  match e with
  | notEncodable opcode version =>
      "opcode '" ++ opcode.text ++ "' does not exist in version " ++ Nat.repr version
  | operandCount opcode count =>
      "opcode '" ++ opcode.text ++ "' cannot take " ++ Nat.repr count ++ " operand(s)"
  | unboundLabel label => "label " ++ Nat.repr label ++ " is never bound"
  | branchOutOfRange site target =>
      "branch at " ++ Show.address 0 site ++ " to " ++ Show.address 0 target ++ " is out of range"
  | propertyLength number length =>
      "property " ++ Nat.repr number.toNat ++ " of length " ++ Nat.repr length
        ++ " cannot be encoded"

namespace Encode

/-- The byte that holds four operand kinds, missing ones omitted. -/
def kindByte (operands : List Operand) : Byte :=
  let bits (slot : Nat) : Byte := ((operands[slot]?).map Operand.kind).getD .omitted |>.bits
  bits 0 <<< 6 ||| bits 1 <<< 4 ||| bits 2 <<< 2 ||| bits 3

/-- The bit of a long form that tells a variable from a small constant. -/
def longBit (bit : Byte) (o : Operand) : Byte := if o.kind = .var then bit else 0

/-- Bytes of the operands. -/
def operandBytes (operands : List Operand) : List Byte := operands.flatMap Operand.bytes

/-- Bytes that give the opcode in the variable and in the extended form. -/
def variableForm (cls : OpcodeClass) (number : Byte) : List Byte :=
  match cls with
  | .op2 => [0xc0 ||| number]
  | .varOps => [0xe0 ||| number]
  | _ => [0xbe, number]

/-- Bytes of an opcode with its operands. -/
def instruction (version : Nat) (opcode : Opcode) (operands : List Operand) :
    Except AssemblyError (List Byte) :=
  match opcode.encoding? version with
  | none => .error (.notEncodable opcode version)
  | some (cls, number) =>
      let countError := AssemblyError.operandCount opcode operands.length
      let general : Except AssemblyError (List Byte) :=
        let limit := if opcode.isDoubleVariable then 8 else 4
        if limit < operands.length ∨ (cls = .op2 ∧ operands.length < 2) then .error countError
        else
          let kinds :=
            if opcode.isDoubleVariable then [kindByte operands, kindByte (operands.drop 4)]
            else [kindByte operands]
          .ok (variableForm cls number ++ kinds ++ operandBytes operands)
      match cls, operands with
      | .op0, [] => .ok [0xb0 ||| number]
      | .op0, _ => .error countError
      | .op1, [o] => .ok (((0x80 : Byte) ||| o.kind.bits <<< 4 ||| number) :: o.bytes)
      | .op1, _ => .error countError
      | .op2, [a, b] =>
          if a.kind ≠ .large ∧ b.kind ≠ .large then
            .ok ((number ||| longBit 0x40 a ||| longBit 0x20 b) :: operandBytes [a, b])
          else general
      | _, _ => general

/-- Bit that a branch on true carries. -/
def polarity (condition : Bool) : Byte := if condition then 0x80 else 0

/-- Both bytes of a branch with a 14-bit offset. -/
def longBranch (condition : Bool) (offset : Int) : List Byte :=
  let raw := Word.ofInt offset &&& 0x3fff
  [polarity condition ||| Word.hi raw, Word.lo raw]

/-- Bytes of a branch, one if the offset fits in six bits. -/
def branch (condition : Bool) (offset : Int) : List Byte :=
  if 0 ≤ offset ∧ offset ≤ 63 then [polarity condition ||| 0x40 ||| offset.toNat.toUInt8]
  else longBranch condition offset

end Encode

end ZMachine
