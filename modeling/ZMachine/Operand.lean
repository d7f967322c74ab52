/-
  Operands of an instruction.

  A two-bit kind says how an operand is encoded; a variable is named by one
  byte: 0 is the top of the evaluation stack, 1 to 15 the locals of the
  running routine, and the rest the globals.
-/
import ZMachine.Word

namespace ZMachine

/-- How an operand is encoded. -/
inductive OperandKind where
  | large
  | small
  | var
  | omitted
deriving DecidableEq, Repr, Inhabited

namespace OperandKind

/-- The kind named by the low two bits of a byte. -/
def ofBits (b : Byte) : OperandKind :=
  match (b &&& 3).toNat with
  | 0 => large
  | 1 => small
  | 2 => var
  | _ => omitted

/-- The two bits that name a kind. -/
def bits : OperandKind → Byte
  | large => 0
  | small => 1
  | var => 2
  | omitted => 3

/-- Number of bytes that an operand of this kind takes. -/
def size : OperandKind → Nat
  | large => 2
  | small => 1
  | var => 1
  | omitted => 0

end OperandKind

/-- A variable: the stack, a local or a global, both counted from zero. -/
inductive Variable where
  | stack
  | localVar (index : Byte)
  | globalVar (index : Byte)
deriving DecidableEq, Repr, Inhabited

namespace Variable

/-- The variable that a byte names. -/
def ofByte (b : Byte) : Variable :=
  if b = 0 then stack else if b < 16 then localVar (b - 1) else globalVar (b - 16)

/-- The byte that names a variable. -/
def toByte : Variable → Byte
  | stack => 0
  | localVar i => i + 1
  | globalVar i => i + 16

/-- Whether a variable is the evaluation stack. -/
def isStack : Variable → Bool
  | stack => true
  | _ => false

/-- Listing text: `SP`, `L` with a decimal index or `G` with a hexadecimal one. -/
def text : Variable → String
  | stack => "SP"
  | localVar i => "L" ++ Show.decimal 2 i.toNat
  | globalVar i => "G" ++ Show.hex 2 i.toNat

end Variable

/-- An operand: a constant of either width, or a variable read when the instruction runs. -/
inductive Operand where
  | large (value : Word)
  | small (value : Byte)
  | var (v : Variable)
deriving DecidableEq, Repr, Inhabited

namespace Operand

/-- How an operand is encoded. -/
def kind : Operand → OperandKind
  | large _ => .large
  | small _ => .small
  | var _ => .var

/-- The value of a constant operand. -/
def constant? : Operand → Option Word
  | large v => some v
  | small v => some v.toUInt16
  | var _ => none

/-- The variable of a variable operand. -/
def toVariable? : Operand → Option Variable
  | var v => some v
  | _ => none

/-- The bytes of an operand. -/
def bytes : Operand → List Byte
  | large v => Word.bytes v
  | small v => [v]
  | var v => [v.toByte]

/-- Listing text. -/
def text : Operand → String
  | large v => "#" ++ Show.hex 4 v.toNat
  | small v => "#" ++ Show.hex 2 v.toNat
  | var v => v.text

end Operand

end ZMachine
