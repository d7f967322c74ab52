/-
  Static traits of the opcodes: what follows the operands in the encoding,
  and how control leaves the instruction.
-/
import ZMachine.Opcode.Basic

namespace ZMachine
namespace Opcode

/-- Whether a byte naming the result variable follows the operands. -/
def hasStore (version : Nat) : Opcode → Bool
  | .or | .and | .loadw | .loadb | .getProp | .getPropAddr | .getNextProp | .add | .sub
  | .mul | .div | .mod | .call2S | .getSibling | .getChild | .getParent | .getPropLen
  | .call1S | .load | .not | .catchFrame | .callVS | .aread | .random | .callVS2
  | .readChar | .scanTable | .saveExt | .restoreExt | .logShift | .artShift | .setFont
  | .saveUndo | .restoreUndo | .checkUnicode => true
  | .save | .restore => version == 4
  | .pull => version == 6
  | _ => false

/-- Whether a branch follows the operands and the result variable. -/
def hasBranch (version : Nat) : Opcode → Bool
  | .je | .jl | .jg | .decChk | .incChk | .jin | .test | .testAttr | .jz | .getSibling
  | .getChild | .verify | .piracy | .scanTable | .checkArgCount | .pictureData => true
  | .save | .restore => decide (version ≤ 3)
  | _ => false

/-- Whether encoded text follows the instruction. -/
def hasText : Opcode → Bool
  | .print | .printRet => true
  | _ => false

/-- Whether the operation calls a routine. -/
def isCall : Opcode → Bool
  | .call1S | .call1N | .call2S | .call2N | .callVS | .callVN | .callVS2 | .callVN2 => true
  | _ => false

/-- Whether the encoding carries two bytes of operand kinds. -/
def isDoubleVariable : Opcode → Bool
  | .callVS2 | .callVN2 => true
  | _ => false

/-- Whether the first operand names a variable by its number. -/
def hasIndirectVariable : Opcode → Bool
  | .inc | .dec | .incChk | .decChk | .store | .load | .pull => true
  | _ => false

/-- Whether control never passes to the following instruction. -/
def isTerminal : Opcode → Bool
  | .rtrue | .rfalse | .printRet | .retPopped | .ret | .jump | .quit | .restart
  | .throwFrame => true
  | _ => false

/-- Whether the operation leaves the running routine. -/
def isReturn : Opcode → Bool
  | .rtrue | .rfalse | .printRet | .retPopped | .ret | .throwFrame => true
  | _ => false

end Opcode

end ZMachine
