/-
  What a routine needs of the machine, found out before it is compiled.
-/
import ZMachine.Compile.Helper
import ZMachine.Routine.Basic

namespace ZMachine

/-- What a routine needs. -/
structure Needs where
  /-- The evaluation stack. -/
  stack : Bool := false
  /-- Globals and tables. -/
  memory : Bool := false
  /-- Printing or input. -/
  screen : Bool := false
  /-- Selection of streams. -/
  streams : Bool := false
  /-- The first opcode that only the interpreter carries out. -/
  interpreterOnly : Option Opcode := none
deriving DecidableEq, Repr, Inhabited

/-- Whether an opcode is left to the interpreter. -/
def Opcode.interpreterOnly : Opcode → Bool
  | .restart | .catchFrame | .throwFrame | .save | .restore | .saveExt | .restoreExt | .saveUndo
  | .restoreUndo | .encodeText | .printTable | .inputStream | .soundEffect | .unknown .. => true
  | _ => false

namespace Opcode

/-- Whether an opcode works on the evaluation stack whatever its operands are. -/
def usesStack : Opcode → Bool
  | .push | .pop | .retPopped | .pull => true
  | _ => false

/-- Whether an opcode works on tables. -/
def usesMemory : Opcode → Bool
  | .pull | .loadw | .loadb | .storew | .storeb => true
  | _ => false

/-- Whether an opcode prints, takes input or commands the screen. -/
def usesScreen : Opcode → Bool
  | .print | .printRet | .newLine | .sread | .aread | .readChar | .printChar | .printNum
  | .printAddr | .printPaddr | .printObj | .printUnicode | .showStatus | .splitWindow | .setWindow
  | .eraseWindow | .eraseLine | .setCursor | .getCursor | .setTextStyle | .bufferMode | .setColour
  | .setTrueColour | .setFont => true
  | _ => false

/-- Whether an opcode selects streams. -/
def usesStreams : Opcode → Bool
  | .outputStream | .inputStream => true
  | _ => false

end Opcode

/-- The variables that an instruction names: operands, result, and the variable whose number is the
first operand. -/
def Instruction.variables (i : Instruction) : List Variable :=
  let indirect :=
    if i.opcode.hasIndirectVariable then
      (i.operands.head?.bind Operand.constant?).map fun w => Variable.ofByte w.toUInt8
    else none
  i.operands.filterMap Operand.toVariable? ++ i.store.toList ++ indirect.toList

/-- Whether an instruction is left to the interpreter: its opcode is, or it jumps to a computed
address. -/
def Instruction.interpreterOnly (i : Instruction) : Bool :=
  i.opcode.interpreterOnly || (i.opcode == .jump && i.jumpTarget?.isNone)

namespace Needs

/-- What one instruction needs. -/
def ofInstruction (i : Instruction) : Needs where
  stack := i.variables.any Variable.isStack || i.opcode.usesStack
  memory := i.variables.any (fun v => v matches .globalVar _) || i.opcode.usesMemory
  screen := i.opcode.usesScreen
  streams := i.opcode.usesStreams
  interpreterOnly := if i.interpreterOnly then some i.opcode else none

/-- What two runs of instructions need together. -/
def join (a b : Needs) : Needs where
  stack := a.stack || b.stack
  memory := a.memory || b.memory
  screen := a.screen || b.screen
  streams := a.streams || b.streams
  interpreterOnly := a.interpreterOnly <|> b.interpreterOnly

/-- What a routine needs. -/
def scan (r : Routine) : Needs := (r.instructions.map ofInstruction).foldl join {}

/-- Whether the helpers of a group are needed. -/
def wants (n : Needs) : HelperGroup → Bool
  | .core => true
  | .stack => n.stack
  | .memory => n.memory
  | .screen => n.screen

end Needs

end ZMachine
