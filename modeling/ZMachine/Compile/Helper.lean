/-
  What compiled code asks of the machine.

  Compiled code keeps the locals to itself, computes and branches; for
  everything else it calls a helper.  A helper is known by a symbol and
  belongs to a group, so that a routine declares only the groups that it
  needs.  A routine that cannot go on leaves with a negative number.
-/
import ZMachine.Opcode.Basic
import ZMachine.Outcome

namespace ZMachine

/-- A helper of compiled code. -/
inductive Helper where
  | trap
  | push
  | pop
  | peek
  | replaceTop
  | readGlobal
  | writeGlobal
  | loadWord
  | loadByte
  | storeWord
  | storeByte
  | readVariable
  | writeVariable
  | callDirect
  | callPacked
  | perform
  | printLiteral
  | readLine
  | readChar
  | quit
deriving DecidableEq, Repr, Inhabited

/-- The part of the machine that a helper works on. -/
inductive HelperGroup where
  | core
  | stack
  | memory
  | screen
deriving DecidableEq, Repr, Inhabited

namespace Helper

/-- All helpers, in the order of their numbers. -/
def all : List Helper :=
  [trap, push, pop, peek, replaceTop, readGlobal, writeGlobal, loadWord, loadByte, storeWord,
    storeByte, readVariable, writeVariable, callDirect, callPacked, perform, printLiteral, readLine,
    readChar, quit]

/-- What the helper does, as part of its symbol. -/
def stem : Helper → String
  | trap => "trap"
  | push => "push"
  | pop => "pop"
  | peek => "peek"
  | replaceTop => "replace_top"
  | readGlobal => "read_global"
  | writeGlobal => "write_global"
  | loadWord => "load_word"
  | loadByte => "load_byte"
  | storeWord => "store_word"
  | storeByte => "store_byte"
  | readVariable => "read_variable"
  | writeVariable => "write_variable"
  | callDirect => "call_direct"
  | callPacked => "call_packed"
  | perform => "perform"
  | printLiteral => "print_literal"
  | readLine => "read_line"
  | readChar => "read_char"
  | quit => "quit"

/-- The symbol by which compiled code refers to a helper. -/
def symbol (h : Helper) : String := "quill_rt_" ++ h.stem

/-- Number of parameters; the first of them is the running machine. -/
def paramCount : Helper → Nat
  | pop | peek | readChar | quit => 1
  | push | replaceTop | readGlobal | printLiteral => 2
  | trap | writeGlobal | loadWord | loadByte | readLine => 3
  | storeWord | storeByte | readVariable | callDirect | callPacked | perform => 4
  | writeVariable => 5

/-- The group of a helper. -/
def group : Helper → HelperGroup
  | push | pop | peek | replaceTop => .stack
  | readGlobal | writeGlobal | loadWord | loadByte | storeWord | storeByte => .memory
  | printLiteral | readLine | readChar => .screen
  | trap | readVariable | writeVariable | callDirect | callPacked | perform | quit => .core

end Helper

/-- Why compiled code gave up. -/
inductive TrapReason where
  | notImplemented
  | divisionByZero
  | invalidLocal
deriving DecidableEq, Repr, Inhabited

/-- The reason that a number stands for. -/
def TrapReason.ofCode? (code : Int) : Option TrapReason :=
  if code = 0 then some notImplemented
  else if code = 1 then some divisionByZero
  else if code = 2 then some invalidLocal
  else none

/-- How a compiled routine ended. -/
inductive Completion where
  | returned (w : Word)
  | fault
  | quit
  | interrupted
deriving DecidableEq, Repr, Inhabited

/-- The end that a number stands for: negative numbers are no results. -/
def Completion.ofRaw (raw : Int) : Completion :=
  if raw = -2 then quit
  else if raw = -3 then interrupted
  else if raw < 0 then fault
  else returned (Word.ofInt raw)

namespace Opcode

/-- Number of a class of opcodes. -/
def classIndex : OpcodeClass → Nat
  | .op0 => 0
  | .op1 => 1
  | .op2 => 2
  | .varOps => 3
  | .ext => 4

/-- The class with a number. -/
def classOfIndex? : Nat → Option OpcodeClass
  | 0 => some .op0
  | 1 => some .op1
  | 2 => some .op2
  | 3 => some .varOps
  | 4 => some .ext
  | _ => none

/-- Number by which compiled code names an opcode. -/
def id? (op : Opcode) (version : Nat) : Option Nat := do
  let (cls, number) ← op.encoding? version
  return classIndex cls * 256 + number.toNat

/-- The opcode with a number. -/
def ofId? (id : Int) (version : Nat) : Option Opcode := do
  guard (0 ≤ id)
  let cls ← classOfIndex? (id.toNat / 256)
  return .lookup cls (id.toNat % 256).toUInt8 version

end Opcode

end ZMachine
