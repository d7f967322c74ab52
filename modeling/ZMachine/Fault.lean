/-
  Everything that can go wrong while a story image is read or run.

  `ImageError` is a failure to read the image; `Fault` is a failure of the
  running machine.  Both are causes; their wording is `message`.
-/
import ZMachine.Opcode.Basic

namespace ZMachine

/-- Failure to read a story image. -/
inductive ImageError where
  /-- `len` bytes at `address` do not lie inside an image of `size` bytes. -/
  | outOfRange (address len size : Nat)
  /-- The header names a format version that does not exist. -/
  | unsupportedVersion (version : Byte)
  /-- An operand was asked for that the instruction at `address` does not carry. -/
  | omittedOperand (address : Nat)
  /-- The image is too small to hold a header. -/
  | truncatedHeader (size : Nat)
deriving DecidableEq, Repr, Inhabited

/-- Wording of an image error. -/
def ImageError.message : ImageError → String
  | outOfRange address len size =>
      "memory access out of range: " ++ Nat.repr len ++ " byte(s) at " ++ Show.address 4 address
        ++ " (size " ++ Show.address 4 size ++ ")"
  | unsupportedVersion version => "unsupported story version: " ++ Nat.repr version.toNat
  | omittedOperand address => "attempted to read omitted operand at " ++ Show.address 4 address
  | truncatedHeader size =>
      "memory image too small for a header (" ++ Nat.repr size ++ " bytes)"

/-- Input that does not fit the state of the machine. -/
inductive InputMismatch where
  | stepWhileAwaiting
  | noLineRequested
  | noCharRequested
deriving DecidableEq, Repr, Inhabited

/-- Wording of an input mismatch. -/
def InputMismatch.message : InputMismatch → String
  | stepWhileAwaiting => "step while awaiting input"
  | noLineRequested => "no line input requested"
  | noCharRequested => "no character input requested"

/-- Failure of the running machine. -/
inductive Fault where
  /-- The image could not be read or written. -/
  | image (cause : ImageError)
  /-- Nothing of the running routine's own is on the evaluation stack. -/
  | stackUnderflow
  /-- The evaluation stack is full. -/
  | stackOverflow (capacity : Nat)
  /-- Too many routines are active. -/
  | callDepthExceeded (limit : Nat)
  /-- No routine is active. -/
  | noFrame
  /-- The running routine has no such local. -/
  | invalidLocal (index count : Nat)
  /-- No object has this number, or the object cannot go where it was sent. -/
  | invalidObject (object : Word)
  /-- The object lacks the property. -/
  | missingProperty (object property : Word)
  /-- No attribute has this number. -/
  | invalidAttribute (number : Word)
  /-- The opcode means nothing in this story version. -/
  | unknownOpcode (opcode : Opcode)
  /-- The instruction carries too few operands. -/
  | missingOperand (opcode : Opcode) (index : Nat)
  /-- Compiled code reached an operation that is left to the interpreter. -/
  | notCompiled (mnemonic : String)
  /-- Division or remainder by zero. -/
  | divisionByZero
  /-- Compiled code names a pooled text that does not exist. -/
  | noLiteral (index : Nat)
  /-- Input was given or wanted at the wrong time. -/
  | inputState (cause : InputMismatch)
  /-- A throw names a frame that is gone. -/
  | invalidThrow (token : Word)
  /-- No routine can be read at this address. -/
  | invalidRoutine (address : Nat)
  /-- Input is needed at once and the host has none. -/
  | inputUnavailable
  /-- Too many memory tables are open for output. -/
  | streamDepth (limit : Nat)
  /-- A routine cannot be compiled, and the interpreter may not take over. -/
  | compileFailed (address : Nat) (reason : String)
  /-- A stop was requested. -/
  | interrupted
  /-- The story is over. -/
  | storyOver
  /-- The instruction at `address` failed. -/
  | located (address : Nat) (cause : Fault)
deriving DecidableEq, Repr, Inhabited

namespace Fault

/-- Wording of a fault. -/
def message : Fault → String
  | image cause => cause.message
  | stackUnderflow => "stack underflow for this frame"
  | stackOverflow capacity => "stack overflow (capacity " ++ Nat.repr capacity ++ " words)"
  | callDepthExceeded limit => "call depth exceeded (" ++ Nat.repr limit ++ " frames)"
  | noFrame => "no active call frame"
  | invalidLocal index count =>
      "local variable L" ++ Show.decimal 2 index ++ " out of range (" ++ Nat.repr count
        ++ " local(s))"
  | invalidObject object => "invalid object number " ++ Nat.repr object.toNat
  | missingProperty object property =>
      "object " ++ Nat.repr object.toNat ++ " has no property " ++ Nat.repr property.toNat
  | invalidAttribute number => "invalid attribute " ++ Nat.repr number.toNat
  | unknownOpcode opcode => "unknown opcode " ++ opcode.text
  | missingOperand opcode index =>
      "'" ++ opcode.text ++ "' is missing operand " ++ Nat.repr index
  | notCompiled mnemonic =>
      "opcode '" ++ mnemonic ++ "' is not implemented by compiled code"
  | divisionByZero => "division by zero"
  | noLiteral index => "invalid text: no literal #" ++ Nat.repr index
  | inputState cause => "input state mismatch: " ++ cause.message
  | invalidThrow token => "throw to stale frame " ++ Nat.repr token.toNat
  | invalidRoutine address => "malformed routine at " ++ Show.address 5 address
  | inputUnavailable => "input requested but the host has none available"
  | streamDepth limit =>
      "memory output stream nested more than " ++ Nat.repr limit ++ " deep"
  | compileFailed address reason =>
      "routine at " ++ Show.address 5 address ++ " failed to compile: " ++ reason
  | interrupted => "execution interrupted"
  | storyOver => "story has quit"
  | located address cause => "at " ++ Show.address 5 address ++ ": " ++ cause.message

/-- Name the failing instruction, unless one is named already. -/
def locate (address : Nat) : Fault → Fault
  | located a cause => located a cause
  | cause => located address cause

/-- The fault without the instruction that it names. -/
def root : Fault → Fault
  | located _ cause => cause.root
  | cause => cause

/-- The failing instruction, when it is known. -/
def address? : Fault → Option Nat
  | located a _ => some a
  | _ => none

theorem root_locate (a : Nat) (f : Fault) : (f.locate a).root = f.root := by
  cases f <;> simp [locate, root]

end Fault

/-- Reading the image is part of running the machine. -/
instance : MonadLift (Except ImageError) (Except Fault) where
  monadLift
    | .ok a => .ok a
    | .error e => .error (.image e)

/-- A result is an action that changes nothing. -/
instance {σ : Type} : MonadLift (Except Fault) (EStateM Fault σ) where
  monadLift x := fun s =>
    match x with
    | .ok a => .ok a s
    | .error e => .error e s

end ZMachine
