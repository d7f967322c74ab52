/-
  The call stack.

  All active routines share one stack of words.  Each frame remembers where
  its own words begin; nothing below can be popped.  Words and frames are
  listed with the newest first.
-/
import ZMachine.Fault
import ZMachine.Operand

namespace ZMachine

/-- Largest number of active routines. -/
def maxCallDepth : Nat := 1024

/-- Largest number of locals of a routine. -/
def maxLocals : Nat := 15

/-- Words that the stack holds unless told otherwise. -/
def defaultStackSize : Nat := 1024

/-- One active routine. -/
structure Frame where
  /-- Address of the routine. -/
  address : Nat
  /-- Where the caller goes on. -/
  returnAddress : Nat
  /-- Where the caller wants the result. -/
  store : Option Variable
  /-- Arguments that were given, at most as many as there are locals. -/
  arguments : List Word
  /-- Number of words on the stack when the routine was entered. -/
  base : Nat
  locals : List Word
deriving DecidableEq, Repr, Inhabited

namespace Frame

/-- A frame whose locals begin as `args`, and as `defaults` where there is no argument. -/
def enter (address returnAddress : Nat) (store : Option Variable) (defaults args : List Word)
    (base : Nat) : Frame :=
  let defaults := defaults.take maxLocals
  let arguments := args.take defaults.length
  { address, returnAddress, store, arguments, base
    locals := arguments ++ defaults.drop arguments.length }

/-- Number of locals. -/
def localCount (f : Frame) : Nat := f.locals.length

/-- Number of arguments that were given. -/
def argumentCount (f : Frame) : Nat := f.arguments.length

/-- Value of a local. -/
def local? (f : Frame) (index : Byte) : Except Fault Word :=
  match f.locals[index.toNat]? with
  | some w => .ok w
  | none => .error (.invalidLocal index.toNat f.localCount)

/-- Change a local. -/
def setLocal (f : Frame) (index : Byte) (value : Word) : Except Fault Frame :=
  if index.toNat < f.localCount then .ok { f with locals := f.locals.set index.toNat value }
  else .error (.invalidLocal index.toNat f.localCount)

end Frame

/-- Words and frames of all active routines, the newest first. -/
structure CallStack where
  values : List Word := []
  frames : List Frame := []
  /-- Largest number of words. -/
  capacity : Nat := defaultStackSize
deriving DecidableEq, Repr, Inhabited

namespace CallStack

/-- Number of words. -/
def size (s : CallStack) : Nat := s.values.length

/-- Number of frames. -/
def depth (s : CallStack) : Nat := s.frames.length

/-- Number of words below those of the running routine. -/
def base (s : CallStack) : Nat := (s.frames.head?.map Frame.base).getD 0

/-- Words of the running routine. -/
def frameValues (s : CallStack) : List Word := s.values.take (s.size - s.base)

/-- Add a word. -/
def push (s : CallStack) (w : Word) : Except Fault CallStack :=
  if s.capacity ≤ s.size then .error (.stackOverflow s.capacity)
  else .ok { s with values := w :: s.values }

/-- The newest word of the running routine and the words under it. -/
def top (s : CallStack) : Except Fault (Word × List Word) :=
  match s.values with
  | [] => .error .stackUnderflow
  | w :: ws => if s.size ≤ s.base then .error .stackUnderflow else .ok (w, ws)

/-- Take the newest word of the running routine. -/
def pop (s : CallStack) : Except Fault (Word × CallStack) := do
  let (w, ws) ← s.top
  return (w, { s with values := ws })

/-- The newest word of the running routine. -/
def peek (s : CallStack) : Except Fault Word := Prod.fst <$> s.top

/-- Change the newest word of the running routine. -/
def replaceTop (s : CallStack) (w : Word) : Except Fault CallStack := do
  let (_, ws) ← s.top
  return { s with values := w :: ws }

/-- Add a frame. -/
def pushFrame (s : CallStack) (f : Frame) : Except Fault CallStack :=
  if maxCallDepth ≤ s.depth then .error (.callDepthExceeded maxCallDepth)
  else .ok { s with frames := f :: s.frames }

/-- Take the newest frame, and drop the words that it left. -/
def popFrame (s : CallStack) : Except Fault (Frame × CallStack) :=
  match s.frames with
  | [] => .error .noFrame
  | f :: fs => .ok (f, { s with values := s.values.drop (s.size - f.base), frames := fs })

/-- The frame of the running routine. -/
def current (s : CallStack) : Except Fault Frame :=
  match s.frames with
  | [] => .error .noFrame
  | f :: _ => .ok f

/-- Value of a local of the running routine. -/
def readLocal (s : CallStack) (index : Byte) : Except Fault Word := do
  (← s.current).local? index

/-- Change a local of the running routine. -/
def writeLocal (s : CallStack) (index : Byte) (value : Word) : Except Fault CallStack := do
  let f ← (← s.current).setLocal index value
  return { s with frames := f :: s.frames.tail }

/-- Drop all words and frames. -/
def clear (s : CallStack) : CallStack := { s with values := [], frames := [] }

end CallStack

end ZMachine
