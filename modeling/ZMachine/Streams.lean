/-
  Output streams.

  Stream 1 is the screen, stream 2 the transcript, which is on when a bit of
  the header is set, and stream 3 a table in memory.  While a table is open
  nothing goes anywhere else; tables nest.
-/
import ZMachine.Header
import ZMachine.Host
import ZMachine.Memory.Action
import ZMachine.Text.Tables

namespace ZMachine

/-- Largest number of open tables. -/
def maxOpenTables : Nat := 16

/-- Bit of the second flags of the header that turns the transcript on. -/
def transcriptBit : Word := 1

/-- Which streams are selected. -/
structure OutputStreams where
  screen : Bool := true
  /-- Open tables, the innermost first. -/
  tables : List Nat := []
deriving DecidableEq, Repr, Inhabited

/-- Where text goes outside of memory. -/
structure Delivery where
  screen : Bool
  transcript : Bool
deriving DecidableEq, Repr, Inhabited

/-- Show text where it goes. -/
def Host.deliver (h : Host) (d : Delivery) (text : String) : Host :=
  let h := if d.screen then h.print text else h
  if d.transcript then h.copyToTranscript text else h

namespace OutputStreams

/-- Whether output goes to a table. -/
def redirecting (s : OutputStreams) : Bool := !s.tables.isEmpty

/-- Whether the transcript is on. -/
def transcriptOn (m : Memory) : Except ImageError Bool := do
  return (← m.readWord HeaderField.flags2) &&& transcriptBit != 0

/-- Turn the transcript on or off. -/
def setTranscript (on : Bool) : MemoryM Unit := do
  let flags ← MemoryM.readWord HeaderField.flags2
  MemoryM.writeWord HeaderField.flags2
    (if on then flags ||| transcriptBit else flags &&& ~~~transcriptBit)

/-- Open a table for output. -/
def openTable (s : OutputStreams) (table : Nat) : MemoryM OutputStreams := do
  if maxOpenTables ≤ s.tables.length then throw (.streamDepth maxOpenTables)
  MemoryM.writeWord table 0
  return { s with tables := table :: s.tables }

/-- Select a stream, or deselect it if the number is negative.  Other numbers are passed over. -/
def select (s : OutputStreams) (number : Int) (table : Option Word) : MemoryM OutputStreams :=
  if number = 1 then return { s with screen := true }
  else if number = -1 then return { s with screen := false }
  else if number = 2 then do setTranscript true; return s
  else if number = -2 then do setTranscript false; return s
  else if number = 3 then s.openTable (table.getD 0).toNat
  else if number = -3 then return { s with tables := s.tables.tail }
  else return s

/-- Code that a character has in a table. -/
def tableCode (t : TextTables) (c : Char) : Byte :=
  if c = '\n' then zsciiNewline else ((t.zsciiOfChar c).getD 63).toUInt8

/-- Append codes to a table that holds `count` of them; returns the new count. -/
def appendCodes (table : Nat) : Word → List Byte → MemoryM Word
  | count, [] => return count
  | count, b :: bs => do
      MemoryM.writeByte (table + 2 + count.toNat) b
      appendCodes table (count + 1) bs

/-- Append text to a table: its codes first, then the count. -/
def writeToTable (t : TextTables) (table : Nat) (text : List Char) : MemoryM Unit := do
  let count ← MemoryM.readWord table
  let count ← appendCodes table count (text.map (tableCode t))
  MemoryM.writeWord table count

/-- Send text to the selected streams.  What goes out of memory is left to the caller. -/
def write (s : OutputStreams) (t : TextTables) (text : String) : MemoryM Delivery :=
  if text.isEmpty then return ⟨false, false⟩
  else
    match s.tables with
    | table :: _ => do
        writeToTable t table text.toList
        return ⟨false, false⟩
    | [] => do
        let transcript ← MemoryM.query fun m => transcriptOn m
        return ⟨s.screen, transcript⟩

end OutputStreams

end ZMachine
