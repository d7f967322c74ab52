/-
  Printing and input.

  Text goes through the output streams.  Input that the host has not got at
  hand suspends the machine until it is provided.
-/
import ZMachine.Dictionary.Tokens
import ZMachine.Machine.Calls
import ZMachine.ObjectTable.Property
import ZMachine.Text.Decode
import ZMachine.Text.Lowercase

namespace ZMachine
namespace Machine

/-- Send text through the output streams. -/
def print (text : String) : MachineM Unit := do
  let streams := (← get).streams
  let tables := (← get).text
  -- Memory first: text that does not fit its table is shown nowhere else.
  let delivery ← inMemory (streams.write tables text)
  tell (·.deliver delivery text)

/-- Print a character. -/
def printChar (c : Char) : MachineM Unit := print (String.singleton c)

/-- Print the text at an address. -/
def printAt (a : Nat) : MachineM Unit := do
  let tables := (← get).text
  let (text, _) ← ask fun m => tables.decode m a
  print text

/-- Print encoded words. -/
def printWords (ws : List Word) : MachineM Unit := do
  let tables := (← get).text
  print (← ask fun m => tables.decodeWords m ws)

/-- Bit of the first flags of the header that asks for the time in the status line. -/
def timeBit : Byte := 2

/-- The status line: the name of the object in the first global, and the next two globals as score
and turns or as hours and minutes. -/
def statusLine : MachineM StatusLine := do
  let s ← get
  let object ← readGlobal 0
  let location ←
    if object = 0 then pure ""
    else do
      let (name, _) ← ask fun m => s.objects.shortName m object
      Prod.fst <$> ask fun m => s.text.decode m name
  let first ← readGlobal 1
  let second ← readGlobal 2
  let flags ← ask (·.readByte HeaderField.flags1)
  return {
    location
    right :=
      if flags &&& timeBit ≠ 0 then .time first second
      else .score (Word.signed first) second }

/-- Show the status line, in the versions that have one. -/
def showStatus : MachineM Unit := do
  if (← get).header.version ≤ 3 then
    let status ← statusLine
    tell (·.showStatus status)

/-- Number of letters that a text buffer has room for. -/
def lineCapacity (buffer : Nat) : MachineM Nat := do
  let version := (← get).header.version
  let max ← ask (·.readByte buffer)
  return if version ≤ 4 then max.toNat - 1 else max.toNat

/-- Drop line ends at the end of a line. -/
def dropLineEnd (line : List Char) : List Char :=
  (line.reverse.dropWhile fun c => c == '\n' || c == '\r').reverse

/-- Codes of the letters of a typed line: lower case, without line ends and without characters that
have no code of one byte. -/
def typedLetters (t : TextTables) (line : String) : List Byte :=
  ((lowercaseText (dropLineEnd line.toList)).filterMap t.zsciiOfChar).filterMap fun code =>
    if code ≠ 13 ∧ code ≤ 255 then some code.toUInt8 else none

/-- Put letters into a text buffer: ended by a zero up to version 4, counted later. -/
def fillBuffer (version buffer : Nat) (letters : List Byte) : MemoryM Unit := do
  if version ≤ 4 then
    MemoryM.writeBytes (buffer + 1) letters
    MemoryM.writeByte (buffer + 1 + letters.length) 0
  else
    MemoryM.writeByte (buffer + 1) letters.length.toUInt8
    MemoryM.writeBytes (buffer + 2) letters

/-- Put a typed line into a text buffer, and its words into a parse buffer unless that is 0.
Returns the code of the key that ended the line. -/
def finishLine (textBuffer parseBuffer : Nat) (line : String) : MachineM Word := do
  let capacity ← lineCapacity textBuffer
  let header := (← get).header
  let tables := (← get).text
  let letters := (typedLetters tables line).take capacity
  inMemory (fillBuffer header.version textBuffer letters)
  unless parseBuffer = 0 do
    let dictionary ← ask fun m => Dictionary.read m header.dictionary.toNat
    inMemory (tokenise tables dictionary textBuffer parseBuffer false)
  return zsciiNewline.toUInt16

/-- Code of a key press; a key without a code counts as a question mark. -/
def finishChar (c : Char) : MachineM Word := do
  return (((← get).text.zsciiOfChar c).getD 63).toUInt16

/-- Store a value where an instruction wants it. -/
def storeResult (store : Option Variable) (w : Word) : MachineM Unit :=
  match store with
  | some v => writeVariable v w
  | none => return ()

/-- Wait for input.  A routine that is run to its end cannot wait. -/
def suspend (request : InputRequest) : MachineM Unit := do
  if 0 < (← get).nested then throw .inputUnavailable
  modify fun s => { s with state := .awaiting request }

/-- Ask the host for a line. -/
def hostLine (capacity : Nat) : MachineM (Option String) := do
  let (line, host) := (← get).host.readLine capacity
  modify fun s => { s with host }
  return line

/-- Ask the host for a key press. -/
def hostChar : MachineM (Option Char) := do
  let (c, host) := (← get).host.readChar
  modify fun s => { s with host }
  return c

/-- Go on with a line that the machine waited for. -/
def provideLine (line : String) : MachineM Unit := do
  match (← get).state with
  | .awaiting (.line textBuffer parseBuffer store) =>
      modify fun s => { s with state := .running }
      storeResult store (← finishLine textBuffer parseBuffer line)
  | _ => throw (.inputState .noLineRequested)

/-- Go on with a key press that the machine waited for. -/
def provideChar (c : Char) : MachineM Unit := do
  match (← get).state with
  | .awaiting (.key store) =>
      modify fun s => { s with state := .running }
      storeResult store (← finishChar c)
  | _ => throw (.inputState .noCharRequested)

end Machine
end ZMachine
