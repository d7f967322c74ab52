/-
  Operations on values.

  Every opcode that neither changes the flow of control nor names a variable
  works on the values of its operands and leaves an outcome.  The
  interpreter and compiled code share these operations.
-/
import ZMachine.Machine.Input
import ZMachine.ObjectTable.Tree
import ZMachine.Outcome

namespace ZMachine
namespace Machine

/-- The value of an operand at a position. -/
def argument (opcode : Opcode) (args : List Word) (index : Nat) : Except Fault Word :=
  match args[index]? with
  | some w => .ok w
  | none => .error (.missingOperand opcode index)

/-- Shift to the left by a signed number of places, filling with zeros. -/
def logicalShift (w : Word) (places : Int) : Word :=
  if 0 ≤ places ∧ places ≤ 15 then w <<< places.toNat.toUInt16
  else if -15 ≤ places ∧ places ≤ -1 then w >>> (-places).toNat.toUInt16
  else 0

/-- Shift to the left by a signed number of places, keeping the sign. -/
def arithmeticShift (w : Word) (places : Int) : Word :=
  if 0 ≤ places ∧ places ≤ 15 then w <<< places.toNat.toUInt16
  else if -15 ≤ places ∧ places ≤ -1 then Word.ofInt (Word.signed w >>> (-places).toNat)
  else if Word.signed w < 0 ∧ places < 0 then 0xffff
  else 0

/-- Form of a table of words. -/
def wordTable : Word := 0x82

/-- Look for a value among `count` entries of a table, the first of them at `a`, `stride` bytes
apart.  The outcome is the address of the first that holds it. -/
def scanTable (m : Memory) (value : Word) (words : Bool) (stride : Nat) :
    Nat → Nat → Except Fault Outcome
  | 0, _ => return .valueTest 0 false
  | count + 1, a => do
      let entry ← (if words then m.readWord a else UInt8.toUInt16 <$> m.readByte a)
      if entry = value then return .valueTest a.toUInt16 true
      else scanTable m value words stride count (a + stride)

/-- Copy one byte. -/
def copyByte (source target : Nat) : MachineM Unit := do
  storeByte target (← ask (·.readByte source))

/-- Copy a table of `size` bytes, or fill it with zeros if there is no second one.  The order of the
bytes is such that an overlap does no harm, unless `size` is negative: then it is ascending. -/
def copyTable (first second : Word) (size : Int) : MachineM Unit := do
  let offsets := List.range size.natAbs
  let (source, target) := (first.toNat, second.toNat)
  if second = 0 then offsets.forM fun i => storeByte (source + i) 0
  else if size < 0 ∨ second ≤ first then
    offsets.forM fun i => copyByte (source + i) (target + i)
  else offsets.reverse.forM fun i => copyByte (source + i) (target + i)

/-- Print `height` rows of a table of characters, `width` of them in a row and `skip` between
rows. -/
def printTable (width skip : Nat) : Nat → Nat → Bool → MachineM Unit
  | 0, _, _ => return ()
  | height + 1, a, isFirst => do
      unless isFirst do print "\n"
      let bytes ← ask (·.readBytes a width)
      let tables := (← get).text
      print (String.ofList (bytes.filterMap fun b => tables.charOfZscii b.toNat))
      printTable width skip height (a + width + skip) false

/-- Whether the image as it was loaded has the checksum that its header tells. -/
def verify (s : Machine) : Bool :=
  let size := s.pristine.size
  let stop := if s.header.fileLength = 0 then size else min s.header.fileLength size
  let sum := (s.pristine.extract headerSize stop).foldl (fun sum b => sum + b.toUInt16) (0 : Word)
  sum == s.header.checksum

/-- The character of a code point of 16 bits; half of a surrogate pair is none. -/
def charOfCode (w : Word) : Option Char :=
  if 0xd800 ≤ w ∧ w < 0xe000 then none else some (Char.ofNat w.toNat)

/-- Whether a character is a control character. -/
def isControl (c : Char) : Bool := c.toNat < 32 || (127 ≤ c.toNat && c.toNat < 160)

/-- Whether a character can be read (2) and printed (1). -/
def unicodeSupport (t : TextTables) (w : Word) : Word :=
  match charOfCode w with
  | none => 0
  | some c => if (t.zsciiOfChar c).isSome then 3 else if isControl c then 0 else 1

/-- Send a request to the screen. -/
def screen (command : ScreenCommand) : MachineM Outcome := do
  tell (·.screen command)
  return .done

/-- An action without an outcome. -/
def doing (x : MachineM Unit) : MachineM Outcome := do
  x
  return .done

/-- Comparison and arithmetic. -/
def performArithmetic (opcode : Opcode) (args : List Word) : Except Fault Outcome := do
  let a := argument opcode args
  match opcode with
  | .je => return .test (args.tail.contains (← a 0))
  | .jl => return .test (Word.signed (← a 0) < Word.signed (← a 1))
  | .jg => return .test (Word.signed (← a 0) > Word.signed (← a 1))
  | .jz => return .test ((← a 0) == 0)
  | .test =>
      -- The mask is looked at first: it decides which missing operand is told.
      let flags ← a 1
      return .test ((← a 0) &&& flags == flags)
  | .or => return .value ((← a 0) ||| (← a 1))
  | .and => return .value ((← a 0) &&& (← a 1))
  | .not => return .value (~~~(← a 0))
  | .add => return .value ((← a 0) + (← a 1))
  | .sub => return .value ((← a 0) - (← a 1))
  | .mul => return .value ((← a 0) * (← a 1))
  | .div =>
      let divisor ← a 1
      if divisor = 0 then throw .divisionByZero
      -- A zero divisor comes before a missing dividend.
      return .value (Word.divSigned (← a 0) divisor)
  | .mod =>
      let divisor ← a 1
      if divisor = 0 then throw .divisionByZero
      return .value (Word.modSigned (← a 0) divisor)
  | .logShift => return .value (logicalShift (← a 0) (Word.signed (← a 1)))
  | .artShift => return .value (arithmeticShift (← a 0) (Word.signed (← a 1)))
  | _ => throw (.unknownOpcode opcode)

/-- Objects and their properties. -/
def performObject (opcode : Opcode) (args : List Word) : MachineM Outcome := do
  let a (i : Nat) : MachineM Word := argument opcode args i
  let t := (← get).objects
  match opcode with
  | .jin =>
      let object ← a 0
      let parent ← ask fun m => t.link m .parent object
      return .test (parent == (← a 1))
  | .testAttr =>
      let (object, number) := (← a 0, ← a 1)
      return .test (← ask fun m => t.testAttribute m object number)
  | .setAttr => doing do inMemory (t.setAttribute (← a 0) (← a 1) true)
  | .clearAttr => doing do inMemory (t.setAttribute (← a 0) (← a 1) false)
  | .insertObj => doing do inMemory (t.insert (← a 0) (← a 1))
  | .removeObj => doing do inMemory (t.remove (← a 0))
  | .getSibling =>
      let object ← a 0
      let sibling ← ask fun m => t.link m .sibling object
      return .valueTest sibling (sibling != 0)
  | .getChild =>
      let object ← a 0
      let child ← ask fun m => t.link m .child object
      return .valueTest child (child != 0)
  | .getParent =>
      let object ← a 0
      return .value (← ask fun m => t.link m .parent object)
  | .getProp =>
      let (object, number) := (← a 0, ← a 1)
      return .value (← ask fun m => t.property m object number)
  | .getPropAddr =>
      let (object, number) := (← a 0, ← a 1)
      return .value (← ask fun m => t.propertyAddress m object number).toUInt16
  | .getNextProp =>
      let (object, number) := (← a 0, ← a 1)
      return .value (← ask fun m => t.nextProperty m object number).toUInt16
  | .getPropLen =>
      let data ← a 0
      return .value (← ask fun m => t.propertyLength m data.toNat).toUInt16
  | .putProp => doing do inMemory (t.setProperty (← a 0) (← a 1) (← a 2))
  | _ => throw (.unknownOpcode opcode)

/-- Memory, stack and random numbers. -/
def performMemory (opcode : Opcode) (args : List Word) : MachineM Outcome := do
  let a (i : Nat) : MachineM Word := argument opcode args i
  match opcode with
  | .loadw =>
      let place := (← a 0) + (← a 1) * 2
      return .value (← ask (·.readWord place.toNat))
  | .loadb =>
      let place := (← a 0) + (← a 1)
      return .value (← ask (·.readByte place.toNat)).toUInt16
  | .storew =>
      let place := (← a 0) + (← a 1) * 2
      doing do storeWord place.toNat (← a 2)
  | .storeb =>
      let place := (← a 0) + (← a 1)
      doing do storeByte place.toNat (← a 2).toUInt8
  | .push => doing do push (← a 0)
  | .scanTable =>
      let (value, table, count) := (← a 0, ← a 1, ← a 2)
      -- The top bit of the form says words, the other bits the distance of entries.
      let form := args.getD 3 wordTable
      ask fun m =>
        scanTable m value (form &&& 0x80 != 0) (form &&& 0x7f).toNat count.toNat table.toNat
  | .copyTable => doing do copyTable (← a 0) (← a 1) (Word.signed (← a 2))
  | .checkArgCount =>
      -- Without a frame there is no count to compare with, whatever the operand.
      let frame ← (← get).stack.current
      return .test (decide ((← a 0).toNat ≤ frame.argumentCount))
  | .random =>
      let range ← a 0
      let random := (← get).random
      if 0 < Word.signed range then
        let (w, random) := random.next range
        modify fun s => { s with random }
        return .value w
      else
        -- Ranges that are not positive seed the numbers anew; the value is 0 then.
        modify fun s => { s with random := random.reseed (Word.signed range) }
        return .value 0
  | _ => throw (.unknownOpcode opcode)

/-- Text. -/
def performText (opcode : Opcode) (args : List Word) : MachineM Outcome := do
  let a (i : Nat) : MachineM Word := argument opcode args i
  match opcode with
  | .newLine => doing (print "\n")
  | .printChar =>
      match (← get).text.charOfZscii (← a 0).toNat with
      | some c => doing (printChar c)
      | none => return .done
  | .printUnicode => doing do printChar ((charOfCode (← a 0)).getD '?')
  | .checkUnicode => return .value (unicodeSupport (← get).text (← a 0))
  | .printNum => doing do print (toString (Word.signed (← a 0)))
  | .printAddr => doing do printAt (← a 0).toNat
  | .printPaddr => doing do printAt ((← get).header.stringAddress (← a 0))
  | .printObj =>
      let object ← a 0
      let t := (← get).objects
      let (name, _) ← ask fun m => t.shortName m object
      doing (printAt name)
  | .printTable =>
      let (table, width) := (← a 0, ← a 1)
      let height := args.getD 2 1
      let skip := args.getD 3 0
      doing (printTable width.toNat skip.toNat height.toNat table.toNat true)
  | .tokenise =>
      -- The dictionary is read before the buffers are named.
      let custom := args.getD 2 0
      let default := (← get).header.dictionary
      let address := if custom = 0 then default else custom
      let dictionary ← ask fun m => Dictionary.read m address.toNat
      let (textBuffer, parseBuffer) := (← a 0, ← a 1)
      let tables := (← get).text
      doing (inMemory
        (tokenise tables dictionary textBuffer.toNat parseBuffer.toNat (args.getD 3 0 != 0)))
  | .encodeText =>
      let (text, length, skipped, coded) := (← a 0, ← a 1, ← a 2, ← a 3)
      let letters ← ask (·.readBytes (text + skipped).toNat length.toNat)
      let words := (← get).text.encodeWord letters
      doing (words.zipIdx.forM fun (w, i) => storeWord (coded.toNat + i * 2) w)
  | _ => throw (.unknownOpcode opcode)

/-- Streams and screen. -/
def performScreen (opcode : Opcode) (args : List Word) : MachineM Outcome := do
  let a (i : Nat) : MachineM Word := argument opcode args i
  match opcode with
  | .outputStream =>
      let number ← a 0
      let streams := (← get).streams
      let streams ← inMemory (streams.select (Word.signed number) args[1]?)
      modify fun s => { s with streams }
      return .done
  | .inputStream =>
      -- Only a report looks at the stream.
      if (← get).options.reportsInputStream then discard (a 0)
      return .done
  | .showStatus => doing showStatus
  | .splitWindow => screen (.splitWindow (← a 0))
  | .setWindow => screen (.setWindow (← a 0))
  | .eraseWindow => screen (.eraseWindow (Word.signed (← a 0)))
  | .eraseLine => screen (.eraseLine (← a 0))
  | .setCursor => screen (.setCursor (Word.signed (← a 0)) (args.getD 1 1))
  | .getCursor =>
      let (line, column) := (← get).host.cursor
      let table := (← a 0).toNat
      -- The line is written even if there is no room for the column.
      storeWord table line
      doing (storeWord (table + 2) column)
  | .setTextStyle => screen (.setTextStyle (← a 0))
  | .bufferMode => screen (.bufferMode ((← a 0) != 0))
  | .setColour => screen (.setColour (← a 0) (← a 1))
  | .setTrueColour => screen (.setTrueColour (← a 0) (← a 1))
  | .soundEffect => screen (.soundEffect (args.getD 0 1) (args.getD 1 0) (args.getD 2 0))
  | .setFont => return .value ((← get).host.selectFont (← a 0))
  -- There are no pictures and no margins.
  | .drawPicture | .erasePicture | .setMargins => return .done
  | .pictureData => return .test false
  | _ => throw (.unknownOpcode opcode)

/-- The story file.  Nothing can be saved. -/
def performFile (opcode : Opcode) : MachineM Outcome := do
  match opcode with
  | .verify => return .test (← get).verify
  | .piracy => return .test true
  | .nop => return .done
  | .save | .restore =>
      return if (← get).header.version ≤ 3 then .test false else .value 0
  | .saveExt | .restoreExt | .restoreUndo => return .value 0
  -- The value -1 says that undoing is not offered at all.
  | .saveUndo => return .value 0xffff
  | _ => throw (.unknownOpcode opcode)

/-- Carry out an opcode on the values of its operands. -/
def perform (opcode : Opcode) (args : List Word) : MachineM Outcome :=
  match opcode with
  | .je | .jl | .jg | .jz | .test | .or | .and | .not | .add | .sub | .mul | .div | .mod
  | .logShift | .artShift => performArithmetic opcode args
  | .jin | .testAttr | .setAttr | .clearAttr | .insertObj | .removeObj | .getSibling | .getChild
  | .getParent | .getProp | .getPropAddr | .getNextProp | .getPropLen | .putProp =>
      performObject opcode args
  | .loadw | .loadb | .storew | .storeb | .push | .scanTable | .copyTable | .checkArgCount
  | .random => performMemory opcode args
  | .newLine | .printChar | .printUnicode | .checkUnicode | .printNum | .printAddr | .printPaddr
  | .printObj | .printTable | .tokenise | .encodeText => performText opcode args
  | .outputStream | .inputStream | .showStatus | .splitWindow | .setWindow | .eraseWindow
  | .eraseLine | .setCursor | .getCursor | .setTextStyle | .bufferMode | .setColour
  | .setTrueColour | .soundEffect | .setFont | .drawPicture | .erasePicture | .setMargins
  | .pictureData => performScreen opcode args
  | _ => performFile opcode

end Machine
end ZMachine
