/-
  Dividing typed text into words and looking them up.

  A text buffer holds the letters that were typed; the words found in it go
  to a parse buffer, four bytes for each: dictionary address, length and
  position.
-/
import ZMachine.Dictionary.Basic
import ZMachine.Memory.Action
import ZMachine.Text.DictionaryWord

namespace ZMachine

/-- A word of typed text, and where it begins in the text buffer. -/
structure Token where
  position : Byte
  text : List Byte
deriving DecidableEq, Repr, Inhabited

/-- The words of typed text.  `position` is that of the next letter, `begun` the word that it may
continue.  Spaces end words; separators end words and are words. -/
def splitFrom (separators : List Byte) (position : Byte) (begun : Option Token) :
    List Byte → List Token
  | [] => begun.toList
  | b :: bs =>
      if b = 32 then begun.toList ++ splitFrom separators (position + 1) none bs
      else if separators.contains b then
        begun.toList ++ ⟨position, [b]⟩ :: splitFrom separators (position + 1) none bs
      else
        let word := begun.getD ⟨position, []⟩
        splitFrom separators (position + 1) (some { word with text := word.text ++ [b] }) bs

/-- The words of typed text whose first letter stands at `start` in the text buffer. -/
def splitWords (input separators : List Byte) (start : Byte) : List Token :=
  splitFrom separators start none input

/-- The letters in a text buffer, and where the first of them stands.  They end with a zero before
version 5, and are counted from then on. -/
def bufferContents (m : Memory) (version buffer : Nat) : Except ImageError (List Byte × Byte) := do
  if 5 ≤ version then
    let len ← m.readByte (buffer + 1)
    return (← m.readBytes (buffer + 2) len.toNat, 2)
  else
    let size ← m.readByte buffer
    let bytes ← m.readBytes (buffer + 1) (max size.toNat 1)
    return (bytes.takeWhile (· != 0), 1)

/-- Write the parse blocks of words, the first of them at `block`.  Unknown words are passed over
if `skipUnknown` is set. -/
def writeTokens (t : TextTables) (d : Dictionary) (skipUnknown : Bool) :
    Nat → List Token → MemoryM Unit
  | _, [] => return ()
  | block, token :: rest => do
      let entry ← MemoryM.query fun m => d.lookup m (t.encodeWord token.text)
      unless entry = 0 ∧ skipUnknown do
        MemoryM.writeWord block entry.toUInt16
        MemoryM.writeByte (block + 2) token.text.length.toUInt8
        MemoryM.writeByte (block + 3) token.position
      writeTokens t d skipUnknown (block + 4) rest

/-- Look up the words of a text buffer and fill a parse buffer, as far as it has room. -/
def tokenise (t : TextTables) (d : Dictionary) (textBuffer parseBuffer : Nat)
    (skipUnknown : Bool) : MemoryM Unit := do
  let (letters, start) ← MemoryM.query fun m => bufferContents m t.version textBuffer
  let room ← MemoryM.readByte parseBuffer
  let tokens := (splitWords letters d.separators start).take room.toNat
  writeTokens t d skipUnknown (parseBuffer + 2) tokens
  MemoryM.writeByte (parseBuffer + 1) tokens.length.toUInt8

end ZMachine
