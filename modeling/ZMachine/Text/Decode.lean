/-
  Reading encoded text.

  A Z-character is a space, a shift, an abbreviation, an escape or a letter
  of the alphabet in force.  Abbreviations inside of an abbreviation are
  passed over.
-/
import ZMachine.Instruction.Decode
import ZMachine.Text.Tables

namespace ZMachine

namespace TextTables

/-- The characters of a ZSCII code: one, or none for code 0. -/
def charsOfZscii (t : TextTables) (code : Nat) : List Char := (t.charOfZscii code).toList

/-- Whether a Z-character begins an abbreviation. -/
def isAbbreviation (version : Nat) (z : Byte) : Bool :=
  if version = 1 then false
  else if version = 2 then z == 1
  else 1 ≤ z && z ≤ 3

/-- Characters of a run of Z-characters.  `expand` gives the text of an abbreviation; `lock` is the
alphabet in force and `shift` the one for the next letter only. -/
def decodeChars (t : TextTables) (expand : Nat → Except ImageError (List Char)) :
    Nat → Option Nat → List Byte → Except ImageError (List Char)
  | _, _, [] => return []
  | lock, shift, z :: zs => do
      let alphabet := shift.getD lock
      if z = 0 then
        return ' ' :: (← t.decodeChars expand lock none zs)
      else if z = 1 ∧ t.version = 1 then
        return '\n' :: (← t.decodeChars expand lock none zs)
      else if isAbbreviation t.version z then
        match zs with
        | [] => return []
        | index :: rest =>
            let text ← expand (32 * (z.toNat - 1) + index.toNat)
            return text ++ (← t.decodeChars expand lock none rest)
      else if t.version ≤ 2 ∧ z ≤ 3 then
        -- Up to version 2, characters 2 and 3 shift for one letter and 4 and 5 for good.
        t.decodeChars expand lock (some ((lock + z.toNat - 1) % 3)) zs
      else if t.version ≤ 2 ∧ z ≤ 5 then
        t.decodeChars expand ((lock + z.toNat - 3) % 3) none zs
      else if z ≤ 5 then
        t.decodeChars expand lock (some (z.toNat - 3)) zs
      else if z = 6 ∧ alphabet = 2 then
        match zs with
        | high :: low :: rest =>
            let code := high.toNat * 32 + low.toNat
            return t.charsOfZscii code ++ (← t.decodeChars expand lock none rest)
        | _ => return []
      else
        let code := t.alphabets.letter alphabet z
        return t.charsOfZscii code.toNat ++ (← t.decodeChars expand lock none zs)

/-- Text of an abbreviation. -/
def abbreviation (t : TextTables) (m : Memory) (index : Nat) : Except ImageError (List Char) := do
  let pointer ← m.readWord (t.abbreviations + index * 2)
  let words ← m.textWords (pointer.toNat * 2)
  t.decodeChars (fun _ => .ok []) 0 none (ZChars.unpack words)

/-- Text of words already read. -/
def decodeWords (t : TextTables) (m : Memory) (words : List Word) : Except ImageError String := do
  let chars ← t.decodeChars (t.abbreviation m) 0 none (ZChars.unpack words)
  return String.ofList chars

/-- The text at an address, and its length in bytes. -/
def decode (t : TextTables) (m : Memory) (a : Nat) : Except ImageError (String × Nat) := do
  let words ← m.textWords a
  let text ← t.decodeWords m words
  return (text, words.length * 2)

end TextTables

end ZMachine
