/-
  The text tables of a story: alphabets, the address of the abbreviations
  and the extra characters, and the relation between ZSCII codes and
  characters.
-/
import ZMachine.Header
import ZMachine.Text.Alphabet

namespace ZMachine

/-- Tables by which the text of one story is read and written. -/
structure TextTables where
  version : Nat
  /-- Address of the table of abbreviations. -/
  abbreviations : Nat
  alphabets : Alphabets
  /-- Characters of the ZSCII codes from 155 on. -/
  extra : List Char
deriving DecidableEq, Repr, Inhabited

/-- Extra characters of a story without a table of its own. -/
def defaultExtra : List Char :=
  "äöüÄÖÜß»«ëïÿËÏáéíóúýÁÉÍÓÚÝàèìòùÀÈÌÒÙâêîôûÂÊÎÔÛåÅøØãñõÃÑÕæÆçÇþðÞÐ£œŒ¡¿".toList

/-- First ZSCII code of the extra characters. -/
def extraFirst : Nat := 155

/-- Last ZSCII code of the extra characters. -/
def extraLast : Nat := 251

/-- The character of a 16-bit unit; half of a surrogate pair is no character. -/
def charOfUnit (w : Word) : Char :=
  if 0xd800 ≤ w ∧ w < 0xe000 then '?' else Char.ofNat w.toNat

namespace TextTables

/-- The extra characters that the header extension names, if it names any. -/
def readExtra (m : Memory) : Except ImageError (Option (List Char)) := do
  let extension := (← m.readWord HeaderField.extensionTable).toNat
  if extension = 0 then return none
  if (← m.readWord extension) < 3 then return none
  let table := (← m.readWord (extension + 6)).toNat
  if table = 0 then return none
  let count ← m.readByte table
  let units ← m.readWords (table + 1) count.toNat
  return some (units.map charOfUnit)

/-- Read the text tables of a story. -/
def read (m : Memory) (h : Header) : Except ImageError TextTables := do
  let alphabets ←
    if 5 ≤ h.version ∧ h.alphabetTable ≠ 0 then
      Alphabets.ofTable <$> m.readBytes h.alphabetTable.toNat 78
    else pure (.default h.version)
  let extra ← if 5 ≤ h.version then readExtra m else pure none
  return {
    version := h.version
    abbreviations := h.abbreviations.toNat
    alphabets
    extra := extra.getD defaultExtra }

/-- Number of words of an encoded dictionary entry. -/
def dictionaryWords (t : TextTables) : Nat := if t.version ≤ 3 then 2 else 3

/-- The character that an output code stands for; none for code 0. -/
def charOfZscii (t : TextTables) (code : Nat) : Option Char :=
  if code = 0 then none
  else if code = 9 ∧ t.version = 6 then some '\t'
  else if code = 11 ∧ t.version = 6 then some ' '
  else if code = 13 then some '\n'
  else if 32 ≤ code ∧ code ≤ 126 then some (Char.ofNat code)
  else if extraFirst ≤ code ∧ code ≤ extraLast then
    some (t.extra.getD (code - extraFirst) '?')
  else some '?'

/-- The code of an input character.  Long tables of extra characters reach beyond one byte. -/
def zsciiOfChar (t : TextTables) (c : Char) : Option Nat :=
  if c = '\n' ∨ c = '\r' then some 13
  else if ' ' ≤ c ∧ c ≤ '~' then some c.toNat
  else (t.extra.idxOf? c).map (extraFirst + ·)

end TextTables

end ZMachine
