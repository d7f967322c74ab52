/-
  Z-characters and alphabets.

  Text is stored three five-bit Z-characters to a word; the last word of a
  text has its top bit set.  Z-characters from 6 on are letters of one of
  three alphabets.
-/
import ZMachine.Word

namespace ZMachine

/-- The ZSCII code of a new line. -/
def zsciiNewline : Byte := 13

/-- Z-character that fills the last word of a text. -/
def padding : Byte := 5

namespace ZChars

/-- A word of three Z-characters. -/
def wordOf (a b c : Byte) : Word := a.toUInt16 <<< 10 ||| b.toUInt16 <<< 5 ||| c.toUInt16

/-- The three Z-characters of a word. -/
def ofWord (w : Word) : List Byte :=
  [(w >>> 10).toUInt8 &&& 0x1f, (w >>> 5).toUInt8 &&& 0x1f, w.toUInt8 &&& 0x1f]

/-- The Z-characters of consecutive words. -/
def unpack (ws : List Word) : List Byte := ws.flatMap ofWord

/-- Words of Z-characters, three at a time, the last word marked as the end.  Characters that do
not fill a word are dropped. -/
def pack : List Byte → List Word
  | [a, b, c] => [wordOf a b c ||| 0x8000]
  | a :: b :: c :: rest => wordOf a b c :: pack rest
  | _ => []

/-- Fill up with padding to a whole number of words, and to at least one. -/
def fill (zs : List Byte) : List Byte :=
  if zs.isEmpty then [padding, padding, padding]
  else zs ++ List.replicate ((3 - zs.length % 3) % 3) padding

end ZChars

namespace Alphabet

/-! ## The default alphabets -/

/-- Letters of the first alphabet. -/
def lower : List Char := "abcdefghijklmnopqrstuvwxyz".toList

/-- Letters of the second alphabet. -/
def upper : List Char := "ABCDEFGHIJKLMNOPQRSTUVWXYZ".toList

/-- Letters of the third alphabet.  Its first place is taken by the escape. -/
def symbols (version : Nat) : List Char :=
  if version = 1 then " 0123456789.,!?_#'\"/\\<-:()".toList
  else " \n0123456789.,!?_#'\"/\\-:()".toList

/-- ZSCII code of a letter of a default alphabet. -/
def zscii (c : Char) : Byte := if c = '\n' then zsciiNewline else c.toNat.toUInt8

/-- Z-characters that shift one letter into the second and into the third alphabet. -/
def shifts (version : Nat) : Byte × Byte := if version ≤ 2 then (2, 3) else (4, 5)

end Alphabet

/-- Three alphabets of ZSCII codes. -/
structure Alphabets where
  first : List Byte
  second : List Byte
  third : List Byte
deriving DecidableEq, Repr, Inhabited

namespace Alphabets

/-- The alphabets of a version without a custom table. -/
def default (version : Nat) : Alphabets where
  first := Alphabet.lower.map Alphabet.zscii
  second := Alphabet.upper.map Alphabet.zscii
  third := (Alphabet.symbols version).map Alphabet.zscii

/-- The alphabets of a table of 78 codes.  The second place of the third alphabet is always a new
line. -/
def ofTable (codes : List Byte) : Alphabets where
  first := codes.take 26
  second := (codes.drop 26).take 26
  third := ((codes.drop 52).take 26).set 1 zsciiNewline

/-- The ZSCII code of letter `z` (from 6 on) of an alphabet. -/
def letter (a : Alphabets) (alphabet : Nat) (z : Byte) : Byte :=
  let letters :=
    match alphabet with
    | 0 => a.first
    | 1 => a.second
    | _ => a.third
  letters.getD (z.toNat - 6) 0

end Alphabets

/-- Z-characters of one character of story text, by the default alphabets.  A character that is in
none of them is escaped with the low ten bits of its code. -/
def encodeChar (version : Nat) (c : Char) : List Byte :=
  let (shift1, shift2) := Alphabet.shifts version
  let place (letters : List Char) : Option Byte :=
    (letters.idxOf? c).map fun i => (i + 6).toUInt8
  if c = ' ' then [0]
  else if c = '\n' ∧ version = 1 then [1]
  else
    match place Alphabet.lower with
    | some z => [z]
    | none =>
        match place Alphabet.upper with
        | some z => [shift1, z]
        | none =>
            match place (Alphabet.symbols version) with
            | some z => [shift2, z]
            | none =>
                let code := c.toNat % 0x400
                [shift2, 6, (code / 32).toUInt8, (code % 32).toUInt8]

/-- Words of story text, by the default alphabets. -/
def encodeText (version : Nat) (text : List Char) : List Word :=
  ZChars.pack (ZChars.fill (text.flatMap (encodeChar version)))

end ZMachine
