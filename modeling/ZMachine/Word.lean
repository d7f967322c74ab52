/-
  Bytes and 16-bit words.

  A story file is a run of bytes; two neighbouring bytes, most significant
  first, make a word.  This file holds the conversions between bytes, words
  and their signed readings, and the hexadecimal text in which addresses are
  shown.  Addresses themselves are natural numbers.
-/

namespace ZMachine

/-- One byte of the story image. -/
abbrev Byte := UInt8

/-- One 16-bit word of the story image, and the value of every variable. -/
abbrev Word := UInt16

namespace Word

/-- The word whose most significant byte is `hi`. -/
def ofBytes (hi lo : Byte) : Word :=
  hi.toUInt16 <<< 8 ||| lo.toUInt16

/-- The most significant byte. -/
def hi (w : Word) : Byte := (w >>> 8).toUInt8

/-- The least significant byte. -/
def lo (w : Word) : Byte := w.toUInt8

/-- The two bytes of a word as they stand in the image. -/
def bytes (w : Word) : List Byte := [hi w, lo w]

/-- Two's complement reading of a word. -/
def signed (w : Word) : Int := w.toInt16.toInt

/-- The word that stands for an integer, modulo 2^16. -/
def ofInt (n : Int) : Word := (n % 65536).toNat.toUInt16

/-- Quotient of signed words, rounded toward zero, modulo 2^16. -/
def divSigned (a b : Word) : Word := ofInt (Int.tdiv (signed a) (signed b))

/-- Remainder of signed words, with the sign of the dividend. -/
def modSigned (a b : Word) : Word := ofInt (Int.tmod (signed a) (signed b))

end Word

/-- The bytes of consecutive words as they stand in the image. -/
def wordBytes (ws : List Word) : List Byte := ws.flatMap Word.bytes

/-- Four bytes of a 32-bit value, most significant first. -/
def dwordBytes (v : UInt32) : List Byte :=
  [(v >>> 24).toUInt8, (v >>> 16).toUInt8, (v >>> 8).toUInt8, v.toUInt8]

/-- The 32-bit value of four bytes, most significant first. -/
def dwordOfBytes (a b c d : Byte) : UInt32 :=
  a.toUInt32 <<< 24 ||| b.toUInt32 <<< 16 ||| c.toUInt32 <<< 8 ||| d.toUInt32

namespace Show

/-- Fill `s` on the left with `c` up to `width` characters. -/
def padLeft (c : Char) (width : Nat) (s : String) : String :=
  String.ofList (List.replicate (width - s.length) c) ++ s

/-- Hexadecimal digits of `n`, lower case, at least `width` of them. -/
def hex (width n : Nat) : String :=
  padLeft '0' width (String.ofList (Nat.toDigits 16 n))

/-- An address: `0x` and at least `width` hexadecimal digits. -/
def address (width n : Nat) : String := "0x" ++ hex width n

/-- Decimal digits of `n`, at least `width` of them. -/
def decimal (width n : Nat) : String := padLeft '0' width (Nat.repr n)

end Show

end ZMachine
