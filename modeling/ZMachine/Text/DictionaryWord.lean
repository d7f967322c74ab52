/-
  Words as they stand in a dictionary: lower case, cut off and padded to a
  fixed number of Z-characters.
-/
import ZMachine.Text.Tables

namespace ZMachine

/-- Lower case of an ASCII letter; other codes are unchanged. -/
def lowerAscii (b : Byte) : Byte := if 65 ≤ b ∧ b ≤ 90 then b + 32 else b

namespace TextTables

/-- Z-characters of one typed ZSCII code.  The first place of the third alphabet is no letter. -/
def encodeByte (t : TextTables) (b : Byte) : List Byte :=
  let (shift1, shift2) := Alphabet.shifts t.version
  let b := lowerAscii b
  if b = 32 then [0]
  else
    match t.alphabets.first.idxOf? b with
    | some i => [(i + 6).toUInt8]
    | none =>
        match t.alphabets.second.idxOf? b with
        | some i => [shift1, (i + 6).toUInt8]
        | none =>
            match t.alphabets.third.tail.idxOf? b with
            | some i => [shift2, (i + 7).toUInt8]
            | none => [shift2, 6, b >>> 5, b &&& 0x1f]

/-- The dictionary form of a typed word. -/
def encodeWord (t : TextTables) (typed : List Byte) : List Word :=
  let resolution := t.dictionaryWords * 3
  let zs := (typed.flatMap t.encodeByte).take resolution
  ZChars.pack (zs ++ List.replicate (resolution - zs.length) padding)

end TextTables

end ZMachine
