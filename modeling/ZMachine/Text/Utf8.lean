/-
  UTF-8, read strictly and read leniently.

  A sequence that is not the encoding of a character is cut off before the
  first byte that cannot continue it.  The lenient reading puts the
  replacement character in its place, the strict one fails.
-/
import ZMachine.Word

namespace ZMachine
namespace Utf8

/-- Stands for bytes that encode no character. -/
def replacement : Char := '\ufffd'

/-- Whether a byte continues a sequence. -/
def isContinuation (b : Byte) : Bool := b &&& 0xc0 == 0x80

/-- Whether `b` may come second after `lead` in a sequence of three or four bytes: no overlong form,
no surrogate, nothing beyond the last code point. -/
def isSecond (lead b : Byte) : Bool :=
  if lead = 0xe0 then 0xa0 ≤ b && b ≤ 0xbf
  else if lead = 0xed then 0x80 ≤ b && b ≤ 0x9f
  else if lead = 0xf0 then 0x90 ≤ b && b ≤ 0xbf
  else if lead = 0xf4 then 0x80 ≤ b && b ≤ 0x8f
  else isContinuation b

/-- Low six bits of a continuation byte. -/
def payload (b : Byte) : Nat := b.toNat % 64

/-- Read one sequence that begins with `lead`: its character, if it is one, and how many of the
bytes after `lead` belong to it. -/
def sequence (lead : Byte) (rest : List Byte) : Option Char × Nat :=
  if lead < 0x80 then (some (Char.ofNat lead.toNat), 0)
  else if 0xc2 ≤ lead ∧ lead ≤ 0xdf then
    match rest with
    | b :: _ =>
        if isContinuation b then
          (some (Char.ofNat (lead.toNat % 32 * 64 + payload b)), 1)
        else (none, 0)
    | [] => (none, 0)
  else if 0xe0 ≤ lead ∧ lead ≤ 0xef then
    match rest with
    | b :: tail =>
        if isSecond lead b then
          match tail with
          | c :: _ =>
              if isContinuation c then
                (some (Char.ofNat ((lead.toNat % 16 * 64 + payload b) * 64 + payload c)), 2)
              else (none, 1)
          | [] => (none, 1)
        else (none, 0)
    | [] => (none, 0)
  else if 0xf0 ≤ lead ∧ lead ≤ 0xf4 then
    match rest with
    | b :: tail =>
        if isSecond lead b then
          match tail with
          | c :: tail' =>
              if isContinuation c then
                match tail' with
                | d :: _ =>
                    if isContinuation d then
                      (some (Char.ofNat
                        (((lead.toNat % 8 * 64 + payload b) * 64 + payload c) * 64 + payload d)), 3)
                    else (none, 2)
                | [] => (none, 2)
              else (none, 1)
          | [] => (none, 1)
        else (none, 0)
    | [] => (none, 0)
  else (none, 0)

/-- The sequences of a run of bytes, in order; `none` for one that encodes no character. -/
def sequences : List Byte → List (Option Char)
  | [] => []
  | lead :: rest =>
      let (c, used) := sequence lead rest
      c :: sequences (rest.drop used)
termination_by bs => bs.length
decreasing_by simp only [List.length_drop, List.length_cons]; omega

/-- Lenient reading. -/
def decodeLossy (bs : List Byte) : String :=
  String.ofList ((sequences bs).map fun c => c.getD replacement)

/-- Strict reading. -/
def decode? (bs : List Byte) : Option String :=
  (sequences bs).mapM id |>.map String.ofList

end Utf8
end ZMachine
