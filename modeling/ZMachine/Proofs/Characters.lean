/-
  Characters and their codes.

  Codes from 155 to 251 stand for the first 97 extra characters of a story.
  A table may be longer: then the places behind the 97th have codes as well,
  but these are no output codes, and from place 101 on they are no bytes.  So
  a character comes back from its code exactly if it is a plain one or is
  among the first 97.
-/
import ZMachine.Machine.Input
import ZMachine.Proofs.TextRoundTrip

namespace ZMachine

namespace TextTables

variable {t : TextTables} {c : Char} {z i : Nat}

/-- Number of extra characters that have output codes. -/
def extraCodes : Nat := extraLast + 1 - extraFirst

/-- Characters that come back from their codes. -/
def Invertible (t : TextTables) (c : Char) : Prop := PlainChar c ∨ c ∈ t.extra.take extraCodes

instance (t : TextTables) (c : Char) : Decidable (t.Invertible c) :=
  inferInstanceAs (Decidable (_ ∨ _))

/-! ## Codes of characters -/

theorem zsciiOfChar_plain (plain : PlainChar c) :
    t.zsciiOfChar c = some (Alphabet.zscii c).toNat := by
  unfold zsciiOfChar
  by_cases newline : c = '\n'
  · rw [if_pos (.inl newline), newline]
    rfl
  · have visible : ' ' ≤ c ∧ c ≤ '~' := plain.resolve_left newline
    have return_ : c ≠ '\r' := by
      rintro rfl
      exact absurd visible (by decide)
    rw [if_neg (by simp [newline, return_]), if_pos visible, Alphabet.toNat_zscii plain newline]

theorem zsciiOfChar_extra (special : ¬PlainChar c) (ends : c ≠ '\r') :
    t.zsciiOfChar c = (t.extra.idxOf? c).map (extraFirst + ·) := by
  have newline : c ≠ '\n' := fun newline => special (.inl newline)
  have visible : ¬(' ' ≤ c ∧ c ≤ '~') := fun visible => special (.inr visible)
  rw [zsciiOfChar, if_neg (by simp [newline, ends]), if_neg visible]

/-! ## Characters of codes -/

/-- The character of a code of the extra characters. -/
theorem charOfZscii_extra (reach : i < extraCodes) :
    t.charOfZscii (extraFirst + i) = some (t.extra.getD i '?') := by
  have high : i < 97 := reach
  have codes : ¬extraFirst + i = 0 ∧ ¬extraFirst + i = 9 ∧ ¬extraFirst + i = 11 ∧
    ¬extraFirst + i = 13 ∧
      ¬(32 ≤ extraFirst + i ∧ extraFirst + i ≤ 126) := by
    unfold extraFirst
    omega
  have range : extraFirst ≤ extraFirst + i ∧ extraFirst + i ≤ extraLast := by
    unfold extraFirst extraLast
    omega
  simp only [charOfZscii, codes, false_and, if_false, range, and_self, if_true,
    Nat.add_sub_cancel_left]

/-- Codes behind those of the extra characters all stand for a question mark. -/
theorem charOfZscii_beyond (high : extraLast < z) : t.charOfZscii z = some '?' := by
  unfold extraLast at high
  have codes : ¬z = 0 ∧ ¬z = 9 ∧ ¬z = 11 ∧ ¬z = 13 ∧ ¬z ≤ 126 ∧ ¬z ≤ 251 := by omega
  simp [charOfZscii, codes, extraLast]

/-! ## There and back -/

/-- Characters that come back from their codes have codes of one byte. -/
theorem Invertible.code (invertible : t.Invertible c) (ends : c ≠ '\r') :
    ∃ z, t.zsciiOfChar c = some z ∧ z < 256 ∧ t.charOfZscii z = some c := by
  by_cases plain : PlainChar c
  · have back : t.charsOfZscii (Alphabet.zscii c).toNat = [c] := charsOfZscii_zscii plain
    exact ⟨_, zsciiOfChar_plain plain, UInt8.toNat_lt _, Option.toList_eq_singleton_iff.mp back⟩
  · have among : c ∈ t.extra.take extraCodes := invertible.resolve_left plain
    obtain ⟨i, place⟩ := Option.isSome_iff_exists.mp
      (List.isSome_idxOf?.mpr (List.mem_of_mem_take among))
    obtain ⟨inside, same, first⟩ := List.idxOf?_eq_some_iff.mp place
    -- The first place of the character is not behind the one that is known.
    have reach : i < extraCodes := by
      obtain ⟨j, bound, there⟩ := List.mem_take_iff_getElem.mp among
      apply Nat.lt_of_not_le
      intro behind
      exact first j (by omega) there
    refine ⟨extraFirst + i, by rw [zsciiOfChar_extra plain ends, place]; rfl, ?_, ?_⟩
    · have : i < 97 := reach
      unfold extraFirst
      omega
    · rw [charOfZscii_extra reach, List.getD_eq_getElem?_getD,
        List.getElem?_eq_getElem inside, same]
      rfl

/-- The code of a character gives the character back exactly if it is an invertible one. -/
theorem charOfZscii_zsciiOfChar_iff (ends : c ≠ '\r') (code : t.zsciiOfChar c = some z) :
    (z < 256 ∧ t.charOfZscii z = some c) ↔ t.Invertible c := by
  constructor
  · rintro ⟨-, back⟩
    by_cases plain : PlainChar c
    · exact .inl plain
    · rw [zsciiOfChar_extra plain ends] at code
      obtain ⟨i, place, rfl⟩ := Option.map_eq_some_iff.mp code
      obtain ⟨inside, same, -⟩ := List.idxOf?_eq_some_iff.mp place
      -- A character too far down the table has a code that reads as a question mark.
      by_cases reach : i < extraCodes
      · exact .inr (List.mem_take_iff_getElem.mpr ⟨i, by omega, same⟩)
      · have high : extraLast < extraFirst + i := by
          unfold extraCodes at reach
          omega
        rw [charOfZscii_beyond high] at back
        cases back
        exact absurd (.inr (by decide)) plain
  · intro invertible
    obtain ⟨z', code', small, back⟩ := invertible.code ends
    rw [code] at code'
    cases code'
    exact ⟨small, back⟩

/-! ## Text in a table of output, typed lines and key presses -/

/-- A character that is put into a table comes back from its byte. -/
theorem charsOfZscii_tableCode (invertible : t.Invertible c) (ends : c ≠ '\r') :
    t.charsOfZscii (OutputStreams.tableCode t c).toNat = [c] := by
  obtain ⟨z, code, small, back⟩ := invertible.code ends
  have byte : (OutputStreams.tableCode t c).toNat = z := by
    unfold OutputStreams.tableCode
    by_cases newline : c = '\n'
    · subst newline
      exact Option.some.inj code
    · rw [if_neg newline, code]
      exact UInt8.toNat_ofNat_of_lt' small
  rw [byte, charsOfZscii, back]
  rfl

/-- Text that is put into a table comes back from its bytes. -/
theorem flatMap_tableCode {text : List Char} (invertible : ∀ c ∈ text, c ≠ '\r' ∧ t.Invertible c) :
    (text.map (OutputStreams.tableCode t)).flatMap (fun b => t.charsOfZscii b.toNat) = text := by
  induction text with
  | nil => rfl
  | cons c text ih =>
      obtain ⟨ends, back⟩ := invertible c (by simp)
      rw [List.map_cons, List.flatMap_cons, charsOfZscii_tableCode back ends,
        ih fun d mem => invertible d (by simp [mem])]
      rfl

/-- The letter of a code in a typed line. -/
def typedLetter? (z : Nat) : Option Byte := if z ≠ 13 ∧ z ≤ 255 then some z.toUInt8 else none

/-- A typed character other than a line end gives one letter, from which it comes back. -/
theorem charsOfZscii_typedLetter (invertible : t.Invertible c) (inner : c ≠ '\n')
    (ends : c ≠ '\r') :
    ∃ z b, t.zsciiOfChar c = some z ∧ typedLetter? z = some b ∧ t.charsOfZscii b.toNat = [c] := by
  obtain ⟨z, code, small, back⟩ := invertible.code ends
  have visible : z ≠ 13 := by
    rintro rfl
    cases back
    exact inner rfl
  refine ⟨z, z.toUInt8, code, if_pos ⟨visible, by omega⟩, ?_⟩
  rw [UInt8.toNat_ofNat_of_lt' small, charsOfZscii, back]
  rfl

/-- Characters that are typed, line ends apart, come back from their letters. -/
theorem flatMap_typedLetter {cs : List Char}
    (invertible : ∀ c ∈ cs, c ≠ '\n' ∧ c ≠ '\r' ∧ t.Invertible c) :
    ((cs.filterMap t.zsciiOfChar).filterMap typedLetter?).flatMap (fun b => t.charsOfZscii b.toNat)
      = cs := by
  induction cs with
  | nil => rfl
  | cons c cs ih =>
      obtain ⟨inner, ends, back⟩ := invertible c (by simp)
      obtain ⟨z, b, code, letter, same⟩ := charsOfZscii_typedLetter back inner ends
      rw [List.filterMap_cons_some code, List.filterMap_cons_some letter, List.flatMap_cons, same,
        ih fun d mem => invertible d (by simp [mem])]
      rfl

/-- A key press gives a word from which the character comes back, and changes nothing. -/
theorem charOfZscii_finishChar {s : Machine} (invertible : s.text.Invertible c) (ends : c ≠ '\r') :
    ∃ w, Machine.finishChar c s = .ok w s ∧ s.text.charOfZscii w.toNat = some c := by
  obtain ⟨z, code, small, back⟩ := invertible.code ends
  refine ⟨z.toUInt16, ?_, ?_⟩
  · show EStateM.Result.ok ((s.text.zsciiOfChar c).getD 63).toUInt16 s = _
    rw [code]
    rfl
  · rw [UInt16.toNat_ofNat_of_lt' (Nat.lt_trans small (by decide)), back]

/-- A character has a code of one byte that gives it back exactly if it is a plain one or among the
first 97 extra characters.  Such characters come back from a table that output went to, from the
letters of a typed line and from a key press. -/
theorem invertible_iff (t : TextTables) :
    (∀ c z, c ≠ '\r' → t.zsciiOfChar c = some z →
      ((z < 256 ∧ t.charOfZscii z = some c) ↔ t.Invertible c)) ∧
    (∀ text : List Char, (∀ c ∈ text, c ≠ '\r' ∧ t.Invertible c) →
      (text.map (OutputStreams.tableCode t)).flatMap (fun b => t.charsOfZscii b.toNat) = text) ∧
    (∀ line : String,
      (∀ c ∈ lowercaseText (Machine.dropLineEnd line.toList), c ≠ '\n' ∧ c ≠ '\r' ∧
        t.Invertible c) →
      (Machine.typedLetters t line).flatMap (fun b => t.charsOfZscii b.toNat)
        = lowercaseText (Machine.dropLineEnd line.toList)) ∧
    (∀ (s : Machine) (c : Char), s.text = t → c ≠ '\r' → t.Invertible c →
      ∃ w, Machine.finishChar c s = .ok w s ∧ t.charOfZscii w.toNat = some c) := by
  refine ⟨fun c z ends code => charOfZscii_zsciiOfChar_iff ends code, fun text => flatMap_tableCode,
    fun line => flatMap_typedLetter, fun s c tables ends invertible => ?_⟩
  subst tables
  exact charOfZscii_finishChar invertible ends

/-- The image of a story with 102 extra characters, of which those at the places 96, 97 and 101 are
letters. -/
def manyExtrasImage : List Byte :=
  5 :: List.replicate 53 0 ++ [0, 64] ++ List.replicate 8 0 ++ [0, 3, 0, 0, 0, 0, 0, 72, 102]
    ++ List.replicate 192 0 ++ [0x04, 0x01, 0x04, 0x16, 0, 0, 0, 0, 0, 0, 0x04, 0x2f]

/-- This story in memory. -/
def manyExtras : Memory := .ofBytes manyExtrasImage.toArray

/-- The tables of this story. -/
def manyExtrasTables : TextTables where
  version := 5
  abbreviations := 0
  alphabets := .default 5
  extra := List.replicate 96 '\x00' ++ ['Ё', 'Ж', '\x00', '\x00', '\x00', 'Я']

theorem read_manyExtras : ∃ h, Header.read manyExtras = .ok h ∧
    TextTables.read manyExtras h = .ok manyExtrasTables :=
  exists_header_of_read (by decide +kernel)

theorem invertible_iff_manyExtras :
    (251 < 256 ∧ manyExtrasTables.charOfZscii 251 = some 'Ё') ∧
      ("aЁ\n".toList.map (OutputStreams.tableCode manyExtrasTables)).flatMap
        (fun b => manyExtrasTables.charsOfZscii b.toNat) = "aЁ\n".toList := by
  obtain ⟨law, tables, -⟩ := invertible_iff manyExtrasTables
  have last : manyExtrasTables.zsciiOfChar 'Ё' = some 251 := by decide
  have among : manyExtrasTables.Invertible 'Ё' := by decide
  refine ⟨(law 'Ё' 251 (by decide) last).mpr among, tables _ ?_⟩
  intro c mem
  obtain rfl | rfl | rfl : c = 'a' ∨ c = 'Ё' ∨ c = '\n' := by simpa using mem
  · exact ⟨by decide, .inl (by decide)⟩
  · exact ⟨by decide, among⟩
  · exact ⟨by decide, .inl (by decide)⟩

/-- There is a story in which the character at place 97 has a code that stands for a question mark,
and the one at place 101 a code that is no byte: a zero is put into a table for it. -/
theorem exists_uninvertible : ∃ m h t, Header.read m = .ok h ∧ TextTables.read m h = .ok t ∧
    t.zsciiOfChar 'Ж' = some 252 ∧ t.charOfZscii 252 = some '?' ∧
    t.zsciiOfChar 'Я' = some 256 ∧ OutputStreams.tableCode t 'Я' = 0 := by
  obtain ⟨h, header, tables⟩ := read_manyExtras
  exact ⟨_, h, manyExtrasTables, header, tables, by decide, by decide, by decide, by decide⟩

end TextTables

end ZMachine
