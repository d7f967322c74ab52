/-
  Text that is encoded and read back.

  The encoder spells a character with a letter of one of three alphabets,
  behind a shift unless it is the first one, or with the four Z-characters of
  an escape; the reader follows the shifts.  Character by character the reader
  is back in the first alphabet with the character read, whatever comes next,
  so a text is read back whole, and the padding behind it adds nothing.  Three
  Z-characters make a word and are found in it again.
-/
import ZMachine.Proofs.Finished
import ZMachine.Text.Decode

namespace ZMachine

/-! ## Words of Z-characters -/

namespace ZChars

/-- The word of three Z-characters as a number. -/
theorem toNat_wordOf {a b c : Byte} (ha : a.toNat < 32) (hb : b.toNat < 32) (hc : c.toNat < 32) :
    (wordOf a b c).toNat = a.toNat * 1024 + b.toNat * 32 + c.toNat := by
  have high : (a.toUInt16 <<< 10).toNat = a.toNat * 1024 := by
    rw [UInt16.toNat_shiftLeft, UInt8.toNat_toUInt16, Nat.shiftLeft_eq]
    exact Nat.mod_eq_of_lt (by change a.toNat * 1024 < 65536; omega)
  have middle : (b.toUInt16 <<< 5).toNat = b.toNat * 32 := by
    rw [UInt16.toNat_shiftLeft, UInt8.toNat_toUInt16, Nat.shiftLeft_eq]
    exact Nat.mod_eq_of_lt (by change b.toNat * 32 < 65536; omega)
  have low : c.toNat < 2 ^ 5 := hc
  have lower : b.toNat * 32 + c.toNat < 2 ^ 10 := by
    change _ < 1024
    omega
  -- No bits overlap, so or is a sum.
  calc (wordOf a b c).toNat
      = a.toNat * 1024 ||| (b.toNat * 32 ||| c.toNat) := by
        rw [wordOf, UInt16.toNat_or, UInt16.toNat_or, high, middle, UInt8.toNat_toUInt16,
          Nat.or_assoc]
    _ = a.toNat * 1024 ||| (b.toNat * 32 + c.toNat) := by
        rw [Nat.mul_comm b.toNat 32]
        exact congrArg _ (Nat.two_pow_add_eq_or_of_lt low b.toNat).symm
    _ = a.toNat * 1024 + (b.toNat * 32 + c.toNat) := by
        rw [Nat.mul_comm a.toNat 1024]
        exact (Nat.two_pow_add_eq_or_of_lt lower a.toNat).symm
    _ = a.toNat * 1024 + b.toNat * 32 + c.toNat := by omega

/-- The mark of the last word is a bit above all Z-characters. -/
theorem toNat_mark {w : Word} (small : w.toNat < 32768) :
    (w ||| 0x8000).toNat = 32768 + w.toNat := by
  rw [UInt16.toNat_or, Nat.or_comm]
  exact (Nat.two_pow_add_eq_or_of_lt (i := 15) small 1).symm

theorem and_mark (w : Word) : w &&& 0x8000 = 0 ↔ w.toNat < 32768 := by
  have top : w.toNat.testBit 15 = decide (w.toNat / 32768 % 2 = 1) :=
    Nat.testBit_eq_decide_div_mod_eq
  have below := w.toNat_lt
  rw [← UInt16.toNat_inj, UInt16.toNat_and]
  refine (and_bit_eq_zero w.toNat 15).trans ?_
  rw [top, decide_eq_false_iff_not]
  omega

/-- The Z-characters of a word as numbers; the mark does not matter. -/
theorem ofWord_eq {w : Word} {a b c : Byte} (ha : a.toNat = w.toNat / 1024 % 32)
    (hb : b.toNat = w.toNat / 32 % 32) (hc : c.toNat = w.toNat % 32) : ofWord w = [a, b, c] := by
  have five (x : Word) (d : Byte) (hd : d.toNat = x.toNat % 32) : x.toUInt8 &&& 0x1f = d := by
    rw [← UInt8.toNat_inj, UInt8.toNat_and, UInt16.toNat_toUInt8, hd]
    change x.toNat % 256 &&& 2 ^ 5 - 1 = _
    rw [Nat.and_two_pow_sub_one_eq_mod]
    omega
  rw [ofWord, five (w >>> 10) a, five (w >>> 5) b, five w c hc]
  · rw [hb, UInt16.toNat_shiftRight, Nat.shiftRight_eq_div_pow]
    rfl
  · rw [ha, UInt16.toNat_shiftRight, Nat.shiftRight_eq_div_pow]
    rfl

theorem ofWord_wordOf {a b c : Byte} (ha : a.toNat < 32) (hb : b.toNat < 32) (hc : c.toNat < 32) :
    ofWord (wordOf a b c) = [a, b, c] ∧ ofWord (wordOf a b c ||| 0x8000) = [a, b, c] := by
  have word := toNat_wordOf ha hb hc
  have marked := toNat_mark (w := wordOf a b c) (by omega)
  constructor
  · apply ofWord_eq <;> omega
  · apply ofWord_eq <;> omega

/-- Three Z-characters have room below the mark. -/
theorem wordOf_lt {a b c : Byte} (ha : a.toNat < 32) (hb : b.toNat < 32) (hc : c.toNat < 32) :
    (wordOf a b c).toNat < 32768 := by
  rw [toNat_wordOf ha hb hc]
  omega

/-- Z-characters that fill their words are found in them again, and the last word alone is
marked. -/
theorem unpack_pack : ∀ {zs : List Byte}, (∀ z ∈ zs, z.toNat < 32) → zs.length % 3 = 0 → zs ≠ [] →
    unpack (pack zs) = zs ∧ Terminated (pack zs)
  | [], _, _, nonempty => absurd rfl nonempty
  -- One or two Z-characters do not fill a word.
  | [_], _, whole, _ => by cases whole
  | [_, _], _, whole, _ => by cases whole
  | [a, b, c], small, _, _ => by
      obtain ⟨ha, hb, hc⟩ : a.toNat < 32 ∧ b.toNat < 32 ∧ c.toNat < 32 := by simpa using small
      have marked := toNat_mark (wordOf_lt ha hb hc)
      refine ⟨by simp [pack, unpack, ofWord_wordOf ha hb hc], [], _, rfl, ?_, by simp⟩
      rw [ne_eq, and_mark]
      omega
  | a :: b :: c :: d :: rest, small, whole, _ => by
      have inside (z : Byte) (mem : z ∈ d :: rest) : z.toNat < 32 :=
        small z (.tail _ (.tail _ (.tail _ mem)))
      have ha : a.toNat < 32 := small a (by simp)
      have hb : b.toNat < 32 := small b (by simp)
      have hc : c.toNat < 32 := small c (by simp)
      have length : (d :: rest).length % 3 = 0 := by
        simp only [List.length_cons] at whole ⊢
        omega
      obtain ⟨same, init, last, words, ends, goesOn⟩ := unpack_pack inside length (by simp)
      have split : pack (a :: b :: c :: d :: rest) = wordOf a b c :: pack (d :: rest) := rfl
      rw [split]
      refine ⟨?_, wordOf a b c :: init, last, by rw [words]; rfl, ends, ?_⟩
      · rw [unpack, List.flatMap_cons, (ofWord_wordOf ha hb hc).1]
        exact congrArg ([a, b, c] ++ ·) same
      · intro w mem
        rcases List.mem_cons.mp mem with rfl | mem
        · exact (and_mark _).mpr (wordOf_lt ha hb hc)
        · exact goesOn w mem

/-! ## Filling up -/

/-- Filling up adds padding behind. -/
theorem fill_eq (zs : List Byte) : ∃ n, fill zs = zs ++ List.replicate n padding ∧
    (fill zs).length % 3 = 0 ∧ fill zs ≠ [] := by
  unfold fill
  by_cases empty : zs.isEmpty = true
  · rw [if_pos empty, List.isEmpty_iff.mp empty]
    exact ⟨3, rfl, rfl, by simp⟩
  · rw [if_neg empty]
    refine ⟨_, rfl, ?_, ?_⟩
    · rw [List.length_append, List.length_replicate]
      omega
    · intro nil
      exact empty (by simp [List.append_eq_nil_iff.mp nil])

end ZChars

/-! ## Letters -/

/-- Characters of story text: new lines and the printable ones of ASCII. -/
def PlainChar (c : Char) : Prop := c = '\n' ∨ ' ' ≤ c ∧ c ≤ '~'

instance (c : Char) : Decidable (PlainChar c) := inferInstanceAs (Decidable (_ ∨ _))

theorem PlainChar.range {c : Char} (plain : PlainChar c) (visible : c ≠ '\n') :
    32 ≤ c.toNat ∧ c.toNat ≤ 126 := by
  rcases plain with newline | ⟨low, high⟩
  · exact absurd newline visible
  · exact ⟨low, high⟩

namespace Alphabet

/-- The letters of the default alphabets. -/
def letters (version : Nat) : Nat → List Char
  | 0 => lower
  | 1 => upper
  | _ => symbols version

theorem length_letters (version k : Nat) : (letters version k).length = 26 := by
  match k with
  | 0 | 1 => rfl
  | k + 2 =>
      show (symbols version).length = 26
      unfold symbols
      split <;> rfl

/-- A letter is found where it stands. -/
theorem letter_of_idxOf? {version k i : Nat} {c : Char}
    (found : (letters version k).idxOf? c = some i) :
    (i + 6).toUInt8.toNat = i + 6 ∧ i < 26 ∧
      (Alphabets.default version).letter k (i + 6).toUInt8 = zscii c := by
  obtain ⟨inside, same, -⟩ := List.idxOf?_eq_some_iff.mp found
  have small : i < 26 := length_letters version k ▸ inside
  have number : (i + 6).toUInt8.toNat = i + 6 := by
    rw [UInt8.toNat_ofNat']
    omega
  have stands : (Alphabets.default version).letter k (i + 6).toUInt8
      = ((letters version k).map zscii).getD ((i + 6).toUInt8.toNat - 6) 0 := by
    match k with
    | 0 | 1 | k + 2 => rfl
  refine ⟨number, small, ?_⟩
  rw [stands, number, Nat.add_sub_cancel, List.getD_eq_getElem?_getD, List.getElem?_map,
    List.getElem?_eq_getElem inside, same]
  rfl

theorem symbols_first (version : Nat) (inside : 0 < (symbols version).length) :
    (symbols version)[0] = ' ' := by
  unfold symbols
  split <;> rfl

theorem newline_listed {version : Nat} (later : version ≠ 1) :
    (symbols version).idxOf? '\n' ≠ none := by
  rw [symbols, if_neg later]
  decide

/-- The code of a printable character is its own. -/
theorem toNat_zscii {c : Char} (plain : PlainChar c) (visible : c ≠ '\n') :
    (zscii c).toNat = c.toNat := by
  have := plain.range visible
  rw [zscii, if_neg visible, UInt8.toNat_ofNat']
  omega

end Alphabet

namespace TextTables

variable {t : TextTables} {expand : Nat → Except ImageError (List Char)} {c : Char} {z : Byte}
  {zs : List Byte} {k : Nat}

/-- The code of a plain character stands for it. -/
theorem charsOfZscii_zscii (plain : PlainChar c) :
    t.charsOfZscii (Alphabet.zscii c).toNat = [c] := by
  by_cases newline : c = '\n'
  · subst newline
    simp [Alphabet.zscii, zsciiNewline, charsOfZscii, charOfZscii]
  · obtain ⟨low, high⟩ := plain.range newline
    have codes : ¬c.toNat = 0 ∧ ¬c.toNat = 9 ∧ ¬c.toNat = 11 ∧ ¬c.toNat = 13 := by omega
    simp [Alphabet.toNat_zscii plain newline, charsOfZscii, charOfZscii, codes, low, high]

/-! ## One character -/

/-- A shift puts the next letter into another alphabet. -/
theorem decodeChars_shift (known : 1 ≤ t.version)
    (shift : z = (Alphabet.shifts t.version).1 ∧ k = 1 ∨
      z = (Alphabet.shifts t.version).2 ∧ k = 2) :
    t.decodeChars expand 0 none (z :: zs) = t.decodeChars expand 0 (some k) zs := by
  unfold Alphabet.shifts at shift
  conv => lhs; unfold decodeChars
  -- Early versions shift by 2 and 3, later ones by 4 and 5, which are locks in the early ones.
  by_cases early : t.version ≤ 2
  · rw [if_pos early] at shift
    have versions : t.version = 1 ∨ t.version = 2 := by omega
    rcases shift with ⟨rfl, rfl⟩ | ⟨rfl, rfl⟩ <;> rcases versions with version | version <;>
      simp [isAbbreviation, version]
  · rw [if_neg early] at shift
    have versions : ¬t.version = 1 ∧ ¬t.version = 2 := by omega
    rcases shift with ⟨rfl, rfl⟩ | ⟨rfl, rfl⟩ <;> simp [isAbbreviation, versions, early]

theorem not_isAbbreviation (version : Nat) (letter : 6 ≤ z.toNat) :
    isAbbreviation version z = false := by
  have beyond : ¬z ≤ 3 := by
    rw [UInt8.le_iff_toNat_le]
    exact Nat.not_le.mpr (Nat.lt_of_lt_of_le (by decide) letter)
  have other : ¬z = 1 := fun one => beyond (by rw [one]; decide)
  simp [isAbbreviation, beyond, other]

/-- A letter is one of the alphabet in force. -/
theorem decodeChars_letter {shift : Option Nat} (letter : 6 ≤ z.toNat)
    (unescaped : ¬(z = 6 ∧ shift.getD 0 = 2)) :
    t.decodeChars expand 0 shift (z :: zs) =
      (t.charsOfZscii (t.alphabets.letter (shift.getD 0) z).toNat ++ ·) <$>
        t.decodeChars expand 0 none zs := by
  have beyond (b : Byte) (small : b.toNat ≤ 5) : ¬z ≤ b := by
    rw [UInt8.le_iff_toNat_le]
    omega
  have zero : ¬z = 0 := fun eq => beyond 0 (by decide) (by rw [eq]; decide)
  have one : ¬z = 1 := fun eq => beyond 1 (by decide) (by rw [eq]; decide)
  conv => lhs; unfold decodeChars
  simp only [zero, one, beyond 3 (by decide), beyond 5 (by decide), unescaped,
    not_isAbbreviation _ letter, false_and, and_false, if_false, Bool.false_eq_true]
  rfl

/-- An escape is followed by the two halves of a code. -/
theorem decodeChars_escape (high low : Byte) :
    t.decodeChars expand 0 (some 2) (6 :: high :: low :: zs) =
      (t.charsOfZscii (high.toNat * 32 + low.toNat) ++ ·) <$> t.decodeChars expand 0 none zs := by
  conv => lhs; unfold decodeChars
  simp [not_isAbbreviation t.version (show 6 ≤ (6 : Byte).toNat from Nat.le_refl 6)]

theorem decodeChars_space :
    t.decodeChars expand 0 none (0 :: zs) = (' ' :: ·) <$> t.decodeChars expand 0 none zs := by
  conv => lhs; unfold decodeChars
  rfl

theorem decodeChars_newline (first : t.version = 1) :
    t.decodeChars expand 0 none (1 :: zs) = ('\n' :: ·) <$> t.decodeChars expand 0 none zs := by
  conv => lhs; unfold decodeChars
  simp [first]

/-- A letter that is in the alphabet in force is read back.  The first place of the third alphabet
is the escape. -/
theorem decodeChars_found (default : t.alphabets = .default t.version) (plain : PlainChar c)
    (shift : Option Nat) {i : Nat}
    (found : (Alphabet.letters t.version (shift.getD 0)).idxOf? c = some i)
    (unescaped : ¬(i = 0 ∧ shift.getD 0 = 2)) :
    t.decodeChars expand 0 shift ((i + 6).toUInt8 :: zs)
      = (c :: ·) <$> t.decodeChars expand 0 none zs := by
  obtain ⟨number, -, letter⟩ := Alphabet.letter_of_idxOf? found
  have first : (i + 6).toUInt8 = 6 → i = 0 := by
    intro six
    have := number.symm.trans (congrArg UInt8.toNat six)
    simpa using this
  rw [decodeChars_letter (by omega) fun escape => unescaped ⟨first escape.1, escape.2⟩,
    default, letter, charsOfZscii_zscii plain]
  rfl

/-- A character that is encoded is read back, and then the reader is in the first alphabet again. -/
theorem decodeChars_encodeChar (known : 1 ≤ t.version) (default : t.alphabets = .default t.version)
    (plain : PlainChar c) (zs : List Byte) :
    t.decodeChars expand 0 none (encodeChar t.version c ++ zs) =
      (c :: ·) <$> t.decodeChars expand 0 none zs := by
  -- The cases are those of the encoder, in its order.
  unfold encodeChar
  by_cases space : c = ' '
  · rw [space]
    exact decodeChars_space
  by_cases newline : c = '\n' ∧ t.version = 1
  · rw [newline.1]
    simp only [newline, and_self, if_true]
    exact decodeChars_newline newline.2
  simp only [space, newline, if_false]
  cases lower : Alphabet.lower.idxOf? c with
  | some i => exact decodeChars_found default plain none lower (by simp)
  | none =>
  cases upper : Alphabet.upper.idxOf? c with
  | some i =>
      refine (decodeChars_shift known (.inl ⟨rfl, rfl⟩)).trans ?_
      exact decodeChars_found default plain (some 1) upper (by simp)
  | none =>
  have shifted : ∀ zs, t.decodeChars expand 0 none ((Alphabet.shifts t.version).2 :: zs)
      = t.decodeChars expand 0 (some 2) zs := fun zs => decodeChars_shift known (.inr ⟨rfl, rfl⟩)
  cases symbol : (Alphabet.symbols t.version).idxOf? c with
  | some i =>
      refine (shifted _).trans (decodeChars_found default plain (some 2) symbol ?_)
      -- The first place is held by a space, which is not spelled so.
      rintro ⟨rfl, -⟩
      obtain ⟨inside, same, -⟩ := List.idxOf?_eq_some_iff.mp symbol
      exact space (same.symm.trans (Alphabet.symbols_first t.version inside))
  | none =>
      -- Only a new line has a code of another number, and that is spelled otherwise.
      have visible : c ≠ '\n' := by
        rintro rfl
        exact Alphabet.newline_listed (fun first => newline ⟨rfl, first⟩) symbol
      obtain ⟨low, high⟩ := plain.range visible
      have code : (c.toNat % 0x400 / 32).toUInt8.toNat * 32 + (c.toNat % 0x400 % 32).toUInt8.toNat
          = (Alphabet.zscii c).toNat := by
        rw [Alphabet.toNat_zscii plain visible, UInt8.toNat_ofNat', UInt8.toNat_ofNat']
        omega
      refine (shifted _).trans ((decodeChars_escape _ _).trans ?_)
      rw [code, charsOfZscii_zscii plain]
      rfl

/-- A text that is encoded is read back, whatever follows. -/
theorem decodeChars_flatMap (known : 1 ≤ t.version) (default : t.alphabets = .default t.version)
    {text : List Char} (plain : ∀ c ∈ text, PlainChar c) (zs : List Byte) :
    t.decodeChars expand 0 none (text.flatMap (encodeChar t.version) ++ zs) =
      (text ++ ·) <$> t.decodeChars expand 0 none zs := by
  induction text with
  | nil => simp
  | cons c text ih =>
      rw [List.flatMap_cons, List.append_assoc,
        decodeChars_encodeChar known default (plain c (by simp)), ih fun d mem =>
          plain d (by simp [mem])]
      simp only [Functor.map_map, List.cons_append]

/-- Padding is a shift at the end of the text. -/
theorem decodeChars_padding (n lock : Nat) (shift : Option Nat) :
    t.decodeChars expand lock shift (List.replicate n padding) = .ok [] := by
  induction n generalizing lock shift with
  | zero => rfl
  | succ n ih =>
      rw [List.replicate_succ]
      unfold decodeChars
      by_cases early : t.version ≤ 2
      · -- Here padding locks an alphabet, which no letter follows.
        simpa [padding, isAbbreviation, early] using ih _ none
      · simpa [padding, isAbbreviation, early] using ih lock (some 2)

end TextTables

/-! ## Whole texts -/

/-- Every Z-character has five bits. -/
theorem toNat_encodeChar_lt (version : Nat) (c : Char) :
    ∀ z ∈ encodeChar version c, z.toNat < 32 := by
  have letter {k i : Nat} (found : (Alphabet.letters version k).idxOf? c = some i) :
      (i + 6).toUInt8.toNat < 32 := by
    obtain ⟨number, small, -⟩ := Alphabet.letter_of_idxOf? found
    omega
  have shifts : (Alphabet.shifts version).1.toNat < 32 ∧
      (Alphabet.shifts version).2.toNat < 32 := by
    unfold Alphabet.shifts
    split <;> decide
  unfold encodeChar
  by_cases space : c = ' '
  · simp [space]
  by_cases newline : c = '\n' ∧ version = 1
  · simp [newline]
  simp only [space, newline, if_false]
  cases lower : Alphabet.lower.idxOf? c with
  | some i => simpa using letter (k := 0) lower
  | none =>
  cases upper : Alphabet.upper.idxOf? c with
  | some i => simpa [shifts.1] using letter (k := 1) upper
  | none =>
  cases symbol : (Alphabet.symbols version).idxOf? c with
  | some i => simpa [shifts.2] using letter (k := 2) symbol
  -- Any other character is escaped, as two halves of ten bits.
  | none =>
      simp [shifts.2]
      omega

/-- The words of a text hold its Z-characters and padding, and end with the last one. -/
theorem unpack_encodeText (version : Nat) (text : List Char) :
    Terminated (encodeText version text) ∧ ∃ n, ZChars.unpack (encodeText version text)
      = text.flatMap (encodeChar version) ++ List.replicate n padding := by
  obtain ⟨n, filled, whole, nonempty⟩ := ZChars.fill_eq (text.flatMap (encodeChar version))
  have small : ∀ z ∈ ZChars.fill (text.flatMap (encodeChar version)), z.toNat < 32 := by
    intro z mem
    rw [filled, List.mem_append, List.mem_flatMap] at mem
    rcases mem with ⟨c, -, mem⟩ | mem
    · exact toNat_encodeChar_lt version c z mem
    · rw [List.eq_of_mem_replicate mem]
      decide
  obtain ⟨same, terminated⟩ := ZChars.unpack_pack small whole nonempty
  exact ⟨terminated, n, same.trans filled⟩

namespace TextTables

/-- A story without alphabets of its own has those of its version. -/
theorem alphabets_of_read {m : Memory} {h : Header} {t : TextTables} (reads : read m h = .ok t)
    (standard : h.alphabetTable = 0) :
    t.version = h.version ∧ t.alphabets = .default h.version := by
  unfold read at reads
  rw [if_neg fun custom => custom.2 standard] at reads
  obtain ⟨alphabets, same, reads⟩ := Except.bind_eq_ok.mp reads
  cases same
  dsimp only at reads
  split at reads
  · obtain ⟨extra, -, reads⟩ := Except.bind_eq_ok.mp reads
    cases reads
    exact ⟨rfl, rfl⟩
  · cases reads
    exact ⟨rfl, rfl⟩

/-- Tables that are read from an image behind its header. -/
theorem exists_header_of_read {m : Memory} {t : TextTables}
    (found : (Header.read m >>= read m).toOption = some t) :
    ∃ h, Header.read m = .ok h ∧ read m h = .ok t := by
  apply Except.bind_eq_ok.mp
  cases both : Header.read m >>= read m with
  | ok t' =>
      rw [both] at found
      exact congrArg Except.ok (Option.some.inj found)
  | error e =>
      rw [both] at found
      cases found

/-- Words of encoded text are read back, whatever the image holds. -/
theorem decodeWords_encodeText {t : TextTables} (known : 1 ≤ t.version)
    (default : t.alphabets = .default t.version) {text : String}
    (plain : ∀ c ∈ text.toList, PlainChar c)
    (m : Memory) : t.decodeWords m (encodeText t.version text.toList) = .ok text := by
  obtain ⟨-, n, words⟩ := unpack_encodeText t.version text.toList
  have chars : t.decodeChars (t.abbreviation m) 0 none
      (ZChars.unpack (encodeText t.version text.toList)) = .ok text.toList := by
    rw [words, decodeChars_flatMap known default plain, decodeChars_padding]
    simp [Functor.map, Except.map]
  simp only [decodeWords, chars, Bind.bind, Except.bind, pure, Except.pure, String.ofList_toList]

end TextTables

/-- The words of a text stand where the assembler put them. -/
theorem Assembler.holds_string {version : Byte} {before after : List Emission} {text : String}
    {image : Array Byte}
    (finished : ((start version).assemble (before ++ .string text :: after)).finish = .ok image)
    (unpatched : ∀ e ∈ after, ∀ x, ((start version).assemble before).position ≤ x →
      x < (((start version).assemble before).string text).2.position → ¬e.Touches x) :
    (Memory.ofBytes image).Holds ((start version).assemble before).position
      (wordBytes (encodeText version.toNat text.toList)) := by
  obtain ⟨same, body, references⟩ := assemble_start version before
  rw [assemble_append, assemble_cons] at finished
  obtain ⟨-, size, bytes⟩ := @finish_stands
    (fun x => ((start version).assemble before).position ≤ x ∧
      x < (((start version).assemble before).string text).2.position)
    (((start version).assemble before).string text).2 after image finished (fun x kept => kept.2)
    (fun e mem x kept => unpatched e mem x kept.1 kept.2)
    (fun r mem x kept => .inr (Nat.le_trans (references r mem) kept.1)) (by
      rintro x ⟨low, -⟩ ⟨-, high⟩
      simp only [headerSize, HeaderField.checksum] at body high
      omega)
  rw [← same]
  exact holds_emit size fun x low high => bytes x ⟨low, high⟩

open Assembler in
/-- Text of new lines and printable characters is read back.  The words that it is encoded in for
the version of a story are read by the tables of the story, if that has no alphabets of its own; and
where the assembler put a text, the finished image has it, with the length of its words, unless
something was written over it or over the version in the header. -/
theorem decode_encodeText {text : String} (plain : ∀ c ∈ text.toList, PlainChar c) :
    (∀ (m m' : Memory) (h : Header) (t : TextTables), Header.read m = .ok h →
      TextTables.read m h = .ok t → h.alphabetTable = 0 →
      t.decodeWords m' (encodeText h.version text.toList) = .ok text) ∧
    (∀ (version : Byte) (before after : List Emission) (image : Array Byte) (h : Header)
      (t : TextTables),
      ((start version).assemble (before ++ .string text :: after)).finish = .ok image →
      Header.read (.ofBytes image) = .ok h → TextTables.read (.ofBytes image) h = .ok t →
      h.alphabetTable = 0 →
      (∀ e ∈ before ++ after, ¬e.Touches HeaderField.version) →
      (∀ e ∈ after, ∀ x, ((start version).assemble before).position ≤ x →
        x < (((start version).assemble before).string text).2.position → ¬e.Touches x) →
      t.decode (.ofBytes image) (((start version).assemble before).string text).1
        = .ok (text, 2 * (encodeText version.toNat text.toList).length)) := by
  constructor
  · intro m m' h t header tables standard
    obtain ⟨known, -⟩ := Header.fields_of_read header
    obtain ⟨version, alphabets⟩ := TextTables.alphabets_of_read tables standard
    rw [← version] at known alphabets ⊢
    exact TextTables.decodeWords_encodeText known alphabets plain m'
  · intro version before after image h t finished header tables standard unchanged unpatched
    -- The version that is read is the one that the text was encoded for.
    have same : h.version = version.toNat := by
      obtain ⟨-, -, byte, -⟩ := Header.fields_of_read header
      rw [byte, finish_version finished fun e mem => ?_]
      rcases List.mem_append.mp mem with mem | mem
      · exact unchanged e (by simp [mem])
      · rcases List.mem_cons.mp mem with rfl | mem
        · exact id
        · exact unchanged e (by simp [mem])
    obtain ⟨known, -⟩ := Header.fields_of_read header
    obtain ⟨version', alphabets⟩ := TextTables.alphabets_of_read tables standard
    rw [← version'] at known alphabets same
    obtain ⟨terminated, -⟩ := unpack_encodeText version.toNat text.toList
    have holds := holds_string finished unpatched
    -- The words are marked at the last one, so reading them stops behind the text.
    have words := Memory.textWords_of_holds terminated holds
    have decoded := TextTables.decodeWords_encodeText known alphabets plain (.ofBytes image)
    rw [same] at decoded
    simp only [TextTables.decode, string, words, decoded, Bind.bind, Except.bind, pure, Except.pure]
    rw [Nat.mul_comm]

/-- A program with a text in it that takes shifts, an escape and padding. -/
def greeting : List Emission := [.bytes [7], .string "Hi ~\n", .op .quit []]

/-- The image of this program. -/
@[irreducible] def greetingImage : Array Byte :=
  ((Assembler.start 5).assemble greeting).finish.toOption.getD #[]

theorem decode_encodeText_greeting : ∃ h t,
    ((Assembler.start 5).assemble greeting).finish = .ok greetingImage ∧
      Header.read (.ofBytes greetingImage) = .ok h ∧
      TextTables.read (.ofBytes greetingImage) h = .ok t ∧
      t.decodeWords (.ofBytes greetingImage) (encodeText h.version "Hi ~\n".toList) = .ok "Hi ~\n" ∧
      t.decode (.ofBytes greetingImage) 65 = .ok ("Hi ~\n", 8) := by
  have finished : ((Assembler.start 5).assemble greeting).finish = .ok greetingImage := by
    unfold greetingImage
    exact Except.eq_ok_getD _ (by decide +kernel)
  obtain ⟨h, t, header, standard, tables⟩ : ∃ h t, Header.read (.ofBytes greetingImage) = .ok h ∧
      h.alphabetTable = 0 ∧ TextTables.read (.ofBytes greetingImage) h = .ok t :=
    ⟨_, _, Except.eq_ok_getD default (by decide +kernel), by decide +kernel,
      Except.eq_ok_getD default (by decide +kernel)⟩
  have all : "Hi ~\n".toList.all (fun c => decide (PlainChar c)) = true := by decide +kernel
  have plain : ∀ c ∈ "Hi ~\n".toList, PlainChar c := fun c mem =>
    of_decide_eq_true (List.all_eq_true.mp all c mem)
  obtain ⟨words, image⟩ := decode_encodeText plain
  have decoded :=
    image 5 [.bytes [7]] [.op .quit []] greetingImage h t finished header tables standard
    (by simp [Emission.Touches]) (by simp [Emission.Touches])
  have address : (((Assembler.start 5).assemble [.bytes [7]]).string "Hi ~\n").1 = 65 := by
    decide +kernel
  have length : 2 * (encodeText (5 : Byte).toNat "Hi ~\n".toList).length = 8 := by decide +kernel
  rw [address, length] at decoded
  exact ⟨h, t, finished, header, tables, words _ _ h t header tables standard, decoded⟩

end ZMachine
