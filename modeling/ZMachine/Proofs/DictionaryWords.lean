/-
  Dictionary words that are read back.

  Every typed code is spelled with one, two or four Z-characters, from which
  the reader gets it back and is in the first alphabet again.  The spelling of
  a word is cut off where the dictionary form is full.  What is left of a code
  there is a shift, or a shift and a part of an escape, and gives no character;
  nor does padding.  So what is read back is the part of the word that has
  room.
-/
import ZMachine.Proofs.TextRoundTrip
import ZMachine.Text.DictionaryWord

namespace ZMachine

/-! ## Alphabets of a story -/

namespace Alphabets

/-- The letters of an alphabet. -/
def row (a : Alphabets) : Nat → List Byte
  | 0 => a.first
  | 1 => a.second
  | _ => a.third

/-- An alphabet has no more letters than there are Z-characters for them. -/
def Fit (a : Alphabets) : Prop := ∀ k, (a.row k).length ≤ 26

theorem letter_eq (a : Alphabets) (k : Nat) (z : Byte) :
    a.letter k z = (a.row k).getD (z.toNat - 6) 0 := by
  match k with
  | 0 | 1 | k + 2 => rfl

/-- A letter is found under the Z-character of its place. -/
theorem Fit.letter {a : Alphabets} (fit : a.Fit) {k i : Nat} {b : Byte}
    (there : (a.row k)[i]? = some b) :
    (i + 6).toUInt8.toNat = i + 6 ∧ i + 6 < 32 ∧ a.letter k (i + 6).toUInt8 = b := by
  have inside : i < (a.row k).length := (List.getElem?_eq_some_iff.mp there).1
  have small : i + 6 < 32 := by
    have := fit k
    omega
  have number : (i + 6).toUInt8.toNat = i + 6 :=
    UInt8.toNat_ofNat_of_lt' (Nat.lt_trans small (by decide))
  refine ⟨number, small, ?_⟩
  rw [letter_eq, number, Nat.add_sub_cancel, List.getD_eq_getElem?_getD, there]
  rfl

theorem fit_default (version : Nat) : (default version).Fit := by
  intro k
  have length : ((default version).row k).length = (Alphabet.letters version k).length := by
    match k with
    | 0 | 1 | k + 2 => exact List.length_map ..
  exact Nat.le_of_eq (length.trans (Alphabet.length_letters version k))

theorem fit_ofTable (codes : List Byte) : (ofTable codes).Fit := by
  intro k
  match k with
  | 0 | 1 => exact List.length_take_le ..
  | k + 2 =>
      show (((codes.drop 52).take 26).set 1 zsciiNewline).length ≤ 26
      rw [List.length_set]
      exact List.length_take_le ..

end Alphabets

namespace TextTables

variable {t : TextTables} {expand : Nat → Except ImageError (List Char)} {b : Byte} {zs : List Byte}

/-- The tables of a story have its version, and alphabets that fit. -/
theorem fit_of_read {m : Memory} {h : Header} (reads : read m h = .ok t) :
    t.version = h.version ∧ t.alphabets.Fit := by
  unfold read at reads
  -- In either case the tables may have extra characters of their own or not.
  by_cases custom : 5 ≤ h.version ∧ h.alphabetTable ≠ 0
  · rw [if_pos custom] at reads
    obtain ⟨alphabets, table, reads⟩ := Except.bind_eq_ok.mp reads
    obtain ⟨codes, -, rfl⟩ := Except.map_eq_ok table
    split at reads
    all_goals
      obtain ⟨extra, -, reads⟩ := Except.bind_eq_ok.mp reads
      cases reads
      exact ⟨rfl, Alphabets.fit_ofTable codes⟩
  · rw [if_neg custom] at reads
    obtain ⟨alphabets, same, reads⟩ := Except.bind_eq_ok.mp reads
    cases same
    split at reads
    all_goals
      obtain ⟨extra, -, reads⟩ := Except.bind_eq_ok.mp reads
      cases reads
      exact ⟨rfl, Alphabets.fit_default h.version⟩

/-! ## The spelling of one code -/

/-- The shift to an alphabet; the first one needs none. -/
def shiftTo (version : Nat) : Nat → List Byte
  | 0 => []
  | 1 => [(Alphabet.shifts version).1]
  | _ => [(Alphabet.shifts version).2]

/-- The Z-characters that spell a code: those of a space, of a letter behind the shift to its
alphabet, or of an escape.  The first place of the third alphabet is the escape and no letter. -/
inductive Spells (t : TextTables) (b : Byte) : List Byte → Prop where
  | space (same : b = 32) : Spells t b [0]
  | letter (k i : Nat) (three : k ≤ 2) (there : (t.alphabets.row k)[i]? = some b)
      (unescaped : ¬(i = 0 ∧ k = 2)) : Spells t b (shiftTo t.version k ++ [(i + 6).toUInt8])
  | escape : Spells t b [(Alphabet.shifts t.version).2, 6, b >>> 5, b &&& 0x1f]

theorem getElem?_of_idxOf? {letters : List Byte} {i : Nat} (found : letters.idxOf? b = some i) :
    letters[i]? = some b := by
  obtain ⟨inside, same, -⟩ := List.idxOf?_eq_some_iff.mp found
  rw [List.getElem?_eq_getElem inside, same]

theorem spells_encodeByte (t : TextTables) (b : Byte) :
    t.Spells (lowerAscii b) (t.encodeByte b) := by
  -- The cases are those of the encoder, in its order.
  unfold encodeByte
  by_cases space : lowerAscii b = 32
  · simp only [space, if_true]
    exact .space rfl
  simp only [space, if_false]
  cases first : t.alphabets.first.idxOf? (lowerAscii b) with
  | some i => exact .letter 0 i (by decide) (getElem?_of_idxOf? first) (by simp)
  | none =>
  cases second : t.alphabets.second.idxOf? (lowerAscii b) with
  | some i => exact .letter 1 i (by decide) (getElem?_of_idxOf? second) (by simp)
  | none =>
  cases third : t.alphabets.third.tail.idxOf? (lowerAscii b) with
  | some i =>
      have there : (t.alphabets.row 2)[i + 1]? = some (lowerAscii b) := by
        rw [← List.getElem?_tail]
        exact getElem?_of_idxOf? third
      exact .letter 2 (i + 1) (by decide) there (by simp)
  | none => exact .escape

/-- The halves of an escaped code make up the code. -/
theorem halves (b : Byte) : (b >>> 5).toNat * 32 + (b &&& 0x1f).toNat = b.toNat := by
  have high : (b >>> 5).toNat = b.toNat / 32 := by
    rw [UInt8.toNat_shiftRight, Nat.shiftRight_eq_div_pow]
    rfl
  have low : (b &&& 0x1f).toNat = b.toNat % 32 := by
    rw [UInt8.toNat_and]
    exact Nat.and_two_pow_sub_one_eq_mod b.toNat 5
  omega

namespace Spells

variable {es : List Byte}

/-- Every Z-character has five bits. -/
theorem small (spells : t.Spells b es) (fit : t.alphabets.Fit) : ∀ z ∈ es, z.toNat < 32 := by
  have shifts : (Alphabet.shifts t.version).1.toNat < 32 ∧
      (Alphabet.shifts t.version).2.toNat < 32 := by
    unfold Alphabet.shifts
    split <;> decide
  cases spells with
  | space same => simp
  | letter k i three there unescaped =>
      obtain ⟨number, bound, -⟩ := fit.letter there
      have shift : ∀ z ∈ shiftTo t.version k, z.toNat < 32 := by
        match k with
        | 0 => simp [shiftTo]
        | 1 => simpa [shiftTo] using shifts.1
        | k + 2 => simpa [shiftTo] using shifts.2
      intro z mem
      rcases List.mem_append.mp mem with mem | mem
      · exact shift z mem
      · rw [List.mem_singleton.mp mem]
        omega
  | escape =>
      have whole := halves b
      have := b.toNat_lt
      have low : (b &&& 0x1f).toNat < 32 := by
        rw [UInt8.toNat_and]
        exact Nat.lt_of_le_of_lt Nat.and_le_right (by decide)
      simp only [List.mem_cons, List.not_mem_nil, or_false, forall_eq_or_imp, forall_eq]
      exact ⟨shifts.2, by decide, by omega, low⟩

/-- A code that is spelled is read back, and then the reader is in the first alphabet again. -/
theorem decodeChars (spells : t.Spells b es) (known : 1 ≤ t.version) (fit : t.alphabets.Fit)
    (zs : List Byte) :
    t.decodeChars expand 0 none (es ++ zs) =
      (t.charsOfZscii b.toNat ++ ·) <$> t.decodeChars expand 0 none zs := by
  cases spells with
  | space same =>
      rw [same]
      exact decodeChars_space
  | letter k i three there unescaped =>
      obtain ⟨number, bound, letter⟩ := fit.letter there
      have first : (i + 6).toUInt8 = 6 → i = 0 := by
        intro six
        rw [six] at number
        simpa using number.symm
      have read (shift : Option Nat) (here : shift.getD 0 = k) :
          t.decodeChars expand 0 shift ((i + 6).toUInt8 :: zs) =
            (t.charsOfZscii b.toNat ++ ·) <$> t.decodeChars expand 0 none zs := by
        rw [decodeChars_letter (by omega) fun escape =>
          unescaped ⟨first escape.1, here ▸ escape.2⟩, here, letter]
      -- The first alphabet needs no shift, each of the others has one of its own.
      match k with
      | 0 => exact read none rfl
      | 1 => exact (decodeChars_shift known (.inl ⟨rfl, rfl⟩)).trans (read (some 1) rfl)
      | 2 => exact (decodeChars_shift known (.inr ⟨rfl, rfl⟩)).trans (read (some 2) rfl)
  | escape =>
      refine (decodeChars_shift known (.inr ⟨rfl, rfl⟩)).trans ?_
      rw [← halves b]
      exact decodeChars_escape ..

/-- A code that is cut off gives no character. -/
theorem decodeChars_take (spells : t.Spells b es) (known : 1 ≤ t.version) {n : Nat}
    (cut : n < es.length) : t.decodeChars expand 0 none (es.take n) = .ok [] := by
  have shift1 : t.decodeChars expand 0 none [(Alphabet.shifts t.version).1] = .ok [] :=
    decodeChars_shift known (.inl ⟨rfl, rfl⟩)
  have shift2 (zs : List Byte) :
      t.decodeChars expand 0 none ((Alphabet.shifts t.version).2 :: zs)
        = t.decodeChars expand 0 (some 2) zs :=
    decodeChars_shift known (.inr ⟨rfl, rfl⟩)
  have six : (6 : Byte).toNat = 6 := rfl
  have begun (zs : List Byte) (short : zs.length < 2) :
      t.decodeChars expand 0 (some 2) (6 :: zs) = .ok [] := by
    unfold TextTables.decodeChars
    rw [not_isAbbreviation t.version (Nat.le_of_eq six.symm)]
    cases zs with
    | nil => simp [pure, Except.pure]
    | cons z zs =>
        have whole : (z :: zs).length = zs.length + 1 := rfl
        obtain rfl : zs = [] := List.eq_nil_of_length_eq_zero (by omega)
        simp [pure, Except.pure]
  cases spells with
  | space same =>
      obtain rfl : n = 0 := by simpa using cut
      rfl
  | letter k i three there unescaped =>
      -- Only the shift is left, if anything.
      rcases Nat.eq_zero_or_pos n with rfl | some_left
      · rfl
      · cases k with
        | zero =>
            have : n < 1 := cut
            omega
        | succ k =>
            obtain rfl : n = 1 := by
              have : n < 2 := by cases k <;> exact cut
              omega
            cases k with
            | zero => exact shift1
            | succ k => exact shift2 []
  | escape =>
      have : n < 4 := cut
      rcases (by omega : n = 0 ∨ n = 1 ∨ n = 2 ∨ n = 3) with rfl | rfl | rfl | rfl
      · rfl
      · exact shift2 []
      · exact (shift2 _).trans (begun [] (by simp))
      · exact (shift2 _).trans (begun [_] (by simp))

end Spells

/-! ## The spelling of a word -/

/-- Number of Z-characters that a typed code takes: a letter of the first alphabet takes one, one of
the other alphabets a shift more, and an escape takes four. -/
def zcharCount (t : TextTables) (b : Byte) : Nat :=
  let b := lowerAscii b
  if b = 32 ∨ b ∈ t.alphabets.first then 1
  else if b ∈ t.alphabets.second ∨ b ∈ t.alphabets.third.tail then 2
  else 4

theorem length_encodeByte (t : TextTables) (b : Byte) :
    (t.encodeByte b).length = t.zcharCount b := by
  have listed {letters : List Byte} {i : Nat} (found : letters.idxOf? (lowerAscii b) = some i) :
      lowerAscii b ∈ letters := List.mem_of_getElem? (getElem?_of_idxOf? found)
  unfold encodeByte zcharCount
  by_cases space : lowerAscii b = 32
  · simp [space]
  simp only [space, if_false, false_or]
  cases first : t.alphabets.first.idxOf? (lowerAscii b) with
  | some i => simp [listed first]
  | none =>
  have not_first := List.idxOf?_eq_none_iff.mp first
  cases second : t.alphabets.second.idxOf? (lowerAscii b) with
  | some i => simp [not_first, listed second]
  | none =>
  have not_second := List.idxOf?_eq_none_iff.mp second
  cases third : t.alphabets.third.tail.idxOf? (lowerAscii b) with
  | some i => simp [not_first, listed third]
  | none => simp [not_first, not_second, List.idxOf?_eq_none_iff.mp third]

/-- Number of Z-characters that typed codes take. -/
def room (t : TextTables) (typed : List Byte) : Nat := typed.foldr (fun b n => t.zcharCount b + n) 0

/-- The text that typed codes stand for in lower case. -/
def lowered (t : TextTables) (typed : List Byte) : List Char :=
  typed.flatMap fun b => t.charsOfZscii (lowerAscii b).toNat

/-- The first `n` Z-characters of typed codes, filled up with padding. -/
def spelling (t : TextTables) (n : Nat) (typed : List Byte) : List Byte :=
  let zs := (typed.flatMap t.encodeByte).take n
  zs ++ List.replicate (n - zs.length) padding

theorem length_spelling (n : Nat) (typed : List Byte) : (t.spelling n typed).length = n := by
  rw [spelling, List.length_append, List.length_replicate, List.length_take]
  omega

theorem small_spelling (fit : t.alphabets.Fit) (n : Nat) (typed : List Byte) :
    ∀ z ∈ t.spelling n typed, z.toNat < 32 := by
  intro z mem
  rcases List.mem_append.mp mem with mem | mem
  · obtain ⟨b, -, mem⟩ := List.mem_flatMap.mp (List.mem_of_mem_take mem)
    exact (t.spells_encodeByte b).small fit z mem
  · rw [List.eq_of_mem_replicate mem]
    decide

/-- A code that has room stands whole in front of the rest. -/
theorem spelling_cons_of_le {n : Nat} {typed : List Byte} (fits : (t.encodeByte b).length ≤ n) :
    t.spelling n (b :: typed) = t.encodeByte b ++ t.spelling (n - (t.encodeByte b).length)
      typed := by
  simp only [spelling, List.flatMap_cons, List.take_append, List.take_of_length_le fits,
    List.length_append, List.append_assoc, Nat.sub_add_eq]

/-- A code that has no room is cut off. -/
theorem spelling_cons_of_lt {n : Nat} {typed : List Byte} (cut : n < (t.encodeByte b).length) :
    t.spelling n (b :: typed) = (t.encodeByte b).take n := by
  have full : ((t.encodeByte b).take n).length = n := List.length_take_of_le (Nat.le_of_lt cut)
  rw [spelling, List.flatMap_cons, List.take_append_of_le_length (Nat.le_of_lt cut), full,
    Nat.sub_self]
  exact List.append_nil _

/-- What is read back from `n` Z-characters is the text of the codes that have room in them. -/
theorem decodeChars_spelling (known : 1 ≤ t.version) (fit : t.alphabets.Fit) (n : Nat)
    (typed : List Byte) :
    ∃ k, (∀ expand, t.decodeChars expand 0 none (t.spelling n typed)
      = .ok (t.lowered (typed.take k))) ∧
      t.room (typed.take k) ≤ n ∧ (k < typed.length → n < t.room (typed.take (k + 1))) := by
  induction typed generalizing n with
  | nil =>
      refine ⟨0, fun expand => ?_, Nat.zero_le n, fun beyond => absurd beyond (by simp)⟩
      simpa [spelling, lowered] using decodeChars_padding n 0 none
  | cons b typed ih =>
      have spells := t.spells_encodeByte b
      have count := t.length_encodeByte b
      -- The first code has room in full, or it is the one that is cut.
      by_cases fits : (t.encodeByte b).length ≤ n
      · obtain ⟨k, rest, within, beyond⟩ := ih (n - (t.encodeByte b).length)
        refine ⟨k + 1, fun expand => ?_, ?_, fun more => ?_⟩
        · rw [spelling_cons_of_le fits, spells.decodeChars known fit, rest]
          rfl
        · show t.zcharCount b + t.room (typed.take k) ≤ n
          omega
        · have := beyond (Nat.lt_of_succ_lt_succ more)
          show n < t.zcharCount b + t.room (typed.take (k + 1))
          omega
      · have cut : n < (t.encodeByte b).length := Nat.lt_of_not_le fits
        refine ⟨0, fun expand => ?_, Nat.zero_le n, fun _ => ?_⟩
        · rw [spelling_cons_of_lt cut]
          exact spells.decodeChars_take known cut
        · show n < t.zcharCount b + t.room (typed.take 0)
          omega

/-- A part of a word takes no more room than the word. -/
theorem room_take_le (k : Nat) (typed : List Byte) : t.room (typed.take k) ≤ t.room typed := by
  induction typed generalizing k with
  | nil => exact Nat.le_of_eq (congrArg t.room List.take_nil)
  | cons b typed ih =>
      cases k with
      | zero => exact Nat.zero_le _
      | succ k => exact Nat.add_le_add_left (ih k) _

/-- The text of a part of a word begins the text of the word. -/
theorem lowered_take_prefix (k : Nat) (typed : List Byte) :
    t.lowered (typed.take k) <+: t.lowered typed := by
  refine ⟨t.lowered (typed.drop k), ?_⟩
  rw [lowered, lowered, lowered, ← List.flatMap_append, List.take_append_drop]

/-! ## Dictionary words -/

/-- Every three Z-characters make a word. -/
theorem three_mul_length_pack :
    ∀ zs : List Byte, zs.length % 3 = 0 → 3 * (ZChars.pack zs).length = zs.length
  | [], _ => rfl
  | [_], whole | [_, _], whole => by cases whole
  | [_, _, _], _ => rfl
  | a :: b :: c :: d :: rest, whole => by
      have tail : (d :: rest).length % 3 = 0 := by
        simp only [List.length_cons] at whole ⊢
        omega
      have words := three_mul_length_pack (d :: rest) tail
      simp only [ZChars.pack, List.length_cons] at words ⊢
      omega

theorem encodeWord_eq (t : TextTables) (typed : List Byte) :
    t.encodeWord typed = ZChars.pack (t.spelling (t.dictionaryWords * 3) typed) := rfl

/-- The spelling of a dictionary form divides into whole words. -/
theorem length_spelling_mod (t : TextTables) (typed : List Byte) :
    (t.spelling (t.dictionaryWords * 3) typed).length % 3 = 0 := by
  rw [length_spelling]
  exact Nat.mul_mod_left ..

theorem length_encodeWord (t : TextTables) (typed : List Byte) :
    (t.encodeWord typed).length = t.dictionaryWords := by
  have length := t.length_spelling (t.dictionaryWords * 3) typed
  have words := three_mul_length_pack _ (t.length_spelling_mod typed)
  rw [encodeWord_eq]
  omega

/-- The dictionary form of a word has its fixed number of words, of which the last one
alone is marked. -/
theorem shape_encodeWord (fit : t.alphabets.Fit) (typed : List Byte) :
    (t.encodeWord typed).length = t.dictionaryWords ∧ Terminated (t.encodeWord typed) ∧
      ZChars.unpack (t.encodeWord typed) = t.spelling (t.dictionaryWords * 3) typed := by
  have length := t.length_spelling (t.dictionaryWords * 3) typed
  have some_words : 0 < t.dictionaryWords := by
    unfold dictionaryWords
    split <;> decide
  have nonempty : t.spelling (t.dictionaryWords * 3) typed ≠ [] := by
    intro nil
    rw [nil, List.length_nil] at length
    omega
  obtain ⟨same, terminated⟩ :=
    ZChars.unpack_pack (small_spelling fit _ typed) (t.length_spelling_mod typed) nonempty
  exact ⟨t.length_encodeWord typed, terminated, same⟩

/-- The dictionary form of a word has its fixed number of words, of which the last one alone is
marked. It is read back without a look at the image, and gives the text of the first codes of the
word in lower case, as many of them as have room; so it gives the whole text if all of them have. -/
theorem encodeWord_readsBack {m : Memory} {h : Header} (header : Header.read m = .ok h)
    (tables : read m h = .ok t) (typed : List Byte) :
    (t.encodeWord typed).length = t.dictionaryWords ∧ Terminated (t.encodeWord typed) ∧
      ∃ text n, (∀ m', t.decodeWords m' (t.encodeWord typed) = .ok text) ∧
        (∀ expand, t.decodeChars expand 0 none (ZChars.unpack (t.encodeWord typed))
          = .ok text.toList) ∧
        text.toList = t.lowered (typed.take n) ∧ t.room (typed.take n) ≤ 3 * t.dictionaryWords ∧
        (n < typed.length → 3 * t.dictionaryWords < t.room (typed.take (n + 1))) ∧
        text.toList <+: t.lowered typed ∧
        (t.room typed ≤ 3 * t.dictionaryWords → text.toList = t.lowered typed) := by
  obtain ⟨version, fit⟩ := fit_of_read tables
  obtain ⟨known, -⟩ := Header.fields_of_read header
  rw [← version] at known
  obtain ⟨length, terminated, zchars⟩ := shape_encodeWord fit typed
  -- All codes that have room are spelled in full; the first without room is cut.
  obtain ⟨n, reads, within, beyond⟩ := decodeChars_spelling known fit (t.dictionaryWords * 3) typed
  rw [Nat.mul_comm] at within beyond
  refine ⟨length, terminated, String.ofList (t.lowered (typed.take n)), n, fun m' => ?_,
    fun expand => ?_, ?_,
    within, beyond, ?_, fun fits => ?_⟩
  · rw [decodeWords, zchars, reads]
    rfl
  · rw [zchars, reads, String.toList_ofList]
  · exact String.toList_ofList
  · rw [String.toList_ofList]
    exact lowered_take_prefix n typed
  · have all : typed.length ≤ n := by
      apply Nat.le_of_not_lt
      intro more
      have := t.room_take_le (n + 1) typed
      have := beyond more
      omega
    rw [String.toList_ofList, List.take_of_length_le all]

/-- Alphabets of a story's own: small letters in reverse order, digits, and nothing but a
new line. -/
def reversedCodes : List Byte :=
  ((List.range 26).map fun i => (122 - i).toUInt8)
    ++ ((List.range 26).map fun i => if i < 10 then (48 + i).toUInt8 else 0) ++ List.replicate 26 0

/-- A story with these alphabets in memory. -/
def reversedStory : Memory :=
  .ofBytes (5 :: List.replicate 51 0 ++ [0, 64] ++ List.replicate 10 0 ++ reversedCodes).toArray

/-- The tables of this story. -/
def reversedTables : TextTables where
  version := 5
  abbreviations := 0
  alphabets := .ofTable reversedCodes
  extra := defaultExtra

theorem encodeWord_readsBack_reversed : ∃ h, Header.read reversedStory = .ok h ∧
    TextTables.read reversedStory h = .ok reversedTables ∧
    ∀ m, reversedTables.decodeWords m (reversedTables.encodeWord [71, 111, 126, 53, 126])
      = .ok "go~5" := by
  obtain ⟨h, header, tables⟩ : ∃ h, Header.read reversedStory = .ok h ∧
      TextTables.read reversedStory h = .ok reversedTables :=
    exists_header_of_read (by decide +kernel)
  have version : reversedTables.dictionaryWords = 3 := rfl
  have rooms : ∀ k ≤ 5, reversedTables.room ([71, 111, 126, 53, 126].take k)
      = [0, 1, 2, 6, 8, 12].getD k 0 := by
    decide +kernel
  have lower : reversedTables.lowered [71, 111, 126, 53] = "go~5".toList := by decide +kernel
  obtain ⟨-, -, text, n, reads, -, same, within, beyond, -⟩ :=
    encodeWord_readsBack header tables [71, 111, 126, 53, 126]
  rw [version] at within beyond
  -- The second escape would take Z-characters 9 to 12.
  have four : n = 4 := by
    match n with
    | 0 | 1 | 2 | 3 => exact absurd (beyond (by decide)) (by rw [rooms _ (by decide)]; decide)
    | 4 => rfl
    | k + 5 =>
        have all : reversedTables.room [71, 111, 126, 53, 126] = 12 := rooms 5 (by decide)
        rw [List.take_of_length_le (by simp), all] at within
        exact absurd within (by decide)
  refine ⟨h, header, tables, fun m => ?_⟩
  rw [reads m, ← String.ofList_toList (s := text), same, four]
  exact congrArg (fun cs => Except.ok (String.ofList cs)) lower

end TextTables

end ZMachine
