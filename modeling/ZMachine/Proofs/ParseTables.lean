/-
  Tables of typed words.

  The words of a text buffer are looked up one after the other, in an image
  into which their blocks are being written.  Where the blocks stay away from
  what the dictionary compares with, each of them tells what the dictionary of
  the beginning says of its word, and besides the blocks only the number of
  words changes.
-/
import ZMachine.Proofs.DictionarySearch
import ZMachine.Proofs.DictionaryWords
import ZMachine.Proofs.TextBuffers

namespace ZMachine

namespace Dictionary

variable {d : Dictionary} {m m' : Memory} {word : List Word} {k i : Nat}

/-! ## Answers of a dictionary -/

/-- The first `k` words of an entry. -/
def key (d : Dictionary) (m : Memory) (k i : Nat) : List Word :=
  (List.range k).map fun j => m.wordAt (d.entryAddress i + j * 2)

/-- The first `k` words of every entry can be read. -/
def Readable (d : Dictionary) (m : Memory) (k : Nat) : Prop :=
  ∀ i, i < d.entryCount → d.entryAddress i + k * 2 ≤ m.size

instance (d : Dictionary) (m : Memory) (k : Nat) : Decidable (d.Readable m k) :=
  inferInstanceAs (Decidable (∀ i, i < d.entryCount → _))

/-- The first `k` words of every entry are outside of a range of addresses. -/
def Apart (d : Dictionary) (k start stop : Nat) : Prop :=
  ∀ i, i < d.entryCount → ∀ x, x < d.entryAddress i + k * 2 → d.entryAddress i ≤ x →
    x < start ∨ stop ≤ x

instance (d : Dictionary) (k start stop : Nat) : Decidable (d.Apart k start stop) :=
  inferInstanceAs (Decidable (∀ i, i < d.entryCount → ∀ x, x < _ → _))

theorem Readable.reads (readable : d.Readable m k) (inside : i < d.entryCount) :
    m.readWords (d.entryAddress i) k = .ok (d.key m k i) := by
  have here := readable i inside
  rw [Memory.readWords, Memory.check, if_pos (by omega)]
  rfl

/-- What is apart from a range is apart from its parts. -/
theorem Apart.mono {start stop start' stop' : Nat} (apart : d.Apart k start stop)
    (low : start ≤ start') (high : stop' ≤ stop) : d.Apart k start' stop' := by
  intro i inside x below above
  have := apart i inside x below above
  omega

/-- What a search comes to: the place of an entry that is the word, or 0.  If the dictionary is not
wrong about its order, it is 0 only if no entry is the word. -/
structure Answers (d : Dictionary) (m : Memory) (word : List Word) (a : Nat) : Prop where
  looked : d.lookup m word = .ok a
  sound : (∃ i, i < d.entryCount ∧ d.key m word.length i = word ∧ a = d.entryAddress i) ∨ a = 0
  complete : (d.sorted = true →
      ∀ i j, i < j → j < d.entryCount → d.key m word.length i < d.key m word.length j) →
    d.Finds (d.key m word.length) word 0 d.entryCount a

/-- A dictionary that can be read has an answer to every word. -/
theorem exists_answers (readable : d.Readable m word.length) : ∃ a, d.Answers m word a := by
  have reads (i : Nat) (inside : i < d.entryCount) := readable.reads inside
  -- In disorder nothing is promised of a search by halves but that it ends, and where.
  cases order : d.sorted with
  | true =>
      obtain ⟨a, ran, found⟩ : ∃ a, d.lookupSorted m word 0 d.entryCount = .ok a ∧ _ :=
        lookupSorted_sound reads (Nat.le_refl _)
      refine ⟨a, ?_, found.imp_left ?_, fun ascends => ?_⟩
      · rw [lookup, if_pos order, ran]
      · rintro ⟨i, -, inside, same, rfl⟩
        exact ⟨i, inside, same, rfl⟩
      · obtain ⟨b, ran', found⟩ : ∃ b, d.lookupSorted m word 0 d.entryCount = .ok b ∧ _ :=
          lookupSorted_finds ⟨reads, ascends order⟩ (Nat.le_refl _)
        rw [ran] at ran'
        cases ran'
        exact found
  | false =>
      have all : 0 + d.entryCount ≤ d.entryCount := by omega
      obtain ⟨a, ran, found⟩ := lookupLinear_finds_of_reads reads all
      rw [Nat.zero_add] at found
      refine ⟨a, ?_, ?_, fun _ => found⟩
      · rw [lookup, order]
        exact ran
      · rcases found with ⟨i, -, inside, same, rfl⟩ | ⟨-, missing⟩
        · exact .inl ⟨i, inside, same, rfl⟩
        · exact .inr missing

theorem answers_of_lookup (readable : d.Readable m word.length) {a : Nat}
    (looked : d.lookup m word = .ok a) : d.Answers m word a := by
  obtain ⟨b, answer⟩ := exists_answers readable
  obtain rfl : b = a := Except.ok.inj (answer.looked.symm.trans looked)
  exact answer

/-- Writing apart from the entries changes no answer. -/
theorem lookup_of_apart {start stop : Nat} (apart : d.Apart word.length start stop)
    (kept : m.Agrees (fun x => x < start ∨ stop ≤ x) m') : d.lookup m' word = d.lookup m word :=
  lookup_congr fun i inside => kept.readWords fun x low high => apart i inside x high low

end Dictionary

/-! ## How long words are -/

/-- No word is longer than the text that it comes from. -/
theorem length_le_of_mem_splitFrom {separators bs : List Byte} {position : Byte}
    {begun : Option Token} {token : Token} (mem : token ∈ splitFrom separators position begun bs) :
    token.text.length ≤ (begun.map (·.text.length)).getD 0 + bs.length := by
  have of_begun {begun : Option Token} (mem : token ∈ begun.toList) :
      token.text.length ≤ (begun.map (·.text.length)).getD 0 := by
    obtain rfl := Option.mem_toList.mp mem
    exact Nat.le_refl _
  -- One byte at a time: a word that is begun grows by it, or is finished by it.
  fun_induction splitFrom separators position begun bs with
  | case1 position begun => exact Nat.le_trans (of_begun mem) (Nat.le_add_right _ _)
  | case2 position begun bs ih =>
      rw [List.length_cons]
      rcases List.mem_append.mp mem with mem | mem
      · have := of_begun mem
        omega
      · have : token.text.length ≤ 0 + bs.length := ih mem
        omega
  | case3 position begun b bs space separator ih =>
      rw [List.length_cons]
      rcases List.mem_append.mp mem with mem | mem
      · have := of_begun mem
        omega
      · rcases List.mem_cons.mp mem with rfl | mem
        · exact Nat.le_trans (Nat.le_add_left 1 bs.length) (Nat.le_add_left _ _)
        · have : token.text.length ≤ 0 + bs.length := ih mem
          omega
  | case4 position begun b bs space separator word ih =>
      have begins : word.text.length = (begun.map (·.text.length)).getD 0 := by cases begun <;> rfl
      have : token.text.length ≤ (word.text ++ [b]).length + bs.length := ih mem
      rw [List.length_append, begins, List.length_singleton] at this
      rw [List.length_cons]
      omega

/-- There are at most 255 letters in a text buffer. -/
theorem length_bufferContents {m : Memory} {version buffer : Nat} {letters : List Byte}
    {start : Byte}
    (typed : bufferContents m version buffer = .ok (letters, start)) : letters.length < 256 := by
  unfold bufferContents at typed
  split at typed
  case isTrue late =>
    obtain ⟨len, -, typed⟩ := Except.bind_eq_ok.mp typed
    obtain ⟨bytes, read, same⟩ := Except.bind_eq_ok.mp typed
    cases same
    rw [Memory.length_of_readBytes read]
    exact UInt8.toNat_lt len
  case isFalse early =>
    obtain ⟨len, -, typed⟩ := Except.bind_eq_ok.mp typed
    obtain ⟨bytes, read, same⟩ := Except.bind_eq_ok.mp typed
    cases same
    have shorter := (List.takeWhile_prefix (p := (· != 0)) (l := bytes)).length_le
    rw [Memory.length_of_readBytes read] at shorter
    have := UInt8.toNat_lt len
    omega

/-- The length of a word that was typed is told by one byte. -/
theorem length_lt_of_typed {m : Memory} {version buffer : Nat} {letters separators : List Byte}
    {start : Byte} {token : Token} (typed : bufferContents m version buffer = .ok (letters, start))
    (mem : token ∈ splitWords letters separators start) : token.text.length < 256 := by
  have bound : token.text.length ≤ 0 + letters.length := length_le_of_mem_splitFrom mem
  have := length_bufferContents typed
  omega

/-! ## Parse blocks -/

/-- The block of a word, with the entry that was found for it. -/
def Token.block (token : Token) (entry : Nat) : List Byte :=
  Word.bytes entry.toUInt16 ++ [token.text.length.toUInt8, token.position]

/-- What became of the block at `a` of a word with an entry: it is filled in, unless unknown words
are passed over and this one is unknown. -/
def BlockFilled (skipUnknown : Bool) (m m' : Memory) (a : Nat) (token : Token)
    (entry : Nat) : Prop :=
  if entry = 0 ∧ skipUnknown then ∀ x, a ≤ x → x < a + 4 → m'.byteAt x = m.byteAt x
  else m'.Holds a (token.block entry)

namespace BlockFilled

variable {skipUnknown : Bool} {m m₁ m' : Memory} {a entry : Nat} {token : Token}

/-- What is written elsewhere beforehand makes no difference to a block. -/
theorem before (filled : BlockFilled skipUnknown m₁ m' a token entry)
    (same : ∀ x, a ≤ x → x < a + 4 → m₁.byteAt x = m.byteAt x) :
    BlockFilled skipUnknown m m' a token entry := by
  unfold BlockFilled at filled ⊢
  split at filled
  case isTrue skipped =>
    rw [if_pos skipped]
    exact fun x low high => (filled x low high).trans (same x low high)
  case isFalse written =>
    rw [if_neg written]
    exact filled

/-- Nor does what is written elsewhere afterwards. -/
theorem after (filled : BlockFilled skipUnknown m m₁ a token entry) (size : m'.size = m₁.size)
    (same : ∀ x, a ≤ x → x < a + 4 → m'.byteAt x = m₁.byteAt x) :
    BlockFilled skipUnknown m m' a token entry := by
  unfold BlockFilled at filled ⊢
  split at filled
  case isTrue skipped =>
    rw [if_pos skipped]
    exact fun x low high => (same x low high).trans (filled x low high)
  case isFalse written =>
    rw [if_neg written]
    exact filled.congr size same

end BlockFilled

variable {t : TextTables} {d : Dictionary} {m : Memory}

/-- A block is written in three parts. -/
theorem exists_writeBlock (m : Memory) (a : Nat) (w : Word) (b c : Byte) (fits : a + 4 ≤ m.size) :
    ∃ m₁ m₂ m₃, MemoryM.writeWord a w m = .ok () m₁ ∧ MemoryM.writeByte (a + 2) b m₁ = .ok () m₂ ∧
      MemoryM.writeByte (a + 3) c m₂ = .ok () m₃ ∧ m₃.Holds a (Word.bytes w ++ [b, c]) ∧
      m.Agrees (fun x => x < a ∨ a + 4 ≤ x) m₃ := by
  have two : (Word.bytes w).length = 2 := rfl
  have one (b : Byte) : [b].length = 1 := rfl
  obtain ⟨m₁, ran₁, holds₁, kept₁⟩ := MemoryM.exists_writeBytes m a (Word.bytes w) (by omega)
  have size₁ := kept₁.size
  obtain ⟨m₂, ran₂, holds₂, kept₂⟩ := MemoryM.exists_writeBytes m₁ (a + 2) [b] (by rw [one]; omega)
  have size₂ := kept₂.size
  obtain ⟨m₃, ran₃, holds₃, kept₃⟩ := MemoryM.exists_writeBytes m₂ (a + 3) [c] (by rw [one]; omega)
  refine ⟨m₁, m₂, m₃, ran₁, ran₂, ran₃, ?_, ?_⟩
  -- The word comes before what is written after it.
  · have word : m₃.Holds a (Word.bytes w) :=
      holds₁.congr (kept₃.size.trans size₂) fun x _ high =>
        (kept₃.bytes x (.inl (by omega))).trans (kept₂.bytes x (.inl (by omega)))
    have byte : m₃.Holds (a + 2) [b] :=
      holds₂.congr kept₃.size fun x _ high => kept₃.bytes x (.inl (by rw [one] at high; omega))
    exact Memory.holds_append.mpr ⟨word, Memory.holds_append.mpr ⟨byte, holds₃⟩⟩
  · refine ((kept₁.mono ?_).trans (kept₂.mono ?_)).trans (kept₃.mono ?_)
    all_goals
      intro x outside
      simp only [two, one]
      omega

/-- One word: its block is written, and the others are gone on with. -/
theorem writeTokens_cons (skipUnknown : Bool) (block : Nat) {token : Token} (rest : List Token)
    {entry : Nat} (looked : d.lookup m (t.encodeWord token.text) = .ok entry)
    (fits : block + 4 ≤ m.size) :
    ∃ m₁, writeTokens t d skipUnknown block (token :: rest) m
        = writeTokens t d skipUnknown (block + 4) rest m₁ ∧
      BlockFilled skipUnknown m m₁ block token entry ∧
      m.Agrees (fun x => x < block ∨ block + 4 ≤ x) m₁ := by
  have asked : MemoryM.query (fun m => liftM (d.lookup m (t.encodeWord token.text))) m
      = .ok entry m := by
    rw [MemoryM.query, looked]
    rfl
  rw [writeTokens, run_bind, asked]
  dsimp only
  -- A word that is not in the dictionary leaves its block alone, if it is to be skipped.
  by_cases skipped : entry = 0 ∧ skipUnknown
  · refine ⟨m, by rw [if_pos skipped], ?_, .refl _ m⟩
    rw [BlockFilled, if_pos skipped]
    exact fun _ _ _ => rfl
  · obtain ⟨m₁, m₂, m₃, word, length, position, holds, kept⟩ :=
      exists_writeBlock m block entry.toUInt16 token.text.length.toUInt8 token.position fits
    refine ⟨m₃, ?_, ?_, kept⟩
    · rw [if_neg skipped, run_bind, word]
      dsimp only
      rw [run_bind, length]
      dsimp only
      rw [run_bind, position]
    · rw [BlockFilled, if_neg skipped]
      exact holds

/-- The blocks of words are filled one after the other, and nothing else changes.  As no entry is
written over, all words are looked up as they would be at the beginning. -/
theorem run_writeTokens (skipUnknown : Bool) {block : Nat} {tokens : List Token}
    (readable : d.Readable m t.dictionaryWords)
    (apart : d.Apart t.dictionaryWords block (block + 4 * tokens.length))
    (fits : block + 4 * tokens.length ≤ m.size) :
    ∃ m', writeTokens t d skipUnknown block tokens m = .ok () m' ∧
      (∀ i token, tokens[i]? = some token →
        ∃ entry, d.lookup m (t.encodeWord token.text) = .ok entry ∧
        BlockFilled skipUnknown m m' (block + 4 * i) token entry) ∧
      m.Agrees (fun x => x < block ∨ block + 4 * tokens.length ≤ x) m' := by
  induction tokens generalizing m block with
  | nil => exact ⟨m, rfl, nofun, .refl _ m⟩
  | cons token rest ih =>
      rw [List.length_cons] at apart fits
      have words (text : List Byte) := t.length_encodeWord text
      have known : d.Readable m (t.encodeWord token.text).length := by rwa [words]
      obtain ⟨entry, answer⟩ := Dictionary.exists_answers known
      obtain ⟨m₁, step, filled, kept⟩ :=
        writeTokens_cons skipUnknown block rest answer.looked (by omega)
      have near : d.Apart t.dictionaryWords block (block + 4) :=
        apart.mono (Nat.le_refl _) (by omega)
      have far : d.Apart t.dictionaryWords (block + 4) (block + 4 + 4 * rest.length) :=
        apart.mono (by omega) (by omega)
      have readable' : d.Readable m₁ t.dictionaryWords := by
        intro i inside
        rw [kept.size]
        exact readable i inside
      obtain ⟨m', ran, others, kept'⟩ := ih readable' far (by rw [kept.size]; omega)
      refine ⟨m', step.trans ran, ?_, ?_⟩
      · intro i there place
        cases i with
        | zero =>
            -- The other blocks are behind the first one.
            cases place
            refine ⟨entry, answer.looked, filled.after kept'.size fun x _ high => ?_⟩
            exact kept'.bytes x (.inl high)
        | succ i =>
            -- A later word was looked up behind the first write, which has hit no entry.
            obtain ⟨entry', looked, filled'⟩ := others i there place
            have same :
                d.lookup m₁ (t.encodeWord there.text) = d.lookup m (t.encodeWord there.text) :=
              Dictionary.lookup_of_apart (by rwa [words]) kept
            rw [show block + 4 + 4 * i = block + 4 * (i + 1) by omega] at filled'
            refine ⟨entry', same ▸ looked, filled'.before fun x low _ => ?_⟩
            exact kept.bytes x (.inr (by omega))
      · refine (kept.mono ?_).trans (kept'.mono ?_)
        all_goals
          intro x outside
          rw [List.length_cons] at outside
          omega

/-! ## A parse buffer -/

/-- The words are found in the text buffer before any of them is looked up; their number is written
last. -/
theorem tokenise_eq (t : TextTables) (d : Dictionary) {textBuffer : Nat} (parseBuffer : Nat)
    (skipUnknown : Bool) {letters : List Byte} {start : Byte} {tokens : List Token}
    (typed : bufferContents m t.version textBuffer = .ok (letters, start))
    (split : (splitWords letters d.separators start).take (m.byteAt parseBuffer).toNat = tokens)
    (inside : parseBuffer + 1 ≤ m.size) :
    tokenise t d textBuffer parseBuffer skipUnknown m = (do
      writeTokens t d skipUnknown (parseBuffer + 2) tokens
      MemoryM.writeByte (parseBuffer + 1) tokens.length.toUInt8) m := by
  have contents : MemoryM.query (fun m => liftM (bufferContents m t.version textBuffer)) m
      = .ok (letters, start) m := by
    rw [MemoryM.query, typed]
    rfl
  have room : MemoryM.readByte parseBuffer m = .ok (m.byteAt parseBuffer) m := by
    have read : m.readByte parseBuffer = .ok (m.byteAt parseBuffer) :=
      Memory.readByte_eq_ok.mpr ⟨inside, rfl⟩
    rw [MemoryM.readByte, MemoryM.query, read]
    rfl
  unfold tokenise
  rw [run_bind, contents]
  dsimp only
  rw [run_bind, room]
  dsimp only
  rw [split]

/-- The words of a text buffer are put into a parse buffer as far as there is room.  Each block that
is filled in holds the answer of the dictionary, the length and the position of its word; the number
of words is written, and nothing else changes. -/
theorem tokenise_exact (t : TextTables) (d : Dictionary) (m : Memory) (textBuffer parseBuffer : Nat)
    (skipUnknown : Bool) {letters : List Byte} {start : Byte} {tokens : List Token} {count : Nat}
    (typed : bufferContents m t.version textBuffer = .ok (letters, start))
    (split : splitWords letters d.separators start = tokens)
    (counted : min tokens.length (m.byteAt parseBuffer).toNat = count)
    (readable : d.Readable m t.dictionaryWords)
    (fits : parseBuffer + 2 + 4 * count ≤ m.size)
    (apart : d.Apart t.dictionaryWords (parseBuffer + 2) (parseBuffer + 2 + 4 * count)) :
    ∃ m', tokenise t d textBuffer parseBuffer skipUnknown m = .ok () m' ∧
      (m'.byteAt (parseBuffer + 1)).toNat = count ∧
      (∀ i token, i < count → tokens[i]? = some token → token.text.length < 256 ∧
        ∃ entry, d.Answers m (t.encodeWord token.text) entry ∧
          BlockFilled skipUnknown m m' (parseBuffer + 2 + 4 * i) token entry) ∧
      m.Agrees (fun x => x ≠ parseBuffer + 1 ∧
        (x < parseBuffer + 2 ∨ parseBuffer + 2 + 4 * count ≤ x)) m' := by
  have length : (tokens.take (m.byteAt parseBuffer).toNat).length = count := by
    rw [List.length_take, Nat.min_comm, counted]
  have small : count < 256 := by
    have := UInt8.toNat_lt (m.byteAt parseBuffer)
    omega
  obtain ⟨m₁, ran, filled, kept⟩ := run_writeTokens skipUnknown readable (length.symm ▸ apart)
    (length.symm ▸ fits)
  have size := kept.size
  obtain ⟨m', wrote, holds, kept'⟩ := MemoryM.exists_writeBytes m₁ (parseBuffer + 1) [count.toUInt8]
    (by rw [List.length_singleton]; omega)
  -- The number of words is written in front of the blocks.
  have behind (x : Nat) (low : parseBuffer + 2 ≤ x) : m'.byteAt x = m₁.byteAt x :=
    kept'.bytes x (.inr low)
  refine ⟨m', ?_, ?_, ?_, ?_⟩
  · rw [tokenise_eq t d parseBuffer skipUnknown typed (by rw [split]) (by omega), run_bind, ran]
    dsimp only
    rw [length]
    exact wrote
  · rw [holds.2.1]
    exact UInt8.toNat_ofNat_of_lt' small
  · intro i token among place
    obtain ⟨entry, looked, block⟩ :=
      filled i token (by rw [List.getElem?_take_of_lt (by omega), place])
    have known : d.Readable m (t.encodeWord token.text).length :=
      t.length_encodeWord token.text ▸ readable
    refine ⟨length_lt_of_typed typed (split ▸ List.mem_of_getElem? place), entry,
      Dictionary.answers_of_lookup known looked, block.after kept'.size fun x low _ => behind x ?_⟩
    omega
  · refine (kept.mono ?_).trans (kept'.mono ?_)
    · rintro x ⟨-, outside⟩
      rwa [length]
    · rintro x ⟨other, outside⟩
      rw [List.length_singleton]
      omega

/-- A text buffer in which `go up` was typed, a parse buffer with room for two words, and a
dictionary that only knows the first of them. -/
def goUp : Memory :=
  .ofBytes #[6, 103, 111, 32, 117, 112, 0, 2, 0, 9, 9, 9, 9, 8, 8, 8, 8, 1, 0x2e, 5, 0xff, 0xff,
    0x32, 0x85, 0x94, 0xa5, 7]

/-- The head of this dictionary, whose entry is not said to be in order. -/
def goUpDictionary : Dictionary := ⟨17, [0x2e], 5, 1, false, 22⟩

/-- Tables of version 3. -/
def plainTables : TextTables where
  version := 3
  abbreviations := 0
  alphabets := .default 3
  extra := defaultExtra

/-- The known word is filled in; the unknown one is counted, but its block stays. -/
theorem tokenise_exact_goUp : Dictionary.read goUp 17 = .ok goUpDictionary ∧
    ∃ m', tokenise plainTables goUpDictionary 0 7 true goUp = .ok () m' ∧
      (m'.byteAt 8).toNat = 2 ∧ m'.Holds 9 [0, 22, 2, 1] ∧
      ∀ x, 13 ≤ x → x < 17 → m'.byteAt x = 8 := by
  have typed : bufferContents goUp 3 0 = .ok ([103, 111, 32, 117, 112], 1) := by decide +kernel
  have split :
      splitWords [103, 111, 32, 117, 112] [0x2e] 1 = [⟨1, [103, 111]⟩, ⟨4, [117, 112]⟩] := by decide
  have counted : min [Token.mk 1 [103, 111], ⟨4, [117, 112]⟩].length (goUp.byteAt 7).toNat = 2 := by
    decide
  obtain ⟨m', ran, count, blocks, -⟩ :=
    tokenise_exact plainTables goUpDictionary goUp 0 7 true typed split
    counted (by decide) (by decide) (by decide)
  refine ⟨by decide, m', ran, count, ?_, ?_⟩
  · obtain ⟨-, entry, answer, filled⟩ := blocks 0 _ (by decide) rfl
    have known : goUpDictionary.lookup goUp (plainTables.encodeWord [103, 111]) = .ok 22 := by
      decide +kernel
    obtain rfl : entry = 22 := Except.ok.inj (answer.looked.symm.trans known)
    exact filled
  · obtain ⟨-, entry, answer, filled⟩ := blocks 1 _ (by decide) rfl
    have unknown : goUpDictionary.lookup goUp (plainTables.encodeWord [117, 112]) = .ok 0 := by
      decide +kernel
    obtain rfl : entry = 0 := Except.ok.inj (answer.looked.symm.trans unknown)
    intro x low high
    have before : ∀ x, x < 17 → 13 ≤ x → goUp.byteAt x = 8 := by decide
    exact (filled x low high).trans (before x high low)

end ZMachine
