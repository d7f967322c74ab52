/-
  How typed text is divided into words.

  Spaces end words and are left out; separators end words and are words of
  their own; all other letters make up words, which reach as far as they can.
  So nothing but spaces is lost, and each word stands in the text where its
  position says, counted modulo 2^8.
-/
import Mathlib.Data.List.Chain
import ZMachine.Dictionary.Tokens

namespace ZMachine

variable {separators : List Byte}

/-- Letters of words are neither spaces nor separators. -/
def IsLetter (separators : List Byte) (b : Byte) : Prop := b ≠ 32 ∧ b ∉ separators

/-- A word of letters only, no separator. -/
def IsWord (separators word : List Byte) : Prop := word ≠ [] ∧ ∀ b ∈ word, IsLetter separators b

/-- A word that is a separator. -/
def IsSeparator (separators word : List Byte) : Prop := ∃ b ∈ separators, b ≠ 32 ∧ word = [b]

/-! ## The division of a text -/

/-- The text that begins at the index `i` consists of these words, each with the index at which it
begins, and of spaces. -/
inductive SplitsInto (separators : List Byte) : Nat → List Byte → List (Nat × List Byte) →
    Prop where
  | nil (i : Nat) : SplitsInto separators i [] []
  | space {i : Nat} {bs : List Byte} {words : List (Nat × List Byte)}
      (rest : SplitsInto separators (i + 1) bs words) : SplitsInto separators i (32 :: bs) words
  | separator {i : Nat} {b : Byte} {bs : List Byte} {words : List (Nat × List Byte)}
      (visible : b ≠ 32) (separates : b ∈ separators)
      (rest : SplitsInto separators (i + 1) bs words) :
      SplitsInto separators i (b :: bs) ((i, [b]) :: words)
  /-- The word is not followed by a letter, which would be a letter of the word. -/
  | word {i : Nat} {w bs : List Byte} {words : List (Nat × List Byte)}
      (isWord : IsWord separators w)
      (whole : ∀ b ∈ bs.head?, ¬IsLetter separators b)
      (rest : SplitsInto separators (i + w.length) bs words) :
      SplitsInto separators i (w ++ bs) ((i, w) :: words)

/-- The word that begins at an index, as it is found in a text whose first letter stands at
`start`. -/
def tokenAt (start : Byte) (word : Nat × List Byte) : Token :=
  ⟨(start.toNat + word.1).toUInt8, word.2⟩

/-- A word that has begun, unless it has no letter yet. -/
def begunAt (start : Byte) (i : Nat) (w : List Byte) : Option Token :=
  if w = [] then none else some (tokenAt start (i, w))

theorem begunAt_append (start : Byte) (i : Nat) (w : List Byte) (b : Byte) :
    begunAt start i (w ++ [b]) =
      let word := (begunAt start i w).getD ⟨(start.toNat + (i + w.length)).toUInt8, []⟩
      some { word with text := word.text ++ [b] } := by
  by_cases empty : w = []
  · simp [begunAt, tokenAt, empty]
  · simp [begunAt, tokenAt, empty]

/-- The positions of neighbouring letters. -/
theorem position_succ (start : Byte) (i : Nat) :
    (start.toNat + i).toUInt8 + 1 = (start.toNat + (i + 1)).toUInt8 := by
  rw [← Nat.add_assoc]
  exact (UInt8.ofNat_add ..).symm

/-- A word that has begun ends where no letter follows it. -/
theorem SplitsInto.behind (start : Byte) {i : Nat} {w bs : List Byte}
    {words : List (Nat × List Byte)}
    (letters : ∀ b ∈ w, IsLetter separators b) (whole : ∀ b ∈ bs.head?, ¬IsLetter separators b)
    (rest : SplitsInto separators (i + w.length) bs words) :
    ∃ words', SplitsInto separators i (w ++ bs) words' ∧
      (begunAt start i w).toList ++ words.map (tokenAt start) = words'.map (tokenAt start) := by
  by_cases empty : w = []
  · subst empty
    exact ⟨words, rest, rfl⟩
  · exact ⟨_, .word ⟨empty, letters⟩ whole rest, by rw [begunAt, if_neg empty]; rfl⟩

/-- A word that has begun with the rest of the text is divided into the words that are found. -/
theorem exists_splitsInto (separators : List Byte) (start : Byte) (bs : List Byte) (i : Nat)
    {w : List Byte} (letters : ∀ b ∈ w, IsLetter separators b) :
    ∃ words, SplitsInto separators i (w ++ bs) words ∧
      splitFrom separators (start.toNat + (i + w.length)).toUInt8 (begunAt start i w) bs
        = words.map (tokenAt start) := by
  induction bs generalizing i w with
  | nil =>
      obtain ⟨words, splits, eq⟩ := SplitsInto.behind start letters (by simp) (.nil _)
      exact ⟨words, splits, by simpa [splitFrom] using eq⟩
  | cons b bs ih =>
      -- Behind a space or a separator no word has begun.
      obtain ⟨words, rest, eq⟩ := ih (i + w.length + 1) (w := []) (by simp)
      rw [List.nil_append] at rest
      simp only [begunAt, if_true, List.length_nil, Nat.add_zero] at eq
      rw [splitFrom, position_succ]
      by_cases space : b = 32
      · subst space
        rw [if_pos rfl]
        obtain ⟨words', splits, eq'⟩ :=
          SplitsInto.behind start letters (by simp [IsLetter]) (.space rest)
        exact ⟨words', splits, by rw [← eq', ← eq]⟩
      · rw [if_neg space]
        by_cases separates : b ∈ separators
        · rw [if_pos (by simpa using separates)]
          obtain ⟨words', splits, eq'⟩ :=
            SplitsInto.behind start letters (by simp [IsLetter, separates])
              (.separator space separates rest)
          exact ⟨words', splits, by rw [← eq', List.map_cons, ← eq]; rfl⟩
        · rw [if_neg (by simpa using separates)]
          have more : ∀ c ∈ w ++ [b], IsLetter separators c := by
            intro c mem
            rcases List.mem_append.mp mem with mem | mem
            · exact letters c mem
            · rw [List.mem_singleton.mp mem]
              exact ⟨space, separates⟩
          obtain ⟨words', splits, eq'⟩ := ih i more
          rw [List.append_assoc, List.singleton_append] at splits
          rw [begunAt_append, List.length_append, List.length_singleton] at eq'
          exact ⟨words', splits, eq'⟩

theorem splitWords_splitsInto (input separators : List Byte) (start : Byte) :
    ∃ words, SplitsInto separators 0 input words ∧
      splitWords input separators start = words.map (tokenAt start) := by
  obtain ⟨words, splits, eq⟩ := exists_splitsInto separators start input 0 (w := []) (by simp)
  refine ⟨words, splits, ?_⟩
  unfold splitWords
  simpa only [begunAt, if_true, List.length_nil, Nat.add_zero, Nat.toUInt8_eq, UInt8.ofNat_toNat]
    using eq

/-! ## What a division is like -/

namespace SplitsInto

variable {i : Nat} {bs : List Byte} {words : List (Nat × List Byte)}

/-- Nothing but the spaces is left out. -/
theorem visible (h : SplitsInto separators i bs words) :
    words.flatMap (·.2) = bs.filter (· ≠ 32) := by
  induction h with
  | nil => rfl
  | space _ ih => simpa using ih
  | separator visible _ _ ih => simp [ih, visible]
  | word isWord _ _ ih =>
      have all := List.filter_eq_self.mpr fun b mem => decide_eq_true (isWord.2 b mem).1
      rw [List.flatMap_cons, ih, List.filter_append, all]

theorem kinds (h : SplitsInto separators i bs words) :
    ∀ p ∈ words, IsSeparator separators p.2 ∨ IsWord separators p.2 := by
  induction h with
  | nil => simp
  | space _ ih => exact ih
  | separator visible separates _ ih =>
      exact List.forall_mem_cons.mpr ⟨.inl ⟨_, separates, visible, rfl⟩, ih⟩
  | word isWord _ _ ih => exact List.forall_mem_cons.mpr ⟨.inr isWord, ih⟩

/-- The text behind the bytes that it begins with. -/
theorem drop_behind {input w : List Byte} (rest : input.drop i = w ++ bs) :
    input.drop (i + w.length) = bs := by
  rw [← List.drop_drop, rest, List.drop_left]

/-- Each word stands in the text at its index. -/
theorem stands {input : List Byte} (h : SplitsInto separators i bs words)
    (rest : input.drop i = bs) : ∀ p ∈ words, p.2 <+: input.drop p.1 := by
  induction h with
  | nil => simp
  | space _ ih => exact ih (drop_behind (w := [32]) rest)
  | @separator i b bs _ _ _ _ ih =>
      exact List.forall_mem_cons.mpr ⟨rest ▸ ⟨bs, rfl⟩, ih (drop_behind (w := [b]) rest)⟩
  | @word i w bs _ _ _ _ ih =>
      exact List.forall_mem_cons.mpr ⟨rest ▸ ⟨bs, rfl⟩, ih (drop_behind rest)⟩

/-- In front of the first word there are only spaces. -/
theorem first {input : List Byte} {p : Nat × List Byte}
    (h : SplitsInto separators i bs (p :: words)) (rest : input.drop i = bs) :
    i ≤ p.1 ∧ ∀ j, i ≤ j → j < p.1 → input[j]? = some 32 := by
  generalize all : p :: words = ps at h
  induction h with
  | nil => cases all
  | @space i bs _ _ ih =>
      obtain ⟨le, spaces⟩ := ih (drop_behind (w := [32]) rest) all
      refine ⟨by omega, fun j low high => ?_⟩
      by_cases here : j = i
      · rw [here, ← List.head?_drop, rest, List.head?_cons]
      · exact spaces j (by omega) high
  | separator | word =>
      cases all
      exact ⟨Nat.le_refl _, fun j low high => absurd high (Nat.not_lt.mpr low)⟩

end SplitsInto

/-- One word comes after another in a text: there are only spaces between them, and there is one if
both are made of letters. -/
structure ComesAfter (separators input : List Byte) (p q : Nat × List Byte) : Prop where
  behind : p.1 + p.2.length ≤ q.1
  spaces : ∀ j, p.1 + p.2.length ≤ j → j < q.1 → input[j]? = some 32
  parted : IsWord separators p.2 → IsWord separators q.2 → p.1 + p.2.length < q.1

theorem SplitsInto.chain {input : List Byte} {i : Nat} {bs : List Byte}
    {words : List (Nat × List Byte)}
    (h : SplitsInto separators i bs words) (rest : input.drop i = bs) :
    words.IsChain (ComesAfter separators input) := by
  induction h with
  | nil => exact .nil
  | space _ ih => exact ih (drop_behind (w := [32]) rest)
  | @separator i b bs words _ separates later ih =>
      have next : input.drop (i + 1) = bs := drop_behind (w := [b]) rest
      refine List.isChain_cons.mpr ⟨fun q mem => ?_, ih next⟩
      obtain ⟨words, rfl⟩ := List.head?_eq_some_iff.mp mem
      obtain ⟨behind, spaces⟩ := later.first next
      exact ⟨behind, spaces, fun letters => absurd separates (letters.2 b (by simp)).2⟩
  | @word i w bs words _ whole later ih =>
      have next : input.drop (i + w.length) = bs := drop_behind rest
      refine List.isChain_cons.mpr ⟨fun q mem => ?_, ih next⟩
      obtain ⟨words, rfl⟩ := List.head?_eq_some_iff.mp mem
      obtain ⟨behind, spaces⟩ := later.first next
      refine ⟨behind, spaces, fun _ isWord => Nat.lt_of_le_of_ne behind fun touches => ?_⟩
      -- The second word would begin with a letter that the first one left.
      obtain ⟨more, stands⟩ := later.stands next q (by simp)
      obtain ⟨nonempty, letters⟩ := isWord
      obtain ⟨c, cs, eq⟩ := List.exists_cons_of_ne_nil nonempty
      rw [← touches, next, eq] at stands
      exact whole c (by rw [← stands]; rfl) (letters c (by simp [eq]))

/-! ## The words of typed text -/

/-- Words, each with the index at which it begins, are what a text has to be divided into. -/
structure Tokenises (separators input : List Byte) (words : List (Nat × List Byte)) : Prop where
  visible : words.flatMap (·.2) = input.filter (· ≠ 32)
  kinds : ∀ p ∈ words, IsSeparator separators p.2 ∨ IsWord separators p.2
  stands : ∀ p ∈ words, p.2 <+: input.drop p.1
  apart : words.IsChain (ComesAfter separators input)

/-- Typed text is divided into its separators and its words, which reach as far as they can, in the
order of the text and each with its position. -/
theorem splitWords_tokenises (input separators : List Byte) (start : Byte) :
    ∃ words, Tokenises separators input words ∧
      splitWords input separators start
        = words.map fun p => ⟨(start.toNat + p.1).toUInt8, p.2⟩ := by
  obtain ⟨words, splits, eq⟩ := splitWords_splitsInto input separators start
  exact ⟨words, ⟨splits.visible, splits.kinds, splits.stands rfl, splits.chain rfl⟩, eq⟩

/-- A space among the separators is still a space. -/
example : splitWords [44, 97, 98, 32, 44, 99] [32, 44] 255
    = [⟨255, [44]⟩, ⟨0, [97, 98]⟩, ⟨3, [44]⟩, ⟨4, [99]⟩] := by decide

end ZMachine
