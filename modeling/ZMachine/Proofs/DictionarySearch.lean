/-
  Searching a dictionary.

  Entries are compared with a word in lexicographic order.  The search that
  halves its range only gives up places where the word cannot stand, if the
  entries ascend; the other search gives up one place after the other.  So
  both end with the place of the word, or without one.
-/
import ZMachine.Dictionary.Basic
import Mathlib.Order.Basic

namespace ZMachine

/-! ## The order of words -/

theorem compareWords_eq_iff {as bs : List Word} : compareWords as bs = .eq ↔ as = bs := by
  fun_induction compareWords as bs with
  | case1 => simp
  | case2 => simp
  | case3 => simp
  | case4 a as b bs less =>
      have other : a ≠ b := UInt16.ne_of_lt less
      simp [other]
  | case5 a as b bs _ greater =>
      have other : b ≠ a := UInt16.ne_of_lt greater
      simp [other.symm]
  | case6 a as b bs notLess notGreater ih =>
      have same : a = b :=
        UInt16.le_antisymm (UInt16.not_lt.mp notGreater) (UInt16.not_lt.mp notLess)
      rw [ih, same, List.cons_inj_right]

theorem compareWords_lt_iff {as bs : List Word} : compareWords as bs = .lt ↔ as < bs := by
  fun_induction compareWords as bs with
  | case1 => simp
  | case2 => simp
  | case3 => simp
  | case4 a as b bs less => simp [List.cons_lt_cons_iff, less]
  | case5 a as b bs notLess greater =>
      have other : b ≠ a := UInt16.ne_of_lt greater
      simp [List.cons_lt_cons_iff, notLess, other.symm]
  | case6 a as b bs notLess notGreater ih =>
      have same : a = b :=
        UInt16.le_antisymm (UInt16.not_lt.mp notGreater) (UInt16.not_lt.mp notLess)
      rw [ih, List.cons_lt_cons_iff, same]
      simp

/-- The comparison the other way round. -/
theorem compareWords_swap (as bs : List Word) : compareWords bs as = (compareWords as bs).swap := by
  fun_induction compareWords as bs with
  | case1 => rfl
  | case2 => rfl
  | case3 => rfl
  | case4 a as b bs less =>
      rw [compareWords, if_neg (UInt16.lt_asymm less), if_pos less]
      rfl
  | case5 a as b bs _ greater =>
      rw [compareWords, if_pos greater]
      rfl
  | case6 a as b bs notLess notGreater ih =>
      rw [compareWords, if_neg notGreater, if_neg notLess]
      exact ih

theorem compareWords_gt_iff {as bs : List Word} : compareWords as bs = .gt ↔ bs < as := by
  rw [← compareWords_lt_iff, compareWords_swap as bs]
  cases compareWords as bs <;> decide

namespace Dictionary

/-! ## Entries in order -/

/-- The entries of a dictionary can be read and ascend: entry `i` begins with the `k`
words `key i`. -/
structure Ordered (d : Dictionary) (m : Memory) (k : Nat) (key : Nat → List Word) : Prop where
  reads : ∀ i, i < d.entryCount → m.readWords (d.entryAddress i) k = .ok (key i)
  ascends : ∀ i j, i < j → j < d.entryCount → key i < key j

variable {d : Dictionary} {m : Memory} {word : List Word} {key : Nat → List Word}
    {i j low high a b : Nat}

theorem compareAt_of_reads (reads : m.readWords a word.length = .ok (key i)) :
    compareAt m a word = .ok (compareWords (key i) word) := by
  rw [compareAt, reads]
  rfl

namespace Ordered

variable (h : d.Ordered m word.length key)

include h

theorem compareAt (inside : i < d.entryCount) :
    Dictionary.compareAt m (d.entryAddress i) word = .ok (compareWords (key i) word) :=
  compareAt_of_reads (h.reads i inside)

/-- No entry stands twice. -/
theorem injective (hi : i < d.entryCount) (hj : j < d.entryCount) (same : key i = key j) :
    i = j := by
  rcases Nat.lt_trichotomy i j with less | equal | greater
  · have := h.ascends i j less hj
    rw [same] at this
    exact absurd this (List.lt_irrefl _)
  · exact equal
  · have := h.ascends j i greater hi
    rw [same] at this
    exact absurd this (List.lt_irrefl _)

/-- A word above an entry is none of the entries up to that one. -/
theorem ne_of_below (inside : j < d.entryCount) (above : key j < word) (le : i ≤ j) :
    key i ≠ word := by
  rintro rfl
  rcases Nat.lt_or_eq_of_le le with less | rfl
  · exact List.lt_irrefl _ (List.lt_trans (h.ascends i j less inside) above)
  · exact List.lt_irrefl _ above

/-- A word below an entry is none of the entries from that one on. -/
theorem ne_of_above (inside : i < d.entryCount) (below : word < key j) (le : j ≤ i) :
    key i ≠ word := by
  rintro rfl
  rcases Nat.lt_or_eq_of_le le with less | rfl
  · exact List.lt_irrefl _ (List.lt_trans below (h.ascends j i less inside))
  · exact List.lt_irrefl _ below

end Ordered

/-! ## Both searches -/

/-- What a search for a word from place `low` up to, not including, `high` comes to: the address of
the entry that is the word, and 0 if there is none. -/
def Finds (d : Dictionary) (key : Nat → List Word) (word : List Word) (low high a : Nat) : Prop :=
  (∃ i, low ≤ i ∧ i < high ∧ key i = word ∧ a = d.entryAddress i) ∨
    (∀ i, low ≤ i → i < high → key i ≠ word) ∧ a = 0

/-- Places where the word does not stand may be left out. -/
theorem Finds.widen {low' high' : Nat} (found : d.Finds key word low high a) (hl : low' ≤ low)
    (hh : high ≤ high')
    (others : ∀ i, low' ≤ i → i < high' → i < low ∨ high ≤ i → key i ≠ word) :
    d.Finds key word low' high' a := by
  rcases found with ⟨i, from_, upTo, same, rfl⟩ | ⟨absent, rfl⟩
  · exact .inl ⟨i, by omega, by omega, same, rfl⟩
  · refine .inr ⟨fun i from_ upTo => ?_, rfl⟩
    by_cases within : low ≤ i ∧ i < high
    · exact absent i within.1 within.2
    · exact others i from_ upTo (by omega)

/-- Halving the range loses no place of the word. -/
theorem lookupSorted_finds (h : d.Ordered m word.length key) (bound : high ≤ d.entryCount) :
    ∃ a, d.lookupSorted m word low high = .ok a ∧ d.Finds key word low high a := by
  fun_induction d.lookupSorted m word low high with
  | case1 low high more middle address upper lower =>
      have inside : middle < d.entryCount := by omega
      rw [h.compareAt inside]
      cases order : compareWords (key middle) word with
      | eq =>
          have same : key middle = word := compareWords_eq_iff.mp order
          exact ⟨address, rfl, .inl ⟨middle, by omega, by omega, same, rfl⟩⟩
      | lt =>
          have above : key middle < word := compareWords_lt_iff.mp order
          obtain ⟨a, ran, found⟩ := upper bound
          -- The word is not among those passed over, as the entries ascend.
          refine ⟨a, ran, found.widen (by omega) (Nat.le_refl _) fun i _ upTo out => ?_⟩
          exact h.ne_of_below inside above (by omega)
      | gt =>
          have below : word < key middle := compareWords_gt_iff.mp order
          obtain ⟨a, ran, found⟩ := lower (by omega)
          refine ⟨a, ran, found.widen (Nat.le_refl _) (by omega) fun i _ upTo out => ?_⟩
          exact h.ne_of_above (by omega) below (by omega)
  | case2 low high done =>
      exact ⟨0, rfl, .inr ⟨fun i from_ upTo => absurd upTo (by omega), rfl⟩⟩

/-- Searching place by place ends at the first one of the word, whatever the order of the
entries. -/
theorem lookupLinear_finds_of_reads
    (reads : ∀ i, i < d.entryCount → m.readWords (d.entryAddress i) word.length = .ok (key i))
    {count index : Nat} (bound : index + count ≤ d.entryCount) :
    ∃ a, d.lookupLinear m word count index = .ok a ∧ d.Finds key word index (index + count) a := by
  induction count generalizing index with
  | zero => exact ⟨0, rfl, .inr ⟨fun i from_ upTo => absurd upTo (by omega), rfl⟩⟩
  | succ count ih =>
      have inside : index < d.entryCount := by omega
      simp only [lookupLinear, compareAt_of_reads (reads index inside), Bind.bind, Except.bind,
        compareWords_eq_iff]
      by_cases same : key index = word
      · rw [if_pos same]
        exact ⟨_, rfl, .inl ⟨index, Nat.le_refl _, by omega, same, rfl⟩⟩
      · rw [if_neg same]
        have rest : index + 1 + count ≤ d.entryCount := by omega
        obtain ⟨a, ran, found⟩ := ih rest
        refine ⟨a, ran, found.widen (by omega) (by omega) fun i from_ upTo out => ?_⟩
        -- The only place that is left out is the first one.
        obtain rfl : i = index := by omega
        exact same

theorem lookupLinear_finds (h : d.Ordered m word.length key) {count index : Nat}
    (bound : index + count ≤ d.entryCount) :
    ∃ a, d.lookupLinear m word count index = .ok a ∧ d.Finds key word index (index + count) a :=
  lookupLinear_finds_of_reads h.reads bound

/-- Halving the range comes to an end also if the entries are in disorder, and only ends
at the word. -/
theorem lookupSorted_sound
    (reads : ∀ i, i < d.entryCount → m.readWords (d.entryAddress i) word.length = .ok (key i))
    (bound : high ≤ d.entryCount) :
    ∃ a, d.lookupSorted m word low high = .ok a ∧
      ((∃ i, low ≤ i ∧ i < high ∧ key i = word ∧ a = d.entryAddress i) ∨ a = 0) := by
  fun_induction d.lookupSorted m word low high with
  | case1 low high more middle address upper lower =>
      rw [compareAt_of_reads (reads middle (by omega))]
      cases order : compareWords (key middle) word with
      | eq =>
          have same : key middle = word := compareWords_eq_iff.mp order
          exact ⟨address, rfl, .inl ⟨middle, by omega, by omega, same, rfl⟩⟩
      -- The word is looked for on one side only, but any hit is one of the whole range.
      | lt =>
          obtain ⟨a, ran, found⟩ := upper bound
          refine ⟨a, ran, found.imp_left ?_⟩
          rintro ⟨i, from_, upTo, same, rfl⟩
          exact ⟨i, by omega, upTo, same, rfl⟩
      | gt =>
          obtain ⟨a, ran, found⟩ := lower (by omega)
          refine ⟨a, ran, found.imp_left ?_⟩
          rintro ⟨i, from_, upTo, same, rfl⟩
          exact ⟨i, from_, by omega, same, rfl⟩
  | case2 low high done => exact ⟨0, rfl, .inr rfl⟩

section

variable {m' : Memory}
  (same : ∀ i, i < d.entryCount →
    compareAt m' (d.entryAddress i) word = compareAt m (d.entryAddress i) word)

include same

theorem lookupSorted_congr (bound : high ≤ d.entryCount) :
    d.lookupSorted m' word low high = d.lookupSorted m word low high := by
  fun_induction d.lookupSorted m word low high with
  | case1 low high more middle address upper lower =>
      rw [lookupSorted, dif_pos more]
      have compared : compareAt m' address word = compareAt m address word := same middle (by omega)
      show (compareAt m' address word >>= _) = (compareAt m address word >>= _)
      rw [compared]
      cases compareAt m address word with
      | error e => rfl
      | ok order =>
          cases order with
          | eq => rfl
          | lt => exact upper bound
          | gt => exact lower (by omega)
  | case2 low high done => rw [lookupSorted, dif_neg done]

theorem lookupLinear_congr {count index : Nat} (bound : index + count ≤ d.entryCount) :
    d.lookupLinear m' word count index = d.lookupLinear m word count index := by
  induction count generalizing index with
  | zero => rfl
  | succ count ih => rw [lookupLinear, lookupLinear, same index (by omega), ih (by omega)]

end

/-- Images with the same entries give the same answers. -/
theorem lookup_congr {m' : Memory} (same : ∀ i, i < d.entryCount →
      m'.readWords (d.entryAddress i) word.length = m.readWords (d.entryAddress i) word.length) :
    d.lookup m' word = d.lookup m word := by
  have compared (i : Nat) (inside : i < d.entryCount) :
      compareAt m' (d.entryAddress i) word = compareAt m (d.entryAddress i) word := by
    rw [compareAt, compareAt, same i inside]
  rw [lookup, lookup, lookupSorted_congr compared (Nat.le_refl _),
    lookupLinear_congr compared (by omega)]

/-- A search of all entries comes to one address only. -/
theorem Finds.unique (h : d.Ordered m word.length key) (first : d.Finds key word 0 d.entryCount a)
    (second : d.Finds key word 0 d.entryCount b) : a = b := by
  rcases first with ⟨i, low, hi, same, rfl⟩ | ⟨absent, rfl⟩
  · rcases second with ⟨j, -, hj, same', rfl⟩ | ⟨absent, -⟩
    · rw [h.injective hi hj (same.trans same'.symm)]
    · exact absurd same (absent i low hi)
  · rcases second with ⟨j, low, hj, same, -⟩ | ⟨-, rfl⟩
    · exact absurd same (absent j low hj)
    · rfl

/-- Whether or not a dictionary says that it is in order, if its entries are, looking up a word
gives the address of the entry that is the word, and 0 if there is none. -/
theorem lookup_of_ordered (h : d.Ordered m word.length key) :
    ∃ a, (∀ sorted, { d with sorted }.lookup m word = .ok a) ∧
      (∀ i, i < d.entryCount → key i = word → a = d.entryAddress i) ∧
      ((∀ i, i < d.entryCount → key i ≠ word) → a = 0) := by
  have sorted : { d with sorted := true }.Ordered m word.length key := ⟨h.reads, h.ascends⟩
  have unsorted : { d with sorted := false }.Ordered m word.length key := ⟨h.reads, h.ascends⟩
  have all : 0 + d.entryCount ≤ d.entryCount := by omega
  obtain ⟨a, halved, found⟩ :
      ∃ a, { d with sorted := true }.lookupSorted m word 0 d.entryCount = .ok a ∧
      d.Finds key word 0 d.entryCount a := lookupSorted_finds sorted (Nat.le_refl _)
  obtain ⟨b, scanned, found'⟩ := lookupLinear_finds unsorted all
  rw [Nat.zero_add] at found'
  obtain rfl : a = b := Finds.unique h found found'
  refine ⟨a, fun sorted => ?_, fun i inside same => ?_, fun absent => ?_⟩
  · cases sorted with
    | true => exact halved
    | false => exact scanned
  · exact Finds.unique h found (.inl ⟨i, Nat.zero_le i, inside, same, rfl⟩)
  · exact Finds.unique h found (.inr ⟨fun i _ inside => absent i inside, rfl⟩)

/-- A dictionary of three entries, of two words and a byte each. -/
def threeWords : Memory :=
  .ofBytes #[1, 0x2e, 5, 0, 3, 0x10, 0, 0x90, 0, 7, 0x10, 0, 0x90, 1, 8, 0x20, 0, 0x80, 0, 9]

/-- The first words of its entries. -/
def threeKeys (i : Nat) : List Word :=
  [[0x1000, 0x9000], [0x1000, 0x9001], [0x2000, 0x8000]].getD i []

theorem lookup_of_ordered_three : ∃ d, Dictionary.read threeWords 0 = .ok d ∧ d.sorted = true ∧
    d.Ordered threeWords 2 threeKeys ∧
    (∀ sorted, { d with sorted }.lookup threeWords [0x2000, 0x8000] = .ok 15) ∧
    (∀ sorted, { d with sorted }.lookup threeWords [0x1000, 0x9002] = .ok 0) := by
  refine ⟨⟨0, [0x2e], 5, 3, true, 5⟩, rfl, rfl, ?_⟩
  have order : ∀ j < 3, ∀ i < j, threeKeys i < threeKeys j := by decide
  have ordered (word : List Word) (two : word.length = 2) :
      Dictionary.Ordered ⟨0, [0x2e], 5, 3, true, 5⟩ threeWords word.length threeKeys := by
    rw [two]
    refine ⟨?_, fun i j less inside => order j inside i less⟩
    decide
  obtain ⟨a, last, found, -⟩ := lookup_of_ordered (ordered [0x2000, 0x8000] rfl)
  obtain ⟨b, missing, -, absent⟩ := lookup_of_ordered (ordered [0x1000, 0x9002] rfl)
  have at_last : a = 15 := found 2 (by decide) rfl
  have nowhere : b = 0 := absent (by decide)
  exact ⟨ordered [0, 0] rfl, fun sorted => at_last ▸ last sorted, fun sorted =>
    nowhere ▸ missing sorted⟩

end Dictionary

end ZMachine
