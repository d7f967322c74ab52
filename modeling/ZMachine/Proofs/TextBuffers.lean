/-
  Lines in a text buffer.

  A buffer begins with a number of letters.  Up to version 4 that many bytes
  follow, and the letters among them end with a zero; later the letters are
  counted by the byte before them.  A typed line is cut to what there is room
  for, and the letters that are read from the buffer are those that were put
  into it.
-/
import Mathlib.Data.List.DropRight
import ZMachine.Machine.Input
import ZMachine.Proofs.ObjectNames

namespace ZMachine

/-! ## Runs of bytes -/

namespace Memory

variable {m : Memory} {a : Nat} {bs cs : List Byte}

/-- What stands in the image, a reader finds first. -/
theorem exists_readBytes {len : Nat} (fits : a + len ≤ m.size) :
    ∃ bs, m.readBytes a len = .ok bs ∧ bs.length = len ∧ m.Holds a bs := by
  have read : m.readBytes a len = .ok (m.bytes.extract a (a + len)).toList := by
    rw [readBytes, check, if_pos fits]
    rfl
  have length := length_of_readBytes read
  refine ⟨_, read, length, (holds_iff (length.symm ▸ fits)).mpr fun k small => ?_⟩
  have here : a + k < m.bytes.size := Nat.lt_of_lt_of_le (by omega) fits
  rw [length] at small
  simp [byteAt, Array.getD_eq_getD_getElem?, List.getD, here, small]

theorem Holds.isPrefix (holds : m.Holds a bs) (holds' : m.Holds a cs)
    (shorter : bs.length ≤ cs.length) : ∃ rest, cs = bs ++ rest := by
  induction bs generalizing a cs with
  | nil => exact ⟨cs, rfl⟩
  | cons b bs ih =>
      cases cs with
      | nil => cases shorter
      | cons c cs =>
          obtain ⟨-, first, later⟩ := holds
          obtain ⟨-, first', later'⟩ := holds'
          obtain ⟨rest, rfl⟩ := ih later later' (Nat.le_of_succ_le_succ shorter)
          exact ⟨rest, by rw [← first, ← first', List.cons_append]⟩

end Memory

namespace MemoryM

/-- Bytes that fit are written to their place, and nowhere else. -/
theorem exists_writeBytes (m : Memory) (a : Nat) (bs : List Byte) (fits : a + bs.length ≤ m.size) :
    ∃ m', writeBytes a bs m = .ok () m' ∧ m'.Holds a bs ∧
      m.Agrees (fun x => x < a ∨ a + bs.length ≤ x) m' := by
  by_cases empty : bs = []
  · rw [empty]
    exact ⟨m, rfl, trivial, .refl _ m⟩
  · refine ⟨m.commit a bs, run_writeBytes empty fits, ?_, .commit m fun x outside => outside⟩
    refine (Memory.holds_iff (by rwa [Memory.size_commit])).mpr fun k small => ?_
    rw [Memory.byteAt_commit_of_inside m (by omega) (by omega) fits, Nat.add_sub_cancel_left]

end MemoryM

/-! ## Letters of a typed line -/

namespace TextTables

variable {t : TextTables} {c : Char} {z : Nat}

/-- Only newlines have the code 13; all other codes are above those of control characters. -/
theorem code_of_zsciiOfChar (code : t.zsciiOfChar c = some z) :
    z = 13 ∧ (c = '\n' ∨ c = '\r') ∨ 32 ≤ z := by
  unfold zsciiOfChar at code
  split at code
  case isTrue newline => exact .inl ⟨(Option.some.inj code).symm, newline⟩
  split at code
  case isTrue visible =>
    cases code
    exact .inr visible.1
  case isFalse =>
    obtain ⟨i, -, rfl⟩ := Option.map_eq_some_iff.mp code
    unfold extraFirst
    exact .inr (by omega)

/-- The letter of a character: its code, if it is no newline and has a code of one byte. -/
def letterOf? (t : TextTables) (c : Char) : Option Byte :=
  if c = '\n' ∨ c = '\r' then none
  else (t.zsciiOfChar c).bind fun code => if code ≤ 255 then some code.toUInt8 else none

/-- The letters of a line, in lower case. -/
def lineLetters (t : TextTables) (line : List Char) : List Byte :=
  (lowercaseText line).filterMap t.letterOf?

/-- No letter is a zero or a newline. -/
theorem ne_of_mem_lineLetters {line : List Char} {b : Byte} (mem : b ∈ t.lineLetters line) :
    b ≠ 0 ∧ b ≠ 13 := by
  obtain ⟨c, -, letter⟩ := List.mem_filterMap.mp mem
  unfold letterOf? at letter
  split at letter
  case isTrue => cases letter
  case isFalse inner =>
    obtain ⟨z, code, letter⟩ := Option.bind_eq_some_iff.mp letter
    split at letter
    case isFalse => cases letter
    case isTrue small =>
      cases letter
      have visible : 32 ≤ z := (code_of_zsciiOfChar code).resolve_left fun newline =>
        inner newline.2
      have value : z.toUInt8.toNat = z := UInt8.toNat_ofNat_of_lt' (Nat.lt_succ_of_le small)
      constructor
      all_goals
        intro same
        rw [same] at value
        exact absurd (value ▸ visible) (by decide)

end TextTables

namespace Machine

open TextTables

variable {t : TextTables}

/-- Line ends have no letters. -/
theorem lineLetters_lineEnd {ends : List Char} (newlines : ∀ c ∈ ends, c = '\n' ∨ c = '\r') :
    t.lineLetters ends = [] := by
  refine List.filterMap_eq_nil_iff.mpr fun c mem => ?_
  obtain ⟨d, among, lower⟩ := List.mem_flatMap.mp mem
  have same : c = d := by
    rcases newlines d among with rfl | rfl
    · exact List.mem_singleton.mp lower
    · exact List.mem_singleton.mp lower
  exact if_pos (same ▸ newlines d among)

theorem lineLetters_append (cs ds : List Char) :
    t.lineLetters (cs ++ ds) = t.lineLetters cs ++ t.lineLetters ds := by
  rw [lineLetters, lowercaseText, List.flatMap_append, List.filterMap_append]
  rfl

/-- Dropping the line ends beforehand makes no difference. -/
theorem lineLetters_dropLineEnd (line : List Char) :
    t.lineLetters (dropLineEnd line) = t.lineLetters line := by
  have parts : dropLineEnd line ++ line.rtakeWhile (fun c => c == '\n' || c == '\r') = line :=
    List.rdropWhile_append_rtakeWhile
  generalize dropped : line.rtakeWhile (fun c => c == '\n' || c == '\r') = ends at parts
  have newlines : ∀ c ∈ ends, c = '\n' ∨ c = '\r' := by
    intro c mem
    rw [← dropped] at mem
    simpa using List.mem_rtakeWhile_imp mem
  calc t.lineLetters (dropLineEnd line)
      = t.lineLetters (dropLineEnd line ++ ends) := by
        rw [lineLetters_append, lineLetters_lineEnd newlines, List.append_nil]
    _ = t.lineLetters line := by rw [parts]

/-- The codes of a typed line that are kept are those of the letters. -/
theorem typedLetters_eq (t : TextTables) (line : String) :
    typedLetters t line = t.lineLetters line.toList := by
  rw [← lineLetters_dropLineEnd, typedLetters, List.filterMap_filterMap, lineLetters]
  congr 1
  funext c
  unfold letterOf?
  cases code : t.zsciiOfChar c with
  | none => simp
  | some z =>
      rcases code_of_zsciiOfChar code with ⟨rfl, newline⟩ | visible
      · rw [if_pos newline]
        rfl
      · have inner : ¬(c = '\n' ∨ c = '\r') := by
          intro newline
          rw [zsciiOfChar, if_pos newline] at code
          cases code
          exact absurd visible (by decide)
        have other : z ≠ 13 := by omega
        simp [inner, other]

/-! ## Filling a buffer and reading it -/

/-- Number of letters for which there is room in a buffer that begins with a byte. -/
def lineRoom (version : Nat) (first : Byte) : Nat :=
  if version ≤ 4 then first.toNat - 1 else first.toNat

theorem run_lineCapacity (s : Machine) (buffer : Nat) (inside : buffer + 1 ≤ s.memory.size) :
    lineCapacity buffer s = .ok (lineRoom s.header.version (s.memory.byteAt buffer)) s := by
  have read : s.memory.readByte buffer = .ok (s.memory.byteAt buffer) :=
    Memory.readByte_eq_ok.mpr ⟨inside, rfl⟩
  unfold lineCapacity
  rw [run_bind, run_get]
  dsimp only
  rw [run_bind, run_ask, read]
  rfl

variable {m : Memory} {version buffer : Nat} {letters : List Byte}

/-- Up to version 4, letters before a zero are read back. -/
theorem bufferContents_ended (early : version ≤ 4)
    (inside : buffer + 1 + max (m.byteAt buffer).toNat 1 ≤ m.size)
    (holds : m.Holds (buffer + 1) (letters ++ [0]))
    (fits : letters.length + 1 ≤ max (m.byteAt buffer).toNat 1)
    (nonzero : ∀ b ∈ letters, b ≠ 0) : bufferContents m version buffer = .ok (letters, 1) := by
  have first : m.readByte buffer = .ok (m.byteAt buffer) :=
    Memory.readByte_eq_ok.mpr ⟨by omega, rfl⟩
  obtain ⟨bytes, read, length, holds'⟩ := Memory.exists_readBytes inside
  obtain ⟨rest, rfl⟩ := holds.isPrefix holds' (by simpa [length] using fits)
  have letters_only : (letters ++ [0] ++ rest).takeWhile (· != 0) = letters := by
    rw [List.append_assoc, List.takeWhile_append_of_pos fun b mem => bne_iff_ne.mpr (nonzero b mem)]
    simp
  unfold bufferContents
  rw [if_neg (by omega), first]
  simp only [Bind.bind, Except.bind, read, letters_only]
  rfl

/-- From version 5 on, as many letters as were counted are read back. -/
theorem bufferContents_counted (late : 5 ≤ version) (inside : buffer + 2 + letters.length ≤ m.size)
    (count : m.byteAt (buffer + 1) = letters.length.toUInt8) (small : letters.length < 256)
    (holds : m.Holds (buffer + 2) letters) :
    bufferContents m version buffer = .ok (letters, 2) := by
  have first : m.readByte (buffer + 1) = .ok letters.length.toUInt8 :=
    Memory.readByte_eq_ok.mpr ⟨by omega, count⟩
  obtain ⟨bytes, read, length, holds'⟩ := Memory.exists_readBytes inside
  obtain ⟨rest, rfl⟩ := holds.isPrefix holds' length.ge
  obtain rfl : rest = [] := List.eq_nil_of_length_eq_zero (by simpa using length)
  unfold bufferContents
  rw [if_pos late, first]
  simp only [Bind.bind, Except.bind, UInt8.toNat_ofNat_of_lt' small, read]
  rw [List.append_nil]
  rfl

/-- Letters for which there is room are put into a buffer, from which they are read; nothing else in
the image changes. -/
theorem fillBuffer_readsBack (fits : letters.length ≤ lineRoom version (m.byteAt buffer))
    (inside : buffer + 1 + ((m.byteAt buffer).toNat + 1) ≤ m.size)
    (nonzero : ∀ b ∈ letters, b ≠ 0) :
    ∃ m', fillBuffer version buffer letters m = .ok () m' ∧
      bufferContents m' version buffer = .ok (letters, if version ≤ 4 then 1 else 2) ∧
      m.Agrees (fun x => x < buffer + 1 ∨ buffer + 1 + (m.byteAt buffer).toNat < x) m' := by
  unfold lineRoom at fits
  unfold fillBuffer
  by_cases early : version ≤ 4
  -- The letters, and then a zero behind them.
  · rw [if_pos early] at fits
    obtain ⟨m₁, wrote, holds, kept⟩ := MemoryM.exists_writeBytes m (buffer + 1) letters (by omega)
    obtain ⟨m₂, ended, zero, kept'⟩ :=
      MemoryM.exists_writeBytes m₁ (buffer + 1 + letters.length) [0]
      (by rw [kept.size, List.length_singleton]; omega)
    have first : m₂.byteAt buffer = m.byteAt buffer :=
      (kept'.bytes _ (.inl (by omega))).trans (kept.bytes _ (.inl (by omega)))
    have size : m₂.size = m.size := kept'.size.trans kept.size
    refine ⟨m₂, ?_, ?_, kept.mono ?_ |>.trans (kept'.mono ?_)⟩
    · rw [if_pos early, run_bind, wrote]
      exact ended
    · rw [if_pos early]
      refine bufferContents_ended early (by rw [first]; omega) (Memory.holds_append.mpr ⟨?_, zero⟩)
        (by rw [first]; omega) nonzero
      exact holds.congr kept'.size fun x _ high => kept'.bytes x (.inl (by omega))
    · intro x outside
      omega
    · intro x outside
      rw [List.length_singleton]
      omega
  -- The number of letters, and then the letters behind it.
  · rw [if_neg early] at fits
    have small : letters.length < 256 := Nat.lt_of_le_of_lt fits (UInt8.toNat_lt _)
    obtain ⟨m₁, counted, count, kept⟩ :=
      MemoryM.exists_writeBytes m (buffer + 1) [letters.length.toUInt8]
      (by rw [List.length_singleton]; omega)
    obtain ⟨m₂, wrote, holds, kept'⟩ := MemoryM.exists_writeBytes m₁ (buffer + 2) letters
      (by rw [kept.size]; omega)
    have size : m₂.size = m.size := kept'.size.trans kept.size
    refine ⟨m₂, ?_, ?_, kept.mono ?_ |>.trans (kept'.mono ?_)⟩
    · rw [if_neg early, run_bind]
      unfold MemoryM.writeByte
      rw [counted]
      exact wrote
    · rw [if_neg early]
      refine bufferContents_counted (Nat.lt_of_not_le early) (by omega) ?_ small holds
      exact (kept'.bytes _ (.inl (by omega))).trans count.2.1
    · intro x outside
      rw [List.length_singleton]
      omega
    · intro x outside
      omega

/-- A typed line goes into a text buffer, and no further than the buffer reaches.  What is
read from the buffer then are the first letters of the line in lower case, as many as the
buffer has room for. -/
theorem finishLine_readsBack (s : Machine) (buffer : Nat) (line : String)
    (inside : buffer + 1 + ((s.memory.byteAt buffer).toNat + 1) ≤ s.memory.size) :
    ∃ capacity m, lineCapacity buffer s = .ok capacity s ∧
      finishLine buffer 0 line s = .ok 13 { s with memory := m } ∧
      bufferContents m s.header.version buffer
        = .ok ((s.text.lineLetters line.toList).take capacity,
          if s.header.version ≤ 4 then 1 else 2) ∧
      (∀ b ∈ s.text.lineLetters line.toList, b ≠ 0 ∧ b ≠ 13) ∧
      s.memory.Agrees (fun x => x < buffer + 1 ∨
        buffer + 1 + (s.memory.byteAt buffer).toNat < x) m := by
  have capacity := run_lineCapacity s buffer (by omega)
  have letters (b : Byte) (mem : b ∈ s.text.lineLetters line.toList) := ne_of_mem_lineLetters mem
  obtain ⟨m, filled, readsBack, kept⟩ := fillBuffer_readsBack (List.length_take_le _ _) inside
    fun b mem => (letters b (List.mem_of_mem_take mem)).1
  refine ⟨_, m, capacity, ?_, readsBack, letters, kept⟩
  unfold finishLine
  rw [run_bind, capacity]
  dsimp only
  rw [run_bind, run_get]
  dsimp only
  rw [run_bind, run_get]
  dsimp only
  rw [typedLetters_eq, run_bind, run_inMemory, filled]
  rfl

/-- Machines of versions 3 and 5 with a buffer for three bytes. -/
def withBuffer (version : Nat) : Machine :=
  { (default : Machine) with
    memory := .ofBytes #[3, 0, 0, 0, 0], header := { (default : Header) with version := version } }

/-- A line that is too long is cut to the two or three letters that there is room for. -/
theorem finishLine_readsBack_cut :
    (∃ m, finishLine 0 0 "Look\n" (withBuffer 3) = .ok 13 { withBuffer 3 with memory := m } ∧
      bufferContents m 3 0 = .ok ([108, 111], 1)) ∧
    ∃ m, finishLine 0 0 "Look\n" (withBuffer 5) = .ok 13 { withBuffer 5 with memory := m } ∧
      bufferContents m 5 0 = .ok ([108, 111, 111], 2) := by
  constructor
  · obtain ⟨capacity, m, room, ran, readsBack, -⟩ :=
      finishLine_readsBack (withBuffer 3) 0 "Look\n" (by decide)
    obtain rfl : 2 = capacity := by cases room; rfl
    exact ⟨m, ran, readsBack.trans (by decide +kernel)⟩
  · obtain ⟨capacity, m, room, ran, readsBack, -⟩ :=
      finishLine_readsBack (withBuffer 5) 0 "Look\n" (by decide)
    obtain rfl : 3 = capacity := by cases room; rfl
    exact ⟨m, ran, readsBack.trans (by decide +kernel)⟩

end Machine

end ZMachine
