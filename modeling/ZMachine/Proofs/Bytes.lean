/-
  The bytes of the image under writes.

  A write that fits replaces a run of bytes and leaves the size and all
  other bytes alone; a write that does not fit leaves everything alone.
-/
import ZMachine.Memory.Action

namespace ZMachine

/-! ## Overwriting a run of bytes -/

@[simp] theorem size_overwrite (bytes : Array Byte) (a : Nat) (bs : List Byte) :
    (overwrite bytes a bs).size = bytes.size := by
  induction bs generalizing bytes a with
  | nil => rfl
  | cons b bs ih => rw [overwrite, ih, Array.size_setIfInBounds]

/-- Bytes before the run stay. -/
theorem getD_overwrite_of_lt (bytes : Array Byte) (a x : Nat) (bs : List Byte) (h : x < a) :
    (overwrite bytes a bs).getD x 0 = bytes.getD x 0 := by
  induction bs generalizing bytes a with
  | nil => rfl
  | cons b bs ih =>
      rw [overwrite, ih _ _ (by omega)]
      rw [Array.getD_eq_getD_getElem?, Array.getElem?_setIfInBounds,
        Array.getD_eq_getD_getElem?, if_neg (by omega)]

/-- Bytes after the run stay. -/
theorem getD_overwrite_of_ge (bytes : Array Byte) (a x : Nat) (bs : List Byte)
    (h : a + bs.length ≤ x) : (overwrite bytes a bs).getD x 0 = bytes.getD x 0 := by
  induction bs generalizing bytes a with
  | nil => rfl
  | cons b bs ih =>
      rw [List.length_cons] at h
      rw [overwrite, ih _ _ (by omega)]
      rw [Array.getD_eq_getD_getElem?, Array.getElem?_setIfInBounds,
        Array.getD_eq_getD_getElem?, if_neg (by omega)]

/-- Bytes of the run are the new ones. -/
theorem getD_overwrite_of_mem (bytes : Array Byte) (a x : Nat) (bs : List Byte) (low : a ≤ x)
    (high : x < a + bs.length) (fits : a + bs.length ≤ bytes.size) :
    (overwrite bytes a bs).getD x 0 = bs.getD (x - a) 0 := by
  induction bs generalizing bytes a with
  | nil =>
      rw [List.length_nil] at high
      omega
  | cons b bs ih =>
      rw [List.length_cons] at high fits
      rw [overwrite]
      rcases Nat.eq_or_lt_of_le low with rfl | low
      · rw [getD_overwrite_of_lt _ _ _ _ (Nat.lt_succ_self a)]
        simp [Array.getD_eq_getD_getElem?, (by omega : a < bytes.size)]
      · rw [ih _ _ low (by omega) (by rw [Array.size_setIfInBounds]; omega)]
        obtain ⟨k, rfl⟩ : ∃ k, x = a + 1 + k := ⟨x - (a + 1), by omega⟩
        rw [show a + 1 + k - (a + 1) = k by omega, show a + 1 + k - a = k + 1 by omega]
        rfl

/-! ## The bytes of a word -/

/-- Overwriting all bytes leaves the new ones. -/
theorem overwrite_whole {bytes new : Array Byte} (size : new.size = bytes.size) :
    overwrite bytes 0 new.toList = new := by
  apply Array.ext (by rw [size_overwrite, size])
  intro x hx hx'
  have placed := getD_overwrite_of_mem bytes 0 x new.toList (Nat.zero_le x) (by simpa using hx')
    (by simp [size])
  simpa [Array.getD, hx', size ▸ hx', List.getD] using placed

/-- A mask of one bit tells whether it is set. -/
theorem and_bit_eq_zero (n k : Nat) : n &&& 1 <<< k = 0 ↔ n.testBit k = false := by
  rw [Nat.one_shiftLeft]
  constructor
  · intro zero
    have clear := congrArg (Nat.testBit · k) zero
    simpa [Nat.testBit_and, Nat.testBit_two_pow] using clear
  · intro clear
    apply Nat.eq_of_testBit_eq
    intro i
    rw [Nat.testBit_and, Nat.testBit_two_pow, Nat.zero_testBit]
    by_cases here : k = i
    · rw [← here, clear, Bool.false_and]
    · rw [decide_eq_false here, Bool.and_false]

theorem Word.ofBytes_bytes (w : Word) : Word.ofBytes (Word.hi w) (Word.lo w) = w := by
  unfold Word.ofBytes Word.hi Word.lo
  apply UInt16.toBitVec_inj.mp
  ext i hi
  simp only [UInt16.toBitVec_or, UInt16.toBitVec_shiftLeft, UInt8.toBitVec_toUInt16,
    UInt16.toBitVec_toUInt8, UInt16.toBitVec_shiftRight]
  by_cases h : i < 8
  · simp [h, BitVec.getLsbD_eq_getElem hi]
  · have shifted : 8 + (i - 8) = i := by omega
    have small : i - 8 < 8 := by omega
    simp [h, shifted, small, BitVec.getLsbD_eq_getElem hi]

theorem Word.hi_ofBytes (high low : Byte) : Word.hi (Word.ofBytes high low) = high := by
  unfold Word.ofBytes Word.hi
  apply UInt8.toBitVec_inj.mp
  ext i hi
  have inside : 8 + i < 16 := by omega
  have small : i < 16 := by omega
  have above : ¬8 + i < 8 := by omega
  simp [inside, small, above, BitVec.getLsbD_eq_getElem hi]

namespace Memory

/-! ## Reading -/

theorem check_eq_ok {m : Memory} {a len : Nat} :
    m.check a len = .ok () ↔ a + len ≤ m.size := by
  unfold check
  split <;> simp_all

theorem readByte_eq_ok {m : Memory} {a : Nat} {b : Byte} :
    m.readByte a = .ok b ↔ a + 1 ≤ m.size ∧ m.byteAt a = b := by
  unfold readByte check
  split
  case isTrue inside => simp [inside, bind, Except.bind, pure, Except.pure]
  case isFalse outside => simp [outside, bind, Except.bind]

theorem readWord_eq_ok {m : Memory} {a : Nat} {w : Word} :
    m.readWord a = .ok w ↔ a + 2 ≤ m.size ∧ m.wordAt a = w := by
  unfold readWord check
  split
  case isTrue inside => simp [inside, bind, Except.bind, pure, Except.pure]
  case isFalse outside => simp [outside, bind, Except.bind]

/-! ## Writing -/

@[simp] theorem bytes_commit (m : Memory) (a : Nat) (bs : List Byte) :
    (m.commit a bs).bytes = overwrite m.bytes a bs := by
  unfold commit
  split <;> rfl

@[simp] theorem size_commit (m : Memory) (a : Nat) (bs : List Byte) :
    (m.commit a bs).size = m.size := by
  rw [size, bytes_commit, size_overwrite, size]

/-- A write leaves the bytes outside of its run alone. -/
theorem byteAt_commit_of_outside (m : Memory) {a x : Nat} {bs : List Byte}
    (h : x < a ∨ a + bs.length ≤ x) : (m.commit a bs).byteAt x = m.byteAt x := by
  rw [byteAt, bytes_commit, byteAt]
  rcases h with h | h
  · exact getD_overwrite_of_lt m.bytes a x bs h
  · exact getD_overwrite_of_ge m.bytes a x bs h

/-- A write that fits puts its bytes into place. -/
theorem byteAt_commit_of_inside (m : Memory) {a x : Nat} {bs : List Byte} (low : a ≤ x)
    (high : x < a + bs.length) (fits : a + bs.length ≤ m.size) :
    (m.commit a bs).byteAt x = bs.getD (x - a) 0 := by
  rw [byteAt, bytes_commit]
  exact getD_overwrite_of_mem m.bytes a x bs low high fits

/-- A word is its two bytes. -/
theorem wordAt_congr {m m' : Memory} {a : Nat}
    (same : ∀ x, a ≤ x → x < a + 2 → m'.byteAt x = m.byteAt x) : m'.wordAt a = m.wordAt a := by
  rw [wordAt, wordAt, same a (Nat.le_refl a) (by omega), same (a + 1) (by omega) (by omega)]

/-- A word that was written is read. -/
theorem wordAt_commit (m : Memory) {a : Nat} (w : Word) (fits : a + 2 ≤ m.size) :
    (m.commit a (Word.bytes w)).wordAt a = w := by
  have length : (Word.bytes w).length = 2 := rfl
  unfold wordAt
  rw [m.byteAt_commit_of_inside (Nat.le_refl a) (by omega) (by omega),
    m.byteAt_commit_of_inside (Nat.le_add_right a 1) (by omega) (by omega)]
  simpa [Word.bytes] using Word.ofBytes_bytes w

/-- Images of one size with the same bytes at all addresses hold the same bytes. -/
theorem bytes_ext {m m' : Memory} (size : m.size = m'.size)
    (bytes : ∀ x, m.byteAt x = m'.byteAt x) : m.bytes = m'.bytes := by
  apply Array.ext size
  intro x hx hx'
  have := bytes x
  simpa [byteAt, Array.getD, hx, hx'] using this

/-! ## Images that agree -/

/-- An image of the same size that holds the same bytes at all places of `X`. -/
structure Agrees (X : Nat → Prop) (m₀ m : Memory) : Prop where
  size : m.size = m₀.size
  bytes : ∀ x, X x → m.byteAt x = m₀.byteAt x

namespace Agrees

variable {X Y : Nat → Prop} {m₀ m m' : Memory}

theorem refl (X : Nat → Prop) (m : Memory) : m.Agrees X m := ⟨rfl, fun _ _ => rfl⟩

theorem trans (h : m₀.Agrees X m) (h' : m.Agrees X m') : m₀.Agrees X m' :=
  ⟨h'.size.trans h.size, fun x hx => (h'.bytes x hx).trans (h.bytes x hx)⟩

theorem mono (h : m₀.Agrees X m) (fewer : ∀ x, Y x → X x) : m₀.Agrees Y m :=
  ⟨h.size, fun x hx => h.bytes x (fewer x hx)⟩

/-- A write keeps every place outside of its run. -/
theorem commit {a : Nat} {bs : List Byte} (m : Memory)
    (apart : ∀ x, X x → x < a ∨ a + bs.length ≤ x) : m.Agrees X (m.commit a bs) :=
  ⟨size_commit m a bs, fun x hx => byteAt_commit_of_outside m (apart x hx)⟩

/-- The same write in both images. -/
theorem both (h : m.Agrees X m') {a : Nat} {bs : List Byte} (fits : a + bs.length ≤ m.size) :
    (m.commit a bs).Agrees X (m'.commit a bs) where
  size := by rw [size_commit, size_commit, h.size]
  bytes := by
    intro x hx
    by_cases inside : a ≤ x ∧ x < a + bs.length
    · rw [byteAt_commit_of_inside m inside.1 inside.2 fits,
        byteAt_commit_of_inside m' inside.1 inside.2 (h.size ▸ fits)]
    · have outside : x < a ∨ a + bs.length ≤ x := by omega
      rw [byteAt_commit_of_outside m outside, byteAt_commit_of_outside m' outside]
      exact h.bytes x hx

theorem readByte (h : m.Agrees X m') {a : Nat} (here : X a) : m'.readByte a = m.readByte a := by
  rw [Memory.readByte, Memory.readByte, check, check, h.size, h.bytes a here]

theorem readWord (h : m.Agrees X m') {a : Nat} (here : X a) (next : X (a + 1)) :
    m'.readWord a = m.readWord a := by
  rw [Memory.readWord, Memory.readWord, check, check, h.size, wordAt, wordAt, h.bytes a here,
    h.bytes (a + 1) next]

/-- Words are read alike if all of their bytes are. -/
theorem readWords (h : m.Agrees X m') {a count : Nat}
    (here : ∀ x, a ≤ x → x < a + count * 2 → X x) : m'.readWords a count = m.readWords a count := by
  have words : (List.range count).map (fun i => m'.wordAt (a + i * 2))
      = (List.range count).map fun i => m.wordAt (a + i * 2) := by
    apply List.map_congr_left
    intro i mem
    have small := List.mem_range.mp mem
    rw [wordAt, wordAt, h.bytes _ (here _ (by omega) (by omega)),
      h.bytes _ (here _ (by omega) (by omega))]
  rw [Memory.readWords, Memory.readWords, check, check, h.size, words]

end Agrees

end Memory

/-! ## Writing actions -/

namespace MemoryM

theorem run_writeBytes {m : Memory} {a : Nat} {bs : List Byte} (nonempty : bs ≠ [])
    (fits : a + bs.length ≤ m.size) : writeBytes a bs m = .ok () (m.commit a bs) := by
  have inside : m.fits a bs.length = true := decide_eq_true fits
  unfold writeBytes
  rw [if_neg (by simpa using nonempty), if_pos inside]

theorem run_writeWord {m : Memory} {a : Nat} (w : Word) (fits : a + 2 ≤ m.size) :
    writeWord a w m = .ok () (m.commit a (Word.bytes w)) :=
  run_writeBytes (List.cons_ne_nil _ _) fits

end MemoryM

end ZMachine
