/-
  Numbers drawn from a source.

  A source shuffles its state or counts.  Each step of shuffling adds to the
  state, bit by bit, what is left of it after a shift; this can be undone, so
  the state never becomes zero, and because some sum of later states is zero
  for every state, no other state is shuffled into itself.  A count stays
  between one and its limit.  So the arithmetic of drawing, carried out
  exactly, never leaves the range of words.
-/
import Mathlib.Algebra.Group.Nat.Defs
import Mathlib.Logic.Function.Basic
import ZMachine.Random

namespace ZMachine

/-! ## Shifts -/

section Shifts

variable {w s : Nat} {x : BitVec w}

/-- Only zero is left as it is by a shift: repeated often enough, the shift leaves nothing. -/
theorem eq_zero_of_shiftLeft (pos : 0 < s) (same : x <<< s = x) : x = 0#w := by
  have often (k : Nat) : x <<< (k * s) = x := by
    induction k with
    | zero => simp
    | succ k ih => rw [Nat.succ_mul, BitVec.shiftLeft_add, ih, same]
  rw [← often w]
  exact BitVec.shiftLeft_eq_zero (Nat.le_mul_of_pos_right w pos)

theorem eq_zero_of_shiftRight (pos : 0 < s) (same : x >>> s = x) : x = 0#w := by
  have often (k : Nat) : x >>> (k * s) = x := by
    induction k with
    | zero => simp
    | succ k ih => rw [Nat.succ_mul, BitVec.shiftRight_add, ih, same]
  rw [← often w]
  exact BitVec.ushiftRight_eq_zero (Nat.le_mul_of_pos_right w pos)

end Shifts

/-! ## Maps that keep sums of bits -/

/-- Taking the highest bit away leaves a smaller number. -/
theorem xor_two_pow_lt {a n : Nat} (low : 2 ^ n ≤ a) (high : a < 2 ^ (n + 1)) :
    a ^^^ 2 ^ n < 2 ^ n := by
  apply Nat.lt_pow_two_of_testBit
  intro i bound
  rw [Nat.testBit_xor, Nat.testBit_two_pow]
  by_cases top : n = i
  · subst top
    have set : a.testBit n = true := Nat.testBit_of_two_pow_le_and_two_pow_add_one_gt low high
    simp [set]
  · have unset : a.testBit i = false :=
      Nat.testBit_lt_two_pow (Nat.lt_of_lt_of_le high (Nat.pow_le_pow_right (by omega) (by omega)))
    simp [unset, top]

/-- A map of states that keeps sums, taken bit by bit. -/
def KeepsSums (f : UInt64 → UInt64) : Prop := ∀ x y, f (x ^^^ y) = f x ^^^ f y

namespace KeepsSums

variable {f g : UInt64 → UInt64}

theorem map_zero (h : KeepsSums f) : f 0 = 0 := by
  have twice := h 0 0
  rwa [UInt64.xor_self, UInt64.xor_self] at twice

theorem comp (hf : KeepsSums f) (hg : KeepsSums g) : KeepsSums (f ∘ g) := fun x y => by
  simp only [Function.comp, hg x y, hf (g x) (g y)]

theorem add (hf : KeepsSums f) (hg : KeepsSums g) : KeepsSums fun x => f x ^^^ g x := fun x y => by
  simp only [hf x y, hg x y]
  ac_rfl

theorem injective (h : KeepsSums f) (kernel : ∀ x, f x = 0 → x = 0) : Function.Injective f := by
  intro x y same
  have sum : f (x ^^^ y) = 0 := by rw [h, same, UInt64.xor_self]
  exact UInt64.xor_eq_zero_iff.mp (kernel _ sum)

/-- A map that is zero for every single bit is zero. -/
theorem eq_zero (h : KeepsSums f) (bits : ∀ k < 64, f (.ofNat (2 ^ k)) = 0) (x : UInt64) :
    f x = 0 := by
  have upTo (n : Nat) (hn : n ≤ 64) (x : UInt64) (bound : x.toNat < 2 ^ n) : f x = 0 := by
    -- The bits of a state, from the highest one down.
    induction n generalizing x with
    | zero =>
        have zero : x = 0 := UInt64.toNat_inj.mp (by simpa using bound)
        rw [zero, h.map_zero]
    | succ n ih =>
        by_cases low : x.toNat < 2 ^ n
        · exact ih (by omega) x low
        · have inside : 2 ^ n < 2 ^ 64 := Nat.pow_lt_pow_right (by decide) (by omega)
          have power : (UInt64.ofNat (2 ^ n)).toNat = 2 ^ n := UInt64.toNat_ofNat_of_lt' inside
          have rest := ih (by omega) (x ^^^ .ofNat (2 ^ n)) (by
            rw [UInt64.toNat_xor, power]
            exact xor_two_pow_lt (by omega) bound)
          rwa [h, bits n (by omega), UInt64.xor_zero] at rest
  exact upTo 64 (Nat.le_refl _) x x.toNat_lt

end KeepsSums

/-! ## Shuffling -/

namespace RandomSource

/-- Add to a state what a shift to the left leaves of it. -/
def addLeft (s x : UInt64) : UInt64 := x ^^^ x <<< s

/-- Add to a state what a shift to the right leaves of it. -/
def addRight (s x : UInt64) : UInt64 := x ^^^ x >>> s

theorem shuffle_eq : shuffle = addLeft 17 ∘ addRight 7 ∘ addLeft 13 := rfl

theorem keepsSums_addLeft (s : UInt64) : KeepsSums (addLeft s) :=
  KeepsSums.add (fun _ _ => rfl) fun _ _ => UInt64.shiftLeft_xor

theorem keepsSums_addRight (s : UInt64) : KeepsSums (addRight s) :=
  KeepsSums.add (fun _ _ => rfl) fun _ _ => UInt64.shiftRight_xor

theorem keepsSums_shuffle : KeepsSums shuffle :=
  (keepsSums_addLeft 17).comp ((keepsSums_addRight 7).comp (keepsSums_addLeft 13))

theorem addLeft_injective {s : UInt64} (pos : 0 < s.toNat % 64) :
    Function.Injective (addLeft s) := by
  refine (keepsSums_addLeft s).injective fun x cancels => ?_
  have same : x <<< s = x := (UInt64.xor_eq_zero_iff.mp cancels).symm
  have bits : x.toBitVec <<< (s.toNat % 64) = x.toBitVec := by
    simpa using congrArg UInt64.toBitVec same
  exact UInt64.toBitVec_inj.mp (eq_zero_of_shiftLeft pos bits)

theorem addRight_injective {s : UInt64} (pos : 0 < s.toNat % 64) :
    Function.Injective (addRight s) := by
  refine (keepsSums_addRight s).injective fun x cancels => ?_
  have same : x >>> s = x := (UInt64.xor_eq_zero_iff.mp cancels).symm
  have bits : x.toBitVec >>> (s.toNat % 64) = x.toBitVec := by
    simpa using congrArg UInt64.toBitVec same
  exact UInt64.toBitVec_inj.mp (eq_zero_of_shiftRight pos bits)

/-- Shuffling can be undone. -/
theorem shuffle_injective : Function.Injective shuffle := by
  rw [shuffle_eq]
  exact (addLeft_injective (by decide)).comp
    ((addRight_injective (by decide)).comp (addLeft_injective (by decide)))

theorem shuffle_ne_zero {x : UInt64} (h : x ≠ 0) : shuffle x ≠ 0 :=
  keepsSums_shuffle.map_zero ▸ shuffle_injective.ne h

/-- The sum of the states after those numbers of steps, from 0 on, whose coefficient is set. -/
def sumOfStates (coefficients : List Bool) (x : UInt64) : UInt64 :=
  coefficients.foldr (fun c later => shuffle later ^^^ if c then x else 0) 0

theorem sumOfStates_cons (c : Bool) (rest : List Bool) (x : UInt64) :
    sumOfStates (c :: rest) x = shuffle (sumOfStates rest x) ^^^ if c then x else 0 := rfl

theorem keepsSums_sumOfStates (coefficients : List Bool) :
    KeepsSums (sumOfStates coefficients) := by
  induction coefficients with
  | nil => exact fun _ _ => UInt64.xor_self.symm
  | cons c rest ih =>
      have now : KeepsSums fun x => if c then x else 0 := by
        cases c
        · exact fun _ _ => UInt64.xor_self.symm
        · exact fun _ _ => rfl
      exact (keepsSums_shuffle.comp ih).add now

/-- Of a state that is shuffled into itself an even number of copies adds up to zero. -/
theorem sumOfStates_of_fixed {x : UInt64} (fixed : shuffle x = x) (coefficients : List Bool) :
    sumOfStates coefficients x = if coefficients.count true % 2 = 0 then 0 else x := by
  induction coefficients with
  | nil => rfl
  | cons c rest ih =>
      have zero : shuffle 0 = 0 := keepsSums_shuffle.map_zero
      rw [sumOfStates_cons, ih]
      cases c with
      | false =>
          rw [List.count_cons_of_ne (by decide), if_neg Bool.false_ne_true, UInt64.xor_zero]
          split
          · exact zero
          · exact fixed
      | true =>
          rw [List.count_cons_self, if_pos rfl]
          by_cases even : rest.count true % 2 = 0
          · rw [if_pos even, if_neg (by omega), zero, UInt64.zero_xor]
          · rw [if_neg even, if_pos (by omega), fixed, UInt64.xor_self]

/-- Coefficients of the characteristic polynomial of shuffling. -/
def characteristic : List Bool := (List.range 65).map (Nat.testBit 0x1013ed4a358913201)

theorem sumOfStates_characteristic (x : UInt64) : sumOfStates characteristic x = 0 :=
  (keepsSums_sumOfStates characteristic).eq_zero (by decide +kernel) x

/-- No state but zero is shuffled into itself: the characteristic polynomial has an odd number of
coefficients. -/
theorem shuffle_ne_self {x : UInt64} (h : x ≠ 0) : shuffle x ≠ x := by
  intro fixed
  have odd : ¬characteristic.count true % 2 = 0 := by decide
  have sum := sumOfStates_of_fixed fixed characteristic
  rw [if_neg odd, sumOfStates_characteristic] at sum
  exact h sum.symm

/-! ## Drawing and beginning anew -/

/-- What is kept about a source: its state is not zero, and a count stays between one and
its limit. -/
structure Sound (r : RandomSource) : Prop where
  state : r.state ≠ 0
  count : ∀ limit next, r.mode = .count limit next → 1 ≤ next ∧ next ≤ limit ∧ limit < 1000

variable {r : RandomSource}

theorem sound_seeded (seed : UInt64) (entropy : Entropy) : (seeded seed entropy).Sound where
  state := by
    unfold seeded
    dsimp only
    split
    · decide
    · assumption
  count := nofun

/-- Whatever the system answers, the source that it seeds is sound. -/
theorem sound_fresh (entropy : Entropy) : (fresh entropy).Sound := sound_seeded _ _

theorem Sound.next (h : r.Sound) (range : Word) : (r.next range).2.Sound := by
  unfold RandomSource.next
  dsimp only
  cases mode : r.mode with
  | shuffle => exact ⟨shuffle_ne_zero h.state, nofun⟩
  | count limit next =>
      obtain ⟨low, high, small⟩ := h.count limit next mode
      refine ⟨h.state, ?_⟩
      rintro _ _ ⟨⟩
      split <;> omega

theorem Sound.reseed (h : r.Sound) (argument : Int) : (r.reseed argument).Sound := by
  unfold RandomSource.reseed
  dsimp only
  split
  · exact sound_fresh r.entropy
  · split
    · refine ⟨h.state, ?_⟩
      rintro _ _ ⟨⟩
      omega
    · exact sound_seeded _ _

/-- The number that is brought into the range when one is drawn. -/
def raw (r : RandomSource) : Nat :=
  match r.mode with
  | .shuffle => (shuffle r.state).toNat
  | .count _ next => next - 1

theorem toNat_next (r : RandomSource) (range : Word) :
    (r.next range).1.toNat = r.raw % max range.toNat 1 + 1 := by
  have below : r.raw % max range.toNat 1 + 1 < 2 ^ 16 := by
    have := Nat.mod_lt r.raw (Nat.lt_of_lt_of_le Nat.one_pos (Nat.le_max_right range.toNat 1))
    have := range.toNat_lt
    omega
  have value : (r.next range).1 = (r.raw % max range.toNat 1 + 1).toUInt16 := by
    unfold RandomSource.next raw
    cases r.mode <;> rfl
  rw [value]
  exact UInt16.toNat_ofNat_of_lt' below

/-- Range 0 counts as 1, in words as in numbers. -/
theorem toNat_max_one (range : Word) : (max range 1).toNat = max range.toNat 1 := by
  have one : (1 : Word).toNat = 1 := rfl
  change (if range ≤ 1 then 1 else range : Word).toNat = _
  split
  · rename_i le
    rw [UInt16.le_iff_toNat_le] at le
    omega
  · rename_i le
    rw [UInt16.le_iff_toNat_le] at le
    omega

/-- A number drawn lies between one and the range. -/
theorem next_mem (r : RandomSource) (range : Word) :
    1 ≤ (r.next range).1 ∧ (r.next range).1 ≤ max range 1 := by
  have bound := Nat.mod_lt r.raw (Nat.lt_of_lt_of_le Nat.one_pos (Nat.le_max_right range.toNat 1))
  constructor
  · rw [UInt16.le_iff_toNat_le, toNat_next]
    exact Nat.le_add_left 1 _
  · rw [UInt16.le_iff_toNat_le, toNat_next, toNat_max_one]
    exact bound

end RandomSource

/-! ## Arithmetic that gives up -/

/-- The word of a number, if it is one. -/
def Word.ofInt? : Int → Option Word
  | .ofNat n => if n < 65536 then some n.toUInt16 else none
  | .negSucc _ => none

theorem Word.ofInt?_eq {n : Int} {k : Nat} (value : n = k) (small : k < 65536) :
    Word.ofInt? n = some k.toUInt16 := by
  subst value
  exact if_pos small

namespace RandomSource

variable {r : RandomSource}

/-- Draw a number, giving up where one on the way is no word or where nothing can be divided by. -/
def next? (r : RandomSource) (range : Word) : Option (Word × RandomSource) := do
  let range := max range 1
  guard (range ≠ 0)
  match r.mode with
  | .count limit next =>
      let before ← Word.ofInt? (next - 1)
      let w ← Word.ofInt? ((before % range).toNat + 1)
      let following ← if limit ≤ next then some 1 else Word.ofInt? (next + 1)
      return (w, { r with mode := .count limit following.toNat })
  | .shuffle =>
      let x := shuffle r.state
      let rest ← Word.ofInt? (x % range.toUInt64).toNat
      let w ← Word.ofInt? (rest.toNat + 1)
      return (w, { r with state := x })

/-- Begin anew, giving up where the magnitude is no word. -/
def reseed? (r : RandomSource) (argument : Int) : Option RandomSource := do
  let magnitude ← Word.ofInt? argument.natAbs
  if magnitude = 0 then return fresh r.entropy
  else if magnitude < 1000 then return { r with mode := .count magnitude.toNat 1 }
  else return seeded magnitude.toUInt64 r.entropy

theorem pos_max_one (range : Word) : 0 < (max range 1).toNat := by
  have := toNat_max_one range
  omega

/-- There is always something to divide by. -/
theorem guard_max_one (range : Word) : (guard (max range 1 ≠ 0) : Option Unit) = some () := by
  refine if_pos fun zero => ?_
  have positive := pos_max_one range
  rw [zero] at positive
  exact absurd positive (by decide)

theorem next?_of_shuffle (mode : r.mode = .shuffle) (range : Word) :
    r.next? range = some (r.next range) := by
  have bound : (max range 1).toNat < 65536 := (max range 1).toNat_lt
  have below := Nat.mod_lt (shuffle r.state).toNat (pos_max_one range)
  have rest : (shuffle r.state % (max range 1).toUInt64).toNat
      = (shuffle r.state).toNat % (max range 1).toNat := by
    rw [UInt64.toNat_mod, UInt16.toNat_toUInt64]
  have narrow := Word.ofInt?_eq (congrArg Nat.cast rest) (by omega)
  have sum : Word.ofInt? (((shuffle r.state).toNat % (max range 1).toNat).toUInt16.toNat + 1)
      = some ((shuffle r.state).toNat % (max range 1).toNat + 1).toUInt16 :=
    Word.ofInt?_eq (by rw [UInt16.toNat_ofNat_of_lt' (show _ < 65536 by omega)]; rfl) (by omega)
  unfold next? RandomSource.next
  dsimp only
  rw [guard_max_one, ← toNat_max_one, mode]
  simp only [narrow, sum, Option.pure_def, Option.bind_eq_bind, Option.bind_some]

theorem next?_of_count {limit next : Nat} (mode : r.mode = .count limit next) (low : 1 ≤ next)
    (high : next ≤ limit) (small : limit < 1000) (range : Word) :
    r.next? range = some (r.next range) := by
  have bound : (max range 1).toNat < 65536 := (max range 1).toNat_lt
  have below := Nat.mod_lt (next - 1) (pos_max_one range)
  have before : Word.ofInt? ((next : Int) - 1) = some (next - 1).toUInt16 :=
    Word.ofInt?_eq (by omega) (by omega)
  have rest : ((next - 1).toUInt16 % max range 1).toNat = (next - 1) % (max range 1).toNat := by
    rw [UInt16.toNat_mod, UInt16.toNat_ofNat_of_lt' (show next - 1 < 65536 by omega)]
  have sum : Word.ofInt? (((next - 1).toUInt16 % max range 1).toNat + 1)
      = some ((next - 1) % (max range 1).toNat + 1).toUInt16 :=
    Word.ofInt?_eq (by rw [rest]; rfl) (by omega)
  unfold next? RandomSource.next
  dsimp only
  rw [guard_max_one, ← toNat_max_one, mode]
  simp only [before, sum, Option.pure_def, Option.bind_eq_bind, Option.bind_some]
  by_cases full : limit ≤ next
  · rw [if_pos full, if_pos full]
    rfl
  · have following : Word.ofInt? ((next : Int) + 1) = some (next + 1).toUInt16 :=
      Word.ofInt?_eq rfl (by omega)
    have kept : (next + 1).toUInt16.toNat = next + 1 :=
      UInt16.toNat_ofNat_of_lt' (show next + 1 < 65536 by omega)
    rw [if_neg full, if_neg full, following, Option.bind_some, kept]

/-- Drawing from a source that is sound never gives up. -/
theorem Sound.next?_eq (h : r.Sound) (range : Word) : r.next? range = some (r.next range) := by
  cases mode : r.mode with
  | shuffle => exact next?_of_shuffle mode range
  | count limit next =>
      obtain ⟨low, high, small⟩ := h.count limit next mode
      exact next?_of_count mode low high small range

theorem reseed?_eq (r : RandomSource) (argument : Int16) :
    r.reseed? argument.toInt = some (r.reseed argument.toInt) := by
  have high := argument.toInt_lt
  have low := argument.le_toInt
  -- Even the least argument has an absolute value that a word can hold.
  have word : argument.toInt.natAbs < 65536 := by omega
  unfold reseed? RandomSource.reseed
  rw [Word.ofInt?_eq rfl word]
  have value := UInt16.toNat_ofNat_of_lt' word
  have zero : argument.toInt.natAbs.toUInt16 = 0 ↔ argument.toInt.natAbs = 0 := by
    rw [← UInt16.toNat_inj, value]
    rfl
  have small : argument.toInt.natAbs.toUInt16 < 1000 ↔ argument.toInt.natAbs < 1000 := by
    rw [UInt16.lt_iff_toNat_lt, value]
    rfl
  have wide : argument.toInt.natAbs.toUInt16.toUInt64 = argument.toInt.natAbs.toUInt64 := by
    rw [← UInt64.toNat_inj, UInt16.toNat_toUInt64, value]
    exact (UInt64.toNat_ofNat_of_lt' (Nat.lt_trans word (by decide))).symm
  simp only [Option.bind_eq_bind, Option.bind_some, zero, small, value, wide, Option.pure_def]
  split
  · rfl
  · split <;> rfl

end RandomSource

/-! ## Requests -/

/-- What a source is asked for: a number up to a range, or to begin anew. -/
inductive RandomRequest where
  | draw (range : Word)
  | reseed (argument : Int16)
deriving DecidableEq

namespace RandomSource

variable {r : RandomSource}

/-- The numbers drawn by requests, each with its range, and the source after them. -/
def run (r : RandomSource) : List RandomRequest → List (Word × Word) × RandomSource
  | [] => ([], r)
  | .draw range :: rest =>
      let (w, r) := r.next range
      let (drawn, r) := run r rest
      ((range, w) :: drawn, r)
  | .reseed argument :: rest => run (r.reseed argument.toInt) rest

/-- The same, giving up where arithmetic leaves the range of words. -/
def run? (r : RandomSource) : List RandomRequest → Option (List (Word × Word) × RandomSource)
  | [] => some ([], r)
  | .draw range :: rest => do
      let (w, r) ← r.next? range
      let (drawn, r) ← run? r rest
      return ((range, w) :: drawn, r)
  | .reseed argument :: rest => do run? (← r.reseed? argument.toInt) rest

theorem run_draw (r : RandomSource) (range : Word) (rest : List RandomRequest) :
    r.run (.draw range :: rest) =
      ((range, (r.next range).1) :: ((r.next range).2.run rest).1, ((r.next range).2.run rest).2) :=
    rfl

theorem Sound.run (h : r.Sound) (requests : List RandomRequest) : (r.run requests).2.Sound := by
  induction requests generalizing r with
  | nil => exact h
  | cons request rest ih =>
      cases request with
      | draw range => exact ih (h.next range)
      | reseed argument => exact ih (h.reseed argument.toInt)

/-- However a source that is sound is used, its arithmetic stays among the words. -/
theorem Sound.run?_eq (h : r.Sound) (requests : List RandomRequest) :
    r.run? requests = some (r.run requests) := by
  induction requests generalizing r with
  | nil => rfl
  | cons request rest ih =>
      cases request with
      | draw range =>
          rw [run?, h.next?_eq range, Option.bind_eq_bind, Option.bind_some]
          dsimp only
          rw [ih (h.next range)]
          rfl
      | reseed argument =>
          rw [run?, reseed?_eq, Option.bind_eq_bind, Option.bind_some]
          exact ih (h.reseed argument.toInt)

theorem within_of_mem_run {requests : List RandomRequest} {p : Word × Word}
    (drawn : p ∈ (r.run requests).1) : 1 ≤ p.2 ∧ p.2 ≤ max p.1 1 := by
  induction requests generalizing r with
  | nil => cases drawn
  | cons request rest ih =>
      cases request with
      | draw range =>
          rw [run_draw] at drawn
          rcases List.mem_cons.mp drawn with rfl | later
          · exact r.next_mem range
          · exact ih later
      | reseed argument => exact ih drawn

/-- After the count that is one more than `k % n` comes the one for `k + 1`. -/
theorem count_succ {n k : Nat} (positive : 1 ≤ n) :
    (if n ≤ k % n + 1 then 1 else k % n + 1 + 1) = (k + 1) % n + 1 := by
  have below : k % n < n := Nat.mod_lt k positive
  have step : (k + 1) % n = (k % n + 1) % n := (Nat.mod_add_mod k n 1).symm
  rw [step]
  split
  · have full : k % n + 1 = n := by omega
    rw [full, Nat.mod_self]
  · have more : k % n + 1 < n := by omega
    rw [Nat.mod_eq_of_lt more]

/-- A source that counts up to `n` and comes to the count after `k` goes through the counts. -/
theorem run_draws {n : Nat} (positive : 1 ≤ n) (ranges : List Word) (k : Nat)
    (mode : r.mode = .count n (k % n + 1)) :
    (r.run (ranges.map .draw)).1.map (fun p => p.2.toNat)
      = ranges.mapIdx fun i range => (k + i) % n % max range.toNat 1 + 1 := by
  induction ranges generalizing r k with
  | nil => rfl
  | cons range rest ih =>
      have first : (r.next range).1.toNat = k % n % max range.toNat 1 + 1 := by
        rw [toNat_next, raw, mode]
        rfl
      have later : (r.next range).2.mode = .count n ((k + 1) % n + 1) := by
        rw [← count_succ positive, RandomSource.next, mode]
      have shifted : (fun i range => (k + 1 + i) % n % max range.toNat 1 + 1 : Nat → Word → Nat)
          = fun i range => (k + (i + 1)) % n % max range.toNat 1 + 1 := by
        funext i range
        rw [Nat.add_assoc, Nat.add_comm 1 i]
      rw [List.map_cons, run_draw, List.map_cons, first, ih (k + 1) later, shifted,
        List.mapIdx_cons]
      rfl

/-- The numbers drawn after beginning anew with a small negative argument. -/
theorem run_reseed {n : Nat} (positive : 1 ≤ n) (small : n < 1000) (ranges : List Word) :
    (r.run (.reseed (.ofInt (-n)) :: ranges.map .draw)).1.map (fun p => p.2.toNat)
      = ranges.mapIdx fun k range => k % n % max range.toNat 1 + 1 := by
  have argument : (Int16.ofInt (-n)).toInt = -n :=
    Int16.toInt_ofInt_of_le (by omega) (by omega)
  have magnitude : (-(n : Int)).natAbs = n := by omega
  have mode : (r.reseed (-n)).mode = .count n (0 % n + 1) := by
    rw [reseed, magnitude, if_neg (by omega), if_pos small, Nat.zero_mod]
  have drawn := run_draws positive ranges 0 mode
  rw [run, argument, drawn]
  simp only [Nat.zero_add]

/-- Whatever a source is asked for, from whatever seed on and whatever the system answers
when it is asked for another one: its arithmetic never leaves the words, every number
drawn lies between one and its range, and the state is neither zero nor shuffled into
itself.  After beginning anew with `-n` the counts from 1 to `n` come round and round,
each of them brought into the range that is asked for. -/
theorem draws_in_range (seed : UInt64) (entropy : Entropy) (requests : List RandomRequest) :
    (seeded seed entropy).run? requests = some ((seeded seed entropy).run requests) ∧
    (∀ p ∈ ((seeded seed entropy).run requests).1, 1 ≤ p.2 ∧ p.2 ≤ max p.1 1) ∧
    ((seeded seed entropy).run requests).2.state ≠ 0 ∧
    shuffle ((seeded seed entropy).run requests).2.state
      ≠ ((seeded seed entropy).run requests).2.state ∧
    ∀ n : Nat, 1 ≤ n → n < 1000 → ∀ ranges : List Word,
      (((seeded seed entropy).run requests).2.run
          (.reseed (.ofInt (-n)) :: ranges.map .draw)).1.map (fun p => p.2.toNat)
        = ranges.mapIdx fun k range => k % n % max range.toNat 1 + 1 := by
  have sound := sound_seeded seed entropy
  have state := (sound.run requests).state
  refine ⟨sound.run?_eq requests, fun p drawn => within_of_mem_run drawn, state,
    shuffle_ne_self state, ?_⟩
  intro n positive small ranges
  exact run_reseed positive small ranges

/-- Counting to three, with ranges that change, in the middle of other requests. -/
theorem draws_in_range_three : (1 ≤ 3 ∧ 3 < 1000) ∧
    (((seeded 0 fun _ => some 5).run [.draw 6, .reseed 0, .draw 100, .reseed 7]).2.run
        (.reseed (.ofInt (-(3 : Nat))) :: [10, 10, 2, 0, 10].map .draw)).1.map (fun p => p.2.toNat)
      = [1, 2, 1, 1, 2] := by
  obtain ⟨-, -, -, -, counts⟩ :=
    draws_in_range 0 (fun _ => some 5) [.draw 6, .reseed 0, .draw 100, .reseed 7]
  exact ⟨by decide, counts 3 (by decide) (by decide) [10, 10, 2, 0, 10]⟩

end RandomSource

end ZMachine
