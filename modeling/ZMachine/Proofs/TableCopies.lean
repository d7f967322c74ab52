/-
  Copying a table.

  A table is copied byte by byte, and the source and the target may overlap.
  The outcome is given by what the bytes were before: a move that no overlap
  disturbs for a positive size, the effect of copying in ascending order for a
  negative one, and zeros if there is no target.
-/
import Mathlib.Logic.Function.Basic
import ZMachine.Proofs.Effects

namespace ZMachine

/-! ## Bytes that are copied in turn -/

/-- The bytes after those at some distances from `source` were copied, one after the other, to the
same distances from `target`. -/
def copiedInTurn (source target : Nat) (bytes : Nat → Byte) : List Nat → Nat → Byte
  | [] => bytes
  | i :: is =>
      copiedInTurn source target (Function.update bytes (target + i) (bytes (source + i))) is

variable {source target : Nat} {bytes : Nat → Byte} {is js : List Nat}

theorem copiedInTurn_append : copiedInTurn source target bytes (is ++ js) =
    copiedInTurn source target (copiedInTurn source target bytes is) js := by
  induction is generalizing bytes with
  | nil => rfl
  | cons i is ih => exact ih

/-- Only places of the target change. -/
theorem copiedInTurn_of_outside {x : Nat} (outside : ∀ i ∈ is, x ≠ target + i) :
    copiedInTurn source target bytes is x = bytes x := by
  induction is generalizing bytes with
  | nil => rfl
  | cons i is ih =>
      rw [copiedInTurn, ih fun j mem => outside j (List.mem_cons_of_mem _ mem)]
      exact Function.update_of_ne (outside i List.mem_cons_self) _ _

/-- If no byte is overwritten before it is copied, the target holds what the source held. -/
theorem copiedInTurn_of_apart
    (apart : is.Pairwise fun i j => i ≠ j ∧ target + i ≠ source + j) {i : Nat}
    (mem : i ∈ is) : copiedInTurn source target bytes is (target + i) = bytes (source + i) := by
  induction is generalizing bytes with
  | nil => cases mem
  | cons j is ih =>
      obtain ⟨later, apart⟩ := List.pairwise_cons.mp apart
      rw [copiedInTurn]
      rcases List.mem_cons.mp mem with rfl | mem
      · rw [copiedInTurn_of_outside fun k mem => by have := (later k mem).1; omega]
        exact Function.update_self _ _ _
      · rw [ih apart mem]
        exact Function.update_of_ne (later i mem).2.symm _ _

/-- In ascending order, nothing that is still to be copied is overwritten by a target
below the source. -/
theorem copiedInTurn_ascending (order : target ≤ source) {n i : Nat} (small : i < n) :
    copiedInTurn source target bytes (List.range n) (target + i) = bytes (source + i) := by
  refine copiedInTurn_of_apart ?_ (List.mem_range.mpr small)
  exact List.pairwise_lt_range.imp fun below => ⟨by omega, by omega⟩

/-- In descending order, nothing that is still to be copied is overwritten by a target
above the source. -/
theorem copiedInTurn_descending (order : source < target) {n i : Nat} (small : i < n) :
    copiedInTurn source target bytes (List.range n).reverse (target + i) = bytes (source + i) := by
  refine copiedInTurn_of_apart ?_ (List.mem_reverse.mpr (List.mem_range.mpr small))
  exact List.pairwise_reverse.mpr (List.pairwise_lt_range.imp fun below => ⟨by omega, by omega⟩)

/-- In ascending order, with the target above the source, the bytes between the two come again and
again. -/
theorem copiedInTurn_repeats (order : source < target) {n i : Nat} (small : i < n) :
    copiedInTurn source target bytes (List.range n) (target + i) =
      bytes (source + i % (target - source)) := by
  induction n generalizing i with
  | zero => omega
  | succ n ih =>
      rw [List.range_succ, copiedInTurn_append, copiedInTurn, copiedInTurn]
      by_cases last : i = n
      · rw [last, Function.update_self]
        by_cases fresh : n < target - source
        · rw [copiedInTurn_of_outside fun j _ => by omega, Nat.mod_eq_of_lt fresh]
        · -- The byte that is copied is itself a copy, as many bytes below.
          have earlier : source + n = target + (n - (target - source)) := by omega
          rw [earlier, ih (by omega), Nat.mod_eq_sub_mod (a := n) (Nat.le_of_not_lt fresh)]
      · rw [Function.update_of_ne (by omega), ih (by omega)]

/-! ## Storing bytes one after the other -/

theorem Memory.byteAt_commit_single {m : Memory} {a : Nat} (b : Byte) (fits : a + 1 ≤ m.size) :
    (m.commit a [b]).byteAt = Function.update m.byteAt a b := by
  funext x
  by_cases here : x = a
  · have placed : (m.commit a [b]).byteAt a = [b].getD (a - a) 0 :=
      m.byteAt_commit_of_inside (Nat.le_refl a) (Nat.lt_succ_self a) fits
    rw [here, Function.update_self, placed, Nat.sub_self]
    rfl
  · rw [Function.update_of_ne here,
      m.byteAt_commit_of_outside (by simp only [List.length_singleton]; omega)]

namespace Machine

/-- A byte is stored wherever it fits. -/
theorem run_storeByte_of_fits {a : Nat} (b : Byte) {s : Machine} (fits : a + 1 ≤ s.memory.size) :
    storeByte a b s = .ok () { s with
      memory := s.memory.commit a [b], code := s.code.invalidate a 1 } := by
  have written : MemoryM.writeByte a b s.memory = .ok () (s.memory.commit a [b]) :=
    MemoryM.run_writeBytes (List.cons_ne_nil _ _) fits
  rw [storeByte, run_bind, run_inMemory, written]
  rfl

theorem run_copyByte {source target : Nat} {s : Machine} (inside : source + 1 ≤ s.memory.size)
    (fits : target + 1 ≤ s.memory.size) :
    copyByte source target s = .ok () { s with
      memory := s.memory.commit target [s.memory.byteAt source]
      code := s.code.invalidate target 1 } := by
  have read : s.memory.readByte source = .ok (s.memory.byteAt source) :=
    Memory.readByte_eq_ok.mpr ⟨inside, rfl⟩
  rw [copyByte, run_bind, run_ask, read]
  exact run_storeByte_of_fits _ fits

/-- A loop that copies bytes within the image does as they are copied in turn. -/
theorem run_copyBytes (source target : Nat) (is : List Nat) {s : Machine}
    (inside : ∀ i ∈ is, source + i + 1 ≤ s.memory.size)
    (fits : ∀ i ∈ is, target + i + 1 ≤ s.memory.size) :
    ∃ m code, is.forM (fun i => copyByte (source + i) (target + i)) s
        = .ok () { s with memory := m, code := code } ∧
      m.size = s.memory.size ∧ m.byteAt = copiedInTurn source target s.memory.byteAt is := by
  induction is generalizing s with
  | nil => exact ⟨s.memory, s.code, rfl, rfl, rfl⟩
  | cons i is ih =>
      have first := fits i List.mem_cons_self
      have step := run_copyByte (inside i List.mem_cons_self) first
      -- The rest of the loop reads what has been written so far.
      obtain ⟨m, code, ran, size, bytes⟩ := ih (s := { s with
          memory := s.memory.commit (target + i) [s.memory.byteAt (source + i)]
          code := s.code.invalidate (target + i) 1 })
        (fun j mem => by simpa using inside j (List.mem_cons_of_mem _ mem))
        (fun j mem => by simpa using fits j (List.mem_cons_of_mem _ mem))
      refine ⟨m, code, ?_, by simpa using size, ?_⟩
      · show (copyByte (source + i) (target + i) >>= fun _ => is.forM _) s = _
        rw [run_bind, step]
        exact ran
      · rw [bytes, copiedInTurn, Memory.byteAt_commit_single _ first]

/-- A loop that stores zeros within the image. -/
theorem run_clearBytes {a : Nat} {is : List Nat} {s : Machine}
    (fits : ∀ i ∈ is, a + i + 1 ≤ s.memory.size) :
    ∃ m code, is.forM (fun i => storeByte (a + i) 0) s
      = .ok () { s with memory := m, code := code } ∧
      m.size = s.memory.size ∧ (∀ i ∈ is, m.byteAt (a + i) = 0) ∧
      ∀ x, (∀ i ∈ is, x ≠ a + i) → m.byteAt x = s.memory.byteAt x := by
  induction is generalizing s with
  | nil => exact ⟨s.memory, s.code, rfl, rfl, nofun, fun _ _ => rfl⟩
  | cons i is ih =>
      have first := fits i List.mem_cons_self
      have step := run_storeByte_of_fits 0 first
      obtain ⟨m, code, ran, size, zero, kept⟩ := ih (s := { s with
          memory := s.memory.commit (a + i) [0], code := s.code.invalidate (a + i) 1 })
        (fun j mem => by simpa using fits j (List.mem_cons_of_mem _ mem))
      have bytes := Memory.byteAt_commit_single 0 first
      refine ⟨m, code, ?_, by simpa using size, ?_, ?_⟩
      · show (storeByte (a + i) 0 >>= fun _ => is.forM _) s = _
        rw [run_bind, step]
        exact ran
      · intro j mem
        by_cases again : j ∈ is
        · exact zero j again
        · -- The first zero stays, as the others go elsewhere.
          obtain rfl : j = i := (List.mem_cons.mp mem).resolve_right again
          rw [kept (a + j) fun k mem same => again (Nat.add_left_cancel same ▸ mem), bytes]
          exact Function.update_self _ _ _
      · intro x outside
        rw [kept x fun j mem => outside j (List.mem_cons_of_mem _ mem), bytes]
        exact Function.update_of_ne (outside i List.mem_cons_self) _ _

/-! ## Copying a table -/

/-- What a table copied from `first` to `second` makes of an image.  The size tells the
number of bytes and, by its sign, whether an overlap is respected; without a second table
the first one is cleared. -/
structure TableCopied (m m' : Memory) (first second : Nat) (size : Int) : Prop where
  sized : m'.size = m.size
  /-- The bytes are moved, whatever the overlap is. -/
  moved : second ≠ 0 → 0 < size → ∀ i < size.natAbs, m'.byteAt (second + i) = m.byteAt (first + i)
  /-- The bytes are copied one at a time, the first one first. -/
  inTurn : second ≠ 0 → size < 0 →
    m'.byteAt = copiedInTurn first second m.byteAt (List.range size.natAbs)
  /-- A copy into the table itself is copied once more. -/
  repeats : second ≠ 0 → size < 0 → first < second → ∀ i < size.natAbs,
    m'.byteAt (second + i) = m.byteAt (first + i % (second - first))
  cleared : second = 0 → ∀ i < size.natAbs, m'.byteAt (first + i) = 0
  /-- All other bytes stay. -/
  kept : ∀ x, (∀ i < size.natAbs, x ≠ (if second = 0 then first else second) + i) →
    m'.byteAt x = m.byteAt x

/-- What is copied in ascending order, where nothing is undone by the overlap or the size is
negative. -/
theorem TableCopied.of_ascending {m m' : Memory} {first second : Nat} {size : Int}
    (sized : m'.size = m.size) (target : second ≠ 0) (order : size < 0 ∨ second ≤ first)
    (bytes : m'.byteAt = copiedInTurn first second m.byteAt (List.range size.natAbs)) :
    TableCopied m m' first second size where
  sized := sized
  moved := by
    intro _ positive i small
    rw [bytes, copiedInTurn_ascending (order.resolve_left (by omega)) small]
  inTurn := fun _ _ => bytes
  repeats := by
    intro _ _ below i small
    rw [bytes, copiedInTurn_repeats below small]
  cleared := fun zero => absurd zero target
  kept := by
    intro x outside
    rw [if_neg target] at outside
    rw [bytes, copiedInTurn_of_outside fun i mem => outside i (List.mem_range.mp mem)]

/-- What is copied in descending order, to a target above the source. -/
theorem TableCopied.of_descending {m m' : Memory} {first second : Nat} {size : Int}
    (sized : m'.size = m.size) (positive : ¬size < 0) (order : first < second)
    (bytes : m'.byteAt = copiedInTurn first second m.byteAt (List.range size.natAbs).reverse) :
    TableCopied m m' first second size where
  sized := sized
  moved := by
    intro _ _ i small
    rw [bytes, copiedInTurn_descending order small]
  inTurn := fun _ negative => absurd negative positive
  repeats := fun _ negative => absurd negative positive
  cleared := by omega
  kept := by
    intro x outside
    rw [if_neg (by omega)] at outside
    rw [bytes]
    exact copiedInTurn_of_outside fun i mem =>
      outside i (List.mem_range.mp (List.mem_reverse.mp mem))

/-- A table that is cleared. -/
theorem TableCopied.of_cleared {m m' : Memory} {first : Nat} {size : Int} (sized : m'.size = m.size)
    (zero : ∀ i ∈ List.range size.natAbs, m'.byteAt (first + i) = 0)
    (kept : ∀ x, (∀ i ∈ List.range size.natAbs, x ≠ first + i) → m'.byteAt x = m.byteAt x) :
    TableCopied m m' first 0 size where
  sized := sized
  moved := fun target => absurd rfl target
  inTurn := fun target => absurd rfl target
  repeats := fun target => absurd rfl target
  cleared := fun _ i small => zero i (List.mem_range.mpr small)
  kept := fun x outside => kept x fun i mem => outside i (List.mem_range.mp mem)

theorem run_copyTable {first second : Word} {size : Int} {s : Machine}
    (source : first.toNat + size.natAbs ≤ s.memory.size)
    (target : second.toNat + size.natAbs ≤ s.memory.size) :
    ∃ m code, copyTable first second size s = .ok () { s with memory := m, code := code } ∧
      TableCopied s.memory m first.toNat second.toNat size := by
  have within (a : Nat) (fits : a + size.natAbs ≤ s.memory.size) :
      ∀ i ∈ List.range size.natAbs, a + i + 1 ≤ s.memory.size := by
    intro i mem
    have small := List.mem_range.mp mem
    omega
  unfold copyTable
  -- Three loops: one that clears, and one for each direction in which bytes are copied.
  by_cases alone : second = 0
  · obtain ⟨m, code, ran, sized, zero, kept⟩ := run_clearBytes (within first.toNat source)
    refine ⟨m, code, ?_, ?_⟩
    · simp only [if_pos alone]
      exact ran
    · rw [alone]
      exact .of_cleared sized zero kept
  · have nonzero : second.toNat ≠ 0 := fun zero => alone (UInt16.toNat_inj.mp zero)
    by_cases order : size < 0 ∨ second ≤ first
    · obtain ⟨m, code, ran, sized, bytes⟩ := run_copyBytes _ _ _ (within _ source) (within _ target)
      refine ⟨m, code, ?_, .of_ascending sized nonzero
        (order.imp_right UInt16.le_iff_toNat_le.mp) bytes⟩
      simp only [if_neg alone, if_pos order]
      exact ran
    · obtain ⟨m, code, ran, sized, bytes⟩ := run_copyBytes first.toNat second.toNat
        (List.range size.natAbs).reverse
        (fun i mem => within _ source i (List.mem_reverse.mp mem))
        (fun i mem => within _ target i (List.mem_reverse.mp mem))
      obtain ⟨positive, above⟩ := not_or.mp order
      have below : first.toNat < second.toNat :=
        Nat.lt_of_not_le fun below => above (UInt16.le_iff_toNat_le.mpr below)
      refine ⟨m, code, ?_, .of_descending sized positive below bytes⟩
      simp only [if_neg alone, if_neg order]
      exact ran

/-- A table is copied exactly, for all sizes and overlaps within the image; nothing but the image,
and what was decoded from it, changes. -/
theorem copyTable_exact (s : Machine) (first second size : Word)
    (source : first.toNat + (Word.signed size).natAbs ≤ s.memory.size)
    (target : second.toNat + (Word.signed size).natAbs ≤ s.memory.size) :
    ∃ m code, perform .copyTable [first, second, size] s
        = .ok .done { s with memory := m, code := code } ∧
      TableCopied s.memory m first.toNat second.toNat (Word.signed size) := by
  obtain ⟨m, code, ran, copied⟩ := run_copyTable source target
  refine ⟨m, code, ?_, copied⟩
  show doing (copyTable first second (Word.signed size)) s = _
  rw [doing, run_bind, ran]
  rfl

/-- A machine with six bytes. -/
def sixBytes : Machine := { (default : Machine) with memory := .ofBytes #[7, 1, 2, 3, 4, 5] }

/-- Four bytes are moved up by one; with a negative size the first of them is repeated. -/
theorem copyTable_exact_overlap :
    (∃ m code, perform .copyTable [1, 2, 4] sixBytes
      = .ok .done { sixBytes with memory := m, code := code } ∧
      ∀ i < 4, m.byteAt (2 + i) = sixBytes.memory.byteAt (1 + i)) ∧
    ∃ m code, perform .copyTable [1, 2, 0xfffc] sixBytes
        = .ok .done { sixBytes with memory := m, code := code } ∧
      ∀ i < 4, m.byteAt (2 + i) = sixBytes.memory.byteAt 1 := by
  constructor
  · obtain ⟨m, code, ran, copied⟩ := copyTable_exact sixBytes 1 2 4 (by decide) (by decide)
    exact ⟨m, code, ran, copied.moved (by decide) (by decide)⟩
  · obtain ⟨m, code, ran, copied⟩ := copyTable_exact sixBytes 1 2 0xfffc (by decide) (by decide)
    refine ⟨m, code, ran, fun i small => ?_⟩
    have again := copied.repeats (by decide) (by decide) (by decide) i small
    rw [show (2 : Word).toNat - (1 : Word).toNat = 1 from rfl, Nat.mod_one] at again
    exact again

end Machine
end ZMachine
