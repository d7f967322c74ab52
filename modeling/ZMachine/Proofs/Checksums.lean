/-
  Assembled images verify, corrupted ones do not.

  Finishing an image pads it to whole units of its version's length and names
  the number of units and the sum of all bytes behind the header.  A machine
  that loads it keeps a copy for good, and sums the same bytes of the copy:
  whatever the story does, its image verifies.  A sum modulo 2^16 tells any
  two bytes apart, so that an image with one other byte never verifies.
-/
import ZMachine.Proofs.Finished
import ZMachine.Proofs.FreshStart

namespace ZMachine

/-! ## Words in overwritten bytes -/

namespace Memory

theorem wordAt_overwrite {bytes : Array Byte} {a : Nat} (w : Word) (inside : a + 2 ≤ bytes.size) :
    (ofBytes (overwrite bytes a (Word.bytes w))).wordAt a = w := by
  rw [show ofBytes (overwrite bytes a (Word.bytes w))
    = (ofBytes bytes).commit a (Word.bytes w) from rfl]
  exact wordAt_commit _ w inside

theorem wordAt_overwrite_of_lt {bytes : Array Byte} {a x : Nat} (bs : List Byte)
    (before : x + 2 ≤ a) :
    (ofBytes (overwrite bytes a bs)).wordAt x = (ofBytes bytes).wordAt x := by
  rw [wordAt, wordAt, byteAt, byteAt, byteAt, byteAt]
  simp only [ofBytes]
  rw [getD_overwrite_of_lt _ _ _ _ (by omega), getD_overwrite_of_lt _ _ _ _ (by omega)]

theorem wordAt_set {bytes : Array Byte} {a x : Nat} (b : Byte) (before : x + 2 ≤ a) :
    (ofBytes (bytes.setIfInBounds a b)).wordAt x = (ofBytes bytes).wordAt x :=
  wordAt_overwrite_of_lt [b] before

end Memory

namespace Assembler

/-! ## Sums of bytes -/

/-- Sum of bytes modulo 2^16. -/
def byteSum : List Byte → Word
  | [] => 0
  | b :: bs => b.toUInt16 + byteSum bs

theorem foldl_eq_byteSum (bs : List Byte) (w : Word) :
    bs.foldl (fun sum b => sum + b.toUInt16) w = w + byteSum bs := by
  induction bs generalizing w with
  | nil => exact (UInt16.add_zero w).symm
  | cons b bs ih => rw [List.foldl_cons, ih, byteSum, UInt16.add_assoc]

theorem checksumOf_eq (bytes : Array Byte) :
    checksumOf bytes = byteSum (bytes.toList.drop headerSize) := by
  rw [checksumOf, foldl_eq_byteSum, UInt16.zero_add]

/-- The sum with another byte in place of one. -/
theorem byteSum_set {bs : List Byte} {k : Nat} (inside : k < bs.length) (b : Byte) :
    byteSum (bs.set k b) + bs[k].toUInt16 = byteSum bs + b.toUInt16 := by
  induction bs generalizing k with
  | nil => cases inside
  | cons c bs ih =>
      cases k with
      | zero =>
          rw [List.set_cons_zero, List.getElem_cons_zero, byteSum, byteSum]
          ac_rfl
      | succ k =>
          have later := ih (Nat.lt_of_succ_lt_succ inside)
          rw [List.set_cons_succ, List.getElem_cons_succ, byteSum, byteSum, UInt16.add_assoc, later,
            UInt16.add_assoc]

/-- One other byte makes another sum. -/
theorem byteSum_set_ne {bs : List Byte} {k : Nat} (inside : k < bs.length) {b : Byte}
    (other : b ≠ bs[k]) : byteSum (bs.set k b) ≠ byteSum bs := by
  intro same
  have sums := byteSum_set inside b
  rw [same] at sums
  exact other (UInt8.toUInt16_inj.mp ((UInt16.add_right_inj _).mp sums)).symm

/-- The sum does not see the header. -/
theorem checksumOf_overwrite {a : Nat} {bs : List Byte} (header : a + bs.length ≤ headerSize)
    (bytes : Array Byte) : checksumOf (overwrite bytes a bs) = checksumOf bytes := by
  have same : (overwrite bytes a bs).toList.drop headerSize = bytes.toList.drop headerSize := by
    induction bs generalizing bytes a with
    | nil => rfl
    | cons b bs ih =>
        rw [List.length_cons] at header
        rw [overwrite, ih (by omega), Array.toList_setIfInBounds, List.drop_set_of_lt (by omega)]
  rw [checksumOf_eq, checksumOf_eq, same]

/-- One other byte behind the header makes another checksum. -/
theorem checksumOf_set_ne {bytes : Array Byte} {a : Nat} {b : Byte} (behind : headerSize ≤ a)
    (inside : a < bytes.size) (other : b ≠ bytes.getD a 0) :
    checksumOf (bytes.setIfInBounds a b) ≠ checksumOf bytes := by
  have small : a - headerSize < (bytes.toList.drop headerSize).length := by
    rw [List.length_drop, Array.length_toList]
    omega
  rw [checksumOf_eq, checksumOf_eq, Array.toList_setIfInBounds, List.drop_set,
    if_neg (Nat.not_lt.mpr behind)]
  refine byteSum_set_ne small ?_
  simpa [Array.getD, inside, Nat.add_sub_cancel' behind] using other

/-! ## What finishing fills in -/

variable {version : Byte} {program : List Emission} {image : Array Byte} {asm : Assembler}

theorem lengthScale_pos (version : Nat) : 0 < lengthScale version := by
  unfold lengthScale
  repeat' split
  all_goals decide

/-- Padding leaves no rest. -/
theorem dvd_position_align (asm : Assembler) {alignment : Nat} (positive : 0 < alignment) :
    alignment ∣ (asm.align alignment).position := by
  unfold align
  dsimp only
  split
  · exact Nat.dvd_of_mod_eq_zero ‹_›
  · rename_i rest
    have small := Nat.mod_lt asm.bytes.size positive
    have whole := Nat.div_add_mod asm.bytes.size alignment
    refine ⟨asm.bytes.size / alignment + 1, ?_⟩
    rw [position, Array.size_append, Array.size_replicate, Nat.mul_succ]
    omega

/-- Finishing makes two writes into the header: the number of units, and then the sum. -/
theorem bytes_completed (asm : Assembler) : ∃ padded counted : Array Byte,
    padded = (asm.align (lengthScale asm.version)).bytes ∧
      counted = overwrite padded HeaderField.fileLength
        (Word.bytes (padded.size / lengthScale asm.version).toUInt16) ∧
      asm.completed.bytes
        = overwrite counted HeaderField.checksum (Word.bytes (checksumOf counted)) := by
  refine ⟨_, _, rfl, rfl, ?_⟩
  simp only [completed, patchWord, patch, position]

/-- What finishing fills in is true of what it yields. -/
theorem completed_labels (header : headerSize ≤ asm.position)
    (small : asm.completed.position ≤ 65535 * lengthScale asm.version) :
    ((Memory.ofBytes asm.completed.bytes).wordAt HeaderField.fileLength).toNat
        * lengthScale asm.version = asm.completed.position ∧
      (Memory.ofBytes asm.completed.bytes).wordAt HeaderField.checksum
        = checksumOf asm.completed.bytes := by
  obtain ⟨padded, counted, padding, counting, bytes⟩ := asm.bytes_completed
  have units : lengthScale asm.version ∣ padded.size := by
    rw [padding]
    exact asm.dvd_position_align (lengthScale_pos asm.version)
  have large : headerSize ≤ padded.size := by
    rw [padding]
    exact Nat.le_trans header (Appends.align (fun _ (h : False) => h.elim) _).grows
  have size : counted.size = padded.size := by rw [counting, size_overwrite]
  rw [position, bytes, size_overwrite, size] at small ⊢
  constructor
  · -- The sum is written behind the number of units, which is small enough for a word.
    rw [Memory.wordAt_overwrite_of_lt _ (by decide), counting,
      Memory.wordAt_overwrite _ (Nat.le_trans (by decide) large), Nat.toUInt16, UInt16.toNat_ofNat',
      Nat.mod_eq_of_lt, Nat.div_mul_cancel units]
    exact Nat.lt_succ_of_le (Nat.div_le_of_le_mul (by rwa [Nat.mul_comm]))
  · -- The sum was taken before it was written, but it does not see itself.
    rw [Memory.wordAt_overwrite _ (size ▸ Nat.le_trans (by decide) large),
      checksumOf_overwrite (show HeaderField.checksum + 2 ≤ headerSize by decide)]

/-- The header of an image names its version, its length and its checksum. -/
structure Labelled (image : Array Byte) (version : Nat) : Prop where
  known : 1 ≤ version ∧ version ≤ 8
  large : headerSize ≤ image.size
  named : ((Memory.ofBytes image).byteAt HeaderField.version).toNat = version
  length : ((Memory.ofBytes image).wordAt HeaderField.fileLength).toNat * lengthScale version
      = image.size
  checksum : (Memory.ofBytes image).wordAt HeaderField.checksum = checksumOf image

theorem labelled_finish (known : 1 ≤ version.toNat ∧ version.toNat ≤ 8)
    (spared : ∀ e ∈ program, ¬e.Touches HeaderField.version)
    (finished : ((start version).assemble program).finish = .ok image)
    (small : image.size ≤ 65535 * lengthScale version.toNat) : Labelled image version.toNat := by
  obtain ⟨same, header, -⟩ := assemble_start version program
  have named := finish_version finished spared
  -- References are filled in behind the header, and before anything is counted.
  obtain ⟨-, bytes, resolved, whole⟩ := finish_eq_ok.mp finished
  have size : headerSize ≤ Assembler.position { (start version).assemble program with bytes } := by
    rw [position, (resolveAll_keeps resolved).1]
    exact header
  have labels := completed_labels size (by
    rw [position, ← whole]
    exact same.symm ▸ small)
  rw [position, ← whole, same] at labels
  exact {
    known
    large := Nat.le_trans header (finish_bytes finished).2.1
    named := by rw [named]
    length := labels.1
    checksum := labels.2 }

end Assembler

/-! ## The operation -/

namespace Machine

open Assembler

variable {image : Array Byte} {options : MachineOptions} {host : Host} {s : Machine}

/-- If the length of the file is that of the image, all of the image is summed. -/
theorem verify_eq (whole : s.header.fileLength = s.pristine.size) :
    s.verify = (checksumOf s.pristine == s.header.checksum) := by
  have stop : (if s.header.fileLength = 0 then s.pristine.size
      else min s.header.fileLength s.pristine.size) = s.pristine.size := by
    rw [whole, Nat.min_self, ite_id]
  -- Up to the end there is nothing to cut off.
  have all : (s.pristine.toList.drop headerSize).take (s.pristine.size - headerSize)
      = s.pristine.toList.drop headerSize :=
    List.take_of_length_le (by rw [List.length_drop, Array.length_toList])
  unfold verify
  dsimp only
  rw [stop, ← Array.foldl_toList, Array.toList_extract, List.extract_eq_take_drop, all, checksumOf]

/-- The state of the machine in which the opcode tests so: it does when it is carried out on
whatever values, and an instruction with it branches so. -/
structure Verifies (passed : Bool) (s : Machine) : Prop where
  performs : ∀ args, perform .verify args s = .ok (.test passed) s
  /-- A step that comes to an instruction with the opcode, which has no operands, branches on the
  test and does nothing else. -/
  steps : ∀ i decoded, s.state = .running → s.code.decoded.decode s.memory s.pc = (.ok i, decoded) →
    i.opcode = .verify → i.operands = [] →
    step s =
      match branch i passed (s.fetched decoded i) with
      | .ok _ t => .ok () (t.stepped s.pc)
      | .error e t => .error (e.locate s.pc) t

theorem execute_verify {i : Instruction} (opcode : i.opcode = .verify)
    (operands : i.operands = []) : execute i s = branch i s.verify s := by
  simp only [execute, opcode, operandValues, operands, List.mapM_nil]
  rfl

theorem verifies_verify (s : Machine) : s.Verifies s.verify where
  performs _ := rfl
  steps i decoded running found opcode none := by
    rw [step_of_decoded running found, execute_verify opcode none]
    rfl

/-- Every state keeps the image as it was loaded and what its header says. -/
theorem Arises.header_pristine (h : Arises image options host s) :
    Header.read (.ofBytes image) = .ok s.header ∧ s.pristine = image := by
  obtain ⟨m, loads, same⟩ := h.sameStory
  obtain ⟨header, text, read, -, first⟩ := story_of_load loads
  have story := first.trans same
  exact ⟨story.header ▸ read, story.pristine⟩

/-- If the header tells the length of the image, all that matters is the sum. -/
theorem Arises.verify (h : Arises image options host s)
    (length : ((Memory.ofBytes image).wordAt HeaderField.fileLength).toNat
      * lengthScale ((Memory.ofBytes image).byteAt HeaderField.version).toNat = image.size) :
    s.verify = (checksumOf image == (Memory.ofBytes image).wordAt HeaderField.checksum) := by
  obtain ⟨read, pristine⟩ := h.header_pristine
  obtain ⟨-, -, version, -, fileLength, checksum⟩ := Header.fields_of_read read
  rw [verify_eq (by rw [fileLength, version, length, pristine]), pristine, checksum]

end Machine

open Assembler Machine

variable {version : Nat} {image : Array Byte}

/-- The header of a labelled image is read, and tells its length. -/
theorem Assembler.Labelled.exists_read (labels : Labelled image version) :
    ∃ h, Header.read (.ofBytes image) = .ok h ∧ h.fileLength = image.size := by
  obtain ⟨h, read⟩ := @Header.exists_read (.ofBytes image) labels.large
    (labels.named.symm ▸ labels.known)
  obtain ⟨-, -, same, -, fileLength, -⟩ := Header.fields_of_read read
  exact ⟨h, read, by rw [fileLength, same, labels.named, labels.length]⟩

theorem Assembler.Labelled.verifies (labels : Labelled image version) {options : MachineOptions}
    {host : Host} {s : Machine} (h : Arises image options host s) : s.Verifies true := by
  have verified : s.verify = true := by
    rw [h.verify (by rw [labels.named, labels.length]), labels.checksum, beq_self_eq_true]
  exact verified ▸ s.verifies_verify

/-- Another byte behind the header leaves what the header says alone, but not the sum. -/
theorem Assembler.Labelled.refutes (labels : Labelled image version) {a : Nat} {b : Byte}
    (behind : headerSize ≤ a) (inside : a < image.size) (other : b ≠ image.getD a 0)
    {options : MachineOptions} {host : Host} {s : Machine}
    (h : Arises (image.setIfInBounds a b) options host s) : s.Verifies false := by
  have named : (Memory.ofBytes (image.setIfInBounds a b)).byteAt HeaderField.version
      = (Memory.ofBytes image).byteAt HeaderField.version :=
    getD_overwrite_of_lt image a HeaderField.version [b] (Nat.lt_of_lt_of_le (by decide) behind)
  have refuted : s.verify = false := by
    rw [h.verify, Memory.wordAt_set b (Nat.le_trans (by decide) behind), labels.checksum]
    · exact beq_eq_false_iff_ne.mpr (checksumOf_set_ne behind inside other)
    · rw [named, labels.named, Memory.wordAt_set b (Nat.le_trans (by decide) behind), labels.length,
        Array.size_setIfInBounds]
  exact refuted ▸ s.verifies_verify

/-- The image of a program that leaves the version in the header alone, and whose length can be told
there, names its own length.  Every machine that loaded it verifies it, in whatever state; no
machine that loaded it with another byte behind the header does. -/
theorem verifies_assembled {version : Byte} (known : 1 ≤ version.toNat ∧ version.toNat ≤ 8)
    {program : List Emission} (spared : ∀ e ∈ program, ¬e.Touches HeaderField.version)
    (finished : ((start version).assemble program).finish = .ok image)
    (small : image.size ≤ 65535 * lengthScale version.toNat) :
    (∃ h, Header.read (.ofBytes image) = .ok h ∧ h.fileLength = image.size) ∧
    (∀ options host s, Arises image options host s → s.Verifies true) ∧
    ∀ a b, headerSize ≤ a → a < image.size → b ≠ image.getD a 0 →
      ∀ options host s, Arises (image.setIfInBounds a b) options host s → s.Verifies false :=
  have labels := labelled_finish known spared finished small
  ⟨labels.exists_read, fun _ _ _ arises => labels.verifies arises,
    fun _ _ behind inside other _ _ _ arises => labels.refutes behind inside other arises⟩

/-- A story that verifies itself. -/
def selfVerifying : List Emission :=
  [.routine [], .setMain 64, .op .verify [], .branchReturn true true, .op .quit []]

/-- Its image. -/
def selfVerifyingImage : Array Byte :=
  (((start 3).assemble selfVerifying).finish).toOption.getD #[]

/-- It verifies even when the version in memory is written over, and does not if the image was
loaded with another operation at its end. -/
theorem verifies_assembled_self :
    ((start 3).assemble selfVerifying).finish = .ok selfVerifyingImage ∧
    selfVerifyingImage.size = 68 ∧ ∃ h s t,
      Header.read (.ofBytes selfVerifyingImage) = .ok h ∧ h.fileLength = 68 ∧
      load selfVerifyingImage {} {} = .ok s ∧
      (endState (writeGlobal 0 0xffff s)).memory.byteAt HeaderField.version = 0xff ∧
      (endState (writeGlobal 0 0xffff s)).Verifies true ∧
      load (selfVerifyingImage.setIfInBounds 67 0xb0) {} {} = .ok t ∧ t.Verifies false := by
  have finished : ((start 3).assemble selfVerifying).finish = .ok selfVerifyingImage :=
    Except.eq_ok_getD default (by decide +kernel)
  have size : selfVerifyingImage.size = 68 := by decide +kernel
  obtain ⟨⟨h, read, length⟩, verifies, refutes⟩ :=
    verifies_assembled (by decide) (by decide) finished (by rw [size]; decide)
  have loaded : load selfVerifyingImage {} {} = .ok _ :=
    Except.eq_ok_getD default (by decide +kernel)
  have loaded' : load (selfVerifyingImage.setIfInBounds 67 0xb0) {} {} = .ok _ :=
    Except.eq_ok_getD default (by decide +kernel)
  refine ⟨finished, size, h, _, _, read, length.trans size, loaded, by decide +kernel, ?_,
    loaded', ?_⟩
  · exact verifies _ _ _ ((Arises.loaded loaded).operation (.writeGlobal 0 0xffff))
  · exact refutes 67 0xb0 (by decide) (by rw [size]; decide) (by decide +kernel) _ _ _
      (.loaded loaded')

end ZMachine
