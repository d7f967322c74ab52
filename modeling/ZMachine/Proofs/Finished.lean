/-
  What a finished image holds.

  A program goes on writing after a byte is in place: it patches bytes, fills
  in words of the header and references to labels, and at the end the length
  of the file and its checksum.  Every byte that none of these reaches stands
  in the image as it stood when it was written, those of the header included.
-/
import ZMachine.Proofs.Labels

namespace ZMachine

namespace Emission

/-- Whether the call writes over the byte at `x`, should it be there already. -/
def Touches (e : Emission) (x : Nat) : Prop :=
  match e with
  | patch a bs => a ≤ x ∧ x < a + bs.length
  | globals _ => HeaderField.globals ≤ x ∧ x < HeaderField.globals + 2
  | setMain _ => HeaderField.initialPc ≤ x ∧ x < HeaderField.initialPc + 2
  | objectTable .. => HeaderField.objectTable ≤ x ∧ x < HeaderField.objectTable + 2
  | _ => False

instance (e : Emission) (x : Nat) : Decidable (e.Touches x) :=
  match e with
  | patch .. | globals .. | setMain .. | objectTable .. => inferInstanceAs (Decidable (_ ∧ _))
  | bytes .. | zeros .. | align .. | routine .. | label | here | bindLabel .. | op .. | store ..
  | branch .. | branchOffset .. | branchReturn .. | jump .. | text .. | print .. | string .. =>
      isFalse id

end Emission

namespace Assembler

variable {kept : Nat → Prop} {asm : Assembler} {e : Emission}

/-! ## Bytes that are left alone -/

theorem Appends.patchWord {field : Nat} (w : Word)
    (apart : ∀ x, kept x → ¬(field ≤ x ∧ x < field + 2)) :
    Appends kept asm (asm.patchWord field w) := by
  refine .patch _ fun x hx => ?_
  have := apart x hx
  show x < field ∨ field + 2 ≤ x
  omega

/-- A call keeps the bytes that it does not touch, also in the header. -/
theorem Extends.run_untouched (inside : ∀ x, kept x → x < asm.position)
    (spared : ∀ x, kept x → ¬e.Touches x) : Extends kept asm (e.run asm) := by
  cases e with
  | patch a bs =>
      refine (Appends.patch bs fun x hx => ?_).toExtends
      have := spared x hx
      rw [Emission.Touches] at this
      omega
  -- Two steps write into the header besides; what is kept is spared by that, too.
  | globals initial =>
      have reserved := Appends.zeros inside (globalCount * 2)
      have filled := reserved.trans
        (.patch (wordBytes (initial.take globalCount)) fun x hx => .inl (inside x hx))
      exact (filled.trans (.patchWord _ spared)).toExtends
  | setMain a => exact (Appends.patchWord _ spared).toExtends
  | objectTable defaults objects =>
      have begun :=
        Appends.emit inside (wordBytes ((List.range (ObjectLayout.of asm.version).defaults).map
        fun i => defaults.getD i 0))
      have reserved := begun.trans (.zeros (begun.inside inside)
        (objects.length * (ObjectLayout.of asm.version).entrySize))
      have before (x : Nat) (hx : kept x) : x < _ := begun.inside inside x hx
      refine ((reserved.trans (.foldl (reserved.inside inside) fun o _ asm₁ inside₁ => ?_)).trans
        (.patchWord _ spared)).toExtends
      exact .objectEntry inside₁
        (fun x hx => Nat.lt_of_lt_of_le (before x hx) (Nat.le_add_right ..)) o.1
  | label => exact .of_labels _
  | here => exact .of_labels _
  | bindLabel l => exact .of_labels _
  | zeros len => exact (Appends.zeros inside len).toExtends
  | align alignment => exact (Appends.align inside alignment).toExtends
  | routine locals => exact (Appends.routine inside locals).toExtends
  | op opcode os => exact (Appends.op inside opcode os).toExtends
  | branch condition l => exact (Appends.refer inside l _).toExtends
  | jump l => exact (Appends.jump inside l).toExtends
  | print s => exact (Appends.print inside s).toExtends
  | bytes | store | branchOffset | branchReturn | text | string =>
      exact (Appends.emit inside _).toExtends

/-- A program keeps the bytes that none of its calls touches. -/
theorem Extends.assemble_untouched {es : List Emission} (inside : ∀ x, kept x → x < asm.position)
    (spared : ∀ e ∈ es, ∀ x, kept x → ¬e.Touches x) : Extends kept asm (asm.assemble es) := by
  induction es generalizing asm with
  | nil => exact .of_labels asm.labels
  | cons e es ih =>
      have first : Extends kept asm (e.run asm) := .run_untouched inside (spared e (by simp))
      refine first.trans (ih (fun x hx => ?_) fun f mem => spared f (by simp [mem]))
      exact Nat.lt_of_lt_of_le (inside x hx) first.grows

/-- Whether the byte at `x` is filled in when the image is finished: the length of the file and the
checksum stand one after the other. -/
def Completes (x : Nat) : Prop := HeaderField.fileLength ≤ x ∧ x < HeaderField.checksum + 2

instance (x : Nat) : Decidable (Completes x) := inferInstanceAs (Decidable (_ ∧ _))

theorem completed_untouched (inside : ∀ x, kept x → x < asm.position)
    (spared : ∀ x, kept x → ¬Completes x) : Appends kept asm asm.completed := by
  have aligned := Appends.align inside (lengthScale asm.version)
  refine (aligned.trans (.patchWord _ fun x hx => ?_)).trans (.patchWord _ fun x hx => ?_)
  · have := spared x hx
    simp only [Completes, HeaderField.fileLength, HeaderField.checksum] at this ⊢
    omega
  · have := spared x hx
    simp only [Completes, HeaderField.fileLength, HeaderField.checksum] at this ⊢
    omega

/-- The bytes that stand in an assembler stand in the image that is finished later, if nothing that
is emitted in between touches them, no reference is filled in there and they are not part of what is
filled in at the end. -/
theorem finish_stands {es : List Emission} {image : Array Byte}
    (finished : (asm.assemble es).finish = .ok image) (inside : ∀ x, kept x → x < asm.position)
    (spared : ∀ e ∈ es, ∀ x, kept x → ¬e.Touches x)
    (references : ∀ r ∈ asm.references.toList, ∀ x, kept x → x < r.site ∨ r.site + 2 ≤ x)
    (uncompleted : ∀ x, kept x → ¬Completes x) :
    asm.failure = none ∧ asm.position ≤ image.size ∧
      ∀ x, kept x → image.getD x 0 = asm.bytes.getD x 0 := by
  have later : Extends kept asm (asm.assemble es) := .assemble_untouched inside spared
  obtain ⟨clean, bytes, resolved, rfl⟩ := finish_eq_ok.mp finished
  obtain ⟨size, same⟩ := resolveAll_keeps resolved
  obtain ⟨new, eq, sites⟩ := later.references
  have grows : asm.position ≤ bytes.size := size ▸ later.grows
  have last : Appends kept { asm.assemble es with bytes } _ :=
    completed_untouched (fun x hx => Nat.lt_of_lt_of_le (inside x hx) grows) uncompleted
  refine ⟨later.failure clean, Nat.le_trans grows last.grows, fun x hx => ?_⟩
  rw [last.bytes x hx, ← later.bytes x hx]
  refine same x fun r mem => ?_
  -- References that were there are apart, and those that are new lie behind.
  rcases List.mem_append.mp (eq ▸ mem) with old | new
  · exact references r old x hx
  · exact .inl (Nat.lt_of_lt_of_le (inside x hx) (sites r new).1)

/-- Without references there is nothing that could fail at the end. -/
theorem exists_finish (clean : asm.failure = none) (resolved : asm.references = #[]) :
    ∃ image, asm.finish = .ok image :=
  ⟨_, finish_eq_ok.mpr ⟨clean, asm.bytes, by rw [resolved]; rfl, rfl⟩⟩

/-! ## The header -/

variable {version : Byte} {program : List Emission} {image : Array Byte}

/-- The references of a program lie behind the header. -/
theorem references_start (version : Byte) (es : List Emission) :
    ∀ r ∈ ((start version).assemble es).references.toList, headerSize ≤ r.site := by
  obtain ⟨new, eq, sites⟩ := ((start version).extends_assemble es).references
  have size : (start version).position = headerSize := by simp [start, position]
  intro r mem
  rw [eq] at mem
  exact size ▸ (sites r (by simpa [start] using mem)).1

/-- The header tells the version that the image was assembled for. -/
theorem finish_version (finished : ((start version).assemble program).finish = .ok image)
    (spared : ∀ e ∈ program, ¬e.Touches HeaderField.version) :
    (Memory.ofBytes image).byteAt HeaderField.version = version := by
  obtain ⟨-, -, same⟩ := @finish_stands (fun x => x = HeaderField.version) _ _ _ finished
    (by rintro _ rfl; simp [start, position, headerSize, HeaderField.version])
    (by rintro e mem _ rfl; exact spared e mem) (by simp [start]) (by rintro _ rfl; decide)
  rw [show (Memory.ofBytes image).byteAt HeaderField.version
    = image.getD HeaderField.version 0 from rfl, same _ rfl]
  simp [start, headerSize, HeaderField.version]

end Assembler

/-- What the header says of the version, of the object table, and of the image as a whole. -/
theorem Header.fields_of_read {m : Memory} {h : Header} (reads : Header.read m = .ok h) :
    1 ≤ h.version ∧ h.version ≤ 8 ∧ h.version = (m.byteAt HeaderField.version).toNat ∧
      h.objectTable = m.wordAt HeaderField.objectTable ∧
      h.fileLength = (m.wordAt HeaderField.fileLength).toNat * lengthScale h.version ∧
      h.checksum = m.wordAt HeaderField.checksum := by
  unfold Header.read at reads
  by_cases short : m.size < headerSize
  · rw [if_pos short] at reads
    cases reads
  rw [if_neg short] at reads
  have byte : m.readByte HeaderField.version = .ok (m.byteAt HeaderField.version) :=
    Memory.readByte_eq_ok.mpr ⟨Nat.lt_of_lt_of_le (by decide) (Nat.not_lt.mp short), rfl⟩
  simp only [Bind.bind, Except.bind, pure, Except.pure, byte] at reads
  by_cases known : 1 ≤ m.byteAt HeaderField.version ∧ m.byteAt HeaderField.version ≤ 8
  · rw [if_pos known] at reads
    cases reads
    rw [UInt8.le_iff_toNat_le, UInt8.le_iff_toNat_le] at known
    exact ⟨known.1, known.2, rfl, rfl, rfl, rfl⟩
  · rw [if_neg known] at reads
    cases reads

/-- A header of a known version is read. -/
theorem Header.exists_read {m : Memory} (large : headerSize ≤ m.size)
    (known : 1 ≤ (m.byteAt HeaderField.version).toNat ∧ (m.byteAt HeaderField.version).toNat ≤ 8) :
    ∃ h, Header.read m = .ok h := by
  have byte : m.readByte HeaderField.version = .ok (m.byteAt HeaderField.version) :=
    Memory.readByte_eq_ok.mpr ⟨Nat.lt_of_lt_of_le (by decide) large, rfl⟩
  have range : 1 ≤ m.byteAt HeaderField.version ∧ m.byteAt HeaderField.version ≤ 8 := by
    rw [UInt8.le_iff_toNat_le, UInt8.le_iff_toNat_le]
    exact known
  unfold Header.read
  rw [if_neg (Nat.not_lt.mpr large)]
  simp only [Bind.bind, Except.bind, pure, Except.pure, byte, if_pos range]
  exact ⟨_, rfl⟩

end ZMachine
