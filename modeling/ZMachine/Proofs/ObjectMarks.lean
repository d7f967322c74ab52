/-
  Attributes that a version does not have.

  Laying out an object sets a bit for each of its attributes without a look at
  how many there can be.  A bit too far on falls into what is filled in later,
  the links of the entry or of an entry behind it, or counts as an attribute
  of an object behind.  As long as it falls into an entry at all, the object
  table is therefore one that could have been laid out without such
  attributes: names, links and properties are the same.
-/
import ZMachine.Proofs.ObjectReading

namespace ZMachine

/-! ## Bits that are given -/

/-- Bytes with the same bits are the same. -/
theorem ext_bitAt {bs cs : List Byte} (length : bs.length = cs.length)
    (same : ∀ n, bitAt bs n = bitAt cs n) : bs = cs := by
  refine List.ext_getElem length fun i here there =>
    UInt8.toNat_inj.mp (Nat.eq_of_testBit_eq fun k => ?_)
  -- A byte has eight bits, counted from the other end.
  by_cases small : k < 8
  · have bit := same (i * 8 + (7 - k))
    have byte : (i * 8 + (7 - k)) / 8 = i := by omega
    have place : 7 - (i * 8 + (7 - k)) % 8 = k := by omega
    rw [bitAt, bitAt, byte, place, List.getD_eq_getElem?_getD, List.getD_eq_getElem?_getD,
      List.getElem?_eq_getElem here, List.getElem?_eq_getElem there] at bit
    exact bit
  · have high : 2 ^ 8 ≤ 2 ^ k := Nat.pow_le_pow_right (by decide) (by omega)
    rw [Nat.testBit_lt_two_pow (Nat.lt_of_lt_of_le bs[i].toNat_lt high),
      Nat.testBit_lt_two_pow (Nat.lt_of_lt_of_le cs[i].toNat_lt high)]

/-- The attributes of an entry are those of some object, whatever they are. -/
theorem exists_foldl_setBit {bits : List Byte} (few : bits.length ≤ 32) :
    ∃ ns : List Byte, (∀ n ∈ ns, n.toNat < bits.length * 8) ∧
      ns.foldl setBit (List.replicate bits.length 0) = bits := by
  -- An attribute for every bit that is set does it; all numbers of bits fit into a byte.
  let ns := ((List.range (bits.length * 8)).filter (bitAt bits)).map Nat.toUInt8
  have number (k : Nat) (small : k < bits.length * 8) : k.toUInt8.toNat = k := by
    rw [UInt8.toNat_ofNat']
    omega
  have inside : ∀ n ∈ ns, n.toNat < bits.length * 8 := by
    intro n mem
    obtain ⟨k, listed, rfl⟩ := List.mem_map.mp mem
    obtain ⟨small, -⟩ := List.mem_filter.mp listed
    have small := List.mem_range.mp small
    rwa [number k small]
  refine ⟨ns, inside, ext_bitAt (by rw [length_foldl_setBit, List.length_replicate]) fun k => ?_⟩
  rw [bitAt_foldl_setBit, bitAt_replicate, Bool.false_or]
  · by_cases small : k < bits.length * 8
    · cases set : bitAt bits k with
      | true =>
          refine decide_eq_true ⟨k.toUInt8, List.mem_map.mpr ⟨k, ?_, rfl⟩, number k small⟩
          exact List.mem_filter.mpr ⟨List.mem_range.mpr small, set⟩
      | false =>
          refine decide_eq_false fun ⟨n, mem, same⟩ => ?_
          obtain ⟨j, listed, rfl⟩ := List.mem_map.mp mem
          obtain ⟨below, also⟩ := List.mem_filter.mp listed
          rw [number j (List.mem_range.mp below)] at same
          rw [same, set] at also
          cases also
    · rw [bitAt, List.getD_eq_getElem?_getD, List.getElem?_eq_none (by omega), decide_eq_false]
      · exact (Nat.zero_testBit _).symm
      · rintro ⟨n, mem, rfl⟩
        exact small (inside n mem)
  · intro n mem
    have := inside n mem
    rw [List.length_replicate]
    omega

/-! ## Objects but for their attributes -/

namespace ObjectEntry

/-- An object without its attributes. -/
def unmarked (o : ObjectEntry) : ObjectEntry := { o with attributes := [] }

/-- The attributes of no object lead out of the entries. -/
def Among (version : Nat) (objects : List ObjectEntry) : Prop :=
  ∀ i o, objects[i]? = some o → ∀ n ∈ o.attributes,
    i * (ObjectLayout.of version).entrySize + n.toNat / 8
      < objects.length * (ObjectLayout.of version).entrySize

variable {version : Nat} {o : ObjectEntry} {objects objects' : List ObjectEntry}

/-- Property tables stand where they would without attributes. -/
theorem tableStart_of_unmarked (same : objects'.map unmarked = objects.map unmarked) (a i : Nat) :
    tableStart version objects' a i = tableStart version objects a i := by
  have tables (os : List ObjectEntry) : (os.take i).flatMap (tableBytes version)
      = ((os.map unmarked).take i).flatMap (tableBytes version) := by
    rw [← List.map_take, List.flatMap_map]
    rfl
  rw [tableStart, tableStart, tables objects', tables objects, same]

/-- Attributes that the version has do not lead out of the entries. -/
theorem among_of_attributes (attributes : ∀ o ∈ objects, ∀ n ∈ o.attributes,
    n.toNat < (ObjectLayout.of version).attributes) : Among version objects := by
  intro i o listed n mem
  have small := attributes o (List.mem_of_getElem? listed) n mem
  obtain ⟨inside, -⟩ := List.getElem?_eq_some_iff.mp listed
  have next := Nat.mul_le_mul_right (ObjectLayout.of version).entrySize inside
  rw [Nat.succ_mul] at next
  unfold ObjectLayout.attributes at small
  unfold ObjectLayout.entrySize ObjectLayout.propertyOffset at next ⊢
  omega

theorem Among.head (among : Among version (o :: objects)) (n : Byte) (mem : n ∈ o.attributes) :
    n.toNat / 8 < (objects.length + 1) * (ObjectLayout.of version).entrySize := by
  have here := among 0 o rfl n mem
  rwa [Nat.zero_mul, Nat.zero_add, List.length_cons] at here

theorem Among.tail (among : Among version (o :: objects)) : Among version objects := by
  intro i o' listed n mem
  have there := among (i + 1) o' listed n mem
  rw [List.length_cons, Nat.succ_mul, Nat.succ_mul] at there
  omega

end ObjectEntry

open ObjectEntry

namespace Assembler

variable {asm : Assembler} {objects : List ObjectEntry}

/-- Filling in the first of the entries: what was found in the place of its attributes is what some
attributes come to, and what fell into the entries behind is what these begin with. -/
theorem exists_objectEntry {o : ObjectEntry} (payloads : ∀ p ∈ o.properties, Sized asm.version p)
    (before : List Byte) {row : List Byte} (after : List Byte) {count : Nat}
    (length : row.length = (count + 1) * (ObjectLayout.of asm.version).entrySize)
    (inside : ∀ n ∈ o.attributes, n.toNat / 8 < row.length) :
    ∃ (o' : ObjectEntry) (rest : List Byte), o'.unmarked = o.unmarked ∧ o'.Fits asm.version ∧
      rest.length = count * (ObjectLayout.of asm.version).entrySize ∧
      (asm.withBytes (before ++ (row ++ after))).objectEntry before.length o
        = asm.withBytes
          (before ++ entryBytes asm.version o' (before.length + row.length + after.length)
          ++ (rest ++ (after ++ tableBytes asm.version o))) := by
  let layout := ObjectLayout.of asm.version
  let flags := o.attributes.foldl setBit row
  have size : flags.length = (count + 1) * layout.entrySize :=
    (length_foldl_setBit _ _).trans length
  have wide : layout.attributeBytes ≤ layout.entrySize := by
    simp only [ObjectLayout.entrySize, ObjectLayout.propertyOffset]
    omega
  have short : (flags.take layout.attributeBytes).length = layout.attributeBytes := by
    rw [List.length_take, size, Nat.succ_mul]
    omega
  -- Whatever bits were found there, they are the marks of some attributes.
  obtain ⟨ns, small, set⟩ := @exists_foldl_setBit (flags.take layout.attributeBytes) (by
    rw [short]
    simp only [layout, ObjectLayout.of]
    split <;> decide)
  rw [short] at small set
  -- Marks beyond the place of the attributes fall into the entries behind.
  refine ⟨{ o with attributes := ns }, flags.drop layout.entrySize, rfl, ⟨small, payloads⟩, ?_, ?_⟩
  · rw [List.length_drop, size, Nat.succ_mul]
    exact Nat.add_sub_cancel ..
  · have room : layout.entrySize ≤ row.length := by
      rw [length]
      exact Nat.le_mul_of_pos_left _ (Nat.succ_pos _)
    have entry (stop : Nat) : flags.take layout.attributeBytes
        ++ (linkBytes asm.version o ++ Word.bytes stop.toUInt16)
          = entryBytes asm.version { o with attributes := ns } stop := by
      rw [← set]
      rfl
    rw [objectEntry_among payloads before after room inside, entry, List.append_assoc]

/-- Whatever stands in the entries and wherever attributes fall in them: in the end they are the
entries of objects with attributes that the version has, and otherwise of the same objects. -/
theorem objectEntries_among
    (payloads : ∀ o ∈ objects, ∀ p ∈ o.properties, Sized asm.version p)
    (among : Among asm.version objects) (before row after : List Byte)
    {k base : Nat} (reached : base + k * (ObjectLayout.of asm.version).entrySize = before.length)
    (length : row.length = objects.length * (ObjectLayout.of asm.version).entrySize) :
    ∃ objects', objects'.map unmarked = objects.map unmarked ∧
      (∀ o ∈ objects', o.Fits asm.version) ∧
      (objects.zipIdx k).foldl
          (fun asm' p => asm'.objectEntry
            (base + p.2 * (ObjectLayout.of asm.version).entrySize) p.1)
          (asm.withBytes (before ++ (row ++ after)))
        = asm.withBytes (before ++ (entryRow asm.version objects'
            (before.length + objects.length * (ObjectLayout.of asm.version).entrySize
              + after.length)
            ++ (after ++ objects'.flatMap (tableBytes asm.version)))) := by
  -- By induction on the objects, with the entries that are filled in already in front of the row.
  induction objects generalizing before row after k with
  | nil =>
      rw [List.length_eq_zero_iff.mp (length.trans (Nat.zero_mul _))]
      exact ⟨[], rfl, nofun, by simp [entryRow]⟩
  | cons o os ih =>
      let layout := ObjectLayout.of asm.version
      let stop := before.length + row.length + after.length
      rw [List.length_cons] at length
      obtain ⟨o', flags, alike, fits, left, first⟩ :=
        exists_objectEntry (payloads o (by simp)) before
        after length fun n mem => by
          rw [length]
          exact among.head n mem
      have table : tableBytes asm.version o' = tableBytes asm.version o := by
        show tableBytes asm.version o'.unmarked = tableBytes asm.version o.unmarked
        rw [alike]
      obtain ⟨os', same, fits', rest⟩ := ih (fun q mem => payloads q (by simp [mem])) among.tail
        (before ++ entryBytes asm.version o' stop) flags (after ++ tableBytes asm.version o)
        (k := k + 1)
        (by rw [List.length_append, length_entryBytes, ← reached, Nat.succ_mul, Nat.add_assoc]) left
      refine ⟨o' :: os', ?_, List.forall_mem_cons.mpr ⟨fits, fits'⟩, ?_⟩
      · rw [List.map_cons, List.map_cons, same, alike]
      · have next : (before ++ entryBytes asm.version o' stop).length + os.length * layout.entrySize
            + (after ++ tableBytes asm.version o).length
              = stop + (tableBytes asm.version o').length := by
          simp only [List.length_append, length_entryBytes, stop, length, Nat.succ_mul,
            layout, table]
          omega
        have far : before.length + (os.length + 1) * layout.entrySize + after.length = stop := by
          rw [← length]
        rw [next] at rest
        rw [List.zipIdx_cons, List.foldl_cons, List.length_cons, far]
        dsimp only
        rw [reached, first]
        simp only [entryRow, List.flatMap_cons, List.append_assoc, table] at rest ⊢
        exact rest

/-- An object table with attributes that stay in the entries is one that was laid out for objects
with attributes that the version has, and otherwise for the same objects. -/
theorem objectTable_among
    (payloads : ∀ o ∈ objects, ∀ p ∈ o.properties, Sized asm.version p)
    (among : Among asm.version objects) (defaults : List Word) :
    ∃ objects', objects'.map unmarked = objects.map unmarked ∧
      (∀ o ∈ objects', o.Fits asm.version) ∧
      asm.objectTable defaults objects = asm.objectTable defaults objects' := by
  let layout := ObjectLayout.of asm.version
  obtain ⟨objects', same, fits, laid⟩ := objectEntries_among payloads among
    (asm.bytes.toList ++ defaultWords asm.version defaults)
    (List.replicate (objects.length * layout.entrySize) 0) []
    (show (asm.bytes.toList ++ defaultWords asm.version defaults).length + 0 * layout.entrySize
      = _ by simp)
    List.length_replicate
  have count : objects'.length = objects.length := by
    simpa using congrArg List.length same
  have far : (asm.bytes.toList ++ defaultWords asm.version defaults).length
      + objects.length * layout.entrySize + ([] : List Byte).length
      = asm.position + layout.defaults * 2 + objects'.length * layout.entrySize := by
    rw [List.length_append, defaultWords, length_wordBytes, List.length_map,
      List.length_range, count]
    rfl
  rw [far] at laid
  refine ⟨objects', same, fits, ?_⟩
  rw [objectTable_emits fits]
  exact objectTable_of_entries laid

end Assembler

end ZMachine
