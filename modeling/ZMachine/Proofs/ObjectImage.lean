/-
  The bytes of an object table.

  The assembler reserves the entries of all objects, then goes through the
  objects: it sets bits and fills in links in the entry and appends the
  property table behind.  What comes of it in the end is given here at once,
  part after part, and the assembler is shown to append exactly that: before
  every object the entries behind are still empty, and the property table is
  appended where the entry says that it stands.
-/
import ZMachine.Proofs.Finished

namespace ZMachine

/-! ## Overwriting a part -/

/-- Overwriting a part by one of the same length replaces it. -/
theorem overwrite_part (before after : List Byte) {old new : List Byte}
    (length : new.length = old.length) :
    overwrite (before ++ (old ++ after)).toArray before.length new
      = (before ++ (new ++ after)).toArray := by
  induction new generalizing before old with
  | nil =>
      rw [List.length_eq_zero_iff.mp length.symm]
      rfl
  | cons b new ih =>
      obtain ⟨c, old, rfl⟩ :=
        List.exists_cons_of_length_eq_add_one (length.symm.trans List.length_cons)
      have first : (before ++ (c :: old ++ after)).toArray.setIfInBounds before.length b
          = (before ++ [b] ++ (old ++ after)).toArray := by simp
      have rest := ih (before ++ [b]) (Nat.succ_inj.mp length)
      rw [List.length_append, List.length_singleton] at rest
      rw [overwrite, first, rest]
      simp

/-! ## Attributes -/

/-- Set one attribute bit. -/
def setBit (bs : List Byte) (n : Byte) : List Byte :=
  bs.set (n.toNat / 8) (bs.getD (n.toNat / 8) 0 ||| 0x80 >>> (n % 8))

theorem length_foldl_setBit (ns bs : List Byte) : (ns.foldl setBit bs).length = bs.length := by
  induction ns generalizing bs with
  | nil => rfl
  | cons n ns ih => rw [List.foldl_cons, ih, setBit, List.length_set]

/-- The attributes of an entry are set one by one. -/
theorem setAttributeBits_part (before after : List Byte) {bits ns : List Byte}
    (inside : ∀ n ∈ ns, n.toNat / 8 < bits.length) :
    ns.foldl (Assembler.setAttributeBit before.length) (before ++ (bits ++ after)).toArray
      = (before ++ (ns.foldl setBit bits ++ after)).toArray := by
  induction ns generalizing bits with
  | nil => rfl
  | cons n ns ih =>
      have here : n.toNat / 8 < bits.length := inside n (by simp)
      have old : (before ++ (bits ++ after)).toArray.getD (before.length + n.toNat / 8) 0
          = bits.getD (n.toNat / 8) 0 := by
        rw [Array.getD_eq_getD_getElem?, List.getElem?_toArray,
          List.getElem?_append_right (by omega),
          Nat.add_sub_cancel_left, List.getElem?_append_left here, List.getD_eq_getElem?_getD]
      have first : Assembler.setAttributeBit before.length (before ++ (bits ++ after)).toArray n
          = (before ++ (setBit bits n ++ after)).toArray := by
        rw [Assembler.setAttributeBit, old]
        simp [setBit, List.set_append_left _ _ here]
      rw [List.foldl_cons, first, List.foldl_cons]
      refine ih fun k mem => ?_
      rw [setBit, List.length_set]
      exact inside k (by simp [mem])

/-! ## The parts of a table -/

namespace ObjectEntry

variable (version : Nat) (o : ObjectEntry)

/-- The attributes of an object. -/
def attributeBits : List Byte :=
  o.attributes.foldl setBit (List.replicate (ObjectLayout.of version).attributeBytes 0)

/-- The entry of an object whose property table stands at `a`. -/
def entryBytes (a : Nat) : List Byte :=
  attributeBits version o ++ (Assembler.linkBytes version o ++ Word.bytes a.toUInt16)

/-- One property of a property table. -/
def propertyBytes (p : Byte × List Byte) : List Byte :=
  (Assembler.propertyHeader? version p.1 p.2.length).getD [] ++ p.2

/-- The properties in the order in which they stand. -/
def ordered : List (Byte × List Byte) := Assembler.sortProperties o.properties

/-- The property table of an object. -/
def tableBytes : List Byte :=
  Assembler.nameBytes version o.name ++ ((ordered o).flatMap (propertyBytes version) ++ [0])

/-- A property has a length that the version has. -/
def Sized (version : Nat) (p : Byte × List Byte) : Prop :=
  1 ≤ p.2.length ∧ p.2.length ≤ if version ≤ 3 then 8 else 64

instance (version : Nat) (p : Byte × List Byte) : Decidable (Sized version p) :=
  inferInstanceAs (Decidable (_ ∧ _))

/-- What the version can lay out of an object.  A link or a number that does not fit loses bits. -/
structure Fits : Prop where
  attributes : ∀ n ∈ o.attributes, n.toNat < (ObjectLayout.of version).attributes
  payloads : ∀ p ∈ o.properties, Sized version p

/-- What the version can express of an object. -/
structure Encodable : Prop where
  attributes : ∀ n ∈ o.attributes, n.toNat < (ObjectLayout.of version).attributes
  links : version ≤ 3 → o.parent.toNat ≤ 255 ∧ o.sibling.toNat ≤ 255 ∧ o.child.toNat ≤ 255
  numbers : ∀ p ∈ o.properties, 1 ≤ p.1.toNat ∧ p.1.toNat ≤ (ObjectLayout.of version).defaults
  distinct : (o.properties.map Prod.fst).Nodup
  payloads : ∀ p ∈ o.properties, 1 ≤ p.2.length ∧ p.2.length ≤ if version ≤ 3 then 8 else 64
  name : (encodeText version o.name.toList).length ≤ 255

variable {version o}

theorem Encodable.fits (encodable : o.Encodable version) : o.Fits version :=
  ⟨encodable.attributes, encodable.payloads⟩

theorem length_attributeBits :
    (attributeBits version o).length = (ObjectLayout.of version).attributeBytes := by
  rw [attributeBits, length_foldl_setBit, List.length_replicate]

theorem length_linkBytes :
    (Assembler.linkBytes version o).length = 3 * (ObjectLayout.of version).linkBytes := by
  unfold Assembler.linkBytes ObjectLayout.of
  split <;> rfl

theorem length_entryBytes (a : Nat) :
    (entryBytes version o a).length = (ObjectLayout.of version).entrySize := by
  rw [entryBytes, List.length_append, List.length_append, length_attributeBits, length_linkBytes,
    ← Nat.add_assoc]
  rfl

theorem ordered_perm (o : ObjectEntry) : (ordered o).Perm o.properties := List.mergeSort_perm ..

/-- The order of the properties does not matter for the length of their table. -/
theorem length_tableBytes :
    (tableBytes version o).length = (Assembler.nameBytes version o.name).length
    + ((o.properties.flatMap (propertyBytes version)).length + 1) := by
  have same := ((ordered_perm o).flatMap_right (propertyBytes version)).length_eq
  rw [tableBytes, List.length_append, List.length_append, same]
  rfl

/-- Entries one after the other, the property tables of which stand one after the other
from `a` on. -/
def entryRow (version : Nat) : List ObjectEntry → Nat → List Byte
  | [], _ => []
  | o :: os, a => entryBytes version o a ++ entryRow version os (a + (tableBytes version o).length)

theorem length_entryRow (version : Nat) (objects : List ObjectEntry) (a : Nat) :
    (entryRow version objects a).length = objects.length * (ObjectLayout.of version).entrySize := by
  induction objects generalizing a with
  | nil => simp [entryRow]
  | cons o os ih =>
      rw [entryRow, List.length_append, length_entryBytes, ih, List.length_cons, Nat.succ_mul,
      Nat.add_comm]

/-- Where the property table of an object stands, if those of all objects stand from `a` on. -/
def tableStart (version : Nat) (objects : List ObjectEntry) (a i : Nat) : Nat :=
  a + ((objects.take i).flatMap (tableBytes version)).length

section

variable (version : Nat) (objects : List ObjectEntry) (a i : Nat)

@[simp] theorem tableStart_zero : tableStart version objects a 0 = a := rfl

theorem tableStart_cons : tableStart version (o :: objects) a (i + 1)
    = tableStart version objects (a + (tableBytes version o).length) i := by
  simp only [tableStart, List.take_succ_cons, List.flatMap_cons, List.length_append, Nat.add_assoc]

theorem le_tableStart : a ≤ tableStart version objects a i := Nat.le_add_right ..

end

/-- Behind the property table of an object stands that of the next. -/
theorem tableStart_succ {objects : List ObjectEntry} {i : Nat} (a : Nat)
    (listed : objects[i]? = some o) :
    tableStart version objects a (i + 1)
      = tableStart version objects a i + (tableBytes version o).length := by
  rw [tableStart, List.take_add_one, listed]
  simp only [Option.toList_some, List.flatMap_append, List.flatMap_singleton, List.length_append,
    tableStart, Nat.add_assoc]

/-- The property tables of later objects stand later. -/
theorem tableStart_mono (objects : List ObjectEntry) (a : Nat) {i j : Nat} (le : i ≤ j) :
    tableStart version objects a i ≤ tableStart version objects a j := by
  obtain ⟨k, rfl⟩ := Nat.exists_eq_add_of_le le
  rw [tableStart, tableStart, List.take_add, List.flatMap_append, List.length_append]
  omega

theorem tableStart_lt {objects : List ObjectEntry} {i : Nat} (a : Nat)
    (listed : objects[i]? = some o) :
    tableStart version objects a i < a + (objects.flatMap (tableBytes version)).length := by
  obtain ⟨small, -⟩ := List.getElem?_eq_some_iff.mp listed
  have next : tableStart version objects a (i + 1)
      = tableStart version objects a i + (tableBytes version o).length := tableStart_succ a listed
  have last : tableStart version objects a (i + 1) ≤ tableStart version objects a objects.length :=
    tableStart_mono objects a small
  have all : tableStart version objects a objects.length
      = a + (objects.flatMap (tableBytes version)).length := by rw [tableStart, List.take_length]
  have filled : 1 ≤ (tableBytes version o).length := by
    simp only [tableBytes, List.length_append, List.length_singleton]
    omega
  omega

end ObjectEntry

open ObjectEntry

/-- An object table that stands at `a`. -/
def objectTableBytes (version : Nat) (defaults : List Word) (objects : List ObjectEntry) (a : Nat) :
    List Byte :=
  let layout := ObjectLayout.of version
  wordBytes ((List.range layout.defaults).map fun i => defaults.getD i 0) ++
    (entryRow version objects (a + layout.defaults * 2 + objects.length * layout.entrySize) ++
      objects.flatMap (tableBytes version))

/-! ## What the assembler appends -/

namespace Assembler

variable {asm : Assembler} {o : ObjectEntry} {objects : List ObjectEntry} {before after : List Byte}

theorem property_eq_emit (asm : Assembler) {p : Byte × List Byte} (positive : 1 ≤ p.2.length)
    (short : p.2.length ≤ if asm.version ≤ 3 then 8 else 64) :
    asm.property p = asm.emit (propertyBytes asm.version p) := by
  unfold property propertyBytes
  cases header : propertyHeader? asm.version p.1 p.2.length with
  | some bs => rfl
  | none =>
      -- There is a header for every length that the version has.
      unfold propertyHeader? at header
      by_cases early : asm.version ≤ 3
      · rw [if_pos early] at short
        simp [early, positive, short] at header
      · rw [if_neg early] at short
        by_cases one : p.2.length = 1
        · simp [early, one] at header
        by_cases two : p.2.length = 2
        · simp [early, two] at header
        have long : 3 ≤ p.2.length ∧ p.2.length ≤ 64 := by omega
        simp [early, one, two, long] at header

theorem properties_eq_emit (asm : Assembler) {ps : List (Byte × List Byte)}
    (payloads : ∀ p ∈ ps, Sized asm.version p) :
    ps.foldl property asm = asm.emit (ps.flatMap (propertyBytes asm.version)) := by
  induction ps generalizing asm with
  | nil => exact asm.emit_nil.symm
  | cons p ps ih =>
      obtain ⟨positive, short⟩ := payloads p (by simp)
      rw [List.foldl_cons, property_eq_emit asm positive short,
        ih (asm.emit _) fun q mem => payloads q (by simp [mem]), emit_emit]
      rfl

/-- The property table of an object is appended. -/
theorem propertyTable_eq_emit (asm : Assembler)
    (payloads : ∀ p ∈ o.properties, Sized asm.version p) :
    asm.propertyTable o = (asm.position, asm.emit (tableBytes asm.version o)) := by
  have listed := @properties_eq_emit (asm.emit (nameBytes asm.version o.name)) (ordered o)
    fun p mem => payloads p (List.mem_mergeSort.mp mem)
  unfold propertyTable
  dsimp only
  rw [show sortProperties o.properties = ordered o from rfl, listed, emit_emit, emit_emit]
  rfl

/-- An assembler with other bytes. -/
def withBytes (asm : Assembler) (bs : List Byte) : Assembler := { asm with bytes := bs.toArray }

theorem withBytes_emit (asm : Assembler) (bs cs : List Byte) :
    (asm.withBytes bs).emit cs = asm.withBytes (bs ++ cs) := by
  simp [withBytes, emit]

/-- The attributes of an object are set in the entry and maybe behind it, then the rest of the entry
is filled in and the property table appended. -/
theorem objectEntry_among
    (payloads : ∀ p ∈ o.properties, Sized asm.version p)
    (before : List Byte) {row : List Byte} (after : List Byte)
    (room : (ObjectLayout.of asm.version).entrySize ≤ row.length)
    (inside : ∀ n ∈ o.attributes, n.toNat / 8 < row.length) :
    (asm.withBytes (before ++ (row ++ after))).objectEntry before.length o
      = asm.withBytes (before
          ++ ((o.attributes.foldl setBit row).take (ObjectLayout.of asm.version).attributeBytes
            ++ (linkBytes asm.version o
              ++ Word.bytes (before.length + row.length + after.length).toUInt16)
          ++ ((o.attributes.foldl setBit row).drop (ObjectLayout.of asm.version).entrySize
            ++ (after ++ tableBytes asm.version o)))) := by
  let layout := ObjectLayout.of asm.version
  let flags := o.attributes.foldl setBit row
  have length : flags.length = row.length := length_foldl_setBit _ _
  have room : layout.attributeBytes + (3 * layout.linkBytes + 2) ≤ flags.length := by
    rw [length]
    exact room
  -- Behind the attributes there is what will be filled in last.
  let links := (flags.drop layout.attributeBytes).take (3 * layout.linkBytes + 2)
  have split :
      flags = flags.take layout.attributeBytes ++ (links ++ flags.drop layout.entrySize) := by
    have rest : flags.drop layout.entrySize
        = (flags.drop layout.attributeBytes).drop (3 * layout.linkBytes + 2) := by
      rw [List.drop_drop]
      rfl
    rw [rest, List.take_append_drop, List.take_append_drop]
  have short : (flags.take layout.attributeBytes).length = layout.attributeBytes := by
    rw [List.length_take]
    omega
  have flagged := setAttributeBits_part before after inside
  have stop : (asm.withBytes (before ++ (flags ++ after))).position
      = before.length + row.length + after.length := by
    simp only [position, withBytes, List.size_toArray, List.length_append, length]
    omega
  have table := propertyTable_eq_emit (asm.withBytes (before ++ (flags ++ after))) payloads
  rw [stop, withBytes_emit] at table
  have filled := overwrite_part (before ++ flags.take layout.attributeBytes)
    (flags.drop layout.entrySize ++ (after ++ tableBytes asm.version o))
    (show (linkBytes asm.version o
      ++ Word.bytes (before.length + row.length + after.length).toUInt16).length = links.length by
        rw [List.length_append, length_linkBytes, List.length_take, List.length_drop]
        show 3 * layout.linkBytes + 2 = _
        omega)
  rw [List.length_append, short] at filled
  have joined : before ++ (flags ++ after) ++ tableBytes asm.version o
      = before ++ flags.take layout.attributeBytes
        ++ (links ++ (flags.drop layout.entrySize ++ (after ++ tableBytes asm.version o))) := by
    conv => lhs; rw [split]
    simp only [List.append_assoc]
  unfold objectEntry
  dsimp only [withBytes] at table ⊢
  rw [flagged, table]
  dsimp only [patch]
  rw [joined, filled]
  simp only [List.append_assoc]
  rfl

/-- Bits in the first part are set there. -/
theorem foldl_setBit_append {ns bs : List Byte} (cs : List Byte)
    (inside : ∀ n ∈ ns, n.toNat / 8 < bs.length) :
    ns.foldl setBit (bs ++ cs) = ns.foldl setBit bs ++ cs := by
  induction ns generalizing bs with
  | nil => rfl
  | cons n ns ih =>
      have here : n.toNat / 8 < bs.length := inside n (by simp)
      have first : setBit (bs ++ cs) n = setBit bs n ++ cs := by
        rw [setBit, List.set_append_left _ _ here, List.getD_eq_getElem?_getD,
          List.getElem?_append_left here, ← List.getD_eq_getElem?_getD]
        rfl
      rw [List.foldl_cons, first, List.foldl_cons]
      refine ih fun k mem => ?_
      rw [setBit, List.length_set]
      exact inside k (by simp [mem])

/-- The entry of an object is filled in, and its property table appended. -/
theorem objectEntry_eq (fits : o.Fits asm.version) (before after : List Byte) :
    (asm.withBytes (before ++ (List.replicate (ObjectLayout.of asm.version).entrySize 0
      ++ after))).objectEntry before.length o
      = asm.withBytes (before ++ (entryBytes asm.version o
          (before.length + (ObjectLayout.of asm.version).entrySize + after.length)
          ++ (after ++ tableBytes asm.version o))) := by
  let layout := ObjectLayout.of asm.version
  have small (n : Byte) (mem : n ∈ o.attributes) : n.toNat / 8 < layout.attributeBytes := by
    have small : n.toNat < layout.attributeBytes * 8 := fits.attributes n mem
    omega
  have size : layout.entrySize = layout.attributeBytes + (3 * layout.linkBytes + 2) :=
    Nat.add_assoc ..
  -- Of the zeros that were reserved, marking the attributes changes the first bytes only.
  have flags : o.attributes.foldl setBit (List.replicate layout.entrySize 0)
      = attributeBits asm.version o ++ List.replicate (3 * layout.linkBytes + 2) 0 := by
    rw [size, ← List.replicate_append_replicate, foldl_setBit_append]
    · rfl
    · intro n mem
      rw [List.length_replicate]
      exact small n mem
  have filled :=
    @objectEntry_among asm o fits.payloads before (List.replicate layout.entrySize 0) after
    (Nat.le_of_eq List.length_replicate.symm) fun n mem => by
      have := small n mem
      rw [List.length_replicate]
      omega
  -- What stays of the reserved bytes is the attributes; the links and the pointer replace the rest.
  have first : (attributeBits asm.version o ++ List.replicate (3 * layout.linkBytes + 2) 0).take
      layout.attributeBytes = attributeBits asm.version o := List.take_left' length_attributeBits
  have rest : (attributeBits asm.version o ++ List.replicate (3 * layout.linkBytes + 2) 0).drop
      layout.entrySize = [] := by
    refine List.drop_eq_nil_of_le ?_
    rw [List.length_append, length_attributeBits, List.length_replicate]
    exact Nat.le_of_eq size.symm
  rw [flags, first, rest, List.length_replicate] at filled
  exact filled

/-- The entries that are still empty are filled in one after the other. -/
theorem objectEntries_eq (fits : ∀ o ∈ objects, o.Fits asm.version) (before after : List Byte)
    {k base : Nat} (reached : base + k * (ObjectLayout.of asm.version).entrySize = before.length) :
    (objects.zipIdx k).foldl
        (fun asm' p => asm'.objectEntry (base + p.2 * (ObjectLayout.of asm.version).entrySize) p.1)
        (asm.withBytes (before ++ (List.replicate
          (objects.length * (ObjectLayout.of asm.version).entrySize) 0 ++ after)))
      = asm.withBytes (before ++ (entryRow asm.version objects
          (before.length + objects.length * (ObjectLayout.of asm.version).entrySize + after.length)
          ++ (after ++ objects.flatMap (tableBytes asm.version)))) := by
  -- Each entry that is filled in lengthens what stands before the zeros, and its table what is
  -- behind.
  induction objects generalizing before after k with
  | nil => simp [entryRow]
  | cons o os ih =>
      let size := (ObjectLayout.of asm.version).entrySize
      let stop := before.length + (os.length + 1) * size + after.length
      have first : (asm.withBytes (before ++ (List.replicate ((os.length + 1) * size) 0
          ++ after))).objectEntry before.length o
          = asm.withBytes ((before ++ entryBytes asm.version o stop)
            ++ (List.replicate (os.length * size) 0 ++ (after ++ tableBytes asm.version o))) := by
        have here := objectEntry_eq (fits o (by simp)) before
          (List.replicate (os.length * size) 0 ++ after)
        have reserved : List.replicate ((os.length + 1) * size) (0 : Byte) ++ after
            = List.replicate size 0 ++ (List.replicate (os.length * size) 0 ++ after) := by
          rw [← List.append_assoc, List.replicate_append_replicate, Nat.succ_mul, Nat.add_comm size]
        have far :
            before.length + size + (List.replicate (os.length * size) (0 : Byte) ++ after).length
            = stop := by
          simp only [stop, List.length_append, List.length_replicate, Nat.succ_mul]
          omega
        rw [far] at here
        rw [reserved, here]
        simp only [List.append_assoc]
      have rest := ih (fun q mem => fits q (by simp [mem]))
        (before ++ entryBytes asm.version o stop) (after ++ tableBytes asm.version o)
        (k := k + 1) (by
          rw [List.length_append, length_entryBytes, ← reached, Nat.succ_mul, Nat.add_assoc])
      rw [List.zipIdx_cons, List.foldl_cons]
      dsimp only
      have next : (before ++ entryBytes asm.version o stop).length + os.length * size
          + (after ++ tableBytes asm.version o).length
            = stop + (tableBytes asm.version o).length := by
        simp only [stop, List.length_append, length_entryBytes, Nat.succ_mul]
        omega
      rw [next] at rest
      rw [reached, List.length_cons, first, rest]
      simp only [entryRow, List.flatMap_cons, List.append_assoc]
      rfl

/-- The words that an object table begins with. -/
def defaultWords (version : Nat) (defaults : List Word) : List Byte :=
  wordBytes ((List.range (ObjectLayout.of version).defaults).map fun i => defaults.getD i 0)

/-- An object table is what comes of its entries behind the defaults, and is named in the header. -/
theorem objectTable_of_entries {defaults : List Word} {row : List Byte}
    (laid : (objects.zipIdx).foldl
        (fun asm' p => asm'.objectEntry
          ((asm.bytes.toList ++ defaultWords asm.version defaults).length
          + p.2 * (ObjectLayout.of asm.version).entrySize) p.1)
        (asm.withBytes (asm.bytes.toList ++ defaultWords asm.version defaults ++ (List.replicate
          (objects.length * (ObjectLayout.of asm.version).entrySize) 0 ++ [])))
      = asm.withBytes (asm.bytes.toList ++ defaultWords asm.version defaults ++ row)) :
    asm.objectTable defaults objects = (asm.position,
      (asm.emit (defaultWords asm.version defaults ++ row)).patchWord HeaderField.objectTable
        asm.position.toUInt16) := by
  have start :
      asm.text ((List.range (ObjectLayout.of asm.version).defaults).map fun i => defaults.getD i 0)
      = asm.withBytes (asm.bytes.toList ++ defaultWords asm.version defaults) := by
    rw [← withBytes_emit]
    rfl
  have reserved (bs : List Byte) (len : Nat) : (asm.withBytes bs).zeros len
      = (bs.length, asm.withBytes (bs ++ (List.replicate len 0 ++ []))) := by
    simp [zeros, withBytes, position]
  unfold objectTable
  dsimp only
  rw [start, reserved]
  dsimp only
  rw [laid, show asm.emit (defaultWords asm.version defaults ++ row)
    = (asm.withBytes asm.bytes.toList).emit _ from rfl, withBytes_emit, List.append_assoc]

/-- An object table is appended whole, and named in the header. -/
theorem objectTable_emits (fits : ∀ o ∈ objects, o.Fits asm.version) (defaults : List Word) :
    asm.objectTable defaults objects = (asm.position,
      (asm.emit (objectTableBytes asm.version defaults objects asm.position)).patchWord
        HeaderField.objectTable asm.position.toUInt16) := by
  let layout := ObjectLayout.of asm.version
  have laid := objectEntries_eq fits (asm.bytes.toList ++ defaultWords asm.version defaults) []
    (show (asm.bytes.toList ++ defaultWords asm.version defaults).length + 0 * layout.entrySize
      = _ by simp)
  have far : (asm.bytes.toList ++ defaultWords asm.version defaults).length
      + objects.length * layout.entrySize + ([] : List Byte).length
      = asm.position + layout.defaults * 2 + objects.length * layout.entrySize := by
    rw [List.length_append, defaultWords, length_wordBytes, List.length_map, List.length_range]
    rfl
  rw [far] at laid
  exact objectTable_of_entries laid

theorem objectTable_eq_emit (encodable : ∀ o ∈ objects, o.Encodable asm.version)
    (defaults : List Word) :
    asm.objectTable defaults objects = (asm.position,
      (asm.emit (objectTableBytes asm.version defaults objects asm.position)).patchWord
        HeaderField.objectTable asm.position.toUInt16) :=
  objectTable_emits (fun o mem => (encodable o mem).fits) defaults

/-! ## What is laid out without failure -/

/-- A property has a header exactly if its length is one that the version has. -/
theorem isSome_propertyHeader? {version len : Nat} {number : Byte}
    (header : (propertyHeader? version number len).isSome = true) :
    1 ≤ len ∧ len ≤ if version ≤ 3 then 8 else 64 := by
  unfold propertyHeader? at header
  by_cases early : version ≤ 3
  · rw [if_pos early] at header ⊢
    split at header
    · assumption
    · cases header
  · rw [if_neg early] at header ⊢
    split at header
    · omega
    · split at header
      · omega
      · split at header
        · omega
        · cases header

theorem version_property (asm : Assembler) (p : Byte × List Byte) :
    (asm.property p).version = asm.version := by
  unfold property
  split <;> rfl

theorem property_clean {p : Byte × List Byte} (clean : (asm.property p).failure = none) :
    asm.failure = none ∧ Sized asm.version p := by
  unfold property at clean
  split at clean
  · rename_i bs header
    exact ⟨clean, @isSome_propertyHeader? asm.version _ p.1 (by rw [header]; rfl)⟩
  · exact absurd clean (by simp [fail])

theorem properties_clean {ps : List (Byte × List Byte)}
    (clean : (ps.foldl property asm).failure = none) :
    asm.failure = none ∧ (ps.foldl property asm).version = asm.version ∧
      ∀ p ∈ ps, Sized asm.version p := by
  induction ps generalizing asm with
  | nil => exact ⟨clean, rfl, nofun⟩
  | cons p ps ih =>
      obtain ⟨first, same, rest⟩ := ih clean
      rw [version_property] at same rest
      obtain ⟨clean, sized⟩ := property_clean first
      exact ⟨clean, same, List.forall_mem_cons.mpr ⟨sized, rest⟩⟩

theorem objectEntry_clean {entry : Nat} (clean : (asm.objectEntry entry o).failure = none) :
    asm.failure = none ∧ (asm.objectEntry entry o).version = asm.version ∧
      ∀ p ∈ o.properties, Sized asm.version p := by
  obtain ⟨first, same, sized⟩ := @properties_clean _ (ordered o) clean
  exact ⟨first, same, fun p mem => sized p (List.mem_mergeSort.mpr mem)⟩

theorem objectEntries_clean {entry : Nat → Nat} {es : List (ObjectEntry × Nat)}
    (clean : (es.foldl (fun asm e => asm.objectEntry (entry e.2) e.1) asm).failure = none) :
    asm.failure = none ∧ ∀ e ∈ es, ∀ p ∈ e.1.properties, Sized asm.version p := by
  induction es generalizing asm with
  | nil => exact ⟨clean, nofun⟩
  | cons e es ih =>
      obtain ⟨first, rest⟩ := ih clean
      obtain ⟨clean, same, sized⟩ := objectEntry_clean first
      rw [same] at rest
      exact ⟨clean, List.forall_mem_cons.mpr ⟨sized, rest⟩⟩

/-- Whatever is laid out without failure has properties of lengths that the version has. -/
theorem objectTable_clean {defaults : List Word}
    (clean : (asm.objectTable defaults objects).2.failure = none) :
    ∀ o ∈ objects, ∀ p ∈ o.properties, Sized asm.version p := by
  let base := (asm.text ((List.range (ObjectLayout.of asm.version).defaults).map
    fun i => defaults.getD i 0)).position
  obtain ⟨-, sized⟩ := @objectEntries_clean _
    (fun i => base + i * (ObjectLayout.of asm.version).entrySize) objects.zipIdx clean
  intro o mem
  obtain ⟨i, listed⟩ := List.mem_iff_getElem?.mp mem
  exact sized (o, i) (List.mem_zipIdx_iff_getElem?.mpr listed)

theorem payloads_of_finish {version : Byte} {defaults : List Word} {before after : List Emission}
    {image : Array Byte}
    (finished : ((start version).assemble (before ++ .objectTable defaults objects :: after)).finish
      = .ok image) :
    ∀ o ∈ objects, ∀ p ∈ o.properties, Sized version.toNat p := by
  obtain ⟨same, -, -⟩ := assemble_start version before
  rw [assemble_append, assemble_cons] at finished
  obtain ⟨clean, -, -⟩ := @finish_stands (fun _ => False)
    (((start version).assemble before).objectTable defaults objects).2 after image finished
    nofun nofun nofun nofun
  have sized := objectTable_clean clean
  rwa [same] at sized

end Assembler

end ZMachine
