/-
  Reading an object table that was laid out.

  Writer and reader agree on the entries and on the two formats of a property,
  but not everything that the reader needs is written: the number of objects
  follows from where the first property table begins, and a property that is
  absent is told from the order of those that are there.  Every object reads
  as it was described.
-/
import ZMachine.ObjectTable.Property
import ZMachine.Proofs.ObjectImage
import ZMachine.Proofs.ObjectTree

namespace ZMachine

namespace Memory

variable {m : Memory} {a : Nat} {b : Byte} {w : Word} {bs cs : List Byte}

/-! ## Reading what the image holds -/

theorem Holds.left (holds : m.Holds a (bs ++ cs)) : m.Holds a bs := (holds_append.mp holds).1

theorem Holds.right (holds : m.Holds a (bs ++ cs)) : m.Holds (a + bs.length) cs :=
  (holds_append.mp holds).2

theorem Holds.readByte (holds : m.Holds a (b :: bs)) : m.readByte a = .ok b :=
  readByte_eq_ok.mpr ⟨holds.1, holds.2.1⟩

theorem Holds.readWord (holds : m.Holds a (Word.bytes w ++ bs)) : m.readWord a = .ok w := by
  obtain ⟨-, first, inside, second, -⟩ := holds
  rw [readWord_eq_ok, wordAt, first, second]
  exact ⟨inside, Word.ofBytes_bytes w⟩

/-- Words that stand one after the other are read by their number. -/
theorem Holds.readWords {ws : List Word} (holds : m.Holds a (wordBytes ws)) {k : Nat}
    (small : k < ws.length) : m.readWord (a + k * 2) = .ok (ws.getD k 0) := by
  induction ws generalizing a k with
  | nil => cases small
  | cons w ws ih =>
      have parts : m.Holds a (Word.bytes w ++ wordBytes ws) := holds
      cases k with
      | zero =>
          rw [Nat.zero_mul]
          exact parts.readWord
      | succ k =>
          have later := ih parts.right (Nat.lt_of_succ_lt_succ small)
          rw [show (Word.bytes w).length = 2 from rfl, Nat.add_assoc, Nat.add_comm 2] at later
          rw [Nat.succ_mul]
          exact later

theorem Holds.inside (holds : m.Holds a bs) (nonempty : bs ≠ []) : a + bs.length ≤ m.size := by
  induction bs generalizing a with
  | nil => exact absurd rfl nonempty
  | cons b bs ih =>
      obtain ⟨here, -, rest⟩ := holds
      rw [List.length_cons]
      by_cases last : bs = []
      · rw [last]
        exact here
      · have := ih rest last
        omega

theorem Holds.byteAt (holds : m.Holds a bs) {k : Nat} (small : k < bs.length) :
    m.byteAt (a + k) = bs.getD k 0 := by
  have nonempty : bs ≠ [] := List.ne_nil_of_length_pos (by omega)
  exact (holds_iff (holds.inside nonempty)).mp holds k small

theorem Holds.readBytes (holds : m.Holds a bs) (nonempty : bs ≠ []) :
    m.readBytes a bs.length = .ok bs := by
  have inside : a + bs.length ≤ m.size := holds.inside nonempty
  have same : (m.bytes.extract a (a + bs.length)).toList = bs := by
    have length : (m.bytes.extract a (a + bs.length)).toList.length = bs.length := by
      rw [Array.length_toList, Array.size_extract,
        show min _ m.bytes.size = _ from Nat.min_eq_left inside, Nat.add_sub_cancel_left]
    refine List.ext_getElem length fun k _ small => ?_
    have byte : m.bytes.getD (a + k) 0 = bs.getD k 0 := holds.byteAt small
    have here : a + k < m.bytes.size := Nat.lt_of_lt_of_le (by omega) inside
    simpa [Array.getD_eq_getD_getElem?, here, small] using byte
  rw [Memory.readBytes, check, if_pos inside]
  exact congrArg Except.ok same

theorem length_of_readBytes {len : Nat} (read : m.readBytes a len = .ok bs) : bs.length = len := by
  rw [Memory.readBytes, check] at read
  split at read
  case isTrue inside =>
    obtain rfl := Except.ok.inj read
    rw [size] at inside
    rw [Array.length_toList, Array.size_extract]
    omega
  case isFalse => cases read

end Memory

open ObjectEntry Assembler

/-! ## One property -/

/-- What the version can express of a property. -/
structure Listed (version : Nat) (p : Byte × List Byte) : Prop where
  positive : 1 ≤ p.1.toNat
  number : p.1.toNat ≤ (ObjectLayout.of version).defaults
  filled : 1 ≤ p.2.length
  short : p.2.length ≤ if version ≤ 3 then 8 else 64

theorem ObjectEntry.Encodable.listed {version : Nat} {o : ObjectEntry}
    (encodable : o.Encodable version)
    {p : Byte × List Byte} (mem : p ∈ ordered o) : Listed version p :=
  have mem : p ∈ o.properties := List.mem_mergeSort.mp mem
  ⟨(encodable.numbers p mem).1, (encodable.numbers p mem).2, (encodable.payloads p mem).1,
    (encodable.payloads p mem).2⟩

namespace ObjectTable

variable {t : ObjectTable} {m : Memory} {a : Nat} {p : Byte × List Byte}

/-- The record of a property that stands at `a`. -/
def recordAt (version a : Nat) (p : Byte × List Byte) : Property where
  number := p.1
  address := a
  extra := ((propertyHeader? version p.1 p.2.length).getD []).length - 1
  length := p.2.length

/-- The size byte of the early versions has five bits for the number and three for the length. -/
theorem early_bits (number : Byte) (small : number.toNat < 32) : 1 ≤ number.toNat →
    ∀ less < 8, ∀ size : Byte, size = less.toUInt8 <<< (5 : Byte) ||| number &&& 0x1f →
      size ≠ 0 ∧ size &&& 0x1f = number ∧ (size >>> 5).toNat = less := by
  simp only [forall_eq]
  revert number
  refine Byte.of_lt ?_
  decide

/-- The size byte of the later versions has six bits for the number; the two above tell the form. -/
theorem late_bits (number : Byte) (small : number.toNat < 64) (positive : 1 ≤ number.toNat)
    {form : Byte} (listed : form = 0 ∨ form = 0x40 ∨ form = 0x80) {size : Byte}
    (written : size = form ||| number &&& 0x3f) :
    size ≠ 0 ∧ size &&& 0x3f = number ∧ size &&& 0x80 = form &&& 0x80 ∧
      size &&& 0x40 = form &&& 0x40 := by
  subst written
  revert number
  rcases listed with rfl | rfl | rfl
  all_goals
    refine Byte.of_lt ?_
    decide

/-- The second size byte has six bits for the length, which is 64 if they are zero. -/
theorem longLength_bits :
    ∀ len < 65, 3 ≤ len → ∀ size : Byte, size = 0x80 ||| len.toUInt8 &&& 0x3f →
    size &&& 0x80 ≠ 0 ∧ longLength size = len := by
  simp only [forall_eq]
  decide

/-- The property at `a` is read as it was written, and its length is found from where its
data begins. -/
structure Stands (t : ObjectTable) (m : Memory) (a : Nat) (p : Byte × List Byte) : Prop where
  record : t.propertyAt m a = .ok (some (recordAt t.version a p))
  extent : (recordAt t.version a p).extent = (propertyBytes t.version p).length
  data : m.Holds (recordAt t.version a p).data p.2
  length : t.propertyLength m (recordAt t.version a p).data = .ok p.2.length

/-- A property behind one size byte. -/
theorem stands_short {size : Byte} (header : propertyHeader? t.version p.1 p.2.length = some [size])
    (nonzero : size ≠ 0) (plain : 3 < t.version → size &&& 0x80 = 0)
    (number : size &&& (if t.version ≤ 3 then 0x1f else 0x3f) = p.1)
    (length : shortLength t.version size = p.2.length)
    (holds : m.Holds a (propertyBytes t.version p)) : t.Stands m a p := by
  have whole : propertyBytes t.version p = [size] ++ p.2 := by rw [propertyBytes, header]; rfl
  have data : (recordAt t.version a p).data = a + 1 := by
    rw [Property.data, recordAt, header]
    rfl
  rw [whole] at holds
  have byte : m.readByte a = .ok size := holds.readByte
  -- Early versions keep number and length in one byte, later ones mark a second byte that is
  -- missing here.
  refine ⟨?_, ?_, ?_, ?_⟩
  · rw [propertyAt, byte, recordAt, header]
    by_cases early : t.version ≤ 3
    · rw [if_pos early] at number
      simp only [Bind.bind, Except.bind, liftM, monadLift, MonadLift.monadLift, nonzero,
        early, if_true, if_false, number, length]
      rfl
    · rw [if_neg early] at number
      simp only [Bind.bind, Except.bind, liftM, monadLift, MonadLift.monadLift, nonzero,
        early, if_false, plain (by omega), ne_eq, not_true, number, length]
      rfl
  · rw [Property.extent, recordAt, header, whole, List.length_append]
    rfl
  · rw [data]
    exact holds.right
  · have back : ¬(3 < t.version ∧ size &&& 0x80 ≠ 0) := fun long => long.2 (plain long.1)
    rw [data, propertyLength, if_neg (Nat.succ_ne_zero a), Nat.add_sub_cancel, byte]
    simp only [Bind.bind, Except.bind, liftM, monadLift, MonadLift.monadLift, back,
      if_false, length]
    rfl

/-- A property behind two size bytes. -/
theorem stands_long {size second : Byte} (late : 3 < t.version)
    (header : propertyHeader? t.version p.1 p.2.length = some [size, second])
    (nonzero : size ≠ 0) (long : size &&& 0x80 ≠ 0) (number : size &&& 0x3f = p.1)
    (marked : second &&& 0x80 ≠ 0) (length : longLength second = p.2.length)
    (holds : m.Holds a (propertyBytes t.version p)) : t.Stands m a p := by
  have whole : propertyBytes t.version p = [size, second] ++ p.2 := by
    rw [propertyBytes, header]; rfl
  have data : (recordAt t.version a p).data = a + 2 := by
    rw [Property.data, recordAt, header]
    rfl
  rw [whole] at holds
  have byte : m.readByte a = .ok size := holds.readByte
  have byte' : m.readByte (a + 1) = .ok second := Memory.Holds.readByte holds.2.2
  refine ⟨?_, ?_, ?_, ?_⟩
  · rw [propertyAt, byte, recordAt, header]
    simp only [Bind.bind, Except.bind, liftM, monadLift, MonadLift.monadLift, nonzero, if_false,
      Nat.not_le.mpr late, long, ne_eq, not_false_eq_true, if_true, byte', number, length]
    rfl
  · rw [Property.extent, recordAt, header, whole, List.length_append]
    rfl
  · rw [data]
    exact holds.right
  · rw [data, propertyLength, if_neg (Nat.succ_ne_zero (a + 1)),
      Nat.add_sub_cancel (a + 1) 1, byte']
    simp only [Bind.bind, Except.bind, liftM, monadLift, MonadLift.monadLift, late, marked, ne_eq,
      not_false_eq_true, and_self, if_true, length]
    rfl

/-- Every property that the version can express stands where its bytes are. -/
theorem stands_of_holds (listed : Listed t.version p)
    (holds : m.Holds a (propertyBytes t.version p)) : t.Stands m a p := by
  obtain ⟨positive, number, filled, short⟩ := listed
  -- The early versions have one form, the later ones one for each of three kinds of length.
  by_cases early : t.version ≤ 3
  · simp only [ObjectLayout.of, early, if_true] at number short
    obtain ⟨nonzero, low, high⟩ :=
      early_bits p.1 (by omega) positive (p.2.length - 1) (by omega) _ rfl
    refine stands_short ?_ nonzero (by omega) (by rwa [if_pos early]) ?_ holds
    · rw [propertyHeader?, if_pos early, if_pos ⟨filled, short⟩]
    · rw [shortLength, if_pos early, high]
      omega
  · simp only [ObjectLayout.of, early, if_false] at number short
    by_cases one : p.2.length = 1
    · obtain ⟨nonzero, low, top, double⟩ := late_bits p.1 (by omega) positive (.inl rfl) rfl
      rw [UInt8.zero_or] at nonzero low top double
      refine stands_short ?_ nonzero (fun _ => top) (by rwa [if_neg early]) ?_ holds
      · rw [propertyHeader?, if_neg early, if_pos one]
      · rw [shortLength, if_neg early, double, if_neg (by decide), one]
    by_cases two : p.2.length = 2
    · obtain ⟨nonzero, low, top, double⟩ := late_bits p.1 (by omega) positive (.inr (.inl rfl)) rfl
      refine stands_short ?_ nonzero (fun _ => top) (by rwa [if_neg early]) ?_ holds
      · rw [propertyHeader?, if_neg early, if_neg one, if_pos two]
      · rw [shortLength, if_neg early, double, if_pos (by decide), two]
    · obtain ⟨nonzero, low, top, -⟩ := late_bits p.1 (by omega) positive (.inr (.inr rfl)) rfl
      obtain ⟨marked, length⟩ := longLength_bits p.2.length (by omega) (by omega) _ rfl
      refine stands_long (by omega) ?_ nonzero (by rw [top]; decide) low marked length holds
      rw [propertyHeader?, if_neg early, if_neg one, if_neg two, if_pos (by omega)]

/-! ## The properties of an object -/

/-- The properties that stand one after the other from `a` on, up to the end of the table. -/
def Row (t : ObjectTable) (m : Memory) (a : Nat) (ps : List (Byte × List Byte)) : Prop :=
  m.Holds a (ps.flatMap (propertyBytes t.version) ++ [0])

variable {ps qs rs : List (Byte × List Byte)} {number : Word}

theorem Row.first (row : t.Row m a (p :: ps)) (listed : Listed t.version p) : t.Stands m a p := by
  rw [Row, List.flatMap_cons, List.append_assoc] at row
  exact stands_of_holds listed row.left

theorem Row.rest (row : t.Row m a (p :: ps)) :
    t.Row m (a + (propertyBytes t.version p).length) ps := by
  rw [Row, List.flatMap_cons, List.append_assoc] at row
  exact row.right

theorem Row.inside (row : t.Row m a ps) : a < m.size := by
  have room : a + (ps.flatMap (propertyBytes t.version) ++ [0]).length ≤ m.size :=
    Memory.Holds.inside row (by simp)
  rw [List.length_append, List.length_singleton] at room
  omega

/-- At the end of the table there is no property. -/
theorem Row.done (row : t.Row m a []) : t.propertyAt m a = .ok none := by
  have byte : m.readByte a = .ok 0 := Memory.Holds.readByte row
  rw [propertyAt, byte]
  rfl

/-- The property at the beginning of a row, if there is one. -/
theorem Row.propertyAt (row : t.Row m a ps) (listed : ∀ p ∈ ps, Listed t.version p) :
    t.propertyAt m a = .ok (ps.head?.map (recordAt t.version a)) := by
  cases ps with
  | nil => exact row.done
  | cons p ps => exact (row.first (listed p (by simp))).record

/-- One step of the search. -/
theorem Row.findPropertyFrom (row : t.Row m a (p :: ps)) (listed : Listed t.version p) :
    t.findPropertyFrom m number a =
      if p.1.toUInt16 = number then .ok (some (recordAt t.version a p))
      else if p.1.toUInt16 < number then .ok none
      else t.findPropertyFrom m number (a + (propertyBytes t.version p).length) := by
  have stands : t.Stands m a p := row.first listed
  conv => lhs; rw [ObjectTable.findPropertyFrom, if_pos row.inside, stands.record]
  rw [← stands.extent]
  rfl

/-- The property behind others with greater numbers is found. -/
theorem Row.findPropertyFrom_found (row : t.Row m a (qs ++ p :: rs))
    (listed : ∀ q ∈ qs ++ p :: rs, Listed t.version q) (greater : ∀ q ∈ qs, p.1 < q.1) :
    ∃ b, t.findPropertyFrom m p.1.toUInt16 a = .ok (some (recordAt t.version b p)) ∧
      t.Row m b (p :: rs) := by
  induction qs generalizing a with
  | nil => exact ⟨a, (row.findPropertyFrom (listed p (by simp))).trans (if_pos rfl), row⟩
  | cons q qs ih =>
      obtain ⟨b, found, rest⟩ := ih row.rest (fun r mem => listed r (by simp [mem]))
        fun r mem => greater r (by simp [mem])
      -- The search goes on behind every greater number.
      have above : p.1.toNat < q.1.toNat := greater q (by simp)
      have other : ¬q.1.toUInt16 = p.1.toUInt16 := by
        rw [← UInt16.toNat_inj, UInt8.toNat_toUInt16, UInt8.toNat_toUInt16]
        omega
      have more : ¬q.1.toUInt16 < p.1.toUInt16 := by
        rw [UInt16.lt_iff_toNat_lt, UInt8.toNat_toUInt16, UInt8.toNat_toUInt16]
        omega
      refine ⟨b, ?_, rest⟩
      rw [row.findPropertyFrom (listed q (by simp)), if_neg other, if_neg more, found]

/-- A number that is not in a row is not found, wherever the search stops. -/
theorem Row.findPropertyFrom_absent (row : t.Row m a ps) (listed : ∀ p ∈ ps, Listed t.version p)
    (absent : ∀ p ∈ ps, p.1.toUInt16 ≠ number) : t.findPropertyFrom m number a = .ok none := by
  induction ps generalizing a with
  | nil =>
      rw [ObjectTable.findPropertyFrom, if_pos row.inside, row.done]
      rfl
  | cons p ps ih =>
      rw [row.findPropertyFrom (listed p (by simp)), if_neg (absent p (by simp))]
      split
      · rfl
      · exact ih row.rest (fun q mem => listed q (by simp [mem])) fun q mem =>
          absent q (by simp [mem])

end ObjectTable

/-! ## Attributes -/

/-- Whether bit `n` is set, counted from the highest bit of the first byte. -/
def bitAt (bs : List Byte) (n : Nat) : Bool := (bs.getD (n / 8) 0).toNat.testBit (7 - n % 8)

/-- The mask of a bit. -/
theorem toNat_mask (k : Byte) (small : k.toNat < 8) :
    ((0x80 : Byte) >>> k).toNat = 2 ^ (7 - k.toNat) := by
  revert k
  refine Byte.of_lt ?_
  decide

/-- Attributes are counted from the highest bit of the first byte. -/
theorem toNat_attributeMask (number : Word) :
    ((0x80 : Byte) >>> (number % 8).toUInt8).toNat = 2 ^ (7 - number.toNat % 8) := by
  have shift : ((number % 8).toUInt8).toNat = number.toNat % 8 := by
    rw [UInt16.toNat_toUInt8, UInt16.toNat_mod]
    change number.toNat % 8 % 256 = _
    omega
  rw [toNat_mask _ (by omega), shift]

theorem and_mask_ne_zero {b mask : Byte} {k : Nat} (single : mask.toNat = 2 ^ k) :
    (b &&& mask != 0) = b.toNat.testBit k := by
  have zero : b &&& mask = 0 ↔ b.toNat.testBit k = false := by
    rw [← and_bit_eq_zero, Nat.one_shiftLeft, ← single, ← UInt8.toNat_and]
    exact UInt8.toNat_inj.symm
  cases set : b.toNat.testBit k with
  | true =>
      rw [bne_iff_ne, ne_eq, zero, set]
      simp
  | false =>
      rw [bne_eq_false_iff_eq]
      exact zero.mpr set

theorem bitAt_setBit {bs : List Byte} {n : Byte} (inside : n.toNat / 8 < bs.length) (k : Nat) :
    bitAt (setBit bs n) k = (bitAt bs k || decide (n.toNat = k)) := by
  have rest : (n % 8).toNat = n.toNat % 8 := UInt8.toNat_mod ..
  have small : (n % 8).toNat < 8 := by omega
  unfold bitAt setBit
  by_cases here : n.toNat / 8 = k / 8
  · rw [← here, List.getD_eq_getElem?_getD, List.getElem?_set_self inside, Option.getD_some,
      UInt8.toNat_or, Nat.testBit_or, toNat_mask _ small, Nat.testBit_two_pow, rest]
    congr 1
    rw [decide_eq_decide]
    omega
  · have other : n.toNat ≠ k := fun same => here (by rw [same])
    rw [List.getD_eq_getElem?_getD, List.getElem?_set_ne here, ← List.getD_eq_getElem?_getD,
      decide_eq_false other, Bool.or_false]

/-- The bits that were set one after the other are those that are set. -/
theorem bitAt_foldl_setBit {ns bs : List Byte} (inside : ∀ n ∈ ns, n.toNat / 8 < bs.length)
    (k : Nat) : bitAt (ns.foldl setBit bs) k = (bitAt bs k || decide (∃ n ∈ ns, n.toNat = k)) := by
  induction ns generalizing bs with
  | nil => simp
  | cons n ns ih =>
      rw [List.foldl_cons, ih, bitAt_setBit (inside n (by simp)), Bool.or_assoc]
      · congr 1
        rw [← Bool.decide_or]
        simp
      · intro k mem
        rw [setBit, List.length_set]
        exact inside k (by simp [mem])

/-- Without attributes no bit is set. -/
theorem bitAt_replicate (len k : Nat) : bitAt (List.replicate len 0) k = false := by
  unfold bitAt
  rw [List.getD_eq_getElem?_getD, List.getElem?_replicate]
  split <;> exact Nat.zero_testBit _

/-- The attributes of an object are those that it was described with. -/
theorem ObjectEntry.Encodable.bitAt {version : Nat} {o : ObjectEntry}
    (encodable : o.Encodable version)
    (k : Nat) : bitAt (attributeBits version o) k = decide (∃ n ∈ o.attributes, n.toNat = k) := by
  rw [attributeBits, bitAt_foldl_setBit]
  · rw [bitAt_replicate, Bool.false_or]
  · intro n mem
    have small := encodable.attributes n mem
    rw [ObjectLayout.attributes] at small
    rw [List.length_replicate]
    omega

namespace ObjectTable

open Links

variable {t : ObjectTable} {m : Memory} {object number : Word} {o : ObjectEntry} {a b e : Nat}

/-! ## One object -/

theorem attributeCount_le (t : ObjectTable) : t.attributeCount ≤ 256 := by
  unfold attributeCount layout ObjectLayout.of ObjectLayout.attributes
  split <;> decide

/-- The entry of an object and its property table stand in the image, the table within
reach of a word. -/
structure Placed (t : ObjectTable) (m : Memory) (object : Word) (o : ObjectEntry) (b : Nat) :
    Prop where
  within : Within t.count object
  entry : m.Holds (t.entries + (object.toNat - 1) * t.layout.entrySize) (entryBytes t.version o b)
  table : m.Holds b (tableBytes t.version o)
  near : b < 65536

/-- The parts of an entry. -/
theorem entry_parts {version : Nat} (entry : m.Holds e (entryBytes version o b)) :
    m.Holds e (attributeBits version o) ∧
      m.Holds (e + (ObjectLayout.of version).attributeBytes) (linkBytes version o) ∧
      m.Holds (e + (ObjectLayout.of version).propertyOffset) (Word.bytes b.toUInt16) := by
  obtain ⟨bits, rest⟩ := Memory.holds_append.mp entry
  obtain ⟨links, pointer⟩ := Memory.holds_append.mp rest
  rw [length_attributeBits] at links pointer
  rw [length_linkBytes, Nat.add_assoc] at pointer
  exact ⟨bits, links, pointer⟩

theorem Placed.parts (placed : t.Placed m object o b) :
    m.Holds (t.entries + (object.toNat - 1) * t.layout.entrySize) (attributeBits t.version o) ∧
      m.Holds (t.slotAddress .parent object) (linkBytes t.version o) ∧
      m.Holds (t.entries + (object.toNat - 1) * t.layout.entrySize + t.layout.propertyOffset)
        (Word.bytes b.toUInt16) := by
  have parts := entry_parts placed.entry
  rwa [slotAddress, linkAddress, ObjectLink.slot, Nat.zero_mul, Nat.add_zero]

/-- An attribute is a bit of the entry of its object. -/
theorem testAttribute_eq (within : Within t.count object) (small : number.toNat < t.attributeCount)
    (inside : t.entries + (object.toNat - 1) * t.layout.entrySize + number.toNat / 8 + 1 ≤ m.size) :
    t.testAttribute m object number = .ok ((m.byteAt (t.entries
      + (object.toNat - 1) * t.layout.entrySize + number.toNat / 8)).toNat.testBit
        (7 - number.toNat % 8)) := by
  have entry := entry_of_within within
  generalize t.entries + (object.toNat - 1) * t.layout.entrySize = e at entry inside ⊢
  have byte : m.readByte (e + number.toNat / 8) = .ok (m.byteAt (e + number.toNat / 8)) :=
    Memory.readByte_eq_ok.mpr ⟨inside, rfl⟩
  rw [← and_mask_ne_zero (toNat_attributeMask number)]
  simp only [ObjectTable.testAttribute, attributeBit, if_neg (Nat.not_le.mpr small), entry,
    Bind.bind, Except.bind, pure, Except.pure, liftM, monadLift, MonadLift.monadLift, byte]

/-- An attribute is set if the object was described with it. -/
theorem Placed.testAttribute (placed : t.Placed m object o b) (encodable : o.Encodable t.version)
    (small : number.toNat < t.attributeCount) :
    t.testAttribute m object number = .ok (decide (number.toUInt8 ∈ o.attributes)) := by
  obtain ⟨bits, -⟩ := placed.parts
  have inside : number.toNat / 8 < (attributeBits t.version o).length := by
    have : number.toNat < t.layout.attributeBytes * 8 := small
    rw [length_attributeBits]
    change _ < t.layout.attributeBytes
    omega
  have room := bits.inside (List.ne_nil_of_length_pos (by omega))
  rw [testAttribute_eq placed.within small (by omega), bits.byteAt inside]
  have narrow : number.toUInt8.toNat = number.toNat := by
    rw [UInt16.toNat_toUInt8]
    exact Nat.mod_eq_of_lt (Nat.lt_of_lt_of_le small (t.attributeCount_le))
  -- Bits are counted from the top of a byte in the image as by `bitAt`.
  apply congrArg Except.ok
  refine (encodable.bitAt number.toNat).trans ?_
  rw [decide_eq_decide]
  constructor
  · rintro ⟨n, mem, same⟩
    rwa [show number.toUInt8 = n from UInt8.toNat_inj.mp (narrow.trans same.symm)]
  · exact fun mem => ⟨_, mem, narrow⟩

/-- The links lead where the description says. -/
theorem Placed.link (placed : t.Placed m object o b) (encodable : o.Encodable t.version) :
    t.link m .parent object = .ok o.parent ∧ t.link m .sibling object = .ok o.sibling ∧
      t.link m .child object = .ok o.child := by
  obtain ⟨-, links, -⟩ := placed.parts
  have next (link : ObjectLink) : t.slotAddress link object
      = t.slotAddress .parent object + link.slot * t.layout.linkBytes := by
    simp only [slotAddress, linkAddress, ObjectLink.slot, Nat.zero_mul, Nat.add_zero]
  simp only [link_eq_ok _ placed.within, slotValue, next .sibling, next .child, ObjectLink.slot]
  generalize t.slotAddress .parent object = a at links
  -- The three links stand side by side, bytes in the early versions and words in the later ones.
  unfold linkBytes at links
  by_cases early : t.version ≤ 3
  · have narrow (w : Word) (small : w.toNat ≤ 255) : w.toUInt8.toUInt16 = w := by
      rw [← UInt16.toNat_inj, UInt8.toNat_toUInt16, UInt16.toNat_toUInt8]
      omega
    obtain ⟨parent, sibling, child⟩ := encodable.links early
    have width : t.layout.linkBytes = 1 := by rw [layout, ObjectLayout.of, if_pos early]
    rw [if_pos early] at links
    obtain ⟨inside₁, first, inside₂, second, inside₃, third, -⟩ := links
    rw [width, if_pos early, if_pos early, if_pos early]
    refine ⟨⟨inside₁, ?_⟩, ⟨inside₂, ?_⟩, inside₃, ?_⟩
    · rw [first, narrow _ parent]
    · rw [second, narrow _ sibling]
    · rw [third, narrow _ child]
  · have width : t.layout.linkBytes = 2 := by rw [layout, ObjectLayout.of, if_neg early]
    rw [if_neg early] at links
    obtain ⟨-, high₁, inside₁, low₁, -, high₂, inside₂, low₂, -, high₃, inside₃, low₃, -⟩ := links
    rw [width, if_neg early, if_neg early, if_neg early]
    refine ⟨⟨inside₁, ?_⟩, ⟨inside₂, ?_⟩, inside₃, ?_⟩
    · rw [Memory.wordAt, high₁, low₁, Word.ofBytes_bytes]
    · rw [Memory.wordAt, high₂, low₂, Word.ofBytes_bytes]
    · rw [Memory.wordAt, high₃, low₃, Word.ofBytes_bytes]

theorem Placed.propertyTable (placed : t.Placed m object o b) :
    t.propertyTable m object = .ok b := by
  obtain ⟨-, -, pointer⟩ := placed.parts
  have word := Memory.Holds.readWord (show m.Holds _ (Word.bytes b.toUInt16 ++ []) from pointer)
  have number : b.toUInt16.toNat = b := by
    rw [UInt16.toNat_ofNat']
    exact Nat.mod_eq_of_lt placed.near
  simp only [ObjectTable.propertyTable, entry_of_within placed.within, word, number, Bind.bind,
    Except.bind, pure, Except.pure, liftM, monadLift, MonadLift.monadLift]

/-- The number of words in front of a name tells where it ends. -/
theorem nameBytes_split {version : Nat} (encodable : o.Encodable version) : ∃ count words,
    nameBytes version o.name = count :: words ∧ count.toNat * 2 = words.length := by
  unfold nameBytes
  split
  · exact ⟨0, [], rfl, rfl⟩
  · refine ⟨_, _, rfl, ?_⟩
    have short := encodable.name
    rw [length_wordBytes, UInt8.toNat_ofNat']
    omega

theorem length_nameBytes {version : Nat} (encodable : o.Encodable version) :
    (nameBytes version o.name).length = 1 + ((nameBytes version o.name).headD 0).toNat * 2 := by
  obtain ⟨count, words, split, length⟩ := nameBytes_split encodable
  rw [split, List.headD_cons, List.length_cons, length, Nat.add_comm]

/-- The properties stand behind the name. -/
theorem Placed.name (placed : t.Placed m object o b) (encodable : o.Encodable t.version) :
    m.readByte b = .ok ((nameBytes t.version o.name).headD 0) ∧
      t.Row m (b + 1 + ((nameBytes t.version o.name).headD 0).toNat * 2) (ordered o) := by
  obtain ⟨name, row⟩ := Memory.holds_append.mp placed.table
  obtain ⟨count, words, split, length⟩ := nameBytes_split encodable
  rw [split] at name row ⊢
  refine ⟨name.readByte, ?_⟩
  rw [List.headD_cons, length, Nat.add_assoc, Nat.add_comm 1]
  exact row

/-- The properties begin behind the name. -/
theorem Placed.firstPropertyAddress (placed : t.Placed m object o b)
    (encodable : o.Encodable t.version) :
    ∃ a, t.firstPropertyAddress m object = .ok a ∧ t.Row m a (ordered o) := by
  obtain ⟨byte, row⟩ := placed.name encodable
  refine ⟨_, ?_, row⟩
  simp only [ObjectTable.firstPropertyAddress, shortName, placed.propertyTable, byte, Bind.bind,
    Except.bind, pure, Except.pure, liftM, monadLift, MonadLift.monadLift]

/-- The numbers stand in descending order, each of them once. -/
theorem ordered_descending {version : Nat} (encodable : o.Encodable version) :
    (ordered o).Pairwise fun p q => q.1 < p.1 := by
  have sorted : (ordered o).Pairwise fun p q => decide (q.1 ≤ p.1) = true := by
    refine List.pairwise_mergeSort (fun p q r pq qr => ?_) (fun p q => ?_) o.properties
    · exact decide_eq_true (UInt8.le_trans (of_decide_eq_true qr) (of_decide_eq_true pq))
    · simpa using UInt8.le_total q.1 p.1
  have distinct : (ordered o).Pairwise fun p q => p.1 ≠ q.1 := by
    refine List.pairwise_map.mp (List.nodup_iff_pairwise_ne.mp ?_)
    exact (((ordered_perm o).map Prod.fst).nodup_iff).mpr encodable.distinct
  refine (sorted.and distinct).imp fun {p q} both => ?_
  exact UInt8.lt_of_le_of_ne (of_decide_eq_true both.1) both.2.symm

/-- An object reads as it was described: its attributes and links, the data and the length of every
property that it has and none that it lacks, their numbers in descending order, and the defaults of
those that it lacks. -/
structure Shows (t : ObjectTable) (m : Memory) (defaults : List Word) (object : Word)
    (o : ObjectEntry) :
    Prop where
  attributes : ∀ number : Word, number.toNat < t.attributeCount →
    t.testAttribute m object number = .ok (decide (number.toUInt8 ∈ o.attributes))
  parent : t.link m .parent object = .ok o.parent
  sibling : t.link m .sibling object = .ok o.sibling
  child : t.link m .child object = .ok o.child
  found : ∀ p ∈ o.properties, ∃ record, t.findProperty m object p.1.toUInt16 = .ok (some record) ∧
    record.number = p.1 ∧ m.readBytes record.data record.length = .ok p.2 ∧
    t.propertyLength m record.data = .ok p.2.length
  absent : ∀ number : Word, (∀ p ∈ o.properties, p.1.toUInt16 ≠ number) →
    t.findProperty m object number = .ok none
  next : ∃ numbers : List Byte, numbers.Perm (o.properties.map Prod.fst) ∧
    numbers.Pairwise (fun k l => l < k) ∧
    ∀ before after, numbers = before ++ after →
      t.nextProperty m object (before.getLast?.getD 0).toUInt16 = .ok (after.head?.getD 0)
  defaulted : ∀ number : Word, 1 ≤ number.toNat → number.toNat ≤ t.layout.defaults →
    (∀ p ∈ o.properties, p.1.toUInt16 ≠ number) →
    t.property m object number = .ok (defaults.getD (number.toNat - 1) 0)

variable {defaults : List Word} {p : Byte × List Byte} {qs rs : List (Byte × List Byte)}

/-- The property defaults stand in front of the entries. -/
theorem defaultProperty_of_holds (holds : m.Holds t.defaults (wordBytes
      ((List.range t.layout.defaults).map fun i => defaults.getD i 0)))
    (positive : 1 ≤ number.toNat) (few : number.toNat ≤ t.layout.defaults) :
    t.defaultProperty m number = .ok (defaults.getD (number.toNat - 1) 0) := by
  have listed : ¬(number = 0 ∨ t.layout.defaults < number.toNat) := by
    rintro (rfl | many)
    · cases positive
    · omega
  have word := holds.readWords (k := number.toNat - 1) (by simp; omega)
  rw [List.getD_eq_getElem?_getD, List.getElem?_map, List.getElem?_range (by omega)] at word
  rw [defaultProperty, if_neg listed, word]
  rfl

/-- A property is found among those of its object. -/
theorem Row.findProperty (row : t.Row m a (ordered o)) (encodable : o.Encodable t.version)
    (split : ordered o = qs ++ p :: rs) :
    ∃ b, t.findPropertyFrom m p.1.toUInt16 a = .ok (some (recordAt t.version b p)) ∧
      t.Row m b (p :: rs) ∧ t.Stands m b p := by
  have listed : ∀ q ∈ ordered o, Listed t.version q := fun q mem => encodable.listed mem
  have descending := ordered_descending encodable
  rw [split] at row listed descending
  have greater : ∀ q ∈ qs, p.1 < q.1 := fun q mem =>
    (List.pairwise_append.mp descending).2.2 q mem p (by simp)
  obtain ⟨b, found, rest⟩ := row.findPropertyFrom_found listed greater
  exact ⟨b, found, rest, rest.first (listed p (by simp))⟩

/-- After every number comes the next one; 0 stands in front of the first and behind the last. -/
theorem Row.nextProperty (row : t.Row m a (ordered o)) (encodable : o.Encodable t.version)
    (first : t.firstPropertyAddress m object = .ok a) (split : ordered o = qs ++ rs) :
    t.nextProperty m object ((qs.map Prod.fst).getLast?.getD 0).toUInt16
      = .ok ((rs.map Prod.fst).head?.getD 0) := by
  have listed : ∀ p ∈ ordered o, Listed t.version p := fun p mem => encodable.listed mem
  have number (x : Nat) : (((rs.head?).map (recordAt t.version x)).map Property.number).getD 0
      = (rs.map Prod.fst).head?.getD 0 := by
    cases rs <;> rfl
  -- After 0 comes the first property; after another number the one behind the property
  -- that is found.
  rcases List.eq_nil_or_concat qs with rfl | ⟨qs, p, rfl⟩
  · have head := row.propertyAt listed
    rw [split, List.nil_append] at head
    rw [ObjectTable.nextProperty]
    simp only [List.map_nil, List.getLast?_nil, Option.getD_none, firstProperty, first, Bind.bind,
      Except.bind, head, number, pure, Except.pure]
    exact if_pos rfl
  · rw [List.concat_eq_append, List.append_assoc, List.singleton_append] at split
    obtain ⟨b, found, here, stands⟩ := row.findProperty encodable split
    have last : (((qs.concat p).map Prod.fst).getLast?.getD 0) = p.1 := by simp
    have nonzero : ¬p.1.toUInt16 = 0 := by
      have positive := (listed p (by simp [split])).positive
      rw [← UInt16.toNat_inj, UInt8.toNat_toUInt16]
      exact Nat.ne_of_gt positive
    have head := here.rest.propertyAt fun q mem => listed q (by simp [split, mem])
    have next : (recordAt t.version b p).next = b + (propertyBytes t.version p).length :=
      congrArg (b + ·) stands.extent
    rw [last, ObjectTable.nextProperty, if_neg nonzero, ObjectTable.findProperty, first]
    simp only [Bind.bind, Except.bind, found, next, head, number, pure, Except.pure]

theorem Placed.shows (placed : t.Placed m object o b) (encodable : o.Encodable t.version)
    (holds : m.Holds t.defaults (wordBytes
      ((List.range t.layout.defaults).map fun i => defaults.getD i 0))) :
    t.Shows m defaults object o := by
  -- The properties stand in a row, from the greatest number down.
  obtain ⟨a, first, row⟩ := placed.firstPropertyAddress encodable
  have listed : ∀ p ∈ ordered o, Listed t.version p := fun p mem => encodable.listed mem
  have find (number : Word) : t.findProperty m object number = t.findPropertyFrom m number a := by
    rw [findProperty, first]
    rfl
  obtain ⟨parent, sibling, child⟩ := placed.link encodable
  have absent (number : Word) (other : ∀ p ∈ o.properties, p.1.toUInt16 ≠ number) :
      t.findProperty m object number = .ok none := by
    rw [find]
    exact row.findPropertyFrom_absent listed fun p mem => other p (List.mem_mergeSort.mp mem)
  refine ⟨fun number => placed.testAttribute encodable, parent, sibling, child, ?_, absent, ?_, ?_⟩
  · intro p mem
    obtain ⟨qs, rs, split⟩ := List.append_of_mem (List.mem_mergeSort.mpr mem : p ∈ ordered o)
    obtain ⟨b, found, -, stands⟩ := row.findProperty encodable split
    have filled : p.2 ≠ [] := List.ne_nil_of_length_pos (encodable.payloads p mem).1
    exact ⟨_, (find _).trans found, rfl, stands.data.readBytes filled, stands.length⟩
  · refine ⟨(ordered o).map Prod.fst, (ordered_perm o).map _,
      List.pairwise_map.mpr (ordered_descending encodable), fun before after numbers => ?_⟩
    obtain ⟨qs, rs, split, rfl, rfl⟩ := List.map_eq_append_iff.mp numbers
    exact row.nextProperty encodable first split
  -- A property that the object lacks has its default.
  · intro number positive few other
    rw [property, absent number other]
    exact defaultProperty_of_holds holds positive few

/-! ## The whole table -/

/-- The numbers of the objects fit into words. -/
theorem toNat_number {version n i : Nat} (few : n ≤ (ObjectLayout.of version).maxObjects)
    (small : i < n) : (i + 1).toUInt16.toNat = i + 1 := by
  have wide : (ObjectLayout.of version).maxObjects ≤ 65535 := by
    unfold ObjectLayout.of
    split <;> decide
  rw [UInt16.toNat_ofNat']
  omega

/-- The reader counts the entries in front of the first property table, if that is the lowest, but
no more than it may. -/
theorem scan_eq {l : ObjectLayout} {entries n first limit count lowest : Nat}
    (room : first = entries + n * l.entrySize)
    (pointers : ∀ i < n, first ≤ (m.wordAt (entries + i * l.entrySize + l.propertyOffset)).toNat)
    (zeroth : (m.wordAt (entries + 0 * l.entrySize + l.propertyOffset)).toNat = first)
    (positive : 1 ≤ n) (counted : count ≤ n) (above : first ≤ lowest)
    (seen : 1 ≤ count → lowest = first) :
    scan m l entries limit count lowest = min n (count + limit) := by
  -- By the entries that may still be counted; the lowest pointer seen is that of the first entry.
  induction limit generalizing count lowest with
  | zero =>
      rw [scan]
      omega
  | succ limit ih =>
      have size : 1 ≤ l.entrySize := by
        rw [ObjectLayout.entrySize]
        omega
      rw [scan]
      by_cases last : count = n
      · -- The entry behind the last one reaches into the first property table.
        rw [seen (by omega), last, if_pos (by omega)]
        omega
      · have fits : entries + count * l.entrySize + l.entrySize ≤ first := by
          have := Nat.mul_le_mul_right l.entrySize (show count + 1 ≤ n by omega)
          rw [Nat.succ_mul] at this
          omega
        have pointer := pointers count (by omega)
        dsimp only
        rw [if_neg (by omega), if_neg (by omega),
          show count + (limit + 1) = count + 1 + limit by omega]
        refine ih (by omega) (by omega) fun _ => ?_
        by_cases begun : 1 ≤ count
        · rw [seen begun]
          omega
        · obtain rfl : count = 0 := by omega
          rw [zeroth]
          omega

/-- The entries stand one after the other, and so do the property tables. -/
theorem holds_entries {version : Nat} {objects : List ObjectEntry} {i : Nat}
    (entries : m.Holds e (entryRow version objects a))
    (tables : m.Holds a (objects.flatMap (tableBytes version))) (listed : objects[i]? = some o) :
    m.Holds (e + i * (ObjectLayout.of version).entrySize)
        (entryBytes version o (tableStart version objects a i)) ∧
      m.Holds (tableStart version objects a i) (tableBytes version o) := by
  induction objects generalizing e a i with
  | nil => simp at listed
  | cons o' os ih =>
      rw [List.flatMap_cons] at tables
      cases i with
      | zero =>
          cases listed
          rw [tableStart_zero, Nat.zero_mul]
          exact ⟨entries.left, tables.left⟩
      | succ i =>
          obtain ⟨entry, table⟩ := ih (Memory.Holds.right entries) tables.right listed
          rw [length_entryBytes, Nat.add_assoc, Nat.add_comm _ (i * _)] at entry
          rw [Nat.succ_mul, tableStart_cons]
          exact ⟨entry, table⟩

section Row

variable {version first i : Nat} {objects : List ObjectEntry}

/-- Behind the last property table there are addresses left, so a word names the beginning
of each. -/
theorem tableStart_lt_of_near (near : first + (objects.flatMap (tableBytes version)).length ≤ 65536)
    (listed : objects[i]? = some o) : tableStart version objects first i < 65536 :=
  Nat.lt_of_lt_of_le (tableStart_lt first listed) near

variable (row : m.Holds e (entryRow version objects first))
  (tables : m.Holds first (objects.flatMap (tableBytes version)))
  (near : first + (objects.flatMap (tableBytes version)).length ≤ 65536)

include row tables near

/-- Every entry points to its property table. -/
theorem wordAt_pointer (small : i < objects.length) :
    (m.wordAt (e + i * (ObjectLayout.of version).entrySize
      + (ObjectLayout.of version).propertyOffset)).toNat = tableStart version objects first i := by
  have listed := List.getElem?_eq_getElem small
  obtain ⟨entry, -⟩ := holds_entries row tables listed
  obtain ⟨-, high, -, last, -⟩ := (entry_parts entry).2.2
  rw [Memory.wordAt, high, last, Word.ofBytes_bytes, UInt16.toNat_ofNat',
    Nat.mod_eq_of_lt (tableStart_lt_of_near near listed)]

/-- Counting goes by the pointers: none of them leads below the first table, and the first leads to
it. -/
theorem scan_of_holds (behind : first = e + objects.length * (ObjectLayout.of version).entrySize)
    (nonempty : 1 ≤ objects.length) :
    scan m (ObjectLayout.of version) e (ObjectLayout.of version).maxObjects 0 m.size
      = min objects.length (ObjectLayout.of version).maxObjects := by
  obtain ⟨-, table⟩ := holds_entries row tables (List.getElem?_eq_getElem nonempty)
  have inside : first < m.size := by
    have table : m.Holds first (tableBytes version objects[0]) := table
    have := table.inside (by simp [tableBytes])
    simp only [tableBytes, List.length_append, List.length_singleton] at this
    omega
  conv => rhs; rw [← Nat.zero_add (ObjectLayout.of version).maxObjects]
  refine scan_eq behind (fun i small => ?_) ?_ nonempty (Nat.zero_le _) (Nat.le_of_lt inside)
    (fun positive => by cases positive)
  · rw [wordAt_pointer row tables near small]
    exact le_tableStart version objects first i
  · rw [wordAt_pointer row tables near nonempty, tableStart_zero]

end Row

/-- An object table stands in the image where the header says, and a word can name its end. -/
structure StandsFor (m : Memory) (h : Header) (defaults : List Word) (objects : List ObjectEntry) :
    Prop where
  named : 1 ≤ h.objectTable.toNat
  holds :
      m.Holds h.objectTable.toNat (objectTableBytes h.version defaults objects h.objectTable.toNat)
  near : h.objectTable.toNat
    + (objectTableBytes h.version defaults objects h.objectTable.toNat).length ≤ 65536

section StandsFor

variable {h : Header} {objects : List ObjectEntry} (stands : StandsFor m h defaults objects)
  (nonempty : 1 ≤ objects.length)

include stands nonempty

/-- As many objects are counted as the version can have, and the defaults, the entries and the
property tables have their places. -/
theorem StandsFor.placed_below :
    (ofHeader m h).count = min objects.length (ObjectLayout.of h.version).maxObjects ∧
      m.Holds h.objectTable.toNat (wordBytes
        ((List.range (ObjectLayout.of h.version).defaults).map fun i => defaults.getD i 0)) ∧
      ∀ i o, objects[i]? = some o → i < (ObjectLayout.of h.version).maxObjects →
        (ofHeader m h).Placed m (i + 1).toUInt16 o
          (tableStart h.version objects
            (h.objectTable.toNat + (ObjectLayout.of h.version).defaults * 2
            + objects.length * (ObjectLayout.of h.version).entrySize) i) := by
  let layout := ObjectLayout.of h.version
  let entries := h.objectTable.toNat + layout.defaults * 2
  let first := entries + objects.length * layout.entrySize
  -- The table is the defaults, then the entries, then the property tables.
  obtain ⟨words, rest⟩ := Memory.holds_append.mp stands.holds
  rw [length_wordBytes, List.length_map, List.length_range] at rest
  obtain ⟨row, tables⟩ := Memory.holds_append.mp rest
  rw [length_entryRow] at tables
  have near : first + (objects.flatMap (tableBytes h.version)).length ≤ 65536 := by
    have near := stands.near
    rw [objectTableBytes, List.length_append, length_wordBytes, List.length_map, List.length_range,
      List.length_append, length_entryRow] at near
    simp only [first, entries, layout]
    omega
  have count : (ofHeader m h).count = min objects.length layout.maxObjects := by
    show (if h.objectTable.toNat = 0 then 0
      else scan m layout entries layout.maxObjects 0 m.size) = _
    rw [if_neg (Nat.ne_of_gt stands.named)]
    exact scan_of_holds row tables near rfl nonempty
  refine ⟨count, words, fun i o listed few => ?_⟩
  obtain ⟨entry, table⟩ := holds_entries row tables listed
  obtain ⟨small, -⟩ := List.getElem?_eq_some_iff.mp listed
  have number := toNat_number (Nat.le_refl _) few
  refine ⟨⟨?_, ?_⟩, ?_, table, tableStart_lt_of_near near listed⟩
  · rw [ne_eq, ← UInt16.toNat_inj, number]
    exact Nat.succ_ne_zero i
  · rw [number, count]
    exact Nat.le_min.mpr ⟨small, few⟩
  · rw [number]
    exact entry

/-- All objects are counted if the version can have so many. -/
theorem StandsFor.placed (few : objects.length ≤ (ObjectLayout.of h.version).maxObjects) :
    (ofHeader m h).count = objects.length ∧
      m.Holds h.objectTable.toNat (wordBytes
        ((List.range (ObjectLayout.of h.version).defaults).map fun i => defaults.getD i 0)) ∧
      ∀ i o, objects[i]? = some o → (ofHeader m h).Placed m (i + 1).toUInt16 o
        (tableStart h.version objects
          (h.objectTable.toNat + (ObjectLayout.of h.version).defaults * 2
          + objects.length * (ObjectLayout.of h.version).entrySize) i) := by
  obtain ⟨count, words, placed⟩ := stands.placed_below nonempty
  refine ⟨count.trans (Nat.min_eq_left few), words, fun i o listed => placed i o listed ?_⟩
  obtain ⟨small, -⟩ := List.getElem?_eq_some_iff.mp listed
  exact Nat.lt_of_lt_of_le small few

/-- Every object reads as it was described. -/
theorem StandsFor.shows (encodable : ∀ o ∈ objects, o.Encodable h.version)
    (few : objects.length ≤ (ObjectLayout.of h.version).maxObjects) :
    (ofHeader m h).count = objects.length ∧
      ∀ i o, objects[i]? = some o → (ofHeader m h).Shows m defaults (i + 1).toUInt16 o := by
  obtain ⟨count, words, placed⟩ := stands.placed nonempty few
  refine ⟨count, fun i o listed => ?_⟩
  exact (placed i o listed).shows (encodable o (List.mem_of_getElem? listed)) words

end StandsFor

end ObjectTable

/-! ## A finished image -/

namespace Assembler

variable {version : Byte} {before after : List Emission} {defaults : List Word}
  {objects : List ObjectEntry} {image : Array Byte}

/-- The bytes that an object table is kept in: its own and the word of the header that names it. -/
def OfObjectTable (asm : Assembler) (defaults : List Word) (objects : List ObjectEntry)
    (x : Nat) : Prop :=
  HeaderField.objectTable ≤ x ∧ x < HeaderField.objectTable + 2 ∨
    asm.position ≤ x ∧ x < (asm.objectTable defaults objects).2.position

theorem length_objectTableBytes_pos (version : Nat) (defaults : List Word)
    (objects : List ObjectEntry)
    (a : Nat) : 1 ≤ (objectTableBytes version defaults objects a).length := by
  have words : 1 ≤ (ObjectLayout.of version).defaults := by
    unfold ObjectLayout.of
    split <;> decide
  simp only [objectTableBytes, List.length_append, length_wordBytes, List.length_map,
    List.length_range]
  omega

theorem position_patchWord (asm : Assembler) (a : Nat) (w : Word) :
    (asm.patchWord a w).position = asm.position := size_overwrite ..

theorem failure_patchWord_emit (asm : Assembler) (bs : List Byte) (a : Nat) (w : Word) :
    ((asm.emit bs).patchWord a w).failure = asm.failure := rfl

/-- A word that was put over two bytes is read back. -/
theorem wordAt_of_overwrite {bytes : Array Byte} {a : Nat} {w : Word} (inside : a + 2 ≤ bytes.size)
    (same : ∀ x, a ≤ x → x < a + 2 →
      image.getD x 0 = (overwrite bytes a (Word.bytes w)).getD x 0) :
    (Memory.ofBytes image).wordAt a = w := by
  have byte (k : Nat) (small : k < 2) :
      (Memory.ofBytes image).byteAt (a + k) = (Word.bytes w).getD k 0 := by
    have low : a ≤ a + k := Nat.le_add_right a k
    have high : a + k < a + 2 := Nat.add_lt_add_left small a
    refine (same (a + k) low high).trans ?_
    rw [getD_overwrite_of_mem bytes a (a + k) (Word.bytes w) low high inside,
      Nat.add_sub_cancel_left]
  rw [Memory.wordAt, byte 1 (by omega), ← Nat.add_zero a, byte 0 (by omega)]
  exact Word.ofBytes_bytes w

/-- Neither labels nor the length and the checksum of the header reach into what is kept. -/
theorem stands_objectTable {asm : Assembler} {table : List Byte} (body : headerSize ≤ asm.position)
    (references : ∀ r ∈ asm.references.toList, headerSize ≤ r.site ∧ r.site + 2 ≤ asm.position)
    (laid : (asm.objectTable defaults objects).2
      = (asm.emit table).patchWord HeaderField.objectTable asm.position.toUInt16)
    (finished : ((asm.objectTable defaults objects).2.assemble after).finish = .ok image)
    (unpatched : ∀ e ∈ after, ∀ x, asm.OfObjectTable defaults objects x → ¬e.Touches x) :
    (asm.objectTable defaults objects).2.position ≤ image.size ∧
      ∀ x, asm.OfObjectTable defaults objects x →
        image.getD x 0 = (asm.objectTable defaults objects).2.bytes.getD x 0 := by
  have grows : asm.position ≤ (asm.objectTable defaults objects).2.position := by
    rw [laid, position_patchWord, position_emit]
    omega
  simp only [headerSize] at body references
  -- The word of the header lies below every label and the table behind them, and the length and the
  -- checksum stand elsewhere in the header.
  refine (finish_stands finished ?_ unpatched ?_ ?_).2
  · rintro x (⟨-, high⟩ | ⟨-, high⟩)
    · simp only [HeaderField.objectTable] at high
      omega
    · exact high
  · intro r mem x kept
    rw [laid] at mem
    obtain ⟨behind, before⟩ := references r mem
    rcases kept with ⟨-, high⟩ | ⟨low, -⟩
    · simp only [HeaderField.objectTable] at high
      omega
    · exact .inr (Nat.le_trans before low)
  · rintro x (⟨-, high⟩ | ⟨low, -⟩) ⟨first, last⟩
    · simp only [HeaderField.objectTable, HeaderField.fileLength] at high first
      omega
    · simp only [HeaderField.checksum] at last
      omega

/-- An object table stands where the assembler put it, and the header names it. -/
theorem holds_objectTable (fits : ∀ o ∈ objects, o.Fits version.toNat)
    (near : (((start version).assemble before).objectTable defaults objects).2.position ≤ 65536)
    (finished : ((start version).assemble (before ++ .objectTable defaults objects :: after)).finish
      = .ok image)
    (unpatched : ∀ e ∈ after, ∀ x,
      ((start version).assemble before).OfObjectTable defaults objects x → ¬e.Touches x) :
    ((Memory.ofBytes image).wordAt HeaderField.objectTable).toNat
      = ((start version).assemble before).position ∧
      (Memory.ofBytes image).Holds ((start version).assemble before).position
        (objectTableBytes version.toNat defaults objects
          ((start version).assemble before).position) := by
  obtain ⟨same, body, references⟩ := assemble_start version before
  have behind := references_start version before
  rw [assemble_append, assemble_cons] at finished
  -- What came before counts as an assembler only, and the table as a list of bytes.
  generalize (start version).assemble before = asm at *
  rw [← same] at fits ⊢
  have laid := congrArg Prod.snd (objectTable_emits fits defaults)
  have filled := length_objectTableBytes_pos asm.version defaults objects asm.position
  generalize objectTableBytes asm.version defaults objects asm.position = table at laid filled ⊢
  dsimp only at laid
  obtain ⟨size, bytes⟩ :=
    stands_objectTable body (fun r mem => ⟨behind r mem, references r mem⟩) laid
    finished unpatched
  have position : (asm.objectTable defaults objects).2.position = (asm.emit table).position := by
    rw [laid, position_patchWord]
  have written : (asm.objectTable defaults objects).2.bytes
      = overwrite (asm.emit table).bytes HeaderField.objectTable
        (Word.bytes asm.position.toUInt16) := by
    rw [laid]
    rfl
  rw [position] at near size
  rw [written] at bytes
  have low : asm.position ≤ (asm.emit table).position := by
    rw [position_emit]
    omega
  simp only [headerSize] at body
  constructor
  -- The word of the header was written last, over bytes that were there.
  · have inside : HeaderField.objectTable + 2 ≤ (asm.emit table).position := by
      simp only [HeaderField.objectTable]
      omega
    have word := wordAt_of_overwrite inside fun x low high => bytes x (.inl ⟨low, high⟩)
    rw [position_emit] at near
    rw [word, UInt16.toNat_ofNat', Nat.mod_eq_of_lt (by omega)]
  -- That word lies below the table, so the table is as it was laid out.
  · refine holds_emit size fun x low high => ?_
    have high : x < (asm.objectTable defaults objects).2.position := by rwa [position]
    have far : HeaderField.objectTable + 2 ≤ x := by
      simp only [HeaderField.objectTable]
      omega
    exact (bytes x (.inr ⟨low, high⟩)).trans (getD_overwrite_of_ge _ _ _ _ far)

/-- An object table was laid out within reach of a word, and neither it nor the version in the
header was written over until the image was finished. -/
structure LaidOut (version : Byte) (before : List Emission) (defaults : List Word)
    (objects : List ObjectEntry) (after : List Emission) (image : Array Byte) : Prop where
  known : 1 ≤ version.toNat ∧ version.toNat ≤ 8
  near : (((start version).assemble before).objectTable defaults objects).2.position ≤ 65536
  finished : ((start version).assemble (before ++ .objectTable defaults objects :: after)).finish
      = .ok image
  unchanged : ∀ e ∈ before ++ after, ¬e.Touches HeaderField.version
  unpatched : ∀ e ∈ after, ∀ x,
    ((start version).assemble before).OfObjectTable defaults objects x → ¬e.Touches x

/-- The header of a finished image names the object table that was laid out in it. -/
theorem LaidOut.exists_header (laid : LaidOut version before defaults objects after image)
    (fits : ∀ o ∈ objects, o.Fits version.toNat) :
    ∃ h, Header.read (.ofBytes image) = .ok h ∧ h.version = version.toNat ∧
      h.objectTable.toNat = ((start version).assemble before).position ∧
      ObjectTable.StandsFor (.ofBytes image) h defaults objects := by
  obtain ⟨same, body, -⟩ := assemble_start version before
  have emits := objectTable_emits (same ▸ fits) defaults
  obtain ⟨named, holds⟩ := holds_objectTable fits laid.near laid.finished laid.unpatched
  -- The version byte is that of the start, as nothing is put over it.
  have byte : (Memory.ofBytes image).byteAt HeaderField.version = version := by
    refine finish_version laid.finished fun e mem => ?_
    rcases List.mem_append.mp mem with mem | mem
    · exact laid.unchanged e (by simp [mem])
    · rcases List.mem_cons.mp mem with rfl | mem
      · exact fun touches => absurd touches.1 (by decide)
      · exact laid.unchanged e (by simp [mem])
  have filled := length_objectTableBytes_pos version.toNat defaults objects
    ((start version).assemble before).position
  have inside := holds.inside (List.ne_nil_of_length_pos filled)
  obtain ⟨h, reads⟩ := Header.exists_read (Nat.le_trans body (by omega)) (byte.symm ▸ laid.known)
  obtain ⟨-, -, version', table, -⟩ := Header.fields_of_read reads
  rw [byte] at version'
  rw [← table] at named
  have near := laid.near
  rw [emits, position_patchWord, position_emit, same] at near
  rw [← version', ← named] at holds near
  exact ⟨h, reads, version', named, named ▸ Nat.le_trans (by decide) body, holds, near⟩

end Assembler

/-- An object table of what the version can express, laid out within reach of a word, is read back
from the finished image, unless something was written over it or over the version in the header: the
objects are counted, and every one of them shows what it was described with. -/
theorem objectTable_readBack {version : Byte} (known : 1 ≤ version.toNat ∧ version.toNat ≤ 8)
    {objects : List ObjectEntry} (nonempty : 1 ≤ objects.length)
    (few : objects.length ≤ (ObjectLayout.of version.toNat).maxObjects)
    (encodable : ∀ o ∈ objects, o.Encodable version.toNat) (defaults : List Word)
    {before : List Emission}
    (near : (((start version).assemble before).objectTable defaults objects).2.position ≤ 65536) :
    (((start version).assemble before).objectTable defaults objects).2.failure
        = ((start version).assemble before).failure ∧
      ∀ (after : List Emission) (image : Array Byte),
        ((start version).assemble (before ++ .objectTable defaults objects :: after)).finish
          = .ok image →
        (∀ e ∈ before ++ after, ¬e.Touches HeaderField.version) →
        (∀ e ∈ after, ∀ x, ((start version).assemble before).OfObjectTable defaults objects x →
          ¬e.Touches x) →
        ∃ h, Header.read (.ofBytes image) = .ok h ∧
          (ObjectTable.ofHeader (.ofBytes image) h).count = objects.length ∧
          ∀ i o, objects[i]? = some o →
            (ObjectTable.ofHeader (.ofBytes image) h).Shows (.ofBytes image) defaults
              (i + 1).toUInt16 o := by
  obtain ⟨same, -, -⟩ := assemble_start version before
  have laid := objectTable_eq_emit (same ▸ encodable) defaults
  refine ⟨by rw [laid, failure_patchWord_emit], fun after image finished unchanged unpatched => ?_⟩
  have laid : LaidOut version before defaults objects after image :=
    ⟨known, near, finished, unchanged, unpatched⟩
  obtain ⟨h, reads, version', -, stands⟩ := laid.exists_header fun o mem => (encodable o mem).fits
  rw [← version'] at encodable few
  exact ⟨h, reads, stands.shows nonempty encodable few⟩

/-- A room with a lamp in it, which has properties of all forms, the longest among them. -/
def room : List ObjectEntry :=
  [{ name := "Room", attributes := [0], child := 2 },
   { name := "lamp", attributes := [3, 47], parent := 1,
     properties := [(1, [9]), (63, List.replicate 64 7), (5, [1, 2])] }]

theorem encodable_room : ∀ o ∈ room, o.Encodable 5 := by
  intro o mem
  rcases List.mem_cons.mp mem with rfl | mem
  · constructor <;> decide +kernel
  · obtain rfl := List.mem_singleton.mp mem
    constructor <;> decide +kernel

theorem near_room : ((start 5).objectTable [4, 6] room).2.position ≤ 65536 := by
  rw [@objectTable_eq_emit (start 5) room encodable_room [4, 6], position_patchWord, position_emit]
  simp only [objectTableBytes, List.length_append, length_wordBytes, length_entryRow,
    List.length_flatMap, length_tableBytes]
  decide +kernel

theorem objectTable_readBack_room : ∃ image h,
    ((start 5).assemble [.objectTable [4, 6] room]).finish = .ok image ∧
      Header.read (.ofBytes image) = .ok h ∧ (ObjectTable.ofHeader (.ofBytes image) h).count = 2 ∧
      (ObjectTable.ofHeader (.ofBytes image) h).Shows (.ofBytes image)
        [4, 6] 1 (room.getD 0 default) ∧
      (ObjectTable.ofHeader (.ofBytes image) h).Shows (.ofBytes image)
        [4, 6] 2 (room.getD 1 default) := by
  have laid := @objectTable_eq_emit (start 5) room encodable_room [4, 6]
  obtain ⟨clean, readBack⟩ := @objectTable_readBack 5 (by decide) room (by decide) (by decide)
    encodable_room [4, 6] [] near_room
  obtain ⟨image, finished⟩ : ∃ image, ((start 5).objectTable [4, 6] room).2.finish = .ok image :=
    exists_finish clean (by rw [laid]; rfl)
  obtain ⟨h, reads, count, shows⟩ := readBack [] image finished (by simp) (by simp)
  exact ⟨image, h, finished, reads, count, shows 0 _ rfl, shows 1 _ rfl⟩

end ZMachine
