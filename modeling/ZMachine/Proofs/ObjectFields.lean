/-
  Edits of objects.

  Attributes, links and the data of properties are written in place, next to
  each other and to what must stay.  An edit succeeds exactly where its field
  exists, then the field reads as it was set, and everything else that can be
  read of any object reads as before; so it does after any edits of a table
  that was laid out, those that fail included.
-/
import ZMachine.Proofs.ObjectShape

namespace ZMachine

namespace ObjectTable

open Links

variable {t : ObjectTable} {s : Shape} {m m' : Memory} {o number value : Word}
    {r : Property} {x : Nat}
  {X : Nat → Prop}

/-! ## What is read of the objects -/

/-- All attributes read alike. -/
def SameAttributes (t : ObjectTable) (m m' : Memory) : Prop :=
  ∀ o number, t.testAttribute m' o number = t.testAttribute m o number

/-- All links read alike. -/
def SameLinks (t : ObjectTable) (m m' : Memory) : Prop :=
  ∀ link o, t.link m' link o = t.link m link o

/-- All short names stand in the same places and read alike. -/
def SameNames (t : ObjectTable) (m m' : Memory) : Prop :=
  ∀ o, t.shortName m' o = t.shortName m o ∧ ∀ a words, t.shortName m o = .ok (a, words) →
    m'.readWords a words.toNat = m.readWords a words.toNat

/-- All properties stand in the same places. -/
def SamePlaces (t : ObjectTable) (m m' : Memory) : Prop :=
  ∀ o number, t.findProperty m' o number = t.findProperty m o number

/-- All properties, and the defaults of those that objects lack, read alike. -/
structure SameProperties (t : ObjectTable) (m m' : Memory) : Prop where
  places : t.SamePlaces m m'
  values : ∀ o number, t.property m' o number = t.property m o number
  defaults : ∀ number, t.defaultProperty m' number = t.defaultProperty m number

/-! ## Attributes -/

/-- Address of the byte of an attribute. -/
def flagAddress (t : ObjectTable) (o number : Word) : Nat := t.entryAddress o + number.toNat / 8

/-- The mask of an attribute in its byte. -/
def flagMask (number : Word) : Byte := 0x80 >>> (number % 8).toUInt8

/-- A byte in which an attribute has been set or cleared. -/
def flagged (old : Byte) (number : Word) (value : Bool) : Byte :=
  if value then old ||| flagMask number else old &&& ~~~(flagMask number)

theorem testBit_flagged (old : Byte) (number : Word) (value : Bool) {k : Nat} (small : k < 8) :
    (flagged old number value).toNat.testBit k
      = if k = 7 - number.toNat % 8 then value else old.toNat.testBit k := by
  have mask : (flagMask number).toNat = 2 ^ (7 - number.toNat % 8) := toNat_attributeMask number
  have bound := UInt8.toNat_lt (flagMask number)
  -- Setting is an or with the mask, clearing an and with its complement.
  cases value with
  | true =>
      rw [flagged, if_pos rfl, UInt8.toNat_or, mask, Nat.testBit_or, Nat.testBit_two_pow]
      by_cases here : k = 7 - number.toNat % 8
      · simp [here]
      · simp [here, Ne.symm here]
  | false =>
      have inverse : (~~~(flagMask number)).toNat = 2 ^ 8 - ((flagMask number).toNat + 1) := by
        rw [UInt8.toNat_not]
        simp only [UInt8.size]
        omega
      rw [flagged, if_neg (by decide), UInt8.toNat_and, inverse, Nat.testBit_and,
        Nat.testBit_two_pow_sub_succ bound, mask, Nat.testBit_two_pow]
      by_cases here : k = 7 - number.toNat % 8
      · simp [here]
      · simp [here, Ne.symm here, small]

/-- What a look at an attribute needs is where its bit is. -/
theorem attributeBit_eq (ho : Within t.count o) (small : number.toNat < t.attributeCount) :
    t.attributeBit o number = .ok (t.flagAddress o number, flagMask number) := by
  rw [attributeBit, if_neg (Nat.not_le.mpr small), entry_of_within ho]
  rfl

theorem attributeBit_refused (invalid : ¬(Within t.count o ∧ number.toNat < t.attributeCount)) :
    ∃ e, t.attributeBit o number = .error e := by
  by_cases small : number.toNat < t.attributeCount
  · refine ⟨.invalidObject o, ?_⟩
    rw [attributeBit, if_neg (Nat.not_le.mpr small), entry_of_not_within fun ho =>
      invalid ⟨ho, small⟩]
    rfl
  · refine ⟨.invalidAttribute number, ?_⟩
    rw [attributeBit, if_pos (Nat.not_lt.mp small)]
    rfl

theorem testAttribute_refused {e : Fault} (refused : t.attributeBit o number = .error e) :
    t.testAttribute m o number = .error e := by
  rw [testAttribute, refused]
  rfl

theorem flagAddress_between (o : Word) (small : number.toNat < t.attributeCount) :
    t.entryAddress o ≤ t.flagAddress o number ∧
      t.flagAddress o number < t.entryAddress o + t.layout.attributeBytes := by
  have small : number.toNat < t.layout.attributeBytes * 8 := small
  rw [flagAddress]
  omega

/-- An attribute reads alike where its byte is the same. -/
theorem testAttribute_agrees (agrees : m.Agrees X m') (here : X (t.flagAddress o number)) :
    t.testAttribute m' o number = t.testAttribute m o number := by
  by_cases valid : Within t.count o ∧ number.toNat < t.attributeCount
  · simp only [testAttribute, attributeBit_eq valid.1 valid.2, Bind.bind, Except.bind,
      agrees.readByte here]
  · obtain ⟨e, refused⟩ := attributeBit_refused valid
    rw [testAttribute_refused refused, testAttribute_refused refused]

theorem sameAttributes_of_agrees (agrees : m.Agrees t.AttributeByte m') :
    t.SameAttributes m m' := by
  intro o number
  by_cases valid : Within t.count o ∧ number.toNat < t.attributeCount
  · obtain ⟨low, high⟩ := flagAddress_between o valid.2
    exact testAttribute_agrees agrees ⟨o, valid.1, low, high⟩
  · obtain ⟨e, refused⟩ := attributeBit_refused valid
    rw [testAttribute_refused refused, testAttribute_refused refused]

/-! ## Links -/

theorem sameLinks_of_agrees (agrees : m.Agrees t.LinkByte m') : t.SameLinks m m' := by
  intro link o
  by_cases ho : Within t.count o
  · have entry := entry_of_within ho
    have here (k : Nat) (small : k < t.layout.linkBytes) : t.LinkByte (t.slotAddress link o + k) :=
      ⟨link, o, ho, Nat.le_add_right .., Nat.add_lt_add_left small _⟩
    have address : t.linkAddress (t.entries + (o.toNat - 1) * t.layout.entrySize) link
        = t.slotAddress link o := rfl
    by_cases early : t.version ≤ 3
    · have width : t.layout.linkBytes = 1 := by rw [layout, ObjectLayout.of, if_pos early]
      have byte := agrees.readByte (here 0 (by omega))
      simp only [ObjectTable.link, entry, Bind.bind, Except.bind, address, early, if_true]
      rw [show m'.readByte (t.slotAddress link o) = m.readByte (t.slotAddress link o) from byte]
    · have width : t.layout.linkBytes = 2 := by rw [layout, ObjectLayout.of, if_neg early]
      have word := agrees.readWord (here 0 (by omega)) (here 1 (by omega))
      simp only [ObjectTable.link, entry, Bind.bind, Except.bind, address, early, if_false]
      rw [show m'.readWord (t.slotAddress link o) = m.readWord (t.slotAddress link o) from word]
  · rw [link_of_not_within link ho, link_of_not_within link ho]

/-! ## Names and properties -/

/-- The value of a property: of one byte, or the first two bytes of a longer one. -/
def valueOf (m : Memory) (r : Property) : Except Fault Word := do
  if r.length = 1 then return (← m.readByte r.data).toUInt16 else m.readWord r.data

theorem next_eq (r : Property) : r.next = r.data + r.length := by
  simp only [Property.next, Property.data, Property.extent]
  omega

/-- The bytes that a property is set to. -/
def dataBytes (r : Property) (value : Word) : List Byte :=
  if r.length = 1 then [value.toUInt8] else Word.bytes value

theorem length_dataBytes (filled : 1 ≤ r.length) (value : Word) :
    (dataBytes r value).length ≤ r.length := by
  unfold dataBytes
  split
  · exact filled
  · show 2 ≤ r.length
    omega

theorem dataBytes_ne_nil (r : Property) (value : Word) : dataBytes r value ≠ [] := by
  unfold dataBytes
  split <;> exact List.cons_ne_nil _ _

/-- A value that was written is read; one byte keeps the low half of it. -/
theorem valueOf_commit (filled : 1 ≤ r.length) (inside : r.next ≤ m.size) (value : Word) :
    valueOf (m.commit r.data (dataBytes r value)) r
      = .ok (if r.length = 1 then value % 256 else value) := by
  have next := next_eq r
  unfold valueOf dataBytes
  by_cases one : r.length = 1
  · have byte : (m.commit r.data [value.toUInt8]).readByte r.data = .ok value.toUInt8 := by
      rw [Memory.readByte_eq_ok, Memory.size_commit,
        m.byteAt_commit_of_inside (Nat.le_refl _) (by simp) (show r.data + 1 ≤ m.size by omega)]
      exact ⟨by omega, by simp⟩
    have low : value.toUInt8.toUInt16 = value % 256 := by
      rw [← UInt16.toNat_inj, UInt8.toNat_toUInt16, UInt16.toNat_toUInt8, UInt16.toNat_mod]
      rfl
    simp only [one, if_true, byte, Bind.bind, Except.bind, liftM, monadLift,
      MonadLift.monadLift, low]
    rfl
  · have word : (m.commit r.data (Word.bytes value)).readWord r.data = .ok value := by
      rw [Memory.readWord_eq_ok, Memory.size_commit, m.wordAt_commit value (by omega)]
      exact ⟨by omega, rfl⟩
    simp only [one, if_false, word]
    rfl

theorem valueOf_agrees (agrees : m.Agrees X m') (filled : 1 ≤ r.length)
    (data : ∀ x, r.data ≤ x → x < r.next → X x) : valueOf m' r = valueOf m r := by
  have next := next_eq r
  unfold valueOf
  split
  · rw [agrees.readByte (data _ (Nat.le_refl _) (by omega))]
  · rw [agrees.readWord (data _ (Nat.le_refl _) (by omega))
      (data _ (Nat.le_add_right ..) (by omega))]

theorem propertyTable_of_not_within (ho : ¬Within t.count o) :
    t.propertyTable m o = .error (.invalidObject o) := by
  rw [propertyTable, entry_of_not_within ho]
  rfl

theorem shortName_of_not_within (ho : ¬Within t.count o) :
    t.shortName m o = .error (.invalidObject o) := by
  rw [shortName, propertyTable_of_not_within ho]
  rfl

theorem findProperty_of_not_within (ho : ¬Within t.count o) :
    t.findProperty m o number = .error (.invalidObject o) := by
  rw [findProperty, firstPropertyAddress, shortName_of_not_within ho]
  rfl

theorem property_of_not_within (ho : ¬Within t.count o) :
    t.property m o number = .error (.invalidObject o) := by
  rw [property, findProperty_of_not_within ho]
  rfl

namespace Shaped

theorem shortName (shaped : t.Shaped s m) (ho : Within t.count o) :
    t.shortName m o = .ok (s.table o + 1, s.words o) := by
  rw [ObjectTable.shortName, shaped.pointer o ho]
  show (do let byte ← liftM (m.readByte (s.table o)); pure (s.table o + 1, byte) :
      Except Fault _) = _
  rw [shaped.name o ho]
  rfl

/-- The reader finds the properties where the shape has them. -/
theorem findProperty (shaped : t.Shaped s m) (ho : Within t.count o) :
    t.findProperty m o number = .ok (pick number (s.records o)) := by
  rw [ObjectTable.findProperty, firstPropertyAddress, shaped.shortName ho]
  exact (shaped.lists o ho).findPropertyFrom

theorem sameNames (shaped : t.Shaped s m) (spread : t.Spread s) (agrees : m.Agrees (t.Fixed s) m') :
    t.SameNames m m' := by
  intro o
  have shaped' := shaped.of_agrees spread agrees
  by_cases ho : Within t.count o
  · rw [shaped.shortName ho, shaped'.shortName ho]
    refine ⟨rfl, ?_⟩
    rintro a words ⟨⟩
    apply agrees.readWords
    intro x low high
    exact shaped.fixed_name spread ho (by omega) high
  · rw [shortName_of_not_within ho, shortName_of_not_within ho]
    exact ⟨rfl, fun a words failed => by cases failed⟩

theorem samePlaces (shaped : t.Shaped s m) (spread : t.Spread s)
    (agrees : m.Agrees (t.Fixed s) m') : t.SamePlaces m m' := by
  intro o number
  by_cases ho : Within t.count o
  · rw [shaped.findProperty ho, (shaped.of_agrees spread agrees).findProperty ho]
  · rw [findProperty_of_not_within ho, findProperty_of_not_within ho]

theorem sameDefaults (shaped : t.Shaped s m) (spread : t.Spread s)
    (agrees : m.Agrees (t.Fixed s) m')
    (number : Word) : t.defaultProperty m' number = t.defaultProperty m number := by
  unfold defaultProperty
  split
  · rfl
  · rename_i listed
    rw [not_or] at listed
    have entries : t.entries = t.defaults + t.layout.defaults * 2 := rfl
    have positive : 0 < number.toNat :=
      Nat.pos_of_ne_zero fun zero => listed.1 (UInt16.toNat_inj.mp zero)
    have word := agrees.readWord
      (shaped.fixed_defaults (x := t.defaults + (number.toNat - 1) * 2) spread (by omega))
      (shaped.fixed_defaults (x := t.defaults + (number.toNat - 1) * 2 + 1) spread (by omega))
    rw [word]

theorem property_found (shaped : t.Shaped s m) (ho : Within t.count o)
    (picked : pick number (s.records o) = some r) : t.property m o number = valueOf m r := by
  rw [property, shaped.findProperty ho, picked]
  rfl

theorem property_absent (shaped : t.Shaped s m) (ho : Within t.count o)
    (absent : pick number (s.records o) = none) :
    t.property m o number = t.defaultProperty m number := by
  rw [property, shaped.findProperty ho, absent]
  rfl

/-- The value of a property is kept where its data is. -/
theorem property_agrees (shaped : t.Shaped s m) (spread : t.Spread s) (agrees : m.Agrees X m')
    (fixed : ∀ x, t.Fixed s x → X x)
    (data : ∀ r, Within t.count o → pick number (s.records o) = some r → ∀ x, r.data ≤ x →
      x < r.next → X x) :
    t.property m' o number = t.property m o number := by
  have kept := agrees.mono fixed
  have shaped' := shaped.of_agrees spread kept
  by_cases ho : Within t.count o
  · cases picked : pick number (s.records o) with
    | none =>
        rw [shaped.property_absent ho picked, shaped'.property_absent ho picked]
        exact shaped.sameDefaults spread kept number
    | some r =>
        obtain ⟨-, between, -⟩ := (shaped.lists o ho).ordered
        obtain ⟨-, -, filled⟩ := between r (pick_mem picked).1
        rw [shaped.property_found ho picked, shaped'.property_found ho picked]
        exact valueOf_agrees agrees filled (data r ho picked)
  · rw [property_of_not_within ho, property_of_not_within ho]

/-- Nothing is seen of a write to attributes or links. -/
theorem sameProperties (shaped : t.Shaped s m) (spread : t.Spread s)
    (agrees : m.Agrees (fun x => t.Fixed s x ∨ t.DataByte s x) m') : t.SameProperties m m' where
  places := shaped.samePlaces spread (agrees.mono fun _ => .inl)
  values o number := by
    refine shaped.property_agrees spread agrees (fun _ => .inl) fun r ho picked x low high =>
      .inr ?_
    exact ⟨o, r, ho, (pick_mem picked).1, low, high⟩
  defaults := shaped.sameDefaults spread (agrees.mono fun _ => .inl)

/-! ## Changing one field -/

/-- The entries of the objects lie in the image. -/
theorem entry_inside (shaped : t.Shaped s m) (ho : Within t.count o) :
    t.entryAddress o + t.layout.entrySize ≤ m.size := by
  have pointer := shaped.pointer o ho
  have size : t.layout.entrySize = t.layout.propertyOffset + 2 := rfl
  rw [propertyTable, entry_of_within ho] at pointer
  cases word : m.readWord (t.entryAddress o + t.layout.propertyOffset) with
  | error e =>
      rw [entryAddress] at word
      simp only [Bind.bind, Except.bind, word] at pointer
      cases pointer
  | ok w =>
      have := (Memory.readWord_eq_ok.mp word).1
      omega

theorem readable (shaped : t.Shaped s m) : t.Readable m := by
  rw [readable_iff]
  intro link o ho
  have inside := shaped.entry_inside ho
  have slot := t.slot_between link o
  have size : t.layout.entrySize = t.layout.propertyOffset + 2 := rfl
  omega

/-- An attribute of an object is written in its byte, unless it has its value already. -/
theorem run_setAttribute (shaped : t.Shaped s m) (ho : Within t.count o)
    (small : number.toNat < t.attributeCount) (value : Bool) :
    ∃ m', t.setAttribute o number value m = .ok () m' ∧
      m.Agrees (· ≠ t.flagAddress o number) m' ∧
      m'.byteAt (t.flagAddress o number) = flagged (m.byteAt (t.flagAddress o number)) number
        value := by
  have flag := flagAddress_between o small
  have entry := shaped.entry_inside ho
  have size : t.layout.entrySize = t.layout.attributeBytes + 3 * t.layout.linkBytes + 2 := rfl
  have inside : t.flagAddress o number + 1 ≤ m.size := by omega
  have byte : m.readByte (t.flagAddress o number) = .ok (m.byteAt (t.flagAddress o number)) :=
    Memory.readByte_eq_ok.mpr ⟨inside, rfl⟩
  have ran : t.setAttribute o number value m
      = (if flagged (m.byteAt (t.flagAddress o number)) number value
        = m.byteAt (t.flagAddress o number)
          then pure () else MemoryM.writeByte (t.flagAddress o number)
            (flagged (m.byteAt (t.flagAddress o number)) number value) : MemoryM Unit) m := by
    rw [setAttribute, attributeBit_eq ho small]
    show (MemoryM.readByte (t.flagAddress o number) >>= _) m = _
    simp only [Bind.bind, EStateM.bind, MemoryM.readByte, MemoryM.query, byte]
    rfl
  by_cases has : flagged (m.byteAt (t.flagAddress o number)) number value
    = m.byteAt (t.flagAddress o number)
  · rw [if_pos has] at ran
    exact ⟨m, ran, .refl _ m, has.symm⟩
  · rw [if_neg has] at ran
    refine ⟨_, ran.trans (MemoryM.run_writeBytes (List.cons_ne_nil _ _) inside), .commit m ?_, ?_⟩
    · intro x other
      rw [List.length_singleton]
      omega
    · rw [m.byteAt_commit_of_inside (Nat.le_refl _) (by simp) inside]
      simp

/-- A property that an object has is written where its data begins. -/
theorem run_setProperty (shaped : t.Shaped s m) (ho : Within t.count o)
    (picked : pick number (s.records o) = some r) (value : Word) :
    t.setProperty o number value m = .ok () (m.commit r.data (dataBytes r value)) := by
  obtain ⟨-, between, -⟩ := (shaped.lists o ho).ordered
  obtain ⟨-, stop, filled⟩ := between r (pick_mem picked).1
  have inside := (shaped.table_lt_stop ho).2.2
  have short := length_dataBytes filled value
  have next := next_eq r
  have fits : r.data + (dataBytes r value).length ≤ m.size := by
    rw [Shape.stop] at inside
    omega
  rw [← MemoryM.run_writeBytes (dataBytes_ne_nil r value) fits, setProperty]
  simp only [Bind.bind, EStateM.bind, MemoryM.query, shaped.findProperty ho, picked, dataBytes]
  split <;> rfl

/-- Nothing but the data of that property is written. -/
theorem agrees_setProperty (shaped : t.Shaped s m) (ho : Within t.count o)
    (picked : pick number (s.records o) = some r) (value : Word) :
    m.Agrees (fun x => ¬(r.data ≤ x ∧ x < r.next)) (m.commit r.data (dataBytes r value)) := by
  obtain ⟨-, between, -⟩ := (shaped.lists o ho).ordered
  have short := length_dataBytes (between r (pick_mem picked).1).2.2 value
  have next := next_eq r
  apply Memory.Agrees.commit
  intro x apart
  omega

/-- What was written is read. -/
theorem property_commit (shaped : t.Shaped s m) (spread : t.Spread s) (ho : Within t.count o)
    (picked : pick number (s.records o) = some r) (value : Word) :
    t.property (m.commit r.data (dataBytes r value)) o number
      = .ok (if r.length = 1 then value % 256 else value) := by
  obtain ⟨-, between, -⟩ := (shaped.lists o ho).ordered
  obtain ⟨-, stop, filled⟩ := between r (pick_mem picked).1
  have inside := (shaped.table_lt_stop ho).2.2
  have shaped' : t.Shaped s (m.commit r.data (dataBytes r value)) :=
    shaped.of_agrees spread ((agrees_setProperty shaped ho picked value).mono fun x fixed =>
      fun here => fixed.2.2 ⟨o, r, ho, (pick_mem picked).1, here⟩)
  rw [shaped'.property_found ho picked]
  exact valueOf_commit filled (Nat.le_of_lt (Nat.lt_of_le_of_lt stop inside)) value

end Shaped

/-! ## Edits -/

theorem setAttribute_refused {e : Fault} (refused : t.attributeBit o number = .error e)
    (value : Bool) : t.setAttribute o number value m = .error e m := by
  rw [setAttribute, refused]
  rfl

theorem setProperty_absent (shaped : t.Shaped s m) (ho : Within t.count o)
    (absent : pick number (s.records o) = none) (value : Word) :
    t.setProperty o number value m = .error (.missingProperty o number) m := by
  rw [setProperty]
  simp only [Bind.bind, EStateM.bind, MemoryM.query, shaped.findProperty ho, absent]
  rfl

theorem setProperty_of_not_within (ho : ¬Within t.count o) (value : Word) :
    t.setProperty o number value m = .error (.invalidObject o) m := by
  rw [setProperty]
  simp only [Bind.bind, EStateM.bind, MemoryM.query, findProperty_of_not_within ho]

/-- One change of the objects. -/
inductive Edit where
  | setAttribute (o number : Word) (value : Bool)
  | setProperty (o number value : Word)
  | move (change : Move)
deriving DecidableEq, Repr

/-- Make a change. -/
def Edit.run (t : ObjectTable) : Edit → MemoryM Unit
  | .setAttribute o number value => t.setAttribute o number value
  | .setProperty o number value => t.setProperty o number value
  | .move change => change.run t

/-- The image after edits, those that fail included. -/
def edited (t : ObjectTable) (edits : List Edit) (m : Memory) : Memory :=
  edits.foldl (fun m edit => endState (edit.run t m)) m

/-- A change of the tree writes links at most. -/
theorem Shaped.move (shaped : t.Shaped s m) (move : Move) :
    t.Relinked m (endState (move.run t m)) := by
  obtain ⟨o, failed⟩ | ⟨_, m', ran, relinked⟩ := atomic_move t move m shaped.readable
  · rw [failed]
    exact .refl _ m
  · rw [ran]
    exact relinked

/-- No edit touches what is fixed. -/
theorem Shaped.edit (shaped : t.Shaped s m) (edit : Edit) :
    m.Agrees (t.Fixed s) (endState (edit.run t m)) := by
  cases edit with
  | setAttribute o number value =>
      show m.Agrees _ (endState (t.setAttribute o number value m))
      -- An edit that is refused changes nothing; else the byte that it writes is not fixed.
      by_cases valid : Within t.count o ∧ number.toNat < t.attributeCount
      · obtain ⟨m', ran, agrees, -⟩ := shaped.run_setAttribute valid.1 valid.2 value
        obtain ⟨low, high⟩ := flagAddress_between o valid.2
        rw [ran]
        apply agrees.mono
        rintro x fixed rfl
        exact fixed.1 ⟨o, valid.1, low, high⟩
      · obtain ⟨e, refused⟩ := attributeBit_refused valid
        rw [setAttribute_refused refused]
        exact .refl _ m
  | setProperty o number value =>
      show m.Agrees _ (endState (t.setProperty o number value m))
      by_cases ho : Within t.count o
      · cases picked : pick number (s.records o) with
        | none =>
            rw [setProperty_absent shaped ho picked]
            exact .refl _ m
        | some r =>
            rw [shaped.run_setProperty ho picked value]
            apply (shaped.agrees_setProperty ho picked value).mono
            intro x fixed here
            exact fixed.2.2 ⟨o, r, ho, (pick_mem picked).1, here⟩
      · rw [setProperty_of_not_within ho]
        exact .refl _ m
  | move change => exact (shaped.move change).mono fun x fixed => fixed.2.1

/-- A table keeps its shape through any edits. -/
theorem Shaped.edited (shaped : t.Shaped s m) (spread : t.Spread s) (edits : List Edit) :
    t.Shaped s (t.edited edits m) := by
  induction edits generalizing m with
  | nil => exact shaped
  | cons edit edits ih => exact ih (shaped.of_agrees spread (shaped.edit edit))

/-! ## Independence -/

/-- Every edit changes the one field that it names.  Attributes of objects can be set and cleared,
and properties that an object was described with can be set, in one byte to the low half of the
value; other properties, attributes and objects are refused, without a trace.  Nothing is seen of an
edit in any other field of any object. -/
structure Independent (t : ObjectTable) (objects : List ObjectEntry) (m : Memory) : Prop where
  attributes : ∀ (o number : Word) (value : Bool), Within t.count o →
      number.toNat < t.attributeCount →
    ∃ m', t.setAttribute o number value m = .ok () m' ∧ t.testAttribute m' o number = .ok value ∧
      (∀ o' number', ¬(o' = o ∧ number' = number) →
        t.testAttribute m' o' number' = t.testAttribute m o' number') ∧
      t.SameLinks m m' ∧ t.SameNames m m' ∧ t.SameProperties m m'
  noAttribute : ∀ (o number : Word) (value : Bool),
    ¬(Within t.count o ∧ number.toNat < t.attributeCount) →
      ∃ e, t.setAttribute o number value m = .error e m
  properties : ∀ i o, objects[i]? = some o → ∀ p ∈ o.properties, ∀ value : Word,
    ∃ m', t.setProperty (i + 1).toUInt16 p.1.toUInt16 value m = .ok () m' ∧
      t.property m' (i + 1).toUInt16 p.1.toUInt16
        = .ok (if p.2.length = 1 then value % 256 else value) ∧
      (∀ o' number', ¬(o' = (i + 1).toUInt16 ∧ number' = p.1.toUInt16) →
        t.property m' o' number' = t.property m o' number') ∧
      (∀ number, t.defaultProperty m' number = t.defaultProperty m number) ∧
      t.SamePlaces m m' ∧ t.SameAttributes m m' ∧ t.SameLinks m m' ∧ t.SameNames m m'
  noProperty : ∀ i o, objects[i]? = some o →
      ∀ number : Word, (∀ p ∈ o.properties, p.1.toUInt16 ≠ number) →
    ∀ value, t.setProperty (i + 1).toUInt16 number value m
      = .error (.missingProperty (i + 1).toUInt16 number) m
  noObject : ∀ o, ¬Within t.count o → ∀ number value,
    t.setProperty o number value m = .error (.invalidObject o) m
  moves : ∀ move : Move, t.SameAttributes m (endState (move.run t m)) ∧
    t.SameNames m (endState (move.run t m)) ∧ t.SameProperties m (endState (move.run t m))

/-- Setting an attribute shows in this attribute alone. -/
theorem Shaped.setAttribute (shaped : t.Shaped s m) (spread : t.Spread s) (ho : Within t.count o)
    (small : number.toNat < t.attributeCount) (value : Bool) :
    ∃ m', t.setAttribute o number value m = .ok () m' ∧ t.testAttribute m' o number = .ok value ∧
      (∀ o' number', ¬(o' = o ∧ number' = number) →
        t.testAttribute m' o' number' = t.testAttribute m o' number') ∧
      t.SameLinks m m' ∧ t.SameNames m m' ∧ t.SameProperties m m' := by
  obtain ⟨m', ran, agrees, byte⟩ := shaped.run_setAttribute ho small value
  obtain ⟨low, high⟩ := flagAddress_between o small
  have flag : t.AttributeByte (t.flagAddress o number) := ⟨o, ho, low, high⟩
  have size : t.layout.entrySize = t.layout.attributeBytes + 3 * t.layout.linkBytes + 2 := rfl
  have between := flag.between
  have inside := shaped.entry_inside ho
  -- A look at a bit of this byte, before and after.
  have look {number' : Word} (m : Memory) (room : t.entryAddress o + t.layout.entrySize ≤ m.size)
      (small' : number'.toNat < t.attributeCount)
      (same : t.flagAddress o number' = t.flagAddress o number) : t.testAttribute m o number'
        = .ok ((m.byteAt (t.flagAddress o number)).toNat.testBit (7 - number'.toNat % 8)) := by
    rw [← same]
    exact testAttribute_eq ho small' (show t.flagAddress o number' + 1 ≤ m.size by omega)
  have fixed : m.Agrees (t.Fixed s) m' := agrees.mono fun x fixed here => fixed.1 (here ▸ flag)
  have data : m.Agrees (fun x => t.Fixed s x ∨ t.DataByte s x) m' := by
    apply agrees.mono
    rintro x (fixed | data) rfl
    · exact fixed.1 flag
    · have := shaped.behind spread data
      omega
  refine ⟨m', ran, ?_, ?_, ?_, shaped.sameNames spread fixed, shaped.sameProperties spread data⟩
  · rw [look m' (agrees.size ▸ inside) small rfl, byte, testBit_flagged _ _ _ (by omega),
      if_pos rfl]
  · intro o' number' other
    by_cases valid : Within t.count o' ∧ number'.toNat < t.attributeCount
    · obtain ⟨ho', small'⟩ := valid
      by_cases same : t.flagAddress o' number' = t.flagAddress o number
      · -- Another bit of the same byte.
        have flag' := flagAddress_between o' small'
        obtain rfl : o' = o :=
          entryAddress_inj (x := t.flagAddress o number) ho ho' (by omega) (by omega)
        have bits : ¬7 - number'.toNat % 8 = 7 - number.toNat % 8 := by
          intro bits
          apply other ⟨rfl, UInt16.toNat_inj.mp ?_⟩
          simp only [flagAddress] at same
          omega
        rw [look m' (agrees.size ▸ inside) small' same, look m inside small' same, byte,
          testBit_flagged _ _ _ (by omega), if_neg bits]
      · exact testAttribute_agrees agrees same
    · obtain ⟨e, refused⟩ := attributeBit_refused valid
      rw [testAttribute_refused refused, testAttribute_refused refused]
  · apply sameLinks_of_agrees
    apply agrees.mono
    rintro x link rfl
    exact link.not_attributeByte flag

/-- Setting a property shows in this property alone. -/
theorem Shaped.setProperty (shaped : t.Shaped s m) (spread : t.Spread s) (ho : Within t.count o)
    (picked : pick number (s.records o) = some r) (value : Word) :
    ∃ m', t.setProperty o number value m = .ok () m' ∧
      t.property m' o number = .ok (if r.length = 1 then value % 256 else value) ∧
      (∀ o' number', ¬(o' = o ∧ number' = number) →
        t.property m' o' number' = t.property m o' number') ∧
      (∀ number, t.defaultProperty m' number = t.defaultProperty m number) ∧
      t.SamePlaces m m' ∧ t.SameAttributes m m' ∧ t.SameLinks m m' ∧ t.SameNames m m' := by
  obtain ⟨mem, rfl⟩ := pick_mem picked
  have agrees := shaped.agrees_setProperty ho picked value
  have fixed : ∀ x, t.Fixed s x → ¬(r.data ≤ x ∧ x < r.next) :=
    fun x fixed here => fixed.2.2 ⟨o, r, ho, mem, here⟩
  -- The data of properties lie behind all entries, so attributes and links are not reached.
  have behind : ∀ x, r.data ≤ x ∧ x < r.next → t.entries + t.count * t.layout.entrySize < x :=
    fun x here => shaped.behind spread ⟨o, r, ho, mem, here⟩
  refine ⟨_, shaped.run_setProperty ho picked value,
    shaped.property_commit spread ho picked value, ?_,
    shaped.sameDefaults spread (agrees.mono fixed), shaped.samePlaces spread (agrees.mono fixed),
    sameAttributes_of_agrees ?_, sameLinks_of_agrees ?_,
    shaped.sameNames spread (agrees.mono fixed)⟩
  -- Another property that stood in the same bytes would be the same property.
  · intro o' number' other
    apply shaped.property_agrees spread agrees fixed
    intro r' ho' picked' x low high here
    obtain ⟨mem', rfl⟩ := pick_mem picked'
    obtain ⟨rfl, rfl⟩ := shaped.data_unique spread ho ho' mem mem' here ⟨low, high⟩
    exact other ⟨rfl, rfl⟩
  · apply agrees.mono
    intro x flag here
    have := flag.between
    have := behind x here
    omega
  · apply agrees.mono
    intro x link here
    have := link.between
    have := behind x here
    omega

/-- Moving objects shows in links alone. -/
theorem Shaped.moved (shaped : t.Shaped s m) (spread : t.Spread s) (move : Move) :
    t.SameAttributes m (endState (move.run t m)) ∧ t.SameNames m (endState (move.run t m)) ∧
      t.SameProperties m (endState (move.run t m)) := by
  have relinked := shaped.move move
  refine ⟨sameAttributes_of_agrees ?_, shaped.sameNames spread ?_, shaped.sameProperties spread ?_⟩
  · exact relinked.mono fun x flag link => link.not_attributeByte flag
  · exact relinked.mono fun x fixed => fixed.2.1
  · apply relinked.mono
    rintro x (fixed | data) link
    · exact fixed.2.1 link
    · have := link.between
      have := shaped.behind spread data
      omega

/-! ## A table that was laid out -/

open ObjectEntry Assembler

variable {b e : Nat} {version : Nat} {objects : List ObjectEntry} {description : ObjectEntry}
  {defaults : List Word}

/-- The records of properties that stand one after the other from `a` on. -/
def recordsAt (version : Nat) : Nat → List (Byte × List Byte) → List Property
  | _, [] => []
  | a, p :: ps =>
      recordAt version a p :: recordsAt version (a + (propertyBytes version p).length) ps

/-- A row of properties is read as the list of its records, up to the byte behind them. -/
theorem Row.lists {a : Nat} {ps : List (Byte × List Byte)} (row : t.Row m a ps)
    (listed : ∀ p ∈ ps, Listed t.version p) :
    t.Lists m a (recordsAt t.version a ps) ∧
      rowEnd a (recordsAt t.version a ps) = a + (ps.flatMap (propertyBytes t.version)).length := by
  induction ps generalizing a with
  | nil => exact ⟨⟨row.inside, row.done⟩, rfl⟩
  | cons p ps ih =>
      have stands := row.first (listed p List.mem_cons_self)
      have next : (recordAt t.version a p).next = a + (propertyBytes t.version p).length :=
        congrArg (a + ·) stands.extent
      obtain ⟨lists, stop⟩ := ih row.rest fun q mem => listed q (List.mem_cons_of_mem _ mem)
      rw [← next] at lists stop
      rw [recordsAt, ← next, List.flatMap_cons, List.length_append, ← Nat.add_assoc, ← next]
      exact ⟨⟨row.inside, stands.record, lists⟩, stop⟩

/-- The shape of a table whose property tables stand from `a` on. -/
def shapeOf (version : Nat) (objects : List ObjectEntry) (a : Nat) : Shape where
  table o := tableStart version objects a (o.toNat - 1)
  words o := (nameBytes version (objects.getD (o.toNat - 1) default).name).headD 0
  records o := recordsAt version (tableStart version objects a (o.toNat - 1) + 1
    + ((nameBytes version (objects.getD (o.toNat - 1) default).name).headD 0).toNat * 2)
      (ordered (objects.getD (o.toNat - 1) default))

section

variable {first : Nat} (count : t.count = objects.length)
  (placed : ∀ i o, objects[i]? = some o →
    t.Placed m (i + 1).toUInt16 o (tableStart t.version objects first i))
  (encodable : ∀ o ∈ objects, o.Encodable t.version)

include count placed

/-- The description of an object in the table. -/
theorem described (ho : Within t.count o) :
    objects[o.toNat - 1]? = some (objects.getD (o.toNat - 1) default) ∧
      t.Placed m o (objects.getD (o.toNat - 1) default)
        (tableStart t.version objects first (o.toNat - 1)) := by
  have positive := toNat_pos ho
  have small : o.toNat - 1 < objects.length := by
    have := ho.2
    omega
  have listed : objects[o.toNat - 1]? = some (objects.getD (o.toNat - 1) default) := by
    rw [List.getD_eq_getElem?_getD, List.getElem?_eq_getElem small, Option.getD_some]
  have number : (o.toNat - 1 + 1).toUInt16 = o := by
    rw [Nat.sub_add_cancel positive]
    exact UInt16.ofNat_toNat
  have here := placed _ _ listed
  rw [number] at here
  exact ⟨listed, here⟩

include encodable

theorem shaped_of_placed : t.Shaped (shapeOf t.version objects first) m ∧
    ∀ o, Within t.count o → (shapeOf t.version objects first).stop o + 1
      = tableStart t.version objects first (o.toNat - 1 + 1) := by
  have parts (o : Word) (ho : Within t.count o) := described count placed ho
  have row (o : Word) (ho : Within t.count o) :=
    have encodable := encodable _ (List.mem_of_getElem? (parts o ho).1)
    Row.lists ((parts o ho).2.name encodable).2 fun p mem => encodable.listed mem
  refine ⟨⟨fun o ho => (parts o ho).2.propertyTable, fun o ho => ?_, fun o ho => (row o ho).1⟩,
    fun o ho => ?_⟩
  · exact ((parts o ho).2.name (encodable _ (List.mem_of_getElem? (parts o ho).1))).1
  · obtain ⟨listed, -⟩ := parts o ho
    have name := length_nameBytes (encodable _ (List.mem_of_getElem? listed))
    rw [show (shapeOf t.version objects first).stop o = _ from (row o ho).2,
      tableStart_succ first listed,
      tableBytes, List.length_append, List.length_append, List.length_singleton, name]
    omega

end

theorem spread_of_placed {first : Nat} (count : t.count = objects.length)
    (placed : ∀ i o, objects[i]? = some o →
      t.Placed m (i + 1).toUInt16 o (tableStart t.version objects first i))
    (encodable : ∀ o ∈ objects, o.Encodable t.version)
    (behind : t.entries + t.count * t.layout.entrySize ≤ first) :
    t.Spread (shapeOf t.version objects first) := by
  obtain ⟨-, stop⟩ := shaped_of_placed count placed encodable
  refine ⟨fun o _ => Nat.le_trans behind (le_tableStart ..), fun o o' ho ho' ne => ?_⟩
  have positive := toNat_pos ho
  have positive' := toNat_pos ho'
  have here := stop o ho
  have here' := stop o' ho'
  have differ : o.toNat ≠ o'.toNat := fun same => ne (UInt16.toNat_inj.mp same)
  -- Of two tables, the second begins at or behind the end of the first.
  rcases Nat.lt_or_gt_of_ne differ with before | after
  · have later : tableStart t.version objects first (o.toNat - 1 + 1) ≤ _ :=
      tableStart_mono objects first (show o.toNat - 1 + 1 ≤ o'.toNat - 1 by omega)
    exact .inl (show _ < tableStart t.version objects first (o'.toNat - 1) by omega)
  · have later : tableStart t.version objects first (o'.toNat - 1 + 1) ≤ _ :=
      tableStart_mono objects first (show o'.toNat - 1 + 1 ≤ o.toNat - 1 by omega)
    exact .inr (show _ < tableStart t.version objects first (o.toNat - 1) by omega)

/-- The shape lists exactly the properties that the objects were described with. -/
def Shape.Describes (s : Shape) (objects : List ObjectEntry) : Prop :=
  ∀ i o, objects[i]? = some o →
    (∀ p ∈ o.properties, ∃ r, pick p.1.toUInt16 (s.records (i + 1).toUInt16) = some r ∧
      r.length = p.2.length) ∧
    ∀ number : Word, (∀ p ∈ o.properties, p.1.toUInt16 ≠ number) →
      pick number (s.records (i + 1).toUInt16) = none

theorem Shaped.describes (shaped : t.Shaped s m)
    (within : ∀ i o, objects[i]? = some o → Within t.count (i + 1).toUInt16)
    (shows : ∀ i o, objects[i]? = some o → t.Shows m defaults (i + 1).toUInt16 o) :
    s.Describes objects := by
  intro i o listed
  have ho := within i o listed
  refine ⟨fun p mem => ?_, fun number other => ?_⟩
  · obtain ⟨r, found, -, data, -⟩ := (shows i o listed).found p mem
    rw [shaped.findProperty ho] at found
    exact ⟨r, Except.ok.inj found, (Memory.length_of_readBytes data).symm⟩
  · have absent := (shows i o listed).absent number other
    rw [shaped.findProperty ho] at absent
    exact Except.ok.inj absent

theorem Shaped.independent (shaped : t.Shaped s m) (spread : t.Spread s)
    (within : ∀ i o, objects[i]? = some o → Within t.count (i + 1).toUInt16)
    (describes : s.Describes objects) : t.Independent objects m where
  attributes _ _ value ho small := shaped.setAttribute spread ho small value
  noAttribute o number value invalid := by
    obtain ⟨e, refused⟩ := attributeBit_refused invalid
    exact ⟨e, setAttribute_refused refused value⟩
  properties i o listed p mem value := by
    obtain ⟨r, picked, length⟩ := (describes i o listed).1 p mem
    have set := shaped.setProperty spread (within i o listed) picked value
    rwa [length] at set
  noProperty i o listed number other value :=
    setProperty_absent shaped (within i o listed) ((describes i o listed).2 number other) value
  noObject o ho number value := setProperty_of_not_within ho value
  moves := shaped.moved spread

/-- In a table that stands where the header says, all fields are independent, and stay so
through any edits. -/
theorem StandsFor.independent {h : Header} (stands : StandsFor m h defaults objects)
    (encodable : ∀ o ∈ objects, o.Encodable h.version) (nonempty : 1 ≤ objects.length)
    (few : objects.length ≤ (ObjectLayout.of h.version).maxObjects) (edits : List Edit) :
    (ofHeader m h).Independent objects ((ofHeader m h).edited edits m) := by
  obtain ⟨count, words, placed⟩ := stands.placed nonempty few
  obtain ⟨-, shows⟩ := stands.shows nonempty encodable few
  obtain ⟨shaped, -⟩ := shaped_of_placed count placed encodable
  have behind : (ofHeader m h).entries + (ofHeader m h).count * (ofHeader m h).layout.entrySize
      ≤ h.objectTable.toNat + (ObjectLayout.of h.version).defaults * 2
        + objects.length * (ObjectLayout.of h.version).entrySize := by
    rw [count]
    exact Nat.le_refl _
  have spread := spread_of_placed count placed encodable behind
  have within (i : Nat) (o : ObjectEntry) (listed : objects[i]? = some o) :
      Within (ofHeader m h).count (i + 1).toUInt16 := (placed i o listed).within
  exact (shaped.edited spread edits).independent spread within (shaped.describes within shows)

end ObjectTable

open ObjectEntry Assembler

/-- In an object table of what the version can express, laid out within reach of a word, and after
any edits of it, every edit changes the field that it names and no other, or it is refused and
changes nothing, unless something was written over the table or over the version in the header. -/
theorem objectEdits_independent {version : Byte} (known : 1 ≤ version.toNat ∧ version.toNat ≤ 8)
    {objects : List ObjectEntry} (nonempty : 1 ≤ objects.length)
    (few : objects.length ≤ (ObjectLayout.of version.toNat).maxObjects)
    (encodable : ∀ o ∈ objects, o.Encodable version.toNat) (defaults : List Word)
    {before after : List Emission} {image : Array Byte}
    (near : (((start version).assemble before).objectTable defaults objects).2.position ≤ 65536)
    (finished : ((start version).assemble (before ++ .objectTable defaults objects :: after)).finish
      = .ok image)
    (unchanged : ∀ e ∈ before ++ after, ¬e.Touches HeaderField.version)
    (unpatched : ∀ e ∈ after, ∀ x,
      ((start version).assemble before).OfObjectTable defaults objects x → ¬e.Touches x) :
    ∃ h, Header.read (.ofBytes image) = .ok h ∧
      (ObjectTable.ofHeader (.ofBytes image) h).count = objects.length ∧
      ∀ edits : List ObjectTable.Edit, (ObjectTable.ofHeader (.ofBytes image) h).Independent objects
        ((ObjectTable.ofHeader (.ofBytes image) h).edited edits (.ofBytes image)) := by
  have laid : LaidOut version before defaults objects after image :=
    ⟨known, near, finished, unchanged, unpatched⟩
  obtain ⟨h, reads, version', -, stands⟩ := laid.exists_header fun o mem => (encodable o mem).fits
  rw [← version'] at encodable few
  obtain ⟨count, -⟩ := stands.placed nonempty few
  exact ⟨h, reads, count, fun edits => stands.independent encodable nonempty few edits⟩

theorem objectEdits_independent_room : ∃ image h,
    ((start 5).assemble [.objectTable [4, 6] room]).finish = .ok image ∧
      Header.read (.ofBytes image) = .ok h ∧
      ∃ m m', m = (ObjectTable.ofHeader (.ofBytes image) h).edited
          [.move (.remove 2), .setAttribute 1 7 true] (.ofBytes image) ∧
        (ObjectTable.ofHeader (.ofBytes image) h).setProperty 2 5 0x1234 m = .ok () m' ∧
        (ObjectTable.ofHeader (.ofBytes image) h).property m' 2 5 = .ok 0x1234 ∧
        (ObjectTable.ofHeader (.ofBytes image) h).property m' 2 1
          = (ObjectTable.ofHeader (.ofBytes image) h).property m 2 1 := by
  have laid := @objectTable_eq_emit (start 5) room encodable_room [4, 6]
  obtain ⟨image, finished⟩ : ∃ image, ((start 5).objectTable [4, 6] room).2.finish = .ok image :=
    exists_finish (by rw [laid]; rfl) (by rw [laid]; rfl)
  obtain ⟨h, reads, -, independent⟩ :=
    @objectEdits_independent 5 (by decide) room (by decide) (by decide)
    encodable_room [4, 6] [] [] image near_room finished (by simp) (by simp)
  have lamp :=
    (independent [.move (.remove 2), .setAttribute 1 7 true]).properties 1 _ rfl (5, [1, 2])
    (by decide) 0x1234
  obtain ⟨m', ran, value, others, -⟩ := lamp
  exact ⟨image, h, finished, reads, _, m', rfl, ran, value, others 2 1 (by decide)⟩

end ZMachine
