/-
  The shape of an object table.

  Most bytes of an object table are never written: the defaults, the pointers
  to the property tables, the names, and in front of the data of a property
  what tells its number and length.  They alone decide where the reader finds
  everything else.  What edits write are the other bytes, those of the
  attributes and the links and the data of the properties, and the entries and
  the property tables keep them apart from each other and from the fixed ones.
-/
import Mathlib.Data.List.Pairwise
import ZMachine.Proofs.ObjectReading
import ZMachine.Proofs.TreeEdits

namespace ZMachine

namespace ObjectTable

open Links

variable {t : ObjectTable} {m m' : Memory} {o o' number : Word} {a x : Nat} {X : Nat → Prop}

/-! ## One property -/

/-- Whether the reader tells a property at an address from the bytes in front of its data. -/
def Tells (t : ObjectTable) (m : Memory) (a : Nat) (size : Byte) (r? : Option Property) : Prop :=
  if size = 0 then r? = none
  else if t.version ≤ 3 then r? = some ⟨size &&& 0x1f, a, 0, shortLength t.version size⟩
  else if size &&& 0x80 ≠ 0 then
    ∃ second, m.readByte (a + 1) = .ok second ∧ r? = some ⟨size &&& 0x3f, a, 1, longLength second⟩
  else r? = some ⟨size &&& 0x3f, a, 0, shortLength t.version size⟩

theorem propertyAt_eq_ok {r? : Option Property} :
    t.propertyAt m a = .ok r? ↔ ∃ size, m.readByte a = .ok size ∧ t.Tells m a size r? := by
  have pure_eq_ok {q? : Option Property} : (pure q? : Except Fault (Option Property)) = .ok r? ↔
      r? = q? :=
    ⟨fun same => (Except.ok.inj same).symm, fun same => congrArg Except.ok same.symm⟩
  cases read : m.readByte a with
  | error e =>
      rw [propertyAt, read]
      constructor
      · intro never
        cases never
      · rintro ⟨_, never, -⟩
        cases never
  | ok size =>
      have step : t.propertyAt m a = .ok r? ↔ t.Tells m a size r? := by
        rw [propertyAt, read, Tells]
        show (if _ then _ else if _ then _ else if _ then _ else _) = _ ↔ _
        split
        · exact pure_eq_ok
        split
        · exact pure_eq_ok
        split
        -- Only this form has a second byte, which may lie behind the end of the image.
        · cases m.readByte (a + 1) with
          | error e =>
              constructor
              · intro never
                cases never
              · rintro ⟨_, never, -⟩
                cases never
          | ok second =>
              refine pure_eq_ok.trans ⟨fun same => ⟨second, rfl, same⟩, ?_⟩
              rintro ⟨_, ⟨⟩, same⟩
              exact same
        · exact pure_eq_ok
      rw [step]
      constructor
      · intro told
        exact ⟨size, rfl, told⟩
      · rintro ⟨_, ⟨⟩, told⟩
        exact told

theorem shortLength_pos (version : Nat) (size : Byte) : 1 ≤ shortLength version size := by
  unfold shortLength
  split
  · exact Nat.le_add_left ..
  · split <;> decide

theorem longLength_pos (b : Byte) : 1 ≤ longLength b := by
  unfold longLength
  dsimp only
  split <;> omega

/-- A property has data, behind one byte or two. -/
theorem propertyAt_parts {r : Property} (read : t.propertyAt m a = .ok (some r)) :
    r.address = a ∧ 1 ≤ r.length := by
  obtain ⟨size, -, told⟩ := propertyAt_eq_ok.mp read
  unfold Tells at told
  split at told
  · cases told
  split at told
  · cases told
    exact ⟨rfl, shortLength_pos t.version size⟩
  split at told
  · obtain ⟨second, -, ⟨⟩⟩ := told
    exact ⟨rfl, longLength_pos second⟩
  · cases told
    exact ⟨rfl, shortLength_pos t.version size⟩

/-- A property is read alike where the bytes in front of its data are the same. -/
theorem propertyAt_agrees {r? : Option Property} (agrees : m.Agrees X m')
    (read : t.propertyAt m a = .ok r?) (first : X a)
    (head : ∀ r, r? = some r → ∀ x, a ≤ x → x < r.data → X x) : t.propertyAt m' a = .ok r? := by
  obtain ⟨size, byte, told⟩ := propertyAt_eq_ok.mp read
  refine propertyAt_eq_ok.mpr ⟨size, (agrees.readByte first).trans byte, ?_⟩
  -- A second byte is looked at only where the data begins behind it.
  have second (second : Byte) (long : r? = some ⟨size &&& 0x3f, a, 1, longLength second⟩) :
      m'.readByte (a + 1) = m.readByte (a + 1) := by
    apply agrees.readByte
    exact head _ long (a + 1) (Nat.le_add_right ..) (Nat.lt_succ_self _)
  unfold Tells at told ⊢
  split
  case isTrue zero => rwa [if_pos zero] at told
  case isFalse nonzero =>
    rw [if_neg nonzero] at told
    split
    case isTrue early => rwa [if_pos early] at told
    case isFalse late =>
      rw [if_neg late] at told
      split
      case isTrue long =>
        rw [if_pos long] at told
        obtain ⟨b, byte', told⟩ := told
        exact ⟨b, (second b told).trans byte', told⟩
      case isFalse short => rwa [if_neg short] at told

/-! ## Properties one after the other -/

/-- The property with a number among records, looked for as long as the numbers are greater. -/
def pick (number : Word) : List Property → Option Property
  | [] => none
  | r :: rs =>
      if r.number.toUInt16 = number then some r
      else if r.number.toUInt16 < number then none
      else pick number rs

/-- Records one after the other from `a` on, up to the end of a property table. -/
def Lists (t : ObjectTable) (m : Memory) : Nat → List Property → Prop
  | a, [] => a < m.size ∧ t.propertyAt m a = .ok none
  | a, r :: rs => a < m.size ∧ t.propertyAt m a = .ok (some r) ∧ t.Lists m r.next rs

/-- Where the byte stands that ends a row of records. -/
def rowEnd : Nat → List Property → Nat
  | a, [] => a
  | _, r :: rs => rowEnd r.next rs

variable {rs : List Property} {r r' : Property}

theorem pick_mem (picked : pick number rs = some r) : r ∈ rs ∧ r.number.toUInt16 = number := by
  induction rs with
  | nil => cases picked
  | cons r' rs ih =>
      rw [pick] at picked
      split at picked
      case isTrue same =>
        obtain rfl := Option.some.inj picked
        exact ⟨List.mem_cons_self, same⟩
      case isFalse other =>
        split at picked
        · cases picked
        · exact ⟨List.mem_cons_of_mem _ (ih picked).1, (ih picked).2⟩

/-- The reader finds what is listed. -/
theorem Lists.findPropertyFrom (lists : t.Lists m a rs) :
    t.findPropertyFrom m number a = .ok (pick number rs) := by
  induction rs generalizing a with
  | nil =>
      obtain ⟨inside, closed⟩ := lists
      rw [ObjectTable.findPropertyFrom, if_pos inside, closed]
      rfl
  | cons r rs ih =>
      obtain ⟨inside, here, rest⟩ := lists
      obtain ⟨rfl, -⟩ := propertyAt_parts here
      rw [ObjectTable.findPropertyFrom, if_pos inside, here, pick]
      show (if _ then _ else if _ then _ else _) = _
      split
      · rfl
      · split
        · rfl
        · exact ih rest

/-- Records stand in order, each of them behind the ones before. -/
theorem Lists.ordered (lists : t.Lists m a rs) :
    (a ≤ rowEnd a rs ∧ rowEnd a rs < m.size) ∧
    (∀ r ∈ rs, a ≤ r.address ∧ r.next ≤ rowEnd a rs ∧ 1 ≤ r.length) ∧
      rs.Pairwise fun r r' => r.next ≤ r'.address := by
  induction rs generalizing a with
  | nil => exact ⟨⟨Nat.le_refl a, lists.1⟩, by simp, .nil⟩
  | cons r rs ih =>
      obtain ⟨inside, here, rest⟩ := lists
      obtain ⟨rfl, filled⟩ := propertyAt_parts here
      obtain ⟨⟨low, high⟩, between, ordered⟩ := ih rest
      have grows : r.address ≤ r.next := Nat.le_add_right ..
      have stop : rowEnd r.address (r :: rs) = rowEnd r.next rs := rfl
      rw [stop]
      refine ⟨⟨by omega, high⟩, ?_,
        List.pairwise_cons.mpr ⟨fun r' mem => (between r' mem).1, ordered⟩⟩
      intro r' mem
      rcases List.mem_cons.mp mem with rfl | mem
      · exact ⟨Nat.le_refl _, low, filled⟩
      · have := between r' mem
        omega

/-- No two records overlap. -/
theorem Lists.apart (lists : t.Lists m a rs) (mem : r ∈ rs) (mem' : r' ∈ rs) (ne : r ≠ r') :
    r.next ≤ r'.address ∨ r'.next ≤ r.address := by
  obtain ⟨-, -, ordered⟩ := lists.ordered
  have apart : rs.Pairwise fun r r' => r.next ≤ r'.address ∨ r'.next ≤ r.address := ordered.imp .inl
  have : Std.Symm fun r r' : Property => r.next ≤ r'.address ∨ r'.next ≤ r.address :=
    ⟨fun _ _ => .symm⟩
  exact apart.forall mem mem' ne

/-- Records stay listed while the bytes in front of their data stay, and the last one. -/
theorem Lists.of_agrees (lists : t.Lists m a rs) (agrees : m.Agrees X m')
    (heads : ∀ r ∈ rs, ∀ x, r.address ≤ x → x < r.data → X x) (stop : X (rowEnd a rs)) :
    t.Lists m' a rs := by
  induction rs generalizing a with
  | nil =>
      obtain ⟨inside, closed⟩ := lists
      exact ⟨agrees.size ▸ inside,
        propertyAt_agrees agrees closed stop fun r found => by cases found⟩
  | cons r rs ih =>
      obtain ⟨inside, here, rest⟩ := lists
      obtain ⟨rfl, -⟩ := propertyAt_parts here
      have head := heads r List.mem_cons_self
      refine ⟨agrees.size ▸ inside,
        propertyAt_agrees agrees here (head _ (Nat.le_refl _) ?_) ?_, ?_⟩
      · show r.address < r.address + 1 + r.extra
        omega
      · rintro r' ⟨⟩
        exact head
      · exact ih rest (fun r mem => heads r (List.mem_cons_of_mem _ mem)) stop

/-! ## Entries -/

/-- The entries of two objects share no byte. -/
theorem entryAddress_inj (ho : Within t.count o) (ho' : Within t.count o')
    (here : t.entryAddress o ≤ x ∧ x < t.entryAddress o + t.layout.entrySize)
    (here' : t.entryAddress o' ≤ x ∧ x < t.entryAddress o' + t.layout.entrySize) : o' = o := by
  have positive := toNat_pos ho
  have positive' := toNat_pos ho'
  apply UInt16.toNat_inj.mp
  unfold entryAddress at here here'
  by_cases early : t.version ≤ 3
  · simp only [layout, ObjectLayout.of, early, if_true, ObjectLayout.entrySize,
      ObjectLayout.propertyOffset] at here here'
    omega
  · simp only [layout, ObjectLayout.of, early, if_false, ObjectLayout.entrySize,
      ObjectLayout.propertyOffset] at here here'
    omega

/-! ## The shape -/

/-- Where the property tables of the objects stand, how many words their names have and what
properties they list. -/
structure Shape where
  table : Word → Nat
  words : Word → Byte
  records : Word → List Property

namespace Shape

/-- Where the properties of an object begin. -/
def row (s : Shape) (o : Word) : Nat := s.table o + 1 + (s.words o).toNat * 2

/-- The last byte of the property table of an object. -/
def stop (s : Shape) (o : Word) : Nat := rowEnd (s.row o) (s.records o)

end Shape

variable {s : Shape}

/-- The property tables stand behind the entries, no two of them in one place. -/
structure Spread (t : ObjectTable) (s : Shape) : Prop where
  behind : ∀ o, Within t.count o → t.entries + t.count * t.layout.entrySize ≤ s.table o
  apart : ∀ o o', Within t.count o → Within t.count o' → o ≠ o' →
    s.stop o < s.table o' ∨ s.stop o' < s.table o

/-- The reader finds the property tables of an image as they are planned. -/
structure Shaped (t : ObjectTable) (s : Shape) (m : Memory) : Prop where
  pointer : ∀ o, Within t.count o → t.propertyTable m o = .ok (s.table o)
  name : ∀ o, Within t.count o → m.readByte (s.table o) = .ok (s.words o)
  lists : ∀ o, Within t.count o → t.Lists m (s.row o) (s.records o)

/-- The bytes of the attributes of an object. -/
def AttributeByte (t : ObjectTable) (x : Nat) : Prop :=
  ∃ o, Within t.count o ∧ t.entryAddress o ≤ x ∧ x < t.entryAddress o + t.layout.attributeBytes

/-- The bytes of the data of a property. -/
def DataByte (t : ObjectTable) (s : Shape) (x : Nat) : Prop :=
  ∃ o r, Within t.count o ∧ r ∈ s.records o ∧ r.data ≤ x ∧ x < r.next

/-- The bytes that no edit writes. -/
def Fixed (t : ObjectTable) (s : Shape) (x : Nat) : Prop :=
  ¬t.AttributeByte x ∧ ¬t.LinkByte x ∧ ¬t.DataByte s x

/-! ## What is kept apart -/

theorem AttributeByte.between (here : t.AttributeByte x) :
    t.entries ≤ x ∧ x < t.entries + t.count * t.layout.entrySize := by
  obtain ⟨o, ho, low, high⟩ := here
  have entry := entry_between ho
  have size : t.layout.entrySize = t.layout.attributeBytes + 3 * t.layout.linkBytes + 2 := rfl
  omega

theorem LinkByte.between (here : t.LinkByte x) :
    t.entries ≤ x ∧ x < t.entries + t.count * t.layout.entrySize := by
  obtain ⟨link, o, ho, low, high⟩ := here
  have entry := entry_between ho
  have slot := t.slot_between link o
  have size : t.layout.entrySize = t.layout.propertyOffset + 2 := rfl
  omega

/-- A byte of an entry behind the attributes belongs to no attribute of any object. -/
theorem not_attributeByte (ho : Within t.count o)
    (low : t.entryAddress o + t.layout.attributeBytes ≤ x)
    (high : x < t.entryAddress o + t.layout.entrySize) : ¬t.AttributeByte x := by
  rintro ⟨o', ho', low', high'⟩
  have size : t.layout.entrySize = t.layout.attributeBytes + 3 * t.layout.linkBytes + 2 := rfl
  obtain rfl := entryAddress_inj (x := x) ho ho' (by omega) (by omega)
  omega

theorem LinkByte.not_attributeByte (here : t.LinkByte x) : ¬t.AttributeByte x := by
  obtain ⟨link, o, ho, low, high⟩ := here
  have slot := t.slot_between link o
  have size : t.layout.entrySize = t.layout.propertyOffset + 2 := rfl
  exact ObjectTable.not_attributeByte ho (by omega) (by omega)

namespace Shaped

/-- The data of a property lies inside the property table. -/
theorem data_between (shaped : t.Shaped s m) (ho : Within t.count o) (mem : r ∈ s.records o) :
    s.table o < r.address ∧ r.address < r.data ∧ r.data < r.next ∧ r.next ≤ s.stop o := by
  obtain ⟨-, between, -⟩ := (shaped.lists o ho).ordered
  have := between r mem
  simp only [Shape.row, Shape.stop, Property.data, Property.next, Property.extent] at this ⊢
  omega

theorem table_lt_stop (shaped : t.Shaped s m) (ho : Within t.count o) :
    s.table o < s.row o ∧ s.row o ≤ s.stop o ∧ s.stop o < m.size := by
  obtain ⟨⟨low, high⟩, -⟩ := (shaped.lists o ho).ordered
  refine ⟨?_, low, high⟩
  rw [Shape.row]
  omega

theorem behind (shaped : t.Shaped s m) (spread : t.Spread s) (data : t.DataByte s x) :
    t.entries + t.count * t.layout.entrySize < x := by
  obtain ⟨o, r, ho, mem, low, high⟩ := data
  have := shaped.data_between ho mem
  have := spread.behind o ho
  omega

/-- A byte belongs to the data of one property at most. -/
theorem data_unique (shaped : t.Shaped s m) (spread : t.Spread s) (ho : Within t.count o)
    (ho' : Within t.count o') (mem : r ∈ s.records o) (mem' : r' ∈ s.records o')
    (here : r.data ≤ x ∧ x < r.next) (here' : r'.data ≤ x ∧ x < r'.next) : o' = o ∧ r' = r := by
  have := shaped.data_between ho mem
  have := shaped.data_between ho' mem'
  by_cases same : o' = o
  · subst same
    refine ⟨rfl, ?_⟩
    by_contra ne
    have := (shaped.lists o' ho).apart mem' mem ne
    omega
  · have := spread.apart o' o ho' ho same
    omega

/-- What a property table holds in front of and between the data is fixed. -/
theorem fixed_of_table (shaped : t.Shaped s m) (spread : t.Spread s) (ho : Within t.count o)
    (low : s.table o ≤ x) (high : x ≤ s.stop o)
    (between : ∀ r ∈ s.records o, x < r.data ∨ r.next ≤ x) : t.Fixed s x := by
  have behind := spread.behind o ho
  refine ⟨fun flag => ?_, fun link => ?_, ?_⟩
  · have := flag.between
    omega
  · have := link.between
    omega
  · rintro ⟨o', r, ho', mem, here⟩
    by_cases same : o' = o
    · subst same
      have := between r mem
      omega
    · have := shaped.data_between ho' mem
      have := spread.apart o' o ho' ho same
      omega

theorem fixed_name (shaped : t.Shaped s m) (spread : t.Spread s) (ho : Within t.count o)
    (low : s.table o ≤ x) (high : x < s.row o) : t.Fixed s x := by
  have := shaped.table_lt_stop ho
  refine shaped.fixed_of_table spread ho low (by omega) fun r mem => .inl ?_
  obtain ⟨-, between, -⟩ := (shaped.lists o ho).ordered
  have := between r mem
  have := shaped.data_between ho mem
  omega

theorem fixed_head (shaped : t.Shaped s m) (spread : t.Spread s) (ho : Within t.count o)
    (mem : r ∈ s.records o) (low : r.address ≤ x) (high : x < r.data) : t.Fixed s x := by
  have here := shaped.data_between ho mem
  refine shaped.fixed_of_table spread ho (by omega) (by omega) fun r' mem' => ?_
  by_cases same : r' = r
  · exact .inl (same ▸ high)
  · have := (shaped.lists o ho).apart mem' mem same
    have := shaped.data_between ho mem'
    omega

theorem fixed_stop (shaped : t.Shaped s m) (spread : t.Spread s) (ho : Within t.count o) :
    t.Fixed s (s.stop o) := by
  have := shaped.table_lt_stop ho
  refine shaped.fixed_of_table spread ho (by omega) (Nat.le_refl _) fun r mem => .inr ?_
  exact (shaped.data_between ho mem).2.2.2

theorem fixed_pointer (shaped : t.Shaped s m) (spread : t.Spread s) (ho : Within t.count o)
    (low : t.entryAddress o + t.layout.propertyOffset ≤ x)
    (high : x < t.entryAddress o + t.layout.entrySize) : t.Fixed s x := by
  have entry := entry_between ho
  have offset : t.layout.propertyOffset = t.layout.attributeBytes + 3 * t.layout.linkBytes := rfl
  refine ⟨not_attributeByte ho (by omega) high, ?_, fun data => ?_⟩
  · rintro ⟨link, o', ho', low', high'⟩
    have slot := t.slot_between link o'
    have size : t.layout.entrySize = t.layout.propertyOffset + 2 := rfl
    obtain rfl := entryAddress_inj (x := x) ho ho' (by omega) (by omega)
    omega
  · have := shaped.behind spread data
    omega

theorem fixed_defaults (shaped : t.Shaped s m) (spread : t.Spread s) (high : x < t.entries) :
    t.Fixed s x := by
  refine ⟨fun flag => ?_, fun link => ?_, fun data => ?_⟩
  · have := flag.between
    omega
  · have := link.between
    omega
  · have := shaped.behind spread data
    omega

/-- The shape stays while the fixed bytes stay. -/
theorem of_agrees (shaped : t.Shaped s m) (spread : t.Spread s) (agrees : m.Agrees (t.Fixed s) m') :
    t.Shaped s m' where
  pointer o ho := by
    have size : t.layout.entrySize = t.layout.propertyOffset + 2 := rfl
    have word : m'.readWord (t.entryAddress o + t.layout.propertyOffset)
        = m.readWord (t.entryAddress o + t.layout.propertyOffset) :=
      agrees.readWord (shaped.fixed_pointer spread ho (by omega) (by omega))
        (shaped.fixed_pointer spread ho (by omega) (by omega))
    rw [entryAddress] at word
    rw [← shaped.pointer o ho]
    simp only [propertyTable, entry_of_within ho, Bind.bind, Except.bind, word]
  name o ho := by
    have := shaped.table_lt_stop ho
    rw [← shaped.name o ho]
    exact agrees.readByte (shaped.fixed_name spread ho (Nat.le_refl _) (by omega))
  lists o ho := (shaped.lists o ho).of_agrees agrees
    (fun _ mem _ low high => shaped.fixed_head spread ho mem low high) (shaped.fixed_stop spread ho)

end Shaped

end ObjectTable

end ZMachine
