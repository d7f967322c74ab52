/-
  Moving objects in any image.

  The links of an image may form no tree at all: they may run in circles or
  lead to objects that are not there.  Everything that can fail is a look
  along the links, and all looks come before the first write; the counted
  entries lie in the image, so that what is written has its place.  A change
  of the tree fails and leaves the image as it was, or it writes links of
  objects and nothing else.
-/
import ZMachine.Proofs.ObjectTree

namespace ZMachine

namespace ObjectTable

open Links

variable {α : Type} {t : ObjectTable} {m : Memory} {o d : Word}

/-! ## The entries lie in the image -/

/-- Address of the entry of an object. -/
def entryAddress (t : ObjectTable) (o : Word) : Nat :=
  t.entries + (o.toNat - 1) * t.layout.entrySize

theorem toNat_pos (ho : Within t.count o) : 0 < o.toNat :=
  Nat.pos_of_ne_zero fun zero => ho.1 (UInt16.toNat_inj.mp zero)

/-- The counted entries follow each other from the first on. -/
theorem entry_between (ho : Within t.count o) : t.entries ≤ t.entryAddress o ∧
    t.entryAddress o + t.layout.entrySize ≤ t.entries + t.count * t.layout.entrySize := by
  have positive := toNat_pos ho
  have ends : (o.toNat - 1) * t.layout.entrySize + t.layout.entrySize
      ≤ t.count * t.layout.entrySize := by
    rw [← Nat.succ_mul]
    apply Nat.mul_le_mul_right
    have := ho.2
    omega
  unfold entryAddress
  omega

/-- The links of an object stand in its entry, behind the attributes and in front of the pointer. -/
theorem slot_between (t : ObjectTable) (link : ObjectLink) (o : Word) :
    t.entryAddress o + t.layout.attributeBytes ≤ t.slotAddress link o ∧
      t.slotAddress link o + t.layout.linkBytes ≤ t.entryAddress o + t.layout.propertyOffset := by
  have slot : link.slot * t.layout.linkBytes + t.layout.linkBytes ≤ 3 * t.layout.linkBytes := by
    cases link <;> simp only [ObjectLink.slot] <;> omega
  simp only [slotAddress, linkAddress, entryAddress, ObjectLayout.propertyOffset]
  omega

/-- The scan counts an entry only if all of it lies below the end of the image. -/
theorem scan_inside (m : Memory) (l : ObjectLayout) {entries limit count lowest : Nat}
    (below : lowest ≤ m.size) (so_far : count = 0 ∨ entries + count * l.entrySize ≤ m.size) :
    scan m l entries limit count lowest = 0 ∨
      entries + scan m l entries limit count lowest * l.entrySize ≤ m.size := by
  induction limit generalizing count lowest with
  | zero => exact so_far
  | succ limit ih =>
      unfold scan
      dsimp only
      by_cases beyond : lowest < entries + count * l.entrySize + l.entrySize
      · rw [if_pos beyond]
        exact so_far
      · rw [if_neg beyond]
        apply ih
        · split <;> omega
        · right
          rw [Nat.succ_mul]
          omega

/-- An image of the size of the one that the objects were counted in holds all their links. -/
theorem readable_ofHeader (image : Memory) (header : Header) (same : m.size = image.size) :
    (ofHeader image header).Readable m := by
  rw [readable_iff]
  intro link o ho
  have counted : (ofHeader image header).count = 0 ∨ (ofHeader image header).entries
      + (ofHeader image header).count * (ofHeader image header).layout.entrySize ≤ image.size := by
    show (if header.objectTable.toNat = 0 then 0 else _) = 0 ∨
      _ + (if header.objectTable.toNat = 0 then 0 else _) * _ ≤ _
    split
    · exact .inl rfl
    · exact scan_inside image _ (Nat.le_refl _) (.inl rfl)
  have positive := toNat_pos ho
  have few := ho.2
  obtain ⟨-, ends⟩ := entry_between ho
  obtain ⟨-, slot⟩ := (ofHeader image header).slot_between link o
  have size : (ofHeader image header).layout.entrySize
      = (ofHeader image header).layout.propertyOffset + 2 := rfl
  omega

/-! ## What an edit may write -/

/-- The bytes that hold the links of the objects. -/
def LinkByte (t : ObjectTable) (x : Nat) : Prop :=
  ∃ link o, Within t.count o ∧ t.slotAddress link o ≤ x ∧
    x < t.slotAddress link o + t.layout.linkBytes

/-- Nothing but links is written. -/
def Relinked (t : ObjectTable) (m m' : Memory) : Prop := m.Agrees (fun x => ¬t.LinkByte x) m'

theorem Readable.of_size {m' : Memory} (readable : t.Readable m) (same : m'.size = m.size) :
    t.Readable m' := by
  rw [readable_iff] at readable ⊢
  intro link o ho
  rw [same]
  exact readable link o ho

/-- An action that succeeds wherever the links are held, and writes nothing else. -/
def Certain (t : ObjectTable) (x : MemoryM α) : Prop :=
  ∀ m, t.Readable m → ∃ a m', x m = .ok a m' ∧ t.Relinked m m'

/-- An action that fails at an object before it writes anything, or succeeds and writes
links alone. -/
def Atomic (t : ObjectTable) (x : MemoryM α) : Prop :=
  ∀ m, t.Readable m → (∃ o, x m = .error (.invalidObject o) m) ∨
    ∃ a m', x m = .ok a m' ∧ t.Relinked m m'

section

variable {β : Type} {x : MemoryM α} {f : α → MemoryM β}

theorem Certain.pure (t : ObjectTable) (a : α) : t.Certain (pure a : MemoryM α) :=
  fun m _ => ⟨a, m, rfl, .refl _ m⟩

theorem Certain.atomic (certain : t.Certain x) : t.Atomic x :=
  fun m readable => .inr (certain m readable)

theorem Certain.bind (first : t.Certain x) (rest : ∀ a, t.Certain (f a)) : t.Certain (x >>= f) := by
  intro m readable
  obtain ⟨a, m', ran, relinked⟩ := first m readable
  obtain ⟨b, m'', ran', relinked'⟩ := rest a m' (readable.of_size relinked.size)
  refine ⟨b, m'', ?_, relinked.trans relinked'⟩
  simp only [Bind.bind, EStateM.bind, ran, ran']

/-- After an action that may fail only such may follow that cannot. -/
theorem Atomic.bind (first : t.Atomic x) (rest : ∀ a, t.Certain (f a)) : t.Atomic (x >>= f) := by
  intro m readable
  obtain ⟨o, failed⟩ | ⟨a, m', ran, relinked⟩ := first m readable
  · refine .inl ⟨o, ?_⟩
    simp only [Bind.bind, EStateM.bind, failed]
  · obtain ⟨b, m'', ran', relinked'⟩ := rest a m' (readable.of_size relinked.size)
    refine .inr ⟨b, m'', ?_, relinked.trans relinked'⟩
    simp only [Bind.bind, EStateM.bind, ran, ran']

theorem Atomic.throw (t : ObjectTable) (o : Word) :
    t.Atomic (throw (.invalidObject o) : MemoryM α) :=
  fun _ _ => .inl ⟨o, rfl⟩

/-- Looks come before everything else: they fail without a trace. -/
theorem Atomic.look {g : Memory → Except Fault α}
    (looks : ∀ m, t.Readable m →
      (∃ o, g m = .error (.invalidObject o)) ∨ ∃ a, g m = .ok a ∧ t.Atomic (f a)) :
    t.Atomic (MemoryM.query g >>= f) := by
  intro m readable
  obtain ⟨o, failed⟩ | ⟨a, seen, rest⟩ := looks m readable
  · refine .inl ⟨o, ?_⟩
    simp only [Bind.bind, EStateM.bind, MemoryM.query, failed]
  · obtain same : (MemoryM.query g >>= f) m = f a m := by
      simp only [Bind.bind, EStateM.bind, MemoryM.query, seen]
    rw [same]
    exact rest m readable

end

/-! ## Links -/

/-- A look along a link fails only at what is no object. -/
theorem Atomic.link {β : Type} {link : ObjectLink} {f : Word → MemoryM β}
    (rest : Within t.count o → ∀ w, t.Atomic (f w)) :
    t.Atomic (MemoryM.query (fun m => t.link m link o) >>= f) := by
  apply Atomic.look
  intro m readable
  by_cases ho : Within t.count o
  · exact .inr ⟨_, readable link o ho, rest ho _⟩
  · exact .inl ⟨o, link_of_not_within link ho⟩

theorem Certain.link {link : ObjectLink} (ho : Within t.count o) :
    t.Certain (MemoryM.query fun m => t.link m link o) := by
  intro m readable
  refine ⟨t.links m link o, m, ?_, .refl _ m⟩
  simp only [MemoryM.query, readable link o ho]

/-- A link of an object can be changed. -/
theorem Certain.setLink (link : ObjectLink) (ho : Within t.count o) (v : Word) :
    t.Certain (t.setLink link o v) := by
  intro m readable
  refine ⟨(), _, run_setLink readable link ho v, .commit m fun x apart => ?_⟩
  -- A byte of the run is a byte of this link.
  rw [t.length_slotBytes v]
  by_contra touched
  exact apart ⟨link, o, ho, by omega, by omega⟩

/-! ## Removing and inserting -/

/-- Whatever list the walk runs into, it writes when it has found the object, and fails
before or not at all. -/
theorem atomic_unlink (o next : Word) (bound : Nat) (current : Word) :
    t.Atomic (t.unlink o next bound current) := by
  -- By induction on the bound: up to the one write, every step of the walk only reads.
  induction bound generalizing current with
  | zero =>
      unfold unlink
      split
      · exact (Certain.pure t ()).atomic
      · apply Atomic.link
        intro here following
        split
        · exact (Certain.setLink .sibling here next).atomic
        · exact Atomic.throw t following
  | succ bound ih =>
      unfold unlink
      split
      · exact (Certain.pure t ()).atomic
      · apply Atomic.link
        intro here following
        split
        · exact (Certain.setLink .sibling here next).atomic
        · exact ih following

theorem atomic_remove (t : ObjectTable) (o : Word) : t.Atomic (t.remove o) := by
  apply Atomic.link
  intro ho parent
  split
  · exact (Certain.pure t ()).atomic
  · have clears : t.Certain (do t.setLink .parent o 0; t.setLink .sibling o 0) :=
      (Certain.setLink .parent ho 0).bind fun _ => Certain.setLink .sibling ho 0
    apply Atomic.link
    intro _ next
    apply Atomic.link
    intro hp first
    split
    · exact ((Certain.setLink .child hp next).atomic).bind fun _ => clears
    · exact (atomic_unlink o next t.count first).bind fun _ => clears

/-- The walk to the root fails only at an object. -/
theorem checkAncestors_cases (readable : t.Readable m) (o d : Word) (bound : Nat) (current : Word) :
    (∃ x, t.checkAncestors m o d bound current = .error (.invalidObject x)) ∨
      t.checkAncestors m o d bound current = .ok () := by
  induction bound generalizing current with
  | zero =>
      unfold checkAncestors
      by_cases zero : current = 0
      · exact .inr (if_pos zero)
      by_cases same : current = o
      · exact .inl ⟨o, by rw [if_neg zero, if_pos same]; rfl⟩
      rw [if_neg zero, if_neg same]
      -- Out of bound the walk is refused for the new parent, even when it could go on.
      by_cases here : Within t.count current
      · exact .inl ⟨d, by rw [readable .parent current here]; rfl⟩
      · exact .inl ⟨current, by rw [link_of_not_within .parent here]; rfl⟩
  | succ bound ih =>
      unfold checkAncestors
      by_cases zero : current = 0
      · exact .inr (if_pos zero)
      by_cases same : current = o
      · exact .inl ⟨o, by rw [if_neg zero, if_pos same]; rfl⟩
      rw [if_neg zero, if_neg same]
      by_cases here : Within t.count current
      · rw [readable .parent current here]
        exact ih (t.links m .parent current)
      · exact .inl ⟨current, by rw [link_of_not_within .parent here]; rfl⟩

/-- Once the object is taken out, it can be put in: all that is left is to write links of
objects. -/
theorem atomic_insert (t : ObjectTable) (o d : Word) : t.Atomic (t.insert o d) := by
  intro m readable
  by_cases ho : Within t.count o
  · by_cases hd : Within t.count d
    · unfold insert
      rw [entry_of_within ho, entry_of_within hd]
      -- Taking the object out is the last action that can fail; it is atomic itself.
      have moves : t.Atomic (t.remove o >>= fun _ =>
          MemoryM.query (fun m => t.link m .child d) >>= fun first =>
            t.setLink .sibling o first >>= fun _ =>
            t.setLink .child d o >>= fun _ => t.setLink .parent o d) := by
        apply (atomic_remove t o).bind
        intro _
        apply (Certain.link hd).bind
        intro first
        apply (Certain.setLink .sibling ho first).bind
        intro _
        apply (Certain.setLink .child hd o).bind
        intro _
        exact Certain.setLink .parent ho d
      -- The search for the object among the ancestors only looks at the image.
      show (∃ x, (MemoryM.query (fun m => t.checkAncestors m o d t.count d) >>= _) m = _) ∨ _
      apply Atomic.look _ m readable
      intro m' readable'
      obtain failed | passed := checkAncestors_cases readable' o d t.count d
      · exact .inl failed
      · exact .inr ⟨(), passed, moves⟩
    · refine .inl ⟨d, ?_⟩
      unfold insert
      rw [entry_of_within ho, entry_of_not_within hd]
      rfl
  · refine .inl ⟨o, ?_⟩
    unfold insert
    rw [entry_of_not_within ho]
    rfl

theorem atomic_move (t : ObjectTable) (move : Move) : t.Atomic (move.run t) := by
  cases move with
  | remove o => exact atomic_remove t o
  | insert o d => exact atomic_insert t o d

/-- A change of the tree gives a result in any image of the size of the one that the objects were
counted in, whatever its links are: it fails at an object and leaves the image as it was, or it
succeeds and changes bytes of links alone. -/
theorem treeEdit_atomic (image : Memory) (header : Header) (same : m.size = image.size)
    (move : Move) :
    let t := ofHeader image header
    (∃ x, move.run t m = .error (.invalidObject x) m) ∨
      ∃ m', move.run t m = .ok () m' ∧ t.Relinked m m' := by
  intro t
  have readable : t.Readable m := readable_ofHeader image header same
  obtain failed | ⟨_, m', ran, relinked⟩ := atomic_move t move m readable
  · exact .inl failed
  · exact .inr ⟨m', ran, relinked⟩

/-- An image with three objects: the children of the first run in a circle that the third
is not on. -/
def circleImage : Memory :=
  .ofBytes (overwrite (overwrite (overwrite (Array.replicate 93 0) 68 [0, 0, 2, 0, 91])
    77 [1, 2, 0, 0, 91]) 86 [1, 0, 0, 0, 91])

/-- A header that names the table of these objects. -/
def circleHeader : Header := { (default : Header) with version := 3, objectTable := 2 }

theorem treeEdit_atomic_circle : ∃ x,
    (ofHeader circleImage circleHeader).remove 3 circleImage
      = .error (.invalidObject x) circleImage := by
  have fails : ((ofHeader circleImage circleHeader).remove 3 circleImage matches .error ..)
      = true := by
    decide +kernel
  obtain failed | ⟨m', ran, -⟩ := treeEdit_atomic circleImage circleHeader rfl (.remove 3)
  · exact failed
  · rw [show (ofHeader circleImage circleHeader).remove 3 circleImage = .ok () m' from ran] at fails
    cases fails

end ObjectTable

end ZMachine
