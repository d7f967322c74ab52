/-
  Actions on the image.

  What the machine does to the image looks at its bytes and may change some
  of them.  It leaves the image as large as it was, and takes no notice of
  those that observe it.
-/
import ZMachine.Machine.Perform
import ZMachine.Proofs.Actions
import ZMachine.Proofs.Bytes

namespace ZMachine

/-! ## Blind actions -/

/-- A result with everything hidden that `v` hides. -/
def seen {ε σ α : Type} (v : σ → σ) : EStateM.Result ε σ α → EStateM.Result ε σ α
  | .ok a s => .ok a (v s)
  | .error e s => .error e (v s)

/-- An action takes no notice of what `v` hides. -/
def Blind {ε σ α : Type} (v : σ → σ) (x : EStateM ε σ α) : Prop :=
  ∀ s t, v s = v t → seen v (x s) = seen v (x t)

namespace Blind

variable {ε σ α β : Type} {v : σ → σ}

theorem pure (a : α) : Blind v (Pure.pure a : EStateM ε σ α) := by
  intro s t h
  exact congrArg (EStateM.Result.ok a) h

theorem throw (e : ε) : Blind v (MonadExcept.throw e : EStateM ε σ α) := by
  intro s t h
  exact congrArg (EStateM.Result.error e) h

theorem bind {x : EStateM ε σ α} {f : α → EStateM ε σ β} (hx : Blind v x)
    (hf : ∀ a, Blind v (f a)) : Blind v (x >>= f) := by
  intro s t h
  have first := hx s t h
  simp only [Bind.bind, EStateM.bind]
  cases hs : x s with
  | ok a s' =>
      cases ht : x t with
      | ok b t' =>
          simp only [hs, ht, seen, EStateM.Result.ok.injEq] at first
          obtain ⟨rfl, same⟩ := first
          exact hf a s' t' same
      | error e t' => simp [hs, ht, seen] at first
  | error e s' =>
      cases ht : x t with
      | ok b t' => simp [hs, ht, seen] at first
      | error e' t' => simpa [hs, ht, seen] using first

theorem map {x : EStateM ε σ α} (f : α → β) (hx : Blind v x) : Blind v (f <$> x) := by
  rw [map_eq_pure_bind]
  exact hx.bind fun a => .pure (f a)

theorem discard {x : EStateM ε σ α} (hx : Blind v x) :
    Blind v (Functor.discard x : EStateM ε σ PUnit) := map _ hx

theorem ite {x y : EStateM ε σ α} (c : Prop) [Decidable c] (hx : Blind v x) (hy : Blind v y) :
    Blind v (if c then x else y) := by
  split
  · exact hx
  · exact hy

theorem mapM {x : β → EStateM ε σ α} (bs : List β) (hx : ∀ b, Blind v (x b)) :
    Blind v (bs.mapM x) := by
  induction bs with
  | nil => exact .pure _
  | cons b bs ih =>
      rw [List.mapM_cons]
      exact (hx b).bind fun _ => ih.bind fun _ => .pure _

/-- An action that looks at the state, but not at what is hidden. -/
theorem get_bind {f : σ → EStateM ε σ β} (h : ∀ s, f (v s) = f s) (hf : ∀ s, Blind v (f s)) :
    Blind v (get >>= f) := by
  intro s t same
  have alike : f s = f t := by rw [← h s, ← h t, same]
  change seen v (f s s) = seen v (f t t)
  rw [← alike]
  exact hf s s t same

/-- A change that shows only as the change `g` of what is not hidden. -/
theorem modified {f : σ → σ} (g : σ → σ) (h : ∀ s, v (f s) = g (v s)) :
    Blind v (modify f : EStateM ε σ PUnit) := by
  intro s t same
  have alike : v (f s) = v (f t) := by rw [h s, h t, same]
  exact congrArg (EStateM.Result.ok PUnit.unit) alike

theorem lift (x : Except Fault α) : Blind v (liftM x : EStateM Fault σ α) := by
  cases x with
  | ok a => exact .pure a
  | error e => exact .throw e

end Blind

/-! ## Looking at the image -/

namespace Memory

/-- The image without its observers. -/
def plain (m : Memory) : Memory := .ofBytes m.bytes

/-- Something that can be looked up in the bytes of the image. -/
def Lookup {β : Type} (f : Memory → β) : Prop := ∀ m, f m.plain = f m

theorem lookup_textWords (a : Nat) : Lookup fun m => m.textWords a := by
  intro m
  change m.plain.textWords a = m.textWords a
  fun_induction Memory.textWords m a
  case case1 a fits w ends =>
    rw [textWords, if_pos (show a + 2 ≤ m.plain.size from fits)]
    exact if_pos ends
  case case2 a fits w goesOn ws more ih =>
    rw [textWords, if_pos (show a + 2 ≤ m.plain.size from fits), ih, more]
    exact if_neg goesOn
  case case3 a fits w goesOn e more ih =>
    rw [textWords, if_pos (show a + 2 ≤ m.plain.size from fits), ih, more]
    exact if_neg goesOn
  case case4 a beyond =>
    rw [textWords, if_neg (show ¬a + 2 ≤ m.plain.size from beyond)]
    rfl

end Memory

open Memory

namespace TextTables

variable (t : TextTables)

theorem lookup_abbreviation : Lookup fun m => t.abbreviation m := by
  intro m
  funext index
  simp only [abbreviation]
  change (m.readWord _ >>= fun pointer => m.plain.textWords _ >>= _) = _
  simp only [lookup_textWords _ m]

theorem lookup_decodeWords (words : List Word) : Lookup fun m => t.decodeWords m words := by
  intro m
  simp only [decodeWords, t.lookup_abbreviation m]

theorem lookup_decode (a : Nat) : Lookup fun m => t.decode m a := by
  intro m
  simp only [decode, lookup_textWords a m, t.lookup_decodeWords _ m]

end TextTables

theorem lookup_scanTable (value : Word) (words : Bool) (stride count a : Nat) :
    Lookup fun m => Machine.scanTable m value words stride count a := by
  intro m
  induction count generalizing a with
  | zero => rfl
  | succ count ih =>
      simp only [Machine.scanTable] at ih ⊢
      simp only [ih]
      rfl

namespace ObjectTable

variable (t : ObjectTable)

theorem lookup_link (link : ObjectLink) (object : Word) : Lookup fun m => t.link m link object :=
  fun _ => rfl

theorem lookup_testAttribute (object number : Word) :
    Lookup fun m => t.testAttribute m object number := fun _ => rfl

theorem lookup_findPropertyFrom (number : Word) (a : Nat) :
    Lookup fun m => t.findPropertyFrom m number a := by
  intro m
  dsimp only
  -- By induction on the bytes that are left behind the property.
  induction h : m.size - a using Nat.strongRecOn generalizing a with
  | ind n ih =>
      have propertyAt : t.propertyAt m.plain a = t.propertyAt m a := rfl
      rw [findPropertyFrom, findPropertyFrom, propertyAt]
      change (if a < m.size then _ else _) = _
      split
      · rename_i inside
        congr 1
        funext found
        cases found with
        | none => rfl
        | some p =>
            have further := ih (m.size - (a + p.extent)) (by simp [Property.extent]; omega)
              (a + p.extent) rfl
            simp only [further]
      · rfl

theorem lookup_findProperty (object number : Word) :
    Lookup fun m => t.findProperty m object number := by
  intro m
  simp only [findProperty, t.lookup_findPropertyFrom number _ m]
  rfl

theorem lookup_property (object number : Word) : Lookup fun m => t.property m object number := by
  intro m
  simp only [property, t.lookup_findProperty object number m]
  rfl

theorem lookup_propertyAddress (object number : Word) :
    Lookup fun m => t.propertyAddress m object number := by
  intro m
  simp only [propertyAddress, t.lookup_findProperty object number m]

theorem lookup_nextProperty (object number : Word) :
    Lookup fun m => t.nextProperty m object number := by
  intro m
  simp only [nextProperty, t.lookup_findProperty object number m]
  rfl

theorem lookup_propertyLength (a : Nat) : Lookup fun m => t.propertyLength m a := fun _ => rfl

theorem lookup_checkAncestors (object destination : Word) (bound : Nat) (current : Word) :
    Lookup fun m => t.checkAncestors m object destination bound current := by
  intro m
  dsimp only
  induction bound generalizing current with
  | zero => rfl
  | succ bound ih =>
      rw [checkAncestors, checkAncestors]
      simp only [ih, t.lookup_link _ _ m]

end ObjectTable

namespace Dictionary

theorem lookup_lookupSorted (d : Dictionary) (encoded : List Word) (low high : Nat) :
    Lookup fun m => d.lookupSorted m encoded low high := by
  intro m
  dsimp only
  induction h : high - low using Nat.strongRecOn generalizing low high with
  | ind n ih =>
      have compareAt (a : Nat) : compareAt m.plain a encoded = compareAt m a encoded := rfl
      rw [lookupSorted, lookupSorted]
      split
      · dsimp only
        rw [compareAt]
        congr 1
        funext order
        cases order with
        | eq => rfl
        | lt => exact ih _ (by omega) _ _ rfl
        | gt => exact ih _ (by omega) _ _ rfl
      · rfl

theorem lookup_lookupLinear (d : Dictionary) (encoded : List Word) (count index : Nat) :
    Lookup fun m => d.lookupLinear m encoded count index := by
  intro m
  dsimp only
  induction count generalizing index with
  | zero => rfl
  | succ count ih =>
      simp only [lookupLinear, ih]
      rfl

theorem lookup_lookup (d : Dictionary) (encoded : List Word) :
    Lookup fun m => d.lookup m encoded := by
  intro m
  simp only [lookup, d.lookup_lookupSorted encoded _ _ m, d.lookup_lookupLinear encoded _ _ m]

end Dictionary

/-! ## Acting on the image -/

/-- Images of one size. -/
def Memory.SameSize (m m' : Memory) : Prop := m'.size = m.size

instance : IsPreorder Memory Memory.SameSize where
  refl _ := rfl
  trans _ _ _ h h' := Eq.trans h' h

namespace MemoryM

variable {α β : Type}

/-- An action keeps the size of the image, and is blind to those that observe it. -/
structure Tame (x : MemoryM α) : Prop where
  size : Leads Memory.SameSize x
  blind : Blind plain x

namespace Tame

theorem pure (a : α) : Tame (Pure.pure a : MemoryM α) := ⟨.pure a, .pure a⟩

theorem throw (e : Fault) : Tame (MonadExcept.throw e : MemoryM α) := ⟨.throw e, .throw e⟩

theorem lift (x : Except Fault α) : Tame (liftM x : MemoryM α) := ⟨.lift x, .lift x⟩

theorem bind {x : MemoryM α} {f : α → MemoryM β} (hx : Tame x) (hf : ∀ a, Tame (f a)) :
    Tame (x >>= f) :=
  ⟨hx.size.bind fun a => (hf a).size, hx.blind.bind fun a => (hf a).blind⟩

theorem discard {x : MemoryM α} (hx : Tame x) : Tame (Functor.discard x : MemoryM PUnit) :=
  ⟨hx.size.discard, hx.blind.discard⟩

theorem ite {x y : MemoryM α} (c : Prop) [Decidable c] (hx : Tame x) (hy : Tame y) :
    Tame (if c then x else y) := ⟨.ite c hx.size hy.size, .ite c hx.blind hy.blind⟩

end Tame

/-- Something is looked up in the bytes of the image. -/
theorem tame_query {f : Memory → Except Fault α} (h : Lookup f) : Tame (query f) where
  size m := by
    unfold query
    cases f m <;> rfl
  blind m n same := by
    have alike : f m = f n := by rw [← h m, ← h n, same]
    unfold query
    rw [alike]
    cases f n with
    | ok a => exact congrArg (EStateM.Result.ok a) same
    | error e => exact congrArg (EStateM.Result.error e) same

theorem tame_readByte (a : Nat) : Tame (readByte a) := tame_query fun _ => rfl

theorem tame_readWord (a : Nat) : Tame (readWord a) := tame_query fun _ => rfl

theorem tame_writeBytes (a : Nat) (bs : List Byte) : Tame (writeBytes a bs) where
  size m := by
    unfold writeBytes
    split
    · rfl
    · split
      · exact Memory.size_commit m a bs
      · rfl
  blind m n same := by
    have bytes : m.plain.bytes = n.plain.bytes := congrArg Memory.bytes same
    change m.bytes = n.bytes at bytes
    have size : m.size = n.size := congrArg Array.size bytes
    unfold writeBytes
    split
    · exact congrArg (EStateM.Result.ok ()) same
    · have fits : m.fits a bs.length = n.fits a bs.length := by rw [fits, fits, size]
      rw [fits]
      split
      · simp only [seen, plain, bytes_commit, bytes]
      · rw [size]
        exact congrArg (EStateM.Result.error _) same

theorem tame_writeByte (a : Nat) (b : Byte) : Tame (writeByte a b) := tame_writeBytes a [b]

theorem tame_writeWord (a : Nat) (w : Word) : Tame (writeWord a w) :=
  tame_writeBytes a (Word.bytes w)

end MemoryM

open MemoryM

namespace ObjectTable

variable (t : ObjectTable)

theorem tame_setLink (link : ObjectLink) (object value : Word) :
    Tame (t.setLink link object value) :=
  (Tame.lift _).bind fun _ => .ite _ (tame_writeByte _ _) (tame_writeWord _ _)

theorem tame_setAttribute (object number : Word) (value : Bool) :
    Tame (t.setAttribute object number value) := by
  refine (Tame.lift _).bind fun bit => (tame_readByte _).bind fun old => ?_
  exact .ite _ (.pure _) (tame_writeByte _ _)

theorem tame_setProperty (object number value : Word) :
    Tame (t.setProperty object number value) := by
  refine (tame_query (t.lookup_findProperty object number)).bind fun found => ?_
  cases found with
  | none => exact .throw _
  | some p => exact .ite _ (tame_writeByte _ _) (tame_writeWord _ _)

theorem tame_unlink (object next : Word) (bound : Nat) (current : Word) :
    Tame (t.unlink object next bound current) := by
  induction bound generalizing current with
  | zero =>
      unfold unlink
      refine .ite _ (.pure _) ((tame_query (t.lookup_link _ _)).bind fun following => ?_)
      exact .ite _ (t.tame_setLink _ _ _) (.throw _)
  | succ bound ih =>
      unfold unlink
      refine .ite _ (.pure _) ((tame_query (t.lookup_link _ _)).bind fun following => ?_)
      exact .ite _ (t.tame_setLink _ _ _) (ih following)

theorem tame_remove (object : Word) : Tame (t.remove object) := by
  refine (tame_query (t.lookup_link _ _)).bind fun parent => .ite _ (.pure _) ?_
  refine (tame_query (t.lookup_link _ _)).bind fun next => ?_
  refine (tame_query (t.lookup_link _ _)).bind fun first => ?_
  have links : Tame (do
      t.setLink .parent object 0
      t.setLink .sibling object 0) :=
    (t.tame_setLink _ _ _).bind fun _ => t.tame_setLink _ _ _
  exact .ite _ ((t.tame_setLink _ _ _).bind fun _ => links)
    ((t.tame_unlink _ _ _ _).bind fun _ => links)

theorem tame_insert (object destination : Word) : Tame (t.insert object destination) := by
  refine (Tame.discard (Tame.lift _)).bind fun _ => ?_
  refine (Tame.discard (Tame.lift _)).bind fun _ => ?_
  refine (tame_query (t.lookup_checkAncestors _ _ _ _)).bind fun _ => ?_
  refine (t.tame_remove object).bind fun _ => ?_
  refine (tame_query (t.lookup_link _ _)).bind fun first => ?_
  refine (t.tame_setLink _ _ _).bind fun _ => (t.tame_setLink _ _ _).bind fun _ => ?_
  exact t.tame_setLink _ _ _

end ObjectTable

theorem tame_writeTokens (t : TextTables) (d : Dictionary) (skipUnknown : Bool) (block : Nat)
    (tokens : List Token) : Tame (writeTokens t d skipUnknown block tokens) := by
  induction tokens generalizing block with
  | nil => exact .pure _
  | cons token rest ih =>
      have lookup : Lookup fun m =>
          (liftM (d.lookup m (t.encodeWord token.text)) : Except Fault Nat) :=
        fun m => congrArg liftM (d.lookup_lookup _ m)
      refine (tame_query lookup).bind fun entry => .ite _ (ih _) ?_
      refine (tame_writeWord _ _).bind fun _ => ?_
      exact (tame_writeByte _ _).bind fun _ => (tame_writeByte _ _).bind fun _ => ih _

theorem tame_tokenise (t : TextTables) (d : Dictionary) (textBuffer parseBuffer : Nat)
    (skipUnknown : Bool) : Tame (tokenise t d textBuffer parseBuffer skipUnknown) := by
  refine (tame_query fun _ => rfl).bind fun contents => (tame_readByte _).bind fun room => ?_
  exact (tame_writeTokens _ _ _ _ _).bind fun _ => tame_writeByte _ _

namespace OutputStreams

theorem tame_appendCodes (table : Nat) (count : Word) (codes : List Byte) :
    Tame (appendCodes table count codes) := by
  induction codes generalizing count with
  | nil => exact .pure _
  | cons b bs ih => exact (tame_writeByte _ _).bind fun _ => ih _

theorem tame_write (s : OutputStreams) (t : TextTables) (text : String) :
    Tame (s.write t text) := by
  refine .ite _ (.pure _) ?_
  split
  · refine Tame.bind ?_ fun _ => .pure _
    refine (tame_readWord _).bind fun count => ?_
    exact (tame_appendCodes _ _ _).bind fun _ => tame_writeWord _ _
  · exact (tame_query fun _ => rfl).bind fun _ => .pure _

theorem tame_select (s : OutputStreams) (number : Int) (table : Option Word) :
    Tame (s.select number table) := by
  have transcript (on : Bool) : Tame (do setTranscript on; return s) := by
    refine Tame.bind ?_ fun _ => .pure _
    exact (tame_readWord _).bind fun flags => tame_writeWord _ _
  have table : Tame (s.openTable (table.getD 0).toNat) := by
    refine .ite _ (.throw _) ?_
    exact (tame_writeWord _ _).bind fun _ => .pure _
  refine .ite _ (.pure _) (.ite _ (.pure _) (.ite _ (transcript _) (.ite _ (transcript _) ?_)))
  exact .ite _ table (.ite _ (.pure _) (.pure _))

end OutputStreams

namespace Machine

theorem tame_fillBuffer (version buffer : Nat) (letters : List Byte) :
    Tame (fillBuffer version buffer letters) :=
  .ite _ ((tame_writeBytes _ _).bind fun _ => tame_writeByte _ _)
    ((tame_writeByte _ _).bind fun _ => tame_writeBytes _ _)

theorem tame_describeInterpreter (version : Nat) (o : MachineOptions) :
    Tame (describeInterpreter version o) := by
  have last : Tame (writeWord HeaderField.standardRevision 0x0101) := tame_writeWord _ _
  have later : Tame (do
      if 5 ≤ version then
        writeWord HeaderField.screenWidthUnits o.screenWidth.toUInt16
        writeWord HeaderField.screenHeightUnits o.screenHeight.toUInt16
        writeByte HeaderField.fontWidth 1
        writeByte HeaderField.fontHeight 1
      writeWord HeaderField.standardRevision 0x0101) := by
    refine .ite _ ?_ last
    refine (tame_writeWord _ _).bind fun _ => (tame_writeWord _ _).bind fun _ => ?_
    exact (tame_writeByte _ _).bind fun _ => (tame_writeByte _ _).bind fun _ => last
  refine (tame_writeByte _ _).bind fun _ => (tame_writeByte _ _).bind fun _ => ?_
  refine .ite _ ?_ ?_
  · refine (tame_readByte _).bind fun flags => ?_
    exact (tame_writeByte _ _).bind fun _ => later
  · exact (tame_writeByte _ _).bind fun _ => (tame_writeByte _ _).bind fun _ => later

end Machine

end ZMachine
