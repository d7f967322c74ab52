/-
  Beginning anew.

  A story that begins anew gets back the image as it was loaded, but for two
  flags of the header; it forgets what was decoded and the routines of its
  changeable memory, the interpreter is described in the header again, and
  the story starts.  To describe the interpreter and to start take no notice
  of the two flags, so both come to what they came to at first.
-/
import ZMachine.Proofs.Frames

namespace ZMachine

/-! ## Actions that keep to a part of the image -/

namespace MemoryM

variable {X : Nat → Prop} {α β : Type}

/-- Given room for a header, an action succeeds, and the bytes outside of `X` are neither looked at
nor changed: images that agree on `X` give one result and agree on `X` again. -/
def KeepsTo (X : Nat → Prop) (x : MemoryM α) : Prop :=
  ∀ m m' : Memory, headerSize ≤ m.size → m.Agrees X m' →
    ∃ a n n', x m = .ok a n ∧ x m' = .ok a n' ∧ n.Agrees X n' ∧
      m.Agrees (fun i => ¬X i) n ∧ m'.Agrees (fun i => ¬X i) n'

namespace KeepsTo

theorem bind {x : MemoryM α} {f : α → MemoryM β} (hx : KeepsTo X x) (hf : ∀ a, KeepsTo X (f a)) :
    KeepsTo X (x >>= f) := by
  intro m m' room agrees
  obtain ⟨a, n, n', ran, ran', agrees, kept, kept'⟩ := hx m m' room agrees
  obtain ⟨b, p, p', rest, rest', agrees, still, still'⟩ := hf a n n' (kept.size ▸ room) agrees
  refine ⟨b, p, p', ?_, ?_, agrees, kept.trans still, kept'.trans still'⟩
  · rw [run_bind, ran]
    exact rest
  · rw [run_bind, ran']
    exact rest'

theorem ite {x y : MemoryM α} (c : Prop) [Decidable c] (hx : KeepsTo X x) (hy : KeepsTo X y) :
    KeepsTo X (if c then x else y) := by
  split
  · exact hx
  · exact hy

theorem writeBytes {a : Nat} {bs : List Byte} (nonempty : bs ≠ [])
    (inside : a + bs.length ≤ headerSize)
    (within : ∀ i, a ≤ i → i < a + bs.length → X i) : KeepsTo X (MemoryM.writeBytes a bs) := by
  intro m m' room agrees
  have fits : a + bs.length ≤ m.size := Nat.le_trans inside room
  have apart : ∀ i, ¬X i → i < a ∨ a + bs.length ≤ i := by
    intro i outside
    refine Classical.byContradiction fun between => outside ?_
    exact within i (by omega) (by omega)
  refine ⟨(), m.commit a bs, m'.commit a bs, run_writeBytes nonempty fits, ?_, agrees.both fits,
    .commit m apart, .commit m' apart⟩
  exact run_writeBytes nonempty (agrees.size ▸ fits)

theorem readByte {a : Nat} (inside : a < headerSize) (within : X a) :
    KeepsTo X (MemoryM.readByte a) := by
  intro m m' room agrees
  have read : m.readByte a = .ok (m.byteAt a) :=
    Memory.readByte_eq_ok.mpr ⟨Nat.le_trans inside room, rfl⟩
  have read' : m'.readByte a = .ok (m.byteAt a) := by rw [agrees.readByte within, read]
  refine ⟨m.byteAt a, m, m', ?_, ?_, agrees, .refl _ m, .refl _ m'⟩
  · simp only [MemoryM.readByte, query, read]
    rfl
  · simp only [MemoryM.readByte, query, read']
    rfl

end KeepsTo

end MemoryM

open MemoryM (KeepsTo)

/-! ## The image of a story that begins anew -/

/-- A byte is none of the two of the second flags. -/
def BesideFlags (a : Nat) : Prop := a < HeaderField.flags2 ∨ HeaderField.flags2 + 2 ≤ a

/-- To describe the interpreter takes no notice of the second flags. -/
theorem keepsTo_describeInterpreter (version : Nat) (o : MachineOptions) :
    KeepsTo BesideFlags (Machine.describeInterpreter version o) := by
  have run {a : Nat} {bs : List Byte} (nonempty : bs ≠ []) (fits : a + bs.length ≤ headerSize ∧
      (a + bs.length ≤ HeaderField.flags2 ∨ HeaderField.flags2 + 2 ≤ a)) :
      KeepsTo BesideFlags (MemoryM.writeBytes a bs) := by
    refine .writeBytes nonempty fits.1 fun i low high => ?_
    unfold BesideFlags
    omega
  have byte {a : Nat} (b : Byte) (fits : a + 1 ≤ headerSize ∧
      (a + 1 ≤ HeaderField.flags2 ∨ HeaderField.flags2 + 2 ≤ a)) :
      KeepsTo BesideFlags (MemoryM.writeByte a b) := run (List.cons_ne_nil _ _) fits
  have word {a : Nat} (w : Word) (fits : a + 2 ≤ headerSize ∧
      (a + 2 ≤ HeaderField.flags2 ∨ HeaderField.flags2 + 2 ≤ a)) :
      KeepsTo BesideFlags (MemoryM.writeWord a w) := run (List.cons_ne_nil _ _) fits
  have last : KeepsTo BesideFlags (MemoryM.writeWord HeaderField.standardRevision 0x0101) :=
    word _ (by decide)
  -- What later versions have in the header comes last, whichever flags were set before it.
  have later : KeepsTo BesideFlags (do
      if 5 ≤ version then
        MemoryM.writeWord HeaderField.screenWidthUnits o.screenWidth.toUInt16
        MemoryM.writeWord HeaderField.screenHeightUnits o.screenHeight.toUInt16
        MemoryM.writeByte HeaderField.fontWidth 1
        MemoryM.writeByte HeaderField.fontHeight 1
      MemoryM.writeWord HeaderField.standardRevision 0x0101) := by
    refine .ite _ ?_ last
    refine (word _ (by decide)).bind fun _ => (word _ (by decide)).bind fun _ => ?_
    exact (byte _ (by decide)).bind fun _ => (byte _ (by decide)).bind fun _ => last
  refine (byte _ (by decide)).bind fun _ => (byte _ (by decide)).bind fun _ => .ite _ ?_ ?_
  · refine (KeepsTo.readByte (by decide) (.inl (by decide))).bind fun flags => ?_
    exact (byte _ (by decide)).bind fun _ => later
  · exact (byte _ (by decide)).bind fun _ => (byte _ (by decide)).bind fun _ => later

/-- The second flags of a story that begins anew: those it was loaded with, but for the kept
ones. -/
def keepFlags (loaded present : Word) : Word :=
  (loaded &&& ~~~Machine.keptFlags) ||| (present &&& Machine.keptFlags)

/-- The kept flags are in the lower byte. -/
theorem hi_keepFlags (loaded present : Word) :
    Word.hi (keepFlags loaded present) = Word.hi loaded := by
  have masks : ∀ i < 8, (0xfffc#16).getLsbD (8 + i) = true ∧ (3#16).getLsbD (8 + i) = false := by
    decide
  unfold keepFlags Machine.keptFlags Word.hi
  apply UInt8.toBitVec_inj.mp
  ext i hi
  simp [masks i hi]

namespace Memory

variable {m : Memory} {pristine : Array Byte}

/-- The image as it was loaded, but for the kept flags. -/
def renewed (m : Memory) (pristine : Array Byte) : Memory :=
  let loaded := { m with bytes := pristine }
  loaded.commit HeaderField.flags2
    (Word.bytes (keepFlags (loaded.wordAt HeaderField.flags2) (m.wordAt HeaderField.flags2)))

theorem size_renewed (m : Memory) (pristine : Array Byte) :
    (m.renewed pristine).size = pristine.size :=
  size_commit _ _ _

/-- Nothing but the lower byte of the second flags differs from the image as it was loaded. -/
theorem agrees_renewed (m : Memory) (room : headerSize ≤ pristine.size) :
    (ofBytes pristine).Agrees (· ≠ HeaderField.flags2 + 1) (m.renewed pristine) where
  size := m.size_renewed pristine
  bytes := by
    intro a other
    by_cases here : a = HeaderField.flags2
    · have fits : HeaderField.flags2 + 2 ≤ pristine.size := Nat.le_trans (by decide) room
      have first (w : Word) : HeaderField.flags2 < HeaderField.flags2 + (Word.bytes w).length :=
        Nat.lt_add_of_pos_right Nat.two_pos
      subst here
      refine (byteAt_commit_of_inside { m with bytes := pristine } (Nat.le_refl _) (first _)
        fits).trans ?_
      show Word.hi (keepFlags _ _) = _
      rw [hi_keepFlags, wordAt, Word.hi_ofBytes]
      rfl
    · refine byteAt_commit_of_outside { m with bytes := pristine } ?_
      show a < HeaderField.flags2 ∨ HeaderField.flags2 + 2 ≤ a
      omega

theorem wordAt_renewed (m : Memory) (room : headerSize ≤ pristine.size) :
    (m.renewed pristine).wordAt HeaderField.flags2 =
      keepFlags ((ofBytes pristine).wordAt HeaderField.flags2) (m.wordAt HeaderField.flags2) := by
  have fits : HeaderField.flags2 + 2 ≤ pristine.size := Nat.le_trans (by decide) room
  exact wordAt_commit { m with bytes := pristine } _ fits

/-- With the interpreter described, a renewed image is still the loaded one but for the kept
flags. -/
theorem described_alike (m : Memory) (room : headerSize ≤ pristine.size) (version : Nat)
    (o : MachineOptions) :
    ∃ d d', Machine.describeInterpreter version o (ofBytes pristine) = .ok () d ∧
      Machine.describeInterpreter version o (m.renewed pristine) = .ok () d' ∧
      d.Agrees (· ≠ HeaderField.flags2 + 1) d' ∧
      d'.wordAt HeaderField.flags2 =
        keepFlags (d.wordAt HeaderField.flags2) (m.wordAt HeaderField.flags2) := by
  have renewed := m.agrees_renewed room
  have beside (a : Nat) (h : BesideFlags a) : a ≠ HeaderField.flags2 + 1 := by
    unfold BesideFlags at h
    omega
  have first : ¬BesideFlags HeaderField.flags2 := by
    unfold BesideFlags
    omega
  have second : ¬BesideFlags (HeaderField.flags2 + 1) := by
    unfold BesideFlags
    omega
  obtain ⟨_, d, d', described, described', agrees, kept, kept'⟩ :=
    keepsTo_describeInterpreter version o (ofBytes pristine) (m.renewed pristine) room
      (renewed.mono beside)
  refine ⟨d, d', described, described', ⟨agrees.size, fun a other => ?_⟩, ?_⟩
  -- The first of the two bytes agrees as well: the flags that are kept are in the second.
  · by_cases here : a = HeaderField.flags2
    · rw [here, kept'.bytes _ first, kept.bytes _ first, renewed.bytes _ (by decide)]
    · apply agrees.bytes
      unfold BesideFlags
      omega
  · have word : d.wordAt HeaderField.flags2 = (ofBytes pristine).wordAt HeaderField.flags2 := by
      rw [wordAt, wordAt, kept.bytes _ first, kept.bytes _ second]
    rw [word, ← m.wordAt_renewed room, wordAt, kept'.bytes _ first, kept'.bytes _ second]
    rfl

end Memory

namespace Machine

variable {s t : Machine}

/-- With the interpreter described, the story starts. -/
theorem run_begin {version : Nat} {o : MachineOptions} {d : Memory}
    (described : describeInterpreter version o s.memory = .ok () d) :
    (inMemory (describeInterpreter version o) >>= fun _ => start) s
      = start { s with memory := d } := by
  rw [run_bind, run_inMemory, described]

/-! ## Beginning anew -/

/-- The image has room for the header, and is as long as it was when it was loaded. -/
structure Roomy (s : Machine) : Prop where
  header : headerSize ≤ s.memory.size
  pristine : s.pristine.size = s.memory.size

theorem Roomy.of_sheds (roomy : s.Roomy) (sheds : s.Sheds t) : t.Roomy where
  header := sheds.size ▸ roomy.header
  pristine := by rw [sheds.pristine, sheds.size, roomy.pristine]

/-- The machine with a renewed image, before the story starts again. -/
def renewed (s : Machine) : Machine :=
  { s with
    memory := s.memory.renewed s.pristine
    code := {
      decoded := s.code.decoded.clear
      routines := (s.code.routines.invalidate 0 s.header.staticMemoryBase.toNat).2 }
    streams := {} }

/-- Where there is room for the header, a story begins anew as it began at first, in a
renewed image. -/
theorem run_restart (roomy : s.Roomy) :
    restart s =
      (inMemory (describeInterpreter s.header.version s.options) >>= fun _ => start) s.renewed := by
  have room : HeaderField.flags2 + 2 ≤ s.memory.size := Nat.le_trans (by decide) roomy.header
  have flags (m : Memory) (size : m.size = s.memory.size) :
      m.readWord HeaderField.flags2 = .ok (m.wordAt HeaderField.flags2) :=
    Memory.readWord_eq_ok.mpr ⟨by rw [size]; exact room, rfl⟩
  have reload : s.memory.reload s.pristine.toList = .ok { s.memory with bytes := s.pristine } := by
    have fits : s.memory.check 0 s.pristine.toList.length = .ok () := by
      refine Memory.check_eq_ok.mpr ?_
      rw [Array.length_toList, roomy.pristine]
      omega
    have whole : overwrite s.memory.bytes 0 s.pristine.toList = s.pristine :=
      overwrite_whole roomy.pristine
    simp only [Memory.reload, fits, whole]
    rfl
  -- From here on the action is carried out, one part after the other.
  unfold restart
  rw [run_bind, run_ask, flags s.memory rfl]
  show (ask (·.reload s.pristine.toList) >>= _) s = _
  rw [run_bind, run_ask, reload]
  show (ask (·.readWord HeaderField.flags2) >>= _)
    { s with memory := { s.memory with bytes := s.pristine } } = _
  rw [run_bind, run_ask, flags { s.memory with bytes := s.pristine } roomy.pristine]
  show (inMemory (MemoryM.writeWord HeaderField.flags2 _) >>= _)
    { s with memory := { s.memory with bytes := s.pristine } } = _
  have fits : HeaderField.flags2 + 2 ≤ ({ s.memory with bytes := s.pristine } : Memory).size :=
    Nat.le_trans room (Nat.le_of_eq roomy.pristine.symm)
  rw [run_bind, run_inMemory, MemoryM.run_writeWord _ fits]
  rfl

/-! ## Where a story starts -/

/-- The frame in which a story starts, and its first instruction. -/
def opening (m : Memory) (h : Header) : Except Fault (Frame × Nat) :=
  if h.version = 6 then do
    let (defaults, entry) ← routineHeader m h.version h.mainRoutine
    return (.enter h.mainRoutine 0 none defaults [] 0, entry)
  else return (.enter h.mainRoutine 0 none [] [] 0, h.initialPc.toNat)

/-- The machine before its story starts. -/
def cleared (s : Machine) : Machine :=
  { s with
    stack := s.stack.clear, nested := 0, lastReturn := none, state := .running
    code := s.code.recordCall s.header.mainRoutine }

/-- The machine at the start of its story. -/
def opened (s : Machine) (p : Frame × Nat) (events : EventLog) (called : Ascending) : Machine :=
  { s with
    stack := { s.stack with values := [], frames := [p.1] }
    nested := 0, lastReturn := none, state := .running, pc := p.2, events
    code := { s.code with routines := { s.code.routines with called } } }

theorem run_start_opening (s : Machine) :
    match opening s.memory s.header with
    | .ok p => ∃ events called, start s = .ok () (s.opened p events called)
    | .error e => start s = .error e s.cleared := by
  have begins : start s = (if s.header.version = 6 then
      callRoutine s.header.mainRoutine [] none 0
    else do
      onStack fun stack => stack.pushFrame (.enter s.header.mainRoutine 0 none [] [] 0)
      jumpTo s.header.initialPc.toNat : MachineM Unit) s.cleared := rfl
  rw [begins, opening]
  by_cases version : s.header.version = 6
  · rw [if_pos version, if_pos version]
    -- The stack is empty, so the main routine is never too deep.
    have shallow : ¬maxCallDepth ≤ s.cleared.stack.depth := by
      show ¬maxCallDepth ≤ 0
      decide
    cases header : routineHeader s.memory s.header.version s.header.mainRoutine with
    | ok p =>
        rw [run_callRoutine (s := s.cleared) header, if_neg shallow]
        exact ⟨_, _, rfl⟩
    | error e => exact run_callRoutine_error (s := s.cleared) header [] none 0
  · rw [if_neg version, if_neg version]
    exact ⟨_, _, rfl⟩

theorem start_ok (begun : start s = .ok () t) :
    ∃ p events called, opening s.memory s.header = .ok p ∧ t = s.opened p events called := by
  have starts := s.run_start_opening
  cases opens : opening s.memory s.header with
  | ok p =>
      rw [opens] at starts
      obtain ⟨events, called, ran⟩ := starts
      rw [begun] at ran
      cases ran
      exact ⟨p, events, called, rfl, rfl⟩
  | error e =>
      rw [opens] at starts
      rw [begun] at starts
      cases starts

theorem start_of_opening {p : Frame × Nat} (opens : opening s.memory s.header = .ok p) :
    ∃ events called, start s = .ok () (s.opened p events called) := by
  have starts := s.run_start_opening
  rwa [opens] at starts

/-- A story that began anew has dropped routines of its changeable memory only. -/
theorem routines_restart (roomy : s.Roomy) (ran : restart s = .ok () t) :
    let renewed := (s.code.routines.invalidate 0 s.header.staticMemoryBase.toNat).2
    t.code.routines.routines = renewed.routines ∧ t.code.routines.stale = renewed.stale := by
  rw [run_restart roomy, run_bind, run_inMemory] at ran
  cases described : describeInterpreter s.header.version s.options s.renewed.memory with
  | error e d =>
      rw [described] at ran
      cases ran
  | ok _ d =>
      rw [described] at ran
      obtain ⟨p, events, called, -, rfl⟩ := start_ok ran
      exact ⟨rfl, rfl⟩

/-- A story starts alike in images that differ in the kept flags only. -/
theorem opening_congr {m m' : Memory} (agrees : m.Agrees (· ≠ HeaderField.flags2 + 1) m')
    (h : Header) : opening m' h = opening m h := by
  unfold opening
  split
  · rename_i version
    -- A packed address is a multiple of four, and the byte with the kept flags is not at one.
    have apart : h.mainRoutine ≠ HeaderField.flags2 + 1 := by
      rw [Header.mainRoutine, Header.routineAddress, if_pos version, if_pos (.inl version), version]
      show h.initialPc.toNat * 4 + h.routinesOffset.toNat * 8 ≠ 17
      omega
    have read : m'.readByte h.mainRoutine = m.readByte h.mainRoutine := agrees.readByte apart
    simp [routineHeader, read, version]
  · rfl

end Machine

end ZMachine
