/-
  How a story begins.

  A session that interprets takes the first instruction from the header and
  runs it in a frame without locals.  One that runs compiled code takes the
  byte before this instruction for the header of the main routine, and leaves
  the frame that the machine began with below.  The two begin alike exactly if
  this byte declares no locals, and then they come to the same end: frame by
  frame the one runs as the other, with one more frame at the bottom.
-/
import ZMachine.Proofs.Beneath
import ZMachine.Proofs.Sessions

namespace ZMachine

open Machine

/-! ## Where a story begins -/

namespace Machine

variable {m t u : Machine} {image : Array Byte} {options : MachineOptions} {host : Host}

/-- The frame of the main routine when the story begins: it has no locals. -/
def mainFrame (m : Machine) : Frame := .enter m.header.mainRoutine 0 none [] [] 0

/-- The machine is at the first instruction of its story, in a frame without locals. -/
structure AtBeginning (m : Machine) : Prop where
  words : m.stack.values = []
  frames : m.stack.frames = [m.mainFrame]
  pc : m.pc = m.header.initialPc.toNat
  nested : m.nested = 0
  state : m.state = .running

theorem atBeginning_load (loads : load image options host = .ok m)
    (version : m.header.version ≠ 6) : m.AtBeginning := by
  obtain ⟨header, text, -, -, begun⟩ := load_eq_ok loads
  have same : m.header = header :=
    (sheds_of_effects ((does_begin header.version options).of_ok begun)).header
  rw [run_bind, run_inMemory] at begun
  generalize described : describeInterpreter header.version options _ = result at begun
  cases result with
  | error e image => cases begun
  | ok _ image =>
      have begun : start { blank _ options host header text with memory := image } = .ok () m :=
        begun
      rw [run_start (s := { blank _ options host header text with memory := image })
        (same ▸ version)]
        at begun
      cases begun
      exact ⟨rfl, rfl, rfl, rfl, rfl⟩

theorem AtBeginning.depth (begins : m.AtBeginning) : m.stack.depth = 1 := by
  rw [CallStack.depth, begins.frames, List.length_singleton]

theorem AtBeginning.room (begins : m.AtBeginning) : ¬maxCallDepth ≤ m.stack.depth := by
  rw [begins.depth]
  decide

theorem AtBeginning.rests (begins : m.AtBeginning) : m.stack.Rests m.mainFrame [] [] :=
  ⟨rfl, ⟨[], [], begins.frames, by simp⟩, List.nil_suffix⟩

/-- The main routine is taken to stand one byte before the first instruction. -/
theorem AtBeginning.pc_eq (begins : m.AtBeginning) (version : m.header.version ≠ 6)
    (nonzero : m.header.mainRoutine ≠ 0) : m.pc = m.header.mainRoutine + 1 := by
  rw [begins.pc]
  unfold Header.mainRoutine at nonzero ⊢
  rw [if_neg version] at nonzero ⊢
  omega

/-- Running the routine at `a` from outside, as compiled code or not, begins with the instruction at
`pc` in a frame with `locals`.  Address 0 is not run at all. -/
structure RunsFrom (m : Machine) (a pc : Nat) (locals : List Word) : Prop where
  nonzero : a ≠ 0
  interpreted : ∃ t f, callRoutine a [] none m.pc m = .ok () t ∧
    t.stack.frames = f :: m.stack.frames ∧ f.locals = locals ∧ t.pc = pc
  compiled : ∃ t f, enterCompiled a [] m = .ok () t ∧
    t.stack.frames = f :: m.stack.frames ∧ f.locals = locals
  entry : ∀ r, Routine.found? m.memory m.header.version a = some r → r.entry = pc

/-- A byte that declares no locals is the whole header of a routine. -/
theorem routineHeader_of_zero {memory : Memory} {version a : Nat}
    (zero : memory.readByte a = .ok 0) : routineHeader memory version a = .ok ([], a + 1) := by
  unfold routineHeader
  rw [zero]
  by_cases early : version ≤ 4
  · simp [early, maxLocals, liftM, monadLift, MonadLift.monadLift, Bind.bind, Except.bind]
    rfl
  · simp [early, maxLocals, liftM, monadLift, MonadLift.monadLift, Bind.bind, Except.bind]
    rfl

/-- What the header of a routine says: up to version 4 the default values of its locals stand
between the count and the first instruction, later on they are zeros. -/
theorem routineHeader_ok {memory : Memory} {version a entry : Nat} {defaults : List Word}
    (h : routineHeader memory version a = .ok (defaults, entry)) :
    ∃ count, memory.readByte a = .ok count ∧ count.toNat ≤ maxLocals ∧
      (version ≤ 4 → entry = a + 1 + count.toNat * 2) ∧
      (4 < version → defaults = List.replicate count.toNat 0) := by
  unfold routineHeader at h
  cases byte : memory.readByte a with
  | error e =>
      rw [byte] at h
      cases h
  | ok count =>
      rw [byte] at h
      change (if maxLocals < count.toNat then _ else _ : Except Fault (List Word × Nat)) = _ at h
      by_cases many : maxLocals < count.toNat
      · rw [if_pos many] at h
        cases h
      rw [if_neg many] at h
      -- The versions differ in what stands between the count and the code.
      refine ⟨count, rfl, Nat.not_lt.mp many, fun early => ?_, fun late => ?_⟩
      · simp only [early, if_true] at h
        cases words : (List.range count.toNat).mapM
            (fun i => (liftM (memory.readWord (a + 1 + i * 2)) : Except Fault Word)) with
        | error e =>
            rw [words] at h
            cases h
        | ok values =>
            rw [words] at h
            exact (congrArg Prod.snd (Except.ok.inj h)).symm
      · simp only [Nat.not_le.mpr late, if_false] at h
        exact (congrArg Prod.fst (Except.ok.inj h)).symm

/-- Where locals are declared, the first instruction is further on or the frame has locals. -/
theorem zero_of_routineHeader {memory : Memory} {version a : Nat} {defaults : List Word}
    (h : routineHeader memory version a = .ok (defaults, a + 1))
    (bare : defaults.take maxLocals = []) : memory.readByte a = .ok 0 := by
  obtain ⟨count, byte, few, early, late⟩ := routineHeader_ok h
  have zero : count.toNat = 0 := by
    by_cases old : version ≤ 4
    · have entry := early old
      omega
    · rw [late (Nat.not_le.mp old), List.take_replicate, List.replicate_eq_nil_iff] at bare
      omega
  rw [byte, show count = 0 from UInt8.toNat_inj.mp zero]

/-- A session that runs compiled code begins where one that interprets does exactly if the byte
before the first instruction declares no locals. -/
theorem runsFrom_main_iff (begins : m.AtBeginning) (version : m.header.version ≠ 6) :
    m.RunsFrom m.header.mainRoutine m.pc [] ↔
      m.header.mainRoutine ≠ 0 ∧ m.memory.readByte m.header.mainRoutine = .ok 0 := by
  constructor
  · rintro ⟨nonzero, ⟨t, f, called, frames, locals, pc⟩, -, -⟩
    refine ⟨nonzero, ?_⟩
    cases header : routineHeader m.memory m.header.version m.header.mainRoutine with
    | error e =>
        rw [run_callRoutine_error header] at called
        cases called
    | ok p =>
        obtain ⟨defaults, entry⟩ := p
        rw [run_callRoutine header, if_neg begins.room] at called
        cases called
        obtain ⟨rfl, -⟩ := List.cons.inj frames
        obtain rfl : entry = m.header.mainRoutine + 1 := pc.trans (begins.pc_eq version nonzero)
        exact zero_of_routineHeader header (by simpa [Frame.enter] using locals)
  · rintro ⟨nonzero, zero⟩
    have header : routineHeader m.memory m.header.version m.header.mainRoutine
        = .ok ([], m.header.mainRoutine + 1) := routineHeader_of_zero zero
    have called := run_callRoutine header [] none m.pc
    have entered := run_enterCompiled header []
    rw [if_neg begins.room] at called entered
    have pc := begins.pc_eq version nonzero
    refine ⟨nonzero, ⟨_, _, called, rfl, rfl, pc.symm⟩, ⟨_, _, entered, rfl, rfl⟩, ?_⟩
    -- Reading the routine looks at the same header, so its instructions begin there, too.
    intro r found
    obtain ⟨entry, stands⟩ := Routine.stands_of_found found
    obtain ⟨i, rest, cons⟩ := List.exists_cons_of_ne_nil stands.row.nonempty
    have first : i.address = entry := stands.row.first i (by rw [cons]; rfl)
    have same := header.symm.trans (Routine.routineHeader_of_readLocals stands.locals)
    have entry_eq : m.header.mainRoutine + 1 = entry := congrArg Prod.snd (Except.ok.inj same)
    rw [pc, Routine.entry, cons]
    exact first.trans entry_eq.symm

/-! ## Stories that keep their code -/

/-- The story comes to carry out an instruction in the state `u`. -/
def Passes (m u : Machine) : Prop := Visits 0 m u ∧ u.Proceeds 0

/-- A story that comes to an end passes the states of its trail. -/
theorem Passes.mem_trail {bound : Nat} (passes : m.Passes u)
    (ends : (value? (runToDepth 0 bound m)).isSome = true) : u ∈ trail 0 bound m := by
  refine passes.1.mem_trail passes.2 fun t exhausted => ?_
  rw [exhausted] at ends
  cases ends

/-- The routines of the story: the main routine, and those that come to be called. -/
def Summons (m : Machine) (b : Nat) : Prop :=
  b = m.header.mainRoutine ∨ ∃ u, m.Passes u ∧ u.calledAddress? = some b

/-- What compiled code relies on over the whole story: no instruction is left to the interpreter,
every routine can be translated, and neither the bytes of the routines nor the abbreviations change.
One frame more than the story itself enters has to fit. -/
structure Portable (m : Machine) : Prop where
  translated : ∀ u, m.Passes u → ∀ i, u.nextInstruction? = some i → i.opcode.interpreterOnly = false
  routines : ∀ b, m.Summons b → m.Translatable b
  code : ∀ u, m.Passes u → ∀ b r, m.Summons b →
    Routine.found? m.memory m.header.version b = some r → ∀ x, b ≤ x → x < r.stop →
      u.memory.byteAt x = m.memory.byteAt x
  abbreviations : ∀ u, m.Passes u → ∀ n < TextTables.abbreviationCount,
    m.text.abbreviation u.memory n = m.text.abbreviation m.memory n
  shallow : ∀ u, Visits 0 m u → u.stack.depth < maxCallDepth

/-- Whatever the story writes, its instructions were decoded from an image of the same size, for the
same version. -/
theorem drawn_of_visits {floor : Nat} (faithful : m.Faithful) (visits : Visits floor m u) :
    u.memory.size = m.memory.size ∧
      u.code.decoded.Drawn (fun _ => False) m.memory m.header.version := by
  induction visits with
  | start => exact ⟨rfl, faithful.instructions.drawn faithful.version _⟩
  | @step t u _ _ ran ih =>
      obtain ⟨i, decoded, v, -, hd, executed, rfl⟩ := step_ok ran
      have agrees : m.memory.Agrees (fun _ => False) t.memory := ⟨ih.1, fun _ => False.elim⟩
      have sheds : (t.fetched decoded i).Sheds v :=
        sheds_of_effects ((does_execute i).of_ok executed)
      have drawn :
          (t.fetched decoded i).code.decoded.Drawn (fun _ => False) m.memory m.header.version :=
        ih.2.of_decode agrees hd
      have kept : v.code.decoded.Drawn (fun _ => False) m.memory m.header.version :=
        drawn.of_sheds sheds
      exact ⟨sheds.size.trans ih.1, kept⟩

/-- Outside of version 6 there are no stacks in tables. -/
theorem not_pullsFromTable {floor : Nat} (faithful : m.Faithful) (version : m.header.version ≠ 6)
    (visits : Visits floor m u) : ¬u.PullsFromTable := by
  rintro ⟨i, next, opcode, stores, -⟩
  obtain ⟨size, drawn⟩ := drawn_of_visits faithful visits
  have agrees : m.memory.Agrees (fun _ => False) u.memory := ⟨size, fun _ => False.elim⟩
  unfold nextInstruction? at next
  rcases hd : u.code.decoded.decode u.memory u.pc with ⟨_ | j, decoded⟩
  · rw [hd] at next
    cases next
  · rw [hd] at next
    cases next
    obtain ⟨image, -, decodes⟩ := drawn.source agrees hd
    obtain ⟨-, -, -, formed⟩ := decode_spec decodes
    have storeless : i.opcode.hasStore m.header.version = false := by
      rw [opcode]
      exact beq_eq_false_iff_ne.mpr version
    rw [formed.store, storeless] at stores
    cases stores

/-- A frame below all others does not change which routine is called next. -/
theorem calledAddress?_upon {g : Frame} (deep : 0 < u.stack.depth) :
    (u.upon g).calledAddress? = u.calledAddress? := by
  unfold calledAddress?
  rw [show (u.upon g).code = u.code from rfl, show (u.upon g).memory = u.memory from rfl,
    show (u.upon g).pc = u.pc from rfl]
  rcases u.code.decoded.decode u.memory u.pc with ⟨_ | i, decoded⟩
  · rfl
  · have heedless : Heedless g (operandValues i) := Heedless.closed.operandValues i
    have same := (heedless (u.fetched decoded i) deep).1
    have fetched : (u.upon g).fetched decoded i = (u.fetched decoded i).upon g := rfl
    simp only [fetched, same]
    rcases operandValues i (u.fetched decoded i) with ⟨_ | ⟨packed, rest⟩, t⟩ | ⟨e, t⟩
    · rfl
    · rfl
    · rfl

/-- The story as it begins: the bytes of its routines are to stay. -/
def storySetting (m : Machine) (fallback : Bool) : Setting where
  image := m.memory
  header := m.header
  tables := m.text
  fallback := fallback
  steady x := ∃ b, m.Summons b ∧ b ≤ x ∧ x < Routine.readEnd m.memory m.header.version b
  called b := b ≠ 0 ∧ m.Summons b
  covered b called _ low high := ⟨b, called.2, low, high⟩

variable {fallback : Bool} {bound limit : Nat}

theorem native_storySetting (portable : m.Portable) : (m.storySetting fallback).Native := by
  intro b called
  have native : ∃ r, (m.setting fallback 0 [] fun _ => False).fate b = .native r :=
    native_of_translatable (portable.routines b called.2)
  exact native

/-- A state of the story with one more frame at the bottom is one that compiled code copes with. -/
theorem allows_upon (faithful : m.Faithful) (version : m.header.version ≠ 6) (portable : m.Portable)
    (passes : m.Passes u) (g : Frame) : (m.storySetting fallback).Allows (u.upon g) where
  unchanged := by
    refine ⟨⟨(drawn_of_visits faithful passes.1).1, ?_⟩, portable.abbreviations u passes⟩
    rintro x ⟨b, summons, low, high⟩
    obtain ⟨r, found, -⟩ := portable.routines b summons
    rw [Routine.readEnd_eq_stop found] at high
    exact portable.code u passes b r summons found x low high
  called b called := by
    rw [calledAddress?_upon passes.2.1] at called
    exact ⟨calledAddress?_ne_zero called, .inr ⟨u, passes, called⟩⟩
  table i next pulls := not_pullsFromTable faithful version passes.1 ⟨i, next, pulls⟩

/-- The main routine, entered by a call from the frame that the machine began with, runs
as the story does. -/
theorem going_main (begins : m.AtBeginning) (faithful : m.Faithful) (version : m.header.version ≠ 6)
    (portable : m.Portable) (ran : runToDepth 0 bound m = .ok () t) (ended : t.state = .quit) :
    (m.storySetting fallback).Going 1 bound (m.upon m.mainFrame) ∧
      ∃ v, runToDepth 1 bound (m.upon m.mainFrame) = .ok () v ∧ v.nested = 1 ∧
        v.memory = t.memory ∧ v.host = t.host := by
  obtain ⟨v, ran', nested, memory, host, passed⟩ := runToDepth_upon (g := m.mainFrame) rfl
    begins.rests begins.nested ran ended
      (fun u visits proceeds => portable.translated u ⟨visits, proceeds⟩)
    portable.shallow
  have native : (m.storySetting fallback).Native := native_storySetting portable
  refine ⟨⟨fun w visits proceeds => ?_, fun u => by simp [ran'], .inl native, .inl native⟩,
    v, ran', nested, memory, host⟩
  obtain ⟨u, visits', proceeds', rfl⟩ := passed w visits proceeds
  exact ⟨allows_upon faithful version portable ⟨visits', proceeds'⟩ _, .inl native⟩

/-- Every state of the story in which it is not over yet has the main routine as its oldest
frame. -/
theorem rests_of_visits (begins : m.AtBeginning) (portable : m.Portable) (visits : Visits 0 m u)
    (running : u.state = .running) : u.stack.Rests m.mainFrame [] [] ∧ u.nested = 0 := by
  induction visits with
  | start => exact ⟨begins.rests, begins.nested⟩
  | @step t u before proceeds ran ih =>
      obtain ⟨rests, alone⟩ := ih proceeds.2
      have accompanied :=
        accompanied_step (g := m.mainFrame) (portable.translated t ⟨before, proceeds⟩)
        rfl rests alone ran (by simp [running]) (portable.shallow u (before.step proceeds ran))
      generalize step (t.upon m.mainFrame) = result at accompanied
      cases accompanied with
      | onward rests' alone' => exact ⟨rests', alone'⟩
      | back ended => cases running.symm.trans ended

/-- Whoever runs a routine from outside gets the machine back as the routine left it. -/
theorem surfaced_ok (resume : Nat) (outside : u.nested ≠ 0) :
    ∃ value v, surfaced resume (.ok () u) = .ok value v ∧ v.memory = u.memory ∧
      v.host = u.host := by
  rw [surfaced, if_neg outside]
  by_cases quit : u.state = .quit
  · rw [if_pos quit]
    exact ⟨_, _, rfl, rfl, rfl⟩
  · rw [if_neg quit]
    exact ⟨_, _, rfl, rfl, rfl⟩

end Machine

namespace Engine

variable {e : Engine} {m t : Machine} {bound limit : Nat}

/-- A fresh engine is prepared for the story. -/
theorem prepared_storySetting (fresh : e.tiers = {}) (faithful : e.machine.Faithful)
    (calm : e.machine.host.Calm) : (e.machine.storySetting e.fallback).Prepared e := by
  have drawn := faithful.instructions.drawn faithful.version
    (e.machine.storySetting e.fallback).steady
  refine ⟨⟨rfl, rfl, drawn, calm⟩, ⟨drawn, fun b _ r known => faithful.routines b r known⟩, rfl, ?_⟩
  intro b _ tier kept
  simp [fresh] at kept

/-- What answers a call of the main routine compares with the machine that goes along with
the story. -/
theorem compares_main {S : Setting} {pool : List String}
    {result : EStateM.Result Halt Engine (Option Word)} (begins : m.AtBeginning)
    (version : m.header.version ≠ 6) (nonzero : m.header.mainRoutine ≠ 0)
    (zero : m.memory.readByte m.header.mainRoutine = .ok 0) (holds : S.Holds m)
    (going : S.Going 1 bound (m.upon m.mainFrame))
    (answers : S.Answers 1 bound m m.header.mainRoutine [] none 0 pool result) :
    S.Compares 1 (Visits 1 (m.upon m.mainFrame))
      (surfaced 0 (runToDepth 1 bound (m.upon m.mainFrame))) result := by
  have size : m.stack.size = 0 := by rw [CallStack.size, begins.words, List.length_nil]
  -- Calling the main routine puts its frame on top; the machine that goes along has it at
  -- the bottom.
  have stack : (m.upon m.mainFrame).stack = (m.entered m.mainFrame).stack := by
    show { m.stack with frames := m.stack.frames ++ [m.mainFrame] }
      = { m.stack with frames := m.mainFrame :: m.stack.frames }
    rw [begins.frames, List.singleton_append]
  have bare : (m.upon m.mainFrame).bare = (m.entered m.mainFrame).bare := by
    show { m.bare with stack := (m.upon m.mainFrame).stack.bare }
      = { m.bare with stack := (m.entered m.mainFrame).stack.bare }
    rw [stack]
  unfold Setting.Answers at answers
  rw [run_callRoutine (routineHeader_of_zero zero), if_neg begins.room, size] at answers
  have invoked : S.Invoked 1 bound (m.upon m.mainFrame) m.mainFrame m.stack.frames pool result :=
    answers _ _ ⟨rfl, bare, stack, begins.pc_eq version nonzero, Nat.succ_pos _,
      ⟨holds.header, holds.text, holds.drawn, holds.calm⟩⟩ going
  rw [begins.frames] at invoked
  have invoked : S.Invoked [m.mainFrame].length bound (m.upon m.mainFrame) m.mainFrame
      [m.mainFrame] pool result := invoked
  exact invoked.compares rfl (Nat.succ_pos _) going

/-- Running the main routine of a story that keeps its code comes to the end that the story comes to
when it is interpreted from its beginning. -/
theorem invoke_main (fresh : e.tiers = {}) (begins : e.machine.AtBeginning)
    (faithful : e.machine.Faithful) (calm : e.machine.host.Calm)
    (version : e.machine.header.version ≠ 6) (nonzero : e.machine.header.mainRoutine ≠ 0)
    (zero : e.machine.memory.readByte e.machine.header.mainRoutine = .ok 0)
    (portable : e.machine.Portable) (ran : runToDepth 0 bound e.machine = .ok () t)
    (ended : t.state = .quit) (deep : bound ≤ limit) :
    ∃ result e', invoke (limit + 1) e.machine.header.mainRoutine [] e = .ok result e' ∧
      e'.machine.memory.bytes = t.memory.bytes ∧ e'.machine.host = t.host := by
  have prepared := prepared_storySetting fresh faithful calm
  have native : (e.machine.storySetting e.fallback).Native := native_storySetting portable
  obtain ⟨r, fate⟩ := native _ ⟨nonzero, .inl rfl⟩
  have compiled : (e.machine.storySetting e.fallback).Compiled 1 e.machine.stack.frames := by
    intro f member
    rw [begins.frames, List.length_singleton, Nat.sub_self, List.take_zero] at member
    cases member
  -- The frame that the session begins with stays below; a call from there leads to the machine that
  -- goes along with the story.
  have answers : (e.machine.storySetting e.fallback).Answers 1 bound e.machine
      e.machine.header.mainRoutine [] none 0 e.literals
      (invoke (limit + 1) e.machine.header.mainRoutine [] e) :=
    (Setting.simulates_and_answers _ 1 bound).2 prepared begins.state ⟨.refl _ _, fun _ _ => rfl⟩
      ⟨nonzero, .inl rfl⟩ nonzero (by simp [fate]) (by simp [fate]) rfl prepared.holds
      (Nat.zero_le _) compiled (Nat.le_of_eq begins.depth.symm) deep
  obtain ⟨going, v, ran', nested, memory, host⟩ :
      (e.machine.storySetting e.fallback).Going 1 bound (e.machine.upon e.machine.mainFrame) ∧ _ :=
    going_main begins faithful version portable ran ended
  have compares := compares_main begins version nonzero zero prepared.holds going answers
  obtain ⟨value, w, surfaces, memory', host'⟩ := surfaced_ok 0 (show v.nested ≠ 0 by omega)
  rw [ran', surfaces] at compares
  generalize invoke (limit + 1) e.machine.header.mainRoutine [] e = result at compares ⊢
  cases compares with
  | @ok _ _ e' bare clean =>
      have same := matches_of_bare bare
      refine ⟨_, e', rfl, ?_, ?_⟩
      · rw [← same.memory, memory', memory]
      · rw [← same.host, host', host]
  | refused visits refuses =>
      obtain ⟨proceeds, -, a, called, refused⟩ := refuses
      obtain ⟨r, native⟩ := native a ((going.safe _ visits proceeds).1.called a called)
      cases native.symm.trans refused

end Engine

namespace Session

variable {s t c : Session} {m : Machine} {bound limit : Nat}

/-! ## Both sessions to their ends -/

/-- Unless the session has failed, its machine is where the story `m` comes to by itself. -/
def Follows (m : Machine) (s : Session) : Prop :=
  (∃ f, s.state = .faulted f) ∨ Visits 0 m s.machine

theorem endBatch_follows (visits : Visits 0 m s.machine) (executed : Nat) :
    (s.endBatch executed).2.Follows m := by
  unfold endBatch
  split <;> exact .inr visits

/-- A batch carries out the next instructions of the story. -/
theorem runBatch_follows (live : ∀ u, Visits 0 m u → u.state = .running → u.Proceeds 0)
    (visits : Visits 0 m s.machine) (executed limit : Nat) :
    (s.runBatch executed limit).2.Follows m := by
  induction limit generalizing s executed with
  | zero => exact endBatch_follows visits executed
  | succ limit ih =>
      rw [runBatch]
      by_cases running : s.machine.state = .running
      · rw [if_neg (not_not.mpr running)]
        by_cases interrupted : s.isInterrupted = true
        · rw [if_pos interrupted]
          exact .inr visits
        · rw [if_neg interrupted, act_eq]
          cases ran : Machine.step s.machine with
          | error f u => exact .inl ⟨f, rfl⟩
          | ok _ u =>
              -- While the machine runs, it is above the floor, so its step is one of the story.
              have further : Visits 0 m (s.withMachine u).machine :=
                visits.step (live _ visits running) ran
              exact ih further (executed + 1)
      · rw [if_pos running]
        exact endBatch_follows visits executed

theorem run_follows (live : ∀ u, Visits 0 m u → u.state = .running → u.Proceeds 0)
    (interpreted : s.options.mode = .interpreted) (follows : s.Follows m) {outcome : SessionOutcome}
    (ran : s.run bound = some (outcome, t)) : t.Follows m := by
  -- A session that is ready or running stops or runs a batch; any other stays as it is.
  have goes (fresh : ∀ f, s.state ≠ .faulted f) (h : s.run bound =
      if s.isInterrupted then some s.stop
      else some ({ s with state := .running }.runBatch 0 s.options.batchSize)) : t.Follows m := by
    obtain ⟨f, state⟩ | visits := follows
    · exact absurd state (fresh f)
    · rw [h] at ran
      split at ran
      · cases ran
        exact .inr visits
      · have batch : ({ s with state := .running }.runBatch 0 s.options.batchSize).2.Follows m :=
          runBatch_follows (s := { s with state := .running }) live visits 0 _
        rw [Option.some.inj ran] at batch
        exact batch
  cases state : s.state with
  | ready | running => exact goes (by simp [state]) (by simp only [run, state, interpreted])
  | awaiting | quit | stopped | faulted =>
      simp only [run, state] at ran
      cases ran
      exact follows

/-- However often it is run, an interpreting session follows the story. -/
theorem after_follows (live : ∀ u, Visits 0 m u → u.state = .running → u.Proceeds 0)
    (interpreted : s.options.mode = .interpreted) (coupled : s.Coupled) (follows : s.Follows m)
    (bounds : List Nat) (ran : s.after (bounds.map .run) = some t) : t.Coupled ∧ t.Follows m := by
  induction bounds generalizing s with
  | nil =>
      cases ran
      exact ⟨coupled, follows⟩
  | cons bound bounds ih =>
      obtain ⟨outcome, u, first, coupled', options, -⟩ := run_coupled interpreted coupled bound
      have applied : (Operation.run bound).apply s = some u := by rw [Operation.apply, first]; rfl
      rw [List.map_cons, after, applied] at ran
      exact ih (options ▸ interpreted) coupled' (run_follows live interpreted follows first) ran

/-- An interpreting session that comes to the end of its story has run it from its beginning. -/
theorem runToDepth_of_quit (live : ∀ u, Visits 0 m u → u.state = .running → u.Proceeds 0)
    (interpreted : s.options.mode = .interpreted) (coupled : s.Coupled) (machine : s.machine = m)
    (bounds : List Nat) (ran : s.after (bounds.map .run) = some t) (ended : t.state = .quit) :
    t.machine.state = .quit ∧ ∃ bound, runToDepth 0 bound m = .ok () t.machine := by
  have follows : s.Follows m := .inr (machine ▸ .start)
  obtain ⟨coupled', failed | visits⟩ := after_follows live interpreted coupled follows bounds ran
  · obtain ⟨f, state⟩ := failed
    cases state.symm.trans ended
  · rw [Coupled, ended] at coupled'
    obtain ⟨n, rest⟩ := visits.run
    exact ⟨coupled', n + 1, (rest 1).trans (runToDepth_quit coupled' 0)⟩

/-- A session that runs compiled code begins with the main routine. -/
theorem run_eq_runMain (compiled : c.options.mode = .compiled) (ready : c.state = .ready)
    (calm : c.machine.host.Calm) (limit : Nat) :
    c.run limit = { c with state := .running }.runMain limit := by
  have quiet : ¬c.isInterrupted = true := by
    show ¬c.machine.host.interrupted = true
    simp [calm.2]
  simp only [run, ready, if_neg quiet, compiled]

/-- The story is over once the main routine has been run. -/
theorem runMain_of_ok {value : Option Word} {e : Engine}
    (invoked : Engine.invoke limit c.machine.header.mainRoutine [] c.engine = .ok value e) :
    ∃ u, c.runMain limit = some (.quit, u) ∧ u.machine.memory = e.machine.memory ∧
      u.machine.host = e.machine.host := by
  obtain ⟨w, quits, memory, host⟩ : ∃ w, quit e.machine = .ok () w ∧ w.memory = e.machine.memory ∧
      w.host = e.machine.host := by
    rw [run_quit]
    split
    · exact ⟨_, rfl, rfl, rfl⟩
    · exact ⟨_, rfl, rfl, rfl⟩
  rw [runMain, invoked]
  dsimp only
  rw [act_eq, show ({ c with engine := e } : Session).machine = e.machine from rfl, quits]
  exact ⟨_, rfl, memory, host⟩

/-- It does not come to an end where the main routine faults. -/
theorem runMain_of_fault {g : Fault} {e : Engine}
    (failed : Engine.invoke limit c.machine.header.mainRoutine [] c.engine = .error (.fault g) e)
    (u : Session) : c.runMain limit ≠ some (.quit, u) := by
  rw [runMain, failed]
  dsimp only
  split
  · intro quits
    cases quits
  · intro quits
    cases quits

/-- A session that interprets and one that runs compiled code, of one image and with one
host; whenever they ask the system for a seed, it answers both alike.  Both hold the same
machine, at the first instruction of the story.  The one that runs compiled code begins
there, too, exactly if the byte before this instruction is there and declares no locals;
and then, if the story keeps its code and the interpreter brings it to its end, so does
compiled code, with the same memory and the same host. -/
theorem starts_alike_iff {image : Array Byte} (options : SessionOptions) {host : Host}
    {entropy entropy' : Entropy} (answers : entropy = entropy')
    (interprets : load image
      { options with mode := .interpreted, machine.entropy := entropy } host = .ok s)
    (compiles : load image
      { options with mode := .compiled, machine.entropy := entropy' } host = .ok c)
    (version : s.machine.header.version ≠ 6) :
    c.machine = s.machine ∧ s.machine.AtBeginning ∧
      (c.machine.RunsFrom c.machine.header.mainRoutine s.machine.pc [] ↔
        c.machine.header.mainRoutine ≠ 0 ∧
          c.machine.memory.readByte c.machine.header.mainRoutine = .ok 0) ∧
      (c.machine.RunsFrom c.machine.header.mainRoutine s.machine.pc [] → host.Calm →
        s.machine.Portable → ∀ (bounds : List Nat) (t : Session),
          s.after (bounds.map .run) = some t → t.state = .quit →
          ∃ enough, ∀ limit, enough ≤ limit → ∃ u, c.run limit = some (.quit, u) ∧
            u.machine.memory.bytes = t.machine.memory.bytes ∧ u.machine.host = t.machine.host) := by
  subst answers
  have coupled : s.Coupled := coupled_of_load interprets
  obtain ⟨m, loads, rfl⟩ := opened_of_load interprets
  obtain ⟨m', loads', rfl⟩ := opened_of_load compiles
  obtain rfl : m = m' := Except.ok.inj (loads.symm.trans loads')
  have begins : m.AtBeginning := atBeginning_load loads version
  have faithful : m.Faithful := faithful_load loads
  have alike := runsFrom_main_iff begins version
  refine ⟨rfl, begins, alike, fun runs quiet portable bounds t ran ended => ?_⟩
  obtain ⟨nonzero, zero⟩ := alike.mp runs
  have calm : m.host.Calm := calm_load loads quiet
  have live (u : Machine) (visits : Visits 0 m u) (running : u.state = .running) : u.Proceeds 0 :=
    ⟨(rests_of_visits begins portable visits running).1.length_lt_depth, running⟩
  -- However the run is cut into batches, one run to the end does what they do together.
  obtain ⟨quits, bound, whole⟩ := runToDepth_of_quit live rfl coupled rfl bounds ran ended
  refine ⟨bound + 1, fun limit enough => ?_⟩
  obtain ⟨limit, rfl⟩ := Nat.exists_eq_succ_of_ne_zero (Nat.ne_of_gt (Nat.zero_lt_of_lt enough))
  let c := opened m { options with mode := .compiled, machine.entropy := entropy }
  obtain ⟨value, e, invoked, memory, host⟩ :=
    Engine.invoke_main (e := c.engine) rfl begins faithful calm
    version nonzero zero portable whole quits (Nat.le_of_succ_le_succ enough)
  obtain ⟨u, ends, memory', host'⟩ := runMain_of_ok (c := { c with state := .running }) invoked
  have first := run_eq_runMain (c := c) rfl rfl calm (limit + 1)
  exact ⟨u, first.trans ends, by rw [memory', memory], host'.trans host⟩

/-- An image whose main routine prints what the routine at 80 returns, which is 7. -/
def tellsSeven : Array Byte :=
  overwrite (overwrite (overwrite (Array.replicate 84 0)
    0 [3, 0, 0, 0, 0, 0, 0, 67, 0, 0, 0, 0, 0, 0, 255, 255])
    67 [0xe0, 0x3f, 0, 40, 0, 0xe6, 0xbf, 0, 0xba]) 80 [0, 0x9b, 7]

/-- The machine after this story was loaded. -/
@[irreducible] def telling : Machine := (Machine.load tellsSeven {} {}).toOption.getD default

theorem telling_portable : telling.Portable := by
  have passed : ∀ u ∈ trail 0 9 telling, u.memory.bytes = telling.memory.bytes ∧
      (endState (step u)).stack.depth < maxCallDepth ∧
      (∀ i ∈ u.nextInstruction?, i.opcode.interpreterOnly = false) ∧
      (u.calledAddress? = none ∨ u.calledAddress? = some 80) := by decide +kernel
  have along {u : Machine} (passes : telling.Passes u) :=
    passed u (passes.mem_trail (by decide +kernel))
  refine ⟨fun u passes => (along passes).2.2.1, ?_, ?_, ?_, ?_⟩
  · rintro b (rfl | ⟨u, passes, called⟩)
    · exact translatable_of_survey (by decide +kernel)
    · rcases (along passes).2.2.2 with nowhere | target
      · cases nowhere.symm.trans called
      · cases target.symm.trans called
        exact translatable_of_survey (by decide +kernel)
  · exact fun u passes b r _ _ x _ _ => byteAt_of_bytes (along passes).1 x
  · exact fun u passes n _ => abbreviation_of_bytes (along passes).1 _ n
  · intro u visits
    cases visits with
    | start => decide +kernel
    | @step t _ before proceeds ran =>
        have depth := (along ⟨before, proceeds⟩).2.1
        rw [ran] at depth
        exact depth

theorem starts_alike_iff_seven :
    ∃ t limit u, (opened telling { mode := .interpreted }).after [.run 0] = some t ∧
      t.state = .quit ∧
      (opened telling { mode := .compiled }).run limit = some (.quit, u) ∧
      u.machine.memory.bytes = t.machine.memory.bytes ∧ u.machine.host.output = "7" := by
  have loads : Machine.load tellsSeven {} {} = .ok telling := by
    unfold telling
    exact Except.eq_ok_getD _ (by decide +kernel)
  have version : telling.header.version ≠ 6 := by decide +kernel
  have zero : telling.header.mainRoutine ≠ 0 ∧
      telling.memory.readByte telling.header.mainRoutine = .ok 0 := by decide +kernel
  have ends : ((opened telling { mode := .interpreted }).after ([0].map .run)).map (fun t =>
      (t.state, t.machine.host.output)) = some (.quit, "7") := by decide +kernel
  obtain ⟨t, ran, told⟩ := Option.map_eq_some_iff.mp ends
  obtain ⟨ended, output⟩ := Prod.mk.inj told
  obtain ⟨-, -, alike, same⟩ :=
    starts_alike_iff {} rfl (load_opened loads) (load_opened loads) version
  obtain ⟨enough, reaches⟩ := same (alike.mpr zero) ⟨rfl, rfl⟩ telling_portable [0] t ran ended
  obtain ⟨u, quits, memory, host⟩ := reaches enough (Nat.le_refl _)
  exact ⟨t, enough, u, ran, ended, quits, memory, host ▸ output⟩

/-- An image whose first instruction, which ends the story, follows right after a routine. -/
def followsRoutine : Array Byte :=
  overwrite
    (overwrite (Array.replicate 80 0) 0 [3, 0, 0, 0, 0, 0, 0, 66, 0, 0, 0, 0, 0, 0, 255, 255])
    65 [0xb0, 0xba]

/-- The machine after this story was loaded. -/
@[irreducible] def following : Machine := (Machine.load followsRoutine {} {}).toOption.getD default

/-- A story that changes nothing and leaves nothing to the interpreter need not begin alike: where a
session that interprets it comes to its end, one that runs compiled code may refuse to begin. -/
theorem exists_unlike :
    ¬∀ (image : Array Byte) (options : SessionOptions) (host : Host) (s c : Session),
      load image { options with mode := .interpreted } host = .ok s →
      load image { options with mode := .compiled } host = .ok c →
      s.machine.header.version ≠ 6 → host.Calm → options.fallback = true →
      (∀ u, s.machine.Passes u → u.memory.bytes = s.machine.memory.bytes ∧
        ∀ i, u.nextInstruction? = some i → i.opcode.interpreterOnly = false) →
      ∀ t, s.after [.run 0] = some t → t.state = .quit →
        ∃ limit u, c.run limit = some (.quit, u) ∧
          u.machine.memory.bytes = t.machine.memory.bytes ∧ u.machine.host = t.machine.host := by
  intro complete
  have loads : Machine.load followsRoutine {} {} = .ok following := by
    unfold following
    exact Except.eq_ok_getD _ (by decide +kernel)
  have version : following.header.version ≠ 6 := by decide +kernel
  have ends : ((opened following { mode := .interpreted }).after [.run 0]).map (·.state)
      = some .quit := by decide +kernel
  obtain ⟨t, ran, ended⟩ := Option.map_eq_some_iff.mp ends
  have passed : ∀ u ∈ trail 0 9 following, u.memory.bytes = following.memory.bytes ∧
      ∀ i ∈ u.nextInstruction?, i.opcode.interpreterOnly = false := by decide +kernel
  obtain ⟨limit, u, quits, -⟩ := complete followsRoutine {} {} _ _ (load_opened loads)
    (load_opened loads) version ⟨rfl, rfl⟩ rfl
    (fun u passes => passed u (passes.mem_trail (by decide +kernel))) t ran ended
  -- The byte before the first instruction is no header of a routine.
  have missing :
      Routine.found? following.memory following.header.version following.header.mainRoutine
      = none := by
    rw [Routine.found?_eq_survey]
    decide +kernel
  have nonzero : following.header.mainRoutine ≠ 0 := by decide +kernel
  have calm : following.host.Calm := calm_load loads ⟨rfl, rfl⟩
  rw [run_eq_runMain (c := opened following { mode := .compiled }) rfl rfl calm] at quits
  cases limit with
  | zero => cases quits
  | succ limit =>
      obtain ⟨g, e, failed⟩ := Engine.invoke_unread (e := { machine := following }) rfl
        (Engine.current_of_empty rfl) (faithful_load loads) calm nonzero missing limit []
      exact runMain_of_fault
        (c := { opened following { mode := .compiled } with state := .running }) failed u quits

end Session
end ZMachine
