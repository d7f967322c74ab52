/-
  Compiled code follows the machine.

  Compiled code is compared with a machine that runs the same routine in a
  frame.  Both carry out one instruction after the other; a call runs the
  called routine from outside on one side, and enters it on the other.  The
  induction is on the number of instructions that the machine may still carry
  out.
-/
import ZMachine.Proofs.Course

namespace ZMachine

/-! ## Code from the middle of a block on -/

namespace Helpers

variable {m : Type → Type} [Monad m] (h : Helpers m)

/-- The rest of a block, and the blocks that follow. -/
def onward (code : Code) (bound : Nat) (steps : List CodeStep) (next : Option Nat) :
    StateT (List Word) m Word := do
  match ← h.steps steps with
  | .leave w => return w
  | .block n => h.blocks code bound n
  | .next =>
      match next with
      | some n => h.blocks code bound n
      | .none => return 0

/-- What follows after a step. -/
def after (code : Code) (bound : Nat) (rest : List CodeStep) (next : Option Nat) :
    Control → StateT (List Word) m Word
  | .next => h.onward code bound rest next
  | .block n => h.blocks code bound n
  | .leave w => return w

variable {code : Code} {bound : Nat} {next : Option Nat}

theorem blocks_eq_onward {n : Nat} {b : CodeBlock} (found : code.blocks[n]? = some b) :
    h.blocks code (bound + 1) n = h.onward code bound b.steps b.next := by
  rw [blocks, found]
  rfl

variable [LawfulMonad m]

theorem onward_cons (s : CodeStep) (rest : List CodeStep) :
    h.onward code bound (s :: rest) next = h.step s >>= h.after code bound rest next := by
  unfold onward
  rw [steps, bind_assoc]
  congr 1
  funext control
  cases control <;> simp only [pure_bind, after, onward]

theorem onward_nil (n : Nat) : h.onward code bound [] (some n) = h.blocks code bound n := by
  simp only [onward, steps, pure_bind]

end Helpers

open Machine

/-! ## The code of a routine -/

namespace Setting

variable (S : Setting)

/-- The code of the routine `r`, which is called at `a` and runs as compiled code. -/
structure Translates (a entry : Nat) (r : Routine) (scope : Scope) (code : Code)
    (pool : List String) : Prop where
  called : S.called a
  stands : Routine.Stands S.image S.header.version a entry r
  translated : ∀ i ∈ r.instructions, i.interpreterOnly = false
  texts : ∀ words, scope.story.tables.decodeWords scope.story.memory words
    = S.tables.decodeWords S.image words
  header : scope.story.header = S.header
  graph : scope.graph = FlowGraph.build r
  defaults : code.defaults = r.defaults
  blocks : ∀ (n : Nat) (b : Block), (FlowGraph.build r).blocks[n]? = some b →
    ∃ c, code.blocks[n]? = some c ∧ scope.Renders pool b.instructions c.steps c.next

variable {S} {a entry : Nat} {r : Routine} {scope : Scope} {code : Code} {pool : List String}

theorem interpreterOnly_scan {r : Routine} (h : (Needs.scan r).interpreterOnly = none) :
    ∀ i ∈ r.instructions, i.interpreterOnly = false := by
  have fold (is : List Instruction) (n : Needs)
      (clean : ((is.map Needs.ofInstruction).foldl Needs.join n).interpreterOnly = none) :
      n.interpreterOnly = none ∧ ∀ i ∈ is, i.interpreterOnly = false := by
    induction is generalizing n with
    | nil => exact ⟨clean, by simp⟩
    | cons i is ih =>
        obtain ⟨joined, rest⟩ := ih _ clean
        have first : n.interpreterOnly = none ∧ i.interpreterOnly = false := by
          simpa [Needs.join, Needs.ofInstruction] using joined
        exact ⟨first.1, fun j hj => (List.mem_cons.mp hj).elim (fun h => h ▸ first.2) (rest j)⟩
  exact (fold r.instructions {} h).2

theorem Stems.translates (stems : S.Stems pool r code) (called : S.called a)
    (native : S.fate a = .native r) : ∃ entry scope, S.Translates a entry r scope code pool := by
  obtain ⟨m, before, after, statistics, texts, compiled, grows⟩ := stems
  obtain ⟨found, translated⟩ := S.found_of_native native
  obtain ⟨entry, stands⟩ := Routine.stands_of_found found
  refine ⟨entry, Scope.ofRoutine { S.story with memory := m } r, called, stands,
    interpreterOnly_scan translated, texts, rfl, rfl, (compile_ok compiled).2.1, fun n b hb => ?_⟩
  obtain ⟨c, hc, renders⟩ := renders_compile compiled hb
  exact ⟨c, hc, renders.mono grows⟩

/-- The machine finds the instructions of the routine where they stand. -/
theorem Translates.fetch (h : S.Translates a entry r scope code pool) {i : Instruction}
    (member : i ∈ r.instructions) {s : Machine} (holds : S.Holds s)
    (unchanged : S.Unchanged s.memory) (pc : s.pc = i.address) :
    ∃ decoded, s.code.decoded.decode s.memory s.pc = (.ok i, decoded) ∧
      S.Holds (s.fetched decoded i) ∧ i.Formed S.header.version := by
  have stands := h.stands.row.decoded i member
  have inside := h.stands.inside i member
  have covered (x : Nat) (low : i.address ≤ x) (high : x < i.next) : S.steady x :=
    S.covered a h.called x (Nat.le_trans inside.1 low) (Nat.lt_of_lt_of_le high inside.2)
  obtain ⟨decoded, found⟩ := holds.drawn.decode_eq unchanged.agrees stands covered
  obtain ⟨-, -, -, formed⟩ := decode_spec stands
  refine ⟨decoded, pc ▸ found, ⟨holds.header, holds.text, ?_, holds.calm⟩, formed⟩
  exact holds.drawn.of_decode unchanged.agrees found

/-! ## What compiled code comes to -/

variable {floor bound nested : Nat} {s : Machine} {f : Frame} {fs : List Frame}

/-- How compiled code ends, compared with the run of a machine in the state `s` that carries out the
same routine in the frame `f` above the frames `fs`. -/
inductive Follows (S : Setting) (floor nested bound : Nat) (s : Machine) (f : Frame)
    (fs : List Frame) (pool : List String) : EStateM.Result Halt (List Word × Engine) Word →
    Prop where
  | returns {w : Word} {locals : List Word} {e : Engine} {t : Machine} {bound' old pc : Nat}
      (level : Level (S.Ready pool) S.Holds pc nested f fs (locals, e) t)
      (reaches : S.Reaches floor bound s bound' old (returnFrom w t)) :
      Follows S floor nested bound s f fs pool (.ok w (locals, e))
  | quits {locals : List Word} {e : Engine} {u : Machine} {bound' old : Nat}
      (bare : u.bare = e.machine.bare) (ended : u.state = .quit)
      (reaches : S.Reaches floor bound s bound' old (.ok () u)) :
      Follows S floor nested bound s f fs pool (.error .quit (locals, e))
  | fails {g g' : Fault} {locals : List Word} {e : Engine} {u : Machine} {bound' old : Nat}
      (root : g'.root = g.root) (reaches : S.Reaches floor bound s bound' old (.error g u)) :
      Follows S floor nested bound s f fs pool (.error (.fault g') (locals, e))
  | refuses {g : Fault} {locals : List Word} {e : Engine} {t : Machine}
      (visits : Visits floor s t) (refuses : S.Refuses floor t) :
      Follows S floor nested bound s f fs pool (.error (.fault g) (locals, e))

theorem Follows.of_reaches {bound' old : Nat} {u : Machine}
    {result : EStateM.Result Halt (List Word × Engine) Word}
    (reaches : S.Reaches floor bound s bound' old (.ok () u))
    (h : S.Follows floor nested bound' (u.stepped old) f fs pool result) :
    S.Follows floor nested bound s f fs pool result := by
  cases h with
  | returns level later => exact .returns level (reaches.trans later)
  | quits bare ended later => exact .quits bare ended (reaches.trans later)
  | fails root later => exact .fails root (reaches.trans later)
  | refuses visits refuses => exact .refuses ((reaches.visits u rfl).trans visits) refuses

/-- The frame `f` above the frames `fs` belongs to the routine at `a`, which is run from outside as
compiled code, as are all frames above `floor`. -/
structure Stage (S : Setting) (floor nested a : Nat) (f : Frame) (fs : List Frame) : Prop where
  outside : 0 < nested
  address : f.address = a
  native : ∃ r, S.fate a = .native r
  compiled : S.Compiled floor fs
  above : floor ≤ fs.length

theorem Stage.frames {a : Nat} (h : S.Stage floor nested a f fs) (locals : List Word) :
    S.Compiled floor ({ f with locals } :: fs) := by
  intro g member
  have length : ({ f with locals } :: fs).length - floor = fs.length - floor + 1 :=
    Nat.succ_sub h.above
  rw [length, List.take_succ_cons] at member
  rcases List.mem_cons.mp member with rfl | member
  · exact h.address ▸ h.native
  · exact h.compiled g member

/-- Compiled code follows the machine while that carries out at most `bound` instructions. -/
def Simulates (S : Setting) (floor bound : Nat) : Prop :=
  ∀ {limit blocks nested a entry : Nat} {r : Routine} {scope : Scope} {code : Code}
    {pool : List String} {is : List Instruction} {steps : List CodeStep} {next : Option Nat}
    {locals : List Word} {e : Engine} {s : Machine} {f : Frame} {fs : List Frame},
    S.Translates a entry r scope code pool → S.Stage floor nested a f fs →
    scope.Renders pool is steps next → is <:+: r.instructions →
    is.head?.map Instruction.address = some s.pc →
    Level (S.Ready pool) S.Holds s.pc nested f fs (locals, e) s → S.Going floor bound s →
    bound ≤ blocks + 1 → bound ≤ limit →
    S.Follows floor nested bound s f fs pool
      (flat ((Engine.helpers fun b args => Engine.invoke limit b args).onward code blocks
        steps next) (locals, e))

variable {limit blocks : Nat} {locals : List Word} {e : Engine}

/-- The blocks that begin where the machine goes on. -/
theorem follows_block (ih : S.Simulates floor bound)
    (translates : S.Translates a entry r scope code pool) (stage : S.Stage floor nested a f fs)
    {target n : Nat} (index : scope.graph.indexOf? target = some n)
    (level : Level (S.Ready pool) S.Holds target nested f fs (locals, e) s)
    (going : S.Going floor bound s) (enough : bound ≤ blocks) (deep : bound ≤ limit) :
    S.Follows floor nested bound s f fs pool
      (flat ((Engine.helpers fun b args => Engine.invoke limit b args).blocks code blocks n)
        (locals, e)) := by
  obtain ⟨blocks, rfl⟩ := Nat.exists_eq_succ_of_ne_zero
    (Nat.ne_of_gt (Nat.lt_of_lt_of_le going.positive enough))
  rw [translates.graph] at index
  obtain ⟨b, hb, start⟩ := FlowGraph.indexOf?_spec index
  obtain ⟨c, hc, renders⟩ := translates.blocks n b hb
  obtain ⟨i, rest, cons, first, part⟩ := FlowGraph.mem_build (List.mem_of_getElem? hb)
  rw [Helpers.blocks_eq_onward _ hc]
  refine ih translates stage renders part ?_ (level.pc ▸ level) going enough deep
  rw [cons, level.pc, ← start, first]
  rfl

/-- Observers and the program counter are nothing that levels depend on. -/
theorem level_at {pc : Nat} {t : Machine}
    (level : Level (S.Ready pool) S.Holds pc nested f fs (locals, e) t) (target : Nat)
    (events : EventLog) :
    Level (S.Ready pool) S.Holds target nested f fs (locals, e)
      { t with pc := target, events } where
  bare := level.bare
  frames := level.frames
  pc := rfl
  nested := level.nested
  kept := level.kept
  held := ⟨level.held.header, level.held.text, level.held.drawn, level.held.calm⟩

/-! ## Instructions -/

theorem proceeds_of_level {pc : Nat}
    (level : Level (S.Ready pool) S.Holds pc nested f fs (locals, e) s)
    (above : floor ≤ fs.length) : s.Proceeds floor := by
  refine ⟨?_, ?_⟩
  · rw [CallStack.depth, level.frames, List.length_cons]
    exact Nat.lt_succ_of_le above
  · have state : s.bare.state = e.machine.bare.state := congrArg Machine.state level.bare
    exact state.trans level.kept.running

theorem calledAddress?_eq_none {i : Instruction} {decoded : DecodeCache}
    (h : s.code.decoded.decode s.memory s.pc = (.ok i, decoded)) (call : i.opcode.isCall = false) :
    s.calledAddress? = none := by
  simp [calledAddress?, h, call]

/-- Where no routine is called, none is refused. -/
theorem not_refuses_uncalled (nowhere : s.calledAddress? = none) : ¬S.Refuses floor s := by
  rintro ⟨-, -, b, called, -⟩
  rw [nowhere] at called
  cases called

/-- The next instruction of a run, if it calls no routine. -/
theorem reaches_uncalled {i : Instruction} {decoded : DecodeCache} (proceeds : s.Proceeds floor)
    (found : s.code.decoded.decode s.memory s.pc = (.ok i, decoded))
    (nowhere : s.calledAddress? = none) (goesOn : i.opcode ≠ .restart) (bound : Nat) :
    S.Reaches floor (bound + 1) s bound s.pc (Machine.execute i (s.fetched decoded i)) :=
  reaches_next proceeds found (not_strays found (not_refuses_uncalled nowhere) goesOn) bound

theorem Reaches.execute {i : Instruction} {decoded : DecodeCache} {bound' old : Nat}
    (h : S.Reaches floor bound s bound' old (Machine.execute i (s.fetched decoded i))) :
    S.Reaches floor bound s bound' old
      (match wayOf i (s.fetched decoded i) with
      | .ok w t => go w t
      | .error g t => .error g t) := by
  rw [execute_eq] at h
  simp only [Bind.bind, EStateM.bind] at h
  cases way : wayOf i (s.fetched decoded i) <;> rw [way] at h <;> exact h

theorem quit_of_running (running : s.state = .running) :
    quit s = .ok () { s with state := .quit, events := s.events.emit .quit } := by
  rw [run_quit, if_neg (by simp [running])]

theorem becomes_quit {i : Instruction} {step : CodeStep} (op : i.opcode = .quit)
    (becomes : scope.Becomes pool i step) : step = { operands := [], action := .quit } := by
  obtain ⟨reads, before, after, made, -⟩ := becomes.parts
  obtain ⟨operands, action⟩ := step
  simp only [Scope.action, op] at made
  simp only [Scope.operandsRead, op] at reads
  rw [reads, (Scope.require_ok made).1]

/-- The end of the story. -/
theorem follows_quit {i : Instruction} {step : CodeStep} {steps : List CodeStep}
    {next : Option Nat} (becomes : scope.Becomes pool i step) (op : i.opcode = .quit)
    {decoded : DecodeCache}
    (found : s.code.decoded.decode s.memory s.pc = (.ok i, decoded))
    (proceeds : s.Proceeds floor)
    (level : Level (S.Ready pool) S.Holds i.next nested f fs (locals, e) (s.fetched decoded i))
    (going : S.Going floor bound s) :
    S.Follows floor nested bound s f fs pool
      (flat ((Engine.helpers fun b args => Engine.invoke limit b args).onward code blocks
        (step :: steps) next) (locals, e)) := by
  have nowhere := calledAddress?_eq_none found (by rw [op]; rfl)
  obtain ⟨bound, rfl⟩ := Nat.exists_eq_succ_of_ne_zero (Nat.ne_of_gt going.positive)
  have reaches :=
    (reaches_uncalled (S := S) proceeds found nowhere (by rw [op]; nofun) bound).execute
  have way :
      wayOf i (s.fetched decoded i) = (quit >>= fun _ => pure .onward) (s.fetched decoded i) := by
    simp only [wayOf, op]
  have ended : quit (s.fetched decoded i) = _ := quit_of_running proceeds.2
  rw [way] at reaches
  simp only [Bind.bind, EStateM.bind, ended] at reaches
  rw [becomes_quit op becomes, Helpers.onward_cons, flat_bind]
  have ends : flat ((Engine.helpers fun b args => Engine.invoke limit b args).step
      { operands := [], action := .quit }) (locals, e) = .error .quit ([], { e with
        machine := { e.machine with state := .quit, events := e.machine.events.emit .quit } }) := by
    change flat (liftM (Engine.act quit >>= fun _ => throw .quit : EngineM Control) :
      StateT (List Word) EngineM Control) (locals, e) = _
    rw [flat_lift]
    simp only [Bind.bind, EStateM.bind, Engine.run_act, quit_of_running level.kept.running]
    rfl
  simp only [Bind.bind, EStateM.bind, ends]
  -- Both machines have stopped.  The locals of compiled code are lost, which nobody sees.
  refine .quits ?_ rfl reaches
  have bare : bare { s.fetched decoded i with state := .quit }
      = bare { e.machine with state := .quit } := by
    change { (s.fetched decoded i).bare with state := .quit }
      = { e.machine.bare with state := .quit }
    rw [level.bare]
  exact bare

/-! ## Routines that run as compiled code -/

theorem Unchanged.of_plain {m m' : Memory} (h : S.Unchanged m) (same : m'.plain = m.plain) :
    S.Unchanged m' := by
  have bytes : m'.plain.bytes = m.plain.bytes := congrArg Memory.bytes same
  have bytes : m'.bytes = m.bytes := bytes
  refine ⟨⟨?_, fun x steady => ?_⟩, fun n few => ?_⟩
  · rw [← h.agrees.size, Memory.size, Memory.size, bytes]
  · rw [← h.agrees.bytes x steady, Memory.byteAt, Memory.byteAt, bytes]
  · have lookup (m : Memory) : S.tables.abbreviation m.plain = S.tables.abbreviation m :=
      S.tables.lookup_abbreviation m
    rw [← h.abbreviations n few, ← lookup m, ← lookup m', same]

/-- A call finds the locals of a routine as they were. -/
theorem routineHeader_of_stands {m : Memory} (called : S.called a)
    (stands : Routine.Stands S.image S.header.version a entry r) (unchanged : S.Unchanged m) :
    routineHeader m S.header.version a = .ok (r.defaults, entry) := by
  refine Routine.routineHeader_of_readLocals (Routine.readLocals_congr unchanged.agrees.size ?_
    stands.locals)
  intro x low high
  exact unchanged.agrees.bytes x (S.covered a called x low (stands.headInside x low high))

/-- The first block begins with the first instruction. -/
theorem indexOf?_entry (stands : Routine.Stands S.image S.header.version a entry r) :
    (FlowGraph.build r).indexOf? entry = some 0 := by
  obtain ⟨i, rest, cons⟩ := List.exists_cons_of_ne_nil stands.row.nonempty
  obtain ⟨b, more, blocks, start⟩ := FlowGraph.first_build cons
  have address : i.address = entry := stands.row.first i (by rw [cons]; rfl)
  rw [FlowGraph.indexOf?_eq_some_iff stands.row.contiguous, blocks]
  exact ⟨b, rfl, start.trans address⟩

/-- The frame of a call has the locals that compiled code begins with. -/
theorem locals_enter (translates : S.Translates a entry r scope code pool) (returnAddress : Nat)
    (store : Option Variable) (args : List Word) (base : Nat) :
    (Frame.enter a returnAddress store r.defaults args base).locals
      = Engine.startLocals code args := by
  have few := Routine.length_defaults translates.stands.locals
  simp only [Frame.enter, Engine.startLocals, translates.defaults, List.take_of_length_le few]

/-- How compiled code ends is how the routine ends. -/
theorem Follows.invoked {result : EStateM.Result Halt (List Word × Engine) Word}
    (h : S.Follows floor nested bound s f fs pool result) (outside : 0 < nested)
    (same : nested = s.nested) {x : EngineM Word} {e : Engine}
    (ran : x e = Engine.withoutLocals result) :
    S.Invoked floor bound s f fs pool (Engine.finishCompiled x e) := by
  unfold Engine.finishCompiled
  rw [ran]
  cases h with
  | @returns w locals e' t bound' old pc level reaches =>
      -- The engine keeps a frame for the routine as well, which holds no locals.
      have frames : (t.bare.stack.frames).length = (e'.machine.bare.stack.frames).length := by
        rw [level.bare]
      obtain ⟨g, gs, frames'⟩ : ∃ g gs, e'.machine.stack.frames = g :: gs := by
        refine List.exists_cons_of_length_pos ?_
        simp only [bare, CallStack.bare, List.length_map, level.frames] at frames
        rw [← frames]
        exact Nat.succ_pos _
      rw [run_returnFrom level.frames (.inr (level.nested ▸ outside))] at reaches
      have leaves := run_leaveCompiled frames' w
      have sheds : e'.machine.Sheds (e'.machine.left g gs w) := by
        have effects : Effects false true e'.machine (endState (leaveCompiled w e'.machine)) :=
          does_leaveCompiled w e'.machine
        rw [leaves] at effects
        exact sheds_of_effects effects
      simp only [Engine.withoutLocals, Bind.bind, EStateM.bind, Engine.run_act, leaves]
      refine .returns (t := { t.left { f with locals } fs w with pc := f.returnAddress }) ?_ rfl rfl
        (level.nested.trans same) ⟨level.kept.prepared.of_sheds sheds, level.kept.grows,
          level.kept.running⟩ ?_ rfl reaches
      · exact bare_left level.bare level.frames frames' w w
      · exact ⟨level.held.header, level.held.text, level.held.drawn, level.held.calm⟩
  | @quits locals e' u _ _ bare ended reaches =>
      have state : u.bare.state = e'.machine.bare.state := congrArg Machine.state bare
      have ended' : e'.machine.state = .quit := state.symm.trans ended
      have quits : quit e'.machine = .ok () e'.machine := by rw [run_quit, if_pos ended']
      simp only [Engine.withoutLocals, Bind.bind, EStateM.bind, Engine.run_act, quits]
      exact .quits bare ended reaches
  | fails root reaches =>
      simp only [Engine.withoutLocals]
      split <;> exact .fails root reaches
  | refuses visits refuses =>
      simp only [Engine.withoutLocals]
      split <;> exact .refuses visits refuses

theorem Kept.unchanged {e e' : Engine} (kept : S.Kept e e')
    (unchanged : S.Unchanged e.machine.memory) : S.Unchanged e'.machine.memory := by
  rw [kept.machine]
  exact unchanged

theorem Kept.bare {e e' : Engine} (kept : S.Kept e e') : e'.machine.bare = e.machine.bare := by
  rw [kept.machine]
  rfl

/-- A routine that runs as compiled code does what the machine does when it calls it. -/
theorem answers_native (ih : S.Simulates floor bound) {e : Engine} (prepared : S.Prepared e)
    (running : e.machine.state = .running) (unchanged : S.Unchanged e.machine.memory)
    (called : S.called a) (nonzero : a ≠ 0) (native : S.fate a = .native r) {t : Machine}
    (bare : t.bare = e.machine.bare) (holds : S.Holds t) {args : List Word}
    (few : args.length ≤ Helpers.maxArguments) (store : Option Variable) (returnAddress : Nat)
    (compiled : S.Compiled floor t.stack.frames) (above : floor ≤ t.stack.depth)
    (deep : bound ≤ limit) :
    S.Answers floor bound t a args store returnAddress e.literals
      (Engine.invoke (limit + 1) a args e) := by
  have spec := prepare_spec prepared unchanged called (by simp [native])
  rw [native] at spec
  obtain ⟨code, statistics, e₁, ran, stems, kept⟩ := spec
  obtain ⟨entry, scope, translates⟩ := stems.translates called native
  have header (m : Memory) (unchanged : S.Unchanged m) :
      routineHeader m S.header.version a = .ok (r.defaults, entry) :=
    routineHeader_of_stands called translates.stands unchanged
  have bare₁ : t.bare = e₁.machine.bare := bare.trans kept.bare.symm
  have plain : t.memory.plain = e.machine.memory.plain := congrArg Machine.memory bare
  have joint := joint_enterCompiled bare₁ (a := a)
    (by rw [holds.header]; exact header _ (unchanged.of_plain plain))
    (by rw [kept.prepared.holds.header]; exact header _ (kept.unchanged unchanged))
    args store returnAddress
  rw [Engine.run_invoke prepared.holds.calm nonzero, ran]
  simp only [List.take_of_length_le few]
  unfold Answers
  generalize callRoutine a args store returnAddress t = x at joint ⊢
  generalize enterCompiled a args e₁.machine = y at joint ⊢
  -- Entering the routine fails on both sides alike; else the first block begins where the machine
  -- goes on.
  cases joint with
  | error same => exact ⟨_, _, rfl, by rw [same]⟩
  | @ok _ t' _ u h =>
      obtain ⟨bare', pc, sheds, state, frames⟩ := h
      intro s f entered going
      obtain ⟨rfl, -⟩ := List.cons.inj (frames.symm.trans entered.frames)
      have prepared₁ := kept.prepared.of_sheds sheds
      have level : Level (S.Ready e₁.literals) S.Holds entry s.nested
          (Frame.enter a returnAddress store r.defaults args t.stack.size) t.stack.frames
          (Engine.startLocals code args, Engine.counted { e₁ with machine := u }) s := by
        refine ⟨entered.bare.trans bare', ?_, entered.pc.trans pc, rfl,
          ⟨⟨prepared₁.holds, prepared₁.known, prepared₁.fallback, prepared₁.tiers⟩,
            List.prefix_rfl, ?_⟩, entered.holds⟩
        · rw [entered.stack, entered.frames, ← locals_enter translates returnAddress store args]
        · exact state.trans ((state_of_bare kept.bare).trans running)
      have stage : S.Stage floor s.nested a
          (Frame.enter a returnAddress store r.defaults args t.stack.size) t.stack.frames :=
        ⟨entered.outside, rfl, ⟨r, native⟩, compiled, above⟩
      have follows := follows_block ih translates stage
        (by rw [translates.graph]; exact indexOf?_entry translates.stands) level going deep deep
      exact (follows.invoked entered.outside rfl
        (Engine.run_runCode (fun b args => Engine.invoke limit b args) code limit few _)).mono
          kept.literals

/-! ## Steps -/

section Site

-- The code has come to the step of `i`, with the machine level and the bound not used up.
variable (ih : ∀ bound' < bound, S.Simulates floor bound')
  (translates : S.Translates a entry r scope code pool) (stage : S.Stage floor nested a f fs)
  {i : Instruction} {rest : List Instruction} {step : CodeStep} {steps : List CodeStep}
  {next : Option Nat} (renders : scope.Renders pool (i :: rest) (step :: steps) next)
  (part : i :: rest <:+: r.instructions) (going : S.Going floor bound s)
  (enough : bound ≤ blocks + 1) (deep : bound ≤ limit)

include ih translates stage renders part going enough deep

/-- What follows a step, once the machine has carried out its instruction. -/
theorem follows_after {c : Control} {w : Way} (turns : scope.Turns i step.action c w) {t : Machine}
    {old bound' : Nat}
    (level : Level (S.Ready pool) S.Holds i.next nested f fs (locals, e) t)
    (reaches : S.Reaches floor bound s bound' old (go w t)) :
    S.Follows floor nested bound s f fs pool
      (flat ((Engine.helpers fun b args => Engine.invoke limit b args).after code blocks
        steps next c)
        (locals, e)) := by
  have fewer := reaches.fewer
  have goto {target n : Nat} (index : scope.graph.indexOf? target = some n)
      (reaches : S.Reaches floor bound s bound' old (.ok () { t with pc := target })) :
      S.Follows floor nested bound s f fs pool
        (flat ((Engine.helpers fun b args => Engine.invoke limit b args).blocks code blocks n)
          (locals, e)) :=
    .of_reaches reaches (follows_block (ih bound' fewer) translates stage index
      (level_at level target _) (going.of_reaches reaches) (by omega) (by omega))
  have onward : { t with pc := i.next } = t := by rw [← level.pc]
  -- By where control goes: out of the routine, to another block, or on within this one.
  obtain ⟨heads, passes⟩ := turns
  cases heads with
  | leaves w => exact .returns level reaches
  | jumps index => exact goto index reaches
  | passes index => exact goto index (onward ▸ reaches)
  | next =>
      cases renders with
      | ends _ ends => exact absurd rfl (passes ends)
      | last _ _ index =>
          simp only [Helpers.after, Helpers.onward_nil]
          exact goto index (onward ▸ reaches)
      -- The next step was compiled from the instruction that stands right behind this one.
      | more _ _ tail =>
          refine .of_reaches reaches ?_
          refine ih bound' fewer translates stage tail ?_ ?_ ?_ (going.of_reaches reaches)
            (by omega) (by omega)
          · exact (List.suffix_cons i _).isInfix.trans part
          · obtain ⟨front, back, whole⟩ := part
            have next := translates.stands.row.next
            rw [← whole] at next
            have chain := next.left_of_append.right_of_append
            rw [List.head?_cons, Option.map_some, (List.isChain_cons_cons.mp chain).1, ← level.pc]
            rfl
          · exact level_at level t.pc _

/-- A step that carries out an instruction on values alone. -/
theorem follows_ordinary (becomes : scope.Becomes pool i step) (ordinary : Ordinary i)
    {decoded : DecodeCache}
    (found : s.code.decoded.decode s.memory s.pc = (.ok i, decoded))
    (formed : i.Formed S.header.version) (unchanged : S.Unchanged s.memory)
    (proceeds : s.Proceeds floor)
    (level : Level (S.Ready pool) S.Holds i.next nested f fs (locals, e) (s.fetched decoded i)) :
    S.Follows floor nested bound s f fs pool
      (flat ((Engine.helpers fun b args => Engine.invoke limit b args).onward code blocks
        (step :: steps) next) (locals, e)) := by
  have texts : (s.fetched decoded i).text.decodeWords (s.fetched decoded i).memory (i.text.getD [])
      = scope.story.tables.decodeWords scope.story.memory (i.text.getD []) := by
    rw [level.held.text, translates.texts]
    exact unchanged.texts _
  -- The action goes in step on both sides; what is left is where control goes then.
  have joint := joint_step (fun b args => Engine.invoke limit b args) (S.lasting pool)
    (fun _ h => h.calm) (fun _ h => h.grows) stage.outside formed ordinary becomes level texts
  have nowhere := calledAddress?_eq_none found ordinary.call
  have goesOn : i.opcode ≠ .restart := (Opcode.ne_of_translated ordinary.opcode).1
  obtain ⟨bound, rfl⟩ := Nat.exists_eq_succ_of_ne_zero (Nat.ne_of_gt going.positive)
  have reaches := (reaches_uncalled (S := S) proceeds found nowhere goesOn bound).execute
  rw [Helpers.onward_cons, flat_bind]
  simp only [Bind.bind, EStateM.bind]
  generalize flat ((Engine.helpers fun b args => Engine.invoke limit b args).step step) (locals, e)
    = x at joint
  generalize wayOf i (s.fetched decoded i) = y at joint reaches
  cases joint with
  | error blames =>
      obtain ⟨g, rfl, root⟩ := blames
      exact .fails root reaches
  | ok h => exact follows_after ih translates stage renders part going enough deep h.1 h.2 reaches

/-- The result of a call is stored, and the code goes on. -/
theorem follows_store (passes : step.action.endsBlock = false) (w : Word)
    {t : Machine} {bound' old : Nat}
    (level : Level (S.Ready pool) S.Holds i.next nested f fs (locals, e) t)
    (reaches : S.Reaches floor bound s bound' old (storeResult i.store w t)) :
    S.Follows floor nested bound s f fs pool
      (flat ((Engine.helpers fun b args => Engine.invoke limit b args).store i.store w >>= fun _ =>
        (Engine.helpers fun b args => Engine.invoke limit b args).after code blocks steps
          next .next)
        (locals, e)) := by
  have joint := keeps_store (fun b args => Engine.invoke limit b args) (S.lasting pool) i.store w
    (locals, e) t level
  rw [flat_bind]
  simp only [Bind.bind, EStateM.bind]
  -- Both sides store, and what comes after is looked at only if both succeed.
  generalize flat ((Engine.helpers fun b args => Engine.invoke limit b args).store i.store w)
    (locals, e) = x at joint
  generalize storeResult i.store w t = y at joint reaches
  cases joint with
  | error blames =>
      obtain ⟨g, rfl, root⟩ := blames
      exact .fails root reaches
  | ok h =>
      refine follows_after ih translates stage renders part going enough deep ⟨.next, ?_⟩
        h.2 reaches
      simp [passes]

/-- A routine is run, and its result is stored. -/
theorem follows_invoke (passes : step.action.endsBlock = false) {b bound' old : Nat}
    {args : List Word} {t : Machine}
    (level : Level (S.Ready pool) S.Holds i.next nested f fs (locals, e) t)
    (reaches : S.Reaches floor bound s bound' old (callRoutine b args i.store i.next t))
    (answers : S.Answers floor bound' t b args i.store i.next e.literals
      (Engine.invoke limit b args e)) :
    S.Follows floor nested bound s f fs pool
      (flat (liftM (Engine.invoke limit b args >>= Engine.resultOf) >>= fun w =>
        (Engine.helpers fun b args => Engine.invoke limit b args).store i.store w >>= fun _ =>
        (Engine.helpers fun b args => Engine.invoke limit b args).after code blocks steps
          next .next)
        (locals, e)) := by
  rw [flat_bind]
  simp only [Bind.bind, EStateM.bind, flat_lift]
  unfold Answers at answers
  cases call : callRoutine b args i.store i.next t with
  | error g u =>
      rw [call] at answers reaches
      obtain ⟨g', e', ran, root⟩ := answers
      rw [ran]
      exact .fails root reaches
  | ok _ t' =>
      rw [call] at answers reaches
      obtain ⟨defaults, nested', -, frames⟩ := callRoutine_ok call
      have effects : Effects false true t (endState (callRoutine b args i.store i.next t)) :=
        does_callRoutine b args i.store i.next t
      rw [call] at effects
      have holds : S.Holds t' := level.held.of_sheds (sheds_of_effects effects)
      -- What was asked of the run so far lets the routine begin in its new frame.
      have enters : S.Enters t' (t'.stepped old) _ t.stack.frames :=
        ⟨frames, rfl, rfl, rfl, by rw [stepped, nested', level.nested]; exact stage.outside,
          ⟨holds.header, holds.text, holds.drawn, holds.calm⟩⟩
      have invoked := answers _ _ enters (going.of_reaches reaches)
      generalize Engine.invoke limit b args e = result at invoked
      cases invoked with
      | @returns w e' u bound'' old' bare frames' pc nested'' ready holds' last later =>
          have level' : Level (S.Ready pool) S.Holds i.next nested f fs (locals, e') u :=
            ⟨bare, frames'.trans level.frames, pc, nested''.trans (nested'.trans level.nested),
              ⟨ready.prepared, level.kept.grows.trans ready.grows, ready.running⟩, holds'⟩
          exact follows_store ih translates stage renders part going enough deep passes w level'
            (reaches.trans later)
      | quits bare ended later => exact .quits bare ended (reaches.trans later)
      | fails root later => exact .fails root (reaches.trans later)
      | refuses visits refuses => exact .refuses ((reaches.visits t' rfl).trans visits) refuses

end Site

/-! ## Calls -/

theorem routineAddress_ne_zero (h : Header) {packed : Word} (nonzero : packed ≠ 0) :
    h.routineAddress packed ≠ 0 := by
  have positive : 0 < packed.toNat := by
    rcases Nat.eq_zero_or_pos packed.toNat with zero | positive
    · exact absurd (UInt16.toNat_inj.mp zero) nonzero
    · exact positive
  have factor : 0 < packedMultiplier h.version := by
    unfold packedMultiplier
    repeat' split
    all_goals decide
  have product := Nat.mul_pos positive factor
  unfold Header.routineAddress
  omega

/-- What calls of routines come to while the machine carries out at most `bound` instructions. -/
def AnswersCalls (S : Setting) (floor bound : Nat) : Prop :=
  ∀ {limit a : Nat} {args : List Word} {store : Option Variable} {returnAddress : Nat}
    {e : Engine} {t : Machine},
    S.Prepared e → e.machine.state = .running → S.Unchanged e.machine.memory → S.called a →
    a ≠ 0 → S.fate a ≠ .refused → (S.fate a = .interpreted → S.fallback = true) →
    t.bare = e.machine.bare → S.Holds t →
    args.length ≤ Helpers.maxArguments → S.Compiled floor t.stack.frames →
    floor ≤ t.stack.depth → bound ≤ limit →
    S.Answers floor bound t a args store returnAddress e.literals
      (Engine.invoke (limit + 1) a args e)

theorem Going.settles (h : S.Going floor bound s) {b : Nat} (called : S.called b)
    (interpreted : S.fate b = .interpreted) : S.fallback = true := by
  rcases h.settled with native | fallback
  · obtain ⟨r, compiled⟩ := native b called
    rw [compiled] at interpreted
    cases interpreted
  · exact fallback

/-- A routine that cannot be read is not run. -/
theorem run_refused {e : Engine} (prepared : S.Prepared e)
    (unchanged : S.Unchanged e.machine.memory)
    {b : Nat} (called : S.called b) (nonzero : b ≠ 0) (refused : S.fate b = .refused) (limit : Nat)
    (args : List Word) : ∃ g e', Engine.invoke (limit + 1) b args e = .error (.fault g) e' := by
  have spec := prepare_spec prepared unchanged called (by simp [refused])
  rw [refused] at spec
  obtain ⟨g, e', ran⟩ := spec
  exact ⟨g, e', by rw [Engine.run_invoke prepared.holds.calm nonzero, ran]⟩

/-- A fault of an operand is the fault of the call. -/
theorem reaches_failed {i : Instruction} {decoded : DecodeCache} (proceeds : s.Proceeds floor)
    (found : s.code.decoded.decode s.memory s.pc = (.ok i, decoded)) (call : i.opcode.isCall = true)
    (goesOn : i.opcode ≠ .restart) {g : Fault} {t : Machine}
    (read : operandValues i (s.fetched decoded i) = .error g t) (bound : Nat) :
    S.Reaches floor (bound + 1) s bound s.pc (.error g t) := by
  have nowhere : s.calledAddress? = none := by simp [calledAddress?, found, call, read]
  have fails : Machine.execute i (s.fetched decoded i) = .error g t := by
    rw [execute_eq, wayOf_call call, bind_assoc, run_bind, read]
  have reaches := reaches_uncalled (S := S) proceeds found nowhere goesOn bound
  rwa [fails] at reaches

/-- A call to address 0 runs nothing and yields 0. -/
theorem reaches_nothing {i : Instruction} {decoded : DecodeCache} (proceeds : s.Proceeds floor)
    (found : s.code.decoded.decode s.memory s.pc = (.ok i, decoded)) (call : i.opcode.isCall = true)
    (goesOn : i.opcode ≠ .restart) {values : List Word} {t : Machine}
    (read : operandValues i (s.fetched decoded i) = .ok values t) (nonempty : 0 < values.length)
    (zero : values.getD 0 0 = 0) (bound : Nat) :
    S.Reaches floor (bound + 1) s bound s.pc (storeResult i.store 0 t) := by
  have nowhere : s.calledAddress? = none := by
    rw [calledAddress?_of_call found call read nonempty, if_pos zero]
  have reaches := reaches_uncalled (S := S) proceeds found nowhere goesOn bound
  rwa [execute_call call read nonempty, if_pos zero] at reaches

/-- A routine is asked for at an address: it is refused, or run. -/
theorem follows_address (ih : ∀ bound' < bound + 1, S.Simulates floor bound')
    (answers : S.AnswersCalls floor bound)
    (translates : S.Translates a entry r scope code pool) (stage : S.Stage floor nested a f fs)
    {i : Instruction} {rest : List Instruction} {step : CodeStep} {steps : List CodeStep}
    {next : Option Nat} (renders : scope.Renders pool (i :: rest) (step :: steps) next)
    (part : i :: rest <:+: r.instructions) (passes : step.action.endsBlock = false)
    {b : Nat} {args : List Word} {t : Machine} (nonzero : b ≠ 0) (called : S.called b)
    (few : args.length ≤ Helpers.maxArguments) (addressed : s.calledAddress? = some b)
    (proceeds : s.Proceeds floor) (compiled : S.Compiled floor s.stack.frames)
    (unchanged : S.Unchanged e.machine.memory)
    (level : Level (S.Ready pool) S.Holds i.next nested f fs (locals, e) t)
    (reaches : ¬S.Refuses floor s →
      S.Reaches floor (bound + 1) s bound s.pc (callRoutine b args i.store i.next t))
    (going : S.Going floor (bound + 1) s) (enough : bound + 1 ≤ blocks + 1) (deep : bound ≤ limit) :
    S.Follows floor nested (bound + 1) s f fs pool
      (flat (liftM (Engine.invoke (limit + 1) b args >>= Engine.resultOf) >>= fun w =>
        (Engine.helpers fun b args => Engine.invoke (limit + 1) b args).store i.store w >>= fun _ =>
        (Engine.helpers fun b args => Engine.invoke (limit + 1) b args).after code blocks steps next
          .next) (locals, e)) := by
  -- The engine refuses a routine before the call is made; the machine would go on to call it.
  by_cases refused : S.fate b = .refused
  · obtain ⟨g, e₁, ran⟩ :=
      run_refused level.kept.prepared unchanged called nonzero refused limit args
    rw [run_flat_bind, flat_lift]
    simp only [Bind.bind, EStateM.bind, ran]
    exact .refuses .start ⟨proceeds, compiled, b, addressed, refused⟩
  · have accepted : ¬S.Refuses floor s := by
      rintro ⟨-, -, b', called', refused'⟩
      rw [addressed] at called'
      cases called'
      exact refused refused'
    have below : S.Compiled floor t.stack.frames := level.frames ▸ stage.frames locals
    have above : floor ≤ t.stack.depth := by
      rw [CallStack.depth, level.frames, List.length_cons]
      exact Nat.le_succ_of_le stage.above
    exact follows_invoke ih translates stage renders part going enough (Nat.succ_le_succ deep)
      passes level (reaches accepted)
      (answers level.kept.prepared level.kept.running unchanged called nonzero refused
        (going.settles called) level.bare level.held few below above deep)

/-- A step that calls a routine. -/
theorem follows_call (ih : ∀ bound' < bound, S.Simulates floor bound')
    (answers : ∀ bound' < bound, S.AnswersCalls floor bound')
    (translates : S.Translates a entry r scope code pool) (stage : S.Stage floor nested a f fs)
    {i : Instruction} {rest : List Instruction} {step : CodeStep} {steps : List CodeStep}
    {next : Option Nat} (renders : scope.Renders pool (i :: rest) (step :: steps) next)
    (becomes : scope.Becomes pool i step) (part : i :: rest <:+: r.instructions)
    (call : i.opcode.isCall = true) {decoded : DecodeCache}
    (found : s.code.decoded.decode s.memory s.pc = (.ok i, decoded))
    (formed : i.Formed S.header.version) (proceeds : s.Proceeds floor)
    (level : Level (S.Ready pool) S.Holds i.next nested f fs (locals, e) (s.fetched decoded i))
    (going : S.Going floor bound s) (enough : bound ≤ blocks + 1) (deep : bound ≤ limit) :
    S.Follows floor nested bound s f fs pool
      (flat ((Engine.helpers fun b args => Engine.invoke limit b args).onward code blocks
        (step :: steps) next) (locals, e)) := by
  have callStep := Engine.becomes_call call becomes
  have goesOn : i.opcode ≠ .restart := by
    intro op
    rw [op] at call
    cases call
  have allows := (going.safe s .start proceeds).1
  have joint :=
    keeps_operands (fun b args => Engine.invoke limit b args) (S.lasting pool) i.operands
    (locals, e) (s.fetched decoded i) level
  -- The call itself takes one instruction, and leaves fewer for the routine that is called.
  obtain ⟨bound, rfl⟩ := Nat.exists_eq_succ_of_ne_zero (Nat.ne_of_gt going.positive)
  obtain ⟨limit, rfl⟩ := Nat.exists_eq_succ_of_ne_zero
    (Nat.ne_of_gt (Nat.lt_of_lt_of_le (Nat.succ_pos bound) deep))
  rw [Helpers.onward_cons, Helpers.step, callStep.operands, bind_assoc, run_flat_bind]
  change Joint _ _ _ (operandValues i (s.fetched decoded i)) at joint
  generalize flat (i.operands.mapM (Engine.helpers _).operand) (locals, e) = x at joint
  generalize read : operandValues i (s.fetched decoded i) = y at joint
  cases joint with
  | @error _ _ g' t blames =>
      obtain ⟨g, rfl, root⟩ := blames
      exact .fails root (reaches_failed proceeds found call goesOn read bound)
  | @ok values after _ t h =>
      obtain ⟨⟨rfl, fits⟩, level'⟩ := h
      obtain ⟨locals', e'⟩ := after
      have nonempty : 0 < values.length := fits.length ▸ callStep.nonempty
      have few : values.tail.length ≤ Helpers.maxArguments := by
        have count := formed.count
        rw [← fits.length] at count
        rw [List.length_tail, Helpers.maxArguments]
        omega
      have address := calledAddress?_of_call found call read nonempty
      have runs := execute_call call read nonempty
      have holds := level'.kept.prepared.holds
      dsimp only
      rw [callStep.act_bind fits (holds.header.trans translates.header.symm)]
      by_cases zero : values.getD 0 0 = 0
      · rw [Engine.callValue, if_pos zero]
        exact follows_store ih translates stage renders part going enough deep callStep.passes 0
          level' (reaches_nothing proceeds found call goesOn read nonempty zero bound)
      · have nonzero := routineAddress_ne_zero S.header zero
        have addressed : s.calledAddress? = some (S.header.routineAddress (values.getD 0 0)) := by
          have header : s.header = S.header := level.held.header
          rw [address, if_neg zero, header]
        have called := allows.called _ addressed
        have unchanged : S.Unchanged e'.machine.memory := by
          refine allows.unchanged.of_plain ?_
          have plain : t.memory.plain = e'.machine.memory.plain :=
            congrArg Machine.memory level'.bare
          rw [← plain, memory_operandValues read]
          rfl
        rw [Engine.callValue, if_neg zero, translates.header]
        have frames : s.stack.frames = { f with locals } :: fs := level.frames
        refine follows_address ih (answers bound (Nat.lt_succ_self bound)) translates stage
          renders part callStep.passes nonzero called few addressed proceeds
          (frames ▸ stage.frames locals) unchanged level' (fun accepted => ?_) going enough
          (Nat.le_of_succ_le_succ deep)
        have reaches := reaches_next proceeds found (not_strays found accepted goesOn) bound
        rw [runs, if_neg zero, level'.held.header] at reaches
        exact reaches

/-! ## Whole routines -/

/-- Compiled code follows the machine for one more instruction. -/
theorem simulates_of_less (ih : ∀ bound' < bound, S.Simulates floor bound')
    (answers : ∀ bound' < bound, S.AnswersCalls floor bound') : S.Simulates floor bound := by
  intro limit blocks nested a entry r scope code pool is steps next locals e s f fs translates stage
    renders part head level going enough deep
  obtain ⟨i, rest, step, tail, rfl, rfl, becomes⟩ := renders.head
  have member : i ∈ r.instructions := part.subset (by simp)
  have proceeds := proceeds_of_level level stage.above
  have allows := (going.safe s .start proceeds).1
  have pc : s.pc = i.address := (Option.some.inj head).symm
  -- The machine decodes the instruction that the first step was compiled from.
  obtain ⟨decoded, found, holds, formed⟩ :=
    translates.fetch member level.held allows.unchanged pc
  have level' : Level (S.Ready pool) S.Holds i.next nested f fs (locals, e) (s.fetched decoded i) :=
    ⟨level.bare, level.frames, rfl, level.nested, level.kept, holds⟩
  -- Calls use up the bound in another routine; all else is done within one step.
  by_cases call : i.opcode.isCall = true
  · exact follows_call ih answers translates stage renders becomes part call found formed proceeds
      level' going enough deep
  · by_cases quit : i.opcode = .quit
    · exact follows_quit becomes quit found proceeds level' going
    · have ordinary : Ordinary i := ⟨by simpa using call, quit, translates.translated i member,
        allows.table i (nextInstruction?_eq found)⟩
      exact follows_ordinary ih translates stage renders part going enough deep becomes
        ordinary found
        formed allows.unchanged proceeds level'

end Setting

end ZMachine
