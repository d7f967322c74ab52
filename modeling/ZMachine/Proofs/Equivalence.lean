/-
  Compiled and interpreted routines.

  Running a routine as compiled code comes to the same as interpreting it, as
  long as the bytes of the routines and the texts of the abbreviations stay.
  Where a routine cannot be compiled the interpreter takes over; a routine
  that cannot be read as a whole is refused, even where the interpreter would
  never come to what is wrong with it.
-/
import ZMachine.Proofs.Nesting
import ZMachine.Proofs.Takeover

namespace ZMachine

open Machine

/-! ## From the frames of a routine to the outside -/

namespace Setting

variable {S : Setting} {floor bound limit : Nat} {s : Machine}

/-- Running a routine by an engine, compared with running it by a machine that comes to the states
of `visited` in between. -/
inductive Compares (S : Setting) (floor : Nat) (visited : Machine → Prop) :
    EStateM.Result Halt Machine (Option Word) → EStateM.Result Halt Engine (Option Word) →
    Prop where
  | ok {result : Option Word} {t : Machine} {e : Engine} (bare : t.bare = e.machine.bare)
      (clean : ∀ u, visited u → ¬S.Refuses floor u) :
      Compares S floor visited (.ok result t) (.ok result e)
  | fault {g g' : Fault} {t : Machine} {e : Engine} (root : g'.root = g.root) :
      Compares S floor visited (.error (.fault g) t) (.error (.fault g') e)
  | refused {result : EStateM.Result Halt Machine (Option Word)} {g : Fault} {e : Engine}
      {u : Machine} (visits : visited u) (refuses : S.Refuses floor u) :
      Compares S floor visited result (.error (.fault g) e)

theorem Compares.congr {visited visited' : Machine → Prop}
    {x : EStateM.Result Halt Machine (Option Word)} {y : EStateM.Result Halt Engine (Option Word)}
    (h : S.Compares floor visited x y) (same : ∀ u, visited u ↔ visited' u) :
    S.Compares floor visited' x y := by
  cases h with
  | ok bare clean => exact .ok bare fun u visits => clean u ((same u).mpr visits)
  | fault root => exact .fault root
  | refused visits refuses => exact .refused ((same _).mp visits) refuses

/-- A run that has reached its end has not strayed. -/
theorem Reaches.never_strays {bound' old : Nat} {u : Machine}
    (reaches : S.Reaches floor bound s bound' old (.ok () u)) (ends : ¬u.Proceeds floor)
    {v : Machine} (visits : Visits floor s v) : ¬S.Strays floor v := by
  intro strays
  obtain ⟨w, same, later⟩ := reaches.clean v visits strays
  cases same
  have stopped : ¬(u.stepped old).Proceeds floor := ends
  rcases later.first with rfl | ⟨x, proceeds, -, -⟩
  · rcases strays with refuses | ⟨proceeds, -⟩
    · exact stopped refuses.proceeds
    · exact stopped proceeds
  · exact stopped proceeds

theorem not_restarts_of_not_strays (h : ∀ v, Visits floor s v → ¬S.Strays floor v) :
    ¬∃ u, Visits floor s u ∧ u.Proceeds floor ∧ u.Restarts := by
  rintro ⟨u, visits, proceeds, restarts⟩
  exact h u visits (.inr ⟨proceeds, restarts⟩)

section Ends

variable {fs : List Frame} {resume bound' old : Nat} (outside : 0 < s.nested)
  (going : S.Going fs.length bound s)

include outside

/-- A run that never strays ends as deeply nested as it began. -/
theorem nested_of_clean (bound : Nat) (clean : ∀ v, Visits fs.length s v → ¬S.Strays fs.length v) :
    ¬(endState (runToDepth fs.length bound s)).nested = 0 := by
  rw [nested_runToDepth bound (not_restarts_of_not_strays clean)]
  exact Nat.ne_of_gt outside

/-- A fault of the run is the fault that the caller sees. -/
theorem compares_failed {g g' : Fault} {e : Engine} {u : Machine} (root : g'.root = g.root)
    (reaches : S.Reaches fs.length bound s bound' old (.error g u)) :
    S.Compares fs.length (Visits fs.length s) (surfaced resume (runToDepth fs.length bound s))
      (.error (.fault g') e) := by
  have counted := nested_of_clean outside bound fun v visits strays => by
    obtain ⟨w, same, -⟩ := reaches.clean v visits strays
    cases same
  rw [reaches.failed, endState_error] at counted
  rw [reaches.failed, surfaced, if_neg counted]
  · exact .fault (root.trans (Fault.root_locate _ _).symm)
  · intro exhausted
    cases exhausted

include going

/-- The routine has returned, to nobody who wants the result. -/
theorem compares_returned {w : Word} {e : Engine} {t : Machine} (bare : t.bare = e.machine.bare)
    (frames : t.stack.frames = fs) (nested : t.nested = s.nested)
    (running : e.machine.state = .running) (last : t.lastReturn = some w)
    (reaches : S.Reaches fs.length bound s bound' old (.ok () t)) :
    S.Compares fs.length (Visits fs.length s) (surfaced resume (runToDepth fs.length bound s))
      (.ok (some w) e) := by
  obtain ⟨bound', rfl⟩ := Nat.exists_eq_succ_of_ne_zero
    (Nat.ne_of_gt (going.of_reaches reaches).positive)
  have low : (t.stepped old).stack.depth ≤ fs.length := Nat.le_of_eq (congrArg List.length frames)
  -- The run stops at once, for the frames are those that it was run above.
  have ends : runToDepth fs.length bound s = .ok () (t.stepped old) :=
    reaches.run.trans (runToDepth_low low bound')
  have counted : ¬(t.stepped old).nested = 0 := by
    have same : (t.stepped old).nested = s.nested := nested
    omega
  have goesOn : ¬(t.stepped old).state = .quit := by
    have state : (t.stepped old).state = .running := (state_of_bare bare).trans running
    simp [state]
  have last' : (t.stepped old).lastReturn = some w := last
  rw [ends, surfaced, if_neg counted, if_neg goesOn, last']
  refine .ok bare fun u visits refuses => ?_
  exact reaches.never_strays (fun proceeds => Nat.not_lt.mpr low proceeds.1) visits (.inl refuses)

/-- The story is over before the routine has returned. -/
theorem compares_quit {e : Engine} {u : Machine} (bare : u.bare = e.machine.bare)
    (ended : u.state = .quit) (reaches : S.Reaches fs.length bound s bound' old (.ok () u)) :
    S.Compares fs.length (Visits fs.length s) (surfaced resume (runToDepth fs.length bound s))
      (.ok none e) := by
  obtain ⟨bound', rfl⟩ := Nat.exists_eq_succ_of_ne_zero
    (Nat.ne_of_gt (going.of_reaches reaches).positive)
  have ended' : (u.stepped old).state = .quit := ended
  have ends : runToDepth fs.length bound s = .ok () (u.stepped old) :=
    reaches.run.trans (runToDepth_quit ended' bound')
  have stopped : ¬u.Proceeds fs.length := by
    intro proceeds
    rw [proceeds.2] at ended
    cases ended
  have counted := nested_of_clean outside bound fun v visits =>
    reaches.never_strays stopped visits
  rw [ends, endState_ok] at counted
  rw [ends, surfaced, if_neg counted, if_pos ended']
  exact .ok bare fun v visits refuses => reaches.never_strays stopped visits (.inl refuses)

end Ends

/-- How running a routine from outside ends is how the machine surfaces from it. -/
theorem Invoked.compares {f : Frame} {fs : List Frame} {pool : List String} {resume : Nat}
    {result : EStateM.Result Halt Engine (Option Word)}
    (h : S.Invoked fs.length bound s f fs pool result) (nothing : f.store = none)
    (outside : 0 < s.nested) (going : S.Going fs.length bound s) :
    S.Compares fs.length (Visits fs.length s) (surfaced resume (runToDepth fs.length bound s))
      result := by
  cases h with
  | @returns w e t bound' old bare frames pc nested ready holds last reaches =>
      have stored : storeResult f.store w t = .ok () t := by
        rw [nothing]
        rfl
      rw [stored] at reaches
      exact compares_returned outside going bare frames nested ready.running last reaches
  | quits bare ended reaches => exact compares_quit outside going bare ended reaches
  | fails root reaches => exact compares_failed outside root reaches
  | refuses visits refuses => exact .refused visits refuses

/-- Running a routine by an engine, whichever way its fate wants, compares with running it by the
machine of the engine. -/
theorem compares_invoke {e : Engine} {a : Nat} {args : List Word} (prepared : S.Prepared e)
    (running : e.machine.state = .running) (unchanged : S.Unchanged e.machine.memory)
    (called : S.called a) (nonzero : a ≠ 0) (accepted : S.fate a ≠ .refused)
    (settled : S.fate a = .interpreted → S.fallback = true)
    (few : args.length ≤ Helpers.maxArguments)
    (going : ∀ t, callRoutine a args none e.machine.pc e.machine = .ok () t →
      S.Going e.machine.stack.depth bound t.deeper) (deep : bound ≤ limit) :
    S.Compares e.machine.stack.depth
      (fun u => ∃ t, callRoutine a args none e.machine.pc e.machine = .ok () t ∧
        Visits e.machine.stack.depth t.deeper u)
      (runRoutine bound a args e.machine) (Engine.invoke (limit + 1) a args e) := by
  -- No frame lies beneath the routine that is run, so none of them has to be compiled.
  have compiled : S.Compiled e.machine.stack.depth e.machine.stack.frames := by
    intro f member
    rw [CallStack.depth, Nat.sub_self, List.take_zero] at member
    cases member
  have answers : S.Answers e.machine.stack.depth bound e.machine a args none e.machine.pc e.literals
      (Engine.invoke (limit + 1) a args e) :=
    (simulates_and_answers S _ bound).2 prepared running unchanged called nonzero accepted settled
      rfl prepared.holds few compiled (Nat.le_refl _) deep
  unfold Answers at answers
  -- Either the call itself fails, with the same fault on both sides, or the routine is entered.
  cases call : callRoutine a args none e.machine.pc e.machine with
  | error g t =>
      rw [call] at answers
      obtain ⟨g', e', ran, root⟩ := answers
      rw [runRoutine_of_uncalled nonzero call, ran]
      exact .fault root
  | ok _ t =>
      rw [call] at answers
      obtain ⟨defaults, nested, -, frames⟩ := callRoutine_ok call
      have effects : Effects false true e.machine
          (endState (callRoutine a args none e.machine.pc e.machine)) :=
        does_callRoutine a args none e.machine.pc e.machine
      rw [call] at effects
      have holds := prepared.holds.of_sheds (sheds_of_effects effects)
      -- The states that the run passes are those that lie above the call of this machine.
      have enters : S.Enters t t.deeper _ e.machine.stack.frames :=
        ⟨frames, rfl, rfl, rfl, Nat.succ_pos _, ⟨holds.header, holds.text, holds.drawn, holds.calm⟩⟩
      rw [runRoutine_of_called nonzero call]
      refine ((answers _ _ enters (going t call)).compares rfl (Nat.succ_pos _)
        (going t call)).congr
        fun u => ⟨fun visits => ⟨t, rfl, visits⟩, ?_⟩
      rintro ⟨t', same, visits⟩
      cases same
      exact visits

end Setting

/-! ## What is asked of a run -/

namespace Machine

/-- The routines that are called when the routine at `a` is run from outside. -/
def Calls (s : Machine) (a : Nat) (args : List Word) (b : Nat) : Prop :=
  b = a ∨ ∃ u, s.CarriesOut a args u ∧ u.calledAddress? = some b

/-- Instructions that are kept and routines that were found are those of the image. -/
structure Faithful (s : Machine) : Prop where
  version : s.code.decoded.version = s.header.version
  instructions : s.Coherent
  routines : ∀ a r, s.code.routines.get? a = some r →
    Routine.found? s.memory s.header.version a = some r

/-- What compiling reads of the machine. -/
def storyText (s : Machine) : StoryText :=
  { memory := s.memory, header := s.header, tables := s.text }

/-- The routine at an address runs as compiled code: it can be read, none of its instructions is
left to the interpreter, and compiling it succeeds. -/
def Translatable (s : Machine) (b : Nat) : Prop :=
  ∃ r, Routine.found? s.memory s.header.version b = some r ∧
    (Needs.scan r).interpreterOnly = none ∧
    ∃ code pool, compile s.storyText true r [] = .ok code pool

/-- The next instruction pulls from a stack that is kept in a table. -/
def PullsFromTable (s : Machine) : Prop :=
  ∃ i, s.nextInstruction? = some i ∧ i.opcode = .pull ∧ i.store.isSome = true ∧ i.operands ≠ []

/-- The same bytes, words on the stack, depth of calls, random numbers, streams and host. -/
structure Matches (t u : Machine) : Prop where
  memory : t.memory.bytes = u.memory.bytes
  words : t.stack.values = u.stack.values
  depth : t.stack.depth = u.stack.depth
  state : t.state = u.state
  random : t.random = u.random
  streams : t.streams = u.streams
  host : t.host = u.host

theorem matches_of_bare {t u : Machine} (same : t.bare = u.bare) : Matches t u where
  memory := by
    have memory : t.memory.plain.bytes = u.memory.plain.bytes :=
      congrArg (fun s => s.memory.bytes) same
    exact memory
  words := congrArg (fun s => s.values) (stack_bare same)
  depth := depth_of_bare same
  state := state_of_bare same
  random := by
    have random : t.bare.random = u.bare.random := congrArg Machine.random same
    exact random
  streams := by
    have streams : t.bare.streams = u.bare.streams := congrArg Machine.streams same
    exact streams
  host := by
    have host : t.bare.host = u.bare.host := congrArg Machine.host same
    exact host

end Machine

namespace Engine

/-- What the engine keeps for a routine is what it makes of it: compiled code was compiled from the
routine as it is, with its texts in the pool, and a routine is left to the interpreter for a
reason. -/
def Makes (e : Engine) (b : Nat) : Tier → Prop
  | .compiled code _ => ∃ r before after statistics,
      Routine.found? e.machine.memory e.machine.header.version b = some r ∧
      (e.fallback = true → (Needs.scan r).interpreterOnly = none) ∧
      compile e.machine.storyText true r before = .ok (code, statistics) after ∧
      after <+: e.literals
  | .interpreted => e.fallback = true ∧
      ∃ r, Routine.found? e.machine.memory e.machine.header.version b = some r ∧
        ((Needs.scan r).interpreterOnly.isSome = true ∨
          ∃ error pool, compile e.machine.storyText true r [] = .error error pool)

/-- Everything that the engine keeps is what it makes of the routines now, those that are known to
be stale apart.  An engine that keeps nothing is current. -/
def Current (e : Engine) : Prop :=
  ∀ (b : Nat) (tier : Tier), e.tiers[b]? = some tier →
    b ∈ e.machine.code.routines.stale ∨ e.Makes b tier

theorem current_of_empty {e : Engine} (empty : e.tiers = {}) : e.Current := by
  intro b tier kept
  simp [empty] at kept

end Engine

/-! ## The setting of a run -/

namespace Machine

variable {s : Machine} {fallback : Bool} {a : Nat} {args : List Word} {executed : Nat → Prop}

/-- The machine as it is before the routine at `a` is run: the bytes of the routines that are called
and those of `executed` are to stay. -/
def setting (s : Machine) (fallback : Bool) (a : Nat) (args : List Word) (executed : Nat → Prop) :
    Setting where
  image := s.memory
  header := s.header
  tables := s.text
  fallback := fallback
  steady x := (∃ b, s.Calls a args b ∧ b ≤ x ∧ x < Routine.readEnd s.memory s.header.version b) ∨
    executed x
  called b := b ≠ 0 ∧ s.Calls a args b
  covered b called _ low high := .inl ⟨b, called.2, low, high⟩

theorem unchanged_setting : (s.setting fallback a args executed).Unchanged s.memory :=
  ⟨.refl _ _, fun _ _ => rfl⟩

/-- The fate of a routine that can be read. -/
theorem fate_setting {b : Nat} {r : Routine}
    (found : Routine.found? s.memory s.header.version b = some r) :
    (s.setting fallback a args executed).fate b =
      if (Needs.scan r).interpreterOnly.isSome then .interpreted
      else
        match compile s.storyText true r [] with
        | .ok _ _ => .native r
        | .error _ _ => .interpreted := by
  have found' : Routine.found? (s.setting fallback a args executed).image
      (s.setting fallback a args executed).header.version b = some r := found
  rw [Setting.fate, found']
  rfl

theorem native_of_translatable {b : Nat} (h : s.Translatable b) :
    ∃ r, (s.setting fallback a args executed).fate b = .native r := by
  obtain ⟨r, found, translated, code, pool, compiled⟩ := h
  refine ⟨r, ?_⟩
  rw [fate_setting found, if_neg (by simp [translated]), compiled]

/-- A routine can be compiled whatever texts there are already. -/
theorem compile_of_compile {r : Routine} {before after : List String}
    {code : Code × CompileStatistics} (h : compile s.storyText true r before = .ok code after) :
    ∃ code pool, compile s.storyText true r [] = .ok code pool := by
  have same : (s.setting true 0 [] fun _ => False).Unchanged s.memory := unchanged_setting
  have together := Setting.together_compile same r before
  change Together _ _ _ (compile s.storyText true r [])
    (compile s.storyText true r before) at together
  rw [h] at together
  generalize compile s.storyText true r [] = result at together ⊢
  cases together with
  | ok _ => exact ⟨_, _, rfl⟩

theorem suits_of_makes {e : Engine} {b : Nat} {tier : Tier} (makes : e.Makes b tier)
    (translated : ∀ r, Routine.found? e.machine.memory e.machine.header.version b = some r →
      e.fallback = false → (Needs.scan r).interpreterOnly = none) :
    (e.machine.setting e.fallback a args executed).Suits e.literals b tier := by
  cases tier with
  | compiled code statistics =>
      obtain ⟨r, before, after, statistics, found, clean, compiled, grows⟩ := makes
      -- Only an engine that falls back interprets routines for their opcodes.
      have plain : (Needs.scan r).interpreterOnly = none := by
        cases fallback : e.fallback with
        | true => exact clean fallback
        | false => exact translated r found fallback
      obtain ⟨code', pool, fresh⟩ := compile_of_compile compiled
      refine ⟨r, ?_, e.machine.memory, before, after, statistics, fun _ => rfl, compiled, grows⟩
      rw [fate_setting found, if_neg (by simp [plain]), fresh]
  | interpreted =>
      obtain ⟨-, r, found, reason⟩ := makes
      change (e.machine.setting e.fallback a args executed).fate b = .interpreted
      rw [fate_setting found]
      rcases reason with left | ⟨error, pool, failed⟩
      · rw [if_pos left]
      · rw [failed]
        split <;> rfl

/-- An engine that is current is prepared for the run. -/
theorem prepared_setting {e : Engine} (faithful : e.machine.Faithful) (calm : e.machine.host.Calm)
    (current : e.Current)
    (translated : ∀ b, b ≠ 0 → e.machine.Calls a args b → ∀ r,
      Routine.found? e.machine.memory e.machine.header.version b = some r →
      e.fallback = false → (Needs.scan r).interpreterOnly = none) :
    (e.machine.setting e.fallback a args executed).Prepared e := by
  have drawn := faithful.instructions.drawn faithful.version
    (e.machine.setting e.fallback a args executed).steady
  refine ⟨⟨rfl, rfl, drawn, calm⟩, ⟨drawn, fun b _ r known => faithful.routines b r known⟩, rfl,
    fun b called tier kept => (current b tier kept).imp_right fun makes => ?_⟩
  exact suits_of_makes makes (translated b called.1 called.2)

/-! ## The states of a run -/

/-- The image keeps its size. -/
theorem size_step (s : Machine) : (endState (step s)).memory.size = s.memory.size := by
  rcases endState_step s with same | ⟨e, decoded, -, same⟩ | ⟨i, decoded, events, -, -, same⟩
  · rw [same]
  · rw [same]
  · rw [same]
    exact (sheds_of_effects (does_execute i (s.fetched decoded i))).size

theorem size_carriesOut {u : Machine} (h : s.CarriesOut a args u) :
    u.memory.size = s.memory.size := by
  obtain ⟨t, call, visits, -⟩ := h
  have effects : Effects false true s t := (does_callRoutine a args none s.pc).of_ok call
  rw [← (sheds_of_effects effects).size]
  induction visits with
  | start => rfl
  | @step u v _ _ ran ih =>
      have kept := size_step u
      rw [ran] at kept
      exact kept.trans ih

theorem calledAddress?_ne_zero {u : Machine} {b : Nat} (h : u.calledAddress? = some b) : b ≠ 0 := by
  unfold calledAddress? at h
  repeat' split at h
  all_goals cases h
  rename_i nonzero
  exact Setting.routineAddress_ne_zero _ nonzero

theorem Calls.ne_zero {b : Nat} (h : s.Calls a args b) (nonzero : a ≠ 0) : b ≠ 0 := by
  rcases h with rfl | ⟨u, -, called⟩
  · exact nonzero
  · exact calledAddress?_ne_zero called

/-- A run of a routine that keeps to the setting goes on as it should. -/
theorem going_setting {bound : Nat} {t : Machine} (nonzero : a ≠ 0)
    (call : callRoutine a args none s.pc s = .ok () t)
    (terminates : ∀ u, runRoutine bound a args s ≠ .error .exhausted u)
    (noTable : ∀ u, s.CarriesOut a args u → ¬u.PullsFromTable)
    (kept : ∀ u, s.CarriesOut a args u →
      (∀ x, (s.setting fallback a args executed).steady x → u.memory.byteAt x = s.memory.byteAt x) ∧
      ∀ n < TextTables.abbreviationCount, s.text.abbreviation u.memory n
        = s.text.abbreviation s.memory n)
    (settled : (s.setting fallback a args executed).Native ∨ fallback = true ∧
      (∀ u, s.CarriesOut a args u → (s.setting fallback a args executed).Tame u) ∧
      ∃ v u, runRoutine bound a args s = .ok v u) :
    (s.setting fallback a args executed).Going s.stack.depth bound t.deeper where
  safe u visits proceeds := by
    have carries : s.CarriesOut a args u := ⟨t, call, visits, proceeds⟩
    obtain ⟨bytes, texts⟩ := kept u carries
    refine ⟨⟨⟨⟨size_carriesOut carries, bytes⟩, texts⟩, fun b called => ?_,
      fun i next pulls => ?_⟩, ?_⟩
    · exact ⟨calledAddress?_ne_zero called, .inr ⟨u, carries, called⟩⟩
    · exact noTable u carries ⟨i, next, pulls⟩
    · exact settled.imp_right fun h => h.2.1 u carries
  finite u exhausted := by
    have run : runRoutine bound a args s = _ := runRoutine_of_called nonzero call
    rw [exhausted] at run
    exact terminates u run
  settled := settled.imp_right fun h => h.1
  -- A run that comes to a value has reached the end of the routine without a failure.
  smooth := by
    refine settled.imp_right fun h => ?_
    obtain ⟨-, -, v, u, ran⟩ := h
    rw [runRoutine_of_called nonzero call] at ran
    cases result : runToDepth s.stack.depth bound t.deeper with
    | ok _ w => exact ⟨w, rfl⟩
    | error e w =>
        rw [result] at ran
        unfold surfaced at ran
        split at ran
        · cases ran
        · split at ran <;> cases ran
        · simp_all

end Machine

/-! ## Runs without writes

Where a run changes no byte, what is asked of it can be read off the states that it passes. -/

namespace Machine

variable {s u : Machine} {a b bound : Nat} {args : List Word} {image : Array Byte}
  {options : MachineOptions} {host : Host}

/-- A run from outside carries out the instructions of its trail. -/
theorem CarriesOut.mem_trail (h : s.CarriesOut a args u) (nonzero : a ≠ 0)
    (terminates : ∀ t, runRoutine bound a args s ≠ .error .exhausted t) :
    u ∈ trail s.stack.depth bound (endState (callRoutine a args none s.pc s)).deeper := by
  obtain ⟨t, call, visits, proceeds⟩ := h
  rw [call]
  refine visits.mem_trail proceeds fun v exhausted => terminates v ?_
  rw [runRoutine_of_called nonzero call, exhausted]
  rfl

theorem byteAt_of_bytes {m m' : Memory} (same : m.bytes = m'.bytes) (x : Nat) :
    m.byteAt x = m'.byteAt x := by
  rw [Memory.byteAt, same, Memory.byteAt]

theorem abbreviation_of_bytes {m m' : Memory} (same : m.bytes = m'.bytes) (tables : TextTables)
    (n : Nat) : tables.abbreviation m n = tables.abbreviation m' n := by
  have plain : m.plain = m'.plain := congrArg Memory.ofBytes same
  have image (m : Memory) : tables.abbreviation m.plain n = tables.abbreviation m n :=
    congrFun (tables.lookup_abbreviation m) n
  rw [← image m, plain, image m']

/-- A story that was just loaded is faithful. -/
theorem faithful_load (h : load image options host = .ok s) : s.Faithful := by
  obtain ⟨header, text, -, -, begun⟩ := load_eq_ok h
  have sheds := sheds_of_effects ((does_begin header.version options).of_ok begun)
  obtain ⟨tidy, nothing⟩ := kept_load h
  refine ⟨tidy.1, fun b i kept => ?_, fun b r known => ?_⟩
  · simp [nothing b] at kept
  · rcases sheds.routines b with same | ⟨dropped, -⟩
    · rw [same] at known
      cases known
    · rw [dropped] at known
      cases known

theorem calm_load (h : load image options host = .ok s) (calm : host.Calm) : s.host.Calm := by
  obtain ⟨header, text, -, -, begun⟩ := load_eq_ok h
  exact (sheds_of_effects ((does_begin header.version options).of_ok begun)).calm calm

/-- Whether a routine is translatable can be computed. -/
theorem translatable_of_survey
    (h : (Routine.survey s.memory s.header.version b).map (fun r =>
      ((Needs.scan r).interpreterOnly, (value? (compile s.storyText true r [])).isSome)) =
        some (none, true)) : s.Translatable b := by
  rw [← Routine.found?_eq_survey] at h
  obtain ⟨r, found, same⟩ := Option.map_eq_some_iff.mp h
  rw [Prod.mk.injEq, Option.isSome_iff_exists] at same
  obtain ⟨translated, code, compiled⟩ := same
  exact ⟨r, found, translated, code, _, eq_ok_of_value? compiled⟩

end Machine

/-! ## Compiled routines -/

namespace Engine

theorem invoke_zero {e : Engine} (calm : e.machine.host.Calm) (limit : Nat) (args : List Word) :
    invoke (limit + 1) 0 args e = .ok (some 0) e := by
  have quiet : ¬e.machine.host.interrupted = true := by simp [calm.2]
  rw [invoke]
  simp only [Bind.bind, EStateM.bind, run_get, quiet,
    if_false, Bool.false_eq_true, if_true]
  rfl

/-- Running a routine whose calls all have compiled code comes to what interpreting it comes to. -/
theorem invoke_eq_runRoutine {e : Engine} {a bound limit : Nat} {args : List Word}
    (current : e.Current) (faithful : e.machine.Faithful) (running : e.machine.state = .running)
    (calm : e.machine.host.Calm) (few : args.length ≤ Helpers.maxArguments)
    (terminates : ∀ u, runRoutine bound a args e.machine ≠ .error .exhausted u)
    (native : ∀ b, e.machine.Calls a args b → b ≠ 0 → e.machine.Translatable b)
    (noTable : ∀ u, e.machine.CarriesOut a args u → ¬u.PullsFromTable)
    (routines : ∀ u, e.machine.CarriesOut a args u → ∀ b r, e.machine.Calls a args b →
      Routine.found? e.machine.memory e.machine.header.version b = some r →
      ∀ x, b ≤ x → x < r.stop → u.memory.byteAt x = e.machine.memory.byteAt x)
    (abbreviations : ∀ u, e.machine.CarriesOut a args u → ∀ n < TextTables.abbreviationCount,
      e.machine.text.abbreviation u.memory n = e.machine.text.abbreviation e.machine.memory n)
    (enough : bound < limit) :
    match runRoutine bound a args e.machine with
    | .ok result t => ∃ e', invoke limit a args e = .ok result e' ∧ t.Matches e'.machine
    | .error halt _ => ∃ g g' e', halt = .fault g ∧ invoke limit a args e = .error (.fault g') e' ∧
        g'.root = g.root := by
  obtain ⟨limit, rfl⟩ := Nat.exists_eq_succ_of_ne_zero (Nat.ne_of_gt (Nat.zero_lt_of_lt enough))
  by_cases zero : a = 0
  · rw [zero, runRoutine_zero, invoke_zero calm]
    exact ⟨e, rfl, matches_of_bare rfl⟩
  -- Every routine that is called has compiled code, so nothing is refused on the way.
  · have compiled : (e.machine.setting e.fallback a args fun _ => False).Native :=
      fun b called => native_of_translatable (native b called.2 called.1)
    obtain ⟨r, fate⟩ := compiled a ⟨zero, .inl rfl⟩
    have prepared : (e.machine.setting e.fallback a args fun _ => False).Prepared e := by
      refine prepared_setting faithful calm current fun b nonzero calls r found _ => ?_
      obtain ⟨r', found', translated, -⟩ := native b calls nonzero
      cases found.symm.trans found'
      exact translated
    have compares :=
      Setting.compares_invoke prepared running unchanged_setting ⟨zero, .inl rfl⟩ zero
      (by simp [fate]) (by simp [fate]) few
      (fun t call => going_setting zero call terminates noTable ?_ (.inl compiled))
      (Nat.le_of_lt_succ enough)
    · generalize runRoutine bound a args e.machine = x at compares ⊢
      generalize invoke (limit + 1) a args e = y at compares ⊢
      cases compares with
      | ok bare _ => exact ⟨_, rfl, matches_of_bare bare⟩
      | fault root => exact ⟨_, _, _, rfl, rfl, root⟩
      -- Refusing is excluded: what was refused is a routine that is called.
      | refused visits refuses =>
          obtain ⟨t, call, visits⟩ := visits
          obtain ⟨b, called, refused⟩ := refuses.called
          have carries : e.machine.CarriesOut a args _ := ⟨t, call, visits, refuses.proceeds⟩
          obtain ⟨r, fate⟩ := compiled b ⟨calledAddress?_ne_zero called, .inr ⟨_, carries, called⟩⟩
          rw [fate] at refused
          cases refused
    -- The bytes that are to stay are those of the routines that are called.
    · intro u carries
      refine ⟨fun x steady => ?_, abbreviations u carries⟩
      rcases steady with ⟨b, calls, low, high⟩ | ⟨⟨⟩⟩
      obtain ⟨r, found, -⟩ := native b calls (calls.ne_zero zero)
      rw [Routine.readEnd_eq_stop found] at high
      exact routines u carries b r calls found x low high

/-- An image with a routine at 72 that returns what the one at 78 returns, which is 7. -/
def passesOn : Array Byte :=
  overwrite (overwrite (overwrite (Array.replicate 84 0)
    0 [3, 0, 0, 0, 0, 0, 0, 64, 0, 0, 0, 0, 0, 0, 255, 255])
    72 [0, 0xe0, 0x7f, 39, 0, 0xb8]) 78 [0, 0x9b, 7]

/-- The machine after this story was loaded. -/
@[irreducible] def passing : Machine := (load passesOn {} {}).toOption.getD default

theorem invoke_eq_runRoutine_seven :
    ∃ t e', runRoutine 9 72 [] passing = .ok (some 7) t ∧
      invoke 10 72 [] { machine := passing } = .ok (some 7) e' ∧ t.Matches e'.machine := by
  have loaded : load passesOn {} {} = .ok passing := by
    unfold passing
    exact Except.eq_ok_getD _ (by decide +kernel)
  have running : passing.state = .running := by decide +kernel
  obtain ⟨t, ran⟩ : ∃ t, runRoutine 9 72 [] passing = .ok (some 7) t :=
    ⟨_, eq_ok_of_value? (by decide +kernel)⟩
  have terminates (u : Machine) : runRoutine 9 72 [] passing ≠ .error .exhausted u := by simp [ran]
  -- All that is asked of the states on the way is read off the trail of the run, once.
  have passed : ∀ u ∈ trail passing.stack.depth 9
      (endState (callRoutine 72 [] none passing.pc passing)).deeper,
      u.memory.bytes = passing.memory.bytes ∧ u.nextInstruction?.map (·.opcode) ≠ some .pull ∧
        (u.calledAddress? = none ∨ u.calledAddress? = some 78) := by decide +kernel
  have along {u : Machine} (carries : passing.CarriesOut 72 [] u) :=
    passed u (carries.mem_trail (by decide) terminates)
  have enough : 9 < 10 := by decide
  have compared := invoke_eq_runRoutine (e := { machine := passing }) (current_of_empty rfl)
    (faithful_load loaded) running (calm_load loaded ⟨rfl, rfl⟩) (Nat.zero_le _) terminates
    ?_ ?_ ?_ ?_ enough
  · rw [ran] at compared
    obtain ⟨e', invoked, same⟩ := compared
    exact ⟨t, e', ran, invoked, same⟩
  · rintro b (rfl | ⟨u, carries, called⟩) -
    · exact translatable_of_survey (by decide +kernel)
    · rcases (along carries).2.2 with nowhere | target
      · cases nowhere.symm.trans called
      · cases target.symm.trans called
        exact translatable_of_survey (by decide +kernel)
  · rintro u carries ⟨i, next, pulls, -⟩
    exact (along carries).2.1 (by simp [next, pulls])
  · exact fun u carries b r _ _ x _ _ => byteAt_of_bytes (along carries).1 x
  · exact fun u carries n _ => abbreviation_of_bytes (along carries).1 _ n

end Engine

/-! ## Where the interpreter takes over -/

namespace Machine

variable {s : Machine} {a : Nat} {args : List Word}

/-- A byte that running the routine at `a` takes for code: reading a routine that is called looks at
it, or it belongs to an instruction that is carried out. -/
def CodeByte (s : Machine) (a : Nat) (args : List Word) (x : Nat) : Prop :=
  (∃ b, s.Calls a args b ∧ b ≤ x ∧ x < Routine.readEnd s.memory s.header.version b) ∨
    ∃ u i, s.CarriesOut a args u ∧ u.nextInstruction? = some i ∧ u.pc ≤ x ∧ x < i.next

/-- The routine itself cannot be read as a whole, or it comes, by way of compiled routines alone, to
call one that cannot. -/
def Unreadable (s : Machine) (a : Nat) (args : List Word) : Prop :=
  a ≠ 0 ∧ ∃ b, Routine.found? s.memory s.header.version b = none ∧
    (b = a ∨ ∃ u, s.CarriesOut a args u ∧ u.calledAddress? = some b ∧
      ∀ f ∈ u.stack.frames.take (u.stack.depth - s.stack.depth), s.Translatable f.address)

theorem translatable_of_native {fallback : Bool} {executed : Nat → Prop} {b : Nat} {r : Routine}
    (h : (s.setting fallback a args executed).fate b = .native r) : s.Translatable b := by
  obtain ⟨found, translated⟩ := Setting.found_of_native _ h
  have found : Routine.found? s.memory s.header.version b = some r := found
  rw [fate_setting found, if_neg (by simp [translated])] at h
  cases compiled : compile s.storyText true r [] with
  | ok code pool => exact ⟨r, found, translated, code, pool, compiled⟩
  | error e pool =>
      rw [compiled] at h
      cases h

/-- Where compiled code is refused is where the routine is unreadable. -/
theorem refuses_iff {fallback : Bool} {executed : Nat → Prop} {u : Machine}
    (carries : s.CarriesOut a args u) :
    (s.setting fallback a args executed).Refuses s.stack.depth u ↔
      ∃ b, Routine.found? s.memory s.header.version b = none ∧ u.calledAddress? = some b ∧
        ∀ f ∈ u.stack.frames.take (u.stack.depth - s.stack.depth), s.Translatable f.address := by
  have refused (b : Nat) : (s.setting fallback a args executed).fate b = .refused ↔
      Routine.found? s.memory s.header.version b = none := Setting.refused_iff _
  constructor
  · rintro ⟨-, compiled, b, called, fate⟩
    refine ⟨b, (refused b).mp fate, called, fun f member => ?_⟩
    obtain ⟨r, native⟩ := compiled f member
    exact translatable_of_native native
  · rintro ⟨b, missing, called, compiled⟩
    obtain ⟨t, call, visits, proceeds⟩ := carries
    exact ⟨proceeds, fun f member => native_of_translatable (compiled f member), b, called,
      (refused b).mpr missing⟩

/-- A routine that returns a value was begun while the machine was running. -/
theorem running_of_runRoutine {bound : Nat} {w : Word} {t : Machine} (nonzero : a ≠ 0)
    (ran : runRoutine bound a args s = .ok (some w) t) : s.state = .running := by
  obtain ⟨entered, u, call, -, low, visits, -⟩ := runRoutine_some nonzero ran
  have state := state_of_callRoutine call
  rcases visits.first with rfl | ⟨v, proceeds, -, -⟩
  · obtain ⟨defaults, -, -, frames⟩ := callRoutine_ok call
    have deeper : entered.deeper.stack.depth = s.stack.depth + 1 := by
      rw [deeper, CallStack.depth, frames, List.length_cons, CallStack.depth]
    omega
  · exact state.symm.trans proceeds.2

/-- The setting of a run that leaves everything alone that it takes for code. -/
def codeSetting (s : Machine) (fallback : Bool) (a : Nat) (args : List Word) : Setting :=
  s.setting fallback a args fun x =>
    ∃ u i, s.CarriesOut a args u ∧ u.nextInstruction? = some i ∧ u.pc ≤ x ∧ x < i.next

end Machine

namespace Engine

theorem prepared_codeSetting {e : Engine} (fallback : e.fallback = true) (current : e.Current)
    (faithful : e.machine.Faithful) (calm : e.machine.host.Calm) (a : Nat) (args : List Word) :
    (e.machine.codeSetting e.fallback a args).Prepared e := by
  refine prepared_setting faithful calm current fun b _ _ r _ without => ?_
  rw [fallback] at without
  cases without

/-- A routine that cannot be read is not run, even with the interpreter to take over. -/
theorem invoke_unread {e : Engine} (fallback : e.fallback = true) (current : e.Current)
    (faithful : e.machine.Faithful) (calm : e.machine.host.Calm) {a : Nat} (nonzero : a ≠ 0)
    (missing : Routine.found? e.machine.memory e.machine.header.version a = none) (limit : Nat)
    (args : List Word) : ∃ g e', invoke (limit + 1) a args e = .error (.fault g) e' :=
  Setting.run_refused (prepared_codeSetting fallback current faithful calm a args)
    unchanged_setting ⟨nonzero, .inl rfl⟩ nonzero ((Setting.refused_iff _).mpr missing) limit args

/-- With the interpreter to take over, a routine that returns a value when it is interpreted returns
it when it is run by the engine, exactly if compiled code does not come to call a routine that
cannot be read. -/
theorem invoke_fallback {e : Engine} {a bound limit : Nat} {args : List Word} {w : Word}
    {t : Machine}
    (fallback : e.fallback = true) (current : e.Current) (faithful : e.machine.Faithful)
    (calm : e.machine.host.Calm) (few : args.length ≤ Helpers.maxArguments)
    (ran : runRoutine bound a args e.machine = .ok (some w) t)
    (noTable : ∀ u, e.machine.CarriesOut a args u → ¬u.PullsFromTable)
    (linear : ∀ u, e.machine.CarriesOut a args u → ∀ i, u.nextInstruction? = some i →
      i.opcode ≠ .throwFrame ∧ i.opcode ≠ .restart)
    (code : ∀ u, e.machine.CarriesOut a args u → ∀ x, e.machine.CodeByte a args x →
      u.memory.byteAt x = e.machine.memory.byteAt x)
    (abbreviations : ∀ u, e.machine.CarriesOut a args u → ∀ n < TextTables.abbreviationCount,
      e.machine.text.abbreviation u.memory n = e.machine.text.abbreviation e.machine.memory n)
    (enough : bound < limit) :
    (¬e.machine.Unreadable a args ∧
        ∃ e', invoke limit a args e = .ok (some w) e' ∧ t.Matches e'.machine) ∨
      (e.machine.Unreadable a args ∧ ∃ g e', invoke limit a args e = .error (.fault g) e') := by
  obtain ⟨limit, rfl⟩ := Nat.exists_eq_succ_of_ne_zero (Nat.ne_of_gt (Nat.zero_lt_of_lt enough))
  by_cases zero : a = 0
  · subst zero
    rw [runRoutine_zero] at ran
    cases ran
    exact .inl ⟨fun h => h.1 rfl, e, invoke_zero calm limit args, matches_of_bare rfl⟩
  have unchanged : (e.machine.codeSetting e.fallback a args).Unchanged e.machine.memory :=
    unchanged_setting
  have refused : (e.machine.codeSetting e.fallback a args).fate a = .refused ↔
      Routine.found? e.machine.memory e.machine.header.version a = none := Setting.refused_iff _
  by_cases missing : Routine.found? e.machine.memory e.machine.header.version a = none
  · exact .inr ⟨⟨zero, a, missing, .inl rfl⟩,
      invoke_unread fallback current faithful calm zero missing limit args⟩
  -- Instructions that were read are carried out as they were read, so nothing is stray.
  have going (t' : Machine) (call : callRoutine a args none e.machine.pc e.machine = .ok () t') :
      (e.machine.codeSetting e.fallback a args).Going e.machine.stack.depth bound t'.deeper := by
    refine going_setting zero call (by simp [ran]) noTable
      (fun u carries => ⟨code u carries, abbreviations u carries⟩)
      (.inr ⟨fallback, ?_, some w, t, ran⟩)
    exact fun u carries =>
      ⟨fun i next x low high => .inr ⟨u, i, carries, next, low, high⟩, linear u carries⟩
  have compares := Setting.compares_invoke
    (prepared_codeSetting fallback current faithful calm a args) (running_of_runRoutine zero ran)
    unchanged ⟨zero, .inl rfl⟩ zero (fun h => missing (refused.mp h)) (fun _ => fallback) few going
    (Nat.le_of_lt_succ enough)
  rw [ran] at compares
  generalize invoke (limit + 1) a args e = y at compares ⊢
  cases compares with
  -- A run that went through called no routine that cannot be read.
  | ok bare clean =>
      refine .inl ⟨?_, _, rfl, matches_of_bare bare⟩
      rintro ⟨-, b, missing', rfl | ⟨u, carries, called, compiled⟩⟩
      · exact missing missing'
      · obtain ⟨t', call, visits, -⟩ := id carries
        exact clean u ⟨t', call, visits⟩ ((refuses_iff carries).mpr ⟨b, missing', called, compiled⟩)
  -- What stopped it is such a routine, and only compiled routines lead to it.
  | refused visits refuses =>
      obtain ⟨t', call, visits⟩ := visits
      have carries : e.machine.CarriesOut a args _ := ⟨t', call, visits, refuses.proceeds⟩
      obtain ⟨b, missing', called, compiled⟩ := (refuses_iff carries).mp refuses
      exact .inr ⟨⟨zero, b, missing', .inr ⟨_, carries, called, compiled⟩⟩, _, _, rfl⟩

/-- An image with a routine at 72 that returns what the one at 80 returns, which is left to the
interpreter: it asks for the number of frames. -/
def asksDepth : Array Byte :=
  overwrite (overwrite (overwrite (Array.replicate 84 0)
    0 [5, 0, 0, 0, 0, 0, 0, 64, 0, 0, 0, 0, 0, 0, 255, 255])
    72 [0, 0xe0, 0x3f, 0, 20, 0, 0xb8]) 80 [0, 0xb9, 0, 0xb8]

/-- The machine after this story was loaded. -/
@[irreducible] def asking : Machine := (load asksDepth {} {}).toOption.getD default

theorem invoke_fallback_depth :
    ∃ t e', runRoutine 9 72 [] asking = .ok (some 3) t ∧
      invoke 10 72 [] { machine := asking } = .ok (some 3) e' ∧ t.Matches e'.machine := by
  have loaded : load asksDepth {} {} = .ok asking := by
    unfold asking
    exact Except.eq_ok_getD _ (by decide +kernel)
  obtain ⟨t, ran⟩ : ∃ t, runRoutine 9 72 [] asking = .ok (some 3) t :=
    ⟨_, eq_ok_of_value? (by decide +kernel)⟩
  -- All that is asked of the states on the way is read off the trail of the run, once.
  have passed : ∀ u ∈ trail asking.stack.depth 9
      (endState (callRoutine 72 [] none asking.pc asking)).deeper,
      u.memory.bytes = asking.memory.bytes ∧
        (∀ o ∈ u.nextInstruction?.map (·.opcode), o ≠ .pull ∧ o ≠ .throwFrame ∧ o ≠ .restart) ∧
        (u.calledAddress? = none ∨ u.calledAddress? = some 80) := by decide +kernel
  have readable : Routine.survey asking.memory asking.header.version 72 ≠ none ∧
      Routine.survey asking.memory asking.header.version 80 ≠ none := by decide +kernel
  have along {u : Machine} (carries : asking.CarriesOut 72 [] u) :=
    passed u (carries.mem_trail (by decide) (by simp [ran]))
  have enough : 9 < 10 := by decide
  have answered := invoke_fallback (e := { machine := asking }) rfl (current_of_empty rfl)
    (faithful_load loaded) (calm_load loaded ⟨rfl, rfl⟩) (Nat.zero_le _) ran ?_ ?_ ?_ ?_ enough
  · rcases answered with ⟨-, e', invoked, same⟩ | ⟨⟨-, b, missing, called⟩, -⟩
    · exact ⟨t, e', ran, invoked, same⟩
    · rw [Routine.found?_eq_survey] at missing
      rcases called with rfl | ⟨u, carries, called, -⟩
      · exact absurd missing readable.1
      · rcases (along carries).2.2 with nowhere | target
        · cases nowhere.symm.trans called
        · cases target.symm.trans called
          exact absurd missing readable.2
  · rintro u carries ⟨i, next, pulls, -⟩
    exact ((along carries).2.1 i.opcode (by simp [next])).1 pulls
  · exact fun u carries i next => ((along carries).2.1 i.opcode (by simp [next])).2
  · exact fun u carries x _ => byteAt_of_bytes (along carries).1 x
  · exact fun u carries n _ => abbreviation_of_bytes (along carries).1 _ n

/-- An image with a routine that returns 1 with its first instruction; reading on after it
runs off the image. -/
def runsOff : Array Byte :=
  overwrite
    (overwrite (Array.replicate 80 0) 0 [3, 0, 0, 0, 0, 0, 0, 64, 0, 0, 0, 0, 0, 0, 255, 255])
    72 [0, 0x90, 0, 0xc1]

/-- The machine after this story was loaded. -/
@[irreducible] def runningOff : Machine := (load runsOff {} {}).toOption.getD default

/-- Not every routine that returns a value when it is interpreted returns it when it is run by an
engine, even with the interpreter to take over. -/
theorem exists_unanswered :
    ¬∀ (e : Engine) (a bound limit : Nat) (args : List Word) (w : Word) (t : Machine),
      e.fallback = true → e.Current → e.machine.Faithful → e.machine.host.Calm →
      args.length ≤ Helpers.maxArguments → runRoutine bound a args e.machine = .ok (some w) t →
      (∀ u, e.machine.CarriesOut a args u → u.memory.bytes = e.machine.memory.bytes ∧
        ∀ i, u.nextInstruction? = some i →
          i.opcode ≠ .pull ∧ i.opcode ≠ .throwFrame ∧ i.opcode ≠ .restart ∧ i.opcode ≠ .random) →
      bound < limit → ∃ e', invoke limit a args e = .ok (some w) e' := by
  intro complete
  have loaded : load runsOff {} {} = .ok runningOff := by
    unfold runningOff
    exact Except.eq_ok_getD _ (by decide +kernel)
  have faithful := faithful_load loaded
  have calm := calm_load loaded ⟨rfl, rfl⟩
  obtain ⟨t, ran⟩ : ∃ t, runRoutine 9 72 [] runningOff = .ok (some 1) t :=
    ⟨_, eq_ok_of_value? (by decide +kernel)⟩
  have passed : ∀ u ∈ trail runningOff.stack.depth 9
      (endState (callRoutine 72 [] none runningOff.pc runningOff)).deeper,
      u.memory.bytes = runningOff.memory.bytes ∧
        ∀ o ∈ u.nextInstruction?.map (·.opcode),
          o ≠ .pull ∧ o ≠ .throwFrame ∧ o ≠ .restart ∧ o ≠ .random := by decide +kernel
  obtain ⟨e, invoked⟩ :=
    complete { machine := runningOff } 72 9 10 [] 1 t rfl (current_of_empty rfl)
    faithful calm (Nat.zero_le _) ran (fun u carries => by
      obtain ⟨bytes, opcodes⟩ := passed u (carries.mem_trail (by decide) (by simp [ran]))
      exact ⟨bytes, fun i next => opcodes i.opcode (by simp [next])⟩) (by decide)
  -- Reading the routine to its end runs off the image, though running it does not.
  have missing : Routine.found? runningOff.memory runningOff.header.version 72 = none := by
    rw [Routine.found?_eq_survey]
    decide +kernel
  obtain ⟨g, e', failed⟩ :=
    invoke_unread (e := { machine := runningOff }) rfl (current_of_empty rfl)
    faithful calm (by decide) missing 9 []
  cases failed.symm.trans invoked

end Engine

end ZMachine
