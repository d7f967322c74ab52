/-
  Coherence of the kept instructions.

  The kept instructions are coherent if each of them is what a fresh decoding
  of the present image gives.  Writes of the story drop what they overlap and
  keep coherence.  Opcodes that change objects, print into tables or fill
  buffers write to the image and drop nothing: they keep coherence as long as
  they spoil no kept instruction, and that they do not is all that coherence
  asks for.
-/
import ZMachine.Proofs.Decoding
import ZMachine.Proofs.Effects
import ZMachine.Proofs.Runs

namespace ZMachine

/-! ## Decoding through the cache -/

namespace DecodeCache

/-- Every kept instruction is what the image holds at its address. -/
def Coherent (c : DecodeCache) (m : Memory) : Prop :=
  ∀ (a : Nat) (i : Instruction), c.kept[a]? = some i → ZMachine.decode m c.version a = .ok i

/-- No instruction below the floor is kept. -/
def AboveFloor (c : DecodeCache) : Prop :=
  ∀ (a : Nat) (i : Instruction), c.kept[a]? = some i → c.floor ≤ a

/-- Decoding keeps at most the instruction that it decoded. -/
theorem kept_decode {c c' : DecodeCache} {m : Memory} {a x : Nat} {i : Instruction}
    {r : Except ImageError Instruction} (h : c.decode m a = (r, c'))
    (kept : c'.kept[x]? = some i) :
    c.kept[x]? = some i ∨ x = a ∧ c.floor ≤ a ∧ ZMachine.decode m c.version a = .ok i := by
  unfold decode at h
  split at h
  · cases h
    exact .inl kept
  · rename_i above
    split at h
    · cases h
      exact .inl kept
    · split at h
      · rename_i j hj
        cases h
        -- What is decoded is kept under its own address.
        rw [Std.HashMap.getElem?_insert] at kept
        split at kept
        · rename_i hax
          cases kept
          exact .inr ⟨(beq_iff_eq.mp hax).symm, Nat.not_lt.mp above, hj⟩
        · exact .inl kept
      · cases h
        exact .inl kept

theorem version_decode {c c' : DecodeCache} {m : Memory} {a : Nat}
    {r : Except ImageError Instruction} (h : c.decode m a = (r, c')) :
    c'.version = c.version ∧ c'.floor = c.floor := by
  unfold decode at h
  repeat' split at h
  all_goals
    cases h
    exact ⟨rfl, rfl⟩

/-- A coherent cache decodes as if there were none. -/
theorem Coherent.decode {c : DecodeCache} {m : Memory} (h : c.Coherent m) (a : Nat) :
    (c.decode m a).1 = ZMachine.decode m c.version a := by
  unfold DecodeCache.decode
  split
  · rfl
  · split
    · rename_i i hi
      exact (h a i hi).symm
    · split <;> simp_all

theorem Coherent.of_decode {c c' : DecodeCache} {m : Memory} {a : Nat}
    {r : Except ImageError Instruction} (h : c.Coherent m) (hd : c.decode m a = (r, c')) :
    c'.Coherent m := by
  intro x i kept
  rw [(version_decode hd).1]
  rcases kept_decode hd kept with old | ⟨rfl, -, new⟩
  · exact h x i old
  · exact new

theorem AboveFloor.of_decode {c c' : DecodeCache} {m : Memory} {a : Nat}
    {r : Except ImageError Instruction} (h : c.AboveFloor) (hd : c.decode m a = (r, c')) :
    c'.AboveFloor := by
  intro x i kept
  rw [(version_decode hd).2]
  rcases kept_decode hd kept with old | ⟨rfl, new, -⟩
  · exact h x i old
  · exact new

end DecodeCache

namespace Machine

/-- The kept instructions are what the image holds. -/
def Coherent (s : Machine) : Prop := s.code.decoded.Coherent s.memory

/-- A write of the story drops the kept instructions that it could change. -/
theorem Coherent.of_effect {control : Bool} {s s' : Machine} (h : s.Coherent)
    (above : s.code.decoded.AboveFloor) (effect : Effect false control s s') : s'.Coherent := by
  cases effect with
  | quiet | control => exact h
  | raw _ permitted => cases permitted
  | reload =>
      intro a i kept
      simp [DecodeCache.clear] at kept
  | store a bs fits near =>
      intro x i kept
      have version : (s.code.invalidate a bs.length).decoded.version = s.code.decoded.version := by
        simp only [CodeIndex.invalidate]
        split <;> rfl
      rw [version]
      -- Either the write was looked at, and the instruction lies apart from it, or it ends below
      -- the floor, and with it below all that is kept.
      have apart : s.code.decoded.kept[x]? = some i ∧ (a + bs.length ≤ x ∨ i.next ≤ a) := by
        simp only [CodeIndex.invalidate] at kept
        split at kept
        · obtain ⟨kept, apart⟩ := DecodeCache.kept_invalidate kept
          exact ⟨kept, by omega⟩
        · have := above x i kept
          exact ⟨kept, by omega⟩
      have decoded := h x i apart.1
      obtain ⟨-, -, inside, -⟩ := decode_spec decoded
      refine decode_congr decoded (by rwa [Memory.size_commit]) fun y low high => ?_
      exact Memory.byteAt_commit_of_outside _ (by omega)

theorem Sheds.aboveFloor {s s' : Machine} (h : s.Sheds s') (above : s.code.decoded.AboveFloor) :
    s'.code.decoded.AboveFloor := fun a i kept => h.floor ▸ above a i (h.kept a i kept)

theorem Coherent.of_effects {control : Bool} {s s' : Machine} (h : s.Coherent)
    (above : s.code.decoded.AboveFloor) (effects : Effects false control s s') : s'.Coherent := by
  induction effects with
  | refl => exact h
  | tail before last ih => exact ih.of_effect ((sheds_of_effects before).aboveFloor above) last

/-! ## Spoiling -/

/-- Between `s` and `s'`, an instruction that is kept in `s'` went out of date. -/
def Spoils (s s' : Machine) : Prop :=
  ∃ (a : Nat) (i : Instruction), s'.code.decoded.kept[a]? = some i ∧
    decode s.memory s.code.decoded.version a = .ok i ∧
    decode s'.memory s.code.decoded.version a ≠ .ok i

/-- Whatever sheds kept instructions and spoils none keeps coherence. -/
theorem Coherent.of_sheds {s t : Machine} (h : s.Coherent) (sheds : s.Sheds t)
    (unspoiled : ¬s.Spoils t) : t.Coherent := by
  intro a i kept
  rw [sheds.version]
  refine Classical.byContradiction fun changed => ?_
  exact unspoiled ⟨a, i, kept, h a i (sheds.kept a i kept), changed⟩

theorem Coherent.not_spoils {s s' : Machine} (h : s'.Coherent)
    (version : s'.code.decoded.version = s.code.decoded.version) : ¬s.Spoils s' := by
  rintro ⟨a, i, kept, -, changed⟩
  exact changed (version ▸ h a i kept)

/-- What has to be known of the cache besides coherence. -/
structure Tidy (s : Machine) : Prop where
  version : s.code.decoded.version = s.header.version
  above : s.code.decoded.AboveFloor

theorem Tidy.of_sheds {s s' : Machine} (h : s.Tidy) (sheds : s.Sheds s') : s'.Tidy where
  version := by rw [sheds.version, sheds.header, h.version]
  above := sheds.aboveFloor h.above

/-- Where a step leads: nowhere if the machine is not running or nothing can be decoded, apart from
the count of events and attempts, and else where the instruction leads. -/
theorem endState_step (s : Machine) :
    endState (step s) = s ∨
      (∃ e decoded, s.code.decoded.decode s.memory s.pc = (.error e, decoded) ∧
        endState (step s) =
          { s with events := s.events.emit (.stepping s.pc), code := { s.code with decoded } }) ∨
      (∃ i decoded events, s.state = .running ∧
        s.code.decoded.decode s.memory s.pc = (.ok i, decoded) ∧
        endState (step s) = { endState (execute i (s.fetched decoded i)) with events }) := by
  -- A step is told of before anything is read, so the count of events changes even if it fails.
  by_cases running : s.state = .running
  · right
    rcases hd : s.code.decoded.decode s.memory s.pc with ⟨r, decoded⟩
    cases r with
    | error e =>
        rw [step_of_undecoded running hd]
        exact .inl ⟨e, decoded, rfl, rfl⟩
    | ok i =>
        rw [step_of_decoded running hd]
        right
        cases hx : execute i (s.fetched decoded i) with
        | error e t => exact ⟨i, decoded, t.events, running, rfl, by simp [hx]⟩
        | ok _ t => exact ⟨i, decoded, (t.stepped s.pc).events, running, rfl, by rw [hx]; rfl⟩
  · left
    simp only [Machine.step, Bind.bind, EStateM.bind, run_get]
    cases hstate : s.state with
    | running => exact absurd hstate running
    | quit => rfl
    | awaiting request => rfl

theorem version_step (s : Machine) :
    (endState (step s)).code.decoded.version = s.code.decoded.version := by
  rcases endState_step s with same | ⟨e, decoded, hd, same⟩ | ⟨i, decoded, events, -, hd, same⟩
  · rw [same]
  · rw [same]
    exact (DecodeCache.version_decode hd).1
  · rw [same]
    exact (sheds_of_effects (does_execute i _)).version.trans (DecodeCache.version_decode hd).1

theorem Tidy.step {s : Machine} (h : s.Tidy) : (endState (step s)).Tidy := by
  rcases endState_step s with same | ⟨e, decoded, hd, same⟩ | ⟨i, decoded, events, -, hd, same⟩
  · rwa [same]
  · rw [same]
    exact ⟨(DecodeCache.version_decode hd).1.trans h.version, h.above.of_decode hd⟩
  · have fetched : (s.fetched decoded i).Tidy :=
      ⟨(DecodeCache.version_decode hd).1.trans h.version, h.above.of_decode hd⟩
    have := fetched.of_sheds (sheds_of_effects (does_execute i _))
    rw [same]
    exact ⟨this.version, this.above⟩

/-- A step keeps coherence, unless it spoils a kept instruction by an untracked write. -/
theorem Coherent.step {s : Machine} (h : s.Coherent) (tidy : s.Tidy)
    (unspoiled : ∀ i, s.state = .running → s.nextInstruction? = some i →
      i.opcode.writesUntracked → ¬s.Spoils (endState (step s))) :
    (endState (step s)).Coherent := by
  rcases endState_step s with
    same | ⟨e, decoded, hd, same⟩ | ⟨i, decoded, events, running, hd, same⟩
  · rwa [same]
  · rw [same]
    exact DecodeCache.Coherent.of_decode h hd
  · have version : (s.fetched decoded i).code.decoded.version = s.code.decoded.version :=
      (DecodeCache.version_decode hd).1
    have fetched : (s.fetched decoded i).Coherent := DecodeCache.Coherent.of_decode h hd
    have effects := does_execute i (s.fetched decoded i)
    have next := nextInstruction?_eq hd
    -- By whether the instruction may write without dropping what was decoded.
    cases untracked : i.opcode.writesUntracked with
    | true =>
        have := unspoiled i running next untracked
        rw [same] at this ⊢
        refine fetched.of_sheds (t := endState (execute i (s.fetched decoded i)))
          (sheds_of_effects effects) ?_
        rintro ⟨a, j, kept, old, changed⟩
        exact this ⟨a, j, kept, version ▸ old, version ▸ changed⟩
    | false =>
        rw [untracked] at effects
        rw [same]
        have := fetched.of_effects (tidy.above.of_decode hd) effects
        exact this

/-! ## Reachable states -/

variable (image : Array Byte) (options : MachineOptions) (host : Host)

/-- States in which the machine is found between operations from outside: it was loaded, and after
that carried out steps, ran routines to their ends and was given input, in any order.  The host may
do what it likes. -/
inductive Reachable : Machine → Prop where
  | loaded {s : Machine} (h : load image options host = .ok s) : Reachable s
  | hosted {s : Machine} (h : Reachable s) (host' : Host) : Reachable { s with host := host' }
  | step {s : Machine} (h : Reachable s) : Reachable (endState (Machine.step s))
  | routine {s : Machine} (h : Reachable s) (bound a : Nat) (args : List Word)
      (terminates : ∀ t, runRoutine bound a args s ≠ .error .exhausted t) :
      Reachable (endState (runRoutine bound a args s))
  | line {s : Machine} (h : Reachable s) (line : String) :
      Reachable (endState (provideLine line s))
  | char {s : Machine} (h : Reachable s) (c : Char) : Reachable (endState (provideChar c s))

/-- States in which an instruction may be carried out: the reachable ones, and those between two
instructions of a routine that is run from outside. -/
inductive Occurs : Machine → Prop where
  | outside {s : Machine} (h : Reachable image options host s) : Occurs s
  | inside {s t u : Machine} {a : Nat} {args : List Word} (h : Reachable image options host s)
      (nonzero : a ≠ 0) (called : callRoutine a args none s.pc s = .ok () t)
      (visits : Visits s.stack.depth t.deeper u) (proceeds : u.Proceeds s.stack.depth) : Occurs u

/-- No untracked write of an instruction, and no line of input, puts a kept instruction out of
date. -/
def Unspoiled : Prop :=
  ∀ s, Occurs image options host s →
    (∀ i, s.state = .running → s.nextInstruction? = some i → i.opcode.writesUntracked →
      ¬s.Spoils (endState (Machine.step s))) ∧
    ∀ line, Reachable image options host s → ¬s.Spoils (endState (provideLine line s))

variable {image options host}

theorem does_provideLine (line : String) : Does true true (provideLine line) := by
  refine Leads.get.bind fun s => ?_
  split
  · refine (does_setState _).bind fun _ => (OnValues.finishLine _ _ _).does.bind fun _ => ?_
    exact closedWriting_does.storeResult _ _
  · exact .throw _

theorem does_provideChar {raw : Bool} (c : Char) : Does raw true (provideChar c) := by
  refine Leads.get.bind fun s => ?_
  split
  · refine (does_setState _).bind fun _ => (OnValues.finishChar _).does.bind fun _ => ?_
    exact closedWriting_does.storeResult _ _
  · exact .throw _

theorem does_begin (version : Nat) (o : MachineOptions) :
    Does true true (inMemory (describeInterpreter version o) >>= fun _ => start) :=
  (does_inMemory (tame_describeInterpreter _ _).size).bind fun _ => does_start

/-- The machine that a story is loaded into, before it begins. -/
def blank (image : Array Byte) (options : MachineOptions) (host : Host) (header : Header)
    (text : TextTables) : Machine :=
  { memory := .ofBytes image, header, options, text, host
    pristine := image
    objects := .ofHeader (.ofBytes image) header
    code := {
      decoded := { version := header.version, floor := header.staticMemoryBase.toNat }
      routines := { main := header.mainRoutine } }
    stack := { capacity := options.stackSize }
    random := .start options.seed options.entropy }

theorem load_eq_ok {s : Machine} (h : load image options host = .ok s) :
    ∃ header text, Header.read (.ofBytes image) = .ok header ∧
      TextTables.read (.ofBytes image) header = .ok text ∧
      (inMemory (describeInterpreter header.version options) >>= fun _ => start)
        (blank image options host header text) = .ok () s := by
  -- Only the faults of reading the image are lifted.
  have lifted {α : Type} {x : Except ImageError α} {a : α}
      (h : (liftM x : Except Fault α) = .ok a) : x = .ok a := by
    cases x with
    | ok b =>
        cases h
        rfl
    | error e => cases h
  simp only [load, Bind.bind, Except.bind] at h
  split at h
  · cases h
  split at h
  · cases h
  rename_i header read _ text read'
  split at h
  · rename_i begun
    cases h
    exact ⟨header, text, lifted read, lifted read', begun⟩
  · cases h

/-- A story that was just loaded keeps no instruction. -/
theorem kept_load {s : Machine} (h : load image options host = .ok s) :
    s.Tidy ∧ ∀ a : Nat, s.code.decoded.kept[a]? = none := by
  obtain ⟨header, text, -, -, begun⟩ := load_eq_ok h
  have sheds := sheds_of_effects ((does_begin header.version options).of_ok begun)
  have unkept (a : Nat) : s.code.decoded.kept[a]? = none := by
    cases kept : s.code.decoded.kept[a]? with
    | none => rfl
    | some i => simpa [blank] using sheds.kept a i kept
  refine ⟨⟨by rw [sheds.version, sheds.header, blank], fun a i kept => ?_⟩, unkept⟩
  simp [unkept a] at kept

/-- Every state that a run visits is coherent, if those are from which it goes on are unspoiled. -/
theorem coherent_visits (unspoiled : Unspoiled image options host) {floor : Nat} {s t : Machine}
    (occurs : ∀ u, Visits floor s u → u.Proceeds floor → Occurs image options host u)
    (tidy : s.Tidy) (coherent : s.Coherent) (h : Visits floor s t) : t.Tidy ∧ t.Coherent := by
  -- Along the run: every step starts from a coherent state and spoils nothing.
  induction h with
  | start => exact ⟨tidy, coherent⟩
  | @step t u visits proceeds ran ih =>
      have here := (unspoiled t (occurs t visits proceeds)).1
      have tidy := ih.1.step
      have coherent := ih.2.step ih.1 here
      rw [ran] at tidy coherent
      exact ⟨tidy, coherent⟩

/-- Whoever runs a routine from outside finds the machine as the run left it, but for the program
counter and the count of such runs. -/
theorem endState_surfaced (resume : Nat) (r : EStateM.Result Halt Machine Unit) :
    ∃ pc nested, endState (surfaced resume r) = { endState r with pc, nested } := by
  unfold surfaced
  repeat' split
  all_goals exact ⟨_, _, rfl⟩

/-- What holds along every effect, and takes no notice of kept instructions, of events, of the
program counter and of the count of routines run from outside. -/
structure Persists (R : Machine → Machine → Prop) : Prop where
  effects : ∀ s t, Effects true true s t → R s t
  beside : ∀ (s : Machine) (decoded : DecodeCache) (events : EventLog) (pc nested : Nat),
    R s { s with code := { s.code with decoded }, events, pc, nested }

namespace Persists

variable {R : Machine → Machine → Prop}

theorem of_does (persists : Persists R) {raw control : Bool} {α : Type} {x : MachineM α}
    (does : Does raw control x) : Leads R x :=
  fun s => persists.effects s _ ((does s).mono (fun _ => rfl) fun _ => rfl)

variable [IsPreorder Machine R]

theorem step (persists : Persists R) : Leads R step := by
  intro s
  rcases endState_step s with same | ⟨e, decoded, -, same⟩ | ⟨i, decoded, events, -, -, same⟩
  · rw [same]
    exact refl_of R s
  · rw [same]
    exact persists.beside s decoded _ s.pc s.nested
  · have fetched : R s (s.fetched decoded i) := persists.beside s decoded _ i.next s.nested
    have executed := persists.of_does (does_execute i) (s.fetched decoded i)
    have told := persists.beside (endState (execute i (s.fetched decoded i)))
      (endState (execute i (s.fetched decoded i))).code.decoded events
      (endState (execute i (s.fetched decoded i))).pc
      (endState (execute i (s.fetched decoded i))).nested
    rw [same]
    exact trans_of R (trans_of R fetched executed) told

theorem visits (persists : Persists R) {floor : Nat} {s t : Machine} (visits : Visits floor s t) :
    R s t := by
  induction visits with
  | start => exact refl_of R s
  | step _ _ ran ih => exact trans_of R ih (persists.step.of_ok ran)

theorem runRoutine (persists : Persists R) (bound a : Nat) (args : List Word) :
    Leads R (runRoutine bound a args) := by
  intro s
  by_cases zero : a = 0
  · rw [zero, runRoutine_zero]
    exact refl_of R s
  have does : Does false true (callRoutine a args none s.pc) := does_callRoutine a args none s.pc
  have entered := persists.of_does does s
  cases call : callRoutine a args none s.pc s with
  | error g t =>
      rw [runRoutine_of_uncalled zero call]
      rwa [call] at entered
  | ok _ t =>
      rw [call] at entered
      have begun : R s t.deeper :=
        trans_of R entered (persists.beside t t.code.decoded t.events t.pc (t.nested + 1))
      -- Every machine that the run visits is related, and so is the one at which it ends.
      have along (u : Machine) (seen : Visits s.stack.depth t.deeper u) : R s u :=
        trans_of R begun (persists.visits seen)
      have ended : R s (endState (runToDepth s.stack.depth bound t.deeper)) :=
        endState_runToDepth_of bound along fun u seen _ =>
          trans_of R (along u seen) (persists.step u)
      obtain ⟨pc, nested, same⟩ := endState_surfaced s.pc (runToDepth s.stack.depth bound t.deeper)
      rw [runRoutine_of_called zero call, same]
      exact trans_of R ended (persists.beside _ _ _ pc nested)

end Persists

/-- A routine run from outside keeps coherence. -/
theorem coherent_routine (unspoiled : Unspoiled image options host) {s : Machine}
    (reachable : Reachable image options host s) (tidy : s.Tidy) (coherent : s.Coherent)
    (bound a : Nat) (args : List Word) :
    (endState (runRoutine bound a args s)).Tidy ∧
    (endState (runRoutine bound a args s)).Coherent := by
  by_cases nonzero : a = 0
  · subst nonzero
    exact ⟨tidy, coherent⟩
  have effects : Effects false true s _ := does_callRoutine a args none s.pc s
  have tidy := tidy.of_sheds (sheds_of_effects effects)
  have coherent := coherent.of_effects ‹s.Tidy›.above effects
  -- The call itself writes nothing, and the run is made of steps.
  cases hcall : callRoutine a args none s.pc s with
  | error e t =>
      rw [hcall] at tidy coherent
      rw [runRoutine_of_uncalled nonzero hcall]
      exact ⟨tidy, coherent⟩
  | ok _ t =>
      rw [hcall] at tidy coherent
      rw [runRoutine_of_called nonzero hcall]
      obtain ⟨u, visits, ends⟩ := runToDepth_ends s.stack.depth bound t.deeper
      have occurs (u : Machine) (visits : Visits s.stack.depth t.deeper u)
          (proceeds : u.Proceeds s.stack.depth) : Occurs image options host u :=
        .inside reachable nonzero hcall visits proceeds
      have held := coherent_visits unspoiled occurs ⟨tidy.version, tidy.above⟩ coherent visits
      generalize runToDepth s.stack.depth bound t.deeper = result at ends
      obtain ⟨pc, nested, surface⟩ := endState_surfaced s.pc result
      rw [surface]
      cases ends with
      | exhausted | awaiting | done => exact ⟨⟨held.1.version, held.1.above⟩, held.2⟩
      | @failed e v proceeds failed =>
          have tidy := held.1.step
          have coherent := held.2.step held.1 (unspoiled u (occurs u visits proceeds)).1
          rw [failed] at tidy coherent
          exact ⟨⟨tidy.version, tidy.above⟩, coherent⟩

theorem coherent_reachable (unspoiled : Unspoiled image options host) {s : Machine}
    (h : Reachable image options host s) : s.Tidy ∧ s.Coherent := by
  -- By the last operation from outside.
  induction h with
  | loaded h =>
      obtain ⟨tidy, unkept⟩ := kept_load h
      exact ⟨tidy, fun a i kept => by simp [unkept a] at kept⟩
  | hosted _ host' ih => exact ⟨⟨ih.1.version, ih.1.above⟩, ih.2⟩
  | step reachable ih => exact ⟨ih.1.step, ih.2.step ih.1 (unspoiled _ (.outside reachable)).1⟩
  | routine reachable bound a args _ ih =>
      exact coherent_routine unspoiled reachable ih.1 ih.2 bound a args
  | @line s reachable line ih =>
      have sheds := sheds_of_effects (does_provideLine line s)
      refine ⟨ih.1.of_sheds sheds, ih.2.of_sheds sheds ?_⟩
      exact (unspoiled _ (.outside reachable)).2 line reachable
  | @char s reachable c ih =>
      have effects : Effects false true s _ := does_provideChar c s
      exact ⟨ih.1.of_sheds (sheds_of_effects effects), ih.2.of_effects ih.1.above effects⟩

theorem coherent_occurs (unspoiled : Unspoiled image options host) {s : Machine}
    (h : Occurs image options host s) : s.Tidy ∧ s.Coherent := by
  cases h with
  | outside reachable => exact coherent_reachable unspoiled reachable
  | @inside s t _ a args reachable nonzero called visits proceeds =>
      obtain ⟨tidy, coherent⟩ := coherent_reachable unspoiled reachable
      have effects : Effects false true s t := (does_callRoutine a args none s.pc).of_ok called
      have tidy' := tidy.of_sheds (sheds_of_effects effects)
      have coherent' := coherent.of_effects tidy.above effects
      have deeper : t.deeper.Tidy ∧ t.deeper.Coherent := ⟨⟨tidy'.version, tidy'.above⟩, coherent'⟩
      refine coherent_visits unspoiled (fun u visits proceeds => ?_) deeper.1 deeper.2 visits
      exact .inside reachable nonzero called visits proceeds

/-- After an instruction inside of a routine that is run from outside, the machine is found in a
state with the same image and the same kept instructions. -/
theorem occurs_after {u : Machine} (h : Occurs image options host u) :
    ∃ t, Occurs image options host t ∧ t.memory = (endState (Machine.step u)).memory ∧
      t.code = (endState (Machine.step u)).code := by
  cases h with
  | outside reachable => exact ⟨_, .outside reachable.step, rfl, rfl⟩
  | @inside s t _ a args reachable nonzero called visits proceeds =>
      -- The run reaches `u` after some instructions; one more tells how it goes on.
      have ended {r : EStateM.Result Halt Machine Unit} {k : Nat} {v : Machine}
          (visits : Visits s.stack.depth t.deeper v)
          (run : runToDepth s.stack.depth k v = r) (ends : ∀ w, r ≠ .error .exhausted w) :
          ∃ w, Occurs image options host w ∧ w.memory = (endState r).memory ∧
            w.code = (endState r).code := by
        obtain ⟨n, hn⟩ := visits.run
        have whole : runRoutine (n + k) a args s = _ := runRoutine_of_called nonzero called
        rw [hn, run] at whole
        refine ⟨_, .outside (.routine reachable (n + k) a args fun w hw => ?_), ?_⟩
        · exact ends w (surfaced_exhausted (whole.symm.trans hw))
        · obtain ⟨pc, nested, surface⟩ := endState_surfaced s.pc r
          rw [whole, surface]
          exact ⟨rfl, rfl⟩
      cases hstep : Machine.step u with
      | error e v =>
          have run : runToDepth s.stack.depth 1 u = .error (.fault e) v := by
            rw [runToDepth_step proceeds, hstep]
          exact ended visits run (by simp)
      | ok _ v =>
          have onward := visits.step proceeds hstep
          by_cases more : v.Proceeds s.stack.depth
          · exact ⟨v, .inside reachable nonzero called onward more, rfl, rfl⟩
          · rcases runToDepth_stops more 0 with run | run
            · exact ended onward run (by simp)
            · exact ended onward run (by simp)

/-- The kept instructions are what the image holds, in every state and for every step, exactly if no
untracked write spoils one of them. -/
theorem coherent_iff_unspoiled :
    (∀ s, Occurs image options host s →
      s.Coherent ∧
        (s.code.decoded.decode s.memory s.pc).1 = decode s.memory s.header.version s.pc) ↔
      Unspoiled image options host := by
  constructor
  · intro coherent s occurs
    refine ⟨fun i _ _ _ => ?_, fun line reachable => ?_⟩
    · obtain ⟨t, occurs', memory, code⟩ := occurs_after occurs
      have after : (endState (Machine.step s)).Coherent := by
        have := (coherent t occurs').1
        rwa [Coherent, memory, code] at this
      exact after.not_spoils (version_step s)
    · have after := (coherent _ (.outside (reachable.line line))).1
      exact after.not_spoils (sheds_of_effects (does_provideLine line s)).version
  · intro unspoiled s occurs
    obtain ⟨tidy, coherent⟩ := coherent_occurs unspoiled occurs
    refine ⟨coherent, ?_⟩
    rw [← tidy.version]
    exact DecodeCache.Coherent.decode coherent s.pc

/-! ## A story that spoils a kept instruction -/

/-- An image whose only object has its attributes on the first instruction. -/
def attributesOnCode : Array Byte :=
  overwrite (overwrite (Array.replicate 80 0) 0 [3, 0, 0, 0, 0, 0, 0, 64, 0, 0, 0, 2]) 64
    [0x0b, 1, 0]

/-- Its first instruction: the object gets the attribute whose bit is the top bit of the opcode. -/
def settingOwnBit : Instruction :=
  { address := 64, length := 3, opcode := .setAttr, operands := [.small 1, .small 0]
    store := none, branch := none, text := none }

theorem execute_settingOwnBit (s : Machine) :
    (endState (execute settingOwnBit s)).code = s.code ∧
      (endState (execute settingOwnBit s)).memory
        = endState (s.objects.setAttribute 1 0 true s.memory) := by
  have run : execute settingOwnBit s = ((inMemory (s.objects.setAttribute 1 0 true) >>=
      fun _ => pure Outcome.done) >>= fun o => apply settingOwnBit o) s := rfl
  rw [run, run_bind, run_bind, run_inMemory]
  cases s.objects.setAttribute 1 0 true s.memory <;> exact ⟨rfl, rfl⟩

/-- What the machine looks like after this story is loaded. -/
theorem load_attributesOnCode {s : Machine} (h : load attributesOnCode {} {} = .ok s) :
    s.pc = 64 ∧ s.state = .running ∧ s.code.decoded.floor = 0 ∧ s.code.decoded.version = 3 ∧
      decode s.memory 3 64 = .ok settingOwnBit ∧
      decode (endState (s.objects.setAttribute 1 0 true s.memory)) 3 64 ≠ .ok settingOwnBit := by
  have at_ok {α : Type} {x : Except Fault Machine} {f : Machine → α} {v : α}
      (hx : x.toOption.map f = some v) (ok : x = .ok s) : f s = v := by
    subst ok
    exact Option.some.inj hx
  have ofOption {x : Except ImageError Instruction} {i : Instruction} :
      x.toOption = some i ↔ x = .ok i := by cases x <;> simp [Except.toOption]
  refine ⟨at_ok (f := fun s => s.pc) (by decide +kernel) h,
    at_ok (f := fun s => s.state) (by decide +kernel) h,
    at_ok (f := fun s => s.code.decoded.floor) (by decide +kernel) h,
    at_ok (f := fun s => s.code.decoded.version) (by decide +kernel) h,
    ofOption.mp (at_ok (f := fun s => (decode s.memory 3 64).toOption) (by decide +kernel) h), ?_⟩
  have changed := at_ok (x := load attributesOnCode {} {}) (v := true)
    (f := fun s =>
      decide ((decode (endState (s.objects.setAttribute 1 0 true s.memory)) 3 64).toOption
      ≠ some settingOwnBit)) (by decide +kernel) h
  exact fun same => of_decide_eq_true changed (ofOption.mpr same)

/-- Not every reachable machine keeps only what its image holds. -/
theorem exists_incoherent :
    ¬∀ image options host s, Occurs image options host s → s.Coherent := by
  intro coherent
  obtain ⟨s, h⟩ : ∃ s, load attributesOnCode {} {} = .ok s :=
    ⟨_, Except.eq_ok_getD default (by decide +kernel)⟩
  obtain ⟨pc, running, floor, version, before, after⟩ := load_attributesOnCode h
  have fresh := (kept_load h).2 64
  obtain ⟨decoded, fetched, kept, version'⟩ : ∃ decoded : DecodeCache,
      s.code.decoded.decode s.memory s.pc = (.ok settingOwnBit, decoded) ∧
        decoded.kept[64]? = some settingOwnBit ∧ decoded.version = 3 := by
    simp [DecodeCache.decode, pc, floor, fresh, version, before]
  obtain ⟨code, memory⟩ := execute_settingOwnBit (s.fetched decoded settingOwnBit)
  -- The instruction is kept when it is carried out, and sets an attribute in its own bytes, of
  -- which the cache is not told.
  have stepped := coherent _ _ _ _ (.outside (Reachable.loaded h).step)
  rw [step_of_decoded running fetched] at stepped
  cases hx : execute settingOwnBit (s.fetched decoded settingOwnBit) with
  | error e t | ok _ t =>
      rw [hx] at stepped code memory
      rw [endState] at code memory
      have kept' : t.code.decoded.kept[64]? = some settingOwnBit := by rw [code]; exact kept
      have holds : decode t.memory t.code.decoded.version 64 = .ok settingOwnBit :=
        stepped 64 settingOwnBit kept'
      rw [code, memory] at holds
      exact after (version' ▸ holds)

end Machine
end ZMachine
