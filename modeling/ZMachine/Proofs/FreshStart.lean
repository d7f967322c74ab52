/-
  A fresh start.

  Whatever a story does, and whatever is done to its machine from outside, the
  image as it was loaded, the header as it was read and the settings stay.
  From these alone a story begins anew.  So it never fails to, and is then as
  if it had just been loaded, but for two flags of the header.
-/
import ZMachine.Proofs.Waiting

namespace ZMachine

open Engine (invoke)

/-! ## What stays of a story -/

namespace Machine

/-- Machines of one story: the image as it was loaded and what was read from it, and the settings.
The present image has kept its size. -/
structure SameStory (s t : Machine) : Prop where
  size : t.memory.size = s.memory.size
  pristine : t.pristine = s.pristine
  header : t.header = s.header
  options : t.options = s.options
  objects : t.objects = s.objects
  text : t.text = s.text
  capacity : t.stack.capacity = s.stack.capacity

theorem SameStory.refl (s : Machine) : s.SameStory s := ⟨rfl, rfl, rfl, rfl, rfl, rfl, rfl⟩

theorem SameStory.trans {s t u : Machine} (h : s.SameStory t) (h' : t.SameStory u) :
    s.SameStory u where
  size := h'.size.trans h.size
  pristine := h'.pristine.trans h.pristine
  header := h'.header.trans h.header
  options := h'.options.trans h.options
  objects := h'.objects.trans h.objects
  text := h'.text.trans h.text
  capacity := h'.capacity.trans h.capacity

instance : IsPreorder Machine SameStory where
  refl := .refl
  trans _ _ _ := .trans

theorem Roomy.of_sameStory {s t : Machine} (roomy : s.Roomy) (same : s.SameStory t) : t.Roomy where
  header := same.size ▸ roomy.header
  pristine := by rw [same.pristine, same.size, roomy.pristine]

theorem sameStory_of_effect {raw control : Bool} {s t : Machine} (effect : Effect raw control s t) :
    s.SameStory t := by
  cases effect with
  | quiet | control => exact ⟨rfl, rfl, rfl, rfl, rfl, rfl, rfl⟩
  | store a bs => exact ⟨Memory.size_commit _ a bs, rfl, rfl, rfl, rfl, rfl, rfl⟩
  | raw _ _ size | reload _ _ size => exact ⟨size, rfl, rfl, rfl, rfl, rfl, rfl⟩

theorem persists_sameStory : Persists SameStory where
  effects s t effects := by
    induction effects with
    | refl => exact .refl s
    | tail _ last ih => exact ih.trans (sameStory_of_effect last)
  beside _ _ _ _ _ := ⟨rfl, rfl, rfl, rfl, rfl, rfl, rfl⟩

end Machine

open Machine

theorem sameStory_restart : Leads SameStory restart := by
  have does : Does true true restart := does_restart
  exact persists_sameStory.of_does does

theorem MachineOperation.sameStory (o : MachineOperation) : Leads SameStory o.run := by
  -- Whether decoded instructions are dropped makes no difference here.
  have does {α : Type} {x : MachineM α} (raw : Bool) (h : Does raw true x) : Leads SameStory x :=
    persists_sameStory.of_does h
  have values {α : Type} {x : MachineM α} (h : OnValues true x) : Leads SameStory x :=
    does true h.does
  cases o with
  | step => exact persists_sameStory.step
  | line text => exact does true (does_provideLine text)
  | key c => exact does true (does_provideChar c)
  | call a args returnAddress => exact does true (does_callRoutine a args none returnAddress)
  | enter a args => exact does true (does_enterCompiled a args)
  | leave w => exact does true (does_leaveCompiled w)
  | push w => exact values (.push w)
  | pop => exact values .pop
  | peek => exact values .peek
  | replaceTop w => exact values (.replaceTop w)
  | readGlobal i => exact values (.readGlobal i)
  | writeGlobal i w => exact values (.writeGlobal i w)
  | perform opcode args => exact values (.performed opcode args)
  | print text => exact values (.print text)
  | readLine textBuffer parseBuffer =>
      exact values (Engine.onValues_readLine textBuffer parseBuffer)
  | readKey => exact values Engine.onValues_readChar
  | quit => exact does true does_quit

namespace Engine

variable {α : Type}

/-- An engine keeps to one story. -/
def SameStory (e e' : Engine) : Prop := e.machine.SameStory e'.machine

instance : IsPreorder Engine SameStory where
  refl e := .refl e.machine
  trans _ _ _ := Machine.SameStory.trans

theorem sameStory_onMachine {x : RunM α} (h : Leads Machine.SameStory x) :
    Leads SameStory (onMachine x) := by
  intro e
  rw [SameStory, machine_onMachine]
  exact h e.machine

theorem sameStory_operation (o : MachineOperation) : Leads SameStory (act o.run) := by
  intro e
  rw [SameStory, machine_act]
  exact o.sameStory e.machine

theorem sameStory_modify {f : Engine → Engine} (h : ∀ e, (f e).machine = e.machine) :
    Leads SameStory (modify f : EngineM PUnit) := by
  refine .modified fun e => ?_
  rw [SameStory, h]
  exact .refl e.machine

theorem sameStory_prepare (a : Nat) : Leads SameStory (prepare a) := by
  intro e
  obtain ⟨code, machine⟩ := machine_prepare a e
  rw [SameStory, machine]
  exact ⟨rfl, rfl, rfl, rfl, rfl, rfl, rfl⟩

theorem sameStory_resultOf (result : Option Word) : Leads SameStory (resultOf result) := by
  cases result with
  | none => exact .throw _
  | some w => exact .pure w

instance : Compositional (fun {_} x (_ : EngineM _) => Leads SameStory x :
    {α : Type} → EngineM α → EngineM α → Prop) where
  pure := .pure
  bind := .bind

theorem sameStory_helpers {run : Nat → List Word → EngineM (Option Word)}
    (calls : ∀ a args, Leads SameStory (run a args)) :
    Helpers.Alike (fun {_} x (_ : EngineM _) => Leads SameStory x) Eq (helpers run)
      (helpers run) where
  trap f := Leads.throw (Halt.fault f)
  exhausted := Leads.throw Halt.exhausted
  push w := sameStory_operation (.push w)
  pop := sameStory_operation .pop
  peek := sameStory_operation .peek
  replaceTop w := sameStory_operation (.replaceTop w)
  readGlobal i := sameStory_operation (.readGlobal i)
  writeGlobal i w := sameStory_operation (.writeGlobal i w)
  perform opcode args := sameStory_operation (.perform opcode args)
  call a args := (calls a args).bind fun result => sameStory_resultOf result
  callPacked packed args := by
    refine .ite _ (.pure 0) (Leads.get.bind fun e => ?_)
    exact (calls _ args).bind fun result => sameStory_resultOf result
  print {n _} _ := by
    refine Leads.get.bind fun e => ?_
    split
    · rename_i text _
      exact sameStory_operation (.print text)
    · exact .throw _
  readLine textBuffer parseBuffer := sameStory_operation (.readLine textBuffer parseBuffer)
  readChar := sameStory_operation .readKey
  quit := (sameStory_operation .quit).bind fun _ => Leads.throw Halt.quit

theorem sameStory_finishCompiled {x : EngineM Word} (hx : Leads SameStory x) :
    Leads SameStory (finishCompiled x) := by
  intro e
  have ended := hx e
  unfold finishCompiled
  cases ran : x e with
  | ok w e' =>
      rw [ran] at ended
      exact ended.trans (((sameStory_operation (.leave w)).bind fun _ => .pure (some w)) e')
  | error h e' =>
      rw [ran] at ended
      cases h with
      | quit => exact ended.trans (((sameStory_operation .quit).bind fun _ => .pure none) e')
      | exhausted | miscounted => exact ended
      | fault f =>
          dsimp only
          split <;> exact ended

theorem sameStory_invoke (bound a : Nat) (args : List Word) :
    Leads SameStory (invoke bound a args) := by
  have counts (f : EngineCounts → EngineCounts) : Leads SameStory (count f) :=
    sameStory_modify fun _ => rfl
  induction bound generalizing a args with
  | zero => exact .throw _
  | succ bound ih =>
      refine Leads.get.bind fun e => .ite _ (Leads.throw (Halt.fault .interrupted)) ?_
      refine .ite _ (.pure _) ((sameStory_prepare a).bind fun tier => ?_)
      cases tier with
      | interpreted =>
          refine (counts _).bind fun _ => ?_
          exact sameStory_onMachine (persists_sameStory.runRoutine bound a args)
      | compiled code statistics =>
          refine (sameStory_operation (.enter a _)).bind fun _ => (counts _).bind fun _ => ?_
          exact sameStory_finishCompiled ((sameStory_helpers ih).runCode code.alike_refl bound _)

end Engine

/-! ## States of a story -/

namespace Machine

variable {image : Array Byte} {options : MachineOptions} {host : Host} {s m t : Machine}

/-- States that a machine comes to in any way at all: it was loaded, and after that carried out
operations, ran routines, interpreted or by compiled code, and began anew, in any order and with any
end.  Whoever has it may do more: write into the image, the stack and the table of routines, and
move the program counter. -/
inductive Arises (image : Array Byte) (options : MachineOptions) (host : Host) :
    Machine → Prop where
  | loaded {s : Machine} (h : load image options host = .ok s) : Arises image options host s
  | operation {s : Machine} (h : Arises image options host s) (o : MachineOperation) :
      Arises image options host (endState (o.run s))
  | routine {s : Machine} (h : Arises image options host s) (bound a : Nat) (args : List Word) :
      Arises image options host (endState (runRoutine bound a args s))
  | invoked {e : Engine} (h : Arises image options host e.machine) (bound a : Nat)
      (args : List Word) : Arises image options host (endState (invoke bound a args e)).machine
  | restarted {s : Machine} (h : Arises image options host s) :
      Arises image options host (endState (restart s))
  | outside {s t : Machine} (h : Arises image options host s) (same : s.SameStory t) :
      Arises image options host t

/-- Whatever state arises, it is one of the story that was loaded. -/
theorem Arises.sameStory (h : Arises image options host s) :
    ∃ m, load image options host = .ok m ∧ m.SameStory s := by
  induction h with
  | @loaded m loads => exact ⟨m, loads, .refl m⟩
  | @operation s _ o ih =>
      obtain ⟨m, loads, same⟩ := ih
      exact ⟨m, loads, same.trans (o.sameStory s)⟩
  | @routine s _ bound a args ih =>
      obtain ⟨m, loads, same⟩ := ih
      exact ⟨m, loads, same.trans (persists_sameStory.runRoutine bound a args s)⟩
  | @invoked e _ bound a args ih =>
      obtain ⟨m, loads, same⟩ := ih
      exact ⟨m, loads, same.trans (Engine.sameStory_invoke bound a args e)⟩
  | @restarted s _ ih =>
      obtain ⟨m, loads, same⟩ := ih
      exact ⟨m, loads, same.trans (sameStory_restart s)⟩
  | outside _ between ih =>
      obtain ⟨m, loads, same⟩ := ih
      exact ⟨m, loads, same.trans between⟩

theorem Arises.roomy (h : Arises image options host s) : s.Roomy := by
  obtain ⟨m, loads, same⟩ := h.sameStory
  exact (roomy_load loads).1.of_sameStory same

/-- What was read from an image stays with its story. -/
theorem story_of_load (loads : load image options host = .ok m) :
    ∃ h t, Header.read (.ofBytes image) = .ok h ∧ TextTables.read (.ofBytes image) h = .ok t ∧
      (blank image options host h t).SameStory m := by
  obtain ⟨h, t, reads, tables, begun⟩ := load_eq_ok loads
  exact ⟨h, t, reads, tables,
    (persists_sameStory.of_does (does_begin h.version options)).of_ok begun⟩

/-! ## Beginning anew and loading -/

/-- The machine `t` is as `m`, which was just loaded: the bytes of the image, all of the stack, and
what else tells how the story goes on; nothing decoded is kept.  Only two flags of the header are
those of `s`. -/
structure LikeNew (s m t : Machine) : Prop extends m.SameStory t where
  bytes : ∀ a, a ≠ HeaderField.flags2 + 1 → t.memory.byteAt a = m.memory.byteAt a
  flags : t.memory.wordAt HeaderField.flags2 =
    (m.memory.wordAt HeaderField.flags2 &&& ~~~keptFlags) |||
      (s.memory.wordAt HeaderField.flags2 &&& keptFlags)
  values : t.stack.values = m.stack.values
  frames : t.stack.frames = m.stack.frames
  pc : t.pc = m.pc
  state : t.state = m.state
  streams : t.streams = m.streams
  nested : t.nested = m.nested
  lastReturn : t.lastReturn = m.lastReturn
  forgotten : ∀ a : Nat, t.code.decoded.kept[a]? = none

theorem restart_of_sameStory (loads : load image options host = .ok m) (same : m.SameStory s) :
    ∃ t, restart s = .ok () t ∧ s.LikeNew m t := by
  obtain ⟨header, text, read, -, begun⟩ := load_eq_ok loads
  have room : headerSize ≤ image.size := Header.size_of_read read
  -- What was loaded, and what is left of it, is the story of the blank machine.
  have first : (blank image options host header text).SameStory m :=
    (persists_sameStory.of_does (does_begin header.version options)).of_ok begun
  have story : (blank image options host header text).SameStory s := first.trans same
  have pristine : s.pristine = image := story.pristine
  have roomy : s.Roomy := (roomy_load loads).1.of_sameStory same
  -- Both images are described alike, and both stories start alike.
  obtain ⟨d, d', described, described', agrees, flags⟩ :=
    s.memory.described_alike room header.version options
  have memory : s.renewed.memory = s.memory.renewed image := by rw [renewed, pristine]
  have begins : (inMemory (describeInterpreter header.version options) >>= fun _ => start)
      (blank image options host header text)
        = start { blank image options host header text with memory := d } := run_begin described
  rw [begins] at begun
  have again : restart s = start { s.renewed with memory := d' } := by
    rw [run_restart roomy, story.header, story.options]
    exact run_begin (memory ▸ described')
  obtain ⟨p, events, called, opens, whole⟩ := start_ok begun
  have opens' : opening d' s.header = .ok p := by
    rw [story.header, opening_congr agrees]
    exact opens
  obtain ⟨events', called', starts⟩ :=
    start_of_opening (s := { s.renewed with memory := d' }) opens'
  rw [starts] at again
  have kept : s.SameStory ({ s.renewed with memory := d' }.opened p events' called') :=
    sameStory_restart.of_ok again
  refine ⟨_, again, ?_⟩
  subst whole
  exact {
    toSameStory := same.trans kept
    bytes := agrees.bytes
    flags := flags
    values := rfl
    frames := rfl
    pc := rfl
    state := rfl
    streams := rfl
    nested := rfl
    lastReturn := rfl
    forgotten := fun a => Std.HashMap.getElem?_empty }

/-- From every state that arises, a story begins anew without failure, and is then as if it had just
been loaded, but for the two flags of the header that outlive this. -/
theorem restart_likeNew (h : Arises image options host s) :
    ∃ m t, load image options host = .ok m ∧ restart s = .ok () t ∧ s.LikeNew m t := by
  obtain ⟨m, loads, same⟩ := h.sameStory
  obtain ⟨t, again, new⟩ := restart_of_sameStory loads same
  exact ⟨m, t, loads, again, new⟩

/-- The machine within a call, after the story set all of the second flags by a global that lies on
them. -/
def flagged : Machine := endState (step (endState (writeGlobal 8 0xffff calling)))

theorem restart_likeNew_flagged :
    flagged.stack.depth = 2 ∧ flagged.memory.wordAt HeaderField.flags2 = 0xffff ∧
      ∃ t, restart flagged = .ok () t ∧ t.stack.frames = calling.stack.frames ∧ t.pc = 64 ∧
        t.memory.wordAt HeaderField.flags2 = 3 := by
  have loaded : load callsForTrue {} {} = .ok calling := Except.eq_ok_getD _ (by decide +kernel)
  obtain ⟨m, t, loads, again, new⟩ :=
    restart_likeNew (((Arises.loaded loaded).operation (.writeGlobal 8 0xffff)).operation .step)
  have same : m = calling := Except.ok.inj (loads.symm.trans loaded)
  rw [same] at new
  have clear : calling.memory.wordAt HeaderField.flags2 = 0 := by decide +kernel
  have set : flagged.memory.wordAt HeaderField.flags2 = 0xffff := by decide +kernel
  have start : calling.pc = 64 := by decide +kernel
  refine ⟨by decide +kernel, set, t, again, new.frames, new.pc.trans start, ?_⟩
  have flags := new.flags
  rw [clear] at flags
  rw [flags]
  show (0 &&& ~~~keptFlags) ||| (flagged.memory.wordAt HeaderField.flags2 &&& keptFlags) = 3
  rw [set]
  decide

end Machine

end ZMachine
