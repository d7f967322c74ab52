/-
  The discipline of the stack.

  Frames stack up in order, each on the words that were there when its routine
  was called, and nothing that the machine does breaks this, be it by steps,
  by running routines, by compiled code or by input, whether or not it fails.
  A routine reaches its own words only: what lies below them is neither read
  nor changed nor removed until its frame is left or the story begins anew.
-/
import ZMachine.Proofs.Coherence
import ZMachine.Proofs.Equivalence
import ZMachine.Proofs.Tracking
import ZMachine.Proofs.WordsBelow

namespace ZMachine

/-! ## Sound stacks -/

/-- Frames stand in order on the words of the stack, within its capacity and the depth of calls. -/
structure CallStack.Sound (limit : Nat) (k : CallStack) : Prop where
  capacity : k.capacity = limit
  /-- The newest frame comes first. -/
  bases : k.frames.Pairwise fun inner outer => outer.base ≤ inner.base
  base : k.base ≤ k.size
  size : k.size ≤ limit
  depth : k.depth ≤ maxCallDepth
  locals : ∀ f ∈ k.frames, f.localCount ≤ maxLocals
  arguments : ∀ f ∈ k.frames, f.argumentCount ≤ f.localCount

theorem Frame.localCount_enter (address returnAddress : Nat) (store : Option Variable)
    (defaults args : List Word) (base : Nat) :
    (enter address returnAddress store defaults args base).localCount ≤ maxLocals := by
  simp only [enter, localCount, List.length_append, List.length_take, List.length_drop]
  omega

theorem Frame.argumentCount_enter (address returnAddress : Nat) (store : Option Variable)
    (defaults args : List Word) (base : Nat) :
    (enter address returnAddress store defaults args base).argumentCount
      ≤ (enter address returnAddress store defaults args base).localCount := by
  simp only [enter, localCount, argumentCount, List.length_append]
  exact Nat.le_add_right ..

namespace CallStack.Sound

variable {c : Nat} {k k' : CallStack}

theorem base_le_size (h : k.Sound c) : ∀ f ∈ k.frames, f.base ≤ k.size := by
  have newest := h.base
  have ordered := h.bases
  unfold CallStack.base at newest
  cases frames : k.frames with
  | nil => simp
  | cons f fs =>
      rw [frames] at newest ordered
      intro g mem
      rcases List.mem_cons.mp mem with rfl | mem
      · exact newest
      · exact Nat.le_trans ((List.pairwise_cons.mp ordered).1 g mem) newest

theorem withValues (h : k.Sound c) {values : List Word} (low : k.base ≤ values.length)
    (high : values.length ≤ c) : Sound c { k with values } :=
  ⟨h.capacity, h.bases, low, high, h.depth, h.locals, h.arguments⟩

theorem push (h : k.Sound c) {w : Word} (ran : k.push w = .ok k') : k'.Sound c := by
  unfold CallStack.push at ran
  split at ran
  · cases ran
  · rename_i room
    cases ran
    have base := h.base
    have capacity := h.capacity
    have length : (w :: k.values).length = k.size + 1 := rfl
    exact h.withValues (by omega) (by omega)

theorem pop (h : k.Sound c) {w : Word} (ran : k.pop = .ok (w, k')) : k'.Sound c := by
  unfold CallStack.pop at ran
  cases top : k.top with
  | error e =>
      rw [top] at ran
      cases ran
  | ok t =>
      rw [top] at ran
      cases ran
      obtain ⟨values, own⟩ := top_eq_ok top
      have size := h.size
      rw [CallStack.size, values, List.length_cons] at size
      exact h.withValues own (by omega)

theorem replaceTop (h : k.Sound c) {w : Word} (ran : k.replaceTop w = .ok k') : k'.Sound c := by
  unfold CallStack.replaceTop at ran
  cases top : k.top with
  | error e =>
      rw [top] at ran
      cases ran
  | ok t =>
      rw [top] at ran
      cases ran
      obtain ⟨values, own⟩ := top_eq_ok top
      have size := h.size
      rw [CallStack.size, values, List.length_cons] at size
      exact h.withValues (by rw [List.length_cons]; omega) (by rw [List.length_cons]; omega)

theorem pushFrame (h : k.Sound c) {f : Frame} (base : f.base = k.size)
    (locals : f.localCount ≤ maxLocals) (arguments : f.argumentCount ≤ f.localCount)
    (ran : k.pushFrame f = .ok k') : k'.Sound c := by
  unfold CallStack.pushFrame at ran
  split at ran
  · cases ran
  · rename_i room
    cases ran
    refine ⟨h.capacity, List.pairwise_cons.mpr ⟨fun g mem => ?_, h.bases⟩,
      Nat.le_of_eq base, h.size,
      Nat.lt_of_not_le room, ?_, ?_⟩
    · exact base ▸ h.base_le_size g mem
    · intro g mem
      rcases List.mem_cons.mp mem with rfl | mem
      · exact locals
      · exact h.locals g mem
    · intro g mem
      rcases List.mem_cons.mp mem with rfl | mem
      · exact arguments
      · exact h.arguments g mem

theorem popFrame (h : k.Sound c) {f : Frame} (ran : k.popFrame = .ok (f, k')) : k'.Sound c := by
  unfold CallStack.popFrame at ran
  cases frames : k.frames with
  | nil =>
      rw [frames] at ran
      cases ran
  | cons g gs =>
      rw [frames] at ran
      cases ran
      -- The words down to the base of the frame are dropped, so the next frame is still inside.
      have inside : f.base ≤ k.size := h.base_le_size f (by simp [frames])
      obtain ⟨capacity, ordered, -, size, depth, locals, arguments⟩ := h
      rw [frames] at ordered locals arguments
      have length : (k.values.drop (k.size - f.base)).length = f.base := by
        rw [List.length_drop]
        change k.size - (k.size - f.base) = f.base
        omega
      refine ⟨capacity, (List.pairwise_cons.mp ordered).2, ?_, ?_, ?_,
        fun g mem => locals g (by simp [mem]), fun g mem => arguments g (by simp [mem])⟩
      · change (gs.head?.map Frame.base).getD 0 ≤ (k.values.drop (k.size - f.base)).length
        rw [length]
        cases gs with
        | nil => exact Nat.zero_le _
        | cons g gs => exact (List.pairwise_cons.mp ordered).1 g (by simp)
      · change (k.values.drop (k.size - f.base)).length ≤ c
        omega
      · rw [CallStack.depth, frames, List.length_cons] at depth
        exact Nat.le_of_succ_le depth

theorem writeLocal (h : k.Sound c) {i : Byte} {w : Word} (ran : k.writeLocal i w = .ok k') :
    k'.Sound c := by
  obtain ⟨f, fs, locals, frames, length, rfl⟩ := writeLocal_ok ran
  obtain ⟨capacity, ordered, base, size, depth, few, arguments⟩ := h
  rw [CallStack.base, frames] at base
  rw [CallStack.depth, frames] at depth
  rw [frames] at ordered few arguments
  refine ⟨capacity, List.pairwise_cons.mpr (List.pairwise_cons.mp ordered), base, size, depth,
    fun g mem => ?_, fun g mem => ?_⟩
  · rcases List.mem_cons.mp mem with rfl | mem
    · exact Nat.le_trans (Nat.le_of_eq length) (few f (by simp))
    · exact few g (by simp [mem])
  · rcases List.mem_cons.mp mem with rfl | mem
    · exact Nat.le_trans (arguments f (by simp)) (Nat.le_of_eq length.symm)
    · exact arguments g (by simp [mem])

theorem clear (h : k.Sound c) : k.clear.Sound c :=
  ⟨h.capacity, .nil, Nat.le_refl 0, Nat.zero_le c, Nat.zero_le _, by simp [CallStack.clear],
    by simp [CallStack.clear]⟩

end CallStack.Sound

namespace CallStack

variable {k : CallStack}

/-- The running routine has a newest word exactly if it has a word. -/
theorem top_ok_iff : (∃ p, k.top = .ok p) ↔ k.frameValues ≠ [] := by
  unfold top frameValues
  cases values : k.values with
  | nil => simp
  | cons w ws =>
      by_cases empty : k.size ≤ k.base
      · simp [empty, Nat.sub_eq_zero_of_le empty]
      · simp [empty, Nat.sub_eq_zero_iff_le]

/-- What needs a newest word has a result exactly if there is one. -/
theorem ok_iff_of_top {α : Type} {x : Except Fault α} {f : Word × List Word → α}
    (h : x = k.top.map f) : (∃ a, x = .ok a) ↔ k.frameValues ≠ [] := by
  rw [h, ← top_ok_iff]
  cases k.top with
  | ok p => exact ⟨fun _ => ⟨p, rfl⟩, fun _ => ⟨f p, rfl⟩⟩
  | error e =>
      constructor
      · rintro ⟨_, given⟩
        cases given
      · rintro ⟨_, given⟩
        cases given

end CallStack

namespace Machine

variable {α β : Type} {c : Nat} {s : Machine}

/-- A sound stack stays sound. -/
def StaysSound (c : Nat) (s t : Machine) : Prop := s.stack.Sound c → t.stack.Sound c

instance : IsPreorder Machine (StaysSound c) where
  refl _ h := h
  trans _ _ _ h h' sound := h' (h sound)

theorem sound_apart {x : MachineM α} (h : Apart withStack x) : Leads (StaysSound c) x := by
  intro s sound
  rw [stack_apart h]
  exact sound

theorem sound_onStack {f : CallStack → Except Fault CallStack}
    (h : ∀ k k', k.Sound c → f k = .ok k' → k'.Sound c) : Leads (StaysSound c) (onStack f) := by
  intro s sound
  rw [run_onStack]
  cases ran : f s.stack with
  | error e => exact sound
  | ok k => exact h _ _ sound ran

theorem sound_enterFrame (a : Nat) (args : List Word) (store : Option Variable)
    (returnAddress : Nat) : Leads (StaysSound c) (enterFrame a args store returnAddress) := by
  refine Leads.get.bind fun _ => (sound_apart (apart_ask _)).bind fun p => ?_
  refine Leads.bind (sound_onStack fun k k' h ran => ?_) fun _ => ?_
  · exact h.pushFrame rfl (Frame.localCount_enter ..) (Frame.argumentCount_enter ..) ran
  · exact Leads.bind (sound_apart (.modified fun _ _ => rfl)) fun _ => .pure _

theorem sound_callRoutine (a : Nat) (args : List Word) (store : Option Variable)
    (returnAddress : Nat) : Leads (StaysSound c) (callRoutine a args store returnAddress) :=
  (sound_enterFrame _ _ _ _).bind fun _ =>
    Leads.bind (sound_apart (.modified fun _ _ => rfl)) fun _ =>
    sound_apart (.modified fun _ _ => rfl)

theorem sound_start : Leads (StaysSound c) start := by
  intro s sound
  unfold start
  rw [run_bind, run_modify]
  dsimp only
  rw [run_bind, run_get]
  dsimp only
  split
  · exact sound_callRoutine _ _ _ _ _ sound.clear
  · -- The main routine stands on an empty stack.
    rw [run_bind, run_onStack]
    dsimp only
    cases ran : s.stack.clear.pushFrame (.enter s.header.mainRoutine 0 none [] [] 0) with
    | error e => exact sound.clear
    | ok k =>
        exact sound.clear.pushFrame rfl (Frame.localCount_enter ..)
          (Frame.argumentCount_enter ..) ran

/-- Orderly actions keep the stack sound, also if they fail. -/
theorem Orderly.sound {leaving : Bool} {x : MachineM α} (h : Orderly leaving x) :
    Leads (StaysSound c) x := by
  induction h with
  | apart apart => exact sound_apart apart
  | look _ _ ih => exact Leads.get.bind ih
  | bind _ _ first rest => exact first.bind rest
  | @locating _ x a _ ih =>
      intro s sound
      have inner := ih s sound
      unfold Machine.locating
      cases ran : x s with
      | error e t =>
          rw [ran] at inner
          exact inner
      | ok r t =>
          rw [ran] at inner
          exact inner
  | push w => exact sound_onStack fun _ _ h ran => h.push ran
  | pop =>
      intro s sound
      rw [run_pop]
      cases ran : s.stack.pop with
      | error e => exact sound
      | ok p => exact sound.pop ran
  | peek => exact Leads.get.bind fun _ => .lift _
  | replaceTop w => exact sound_onStack fun _ _ h ran => h.replaceTop ran
  | writeLocal i w => exact sound_onStack fun _ _ h ran => h.writeLocal ran
  | enterFrame a args store returnAddress => exact sound_enterFrame a args store returnAddress
  -- The words of the frame go with it, down to where the caller had left off.
  | leaveFrame =>
      intro s sound
      rw [run_leaveFrame]
      cases ran : s.stack.popFrame with
      | error e => exact sound
      | ok p => exact sound.popFrame ran
  | start => exact sound_start

end Machine

/-! ## Operations -/

/-- What is asked of the machine from outside, by a run of a routine or by compiled code. -/
inductive MachineOperation where
  /-- Carry out an instruction. -/
  | step
  /-- Take a line of input. -/
  | line (text : String)
  /-- Take a key press. -/
  | key (c : Char)
  /-- Call a routine that is run from outside. -/
  | call (a : Nat) (args : List Word) (returnAddress : Nat)
  /-- Enter a compiled routine. -/
  | enter (a : Nat) (args : List Word)
  /-- Leave a compiled routine. -/
  | leave (w : Word)
  | push (w : Word)
  | pop
  | peek
  | replaceTop (w : Word)
  | readGlobal (i : Byte)
  | writeGlobal (i : Byte) (w : Word)
  /-- Carry out an opcode on values. -/
  | perform (opcode : Opcode) (args : List Word)
  | print (text : String)
  /-- Take a line that the host has at hand. -/
  | readLine (textBuffer parseBuffer : Word)
  /-- Take a key press that the host has at hand. -/
  | readKey
  | quit
deriving DecidableEq

namespace MachineOperation

open Machine

/-- What an operation gives. -/
def Result : MachineOperation → Type
  | pop | peek | readGlobal _ | readLine .. | readKey => Word
  | perform .. => Outcome
  | _ => Unit

def run : (o : MachineOperation) → MachineM o.Result
  | step => Machine.step
  | line text => provideLine text
  | key c => provideChar c
  | call a args returnAddress => callRoutine a args none returnAddress
  | enter a args => enterCompiled a args
  | leave w => leaveCompiled w
  | push w => Machine.push w
  | pop => Machine.pop
  | peek => peekVariable .stack
  | replaceTop w => replaceVariable .stack w
  | readGlobal i => Machine.readGlobal i
  | writeGlobal i w => Machine.writeGlobal i w
  | perform opcode args => Machine.perform opcode args
  | print text => Machine.print text
  | readLine textBuffer parseBuffer => Engine.readLine textBuffer parseBuffer
  | readKey => Engine.readChar
  | quit => Machine.quit

/-- An operation begins the story anew. -/
def Restarts (o : MachineOperation) (s : Machine) : Prop := o = .step ∧ s.Restarts

/-- Operations that neither carry out an instruction nor leave a frame on their own. -/
def keepsFrames : MachineOperation → Bool
  | step | leave _ => false
  | _ => true

theorem orderly_of_keepsFrames {leaving : Bool} {o : MachineOperation} (h : o.keepsFrames = true) :
    Orderly leaving o.run := by
  cases o with
  | step | leave => cases h
  | line text => exact .provideLine text
  | key c => exact .provideChar c
  | call a args returnAddress => exact .callRoutine a args none returnAddress
  | enter a args => exact .enterCompiled a args
  | quit => exact .quit
  -- all else works on values
  | push w => exact .push w
  | pop => exact .pop
  | peek => exact .peek
  | replaceTop w => exact .replaceTop w
  | readGlobal i => exact .values (.readGlobal i)
  | writeGlobal i w => exact .values (.writeGlobal i w)
  | perform opcode args => exact .values (.performed opcode args)
  | print text => exact .values (.print text)
  | readLine textBuffer parseBuffer =>
      exact .values (Engine.onValues_readLine textBuffer parseBuffer)
  | readKey => exact .values Engine.onValues_readChar

theorem orderly (o : MachineOperation) : Orderly true o.run := by
  cases o with
  | step => exact .step
  | leave w => exact .leaveCompiled w
  | _ => exact orderly_of_keepsFrames rfl

end MachineOperation

namespace Machine

variable {α : Type} {n : Nat} {s : Machine}

/-- The machine without the `n` oldest words. -/
def cut (s : Machine) (n : Nat) : Machine :=
  s.withValues (s.stack.values.take (s.stack.size - n))

theorem atop_cut (h : n ≤ s.stack.size) :
    ∃ ws : List Word, ws.length = n ∧ (s.cut n).atop ws = s := by
  refine ⟨s.stack.values.drop (s.stack.size - n), ?_, ?_⟩
  · rw [List.length_drop]
    change s.stack.size - (s.stack.size - n) = n
    omega
  · obtain ⟨⟩ := s
    simp [cut, atop, withValues, CallStack.atop]

/-- The `n` oldest words are neither read nor changed nor removed: whatever words are in their
place, an action does the same, and they are still there at its end. -/
def Spares (n : Nat) (x : MachineM α) (s : Machine) : Prop :=
  ∃ r, ∀ ws : List Word, ws.length = n → x ((s.cut n).atop ws) = moved (·.atop ws) r

end Machine

/-- No operation but one that begins anew reaches below the running routine and the frames that it
leaves. -/
theorem MachineOperation.spares (o : MachineOperation) {n : Nat} {s : Machine}
    (sized : s.stack.base ≤ s.stack.size) (below : n ≤ s.stack.base) (plain : ¬o.Restarts s)
    (above : ∀ f ∈ s.framesLeft (endState (o.run s)), n ≤ f.base) : Machine.Spares n o.run s := by
  have below' : n ≤ (s.cut n).stack.base := below
  cases keeps : o.keepsFrames with
  | true =>
      obtain ⟨r, floats, -⟩ := (orderly_of_keepsFrames keeps).floats below'
      exact ⟨r, floats⟩
  | false =>
      cases o with
      -- Which frames a step leaves is told by the machine as it is, with its own words below.
      | step =>
          obtain ⟨ws, length, whole⟩ := Machine.atop_cut (Nat.le_trans below sized)
          have plain' : ¬(s.cut n).Restarts := fun restarts => plain ⟨rfl, restarts⟩
          have above' : ∀ f ∈ (s.cut n).framesLeft (endState (Machine.step ((s.cut n).atop ws))),
              n ≤ f.base := by
            rw [whole]
            exact above
          obtain ⟨r, floats, -⟩ := Machine.floats_step plain' below' length above'
          exact ⟨r, floats⟩
      | leave w =>
          obtain ⟨r, floats, -⟩ := Machine.FloatsTo.leaveCompiled w below'
          exact ⟨r, floats⟩
      | _ => cases keeps

/-! ## What is made of operations -/

/-- Go on after an action, whether or not it fails. -/
def handling {ε σ α β : Type} (x : EStateM ε σ α) (k : Except ε α → EStateM ε σ β) :
    EStateM ε σ β :=
  fun s =>
    match x s with
    | .ok a s => k (.ok a) s
    | .error e s => k (.error e) s

namespace Engine

variable {α β : Type}

/-- The engine with another stack in its machine. -/
def withStack (k : CallStack) (e : Engine) : Engine := { e with machine := e.machine.withStack k }

/-- The engine with other words on the stack of its machine. -/
def withValues (e : Engine) (values : List Word) : Engine :=
  { e with machine := e.machine.withValues values }

/-- Actions of the engine that use the stack by operations of the machine only.  Besides, they may
look at the machine, but not at the words on its stack. -/
inductive Made : {α : Type} → EngineM α → Prop where
  | operation (o : MachineOperation) : Made (act o.run)
  | apart {α : Type} {x : EngineM α} (h : Apart withStack x) : Made x
  | look {α : Type} {f : Engine → EngineM α} (h : ∀ e values, f (e.withValues values) = f e)
      (hf : ∀ e, Made (f e)) : Made (get >>= f)
  | handled {α β : Type} {x : EngineM α} {k : Except Halt α → EngineM β} (hx : Made x)
      (hk : ∀ r, Made (k r)) : Made (handling x k)

namespace Made

theorem pure (a : α) : Made (Pure.pure a) := .apart (.pure a)

theorem throw (h : Halt) : Made (MonadExcept.throw h : EngineM α) := .apart (.throw h)

theorem modified {f : Engine → Engine} (h : ∀ e k, f (withStack k e) = withStack k (f e)) :
    Made (modify f : EngineM PUnit) := .apart (.modified h)

theorem bind {x : EngineM α} {f : α → EngineM β} (hx : Made x) (hf : ∀ a, Made (f a)) :
    Made (x >>= f) := by
  -- A failure is handed on.
  have whole : x >>= f = handling x fun
      | .ok a => f a
      | .error h => MonadExcept.throw h := by
    funext e
    rw [run_bind, handling]
    cases x e <;> rfl
  rw [whole]
  refine hx.handled fun r => ?_
  cases r with
  | ok a => exact hf a
  | error h => exact .throw h

theorem ite {x y : EngineM α} (c : Prop) [Decidable c] (hx : Made x) (hy : Made y) :
    Made (if c then x else y) := by
  split
  · exact hx
  · exact hy

theorem forM {x : β → EngineM PUnit} (bs : List β) (hx : ∀ b, Made (x b)) : Made (bs.forM x) := by
  induction bs with
  | nil => exact .pure _
  | cons b bs ih => exact (hx b).bind fun _ => ih

/-- What has no part in the stack of the machine has none in that of the engine. -/
theorem act {x : MachineM α} (h : Apart Machine.withStack x) : Made (act x) := by
  refine .apart fun e k => ?_
  have machine : (e.withStack k).machine = e.machine.withStack k := rfl
  rw [run_act, run_act, machine, h e.machine k]
  cases x e.machine <;> rfl

/-! ### Routines that are interpreted -/

theorem onMachine_bind (x : RunM α) (f : α → RunM β) :
    onMachine (x >>= f) = onMachine x >>= fun a => onMachine (f a) := by
  funext e
  rw [run_bind, run_onMachine, run_onMachine, run_bind]
  cases x e.machine with
  | ok a s => simp only [run_onMachine]
  | error h s => rfl

theorem onMachine_look (f : Machine → RunM α) :
    onMachine (get >>= f) = get >>= fun e => onMachine (f e.machine) := by
  funext e
  rw [run_bind, run_get]
  simp only [run_onMachine, run_bind, run_get]

theorem onMachine_handling (x : RunM α) (k : Except Halt α → RunM β) :
    onMachine (handling x k) = handling (onMachine x) fun r => onMachine (k r) := by
  funext e
  rw [handling, run_onMachine, run_onMachine, handling]
  cases x e.machine with
  | ok a s => simp only [run_onMachine]
  | error h s => simp only [run_onMachine]

/-- A level of running from outside is counted down at its end, whatever the end is. -/
theorem nesting_eq (x : RunM α) : Machine.nesting x =
    modify (fun s => { s with nested := s.nested + 1 }) >>= fun _ => handling x fun
      | .ok a => Machine.countDown >>= fun _ => Pure.pure a
      | .error .exhausted => MonadExcept.throw .exhausted
      | .error h => Machine.countDown >>= fun _ => MonadExcept.throw h := by
  funext s
  rw [run_bind, run_modify, Machine.nesting]
  dsimp only
  rw [handling]
  cases x { s with nested := s.nested + 1 } with
  | ok a t => rfl
  | error h t => cases h <;> rfl

theorem onPure (a : α) : Made (onMachine (Pure.pure a)) := .pure a

theorem onThrow (h : Halt) : Made (onMachine (MonadExcept.throw h : RunM α)) := .throw h

theorem countDown : Made (onMachine Machine.countDown) := by
  unfold Machine.countDown
  rw [onMachine_look]
  refine .look (fun _ _ => rfl) fun e => ?_
  split
  · rw [onMachine_bind]
    exact (onThrow _).bind fun _ => .modified fun _ _ => rfl
  · exact .modified fun _ _ => rfl

theorem runToDepth (floor bound : Nat) : Made (onMachine (Machine.runToDepth floor bound)) := by
  induction bound with
  | zero => exact onThrow _
  | succ bound ih =>
      unfold Machine.runToDepth
      rw [onMachine_look]
      refine .look (fun _ _ => rfl) fun e => ?_
      split
      · split
        · rw [onMachine_bind]
          exact (Made.operation .step).bind fun _ => ih
        · exact onPure _
        · exact onThrow _
      · exact onPure _

theorem nesting {x : RunM α} (hx : Made (onMachine x)) : Made (onMachine (Machine.nesting x)) := by
  rw [nesting_eq, onMachine_bind]
  refine Made.bind (.modified fun _ _ => rfl) fun _ => ?_
  rw [onMachine_handling]
  refine hx.handled fun r => ?_
  cases r with
  | ok a =>
      dsimp only
      rw [onMachine_bind]
      exact countDown.bind fun _ => onPure a
  | error h =>
      cases h with
      | exhausted => exact onThrow _
      | fault | quit | miscounted =>
          dsimp only
          rw [onMachine_bind]
          exact countDown.bind fun _ => onThrow _

theorem runRoutine (bound a : Nat) (args : List Word) :
    Made (onMachine (Machine.runRoutine bound a args)) := by
  unfold Machine.runRoutine
  split
  · exact onPure _
  rw [onMachine_look]
  refine .look (fun _ _ => rfl) fun e => ?_
  rw [onMachine_look]
  refine .look (fun _ _ => rfl) fun e => ?_
  rw [onMachine_bind]
  refine (Made.operation (.call a args _)).bind fun _ => ?_
  rw [onMachine_bind]
  refine (nesting (runToDepth _ bound)).bind fun _ => ?_
  rw [onMachine_look]
  refine .look (fun _ _ => rfl) fun e => ?_
  split
  · exact onPure _
  rw [onMachine_bind]
  refine Made.bind (.modified fun _ _ => rfl) fun _ => ?_
  rw [onMachine_look]
  exact .look (fun _ _ => rfl) fun e => onPure _

/-! ### Routines that are compiled -/

theorem count (f : EngineCounts → EngineCounts) : Made (count f) := .modified fun _ _ => rfl

theorem evictStale : Made evictStale := by
  refine (act fun _ _ => rfl).bind fun stale => forM stale fun a => .modified fun e k => ?_
  change (if e.tiers.contains a then _ else _) = withStack k (if e.tiers.contains a then _ else _)
  split <;> rfl

theorem leaveToInterpreter (a : Nat) : Made (leaveToInterpreter a) :=
  (count _).bind fun _ => Made.bind (.modified fun _ _ => rfl) fun _ => .pure _

theorem compileRoutine (r : Routine) : Made (compileRoutine r) := by
  refine .apart fun e k => ?_
  have memory : (withStack k e).machine.memory = e.machine.memory := rfl
  have header : (withStack k e).machine.header = e.machine.header := rfl
  have text : (withStack k e).machine.text = e.machine.text := rfl
  have literals : (withStack k e).literals = e.literals := rfl
  unfold Engine.compileRoutine
  dsimp only
  rw [memory, header, text, literals]
  split <;> rfl

theorem discover (a : Nat) : Made (Engine.act (discover a)) := by
  refine act fun s k => ?_
  have found : (Machine.withStack k s).code.discover (Machine.withStack k s).memory
      (Machine.withStack k s).header a = s.code.discover s.memory s.header a := rfl
  unfold Engine.discover
  rw [found]
  split <;> rfl

theorem prepare (a : Nat) : Made (prepare a) := by
  refine evictStale.bind fun _ => .look (fun _ _ => rfl) fun e => ?_
  split
  · exact .pure _
  refine (discover a).bind fun r => .look (fun _ _ => rfl) fun e => .ite _ (leaveToInterpreter a) ?_
  refine (compileRoutine r).bind fun result => ?_
  split
  · exact (count _).bind fun _ => Made.bind (.modified fun _ _ => rfl) fun _ => .pure _
  · exact (count _).bind fun _ => .ite _ (leaveToInterpreter a) (.throw _)

theorem resultOf (result : Option Word) : Made (resultOf result) := by
  cases result with
  | none => exact .throw _
  | some w => exact .pure w

instance : Compositional (fun {_} x (_ : EngineM _) => Made x :
    {α : Type} → EngineM α → EngineM α → Prop) where
  pure := .pure
  bind := .bind

/-- The helpers of compiled code use the stack by operations only, if calls do. -/
theorem helpers {run : Nat → List Word → EngineM (Option Word)}
    (calls : ∀ a args, Made (run a args)) :
    Helpers.Alike (fun {_} x (_ : EngineM _) => Made x) Eq (helpers run) (helpers run) where
  trap f := .throw (.fault f)
  exhausted := .throw .exhausted
  push w := .operation (.push w)
  pop := .operation .pop
  peek := .operation .peek
  replaceTop w := .operation (.replaceTop w)
  readGlobal i := .operation (.readGlobal i)
  writeGlobal i w := .operation (.writeGlobal i w)
  perform opcode args := .operation (.perform opcode args)
  call a args := (calls a args).bind fun result => resultOf result
  callPacked packed args := by
    refine .ite _ (.pure 0) (.look (fun _ _ => rfl) fun e => ?_)
    exact (calls _ args).bind fun result => resultOf result
  print {n _} _ := by
    refine .look (fun _ _ => rfl) fun e => ?_
    split
    · exact .operation (.print _)
    · exact .throw _
  readLine textBuffer parseBuffer := .operation (.readLine textBuffer parseBuffer)
  readChar := .operation .readKey
  quit := (Made.operation .quit).bind fun _ => .throw .quit

theorem finishCompiled {x : EngineM Word} (hx : Made x) : Made (finishCompiled x) := by
  -- What is done at the end of compiled code depends on how it ended, and is made of operations.
  have whole : Engine.finishCompiled x = handling x fun
      | .ok w => Engine.act (MachineOperation.leave w).run >>= fun _ => Pure.pure (some w)
      | .error .quit => Engine.act MachineOperation.quit.run >>= fun _ => Pure.pure none
      | .error (.fault f) =>
          if f = .interrupted then MonadExcept.throw (.fault f)
          else Engine.count (fun c => { c with faults := c.faults + 1 }) >>= fun _ =>
            MonadExcept.throw (.fault f)
      | .error h => MonadExcept.throw h := by
    funext e
    rw [handling, Engine.finishCompiled]
    cases x e with
    | ok w e => rfl
    | error h e =>
        cases h with
        | quit | exhausted | miscounted => rfl
        | fault f =>
            dsimp only
            split <;> rfl
  rw [whole]
  refine hx.handled fun r => ?_
  cases r with
  | ok w => exact (Made.operation (.leave w)).bind fun _ => .pure _
  | error h =>
      cases h with
      | quit => exact (Made.operation .quit).bind fun _ => .pure _
      | exhausted | miscounted => exact .throw _
      | fault f => exact .ite _ (.throw _) ((count _).bind fun _ => .throw _)

/-- Running a routine, compiled or interpreted, uses the stack by operations only. -/
theorem invoke (bound a : Nat) (args : List Word) : Made (invoke bound a args) := by
  induction bound generalizing a args with
  | zero => exact .throw _
  | succ bound ih =>
      unfold Engine.invoke
      -- A stop request and address 0 end the call before the stack is touched.
      refine .look (fun _ _ => rfl) fun e => .ite _ (.throw (.fault .interrupted)) ?_
      refine .ite _ (.pure _) ((prepare a).bind fun tier => ?_)
      cases tier with
      | interpreted => exact (count _).bind fun _ => runRoutine bound a args
      | compiled code statistics =>
          refine (Made.operation (.enter a _)).bind fun _ => (count _).bind fun _ =>
            finishCompiled ?_
          exact (helpers ih).runCode code.alike_refl bound _

/-- What is made of operations keeps the stack sound, also if it fails. -/
theorem sound {c : Nat} {x : EngineM α} (h : Made x) (e : Engine)
    (sound : e.machine.stack.Sound c) : (endState (x e)).machine.stack.Sound c := by
  induction h generalizing e with
  | operation o =>
      have kept := o.orderly.sound e.machine sound
      rw [run_act]
      cases ran : o.run e.machine with
      | ok a s =>
          rw [ran] at kept
          exact kept
      | error f s =>
          rw [ran] at kept
          exact kept
  -- What is apart from the stack leaves it as it is, and what looks at it, too.
  | apart apart =>
      rw [apart.keeps (fun e => e.machine.stack) (fun _ => rfl) (fun _ _ => rfl) e]
      exact sound
  | look _ _ ih => exact ih e e sound
  | @handled _ _ x k _ _ first rest =>
      have kept := first e sound
      unfold handling
      cases ran : x e with
      | ok a e' =>
          rw [ran] at kept
          exact rest _ e' kept
      | error f e' =>
          rw [ran] at kept
          exact rest _ e' kept

end Made

end Engine

/-! ## Reached states -/

namespace Machine

open Engine (onMachine invoke Made)

/-- States in which the machine is ever found: it was loaded, and after that carried out operations
and ran routines, interpreted or by compiled code, in any order and with any end.  The states that
such a run passes through are among them. -/
inductive Reached (image : Array Byte) (options : MachineOptions) (host : Host) :
    Machine → Prop where
  | loaded {s : Machine} (h : load image options host = .ok s) : Reached image options host s
  | operation {s : Machine} (h : Reached image options host s) (o : MachineOperation) :
      Reached image options host (endState (o.run s))
  | routine {s : Machine} (h : Reached image options host s) (bound a : Nat) (args : List Word) :
      Reached image options host (endState (runRoutine bound a args s))
  | invoked {e : Engine} (h : Reached image options host e.machine) (bound a : Nat)
      (args : List Word) : Reached image options host (endState (invoke bound a args e)).machine
  /-- The host, the counts of runs and all else but the stack may change meanwhile. -/
  | beside {s t : Machine} (h : Reached image options host s) (stack : t.stack = s.stack) :
      Reached image options host t

variable {image : Array Byte} {options : MachineOptions} {host : Host} {s : Machine}

/-- Every machine that is reached has a sound stack. -/
theorem sound_reached (h : Reached image options host s) : s.stack.Sound options.stackSize := by
  induction h with
  | loaded h =>
      obtain ⟨header, text, -, -, begun⟩ := load_eq_ok h
      -- A story begins on an empty stack.
      have empty : (blank image options host header text).stack.Sound options.stackSize :=
        ⟨rfl, .nil, Nat.le_refl 0, Nat.zero_le _, Nat.zero_le _, by simp [blank], by simp [blank]⟩
      have begins : Orderly true
          (inMemory (describeInterpreter header.version options) >>= fun _ => start) :=
        (Orderly.inMemory _).bind fun _ => .start rfl
      exact begins.sound.of_ok begun empty
  | operation _ o ih => exact o.orderly.sound _ ih
  | @routine s _ bound a args ih =>
      have kept := (Made.runRoutine bound a args).sound { machine := s } ih
      rw [Engine.run_onMachine] at kept
      cases ran : runRoutine bound a args s with
      | ok w t =>
          rw [ran] at kept
          exact kept
      | error h t =>
          rw [ran] at kept
          exact kept
  | @invoked e _ bound a args ih => exact (Made.invoke bound a args).sound e ih
  | beside _ stack ih => exact stack ▸ ih

/-- In every state that is reached, frames stand in order on the words of the stack, and within its
bounds.  The running routine can take, read or replace a word exactly if it has one, and no
operation reads, changes or removes a word below its own, unless it leaves frames down to there or
begins anew. Running a routine, interpreted or compiled, uses the stack by such operations only. -/
theorem stack_disciplined (h : Reached image options host s) :
    s.stack.Sound options.stackSize ∧
      ((∃ p, s.stack.pop = .ok p) ↔ s.stack.frameValues ≠ []) ∧
      ((∃ w, s.stack.peek = .ok w) ↔ s.stack.frameValues ≠ []) ∧
      (∀ w, (∃ k, s.stack.replaceTop w = .ok k) ↔ s.stack.frameValues ≠ []) ∧
      (∀ (o : MachineOperation) (n : Nat), n ≤ s.stack.base → ¬o.Restarts s →
        (∀ f ∈ s.framesLeft (endState (o.run s)), n ≤ f.base) → Spares n o.run s) ∧
      ∀ bound a args, Made (onMachine (runRoutine bound a args)) ∧ Made (invoke bound a args) := by
  have sound := sound_reached h
  refine ⟨sound, CallStack.ok_iff_of_top CallStack.pop_eq_map,
    CallStack.ok_iff_of_top CallStack.peek_eq_map,
    fun w => CallStack.ok_iff_of_top (CallStack.replaceTop_eq_map w), ?_, fun bound a args => ?_⟩
  · exact fun o n below plain above => o.spares sound.base below plain above
  · exact ⟨.runRoutine bound a args, .invoke bound a args⟩

/-- The machine in a routine that was called while its caller had a word on the stack. -/
def calledOver : Machine := endState (step (endState (push 7 calling)))

theorem stack_disciplined_called :
    calledOver.stack.base = 1 ∧ (¬∃ p, calledOver.stack.pop = .ok p) ∧
      (calledOver.framesLeft (endState (step calledOver))).length = 1 ∧
      Spares 1 step calledOver := by
  have loaded : load callsForTrue {} {} = .ok calling := Except.eq_ok_getD _ (by decide +kernel)
  have returns : calledOver.nextInstruction?.map (·.opcode) = some .rtrue := by decide +kernel
  have plain : ¬MachineOperation.Restarts .step calledOver := by
    rintro ⟨-, i, next, restart⟩
    simp [next, restart] at returns
  have base : calledOver.stack.base = 1 := by decide +kernel
  obtain ⟨-, popped, -, -, spares, -⟩ :=
    stack_disciplined (((Reached.loaded loaded).operation (.push 7)).operation .step)
  refine ⟨base, fun pops => popped.mp pops (by decide +kernel), by decide +kernel, ?_⟩
  exact spares .step 1 (Nat.le_of_eq base.symm) plain (by decide +kernel)

end Machine

end ZMachine
