/-
  What operations on values cannot see.

  An operation on values reads the bytes of the image, the words on the stack
  and a few facts about the running frame.  It is blind to everything else:
  to where the program counter is, to the locals and the return address of
  frames, to what is known of the code, to observers.  Two machines that
  differ in such things only carry it out alike.
-/
import ZMachine.Proofs.Effects
import ZMachine.Proofs.Lockstep

namespace ZMachine

/-- A frame without what only the flow of control looks at. -/
def Frame.bare (f : Frame) : Frame :=
  { f with address := 0, returnAddress := 0, store := none, locals := [] }

/-- The stack with bare frames. -/
def CallStack.bare (s : CallStack) : CallStack := { s with frames := s.frames.map Frame.bare }

namespace Machine

/-- The machine as operations on values see it. -/
def bare (s : Machine) : Machine :=
  { s with
    memory := s.memory.plain
    code := default
    stack := s.stack.bare
    pc := 0
    events := {}
    nested := 0
    lastReturn := none }

/-- An operation that takes no notice of what only the flow of control looks at. -/
abbrev Plain {α : Type} (x : MachineM α) : Prop := Blind bare x

variable {α β : Type}

theorem plain_inMemory {x : MemoryM α} (h : Blind Memory.plain x) : Plain (inMemory x) := by
  intro s t same
  have memory : s.memory.plain = t.memory.plain := congrArg Machine.memory same
  have alike := h s.memory t.memory memory
  have rest (m n : Memory) (same' : m.plain = n.plain) :
      bare { s with memory := m } = bare { t with memory := n } := by
    have swap : bare { s with memory := m } = { bare s with memory := m.plain } := rfl
    rw [swap, same, same']
    rfl
  rw [run_inMemory, run_inMemory]
  cases hs : x s.memory <;> cases ht : x t.memory <;> simp only [hs, ht, seen] at alike ⊢
  · obtain ⟨rfl, same'⟩ := EStateM.Result.ok.inj alike
    rw [rest _ _ same']
  · cases alike
  · cases alike
  · obtain ⟨rfl, same'⟩ := EStateM.Result.error.inj alike
    rw [rest _ _ same']

end Machine

namespace CallStack

theorem base_bare (s : CallStack) : s.bare.base = s.base := by
  unfold base bare
  cases s.frames <;> rfl

theorem top_bare (s : CallStack) : s.bare.top = s.top := by
  have size : s.bare.size = s.size := rfl
  unfold top
  rw [base_bare, size]
  rfl

theorem push_bare (s : CallStack) (w : Word) : s.bare.push w = (s.push w).map bare := by
  have size : s.bare.size = s.size := rfl
  unfold push
  rw [size]
  change (if s.capacity ≤ s.size then _ else _) = _
  split <;> rfl

theorem replaceTop_bare (s : CallStack) (w : Word) :
    s.bare.replaceTop w = (s.replaceTop w).map bare := by
  unfold replaceTop
  rw [top_bare]
  cases s.top <;> rfl

theorem pop_bare (s : CallStack) : s.bare.pop = s.pop.map fun p => (p.1, p.2.bare) := by
  unfold pop
  rw [top_bare]
  cases s.top <;> rfl

theorem peek_bare (s : CallStack) : s.bare.peek = s.peek := by rw [peek, top_bare, peek]

end CallStack

namespace Machine

variable {α β : Type}

theorem stack_bare {s t : Machine} (same : s.bare = t.bare) : s.stack.bare = t.stack.bare :=
  congrArg Machine.stack same

/-- Machines that look alike look alike with stacks that look alike. -/
theorem bare_withStack {s t : Machine} (same : s.bare = t.bare) {a b : CallStack}
    (h : a.bare = b.bare) : bare { s with stack := a } = bare { t with stack := b } := by
  have swap : bare { s with stack := a } = { bare s with stack := a.bare } := rfl
  rw [swap, same, h]
  rfl

theorem plain_onStack {f : CallStack → Except Fault CallStack}
    (h : ∀ s : CallStack, f s.bare = (f s).map CallStack.bare) : Plain (onStack f) := by
  intro s t same
  have alike : (f s.stack).map CallStack.bare = (f t.stack).map CallStack.bare := by
    rw [← h, ← h, stack_bare same]
  rw [run_onStack, run_onStack]
  cases hs : f s.stack <;> cases ht : f t.stack <;> simp only [hs, ht, seen] at alike ⊢
  · cases alike
    rw [same]
  · cases alike
  · cases alike
  · rw [bare_withStack same (Except.ok.inj alike)]

theorem plain_pop : Plain pop := by
  intro s t same
  have alike : s.stack.pop.map (fun p => (p.1, p.2.bare))
      = t.stack.pop.map fun p => (p.1, p.2.bare) := by
    rw [← CallStack.pop_bare, ← CallStack.pop_bare, stack_bare same]
  rw [run_pop, run_pop]
  cases hs : s.stack.pop <;> cases ht : t.stack.pop <;> simp only [hs, ht, seen] at alike ⊢
  · cases alike
    rw [same]
  · cases alike
  · cases alike
  · obtain ⟨words, rest⟩ := Prod.mk.inj (Except.ok.inj alike)
    rw [words, bare_withStack same rest]

theorem plain_peek : Plain (peekVariable .stack) :=
  .get_bind (fun s => by
    change (liftM s.stack.bare.peek : MachineM Word) = _
    rw [CallStack.peek_bare]) fun s => .lift _

/-- The number of arguments of the running frame is seen. -/
theorem plain_argumentCount {f : Nat → MachineM α} (hf : ∀ n, Plain (f n)) :
    Plain (do
      let frame ← (← get).stack.current
      f frame.argumentCount) := by
  intro s t same
  have frames : s.stack.frames.map Frame.bare = t.stack.frames.map Frame.bare :=
    congrArg CallStack.frames (stack_bare same)
  change seen bare ((liftM s.stack.current >>= fun frame => f frame.argumentCount : MachineM α) s)
    = seen bare ((liftM t.stack.current >>= fun frame => f frame.argumentCount : MachineM α) t)
  unfold CallStack.current
  cases hs : s.stack.frames with
  | nil =>
      cases ht : t.stack.frames with
      | nil => exact congrArg (EStateM.Result.error _) same
      | cons g gs => simp [hs, ht] at frames
  | cons g gs =>
      cases ht : t.stack.frames with
      | nil => simp [hs, ht] at frames
      | cons g' gs' =>
          rw [hs, ht] at frames
          have same' : g.bare.argumentCount = g'.bare.argumentCount :=
            congrArg Frame.argumentCount (List.cons.inj frames).1
          have count : g.argumentCount = g'.argumentCount := same'
          change seen bare (f g.argumentCount s) = seen bare (f g'.argumentCount t)
          rw [count]
          exact hf _ s t same

theorem bare_withHost {s t : Machine} (same : s.bare = t.bare) (host : Host) :
    bare { s with host } = bare { t with host } := by
  have swap : bare { s with host } = { bare s with host } := rfl
  rw [swap, same]
  rfl

theorem plain_host (f : Host → α × Host) :
    Plain (fun s => .ok (f s.host).1 { s with host := (f s.host).2 } : MachineM α) := by
  intro s t same
  have host : s.bare.host = t.bare.host := congrArg Machine.host same
  change s.host = t.host at host
  dsimp only
  rw [host]
  exact congrArg (EStateM.Result.ok _) (bare_withHost same _)

/-- Operations on values see values only. -/
theorem OnValues.plain {x : MachineM α} (h : OnValues true x) : Plain x := by
  induction h with
  | pure a => exact .pure a
  | throw e => exact .throw e
  | bind _ _ ihx ihf => exact ihx.bind ihf
  | look h _ ih => exact .get_bind (fun s => (h s.bare).symm.trans (h s)) ih
  | argumentCount _ ih => exact plain_argumentCount ih
  | push w => exact plain_onStack fun s => s.push_bare w
  | pop => exact plain_pop
  | peek => exact plain_peek
  | replaceTop w =>
      show Plain (onStack (·.replaceTop w))
      exact plain_onStack fun s => s.replaceTop_bare w
  | inMemory _ tame => exact plain_inMemory tame.blind
  | write a bs =>
      exact (plain_inMemory (MemoryM.tame_writeBytes a bs).blind).bind fun _ =>
        .modified id fun _ => rfl
  | host f => exact plain_host f
  | setStreams streams => exact .modified (fun s => { s with streams }) fun _ => rfl
  | setRandom random => exact .modified (fun s => { s with random }) fun _ => rfl

/-- From machines that are the same when bare, such an operation goes in step: it gives the same and
leaves machines that are the same when bare, or it fails with the same fault. -/
theorem OnValues.joint {x : MachineM α} (h : OnValues true x) {s t : Machine}
    (same : s.bare = t.bare) :
    Joint (fun a s' b t' => a = b ∧ s'.bare = t'.bare ∧ Effects true false s s' ∧
        Effects true false t t')
      (fun e _ e' _ => e = e') (x s) (x t) := by
  have alike := h.plain s t same
  have effects : Effects true false s (endState (x s)) := h.does s
  have effects' : Effects true false t (endState (x t)) := h.does t
  generalize x s = r at alike effects
  generalize x t = r' at alike effects'
  cases r with
  | ok a s' =>
      cases r' with
      | error e t' => cases alike
      | ok b t' =>
          obtain ⟨rfl, bare⟩ := EStateM.Result.ok.inj alike
          exact .ok ⟨rfl, bare, effects, effects'⟩
  | error e s' =>
      cases r' with
      | ok b t' => cases alike
      | error e' t' => exact .error (EStateM.Result.error.inj alike).1

end Machine

end ZMachine
