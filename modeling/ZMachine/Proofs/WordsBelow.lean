/-
  What lies below the running routine.

  A routine reaches its own words only.  Whatever words are put in place of
  those below them, an action that does not begin the story anew does the same
  and leaves them as they are, down to the base of the last frame that it
  leaves.
-/
import ZMachine.Proofs.Frames
import ZMachine.Proofs.StackUse

namespace ZMachine

/-! ## More words on the stack -/

/-- Writing a local changes the locals of the newest frame, and not their number. -/
theorem CallStack.writeLocal_ok {k k' : CallStack} {i : Byte} {w : Word}
    (ran : k.writeLocal i w = .ok k') :
    ∃ f fs locals, k.frames = f :: fs ∧ locals.length = f.localCount ∧
      k' = { k with frames := { f with locals } :: fs } := by
  unfold writeLocal current Frame.setLocal at ran
  cases frames : k.frames with
  | nil =>
      rw [frames] at ran
      cases ran
  | cons f fs =>
      rw [frames] at ran
      by_cases inside : i.toNat < f.localCount
      · simp only [bind, Except.bind, inside, if_true] at ran
        cases ran
        exact ⟨f, fs, _, rfl, List.length_set, rfl⟩
      · simp only [bind, Except.bind, inside, if_false] at ran
        cases ran

namespace CallStack

variable {k : CallStack} {ws : List Word}

theorem pop_eq_map : k.pop = k.top.map fun p => (p.1, { k with values := p.2 }) := by
  unfold pop
  cases k.top <;> rfl

theorem peek_eq_map : k.peek = k.top.map Prod.fst := rfl

theorem replaceTop_eq_map (w : Word) :
    k.replaceTop w = k.top.map fun p => { k with values := w :: p.2 } := by
  unfold replaceTop
  cases k.top <;> rfl

/-- The stack with more words below. -/
def atop (k : CallStack) (ws : List Word) : CallStack := { k with values := k.values ++ ws }

theorem size_atop : (k.atop ws).size = k.size + ws.length := List.length_append

/-- The newest word of the running routine when there are `n` more words below. -/
def topAbove (k : CallStack) (n : Nat) : Except Fault (Word × List Word) :=
  match k.values with
  | [] => .error .stackUnderflow
  | w :: ws => if k.size + n ≤ k.base then .error .stackUnderflow else .ok (w, ws)

/-- The newest word is none of those below the running routine. -/
theorem top_atop (below : ws.length ≤ k.base) :
    (k.atop ws).top = (k.topAbove ws.length).map fun p => (p.1, p.2 ++ ws) := by
  have base : (k.atop ws).base = k.base := rfl
  unfold top topAbove
  rw [size_atop, base]
  cases values : k.values with
  | nil =>
      have empty : k.size = 0 := by rw [size, values]; rfl
      have here : (k.atop ws).values = ws := by rw [atop, values]; rfl
      rw [here]
      cases ws with
      | nil => rfl
      | cons w ws =>
          rw [empty]
          exact if_pos (by omega)
  | cons w rest =>
      have here : (k.atop ws).values = w :: (rest ++ ws) := by rw [atop, values]; rfl
      rw [here]
      dsimp only
      split <;> rfl

theorem pop_atop (below : ws.length ≤ k.base) : (k.atop ws).pop =
    (k.topAbove ws.length).map fun p => (p.1, ({ k with values := p.2 } : CallStack).atop ws) := by
  rw [pop_eq_map, top_atop below]
  cases k.topAbove ws.length <;> rfl

theorem peek_atop (below : ws.length ≤ k.base) :
    (k.atop ws).peek = (k.topAbove ws.length).map Prod.fst := by
  rw [peek_eq_map, top_atop below]
  cases k.topAbove ws.length <;> rfl

theorem replaceTop_atop (below : ws.length ≤ k.base) (w : Word) : (k.atop ws).replaceTop w =
    ((k.topAbove ws.length).map fun p => ({ k with values := w :: p.2 } : CallStack)).map
      (·.atop ws) := by
  rw [replaceTop_eq_map, top_atop below]
  cases k.topAbove ws.length <;> rfl

theorem push_atop (w : Word) : (k.atop ws).push w =
    (if k.capacity ≤ k.size + ws.length then Except.error (.stackOverflow k.capacity)
      else .ok { k with values := w :: k.values }).map (·.atop ws) := by
  unfold push
  rw [size_atop]
  change (if k.capacity ≤ k.size + ws.length then _ else _) = _
  split <;> rfl

theorem pushFrame_atop (f : Frame) : (k.atop ws).pushFrame f = (k.pushFrame f).map (·.atop ws) := by
  unfold pushFrame
  change (if maxCallDepth ≤ k.depth then _ else _) = _
  split <;> rfl

theorem writeLocal_atop (i : Byte) (w : Word) :
    (k.atop ws).writeLocal i w = (k.writeLocal i w).map (·.atop ws) := by
  unfold writeLocal
  change (k.current >>= _) = _
  cases k.current with
  | error e => rfl
  | ok f =>
      change (f.setLocal i w >>= _) = (f.setLocal i w >>= _).map _
      cases f.setLocal i w <;> rfl

/-- A frame that is left takes only words above its base along. -/
theorem popFrame_atop {f : Frame} {fs : List Frame} (frames : k.frames = f :: fs)
    (below : ws.length ≤ f.base) : (k.atop ws).popFrame =
      .ok (f, ({ k with values := k.values.drop (k.size + ws.length - f.base), frames := fs } :
        CallStack).atop ws) := by
  have frames' : (k.atop ws).frames = f :: fs := frames
  unfold popFrame
  rw [frames']
  dsimp only
  rw [size_atop, atop, atop]
  dsimp only
  rw [List.drop_append_of_le_length]
  change k.size + ws.length - f.base ≤ k.size
  omega

end CallStack

namespace Machine

variable {ε α β : Type} {n : Nat} {s t : Machine}

/-- The machine with more words below those on its stack. -/
def atop (s : Machine) (ws : List Word) : Machine := { s with stack := s.stack.atop ws }

theorem stack_atop (s : Machine) (ws : List Word) : (s.atop ws).stack = s.stack.atop ws := rfl

/-- Begun with any `n` words below those of `s`, an action gives `r` with the same words below. -/
def Floats (n : Nat) (x : EStateM ε Machine α) (s : Machine)
    (r : EStateM.Result ε Machine α) : Prop :=
  ∀ ws : List Word, ws.length = n → x (s.atop ws) = moved (·.atop ws) r

theorem Floats.bind {x : EStateM ε Machine α} {f : α → EStateM ε Machine β} {a : α}
    {r : EStateM.Result ε Machine β} (hx : Floats n x s (.ok a t)) (hf : Floats n (f a) t r) :
    Floats n (x >>= f) s r := by
  intro ws length
  rw [run_bind, hx ws length]
  exact hf ws length

/-- A frame that is left takes along nothing from below its base. -/
theorem Floats.leaveFrame {f : Frame} {fs : List Frame} (frames : s.stack.frames = f :: fs)
    (below : n ≤ f.base) : Floats n leaveFrame s (.ok f { s with stack := { s.stack with
      values := s.stack.values.drop (s.stack.size + n - f.base), frames := fs } }) := by
  intro ws length
  rw [run_leaveFrame, stack_atop, CallStack.popFrame_atop frames (by omega), length]
  rfl

/-- An action does the same whatever `n` words are below, and ends with a stack for which
`P` holds. -/
def FloatsTo (n : Nat) (x : EStateM ε Machine α) (s : Machine) (P : CallStack → Prop) : Prop :=
  ∃ r, Floats n x s r ∧ P (endState r).stack

namespace FloatsTo

variable {P Q : CallStack → Prop}

theorem mono {x : EStateM ε Machine α} (h : FloatsTo n x s P) (le : ∀ k, P k → Q k) :
    FloatsTo n x s Q := by
  obtain ⟨r, floats, ends⟩ := h
  exact ⟨r, floats, le _ ends⟩

theorem bind {x : EStateM ε Machine α} {f : α → EStateM ε Machine β} (hx : FloatsTo n x s P)
    (hf : ∀ a t, P t.stack → FloatsTo n (f a) t Q) (failed : ∀ k, P k → Q k) :
    FloatsTo n (x >>= f) s Q := by
  obtain ⟨r, floats, ends⟩ := hx
  cases r with
  | ok a t =>
      obtain ⟨r, floats', ends⟩ := hf a t ends
      exact ⟨r, floats.bind floats', ends⟩
  | error e t =>
      refine ⟨.error e t, fun ws length => ?_, failed _ ends⟩
      rw [run_bind, floats ws length]
      rfl

/-- The same property carries an action from part to part. -/
theorem andThen {x : EStateM ε Machine α} {f : α → EStateM ε Machine β} (hx : FloatsTo n x s P)
    (hf : ∀ a t, P t.stack → FloatsTo n (f a) t P) : FloatsTo n (x >>= f) s P :=
  hx.bind hf fun _ ends => ends

theorem apart {x : EStateM ε Machine α} (h : Apart withStack x) (same : P s.stack) :
    FloatsTo n x s P := by
  have stack := stack_apart h s
  refine ⟨x s, fun ws _ => ?_, stack ▸ same⟩
  have ran := h s (s.stack.atop ws)
  change x (s.atop ws) = _ at ran
  rw [ran]
  cases hx : x s with
  | ok a t =>
      rw [hx] at stack
      change t.stack = s.stack at stack
      simp only [moved, withStack, atop, ← stack]
  | error e t =>
      rw [hx] at stack
      change t.stack = s.stack at stack
      simp only [moved, withStack, atop, ← stack]

theorem look {f : Machine → EStateM ε Machine α} (h : ∀ values, f (s.withValues values) = f s)
    (hf : FloatsTo n (f s) s P) : FloatsTo n (get >>= f) s P := by
  obtain ⟨r, floats, ends⟩ := hf
  refine ⟨r, fun ws length => ?_, ends⟩
  change f (s.withValues (s.stack.values ++ ws)) (s.atop ws) = _
  rw [h]
  exact floats ws length

theorem locating {x : MachineM α} (a : Nat) (h : FloatsTo n x s P) :
    FloatsTo n (locating a x) s P := by
  obtain ⟨r, floats, ends⟩ := h
  cases r with
  | error e t =>
      refine ⟨.error (e.locate a) t, fun ws length => ?_, ends⟩
      rw [Machine.locating, floats ws length]
      rfl
  | ok b t =>
      refine ⟨.ok b t, fun ws length => ?_, ends⟩
      rw [Machine.locating, floats ws length]
      rfl

/-- What the stack becomes decides what the action does. -/
theorem onStack {f : CallStack → Except Fault CallStack} (g : Except Fault CallStack)
    (h : ∀ ws : List Word, ws.length = n → f (s.stack.atop ws) = g.map (·.atop ws))
    (same : P s.stack) (ends : ∀ k, g = .ok k → P k) : FloatsTo n (onStack f) s P := by
  cases g with
  | error e =>
      refine ⟨.error e s, fun ws length => ?_, same⟩
      rw [run_onStack, stack_atop, h ws length]
      rfl
  | ok k =>
      refine ⟨.ok () { s with stack := k }, fun ws length => ?_, ends k rfl⟩
      rw [run_onStack, stack_atop, h ws length]
      rfl

/-- Adding a word, whatever is below. -/
theorem push (w : Word) (ends : ∀ values, P { s.stack with values }) : FloatsTo n (push w) s P := by
  refine onStack (if s.stack.capacity ≤ s.stack.size + n then
    .error (.stackOverflow s.stack.capacity)
    else .ok { s.stack with values := w :: s.stack.values }) (fun ws length => ?_)
    (ends s.stack.values) fun k ran => ?_
  · rw [← length]
    exact CallStack.push_atop w
  · split at ran
    · cases ran
    · cases ran
      exact ends _

theorem writeLocal (i : Byte) (w : Word) (same : P s.stack)
    (ends : ∀ k, k.base = s.stack.base → k.depth = s.stack.depth → P k) :
    FloatsTo n (writeVariable (.localVar i) w) s P := by
  change FloatsTo n (Machine.onStack (·.writeLocal i w)) s P
  refine onStack (s.stack.writeLocal i w) (fun ws _ => CallStack.writeLocal_atop i w) same
    fun k ran => ?_
  obtain ⟨f, fs, locals, frames, -, rfl⟩ := CallStack.writeLocal_ok ran
  refine ends _ ?_ ?_
  · rw [CallStack.base, CallStack.base, frames]
    rfl
  · rw [CallStack.depth, CallStack.depth, frames]
    rfl

theorem pop (below : n ≤ s.stack.base) (ends : ∀ values, P { s.stack with values }) :
    FloatsTo n pop s P := by
  have popped (ws : List Word) (length : ws.length = n) := CallStack.pop_atop (length ▸ below)
  cases top : s.stack.topAbove n with
  | error e =>
      refine ⟨.error e s, fun ws length => ?_, ends s.stack.values⟩
      rw [run_pop, stack_atop, popped ws length, length, top]
      rfl
  | ok p =>
      refine ⟨.ok p.1 (s.withValues p.2), fun ws length => ?_, ends p.2⟩
      rw [run_pop, stack_atop, popped ws length, length, top]
      rfl

theorem peek (below : n ≤ s.stack.base) (same : P s.stack) :
    FloatsTo n (peekVariable .stack) s P := by
  have peeked (ws : List Word) (length : ws.length = n) := CallStack.peek_atop (length ▸ below)
  cases top : s.stack.topAbove n with
  | error e =>
      refine ⟨.error e s, fun ws length => ?_, same⟩
      change (liftM (s.stack.atop ws).peek : MachineM Word) (s.atop ws) = _
      rw [peeked ws length, length, top]
      rfl
  | ok p =>
      refine ⟨.ok p.1 s, fun ws length => ?_, same⟩
      change (liftM (s.stack.atop ws).peek : MachineM Word) (s.atop ws) = _
      rw [peeked ws length, length, top]
      rfl

theorem replaceTop (w : Word) (below : n ≤ s.stack.base)
    (ends : ∀ values, P { s.stack with values }) : FloatsTo n (replaceVariable .stack w) s P := by
  change FloatsTo n (Machine.onStack (·.replaceTop w)) s P
  refine onStack ((s.stack.topAbove n).map fun p => { s.stack with values := w :: p.2 })
    (fun ws length => ?_) (ends s.stack.values) fun k ran => ?_
  · rw [← length]
    exact CallStack.replaceTop_atop (length ▸ below) w
  · cases top : s.stack.topAbove n with
    | error e =>
        rw [top] at ran
        cases ran
    | ok p =>
        rw [top] at ran
        cases ran
        exact ends _

/-- A frame that is entered stands on all words that are there. -/
theorem enterFrame (a : Nat) (args : List Word) (store : Option Variable) (returnAddress : Nat)
    (below : n ≤ s.stack.base) :
    FloatsTo n (enterFrame a args store returnAddress) s fun k => n ≤ k.base := by
  refine look (fun _ => rfl) ((apart (apart_ask _) below).andThen fun p t below => ?_)
  refine andThen
    (onStack (t.stack.pushFrame (.enter a returnAddress store p.1 args (t.stack.size + n)))
    (fun ws length => ?_) below fun k ran => ?_) fun _ t below => ?_
  · rw [CallStack.size_atop, length]
    exact CallStack.pushFrame_atop _
  · unfold CallStack.pushFrame at ran
    split at ran
    · cases ran
    · cases ran
      exact Nat.le_add_left n _
  · refine andThen (apart (.modified fun _ _ => rfl) below) fun _ t below => ?_
    exact apart (.pure _) below

/-- A frame that is left takes along nothing from below its base. -/
theorem leaveFrame (below : n ≤ s.stack.base) :
    FloatsTo n leaveFrame s fun k => k.depth = s.stack.depth - 1 := by
  cases frames : s.stack.frames with
  | nil =>
      have empty : s.stack.depth = 0 := by rw [CallStack.depth, frames, List.length_nil]
      refine ⟨.error .noFrame s, fun ws length => ?_, ?_⟩
      · have frames : (s.atop ws).stack.frames = [] := frames
        rw [run_leaveFrame, CallStack.popFrame, frames]
        rfl
      · change s.stack.depth = s.stack.depth - 1
        omega
  | cons f fs =>
      have base : s.stack.base = f.base := by rw [CallStack.base, frames]; rfl
      have size : s.stack.depth = fs.length + 1 := by rw [CallStack.depth, frames, List.length_cons]
      refine ⟨_, Floats.leaveFrame frames (base ▸ below), ?_⟩
      change fs.length = s.stack.depth - 1
      omega

end FloatsTo

/-- An orderly action that leaves no frame does the same whatever is below the running routine. -/
theorem Orderly.floats {x : MachineM α} (h : Orderly false x) (below : n ≤ s.stack.base) :
    FloatsTo n x s fun k => n ≤ k.base := by
  -- The invariant is that the base stays at or above the words that are exchanged.
  induction h generalizing s with
  | apart apart => exact .apart apart below
  | look values _ ih => exact .look (values s) (ih s below)
  | bind _ _ first rest => exact (first below).andThen fun a t below => rest a below
  | locating a _ ih => exact .locating a (ih below)
  | push w => exact .push w fun _ => below
  | pop => exact .pop below fun _ => below
  | peek => exact .peek below below
  | replaceTop w => exact .replaceTop w below fun _ => below
  | writeLocal i w =>
      refine .writeLocal i w below fun k base _ => ?_
      omega
  | enterFrame a args store returnAddress => exact .enterFrame a args store returnAddress below
  | leaveFrame permitted => cases permitted
  | start permitted => cases permitted

namespace FloatsTo

theorem writeVariable (v : Variable) (w : Word) :
    FloatsTo n (writeVariable v w) s fun k => k.depth = s.stack.depth := by
  cases v with
  | stack => exact push w fun _ => rfl
  | localVar i => exact writeLocal i w rfl fun _ _ depth => depth
  | globalVar i =>
      refine look (fun _ => rfl) (andThen (apart (apart_inMemory _) rfl) ?_)
      exact fun _ t depth => apart (.modified fun _ _ => rfl) depth

/-- A return takes along nothing from below the frame that it leaves, whatever the caller
has there. -/
theorem returnFrom (w : Word) (below : n ≤ s.stack.base) :
    FloatsTo n (returnFrom w) s fun k => k.depth = s.stack.depth - 1 := by
  refine look (fun _ => rfl) ((leaveFrame below).andThen fun frame t depth => ?_)
  refine andThen (apart (.modified fun _ _ => rfl) depth) fun _ t depth => ?_
  refine andThen (apart (.modified fun _ _ => rfl) depth) fun _ t depth => ?_
  split
  · exact apart apart_quit depth
  · refine andThen (apart (.modified fun _ _ => rfl) depth) fun _ t depth => ?_
    cases frame.store with
    | none => exact apart (.pure _) depth
    | some v => exact (writeVariable v w).mono fun u same => same.trans depth

theorem leaveCompiled (w : Word) (below : n ≤ s.stack.base) :
    FloatsTo n (leaveCompiled w) s fun k => k.depth = s.stack.depth - 1 := by
  refine (leaveFrame below).andThen fun frame t depth => ?_
  refine andThen (apart (.modified fun _ _ => rfl) depth) fun _ t depth => ?_
  exact apart (.modified fun _ _ => rfl) depth

/-- Unwinding takes along nothing from below the frames that it leaves. -/
theorem unwindTo {depth bound : Nat} (enough : s.stack.depth ≤ depth + bound)
    (below : ∀ f ∈ s.stack.frames.take (s.stack.depth - depth), n ≤ f.base) :
    ∃ t, Floats n (unwindTo depth bound) s (.ok () t) ∧
      t.stack.frames = s.stack.frames.drop (s.stack.depth - depth) := by
  -- Once deep enough, nothing more is left, however large the bound.
  have reached {s : Machine} (bound : Nat) (low : s.stack.depth ≤ depth) :
      ∃ t, Floats n (Machine.unwindTo depth bound) s (.ok () t) ∧
        t.stack.frames = s.stack.frames.drop (s.stack.depth - depth) := by
    refine ⟨s, fun ws _ => run_unwindTo_low (s := s.atop ws) low bound, ?_⟩
    rw [Nat.sub_eq_zero_of_le low]
    rfl
  induction bound generalizing s with
  | zero => exact reached 0 enough
  | succ bound ih =>
      by_cases deep : depth < s.stack.depth
      · cases frames : s.stack.frames with
        | nil =>
            rw [CallStack.depth, frames] at deep
            cases deep
        | cons f fs =>
            have size : s.stack.depth = fs.length + 1 := by
              rw [CallStack.depth, frames, List.length_cons]
            have count : s.stack.depth - depth = (fs.length - depth) + 1 := by omega
            rw [count, frames, List.take_succ_cons] at below
            rw [count, List.drop_succ_cons]
            -- One frame is left here, and the others from there.
            let left : Machine := { s with
              stack := { s.stack with
                values := s.stack.values.drop (s.stack.size + n - f.base), frames := fs }
              events := s.events.emit (.exited f.address f.returnAddress) }
            have enough' : left.stack.depth ≤ depth + bound := by
              change fs.length ≤ depth + bound
              omega
            obtain ⟨t, floats, rest⟩ := ih enough' fun g mem => below g (.tail _ mem)
            refine ⟨t, fun ws length => ?_, rest⟩
            change (if depth < s.stack.depth then _ else _ : MachineM Unit) (s.atop ws) = _
            rw [if_pos deep, run_bind, Floats.leaveFrame frames (below f (.head _)) ws length]
            exact floats ws length
      · exact reached _ (Nat.not_lt.mp deep)

theorem throwTo {w token : Word} (valid : ¬(token = 0 ∨ s.stack.depth < token.toNat))
    (below : ∀ f ∈ s.stack.frames.take (s.stack.depth + 1 - token.toNat), n ≤ f.base) :
    FloatsTo n (throwTo w token) s fun k => k.depth + 1 = token.toNat := by
  obtain ⟨nonzero, deep⟩ := not_or.mp valid
  have positive : 0 < token.toNat :=
    Nat.pos_of_ne_zero fun zero => nonzero (UInt16.toNat_inj.mp zero)
  refine look (fun _ => rfl) ?_
  rw [if_neg valid]
  -- From the frame that the token names, a return takes one more frame.
  have count : s.stack.depth + 1 - token.toNat = (s.stack.depth - token.toNat) + 1 := by omega
  have enough : s.stack.depth ≤ token.toNat + s.stack.depth := by omega
  obtain ⟨t, unwound, rest⟩ := unwindTo enough fun f mem =>
    below f (by rw [count]; exact List.take_subset_take_left _ (Nat.le_succ _) mem)
  have depth : t.stack.depth = token.toNat := by
    rw [CallStack.depth, rest, List.length_drop]
    change s.stack.depth - (s.stack.depth - token.toNat) = _
    omega
  have low : n ≤ t.stack.base := by
    cases frames : t.stack.frames with
    | nil =>
        rw [CallStack.depth, frames, List.length_nil] at depth
        omega
    | cons f fs =>
        have named : f ∈ s.stack.frames.take (s.stack.depth + 1 - token.toNat) := by
          rw [count, List.take_add_one, ← List.head?_drop, ← rest, frames]
          simp
        rw [CallStack.base, frames]
        exact below f named
  obtain ⟨r, returned, ends⟩ := returnFrom w low
  exact ⟨r, unwound.bind returned, by omega⟩

theorem go (way : Way) (below : n ≤ s.stack.base) : FloatsTo n (go way) s fun _ => True := by
  cases way with
  | onward => exact apart (.pure _) trivial
  | goto a => exact apart (.modified fun _ _ => rfl) trivial
  | leave w => exact (returnFrom w below).mono fun _ _ => trivial

end FloatsTo

/-- With nothing below, an action floats as it is. -/
theorem atop_nil (s : Machine) : s.atop [] = s := by
  obtain ⟨⟩ := s
  simp [atop, CallStack.atop]

theorem depth_throwTo {w token : Word} (valid : ¬(token = 0 ∨ s.stack.depth < token.toNat)) :
    (endState (throwTo w token s)).stack.depth + 1 = token.toNat := by
  -- With no words exchanged there is no condition on the frames.
  obtain ⟨r, floats, depth⟩ := FloatsTo.throwTo (n := 0) (w := w) valid fun _ _ => Nat.zero_le _
  have ran := floats [] rfl
  rw [atop_nil] at ran
  rw [ran, endState_moved]
  exact depth

/-- The frames that are left on the way from `s` to `t`. -/
def framesLeft (s t : Machine) : List Frame := s.stack.frames.take (s.stack.depth - t.stack.depth)

theorem framesLeft_congr {s s' : Machine} (frames : s'.stack.frames = s.stack.frames)
    (t : Machine) : s'.framesLeft t = s.framesLeft t := by
  simp only [framesLeft, CallStack.depth, frames]

/-- Unwinding to a token takes along nothing from below the frames that it leaves, whether or not
the token names one. -/
theorem floats_throwTo {w token : Word} (ws : List Word)
    (above : ∀ f ∈ s.framesLeft (endState (throwTo w token (s.atop ws))), n ≤ f.base) :
    FloatsTo n (throwTo w token) s fun _ => True := by
  by_cases invalid : token = 0 ∨ s.stack.depth < token.toNat
  · refine ⟨.error (.invalidThrow token) s, fun us _ => ?_, trivial⟩
    change (if token = 0 ∨ s.stack.depth < token.toNat then _ else _ : MachineM Unit)
      (s.atop us) = _
    rw [if_pos invalid]
    rfl
  · refine (FloatsTo.throwTo invalid fun f mem => above f ?_).mono fun _ _ => trivial
    have depth := depth_throwTo (s := s.atop ws) (w := w) invalid
    have same : s.stack.depth - (endState (throwTo w token (s.atop ws))).stack.depth
        = s.stack.depth + 1 - token.toNat := by omega
    rw [framesLeft, same]
    exact mem

/-- The same with operands that may be missing. -/
theorem floats_throwOperands {first second : Except Fault Word} (ws : List Word)
    (above : ∀ f ∈ s.framesLeft (endState (((liftM first : MachineM Word) >>= fun w =>
      (liftM second : MachineM Word) >>= fun token => throwTo w token) (s.atop ws))), n ≤ f.base) :
    FloatsTo n ((liftM first : MachineM Word) >>= fun w =>
      (liftM second : MachineM Word) >>= fun token => throwTo w token) s fun _ => True := by
  cases first with
  | error e => exact ⟨.error e s, fun _ _ => rfl, trivial⟩
  | ok w =>
      cases second with
      | error e => exact ⟨.error e s, fun _ _ => rfl, trivial⟩
      | ok token => exact floats_throwTo ws above

/-- An instruction that does not begin anew takes along nothing from below the frames that
it leaves. -/
theorem floats_execute {i : Instruction} (noRestart : i.opcode ≠ .restart)
    (below : n ≤ s.stack.base) {ws : List Word} (length : ws.length = n)
    (above : ∀ f ∈ s.framesLeft (endState (execute i (s.atop ws))), n ≤ f.base) :
    FloatsTo n (execute i) s fun _ => True := by
  -- Only unwinding leaves more than one frame; all else returns from the running routine at most.
  by_cases throws : i.opcode = .throwFrame
  · have spelled : execute i = operandValues i >>= fun args =>
        (liftM (argument i.opcode args 0) : MachineM Word) >>= fun w =>
          (liftM (argument i.opcode args 1) : MachineM Word) >>= fun token => throwTo w token := by
      simp only [execute, throws]
    rw [spelled] at above ⊢
    obtain ⟨r, read, -⟩ := (Orderly.closed.operandValues i).floats below
    cases r with
    | error e t =>
        refine ⟨.error e t, fun us length => ?_, trivial⟩
        rw [run_bind, read us length]
        rfl
    | ok args t =>
        -- Reading operands leaves the frames as they are.
        have effects : Effects false false (s.atop ws) _ := does_operandValues i (s.atop ws)
        have stays := stays_of_effects effects
        rw [read ws length] at stays
        have frames : t.stack.frames = s.stack.frames := stays.frames
        rw [run_bind, read ws length, ← framesLeft_congr frames] at above
        obtain ⟨r, floats, -⟩ := floats_throwOperands ws above
        exact ⟨r, read.bind floats, trivial⟩
  · rw [execute_eq]
    have way : Orderly false (wayOf i) :=
      .wayOf fun leaves => absurd leaves (by simp [throws, noRestart])
    exact (way.floats below).bind (fun w t below => .go w below) fun _ _ => trivial

/-- A step that does not begin anew takes along nothing from below the frames that it leaves. -/
theorem floats_step (noRestart : ¬s.Restarts) (below : n ≤ s.stack.base) {ws : List Word}
    (length : ws.length = n)
    (above : ∀ f ∈ s.framesLeft (endState (step (s.atop ws))), n ≤ f.base) :
    FloatsTo n step s fun _ => True := by
  -- A story that is over or waits refuses the step; else the instruction decides.
  cases state : s.state with
  | quit =>
      refine ⟨.error .storyOver s, fun us _ => ?_, trivial⟩
      have state : (s.atop us).state = .quit := state
      simp only [step, run_bind, run_get, state]
      rfl
  | awaiting request =>
      refine ⟨.error (.inputState .stepWhileAwaiting) s, fun us _ => ?_, trivial⟩
      have state : (s.atop us).state = .awaiting request := state
      simp only [step, run_bind, run_get, state]
      rfl
  | running =>
      rcases decodes : s.code.decoded.decode s.memory s.pc with ⟨r, decoded⟩
      cases r with
      | error e =>
          exact ⟨.error (.located s.pc (.image e)) { s with
            events := s.events.emit (.stepping s.pc)
            code := { s.code with decoded } },
            fun us _ => step_of_undecoded (s := s.atop us) state decodes, trivial⟩
      | ok i =>
          have stepped (us : List Word) := step_of_decoded (s := s.atop us) state decodes
          have fetched (us : List Word) :
              (s.atop us).fetched decoded i = (s.fetched decoded i).atop us := rfl
          simp only [fetched] at stepped
          -- The bookkeeping after an instruction does not touch the stack.
          have ends : (endState (step (s.atop ws))).stack
              = (endState (execute i ((s.fetched decoded i).atop ws))).stack := by
            rw [stepped]
            cases execute i ((s.fetched decoded i).atop ws) <;> rfl
          rw [framesLeft, ends] at above
          obtain ⟨r, floats, -⟩ := floats_execute (s := s.fetched decoded i)
            (not_restarts noRestart (nextInstruction?_eq decodes)) below length above
          cases r with
          | ok _ t =>
              refine ⟨.ok () (t.stepped s.pc), fun us length => ?_, trivial⟩
              rw [stepped, floats us length]
              rfl
          | error e t =>
              refine ⟨.error (e.locate s.pc) t, fun us length => ?_, trivial⟩
              rw [stepped, floats us length]
              rfl

end Machine

end ZMachine
