/-
  Stacks that stories keep in tables.

  The first word of such a table counts its free places, and the newest word
  of the stack stands right behind them.  The interpreter counts the address
  of that word without a bound; compiled code counts it in words, where it
  wraps around.  A pull ends alike on both sides exactly if the two addresses
  deliver the same.
-/
import ZMachine.Proofs.Equivalence

namespace ZMachine
namespace Machine

/-! ## The place of the newest word -/

/-- Where the newest word of the stack in `table` stands; `free` places are free once it is
taken. -/
def newestPlace (table free : Word) : Nat := table.toNat + free.toNat * 2

/-- Counted in words, the place wraps around. -/
theorem toNat_newestPlace (table free : Word) :
    (table + free * 2).toNat = newestPlace table free % 65536 := by
  have two : (2 : Word).toNat = 2 := rfl
  rw [UInt16.toNat_add, UInt16.toNat_mul, two]
  show (table.toNat + free.toNat * 2 % 65536) % 65536 = (table.toNat + free.toNat * 2) % 65536
  omega

/-- Take a word off the stack in `table`, read at the address that `reach` makes of its place. -/
def takeFrom (reach : Nat → Nat) (table : Word) : MachineM Word := do
  let free := (← ask (·.readWord table.toNat)) + 1
  let w ← ask (·.readWord (reach (newestPlace table free)))
  storeWord table.toNat free
  return w

/-- Pull a word into `v`, off the stack in the table that the first operand of `i` names. -/
def pullBy (reach : Nat → Nat) (i : Instruction) (v : Variable) : MachineM Unit := do
  let args ← operandValues i
  let w ← takeFrom reach (args.getD 0 0)
  writeVariable v w

/-! ## The interpreter -/

theorem length_operandValues (i : Instruction) :
    Yields (fun args : List Word => args.length = i.operands.length) (operandValues i) := by
  show Yields _ (i.operands.mapM operandValue)
  induction i.operands with
  | nil => exact .pure rfl
  | cons o operands ih =>
      intro s args s' ran
      rw [List.mapM_cons, run_bind] at ran
      split at ran
      · rename_i w t _
        rw [run_bind] at ran
        split at ran
        · rename_i ws t' rest
          have length := ih t ws t' rest
          cases ran
          rw [List.length_cons, List.length_cons, length]
        · cases ran
      · cases ran

/-- An instruction with operands has a first one. -/
theorem exists_cons_of_operandValues {i : Instruction} (table : i.operands ≠ []) {s t : Machine}
    {args : List Word} (ran : operandValues i s = .ok args t) : ∃ w ws, args = w :: ws := by
  have length : args.length = i.operands.length := length_operandValues i s args t ran
  exact List.exists_cons_of_length_pos (length ▸ List.length_pos_of_ne_nil table)

/-- The interpreter reads the newest word where it stands. -/
theorem execute_pull {i : Instruction} {v : Variable} (op : i.opcode = .pull)
    (stores : i.store = some v) (table : i.operands ≠ []) : execute i = pullBy id i v := by
  funext s
  have opened : execute i = pull i := by
    rw [execute, op]
  rw [opened, pull, pullBy, run_bind, run_bind]
  cases ran : operandValues i s with
  | error g t => rfl
  | ok args t =>
      obtain ⟨first, rest, rfl⟩ := exists_cons_of_operandValues table ran
      rw [stores]
      rfl

/-! ## Compiled code -/

/-- Compiled code takes a word off the stack by memory accesses, which count in words. -/
theorem takeFrom_wrapped (table : Word) :
    takeFrom (· % 65536) table = (do
      let free := ((← perform .loadw [table, 0]).value?.getD 0) + 1
      let w := (← perform .loadw [table, free]).value?.getD 0
      discard <| perform .storew [table, 0, free]
      return w) := by
  have first : table + 0 * 2 = table := by simp
  have loads (index : Word) :
      perform .loadw [table, index] =
        ask (·.readWord (table + index * 2).toNat) >>= fun w => pure (.value w) := rfl
  have stores (free : Word) :
      discard (perform .storew [table, 0, free]) = storeWord table.toNat free := by
    show (fun _ => ()) <$> (storeWord (table + 0 * 2).toNat free >>= fun _ => pure Outcome.done) = _
    rw [map_eq_pure_bind, bind_assoc, first]
    exact bind_pure_unit
  simp only [takeFrom, loads, stores, first, bind_assoc, pure_bind, toNat_newestPlace]
  rfl

variable {J : Engine → Prop} {K : Machine → Prop} {pc nested : Nat} {f : Frame} {fs : List Frame}
  {scope : Scope} {i : Instruction} {v : Variable}
  (invoke : Nat → List Word → EngineM (Option Word))

theorem keeps_access (lasting : Lasting J K) (opcode : Opcode) (args : List Word) :
    Keeps J K pc nested f fs Eq ((Engine.helpers invoke).performed opcode args)
      (perform opcode args) :=
  keeps_act lasting (.performed opcode args)

theorem keeps_pullTable (lasting : Lasting J K) (table : Word) :
    Keeps J K pc nested f fs Eq ((Engine.helpers invoke).pullTable table)
      (takeFrom (· % 65536) table) := by
  rw [takeFrom_wrapped]
  apply (keeps_access invoke lasting .loadw [table, 0]).bind
  rintro free _ rfl
  apply (keeps_access invoke lasting .loadw [table, _]).bind
  rintro w _ rfl
  apply (keeps_access invoke lasting .storew [table, 0, _]).discard.bind
  intro _ _ _
  exact .pure rfl

/-- A compiled pull from a table. -/
theorem step_pull {step : CodeStep} {pool more : List String}
    (compiled : scope.step i pool = .ok step more) (op : i.opcode = .pull)
    (stores : i.store = some v) (table : i.operands ≠ []) :
    step = ⟨i.operands, .pullTable (some v)⟩ := by
  have reads : Scope.operandsRead i = i.operands :=
    operandsRead_eq (by rw [op]; rfl) (.inl (by rw [op]; rfl)) (by simp [op])
  have becomes : scope.Becomes more i step := ⟨pool, more, compiled, List.prefix_rfl⟩
  obtain ⟨operands, before, after, made, -⟩ := becomes.parts
  have call : Opcode.pull.isCall = false := rfl
  have nonempty : ¬i.operands.isEmpty = true := by simpa using table
  rw [Scope.action, op] at made
  simp only [call, Bool.false_eq_true, if_false, stores, Option.isSome_some, and_self, if_true,
    nonempty] at made
  obtain ⟨action, -⟩ := Scope.require_ok made
  cases step
  rw [CodeStep.mk.injEq]
  exact ⟨operands.trans reads, action⟩

/-- The compiled pull keeps up with a pull whose place wraps around. -/
theorem keeps_pull (lasting : Lasting J K) :
    Keeps J K pc nested f fs (fun control _ => control = .next)
      ((Engine.helpers invoke).step ⟨i.operands, .pullTable (some v)⟩)
      (pullBy (· % 65536) i v) := by
  rw [step_eq]
  apply (keeps_operands invoke lasting i.operands).bind
  rintro args _ ⟨rfl, -⟩
  rw [← bind_pure (takeFrom _ _ >>= _), bind_assoc]
  apply (keeps_pullTable invoke lasting _).bind
  rintro w _ rfl
  apply (keeps_store invoke lasting (some v) w).bind
  intro _ _ _
  exact .pure rfl

/-! ## What a place delivers -/

/-- What an action comes to, wherever it leaves the machine: its value, or the root of its fault. -/
def comesTo {α : Type} : EStateM.Result Fault Machine α → Except Fault α
  | .ok a _ => .ok a
  | .error g _ => .error g.root

/-- What it comes to when the word at `a` is read and then written to `v`. -/
def conveyed (v : Variable) (a : Nat) (s : Machine) : Except Fault Word :=
  comesTo ((do let w ← ask (·.readWord a); writeVariable v w; return w : MachineM Word) s)

/-- Whether a variable can be written does not depend on the word, nor on the bytes of the image. -/
theorem fault?_writeVariable {s t : Machine} (stack : t.stack = s.stack)
    (header : t.header = s.header) (size : t.memory.size = s.memory.size) (v : Variable)
    (w w' : Word) : fault? (writeVariable v w t) = fault? (writeVariable v w' s) := by
  -- Each kind of variable has one condition: room on the stack, a local of the frame, a word of the
  -- image.
  cases v with
  | stack =>
      show fault? (onStack (·.push w) t) = fault? (onStack (·.push w') s)
      rw [run_onStack, run_onStack, stack]
      unfold CallStack.push
      by_cases full : s.stack.capacity ≤ s.stack.size
      · rw [if_pos full, if_pos full]
        rfl
      · rw [if_neg full, if_neg full]
        rfl
  | localVar i =>
      show fault? (onStack (·.writeLocal i w) t) = fault? (onStack (·.writeLocal i w') s)
      rw [run_onStack, run_onStack, stack]
      unfold CallStack.writeLocal Frame.setLocal
      cases s.stack.current with
      | error g => rfl
      | ok g =>
          by_cases bound : i.toNat < g.localCount
          · simp only [Bind.bind, Except.bind, bound, if_true]
            rfl
          · simp only [Bind.bind, Except.bind, bound, if_false]
            rfl
  | globalVar i =>
      have place : t.globalAddress i = s.globalAddress i := by
        unfold globalAddress
        rw [header]
      show fault? (storeWord (t.globalAddress i) w t) = fault? (storeWord (s.globalAddress i) w' s)
      rw [run_storeWord, run_storeWord, place, size]
      split <;> rfl

/-- What was written to a variable can be told from the image, the words on the stack and the
frames. -/
theorem eq_of_writeVariable {v : Variable} {w w' : Word} {s t t' : Machine}
    (wrote : writeVariable v w s = .ok () t) (wrote' : writeVariable v w' s = .ok () t')
    (bytes : t.memory.bytes = t'.memory.bytes) (values : t.stack.values = t'.stack.values)
    (frames : t.stack.frames = t'.stack.frames) : w = w' := by
  have stored : storeResult (some v) w s = .ok () t := wrote
  have stored' : storeResult (some v) w' s = .ok () t' := wrote'
  have there := (storeResult_ok stored).1
  have there' := (storeResult_ok stored').1
  cases v with
  | stack =>
      rw [there.2, there'.2] at values
      exact (List.cons.inj values).1
  | localVar i =>
      obtain ⟨⟨g, gs, before, bound, after⟩, -⟩ := there
      obtain ⟨⟨g', gs', before', -, after'⟩, -⟩ := there'
      obtain ⟨rfl, rfl⟩ := List.cons.inj (before.symm.trans before')
      rw [after, after'] at frames
      have bound : i.toNat < g.locals.length := bound
      have locals := congrArg Frame.locals (List.cons.inj frames).1
      simpa [bound] using congrArg (·[i.toNat]?) locals
  -- A global is read back from the image, where both words were written at one address.
  | globalVar i =>
      have read := (storeWord_ok (show storeWord (s.globalAddress i) w s = _ from wrote)).1
      have read' := (storeWord_ok (show storeWord (s.globalAddress i) w' s = _ from wrote')).1
      have same (a : Nat) : t.memory.readWord a = t'.memory.readWord a := by
        unfold Memory.readWord Memory.check Memory.wordAt Memory.byteAt Memory.size
        rw [bytes]
      rw [same, read'] at read
      exact (Except.ok.inj read).symm

/-! ## Ends that are alike -/

/-- Two runs of the machine end with the same image, the same words on the stack and the same
frames, or with the same root fault. -/
def SameEnd : EStateM.Result Fault Machine Unit → EStateM.Result Fault Machine Unit → Prop :=
  Joint (fun _ s _ t => s.memory.bytes = t.memory.bytes ∧ s.stack.values = t.stack.values ∧
      s.stack.frames = t.stack.frames)
    fun g _ h _ => g.root = h.root

theorem SameEnd.refl (x : EStateM.Result Fault Machine Unit) : SameEnd x x := by
  cases x with
  | ok _ s => exact .ok ⟨rfl, rfl, rfl⟩
  | error g s => exact .error rfl

/-- Read the word at `a`, count it as taken in the first word of `table`, and write it to `v`. -/
def moveFrom (table free : Word) (v : Variable) (a : Nat) : MachineM Unit := do
  let w ← ask (·.readWord a)
  storeWord table.toNat free
  writeVariable v w

/-- From the machine `s` a word comes to `v`, or a fault comes instead. -/
inductive Brings (v : Variable) (s : Machine) :
    EStateM.Result Fault Machine Unit → Except Fault Word → Prop where
  | word {w : Word} {t : Machine} (wrote : writeVariable v w s = .ok () t) :
      Brings v s (.ok () t) (.ok w)
  | fault (g : Fault) (t : Machine) : Brings v s (.error g t) (.error g.root)

/-- Ends are alike exactly if what they bring is the same. -/
theorem Brings.sameEnd_iff {v : Variable} {s : Machine} {x y : EStateM.Result Fault Machine Unit}
    {d d' : Except Fault Word} (h : Brings v s x d) (h' : Brings v s y d') :
    SameEnd x y ↔ d = d' := by
  cases h with
  | word wrote =>
      cases h' with
      | word wrote' =>
          constructor
          · rintro ⟨bytes, values, frames⟩
            -- The word can be read off the machine that it was written to.
            rw [eq_of_writeVariable wrote wrote' bytes values frames]
          · intro same
            cases same
            cases wrote.symm.trans wrote'
            exact .refl _
      | fault g t => exact ⟨nofun, nofun⟩
  | fault g t =>
      cases h' with
      | word wrote => exact ⟨nofun, nofun⟩
      | fault g' t' =>
          constructor
          · intro same
            cases same with
            | error roots => rw [roots]
          · intro same
            exact .error (Except.error.inj same)

/-- The count in the table is no hindrance: what is moved is what the place delivers. -/
theorem brings_moveFrom {table : Word} {s : Machine} (fits : table.toNat + 2 ≤ s.memory.size)
    (free : Word) (v : Variable) :
    ∃ s', ∀ a, Brings v s' (moveFrom table free v a s) (conveyed v a s) := by
  refine ⟨{ s with
    memory := s.memory.commit table.toNat (Word.bytes free)
    code := s.code.invalidate table.toNat 2 }, fun a => ?_⟩
  unfold moveFrom conveyed
  rw [run_bind, run_bind, run_ask]
  cases s.memory.readWord a with
  | error e => exact .fault (.image e) s
  | ok w =>
      show Brings v _ ((storeWord table.toNat free >>= fun _ => writeVariable v w) s)
        (comesTo ((writeVariable v w >>= fun _ => pure w) s))
      rw [run_bind, run_bind, run_storeWord, if_pos fits]
      -- The word may lie under the count; it was read before, so only where it goes to matters now.
      generalize hs' : { s with
        memory := s.memory.commit table.toNat (Word.bytes free)
        code := s.code.invalidate table.toNat 2 } = s'
      have same : fault? (writeVariable v w s') = fault? (writeVariable v w s) := by
        subst hs'
        apply fault?_writeVariable
        · rfl
        · rfl
        · exact s.memory.size_commit _ _
      -- With the count or without it, the variable can be written or the fault is the same.
      dsimp only
      cases before : writeVariable v w s with
      | ok _ t =>
          cases after : writeVariable v w s' with
          | ok _ t' => exact .word after
          | error g t' =>
              rw [before, after] at same
              cases same
      | error g t =>
          cases after : writeVariable v w s' with
          | ok _ t' =>
              rw [before, after] at same
              cases same
          | error g' t' =>
              rw [before, after] at same
              cases same
              exact .fault g t'

/-- A pull begins with the count of the free places. -/
theorem run_takeFrom (reach : Nat → Nat) (table : Word) (v : Variable) (s : Machine) :
    (takeFrom reach table >>= writeVariable v) s =
      match s.memory.readWord table.toNat with
      | .ok count => moveFrom table (count + 1) v (reach (newestPlace table (count + 1))) s
      | .error e => .error (.image e) s := by
  unfold takeFrom moveFrom
  rw [bind_assoc, run_bind, run_ask]
  cases s.memory.readWord table.toNat with
  | error e => rfl
  | ok count =>
      simp only [bind_assoc, pure_bind]
      rfl

/-- Pulls that read at different addresses end alike exactly if these deliver the same. -/
theorem pullBy_sameEnd_iff (reach : Nat → Nat) {i : Instruction} (table : i.operands ≠ [])
    (v : Variable) (s : Machine) :
    SameEnd (pullBy reach i v s) (pullBy id i v s) ↔
      ∀ table rest count t, operandValues i s = .ok (table :: rest) t →
        t.memory.readWord table.toNat = .ok count →
        conveyed v (reach (newestPlace table (count + 1))) t =
          conveyed v (newestPlace table (count + 1)) t := by
  unfold pullBy
  rw [run_bind, run_bind]
  -- Both pulls do the same up to the count; only the address that is read differs.
  cases ran : operandValues i s with
  | error g t =>
      constructor
      · intro _ table rest count t' ran'
        cases ran'
      · intro _
        exact SameEnd.refl _
  | ok args t =>
      obtain ⟨first, rest, rfl⟩ := exists_cons_of_operandValues table ran
      show SameEnd ((takeFrom reach first >>= writeVariable v) t)
        ((takeFrom id first >>= writeVariable v) t) ↔ _
      rw [run_takeFrom, run_takeFrom]
      cases counted : t.memory.readWord first.toNat with
      | error e =>
          constructor
          · intro _ table rest count t' same counted'
            cases same
            cases counted.symm.trans counted'
          · intro _
            exact SameEnd.refl _
      | ok count =>
          have fits := (Memory.readWord_eq_ok.mp counted).1
          obtain ⟨s', brings⟩ := brings_moveFrom fits (count + 1) v
          rw [(brings _).sameEnd_iff (brings _)]
          constructor
          · intro same table rest count' t' ran' counted'
            cases ran'
            cases counted.symm.trans counted'
            exact same
          · intro same
            exact same first rest count t rfl counted

/-! ## Compiled code and the interpreter -/

/-- The machine with these locals in the frame `f` of the running routine. -/
def holding (s : Machine) (f : Frame) (fs : List Frame) (locals : List Word) : Machine :=
  { s with stack := { s.stack with frames := { f with locals } :: fs } }

/-- Compiled code of the routine in the frame `f` ends like the machine: it goes on with its next
step, both have the same image, the same words on the stack and the same locals, and all frames are
what they were; or both fail with the same root fault. -/
def Concurs (f : Frame) (fs : List Frame) :
    EStateM.Result Halt (List Word × Engine) Control → EStateM.Result Fault Machine Unit → Prop :=
  Joint (fun control code _ s => control = .next ∧
      code.2.machine.memory.bytes = s.memory.bytes ∧
      code.2.machine.stack.values = s.stack.values ∧
      code.2.machine.stack.frames = f :: fs ∧ s.stack.frames = { f with locals := code.1 } :: fs)
    Blames

/-- The frames of an engine last while its machine acts. -/
theorem lasting_frames (f : Frame) (fs : List Frame) :
    Lasting (fun e => e.machine.stack.frames = f :: fs) fun _ => True where
  engine _ _ frames _ stays := stays.frames.trans frames
  machine _ _ _ _ := trivial

/-- Compiled code that keeps level with one run of the machine ends like another one exactly if the
two runs end alike. -/
theorem concurs_iff {K : Machine → Prop} {x : EStateM.Result Halt (List Word × Engine) Control}
    {m y : EStateM.Result Fault Machine Unit}
    (keeps : Joint (fun control code _ s => control = .next ∧
      Level (fun e => e.machine.stack.frames = f :: fs) K pc nested f fs code s) Blames x m) :
    Concurs f fs x y ↔ SameEnd m y := by
  -- Both pairs are compared through the run `m`, which the compiled code is level with.
  cases keeps with
  | @ok control code _ s h =>
      obtain ⟨rfl, level⟩ := h
      have image : s.memory.plain = code.2.machine.memory.plain :=
        congrArg Machine.memory level.bare
      have bytes : s.memory.bytes = code.2.machine.memory.bytes :=
        (congrArg Memory.bytes image :)
      have values : s.stack.values = code.2.machine.stack.values :=
        (congrArg CallStack.values (stack_bare level.bare) :)
      cases y with
      | error g t => exact ⟨nofun, nofun⟩
      | ok _ t =>
          constructor
          · intro alike
            cases alike with
            | ok h =>
                obtain ⟨-, bytes', values', -, frames'⟩ := h
                exact .ok ⟨bytes.trans bytes', values.trans values',
                  level.frames.trans frames'.symm⟩
          · intro same
            cases same with
            | ok h =>
                obtain ⟨bytes', values', frames'⟩ := h
                exact .ok ⟨rfl, bytes.symm.trans bytes', values.symm.trans values', level.kept,
                  frames'.symm.trans level.frames⟩
  | @error h code g s blames =>
      obtain ⟨g', rfl, root⟩ := blames
      cases y with
      | ok _ t => exact ⟨nofun, nofun⟩
      | error k t =>
          constructor
          · intro alike
            cases alike with
            | error blames =>
                obtain ⟨_, same, root'⟩ := blames
                cases same
                exact .error (root.symm.trans root')
          · intro same
            cases same with
            | error root' => exact .error ⟨g', rfl, root.trans root'⟩

/-- A compiled pull from a table ends like the interpreted one exactly if the place of the newest
word conveys the same, whether it is counted in words or without a bound; so it always does if the
place is below 65536. -/
theorem pull_concurs_iff {e : Engine} (frames : e.machine.stack.frames = f :: fs)
    (locals : List Word) {step : CodeStep} {pool more : List String}
    (compiled : scope.step i pool = .ok step more) (op : i.opcode = .pull)
    (stores : i.store = some v) (table : i.operands ≠ []) :
    Concurs f fs (flat ((Engine.helpers invoke).step step) (locals, e))
        (execute i (e.machine.holding f fs locals)) ↔
      ∀ table rest count s,
        operandValues i (e.machine.holding f fs locals) = .ok (table :: rest) s →
        s.memory.readWord table.toNat = .ok count →
        conveyed v (newestPlace table (count + 1) % 65536) s =
          conveyed v (newestPlace table (count + 1)) s := by
  have level : Level (fun e => e.machine.stack.frames = f :: fs) (fun _ => True) e.machine.pc
      e.machine.nested f fs (locals, e) (e.machine.holding f fs locals) :=
    { bare := bare_setLocals frames locals
      frames := rfl
      pc := rfl
      nested := rfl
      kept := frames
      held := trivial }
  have keeps := keeps_pull (i := i) (v := v) invoke (lasting_frames f fs) _ _ level
  rw [step_pull compiled op stores table, execute_pull op stores table, concurs_iff keeps]
  exact pullBy_sameEnd_iff (· % 65536) table v _

/-- A story of version 6 with `pull 80 -> sp` in a routine at 72; the table at 80 says that `count`
places are free. -/
def pullsAt80 (count : List Byte) : Array Byte :=
  overwrite (overwrite (overwrite (overwrite (Array.replicate 96 0)
    0 [6, 0, 0, 0, 0, 0, 0, 16, 0, 0, 0, 0, 0, 0, 255, 255]) 64 [0, 0xba])
    72 [0, 0xe9, 0x7f, 80, 0, 0xb8]) 80 (count ++ [0x12, 0x34, 0x56, 0x78])

/-- The instruction of the routine. -/
def pull80 : Instruction :=
  { address := 73, length := 4, opcode := .pull, operands := [.small 80], store := some .stack
    branch := none, text := none }

/-- What the instruction is compiled against. -/
def pullScope (s : Machine) : Scope :=
  { story := s.storyText, graph := default, localCount := 0, available := fun _ => true }

/-- The compiled instruction. -/
def pullStep : CodeStep := { operands := [.small 80], action := .pullTable (some .stack) }

/-- The frame of the running routine. -/
def topFrame (s : Machine) : Frame := s.stack.frames.headD default

/-- The machine after this story was loaded, with one place free. -/
@[irreducible] def stocked : Machine := (load (pullsAt80 [0, 1]) {} {}).toOption.getD default

theorem pull_concurs_iff_stocked :
    load (pullsAt80 [0, 1]) {} {} = .ok stocked ∧ decode stocked.memory 6 73 = .ok pull80 ∧
      stocked.stack.frames = [topFrame stocked] ∧
      (∃ more, (pullScope stocked).step pull80 [] = .ok pullStep more) ∧
      pull80.opcode = .pull ∧ pull80.store = some .stack ∧ pull80.operands ≠ [] ∧
      Concurs (topFrame stocked) []
        (flat ((Engine.helpers (Engine.invoke 9)).step pullStep) ([], { machine := stocked }))
        (execute pull80 (stocked.holding (topFrame stocked) [] [])) := by
  have loaded : load (pullsAt80 [0, 1]) {} {} = .ok stocked := by
    unfold stocked
    exact Except.eq_ok_getD _ (by decide +kernel)
  have frames : stocked.stack.frames = [topFrame stocked] := by decide +kernel
  have compiled : (pullScope stocked).step pull80 [] = .ok pullStep _ :=
    eq_ok_of_value? (by decide +kernel)
  have free : stocked.memory.readWord 80 = .ok 1 := by decide +kernel
  have alike := pull_concurs_iff (e := { machine := stocked }) (Engine.invoke 9) frames [] compiled
    (i := pull80) (v := .stack) rfl rfl (List.cons_ne_nil _ _)
  refine ⟨loaded, by decide +kernel, frames, ⟨_, compiled⟩, rfl, rfl, List.cons_ne_nil _ _, ?_⟩
  rw [alike]
  intro table rest count s ran counted
  cases ran
  cases free.symm.trans counted
  -- The place is 80 + 2 * 2, which needs no wrapping.
  have within : newestPlace 80 2 % 65536 = newestPlace 80 2 := by decide
  show conveyed .stack (newestPlace 80 2 % 65536) _ = conveyed .stack (newestPlace 80 2) _
  rw [within]

/-- The machine after this story was loaded, with so many places free that the stack leaves the
image when they are counted without a bound. -/
@[irreducible] def overrun : Machine :=
  (load (pullsAt80 [0x7f, 0xff]) {} {}).toOption.getD default

/-- Not every compiled pull from a table ends like the interpreted one. -/
theorem exists_discordant_pull :
    ¬∀ (image : Array Byte) (s : Machine) (a : Nat) (f : Frame) (fs : List Frame)
        (locals : List Word) (i : Instruction) (v : Variable) (scope : Scope) (step : CodeStep)
        (pool more : List String), load image {} {} = .ok s → s.header.version = 6 →
      decode s.memory 6 a = .ok i → i.opcode = .pull → i.store = some v → i.operands ≠ [] →
      s.stack.frames = f :: fs → scope.step i pool = .ok step more →
      Concurs f fs (flat ((Engine.helpers (Engine.invoke 9)).step step) (locals, { machine := s }))
        (execute i (s.holding f fs locals)) := by
  intro all
  have loaded : load (pullsAt80 [0x7f, 0xff]) {} {} = .ok overrun := by
    unfold overrun
    exact Except.eq_ok_getD _ (by decide +kernel)
  have compiled : (pullScope overrun).step pull80 [] = .ok pullStep _ :=
    eq_ok_of_value? (by decide +kernel)
  have alike := all _ overrun 73 (topFrame overrun) [] [] pull80 .stack (pullScope overrun) pullStep
    [] _ loaded (by decide +kernel) (by decide +kernel) rfl rfl (List.cons_ne_nil _ _)
    (by decide +kernel) compiled
  -- Compiled code wraps around and goes on, while the interpreter reads beyond the image.
  have passed : flat ((Engine.helpers (Engine.invoke 9)).step pullStep) ([], { machine := overrun })
      = .ok .next _ := eq_ok_of_value? (by decide +kernel)
  have failed : execute pull80 (overrun.holding (topFrame overrun) [] [])
      = .error (.image (.outOfRange 0x10050 2 96)) _ := eq_error_of_fault? (by decide +kernel)
  rw [passed, failed] at alike
  cases alike

end Machine
end ZMachine
