/-
  Compiling leaves nothing out.

  Where a block ends is decided by the flow of control, from the opcodes and
  branches of its instructions; where compiling a block stops, by the steps
  that come of them.  The two agree: a step that control does not pass comes
  of the last instruction of a block only, and every instruction that control
  does not pass becomes such a step.  So all instructions are compiled, each
  of them once and in order, and from a block whose last step is passed,
  control goes on with the block behind it.
-/
import ZMachine.Proofs.Native
import ZMachine.Proofs.Tracking

namespace ZMachine

/-! ## Steps that end their block -/

namespace Yields

variable {ε σ α β : Type} {Q : α → Prop} {R : β → Prop} {x : EStateM ε σ α}

theorem andThen (hx : Yields Q x) {f : α → EStateM ε σ β} (hf : ∀ a, Q a → Yields R (f a)) :
    Yields R (x >>= f) := by
  intro s b s' ran
  simp only [Bind.bind, EStateM.bind] at ran
  split at ran
  · rename_i a t first
    exact hf a (hx _ _ _ first) _ _ _ ran
  · cases ran

/-- What follows an action matters for its results only. -/
theorem bind_congr (hx : Yields Q x) {f g : α → EStateM ε σ β} (same : ∀ a, Q a → f a = g a) :
    x >>= f = x >>= g := by
  funext s
  simp only [Bind.bind, EStateM.bind]
  cases ran : x s with
  | error e s' => rfl
  | ok a s' => simp only [same a (hx _ _ _ ran)]

end Yields

/-- Whether the step of an instruction ends its block: control does not pass the instruction, or it
branches and is not left to the interpreter. -/
def Instruction.endsCode (i : Instruction) : Bool :=
  i.opcode.isTerminal || (i.branch.isSome && !i.opcode.interpreterOnly)

namespace Scope

variable {e : Scope} {i : Instruction} {version : Nat}

/-- The step ends its block if and only if that of the instruction should. -/
abbrev EndsAs (i : Instruction) (a : Action) : Prop := a.endsBlock = i.endsCode

theorem endsCode_of_terminal {opcode : Opcode} (op : i.opcode = opcode)
    (terminal : opcode.isTerminal = true) : true = i.endsCode := by
  rw [Instruction.endsCode, op, terminal, Bool.true_or]

/-- Where control may pass and the interpreter is not needed, it is for the branch to say. -/
theorem endsCode_of_translated {opcode : Opcode} (op : i.opcode = opcode)
    (passes : opcode.isTerminal = false) (translated : opcode.interpreterOnly = false) :
    i.branch.isSome = i.endsCode := by
  rw [Instruction.endsCode, op, passes, translated, Bool.not_false, Bool.and_true, Bool.false_or]

/-- Where control may pass and there is no branch, the step is passed. -/
theorem endsCode_of_passing (formed : i.Formed version) {opcode : Opcode} (op : i.opcode = opcode)
    (unbranched : opcode.hasBranch version = false) (passes : opcode.isTerminal = false) :
    false = i.endsCode := by
  rw [Instruction.endsCode, formed.branch, op, unbranched, passes, Bool.false_and, Bool.or_false]

/-- Calls end their block in the routine, but control comes back to where they end. -/
theorem endsCode_of_isCall (formed : i.Formed version) (call : i.opcode.isCall = true) :
    false = i.endsCode := by
  refine endsCode_of_passing formed rfl ?_ ?_
  all_goals
    unfold Opcode.isCall at call
    split at call
    case h_9 => cases call
    all_goals
      rename_i op
      rw [op]
      rfl

variable {a : Action}

theorem endsAs_indirect (formed : i.Formed version) (made : e.MakesIndirect i a) : EndsAs i a := by
  cases made with
  | incChk op _ branch | decChk op _ branch =>
      exact (isSome_branchOf branch).trans (endsCode_of_translated op rfl rfl)
  | inc op | dec op | store op | load op | pull op =>
      exact endsCode_of_passing formed op rfl rfl

theorem endsAs_call (formed : i.Formed version) (call : i.opcode.isCall = true)
    (made : e.MakesCall i a) : EndsAs i a := by
  have passes := endsCode_of_isCall formed call
  cases made with
  | nothing | routine | packed => exact passes

theorem unbranched_of_arithmetic {count : Nat} {operation : Arithmetic}
    (found : arithmetic? i.opcode count = some operation) : i.opcode.hasBranch version = false := by
  unfold arithmetic? at found
  split at found
  case h_9 => cases found
  all_goals
    rename_i op
    rw [op]
    rfl

theorem endsAs_data (formed : i.Formed version) (passes : i.opcode.isTerminal = false)
    (translated : i.opcode.interpreterOnly = false) (made : e.MakesData i a) : EndsAs i a := by
  have branched := endsCode_of_translated rfl passes translated
  cases made with
  | compute found => exact endsCode_of_passing formed rfl (unbranched_of_arithmetic found) passes
  | compare _ branch | perform _ branch => exact (isSome_branchOf branch).trans branched
  | access found =>
      have unbranched := Machine.unbranched_of_access formed found
      rw [EndsAs, ← branched, unbranched]
      rfl

/-- An action ends its block where the instruction says so. -/
theorem endsAs_of_makes (formed : i.Formed version) {pool : List String} (made : e.Makes i pool a) :
    EndsAs i a := by
  cases made with
  | nop op | print op _ _ | newLine op _ | pop op | push op _ | readChar op | pullTop op _ _
  | pullTable op _ _ => exact endsCode_of_passing formed op rfl rfl
  | rtrue op | rfalse op | ret op _ | retPopped op | jump op _ _ | computedJump op _
  | printRet op _ _ | quit op => exact endsCode_of_terminal op rfl
  | readLine op _ =>
      rcases op with op | op
      · exact endsCode_of_passing formed op rfl rfl
      · exact endsCode_of_passing formed op rfl rfl
  | call call _ made => exact endsAs_call formed call made
  | indirect _ _ _ made => exact endsAs_indirect formed made
  | refused _ refused =>
      rw [EndsAs, Instruction.endsCode, refused, Bool.not_true, Bool.and_false, Bool.or_false]
      rfl
  | data _ _ passes translated _ made => exact endsAs_data formed passes translated made

theorem yields_step (formed : i.Formed version) :
    Yields (fun s => s.action.endsBlock = i.endsCode) (e.step i) := by
  intro before step after compiled
  have becomes : e.Becomes after i step := ⟨before, after, compiled, List.prefix_rfl⟩
  exact endsAs_of_makes formed becomes.makes.2

/-! ## Runs of instructions -/

/-- The steps of instructions of which all but the last are passed: all of them, and whether the
last one is passed. -/
theorem steps_eq {is : List Instruction} {l : Instruction} (last : is.getLast? = some l)
    (formed : ∀ i ∈ is, i.Formed version) (inside : ∀ i ∈ is.dropLast, i.endsCode = false) :
    e.steps is = do
      let steps ← is.mapM e.step
      return (steps, if l.endsCode then none else some l.address) := by
  -- Compiling goes on behind an instruction that is passed; only the last one may be another.
  induction is with
  | nil => cases last
  | cons i rest ih =>
      rw [Scope.steps, List.mapM_cons, bind_assoc]
      refine (yields_step (formed i (by simp))).bind_congr fun first ends => ?_
      cases rest with
      | nil =>
          obtain rfl : i = l := Option.some.inj last
          rw [ends, List.mapM_nil, pure_bind, pure_bind]
          cases i.endsCode <;> rfl
      | cons j rest =>
          have passed : i.endsCode = false := inside i (by simp)
          have tail := ih last (fun k mem => formed k (by simp [mem]))
            fun k mem => inside k (by simp [mem])
          rw [ends, passed, tail]
          simp only [Bool.false_eq_true, if_false, List.isEmpty_cons, bind_assoc, pure_bind]

/-- A block is compiled instruction by instruction, and from one whose last instruction is passed
control goes on where this instruction ends. -/
theorem block_ok {b : Block} {l : Instruction} (last : b.instructions.getLast? = some l)
    (formed : ∀ i ∈ b.instructions, i.Formed version)
    (inside : ∀ i ∈ b.instructions.dropLast, i.endsCode = false) {c : CodeBlock}
    {pool more : List String} (compiled : e.block b pool = .ok c more) :
    b.instructions.mapM e.step pool = .ok c.steps more ∧
      c.next = if l.endsCode then none else e.graph.indexOf? l.next := by
  rw [Scope.block, steps_eq last formed inside, last, bind_assoc] at compiled
  obtain ⟨steps, mid, ran, rest⟩ := bind_ok compiled
  rw [pure_bind] at rest
  by_cases ends : l.endsCode = true
  · rw [if_pos ends] at rest ⊢
    cases rest
    exact ⟨ran, rfl⟩
  · rw [if_neg ends] at rest ⊢
    obtain ⟨n, mid', found, rest⟩ := bind_ok rest
    cases rest
    obtain ⟨target, rfl⟩ := blockAt_ok found
    exact ⟨ran, target.symm⟩

end Scope

/-- What is known of the result for each entry is known of the results for all. -/
theorem Yields.mapM {ε σ α β ι : Type} {f : ι → EStateM ε σ α} {φ : α → β} {ψ : ι → β}
    {is : List ι} (h : ∀ i ∈ is, Yields (fun a => φ a = ψ i) (f i)) :
    Yields (fun as => as.map φ = is.map ψ) (is.mapM f) := by
  induction is with
  | nil => exact .pure rfl
  | cons i is ih =>
      rw [List.mapM_cons]
      refine (h i (by simp)).andThen fun a first => ?_
      refine (ih fun j mem => h j (by simp [mem])).andThen fun as others => .pure ?_
      rw [List.map_cons, List.map_cons, first, others]

/-- What the parts of a list are compiled to, one part after the other, the whole list is. -/
theorem mapM_flatMap_ok {ι κ α γ : Type} {f : ι → CompileM α} {g : κ → CompileM γ}
    (parts : κ → List ι) (results : γ → List α) {ks : List κ}
    (each : ∀ k ∈ ks, ∀ pool c more, g k pool = .ok c more →
      (parts k).mapM f pool = .ok (results c) more)
    {pool more : List String} {cs : List γ} (ran : ks.mapM g pool = .ok cs more) :
    (ks.flatMap parts).mapM f pool = .ok (cs.flatMap results) more := by
  induction ks generalizing pool cs with
  | nil =>
      cases ran
      rfl
  | cons k ks ih =>
      rw [List.mapM_cons] at ran
      obtain ⟨c, mid, first, ran⟩ := Scope.bind_ok ran
      obtain ⟨rest, last, others, ran⟩ := Scope.bind_ok ran
      cases ran
      have front := each k (by simp) _ _ _ first
      have back := ih (fun k mem => each k (by simp [mem])) others
      rw [List.flatMap_cons, List.mapM_append]
      simp only [Bind.bind, EStateM.bind, front, back]
      rfl

/-! ## Nothing left out -/

/-- Whether the steps end their block. -/
abbrev blockEnds (steps : List CodeStep) : List Bool := steps.map fun s => s.action.endsBlock

/-- A block of a routine, the one with number `k`, was compiled without leaving anything out. -/
structure CodeBlock.Entire (e : Scope) (k : Nat) (b : Block) (c : CodeBlock) : Prop where
  /-- The steps are those of the instructions, in order. -/
  steps : ∃ before after, b.instructions.mapM e.step before = .ok c.steps after
  ends : blockEnds c.steps = b.instructions.map Instruction.endsCode
  /-- All steps but the last are passed. -/
  inside : ∀ s ∈ c.steps.dropLast, s.action.endsBlock = false
  /-- If the last step ends the block, control does not go on by itself. -/
  ended : ∀ s, c.steps.getLast? = some s → s.action.endsBlock = true → c.next = none
  /-- If the last step is passed, control goes on with the next block, which begins where the last
  instruction ends. -/
  passed : ∀ s i, c.steps.getLast? = some s → b.instructions.getLast? = some i →
    s.action.endsBlock = false →
      c.next = some (k + 1) ∧ ∃ d, e.graph.blocks[k + 1]? = some d ∧ d.start = i.next

/-- A routine was compiled without leaving anything out. -/
structure Code.Entire (story : StoryText) (r : Routine) (pool more : List String) (code : Code) :
    Prop where
  /-- The steps are those of the instructions, each of them once, in the order of their
  addresses. -/
  steps : r.instructions.mapM (Scope.ofRoutine story r).step pool = .ok code.steps more
  ascending : (r.instructions.map Instruction.address).Pairwise (· < ·)
  ends : blockEnds code.steps = r.instructions.map Instruction.endsCode
  size : code.blocks.size = (FlowGraph.build r).blocks.length
  covers : (FlowGraph.build r).blocks.flatMap Block.instructions = r.instructions
  blocks : ∀ (k : Nat) (b : Block), (FlowGraph.build r).blocks[k]? = some b →
    ∃ c, code.blocks[k]? = some c ∧ c.Entire (Scope.ofRoutine story r) k b

namespace FlowGraph.Divides

variable {g : FlowGraph} {r : Routine} {b : Block}

/-- In a block only the last instruction has a step that ends it. -/
theorem passed (divides : g.Divides r) (mem : b ∈ g.blocks) :
    ∀ i ∈ b.instructions.dropLast, i.endsCode = false := by
  intro i inner
  obtain ⟨branch, terminal, -⟩ := divides.inside b mem i inner
  rw [Instruction.endsCode, branch, terminal]
  rfl

theorem exists_last (divides : g.Divides r) (mem : b ∈ g.blocks) :
    ∃ l, b.instructions.getLast? = some l := by
  have start := divides.start b mem
  cases cons : b.instructions with
  | nil =>
      rw [cons] at start
      cases start
  | cons i rest => exact ⟨_, List.getLast?_eq_some_getLast (by simp)⟩

end FlowGraph.Divides

namespace Scope

variable {e : Scope} {r : Routine} {version : Nat}

/-- Where all instructions but the last are passed, so are all steps but the last. -/
theorem passed_of_blockEnds {is : List Instruction} {steps : List CodeStep}
    (ends : blockEnds steps = is.map Instruction.endsCode)
    (inside : ∀ i ∈ is.dropLast, i.endsCode = false) :
    ∀ s ∈ steps.dropLast, s.action.endsBlock = false := by
  intro s inner
  have fronts := congrArg List.dropLast ends
  rw [← List.map_dropLast, ← List.map_dropLast] at fronts
  have there : s.action.endsBlock ∈ is.dropLast.map Instruction.endsCode :=
    fronts ▸ List.mem_map_of_mem inner
  obtain ⟨i, inner, same⟩ := List.mem_map.mp there
  rw [← same, inside i inner]

theorem endsBlock_getLast {is : List Instruction} {steps : List CodeStep}
    (ends : blockEnds steps = is.map Instruction.endsCode) {l : Instruction} {s : CodeStep}
    (last : is.getLast? = some l) (final : steps.getLast? = some s) :
    s.action.endsBlock = l.endsCode := by
  have lasts := congrArg List.getLast? ends
  rw [List.getLast?_map, List.getLast?_map, final, last] at lasts
  exact Option.some.inj lasts

theorem entire_block (divides : e.graph.Divides r) {k : Nat} {b : Block}
    (found : e.graph.blocks[k]? = some b) (formed : ∀ i ∈ b.instructions, i.Formed version)
    {c : CodeBlock} {pool more : List String} (compiled : e.block b pool = .ok c more) :
    b.instructions.mapM e.step pool = .ok c.steps more ∧ c.Entire e k b := by
  have mem : b ∈ e.graph.blocks := List.mem_of_getElem? found
  obtain ⟨l, last⟩ := divides.exists_last mem
  obtain ⟨steps, next⟩ := block_ok last formed (divides.passed mem) compiled
  have ends : blockEnds c.steps = b.instructions.map Instruction.endsCode :=
    Yields.mapM (fun i mem => yields_step (e := e) (formed i mem)) _ _ _ steps
  refine ⟨steps, ⟨_, _, steps⟩, ends, passed_of_blockEnds ends (divides.passed mem), ?_, ?_⟩
  · intro s final ended
    rw [next, ← endsBlock_getLast ends last final, if_pos ended]
  · intro s i final last' passes
    cases last.symm.trans last'
    have onward : l.endsCode = false := (endsBlock_getLast ends last final).symm.trans passes
    have terminal : l.opcode.isTerminal = false := (Bool.or_eq_false_iff.mp onward).1
    obtain ⟨index, begins⟩ := divides.passes k b l found last terminal
    rw [next, onward, index]
    exact ⟨rfl, begins⟩

end Scope

theorem instructions_compile {story : StoryText} {helpers : Bool} {r : Routine}
    {pool more : List String} {code : Code} {statistics : CompileStatistics}
    (compiled : compile story helpers r pool = .ok (code, statistics) more) :
    statistics.instructions = code.steps.length := by
  obtain ⟨blocks, mid, -, rest⟩ := Scope.bind_ok compiled
  cases rest
  rfl

/-- Compiling a routine that is divided into blocks compiles every instruction. -/
theorem FlowGraph.Divides.entire {story : StoryText} {r : Routine} {version : Nat}
    (divides : (build r).Divides r) (formed : ∀ i ∈ r.instructions, i.Formed version)
    (ascending : (r.instructions.map Instruction.address).Pairwise (· < ·))
    {pool more : List String} {code : Code} {statistics : CompileStatistics}
    (compiled : compile story true r pool = .ok (code, statistics) more) :
    code.Entire story r pool more := by
  let e := Scope.ofRoutine story r
  obtain ⟨-, -, blocks, ran, same⟩ := compile_ok compiled
  have inBlock (b : Block) (mem : b ∈ e.graph.blocks) : ∀ i ∈ b.instructions, i.Formed version := by
    obtain ⟨_, _, -, -, part⟩ := mem_build mem
    exact fun i inner => formed i (part.subset inner)
  -- Compiling block by block is compiling the instructions in their order, as the blocks
  -- cover them.
  have steps : r.instructions.mapM e.step pool = .ok code.steps more := by
    have whole := mapM_flatMap_ok (f := e.step) Block.instructions CodeBlock.steps
      (fun b mem pool c more ran => ?_) ran
    · rw [Code.steps, same]
      exact divides.covers ▸ whole
    · obtain ⟨k, found⟩ := List.mem_iff_getElem?.mp mem
      exact (Scope.entire_block divides found (inBlock b mem) ran).1
  obtain ⟨-, each⟩ := Scope.mapM_ok (fun _ _ _ _ => Scope.block_grows) ran
  refine ⟨steps, ascending, ?_, ?_, divides.covers, ?_⟩
  · exact Yields.mapM (fun i mem => Scope.yields_step (e := e) (formed i mem)) _ _ _ steps
  · rw [same, List.size_toArray]
    exact each.length_eq.symm
  · intro k b found
    rcases getElem?_forall₂ each k with ⟨absent, -⟩ | ⟨b', c, there, here, before, after, ran, -⟩
    · cases absent.symm.trans found
    · cases there.symm.trans found
      refine ⟨c, by rw [same, List.getElem?_toArray, here], ?_⟩
      exact (Scope.entire_block divides found (inBlock b (List.mem_of_getElem? found)) ran).2

/-- Compiling drops no instruction: every instruction of a routine that was read is compiled, each
of them once and in order; no block is cut short, and none goes on where control does not pass. -/
theorem compile_entire {m : Memory} {c c' : DecodeCache} (genuine : c.Genuine) {a : Nat}
    {r : Routine} (read : Routine.read m a c = .ok r c') {story : StoryText}
    {pool more : List String} {code : Code} {statistics : CompileStatistics}
    (compiled : compile story true r pool = .ok (code, statistics) more) :
    statistics.instructions = r.instructions.length ∧ code.Entire story r pool more := by
  obtain ⟨entry, -, found⟩ := genuine.readOff_read read
  have shortest := found.shortest
  have divides : (FlowGraph.build r).Divides r := by
    refine FlowGraph.divides_build (fun i last => ?_) shortest.contiguous
    obtain ⟨j, final, terminal, -⟩ := shortest.complete
    cases final.symm.trans last
    exact terminal
  have entire := divides.entire found.formed shortest.contiguous.ascending compiled
  have lengths := congrArg List.length entire.ends
  rw [List.length_map, List.length_map] at lengths
  exact ⟨(instructions_compile compiled).trans lengths, entire⟩

/-- An image of version 3 with a routine at 64 whose blocks end in different ways: with a branch
that is left to the interpreter, with a call, with a branch, and with a jump to a computed
address. -/
def savingImage : Memory :=
  .ofBytes (overwrite (Array.replicate 88 0) 64
    [1, 0, 0, 0xb5, 0xc1, 0xe0, 0x3f, 0, 0, 0, 0x54, 1, 1, 1, 0xa0, 1, 0xc0, 0xac, 1])

/-- This routine. -/
def saving : Routine where
  address := 64
  defaults := [0]
  instructions := [
    { address := 67, length := 2, opcode := .save, operands := [], store := none
      branch := some ⟨true, 1, .returnTrue⟩, text := none },
    { address := 69, length := 5, opcode := .callVS, operands := [.large 0]
      store := some .stack, branch := none, text := none },
    { address := 74, length := 4, opcode := .add, operands := [.var (.localVar 0), .small 1]
      store := some (.localVar 0), branch := none, text := none },
    { address := 78, length := 3, opcode := .jz, operands := [.var (.localVar 0)], store := none
      branch := some ⟨true, 0, .returnFalse⟩, text := none },
    { address := 81, length := 2, opcode := .jump, operands := [.var (.localVar 0)]
      store := none, branch := none, text := none }]

/-- The story that it is of. -/
def savingStory : StoryText where
  memory := savingImage
  header := { (default : Header) with version := 3 }
  tables := { (default : TextTables) with version := 3 }

theorem compile_entire_saving :
    ∃ code statistics more, compile savingStory true saving [] = .ok (code, statistics) more ∧
      code.blocks.toList.map (fun b => (b.steps.length, b.next))
        = [(1, some 1), (1, some 2), (2, none), (1, none)] ∧
      statistics.instructions = 5 ∧ code.Entire savingStory saving [] more := by
  let c : DecodeCache := { version := 3, floor := addressSpace }
  have genuine : c.Genuine := by
    intro a i kept
    simp [c] at kept
  have read : Routine.read savingImage 64 c = .ok saving _ := eq_ok_of_value? (by decide +kernel)
  have shape : (value? (compile savingStory true saving [])).map
      (fun p => p.1.blocks.toList.map fun b => (b.steps.length, b.next))
        = some [(1, some 1), (1, some 2), (2, none), (1, none)] := by
    decide +kernel
  obtain ⟨⟨code, statistics⟩, found, blocks⟩ := Option.map_eq_some_iff.mp shape
  have compiled := eq_ok_of_value? found
  obtain ⟨count, entire⟩ := compile_entire genuine read compiled
  exact ⟨code, statistics, _, compiled, blocks, count, entire⟩

end ZMachine
