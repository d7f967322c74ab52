/-
  The blocks of a routine.

  A routine is divided into runs of instructions.  A run ends where control
  may leave it, and before a place where control may come in.  So the runs
  follow each other without gaps, and control enters a run only at its first
  instruction and leaves it only at its last one.
-/
import Mathlib.Data.List.SplitBy
import ZMachine.Proofs.Extent
import ZMachine.Routine.Flow

namespace ZMachine

namespace FlowGraph

variable {r : Routine} {b : Block} {i : Instruction} {a k pc : Nat}

/-! ## Blocks of runs -/

theorem instructions_ofRuns (targets : List Nat) (first : Nat) (runs : List (List Instruction)) :
    (ofRuns targets first runs).map Block.instructions = runs := by
  induction runs generalizing first with
  | nil => rfl
  | cons run rest ih => rw [ofRuns, List.map_cons, ih]; rfl

/-- A block begins after the runs in front of it. -/
theorem getElem?_ofRuns (targets : List Nat) (first : Nat) (runs : List (List Instruction))
    (k : Nat) :
    (ofRuns targets first runs)[k]? =
      runs[k]?.map fun run =>
        block targets (first + (runs.take k).flatten.length) run
          (decide (k + 1 = runs.length)) := by
  induction runs generalizing first k with
  | nil => rfl
  | cons run rest ih =>
      cases k with
      | zero =>
          have last : rest.isEmpty = decide (0 + 1 = (run :: rest).length) := by
            cases rest <;> simp
          rw [ofRuns, last]
          rfl
      | succ k =>
          -- Of later blocks, the first run lies in front as well.
          have behind : first + run.length + (rest.take k).flatten.length
              = first + ((run :: rest).take (k + 1)).flatten.length := by
            rw [List.take_succ_cons, List.flatten_cons, List.length_append, Nat.add_assoc]
          have last : decide (k + 1 = rest.length)
              = decide (k + 1 + 1 = (run :: rest).length) := by
            simp
          rw [ofRuns, List.getElem?_cons_succ, List.getElem?_cons_succ, ih, behind, last]

/-- The blocks begin at some of the instructions, in the same order. -/
theorem starts_sublist (targets : List Nat) (first : Nat) {runs : List (List Instruction)}
    (nonempty : ∀ run ∈ runs, run ≠ []) :
    ((ofRuns targets first runs).map Block.start).Sublist
      (runs.flatten.map Instruction.address) := by
  induction runs generalizing first with
  | nil => exact .slnil
  | cons run rest ih =>
      obtain ⟨one, others⟩ := List.forall_mem_cons.mp nonempty
      obtain ⟨i, more, rfl⟩ := List.exists_cons_of_ne_nil one
      rw [ofRuns, List.map_cons, List.flatten_cons, List.cons_append, List.map_cons,
        List.map_append]
      apply List.Sublist.cons_cons
      exact (ih (first + (i :: more).length) others).trans (List.sublist_append_right _ _)

/-- A run is the part of the whole that begins after the runs in front of it. -/
theorem extract_flatten {α : Type} {runs : List (List α)} {run : List α} (h : runs[k]? = some run) :
    runs.flatten.extract (runs.take k).flatten.length ((runs.take k).flatten.length + run.length)
      = run := by
  obtain ⟨inside, rfl⟩ := List.getElem?_eq_some_iff.mp h
  have parts : runs.flatten
      = (runs.take k).flatten ++ (runs[k] ++ (runs.drop (k + 1)).flatten) := by
    rw [← List.flatten_cons, ← List.drop_eq_getElem_cons inside, ← List.flatten_append,
      List.take_append_drop]
  rw [List.extract_eq_take_drop, parts, List.drop_left, Nat.add_sub_cancel_left, List.take_left]

/-! ## Runs of a routine -/

/-- The targets that are instructions of the routine. -/
def inner (r : Routine) : List Nat :=
  (r.instructions.flatMap Instruction.targets).filter fun a => (r.indexOf? a).isSome

/-- Whether two instructions that follow each other are in the same block. -/
def joined (r : Routine) (i j : Instruction) : Bool :=
  !(i.endsBlock || (inner r).contains j.address)

theorem build_eq (r : Routine) :
    build r =
      { blocks := ofRuns (inner r) 0 (r.instructions.splitBy (joined r))
        external := .ofList ((r.instructions.flatMap Instruction.targets).filter
          fun a => !(r.indexOf? a).isSome) } := by
  rw [build, List.partition_eq_filter_filter]
  rfl

/-- The runs of instructions that the blocks of a routine hold. -/
def runs (r : Routine) : List (List Instruction) := (build r).blocks.map Block.instructions

theorem runs_eq (r : Routine) : runs r = r.instructions.splitBy (joined r) := by
  rw [runs, build_eq]
  exact instructions_ofRuns _ _ _

theorem blocks_eq (r : Routine) : (build r).blocks = ofRuns (inner r) 0 (runs r) := by
  rw [runs_eq, build_eq]

theorem flatten_runs (r : Routine) : (runs r).flatten = r.instructions := by
  rw [runs_eq, List.flatten_splitBy]

theorem nonempty_runs : ∀ run ∈ runs r, run ≠ [] := by
  rw [runs_eq]
  intro run mem
  exact List.ne_nil_of_mem_splitBy mem

theorem not_mem_runs : [] ∉ runs r := fun mem => nonempty_runs [] mem rfl

/-- Every run makes a block. -/
theorem getElem?_blocks {run : List Instruction} (hk : (runs r)[k]? = some run) :
    (build r).blocks[k]? =
      some (block (inner r) ((runs r).take k).flatten.length run
        (decide (k + 1 = (runs r).length))) := by
  rw [blocks_eq, getElem?_ofRuns, Nat.zero_add, hk, Option.map_some]

/-- Every block is made of a run. -/
theorem exists_run (hb : (build r).blocks[k]? = some b) :
    ∃ run, (runs r)[k]? = some run ∧
      b = block (inner r) ((runs r).take k).flatten.length run
        (decide (k + 1 = (runs r).length)) := by
  have there : (runs r)[k]? = some b.instructions := by
    rw [runs, List.getElem?_map, hb]
    rfl
  exact ⟨_, there, Option.some.inj (hb.symm.trans (getElem?_blocks there))⟩

/-- A block holds a run of instructions of the routine and begins with the first of them. -/
theorem mem_build (h : b ∈ (build r).blocks) :
    ∃ i rest, b.instructions = i :: rest ∧ b.start = i.address ∧
      b.instructions <:+: r.instructions := by
  obtain ⟨k, hb⟩ := List.mem_iff_getElem?.mp h
  obtain ⟨run, there, rfl⟩ := exists_run hb
  have member : run ∈ runs r := List.mem_of_getElem? there
  obtain ⟨i, rest, rfl⟩ := List.exists_cons_of_ne_nil (nonempty_runs run member)
  refine ⟨i, rest, rfl, rfl, ?_⟩
  rw [← flatten_runs r]
  exact List.infix_of_mem_flatten member

/-- The first block begins with the first instruction. -/
theorem first_build {rest : List Instruction} (h : r.instructions = i :: rest) :
    ∃ b more, (build r).blocks = b :: more ∧ b.start = i.address := by
  have whole := flatten_runs r
  cases hb : (build r).blocks with
  | nil =>
      rw [runs, hb, h] at whole
      cases whole
  | cons b more =>
      obtain ⟨j, tail, cons, start, -⟩ := mem_build (b := b) (r := r) (by simp [hb])
      rw [runs, hb, List.map_cons, List.flatten_cons, cons, h] at whole
      exact ⟨b, more, rfl, start.trans (congrArg Instruction.address (List.cons.inj whole).1)⟩

theorem indexOf?_spec (h : (build r).indexOf? a = some k) :
    ∃ b, (build r).blocks[k]? = some b ∧ b.start = a := by
  have there := Ascending.getElem?_of_indexOf? h
  rw [List.getElem?_map] at there
  exact Option.map_eq_some_iff.mp there

/-- Blocks are found by the addresses where they begin, since these ascend as the
instructions do. -/
theorem indexOf?_eq_some_iff (h : Routine.Contiguous pc r.instructions) :
    (build r).indexOf? a = some k ↔ ∃ b, (build r).blocks[k]? = some b ∧ b.start = a := by
  refine ⟨indexOf?_spec, ?_⟩
  rintro ⟨b, hb, rfl⟩
  -- Halving needs the order, and the blocks have that of the instructions they begin with.
  have ascending : ((build r).blocks.map Block.start).Pairwise (· < ·) := by
    have sublist := starts_sublist (inner r) 0 (nonempty_runs (r := r))
    rw [← blocks_eq, flatten_runs] at sublist
    exact List.Pairwise.sublist sublist h.ascending
  rw [indexOf?, Ascending.indexOf?_eq_some_iff ascending, List.getElem?_map, hb]
  rfl

/-! ## Where blocks end -/

/-- Within a run nothing ends a block, and no branch or jump leads there. -/
theorem joined_of_part {run : List Instruction} {j : Instruction} (mem : run ∈ runs r)
    (part : [i, j] <:+: run) : i.endsBlock = false ∧ j.address ∉ inner r := by
  rw [runs_eq] at mem
  obtain ⟨front, back, rfl⟩ := part
  have chain := (List.isChain_of_mem_splitBy mem).left_of_append.right_of_append
  have both : joined r i j = true := (List.isChain_cons_cons.mp chain).1
  simpa [joined] using both

theorem mem_inner (h : Routine.Contiguous pc r.instructions) :
    a ∈ inner r ↔ (∃ i ∈ r.instructions, a ∈ i.targets) ∧ ∃ i ∈ r.instructions, i.address = a := by
  have found : (r.indexOf? a).isSome = true ↔ ∃ i ∈ r.instructions, i.address = a := by
    rw [Routine.indexOf?, Ascending.isSome_indexOf? h.ascending, List.mem_map]
  rw [inner, List.mem_filter, List.mem_flatMap, found]

theorem mem_external (h : Routine.Contiguous pc r.instructions) :
    a ∈ (build r).external ↔
      (∃ i ∈ r.instructions, a ∈ i.targets) ∧ ¬∃ i ∈ r.instructions, i.address = a := by
  have found : (!(r.indexOf? a).isSome) = true ↔ ¬∃ i ∈ r.instructions, i.address = a := by
    rw [Bool.not_eq_true', ← Bool.not_eq_true, Routine.indexOf?,
      Ascending.isSome_indexOf? h.ascending, List.mem_map]
  rw [build_eq, Ascending.mem_ofList, List.mem_filter, List.mem_flatMap, found]

/-- What is added to a list one by one, unless it is there, is added once. -/
theorem foldl_add (found as : List Nat) :
    as.foldl (fun found a => if found.contains a then found else found ++ [a]) found
      = found ++ (as.filter fun a => !found.contains a).eraseDups := by
  induction as generalizing found with
  | nil => simp
  | cons a as ih =>
      rw [List.foldl_cons, ih]
      by_cases there : found.contains a = true
      · rw [if_pos there, List.filter_cons_of_neg (by simpa using there)]
      · rw [if_neg there, List.filter_cons_of_pos (by simpa using there), List.eraseDups_cons,
          List.filter_filter, List.append_assoc, List.singleton_append]
        congr 4
        funext x
        by_cases same : x = a
        · simp [same]
        · simp [same]

theorem successors_eq (i : Instruction) (isLast : Bool) :
    successors i isLast
      = ((if i.opcode.isTerminal || isLast then [] else [i.next]) ++ i.targets).eraseDups := by
  rw [successors, foldl_add, List.eraseDups_append]
  congr 1
  split <;> rfl

/-! ## The division of a routine -/

/-- What the blocks of a routine are. -/
structure Divides (g : FlowGraph) (r : Routine) : Prop where
  /-- Every block has a range of positions, which begins where that of the block in front ends. -/
  nonempty : ∀ b ∈ g.blocks, b.first < b.stop
  begins : ∀ b, g.blocks[0]? = some b → b.first = 0
  next : ∀ k b c, g.blocks[k]? = some b → g.blocks[k + 1]? = some c → c.first = b.stop
  slices : ∀ b ∈ g.blocks, b.instructions = r.instructions.extract b.first b.stop
  /-- The blocks hold all instructions, each of them once and in order. -/
  covers : g.blocks.flatMap Block.instructions = r.instructions
  start : ∀ b ∈ g.blocks, b.instructions.head?.map Instruction.address = some b.start
  inside : ∀ b ∈ g.blocks, ∀ i ∈ b.instructions.dropLast,
    i.branch = none ∧ i.opcode.isTerminal = false ∧ i.opcode.isCall = false
  isTarget : ∀ i ∈ r.instructions,
    (∃ b ∈ g.blocks, b.start = i.address ∧ b.isTarget = true) ↔
      ∃ j ∈ r.instructions, i.address ∈ j.targets
  /-- Where control passes the last instruction of a block, the next block begins, and it is
  found. -/
  passes : ∀ k b i, g.blocks[k]? = some b → b.instructions.getLast? = some i →
    i.opcode.isTerminal = false →
      g.indexOf? i.next = some (k + 1) ∧ ∃ c, g.blocks[k + 1]? = some c ∧ c.start = i.next
  /-- Where control may go on: the next instruction, if control passes to it, and the targets, each
  address once. -/
  successors : ∀ b ∈ g.blocks, ∀ i, b.instructions.getLast? = some i →
    b.successors = ((if i.opcode.isTerminal then [] else [i.next]) ++ i.targets).eraseDups
  ascending : g.external.Pairwise (· < ·)
  external : ∀ a, a ∈ g.external ↔
    (∃ i ∈ r.instructions, a ∈ i.targets) ∧ ¬∃ i ∈ r.instructions, i.address = a
  /-- Every block is found by the address where it begins, and one begins at every target that is an
  instruction of the routine. -/
  indexed : ∀ a k, g.indexOf? a = some k ↔ ∃ b, g.blocks[k]? = some b ∧ b.start = a
  found : ∀ a, (∃ i ∈ r.instructions, a ∈ i.targets) → (∃ i ∈ r.instructions, i.address = a) →
    ∃ k, g.indexOf? a = some k

/-- An instruction that a branch or jump leads to is the first of a block. -/
theorem exists_block (h : Routine.Contiguous pc r.instructions) (target : a ∈ inner r) :
    ∃ (k : Nat) (b : Block), (build r).blocks[k]? = some b ∧ b.start = a ∧ b.isTarget = true := by
  obtain ⟨-, i, mem, rfl⟩ := (mem_inner h).mp target
  rw [← flatten_runs r, List.mem_flatten] at mem
  obtain ⟨run, member, mem⟩ := mem
  obtain ⟨front, back, split⟩ := List.append_of_mem mem
  -- With another instruction of the run in front of it, it would not be a target.
  have first : front = [] := by
    rcases List.eq_nil_or_concat front with empty | ⟨others, j, rfl⟩
    · exact empty
    · have part : [j, i] <:+: run := ⟨others, back, by simp [split]⟩
      exact absurd target (joined_of_part member part).2
  obtain ⟨k, there⟩ := List.mem_iff_getElem?.mp member
  refine ⟨k, _, getElem?_blocks there, ?_, ?_⟩
  · rw [split, first]
    rfl
  · rw [split, first]
    simpa [block] using target

/-- Behind an instruction that ends a run, unless it is the last one of the routine, the next run
begins. -/
theorem next_run (h : Routine.Contiguous pc r.instructions) {run run' : List Instruction}
    (hk : (runs r)[k]? = some run) (hk' : (runs r)[k + 1]? = some run')
    (last : run.getLast? = some i) : run'.head?.map Instruction.address = some i.next := by
  have chain := h.next
  rw [← flatten_runs r, List.isChain_flatten not_mem_runs] at chain
  obtain ⟨j, rest, rfl⟩ :=
    List.exists_cons_of_ne_nil (nonempty_runs run' (List.mem_of_getElem? hk'))
  obtain ⟨inside, at_k⟩ := List.getElem?_eq_some_iff.mp hk
  obtain ⟨inside', at_k'⟩ := List.getElem?_eq_some_iff.mp hk'
  have follows := chain.2.getElem k inside'
  rw [at_k, at_k'] at follows
  exact congrArg some (follows i last j rfl)

/-- The last run ends with the last instruction of the routine. -/
theorem getLast?_last_run {run : List Instruction} (hk : (runs r)[k]? = some run)
    (last : k + 1 = (runs r).length) : run.getLast? = r.instructions.getLast? := by
  obtain ⟨inside, rfl⟩ := List.getElem?_eq_some_iff.mp hk
  have nonempty := nonempty_runs _ (List.getElem_mem inside)
  have whole := flatten_runs r
  rw [← List.take_append_drop k (runs r), List.drop_eq_getElem_cons inside, last, List.drop_length,
    List.flatten_append, List.flatten_singleton] at whole
  rw [← whole, List.getLast?_append_of_ne_nil _ nonempty]

/-- The next block begins at the position where a block ends. -/
theorem first_next {b c : Block} (hb : (build r).blocks[k]? = some b)
    (hc : (build r).blocks[k + 1]? = some c) : c.first = b.stop := by
  obtain ⟨run, there, rfl⟩ := exists_run hb
  obtain ⟨run', -, rfl⟩ := exists_run hc
  show ((runs r).take (k + 1)).flatten.length = ((runs r).take k).flatten.length + run.length
  obtain ⟨inside, rfl⟩ := List.getElem?_eq_some_iff.mp there
  rw [List.take_succ_eq_append_getElem inside, List.flatten_append, List.length_append,
    List.flatten_singleton]

/-- Any but the last element of a list stands in front of another one. -/
theorem infix_of_mem_dropLast {α : Type} {x : α} {xs : List α} (mem : x ∈ xs.dropLast) :
    ∃ y, [x, y] <:+: xs := by
  obtain ⟨front, back, split⟩ := List.append_of_mem mem
  have nonempty : xs ≠ [] := by
    rintro rfl
    cases mem
  have whole := List.dropLast_append_getLast nonempty
  rw [split] at whole
  cases back with
  | nil => exact ⟨_, front, [], by simpa using whole⟩
  | cons y back => exact ⟨y, front, back ++ [xs.getLast nonempty], by simpa using whole⟩

/-- Inside of a block control goes straight on. -/
theorem goes_on (mem : b ∈ (build r).blocks) (inside : i ∈ b.instructions.dropLast) :
    i.branch = none ∧ i.opcode.isTerminal = false ∧ i.opcode.isCall = false := by
  obtain ⟨k, hb⟩ := List.mem_iff_getElem?.mp mem
  obtain ⟨run, there, rfl⟩ := exists_run hb
  obtain ⟨j, part⟩ := infix_of_mem_dropLast inside
  have goes := (joined_of_part (List.mem_of_getElem? there) part).1
  simpa [Instruction.endsBlock, Bool.or_eq_false_iff, and_assoc] using goes

theorem isTarget_iff (h : Routine.Contiguous pc r.instructions) (mem : i ∈ r.instructions) :
    (∃ b ∈ (build r).blocks, b.start = i.address ∧ b.isTarget = true) ↔
      ∃ j ∈ r.instructions, i.address ∈ j.targets := by
  constructor
  · rintro ⟨b, member, start, marked⟩
    obtain ⟨k, hb⟩ := List.mem_iff_getElem?.mp member
    obtain ⟨run, -, rfl⟩ := exists_run hb
    have target := List.contains_iff_mem.mp marked
    rw [← start]
    exact ((mem_inner h).mp target).1
  · intro target
    obtain ⟨k, b, hb, start, marked⟩ := exists_block h ((mem_inner h).mpr ⟨target, i, mem, rfl⟩)
    exact ⟨b, List.mem_of_getElem? hb, start, marked⟩

section Ends

variable (ends : ∀ i, r.instructions.getLast? = some i → i.opcode.isTerminal = true)
include ends

/-- Where control passes the last instruction of a block, another block follows. -/
theorem next_block (h : Routine.Contiguous pc r.instructions) (hb : (build r).blocks[k]? = some b)
    (last : b.instructions.getLast? = some i) (passes : i.opcode.isTerminal = false) :
    ∃ c, (build r).blocks[k + 1]? = some c ∧ c.start = i.next := by
  obtain ⟨run, there, rfl⟩ := exists_run hb
  change run.getLast? = some i at last
  obtain ⟨inside, -⟩ := List.getElem?_eq_some_iff.mp there
  -- The last run ends with the last instruction of the routine, which control does not pass.
  have more : k + 1 < (runs r).length := by
    refine Nat.lt_of_le_of_ne inside ?_
    intro final
    rw [getLast?_last_run there final] at last
    rw [ends i last] at passes
    cases passes
  have there' := List.getElem?_eq_getElem more
  have begins := next_run h there there' last
  refine ⟨_, getElem?_blocks there', ?_⟩
  show ((runs r)[k + 1].head?.map Instruction.address).getD 0 = i.next
  rw [begins]
  rfl

theorem successors_of_mem (mem : b ∈ (build r).blocks) (last : b.instructions.getLast? = some i) :
    b.successors = ((if i.opcode.isTerminal then [] else [i.next]) ++ i.targets).eraseDups := by
  obtain ⟨k, hb⟩ := List.mem_iff_getElem?.mp mem
  obtain ⟨run, there, rfl⟩ := exists_run hb
  change run.getLast? = some i at last
  show (run.getLast?.map fun i => successors i _).getD [] = _
  rw [last, Option.map_some, Option.getD_some, successors_eq]
  -- The last run has no successor behind it, and control does not pass its end anyway.
  by_cases final : k + 1 = (runs r).length
  · rw [getLast?_last_run there final] at last
    rw [ends i last]
    rfl
  · rw [decide_eq_false final, Bool.or_false]

theorem divides_build (h : Routine.Contiguous pc r.instructions) : (build r).Divides r where
  -- Each clause is about one block, which is a run of instructions of the routine.
  nonempty := by
    intro b mem
    obtain ⟨i, rest, cons, -, -⟩ := mem_build mem
    rw [Block.stop, cons, List.length_cons]
    omega
  begins := by
    intro b hb
    obtain ⟨run, -, rfl⟩ := exists_run hb
    rfl
  next := fun k b c => first_next
  slices := by
    intro b mem
    obtain ⟨k, hb⟩ := List.mem_iff_getElem?.mp mem
    obtain ⟨run, there, rfl⟩ := exists_run hb
    rw [← flatten_runs r]
    exact (extract_flatten there).symm
  covers := by
    rw [List.flatMap_def]
    exact flatten_runs r
  start := by
    intro b mem
    obtain ⟨i, rest, cons, start, -⟩ := mem_build mem
    rw [cons, start]
    rfl
  inside := fun b mem i => goes_on mem
  isTarget := fun i => isTarget_iff h
  passes := by
    intro k b i hb last passes
    have next := next_block ends h hb last passes
    exact ⟨(indexOf?_eq_some_iff h).mpr next, next⟩
  successors := fun b mem i => successors_of_mem ends mem
  ascending := by
    rw [build_eq]
    exact Ascending.pairwise_ofList _
  external := fun a => mem_external h
  indexed := fun a k => indexOf?_eq_some_iff h
  found := by
    intro a target there
    obtain ⟨k, b, hb, start, -⟩ := exists_block h ((mem_inner h).mpr ⟨target, there⟩)
    exact ⟨k, (indexOf?_eq_some_iff h).mpr ⟨b, hb, start⟩⟩

end Ends

/-- Every routine that is read, whatever images its instructions were decoded from, is divided into
blocks. -/
theorem divides_of_read {m : Memory} {c c' : DecodeCache} (genuine : c.Genuine)
    (read : Routine.read m a c = .ok r c') : (build r).Divides r := by
  obtain ⟨entry, -, shortest⟩ := genuine.shortest_read read
  refine divides_build (fun i last => ?_) shortest.contiguous
  obtain ⟨j, final, terminal, -⟩ := shortest.complete
  rw [final] at last
  cases last
  exact terminal

/-- An image with a routine at 64 that counts to ten, with a call each time. -/
def countingImage : Memory :=
  .ofBytes (overwrite (Array.replicate 88 0) 64
    [1, 0x54, 1, 1, 1, 0xe0, 0x3f, 0, 0, 0, 0x42, 1, 10, 0xbf, 0xf4, 0xab, 1])

/-- This routine. -/
def counting : Routine :=
  { address := 64, defaults := [0]
    instructions := [
      { address := 65, length := 4, opcode := .add, operands := [.var (.localVar 0), .small 1]
        store := some (.localVar 0), branch := none, text := none },
      { address := 69, length := 5, opcode := .callVS, operands := [.large 0]
        store := some .stack, branch := none, text := none },
      { address := 74, length := 5, opcode := .jl, operands := [.var (.localVar 0), .small 10]
        store := none, branch := some ⟨true, -12, .address 65⟩, text := none },
      { address := 79, length := 2, opcode := .ret, operands := [.var (.localVar 0)]
        store := none, branch := none, text := none }] }

theorem divides_counting :
    (build counting).Divides counting ∧ (build counting).blocks.map Block.start = [65, 74, 79] := by
  let c : DecodeCache := { version := 5, floor := addressSpace }
  have genuine : c.Genuine := by
    intro a i kept
    simp [c] at kept
  have read : Routine.read countingImage 64 c = .ok counting _ :=
    eq_ok_of_value? (by decide +kernel)
  exact ⟨divides_of_read genuine read, by decide +kernel⟩

end FlowGraph

end ZMachine
