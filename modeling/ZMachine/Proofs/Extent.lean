/-
  How far a routine reaches.

  Reading stops after an instruction that control does not pass, if no branch
  or jump up to there has led behind it.  Later instructions may lead further
  and further, so the furthest address so far is carried along: a list of
  instructions is complete past it, or it is not, and reading takes the
  shortest list that is.
-/
import ZMachine.Proofs.Ascending
import ZMachine.Proofs.Forgetting

namespace ZMachine

namespace Routine

variable {m : Memory} {version pc furthest : Nat} {i : Instruction} {is : List Instruction}

/-! ## Instructions that follow each other -/

/-- Instructions that follow each other from `pc` on, each of them of at least one byte. -/
structure Contiguous (pc : Nat) (is : List Instruction) : Prop where
  nonempty : is ≠ []
  first : ∀ i, is.head? = some i → i.address = pc
  next : is.IsChain fun i j => j.address = i.next
  extended : ∀ i ∈ is, i.address < i.next

theorem Row.contiguous (row : Row m version pc is) : Contiguous pc is where
  nonempty := row.nonempty
  first := row.first
  next := row.next
  extended := fun i mem => (decode_spec (row.decoded i mem)).2.1

namespace Contiguous

theorem singleton (address : i.address = pc) (extended : pc < i.next) : Contiguous pc [i] where
  nonempty := List.cons_ne_nil i []
  first := by
    intro j head
    cases head
    exact address
  next := .singleton i
  extended := by
    intro j mem
    rw [List.mem_singleton.mp mem, address]
    exact extended

theorem cons (address : i.address = pc) (extended : pc < i.next) (rest : Contiguous i.next is) :
    Contiguous pc (i :: is) := by
  obtain ⟨j, more, rfl⟩ := List.exists_cons_of_ne_nil rest.nonempty
  have one := singleton address extended
  refine ⟨List.cons_ne_nil i _, one.first, .cons_cons (rest.first j rfl) rest.next, ?_⟩
  intro k mem
  rcases List.mem_cons.mp mem with rfl | mem
  · exact one.extended k List.mem_cons_self
  · exact rest.extended k mem

/-- Each instruction begins behind those in front of it. -/
theorem ascending (h : Contiguous pc is) : (is.map Instruction.address).Pairwise (· < ·) := by
  apply List.IsChain.pairwise
  rw [List.isChain_map]
  refine h.next.imp_of_mem_imp ?_
  intro i j mem _ follows
  show i.address < j.address
  rw [follows]
  exact h.extended i mem

theorem le_address (h : Contiguous pc is) : ∀ i ∈ is, pc ≤ i.address := by
  obtain ⟨j, more, rfl⟩ := List.exists_cons_of_ne_nil h.nonempty
  have first : j.address = pc := h.first j rfl
  have later := (List.pairwise_cons.mp h.ascending).1
  intro i mem
  rcases List.mem_cons.mp mem with rfl | mem
  · omega
  · have := later i.address (List.mem_map_of_mem mem)
    omega

end Contiguous

/-! ## Where reading may stop -/

/-- Reading may stop after these instructions: control does not pass the last one, and no branch or
jump leads behind it. -/
def Complete (is : List Instruction) : Prop :=
  ∃ last, is.getLast? = some last ∧ last.opcode.isTerminal = true ∧
    ∀ i ∈ is, ∀ a ∈ i.targets, a < last.next

/-- Reading may stop after these instructions, also if branches and jumps in front of them have led
as far as `furthest`. -/
def CompletePast (furthest : Nat) (is : List Instruction) : Prop :=
  ∃ last, is.getLast? = some last ∧ last.opcode.isTerminal = true ∧ furthest < last.next ∧
    ∀ i ∈ is, ∀ a ∈ i.targets, a < last.next

theorem foldl_max_lt_iff {as : List Nat} {b n : Nat} :
    as.foldl max b < n ↔ b < n ∧ ∀ a ∈ as, a < n := by
  induction as generalizing b with
  | nil => simp
  | cons a as ih => rw [List.foldl_cons, ih, Nat.max_lt, List.forall_mem_cons, and_assoc]

theorem completePast_singleton :
    CompletePast furthest [i] ↔ i.opcode.isTerminal = true ∧
    i.targets.foldl max furthest < i.next := by
  rw [foldl_max_lt_iff]
  constructor
  · rintro ⟨last, same, terminal, behind, below⟩
    cases same
    exact ⟨terminal, behind, below i List.mem_cons_self⟩
  · rintro ⟨terminal, behind, below⟩
    refine ⟨i, rfl, terminal, behind, ?_⟩
    intro j mem
    rw [List.mem_singleton.mp mem]
    exact below

/-- What an instruction leads to counts for those behind it. -/
theorem completePast_cons (nonempty : is ≠ []) :
    CompletePast furthest (i :: is) ↔ CompletePast (i.targets.foldl max furthest) is := by
  obtain ⟨j, more, rfl⟩ := List.exists_cons_of_ne_nil nonempty
  unfold CompletePast
  simp only [List.getLast?_cons_cons, foldl_max_lt_iff]
  refine exists_congr fun last => and_congr_right fun _ => and_congr_right fun _ => ?_
  rw [List.forall_mem_cons, and_assoc]

theorem not_completePast_nil : ¬CompletePast furthest [] := by
  rintro ⟨last, listed, -⟩
  cases listed

/-- The shortest instructions from `pc` on after which reading may stop. -/
structure Shortest (pc furthest : Nat) (is : List Instruction) : Prop where
  contiguous : Contiguous pc is
  complete : CompletePast furthest is
  first : ∀ part, part <+: is → part ≠ is → ¬CompletePast furthest part

namespace Shortest

theorem singleton (address : i.address = pc) (extended : pc < i.next)
    (complete : CompletePast furthest [i]) : Shortest pc furthest [i] := by
  refine ⟨.singleton address extended, complete, ?_⟩
  intro part front proper
  rcases List.prefix_cons_iff.mp front with rfl | ⟨tail, rfl, empty⟩
  · exact not_completePast_nil
  · rw [List.prefix_nil.mp empty] at proper
    contradiction

theorem cons (address : i.address = pc) (extended : pc < i.next)
    (more : ¬CompletePast furthest [i])
    (rest : Shortest i.next (i.targets.foldl max furthest) is) :
    Shortest pc furthest (i :: is) := by
  refine ⟨.cons address extended rest.contiguous,
    (completePast_cons rest.contiguous.nonempty).mpr rest.complete, ?_⟩
  intro part front proper
  -- A shorter list is empty, or the first instruction alone, or it goes on with a part of the rest.
  rcases List.prefix_cons_iff.mp front with rfl | ⟨tail, rfl, within⟩
  · exact not_completePast_nil
  · by_cases alone : tail = []
    · rw [alone]
      exact more
    · rw [completePast_cons alone]
      apply rest.first tail within
      rintro rfl
      exact proper rfl

end Shortest

/-! ## Reading -/

/-- Instructions that are read from `pc` on, each of them decoded from some image: up to the first
one that control does not pass and that lies behind all that was led to. -/
inductive ReadOff (version : Nat) : Nat → Nat → List Instruction → Prop where
  | last {pc furthest : Nat} {i : Instruction} (decoded : ∃ m, decode m version pc = .ok i)
      (complete : i.opcode.isTerminal = true ∧ i.targets.foldl max furthest < i.next) :
      ReadOff version pc furthest [i]
  | more {pc furthest : Nat} {i : Instruction} {is : List Instruction}
      (decoded : ∃ m, decode m version pc = .ok i)
      (incomplete : ¬(i.opcode.isTerminal = true ∧ i.targets.foldl max furthest < i.next))
      (rest : ReadOff version i.next (i.targets.foldl max furthest) is) :
      ReadOff version pc furthest (i :: is)

namespace ReadOff

/-- Reading instructions takes as few of them as it may. -/
theorem shortest (h : ReadOff version pc furthest is) : Shortest pc furthest is := by
  induction h with
  | last decoded complete =>
      obtain ⟨m, decoded⟩ := decoded
      obtain ⟨at_pc, extended, -, -⟩ := decode_spec decoded
      exact .singleton at_pc extended (completePast_singleton.mpr complete)
  | more decoded incomplete _ ih =>
      obtain ⟨m, decoded⟩ := decoded
      obtain ⟨at_pc, extended, -, -⟩ := decode_spec decoded
      exact .cons at_pc extended (mt completePast_singleton.mp incomplete) ih

/-- Instructions that are read have the parts that their opcodes ask for. -/
theorem formed (h : ReadOff version pc furthest is) : ∀ i ∈ is, i.Formed version := by
  induction h with
  | last decoded _ =>
      obtain ⟨m, decoded⟩ := decoded
      exact List.forall_mem_singleton.mpr (decode_spec decoded).2.2.2
  | more decoded _ _ ih =>
      obtain ⟨m, decoded⟩ := decoded
      exact List.forall_mem_cons.mpr ⟨(decode_spec decoded).2.2.2, ih⟩

end ReadOff

end Routine

namespace DecodeCache.Genuine

variable {c : DecodeCache} {m : Memory}

theorem readOff_readInstructions (genuine : c.Genuine) (address limit pc furthest : Nat) :
    ∀ is ∈ value? (Routine.readInstructions m address limit pc furthest c),
      Routine.ReadOff c.version pc furthest is := by
  -- By the number of instructions that may follow; what was led to so far is passed on to the rest.
  induction limit generalizing pc furthest c with
  | zero =>
      intro is mem
      cases mem
  | succ limit ih =>
      rw [Routine.run_readInstructions]
      cases decoded : c.decode m pc with
      | mk result d =>
          cases result with
          | error e =>
              intro is mem
              cases mem
          | ok i =>
              have source := genuine.source decoded
              dsimp only
              split
              · rename_i complete
                intro is one
                cases one
                exact .last source complete
              · rename_i incomplete
                have rest := ih (genuine.of_decode decoded) i.next (i.targets.foldl max furthest)
                rw [(version_decode decoded).1] at rest
                intro is all
                cases read : Routine.readInstructions m address limit i.next
                    (i.targets.foldl max furthest) d with
                | error e d' =>
                    rw [read] at all
                    cases all
                | ok js d' =>
                    rw [read] at all rest
                    cases all
                    exact .more source incomplete (rest js rfl)

/-- The instructions of a routine begin where its locals end. -/
theorem readOff_read (genuine : c.Genuine) {a : Nat} {c' : DecodeCache} {r : Routine}
    (read : Routine.read m a c = .ok r c') :
    ∃ entry, Routine.readLocals m c.version a = .ok (r.defaults, entry) ∧
      Routine.ReadOff c.version entry entry r.instructions := by
  obtain ⟨entry, locals, rest⟩ := Routine.read_ok read
  have found := genuine.readOff_readInstructions (m := m) a maxRoutineInstructions entry entry
  rw [rest] at found
  exact ⟨entry, locals, found r.instructions rfl⟩

theorem shortest_read (genuine : c.Genuine) {a : Nat} {c' : DecodeCache} {r : Routine}
    (read : Routine.read m a c = .ok r c') :
    ∃ entry, Routine.readLocals m c.version a = .ok (r.defaults, entry) ∧
      Routine.Shortest entry entry r.instructions := by
  obtain ⟨entry, locals, found⟩ := genuine.readOff_read read
  exact ⟨entry, locals, found.shortest⟩

end DecodeCache.Genuine

namespace Routine

variable {m : Memory} {version a : Nat} {r : Routine}

/-- An instruction is found at its place, and nothing else is found. -/
theorem indexOf?_eq_some_iff {pc : Nat} (h : Contiguous pc r.instructions) {x k : Nat} :
    r.indexOf? x = some k ↔ ∃ i, r.instructions[k]? = some i ∧ i.address = x := by
  rw [indexOf?, Ascending.indexOf?_eq_some_iff h.ascending, List.getElem?_map,
    Option.map_eq_some_iff]

/-- A routine reaches from its first byte to the first place where reading may stop. -/
structure Extends (m : Memory) (version a : Nat) (r : Routine) : Prop where
  address : r.address = a
  /-- The instructions stand one after the other behind the number of locals and, up to version 4,
  their values. -/
  row : Row m version (a + 1 + if version ≤ 4 then 2 * (m.byteAt a).toNat else 0) r.instructions
  terminal : ∀ last, r.instructions.getLast? = some last → last.opcode.isTerminal = true
  below : ∀ i ∈ r.instructions, ∀ x ∈ i.targets, x < r.stop
  first : ∀ part, part <+: r.instructions → part ≠ [] → part ≠ r.instructions → ¬Complete part
  found : ∀ x k, r.indexOf? x = some k ↔ ∃ i, r.instructions[k]? = some i ∧ i.address = x

/-- A routine that is read reaches as far as its instructions lead and no further. -/
theorem extends_of_read {c c' : DecodeCache} (coherent : c.Coherent m)
    (read : Routine.read m a c = .ok r c') : r.Extends m c.version a := by
  obtain ⟨entry, stands⟩ := stands_of_found (found_of_read coherent read)
  obtain ⟨entry', locals, shortest⟩ := coherent.genuine.shortest_read read
  obtain rfl : entry' = entry := by
    rw [stands.locals] at locals
    exact (Prod.mk.inj (Except.ok.inj locals)).2.symm
  -- Where the locals end depends on the version alone.
  have behind : entry' = a + 1 + if c.version ≤ 4 then 2 * (m.byteAt a).toNat else 0 := by
    obtain ⟨-, -, -, eq⟩ := readLocals_eq_ok.mp locals
    have place : entry' = (Routine.locals m c.version a).2 := congrArg Prod.snd eq
    rw [place]
    unfold Routine.locals
    dsimp only
    split
    · show a + 1 + (m.byteAt a).toNat * 2 = _
      omega
    · rfl
  obtain ⟨last, final, terminal, -, below⟩ := shortest.complete
  have stop : r.stop = last.next := by
    rw [Routine.stop, final]
    rfl
  refine ⟨stands.address, behind ▸ stands.row, ?_, ?_, ?_, ?_⟩
  · intro i last'
    rw [final] at last'
    cases last'
    exact terminal
  · rw [stop]
    exact below
  · rintro part front - proper ⟨i, final', terminal', below'⟩
    -- Every instruction ends behind the entry, so the entry asks for nothing more.
    have mem : i ∈ r.instructions := front.subset (List.mem_of_getLast? final')
    have low := shortest.contiguous.le_address i mem
    have high := shortest.contiguous.extended i mem
    apply shortest.first part front proper
    exact ⟨i, final', terminal', by omega, below'⟩
  · intro x k
    exact indexOf?_eq_some_iff shortest.contiguous

/-- An image with a routine at 64 that branches over a return, from 68 to 69. -/
def skippingImage : Memory :=
  .ofBytes (overwrite (Array.replicate 72 0) 64 [1, 0xa0, 1, 0xc3, 0xb0, 0xab, 1])

/-- This routine, which ends after a second return. -/
def skipping : Routine :=
  { address := 64, defaults := [0]
    instructions := [
      { address := 65, length := 3, opcode := .jz, operands := [.var (.localVar 0)]
        store := none, branch := some ⟨true, 3, .address 69⟩, text := none },
      { address := 68, length := 1, opcode := .rtrue, operands := []
        store := none, branch := none, text := none },
      { address := 69, length := 2, opcode := .ret, operands := [.var (.localVar 0)]
        store := none, branch := none, text := none }] }

theorem extends_skipping :
    skipping.Extends skippingImage 5 64 ∧ ¬Complete (skipping.instructions.take 2) := by
  have coherent : DecodeCache.Coherent { version := 5, floor := addressSpace } skippingImage := by
    intro a i kept
    simp at kept
  have read : Routine.read skippingImage 64 { version := 5, floor := addressSpace }
      = .ok skipping _ :=
    eq_ok_of_value? (by decide +kernel)
  have extent := extends_of_read coherent read
  refine ⟨extent, extent.first _ (List.take_prefix 2 _) ?_ ?_⟩ <;> decide +kernel

end Routine

end ZMachine
