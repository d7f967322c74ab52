/-
  The course of a run.

  A run of the machine is followed from one instruction to a later one, with
  what is known of the states in between.  Running a routine from outside is
  compared with the course of a machine that has just entered it.
-/
import ZMachine.Proofs.Calls
import ZMachine.Proofs.Preparing

namespace ZMachine

open Machine

namespace Setting

variable (S : Setting)

/-! ## States that are visited -/

/-- Every routine that is called runs as compiled code. -/
def Native : Prop := ∀ a, S.called a → ∃ r, S.fate a = .native r

/-- What is asked of a state in which an instruction is about to run. -/
structure Allows (t : Machine) : Prop where
  unchanged : S.Unchanged t.memory
  called : ∀ a, t.calledAddress? = some a → S.called a
  /-- No stack that is kept in a table is pulled from. -/
  table : ∀ i, t.nextInstruction? = some i →
    ¬(i.opcode = .pull ∧ i.store.isSome = true ∧ i.operands ≠ [])

/-- What is asked besides where the interpreter takes over. -/
structure Tame (t : Machine) : Prop where
  steady : ∀ i, t.nextInstruction? = some i → ∀ x, t.pc ≤ x → x < i.next → S.steady x
  linear : ∀ i, t.nextInstruction? = some i → i.opcode ≠ .throwFrame ∧ i.opcode ≠ .restart

/-- Every frame above `floor` belongs to a routine that runs as compiled code. -/
def Compiled (floor : Nat) (frames : List Frame) : Prop :=
  ∀ f ∈ frames.take (frames.length - floor), ∃ r, S.fate f.address = .native r

/-- Compiled code is about to call a routine that cannot be read. -/
structure Refuses (floor : Nat) (t : Machine) : Prop where
  proceeds : t.Proceeds floor
  compiled : S.Compiled floor t.stack.frames
  called : ∃ a, t.calledAddress? = some a ∧ S.fate a = .refused

/-- What does not happen where compiled code is followed: a routine that cannot be read is called,
or the story begins anew. -/
def Strays (floor : Nat) (t : Machine) : Prop :=
  S.Refuses floor t ∨ t.Proceeds floor ∧ t.Restarts

/-- A run above `floor` frames that stays within the setting, comes to an end, and succeeds if the
interpreter may have to take over. -/
structure Going (floor bound : Nat) (s : Machine) : Prop where
  safe : ∀ t, Visits floor s t → t.Proceeds floor → S.Allows t ∧ (S.Native ∨ S.Tame t)
  finite : ∀ u, runToDepth floor bound s ≠ .error .exhausted u
  settled : S.Native ∨ S.fallback = true
  smooth : S.Native ∨ ∃ u, runToDepth floor bound s = .ok () u

/-! ## From one instruction to a later one -/

/-- A run comes to carry out the instruction at `old`, with `result`; from then on it is bounded by
`bound'`.  Up to there it does not stray. -/
structure Reaches (floor bound : Nat) (s : Machine) (bound' old : Nat)
    (result : EStateM.Result Fault Machine Unit) : Prop where
  fewer : bound' < bound
  run : runToDepth floor bound s = conclude floor bound' old result
  visits : ∀ t, result = .ok () t → Visits floor s (t.stepped old)
  clean : ∀ t, Visits floor s t → S.Strays floor t →
    ∃ u, result = .ok () u ∧ Visits floor (u.stepped old) t

variable {S} {floor bound bound' old : Nat} {s : Machine}

/-- The next instruction of a run. -/
theorem reaches_next {i : Instruction} {decoded : DecodeCache} (proceeds : s.Proceeds floor)
    (h : s.code.decoded.decode s.memory s.pc = (.ok i, decoded))
    (steadfast : ¬S.Strays floor s) (bound : Nat) :
    S.Reaches floor (bound + 1) s bound s.pc (execute i (s.fetched decoded i)) where
  fewer := Nat.lt_succ_self bound
  run := runToDepth_decoded proceeds h bound
  visits _ ran := .executed proceeds h ran
  clean t visits strays := by
    rcases visits.first with rfl | ⟨u, -, ran, later⟩
    · exact absurd strays steadfast
    · rw [step_of_decoded proceeds.2 h] at ran
      generalize execute i (s.fetched decoded i) = result at ran
      cases result with
      | error e v => cases ran
      | ok _ v =>
          cases ran
          exact ⟨v, rfl, later⟩

theorem not_strays {i : Instruction} {decoded : DecodeCache}
    (h : s.code.decoded.decode s.memory s.pc = (.ok i, decoded)) (accepted : ¬S.Refuses floor s)
    (goesOn : i.opcode ≠ .restart) : ¬S.Strays floor s := by
  rintro (refuses | ⟨-, j, next, opcode⟩)
  · exact accepted refuses
  · rw [nextInstruction?_eq h] at next
    cases next
    exact goesOn opcode

theorem Reaches.trans {u : Machine} {bound'' old' : Nat}
    {result : EStateM.Result Fault Machine Unit} (h : S.Reaches floor bound s bound' old (.ok () u))
    (h' : S.Reaches floor bound' (u.stepped old) bound'' old' result) :
    S.Reaches floor bound s bound'' old' result where
  fewer := Nat.lt_trans h'.fewer h.fewer
  run := h.run.trans h'.run
  visits t ran := (h.visits u rfl).trans (h'.visits t ran)
  clean t visits strays := by
    obtain ⟨v, same, later⟩ := h.clean t visits strays
    cases same
    exact h'.clean t later strays

theorem Reaches.failed {u : Machine} {g : Fault}
    (h : S.Reaches floor bound s bound' old (.error g u)) :
    runToDepth floor bound s = .error (.fault (g.locate old)) u := h.run

theorem Going.of_reaches {u : Machine} (h : S.Going floor bound s)
    (reaches : S.Reaches floor bound s bound' old (.ok () u)) :
    S.Going floor bound' (u.stepped old) where
  safe t visits := h.safe t ((reaches.visits u rfl).trans visits)
  finite t := by
    have run : runToDepth floor bound s = runToDepth floor bound' (u.stepped old) := reaches.run
    rw [← run]
    exact h.finite t
  settled := h.settled
  smooth := by
    have run : runToDepth floor bound s = runToDepth floor bound' (u.stepped old) := reaches.run
    rw [← run]
    exact h.smooth

/-- A run that comes to an end has a bound that is not used up. -/
theorem Going.positive (h : S.Going floor bound s) : 0 < bound := by
  rcases bound with - | bound
  · exact absurd (runToDepth_zero floor s) (h.finite s)
  · exact Nat.succ_pos bound

/-! ## Routines that are run from outside -/

/-- How running a routine from outside ends, compared with the run of a machine in the state `s`
that has entered it by the frame `f` above the frames `fs`. -/
inductive Invoked (S : Setting) (floor bound : Nat) (s : Machine) (f : Frame) (fs : List Frame)
    (pool : List String) : EStateM.Result Halt Engine (Option Word) → Prop where
  | returns {w : Word} {e : Engine} {t : Machine} {bound' old : Nat}
      (bare : t.bare = e.machine.bare) (frames : t.stack.frames = fs)
      (pc : t.pc = f.returnAddress) (nested : t.nested = s.nested) (ready : S.Ready pool e)
      (holds : S.Holds t) (last : t.lastReturn = some w)
      (reaches : S.Reaches floor bound s bound' old (storeResult f.store w t)) :
      Invoked S floor bound s f fs pool (.ok (some w) e)
  | quits {e : Engine} {u : Machine} {bound' old : Nat} (bare : u.bare = e.machine.bare)
      (ended : u.state = .quit) (reaches : S.Reaches floor bound s bound' old (.ok () u)) :
      Invoked S floor bound s f fs pool (.ok none e)
  | fails {g g' : Fault} {e : Engine} {u : Machine} {bound' old : Nat} (root : g'.root = g.root)
      (reaches : S.Reaches floor bound s bound' old (.error g u)) :
      Invoked S floor bound s f fs pool (.error (.fault g') e)
  | refuses {g : Fault} {e : Engine} {t : Machine} (visits : Visits floor s t)
      (refuses : S.Refuses floor t) : Invoked S floor bound s f fs pool (.error (.fault g) e)

theorem Invoked.mono {f : Frame} {fs : List Frame} {pool more : List String}
    {result : EStateM.Result Halt Engine (Option Word)} (grows : pool <+: more)
    (h : S.Invoked floor bound s f fs more result) : S.Invoked floor bound s f fs pool result := by
  cases h with
  | returns bare frames pc nested ready holds last reaches =>
      exact .returns bare frames pc nested ⟨ready.prepared, grows.trans ready.grows, ready.running⟩
        holds last reaches
  | quits bare ended reaches => exact .quits bare ended reaches
  | fails root reaches => exact .fails root reaches
  | refuses visits refuses => exact .refuses visits refuses

/-- A machine in the state `s` that goes on where a call led to `t`, by the frame `f` above the
frames `fs`; observers and the count of routines run from outside apart. -/
structure Enters (S : Setting) (t s : Machine) (f : Frame) (fs : List Frame) : Prop where
  frames : t.stack.frames = f :: fs
  bare : s.bare = t.bare
  stack : s.stack = t.stack
  pc : s.pc = t.pc
  outside : 0 < s.nested
  holds : S.Holds s

/-- Running the routine at `a` from outside with `result` compares with a call by the
machine `t`. -/
def Answers (S : Setting) (floor bound : Nat) (t : Machine) (a : Nat) (args : List Word)
    (store : Option Variable) (returnAddress : Nat) (pool : List String)
    (result : EStateM.Result Halt Engine (Option Word)) : Prop :=
  match callRoutine a args store returnAddress t with
  | .error g _ => ∃ g' e', result = .error (.fault g') e' ∧ g'.root = g.root
  | .ok _ t' => ∀ s f, S.Enters t' s f t.stack.frames → S.Going floor bound s →
      S.Invoked floor bound s f t.stack.frames pool result

end Setting

end ZMachine
