/-
  Running a routine to its end.

  A routine may run for ever, so a bound on the number of instructions is
  given; a run that uses it up is told apart from every result.
-/
import ZMachine.Machine.Step

namespace ZMachine

/-- Why a run stopped before its end. -/
inductive Halt where
  | fault (cause : Fault)
  /-- The story is over. -/
  | quit
  /-- The bound is used up. -/
  | exhausted
  /-- The number of routines run from outside would fall below zero.  The program cannot go on. -/
  | miscounted
deriving DecidableEq, Repr, Inhabited

/-- A run, which may be stopped before its end. -/
abbrev RunM := EStateM Halt Machine

/-- A fault stops a run. -/
instance {σ : Type} : MonadLift (EStateM Fault σ) (EStateM Halt σ) where
  monadLift x := fun s =>
    match x s with
    | .ok a s => .ok a s
    | .error e s => .error (.fault e) s

namespace Machine

/-- Carry out instructions until no more than `floor` frames are left or the story is over. -/
def runToDepth (floor : Nat) : Nat → RunM Unit
  | 0 => throw .exhausted
  | bound + 1 => do
      let s ← get
      if floor < s.stack.depth then
        match s.state with
        | .running =>
            step
            runToDepth floor bound
        | .quit => return ()
        | .awaiting _ => throw (.fault .inputUnavailable)
      else return ()

/-- A routine that was run from outside is over. -/
def countDown : RunM Unit := do
  if (← get).nested = 0 then throw .miscounted
  modify fun s => { s with nested := s.nested - 1 }

/-- One level of running from outside, which ends with the run whatever its end is. -/
def nesting {α : Type} (x : RunM α) : RunM α := fun s =>
  match x { s with nested := s.nested + 1 } with
  | .ok a s => (do countDown; return a : RunM α) s
  | .error .exhausted s => .error .exhausted s
  | .error e s => (do countDown; throw e : RunM α) s

/-- Run the routine at an address to its end and return its result; nothing if the story was over
before.  Address 0 yields 0. -/
def runRoutine (bound address : Nat) (args : List Word) : RunM (Option Word) := do
  if address = 0 then return some 0
  let floor := (← get).stack.depth
  let resume := (← get).pc
  callRoutine address args none resume
  nesting (runToDepth floor bound)
  -- After the end of the story the counter stays where it was.
  if (← get).state = .quit then return none
  jumpTo resume
  return (← get).lastReturn

end Machine

end ZMachine
