/-
  Sessions.

  A session runs a story from its beginning: either by interpreting a batch
  of instructions at a time, or by running the main routine as compiled code
  to its end.  A stop request is looked for between instructions when
  interpreting, and at calls otherwise.
-/
import ZMachine.Engine.Basic

namespace ZMachine

/-- How a session runs its story. -/
inductive ExecutionMode where
  | interpreted
  | compiled
deriving DecidableEq, Repr, Inhabited

namespace ExecutionMode

/-- Name of a mode. -/
def text : ExecutionMode → String
  | interpreted => "interpreted"
  | compiled => "compiled"

/-- Lower case of the ASCII letters of a text. -/
def lowerAscii (s : String) : String := s.map fun c => if 'A' ≤ c ∧ c ≤ 'Z' then c.toLower else c

/-- The mode with a name, in whatever case. -/
def parse (s : String) : Except String ExecutionMode :=
  let name := lowerAscii s
  if name = "interpreted" ∨ name = "interpreter" then .ok interpreted
  else if name = "compiled" ∨ name = "jit" then .ok compiled
  else
    .error ("unknown execution mode '" ++ name ++ "' (expected 'interpreted' or 'compiled')")

end ExecutionMode

/-- Settings of a session. -/
structure SessionOptions where
  machine : MachineOptions := {}
  mode : ExecutionMode := .interpreted
  /-- Number of instructions of a batch. -/
  batchSize : Nat := 10000
  /-- Whether the interpreter may take over from compiled code. -/
  fallback : Bool := true
deriving Inhabited

/-- Where a session stands. -/
inductive SessionState where
  /-- Not yet run. -/
  | ready
  | running
  | awaiting (request : InputRequest)
  | quit
  /-- A stop request was seen. -/
  | stopped
  | faulted (cause : Fault)
deriving DecidableEq, Repr, Inhabited

/-- Result of running a session for a while. -/
inductive SessionOutcome where
  /-- The batch is done; there is more to run. -/
  | yielded (executed : Nat)
  | awaiting (request : InputRequest)
  | quit
  | stopped
  | faulted (cause : Fault)
deriving DecidableEq, Repr, Inhabited

/-- A story that is being run. -/
structure Session where
  engine : Engine
  options : SessionOptions
  state : SessionState := .ready
deriving Inhabited

namespace Session

/-- A session of a story. -/
def load (image : Array Byte) (options : SessionOptions) (host : Host) : Except Fault Session := do
  let machine ← Machine.load image options.machine host
  return { engine := { machine, fallback := options.fallback }, options }

/-- The machine. -/
def machine (s : Session) : Machine := s.engine.machine

/-- Let the machine act; its state is kept also after a fault. -/
def act {α : Type} (s : Session) (x : MachineM α) : Except Fault α × Session :=
  let machine := s.machine
  let s := { s with engine := { s.engine with machine := default } }
  match x machine with
  | .ok a m => (.ok a, { s with engine := { s.engine with machine := m } })
  | .error f m => (.error f, { s with engine := { s.engine with machine := m } })

/-- Raise or clear the stop request, without a change of state. -/
def setInterrupt (s : Session) (on : Bool) : Session :=
  (s.act (Machine.tell fun h => { h with interrupted := on })).2

/-- Whether a stop was requested. -/
def isInterrupted (s : Session) : Bool := s.machine.host.interrupted

/-- Clear the stop request.  An interpreted session that it stopped can go on. -/
def clearInterrupt (s : Session) : Session :=
  let s := s.setInterrupt false
  if s.state = .stopped ∧ s.options.mode = .interpreted then { s with state := .running } else s

/-- Answer a request for input. -/
def provide (s : Session) (x : MachineM Unit) : Except Fault Unit × Session :=
  match s.act x with
  | (.ok _, s) => (.ok (), { s with state := .running })
  | (.error f, s) => (.error f, s)

/-- Answer a request for a line. -/
def provideLine (s : Session) (line : String) : Except Fault Unit × Session :=
  s.provide (Machine.provideLine line)

/-- Answer a request for a key press. -/
def provideChar (s : Session) (c : Char) : Except Fault Unit × Session :=
  s.provide (Machine.provideChar c)

/-- The story is over. -/
def finish (s : Session) : SessionOutcome × Session := (.quit, { s with state := .quit })

/-- A stop request was seen. -/
def stop (s : Session) : SessionOutcome × Session := (.stopped, { s with state := .stopped })

/-- The story cannot go on. -/
def fail (s : Session) (f : Fault) : SessionOutcome × Session :=
  (.faulted f, { s with state := .faulted f })

/-- Result of a batch after `executed` instructions without a fault. -/
def endBatch (s : Session) (executed : Nat) : SessionOutcome × Session :=
  match s.machine.state with
  | .running => (.yielded executed, s)
  | .awaiting request => (.awaiting request, { s with state := .awaiting request })
  | .quit => s.finish

/-- Interpret up to `limit` more instructions after `executed` of them. -/
def runBatch (s : Session) (executed : Nat) : Nat → SessionOutcome × Session
  | 0 => s.endBatch executed
  | limit + 1 =>
      if s.machine.state ≠ .running then s.endBatch executed
      else if s.isInterrupted then s.stop
      else
        match s.act Machine.step with
        | (.ok _, s) => runBatch s (executed + 1) limit
        | (.error f, s) => s.fail f

/-- Run the main routine as compiled code.  Nothing if the bound is used up or the program cannot go
on. -/
def runMain (s : Session) (bound : Nat) : Option (SessionOutcome × Session) :=
  match Engine.invoke bound s.machine.header.mainRoutine [] s.engine with
  | .ok _ engine =>
      -- A main routine that returns ends the story, too.
      let (_, s) := { s with engine }.act Machine.quit
      some s.finish
  | .error .quit engine => some { s with engine }.finish
  | .error .exhausted _ | .error .miscounted _ => none
  | .error (.fault f) engine =>
      let s := { s with engine }
      some (if f = .interrupted then s.stop else s.fail f)

/-- Run for a while.  A session that cannot go on tells so and stays as it is.  Nothing if compiled
code uses up the bound or the program cannot go on. -/
def run (s : Session) (bound : Nat) : Option (SessionOutcome × Session) :=
  match s.state with
  | .awaiting request => some (.awaiting request, s)
  | .quit => some (.quit, s)
  | .stopped => some (.stopped, s)
  | .faulted f => some (.faulted f, s)
  | .ready | .running =>
      if s.isInterrupted then some s.stop
      else
        let s := { s with state := .running }
        match s.options.mode with
        | .interpreted => some (s.runBatch 0 s.options.batchSize)
        | .compiled => s.runMain bound

end Session

end ZMachine
