/-
  What observers of the running machine are told.
-/

namespace ZMachine

/-- Something that happened. -/
inductive Event where
  /-- The instruction at `pc` is about to run. -/
  | stepping (pc : Nat)
  /-- The instruction at `old` has run; `new` comes next. -/
  | stepped (old new : Nat)
  /-- A routine was entered. -/
  | entered (address returnAddress : Nat)
  /-- A routine was left. -/
  | exited (address returnAddress : Nat)
  /-- The story is over. -/
  | quit
deriving DecidableEq, Repr, Inhabited

/-- Observers, and the events that they were told and have not collected. -/
structure EventLog where
  /-- Numbers of the observers, oldest first. -/
  observers : List UInt32 := []
  nextObserver : UInt32 := 0
  entries : Array (UInt32 × Event) := #[]
deriving Inhabited

namespace EventLog

/-- Add an observer and return its number. -/
def subscribe (l : EventLog) : UInt32 × EventLog :=
  (l.nextObserver,
    { l with observers := l.observers ++ [l.nextObserver], nextObserver := l.nextObserver + 1 })

/-- Remove an observer; says whether there was one. -/
def unsubscribe (l : EventLog) (id : UInt32) : Bool × EventLog :=
  (l.observers.contains id, { l with observers := l.observers.filter (· != id) })

/-- Tell every observer. -/
def emit (l : EventLog) (e : Event) : EventLog :=
  { l with entries := l.observers.foldl (fun log id => log.push (id, e)) l.entries }

end EventLog

end ZMachine
