/-
  Settings of the program.

  The table `vm` sets how a story is run, `jit` what happens to a routine
  that cannot be compiled, and `log` which messages are shown.  What is not
  known is passed over; a known name with a value of the wrong kind is a
  mistake.
-/
import ZMachine.Engine.Session
import ZMachine.Settings.LogFilter
import ZMachine.Settings.Toml

namespace ZMachine

/-- Settings of the program. -/
structure Settings where
  /-- Capacity of the evaluation stack in words. -/
  stackSize : Nat := 1024
  /-- Number of instructions of a batch. -/
  batchSize : Nat := 10000
  mode : ExecutionMode := .interpreted
  /-- Seed of the random numbers. -/
  seed : Option UInt64 := none
  /-- Whether a routine that cannot be compiled is interpreted. -/
  fallback : Bool := true
  /-- The messages that are shown. -/
  level : String := "warn"
deriving DecidableEq, Repr, Inhabited

namespace Settings

open Toml (Document Value)

/-- A setting: its default where the file has none, and a mistake if `kind` refuses its value. -/
def field {α : Type} (d : Document) (table name : String) (default : α) (kind : Value → Option α) :
    Option α :=
  match d.get? [table, name] with
  | some v => kind v
  | none => if d.hasTable [table, name] then none else some default

/-- A number of things. -/
def count? : Value → Option Nat
  | .integer n => if 0 ≤ n then some n.toNat else none
  | _ => none

/-- A truth value. -/
def truth? : Value → Option Bool
  | .truth b => some b
  | _ => none

/-- A text. -/
def text? : Value → Option String
  | .text s => some s
  | _ => none

/-- The mode with exactly this name. -/
def modeNamed? (name : String) : Option ExecutionMode :=
  [.interpreted, .compiled].find? fun mode => mode.text == name

/-- The mode: a text, or a table that holds nothing but an empty table with the name of the mode. -/
def mode? (d : Document) : Option ExecutionMode :=
  let place := ["vm", "mode"]
  match d.get? place with
  | some v => text? v >>= modeNamed?
  | none =>
      if d.hasTable place then
        match d.namesIn place with
        | [name] =>
            let inner := place ++ [name]
            if d.hasTable inner && (d.namesIn inner).isEmpty then modeNamed? name else none
        | _ => none
      else some .interpreted

/-- The settings of a file; nothing if it is malformed. -/
def ofDocument? (d : Document) : Option Settings := do
  if ["vm", "jit", "log"].any fun table => d.hasValue [table] then none
  return {
    stackSize := ← field d "vm" "stack_size" 1024 count?
    batchSize := ← field d "vm" "batch_size" 10000 count?
    mode := ← mode? d
    seed := ← field d "vm" "random_seed" none fun v => (count? v).map fun n => some n.toUInt64
    fallback := ← field d "jit" "fallback_to_interpreter" true truth?
    level := ← field d "log" "level" "warn" text? }

/-- Read settings; nothing if they are malformed. -/
def parse? (s : String) : Option Settings := Toml.parse? s >>= ofDocument?

/-- The message about a selection of an input stream. -/
def inputStreamMessage : LogMessage where
  level := .trace
  origin := "quill_vm_core::processor::handlers"
  fields := ["message", "stream"]

/-- Settings of a machine, which takes its seed from the entropy if none is set. -/
def machineOptions (s : Settings) (entropy : Entropy) : MachineOptions :=
  { stackSize := s.stackSize, seed := s.seed, entropy }

/-- Settings of a session whose messages are filtered by a directive.  A batch has at least one
instruction. -/
def sessionOptions (s : Settings) (entropy : Entropy) (filter : Directive) : SessionOptions :=
  { machine := { s.machineOptions entropy with
      reportsInputStream := filter.shows inputStreamMessage }
    mode := s.mode, batchSize := max s.batchSize 1
    fallback := s.fallback }

end Settings

end ZMachine
