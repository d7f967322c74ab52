/-
  Listings of the code of a story: instructions, routines, and what became of
  the routines when they were compiled.
-/
import ZMachine.Compile.Routine
import ZMachine.Console.Report
import ZMachine.Machine.Basic

namespace ZMachine
namespace Listing

/-- Name of a routine in listings. -/
def routineName (t : RoutineTable) (a : Nat) : String :=
  if a = t.main then "main" else "routine_" ++ Show.hex 5 a

/-- A line of a listing. -/
def line (s : String) : String := s ++ "\n"

/-! ## Instructions -/

/-- The line before an instruction that begins a block. -/
def blockMark (g : FlowGraph) (i : Instruction) : String :=
  match g.blocks.find? fun b => b.start == i.address with
  | some b =>
      line ("  ; " ++ (if b.isTarget then "target" else "block") ++ " " ++ Show.address 5 b.start)
  | none => ""

/-- The instructions of a routine; with `blocks`, it is shown where blocks begin. -/
def routine (t : RoutineTable) (blocks : Bool) (r : Routine) : String :=
  let g := FlowGraph.build r
  line (routineName t r.address ++ " (" ++ Show.address 5 r.address ++ ", " ++ Nat.repr r.localCount
      ++ " local(s))")
    ++ String.join (r.instructions.map fun i =>
      (if blocks then blockMark g i else "") ++ line ("  " ++ i.listing))
    ++ line ""

/-! ## Routines -/

/-- Summaries with the names of listings. -/
def summaries (t : RoutineTable) : List RoutineSummary :=
  t.summaries.map fun s => { s with name := routineName t s.address }

/-- A text in a column. -/
def column (width : Nat) (s : String) : String := Show.padLeft ' ' width s

/-- A row of the table of routines. -/
def row (address locals instructions bytes name : String) : String :=
  line (String.intercalate "  "
    [column 8 address, column 6 locals, column 12 instructions, column 6 bytes, name])

/-- The table of routines. -/
def routines (t : RoutineTable) : String :=
  let rows := (summaries t).map fun s =>
    row (Show.address 6 s.address) (Nat.repr s.locals) (Nat.repr s.instructions) (Nat.repr s.length)
      s.name
  row "address" "locals" "instructions" "bytes" "name" ++ String.join rows
    ++ line (Nat.repr t.routines.length ++ " routine(s)")

/-- A report of the routines. -/
def routinesReport (t : RoutineTable) : Report :=
  .list ((summaries t).map fun s =>
    .record [("address", .number s.address), ("name", .text s.name), ("locals", .number s.locals),
      ("instructions", .number s.instructions), ("length", .number s.length)])

/-! ## Compiled routines -/

/-- What became of routines when they were compiled. -/
structure CompileResults where
  compiled : List CompileStatistics := []
  /-- Routines that leave an instruction to the interpreter. -/
  interpreterOnly : List (Nat × String) := []
  /-- Routines that cannot be compiled, and why. -/
  failed : List (Nat × String) := []
deriving Inhabited

/-- Compile one routine more. -/
def compileNext (story : StoryText) (r : Routine) (sofar : CompileResults × List String) :
    CompileResults × List String :=
  let (c, pool) := sofar
  let c :=
    match (Needs.scan r).interpreterOnly with
    | some op => { c with interpreterOnly := c.interpreterOnly ++ [(r.address, op.text)] }
    | none => c
  match compile story true r pool with
  | .ok (_, s) pool => ({ c with compiled := c.compiled ++ [s] }, pool)
  | .error e pool => ({ c with failed := c.failed ++ [(r.address, e.message)] }, pool)

/-- Compile routines in order. -/
def compileAll (story : StoryText) (rs : List Routine) : CompileResults :=
  (rs.foldl (fun c r => compileNext story r c) ({}, [])).1

/-- A report of one compiled routine. -/
def statisticsReport (s : CompileStatistics) : Report :=
  .record [("address", .number s.address), ("instructions", .number s.instructions),
    ("locals", .number s.locals), ("calculated_loads", .number s.computedReads),
    ("calculated_stores", .number s.computedWrites), ("uses_stack", .truth s.needs.stack),
    ("uses_memory", .truth s.needs.memory), ("uses_screen", .truth s.needs.screen),
    ("uses_streams", .truth s.needs.streams)]

/-- A report of addresses and what is said of them. -/
def remarksReport (name : String) (remarks : List (Nat × String)) : Report :=
  .list (remarks.map fun (a, s) => .record [("address", .number a), (name, .text s)])

/-- A report of all compiled routines. -/
def compileReport (c : CompileResults) : Report :=
  .record [("compiled", .list (c.compiled.map statisticsReport)),
    ("untranslated", remarksReport "opcode" c.interpreterOnly),
    ("failed", remarksReport "error" c.failed)]

/-- A line on one compiled routine. -/
def statistics (t : RoutineTable) (s : CompileStatistics) : String :=
  let name := routineName t s.address
  let computed :=
    if s.computedReads + s.computedWrites = 0 then ""
    else ", computed vars " ++ Nat.repr s.computedReads ++ "r/" ++ Nat.repr s.computedWrites ++ "w"
  line (name ++ column (16 - name.length) "" ++ " " ++ Show.hex 5 s.address ++ ": "
    ++ Nat.repr s.instructions ++ " instr, " ++ Nat.repr s.locals ++ " locals" ++ computed)

/-- The table of all compiled routines. -/
def compileStats (t : RoutineTable) (c : CompileResults) : String :=
  String.join (c.compiled.map (statistics t))
    ++ String.join (c.interpreterOnly.map fun (a, op) =>
      line (Show.address 5 a ++ ": traps on '" ++ op ++ "'"))
    ++ String.join (c.failed.map fun (a, e) => line (Show.address 5 a ++ ": failed: " ++ e))
    ++ line (Nat.repr c.compiled.length ++ " compiled, " ++ Nat.repr c.interpreterOnly.length
      ++ " with untranslated opcodes, " ++ Nat.repr c.failed.length ++ " failed")

end Listing
end ZMachine
