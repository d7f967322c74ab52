/-
  The program behind the command line, as a function of what it reads.

  It reads its arguments, a few files and its input, and leaves text, a
  message about a failure and an exit code.
-/
import ZMachine.Console.Arguments
import ZMachine.Console.Failure
import ZMachine.Console.Listing
import ZMachine.Settings.Basic

namespace ZMachine

/-- What the program reads. -/
structure Surroundings where
  /-- Contents of the file with a name. -/
  file : String → Except FileError (Array Byte)
  /-- Where a settings file is looked for, the nearest folder first; each ends in a separator. -/
  folders : List String := [""]
  input : List Byte := []
  /-- What the system answers when it is asked for a seed. -/
  entropy : Entropy := fun _ => none

/-- How the program ends. -/
inductive Ending where
  | success
  | failed (cause : Failure)
  /-- The command line makes no sense. -/
  | misused
deriving DecidableEq, Repr, Inhabited

/-- What the program leaves. -/
structure Result where
  output : String := ""
  /-- Text that is no part of the output proper. -/
  notes : String := ""
  ending : Ending := .success
  /-- Whether more input was wanted than there was. -/
  starved : Bool := false
deriving Inhabited

namespace Result

/-- Exit code. -/
def code (r : Result) : Nat :=
  match r.ending with
  | .success => 0
  | .failed _ => 1
  | .misused => 2

/-- Text about the failure. -/
def message? (r : Result) : Option String :=
  match r.ending with
  | .failed cause => some cause.text
  | _ => none

end Result

namespace Program

/-- Name and version. -/
def versionText : String := "quill 0.1.0\n"

/-- How to use the program. -/
def helpText : String :=
  String.join (["Usage: quill [--config FILE] [--verbose] COMMAND STORY", "",
    "run [--mode MODE] [--max-batches N] [--stats]   play a story",
    "disasm [--routine ADDRESS] [--blocks]           list instructions",
    "routines [--json]                               list routines",
    "compile-stats [--json]                          compile all routines"].map Listing.line)

/-- Names of settings files, the preferred one first. -/
def settingsNames : List String := ["quill.toml", ".quillrc.toml"]

/-! ## Reading -/

/-- The settings in a file. -/
def readSettings (s : Surroundings) (path : String) : Except Failure Settings :=
  match s.file path with
  | .error e => .error (.ofFile e)
  | .ok bytes =>
      match Utf8.decode? bytes.toList with
      | none => .error { message := "stream did not contain valid UTF-8" }
      | some text =>
          match Settings.parse? text with
          | some settings => .ok settings
          | none => .error { message := "Failed to parse " ++ path }

/-- Whether there is a file with a name. -/
def isPresent (s : Surroundings) (path : String) : Bool :=
  match s.file path with
  | .error e => !e.isAbsence
  | .ok _ => true

/-- The places where settings are looked for. -/
def settingsPaths (s : Surroundings) : List String :=
  s.folders.flatMap fun folder => settingsNames.map (folder ++ ·)

/-- The settings: of the file that is named, which must exist, or of the nearest one. -/
def settings (s : Surroundings) (named : Option String) : Except Failure Settings :=
  match named with
  | some path =>
      if isPresent s path then readSettings s path
      else .error { message := "config file " ++ path ++ " not found" }
  | none =>
      match (settingsPaths s).find? (isPresent s) with
      | some path => readSettings s path
      | none => .ok {}

/-- The image of a story, which may stand in a container. -/
def readStory (s : Surroundings) (path : String) : Except Failure (Array Byte) :=
  match s.file path with
  | .error e => .error ((Failure.ofFile e).during ("reading " ++ path))
  | .ok bytes =>
      match loadStory bytes with
      | .ok image => .ok image
      | .error e => .error ((Failure.ofContainer e).during ("loading " ++ path))

/-- Runs of bytes up to and with a line end. -/
def inputRuns : List Byte → List (List Byte)
  | [] => []
  | b :: rest =>
      if b = 10 then [b] :: inputRuns rest
      else
        match inputRuns rest with
        | run :: runs => (b :: run) :: runs
        | [] => [[b]]

/-- Lines of input, without their ends.  Input ends before a line that is no text. -/
def inputLines (input : List Byte) : List String :=
  (((inputRuns input).map Utf8.decode?).takeWhile Option.isSome).filterMap fun line =>
    line.map fun s => String.ofList (Machine.dropLineEnd s.toList)

/-! ## Commands -/

/-- A machine with a story, of which all routines are known that the main routine leads to. -/
def discover (s : Surroundings) (settings : Settings) (path : String) : Except Failure Machine := do
  let image ← readStory s path
  match Machine.load image (settings.machineOptions s.entropy) {} with
  | .error f => throw (.ofFault f)
  | .ok m => discoverFrom m m.header.mainRoutine
where
  /-- Find the routines that a routine leads to. -/
  discoverFrom (m : Machine) (a : Nat) : Except Failure Machine :=
    match CodeIndex.discover m.memory m.header a m.code with
    | .ok _ code => .ok { m with code }
    | .error f _ => .error (.ofFault f)

/-- List the instructions of one routine, or of all that are found. -/
def disassemble (m : Machine) (only : Option Nat) (blocks : Bool) : Except Failure String := do
  let m ←
    match only with
    | some a => discover.discoverFrom m a
    | none => pure m
  let t := m.code.routines
  let chosen := t.routines.filter fun r => only.all (· == r.address)
  if chosen.isEmpty then throw { message := "no routines found" }
  return String.join (chosen.map (Listing.routine t blocks))

/-- Run a session for at most so many batches.  Nothing if a bound is used up: that of a batch, or
the number of batches where that is no limit asked for. -/
def play (bound : Nat) (limited : Bool) : Nat → Session → Option (Option Fault × Session)
  | 0, t => if limited then some (none, t) else none
  | batches + 1, t =>
      match t.run bound with
      | none => none
      | some (.yielded _, t) => play bound limited batches t
      | some (.faulted f, t) => some (some f, t)
      | some (_, t) => some (none, t)

/-- Counts of a run of compiled code. -/
def countsText (c : EngineCounts) : String :=
  String.join ([("compiled", c.compiled), ("compile errors", c.compileErrors),
    ("interpreted routines", c.interpretedRoutines), ("native calls", c.nativeCalls),
    ("interpreted calls", c.interpretedCalls), ("faults", c.faults), ("evicted", c.evicted)].map
      fun (name, n) => Listing.line (name ++ ": " ++ Nat.repr n))

/-- Play a story.  Nothing if a bound is used up. -/
def run (bound : Nat) (s : Surroundings) (options : SessionOptions) (image : Array Byte)
    (maxBatches : Nat) (showCounts : Bool) : Option Result :=
  match Session.load image options { console := true, lines := inputLines s.input } with
  | .error f => some { ending := .failed (.ofFault f) }
  | .ok t =>
      let batches := if maxBatches = 0 then bound else maxBatches
      (play bound (maxBatches != 0) batches t).map fun (fault, t) =>
        { output := t.machine.host.output
          notes :=
            if showCounts && options.mode == .compiled then countsText t.engine.counts else ""
          ending :=
            match fault with
            | some f => .failed ((Failure.ofFault f).during "story faulted")
            | none => .success
          starved := t.machine.host.starved }

/-- A text that was asked for, or why there is none. -/
def answer (text : Except Failure String) : Result :=
  match text with
  | .ok output => { output }
  | .error cause => { ending := .failed cause }

/-- Carry out a command on a story, with the messages that a directive shows.  Nothing if a bound is
used up. -/
def perform (bound : Nat) (s : Surroundings) (settings : Settings) (filter : Directive)
    (story : String) : Command → Option Result
  | .run mode maxBatches showCounts =>
      let options := settings.sessionOptions s.entropy filter
      match readStory s story with
      | .error cause => some { ending := .failed cause }
      | .ok image =>
          run bound s { options with mode := mode.getD options.mode } image maxBatches showCounts
  | .disassemble only blocks =>
      some (answer do disassemble (← discover s settings story) only blocks)
  | .routines json =>
      some (answer do
        let t := (← discover s settings story).code.routines
        return if json then Listing.line ((Listing.routinesReport t).render 0)
          else Listing.routines t)
  | .compileStats json =>
      some (answer do
        let m ← discover s settings story
        let t := m.code.routines
        let c := Listing.compileAll { memory := m.memory, header := m.header, tables := m.text }
          t.routines
        return if json then Listing.line ((Listing.compileReport c).render 0)
          else Listing.compileStats t c)

/-- Carry out a command line.  Nothing if a bound is used up. -/
def invoke (bound : Nat) (s : Surroundings) (words : List String) : Option Result :=
  match Invocation.parse words with
  | .error .help => some { output := helpText }
  | .error .version => some { output := versionText }
  | .error .misused => some { ending := .misused }
  | .ok invocation =>
      match settings s invocation.settings with
      | .error cause => some { ending := .failed cause }
      | .ok settings =>
          match Directive.parse (if invocation.verbose then "debug" else settings.level) with
          | .error e => some { ending := .failed (.ofDirective e) }
          | .ok filter =>
              perform bound s settings filter invocation.story invocation.command

/-- Names of the files that a command line may read. -/
def filesRead (s : Surroundings) (words : List String) : List String :=
  match Invocation.parse words with
  | .error _ => []
  | .ok invocation => invocation.story :: (invocation.settings.toList ++ settingsPaths s)

end Program

end ZMachine
