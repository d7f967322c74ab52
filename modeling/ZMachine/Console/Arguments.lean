/-
  The command line.

  Options that belong to the program stand before or after the name of the
  command, those of a command after it.  Words are taken in order; the first
  one that asks for help or makes no sense decides.
-/
import ZMachine.Engine.Session
import ZMachine.Text.Numeral

namespace ZMachine

/-- What the program is asked to do with a story. -/
inductive Command where
  /-- Play it; with at most `maxBatches` batches unless that is 0. -/
  | run (mode : Option ExecutionMode) (maxBatches : Nat) (showCounts : Bool)
  /-- List instructions, of one routine or of all that are found. -/
  | disassemble (routine : Option Nat) (blocks : Bool)
  /-- List the routines. -/
  | routines (json : Bool)
  /-- Compile all routines that are found, and tell what became of them. -/
  | compileStats (json : Bool)
deriving DecidableEq, Repr, Inhabited

/-- A command line that makes sense. -/
structure Invocation where
  /-- The settings file that is named. -/
  settings : Option String
  /-- Whether to show more messages. -/
  verbose : Bool
  story : String
  command : Command
deriving DecidableEq, Repr, Inhabited

/-- Why a command line leads to no command. -/
inductive Refusal where
  | help
  | version
  /-- It makes no sense. -/
  | misused
deriving DecidableEq, Repr, Inhabited

/-! ## Numbers -/

/-- An address: hexadecimal after `0x`, otherwise decimal. -/
def parseAddress? (s : String) : Option Nat :=
  match s.toList with
  | '0' :: 'x' :: ds | '0' :: 'X' :: ds => parseNumber? 16 0x100000000 ds
  | ds => parseNumber? 10 0x100000000 ds

/-! ## Options -/

/-- The options that are known at a place of the command line. -/
structure OptionTable where
  /-- Options without a value. -/
  flags : List String
  /-- Options with a value, and which values they take. -/
  values : List (String × (String → Bool))
  /-- Whether the version may be asked for. -/
  version : Bool := false
  /-- Whether the name of a story may stand here. -/
  story : Bool := true

/-- The options that were found. -/
structure FoundOptions where
  flags : List String := []
  values : List (String × String) := []
  story : Option String := none
deriving Inhabited

namespace FoundOptions

/-- Note a flag.  It may be given once. -/
def raise (o : FoundOptions) (name : String) : Except Refusal FoundOptions :=
  if o.flags.contains name then .error .misused
  else .ok { o with flags := name :: o.flags }

/-- Note a value.  It may be given once. -/
def set (o : FoundOptions) (name value : String) (accepts : String → Bool) :
    Except Refusal FoundOptions :=
  if (o.values.lookup name).isSome ∨ ¬accepts value then .error .misused
  else .ok { o with values := (name, value) :: o.values }

/-- Note the name of the story.  There is one, and it is not empty. -/
def setStory (o : FoundOptions) (name : String) : Except Refusal FoundOptions :=
  if o.story.isSome ∨ name.isEmpty then .error .misused else .ok { o with story := some name }

/-- Note the letters of a word such as `-v`. -/
def letters (t : OptionTable) (o : FoundOptions) : List Char → Except Refusal FoundOptions
  | [] => .ok o
  | 'h' :: _ => .error .help
  | 'V' :: _ => .error (if t.version then .version else .misused)
  | 'v' :: rest =>
      match o.raise "verbose" with
      | .ok o => letters t o rest
      | .error e => .error e
  | _ => .error .misused

/-- Note an option without a value of its own. -/
def lone (t : OptionTable) (o : FoundOptions) (name : String) : Except Refusal FoundOptions :=
  if name = "help" then .error .help
  else if name = "version" ∧ t.version then .error .version
  else if t.flags.contains name then o.raise name
  else .error .misused

/-- Whether a word is taken for an option. -/
def looksLikeOption (word : String) : Bool :=
  match word.toList with
  | '-' :: _ :: _ => true
  | _ => false

/-- Take options from the words.  Where no story may stand, stop at the first word that is no
option; else all words are taken, those after `--` as they are. -/
def take (t : OptionTable) (o : FoundOptions) :
    List String → Except Refusal (FoundOptions × List String)
  | [] => .ok (o, [])
  | word :: rest =>
      match word.toList with
      | ['-', '-'] =>
          if t.story then
            match rest.foldlM setStory o with
            | .ok o => .ok (o, [])
            | .error e => .error e
          else .error .misused
      | '-' :: '-' :: cs =>
          let name := String.ofList (cs.takeWhile (· != '='))
          match cs.dropWhile (· != '='), t.values.lookup name with
          | _ :: value, some accepts =>
              match o.set name (String.ofList value) accepts with
              | .ok o => take t o rest
              | .error e => .error e
          | _ :: _, none => .error .misused
          | [], some accepts =>
              match rest with
              | [] => .error .misused
              | value :: rest =>
                  if looksLikeOption value then .error .misused
                  else
                    match o.set name value accepts with
                    | .ok o => take t o rest
                    | .error e => .error e
          | [], none =>
              match o.lone t name with
              | .ok o => take t o rest
              | .error e => .error e
      | '-' :: c :: cs =>
          match o.letters t (c :: cs) with
          | .ok o => take t o rest
          | .error e => .error e
      | _ =>
          if t.story then
            match o.setStory word with
            | .ok o => take t o rest
            | .error e => .error e
          else .ok (o, word :: rest)

/-- Whether a flag was given. -/
def has (o : FoundOptions) (flag : String) : Bool := o.flags.contains flag

/-- The value of an option. -/
def value? (o : FoundOptions) (name : String) : Option String := o.values.lookup name

end FoundOptions

namespace Invocation

/-- The largest count and one. -/
def countLimit : Nat := 0x10000000000000000

/-- Options of the program, which may also stand among those of a command. -/
def commonOptions : OptionTable :=
  { flags := ["verbose"], values := [("config", fun s => !s.isEmpty)], version := true
    story := false }

/-- Options of a command. -/
def commandOptions (flags : List String) (values : List (String × (String → Bool))) : OptionTable :=
  { flags := flags ++ commonOptions.flags, values := values ++ commonOptions.values }

/-- The commands: their names, their options, and what the options make of them. -/
def commands : List (String × OptionTable × (FoundOptions → Command)) :=
  [("run",
      commandOptions ["stats"]
        [("mode", fun s => (ExecutionMode.parse s).toOption.isSome),
          ("max-batches", fun s => (parseNumber? 10 countLimit s.toList).isSome)],
      fun o =>
        .run ((o.value? "mode").bind fun s => (ExecutionMode.parse s).toOption)
          (((o.value? "max-batches").bind fun s => parseNumber? 10 countLimit s.toList).getD 0)
          (o.has "stats")),
    ("disasm",
      commandOptions ["blocks"] [("routine", fun s => (parseAddress? s).isSome)],
      fun o => .disassemble ((o.value? "routine").bind parseAddress?) (o.has "blocks")),
    ("routines", commandOptions ["json"] [], fun o => .routines (o.has "json")),
    ("compile-stats", commandOptions ["json"] [], fun o => .compileStats (o.has "json"))]

/-- Make sense of a command line. -/
def parse (words : List String) : Except Refusal Invocation := do
  let (common, rest) ← FoundOptions.take commonOptions {} words
  match rest with
  | [] => throw .misused
  | "help" :: names =>
      let known := names.all fun n => n == "help" || (commands.lookup n).isSome
      throw (if names.length ≤ 1 ∧ known then .help else .misused)
  | name :: rest =>
      match commands.lookup name with
      | none => throw .misused
      | some (options, command) =>
          let (found, _) ← FoundOptions.take options {} rest
          match found.story with
          | none => throw .misused
          | some story =>
              return {
                settings := found.value? "config" <|> common.value? "config"
                verbose := found.has "verbose" || common.has "verbose"
                story, command := command found }

end Invocation

end ZMachine
