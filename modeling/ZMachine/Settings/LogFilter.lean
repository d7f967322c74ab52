/-
  Which messages are shown.

  A directive names a level, which may hold for the messages of an origin
  only, or for those that carry certain fields.  It may also name a span or
  the value of a field; messages that do not stand in such a span are not
  concerned.  Messages that no directive concerns are shown if they are
  errors.
-/
import ZMachine.Settings.Pattern
import ZMachine.Text.Alphanumeric
import ZMachine.Text.Blank
import ZMachine.Text.Numeral
import ZMachine.Text.Utf8

namespace ZMachine

/-- How much is shown, from nothing to everything. -/
inductive LogLevel where
  | off
  | error
  | warn
  | info
  | debug
  | trace
deriving DecidableEq, Repr, Inhabited

namespace LogLevel

/-- The levels, from the quietest. -/
def all : List LogLevel := [.off, .error, .warn, .info, .debug, .trace]

/-- Position among the levels. -/
def rank (l : LogLevel) : Nat := all.idxOf l

/-- Name of a level. -/
def text : LogLevel → String
  | off => "off"
  | error => "error"
  | warn => "warn"
  | info => "info"
  | debug => "debug"
  | trace => "trace"

/-- The level that a text numbers, or names in whatever case. -/
def parse? (s : String) : Option LogLevel :=
  let numbered := do all[← parseNumber? 10 all.length s.toList]?
  numbered <|> all.find? fun l => l.text.toList == s.toList.map Char.toLower

end LogLevel

/-- A condition on a field of a message or of a span. -/
structure FieldFilter where
  name : String
  /-- A pattern for the value. -/
  value : Option String
deriving DecidableEq, Repr, Inhabited

/-- Says how much is shown, and of which messages. -/
structure Directive where
  level : LogLevel := .trace
  /-- Beginning of the name of the origin. -/
  origin : Option String := none
  /-- Name of a span that the message has to stand in. -/
  span : Option String := none
  fields : List FieldFilter := []
deriving DecidableEq, Repr, Inhabited

/-- Why a text is no directive. -/
inductive DirectiveError where
  | malformed
  | unknownLevel
  | pattern (error : PatternError)
deriving DecidableEq, Repr, Inhabited

/-- A message as far as directives look at it. -/
structure LogMessage where
  level : LogLevel
  origin : String
  /-- Names of the fields. -/
  fields : List String

namespace Directive

/-! ## Reading -/

/-- Where the reading of a directive stands.  Numbers are the positions where a part begins. -/
inductive Place where
  | start
  /-- In a level or the name of an origin. -/
  | name (first : Nat)
  | span (first : Nat)
  | field (first : Nat)
  /-- After the fields. -/
  | fields
  /-- After the span. -/
  | closed
  | level (first : Nat)
  /-- After a comma, where nothing may follow. -/
  | done
deriving DecidableEq, Repr, Inhabited

/-- The text between two positions, which count bytes. -/
def cut (whole : List Byte) (first stop : Nat) : String :=
  Utf8.decodeLossy ((whole.take stop).drop first)

/-- The text from a position on. -/
def cutFrom (whole : List Byte) (first : Nat) : String := Utf8.decodeLossy (whole.drop first)

/-- Whether a level or the name of an origin may begin with a character. -/
def isNameStart (c : Char) : Bool := isAlphanumeric c || c == '-' || c == ':' || c == '_'

/-- Take a text for a level, and for the name of an origin if it is none. -/
def setLevelOrOrigin (d : Directive) (s : String) : Directive :=
  match LogLevel.parse? s with
  | some level => { d with level, origin := none }
  | none => { d with level := .trace, origin := some s }

/-- Take a text for a level; everything is shown if it is empty. -/
def setLevel (d : Directive) (s : String) : Except DirectiveError Directive :=
  if s.isEmpty then .ok { d with level := .trace }
  else
    match LogLevel.parse? s with
    | some level => .ok { d with level }
    | none => .error .unknownLevel

/-- What is wrong with the value of a field: one that is no number has to be a pattern. -/
def valueError? (value : String) : Option PatternError :=
  if isDecimal value.toList then none else Pattern.error? value.toList

/-- Add a field: a name, and after an equals sign a value.  A second equals sign ends the value. -/
def addField (d : Directive) (s : String) : Except DirectiveError Directive :=
  let (name, value) :=
    match s.splitOn "=" with
    | name :: value :: _ => (name, some value)
    | _ => (s, none)
  if s.isEmpty then .error .malformed
  else
    match value.bind valueError? with
    | some e => .error (.pattern e)
    | none => .ok { d with fields := d.fields ++ [⟨name, value⟩] }

/-- Read the character at a position.  Parts are cut out of the whole text. -/
def advance (whole : List Byte) (d : Directive) (i : Nat) (c : Char) :
    Place → Except DirectiveError (Place × Directive)
  | .start =>
      if c = '[' then return (.span (i + 1), d)
      else if isNameStart c then return (.name i, d)
      else throw .malformed
  | .name first =>
      if c = '=' then return (.level (i + 1), { d with origin := some (cut whole first i) })
      else if c = '[' then return (.span (i + 1), { d with origin := some (cut whole first i) })
      -- The comma stays with the name.
      else if c = ',' then return (.done, d.setLevelOrOrigin (cutFrom whole first))
      else return (.name first, d)
  | .span first =>
      if c = ']' then return (.closed, { d with span := some (cut whole first i) })
      else if c = '\x7b' then
        let name := cut whole first i
        return (.field (i + 1), { d with span := if name.isEmpty then none else some name })
      else return (.span first, d)
  | .field first => do
      if c = '\x7d' then return (.fields, ← d.addField (cut whole first i))
      else if c = ',' then return (.field (i + 1), ← d.addField (cut whole first i))
      else return (.field first, d)
  | .fields => if c = ']' then return (.closed, d) else throw .malformed
  | .closed => if c = '=' then return (.level (i + 1), d) else throw .malformed
  | .level first => do
      if c = ',' then return (.done, ← d.setLevel (cut whole first i))
      else return (.level first, d)
  | .done => throw .malformed

/-- The directive at the end of the text. -/
def finish (whole : List Byte) (d : Directive) : Place → Except DirectiveError Directive
  | .name first => .ok (d.setLevelOrOrigin (cutFrom whole first))
  | .level first => d.setLevel (cutFrom whole first)
  | .closed | .done => .ok d
  | _ => .error .malformed

/-- Read characters from a position on. -/
def readFrom (whole : List Byte) (place : Place) (d : Directive) (i : Nat) :
    List Char → Except DirectiveError Directive
  | [] => d.finish whole place
  | c :: cs => do
      let (place, d) ← d.advance whole i c place
      readFrom whole place d (i + c.utf8Size) cs

/-- Read a directive.  Blanks around it are not read, and positions count without them; but parts
are cut out of the text with its blanks. -/
def parse (s : String) : Except DirectiveError Directive :=
  readFrom s.toUTF8.toList .start {} 0 (trimBlanks s.toList)

/-! ## Meaning -/

/-- Whether a directive can concern messages outside of spans. -/
def isStatic (d : Directive) : Bool := d.span.isNone && d.fields.all fun f => f.value.isNone

/-- Whether a directive concerns a message that stands in no span. -/
def concerns (d : Directive) (m : LogMessage) : Bool :=
  d.isStatic && d.origin.all (fun name => name.toList.isPrefixOf m.origin.toList)
    && d.fields.all fun f => m.fields.contains f.name

/-- Whether a message is shown. -/
def shows (d : Directive) (m : LogMessage) : Bool :=
  m.level.rank ≤ (if d.concerns m then d.level else .error).rank

end Directive

end ZMachine
