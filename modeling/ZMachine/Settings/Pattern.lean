/-
  Patterns for the values of fields.

  A pattern is a regular expression.  Only its form matters here: brackets
  have to be closed, and what repeats needs something to repeat.  The first
  flaw is told, with the place where it stands.
-/
import ZMachine.Word

namespace ZMachine

/-- What is wrong with a pattern. -/
inductive PatternFlaw where
  | unclosedGroup
  | unopenedGroup
  | unclosedClass
  /-- There is nothing before a repetition that it could repeat. -/
  | nothingToRepeat
  /-- A counted repetition has no end. -/
  | unclosedCount
  /-- A counted repetition has no number. -/
  | missingCount
  | incompleteEscape
  | unknownEscape
  | backreference
deriving DecidableEq, Repr, Inhabited

/-- Wording of a flaw. -/
def PatternFlaw.message : PatternFlaw → String
  | unclosedGroup => "unclosed group"
  | unopenedGroup => "unopened group"
  | unclosedClass => "unclosed character class"
  | nothingToRepeat => "repetition operator missing expression"
  | unclosedCount => "unclosed counted repetition"
  | missingCount => "repetition quantifier expects a valid decimal"
  | incompleteEscape => "incomplete escape sequence, reached end of pattern prematurely"
  | unknownEscape => "unrecognized escape sequence"
  | backreference => "backreferences are not supported"

/-- A flaw and the characters that it is about. -/
structure PatternError where
  pattern : List Char
  flaw : PatternFlaw
  /-- Position of the first of the characters. -/
  start : Nat
  /-- Number of the characters. -/
  width : Nat := 1
deriving DecidableEq, Repr, Inhabited

/-- Text of an error: the pattern, marks below the characters at fault, and what is wrong. -/
def PatternError.message (e : PatternError) : String :=
  let marks := List.replicate e.start ' ' ++ List.replicate e.width '^'
  "regex parse error:\n    " ++ String.ofList e.pattern ++ "\n    " ++ String.ofList marks
    ++ "\nerror: " ++ e.flaw.message

namespace Pattern

/-- Letters that mean something after a backslash. -/
def escapeLetters : List Char := "xuUpPdDsSwWaftnrvAzbB".toList

/-- What is wrong with a backslash before a character. -/
def escapeFlaw? (c : Char) : Option PatternFlaw :=
  if c.isDigit then some .backreference
  else if c.isAlpha then if escapeLetters.contains c then none else some .unknownEscape
  else if c.toNat < 128 then none
  else some .unknownEscape

/-- Number of characters of a class after its opening bracket; nothing if it is not closed.  A
bracket right at the beginning does not close it, and classes nest to a depth. -/
def classLength? : Nat → Bool → List Char → Option Nat
  | _, _, [] | _, _, ['\\'] => none
  | depth, _, '\\' :: _ :: cs => (classLength? depth false cs).map (· + 2)
  | depth, true, '^' :: cs => (classLength? depth true cs).map (· + 1)
  | depth, false, ']' :: cs =>
      match depth with
      | 0 => some 1
      | depth + 1 => (classLength? depth false cs).map (· + 1)
  | depth, _, '[' :: cs => (classLength? (depth + 1) true cs).map (· + 1)
  | depth, _, _ :: cs => (classLength? depth false cs).map (· + 1)

/-- Number of characters between the bracket of a group and what it groups: a question mark and
what is said of the group. -/
def groupHead (cs : List Char) : Nat :=
  match cs with
  | '?' :: rest =>
      let flags := rest.takeWhile fun c => c != ':' && c != '>' && c != ')'
      match rest.drop flags.length with
      | ')' :: _ | [] => 1 + flags.length
      | _ => 2 + flags.length
  | _ => 0

/-- The flaw of a counted repetition whose bracket stands at `start`; `cs` follows it.  The bracket
that would close it cannot be part of a field. -/
def countFlaw (start : Nat) (cs : List Char) : PatternFlaw × Nat × Nat :=
  let digits := cs.takeWhile Char.isDigit
  if digits.isEmpty ∧ ¬cs.isEmpty then (.missingCount, start + 1, 1)
  else (.unclosedCount, start, 1 + digits.length)

/-- The first flaw of a pattern from a position on.  `groups` are the positions of the groups that
are open, the innermost first; `repeatable` says whether there is something to repeat, and `skip`
how many characters are accounted for. -/
def flawFrom? (position : Nat) (groups : List Nat) (repeatable : Bool) :
    Nat → List Char → Option (PatternFlaw × Nat × Nat)
  | _, [] => groups.head?.map fun start => (.unclosedGroup, start, 1)
  | skip + 1, _ :: cs => flawFrom? (position + 1) groups repeatable skip cs
  | 0, c :: cs =>
      if c = '(' then flawFrom? (position + 1) (position :: groups) false (groupHead cs) cs
      else if c = ')' then
        match groups with
        | [] => some (.unopenedGroup, position, 1)
        | _ :: groups => flawFrom? (position + 1) groups true 0 cs
      else if c = '|' then flawFrom? (position + 1) groups false 0 cs
      else if c = '[' then
        match classLength? 0 true cs with
        | none => some (.unclosedClass, position, 1)
        | some length => flawFrom? (position + 1) groups true length cs
      else if c = '*' ∨ c = '+' ∨ c = '?' then
        if repeatable then flawFrom? (position + 1) groups true 0 cs
        else some (.nothingToRepeat, position, 1)
      else if c = '\x7b' then
        if repeatable then some (countFlaw position cs)
        else some (.nothingToRepeat, position, 1)
      else if c = '\\' then
        match cs with
        | [] => some (.incompleteEscape, position, 1)
        | e :: _ =>
            match escapeFlaw? e with
            | some flaw => some (flaw, position, 2)
            | none => flawFrom? (position + 1) groups true 1 cs
      else flawFrom? (position + 1) groups true 0 cs

/-- The first flaw of a pattern. -/
def error? (pattern : List Char) : Option PatternError :=
  (flawFrom? 0 [] false 0 pattern).map fun (flaw, start, width) => { pattern, flaw, start, width }

end Pattern

end ZMachine
