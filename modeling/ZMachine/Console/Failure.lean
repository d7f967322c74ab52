/-
  Failures as they are told to the user: what was attempted, and below it
  the causes, the nearest first.
-/
import ZMachine.Console.Folder
import ZMachine.Container
import ZMachine.Fault
import ZMachine.Settings.LogFilter

namespace ZMachine

/-- A failure that is told to the user. -/
structure Failure where
  message : String
  causes : List String := []
deriving DecidableEq, Repr, Inhabited

namespace Failure

/-- A failure while something was attempted. -/
def during (f : Failure) (attempt : String) : Failure := ⟨attempt, f.message :: f.causes⟩

/-- Causes of a fault: the fault without the instruction that it names, and the reason why the image
cannot be read. -/
def causesOf : Fault → List String
  | .image e => [e.message]
  | .located _ cause => cause.message :: causesOf cause
  | _ => []

/-- A fault as a failure. -/
def ofFault (f : Fault) : Failure := ⟨f.message, causesOf f⟩

/-- A container that cannot be read. -/
def ofContainer (e : ContainerError) : Failure := ⟨e.message, [e.reason]⟩

/-- A file that cannot be read. -/
def ofFile (e : FileError) : Failure := ⟨e.message, []⟩

/-- A directive about messages that cannot be read. -/
def ofDirective (e : DirectiveError) : Failure :=
  match e with
  | .malformed => { message := "invalid filter directive" }
  | .unknownLevel =>
      let message := "error parsing level filter: expected one of \"off\", \"error\", \"warn\", "
        ++ "\"info\", \"debug\", \"trace\", or a number 0-5"
      { message, causes := [message] }
  | .pattern error =>
      let message := "error building NFA"
      { message := "invalid field filter: " ++ message
        causes := [message, "error parsing regex", error.message] }

/-- A text with `margin` before all its lines but the first. -/
def indented (margin s : String) : String := String.intercalate ("\n" ++ margin) (s.splitOn "\n")

/-- A cause with its number. -/
def numbered (cause : String × Nat) : String :=
  Show.padLeft ' ' 5 (Nat.repr cause.2) ++ ": " ++ indented "       " cause.1

/-- Text of a failure.  The causes are numbered if there is more than one. -/
def text (f : Failure) : String :=
  match f.causes with
  | [] => f.message
  | [cause] => f.message ++ "\n\nCaused by:\n    " ++ indented "    " cause
  | causes =>
      f.message ++ "\n\nCaused by:\n" ++ String.intercalate "\n" (causes.zipIdx.map numbered)

end Failure

end ZMachine
