/-
  The world outside of the machine.

  The host shows text and takes input.  A recording host keeps everything
  that the story did and serves queued input; a console host turns all of it
  into one stream of text and takes a line of input for every key press.
-/
import ZMachine.Word

namespace ZMachine

/-- Right side of the status line. -/
inductive StatusRight where
  | score (score : Int) (turns : Word)
  | time (hours minutes : Word)
deriving DecidableEq, Repr, Inhabited

/-- The status line of the early versions. -/
structure StatusLine where
  location : String
  right : StatusRight
deriving DecidableEq, Repr, Inhabited

/-- A status line as one line of text. -/
def StatusLine.text (s : StatusLine) : String :=
  let right :=
    match s.right with
    | .score score turns => "Score: " ++ toString score ++ "  Turns: " ++ Nat.repr turns.toNat
    | .time hours minutes =>
        "Time: " ++ Nat.repr hours.toNat ++ ":" ++ Show.decimal 2 minutes.toNat
  "[" ++ s.location ++ "  " ++ right ++ "]\n"

/-- A request to the screen or to the sound system. -/
inductive ScreenCommand where
  | splitWindow (lines : Word)
  | setWindow (window : Word)
  | eraseWindow (window : Int)
  | eraseLine (value : Word)
  | setCursor (line : Int) (column : Word)
  | setTextStyle (style : Word)
  | bufferMode (on : Bool)
  | setColour (foreground background : Word)
  | setTrueColour (foreground background : Word)
  | soundEffect (number effect volume : Word)
deriving DecidableEq, Repr, Inhabited

/-- What the story did to the outside, and the input that waits for it. -/
structure Host where
  /-- Whether everything is turned into text. -/
  console : Bool := false
  output : String := ""
  transcript : String := ""
  /-- The status line last shown. -/
  status : Option StatusLine := none
  commands : Array ScreenCommand := #[]
  lines : List String := []
  chars : List Char := []
  /-- Text that, once printed, raises the stop request. -/
  stopText : Option String := none
  /-- Whether a stop was requested. -/
  interrupted : Bool := false
  /-- Whether input was asked for when there was none. -/
  starved : Bool := false
deriving Inhabited

/-- Whether `part` occurs in a text. -/
def occursIn (part : List Char) : List Char → Bool
  | [] => part.isEmpty
  | c :: cs => part.isPrefixOf (c :: cs) || occursIn part cs

namespace Host

/-- Show text on the screen. -/
def print (h : Host) (text : String) : Host :=
  let raised :=
    match h.stopText with
    | some part => occursIn part.toList text.toList
    | none => false
  { h with output := h.output ++ text, interrupted := h.interrupted || raised }

/-- Copy text to the transcript. -/
def copyToTranscript (h : Host) (text : String) : Host :=
  if h.console then h else { h with transcript := h.transcript ++ text }

/-- Show the status line. -/
def showStatus (h : Host) (status : StatusLine) : Host :=
  if h.console then { h with output := h.output ++ status.text }
  else { h with status := some status }

/-- Carry out a screen request.  On a console, erasing the whole screen begins a new line. -/
def screen (h : Host) (command : ScreenCommand) : Host :=
  if h.console then
    if command = .eraseWindow (-1) then { h with output := h.output ++ "\n" } else h
  else { h with commands := h.commands.push command }

/-- Line and column of the cursor. -/
def cursor (_ : Host) : Word × Word := (1, 1)

/-- The font that was in use before `font` was selected; 0 if that one does not exist. -/
def selectFont (_ : Host) (font : Word) : Word := if font ≤ 1 then 1 else 0

/-- Take a line of input, cut off after `limit` characters. -/
def readLine (h : Host) (limit : Nat) : Option String × Host :=
  match h.lines with
  | [] => (none, { h with starved := true })
  | line :: rest => (some (String.ofList (line.toList.take limit)), { h with lines := rest })

/-- Take a key press.  On a console it is the first character of a line. -/
def readChar (h : Host) : Option Char × Host :=
  if h.console then
    match h.lines with
    | [] => (none, { h with starved := true })
    | line :: rest => (some (line.toList.headD '\r'), { h with lines := rest })
  else
    match h.chars with
    | [] => (none, { h with starved := true })
    | c :: rest => (some c, { h with chars := rest })

/-- Add a line of input. -/
def queueLine (h : Host) (line : String) : Host := { h with lines := h.lines ++ [line] }

/-- Add key presses. -/
def queueChars (h : Host) (cs : List Char) : Host := { h with chars := h.chars ++ cs }

end Host

end ZMachine
