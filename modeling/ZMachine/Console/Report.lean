/-
  Reports for other programs: JSON, with one item on a line and two spaces
  more for each level.
-/
import ZMachine.Word

namespace ZMachine

/-- A report. -/
inductive Report where
  | number (n : Nat)
  | truth (b : Bool)
  | text (s : String)
  | list (items : List Report)
  /-- Named parts, in this order. -/
  | record (parts : List (String × Report))
deriving Inhabited

namespace Report

/-- A character inside of quotes. -/
def escaped (c : Char) : String :=
  match c with
  | '"' => "\\\""
  | '\\' => "\\\\"
  | '\n' => "\\n"
  | '\r' => "\\r"
  | '\t' => "\\t"
  | '\x08' => "\\b"
  | '\x0c' => "\\f"
  | _ => if c.toNat < 32 then "\\u" ++ Show.hex 4 c.toNat else String.singleton c

/-- A text in quotes. -/
def quoted (s : String) : String := "\"" ++ String.join (s.toList.map escaped) ++ "\""

/-- Begin a line inside of `depth` lists and records. -/
def newLine (depth : Nat) : String := "\n" ++ String.ofList (List.replicate (2 * depth) ' ')

/-- Items between two brackets. -/
def between (opening closing : String) (depth : Nat) (items : List String) : String :=
  if items.isEmpty then opening ++ closing
  else
    opening ++ newLine (depth + 1) ++ String.intercalate ("," ++ newLine (depth + 1)) items
      ++ newLine depth ++ closing

mutual

/-- Text of a report inside of `depth` others. -/
def render (depth : Nat) : Report → String
  | number n => Nat.repr n
  | truth b => if b then "true" else "false"
  | text s => quoted s
  | list items => between "[" "]" depth (renderItems (depth + 1) items)
  | record parts => between "\x7b" "\x7d" depth (renderParts (depth + 1) parts)

/-- Texts of the items of a list. -/
def renderItems (depth : Nat) : List Report → List String
  | [] => []
  | item :: rest => render depth item :: renderItems depth rest

/-- Texts of the parts of a record. -/
def renderParts (depth : Nat) : List (String × Report) → List String
  | [] => []
  | (name, part) :: rest => (quoted name ++ ": " ++ render depth part) :: renderParts depth rest

end

end Report

end ZMachine
