/-
  Settings files.

  A settings file is written in a part of TOML: tables, dotted keys,
  comments, and integers, truth values and one-line texts as values.  A
  document is the list of its values and tables with their full paths.
  Nothing may be defined twice, and no value may stand where a table does.
-/
import ZMachine.Word

namespace ZMachine
namespace Toml

/-- A value. -/
inductive Value where
  | integer (n : Int)
  | truth (b : Bool)
  | text (s : String)
deriving DecidableEq, Repr, Inhabited

/-- Names from the outermost table inwards. -/
abbrev Path := List String

/-- The first names of a path: one of them, two of them, and so on up to `count`. -/
def Path.heads (p : Path) (count : Nat) : List Path :=
  (List.range count).map fun n => p.take (n + 1)

/-! ## Words of a line -/

/-- Part of a line. -/
inductive Token where
  /-- A bare key, a number or a truth value. -/
  | word (s : String)
  /-- A text in quotes. -/
  | quoted (s : String)
  | dot
  | equals
  | opening
  | closing
deriving DecidableEq, Repr, Inhabited

/-- Where the reading of a line stands, with what was read last first. -/
inductive Mode where
  | plain (word : List Char)
  /-- Between double quotes. -/
  | basic (read : List Char)
  /-- Between single quotes, where nothing is escaped. -/
  | verbatim (read : List Char)

/-- Whether a character can be part of a word. -/
def isWordChar (c : Char) : Bool := c.isAlphanum || c == '_' || c == '-' || c == '+'

/-- Whether a character may stand in a text or in a comment. -/
def isShown (c : Char) : Bool := c == '\t' || (32 ≤ c.toNat && c.toNat != 127)

/-- Put a word, if there is one, before other tokens. -/
def flush (word : List Char) (rest : List Token) : List Token :=
  if word.isEmpty then rest else .word (String.ofList word.reverse) :: rest

/-- Value of a hexadecimal digit. -/
def hexDigit? (c : Char) : Option Nat :=
  if c.isDigit then some (c.toNat - 48)
  else if 'a' ≤ c ∧ c ≤ 'f' then some (c.toNat - 87)
  else if 'A' ≤ c ∧ c ≤ 'F' then some (c.toNat - 55)
  else none

/-- The character with the code that hexadecimal digits spell. -/
def charOfHex? (digits : List Char) : Option Char := do
  let code ← digits.foldlM (fun n c => return n * 16 + (← hexDigit? c)) 0
  if code.isValidChar then return Char.ofNat code else none

/-- The character that a backslash and a letter stand for. -/
def escape? : Char → Option Char
  | 'b' => some '\x08'
  | 't' => some '\t'
  | 'n' => some '\n'
  | 'f' => some '\x0c'
  | 'r' => some '\r'
  | '"' => some '"'
  | '\\' => some '\\'
  | _ => none

/-- The tokens of the rest of a line. -/
def lex : Mode → List Char → Option (List Token)
  | .plain word, [] => some (flush word [])
  | .plain word, c :: cs =>
      if isWordChar c then lex (.plain (c :: word)) cs
      else
        let go (t : List Token) := (lex (.plain []) cs).map fun rest => flush word (t ++ rest)
        match c with
        | ' ' | '\t' => go []
        | '.' => go [.dot]
        | '=' => go [.equals]
        | '[' => go [.opening]
        | ']' => go [.closing]
        | '"' => (lex (.basic []) cs).map (flush word)
        | '\x27' => (lex (.verbatim []) cs).map (flush word)
        | '#' => if cs.all isShown then some (flush word []) else none
        | _ => none
  | .basic read, '"' :: cs =>
      (lex (.plain []) cs).map (Token.quoted (String.ofList read.reverse) :: ·)
  | .basic read, '\\' :: 'u' :: a :: b :: c :: d :: cs =>
      match charOfHex? [a, b, c, d] with
      | some e => lex (.basic (e :: read)) cs
      | none => none
  | .basic read, '\\' :: 'U' :: a :: b :: c :: d :: e :: f :: g :: h :: cs =>
      match charOfHex? [a, b, c, d, e, f, g, h] with
      | some i => lex (.basic (i :: read)) cs
      | none => none
  | .basic read, '\\' :: c :: cs =>
      match escape? c with
      | some e => lex (.basic (e :: read)) cs
      | none => none
  | .basic read, c :: cs => if isShown c ∧ c ≠ '\\' then lex (.basic (c :: read)) cs else none
  | .verbatim read, '\x27' :: cs =>
      (lex (.plain []) cs).map (Token.quoted (String.ofList read.reverse) :: ·)
  | .verbatim read, c :: cs => if isShown c then lex (.verbatim (c :: read)) cs else none
  | .basic _, [] | .verbatim _, [] => none

/-! ## Values and keys -/

/-- Whether underscores stand between digits only. -/
def spacedWell : List Char → Bool
  | [] | ['_'] => false
  | [_] => true
  | '_' :: _ => false
  | c :: '_' :: d :: rest => c != '_' && d != '_' && spacedWell (d :: rest)
  | _ :: rest => spacedWell rest

/-- The number that digits of a base spell; underscores may part them. -/
def digits? (base : Nat) (cs : List Char) : Option Nat :=
  if spacedWell cs then
    (cs.filter (· != '_')).foldlM
      (fun n c => do
        let d ← hexDigit? c
        if d < base then return n * base + d else none) 0
  else none

/-- A decimal number without superfluous zeros. -/
def decimal? (cs : List Char) : Option Nat :=
  match cs with
  | '0' :: _ :: _ => none
  | _ => digits? 10 cs

/-- An integer: decimal with a sign, or hexadecimal, octal or binary. -/
def integer? (cs : List Char) : Option Int :=
  let n : Option Int :=
    match cs with
    | '0' :: 'x' :: ds => (digits? 16 ds).map Int.ofNat
    | '0' :: 'o' :: ds => (digits? 8 ds).map Int.ofNat
    | '0' :: 'b' :: ds => (digits? 2 ds).map Int.ofNat
    | '+' :: ds => (decimal? ds).map Int.ofNat
    | '-' :: ds => (decimal? ds).map fun n => -Int.ofNat n
    | ds => (decimal? ds).map Int.ofNat
  n.filter fun n => -0x8000000000000000 ≤ n ∧ n < 0x8000000000000000

/-- The value that tokens spell. -/
def value? : List Token → Option Value
  | [.word "true"] => some (.truth true)
  | [.word "false"] => some (.truth false)
  | [.word w] => (integer? w.toList).map .integer
  | [.quoted s] => some (.text s)
  | _ => none

/-- Number of names that is too many for a key. -/
def maxKeyLength : Nat := 80

/-- The names of a key, and what follows it. -/
def names? : List Token → Option (Path × List Token)
  | .quoted k :: .dot :: rest => (names? rest).map fun (ks, rest) => (k :: ks, rest)
  | .quoted k :: rest => some ([k], rest)
  | .word k :: .dot :: rest =>
      if k.contains '+' then none else (names? rest).map fun (ks, rest) => (k :: ks, rest)
  | .word k :: rest => if k.contains '+' then none else some ([k], rest)
  | _ => none

/-- A key, and what follows it. -/
def key? (tokens : List Token) : Option (Path × List Token) :=
  (names? tokens).filter fun key => key.1.length < maxKeyLength

/-! ## Documents -/

/-- How a table came to be. -/
inductive TableKind where
  /-- It has a head of its own. -/
  | headed
  /-- The head of a table in it names it. -/
  | implied
  /-- A dotted key names it. -/
  | dotted
deriving DecidableEq, Repr, Inhabited

/-- A settings file as far as it is read. -/
structure Document where
  /-- The table that keys belong to. -/
  current : Path := []
  values : List (Path × Value) := []
  /-- The tables; of two entries for a path the first counts. -/
  tables : List (Path × TableKind) := []
deriving Inhabited

namespace Document

/-- The value at a path. -/
def get? (d : Document) (p : Path) : Option Value := d.values.lookup p

/-- Whether a value stands at a path. -/
def hasValue (d : Document) (p : Path) : Bool := (d.get? p).isSome

/-- How the table at a path came to be. -/
def kind? (d : Document) (p : Path) : Option TableKind := d.tables.lookup p

/-- Whether a table stands at a path. -/
def hasTable (d : Document) (p : Path) : Bool := (d.kind? p).isSome

/-- Names of what stands in the table at a path, each of them once. -/
def namesIn (d : Document) (p : Path) : List String :=
  ((d.values.map (·.1) ++ d.tables.map (·.1)).filterMap fun q =>
    if p.isPrefixOf q then q[p.length]? else none).eraseDups

/-- Tables of a kind at those paths where there is none. -/
def missing (d : Document) (kind : TableKind) (ps : List Path) : List (Path × TableKind) :=
  (ps.filter fun p => !d.hasTable p).map fun p => (p, kind)

/-- Begin a table.  It may have been implied before, and is defined in no other way. -/
def beginTable (d : Document) (p : Path) : Option Document :=
  let outer := Path.heads p (p.length - 1)
  if (p :: outer).any d.hasValue || d.kind? p == some .headed || d.kind? p == some .dotted then none
  else
    some { d with current := p, tables := (p, .headed) :: (d.missing .implied outer ++ d.tables) }

/-- Add a value to the current table.  A dotted key leads through no table with a head, and puts
its value into a table that only dotted keys define. -/
def add (d : Document) (key : Path) (v : Value) : Option Document :=
  let p := d.current ++ key
  let outer := (Path.heads key (key.length - 1)).map (d.current ++ ·)
  if d.hasValue p || d.hasTable p || outer.any (fun q => d.hasValue q || d.kind? q == some .headed)
      || outer.getLast?.any (fun q => d.kind? q == some .implied) then none
  else
    some { d with values := (p, v) :: d.values, tables := d.missing .dotted outer ++ d.tables }

/-- Read a line. -/
def addLine (d : Document) (line : List Char) : Option Document := do
  match ← lex (.plain []) line with
  | [] => return d
  | .opening :: rest =>
      let (p, rest) ← key? rest
      if rest = [.closing] then d.beginTable p else none
  | tokens =>
      let (key, rest) ← key? tokens
      match rest with
      | .equals :: rest => d.add key (← value? rest)
      | _ => none

end Document

/-- The lines of a text; a carriage return may stand before the end of a line. -/
def lines : List Char → List (List Char)
  | [] => [[]]
  | '\n' :: cs => [] :: lines cs
  | '\r' :: '\n' :: cs => [] :: lines cs
  | c :: cs =>
      match lines cs with
      | line :: rest => (c :: line) :: rest
      | [] => [[c]]

/-- Read a document; nothing if it is malformed. -/
def parse? (s : String) : Option Document :=
  let text :=
    match s.toList with
    | '\ufeff' :: cs => cs
    | cs => cs
  (lines text).foldlM Document.addLine {}

end Toml
end ZMachine
