/-
  Numbers spelled by digits.
-/

namespace ZMachine

/-- Value of a digit or letter. -/
def digitValue (c : Char) : Nat :=
  if c.isDigit then c.toNat - 48
  else if 'a' ≤ c ∧ c ≤ 'z' then c.toNat - 87
  else if 'A' ≤ c ∧ c ≤ 'Z' then c.toNat - 55
  else 36

/-- The number below `limit` that digits of a base spell; a plus sign may stand before them. -/
def parseNumber? (base limit : Nat) (s : List Char) : Option Nat :=
  let digits :=
    match s with
    | '+' :: ds => ds
    | ds => ds
  if digits.isEmpty ∨ digits.any (fun c => decide (base ≤ digitValue c)) then none
  else
    let n := digits.foldl (fun n c => n * base + digitValue c) 0
    if n < limit then some n else none

/-- Whether a text is empty or an exponent: the letter, a sign or none, and digits. -/
def isExponent : List Char → Bool
  | [] => true
  | e :: rest =>
      let digits :=
        match rest with
        | '+' :: ds | '-' :: ds => ds
        | ds => ds
      (e == 'e' || e == 'E') && !digits.isEmpty && digits.all Char.isDigit

/-- Whether a text spells a decimal fraction: a sign or none, then digits with or without a point,
and an exponent or none; or the name of an infinity or of no number. -/
def isDecimal (s : List Char) : Bool :=
  let unsigned :=
    match s with
    | '+' :: cs | '-' :: cs => cs
    | cs => cs
  let whole := unsigned.takeWhile Char.isDigit
  let (part, rest) :=
    match unsigned.dropWhile Char.isDigit with
    | '.' :: cs => (cs.takeWhile Char.isDigit, cs.dropWhile Char.isDigit)
    | cs => ([], cs)
  let named := ["inf", "infinity", "nan"].contains (String.ofList (unsigned.map Char.toLower))
  named || (!(whole.isEmpty && part.isEmpty) && isExponent rest)

end ZMachine
