/-
  The source of random numbers.

  It either runs an xorshift generator or counts from 1 up to a limit over
  and over, which makes a story predictable.  Where no seed is given, it takes
  one from the entropy of the system.  What the system answers is not known
  here: it is a parameter, and a source holds the answers that are to come.
-/
import ZMachine.Word

namespace ZMachine

/-- How numbers are made. -/
inductive RandomMode where
  | shuffle
  /-- Count up to `limit` and begin again; `next` is the coming count. -/
  | count (limit next : Nat)
deriving DecidableEq, Repr, Inhabited

/-- What the system answers to one request for entropy after the other: a seed, or nothing if it has
none to give. -/
abbrev Entropy := Nat → Option UInt64

/-- A source of random numbers. -/
structure RandomSource where
  state : UInt64
  mode : RandomMode := .shuffle
  /-- The answers to requests for entropy that are to come. -/
  entropy : Entropy := fun _ => none
deriving Inhabited

namespace RandomSource

/-- The source with a seed; seed 0 counts as 1. -/
def seeded (seed : UInt64) (entropy : Entropy := fun _ => none) : RandomSource :=
  { state := if seed = 0 then 1 else seed, entropy }

/-- Seed for want of entropy. -/
def fixedSeed : UInt64 := 0x2545f4914f6cdd1d

/-- The source with a seed from the system. -/
def fresh (entropy : Entropy) : RandomSource :=
  seeded ((entropy 0).getD fixedSeed) fun n => entropy (n + 1)

/-- The source with a seed, or with one from the system if there is none. -/
def start (seed : Option UInt64) (entropy : Entropy) : RandomSource :=
  match seed with
  | some seed => seeded seed entropy
  | none => fresh entropy

/-- One step of the generator. -/
def shuffle (x : UInt64) : UInt64 :=
  let x := x ^^^ x <<< 13
  let x := x ^^^ x >>> 7
  x ^^^ x <<< 17

/-- A number from 1 to `range`, where range 0 counts as 1. -/
def next (r : RandomSource) (range : Word) : Word × RandomSource :=
  let range := max range.toNat 1
  match r.mode with
  | .count limit next =>
      let following := if limit ≤ next then 1 else next + 1
      (((next - 1) % range + 1).toUInt16, { r with mode := .count limit following })
  | .shuffle =>
      let x := shuffle r.state
      ((x.toNat % range + 1).toUInt16, { r with state := x })

/-- Begin anew: small numbers of either sign count, larger ones seed, and 0 asks the system for a
seed. -/
def reseed (r : RandomSource) (argument : Int) : RandomSource :=
  let magnitude := argument.natAbs
  if magnitude = 0 then fresh r.entropy
  else if magnitude < 1000 then { r with mode := .count magnitude 1 }
  else seeded magnitude.toUInt64 r.entropy

end RandomSource

end ZMachine
