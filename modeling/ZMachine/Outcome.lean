/-
  What an operation leaves for the instruction to store and to test.
-/
import ZMachine.Word

namespace ZMachine

/-- Result of an operation. -/
inductive Outcome where
  /-- Nothing to store and nothing to test. -/
  | done
  | value (w : Word)
  | test (passed : Bool)
  | valueTest (w : Word) (passed : Bool)
deriving DecidableEq, Repr, Inhabited

namespace Outcome

/-- The value to store, if there is one. -/
def value? : Outcome → Option Word
  | value w => some w
  | valueTest w _ => some w
  | _ => none

/-- The result of the test, if there is one. -/
def test? : Outcome → Option Bool
  | test passed => some passed
  | valueTest _ passed => some passed
  | _ => none

/-- One number for value and test: the low 16 bits and the bit above them. -/
def encode (o : Outcome) : Nat :=
  (o.value?.getD 0).toNat + if o.test?.getD false then 0x10000 else 0

end Outcome

end ZMachine
