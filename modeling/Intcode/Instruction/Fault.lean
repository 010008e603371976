import Intcode.Numeral

/-!
# Faults

What can be wrong with one instruction: its word names no operation, one of its operands cannot be
resolved, or its arithmetic leaves the range of words. Parameters are numbered from one.
-/

namespace Intcode

/-- Why an instruction cannot be decoded or executed. -/
inductive Fault where
  /-- The last two digits name no operation, or the word is negative. -/
  | unknownOpcode (word : Word)
  /-- A mode digit other than 0, 1 and 2. -/
  | unknownMode (parameter digit : Nat)
  /-- A parameter that is stored to has immediate mode. -/
  | immediateWrite (parameter : Nat)
  /-- An operand names the cell at a negative place. -/
  | negativeAddress (place : Word)
  /-- A sum or a product that no word or address denotes. -/
  | overflow
  deriving DecidableEq, Repr, Inhabited

/-- The fault in words. -/
def Fault.message : Fault → String
  | .unknownOpcode word => "unknown opcode " ++ Numeral.ofWord word
  | .unknownMode parameter digit =>
    "unknown mode " ++ Numeral.ofNat digit ++ " for parameter " ++ Numeral.ofNat parameter
  | .immediateWrite parameter =>
    "parameter " ++ Numeral.ofNat parameter ++ " is a write target in immediate mode"
  | .negativeAddress place => "negative address " ++ Numeral.ofWord place
  | .overflow => "integer overflow"

end Intcode
