import Intcode.Instruction.Fault

/-!
# Errors

What an operation on a machine or on its checkpoints reports when it cannot be carried out. That a run
is suspended, for lack of input or at the end of its budget, is no error.
-/

namespace Intcode

/-- Why an operation on a machine failed. -/
inductive Error where
  /-- The instruction `word` at `pc` is faulty. -/
  | fault (pc : Address) (word : Word) (cause : Fault)
  /-- The instruction at `pc` asks for input that was to be there from the start. -/
  | inputExhausted (pc : Address)
  /-- No checkpoint has this label. -/
  | unknownLabel (label : String)
  /-- A cell at a negative place was to be read or written. -/
  | negativeAddress (place : Word)
  /-- A checkpoint cannot be read from its text, or its file cannot be used. -/
  | badCheckpoint
  deriving DecidableEq, Repr, Inhabited

namespace Error

/-- The address of the instruction that failed, if it was one. -/
def pc? : Error → Option Address
  | fault pc _ _ => some pc
  | inputExhausted pc => some pc
  | _ => none

/-- The error in words. -/
def message : Error → String
  | fault pc word cause =>
    "decode error at pc " ++ Numeral.ofAddress pc ++ " (instruction " ++ Numeral.ofWord word ++ "): "
      ++ cause.message
  | inputExhausted pc => "input exhausted at pc " ++ Numeral.ofAddress pc
  | unknownLabel label => "checkpoint not found: " ++ label
  | negativeAddress place => "negative address " ++ Numeral.ofWord place
  | badCheckpoint => "checkpoint error"

end Error

end Intcode
