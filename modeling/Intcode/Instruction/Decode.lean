import Intcode.Instruction.Basic
import Intcode.Instruction.Fault

/-!
# Reading a word as an instruction

The last two digits of a word name the operation. The digits before them, from right to left, are the
modes of its parameters; digits beyond the last parameter mean nothing.
-/

namespace Intcode

/-- The mode that a digit stands for. -/
def Mode.ofDigit? : Nat → Option Mode
  | 0 => some .position
  | 1 => some .immediate
  | 2 => some .relative
  | _ => none

/-- The digit that stands for a mode. -/
def Mode.digit : Mode → Nat
  | .position => 0
  | .immediate => 1
  | .relative => 2

@[simp] theorem Mode.ofDigit?_digit (m : Mode) : Mode.ofDigit? m.digit = some m := by
  cases m <;> rfl

namespace Instruction

/-- The modes of the parameters `ps` from the digits of `n`, the lowest first. -/
def decodeModes (n : Nat) : List Parameter → Except Fault Modes
  | [] => .ok {}
  | p :: ps =>
    match Mode.ofDigit? (n % 10) with
    | none => .error (.unknownMode p.number (n % 10))
    | some mode => (decodeModes (n / 10) ps).map (·.set p mode)

/-- Refuses immediate mode for the parameter that an operation stores to. -/
def checkTarget (op : Opcode) (modes : Modes) : Except Fault Modes :=
  match op.target? with
  | some p => if modes.get p = .immediate then .error (.immediateWrite p.number) else .ok modes
  | none => .ok modes

/-- The operation that a word names: none for a negative word. -/
def opcode? (word : Word) : Option Opcode :=
  if 0 ≤ word.toInt then Opcode.ofCode? (word.toInt % 100) else none

/-- Reads a word as an instruction. -/
def decode (word : Word) : Except Fault Instruction := do
  let some op := opcode? word | .error (.unknownOpcode word)
  let modes ← decodeModes (word.toInt.toNat / 100) (Parameter.upTo op.arity)
  let modes ← checkTarget op modes
  return { word, opcode := op, modes }

end Instruction

end Intcode
