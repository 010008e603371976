import Intcode.Word

/-!
# Operations and parameter modes

The ten operations, the number of cells each takes, and the three ways in which a parameter names its
operand. An instruction is a word read as an operation with the modes of its parameters.
-/

namespace Intcode

/-! ## Parameters -/

/-- The places for operands behind an instruction word. -/
inductive Parameter where
  | first
  | second
  | third
  deriving DecidableEq, Repr, Inhabited

/-- The number of a parameter, from one. It is also its distance from the instruction word. -/
def Parameter.number : Parameter → Nat
  | .first => 1
  | .second => 2
  | .third => 3

/-- The first `n` parameters. -/
def Parameter.upTo (n : Nat) : List Parameter :=
  [first, second, third].take n

/-- How a parameter names its operand. -/
inductive Mode where
  /-- By the address of its cell. -/
  | position
  /-- By its value. -/
  | immediate
  /-- By the distance of its cell from the relative base. -/
  | relative
  deriving DecidableEq, Repr, Inhabited

/-- The mode of each parameter; `position` for those that an operation does not have. -/
structure Modes where
  first : Mode := .position
  second : Mode := .position
  third : Mode := .position
  deriving DecidableEq, Repr, Inhabited

namespace Modes

/-- The mode of one parameter. -/
def get (modes : Modes) : Parameter → Mode
  | .first => modes.first
  | .second => modes.second
  | .third => modes.third

/-- The modes with that of one parameter replaced. -/
def set (modes : Modes) (p : Parameter) (mode : Mode) : Modes :=
  match p with
  | .first => { modes with first := mode }
  | .second => { modes with second := mode }
  | .third => { modes with third := mode }

/-- The three modes in order. -/
def toList (modes : Modes) : List Mode :=
  [modes.first, modes.second, modes.third]

end Modes

/-! ## Operations -/

/-- What an instruction does. -/
inductive Opcode where
  /-- Stores the sum of two operands. -/
  | add
  /-- Stores the product of two operands. -/
  | multiply
  /-- Stores the next input value. -/
  | input
  /-- Emits an operand. -/
  | output
  /-- Jumps if the first operand is not zero. -/
  | jumpIfTrue
  /-- Jumps if the first operand is zero. -/
  | jumpIfFalse
  /-- Stores whether one operand is less than another. -/
  | lessThan
  /-- Stores whether two operands are equal. -/
  | equals
  /-- Moves the relative base by an operand. -/
  | adjustBase
  /-- Stops the machine. -/
  | halt
  deriving DecidableEq, Repr, Inhabited

namespace Opcode

/-- The two digits that stand for an operation. -/
def code : Opcode → Nat
  | add => 1
  | multiply => 2
  | input => 3
  | output => 4
  | jumpIfTrue => 5
  | jumpIfFalse => 6
  | lessThan => 7
  | equals => 8
  | adjustBase => 9
  | halt => 99

/-- The operation with a code. -/
def ofCode? : Int → Option Opcode
  | 1 => some add
  | 2 => some multiply
  | 3 => some input
  | 4 => some output
  | 5 => some jumpIfTrue
  | 6 => some jumpIfFalse
  | 7 => some lessThan
  | 8 => some equals
  | 9 => some adjustBase
  | 99 => some halt
  | _ => none

/-- The number of parameters. -/
def arity : Opcode → Nat
  | add | multiply | lessThan | equals => 3
  | jumpIfTrue | jumpIfFalse => 2
  | input | output | adjustBase => 1
  | halt => 0

/-- The parameter that is stored to. -/
def target? : Opcode → Option Parameter
  | add | multiply | lessThan | equals => some .third
  | input => some .first
  | _ => none

/-- The short name in listings. -/
def mnemonic : Opcode → String
  | add => "ADD"
  | multiply => "MUL"
  | input => "IN"
  | output => "OUT"
  | jumpIfTrue => "JT"
  | jumpIfFalse => "JF"
  | lessThan => "LT"
  | equals => "EQ"
  | adjustBase => "ARB"
  | halt => "HALT"

@[simp] theorem ofCode?_code (op : Opcode) : ofCode? op.code = some op := by
  cases op <;> rfl

end Opcode

/-! ## Instructions -/

/-- A word read as an operation with the modes of its parameters. -/
structure Instruction where
  word : Word
  opcode : Opcode
  modes : Modes
  deriving DecidableEq, Repr, Inhabited

namespace Instruction

/-- The number of cells that the instruction takes, its own word included. -/
def width (i : Instruction) : Nat :=
  i.opcode.arity + 1

/-- The parameters that the instruction has. -/
def parameters (i : Instruction) : List Parameter :=
  Parameter.upTo i.opcode.arity

end Instruction

end Intcode
