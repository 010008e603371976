import Mathlib.Algebra.Group.Int.Defs
import Mathlib.Algebra.Group.Nat.Defs
import Intcode.Instruction.Execute

/-!
# The instruction table

What each instruction does and what it has to check, told over the integers: memory is a function from
addresses to integers, and sums and products have no range. A scene holds all that one instruction sees.
Its `row` says what the instruction changes, given that all its `checks` hold; they stand in the order in
which they are made, each with the complaint that follows if it is the first to fail.
-/

namespace Intcode.Table

/-! ## Rows -/

/-- What follows an instruction: the next one, a wait for input, or nothing. -/
inductive Control where
  | proceed
  | needInput
  | halt
  deriving DecidableEq, Repr

structure Row where
  store : Option (Nat × Int) := none
  pc : Nat
  base : Int
  output : Option Int := none
  consumes : Bool := false
  control : Control := .proceed
  deriving DecidableEq, Repr

/-- What an instruction sees: its operation and modes, the cells by their addresses, both registers, and
the input value on offer. -/
structure Scene where
  opcode : Opcode
  modes : Modes
  cell : Nat → Int
  pc : Nat
  base : Int
  input : Option Int

namespace Scene

variable (s : Scene)

/-- The number that stands at a parameter. -/
def raw (p : Parameter) : Int :=
  s.cell (s.pc + p.number)

/-- The place that a parameter names. -/
def place (p : Parameter) : Int :=
  match s.modes.get p with
  | .relative => s.raw p + s.base
  | _ => s.raw p

def value (p : Parameter) : Int :=
  match s.modes.get p with
  | .immediate => s.raw p
  | _ => s.cell (s.place p).toNat

/-- Stores a value through the third parameter. -/
def storing (v : Int) : Row :=
  { store := some ((s.place .third).toNat, v), pc := s.pc + 4, base := s.base }

def row : Row :=
  let a := s.value .first
  let b := s.value .second
  match s.opcode with
  | .add => s.storing (a + b)
  | .multiply => s.storing (a * b)
  | .input =>
    match s.input with
    | some v =>
      { store := some ((s.place .first).toNat, v), pc := s.pc + 2, base := s.base, consumes := true }
    | none => { pc := s.pc, base := s.base, control := .needInput }
  | .output => { pc := s.pc + 2, base := s.base, output := some a }
  | .jumpIfTrue => { pc := if a ≠ 0 then b.toNat else s.pc + 3, base := s.base }
  | .jumpIfFalse => { pc := if a = 0 then b.toNat else s.pc + 3, base := s.base }
  | .lessThan => s.storing (if a < b then 1 else 0)
  | .equals => s.storing (if a = b then 1 else 0)
  | .adjustBase => { pc := s.pc + 2, base := s.base + a }
  | .halt => { pc := s.pc, base := s.base, control := .halt }

end Scene

/-! ## Checks -/

inductive Complaint where
  | overflow
  | negativeAddress (place : Int)
  deriving DecidableEq, Repr

/-- A condition, with the complaint if it does not hold. -/
structure Check where
  holds : Bool
  complaint : Complaint
  deriving DecidableEq, Repr

def inRange (i : Int) : Bool :=
  -2 ^ 63 ≤ i && i < 2 ^ 63

namespace Check

/-- An integer has to be in the range of words. -/
def word (i : Int) : Check :=
  ⟨inRange i, .overflow⟩

/-- A program counter must not pass the end of the address space. -/
def counter (n : Nat) : Check :=
  ⟨n < 2 ^ 64, .overflow⟩

/-- A place must not be negative. -/
def place (i : Int) : Check :=
  ⟨0 ≤ i, .negativeAddress i⟩

end Check

namespace Scene

variable (s : Scene)

def operandChecks (p : Parameter) : List Check :=
  .counter (s.pc + p.number) ::
    match s.modes.get p with
    | .immediate => []
    | .position => [.place (s.raw p)]
    | .relative => [.word (s.raw p + s.base), .place (s.raw p + s.base)]

/-- The check of a jump, which is made only if it is taken. -/
def jumpChecks (taken : Prop) [Decidable taken] : List Check :=
  if taken then [.place (s.value .second)] else []

/-- The checks of what the instruction computes. -/
def resultChecks : List Check :=
  match s.opcode with
  | .add => [.word (s.value .first + s.value .second)]
  | .multiply => [.word (s.value .first * s.value .second)]
  | .jumpIfTrue => s.jumpChecks (s.value .first ≠ 0)
  | .jumpIfFalse => s.jumpChecks (s.value .first = 0)
  | .adjustBase => [.word (s.base + s.value .first)]
  | .input | .output | .lessThan | .equals | .halt => []

/-- The instruction stays where it is: it halts the machine, or it lacks input. -/
def stays : Bool :=
  s.opcode = .halt || (s.opcode = .input && s.input = none)

/-- All checks in order: each parameter, then the step to the next instruction, then the result. -/
def checks : List Check :=
  (Parameter.upTo s.opcode.arity).flatMap s.operandChecks ++
    if s.stays then [] else .counter (s.pc + (s.opcode.arity + 1)) :: s.resultChecks

end Scene

end Intcode.Table
