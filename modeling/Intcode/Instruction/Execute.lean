import Intcode.Instruction.Decode
import Intcode.Memory.Basic

/-!
# Executing one instruction

An instruction is executed without changing anything: the outcome is the change that it makes, or the
demand for input, or the wish to stop. A fault therefore leaves no trace. Operands are resolved in the
order of their parameters, the parameter that is stored to last; then the program counter moves on, and
only then is anything computed.
-/

namespace Intcode

/-- The registers of a machine. -/
structure Registers where
  /-- The address of the next instruction. -/
  pc : Address := 0
  /-- What is added to operands in relative mode. -/
  relativeBase : Word := 0
  deriving DecidableEq, Repr, Inhabited

/-- What an executed instruction changes. -/
structure Change where
  registers : Registers
  /-- The cell that is stored, with its new word. -/
  store : Option (Address × Word) := none
  /-- The word that is emitted. -/
  emit : Option Word := none
  /-- The offered input value was used up. -/
  consumes : Bool := false
  deriving DecidableEq, Repr, Inhabited

/-- The memory after the store of a change, if it makes one. -/
def Change.storeIn (c : Change) (m : Memory) : Memory :=
  match c.store with
  | some (a, w) => m.set a w
  | none => m

/-- The output log after the word of a change, if it emits one. -/
def Change.emitTo (c : Change) (ws : Array Word) : Array Word :=
  match c.emit with
  | some w => ws.push w
  | none => ws

/-- What becomes of an instruction. -/
inductive Effect where
  /-- It is executed and changes something. -/
  | change (c : Change)
  /-- It waits for an input value that was not offered. -/
  | needInput
  /-- It stops the machine. -/
  | halt
  deriving DecidableEq, Repr, Inhabited

/-! ## Operands -/

namespace Operand

/-- The address that a word names, or the fault that it is negative. -/
def address (w : Word) : Except Fault Address :=
  match w.address? with
  | some a => .ok a
  | none => .error (.negativeAddress w)

/-- The sum of two words, or the fault that it is out of range. -/
def sum (a b : Word) : Except Fault Word :=
  match a.add? b with
  | some w => .ok w
  | none => .error .overflow

/-- The address `n` cells behind the program counter. -/
def behind (r : Registers) (n : Nat) : Except Fault Address :=
  match r.pc.add? n with
  | some a => .ok a
  | none => .error .overflow

variable (m : Memory) (r : Registers) (modes : Modes)

/-- The word that stands at a parameter. -/
def word (p : Parameter) : Except Fault Word := do
  return m.get (← behind r p.number)

/-- The value of a parameter that is read. -/
def value (p : Parameter) : Except Fault Word := do
  let w ← word m r p
  match modes.get p with
  | .immediate => return w
  | .position => return m.get (← address w)
  | .relative => return m.get (← address (← sum w r.relativeBase))

/-- The address of a parameter that is stored to. -/
def target (p : Parameter) : Except Fault Address := do
  let w ← word m r p
  match modes.get p with
  | .immediate => .error (.immediateWrite p.number)
  | .position => address w
  | .relative => address (← sum w r.relativeBase)

end Operand

/-! ## Instructions -/

namespace Instruction

variable (i : Instruction) (m : Memory) (r : Registers)

/-- The registers when the program counter has moved on to the next instruction. -/
def advance : Except Fault Registers := do
  return { r with pc := ← Operand.behind r i.width }

/-- Stores what `f` makes of two operands. -/
def combine (f : Word → Word → Option Word) : Except Fault Effect := do
  let a ← Operand.value m r i.modes .first
  let b ← Operand.value m r i.modes .second
  let place ← Operand.target m r i.modes .third
  let registers ← i.advance r
  match f a b with
  | some w => return .change { registers, store := some (place, w) }
  | none => .error .overflow

/-- Jumps to the second operand if the first one is as `taken` says. -/
def jump (taken : Word → Bool) : Except Fault Effect := do
  let condition ← Operand.value m r i.modes .first
  let destination ← Operand.value m r i.modes .second
  let registers ← i.advance r
  if taken condition then
    return .change { registers := { registers with pc := ← Operand.address destination } }
  else
    return .change { registers }

/-- Executes an instruction, with an input value if there is one to offer. -/
def execute (offered : Option Word) : Except Fault Effect :=
  match i.opcode with
  | .add => i.combine m r Word.add?
  | .multiply => i.combine m r Word.mul?
  | .lessThan => i.combine m r fun a b => some (.ofBool (a < b))
  | .equals => i.combine m r fun a b => some (.ofBool (a = b))
  | .input => do
    let place ← Operand.target m r i.modes .first
    match offered with
    | some w =>
      return .change { registers := ← i.advance r, store := some (place, w), consumes := true }
    | none => return .needInput
  | .output => do
    let w ← Operand.value m r i.modes .first
    return .change { registers := ← i.advance r, emit := some w }
  | .jumpIfTrue => i.jump m r (· ≠ 0)
  | .jumpIfFalse => i.jump m r (· = 0)
  | .adjustBase => do
    let w ← Operand.value m r i.modes .first
    let registers ← i.advance r
    return .change { registers := { registers with relativeBase := ← Operand.sum r.relativeBase w } }
  | .halt => return .halt

/-- The instruction at the program counter. -/
def fetch (m : Memory) (r : Registers) : Except Fault Instruction :=
  decode (m.get r.pc)

end Instruction

end Intcode
