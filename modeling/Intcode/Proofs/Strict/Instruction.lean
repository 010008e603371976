import Intcode.Proofs.Instruction.Digits
import Intcode.Proofs.Strict.Memory

/-!
# Strict instructions

Reading and executing an instruction on the parts of a memory, with parameters by their numbers and modes by their
indexes. An instruction can be faulty and it could trap; on the parts of a memory it does what it does on the memory, and
its numbers are never those of parameters that there are not.
-/

namespace Intcode.Strict

/-- A strict computation of what may be faulty. -/
abbrev Faulty (α : Type) :=
  ExceptT Fault (Except Trap) α

variable {α β : Type}

/-! ## Modes -/

/-- The mode of the parameter with a number, from one. -/
def mode (modes : Modes) (n : Nat) : Except Trap Mode := do
  item modes.toList (← difference n 1)

/-- Refuses immediate mode for the parameter that an operation stores to. -/
def checkTarget (op : Opcode) (modes : Modes) : Faulty Modes :=
  match op.target? with
  | some p => do
    if (← mode modes p.number) = .immediate then throw (.immediateWrite p.number) else return modes
  | none => return modes

/-- Reads a word as an instruction. -/
def decode (word : Word) : Faulty Instruction := do
  let some op := Instruction.opcode? word | throw (.unknownOpcode word)
  let modes ← Instruction.decodeModes (word.toInt.toNat / 100) (Parameter.upTo op.arity)
  let modes ← checkTarget op modes
  return { word, opcode := op, modes }

/-! ## Operands -/

section

variable (p : Memory.Parts) (r : Registers) (i : Instruction)

/-- The word that stands at a parameter. -/
def word (n : Nat) : Faulty Word := do
  return p.get (← Operand.behind r n)

/-- The value of a parameter that is read. -/
def value (n : Nat) : Faulty Word := do
  let w ← word p r n
  match ← mode i.modes n with
  | .immediate => return w
  | .position => return p.get (← Operand.address w)
  | .relative => return p.get (← Operand.address (← Operand.sum w r.relativeBase))

/-- The address of a parameter that is stored to. -/
def target (n : Nat) : Faulty Address := do
  let w ← word p r n
  match ← mode i.modes n with
  | .immediate => throw (.immediateWrite n)
  | .position => Operand.address w
  | .relative => Operand.address (← Operand.sum w r.relativeBase)

/-- The registers when the program counter has moved on to the next instruction. -/
def advance : Faulty Registers := do
  let width ← sum i.opcode.arity 1
  return { r with pc := ← Operand.behind r width }

/-! ## Instructions -/

/-- Stores what `f` makes of two operands. -/
def combine (f : Word → Word → Option Word) : Faulty Effect := do
  let a ← value p r i 1
  let b ← value p r i 2
  let place ← target p r i 3
  let registers ← advance r i
  match f a b with
  | some w => return .change { registers, store := some (place, w) }
  | none => throw .overflow

/-- Jumps to the second operand if the first one is as `taken` says. -/
def jump (taken : Word → Bool) : Faulty Effect := do
  let condition ← value p r i 1
  let destination ← value p r i 2
  let registers ← advance r i
  if taken condition then
    return .change { registers := { registers with pc := ← Operand.address destination } }
  else
    return .change { registers }

/-- Executes an instruction, with an input value if there is one to offer. -/
def execute (offered : Option Word) : Faulty Effect :=
  match i.opcode with
  | .add => combine p r i Word.add?
  | .multiply => combine p r i Word.mul?
  | .lessThan => combine p r i fun a b => some (.ofBool (a < b))
  | .equals => combine p r i fun a b => some (.ofBool (a = b))
  | .input => do
    let place ← target p r i 1
    match offered with
    | some w =>
      return .change { registers := ← advance r i, store := some (place, w), consumes := true }
    | none => return .needInput
  | .output => do
    let w ← value p r i 1
    return .change { registers := ← advance r i, emit := some w }
  | .jumpIfTrue => jump p r i (· ≠ 0)
  | .jumpIfFalse => jump p r i (· = 0)
  | .adjustBase => do
    let w ← value p r i 1
    let registers ← advance r i
    return .change { registers := { registers with relativeBase := ← Operand.sum r.relativeBase w } }
  | .halt => return .halt

end

/-! ## Agreement -/

/-- What may be faulty, as a strict computation that does not trap. -/
def safe (x : Except Fault α) : Faulty α :=
  ExceptT.mk (.ok x)

/-- Two computations one after the other are safe if each of them is. -/
theorem bind_safe {x : Faulty α} {y : Except Fault α} {k : α → Faulty β} {l : α → Except Fault β} (hx : x = safe y)
    (hk : ∀ a, k a = safe (l a)) : (x >>= k) = safe (y >>= l) := by
  subst hx
  cases y with
  | error f => rfl
  | ok a => exact hk a

theorem mode_eq (modes : Modes) (p : Parameter) : mode modes p.number = .ok (modes.get p) := by
  cases p <;> rfl

/-- A mode that is looked up is at hand. -/
theorem mode_bind (modes : Modes) (p : Parameter) (k : Mode → Faulty α) :
    ((mode modes p.number : Faulty Mode) >>= k) = k (modes.get p) := by
  rw [mode_eq]
  rfl

theorem checkTarget_eq (op : Opcode) (modes : Modes) :
    checkTarget op modes = safe (Instruction.checkTarget op modes) := by
  unfold checkTarget Instruction.checkTarget
  cases op.target? with
  | none => rfl
  | some p =>
      simp only [mode_bind]
      split <;> rfl

theorem decode_eq (word : Word) : decode word = safe (Instruction.decode word) := by
  unfold decode Instruction.decode
  cases Instruction.opcode? word with
  | none => rfl
  | some op => exact bind_safe rfl fun modes => bind_safe (checkTarget_eq op modes) fun _ => rfl

variable (m : Memory) (r : Registers) (i : Instruction)

theorem word_eq (p : Parameter) : word m.parts r p.number = safe (Operand.word m r p) :=
  bind_safe rfl fun a => by rw [Memory.get_parts]; rfl

theorem value_eq (p : Parameter) : value m.parts r i p.number = safe (Operand.value m r i.modes p) := by
  refine bind_safe (word_eq m r p) fun w => ?_
  rw [mode_bind]
  cases i.modes.get p with
  | immediate => rfl
  | position => exact bind_safe rfl fun a => by rw [Memory.get_parts]; rfl
  | relative => exact bind_safe rfl fun v => bind_safe rfl fun a => by rw [Memory.get_parts]; rfl

theorem target_eq (p : Parameter) : target m.parts r i p.number = safe (Operand.target m r i.modes p) := by
  refine bind_safe (word_eq m r p) fun w => ?_
  rw [mode_bind]
  cases i.modes.get p with
  | immediate => rfl
  | position => rfl
  | relative => exact bind_safe rfl fun v => rfl

theorem advance_eq : advance r i = safe (i.advance r) := by
  have hwidth : sum i.opcode.arity 1 = .ok i.width := by
    refine if_pos ?_
    have := i.opcode.arity_le
    simp only [UInt64.size]
    omega
  unfold advance
  rw [hwidth]
  exact bind_safe rfl fun a => rfl

theorem combine_eq (f : Word → Word → Option Word) : combine m.parts r i f = safe (i.combine m r f) := by
  refine bind_safe (value_eq m r i .first) fun a => bind_safe (value_eq m r i .second) fun b => ?_
  refine bind_safe (target_eq m r i .third) fun place => bind_safe (advance_eq r i) fun t => ?_
  cases f a b <;> rfl

theorem jump_eq (taken : Word → Bool) : jump m.parts r i taken = safe (i.jump m r taken) := by
  refine bind_safe (value_eq m r i .first) fun a => bind_safe (value_eq m r i .second) fun b => ?_
  refine bind_safe (advance_eq r i) fun t => ?_
  split
  · exact bind_safe rfl fun place => rfl
  · rfl

theorem execute_eq (offered : Option Word) : execute m.parts r i offered = safe (i.execute m r offered) := by
  unfold execute Instruction.execute
  cases i.opcode with
  | add | multiply | lessThan | equals => exact combine_eq m r i _
  | jumpIfTrue | jumpIfFalse => exact jump_eq m r i _
  | input =>
      refine bind_safe (target_eq m r i .first) fun place => ?_
      cases offered with
      | none => rfl
      | some w => exact bind_safe (advance_eq r i) fun t => rfl
  | output => exact bind_safe (value_eq m r i .first) fun w => bind_safe (advance_eq r i) fun t => rfl
  | adjustBase =>
      exact bind_safe (value_eq m r i .first) fun w => bind_safe (advance_eq r i) fun t => bind_safe rfl fun base => rfl
  | halt => rfl

end Intcode.Strict
