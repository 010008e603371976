import Intcode.Instruction.Execute
import Intcode.Machine.InputPolicy
import Intcode.Memory.Place

/-!
# Machines

A machine is a memory and its registers, with a queue of input values not yet used and a log of the
output. `step` executes one instruction. A failed step gives back the machine it was given; its place in
the result says so even where it reports an error.
-/

namespace Intcode

/-- What a machine is doing between two runs. -/
inductive Status where
  | running
  /-- It waits at an instruction that asks for input. -/
  | blockedOnInput
  | halted
  deriving DecidableEq, Repr, Inhabited

/-- What a machine is doing once it gets input: it waits no longer. -/
def Status.resumed : Status → Status
  | .blockedOnInput => .running
  | status => status

/-- A machine. -/
structure Machine where
  /-- What memory held at the start. -/
  image : Array Word
  memory : Memory
  registers : Registers
  status : Status
  policy : InputPolicy
  /-- The input values that wait to be used, the next one first. -/
  input : List Word
  /-- The words emitted and not yet taken away, the oldest first. -/
  output : Array Word
  /-- The number of instructions executed since the start. -/
  executed : Nat
  deriving Inhabited

namespace Machine

/-! ## The host's operations -/

/-- A machine at its start, with nothing queued. -/
def ofImage (image : Array Word) (policy : InputPolicy) : Machine where
  image
  memory := .ofImage image
  registers := {}
  status := .running
  policy
  input := []
  output := #[]
  executed := 0

/-- Queues input values in order. -/
def extend (m : Machine) (ws : List Word) : Machine :=
  if ws.isEmpty then m
  else { m with input := m.input ++ ws, status := m.status.resumed }

/-- Queues one input value. -/
def push (m : Machine) (w : Word) : Machine :=
  m.extend [w]

/-- Takes the output away. -/
def takeOutput (m : Machine) : Array Word × Machine :=
  (m.output, { m with output := #[] })

/-- The machine at its start again; only what it emitted stays. -/
def reset (m : Machine) : Machine :=
  { ofImage m.image m.policy with output := m.output }

/-- The word at a host's place. -/
def read (m : Machine) (place : Word) : Except Error Word :=
  m.memory.read place

/-- Stores a word at a host's place. -/
def write (m : Machine) (place value : Word) : Except Error Machine :=
  (m.memory.write place value).map fun memory => { m with memory }

/-- The machine has stopped for good. -/
def isHalted (m : Machine) : Bool :=
  m.status = .halted

/-! ## Steps -/

/-- The word at the program counter. -/
def word (m : Machine) : Word :=
  m.memory.get m.registers.pc

/-- What the instruction at the program counter would do, with the next input value on offer. -/
def attempt (m : Machine) : Except Fault (Instruction × Effect) := do
  let i ← Instruction.fetch m.memory m.registers
  let effect ← i.execute m.memory m.registers m.input.head?
  return (i, effect)

/-- The machine after an instruction that makes a change. -/
def apply (m : Machine) (c : Change) : Machine :=
  { m with
    memory := c.storeIn m.memory
    registers := c.registers
    status := .running
    input := if c.consumes then m.input.tail else m.input
    output := c.emitTo m.output
    executed := m.executed + 1 }

/-- Executes at most one instruction and says whether one was executed. None is on a halted machine, nor
on a streaming one that lacks input; a batch machine that lacks input fails. -/
def step (m : Machine) : Except Error Bool × Machine :=
  if m.status = .halted then (.ok false, m)
  else
    match m.attempt with
    | .error cause => (.error (.fault m.registers.pc m.word cause), m)
    | .ok (_, .change c) => (.ok true, m.apply c)
    | .ok (_, .halt) => (.ok true, { m with status := .halted, executed := m.executed + 1 })
    | .ok (_, .needInput) =>
      match m.policy with
      | .streaming => (.ok false, { m with status := .blockedOnInput })
      | .batch => (.error (.inputExhausted m.registers.pc), m)

/-- A failed step changes nothing. -/
theorem step_error {m n : Machine} {e : Error} (h : m.step = (.error e, n)) : n = m := by
  unfold step at h
  repeat' split at h
  all_goals cases h <;> rfl

end Machine

end Intcode
