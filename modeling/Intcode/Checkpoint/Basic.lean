import Intcode.Json.Decode
import Intcode.Machine.Basic
import Intcode.Memory.Json

/-!
# Checkpoints

A checkpoint is what a machine needs to go on from where it was: memory, both registers, and whether it
has halted. Queued input and emitted words are no part of it.
-/

namespace Intcode

/-- The state of a machine at one moment. -/
structure Checkpoint where
  memory : Memory
  registers : Registers
  halted : Bool
  deriving Inhabited

namespace Machine

/-- The state of the machine now. -/
def checkpoint (m : Machine) : Checkpoint where
  memory := m.memory
  registers := m.registers
  halted := m.isHalted

/-- The machine in the state of a checkpoint; its queue and its log stay. -/
def restore (m : Machine) (c : Checkpoint) : Machine :=
  { m with
    memory := c.memory
    registers := c.registers
    status := if c.halted then .halted else .running }

end Machine

namespace Checkpoint

/-- Both checkpoints hold the same cells, registers and flag, whatever the parts of their memories. -/
def same (c d : Checkpoint) : Bool :=
  c.memory.sameCells d.memory && c.registers = d.registers && c.halted = d.halted

/-! ## Text -/

/-- A checkpoint as a record. -/
def toJson (c : Checkpoint) : Json :=
  .object
    [("memory", c.memory.toJson),
      ("program_counter", .address c.registers.pc),
      ("relative_base", .word c.registers.relativeBase),
      ("halted", .bool c.halted)]

/-- The checkpoint of a record. -/
def ofJson? (j : Json) : Option Checkpoint :=
  match Json.fields? ["memory", "program_counter", "relative_base", "halted"] j with
  | some [some memory, some pc, some relativeBase, some halted] => do
    return {
      memory := ← Memory.ofJson? memory
      registers := { pc := ← pc.address?, relativeBase := ← relativeBase.word? }
      halted := ← halted.bool? }
  | _ => none

/-- The text of a checkpoint. -/
def text (c : Checkpoint) : String :=
  c.toJson.write

/-- Reads a checkpoint from its text. -/
def ofText (s : String) : Except Error Checkpoint :=
  match (Json.read? s).bind ofJson? with
  | some c => .ok c
  | none => .error .badCheckpoint

end Checkpoint

end Intcode
