import Intcode.Checkpoint.Store
import Intcode.Program.Basic
import Intcode.Proofs.Memory.Reading

/-!
# Saved state is read back

A checkpoint, a store of checkpoints and a program are written as canonical trees, and the values they were
made from are found in these. A memory comes back with both its parts as they were: reading a memory moves
the far cells that the dense part covers into it, and a memory has none of these. The text of a checkpoint may
hold any two parts of a memory; what is read is the checkpoint with the memory that they make.
-/

namespace Intcode

open Json

/-! ## Programs -/

namespace Program

theorem ofJson?_toJson (p : Program) : ofJson? p.toJson = some p := by
  have hfields : fields? ["cells"] p.toJson = some [some _] := fields?_object (by decide) rfl
  simp [ofJson?, hfields]

theorem canonical_toJson (p : Program) : Canonical p.toJson := by
  refine canonical_object (show FieldNames ["cells"] by decide) rfl ?_
  rw [List.forall_mem_singleton]
  exact canonical_words p.cells

end Program

/-! ## Checkpoints -/

namespace Checkpoint

/-- A checkpoint with any two parts for its memory. -/
structure Parts where
  memory : Memory.Parts
  registers : Registers
  halted : Bool

/-- The checkpoint with the two parts of its memory. -/
def parts (c : Checkpoint) : Parts where
  memory := c.memory.parts
  registers := c.registers
  halted := c.halted

/-- The checkpoint with the memory that the two parts make. -/
def Parts.toCheckpoint (p : Parts) : Checkpoint where
  memory := p.memory.toMemory
  registers := p.registers
  halted := p.halted

/-- The checkpoint that a record holds, with the parts of the memory as they stand there. -/
def parts? (j : Json) : Option Parts :=
  match fields? ["memory", "program_counter", "relative_base", "halted"] j with
  | some [some memory, some pc, some relativeBase, some halted] => do
    return {
      memory := ← Memory.parts? memory
      registers := { pc := ← pc.address?, relativeBase := ← relativeBase.word? }
      halted := ← halted.bool? }
  | _ => none

/-- A checkpoint with any two parts as a record. -/
def Parts.toJson (p : Parts) : Json :=
  .object
    [("memory", p.memory.toJson),
      ("program_counter", .address p.registers.pc),
      ("relative_base", .word p.registers.relativeBase),
      ("halted", .bool p.halted)]

theorem toCheckpoint_parts (c : Checkpoint) : c.parts.toCheckpoint = c := by
  unfold Parts.toCheckpoint parts
  rw [Memory.toMemory_parts]

theorem ofJson?_eq (j : Json) : ofJson? j = (parts? j).map Parts.toCheckpoint := by
  unfold ofJson? parts?
  split
  · rename_i memory pc relativeBase halted hfields
    simp only [*, Memory.ofJson?_eq]
    cases Memory.parts? memory <;> cases pc.address? <;> cases relativeBase.word? <;> cases halted.bool? <;> rfl
  · simp

theorem parts?_toJson (p : Parts) : parts? p.toJson = some p := by
  have hfields : fields? ["memory", "program_counter", "relative_base", "halted"] p.toJson =
      some [some _, some _, some _, some _] := fields?_object (by decide) rfl
  simp [parts?, hfields, Memory.parts?_toJson, bool?]

theorem ofJson?_toJson (c : Checkpoint) : ofJson? c.toJson = some c := by
  have hparts : c.toJson = c.parts.toJson := rfl
  rw [ofJson?_eq, hparts, parts?_toJson, Option.map_some, toCheckpoint_parts]

theorem Parts.canonical_toJson (p : Parts) : Canonical p.toJson := by
  refine canonical_object
    (show FieldNames ["memory", "program_counter", "relative_base", "halted"] by decide) rfl ?_
  rw [List.forall_mem_cons, List.forall_mem_cons, List.forall_mem_cons, List.forall_mem_singleton]
  exact ⟨p.memory.canonical_toJson, canonical_address _, canonical_word _, .bool _⟩

theorem canonical_toJson (c : Checkpoint) : Canonical c.toJson :=
  c.parts.canonical_toJson

/-- Any registers and any two parts stand in some text. -/
theorem ofText_write (p : Parts) : ofText p.toJson.write = .ok p.toCheckpoint := by
  rw [ofText, read?_write p.canonical_toJson, Option.bind_some, ofJson?_eq, parts?_toJson, Option.map_some]

namespace Store

theorem ofJson?_toJson (s : Store) : ofJson? s.toJson = some s := by
  have hfields : fields? ["checkpoints"] s.toJson =
      some [some (.object (s.entries.toList.map fun e => (escape e.1, e.2.toJson)))] :=
    fields?_object (by decide) rfl
  have hentries : (Json.object (s.entries.toList.map fun e =>
      (escape e.1, e.2.toJson))).members? entry? = some s.entries.toList := by
    refine members?_map (fun e => ?_) _
    unfold entry?
    simp [Checkpoint.ofJson?_toJson]
  simp only [ofJson?, hfields, hentries]
  simp [foldl_insert_toList]

theorem canonical_toJson (s : Store) : Canonical s.toJson := by
  refine canonical_object (show FieldNames ["checkpoints"] by decide) rfl ?_
  rw [List.forall_mem_singleton]
  exact canonical_map (fun e => ⟨e.1, rfl⟩) (fun e => e.2.canonical_toJson) _

end Store

/-- A checkpoint, a store and a program are what is read from the text that is written for them: the
same registers, flags and labels, and each memory with both its parts. -/
theorem saved_state_is_read_back (c : Checkpoint) (s : Store) (p : Program) :
    ofText c.text = .ok c ∧ Store.ofText s.text = .ok s ∧
      (read? p.toJson.write).bind Program.ofJson? = some p := by
  refine ⟨?_, ?_, ?_⟩
  · rw [ofText, text, read?_write c.canonical_toJson, Option.bind_some, ofJson?_toJson]
  · rw [Store.ofText, Store.text, read?_write s.canonical_toJson, Option.bind_some,
      Store.ofJson?_toJson]
  · rw [read?_write p.canonical_toJson, Option.bind_some, Program.ofJson?_toJson]

end Checkpoint

end Intcode
