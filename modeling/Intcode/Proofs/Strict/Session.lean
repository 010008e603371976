import Intcode.Proofs.Checkpoint.ReadBack
import Intcode.Proofs.Machine.Operation
import Intcode.Proofs.Strict.Machine

/-!
# Strict sessions

A strict machine goes through the operations of a host, beginning with a checkpoint that is read from a text. The text
may hold any registers and any two parts of a memory (`Checkpoint.ofText_write`). Each session comes to what the session
of the machine comes to: all that goes wrong is told by an error, and nothing traps. Only the counter of executed
instructions could be full, after so many of them.

Main statement: `accepted_checkpoints_do_not_trap`.
-/

namespace Intcode

open Json

/-! ## Checkpoints -/

namespace Checkpoint

variable {text : String} {c : Checkpoint}

/-- Reads a checkpoint from its text. -/
def Parts.ofText (s : String) : Except Trap (Except Error Parts) :=
  match (read? s).bind parts? with
  | some p => do return .ok { p with memory := ← p.memory.absorb }
  | none => .ok (.error .badCheckpoint)

theorem Parts.absorb_eq (p : Parts) (h : p.toCheckpoint.memory.dense.size < wordEnd) :
    p.memory.absorb = .ok p.toCheckpoint.parts.memory := by
  have hsize : p.toCheckpoint.memory.dense.size = min p.memory.dense.size UInt64.size :=
    (Memory.normalizes_toMemory p.memory).size
  have hfits : p.memory.dense.size ≤ UInt64.size := by
    simp only [wordEnd, UInt64.size] at *
    omega
  rw [Memory.Parts.absorb_eq _ hfits, parts, toCheckpoint, Memory.Parts.toMemory]
  simp only [Memory.addressable_eq hfits]

theorem ofText_parts (hread : ofText text = .ok c) (hc : c.memory.dense.size < wordEnd) :
    Parts.ofText text = .ok (.ok c.parts) := by
  unfold ofText at hread
  unfold Parts.ofText
  cases hjson : read? text with
  | none =>
      rw [hjson] at hread
      cases hread
  | some j =>
      rw [hjson, Option.bind_some, ofJson?_eq] at hread
      rw [Option.bind_some]
      cases hp : parts? j with
      | none =>
          rw [hp] at hread
          cases hread
      | some p =>
          rw [hp] at hread
          cases hread
          simp only [p.absorb_eq hc]
          rfl

end Checkpoint

/-! ## Operations -/

namespace Strict.Machine

open Intcode.Machine (Operation Reply)

/-- Queues input values in order. -/
def extend (m : Machine) (ws : List Word) : Machine :=
  if ws.isEmpty then m
  else { m with input := m.input ++ ws, status := m.status.resumed }

/-- The machine at its start again; only what it emitted stays. -/
def reset (m : Machine) : Machine :=
  { m with
    memory := ⟨m.image, ∅⟩
    registers := {}
    status := .running
    input := []
    executed := 0 }

/-- The state of the machine now. -/
def checkpoint (m : Machine) : Checkpoint.Parts where
  memory := m.memory
  registers := m.registers
  halted := m.status = .halted

/-- The machine in the state of a checkpoint; its queue and its log stay. -/
def restore (m : Machine) (c : Checkpoint.Parts) : Machine :=
  { m with
    memory := c.memory
    registers := c.registers
    status := if c.halted then .halted else .running }

/-- Stores a word at a host's place. -/
def write (m : Machine) (place value : Word) : Except Trap (Except Error Machine) :=
  match Memory.place place with
  | .ok a => do return .ok { m with memory := ← m.memory.set a value }
  | .error e => .ok (.error e)

/-- The reply to an operation and the machine after it; `none` if a run needs more fuel. -/
def perform (fuel : Nat) (m : Machine) : Operation → Option (Except Trap (Reply × Machine))
  | .push ws => some (.ok (.done, m.extend ws))
  | .run budget => (m.run fuel budget).map (Except.map fun (result, n) => (.ran result, n))
  | .step => some (m.step.map fun (result, n) => (.stepped result, n))
  | .takeOutput => some (.ok (.took m.output, { m with output := #[] }))
  | .reset => some (.ok (.done, m.reset))
  | .restore c => some (.ok (.done, m.restore c.parts))
  | .write place value =>
    some ((m.write place value).map fun
      | .ok n => (.wrote (.ok ()), n)
      | .error e => (.wrote (.error e), m))

/-- The replies to a list of operations, each with the machine after it. -/
def session (fuel : Nat) (m : Machine) : List Operation → Option (Except Trap (List (Reply × Machine)))
  | [] => some (.ok [])
  | op :: ops =>
    match m.perform fuel op with
    | none => none
    | some (.error trap) => some (.error trap)
    | some (.ok (reply, n)) => (n.session fuel ops).map (Except.map ((reply, n) :: ·))

end Strict.Machine

namespace Machine

open Strict (Agrees)

variable {m n : Machine} {fuel : Nat} {op : Operation} {ops : List Operation} {reply : Reply}

/-- The operation leaves the machine no memory with a dense part beyond the lower half of the address space. -/
def Admits (m : Machine) : Operation → Prop
  | .reset => m.image.size ≤ wordEnd
  | .restore c => c.memory.dense.size ≤ wordEnd
  | _ => True

theorem Admits.of_image (hop : m.Admits op) (h : n.image = m.image) : n.Admits op := by
  cases op with
  | reset =>
      rw [Admits, h]
      exact hop
  | _ => exact hop

theorem reset_strict (hm : m.image.size ≤ wordEnd) : m.strict.reset = m.reset.strict := by
  have hfits : m.image.size ≤ UInt64.size := Nat.le_trans hm (by decide)
  have hmemory : m.reset.memory.parts = ⟨m.image, ∅⟩ := by
    simp only [reset, ofImage, Memory.parts, Memory.ofImage, Memory.addressable_eq hfits]
  have hreset : m.reset.strict = { m.strict.reset with memory := m.reset.memory.parts } := rfl
  rw [hreset, hmemory]
  rfl

theorem extend_strict (ws : List Word) : m.strict.extend ws = (m.extend ws).strict := by
  unfold Strict.Machine.extend extend
  split <;> rfl

theorem write_strict (hm : m.Fits) (place value : Word) :
    m.strict.write place value = .ok ((m.write place value).map strict) := by
  unfold Strict.Machine.write write Memory.write
  cases Memory.place place with
  | error e => rfl
  | ok a =>
      have hset : m.strict.memory.set a value = .ok (m.memory.set a value).parts := Memory.set_parts hm
      simp only [hset]
      rfl

theorem Fits.perform (hm : m.Fits) (hop : m.Admits op) (h : m.perform fuel op = some (reply, n)) : n.Fits := by
  cases performed h with
  | push ws =>
      unfold Machine.extend
      split <;> exact hm
  | run hrun => exact hm.run hrun
  | step => exact hm.step
  | takeOutput | refuse hplace => exact hm
  | reset =>
      exact Nat.le_trans (Nat.le_of_eq (Memory.size_addressable m.image)) (Nat.le_trans (Nat.min_le_left _ _) hop)
  | restore c => exact hop
  | write hplace => exact Memory.size_dense_set_le hm (Memory.lt_wordEnd hplace)

theorem executed_perform_le (h : m.perform fuel op = some (reply, n)) : n.executed ≤ m.executed + (fuel + 1) := by
  cases performed h with
  | push ws =>
      rw [extend_executed]
      exact Nat.le_add_right _ _
  | run hrun => exact Nat.le_succ_of_le (executed_loop_le hrun)
  | step => exact Nat.le_trans m.executed_step_le (by omega)
  | reset => exact Nat.zero_le _
  | takeOutput | restore c | write hplace | refuse hplace => exact Nat.le_add_right _ _

theorem perform_strict (hm : m.Fits) (hop : m.Admits op) :
    Agrees (m.executed + (fuel + 1)) (m.strict.perform fuel op) ((m.perform fuel op).map (Prod.map id strict)) := by
  cases op with
  | push ws => exact .inl (by rw [Strict.Machine.perform, extend_strict]; rfl)
  | run budget =>
      have hrun := (run_strict hm fuel budget).map fun stop => (Reply.ran stop.1, stop.2)
      rw [Option.map_map] at hrun
      rw [perform, Option.map_map]
      exact hrun.mono (by omega)
  | step =>
      rw [Strict.Machine.perform]
      rcases step_strict hm with ⟨hstep, -⟩ | ⟨hstep, hfull⟩
      · exact .inl (by rw [hstep]; rfl)
      · exact .inr ⟨by rw [hstep]; rfl, by omega⟩
  | takeOutput | restore c => exact .inl rfl
  | reset => exact .inl (by rw [Strict.Machine.perform, reset_strict hop]; rfl)
  | write place value =>
      left
      rw [Strict.Machine.perform, write_strict hm, perform]
      cases m.write place value <;> rfl

theorem session_strict (hm : m.Fits) (hops : ∀ op ∈ ops, m.Admits op) :
    Agrees (m.executed + ops.length * (fuel + 1)) (m.strict.session fuel ops)
      ((m.session fuel ops).map (List.map (Prod.map id strict))) := by
  induction ops generalizing m with
  | nil => exact .inl rfl
  | cons op ops ih =>
      rw [List.forall_mem_cons] at hops
      rw [List.length_cons, Nat.succ_mul, session_cons_eq, Strict.Machine.session]
      rcases perform_strict hm hops.1 with hperform | ⟨hperform, hfull⟩
      · rw [hperform]
        cases hp : m.perform fuel op with
        | none => exact .inl rfl
        | some p =>
            obtain ⟨reply, n⟩ := p
            have himage := (perform_kept hp).1
            have hexecuted := executed_perform_le hp
            have hrest := ih (hm.perform hops.1 hp) fun op hop => (hops.2 op hop).of_image himage
            have hsession := (hrest.map ((reply, n.strict) :: ·)).mono
              (show _ ≤ m.executed + (ops.length * (fuel + 1) + (fuel + 1)) by omega)
            have hplain : ((n.session fuel ops).map ((reply, n) :: ·)).map (List.map (Prod.map id strict)) =
                ((n.session fuel ops).map (List.map (Prod.map id strict))).map ((reply, n.strict) :: ·) := by
              rw [Option.map_map, Option.map_map]
              rfl
            rw [Option.bind_some, hplain]
            exact hsession
      · rw [hperform]
        exact .inr ⟨rfl, by omega⟩

theorem Fits.session {t : List (Reply × Machine)} (hm : m.Fits) (hops : ∀ op ∈ ops, m.Admits op)
    (h : m.session fuel ops = some t) : ∀ p ∈ t, p.2.Fits := by
  have hkept : ∀ p ∈ t, p.2.Fits ∧ p.2.image = m.image := by
    refine session_keeps (P := fun k => k.Fits ∧ k.image = m.image) (fun op hop k reply n hk hperform => ?_) ⟨hm, rfl⟩ h
    exact ⟨hk.1.perform ((hops op hop).of_image hk.2) hperform, (perform_kept hperform).1.trans hk.2⟩
  exact fun p hp => (hkept p hp).1

/-- A checkpoint with a dense part in the lower half of the address space does not trap when it is read from a text, and
no session of a machine that is set to its state does. The strict session has the replies and the machines of the plain
one, unless there were rounds enough for the counter to be full. Each of these machines has a state that may be restored
in turn, and an extent that is told unless there is a cell at the last address. -/
theorem accepted_checkpoints_do_not_trap {text : String} {c : Checkpoint} (hread : Checkpoint.ofText text = .ok c)
    (hc : c.memory.dense.size < 2 ^ 63) (m : Machine) (hops : ∀ op ∈ ops, m.Admits op) (fuel : Nat) :
    Checkpoint.Parts.ofText text = .ok (.ok c.parts) ∧
      Agrees (m.executed + ops.length * (fuel + 1)) ((m.strict.restore c.parts).session fuel ops)
        (((m.restore c).session fuel ops).map (List.map (Prod.map id strict))) ∧
      ∀ t, (m.restore c).session fuel ops = some t → ∀ p ∈ t,
        p.2.strict.checkpoint = p.2.checkpoint.parts ∧ m.Admits (.restore p.2.checkpoint) ∧
          (p.2.memory.parts.extent = .ok p.2.memory.extent ↔ ¬ p.2.memory.HasCell .last) := by
  have hfits : (m.restore c).Fits := Nat.le_of_lt hc
  have hadmits : ∀ op ∈ ops, (m.restore c).Admits op := fun op hop => (hops op hop).of_image rfl
  refine ⟨Checkpoint.ofText_parts hread hc, session_strict hfits hadmits, fun t ht p hp => ?_⟩
  have hn := hfits.session hadmits ht p hp
  exact ⟨rfl, hn, Memory.extent_parts_iff hn⟩

/-- A checkpoint at the end of the address space, where an addition stands; its dense part covers another far cell. -/
def edge : Checkpoint.Parts where
  memory := ⟨#[99, 2, 3], ((∅ : FarCells).insert 1 5).insert .last 1⟩
  registers := ⟨.last, -1⟩
  halted := false

/-- Set to that state, a machine overflows; then it takes a word from the host and goes back to the checkpoint. -/
theorem accepted_checkpoints_do_not_trap_edge :
    Checkpoint.ofText edge.toJson.write = .ok edge.toCheckpoint ∧
      ∃ m n : Machine,
        ((ofImage #[99] .batch).strict.restore edge.toCheckpoint.parts).session 1
            [.run none, .write 1 7, .restore edge.toCheckpoint] =
          some (.ok [(.ran (.error (.fault .last 1 .overflow)), m.strict), (.wrote (.ok ()), n.strict),
            (.done, m.strict)]) := by
  have hread := Checkpoint.ofText_write edge
  have hmade := Memory.normalizes_toMemory edge.memory
  have hsize : edge.toCheckpoint.memory.dense.size = 3 := hmade.size
  have hword : edge.toCheckpoint.memory.get .last = 1 := by
    refine (hmade.get .last).trans ?_
    simp [edge]
  let m : Machine := (ofImage #[99] .batch).restore edge.toCheckpoint
  have hattempt : m.attempt = .error .overflow := by
    have hfetch : Instruction.fetch m.memory m.registers = Instruction.decode 1 := congrArg Instruction.decode hword
    rw [attempt, hfetch]
    rfl
  have hstep : m.step = (.error (.fault .last 1 .overflow), m) := by
    have hm : m.word = 1 := hword
    rw [step, hattempt, hm]
    rfl
  have hrun : m.run 1 none = some (.error (.fault .last 1 .overflow), m) := by
    have hstops : m.stopsFor? none 0 = none := rfl
    simp only [run, Loop.run, runRound, hstops, hstep]
  have hsession : m.session 1 [.run none, .write 1 7, .restore edge.toCheckpoint] =
      some [(.ran (.error (.fault .last 1 .overflow)), m), (.wrote (.ok ()), { m with memory := m.memory.set 1 7 }),
        (.done, m)] := by
    rw [session_cons_eq, perform, hrun]
    rfl
  have hfits : edge.toCheckpoint.memory.dense.size < 2 ^ 63 := by
    rw [hsize]
    decide
  have hops : ∀ op ∈ [Operation.run none, .write 1 7, .restore edge.toCheckpoint], (ofImage #[99] .batch).Admits op := by
    rw [List.forall_mem_cons, List.forall_mem_cons, List.forall_mem_singleton]
    exact ⟨trivial, trivial, Nat.le_of_lt hfits⟩
  refine ⟨hread, m, { m with memory := m.memory.set 1 7 }, ?_⟩
  rcases (accepted_checkpoints_do_not_trap hread hfits (ofImage #[99] .batch) hops 1).2.1 with hstrict | ⟨-, hfull⟩
  · rw [hstrict, hsession]
    rfl
  · exact absurd hfull (by decide)

end Machine

end Intcode
