import Intcode.Proofs.Machine.Bounded
import Intcode.Proofs.Strict.Instruction

/-!
# Strict machines

A strict machine has two parts for its memory, without any promise about them, and its steps and runs are strict
computations. It counts the instructions of a run, and all since its start. As the machine of a memory it does what that
machine does, step by step (`step_strict`) and over a whole run (`run_strict`): what goes wrong is told by an error, and
nothing traps but the counter, if it is full.
-/

namespace Intcode

/-! ## Machines -/

namespace Strict

/-- A machine with two parts for its memory. -/
structure Machine where
  image : Array Word
  memory : Memory.Parts
  registers : Registers
  status : Status
  policy : InputPolicy
  input : List Word
  output : Array Word
  executed : Nat

namespace Machine

/-- What the instruction at the program counter would do, with the next input value on offer. -/
def attempt (m : Machine) : Faulty (Instruction × Effect) := do
  let i ← decode (m.memory.get m.registers.pc)
  let effect ← execute m.memory m.registers i m.input.head?
  return (i, effect)

/-- The parts of the memory after the store of a change, if it makes one. -/
def storeIn (c : Change) (p : Memory.Parts) : Except Trap Memory.Parts :=
  match c.store with
  | some (a, w) => p.set a w
  | none => .ok p

/-- The machine after an instruction that makes a change. -/
def apply (m : Machine) (c : Change) : Except Trap Machine := do
  return { m with
    memory := ← storeIn c m.memory
    registers := c.registers
    status := .running
    input := if c.consumes then m.input.tail else m.input
    output := c.emitTo m.output
    executed := ← count m.executed }

/-- Executes at most one instruction and says whether one was executed. -/
def step (m : Machine) : Except Trap (Except Error Bool × Machine) :=
  if m.status = .halted then .ok (.ok false, m)
  else do
    match ← m.attempt.run with
    | .error cause => return (.error (.fault m.registers.pc (m.memory.get m.registers.pc) cause), m)
    | .ok (_, .change c) => return (.ok true, ← m.apply c)
    | .ok (_, .halt) => return (.ok true, { m with status := .halted, executed := ← count m.executed })
    | .ok (_, .needInput) =>
      match m.policy with
      | .streaming => return (.ok false, { m with status := .blockedOnInput })
      | .batch => return (.error (.inputExhausted m.registers.pc), m)

/-- The end of a run: its outcome or the error, and the machine as it is then. -/
abbrev RunEnd := Except Error Outcome × Machine

/-- Why a run that has executed `steps` instructions goes no further. -/
def stopsFor? (budget : Option Nat) (steps : Nat) (m : Machine) : Option Outcome :=
  if m.status = .halted then some .halted
  else if m.status = .blockedOnInput ∧ m.input = [] then some .blockedOnInput
  else if budget.any (· ≤ steps) then some .budgetExhausted
  else none

/-- One round of a run, which counts the executed instructions. -/
def runRound (budget : Option Nat) : Nat × Machine → (Nat × Machine) ⊕ Except Trap RunEnd
  | (steps, m) =>
    match m.stopsFor? budget steps with
    | some outcome => .inr (.ok (.ok outcome, m))
    | none =>
      match m.step with
      | .error trap => .inr (.error trap)
      | .ok (.ok true, m) =>
        match count steps with
        | .ok steps => .inl (steps, m)
        | .error trap => .inr (.error trap)
      | .ok (.ok false, m) => .inl (steps, m)
      | .ok (.error e, m) => .inr (.ok (.error e, m))

/-- Runs the machine within a budget, if there is one. -/
def run (fuel : Nat) (budget : Option Nat) (m : Machine) : Option (Except Trap RunEnd) :=
  Loop.run (runRound budget) fuel (0, m)

end Machine

/-! ## Agreement -/

/-- A strict computation comes to what a plain one comes to, or the counter is full, for which `n` has to be large
enough. -/
def Agrees {α : Type} (n : Nat) (strict : Option (Except Trap α)) (plain : Option α) : Prop :=
  strict = plain.map .ok ∨ strict = some (.error .count) ∧ UInt64.size ≤ n

variable {α β : Type} {n k : Nat} {strict : Option (Except Trap α)} {plain : Option α}

theorem Agrees.mono (h : Agrees n strict plain) (hle : n ≤ k) : Agrees k strict plain :=
  h.imp_right (And.imp_right (Nat.le_trans · hle))

theorem Agrees.map (h : Agrees n strict plain) (f : α → β) :
    Agrees n (strict.map (Except.map f)) (plain.map f) := by
  rcases h with rfl | ⟨rfl, hfull⟩
  · left
    rw [Option.map_map, Option.map_map]
    rfl
  · exact .inr ⟨rfl, hfull⟩

theorem count_of_lt (h : n + 1 < UInt64.size) : count n = .ok (n + 1) :=
  if_pos h

theorem count_cases (n : Nat) :
    count n = .ok (n + 1) ∧ n + 1 < UInt64.size ∨ count n = .error .count ∧ UInt64.size ≤ n + 1 := by
  by_cases h : n + 1 < UInt64.size
  · exact .inl ⟨count_of_lt h, h⟩
  · exact .inr ⟨if_neg h, Nat.not_lt.1 h⟩

end Strict

/-- The machine with nothing but the parts of its memory. -/
def Machine.strict (m : Machine) : Strict.Machine where
  image := m.image
  memory := m.memory.parts
  registers := m.registers
  status := m.status
  policy := m.policy
  input := m.input
  output := m.output
  executed := m.executed

namespace Machine

open Strict (Agrees)

variable {m n : Machine} {e : Effect} {budget : Option Nat} {steps fuel : Nat} {stop : RunEnd}

/-! ## Room -/

/-- The dense part of the memory is in the lower half of the address space. -/
def Fits (m : Machine) : Prop :=
  m.memory.dense.size ≤ wordEnd

theorem Fits.after (hm : m.Fits) (hmove : m.move? = some e) : (m.after e).Fits := by
  obtain ⟨i, hattempt, -⟩ := attempt_of_move hmove
  obtain ⟨-, he⟩ := attempt_eq_ok.1 hattempt
  cases e with
  | needInput | halt => exact hm
  | change c =>
      have hwithin := Instruction.execute_within he
      have hmemory : (m.after (.change c)).memory = c.storeIn m.memory := rfl
      rw [Fits, hmemory, Change.storeIn]
      cases hstore : c.store with
      | none => exact hm
      | some s => exact Memory.size_dense_set_le hm (hwithin.store s.1 s.2 hstore)

theorem Fits.step (hm : m.Fits) : m.step.2.Fits := by
  have hstepped := m.stepped_step
  generalize m.step = r at hstepped
  cases hstepped with
  | moves hmove => exact hm.after hmove
  | rests hs | fails hs hmove hfault | waits hs hstarves hpolicy => exact hm

theorem Fits.run (hm : m.Fits) (h : m.run fuel budget = some stop) : stop.2.Fits :=
  run_keeps (fun _ => Fits.step) hm h

/-! ## Steps -/

theorem attempt_strict (m : Machine) : m.strict.attempt = Strict.safe m.attempt := by
  have hword : m.strict.memory.get m.strict.registers.pc = m.word := Memory.get_parts m.memory m.registers.pc
  refine Strict.bind_safe ?_ fun i => ?_
  · rw [hword, Strict.decode_eq]
    rfl
  · exact Strict.bind_safe (Strict.execute_eq m.memory m.registers i m.input.head?) fun _ => rfl

theorem storeIn_strict (hm : m.Fits) (c : Change) :
    Strict.Machine.storeIn c m.memory.parts = .ok (c.storeIn m.memory).parts := by
  unfold Strict.Machine.storeIn Change.storeIn
  cases c.store with
  | none => rfl
  | some s => exact Memory.set_parts hm

theorem apply_strict (hm : m.Fits) (c : Change) :
    m.strict.apply c = (Strict.count m.executed).map fun _ => (m.apply c).strict := by
  have hmemory : Strict.Machine.storeIn c m.strict.memory = .ok (c.storeIn m.memory).parts := storeIn_strict hm c
  rw [Strict.Machine.apply, hmemory]
  rcases Strict.count_cases m.executed with ⟨hcount, -⟩ | ⟨hcount, -⟩
  all_goals
    simp only [bind, Except.bind, strict, hcount]
    rfl

/-- A step that executes an instruction counts it, if it can be counted. -/
theorem step_of_count {strict : Except Trap (Except Error Bool × Strict.Machine)}
    (h : strict = (Strict.count m.executed).map fun _ => (.ok true, n.strict)) :
    strict = .ok (.ok true, n.strict) ∧ ((.ok true : Except Error Bool) = .ok true → m.executed + 1 < UInt64.size) ∨
      strict = .error .count ∧ UInt64.size ≤ m.executed + 1 := by
  subst h
  rcases Strict.count_cases m.executed with ⟨hcount, hlt⟩ | ⟨hcount, hfull⟩
  · exact .inl ⟨by rw [hcount]; rfl, fun _ => hlt⟩
  · exact .inr ⟨by rw [hcount]; rfl, hfull⟩

/-- A step comes to what it comes to, unless it executes an instruction that cannot be counted. -/
theorem step_strict (hm : m.Fits) :
    m.strict.step = .ok (m.step.1, m.step.2.strict) ∧ (m.step.1 = .ok true → m.executed + 1 < UInt64.size) ∨
      m.strict.step = .error .count ∧ UInt64.size ≤ m.executed + 1 := by
  have hword : m.strict.memory.get m.strict.registers.pc = m.word := Memory.get_parts m.memory m.registers.pc
  have hstatus : m.strict.status = m.status := rfl
  have hpolicy : m.strict.policy = m.policy := rfl
  unfold Strict.Machine.step step
  rw [attempt_strict, hstatus]
  split
  · exact .inl ⟨rfl, nofun⟩
  · cases m.attempt with
    | error cause =>
        refine .inl ⟨?_, nofun⟩
        rw [hword]
        rfl
    | ok p =>
        obtain ⟨i, e⟩ := p
        cases e with
        | change c =>
            have hstep : (m.strict.apply c >>= fun n => .ok (.ok true, n)) =
                (Strict.count m.executed).map fun _ => ((.ok true : Except Error Bool), (m.apply c).strict) := by
              rw [apply_strict hm]
              cases Strict.count m.executed <;> rfl
            exact step_of_count hstep
        | halt =>
            have hstep : (Strict.count m.executed >>= fun k =>
                .ok ((.ok true : Except Error Bool), { m.strict with status := .halted, executed := k })) =
                  (Strict.count m.executed).map fun _ =>
                    (.ok true, { m with status := .halted, executed := m.executed + 1 }.strict) := by
              rcases Strict.count_cases m.executed with ⟨hcount, -⟩ | ⟨hcount, -⟩ <;> rw [hcount] <;> rfl
            exact step_of_count hstep
        | needInput =>
            rw [hpolicy]
            cases m.policy with
            | streaming | batch => exact .inl ⟨rfl, nofun⟩

/-! ## Runs -/

theorem executed_step_le (m : Machine) : m.step.2.executed ≤ m.executed + 1 := by
  have hstepped := m.stepped_step
  generalize m.step = r at hstepped
  cases hstepped with
  | moves hmove => exact Nat.le_of_eq (executed_after hmove)
  | rests hs | fails hs hmove hfault | waits hs hstarves hpolicy => exact Nat.le_succ _

theorem executed_loop_le (h : Loop.run (runRound budget) fuel (steps, m) = some stop) :
    stop.2.executed ≤ m.executed + fuel := by
  induction fuel generalizing steps m with
  | zero => cases h
  | succ fuel ih =>
      have hround := @round_runRound budget steps m
      have hle := m.executed_step_le
      rw [Loop.run] at h
      generalize runRound budget (steps, m) = r at hround h
      cases hround with
      | stops hstops =>
          cases h
          exact Nat.le_add_right _ _
      | executes hstops hstep | waits hstops hstep =>
          rw [hstep] at hle
          have hrest := ih h
          simp only at hle
          omega
      | fails hstops hstep =>
          rw [hstep] at hle
          cases h
          simp only at hle ⊢
          omega

/-- The instructions of a run are among those that the machine has counted, so only the machine's counter can be
full. -/
theorem loop_strict (hm : m.Fits) (hsteps : steps ≤ m.executed) :
    Agrees (m.executed + fuel) (Loop.run (Strict.Machine.runRound budget) fuel (steps, m.strict))
      ((Loop.run (runRound budget) fuel (steps, m)).map (Prod.map id strict)) := by
  induction fuel generalizing steps m with
  | zero => exact .inl rfl
  | succ fuel ih =>
      have hstops : m.strict.stopsFor? budget steps = m.stopsFor? budget steps := rfl
      rw [Loop.run, Loop.run, Strict.Machine.runRound, runRound, hstops]
      cases m.stopsFor? budget steps with
      | some outcome => exact .inl rfl
      | none =>
          have hfits := hm.step
          rcases step_strict hm with ⟨hstep, hcount⟩ | ⟨hstep, hfull⟩
          · have hexecuted := m.executed_step
            rw [hstep]
            generalize m.step = r at *
            obtain ⟨result, n⟩ := r
            replace hfits : n.Fits := hfits
            cases result with
            | error e => exact .inl rfl
            | ok executed =>
                cases executed with
                | true =>
                    have hlt : m.executed + 1 < UInt64.size := hcount rfl
                    have hsteps' : Strict.count steps = .ok (steps + 1) := Strict.count_of_lt (by omega)
                    replace hexecuted : n.executed = m.executed + 1 := hexecuted
                    simp only [hsteps']
                    exact (ih hfits (by omega)).mono (by omega)
                | false =>
                    replace hexecuted : n.executed = m.executed := hexecuted
                    exact (ih hfits (by omega)).mono (by omega)
          · rw [hstep]
            exact .inr ⟨rfl, by omega⟩

theorem run_strict (hm : m.Fits) (fuel : Nat) (budget : Option Nat) :
    Agrees (m.executed + fuel) (m.strict.run fuel budget) ((m.run fuel budget).map (Prod.map id strict)) :=
  loop_strict hm (Nat.zero_le _)

end Machine

end Intcode
