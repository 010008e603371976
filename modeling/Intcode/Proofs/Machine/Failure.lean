import Intcode.Proofs.Machine.Move

/-!
# Failed runs

A run fails at the first faulty instruction that it comes to. It fails as a single step does there, so the
machine stays as the instructions before have left it, and whoever runs it again meets the same error.
Nothing here asks how the machine came to be: a host may also have written to one that waits.

Main statement: a failed step leaves no trace, and a failed run none but that of the instructions before
the faulty one (`failure_leaves_no_trace`).
-/

namespace Intcode.Machine

variable {m n : Machine} {budget : Option Nat} {steps fuel : Nat} {e : Effect} {cause : Error}

/-! ## Steps that fail -/

theorem step_of_move (h : m.move? = some e) : m.step = (.ok true, m.after e) := by
  rw [step_eq (not_halted_of_move h), h]

theorem fault?_of_step (h : m.step = (.error cause, n)) : m.fault? = some cause := by
  have hstepped := m.stepped_step
  rw [h] at hstepped
  cases hstepped with
  | fails hs hmove hfault => exact hfault

/-- An error names the instruction at the program counter, and a fault its word. -/
theorem fault?_site (h : m.fault? = some cause) :
    cause.pc? = some m.registers.pc ∧
      ∀ pc word f, cause = .fault pc word f → word = m.memory.get m.registers.pc := by
  unfold fault? at h
  cases ha : m.attempt with
  | error f =>
      rw [ha] at h
      cases h
      refine ⟨rfl, fun pc word f' heq => ?_⟩
      cases heq
      rfl
  | ok p =>
      obtain ⟨i, e⟩ := p
      rw [ha] at h
      cases e with
      | change c | halt => cases h
      | needInput =>
          cases hp : m.policy with
          | streaming => simp [hp] at h
          | batch =>
              simp only [hp, Option.some.injEq] at h
              subst h
              exact ⟨rfl, nofun⟩

/-! ## Runs that may go on -/

/-- Only its budget could end a run here before the next step. -/
def Ready (m : Machine) : Prop :=
  m.status ≠ .halted ∧ ¬ (m.status = .blockedOnInput ∧ m.input = [])

theorem stopsFor?_eq_none :
    m.stopsFor? budget steps = none ↔ m.Ready ∧ ∀ b ∈ budget, steps < b := by
  unfold stopsFor? Ready
  cases budget with
  | none => split <;> simp_all
  | some b =>
      split
      · simp_all
      · split
        · simp_all
        · simp_all

theorem Ready.stopsFor? (h : m.Ready) : m.stopsFor? (some steps) steps = some .budgetExhausted := by
  rw [Machine.stopsFor?, if_neg h.1, if_neg h.2, if_pos (by simp)]

theorem loop_of_move (hready : m.stopsFor? budget steps = none) (hmove : m.move? = some e) :
    Loop.run (runRound budget) (fuel + 1) (steps, m) =
      Loop.run (runRound budget) fuel (steps + 1, m.after e) := by
  rw [Loop.run, runRound, hready]
  simp only [step_of_move hmove]

theorem loop_of_failure (hready : m.stopsFor? budget steps = none) (hstep : m.step = (.error cause, m)) :
    Loop.run (runRound budget) (fuel + 1) (steps, m) = some (.error cause, m) := by
  rw [Loop.run, runRound, hready]
  simp only [hstep]

theorem loop_of_block (hs : m.status ≠ .halted) (hmove : m.move? = none) (hfault : m.fault? = none) :
    Loop.run (runRound budget) fuel (steps, m.block) ≠ some (.error cause, n) := by
  obtain ⟨hstarves, -⟩ := starves_of_none hs hmove hfault
  intro h
  cases fuel with
  | zero => cases h
  | succ fuel =>
      rw [Loop.run, runRound, hstarves.stopsFor?_block] at h
      cases h

/-! ## The loop of a failing run -/

/-- The loop has made moves to a machine whose next step fails, and it would have ended there with a budget
of just these moves. -/
theorem failure_of_loop (h : Loop.run (runRound budget) fuel (steps, m) = some (.error cause, n)) :
    ∃ es, Moves m es n ∧ n.step = (.error cause, n) ∧ n.Ready ∧
      (∀ b ∈ budget, steps + es.length < b) ∧
      Loop.run (runRound (some (steps + es.length))) (es.length + 1) (steps, m) =
        some (.ok .budgetExhausted, n) := by
  induction fuel generalizing steps m with
  | zero => cases h
  | succ fuel ih =>
      cases hstop : m.stopsFor? budget steps with
      | some outcome =>
          rw [Loop.run, runRound, hstop] at h
          cases h
      | none =>
          obtain ⟨hready, hbudget⟩ := stopsFor?_eq_none.1 hstop
          cases hmove : m.move? with
          | some e =>
              rw [loop_of_move hstop hmove] at h
              obtain ⟨es, hes, hstep, hn, hallows, hexact⟩ := ih h
              have hlen : steps + (e :: es).length = steps + 1 + es.length := by
                rw [List.length_cons]
                omega
              have hexactStop : m.stopsFor? (some (steps + 1 + es.length)) steps = none := by
                refine stopsFor?_eq_none.2 ⟨hready, ?_⟩
                rintro b ⟨⟩
                omega
              refine ⟨e :: es, .step hmove hes, hstep, hn, hlen ▸ hallows, ?_⟩
              rw [hlen, List.length_cons, loop_of_move hexactStop hmove]
              exact hexact
          | none =>
              cases hfault : m.fault? with
              | some cause' =>
                  have hstep : m.step = (.error cause', m) := by rw [step_eq hready.1, hmove, hfault]
                  rw [loop_of_failure hstop hstep] at h
                  cases h
                  refine ⟨[], .refl _, hstep, hready, hbudget, ?_⟩
                  rw [List.length_nil, Nat.add_zero, Loop.run, runRound, hready.stopsFor?]
              | none =>
                  rw [Loop.run, runRound, hstop] at h
                  simp only [step_eq hready.1, hmove, hfault] at h
                  exact absurd h (loop_of_block hready.1 hmove hfault)

/-- A failed step changes nothing. A failed run leaves the machine as the `k` instructions before the faulty
one have made it, which is where a run with a budget of `k` ends; its error tells where the machine is and
what is wrong there, and any run that may execute something fails again in the same way. -/
theorem failure_leaves_no_trace (m : Machine) :
    (∀ cause n, m.step = (.error cause, n) → n = m) ∧
      ∀ fuel budget cause n, m.run fuel budget = some (.error cause, n) →
        ∃ k, (∀ b ∈ budget, k < b) ∧
          (∃ es, Moves m es n ∧ es.length = k) ∧
          m.run (k + 1) (some k) = some (.ok .budgetExhausted, n) ∧
          n.executed = m.executed + k ∧
          cause.pc? = some n.registers.pc ∧
          (∀ pc word f, cause = .fault pc word f → word = n.memory.get n.registers.pc) ∧
          ∀ fuel' budget', budget' ≠ some 0 → n.run (fuel' + 1) budget' = some (.error cause, n) := by
  refine ⟨fun cause n h => step_error h, fun fuel budget cause n h => ?_⟩
  obtain ⟨es, hes, hstep, hready, hbudget, hexact⟩ := failure_of_loop h
  obtain ⟨hpc, hword⟩ := fault?_site (fault?_of_step hstep)
  rw [Nat.zero_add] at hexact
  refine ⟨es.length, ?_, ⟨es, hes, rfl⟩, hexact, hes.executed, hpc, hword, ?_⟩
  · simpa using hbudget
  · intro fuel' budget' hbudget'
    refine loop_of_failure (stopsFor?_eq_none.2 ⟨hready, ?_⟩) hstep
    rintro b rfl
    exact Nat.pos_of_ne_zero fun hb => hbudget' (congrArg some hb)

/-- A program that rewrites its third instruction into one that does not exist fails there, after the two
instructions before it. -/
theorem failure_leaves_no_trace_rewritten :
    let m := ofImage #[1101, 40, 2, 6, 104, 5, 99] .batch
    ∃ n, m.run 9 none = some (.error (.fault 6 42 (.unknownOpcode 42)), n) ∧
      n.run 9 (some 1) = some (.error (.fault 6 42 (.unknownOpcode 42)), n) ∧ n.executed = 2 := by
  refine ⟨_, rfl, ?_, rfl⟩
  obtain ⟨k, -, -, -, -, -, -, hagain⟩ := (failure_leaves_no_trace
    (ofImage #[1101, 40, 2, 6, 104, 5, 99] .batch)).2 9 none (.fault 6 42 (.unknownOpcode 42)) _ rfl
  exact hagain 8 (some 1) (by decide)

end Intcode.Machine
