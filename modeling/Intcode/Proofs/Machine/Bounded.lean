import Intcode.Proofs.Machine.Budget

/-!
# Bounded runs

A run counts the steps that execute an instruction, and no others. A step that executes none marks the machine as
waiting, and the round after it sees the mark and ends the run. So the steps of a run all answer that an instruction
was executed, but for the last one perhaps, and a budget bounds the steps and not only the instructions.

Nothing here asks how the machine came to be. Main statement: a run with a budget of `a` instructions ends after at
most `a` steps, and counts what they execute (`bounded_run_counts`).
-/

namespace Intcode.Machine

variable {m : Machine} {budget : Option Nat} {steps fuel a : Nat} {answers : List (Except Error Bool)} {stop : RunEnd}

/-! ## The answers of the steps -/

/-- What the steps of a run answer, call by call. -/
def stepAnswers (fuel : Nat) (budget : Option Nat) (m : Machine) : List (Except Error Bool) :=
  (m.runTrail (fun k => #[k.step.1]) fuel budget).toList

/-- What the steps of a run answer from where it has executed `steps` instructions, and the end that it comes to. -/
inductive Answered (budget : Option Nat) : Nat → Machine → List (Except Error Bool) → RunEnd → Prop where
  | stops {steps : Nat} {m : Machine} {outcome : Outcome} (hstops : m.stopsFor? budget steps = some outcome) :
      Answered budget steps m [] (.ok outcome, m)
  | executes {steps : Nat} {m n : Machine} {answers : List (Except Error Bool)} {stop : RunEnd}
      (hstops : m.stopsFor? budget steps = none) (hstep : m.step = (.ok true, n))
      (hrest : Answered budget (steps + 1) n answers stop) : Answered budget steps m (.ok true :: answers) stop
  | waits {steps : Nat} {m n : Machine} (hstops : m.stopsFor? budget steps = none) (hstep : m.step = (.ok false, n)) :
      Answered budget steps m [.ok false] (.ok .blockedOnInput, n)
  | fails {steps : Nat} {m n : Machine} {e : Error} (hstops : m.stopsFor? budget steps = none)
      (hstep : m.step = (.error e, n)) : Answered budget steps m [.error e] (.error e, n)

/-- The round after a step that executed nothing is the last one. -/
theorem runRound_of_waits {steps' : Nat} {n : Machine} (hround : runRound budget (steps, m) = .inl (steps', n))
    (hfalse : m.step.1 = .ok false) : runRound budget (steps', n) = .inr (.ok .blockedOnInput, n) := by
  have h := hround ▸ @round_runRound budget steps m
  cases h with
  | executes hstops hstep =>
      rw [hstep] at hfalse
      cases hfalse
  | waits hstops hstep =>
      rw [runRound, stopsFor?_of_waits hstep (stopsFor?_eq_none.1 hstops).1.1]

theorem Answered.eq_of_stops {outcome : Outcome} (h : Answered budget steps m answers stop)
    (hstops : m.stopsFor? budget steps = some outcome) : answers = [] ∧ stop = (.ok outcome, m) := by
  cases h with
  | stops hstops' =>
      rw [hstops] at hstops'
      cases hstops'
      exact ⟨rfl, rfl⟩
  | executes hnone | waits hnone | fails hnone =>
      rw [hstops] at hnone
      cases hnone

theorem answered_of_run (h : m.run fuel budget = some stop) : Answered budget 0 m (m.stepAnswers fuel budget) stop := by
  refine @Loop.trail_induct _ _ _ _ fuel (0, m) stop _
    (fun s seen stop => Answered budget s.1 s.2 seen.toList stop) ?_ ?_ h
  · rintro ⟨steps, k⟩ t seen stop ht hrest
    have hround := ht ▸ @round_runRound budget steps k
    cases hround with
    | executes hstops hstep => simpa [hstops, hstep] using Answered.executes hstops hstep hrest
    | @waits n hstops hstep =>
        have hblocked : n.stopsFor? budget steps = some .blockedOnInput :=
          stopsFor?_of_waits hstep (stopsFor?_eq_none.1 hstops).1.1
        -- the rest of the run is its end, so nothing is answered behind the step that waits
        obtain ⟨hseen, rfl⟩ := hrest.eq_of_stops hblocked
        simpa [hstops, hstep, hseen] using Answered.waits hstops hstep
  · rintro ⟨steps, k⟩ stop hstop
    have hround := hstop ▸ @round_runRound budget steps k
    cases hround with
    | stops hstops => simpa [hstops] using Answered.stops hstops
    | fails hstops hstep => simpa [hstops, hstep] using Answered.fails hstops hstep

/-- A run takes one round for each of its steps, and one more for its end at most. -/
theorem Answered.loop (h : Answered budget steps m answers stop) :
    Loop.run (runRound budget) (answers.length + 1) (steps, m) = some stop := by
  induction h with
  | stops hstops => rw [Loop.run, runRound, hstops]
  | executes hstops hstep _ ih =>
      rw [List.length_cons, Loop.run, runRound, hstops]
      simp only [hstep]
      exact ih
  | @waits steps m n hstops hstep =>
      have hround : runRound budget (steps, m) = .inl (steps, n) := by
        rw [runRound, hstops]
        simp only [hstep]
      have hlast := runRound_of_waits hround (congrArg Prod.fst hstep)
      rw [List.length_singleton, Loop.run, hround]
      simp only [Loop.run, hlast]
  | fails hstops hstep =>
      rw [Loop.run, runRound, hstops]
      simp only [hstep]

/-! ## Counting -/

theorem executed_step (m : Machine) :
    m.step.2.executed = m.executed + if m.step.1 matches .ok true then 1 else 0 := by
  have hstepped := m.stepped_step
  generalize m.step = r at hstepped
  cases hstepped with
  | moves hmove => exact executed_after hmove
  | rests hs | fails hs hmove hfault | waits hs hstarves hpolicy => rfl

/-- All steps but the last have executed an instruction, and the machine has counted these. -/
theorem Answered.executed (h : Answered budget steps m answers stop) :
    m.executed ≤ stop.2.executed ∧ ∃ last, .ok true ∉ last ∧ last.length ≤ 1 ∧
      answers = List.replicate (stop.2.executed - m.executed) (.ok true) ++ last := by
  induction h with
  | stops hstops => exact ⟨Nat.le_refl _, [], nofun, by simp, by simp⟩
  | @executes steps m n answers stop hstops hstep _ ih =>
      obtain ⟨hle, last, hlast, hlength, hanswers⟩ := ih
      have hcount : n.executed = m.executed + 1 := by simpa [hstep] using m.executed_step
      have hsub : stop.2.executed - m.executed = stop.2.executed - n.executed + 1 := by omega
      refine ⟨by omega, last, hlast, hlength, ?_⟩
      rw [hsub, List.replicate_succ, List.cons_append, ← hanswers]
  | @waits steps m n hstops hstep =>
      have hcount : n.executed = m.executed := by simpa [hstep] using m.executed_step
      exact ⟨hcount.ge, [.ok false], by simp, by simp, by simp [hcount]⟩
  | @fails steps m n e hstops hstep =>
      have hcount : n.executed = m.executed := by simpa [hstep] using m.executed_step
      exact ⟨hcount.ge, [.error e], by simp, by simp, by simp [hcount]⟩

theorem Answered.length_le (h : Answered (some a) steps m answers stop) (hsteps : steps ≤ a) :
    steps + answers.length ≤ a := by
  induction h with
  | stops hstops => exact hsteps
  | executes hstops hstep _ ih =>
      have hlt : _ < a := (stopsFor?_eq_none.1 hstops).2 a rfl
      have := ih hlt
      rw [List.length_cons]
      omega
  | waits hstops hstep | fails hstops hstep =>
      have hlt : _ < a := (stopsFor?_eq_none.1 hstops).2 a rfl
      exact hlt

/-- A run that its budget ends has spent all of it. -/
theorem Answered.spent (h : Answered (some a) steps m answers stop) (hsteps : steps ≤ a)
    (hspent : stop.1 = .ok .budgetExhausted) : stop.2.executed + steps = m.executed + a := by
  induction h with
  | stops hstops =>
      cases hspent
      have := le_of_spent hstops
      simp only
      omega
  | @executes steps m n answers stop hstops hstep _ ih =>
      have hcount : n.executed = m.executed + 1 := by simpa [hstep] using m.executed_step
      have := ih ((stopsFor?_eq_none.1 hstops).2 a rfl) hspent
      omega
  | waits hstops hstep | fails hstops hstep => cases hspent

/-! ## Bounded runs -/

/-- A run with a budget of `a` instructions comes to its end after at most `a` steps. All of these but the last have
executed an instruction; the machine has counted them, and they are `a` if the budget ends the run. In any run the
round after a step that executed nothing is the last one. -/
theorem bounded_run_counts (m : Machine) (a : Nat) :
    (∃ result n, ∀ fuel, a < fuel →
      m.run fuel (some a) = some (result, n) ∧
        (m.stepAnswers fuel (some a)).length ≤ a ∧
        (∃ last, .ok true ∉ last ∧ last.length ≤ 1 ∧
          m.stepAnswers fuel (some a) = List.replicate (n.executed - m.executed) (.ok true) ++ last) ∧
        m.executed ≤ n.executed ∧ n.executed ≤ m.executed + a ∧
        (result = .ok .budgetExhausted → n.executed = m.executed + a)) ∧
      ∀ budget steps k steps' k', runRound budget (steps, k) = .inl (steps', k') → k.step.1 = .ok false →
        runRound budget (steps', k') = .inr (.ok .blockedOnInput, k') := by
  refine ⟨?_, fun budget steps k steps' k' => runRound_of_waits⟩
  obtain ⟨⟨result, n⟩, hrun⟩ := exists_run_within m a
  have hbound : 0 + (m.stepAnswers (a + 2) (some a)).length ≤ a := (answered_of_run hrun).length_le (Nat.zero_le a)
  refine ⟨result, n, fun fuel hfuel => ?_⟩
  have hends : m.run fuel (some a) = some (result, n) :=
    Loop.run_of_le (by omega) (answered_of_run hrun).loop
  have hanswered := answered_of_run hends
  have hlength : 0 + (m.stepAnswers fuel (some a)).length ≤ a := hanswered.length_le (Nat.zero_le a)
  obtain ⟨hle, last, hlast, hone, hanswers⟩ := hanswered.executed
  refine ⟨hends, by omega, ⟨last, hlast, hone, hanswers⟩, hle, ?_, fun hspent => ?_⟩
  · rw [hanswers, List.length_append, List.length_replicate] at hlength
    simp only at hle hlength
    omega
  · exact hanswered.spent (Nat.zero_le a) hspent

/-- A machine that emits 5 and then starves. -/
def crier : Machine :=
  ofImage #[104, 5, 3, 0, 99] .streaming

/-- A budget of 1 is spent on the emission. With 2 there is one step more, which executes nothing, and the round after
it is the last one. -/
theorem bounded_run_counts_crier :
    (∃ n, crier.run 2 (some 1) = some (.ok .budgetExhausted, n) ∧ n.executed = crier.executed + 1) ∧
      (∃ n, crier.run 3 (some 2) = some (.ok .blockedOnInput, n) ∧
        crier.stepAnswers 3 (some 2) = [.ok true, .ok false] ∧ (crier.stepAnswers 3 (some 2)).length ≤ 2) ∧
      runRound (some 2) (1, crier.step.2) = .inl (1, crier.step.2.block) ∧
      runRound (some 2) (1, crier.step.2.block) = .inr (.ok .blockedOnInput, crier.step.2.block) := by
  have hspent : crier.run 2 (some 1) = some (.ok .budgetExhausted, _) := rfl
  have hblocked : crier.run 3 (some 2) = some (.ok .blockedOnInput, _) := rfl
  obtain ⟨result, n, hone⟩ := (bounded_run_counts crier 1).1
  obtain ⟨result', n', htwo⟩ := (bounded_run_counts crier 2).1
  obtain ⟨hrun, -, -, -, -, hcount⟩ := hone 2 (by decide)
  obtain ⟨hrun', hlength, -⟩ := htwo 3 (by decide)
  have hlast := (bounded_run_counts crier 2).2 (some 2) 1 crier.step.2 1 crier.step.2.block rfl rfl
  cases hspent.symm.trans hrun
  exact ⟨⟨_, hspent, hcount rfl⟩, ⟨_, hblocked, rfl, hlength⟩, rfl, hlast⟩

end Intcode.Machine
