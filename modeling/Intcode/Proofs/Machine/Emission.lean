import Intcode.Proofs.Machine.Ending
import Intcode.Proofs.Machine.Failure

/-!
# What a run emits

Only output instructions emit anything, and each emits one word. What the output instructions of a run emit is
read off the machines that the run passes through, before each step of it, and not off the log.

The lemmas on runs ask nothing of the machine: a host may have written to one that waits. Main statements: the
log grows by what the output instructions emit (`output_of_run`), and a run that may execute something and does
not finds the machine at rest (`atRest_of_idle`).
-/

namespace Intcode

/-! ## Output instructions -/

theorem Instruction.emit_isSome_iff {i : Instruction} {m : Memory} {r : Registers} {offered : Option Word}
    {c : Change} (h : i.execute m r offered = .ok (.change c)) :
    c.emit.isSome = true ↔ i.opcode = .output := by
  unfold execute at h
  cases hop : i.opcode with
  | add | multiply | lessThan | equals =>
      rw [hop] at h
      obtain ⟨d, hd, -, hnone⟩ := combine_ok h
      cases hd
      simp [hnone]
  | jumpIfTrue | jumpIfFalse =>
      rw [hop] at h
      obtain ⟨d, hd, -, hnone⟩ := jump_ok h
      cases hd
      simp [hnone]
  | input =>
      rw [hop] at h
      obtain ⟨place, -, h⟩ := ok_of_bind h
      cases offered with
      | none => cases h
      | some w =>
          obtain ⟨t, -, h⟩ := ok_of_bind h
          cases h
          simp
  | output =>
      rw [hop] at h
      obtain ⟨w, -, h⟩ := ok_of_bind h
      obtain ⟨t, -, h⟩ := ok_of_bind h
      cases h
      simp
  | adjustBase =>
      rw [hop] at h
      obtain ⟨w, -, h⟩ := ok_of_bind h
      obtain ⟨t, -, h⟩ := ok_of_bind h
      obtain ⟨base, -, h⟩ := ok_of_bind h
      cases h
      simp
  | halt =>
      rw [hop] at h
      cases h

namespace Machine

variable {m n k : Machine} {budget : Option Nat} {steps fuel : Nat} {e : Effect} {es : List Effect}
  {result : Except Error Outcome} {outcome : Outcome} {ws : List Word}

/-- The word of the output instruction that the machine executes next, if it is one. -/
def emission (m : Machine) : Array Word :=
  match m.attempt with
  | .ok (i, .change c) => if i.opcode = .output then c.emit.toArray else #[]
  | _ => #[]

/-- What the output instructions of a run emit, in their order. -/
def emissions (fuel : Nat) (budget : Option Nat) (m : Machine) : List Word :=
  (m.runTrail emission fuel budget).toList

theorem emission_of_move (h : m.move? = some e) : m.emission.toList = emitted [e] := by
  obtain ⟨i, ha, hne⟩ := attempt_of_move h
  unfold emission
  rw [ha]
  cases e with
  | needInput => exact absurd rfl hne
  | halt => rfl
  | change c =>
      have hiff := Instruction.emit_isSome_iff (attempt_eq_ok.1 ha).2
      simp only [emitted, List.flatMap_singleton]
      by_cases hop : i.opcode = .output
      · rw [if_pos hop]
        cases c.emit <;> rfl
      · rw [if_neg hop]
        cases hemit : c.emit with
        | none => rfl
        | some w => exact absurd (hiff.1 (by rw [hemit]; rfl)) hop

theorem emission_of_still (hs : m.status ≠ .halted) (h : m.move? = none) : m.emission = #[] := by
  unfold emission
  cases ha : m.attempt with
  | error f => rfl
  | ok p =>
      obtain ⟨i, e⟩ := p
      cases e with
      | needInput | halt => rfl
      | change c =>
          rw [move?_of_attempt hs ha nofun] at h
          cases h

/-! ## The moves of a run -/

/-- Before its first step that is no move a run has made moves; then it may mark the machine as waiting. -/
theorem moves_of_loop (h : Loop.run (runRound budget) fuel (steps, m) = some (result, n)) :
    ∃ es k, Moves m es k ∧ (n = k ∨ n = k.block ∧ k.status ≠ .halted) ∧
      (∀ outcome, result = .ok outcome → n.stopsFor? budget (steps + es.length) = some outcome) ∧
      (Loop.trail (runRound budget)
        (fun s => if (s.2.stopsFor? budget s.1).isNone then s.2.emission else #[]) fuel (steps, m)
          #[]).toList = emitted es := by
  induction fuel generalizing steps m with
  | zero => cases h
  | succ fuel ih =>
      cases hstop : m.stopsFor? budget steps with
      | some outcome =>
          rw [Loop.run, runRound, hstop] at h
          cases h
          refine ⟨[], _, .refl _, .inl rfl, fun o ho => ?_, ?_⟩
          · cases ho
            exact hstop
          · rw [Loop.trail_succ, runRound]
            simp [hstop, emitted]
      | none =>
          have hready := (stopsFor?_eq_none.1 hstop).1
          cases hmove : m.move? with
          | some e =>
              rw [loop_of_move hstop hmove] at h
              obtain ⟨es, k, hes, hn, hends, htrail⟩ := ih h
              have hlen : steps + (e :: es).length = steps + 1 + es.length := by
                rw [List.length_cons]
                omega
              refine ⟨e :: es, k, .step hmove hes, hn, fun o ho => hlen ▸ hends o ho, ?_⟩
              rw [Loop.trail_succ, Array.toList_append, runRound]
              simp only [hstop, Option.isNone_none, if_true, step_of_move hmove, htrail,
                emission_of_move hmove]
              exact emitted_append.symm
          | none =>
              have hemission := emission_of_still hready.1 hmove
              cases hfault : m.fault? with
              | some cause =>
                  have hstep : m.step = (.error cause, m) := by rw [step_eq hready.1, hmove, hfault]
                  rw [loop_of_failure hstop hstep] at h
                  cases h
                  refine ⟨[], _, .refl _, .inl rfl, by rintro outcome ⟨⟩, ?_⟩
                  rw [Loop.trail_succ, runRound]
                  simp [hstop, hstep, hemission, emitted]
              | none =>
                  -- the machine is marked as waiting, and the next round sees that it is
                  have hstep : m.step = (.ok false, m.block) := by rw [step_eq hready.1, hmove, hfault]
                  have hblocked : m.block.stopsFor? budget steps = some .blockedOnInput :=
                    (starves_of_none hready.1 hmove hfault).1.stopsFor?_block
                  rw [Loop.run, runRound, hstop] at h
                  simp only [hstep] at h
                  cases fuel with
                  | zero => cases h
                  | succ fuel =>
                      rw [Loop.run, runRound, hblocked] at h
                      cases h
                      refine ⟨[], m, .refl m, .inr ⟨rfl, hready.1⟩, fun o ho => ?_, ?_⟩
                      · cases ho
                        exact hblocked
                      · rw [Loop.trail_succ, runRound]
                        simp only [hstop, hstep, hemission]
                        rw [Loop.trail_succ, runRound]
                        simp [hblocked, emitted]

theorem moves_of_run (h : m.run fuel budget = some (result, n)) :
    ∃ es k, Moves m es k ∧ (n = k ∨ n = k.block ∧ k.status ≠ .halted) ∧
      (∀ outcome, result = .ok outcome → n.stopsFor? budget es.length = some outcome) ∧
      m.emissions fuel budget = emitted es := by
  obtain ⟨es, k, hes, hn, hends, htrail⟩ := moves_of_loop h
  rw [Nat.zero_add] at hends
  exact ⟨es, k, hes, hn, hends, htrail⟩

/-- The log has grown by what the output instructions of the run emitted. -/
theorem output_of_run (h : m.run fuel budget = some (result, n)) :
    n.output.toList = m.output.toList ++ m.emissions fuel budget := by
  obtain ⟨es, k, hes, hn, -, hemissions⟩ := moves_of_run h
  rw [hemissions, ← hes.output]
  rcases hn with rfl | ⟨rfl, -⟩ <;> rfl

/-! ## Machines at rest -/

/-- The machine has halted, or it waits for input and has none queued. -/
def AtRest (m : Machine) : Prop :=
  m.status ≠ .halted → m.status = .blockedOnInput ∧ m.input = []

theorem AtRest.stopsFor? (h : m.AtRest) : ∃ outcome, m.stopsFor? budget steps = some outcome := by
  unfold Machine.stopsFor?
  by_cases hs : m.status = .halted
  · exact ⟨.halted, if_pos hs⟩
  · exact ⟨.blockedOnInput, by rw [if_neg hs, if_pos (h hs)]⟩

/-- Running a machine at rest does nothing. -/
theorem AtRest.run (h : m.AtRest) : ∃ outcome, m.run (fuel + 1) budget = some (.ok outcome, m) := by
  obtain ⟨outcome, hstop⟩ : ∃ outcome, m.stopsFor? budget 0 = some outcome := h.stopsFor?
  exact ⟨outcome, run_of_stops hstop⟩

/-- A machine at which a run stops is at rest, unless its budget is spent. -/
theorem atRest_of_stopsFor? (h : m.stopsFor? budget steps = some outcome) :
    m.AtRest ∨ budget.any (· ≤ steps) = true := by
  unfold Machine.stopsFor? at h
  split at h
  · rename_i hs
    exact .inl fun hne => absurd hs hne
  · split at h
    · rename_i hs
      exact .inl fun _ => hs
    · split at h
      · rename_i hbudget
        exact .inr hbudget
      · cases h

/-- A run without a budget leaves the machine at rest. -/
theorem atRest_of_run (h : m.run fuel none = some (.ok outcome, n)) : n.AtRest := by
  obtain ⟨es, -, -, -, hends, -⟩ := moves_of_run h
  rcases atRest_of_stopsFor? (hends outcome rfl) with hrest | hspent
  · exact hrest
  · cases hspent

/-- A run that may execute something and does not leaves the machine at rest, with its log as it was. -/
theorem atRest_of_idle (hbudget : budget ≠ some 0) (h : m.run fuel budget = some (.ok outcome, n))
    (hidle : n.executed = m.executed) : n.AtRest ∧ n.output = m.output := by
  obtain ⟨es, k, hes, hn, hends, -⟩ := moves_of_run h
  have hcount : n.executed = k.executed ∧ n.output = k.output := by
    rcases hn with rfl | ⟨rfl, -⟩ <;> exact ⟨rfl, rfl⟩
  rw [hes.executed] at hcount
  obtain rfl : es = [] := List.length_eq_zero_iff.1 (by omega)
  cases hes
  refine ⟨?_, hcount.2⟩
  rcases atRest_of_stopsFor? (hends outcome rfl) with hrest | hspent
  · exact hrest
  · cases budget with
    | none => cases hspent
    | some b =>
        obtain rfl : b = 0 := Nat.le_zero.1 (of_decide_eq_true hspent)
        exact absurd rfl hbudget

/-- A machine that gets input is at rest only if it has halted. -/
theorem atRest_extend_iff (hne : ws ≠ []) : (m.extend ws).AtRest ↔ m.status = .halted := by
  have hinput : m.input ++ ws ≠ [] := by simp [hne]
  rw [extend, if_neg (by simpa using hne)]
  constructor
  · intro h
    by_contra hs
    exact hinput (h fun hhalted => hs (resumed_eq_halted.1 hhalted)).2
  · intro hs hlive
    exact absurd (resumed_eq_halted.2 hs) hlive

end Machine

end Intcode
