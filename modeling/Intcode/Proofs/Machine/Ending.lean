import Intcode.Proofs.Machine.Move

/-!
# How a run ends

A machine is honest if it is marked as waiting only where it waits. The run of an honest machine makes
moves, as many as its budget allows, until it stands still; then it ends as the machine stands (`Ends`).

Main statement: the runs with enough fuel are the runs of this description (`exists_run_iff`).
-/

namespace Intcode.Machine

variable {m n : Machine} {budget : Option Nat} {steps fuel : Nat} {e : Effect} {es : List Effect}
  {ws : List Word} {stop : RunEnd}

/-! ## Honest machines -/

/-- The machine is marked as waiting for input only if it is a streaming one and its instruction waits. -/
def Honest (m : Machine) : Prop :=
  m.status = .blockedOnInput → m.policy = .streaming ∧ m.Starves

theorem Honest.of_status (h : m.status ≠ .blockedOnInput) : m.Honest :=
  fun hs => absurd hs h

theorem Honest.of_running (h : m.status = .running) : m.Honest := by
  refine Honest.of_status ?_
  rw [h]
  exact nofun

theorem Honest.extend (hm : m.Honest) (ws : List Word) : (m.extend ws).Honest := by
  unfold Machine.extend
  split
  · exact hm
  · refine Honest.of_status ?_
    cases m.status <;> exact nofun

theorem Honest.takeOutput (hm : m.Honest) : m.takeOutput.2.Honest := hm

theorem Honest.block (hs : m.status ≠ .halted) (hmove : m.move? = none) (hfault : m.fault? = none) :
    m.block.Honest :=
  fun _ => ⟨(starves_of_none hs hmove hfault).2, (starves_of_none hs hmove hfault).1⟩

theorem Moves.honest (h : Moves m es n) (hm : m.Honest) : n.Honest := by
  cases es with
  | nil =>
      cases h
      exact hm
  | cons e es => exact Honest.of_status (h.status nofun)

/-! ## Ends -/

def Allows (budget : Option Nat) (steps : Nat) : Prop :=
  ∀ b ∈ budget, steps ≤ b

/-- How a run ends at a machine after `steps` instructions. -/
inductive Ends (budget : Option Nat) (steps : Nat) (m : Machine) : RunEnd → Prop where
  | halted (hs : m.status = .halted) : Ends budget steps m (.ok .halted, m)
  /-- A machine that waits already is not held up by a spent budget. -/
  | blocked (hs : m.status ≠ .halted) (hmove : m.move? = none) (hfault : m.fault? = none)
      (hk : m.status = .blockedOnInput ∨ budget ≠ some steps) :
      Ends budget steps m (.ok .blockedOnInput, m.block)
  | spent (hs : m.status = .running) (hk : budget = some steps) :
      Ends budget steps m (.ok .budgetExhausted, m)
  | failed {cause : Error} (hs : m.status = .running) (hmove : m.move? = none)
      (hfault : m.fault? = some cause) (hk : budget ≠ some steps) :
      Ends budget steps m (.error cause, m)

theorem Ends.unique {stop' : RunEnd} (h : Ends budget steps m stop) (h' : Ends budget steps m stop') :
    stop = stop' := by
  cases h with
  | halted hs =>
      cases h' with
      | halted _ => rfl
      | blocked hs' _ _ _ => exact absurd hs hs'
      | spent hs' _ | failed hs' _ _ _ => rw [hs] at hs'; cases hs'
  | blocked hs _ hfault hk =>
      cases h' with
      | halted hs' => exact absurd hs' hs
      | blocked _ _ _ _ => rfl
      | spent hs' hk' =>
          rcases hk with hk | hk
          · rw [hs'] at hk; cases hk
          · exact absurd hk' hk
      | failed _ _ hfault' _ => rw [hfault] at hfault'; cases hfault'
  | spent hs hk =>
      cases h' with
      | halted hs' => rw [hs] at hs'; cases hs'
      | blocked _ _ _ hk' =>
          rcases hk' with hk' | hk'
          · rw [hs] at hk'; cases hk'
          · exact absurd hk hk'
      | spent _ _ => rfl
      | failed _ _ _ hk' => exact absurd hk hk'
  | failed hs _ hfault hk =>
      cases h' with
      | halted hs' => rw [hs] at hs'; cases hs'
      | blocked _ _ hfault' _ => rw [hfault] at hfault'; cases hfault'
      | spent _ hk' => exact absurd hk' hk
      | failed _ _ hfault' _ => rw [hfault] at hfault'; cases hfault'; rfl

theorem Ends.move?_eq_none (h : Ends budget steps m stop) (hk : budget ≠ some steps) :
    m.move? = none := by
  cases h with
  | halted hs => rw [Machine.move?, if_pos hs]
  | blocked _ hmove _ _ | failed _ hmove _ _ => exact hmove
  | spent _ hk' => exact absurd hk' hk

theorem Ends.policy (h : Ends budget steps m stop) :
    stop.2.policy = m.policy := by
  cases h <;> rfl

theorem Ends.executed (h : Ends budget steps m stop) :
    stop.2.executed = m.executed := by
  cases h <;> rfl

theorem Ends.output (h : Ends budget steps m stop) :
    stop.2.output = m.output := by
  cases h <;> rfl

/-- A run makes moves within its budget and ends where they lead. -/
def RunsTo (m : Machine) (budget : Option Nat) (stop : RunEnd) : Prop :=
  ∃ es n, Moves m es n ∧ Allows budget es.length ∧ Ends budget es.length n stop

theorem any_le_eq_true (h : Allows budget steps) : budget.any (· ≤ steps) = true ↔ budget = some steps := by
  cases budget with
  | none => simp
  | some b =>
      have := h b rfl
      simp only [Option.any_some, decide_eq_true_eq, Option.some.injEq]
      omega

theorem allows_succ (h : Allows budget steps) (hk : budget ≠ some steps) : Allows budget (steps + 1) := by
  rintro b rfl
  have := h b rfl
  have hne : b ≠ steps := fun hb => hk (congrArg some hb)
  omega

theorem block_eq_self (hs : m.status = .blockedOnInput) : m.block = m := by
  cases m
  cases hs
  rfl

/-- A run stops before a step exactly if the machine has ended there already. -/
theorem Honest.stopsFor? (hm : m.Honest) (h : Allows budget steps) :
    match m.stopsFor? budget steps with
    | some outcome => Ends budget steps m (.ok outcome, m)
    | none => m.status = .running ∧ budget ≠ some steps := by
  unfold Machine.stopsFor?
  cases hs : m.status with
  | halted =>
      rw [if_pos rfl]
      exact .halted hs
  | blockedOnInput =>
      obtain ⟨hpolicy, hstarves⟩ := hm hs
      rw [if_neg nofun, if_pos ⟨rfl, hstarves.input⟩]
      have hend : Ends budget steps m (.ok .blockedOnInput, m.block) :=
        .blocked (not_halted_of_waiting hs) hstarves.move? (hstarves.fault? hpolicy) (.inl hs)
      rwa [block_eq_self hs] at hend
  | running =>
      rw [if_neg nofun, if_neg fun hb => nomatch hb.1]
      by_cases hk : budget = some steps
      · rw [if_pos ((any_le_eq_true h).2 hk)]
        exact .spent hs hk
      · rw [if_neg fun hany => hk ((any_le_eq_true h).1 hany)]
        exact ⟨rfl, hk⟩

/-! ## From the loop to its description -/

theorem ends_of_loop (hm : m.Honest) (hsteps : Allows budget steps)
    (h : Loop.run (runRound budget) fuel (steps, m) = some stop) :
    ∃ es n, Moves m es n ∧ Allows budget (steps + es.length) ∧
      Ends budget (steps + es.length) n stop := by
  induction fuel generalizing steps m with
  | zero => cases h
  | succ fuel ih =>
      rw [Loop.run, runRound] at h
      have hstops := hm.stopsFor? hsteps
      cases ho : m.stopsFor? budget steps with
      | some outcome =>
          rw [ho] at h hstops
          cases h
          exact ⟨[], m, .refl m, hsteps, hstops⟩
      | none =>
          rw [ho] at h hstops
          obtain ⟨hs, hk⟩ := hstops
          have hhalt := not_halted_of_running hs
          simp only [step_eq hhalt] at h
          cases hmove : m.move? with
          | some e =>
              rw [hmove] at h
              have hafter : (m.after e).Honest := Honest.of_status (status_after hmove)
              obtain ⟨es, n, hes, hallows, hend⟩ := ih hafter (allows_succ hsteps hk) h
              have hlen : steps + (e :: es).length = steps + 1 + es.length := by
                rw [List.length_cons]
                omega
              exact ⟨e :: es, n, .step hmove hes, hlen ▸ hallows, hlen ▸ hend⟩
          | none =>
              cases hfault : m.fault? with
              | some cause =>
                  rw [hmove, hfault] at h
                  cases h
                  exact ⟨[], m, .refl m, hsteps, .failed hs hmove hfault hk⟩
              | none =>
                  -- the machine is marked as waiting, and the next round sees that it is
                  rw [hmove, hfault] at h
                  change Loop.run (runRound budget) fuel (steps, m.block) = some stop at h
                  have hend : Ends budget steps m (.ok .blockedOnInput, m.block) :=
                    .blocked hhalt hmove hfault (.inr hk)
                  obtain ⟨hstarves, -⟩ := starves_of_none hhalt hmove hfault
                  cases fuel with
                  | zero => cases h
                  | succ fuel =>
                      rw [Loop.run, runRound, hstarves.stopsFor?_block] at h
                      cases h
                      exact ⟨[], m, .refl m, hsteps, hend⟩

/-! ## From the description to the loop -/

theorem loop_of_ends (hm : m.Honest) (hes : Moves m es n) (hallows : Allows budget (steps + es.length))
    (hend : Ends budget (steps + es.length) n stop) :
    Loop.run (runRound budget) (es.length + 2) (steps, m) = some stop := by
  induction hes generalizing steps with
  | refl m =>
      rw [List.length_nil, Nat.add_zero] at hallows hend
      have hstops := hm.stopsFor? hallows
      rw [List.length_nil, Nat.zero_add, Loop.run, runRound]
      cases ho : m.stopsFor? budget steps with
      | some outcome =>
          rw [ho] at hstops
          exact congrArg some (hstops.unique hend)
      | none =>
          rw [ho] at hstops
          obtain ⟨hs, hk⟩ := hstops
          cases hend with
          | halted hs' => rw [hs] at hs'; cases hs'
          | spent _ hk' => exact absurd hk' hk
          | failed _ hmove hfault _ =>
              have hhalt := not_halted_of_running hs
              simp only [step_eq hhalt, hmove, hfault]
          | blocked hhalt hmove hfault _ =>
              obtain ⟨hstarves, -⟩ := starves_of_none hhalt hmove hfault
              simp only [step_eq hhalt, hmove, hfault]
              rw [Loop.run, runRound, hstarves.stopsFor?_block]
  | @step m n e es hmove hrest ih =>
      have hlen : steps + (e :: es).length = steps + 1 + es.length := by
        rw [List.length_cons]
        omega
      rw [hlen] at hallows hend
      have hsteps : Allows budget steps := fun b hb => by
        have := hallows b hb
        omega
      have hk : budget ≠ some steps := by
        rintro rfl
        have := hallows steps rfl
        omega
      have hstops := hm.stopsFor? hsteps
      rw [List.length_cons, Nat.add_right_comm, Loop.run, runRound]
      cases ho : m.stopsFor? budget steps with
      | some outcome =>
          rw [ho] at hstops
          rw [hstops.move?_eq_none hk] at hmove
          cases hmove
      | none =>
          simp only [step_eq (not_halted_of_move hmove), hmove]
          exact ih (Honest.of_status (status_after hmove)) hallows hend

/-! ## Runs -/

/-- With enough fuel a run ends as described, and a run that ends does so. -/
theorem exists_run_iff (hm : m.Honest) :
    (∃ fuel, m.run fuel budget = some stop) ↔ RunsTo m budget stop := by
  constructor
  · rintro ⟨fuel, h⟩
    obtain ⟨es, n, hes, hallows, hend⟩ := ends_of_loop hm (fun b _ => Nat.zero_le b) h
    rw [Nat.zero_add] at hallows hend
    exact ⟨es, n, hes, hallows, hend⟩
  · rintro ⟨es, n, hes, hallows, hend⟩
    refine ⟨es.length + 2, loop_of_ends hm hes ?_ ?_⟩
    · rwa [Nat.zero_add]
    · rwa [Nat.zero_add]

theorem run_of_ends (hm : m.Honest) (hes : Moves m es n) (hallows : Allows budget es.length)
    (hend : Ends budget es.length n stop) (hfuel : es.length + 2 ≤ fuel) :
    m.run fuel budget = some stop := by
  refine Loop.run_of_le hfuel (loop_of_ends hm hes ?_ ?_)
  · rwa [Nat.zero_add]
  · rwa [Nat.zero_add]

theorem Ends.honest (h : Ends budget steps n stop) (hn : n.Honest) : stop.2.Honest := by
  cases h with
  | halted _ | spent _ _ | failed _ _ _ _ => exact hn
  | blocked hs hmove hfault _ => exact Honest.block hs hmove hfault

theorem Honest.run (hm : m.Honest) (h : m.run fuel budget = some stop) : stop.2.Honest := by
  obtain ⟨es, n, hes, -, hend⟩ := (exists_run_iff hm).1 ⟨fuel, h⟩
  exact hend.honest (hes.honest hm)

/-- A run keeps the image of the machine and its policy. -/
theorem kept_of_run (h : m.run fuel budget = some stop) :
    stop.2.image = m.image ∧ stop.2.policy = m.policy := by
  refine run_keeps (P := fun k => k.image = m.image ∧ k.policy = m.policy) ?_ ⟨rfl, rfl⟩ h
  rintro k ⟨himage, hpolicy⟩
  exact ⟨step_kept.1.trans himage, step_kept.2.trans hpolicy⟩

/-- A run that stops before its first step does nothing. -/
theorem run_of_stops {outcome : Outcome} (h : m.stopsFor? budget 0 = some outcome) :
    m.run (fuel + 1) budget = some (.ok outcome, m) := by
  rw [Machine.run, Loop.run, runRound, h]

/-- A run of a machine that is marked as waiting does nothing while there is no input. -/
theorem run_of_waiting (hs : m.status = .blockedOnInput) (hempty : m.input = []) :
    m.run (fuel + 1) budget = some (.ok .blockedOnInput, m) :=
  run_of_stops (by rw [Machine.stopsFor?, if_neg (not_halted_of_waiting hs), if_pos ⟨hs, hempty⟩])

/-! ## Runs that end -/

/-- A machine has ended if its budget is spent or it makes no move. -/
theorem exists_ends (hm : m.Honest) (h : budget = some steps ∨ m.move? = none) :
    ∃ stop, Ends budget steps m stop := by
  cases hs : m.status with
  | halted => exact ⟨_, .halted hs⟩
  | blockedOnInput =>
      obtain ⟨hpolicy, hstarves⟩ := hm hs
      have hhalt : m.status ≠ .halted := not_halted_of_waiting hs
      exact ⟨_, .blocked hhalt hstarves.move? (hstarves.fault? hpolicy) (.inl hs)⟩
  | running =>
      by_cases hk : budget = some steps
      · exact ⟨_, .spent hs hk⟩
      · have hmove := h.resolve_left hk
        have hhalt := not_halted_of_running hs
        cases hfault : m.fault? with
        | none => exact ⟨_, .blocked hhalt hmove hfault (.inr hk)⟩
        | some cause => exact ⟨_, .failed hs hmove hfault hk⟩

/-- A machine that makes no more than `bound` moves comes to an end within any budget. -/
theorem exists_moves_ends (hm : m.Honest) {bound : Nat}
    (hbound : ∀ es n, Moves m es n → es.length ≤ bound) (hsteps : Allows budget steps) :
    ∃ es n stop, Moves m es n ∧ Allows budget (steps + es.length) ∧
      Ends budget (steps + es.length) n stop := by
  induction bound generalizing m steps with
  | zero =>
      have hmove : m.move? = none := by
        cases hmove : m.move? with
        | none => rfl
        | some e => exact absurd (hbound _ _ (.step hmove (.refl _))) (by simp)
      obtain ⟨stop, hend⟩ := exists_ends hm (Or.inr hmove)
      exact ⟨[], m, stop, .refl m, hsteps, hend⟩
  | succ bound ih =>
      by_cases hk : budget = some steps
      · obtain ⟨stop, hend⟩ := exists_ends hm (Or.inl hk)
        exact ⟨[], m, stop, .refl m, hsteps, hend⟩
      · cases hmove : m.move? with
        | none =>
            have hdone : budget = some steps ∨ m.move? = none := Or.inr hmove
            obtain ⟨stop, hend⟩ := exists_ends hm hdone
            exact ⟨[], m, stop, .refl m, hsteps, hend⟩
        | some e =>
            have hafter : ∀ es n, Moves (m.after e) es n → es.length ≤ bound := fun es n hes =>
              Nat.le_of_succ_le_succ (hbound (e :: es) n (.step hmove hes))
            obtain ⟨es, n, stop, hes, hallows, hend⟩ :=
              ih (Honest.of_status (status_after hmove)) hafter (allows_succ hsteps hk)
            have hlen : steps + (e :: es).length = steps + 1 + es.length := by
              rw [List.length_cons]
              omega
            exact ⟨e :: es, n, stop, .step hmove hes, hlen ▸ hallows, hlen ▸ hend⟩

end Intcode.Machine
