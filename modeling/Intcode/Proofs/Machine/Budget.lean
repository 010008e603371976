import Intcode.Proofs.Machine.Emission

/-!
# Budgets

A budget decides only where a run stops, and nothing of what it does until then. A run that its budget does not stop is
therefore the run with any larger budget or with none, and from where a budget did stop it, a run goes on as if there
had been no stop.

The lemmas ask nothing of the machine: its host may have written to it while it waited. Main statement: budgets spent
one after the other come to what their sum comes to (`budgets_compose`).
-/

namespace Intcode.Machine

variable {m n : Machine} {budget : Option Nat} {a b steps fuel : Nat} {outcome : Outcome} {stop : RunEnd}
  {result : Except Error Outcome}

/-! ## Why a run stops -/

/-- It is for the machine to stop the run first, and for the budget after it. -/
theorem stopsFor?_eq :
    m.stopsFor? budget steps =
      (m.stopsFor? none 0).or (if budget.any (· ≤ steps) then some .budgetExhausted else none) := by
  unfold stopsFor?
  split
  · rfl
  · split <;> rfl

theorem stopsFor?_none_ne : m.stopsFor? none steps ≠ some .budgetExhausted := by
  unfold stopsFor?
  split
  · exact nofun
  · split <;> exact nofun

/-- What is not for the budget stops a run with any budget. -/
theorem stopsFor?_of_ne_spent {budget' : Option Nat} {steps' : Nat} (h : m.stopsFor? budget steps = some outcome)
    (hne : outcome ≠ .budgetExhausted) : m.stopsFor? budget' steps' = some outcome := by
  rw [stopsFor?_eq] at h ⊢
  cases hm : m.stopsFor? none 0 with
  | some o =>
      rw [hm] at h
      exact h
  | none =>
      rw [hm, Option.none_or] at h
      split at h <;> cases h
      exact absurd rfl hne

/-- After a step that found no input the run stops. -/
theorem stopsFor?_of_waits (h : m.step = (.ok false, n)) (hs : m.status ≠ .halted) :
    n.stopsFor? budget steps = some .blockedOnInput := by
  have hstepped := m.stepped_step
  rw [h] at hstepped
  cases hstepped with
  | rests hhalted => exact absurd hhalted hs
  | waits _ hstarves _ => exact hstarves.stopsFor?_block

theorem le_of_spent (h : m.stopsFor? (some a) steps = some .budgetExhausted) : a ≤ steps := by
  rcases atRest_of_stopsFor? h with hrest | hspent
  · obtain ⟨o, ho⟩ : ∃ o, m.stopsFor? none 0 = some o := hrest.stopsFor?
    rw [stopsFor?_eq, ho] at h
    cases h
    exact absurd ho stopsFor?_none_ne
  · simpa using hspent

/-! ## Rounds -/

/-- Where a budget does not stop the run, the round is that of any larger budget, and of none. -/
theorem runRound_of_larger (hallows : Allows budget a) (h : m.stopsFor? (some a) steps = none) :
    runRound budget (steps, m) = runRound (some a) (steps, m) := by
  obtain ⟨hready, hsteps⟩ := stopsFor?_eq_none.1 h
  have hlarger : m.stopsFor? budget steps = none :=
    stopsFor?_eq_none.2 ⟨hready, fun b hb => Nat.lt_of_lt_of_le (hsteps a rfl) (hallows b hb)⟩
  rw [runRound, runRound, h, hlarger]

/-- Instructions executed before do not matter to a budget that is larger by as many. -/
theorem runRound_shift (a : Nat) (budget : Option Nat) (s : Nat × Machine) :
    runRound (budget.map (a + ·)) (Prod.map (a + ·) id s) = (runRound budget s).map (Prod.map (a + ·) id) id := by
  obtain ⟨steps, m⟩ := s
  have hstops : m.stopsFor? (budget.map (a + ·)) (a + steps) = m.stopsFor? budget steps := by
    rw [stopsFor?_eq, @stopsFor?_eq m budget]
    cases budget <;> simp
  have hround := @round_runRound budget steps m
  generalize runRound budget (steps, m) = r at hround
  simp only [Prod.map, id, runRound, hstops]
  cases hround with
  | stops h => simp [h]
  | executes h hstep | waits h hstep | fails h hstep => simp [h, hstep, Nat.add_assoc]

/-! ## Bounded runs -/

/-- A run of at most `a` instructions takes at most `a + 2` rounds: one that executes nothing is followed by the
last. -/
theorem exists_run_within (m : Machine) (a : Nat) : ∃ stop, m.run (a + 2) (some a) = some stop := by
  refine @Loop.exists_run _ _ _ _ (0, m) (fun _ => True)
    (fun s => a - s.1 + if (s.2.stopsFor? (some a) s.1).isSome then 0 else 1) ?_ trivial ?_
  · rintro ⟨steps, m⟩ t - ht
    refine ⟨trivial, ?_⟩
    have hround := ht ▸ @round_runRound (some a) steps m
    cases hround with
    | executes hstops hstep =>
        have hlt : steps < a := (stopsFor?_eq_none.1 hstops).2 a rfl
        simp only [hstops, Option.isSome_none, Bool.false_eq_true, if_false]
        split <;> omega
    | waits hstops hstep =>
        simp [hstops, stopsFor?_of_waits hstep (stopsFor?_eq_none.1 hstops).1.1]
  · simp only
    split <;> omega

/-- A run that its budget does not stop is the run with any larger budget, and with none. -/
theorem loop_of_larger (hallows : Allows budget a) (hne : result ≠ .ok .budgetExhausted)
    (h : Loop.run (runRound (some a)) fuel (steps, m) = some (result, n)) :
    Loop.run (runRound budget) fuel (steps, m) = some (result, n) := by
  induction fuel generalizing steps m with
  | zero => cases h
  | succ fuel ih =>
      cases hstops : m.stopsFor? (some a) steps with
      | some outcome =>
          rw [Loop.run, runRound, hstops] at h
          cases h
          have hspent : outcome ≠ .budgetExhausted := fun ho => hne (congrArg Except.ok ho)
          rw [Loop.run, runRound, stopsFor?_of_ne_spent hstops hspent]
      | none =>
          rw [Loop.run] at h ⊢
          rw [runRound_of_larger hallows hstops]
          cases hround : runRound (some a) (steps, m) with
          | inl s =>
              rw [hround] at h
              exact ih h
          | inr stop =>
              rw [hround] at h
              exact h

/-- From where its budget stopped it a run goes on as the run with a larger budget, or with none. -/
theorem loop_of_spent (hallows : Allows budget a) (hsteps : steps ≤ a)
    (h : Loop.run (runRound (some a)) fuel (steps, m) = some (.ok .budgetExhausted, n)) :
    ∃ rounds, a ≤ steps + rounds ∧ ∀ more, Loop.run (runRound budget) (rounds + more) (steps, m) =
      Loop.run (runRound budget) more (a, n) := by
  induction fuel generalizing steps m with
  | zero => cases h
  | succ fuel ih =>
      have hround := @round_runRound (some a) steps m
      rw [Loop.run] at h
      generalize hr : runRound (some a) (steps, m) = r at h hround
      cases hround with
      | stops hstops =>
          cases h
          obtain rfl : steps = a := Nat.le_antisymm hsteps (le_of_spent hstops)
          exact ⟨0, Nat.le_refl _, fun more => by rw [Nat.zero_add]⟩
      | executes hstops hstep =>
          have hlt : steps < a := (stopsFor?_eq_none.1 hstops).2 a rfl
          obtain ⟨rounds, hle, hrounds⟩ := ih hlt h
          refine ⟨rounds + 1, by omega, fun more => ?_⟩
          rw [Nat.add_right_comm, Loop.run, runRound_of_larger hallows hstops, hr]
          exact hrounds more
      | waits hstops hstep =>
          obtain ⟨rounds, hle, hrounds⟩ := ih hsteps h
          refine ⟨rounds + 1, by omega, fun more => ?_⟩
          rw [Nat.add_right_comm, Loop.run, runRound_of_larger hallows hstops, hr]
          exact hrounds more
      | fails hstops hstep => cases h

theorem run_shift (a : Nat) (budget : Option Nat) (fuel : Nat) (m : Machine) :
    Loop.run (runRound (budget.map (a + ·))) fuel (a, m) = m.run fuel budget := by
  have hrun := @Loop.run_map _ _ (runRound (budget.map (a + ·))) fuel _ _ (runRound budget) (Prod.map (a + ·) id) id
    (runRound_shift a budget) (0, m)
  simpa [run] using hrun

theorem allows_map (a : Nat) (budget : Option Nat) : Allows (budget.map (a + ·)) a := by
  cases budget with
  | none => exact nofun
  | some b =>
      rintro c ⟨⟩
      exact Nat.le_add_right a b

/-! ## Runs one after another -/

/-- Where a run returned within its budget, the next one goes on to where a run with both budgets comes to. -/
theorem returns_resumed_iff (h : m.run fuel (some a) = some (.ok outcome, n)) :
    (∃ fuel, n.run fuel budget = some stop) ↔ ∃ fuel, m.run fuel (budget.map (a + ·)) = some stop := by
  have hallows := allows_map a budget
  by_cases hspent : outcome = .budgetExhausted
  · subst hspent
    obtain ⟨rounds, -, hrounds⟩ := loop_of_spent hallows (Nat.zero_le a) h
    have hresume : ∀ more, m.run (rounds + more) (budget.map (a + ·)) = n.run more budget := fun more =>
      (hrounds more).trans (run_shift a budget more n)
    constructor
    · rintro ⟨more, hrun⟩
      exact ⟨rounds + more, (hresume more).trans hrun⟩
    · rintro ⟨more, hrun⟩
      exact ⟨more, (hresume more).symm.trans (Loop.run_of_le (Nat.le_add_left more rounds) hrun)⟩
  · -- the machine stopped the first run and stops the second one at once
    obtain ⟨es, -, -, -, hstops, -⟩ := moves_of_run h
    have hagain : n.run 1 budget = some (.ok outcome, n) :=
      run_of_stops (stopsFor?_of_ne_spent (hstops outcome rfl) hspent)
    have hne : (Except.ok outcome : Except Error Outcome) ≠ .ok .budgetExhausted := by simpa using hspent
    have hlarger : m.run fuel (budget.map (a + ·)) = some (.ok outcome, n) := loop_of_larger hallows hne h
    constructor
    · rintro ⟨more, hrun⟩
      exact ⟨fuel, Loop.run_unique hagain hrun ▸ hlarger⟩
    · rintro ⟨more, hrun⟩
      exact ⟨1, Loop.run_unique hlarger hrun ▸ hagain⟩

/-- A run without a budget comes to an end if some budget is enough for it, and to the end it comes to with that. -/
theorem returns_unbounded_iff :
    (∃ fuel, m.run fuel none = some stop) ↔
      ∃ a fuel, m.run fuel (some a) = some stop ∧ stop.1 ≠ .ok .budgetExhausted := by
  constructor
  · rintro ⟨fuel, hrun⟩
    obtain ⟨⟨result, n⟩, hbounded⟩ := exists_run_within m fuel
    by_cases hspent : result = .ok .budgetExhausted
    · -- as many instructions as there were rounds would leave no round for the end
      subst hspent
      have hallows : Allows none fuel := nofun
      obtain ⟨rounds, hle, hrounds⟩ := loop_of_spent hallows (Nat.zero_le fuel) hbounded
      have hnone := hrounds 0
      rw [Nat.add_zero, Loop.run_of_le (by omega : fuel ≤ rounds) hrun] at hnone
      cases hnone
    · have hsame : m.run (fuel + 2) none = some (result, n) := loop_of_larger nofun hspent hbounded
      obtain rfl : stop = (result, n) := Loop.run_unique hrun hsame
      exact ⟨fuel, fuel + 2, hbounded, hspent⟩
  · rintro ⟨a, fuel, hrun, hne⟩
    obtain ⟨result, n⟩ := stop
    exact ⟨fuel, loop_of_larger nofun hne hrun⟩

/-- A run within a budget always comes to an end. If it returns, the next run comes to the same end as one run with
the sum of the budgets, or without a budget if the next has none; if it fails, a run with a larger budget fails alike.
A run without a budget comes to the end of any run that its budget does not stop, and to no other. -/
theorem budgets_compose (m : Machine) (a b : Nat) :
    (∃ stop, m.run (a + 2) (some a) = some stop) ∧
      (∀ fuel outcome n, m.run fuel (some a) = some (.ok outcome, n) →
        (∃ stop, n.run (b + 2) (some b) = some stop ∧ m.run (a + b + 2) (some (a + b)) = some stop) ∧
          ∀ stop, (∃ fuel, n.run fuel none = some stop) ↔ ∃ fuel, m.run fuel none = some stop) ∧
      (∀ fuel e n, m.run fuel (some a) = some (.error e, n) →
        m.run (a + b + 2) (some (a + b)) = some (.error e, n)) ∧
      ∀ stop, (∃ fuel, m.run fuel none = some stop) ↔
        ∃ c fuel, m.run fuel (some c) = some stop ∧ stop.1 ≠ .ok .budgetExhausted := by
  obtain ⟨stop, hsum⟩ := exists_run_within m (a + b)
  refine ⟨exists_run_within m a, fun fuel outcome n h => ⟨?_, fun _ => returns_resumed_iff h⟩, fun fuel e n h => ?_,
    fun _ => returns_unbounded_iff⟩
  · obtain ⟨stop', hnext⟩ := exists_run_within n b
    obtain ⟨fuel', hsum'⟩ := (@returns_resumed_iff _ _ (some b) _ _ _ _ h).1 ⟨b + 2, hnext⟩
    exact ⟨stop', hnext, Loop.run_unique hsum hsum' ▸ hsum⟩
  · have hlarger : m.run fuel (some (a + b)) = some (.error e, n) := loop_of_larger (allows_map a (some b)) nofun h
    exact Loop.run_unique hsum hlarger ▸ hsum

/-- A machine that emits 5 and then starves. A budget of 1 stops it before it is seen to starve, and with 1 more it is
blocked, as with 2 at once. -/
theorem budgets_compose_starved :
    ∃ n stop, (ofImage #[104, 5, 3, 0, 99] .streaming).run 3 (some 1) = some (.ok .budgetExhausted, n) ∧
      n.run 3 (some 1) = some stop ∧ (ofImage #[104, 5, 3, 0, 99] .streaming).run 4 (some 2) = some stop ∧
      stop.1 = .ok .blockedOnInput ∧ stop.2.output = #[5] := by
  have hspent : (ofImage #[104, 5, 3, 0, 99] .streaming).run 3 (some 1) = some (.ok .budgetExhausted, _) := rfl
  obtain ⟨stop, hnext, hsum⟩ := ((budgets_compose _ 1 1).2.1 _ _ _ hspent).1
  have hblocked : some (.ok .blockedOnInput, _) = some stop := hsum
  cases hblocked
  exact ⟨_, _, hspent, hnext, hsum, rfl, rfl⟩

end Intcode.Machine
