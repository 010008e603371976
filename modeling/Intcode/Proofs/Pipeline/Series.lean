import Intcode.Proofs.Pipeline.Deadlock

/-!
# Machines in series

Without feedback and without a turn budget a pipeline is a series: each machine runs alone, once, on what was
queued for it and what the one before it emitted. The first round is that series. After it all machines are at
rest and their logs are empty, so a second round changes nothing; there is one only because the first has
executed something and not all machines have halted, and it ends in a deadlock.

Main statement: the end of such a pipeline is read off the end of its series (`returns_iff_series`).
-/

namespace Intcode

/-- The run of the machine within this budget comes to this end. -/
def Machine.Returns (m : Machine) (budget : Option Nat) (stop : Machine.RunEnd) : Prop :=
  ∃ fuel, m.run fuel budget = some stop

namespace Pipeline

variable {ms starts machines : List Machine} {fuel index : Nat} {budget : Option Nat} {feedback : Bool}
  {incoming last : Array Word} {input : List Word} {t : Turns} {stop : RunEnd}

/-! ## Series -/

/-- Machines one after another: each runs alone on its queue and the words handed to it, and what is then in its
log is taken away and handed to the next one. A failure is the end. -/
inductive Series : (index : Nat) → (incoming : Array Word) → List Machine → RunEnd → Prop where
  | nil {index : Nat} {incoming : Array Word} : Series index incoming [] (.ok incoming, [])
  | failed {index : Nat} {incoming : Array Word} {m n : Machine} {ms : List Machine} {cause : Intcode.Error} :
      (m.extend incoming.toList).Returns none (.error cause, n) →
      Series index incoming (m :: ms) (.error (.machine index cause), n :: ms)
  | passed {index : Nat} {incoming : Array Word} {m n : Machine} {ms machines : List Machine} {outcome : Outcome}
      {result : Except Error (Array Word)} :
      (m.extend incoming.toList).Returns none (.ok outcome, n) →
      Series (index + 1) n.output ms (result, machines) →
      Series index incoming (m :: ms) (result, n.takeOutput.2 :: machines)

theorem series_of_turns (ht : turns fuel none index incoming ms = some t) :
    Series index incoming ms (t.result, t.machines) := by
  induction ms generalizing index incoming t with
  | nil =>
      cases ht
      exact .nil
  | cons m ms ih =>
      rcases turns_cons.1 ht with ⟨e, n, hrun, rfl⟩ | ⟨outcome, n, rest, hrun, hrest, rfl⟩
      · exact .failed ⟨fuel, hrun⟩
      · exact .passed ⟨fuel, hrun⟩ (ih hrest)

theorem Series.exists_turns (h : Series index incoming ms stop) :
    ∃ fuel t, turns fuel none index incoming ms = some t ∧ (t.result, t.machines) = stop := by
  induction h with
  | nil => exact ⟨0, _, rfl, rfl⟩
  | failed hrun =>
      obtain ⟨fuel, hrun⟩ := hrun
      exact ⟨fuel, _, turns_cons.2 (.inl ⟨_, _, hrun, rfl⟩), rfl⟩
  | passed hrun _ ih =>
      obtain ⟨fuel, hrun⟩ := hrun
      obtain ⟨more, rest, hrest, hstop⟩ := ih
      cases hstop
      have hrun' := Loop.run_of_le (Nat.le_max_left fuel more) hrun
      have hrest' := turns_of_le (Nat.le_max_right fuel more) hrest
      exact ⟨max fuel more, _, turns_cons.2 (.inr ⟨_, _, rest, hrun', hrest', rfl⟩), rfl⟩

/-- A series without a failure leaves its machines at rest, with empty logs. -/
theorem Series.atRest (h : Series index incoming ms (.ok last, machines)) :
    (∀ m ∈ machines, m.AtRest) ∧ ∀ m ∈ machines, m.output = #[] := by
  generalize hstop : ((.ok last, machines) : RunEnd) = stop at h
  induction h generalizing machines with
  | nil =>
      cases hstop
      exact ⟨nofun, nofun⟩
  | failed _ => cases hstop
  | @passed _ _ _ n _ machines _ _ hrun _ ih =>
      cases hstop
      obtain ⟨fuel, hrun⟩ := hrun
      have hn : n.AtRest := Machine.atRest_of_run hrun
      obtain ⟨hrest, hdrained⟩ := ih rfl
      exact ⟨List.forall_mem_cons.2 ⟨hn, hrest⟩, List.forall_mem_cons.2 ⟨rfl, hdrained⟩⟩

/-! ## The first round -/

theorem turns_feed (hne : ms ≠ []) (ws : Array Word) :
    turns fuel budget index #[] (feed ws ms) = turns fuel budget index ws ms := by
  cases ms with
  | nil => exact absurd rfl hne
  | cons m ms =>
      have hnothing : (m.extend ws.toList).extend #[].toList = m.extend ws.toList := rfl
      simp only [feed, turns, hnothing, Machine.extend_executed]

/-- The turns made no progress if and only if every machine has executed as much as before. -/
theorem progress_iff (ht : turns fuel budget index incoming ms = some t) (hok : t.result = .ok last) :
    t.progress = false ↔ t.machines.map Machine.executed = ms.map Machine.executed := by
  induction ms generalizing index incoming t with
  | nil =>
      cases ht
      simp
  | cons m ms ih =>
      rcases turns_cons.1 ht with ⟨e, n, -, rfl⟩ | ⟨outcome, n, rest, -, hrest, rfl⟩
      · cases hok
      · rw [Bool.or_eq_false_iff, ih hrest hok, List.map_cons, List.map_cons, List.cons.injEq]
        simp [Machine.takeOutput]

theorem exists_turns_of_run (hne : ms ≠ []) (hbudget : budget ≠ some 0)
    (h : run fuel ⟨ms, feedback, budget⟩ input = some stop) :
    ∃ t, turns fuel budget 0 input.toArray ms = some t := by
  rw [run_eq hne hbudget] at h
  cases fuel with
  | zero => cases h
  | succ fuel =>
      cases ht : turns (fuel + 1) budget 0 input.toArray ms with
      | none =>
          rw [Loop.run, round, turns_feed hne, ht] at h
          cases h
      | some t => exact ⟨t, rfl⟩

/-! ## Pipelines in series -/

/-- How the pipeline ends whose series comes to this end: with the failure, with the words of the last machine, or
in a deadlock, in the second round if some machine has executed something and in the first if none has. -/
def verdict (starts : List Machine) : RunEnd → RunEnd
  | (.error e, machines) => (.error e, machines)
  | (.ok emitted, machines) =>
    if machines.all Machine.isHalted then (.ok emitted, machines)
    else if machines.map Machine.executed = starts.map Machine.executed then (.error (.deadlock 1), machines)
    else (.error (.deadlock 2), machines)

/-- A round without feedback in which no machine failed. -/
theorem round_of_ok {p : Progress} (ht : turns fuel budget 0 #[] p.machines = some t) (hok : t.result = .ok last) :
    round fuel budget false p =
      if t.machines.all Machine.isHalted then .inr (some (.ok (p.emitted ++ last), t.machines))
      else if t.progress then .inl ⟨t.machines, p.rounds + 1, p.emitted ++ last⟩
      else .inr (some (.error (.deadlock (p.rounds + 1)), t.machines)) := by
  rw [round_of_turns ht, close, hok]
  cases hhalted : t.machines.all Machine.isHalted <;> cases hprogress : t.progress <;> simp [hhalted]

/-- Once all machines are at rest with empty logs, a round changes nothing. -/
theorem round_of_atRest {p : Progress} (hrest : ∀ m ∈ p.machines, m.AtRest)
    (hdrained : ∀ m ∈ p.machines, m.output = #[]) (hlive : p.machines.all Machine.isHalted = false) :
    round (fuel + 1) budget false p = .inr (some (.error (.deadlock (p.rounds + 1)), p.machines)) := by
  rw [round_of_ok (turns_of_atRest hrest hdrained) rfl, hlive]
  rfl

theorem Series.returns (hne : starts ≠ []) (h : Series 0 input.toArray starts stop) :
    Returns ⟨starts, false, none⟩ input (verdict starts stop) := by
  have hbudget : (none : Option Nat) ≠ some 0 := nofun
  obtain ⟨fuel, t, ht, rfl⟩ := h.exists_turns
  have hturns : turns (fuel + 2) none 0 #[] (feed input.toArray starts) = some t := by
    rw [turns_feed hne]
    exact turns_of_le (Nat.le_add_right fuel 2) ht
  refine ⟨fuel + 2, ?_⟩
  cases hresult : t.result with
  | error e =>
      rw [run_eq hne hbudget, Loop.run, round_of_turns hturns, close, hresult]
      rfl
  | ok last =>
      rw [hresult] at h
      have hprogress := progress_iff ht hresult
      rw [run_eq hne hbudget, Loop.run, round_of_ok hturns hresult, verdict, Array.empty_append]
      cases hhalted : t.machines.all Machine.isHalted with
      | true => rfl
      | false =>
          cases hmoved : t.progress with
          | false =>
              rw [if_pos (hprogress.1 hmoved)]
              rfl
          | true =>
              have hexecuted : t.machines.map Machine.executed ≠ starts.map Machine.executed := by
                rw [ne_eq, ← hprogress, hmoved]
                exact Bool.noConfusion
              obtain ⟨hrest, hdrained⟩ := h.atRest
              have hsecond : round (fuel + 2) none false ⟨t.machines, 1, last⟩ =
                  .inr (some (.error (.deadlock 2), t.machines)) := round_of_atRest hrest hdrained hhalted
              have hloop : Loop.run (round (fuel + 2) none false) (fuel + 1) ⟨t.machines, 1, last⟩ =
                  some (some (.error (.deadlock 2), t.machines)) := by rw [Loop.run, hsecond]
              rw [if_neg hexecuted]
              exact congrArg (Option.bind · id) hloop

/-- The end of a pipeline without feedback and without a turn budget is the verdict on the end of its series, and
it ends if and only if its series does. -/
theorem returns_iff_series (hne : starts ≠ []) :
    Returns ⟨starts, false, none⟩ input stop ↔
      ∃ ending, Series 0 input.toArray starts ending ∧ stop = verdict starts ending := by
  constructor
  · intro h
    have hbudget : (none : Option Nat) ≠ some 0 := nofun
    have hrun : ∃ fuel, run fuel ⟨starts, false, none⟩ input = some stop := h
    obtain ⟨fuel, hrun⟩ := hrun
    obtain ⟨t, ht⟩ := exists_turns_of_run hne hbudget hrun
    have hseries := series_of_turns ht
    exact ⟨_, hseries, h.unique (hseries.returns hne)⟩
  · rintro ⟨ending, hseries, rfl⟩
    exact hseries.returns hne

/-- A machine that emits a word and waits for one, and a machine that passes on a word. -/
def relay : List Machine :=
  [.ofImage #[104, 5, 3, 0, 99] .streaming, .ofImage #[3, 0, 4, 0, 99] .streaming]

/-- The series of lone runs gives a word; but the first machine still waits, so the pipeline returns no words. -/
theorem returns_iff_series_relay :
    ∃ machines, Series 0 #[] relay (.ok #[5], machines) ∧
      Returns ⟨relay, false, none⟩ [] (.error (.deadlock 2), machines) := by
  have hseries : Series 0 #[] relay (.ok #[5], _) := .passed ⟨4, rfl⟩ (.passed ⟨5, rfl⟩ .nil)
  exact ⟨_, hseries, (returns_iff_series (by decide)).2 ⟨_, hseries, rfl⟩⟩

end Pipeline

end Intcode
