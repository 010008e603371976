import Intcode.Proofs.Machine.Emission
import Intcode.Proofs.Machine.Operation
import Intcode.Proofs.Pipeline.Round

/-!
# Deadlocks

A round in which no machine executes anything leaves every machine at rest, for each of them had its turn and
got what the machine before it had in its log. Only the last machine hands its log on after the turns, with
feedback; that log was empty before the round unless the round is the first one. So a reported deadlock is one,
except that the first machine may just have been fed what was in the log of the last one at the start.

Main statement: exactly when a reported deadlock lasts (`deadlocked_iff`).
-/

namespace Intcode.Pipeline

variable {m : Machine} {ms machines : List Machine} {fuel index number : Nat} {budget : Option Nat}
  {feedback : Bool} {incoming last : Array Word} {input : List Word} {t : Turns} {p q : Progress}

/-! ## Rounds without progress -/

theorem drained_of_turns (ht : turns fuel budget index incoming ms = some t) (hok : t.result = .ok last) :
    ∀ m ∈ t.machines, m.output = #[] := by
  induction ms generalizing index incoming t with
  | nil =>
      cases ht
      exact nofun
  | cons m ms ih =>
      rcases turns_cons.1 ht with ⟨e, k, -, rfl⟩ | ⟨outcome, k, rest, -, hrest, rfl⟩
      · cases hok
      · exact List.forall_mem_cons.2 ⟨rfl, ih hrest hok⟩

/-- Without progress all machines come to rest, and what the last one hands on was in its log before. -/
theorem atRest_of_turns (hbudget : budget ≠ some 0) (ht : turns fuel budget index incoming ms = some t)
    (hok : t.result = .ok last) (hidle : t.progress = false) :
    (∀ m ∈ t.machines, m.AtRest) ∧ last = (ms.getLast?.map Machine.output).getD incoming := by
  induction ms generalizing index incoming t with
  | nil =>
      cases ht
      cases hok
      exact ⟨nofun, rfl⟩
  | cons m ms ih =>
      rcases turns_cons.1 ht with ⟨e, k, -, rfl⟩ | ⟨outcome, k, rest, hrun, hrest, rfl⟩
      · cases hok
      · simp only [Bool.or_eq_false_iff, decide_eq_false_iff_not, not_not] at hidle
        obtain ⟨hsame, hrestIdle⟩ := hidle
        have hextended : k.executed = (m.extend incoming.toList).executed := by
          rw [hsame, Machine.extend_executed]
        obtain ⟨hk, houtput⟩ := Machine.atRest_of_idle hbudget hrun hextended
        rw [Machine.extend_output] at houtput
        obtain ⟨hrestAtRest, hlast⟩ := ih hrest hok hrestIdle
        refine ⟨List.forall_mem_cons.2 ⟨hk, hrestAtRest⟩, ?_⟩
        rw [hlast, houtput]
        cases hms : ms.getLast? <;> simp [List.getLast?_cons, hms]

/-- Machines at rest with empty logs go through a round as they are. -/
theorem turns_of_atRest (hrest : ∀ m ∈ ms, m.AtRest) (hdrained : ∀ m ∈ ms, m.output = #[]) :
    turns (fuel + 1) budget index #[] ms = some ⟨ms, .ok #[], false⟩ := by
  induction ms generalizing index with
  | nil => rfl
  | cons m ms ih =>
      obtain ⟨hm, hms⟩ := List.forall_mem_cons.1 hrest
      obtain ⟨hempty, hempties⟩ := List.forall_mem_cons.1 hdrained
      have hrun : ∃ outcome, m.run (fuel + 1) budget = some (.ok outcome, m) := hm.run
      obtain ⟨outcome, hrun⟩ := hrun
      have hturns : turns (fuel + 1) budget (index + 1) m.output ms = some ⟨ms, .ok #[], false⟩ := by
        rw [hempty]
        exact ih hms hempties
      have htaken : m.takeOutput.2 = m := by
        simp only [Machine.takeOutput, ← hempty]
      exact turns_cons.2 (.inr ⟨outcome, m, _, hrun, hturns, by simp [htaken]⟩)

/-! ## Lasting deadlocks -/

/-- No machine can go on: each has halted or waits with nothing queued, and to run them again without input
reports a deadlock in the first round and leaves them as they are. -/
def Deadlocked (p : Pipeline) : Prop :=
  (∀ m ∈ p.machines, m.AtRest) ∧ p.Returns [] (.error (.deadlock 1), p.machines)

theorem deadlocked_of_atRest (hbudget : budget ≠ some 0) (hrest : ∀ m ∈ ms, m.AtRest)
    (hdrained : ∀ m ∈ ms, m.output = #[]) (hlive : ms.all Machine.isHalted = false) :
    Deadlocked ⟨ms, feedback, budget⟩ := by
  have hne : ms ≠ [] := by
    rintro rfl
    cases hlive
  refine ⟨hrest, 1, ?_⟩
  have hturns : turns 1 budget 0 #[] ms = some ⟨ms, .ok #[], false⟩ := turns_of_atRest hrest hdrained
  have hfed : feed [].toArray ms = ms := feed_empty
  rw [run_eq hne hbudget, hfed, Loop.run, round_of_turns hturns]
  cases feedback <;> simp [close, feed_empty, hlive]

/-- What is fed to the first machine wakes it, unless it has halted. -/
theorem atRest_feed_iff (hrest : ∀ m ∈ ms, m.AtRest) :
    (∀ m ∈ feed last ms, m.AtRest) ↔ ¬ (last ≠ #[] ∧ ∃ m ∈ (feed last ms).head?, m.status ≠ .halted) := by
  by_cases hlast : last = #[]
  · subst hlast
    rw [feed_empty]
    simpa using hrest
  · cases ms with
    | nil => simp [feed]
    | cons m ms =>
        obtain ⟨-, hms⟩ := List.forall_mem_cons.1 hrest
        have hwords : last.toList ≠ [] := by simpa using hlast
        have hstatus : (m.extend last.toList).status = .halted ↔ m.status = .halted := by
          rw [Machine.extend, if_neg (by simpa using hlast)]
          exact Machine.resumed_eq_halted
        simp only [feed, List.forall_mem_cons, Machine.atRest_extend_iff hwords, List.head?_cons]
        simpa [hlast, hstatus] using fun _ => hms

theorem getLast?_feed (ws : Array Word) :
    (feed ws ms).getLast?.map Machine.output = ms.getLast?.map Machine.output := by
  cases ms with
  | nil => rfl
  | cons m ms => cases hms : ms.getLast? <;> simp [feed, List.getLast?_cons, hms, Machine.extend_output]

theorem output_feed (ws : Array Word) (h : ∀ m ∈ ms, m.output = #[]) : ∀ m ∈ feed ws ms, m.output = #[] := by
  cases ms with
  | nil => exact h
  | cons m ms =>
      obtain ⟨hm, hms⟩ := List.forall_mem_cons.1 h
      exact List.forall_mem_cons.2 ⟨(Machine.extend_output _).trans hm, hms⟩

/-- A round that reports a deadlock leaves one, unless it feeds a machine that has not halted. -/
theorem deadlocked_of_round (hbudget : budget ≠ some 0)
    (h : round fuel budget feedback p = .inr (some (.error (.deadlock number), machines))) :
    number = p.rounds + 1 ∧
      (Deadlocked ⟨machines, feedback, budget⟩ ↔
        ¬ (feedback = true ∧ (∃ m ∈ p.machines.getLast?, m.output ≠ #[]) ∧
          ∃ m ∈ machines.head?, m.status ≠ .halted)) := by
  have hround := round_ends fuel budget feedback p
  rw [h] at hround
  cases hround with
  | @deadlock t last _ ht hok hnext hlive hidle =>
      obtain ⟨hrest, hlast⟩ := atRest_of_turns hbudget ht hok hidle
      have hdrained := drained_of_turns ht hok
      have hlog : last ≠ #[] ↔ ∃ m ∈ p.machines.getLast?, m.output ≠ #[] := by
        rw [hlast]
        cases p.machines.getLast? <;> simp
      refine ⟨rfl, ?_⟩
      cases feedback with
      | false =>
          obtain rfl : machines = t.machines := hnext
          simpa using deadlocked_of_atRest hbudget hrest hdrained hlive
      | true =>
          obtain rfl : machines = feed last t.machines := hnext
          simp only [← hlog, true_and]
          rw [← atRest_feed_iff hrest]
          refine ⟨fun hdead => by simpa using hdead.1, fun hall => ?_⟩
          exact deadlocked_of_atRest hbudget (by simpa using hall) (output_feed last hdrained) hlive

/-- Before the first round the logs are those of the start, and before every other round they are empty. -/
def Logged (ms : List Machine) (input : List Word) (p : Progress) : Prop :=
  (p.rounds = 0 ∧ p.machines = feed input.toArray ms) ∨ 0 < p.rounds ∧ ∀ m ∈ p.machines, m.output = #[]

theorem Logged.round (h : round fuel budget feedback p = .inl q) : Logged ms input q := by
  have hround := round_ends fuel budget feedback p
  rw [h] at hround
  cases hround with
  | @goesOn t last next ht hok hnext _ =>
      refine .inr ⟨Nat.succ_pos _, ?_⟩
      have hdrained := drained_of_turns ht hok
      cases feedback with
      | false => exact hnext ▸ hdrained
      | true => exact hnext ▸ output_feed last hdrained

/-- A pipeline that reported a deadlock is deadlocked, unless it was fed back in its first and only round what
the last machine had in its log from the start, and the first machine has not halted. -/
theorem deadlocked_iff (hbudget : budget ≠ some 0)
    (h : run fuel ⟨ms, feedback, budget⟩ input = some (.error (.deadlock number), machines)) :
    Deadlocked ⟨machines, feedback, budget⟩ ↔
      ¬ (feedback = true ∧ number = 1 ∧ (∃ m ∈ ms.getLast?, m.output ≠ #[]) ∧
        ∃ m ∈ machines.head?, m.status ≠ .halted) := by
  have hne : ms ≠ [] := by
    rintro rfl
    cases h
  rw [run_eq hne hbudget] at h
  obtain ⟨result, hloop, hresult⟩ := Option.bind_eq_some_iff.1 h
  obtain rfl : result = some (.error (.deadlock number), machines) := hresult
  have hlast : ∀ p result, Logged ms input p → round fuel budget feedback p = .inr result →
      result = some (.error (.deadlock number), machines) →
      (Deadlocked ⟨machines, feedback, budget⟩ ↔
        ¬ (feedback = true ∧ number = 1 ∧ (∃ m ∈ ms.getLast?, m.output ≠ #[]) ∧
          ∃ m ∈ machines.head?, m.status ≠ .halted)) := by
    rintro p result hp hround rfl
    obtain ⟨rfl, hiff⟩ := deadlocked_of_round hbudget hround
    rw [hiff]
    rcases hp with ⟨hzero, hmachines⟩ | ⟨hpos, hdrained⟩
    · have hlogs : (∃ m ∈ p.machines.getLast?, m.output ≠ #[]) ↔ ∃ m ∈ ms.getLast?, m.output ≠ #[] := by
        have hsame : p.machines.getLast?.map Machine.output = ms.getLast?.map Machine.output :=
          hmachines ▸ getLast?_feed input.toArray
        cases hp : p.machines.getLast? <;> cases hms : ms.getLast? <;> simp_all
      rw [hlogs, hzero]
      simp
    · have hempty : ¬ ∃ m ∈ p.machines.getLast?, m.output ≠ #[] := by
        rintro ⟨m, hm, hlog⟩
        exact hlog (hdrained m (List.mem_of_getLast? hm))
      have hnumber : p.rounds + 1 ≠ 1 := by omega
      exact iff_of_true (fun hback => hempty hback.2.1) (fun hback => hnumber hback.2.1)
  exact Loop.run_induct (fun _ _ _ hround => Logged.round hround) hlast (.inl ⟨rfl, rfl⟩) hloop rfl

/-- A machine that emits a word and then wants as many as it gets. -/
def herald : Machine :=
  .ofImage #[104, 5, 3, 0, 1106, 0, 2] .streaming

/-- Fed by itself it uses up its own word, and the deadlock of the third round lasts. -/
theorem deadlocked_iff_herald :
    ∃ machines, run 9 ⟨[herald], true, some 4⟩ [] = some (.error (.deadlock 3), machines) ∧
      Deadlocked ⟨machines, true, some 4⟩ := by
  have hbudget : some 4 ≠ some 0 := by decide
  have hrun : (run 9 ⟨[herald], true, some 4⟩ []).map Prod.fst = some (.error (.deadlock 3)) := by
    decide +kernel
  obtain ⟨⟨_, machines⟩, hrun, rfl⟩ := Option.map_eq_some_iff.1 hrun
  exact ⟨machines, hrun, (deadlocked_iff hbudget hrun).2 fun hback => absurd hback.2.1 (by decide)⟩

/-- If it ran alone before, with its word still in its log, the word comes back to it in a round in which nothing
was executed. The deadlock that is reported is none: the machine has a word to read, and a second run reads it. -/
theorem runnable_after_reported_deadlock :
    ∃ waiting machines, Machine.Reached (fun _ _ => True) herald waiting ∧
      run 9 ⟨[waiting], true, none⟩ [] = some (.error (.deadlock 1), machines) ∧
      (∃ m ∈ machines, m.status = .running ∧ m.input = [5]) ∧
      ∃ machines', run 9 ⟨machines, true, none⟩ [] = some (.error (.deadlock 2), machines') ∧
        machines.map Machine.executed = [1] ∧ machines'.map Machine.executed = [3] := by
  have hreached : Machine.Reached (fun _ _ => True) herald _ :=
    @Machine.Reached.perform _ _ _ _ (.run none) 9 (.ran (.ok .blockedOnInput)) .start trivial rfl
  exact ⟨_, _, hreached, rfl, ⟨_, List.mem_singleton_self _, rfl, rfl⟩, _, rfl, rfl, rfl⟩

end Intcode.Pipeline
