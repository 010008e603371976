import Intcode.Proofs.Machine.Traffic
import Intcode.Proofs.Pipeline.Round

/-!
# Metered pipelines

A metered machine keeps account of the words that pass through it: every append to its queue, every run with the
instructions that it executes and every drain of its log is entered where it happens. The machines of a metered
pipeline do what they do without meters; the accounts decide nothing.

Main statement: without its accounts a metered run is the run of the pipeline (`meteredRun_erase`).
-/

namespace Intcode

/-- A machine with an account of the words that pass through it. -/
structure Metered where
  machine : Machine
  /-- The words appended to its queue. -/
  appended : List Word := []
  /-- The instructions that it executed. -/
  executions : List Machine.Execution := []
  /-- The words that its output instructions emitted. -/
  emitted : List Word := []
  /-- Those of them that it emitted in its latest run. -/
  latest : List Word := []
  /-- The words drained from its log. -/
  drained : List Word := []

namespace Metered

def extend (x : Metered) (ws : List Word) : Metered :=
  { x with machine := x.machine.extend ws, appended := x.appended ++ ws }

def run (fuel : Nat) (budget : Option Nat) (x : Metered) : Option (Except Error Outcome × Metered) :=
  (x.machine.run fuel budget).map fun (result, machine) =>
    let latest := x.machine.emissions fuel budget
    let executions := x.executions ++ (x.machine.runTrail Machine.execution fuel budget).toList
    (result, { x with machine, executions, emitted := x.emitted ++ latest, latest })

def takeOutput (x : Metered) : Array Word × Metered :=
  (x.machine.output,
    { x with machine := x.machine.takeOutput.2, drained := x.drained ++ x.machine.output.toList })

end Metered

namespace Pipeline

variable {x y : Metered} {xs : List Metered} {fuel index : Nat} {budget : Option Nat} {feedback : Bool}
  {incoming : Array Word} {input : List Word}

/-! ## Turns and rounds with meters -/

structure MeteredTurns where
  machines : List Metered
  result : Except Error (Array Word)
  progress : Bool

def MeteredTurns.erase (t : MeteredTurns) : Turns where
  machines := t.machines.map Metered.machine
  result := t.result
  progress := t.progress

/-- `turns`, with meters. -/
def meteredTurns (fuel : Nat) (budget : Option Nat) (index : Nat) (incoming : Array Word) :
    List Metered → Option MeteredTurns
  | [] => some { machines := [], result := .ok incoming, progress := false }
  | x :: xs =>
    let before := x.machine.executed
    match (x.extend incoming.toList).run fuel budget with
    | none => none
    | some (.error e, x) =>
      some {
        machines := x :: xs
        result := .error (.machine index e)
        progress := x.machine.executed ≠ before }
    | some (.ok _, x) =>
      let progress := x.machine.executed ≠ before
      let (emitted, x) := x.takeOutput
      (meteredTurns fuel budget (index + 1) emitted xs).map fun rest =>
        { rest with machines := x :: rest.machines, progress := progress || rest.progress }

/-- `feed`, with meters. -/
def meteredFeed (ws : Array Word) : List Metered → List Metered
  | [] => []
  | x :: xs => x.extend ws.toList :: xs

structure MeteredProgress where
  machines : List Metered
  rounds : Nat
  emitted : Array Word

def MeteredProgress.erase (p : MeteredProgress) : Progress where
  machines := p.machines.map Metered.machine
  rounds := p.rounds
  emitted := p.emitted

abbrev MeteredEnd := Except Error (Array Word) × List Metered

def MeteredEnd.erase (stop : MeteredEnd) : RunEnd :=
  (stop.1, stop.2.map Metered.machine)

/-- The machines after the turns of a round and what comes back to the first of them. -/
def MeteredTurns.next (feedback : Bool) (t : MeteredTurns) : List Metered :=
  match t.result with
  | .ok last => if feedback then meteredFeed last t.machines else t.machines
  | .error _ => t.machines

/-- `round`, with meters; whether it is the last one is for `close` to say. -/
def meteredRound (fuel : Nat) (budget : Option Nat) (feedback : Bool) (p : MeteredProgress) :
    MeteredProgress ⊕ Option MeteredEnd :=
  match meteredTurns fuel budget 0 #[] p.machines with
  | none => .inr none
  | some t =>
    match close feedback p.erase t.erase with
    | .inl q => .inl { machines := t.next feedback, rounds := q.rounds, emitted := q.emitted }
    | .inr (result, _) => .inr (some (result, t.next feedback))

/-- `run`, with all meters at zero at its start. -/
def meteredRun (fuel : Nat) (p : Pipeline) (input : List Word) : Option MeteredEnd :=
  let machines := p.machines.map fun machine => { machine }
  match p.refusal? with
  | some e => some (.error e, machines)
  | none =>
    (Loop.run (meteredRound fuel p.turnBudget p.feedback) fuel
      { machines := meteredFeed input.toArray machines, rounds := 0, emitted := #[] }).bind id

/-! ## Without the meters -/

theorem meteredTurns_cons {t : MeteredTurns} :
    meteredTurns fuel budget index incoming (x :: xs) = some t ↔
      (∃ e y, (x.extend incoming.toList).run fuel budget = some (.error e, y) ∧
        t = ⟨y :: xs, .error (.machine index e), y.machine.executed ≠ x.machine.executed⟩) ∨
      ∃ outcome y rest, (x.extend incoming.toList).run fuel budget = some (.ok outcome, y) ∧
        meteredTurns fuel budget (index + 1) y.machine.output xs = some rest ∧
        t = ⟨y.takeOutput.2 :: rest.machines, rest.result,
          decide (y.machine.executed ≠ x.machine.executed) || rest.progress⟩ := by
  rw [meteredTurns]
  cases hrun : (x.extend incoming.toList).run fuel budget with
  | none => simp
  | some stop =>
      obtain ⟨result, y⟩ := stop
      cases result with
      | error e =>
          simp only [Option.some.injEq]
          constructor
          · rintro rfl
            exact .inl ⟨e, y, rfl, rfl⟩
          · rintro (⟨e', y', hstop, rfl⟩ | ⟨outcome, y', rest, hstop, -, -⟩)
            · cases hstop
              rfl
            · cases hstop
      | ok outcome =>
          simp only [Option.map_eq_some_iff]
          constructor
          · rintro ⟨rest, hrest, rfl⟩
            exact .inr ⟨outcome, y, rest, rfl, hrest, rfl⟩
          · rintro (⟨e, y', hstop, -⟩ | ⟨outcome', y', rest, hstop, hrest, rfl⟩)
            · cases hstop
            · cases hstop
              exact ⟨rest, hrest, rfl⟩

theorem meteredTurns_erase :
    (meteredTurns fuel budget index incoming xs).map MeteredTurns.erase =
      turns fuel budget index incoming (xs.map Metered.machine) := by
  induction xs generalizing index incoming with
  | nil => rfl
  | cons x xs ih =>
      rw [meteredTurns, List.map_cons, turns]
      simp only [Metered.run, Metered.extend]
      cases (x.machine.extend incoming.toList).run fuel budget with
      | none => rfl
      | some stop =>
          obtain ⟨result, m⟩ := stop
          cases result with
          | error e => rfl
          | ok outcome =>
              simp only [Option.map_some, Metered.takeOutput, Machine.takeOutput, ← ih, Option.map_map]
              rfl

theorem meteredFeed_erase (ws : Array Word) :
    (meteredFeed ws xs).map Metered.machine = feed ws (xs.map Metered.machine) := by
  cases xs <;> rfl

theorem MeteredTurns.next_erase {t : MeteredTurns} {last : Array Word} (hok : t.result = .ok last) :
    (t.next feedback).map Metered.machine =
      if feedback then feed last t.erase.machines else t.erase.machines := by
  simp only [next, hok]
  cases feedback with
  | false => rfl
  | true => exact meteredFeed_erase last

theorem meteredRound_of_error {p : MeteredProgress} {t : MeteredTurns} {e : Error}
    (ht : meteredTurns fuel budget 0 #[] p.machines = some t) (herror : t.result = .error e) :
    meteredRound fuel budget feedback p = .inr (some (.error e, t.machines)) := by
  have hclose : close feedback p.erase t.erase = .inr (.error e, t.erase.machines) := by
    simp only [close, MeteredTurns.erase, herror]
  rw [meteredRound, ht]
  simp only [hclose, MeteredTurns.next, herror]

/-- What follows the turns of a metered round in which no machine failed. -/
theorem meteredRound_of_ok {p : MeteredProgress} {t : MeteredTurns} {last : Array Word}
    (ht : meteredTurns fuel budget 0 #[] p.machines = some t) (hok : t.result = .ok last) :
    meteredRound fuel budget feedback p = .inr (some (.ok (p.emitted ++ last), t.next feedback)) ∨
      (t.progress = true ∧
        meteredRound fuel budget feedback p = .inl ⟨t.next feedback, p.rounds + 1, p.emitted ++ last⟩) ∨
      (t.progress = false ∧
        meteredRound fuel budget feedback p = .inr (some (.error (.deadlock (p.rounds + 1)), t.next feedback))) := by
  have herased : t.erase.result = .ok last := hok
  rw [meteredRound, ht]
  rcases close_cases feedback p.erase herased with ⟨-, hc⟩ | ⟨hprogress, hc⟩ | ⟨-, hprogress, hc⟩
  · refine .inl ?_
    simp only [hc]
    rfl
  · refine .inr (.inl ⟨hprogress, ?_⟩)
    simp only [hc]
    rfl
  · refine .inr (.inr ⟨hprogress, ?_⟩)
    simp only [hc]
    rfl

theorem meteredRound_erase (p : MeteredProgress) :
    round fuel budget feedback p.erase =
      (meteredRound fuel budget feedback p).map MeteredProgress.erase (Option.map MeteredEnd.erase) := by
  have hturns : turns fuel budget 0 #[] p.erase.machines =
      (meteredTurns fuel budget 0 #[] p.machines).map MeteredTurns.erase := meteredTurns_erase.symm
  rw [round, meteredRound, hturns]
  cases meteredTurns fuel budget 0 #[] p.machines with
  | none => rfl
  | some t =>
      simp only [Option.map_some]
      cases hok : t.result with
      | error e =>
          have hclose : close feedback p.erase t.erase = .inr (.error e, t.erase.machines) := by
            simp only [close, MeteredTurns.erase, hok]
          rw [hclose]
          simp only [MeteredTurns.next, hok]
          rfl
      | ok last =>
          have hnext : (t.next feedback).map Metered.machine =
              if feedback then feed last t.erase.machines else t.erase.machines := MeteredTurns.next_erase hok
          have herased : t.erase.result = .ok last := hok
          have hcases := close_cases feedback p.erase herased
          simp only [← hnext] at hcases
          rcases hcases with ⟨-, hc⟩ | ⟨-, hc⟩ | ⟨-, -, hc⟩
          all_goals
            rw [hc]
            rfl

/-- A metered run is the run of the pipeline, with accounts. -/
theorem meteredRun_erase (p : Pipeline) (input : List Word) :
    p.run fuel input = (p.meteredRun fuel input).map MeteredEnd.erase := by
  have hmachines : (p.machines.map fun machine => ({ machine } : Metered)).map Metered.machine = p.machines := by
    rw [List.map_map]
    exact List.map_id _
  rw [run, meteredRun]
  cases p.refusal? with
  | some e => simp only [Option.map_some, MeteredEnd.erase, hmachines]
  | none =>
      have hstart : p.start input = MeteredProgress.erase
          ⟨meteredFeed input.toArray (p.machines.map fun machine => { machine }), 0, #[]⟩ := by
        simp only [start, MeteredProgress.erase, meteredFeed_erase, hmachines]
      simp only [hstart, Loop.run_map meteredRound_erase]
      cases Loop.run (meteredRound fuel p.turnBudget p.feedback) fuel
        ⟨meteredFeed input.toArray (p.machines.map fun machine => { machine }), 0, #[]⟩ with
      | none => rfl
      | some stop => rfl

end Pipeline

end Intcode
