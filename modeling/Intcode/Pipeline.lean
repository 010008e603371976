import Intcode.Machine.Run

/-!
# Pipelines

Machines in a row: what one emits is input for the next, and with feedback what the last one emits is
also input for the first. In each round every machine has one turn, in order; a turn is a run of the
machine within the turn budget, after which its output is handed on. The rounds end when all machines
have halted, when a round executes no instruction at all, or when a run fails. The failing machine keeps
what it has emitted in that turn.
-/

namespace Intcode

/-- Machines in a row. -/
structure Pipeline where
  machines : List Machine
  /-- The last machine feeds the first. -/
  feedback : Bool
  /-- The number of instructions that a turn may execute, if that is bounded. -/
  turnBudget : Option Nat
  deriving Inhabited

namespace Pipeline

/-- Why a pipeline came to no good end. -/
inductive Error where
  | noMachines
  /-- A turn may execute nothing. -/
  | zeroTurnBudget
  /-- No machine executed anything in a whole round, and not all have halted. -/
  | deadlock (round : Nat)
  /-- The run of a machine failed. -/
  | machine (index : Nat) (cause : Intcode.Error)
  deriving DecidableEq, Repr, Inhabited

/-- The error in words. -/
def Error.message : Error → String
  | noMachines => "pipeline has no machines"
  | zeroTurnBudget => "turn budget of zero steps cannot make progress"
  | deadlock round =>
    "deadlock in round " ++ Numeral.ofNat round ++ ": every live machine is waiting for input"
  | machine index cause => "machine " ++ Numeral.ofNat index ++ " failed: " ++ cause.message

/-- One streaming machine for each phase setting, which is its first input value. -/
def amplifiers (image : Array Word) (phases : List Word) (feedback : Bool)
    (turnBudget : Option Nat) : Pipeline where
  machines := phases.map fun phase => (Machine.ofImage image .streaming).push phase
  feedback
  turnBudget

/-! ## Rounds -/

/-- The turns of a round: the machines after them, and how they ended. -/
structure Turns where
  machines : List Machine
  /-- What the last machine emitted, or which machine failed and why. -/
  result : Except Error (Array Word)
  /-- Some machine executed an instruction. -/
  progress : Bool

/-- Gives every machine its turn, the first of them, number `index`, with `incoming` queued. `none` if a run
needs more fuel. -/
def turns (fuel : Nat) (budget : Option Nat) (index : Nat) (incoming : Array Word) :
    List Machine → Option Turns
  | [] => some { machines := [], result := .ok incoming, progress := false }
  | m :: ms =>
    let before := m.executed
    match (m.extend incoming.toList).run fuel budget with
    | none => none
    | some (.error e, m) =>
      some { machines := m :: ms, result := .error (.machine index e), progress := m.executed ≠ before }
    | some (.ok _, m) =>
      let progress := m.executed ≠ before
      let (emitted, m) := m.takeOutput
      (turns fuel budget (index + 1) emitted ms).map fun rest =>
        { rest with machines := m :: rest.machines, progress := progress || rest.progress }

/-- Queues input for the first machine. -/
def feed (ws : Array Word) : List Machine → List Machine
  | [] => []
  | m :: ms => m.extend ws.toList :: ms

/-- Where a pipeline is between two rounds. -/
structure Progress where
  machines : List Machine
  /-- The number of rounds so far. -/
  rounds : Nat
  /-- What the last machine has emitted in them. -/
  emitted : Array Word

/-- The end of a pipeline's run: all that the last machine emitted, or the error, and the machines as they
are then. -/
abbrev RunEnd := Except Error (Array Word) × List Machine

/-- What follows the turns of one round. -/
def close (feedback : Bool) (p : Progress) (t : Turns) : Progress ⊕ RunEnd :=
  match t.result with
  | .error e => .inr (.error e, t.machines)
  | .ok last =>
    let machines := if feedback then feed last t.machines else t.machines
    let rounds := p.rounds + 1
    let emitted := p.emitted ++ last
    if machines.all Machine.isHalted then .inr (.ok emitted, machines)
    else if t.progress then .inl { machines, rounds, emitted }
    else .inr (.error (.deadlock rounds), machines)

/-- One round; a round that runs out of fuel ends the run without a result. -/
def round (fuel : Nat) (budget : Option Nat) (feedback : Bool) (p : Progress) :
    Progress ⊕ Option RunEnd :=
  match turns fuel budget 0 #[] p.machines with
  | none => .inr none
  | some t =>
    match close feedback p t with
    | .inl p => .inl p
    | .inr stop => .inr (some stop)

/-- Why a pipeline cannot be run at all. -/
def refusal? (p : Pipeline) : Option Error :=
  if p.machines.isEmpty then some .noMachines
  else if p.turnBudget = some 0 then some .zeroTurnBudget
  else none

/-- Where a run starts: with the input queued for the first machine. -/
def start (p : Pipeline) (input : List Word) : Progress where
  machines := feed input.toArray p.machines
  rounds := 0
  emitted := #[]

/-- Runs the pipeline on an input. `none` if the rounds or the turns of one need more fuel. -/
def run (fuel : Nat) (p : Pipeline) (input : List Word) : Option RunEnd :=
  match p.refusal? with
  | some e => some (.error e, p.machines)
  | none =>
    (Loop.run (round fuel p.turnBudget p.feedback) fuel (p.start input)).bind id

end Pipeline

end Intcode
