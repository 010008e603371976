import Intcode.Checkpoint.Store
import Intcode.Journal.Basic
import Intcode.Machine.Run
import Intcode.Text.Columns

/-!
# What machines log

The records of an operation follow from the machine before it and from what became of it; the operations
themselves know nothing of a log. Every function here is told the least level that is wanted, and does not
work out what lies below.
-/

namespace Intcode.Journal

/-- One record from a machine, if its level is wanted. -/
def ofMachine (least level : Level) (message : String) : Array Record :=
  if least.admits level then #[{ level, source := .machine, message }] else #[]

/-! ## Steps and runs -/

/-- The instruction that a machine is about to execute, or to wait at. -/
def attempt (m : Machine) : Array Record :=
  if m.isHalted then #[]
  else
    match m.attempt with
    | .error _ => #[]
    | .ok (i, _) =>
      ofMachine .trace .trace <|
        "pc " ++ Text.alignRight 5 (Numeral.ofAddress m.registers.pc) ++ ": " ++
          Text.alignLeft 4 i.opcode.mnemonic ++ " word " ++ Numeral.ofWord m.word

/-- The end of a step or a run that lacked input. -/
def failure (least : Level) : Error → Array Record
  | .inputExhausted pc =>
    ofMachine least .warn ("batch input exhausted at pc " ++ Numeral.ofAddress pc)
  | _ => #[]

/-- What a step from `m` that ended in `result` logs. -/
def step {α : Type} (least : Level) (m : Machine) (result : Except Error α) : Array Record :=
  let attempted := if least.admits .trace then attempt m else #[]
  match result with
  | .ok _ => attempted
  | .error e => attempted ++ failure least e

/-- The outcome of a run from a machine that had executed `before` instructions. -/
def outcome (least : Level) (before : Nat) (m : Machine) (o : Outcome) : Array Record :=
  ofMachine least .debug <|
    "run returned " ++ o.text ++ " after " ++ Numeral.ofNat (m.executed - before) ++ " steps (pc " ++
      Numeral.ofAddress m.registers.pc ++ ", " ++ Numeral.ofNat m.output.size ++ " outputs)"

/-- The instructions of a run from `m`, where they are wanted. -/
def instructions (least : Level) (fuel : Nat) (budget : Option Nat) (m : Machine) : Array Record :=
  if least.admits .trace then m.runTrail attempt fuel budget else #[]

/-- What a run that had executed `before` instructions logs at its end. -/
def runEnd (least : Level) (before : Nat) : Machine.RunEnd → Array Record
  | (.ok o, m) => outcome least before m o
  | (.error e, _) => failure least e

/-- What a run from `m` logs that ended in `stop`. -/
def run (least : Level) (fuel : Nat) (budget : Option Nat) (m : Machine) (stop : Machine.RunEnd) :
    Array Record :=
  instructions least fuel budget m ++ runEnd least m.executed stop

/-! ## Other operations -/

/-- What the reset of a machine logs. -/
def reset (least : Level) (m : Machine) : Array Record :=
  ofMachine least .debug ("resetting machine (" ++ Numeral.ofNat m.image.size ++ " cells)")

/-- What putting a machine into the state of a checkpoint logs. -/
def restore (least : Level) (c : Checkpoint) : Array Record :=
  ofMachine least .debug <|
    "restoring checkpoint at pc " ++ Numeral.ofAddress c.registers.pc ++ " (halted: " ++
      (if c.halted then "true" else "false") ++ ")"

/-- What keeping the state of a machine under a label logs. -/
def save (least : Level) (label : String) (m : Machine) : Array Record :=
  if least.admits .debug then
    #[{ level := .debug
        source := .checkpoints
        message := "saving checkpoint '" ++ label ++ "' at pc " ++ Numeral.ofAddress m.registers.pc }]
  else #[]

/-- What going back to the state under a label logs: nothing if there is none. -/
def restoreLabel (least : Level) (s : Checkpoint.Store) (label : String) : Array Record :=
  match s.get label with
  | .ok c =>
    (if least.admits .debug then
      #[{ level := .debug
          source := .checkpoints
          message := "restoring checkpoint '" ++ label ++ "'" }]
    else #[]) ++ restore least c
  | .error _ => #[]

end Intcode.Journal
