import Intcode.Journal.Machine
import Intcode.Pipeline

/-!
# What pipelines log

The turns of every round are gone through once more: each logs the run of its machine and then what it
handed on. The end of the last round follows.
-/

namespace Intcode.Journal

/-- One record from a pipeline, if its level is wanted. -/
def ofPipeline (least level : Level) (message : String) : Array Record :=
  if least.admits level then #[{ level, source := .pipeline, message }] else #[]

/-- The end of the turn of machine `index`, which emitted `count` words. -/
def turn (least : Level) (round index : Nat) (o : Outcome) (count : Nat) : Array Record :=
  ofPipeline least .debug <|
    "round " ++ Numeral.ofNat round ++ " machine " ++ Numeral.ofNat index ++ ": " ++ o.text ++ " (" ++
      Numeral.ofNat count ++ " values out)"

/-- What the turns of a round log, from machine `index` on with `incoming` queued. -/
def turns (least : Level) (fuel : Nat) (budget : Option Nat) (round index : Nat)
    (incoming : Array Word) : List Machine → Array Record
  | [] => #[]
  | m :: ms =>
    let m := m.extend incoming.toList
    match m.run fuel budget with
    | none => #[]
    | some stop =>
      let logged := run least fuel budget m stop
      match stop with
      | (.error _, _) => logged
      | (.ok o, m) =>
        logged ++ turn least round index o m.output.size ++
          turns least fuel budget round (index + 1) m.output ms

/-- What the end of a pipeline's run logs after `rounds` rounds. -/
def pipelineEnd (least : Level) (rounds : Nat) : Except Pipeline.Error (Array Word) → Array Record
  | .ok _ => ofPipeline least .debug ("pipeline halted after " ++ Numeral.ofNat rounds ++ " rounds")
  | .error (.deadlock round) =>
    ofPipeline least .warn ("pipeline deadlocked in round " ++ Numeral.ofNat round)
  | .error _ => #[]

/-- What one round of a pipeline logs, and its end if it is the last. -/
def round (least : Level) (fuel : Nat) (p : Pipeline) (now : Pipeline.Progress) : Array Record :=
  let number := now.rounds + 1
  turns least fuel p.turnBudget number 0 #[] now.machines ++
    match Pipeline.round fuel p.turnBudget p.feedback now with
    | .inr (some (result, _)) => pipelineEnd least number result
    | _ => #[]

/-- What a run of a pipeline on an input logs. -/
def pipeline (least : Level) (fuel : Nat) (p : Pipeline) (input : List Word) : Array Record :=
  match p.refusal? with
  | some _ => #[]
  | none =>
    Loop.trail (Pipeline.round fuel p.turnBudget p.feedback) (round least fuel p) fuel
      (p.start input) #[]

end Intcode.Journal
