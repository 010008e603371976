import Intcode.Journal.Pipeline
import Intcode.Program.Basic
import Intcode.Settings

/-!
# The host of a command

What a command needs from the world around it is one record of actions. So the same command runs in a
terminal and on a model of one. A command fails with a cause, which is put into words at the end.
-/

namespace Intcode.CommandLine

/-- The actions that a command is offered. -/
structure Host (m : Type → Type) where
  /-- The text of a file, or why it cannot be read. -/
  readFile : String → m (Except String String)
  /-- Writes a file and says whether that went well. -/
  writeFile : String → String → m Bool
  /-- The next line of input without its end, if there is one. -/
  readLine : m (Option String)
  /-- Shows text as the result. -/
  out : String → m Unit
  /-- Shows text beside the result. -/
  err : String → m Unit

/-- Why a command failed. -/
inductive Failure where
  | machine (e : Error)
  | program (e : Program.Error)
  | pipeline (e : Pipeline.Error)
  /-- A piece of a list of values is no numeral of a word. -/
  | badValue (token : String)
  /-- The last amplifier emitted nothing. -/
  | noOutput
  /-- The fuel was not enough. -/
  | unfinished
  deriving DecidableEq, Repr, Inhabited

/-- The failure in words. -/
def Failure.message : Failure → String
  | machine e => "VM error: " ++ e.message
  | program e => "Program error: " ++ e.message
  | pipeline e => "Pipeline error: " ++ e.message
  | badValue token => "invalid value '" ++ token ++ "'"
  | noOutput => "pipeline produced no output"
  | unfinished => "run did not finish"

/-- What a command can rely on: the world, the settings, which records are logged, and fuel. -/
structure Context (m : Type → Type) where
  host : Host m
  settings : Settings
  least : Journal.Level
  fuel : Nat

/-- The work of a command. -/
abbrev Work (m : Type → Type) := ExceptT Failure m

/-- A log record as a line. -/
def recordLine (r : Journal.Record) : String :=
  "[" ++ Text.alignLeft 5 r.level.name ++ " " ++ r.source.name ++ "] " ++ r.message ++ "\n"

namespace Context

variable {m : Type → Type} [Monad m] (c : Context m)

/-- Shows text as the result. -/
def out (s : String) : Work m Unit :=
  ExceptT.lift (c.host.out s)

/-- Shows a line beside the result. -/
def complain (s : String) : Work m Unit :=
  ExceptT.lift (c.host.err (s ++ "\n"))

/-- Logs records. -/
def log (rs : Array Journal.Record) : Work m Unit :=
  ExceptT.lift (rs.forM fun r => c.host.err (recordLine r))

/-- Logs one record of the command itself. -/
def note (level : Journal.Level) (message : String) : Work m Unit :=
  if c.least.admits level then c.log #[{ level, source := .commandLine, message }] else pure ()

/-- What a computation gives, or its failure. -/
def expect {ε α : Type} (wrap : ε → Failure) : Except ε α → Work m α
  | .ok a => pure a
  | .error e => throw (wrap e)

/-- Reads the program of a file. -/
def loadProgram (path : String) : Work m Program := do
  let text ← ExceptT.lift (c.host.readFile path)
  let p ← expect .program ((text.mapError .unreadable).bind Program.ofText)
  c.note .info ("loaded " ++ Numeral.ofNat p.cells.length ++ " cells from " ++ path)
  return p

/-- Reads the checkpoint of a file. -/
def loadCheckpoint (path : String) : Work m Checkpoint := do
  match ← ExceptT.lift (c.host.readFile path) with
  | .ok text => expect .machine (Checkpoint.ofText text)
  | .error _ => throw (.machine .badCheckpoint)

/-- Writes a checkpoint to a file. -/
def saveCheckpoint (path : String) (cp : Checkpoint) : Work m Unit := do
  if ← ExceptT.lift (c.host.writeFile path cp.text) then
    c.note .info ("checkpoint written to " ++ path)
  else
    throw (.machine .badCheckpoint)

/-- Runs a machine and logs the run. -/
def runMachine (budget : Option Nat) (machine : Machine) :
    Work m (Except Error Outcome × Machine) := do
  match machine.run c.fuel budget with
  | none => throw .unfinished
  | some stop => do
    c.log (Journal.run c.least c.fuel budget machine stop)
    return stop

end Context

end Intcode.CommandLine
