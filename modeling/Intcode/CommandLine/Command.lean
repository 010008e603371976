import Intcode.CommandLine.Arguments
import Intcode.Numeral

/-!
# Commands

The four commands and what each is told: to run a program, to talk with one, to run one as a row of
amplifiers, and to list one. Every command takes the file of its program.
-/

namespace Intcode.CommandLine

/-- What the command to run a program is told. -/
structure RunOptions where
  program : String
  /-- The lists of input values. -/
  inputs : List String
  /-- Text that is queued behind them. -/
  text : Option String
  ascii : Bool
  streaming : Bool
  budget : Option Word
  loadCheckpoint : Option String
  saveCheckpoint : Option String
  json : Bool
  deriving DecidableEq, Repr, Inhabited

/-- What the command to run a row of amplifiers is told. -/
structure AmplifyOptions where
  program : String
  /-- The list of phase settings. -/
  phases : String
  /-- The input of the first machine. -/
  signal : Word
  feedback : Bool
  budget : Option Word
  deriving DecidableEq, Repr, Inhabited

/-- A command. -/
inductive Command where
  | run (options : RunOptions)
  | interactive (program : String)
  | amplify (options : AmplifyOptions)
  | disasm (program : String)
  deriving Repr, Inhabited

/-- A command, and whether it logs what it does. -/
structure Invocation where
  verbose : Bool
  command : Command
  deriving Repr, Inhabited

/-! ## Options -/

/-- The option that every command has, also in front of its name. -/
def verboseSpec : Spec :=
  { long := "verbose", short := some 'v' }

/-- The option for a number of instructions. -/
def budgetSpec : Spec :=
  { long := "budget", short := some 'b', takes := .anyValue }

/-- The options of the command to run a program. -/
def runSpecs : List Spec :=
  [verboseSpec, budgetSpec,
    { long := "input", short := some 'i', takes := .anyValue, repeats := true },
    { long := "text", short := some 't', takes := .value },
    { long := "ascii" },
    { long := "streaming" },
    { long := "load-checkpoint", takes := .value },
    { long := "save-checkpoint", takes := .value },
    { long := "json" }]

/-- The options of the command to run a row of amplifiers. -/
def amplifySpecs : List Spec :=
  [verboseSpec, budgetSpec,
    { long := "phases", takes := .value },
    { long := "signal", takes := .anyValue },
    { long := "feedback" }]

/-! ## Reading -/

/-- The only word of arguments. -/
def Arguments.onlyWord? (a : Arguments) : Option String :=
  match a.words with
  | [word] => some word
  | _ => none

/-- The number that an option gives: none if it is not given, no reading if it is not one. -/
def Arguments.number? (a : Arguments) (name : String) : Option (Option Word) :=
  match a.value? name with
  | none => some none
  | some value => (Numeral.word? value).map some

/-- Reads the command to run a program. -/
def RunOptions.ofArguments? (a : Arguments) : Option RunOptions := do
  return {
    program := ← a.onlyWord?
    inputs := a.values "input"
    text := a.value? "text"
    ascii := a.has "ascii"
    streaming := a.has "streaming"
    budget := ← a.number? "budget"
    loadCheckpoint := a.value? "load-checkpoint"
    saveCheckpoint := a.value? "save-checkpoint"
    json := a.has "json" }

/-- Reads the command to run a row of amplifiers. -/
def AmplifyOptions.ofArguments? (a : Arguments) : Option AmplifyOptions := do
  return {
    program := ← a.onlyWord?
    phases := ← a.value? "phases"
    signal := (← a.number? "signal").getD 0
    feedback := a.has "feedback"
    budget := ← a.number? "budget" }

/-- The options of the command with a name. -/
def specsOf? : String → Option (List Spec)
  | "run" => some runSpecs
  | "interactive" => some [verboseSpec]
  | "amplify" => some amplifySpecs
  | "disasm" => some [verboseSpec]
  | _ => none

/-- The command with a name and arguments. -/
def Command.ofArguments? (name : String) (a : Arguments) : Option Command :=
  match name with
  | "run" => (RunOptions.ofArguments? a).map .run
  | "interactive" => a.onlyWord?.map .interactive
  | "amplify" => (AmplifyOptions.ofArguments? a).map .amplify
  | "disasm" => a.onlyWord?.map .disasm
  | _ => none

/-- Reads a command: its name is the first argument that is no option. Options in front of it cannot be
declared to be over. -/
def Invocation.ofArguments? (arguments : List String) : Option Invocation := do
  let isOption := fun argument => Arguments.form argument ≠ .word && Arguments.form argument ≠ .separator
  let before ← Arguments.read? [verboseSpec] (arguments.takeWhile isOption)
  match arguments.dropWhile isOption with
  | [] => none
  | name :: rest =>
    let a ← Arguments.read? (← specsOf? name) rest
    return {
      verbose := before.has "verbose" || a.has "verbose"
      command := ← Command.ofArguments? name a }

end Intcode.CommandLine
