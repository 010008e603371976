import Intcode.CommandLine.Command
import Intcode.CommandLine.Host
import Intcode.Program.Listing
import Intcode.Session

/-!
# Carrying out commands

Each command reads its program first. A failed command shows its failure beside the result and has the exit
status one; arguments that make no command have the status two.
-/

namespace Intcode.CommandLine

variable {m : Type → Type} [Monad m] (c : Context m)

/-- The words of a list between commas; empty pieces count for nothing. -/
def readValues (list : String) : Except Failure (List Word) :=
  (((Text.splitCommas list).map Text.trim).filter (· ≠ "")).mapM fun token =>
    match Numeral.word? token with
    | some w => .ok w
    | none => .error (.badValue token)

/-! ## Run -/

/-- The settings as options change them. -/
def RunOptions.settings (o : RunOptions) (s : Settings) : Settings where
  stepBudget :=
    match o.budget with
    | some w => Budget.ofSigned w
    | none => s.stepBudget
  policy := if o.streaming then .streaming else s.policy
  ascii := o.ascii || s.ascii

/-- A run in the form of a record, its fields in alphabetical order. -/
def report (outcome : Outcome) (machine : Machine) : Json :=
  .object
    [("instructions", .nat machine.executed),
      ("outcome", .text outcome.name),
      ("output", .words machine.output.toList),
      ("pc", .address machine.registers.pc)]

/-- Puts the machine into the state of the checkpoint that an option names. -/
def restoreFrom (path : Option String) (machine : Machine) : Work m Machine :=
  match path with
  | none => return machine
  | some path => do
    let cp ← c.loadCheckpoint path
    c.log (Journal.restore c.least cp)
    return machine.restore cp

/-- Queues lists of values in order. -/
def queueInputs (machine : Machine) : List String → Except Failure Machine
  | [] => .ok machine
  | list :: lists => do queueInputs (machine.extend (← readValues list)) lists

/-- Runs a program once and shows what it emitted. -/
def run (o : RunOptions) : Work m Unit := do
  let program ← c.loadProgram o.program
  let settings := o.settings c.settings
  c.note .debug ("run settings: " ++ settings.text)
  let machine ← restoreFrom c o.loadCheckpoint (.ofImage program.image settings.policy)
  let machine ← Context.expect id (queueInputs machine o.inputs)
  let machine := machine.extend ((o.text.map Text.encode).getD [])
  let (result, machine) ← c.runMachine settings.stepBudget machine
  let outcome ← Context.expect .machine result
  match o.saveCheckpoint with
  | some path => c.saveCheckpoint path machine.checkpoint
  | none => pure ()
  if o.json then
    c.out ((report outcome machine).writeWide ++ "\n")
  else do
    if settings.ascii then
      c.out (Session.display machine.output.toList)
    else
      c.out (",".intercalate (machine.output.toList.map Numeral.ofWord) ++ "\n")
    if outcome ≠ .halted then
      c.complain
        ("Machine " ++ outcome.text ++ " at pc " ++ Numeral.ofAddress machine.registers.pc)

/-! ## Interactive -/

/-- What a request logs. -/
def requestRecords (least : Journal.Level) (s : Session) : Session.Request → Array Journal.Record
  | .save label => Journal.save least label s.machine
  | .restore label => Journal.restoreLabel least s.checkpoints label
  | .reset => Journal.reset least s.machine
  | _ => #[]

/-- The rest of a session. Every round of it runs the program, shows its output and takes a line. -/
def converse (s : Session) : (fuel : Nat) → Work m Unit
  | 0 => throw .unfinished
  | fuel + 1 => do
    match s.proceed c.fuel with
    | none => throw .unfinished
    | some (result, after) => do
      c.log (Journal.run c.least c.fuel none s.machine (result, after.machine))
      let outcome ← Context.expect .machine result
      let (shown, waiting) := after.showOutput
      c.out shown
      if outcome = .halted then
        c.out "Program halted\n"
      else
        match ← ExceptT.lift c.host.readLine with
        | none => c.out "EOF (Ctrl+D)\n"
        | some line =>
          match Session.Request.ofLine line with
          | .quit => return
          | request => do
            c.log (requestRecords c.least waiting request)
            let (reply, next) := waiting.respond request
            reply.lines.forM fun line => c.out (line ++ "\n")
            reply.complaints.forM c.complain
            converse next fuel

/-- Lets a person talk with a program. -/
def interactive (path : String) : Work m Unit := do
  let program ← c.loadProgram path
  c.out "intcode interactive session\n"
  c.out "Commands: :save NAME, :restore NAME, :list, :reset, :quit\n"
  converse c (.ofImage program.image) c.fuel

/-! ## Amplify and disasm -/

/-- Runs a program as a row of amplifiers and shows the last word that comes out. -/
def amplify (o : AmplifyOptions) : Work m Unit := do
  let program ← c.loadProgram o.program
  let phases ← Context.expect id (readValues o.phases)
  let budget :=
    match o.budget with
    | some w => Budget.ofSigned w
    | none => c.settings.stepBudget
  let row := Pipeline.amplifiers program.image phases o.feedback budget
  match row.run c.fuel [o.signal] with
  | none => throw .unfinished
  | some (result, _) => do
    c.log (Journal.pipeline c.least c.fuel row [o.signal])
    let emitted ← Context.expect .pipeline result
    match emitted.back? with
    | some w => c.out (Numeral.ofWord w ++ "\n")
    | none => throw .noOutput

/-- Shows the listing of a program. -/
def disasm (path : String) : Work m Unit := do
  c.out (← c.loadProgram path).listing

/-! ## All commands -/

/-- Carries out a command. -/
def execute : Command → Work m Unit
  | .run o => run c o
  | .interactive path => interactive c path
  | .amplify o => amplify c o
  | .disasm path => disasm c path

/-- The settings of the environment, or those that hold without one and a record of what is wrong with it. -/
def settingsOf (valueOf : String → Option String) : Settings × Array Journal.Record :=
  match Settings.ofEnvironment valueOf with
  | .ok s => (s, #[])
  | .error e =>
    ({}, #[{
      level := .warn
      source := .settings
      message := "ignoring invalid environment configuration: " ++ e.message }])

/-- Carries out the command that the arguments name and gives the exit status. -/
def perform (host : Host m) (valueOf : String → Option String) (fuel : Nat)
    (arguments : List String) : m Nat := do
  match Invocation.ofArguments? arguments with
  | none => return 2
  | some invocation => do
    let (settings, records) := settingsOf valueOf
    let least := if invocation.verbose then .debug else .warn
    let c : Context m := { host, settings, least, fuel }
    let work : Work m Unit := do
      c.log records
      execute c invocation.command
    match ← work.run with
    | .ok () => return 0
    | .error failure => do
      host.err ("Error: " ++ failure.message ++ "\n")
      return 1

end Intcode.CommandLine
