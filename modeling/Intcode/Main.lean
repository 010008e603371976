import Intcode.CommandLine.Desk

/-!
# The program

The commands in a terminal.
-/

namespace Intcode.CommandLine

/-- Enough fuel for any run that is waited for. -/
def plenty : Nat :=
  4611686018427387904

/-- Why a file cannot be used. -/
def reason : IO.Error → String
  | .noFileOrDirectory .. => "No such file or directory (os error 2)"
  | e => toString e

/-- The next line of the standard input, if there is one. -/
def readTerminalLine : IO (Option String) := do
  let line ← (← IO.getStdin).getLine
  return if line.isEmpty then none else some (String.ofList (chomp line.toList))

/-- The actions in a terminal. -/
def terminal : Host IO where
  readFile path := do
    try
      return .ok (← IO.FS.readFile path)
    catch e => return .error (reason e)
  writeFile path text := do
    try
      IO.FS.writeFile path text
      return true
    catch _ => return false
  readLine := readTerminalLine
  out s := do
    IO.print s
    (← IO.getStdout).flush
  err s := IO.eprint s

end Intcode.CommandLine

open Intcode.CommandLine in
/-- Carries out the command of the arguments in the terminal. -/
def main (arguments : List String) : IO UInt32 := do
  let names := [Intcode.Settings.budgetVariable, Intcode.Settings.policyVariable,
    Intcode.Settings.asciiVariable]
  let values ← names.mapM fun name => do return (name, ← IO.getEnv name)
  let valueOf := fun name => (values.lookup name).join
  return (← perform terminal valueOf plenty arguments).toUInt32
