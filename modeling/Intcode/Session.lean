import Intcode.Checkpoint.Store
import Intcode.Machine.Run
import Intcode.Text.Blank
import Intcode.Text.CharacterCode

/-!
# Sessions

In a session a person talks with a program line by line. The program runs until it waits for input or has
halted, and what it has emitted is shown as text. A line is then either a command to the session, which
keeps and restores states of the program, or input for the program.
-/

namespace Intcode

/-- A conversation with a program. -/
structure Session where
  machine : Machine
  checkpoints : Checkpoint.Store := {}
  deriving Inhabited

namespace Session

/-- A session with a program at its start. -/
def ofImage (image : Array Word) : Session where
  machine := .ofImage image .streaming

/-! ## Lines -/

/-- What a line asks for. -/
inductive Request where
  | quit
  | save (label : String)
  | restore (label : String)
  | list
  | reset
  /-- The line is for the program. -/
  | say (line : String)
  deriving DecidableEq, Repr, Inhabited

/-- What a line asks for. A command without its label is a line for the program. -/
def Request.ofLine (line : String) : Request :=
  match Text.words line with
  | ":quit" :: _ => .quit
  | ":exit" :: _ => .quit
  | ":save" :: label :: _ => .save label
  | ":restore" :: label :: _ => .restore label
  | ":list" :: _ => .list
  | ":reset" :: _ => .reset
  | _ => .say line

/-- What a session answers to a line. -/
structure Reply where
  /-- The lines of the answer. -/
  lines : List String := []
  /-- The lines of the complaint. -/
  complaints : List String := []
  deriving DecidableEq, Repr, Inhabited

/-- The answer to a request that does not end the session, and the session after it. -/
def respond (s : Session) : Request → Reply × Session
  | .quit => ({}, s)
  | .save label =>
    ({ lines := ["Saved checkpoint '" ++ label ++ "'"] },
      { s with checkpoints := s.checkpoints.save label s.machine })
  | .restore label =>
    match s.checkpoints.restore label s.machine with
    | .ok machine => ({ lines := ["Restored checkpoint '" ++ label ++ "'"] }, { s with machine })
    | .error e => ({ complaints := [e.message] }, s)
  | .list => ({ lines := s.checkpoints.labels.map ("  " ++ ·) }, s)
  | .reset => ({ lines := ["Machine reset"] }, { s with machine := s.machine.reset })
  | .say line => ({}, { s with machine := s.machine.extend (Text.encode line ++ [10]) })

/-! ## Runs -/

/-- Emitted words as they are shown: text, and an answer on a line of its own. -/
def display (ws : List Word) : String :=
  match Text.splitAnswer ws with
  | (text, some answer) => text ++ Numeral.ofWord answer ++ "\n"
  | (text, none) => text

/-- Runs the program as far as it goes. -/
def proceed (fuel : Nat) (s : Session) : Option (Except Error Outcome × Session) :=
  (s.machine.run fuel none).map fun (result, machine) => (result, { s with machine })

/-- Takes the output of the program away to show it. -/
def showOutput (s : Session) : String × Session :=
  let (ws, machine) := s.machine.takeOutput
  (display ws.toList, { s with machine })

end Session

end Intcode
