/-!
# Log records

A record has a level, a source and a message. A log takes records at and above one level.
-/

namespace Intcode.Journal

/-- How much a record matters. -/
inductive Level where
  | trace
  | debug
  | info
  | warn
  deriving DecidableEq, Repr, Inhabited

namespace Level

/-- The place of a level among the levels. -/
def rank : Level → Nat
  | trace => 0
  | debug => 1
  | info => 2
  | warn => 3

/-- A log from `least` on takes records of a level. -/
def admits (least level : Level) : Bool :=
  least.rank ≤ level.rank

/-- The name of a level. -/
def name : Level → String
  | trace => "TRACE"
  | debug => "DEBUG"
  | info => "INFO"
  | warn => "WARN"

end Level

/-- The part of the system that a record comes from. -/
inductive Source where
  | commandLine
  | settings
  | pipeline
  | machine
  | checkpoints
  deriving DecidableEq, Repr, Inhabited

/-- The name of a source. -/
def Source.name : Source → String
  | commandLine => "intcode"
  | settings => "intcode::config"
  | pipeline => "intcode::pipeline"
  | machine => "intcode::vm::vm"
  | checkpoints => "intcode::vm::checkpoint"

/-- One entry of a log. -/
structure Record where
  level : Level
  source : Source
  message : String
  deriving DecidableEq, Repr, Inhabited

end Intcode.Journal
