import Intcode.Text.Lowercase

/-!
# Input policies

What a machine does when an instruction asks for input and none is queued. A policy is named by a word
in any letter case.
-/

namespace Intcode

/-- What running out of input means. -/
inductive InputPolicy where
  /-- All input was queued beforehand: running out is an error. -/
  | batch
  /-- Input arrives bit by bit: running out suspends the machine. -/
  | streaming
  deriving DecidableEq, Repr, Inhabited

namespace InputPolicy

/-- No policy has this name; it is kept in lower case. -/
structure UnknownName where
  name : String
  deriving DecidableEq, Repr

/-- The complaint in words. -/
def UnknownName.message (e : UnknownName) : String :=
  "unknown input policy '" ++ e.name ++ "'"

/-- The name of a policy. -/
def name : InputPolicy → String
  | batch => "batch"
  | streaming => "streaming"

/-- The policy with a name, or else the name in lower case. -/
def ofName (s : String) : Except UnknownName InputPolicy :=
  match Text.lower s with
  | "batch" => .ok batch
  | "streaming" => .ok streaming
  | "stream" => .ok streaming
  | other => .error ⟨other⟩

end InputPolicy

end Intcode
