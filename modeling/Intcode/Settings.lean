import Intcode.Machine.Run
import Intcode.Text.Blank

/-!
# Settings

How a program is run where nothing else is said: the step budget, the input policy, and whether output is
text. Each can be set by a variable of the environment. White space around a value counts for nothing.
-/

namespace Intcode

/-- How a program is run. -/
structure Settings where
  /-- The number of instructions that a run may execute, if that is bounded. -/
  stepBudget : Option Nat := none
  policy : InputPolicy := .batch
  /-- Words are character codes. -/
  ascii : Bool := false
  deriving DecidableEq, Repr, Inhabited

namespace Settings

/-- The variable with the step budget. -/
def budgetVariable : String :=
  "INTCODE_STEP_BUDGET"

/-- The variable with the input policy. -/
def policyVariable : String :=
  "INTCODE_INPUT_POLICY"

/-- The variable that says whether words are character codes. -/
def asciiVariable : String :=
  "INTCODE_ASCII"

/-- Which variable has no good value. -/
inductive Error where
  | badBudget (value : String)
  | badPolicy (name : InputPolicy.UnknownName)
  | badFlag (value : String)
  deriving DecidableEq, Repr

/-- The error in words. -/
def Error.message : Error → String
  | badBudget value => budgetVariable ++ " must be an integer, got '" ++ value ++ "'"
  | badPolicy name => policyVariable ++ ": " ++ name.message
  | badFlag value => asciiVariable ++ " must be a boolean, got '" ++ value ++ "'"

/-! ## Values of variables -/

/-- The step budget of a value; a negative number sets no bound. -/
def readBudget (value : String) : Except Error (Option Nat) :=
  match Numeral.word? (Text.trim value) with
  | some w => .ok (Budget.ofSigned w)
  | none => .error (.badBudget value)

/-- The input policy of a value. -/
def readPolicy (value : String) : Except Error InputPolicy :=
  (InputPolicy.ofName (Text.trim value)).mapError .badPolicy

/-- The truth value of a value. -/
def readFlag (value : String) : Except Error Bool :=
  match Text.lower (Text.trim value) with
  | "1" | "true" | "yes" => .ok true
  | "0" | "false" | "no" | "" => .ok false
  | _ => .error (.badFlag value)

/-- What a variable says, or `default` where it is not set. -/
def ofVariable {α : Type} (read : String → Except Error α) (default : α) :
    Option String → Except Error α
  | some value => read value
  | none => .ok default

/-- The settings of an environment. -/
def ofEnvironment (valueOf : String → Option String) : Except Error Settings := do
  return {
    stepBudget := ← ofVariable readBudget none (valueOf budgetVariable)
    policy := ← ofVariable readPolicy .batch (valueOf policyVariable)
    ascii := ← ofVariable readFlag false (valueOf asciiVariable) }

/-! ## Text -/

/-- The settings as one line for the log. -/
def text (s : Settings) : String :=
  let budget :=
    match s.stepBudget with
    | some n => "Some(" ++ Numeral.ofNat n ++ ")"
    | none => "None"
  let policy :=
    match s.policy with
    | .batch => "Batch"
    | .streaming => "Streaming"
  "RunConfig \x7b step_budget: " ++ budget ++ ", input_policy: " ++ policy ++ ", ascii: " ++
    (if s.ascii then "true" else "false") ++ " \x7d"

end Settings

end Intcode
