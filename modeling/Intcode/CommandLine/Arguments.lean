/-!
# Command line arguments

Arguments are options and other words. An option has a long name, behind two hyphens, and may have a short
one, behind one hyphen; short names can be joined. A value follows as the next argument or is attached: to
a long name behind an equals sign, to a short name with or without one. Only some options take a next
argument that starts with a hyphen. Behind two lone hyphens there are no more options.
-/

namespace Intcode.CommandLine

/-- What stands behind an option. -/
inductive Takes where
  | nothing
  /-- A value; as an argument of its own it starts with no hyphen, unless it is just one. -/
  | value
  /-- A value of any form. -/
  | anyValue
  deriving DecidableEq, Repr, Inhabited

/-- An option that a command knows. -/
structure Spec where
  long : String
  short : Option Char := none
  takes : Takes := .nothing
  /-- It may be given more than once. -/
  repeats : Bool := false
  deriving DecidableEq, Repr, Inhabited

/-- What arguments say. -/
structure Arguments where
  /-- The given options in order, by their long names, with their values; a flag has an empty one. -/
  options : List (String × String) := []
  /-- The other words in order. -/
  words : List String := []
  deriving DecidableEq, Repr, Inhabited

namespace Arguments

/-! ## Access -/

/-- The values of an option in order. -/
def values (a : Arguments) (name : String) : List String :=
  (a.options.filter (·.1 = name)).map (·.2)

/-- The value of an option, if it is given. -/
def value? (a : Arguments) (name : String) : Option String :=
  (a.values name).head?

/-- The option is given. -/
def has (a : Arguments) (name : String) : Bool :=
  (a.value? name).isSome

/-- No option is given more often than it may be. -/
def respects (a : Arguments) (specs : List Spec) : Bool :=
  specs.all fun spec => spec.repeats || (a.values spec.long).length ≤ 1

/-! ## Reading -/

/-- How an argument begins. -/
inductive Form where
  /-- Two hyphens and nothing else. -/
  | separator
  /-- A long name, with the value behind its equals sign. -/
  | long (name : String) (attached : Option String)
  /-- Short names, the last of them maybe with a value. -/
  | short (names : List Char)
  | word
  deriving DecidableEq, Repr, Inhabited

/-- The form of an argument. -/
def form (argument : String) : Form :=
  match argument.toList with
  | ['-', '-'] => .separator
  | '-' :: '-' :: cs =>
    match cs.dropWhile (· ≠ '=') with
    | [] => .long (String.ofList cs) none
    | _ :: value => .long (String.ofList (cs.takeWhile (· ≠ '='))) (some (String.ofList value))
  | ['-'] => .word
  | '-' :: cs => .short cs
  | _ => .word

/-- The options of joined short names, and the one of them that waits for its value. A value that is
attached to the last name is taken with it. -/
def readShort (specs : List Spec) (seen : List (String × String)) :
    List Char → Option (List (String × String) × Option Spec)
  | [] => some (seen, none)
  | c :: cs =>
    match specs.find? (·.short = some c) with
    | none => none
    | some spec =>
      if spec.takes = .nothing then readShort specs (seen ++ [(spec.long, "")]) cs
      else
        match cs with
        | [] => some (seen, some spec)
        | '=' :: value => some (seen ++ [(spec.long, String.ofList value)], none)
        | value => some (seen ++ [(spec.long, String.ofList value)], none)

/-- The options of a long name, and itself if it waits for its value. -/
def readLong (specs : List Spec) (name : String) (attached : Option String) :
    Option (List (String × String) × Option Spec) :=
  match specs.find? (·.long = name) with
  | none => none
  | some spec =>
    match spec.takes, attached with
    | .nothing, none => some ([(spec.long, "")], none)
    | .nothing, some _ => none
    | _, some value => some ([(spec.long, value)], none)
    | _, none => some ([], some spec)

/-- The argument can be the value of an option that waits for one. -/
def isValueOf (spec : Spec) (argument : String) : Bool :=
  spec.takes = .anyValue || form argument = .word

/-- Reads arguments behind those in `a`; the option `waiting` has no value yet. -/
def readFrom (specs : List Spec) (a : Arguments) (waiting : Option Spec) :
    List String → Option Arguments
  | [] => if waiting.isSome then none else some a
  | argument :: rest =>
    match waiting with
    | some spec =>
      if isValueOf spec argument then
        readFrom specs { a with options := a.options ++ [(spec.long, argument)] } none rest
      else
        none
    | none =>
      match form argument with
      | .separator => some { a with words := a.words ++ rest }
      | .word => readFrom specs { a with words := a.words ++ [argument] } none rest
      | .long name attached =>
        match readLong specs name attached with
        | none => none
        | some (options, waiting) =>
          readFrom specs { a with options := a.options ++ options } waiting rest
      | .short names =>
        match readShort specs [] names with
        | none => none
        | some (options, waiting) =>
          readFrom specs { a with options := a.options ++ options } waiting rest

/-- Reads the arguments of a command that knows the options `specs`. -/
def read? (specs : List Spec) (arguments : List String) : Option Arguments :=
  (readFrom specs {} none arguments).filter (·.respects specs)

end Arguments

end Intcode.CommandLine
