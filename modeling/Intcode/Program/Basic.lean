import Intcode.Json.Decode
import Intcode.Text.Blank

/-!
# Programs

A program is the list of the cells that a machine starts with. Its text is the numerals of the cells
between commas; white space around the text and around each numeral is read over.
-/

namespace Intcode

/-- The cells that a machine starts with. -/
structure Program where
  cells : List Word
  deriving DecidableEq, Repr, Inhabited

namespace Program

/-- Why there is no program. -/
inductive Error where
  /-- The text has nothing but white space. -/
  | empty
  /-- The piece `token` at place `index`, counted from zero, is no numeral of a word. -/
  | invalidValue (index : Nat) (token : String)
  /-- The file cannot be read, for the reason that the system gives. -/
  | unreadable (reason : String)
  deriving DecidableEq, Repr, Inhabited

/-- The error in words. -/
def Error.message : Error → String
  | empty => "program is empty"
  | invalidValue index token =>
    "invalid value '" ++ token ++ "' at position " ++ Numeral.ofNat index
  | unreadable reason => "IO error: " ++ reason

/-- The image that a machine starts with. -/
def image (p : Program) : Array Word :=
  p.cells.toArray

/-! ## Text -/

/-- The cells of the pieces of a text, the first of which is at place `index`. -/
def readCells (index : Nat) (seen : List Word) : List String → Except Error (List Word)
  | [] => .ok seen.reverse
  | token :: tokens =>
    match Numeral.word? (Text.trim token) with
    | some w => readCells (index + 1) (w :: seen) tokens
    | none => .error (.invalidValue index token)

/-- Reads a program from its text. -/
def ofText (s : String) : Except Error Program :=
  let s := Text.trim s
  if s.isEmpty then .error .empty
  else (readCells 0 [] (Text.splitCommas s)).map Program.mk

/-- The text of a program. -/
def text (p : Program) : String :=
  ",".intercalate (p.cells.map Numeral.ofWord)

/-! ## JSON -/

/-- A program as a record. -/
def toJson (p : Program) : Json :=
  .object [("cells", .words p.cells)]

/-- The program of a record. -/
def ofJson? (j : Json) : Option Program :=
  match Json.fields? ["cells"] j with
  | some [some cells] => (cells.words?).map Program.mk
  | _ => none

end Program

end Intcode
