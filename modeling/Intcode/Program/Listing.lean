import Intcode.Instruction.Decode
import Intcode.Program.Basic
import Intcode.Text.Columns

/-!
# Listings

A listing goes through a program from its first cell on. A word that decodes and has all its parameters
before the end of the program makes a line of its own with them; any other word is a line of data. Since
programs change themselves as they run, a listing is no more than a first view of them.
-/

namespace Intcode.Program

/-- One line of a listing. -/
inductive Line where
  /-- An instruction with the words of its parameters. -/
  | code (i : Instruction) (operands : List Word)
  /-- A word that is no instruction. -/
  | data (w : Word)
  deriving DecidableEq, Repr, Inhabited

namespace Line

/-- The number of cells on the line. -/
def width : Line → Nat
  | code i _ => i.width
  | data _ => 1

/-- An operand as its mode shows it. -/
def operandText (mode : Mode) (w : Word) : String :=
  match mode with
  | .position => "[" ++ Numeral.ofWord w ++ "]"
  | .immediate => Numeral.ofWord w
  | .relative =>
    if w < 0 then "[rb" ++ Numeral.ofWord w ++ "]" else "[rb+" ++ Numeral.ofWord w ++ "]"

/-- The line at an address, without its end. -/
def text (address : Nat) (line : Line) : String :=
  Text.alignRight 5 (Numeral.ofNat address) ++ ": " ++
    match line with
    | code i operands =>
      Text.alignLeft 5 i.opcode.mnemonic ++
        ", ".intercalate (i.parameters.zipWith (fun p w => operandText (i.modes.get p) w) operands)
    | data w => "DATA " ++ Numeral.ofWord w

/-- The line that a word starts, with the words behind it. -/
def first (w : Word) (rest : List Word) : Line :=
  match Instruction.decode w with
  | .ok i =>
    let operands := rest.take i.opcode.arity
    if operands.length = i.opcode.arity then code i operands else data w
  | .error _ => data w

end Line

/-- The lines of the cells, the first of which is at `address`, each with its own address. -/
def linesFrom (address : Nat) : List Word → List (Nat × Line)
  | [] => []
  | w :: rest =>
    let line := Line.first w rest
    (address, line) :: linesFrom (address + line.width) (rest.drop (line.width - 1))
termination_by ws => ws.length
decreasing_by simp only [List.length_drop, List.length_cons]; omega

/-- The lines of a program with their addresses. -/
def lines (p : Program) : List (Nat × Line) :=
  linesFrom 0 p.cells

/-- The listing of a program. -/
def listing (p : Program) : String :=
  String.join (p.lines.map fun (address, line) => line.text address ++ "\n")

end Intcode.Program
