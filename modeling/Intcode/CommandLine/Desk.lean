import Std.Data.ExtTreeMap
import Intcode.CommandLine.Execute

/-!
# A desk to work at

A model of the world around a command: the files of one directory, the lines that will be typed, and what
has been shown. Names with a slash lead out of the directory, where there is nothing.
-/

namespace Intcode.CommandLine

/-- A line without its end, which is a line feed or a carriage return and a line feed. -/
def chomp (line : List Char) : List Char :=
  match line.reverse with
  | '\n' :: '\r' :: rest => rest.reverse
  | '\n' :: rest => rest.reverse
  | _ => line

/-- The lines of a text, the line feeds with them; what follows the last one is a line if it is anything. -/
def linesOf (seen : List Char) : List Char → List (List Char)
  | [] => if seen.isEmpty then [] else [seen.reverse]
  | '\n' :: cs => ('\n' :: seen).reverse :: linesOf [] cs
  | c :: cs => linesOf (c :: seen) cs

/-- What stands on a desk. -/
structure Desk where
  files : Std.ExtTreeMap String String := ∅
  /-- The lines that are still to be read. -/
  lines : List String := []
  /-- What has been shown as the result. -/
  out : String := ""
  /-- What has been shown beside the result. -/
  err : String := ""

namespace Desk

/-- The name is one that a file of the directory can have. -/
def isFileName (name : String) : Bool :=
  name ≠ "" && name ≠ "." && name ≠ ".." && !name.toList.contains '/' && !name.toList.contains '\x00'

/-- The files with one written over. -/
def writeFile (files : Std.ExtTreeMap String String) (name text : String) :
    Option (Std.ExtTreeMap String String) :=
  if isFileName name then some (files.insert name text) else none

/-- A desk with files and a text that will be typed. -/
def ofInput (files : Std.ExtTreeMap String String) (typed : String) : Desk where
  files
  lines := (linesOf [] typed.toList).map fun line => String.ofList (chomp line)

/-- The actions at a desk. -/
def host : Host (StateM Desk) where
  readFile name := do
    match (← get).files[name]? with
    | some text => return .ok text
    | none => return .error "No such file or directory (os error 2)"
  writeFile name text := do
    let desk ← get
    match writeFile desk.files name text with
    | some files => do
      set { desk with files }
      return true
    | none => return false
  readLine := do
    let desk ← get
    match desk.lines with
    | [] => return none
    | line :: lines => do
      set { desk with lines }
      return some line
  out s := modify fun desk => { desk with out := desk.out ++ s }
  err s := modify fun desk => { desk with err := desk.err ++ s }

end Desk

end Intcode.CommandLine
