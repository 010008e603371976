import Intcode.Json.Escape

/-!
# JSON trees

A tree keeps numbers and strings as they are written, a number as its text and a string as what stands
between its quotes, since not every text that is a number or a string has a value that a reader of the
tree wants. Written trees have no blanks; the wide form has one entry a line, two spaces deeper for each
level.
-/

namespace Intcode

/-- A JSON text as a tree. -/
inductive Json where
  | null
  | bool (b : Bool)
  /-- A number by its text. -/
  | number (text : String)
  /-- A string by its text between the quotes. -/
  | string (body : String)
  | array (items : List Json)
  /-- An object with the text of each key between the quotes, in the written order. -/
  | object (members : List (String × Json))
  deriving Inhabited

namespace Json

/-! ## Making -/

/-- An integer. -/
def int (i : Int) : Json :=
  .number (Numeral.ofInt i)

/-- A natural number. -/
def nat (n : Nat) : Json :=
  .number (Numeral.ofNat n)

/-- A word. -/
def word (w : Word) : Json :=
  .number (Numeral.ofWord w)

/-- An address. -/
def address (a : Address) : Json :=
  .number (Numeral.ofAddress a)

/-- A text. -/
def text (s : String) : Json :=
  .string (escape s)

/-- A list of words. -/
def words (ws : List Word) : Json :=
  .array (ws.map word)

/-! ## Writing -/

mutual

/-- Writes a tree without blanks behind `out`. -/
def writeTo (out : String) : Json → String
  | .null => out ++ "null"
  | .bool true => out ++ "true"
  | .bool false => out ++ "false"
  | .number text => out ++ text
  | .string body => ((out.push '"') ++ body).push '"'
  | .array items => (writeItems "" (out.push '[') items).push ']'
  | .object members => (writeMembers "" (out ++ "\x7b") members) ++ "\x7d"

/-- Writes the items of an array, each behind a comma but the first, which is behind `sep`. -/
def writeItems (sep out : String) : List Json → String
  | [] => out
  | item :: items => writeItems "," (writeTo (out ++ sep) item) items

/-- Writes the members of an object, each behind a comma but the first, which is behind `sep`. -/
def writeMembers (sep out : String) : List (String × Json) → String
  | [] => out
  | (key, value) :: members =>
    writeMembers "," (writeTo (out ++ sep ++ "\"" ++ key ++ "\":") value) members

end

/-- The text of a tree, without blanks. -/
def write (j : Json) : String :=
  writeTo "" j

/-- A line end and the blanks of a level. -/
def lineBreak (level : Nat) : String :=
  String.ofList ('\n' :: List.replicate (2 * level) ' ')

mutual

/-- Writes a tree behind `out` with one entry a line. -/
def writeWideTo (level : Nat) (out : String) : Json → String
  | .array [] => out ++ "[]"
  | .array (item :: items) =>
    (writeWideItems (level + 1) "" (out.push '[') (item :: items) ++ lineBreak level).push ']'
  | .object [] => out ++ "\x7b\x7d"
  | .object (m :: members) =>
    writeWideMembers (level + 1) "" (out ++ "\x7b") (m :: members) ++ lineBreak level ++ "\x7d"
  | j => writeTo out j

/-- Writes the items of an array on lines of their own. -/
def writeWideItems (level : Nat) (sep out : String) : List Json → String
  | [] => out
  | item :: items =>
    writeWideItems level "," (writeWideTo level (out ++ sep ++ lineBreak level) item) items

/-- Writes the members of an object on lines of their own. -/
def writeWideMembers (level : Nat) (sep out : String) : List (String × Json) → String
  | [] => out
  | (key, value) :: members =>
    writeWideMembers level ","
      (writeWideTo level (out ++ sep ++ lineBreak level ++ "\"" ++ key ++ "\": ") value) members

end

/-- The text of a tree with one entry a line. -/
def writeWide (j : Json) : String :=
  writeWideTo 0 "" j

end Json

end Intcode
