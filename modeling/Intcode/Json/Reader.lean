import Intcode.Json.Basic

/-!
# Reading JSON

The strict grammar: no comma before a closing bracket, no sign but a minus, no leading zero, no control
character in a string, nothing behind the value but blanks. A reader gives the rest of the text with what
it has read. Nested values are read with fuel; twice the length of the text is always enough, as every
second step uses up a character.
-/

namespace Intcode.Json

/-- The character may stand between two tokens. -/
def isSpace (c : Char) : Bool :=
  c = ' ' || c = '\t' || c = '\n' || c = '\r'

/-- The text behind blanks. -/
def skip (cs : List Char) : List Char :=
  cs.dropWhile isSpace

/-! ## Strings -/

/-- Reads a string up to its closing quote, behind the reversed characters `seen` of it. -/
def readString (seen : List Char) : List Char → Option (String × List Char)
  | [] => none
  | '"' :: cs => some (String.ofList seen.reverse, cs)
  | '\\' :: 'u' :: a :: b :: c :: d :: cs =>
    if (unit? a b c d).isSome then readString (d :: c :: b :: a :: 'u' :: '\\' :: seen) cs else none
  | '\\' :: e :: cs => if (shortEscape? e).isSome then readString (e :: '\\' :: seen) cs else none
  | c :: cs => if c.toNat < 0x20 ∨ c = '\\' then none else readString (c :: seen) cs

/-! ## Numbers -/

/-- Splits digits off, of which there has to be one. -/
def readDigits (cs : List Char) : Option (List Char × List Char) :=
  match cs.takeWhile Char.isDigit with
  | [] => none
  | ds => some (ds, cs.dropWhile Char.isDigit)

/-- Reads the digits before a point: a zero stands alone. -/
def readWhole : List Char → Option (List Char × List Char)
  | '0' :: cs => some (['0'], cs)
  | cs => readDigits cs

/-- Reads a point with digits, if there is one. -/
def readFraction : List Char → Option (List Char × List Char)
  | '.' :: cs => (readDigits cs).map fun (ds, rest) => ('.' :: ds, rest)
  | cs => some ([], cs)

/-- Reads an exponent, if there is one. -/
def readExponent : List Char → Option (List Char × List Char)
  | e :: cs =>
    if e = 'e' ∨ e = 'E' then
      match cs with
      | sign :: cs' =>
        if sign = '+' ∨ sign = '-' then
          (readDigits cs').map fun (ds, rest) => (e :: sign :: ds, rest)
        else
          (readDigits cs).map fun (ds, rest) => (e :: ds, rest)
      | [] => none
    else
      some ([], e :: cs)
  | [] => some ([], [])

/-- Reads a number without its sign. -/
def readUnsigned (cs : List Char) : Option (List Char × List Char) := do
  let (whole, cs) ← readWhole cs
  let (fraction, cs) ← readFraction cs
  let (exponent, cs) ← readExponent cs
  return (whole ++ fraction ++ exponent, cs)

/-- Reads a number. -/
def readNumber : List Char → Option (List Char × List Char)
  | '-' :: cs => (readUnsigned cs).map fun (text, rest) => ('-' :: text, rest)
  | cs => readUnsigned cs

/-! ## Values -/

mutual

/-- Reads one value behind blanks. -/
def readValue : (fuel : Nat) → List Char → Option (Json × List Char)
  | 0, _ => none
  | fuel + 1, cs =>
    match skip cs with
    | '\x7b' :: cs =>
      match skip cs with
      | '\x7d' :: cs => some (.object [], cs)
      | cs => readMembers fuel [] cs
    | '[' :: cs =>
      match skip cs with
      | ']' :: cs => some (.array [], cs)
      | cs => readItems fuel [] cs
    | '"' :: cs => (readString [] cs).map fun (body, rest) => (.string body, rest)
    | 't' :: 'r' :: 'u' :: 'e' :: cs => some (.bool true, cs)
    | 'f' :: 'a' :: 'l' :: 's' :: 'e' :: cs => some (.bool false, cs)
    | 'n' :: 'u' :: 'l' :: 'l' :: cs => some (.null, cs)
    | cs => (readNumber cs).map fun (text, rest) => (.number (String.ofList text), rest)

/-- Reads items up to the end of an array, behind the reversed items `seen` of it. -/
def readItems : (fuel : Nat) → (seen : List Json) → List Char → Option (Json × List Char)
  | 0, _, _ => none
  | fuel + 1, seen, cs =>
    match readValue fuel cs with
    | none => none
    | some (item, cs) =>
      match skip cs with
      | ',' :: cs => readItems fuel (item :: seen) cs
      | ']' :: cs => some (.array (item :: seen).reverse, cs)
      | _ => none

/-- Reads members up to the end of an object, behind the reversed members `seen` of it. -/
def readMembers : (fuel : Nat) → (seen : List (String × Json)) → List Char →
    Option (Json × List Char)
  | 0, _, _ => none
  | fuel + 1, seen, cs =>
    match skip cs with
    | '"' :: cs =>
      match readString [] cs with
      | none => none
      | some (key, cs) =>
        match skip cs with
        | ':' :: cs =>
          match readValue fuel cs with
          | none => none
          | some (value, cs) =>
            match skip cs with
            | ',' :: cs => readMembers fuel ((key, value) :: seen) cs
            | '\x7d' :: cs => some (.object ((key, value) :: seen).reverse, cs)
            | _ => none
        | _ => none
    | _ => none

end

/-- The tree of a text that holds one value and nothing else but blanks. -/
def read? (s : String) : Option Json :=
  let cs := s.toList
  match readValue (2 * cs.length + 2) cs with
  | some (j, rest) => if (skip rest).isEmpty then some j else none
  | none => none

end Intcode.Json
