import Intcode.Json.Reader

/-!
# Values in JSON trees

Integers are numbers without point and exponent, in range, and never a minus zero. A record is an object
with its fields in any order, each at most once and unknown ones ignored, or an array with its fields in
their own order.
-/

namespace Intcode.Json

/-- The integer of a numeral as JSON writes it: no leading zero, no plus sign, no minus zero. -/
def plainInt? : List Char → Option Int
  | '-' :: '0' :: _ => none
  | '-' :: cs => (Numeral.natural? cs).map fun n => -(Int.ofNat n)
  | ['0'] => some 0
  | '0' :: _ => none
  | cs => (Numeral.natural? cs).map Int.ofNat

/-- The integer that a value is. -/
def int? : Json → Option Int
  | .number text => plainInt? text.toList
  | _ => none

/-- The word that a value is. -/
def word? (j : Json) : Option Word :=
  j.int?.bind Word.ofInt?

/-- The address that a value is. -/
def address? (j : Json) : Option Address :=
  j.int?.bind Address.ofInt?

/-- The truth value that a value is. -/
def bool? : Json → Option Bool
  | .bool b => some b
  | _ => none

/-- The text that a value is. -/
def text? : Json → Option String
  | .string body => unescape? body
  | _ => none

/-- The items of an array, each as `f` reads it. -/
def array? {α : Type} (f : Json → Option α) : Json → Option (List α)
  | .array items => items.mapM f
  | _ => none

/-- The words of an array. -/
def words? (j : Json) : Option (List Word) :=
  j.array? word?

/-- The members of an object, each as `f` reads its key's text and its value. -/
def members? {α : Type} (f : String → Json → Option α) : Json → Option (List α)
  | .object members => members.mapM fun (key, value) => f key value
  | _ => none

/-- Puts a value at the place of its field: not twice, and nowhere if no field has the name. -/
def placeField (names : List String) (values : List (Option Json)) (name : String) (value : Json) :
    Option (List (Option Json)) :=
  match names, values with
  | n :: ns, v :: vs =>
    if n = name then
      match v with
      | none => some (some value :: vs)
      | some _ => none
    else
      (placeField ns vs name value).map (v :: ·)
  | _, values => some values

/-- The values of a record's fields, in the order of the names. -/
def fields? (names : List String) : Json → Option (List (Option Json))
  | .object members =>
    members.foldlM (fun values (key, value) => do placeField names values (← unescape? key) value)
      (names.map fun _ => none)
  | .array items =>
    if items.length ≤ names.length then
      some (items.map some ++ List.replicate (names.length - items.length) none)
    else
      none
  | _ => none

end Intcode.Json
