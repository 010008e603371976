import Intcode.Json.Decode
import Intcode.Memory.Basic

/-!
# Memory in JSON

Both parts are written, the far cells as an object with addresses for keys. Any two parts are read, also
far cells among the dense ones; of several far cells at one address the last counts.
-/

namespace Intcode.Memory

/-- Memory as a record of its two parts. -/
def toJson (m : Memory) : Json :=
  .object
    [("dense", .words m.dense.toList),
      ("sparse", .object (m.far.toList.map fun (a, w) => (Numeral.ofAddress a, .word w)))]

/-- A far cell from its key's text and its value. -/
def farCell? (key : String) (value : Json) : Option (Address × Word) := do
  let a ← (Json.plainInt? key.toList).bind Address.ofInt?
  return (a, ← value.word?)

/-- The memory of a record; without far cells there are none. -/
def ofJson? (j : Json) : Option Memory :=
  match Json.fields? ["dense", "sparse"] j with
  | some [some dense, far] => do
    let dense := addressable (← dense.words?).toArray
    let far ← far.elim (some []) (Json.members? farCell?)
    return ofParts dense.1 (far.foldl (fun cells (a, w) => cells.insert a w) ∅) dense.2
  | _ => none

end Intcode.Memory
