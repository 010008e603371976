import Intcode.Checkpoint.Basic

/-!
# Labelled checkpoints

A store holds one checkpoint under each of its labels, in the order of the labels' code points.
-/

namespace Intcode.Checkpoint

/-- Checkpoints by their labels. -/
structure Store where
  entries : Std.ExtTreeMap String Checkpoint := ∅

namespace Store

instance : Inhabited Store := ⟨{}⟩

variable (s : Store) (label : String)

/-! ## Checkpoints -/

/-- The checkpoint under a label. -/
def get : Except Error Checkpoint :=
  match s.entries[label]? with
  | some c => .ok c
  | none => .error (.unknownLabel label)

/-- Puts a checkpoint under a label, in the place of the one that is there. -/
def insert (c : Checkpoint) : Store :=
  ⟨s.entries.insert label c⟩

/-- Takes the checkpoint under a label away. -/
def remove : Except Error (Checkpoint × Store) :=
  (s.get label).map fun c => (c, ⟨s.entries.erase label⟩)

/-- There is a checkpoint under the label. -/
def contains : Bool :=
  s.entries.contains label

/-- The labels in use, in order. -/
def labels : List String :=
  s.entries.keys

/-- The number of labels in use. -/
def size : Nat :=
  s.entries.size

/-! ## Machines -/

/-- Keeps the state of a machine under a label. -/
def save (m : Machine) : Store :=
  s.insert label m.checkpoint

/-- The machine in the state kept under a label. -/
def restore (m : Machine) : Except Error Machine :=
  (s.get label).map m.restore

/-! ## Text -/

/-- A store as a record. -/
def toJson : Json :=
  .object [("checkpoints",
    .object (s.entries.toList.map fun (label, c) => (Json.escape label, c.toJson)))]

/-- An entry from its key's text and its value. -/
def entry? (key : String) (value : Json) : Option (String × Checkpoint) := do
  return (← Json.unescape? key, ← Checkpoint.ofJson? value)

/-- The store of a record; of several entries under one label the last counts. -/
def ofJson? (j : Json) : Option Store :=
  match Json.fields? ["checkpoints"] j with
  | some [some entries] => do
    let entries ← entries.members? entry?
    return ⟨entries.foldl (fun kept (label, c) => kept.insert label c) ∅⟩
  | _ => none

/-- The text of a store. -/
def text : String :=
  s.toJson.write

/-- Reads a store from its text. -/
def ofText (text : String) : Except Error Store :=
  match (Json.read? text).bind ofJson? with
  | some s => .ok s
  | none => .error .badCheckpoint

end Store

end Intcode.Checkpoint
