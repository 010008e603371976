import Intcode.Error
import Intcode.Memory.Basic

/-!
# Memory from outside

A host names cells by words. A negative word names no cell.
-/

namespace Intcode.Memory

/-- The address that a host's word names. -/
def place (w : Word) : Except Error Address :=
  match w.address? with
  | some a => .ok a
  | none => .error (.negativeAddress w)

/-- The word at a host's place. -/
def read (m : Memory) (w : Word) : Except Error Word :=
  (place w).map m.get

/-- Stores a word at a host's place. -/
def write (m : Memory) (w value : Word) : Except Error Memory :=
  (place w).map (m.set · value)

end Intcode.Memory
