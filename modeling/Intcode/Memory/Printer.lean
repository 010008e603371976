import Intcode.Memory.Basic
import Intcode.Numeral

/-!
# Memory as text

The dense part in brackets, then, where there are far cells, those with their addresses in braces.
-/

namespace Intcode.Memory

/-- Both parts of a memory on one line. -/
def text (m : Memory) : String :=
  let dense := "Memory: [" ++ ", ".intercalate (m.dense.toList.map Numeral.ofWord) ++ "]"
  let farCell := fun (c : Address × Word) => Numeral.ofAddress c.1 ++ ": " ++ Numeral.ofWord c.2
  if m.far.isEmpty then dense
  else dense ++ " + \x7b" ++ ", ".intercalate (m.far.toList.map farCell) ++ "\x7d"

end Intcode.Memory
