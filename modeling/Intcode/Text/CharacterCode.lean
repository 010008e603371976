import Intcode.Word

/-!
# Character codes

Programs that talk in text exchange the code points of characters, one word each. A word that is no code
point is rendered as the replacement character. Such a program often ends with one number instead of
text: a last word beyond the ASCII range is taken for that answer.
-/

namespace Intcode.Text

/-- The code points of a text. -/
def encode (s : String) : List Word :=
  s.toList.map fun c => Int64.ofNat c.toNat

/-- The character with a code point. -/
def charOf? (w : Word) : Option Char :=
  let n := w.toInt.toNat
  if 0 ≤ w.toInt ∧ n.isValidChar then some (Char.ofNat n) else none

/-- The character with a code point, or the replacement character. -/
def charOf (w : Word) : Char :=
  (charOf? w).getD '\uFFFD'

/-- The text that words spell. -/
def render (ws : List Word) : String :=
  String.ofList (ws.map charOf)

/-- The word is an ASCII character. -/
def isAscii (w : Word) : Bool :=
  0 ≤ w.toInt && w.toInt ≤ 0x7F

/-- The text of an output and the answer behind it. -/
def splitAnswer (ws : List Word) : String × Option Word :=
  match ws.getLast? with
  | some last => if isAscii last then (render ws, none) else (render ws.dropLast, some last)
  | none => (render ws, none)

/-! ## Code points -/

theorem toInt_ofNat_toNat (c : Char) : (Int64.ofNat c.toNat).toInt = c.toNat := by
  have hlt : c.toNat < 4294967296 := c.val.toNat_lt
  exact Int64.toInt_ofNat_of_lt (by omega)

@[simp] theorem charOf?_code (c : Char) : charOf? (Int64.ofNat c.toNat) = some c := by
  have hvalid : c.toNat.isValidChar := c.valid
  rw [charOf?, toInt_ofNat_toNat, Int.toNat_natCast, if_pos ⟨by omega, hvalid⟩, Char.ofNat_toNat]

/-- What is encoded is rendered as it was. -/
theorem render_encode (s : String) : render (encode s) = s := by
  simp [render, encode, charOf, Function.comp_def]

end Intcode.Text
