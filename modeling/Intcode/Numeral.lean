import Intcode.Word

/-!
# Decimal numerals

Integers are written with the fewest decimal digits and a minus sign where one is needed. Read are
also a plus sign and leading zeros, but nothing else: one sign at most, then at least one ASCII
digit, then the end.
-/

namespace Intcode.Numeral

/-! ## Writing -/

/-- The decimal digits of a natural number. -/
def ofNat (n : Nat) : String :=
  n.repr

/-- The decimal digits of an integer, after a minus sign where it is negative. -/
def ofInt : Int → String
  | .ofNat n => ofNat n
  | .negSucc n => "-" ++ ofNat (n + 1)

/-- The numeral of a word. -/
def ofWord (w : Word) : String :=
  ofInt w.toInt

/-- The numeral of an address. -/
def ofAddress (a : Address) : String :=
  ofNat a.toNat

/-! ## Reading -/

/-- The natural number that one or more ASCII digits denote. -/
def natural? (cs : List Char) : Option Nat :=
  if cs ≠ [] ∧ cs.all Char.isDigit then some (Nat.ofDigitChars 10 cs 0) else none

/-- The integer that digits after at most one sign denote. -/
def integer? : List Char → Option Int
  | '+' :: cs => (natural? cs).map Int.ofNat
  | '-' :: cs => (natural? cs).map fun n => -(Int.ofNat n)
  | cs => (natural? cs).map Int.ofNat

/-- The word that a numeral denotes, where it is one and in range. -/
def word? (s : String) : Option Word :=
  (integer? s.toList).bind Word.ofInt?

/-! ## What is written is read -/

theorem all_isDigit_ofNat (n : Nat) : (ofNat n).toList.all Char.isDigit = true := by
  rw [ofNat, Nat.toList_repr, List.all_eq_true]
  intro c hc
  exact Nat.isDigit_of_mem_toDigits (by omega) (by omega) hc

theorem toList_ofNat_ne_nil (n : Nat) : (ofNat n).toList ≠ [] := by
  rw [ofNat, Nat.toList_repr]
  exact Nat.toDigits_ne_nil

theorem natural?_ofNat (n : Nat) : natural? (ofNat n).toList = some n := by
  rw [natural?, if_pos ⟨toList_ofNat_ne_nil n, all_isDigit_ofNat n⟩, ofNat, Nat.toList_repr,
    Nat.ofDigitChars_ten_toDigits]

/-- A digit is no sign, so digits are read as they are. -/
theorem integer?_of_all_isDigit {cs : List Char} (h : cs.all Char.isDigit = true) :
    integer? cs = (natural? cs).map Int.ofNat := by
  unfold integer?
  split
  · simp at h
  · simp at h
  · rfl

theorem integer?_ofInt (i : Int) : integer? (ofInt i).toList = some i := by
  cases i with
  | ofNat n => simp [ofInt, integer?_of_all_isDigit (all_isDigit_ofNat n), natural?_ofNat]
  | negSucc n => simp [ofInt, integer?, natural?_ofNat, Int.negSucc_eq]

@[simp] theorem word?_ofWord (w : Word) : word? (ofWord w) = some w := by
  simp [word?, ofWord, integer?_ofInt]

end Intcode.Numeral
