import Intcode.Numeral

/-!
# Escapes in JSON strings

Written are the short escapes that exist, the numeric form for the other control characters, and every
other character as it is. Read are all escapes; a code unit of the upper surrogate range has to be followed
at once by an escape for its lower half, and neither half stands alone.
-/

namespace Intcode.Json

/-! ## Writing -/

/-- The digit of a value below sixteen. -/
def hexDigit (n : Nat) : Char :=
  if n < 10 then Char.ofNat ('0'.toNat + n) else Char.ofNat ('a'.toNat + (n - 10))

/-- How a character is written in a string. -/
def escapeChar : Char → List Char
  | '"' => ['\\', '"']
  | '\\' => ['\\', '\\']
  | '\n' => ['\\', 'n']
  | '\r' => ['\\', 'r']
  | '\t' => ['\\', 't']
  | '\x08' => ['\\', 'b']
  | '\x0c' => ['\\', 'f']
  | c =>
    if c.toNat < 0x20 then
      ['\\', 'u', '0', '0', hexDigit (c.toNat / 16), hexDigit (c.toNat % 16)]
    else
      [c]

/-- A text as it stands between the quotes. -/
def escape (s : String) : String :=
  String.ofList (s.toList.flatMap escapeChar)

/-! ## Reading -/

/-- The value of a hexadecimal digit in either case. -/
def hexValue? (c : Char) : Option Nat :=
  if c.isDigit then some (c.toNat - '0'.toNat)
  else if 'a' ≤ c ∧ c ≤ 'f' then some (c.toNat - 'a'.toNat + 10)
  else if 'A' ≤ c ∧ c ≤ 'F' then some (c.toNat - 'A'.toNat + 10)
  else none

/-- The code unit that four hexadecimal digits denote. -/
def unit? (a b c d : Char) : Option Nat := do
  return 4096 * (← hexValue? a) + 256 * (← hexValue? b) + 16 * (← hexValue? c) + (← hexValue? d)

/-- The character behind a backslash that a short escape stands for. -/
def shortEscape? : Char → Option Char
  | '"' => some '"'
  | '\\' => some '\\'
  | '/' => some '/'
  | 'b' => some '\x08'
  | 'f' => some '\x0c'
  | 'n' => some '\n'
  | 'r' => some '\r'
  | 't' => some '\t'
  | _ => none

/-- The character of a surrogate pair. -/
def pair? (high low : Nat) : Option Char :=
  if 0xD800 ≤ high ∧ high ≤ 0xDBFF ∧ 0xDC00 ≤ low ∧ low ≤ 0xDFFF then
    some (Char.ofNat (0x10000 + 1024 * (high - 0xD800) + (low - 0xDC00)))
  else
    none

/-- The code unit is half of a surrogate pair. -/
def isSurrogate (n : Nat) : Bool :=
  0xD800 ≤ n && n ≤ 0xDFFF

/-- The characters that the text between two quotes stands for, behind the reversed characters `seen`. -/
def unescapeTo (seen : List Char) : List Char → Option (List Char)
  | [] => some seen.reverse
  | '\\' :: 'u' :: a :: b :: c :: d :: cs =>
    match unit? a b c d with
    | none => none
    | some n =>
      if isSurrogate n then
        match cs with
        | '\\' :: 'u' :: a' :: b' :: c' :: d' :: cs' =>
          match (unit? a' b' c' d').bind (pair? n) with
          | some ch => unescapeTo (ch :: seen) cs'
          | none => none
        | _ => none
      else unescapeTo (Char.ofNat n :: seen) cs
  | '\\' :: e :: cs =>
    match shortEscape? e with
    | some ch => unescapeTo (ch :: seen) cs
    | none => none
  | '\\' :: [] => none
  | c :: cs => unescapeTo (c :: seen) cs

/-- The text that stands between two quotes, escapes replaced. -/
def unescape? (body : String) : Option String :=
  (unescapeTo [] body.toList).map String.ofList

/-! ## What is written is read -/

theorem hexValue?_hexDigit {n : Nat} (h : n < 16) : hexValue? (hexDigit n) = some n := by
  have : ∀ n : Fin 16, hexValue? (hexDigit n) = some n.val := by decide
  exact this ⟨n, h⟩

theorem unit?_zero_zero {n : Nat} (h : n < 256) :
    unit? '0' '0' (hexDigit (n / 16)) (hexDigit (n % 16)) = some n := by
  have hzero : hexValue? '0' = some 0 := rfl
  simp only [unit?, hzero, hexValue?_hexDigit (show n / 16 < 16 by omega),
    hexValue?_hexDigit (show n % 16 < 16 by omega), Option.pure_def, Option.bind_eq_bind,
    Option.bind_some]
  congr 1
  omega

/-- One character as it is written is read as itself. -/
theorem unescapeTo_escapeChar (seen : List Char) (c : Char) (cs : List Char) :
    unescapeTo seen (escapeChar c ++ cs) = unescapeTo (c :: seen) cs := by
  unfold escapeChar
  split
  · rfl
  · rfl
  · rfl
  · rfl
  · rfl
  · rfl
  · rfl
  · split
    · have hn : ¬ isSurrogate c.toNat = true := by simp [isSurrogate]; omega
      simp only [List.cons_append, List.nil_append, unescapeTo,
        unit?_zero_zero (show c.toNat < 256 by omega), if_neg hn, Char.ofNat_toNat]
    · rw [List.singleton_append, unescapeTo]
      all_goals simp_all

theorem unescapeTo_flatMap (seen cs : List Char) :
    unescapeTo seen (cs.flatMap escapeChar) = some (seen.reverse ++ cs) := by
  induction cs generalizing seen with
  | nil => simp [unescapeTo]
  | cons c cs ih => rw [List.flatMap_cons, unescapeTo_escapeChar, ih]; simp

@[simp] theorem unescape?_escape (s : String) : unescape? (escape s) = some s := by
  simp [unescape?, escape, unescapeTo_flatMap]

end Intcode.Json
