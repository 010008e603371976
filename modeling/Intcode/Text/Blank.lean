/-!
# White space

The twenty-five characters with the property `White_Space`, and what depends on them: text without white
space at its ends, and the words of a line.
-/

namespace Intcode.Text

/-- The first and last code points of each run of white space. -/
def blankRuns : List (Nat × Nat) :=
  [(0x09, 0x0D), (0x20, 0x20), (0x85, 0x85), (0xA0, 0xA0), (0x1680, 0x1680), (0x2000, 0x200A),
    (0x2028, 0x2029), (0x202F, 0x202F), (0x205F, 0x205F), (0x3000, 0x3000)]

/-- The character is white space. -/
def isBlank (c : Char) : Bool :=
  blankRuns.any fun run => run.1 ≤ c.toNat && c.toNat ≤ run.2

/-- The characters without white space at either end. -/
def trimChars (cs : List Char) : List Char :=
  ((cs.dropWhile isBlank).reverse.dropWhile isBlank).reverse

/-- The text without white space at either end. -/
def trim (s : String) : String :=
  String.ofList (trimChars s.toList)

/-- The pieces between the characters that are `sep`, empty ones included. -/
def splitChars (sep : Char → Bool) (cs : List Char) : List (List Char) :=
  cs.foldr (fun c pieces =>
    match pieces with
    | piece :: rest => if sep c then [] :: piece :: rest else (c :: piece) :: rest
    | [] => [[c]]) [[]]

/-- The pieces of a text between commas, empty ones included. -/
def splitCommas (s : String) : List String :=
  (splitChars (· = ',') s.toList).map String.ofList

/-- The words of a text: its longest pieces without white space. -/
def words (s : String) : List String :=
  ((splitChars isBlank s.toList).filter (· ≠ [])).map String.ofList

theorem splitChars_ne_nil (sep : Char → Bool) (cs : List Char) : splitChars sep cs ≠ [] := by
  cases cs with
  | nil => simp [splitChars]
  | cons c cs =>
    simp only [splitChars, List.foldr_cons]
    split
    · split <;> simp
    · simp

end Intcode.Text
