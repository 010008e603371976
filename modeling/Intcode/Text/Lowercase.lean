import Intcode.Text.CaseTable

/-!
# Lower case

Every letter is replaced by its lower-case form. Two letters stand out: the capital I with a dot becomes
two characters, and a capital sigma at the end of a word takes its final form. The end of a word is where
a cased letter precedes and none follows, characters without part in words passed over.
-/

namespace Intcode.Text

/-- A code point is in one of the runs. -/
def inRuns (runs : List (Nat × Nat)) (n : Nat) : Bool :=
  runs.any fun run => run.1 ≤ n && n ≤ run.2

/-- The lower-case form of a character that has one of one character, else the character. -/
def lowerChar (c : Char) : Char :=
  if c.toNat < 128 then c.toLower
  else
    match lowerRuns.find? fun run =>
        run.first ≤ c.toNat && c.toNat ≤ run.last && (c.toNat - run.first) % run.stride == 0 with
    | some run => Char.ofNat (c.toNat + run.shift).toNat
    | none => c

/-- The next character that is not passed over has a case. -/
def casedFollows (cs : List Char) : Bool :=
  match cs.dropWhile fun c => inRuns ignorableRuns c.toNat with
  | c :: _ => inRuns casedRuns c.toNat
  | [] => false

/-- The lower-case form of the characters `cs` behind the reversed characters `before`. -/
def lowerChars (before : List Char) : List Char → List Char
  | [] => []
  | c :: cs =>
    let form :=
      if c = 'Σ' then
        if casedFollows before && !casedFollows cs then ['ς'] else ['σ']
      else if c = 'İ' then ['i', '\u0307']
      else [lowerChar c]
    form ++ lowerChars (c :: before) cs

/-- The text in lower case. -/
def lower (s : String) : String :=
  String.ofList (lowerChars [] s.toList)

end Intcode.Text
