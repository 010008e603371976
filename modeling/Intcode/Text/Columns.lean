/-!
# Columns

Text in a column of a given width, filled up with blanks on one side. Longer text is not cut.
-/

namespace Intcode.Text

/-- As many blanks as `s` lacks characters. -/
def fill (width : Nat) (s : String) : String :=
  String.ofList (List.replicate (width - s.length) ' ')

/-- The text at the right end of a column. -/
def alignRight (width : Nat) (s : String) : String :=
  fill width s ++ s

/-- The text at the left end of a column. -/
def alignLeft (width : Nat) (s : String) : String :=
  s ++ fill width s

end Intcode.Text
