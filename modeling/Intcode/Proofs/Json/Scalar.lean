import Mathlib.Data.List.Basic
import Intcode.Json.Decode

/-!
# Numbers and strings in JSON texts

What the reader of JSON texts takes off the front of a text that begins with a written integer or a written
string. A number has no end of its own, so it is read up to what follows it, and the statements are for what
follows a value in a written text.
-/

namespace Intcode

/-! ## Numerals -/

namespace Numeral

theorem head?_toDigits_ne {n : Nat} (h : 0 < n) : (Nat.toDigits 10 n).head? ≠ some '0' := by
  induction n using Nat.strongRecOn with
  | ind n ih =>
      rw [Nat.toDigits_eq_if (by omega)]
      split
      · rename_i hlt
        have : ∀ m : Fin 10, 0 < m.val → m.val.digitChar ≠ '0' := by decide
        simpa using this ⟨n, hlt⟩ h
      · have hrest := ih (n / 10) (by omega) (by omega)
        cases hds : Nat.toDigits 10 (n / 10) with
        | nil => exact absurd hds Nat.toDigits_ne_nil
        | cons d ds => simpa [hds] using hrest

theorem exists_cons_ofNat (n : Nat) :
    ∃ d ds, (ofNat n).toList = d :: ds ∧ d.isDigit ∧ ds.all Char.isDigit := by
  obtain ⟨d, ds, hds⟩ := List.exists_cons_of_ne_nil (toList_ofNat_ne_nil n)
  have hall := all_isDigit_ofNat n
  rw [hds, List.all_cons, Bool.and_eq_true] at hall
  exact ⟨d, ds, hds, hall⟩

/-- A natural number is written as a zero alone, or with another digit in front. -/
theorem toList_ofNat_cases (n : Nat) :
    (n = 0 ∧ (ofNat n).toList = ['0']) ∨
      ∃ d ds, (ofNat n).toList = d :: ds ∧ d ≠ '0' ∧ d.isDigit ∧ ds.all Char.isDigit := by
  obtain rfl | hn := Nat.eq_zero_or_pos n
  · exact .inl ⟨rfl, rfl⟩
  · obtain ⟨d, ds, hds, hall⟩ := exists_cons_ofNat n
    refine .inr ⟨d, ds, hds, ?_, hall⟩
    rintro rfl
    exact head?_toDigits_ne hn (by rw [← Nat.toList_repr, ← ofNat, hds]; rfl)

/-- A character that the numeral of an integer begins with. -/
def Leads (c : Char) : Prop :=
  c = '-' ∨ c.isDigit

theorem exists_cons_ofInt (i : Int) : ∃ c cs, (ofInt i).toList = c :: cs ∧ Leads c := by
  cases i with
  | ofNat n =>
      obtain ⟨d, ds, hds, hd, -⟩ := exists_cons_ofNat n
      exact ⟨d, ds, hds, .inr hd⟩
  | negSucc n => exact ⟨'-', (ofNat (n + 1)).toList, by simp [ofInt], .inl rfl⟩

end Numeral

namespace Json

theorem plainInt?_ofNat (n : Nat) : plainInt? (Numeral.ofNat n).toList = some (n : Int) := by
  have hn := Numeral.natural?_ofNat n
  obtain ⟨rfl, hz⟩ | ⟨d, ds, hds, hd, hdigit, -⟩ := Numeral.toList_ofNat_cases n
  · rw [hz]; rfl
  · have hminus : d ≠ '-' := by rintro rfl; cases hdigit
    rw [hds] at hn ⊢
    rw [plainInt?.eq_def]
    split <;> simp_all

theorem plainInt?_neg (n : Nat) :
    plainInt? ('-' :: (Numeral.ofNat (n + 1)).toList) = some (Int.negSucc n) := by
  have hn := Numeral.natural?_ofNat (n + 1)
  obtain ⟨h, -⟩ | ⟨d, ds, hds, hd, -⟩ := Numeral.toList_ofNat_cases (n + 1)
  · cases h
  · rw [hds] at hn ⊢
    rw [plainInt?.eq_def]
    split <;> simp_all [Int.negSucc_eq]

@[simp] theorem plainInt?_ofInt (i : Int) : plainInt? (Numeral.ofInt i).toList = some i := by
  cases i with
  | ofNat n => exact plainInt?_ofNat n
  | negSucc n => simpa [Numeral.ofInt] using plainInt?_neg n

/-! ## Reading numbers -/

/-- What may follow a value in a written text: its end, or one of three characters. -/
inductive Delimited : List Char → Prop
  | nil : Delimited []
  | comma (cs : List Char) : Delimited (',' :: cs)
  | bracket (cs : List Char) : Delimited (']' :: cs)
  | brace (cs : List Char) : Delimited ('\x7d' :: cs)

variable {rest : List Char}

theorem Delimited.takeWhile_isDigit (h : Delimited rest) : rest.takeWhile Char.isDigit = [] := by
  cases h <;> rfl

theorem Delimited.dropWhile_isDigit (h : Delimited rest) : rest.dropWhile Char.isDigit = rest := by
  cases h <;> rfl

theorem Delimited.readFraction (h : Delimited rest) : readFraction rest = some ([], rest) := by
  cases h <;> rfl

theorem Delimited.readExponent (h : Delimited rest) : readExponent rest = some ([], rest) := by
  cases h <;> rfl

theorem readDigits_append {d : Char} {ds : List Char} (hd : d.isDigit) (hds : ds.all Char.isDigit)
    (h : Delimited rest) : readDigits (d :: ds ++ rest) = some (d :: ds, rest) := by
  have hall : ∀ c ∈ d :: ds, c.isDigit = true := by
    simpa [hd] using hds
  rw [readDigits, List.takeWhile_append_of_pos hall, List.dropWhile_append_of_pos hall,
    h.takeWhile_isDigit, h.dropWhile_isDigit, List.append_nil]

theorem readWhole_ofNat (n : Nat) (h : Delimited rest) :
    readWhole ((Numeral.ofNat n).toList ++ rest) = some ((Numeral.ofNat n).toList, rest) := by
  obtain ⟨rfl, hz⟩ | ⟨d, ds, hds, hd, hdigit, hall⟩ := Numeral.toList_ofNat_cases n
  · rw [hz]; rfl
  · rw [hds, ← readDigits_append hdigit hall h, readWhole.eq_def]
    split <;> simp_all

theorem readUnsigned_ofNat (n : Nat) (h : Delimited rest) :
    readUnsigned ((Numeral.ofNat n).toList ++ rest) = some ((Numeral.ofNat n).toList, rest) := by
  simp [readUnsigned, readWhole_ofNat n h, h.readFraction, h.readExponent]

theorem readNumber_ofInt (i : Int) (h : Delimited rest) :
    readNumber ((Numeral.ofInt i).toList ++ rest) = some ((Numeral.ofInt i).toList, rest) := by
  cases i with
  | ofNat n =>
      have hread := readUnsigned_ofNat n h
      obtain ⟨d, ds, hds, hd, -⟩ := Numeral.exists_cons_ofNat n
      rw [Numeral.ofInt]
      rw [hds] at hread ⊢
      rw [← hread, readNumber.eq_def]
      split
      · rename_i hminus
        cases hminus
        cases hd
      · rfl
  | negSucc n => simp [Numeral.ofInt, readNumber, readUnsigned_ofNat (n + 1) h]

/-! ## Reading strings -/

/-- A reader of strings takes a character as it is written whole. -/
theorem readString_escapeChar (seen : List Char) (c : Char) (cs : List Char) :
    readString seen (escapeChar c ++ cs) = readString ((escapeChar c).reverse ++ seen) cs := by
  unfold escapeChar
  split
  · rfl
  · rfl
  · rfl
  · rfl
  · rfl
  · rfl
  · rfl
  · split
    · simp [readString, unit?_zero_zero (show c.toNat < 256 by omega)]
    · rename_i hslash _ _ _ _ _ hlow
      have hplain : ¬ (c.toNat < 0x20 ∨ c = '\\') := by
        rintro (h | h)
        · exact hlow h
        · exact hslash h
      rw [List.singleton_append, readString, if_neg hplain]
      all_goals simp_all

theorem readString_flatMap (seen cs rest : List Char) :
    readString seen (cs.flatMap escapeChar ++ '"' :: rest) =
      some (String.ofList (seen.reverse ++ cs.flatMap escapeChar), rest) := by
  induction cs generalizing seen with
  | nil => simp [readString]
  | cons c cs ih => simp [List.flatMap_cons, List.append_assoc, readString_escapeChar, ih]

theorem readString_escape (s : String) (rest : List Char) :
    readString [] ((escape s).toList ++ '"' :: rest) = some (escape s, rest) := by
  simpa [escape] using readString_flatMap [] s.toList rest

theorem escape_eq_self {s : String} (h : ∀ c ∈ s.toList, escapeChar c = [c]) : escape s = s := by
  rw [escape, List.flatMap_congr h, List.flatMap_singleton', String.ofList_toList]

/-- Digits stand in a string as they are. -/
theorem escape_ofNat (n : Nat) : escape (Numeral.ofNat n) = Numeral.ofNat n := by
  refine escape_eq_self fun c hc => ?_
  have hdigit := List.all_eq_true.1 (Numeral.all_isDigit_ofNat n) c hc
  unfold escapeChar
  split
  any_goals cases hdigit
  simp only [Char.isDigit, Bool.and_eq_true, decide_eq_true_eq] at hdigit
  have hle : '0'.toNat ≤ c.toNat := hdigit.1
  rw [if_neg (by have : '0'.toNat = 48 := rfl; omega)]

end Json

end Intcode
