import Mathlib.Data.List.Induction
import Intcode.Numeral
import Intcode.Proofs.Text.Pieces

/-!
# What numerals denote

The numerals that are read, told by how they are put together: digits, each of which counts ten times as much as the one
behind it, after at most one sign. A number has many numerals; the one that is written is one of them.
-/

namespace Intcode.Numeral

variable {cs : List Char} {c : Char} {n : Nat} {i j : Int} {w : Word}

/-! ## Digits and signs -/

/-- One or more ASCII digits and the number that they denote. -/
inductive Digits : List Char → Nat → Prop where
  | single {c : Char} (hc : c.isDigit = true) : Digits [c] (c.toNat - '0'.toNat)
  | behind {cs : List Char} {n : Nat} {c : Char} (hcs : Digits cs n) (hc : c.isDigit = true) :
      Digits (cs ++ [c]) (10 * n + (c.toNat - '0'.toNat))

/-- Digits behind at most one sign and the integer that they denote. -/
inductive Denotes : List Char → Int → Prop where
  | plain {cs : List Char} {n : Nat} (h : Digits cs n) : Denotes cs n
  | plus {cs : List Char} {n : Nat} (h : Digits cs n) : Denotes ('+' :: cs) n
  | minus {cs : List Char} {n : Nat} (h : Digits cs n) : Denotes ('-' :: cs) (-n)

/-- The characters of numerals. -/
def InNumeral (c : Char) : Prop :=
  c = '+' ∨ c = '-' ∨ c.isDigit = true

instance (c : Char) : Decidable (InNumeral c) :=
  inferInstanceAs (Decidable (_ ∨ _))

theorem Digits.ne_nil (h : Digits cs n) : cs ≠ [] := by
  cases h <;> simp

theorem Digits.isDigit (h : Digits cs n) : ∀ c ∈ cs, c.isDigit = true := by
  induction h with
  | single hc => simpa using hc
  | behind _ hc ih =>
      intro c hmem
      rcases List.mem_append.1 hmem with hmem | hmem
      · exact ih c hmem
      · rwa [List.mem_singleton.1 hmem]

theorem ofDigitChars_behind (cs : List Char) (c : Char) :
    Nat.ofDigitChars 10 (cs ++ [c]) 0 = 10 * Nat.ofDigitChars 10 cs 0 + (c.toNat - '0'.toNat) := by
  rw [Nat.ofDigitChars_append, Nat.ofDigitChars_cons, Nat.ofDigitChars_nil]

theorem Digits.value (h : Digits cs n) : Nat.ofDigitChars 10 cs 0 = n := by
  induction h with
  | single hc => rw [Nat.ofDigitChars_cons, Nat.ofDigitChars_nil, Nat.mul_zero, Nat.zero_add]
  | behind _ _ ih => rw [ofDigitChars_behind, ih]

theorem digits_of_isDigit (hne : cs ≠ []) (h : ∀ c ∈ cs, c.isDigit = true) :
    Digits cs (Nat.ofDigitChars 10 cs 0) := by
  induction cs using List.reverseRecOn with
  | nil => exact absurd rfl hne
  | append_singleton cs c ih =>
      have hc := h c (List.mem_append_right cs List.mem_cons_self)
      obtain rfl | hcs := eq_or_ne cs []
      · exact (Digits.single hc).value ▸ .single hc
      · rw [ofDigitChars_behind]
        exact .behind (ih hcs fun d hd => h d (List.mem_append_left [c] hd)) hc

theorem natural?_eq_some_iff : natural? cs = some n ↔ Digits cs n := by
  unfold natural?
  constructor
  · intro h
    split at h
    · rename_i hcs
      cases h
      exact digits_of_isDigit hcs.1 (List.all_eq_true.1 hcs.2)
    · cases h
  · intro h
    rw [if_pos ⟨h.ne_nil, List.all_eq_true.2 h.isDigit⟩, h.value]

theorem integer?_eq_some_iff : integer? cs = some i ↔ Denotes cs i := by
  constructor
  · intro h
    unfold integer? at h
    split at h
    all_goals obtain ⟨n, hn, rfl⟩ := Option.map_eq_some_iff.1 h
    · exact .plus (natural?_eq_some_iff.1 hn)
    · exact .minus (natural?_eq_some_iff.1 hn)
    · exact .plain (natural?_eq_some_iff.1 hn)
  · intro h
    cases h with
    | plain h =>
        rw [integer?_of_all_isDigit (List.all_eq_true.2 h.isDigit), natural?_eq_some_iff.2 h]
        rfl
    | plus h | minus h =>
        rw [integer?, natural?_eq_some_iff.2 h]
        rfl

theorem Denotes.unique (h : Denotes cs i) (h' : Denotes cs j) : i = j := by
  rw [← integer?_eq_some_iff] at h h'
  exact Option.some.inj (h.symm.trans h')

theorem word?_eq_some_iff {s : String} : word? s = some w ↔ Denotes s.toList w.toInt := by
  rw [word?, Option.bind_eq_some_iff]
  constructor
  · rintro ⟨i, hi, hw⟩
    rw [Word.ofInt?_eq_some_iff.1 hw]
    exact integer?_eq_some_iff.1 hi
  · intro h
    exact ⟨w.toInt, integer?_eq_some_iff.2 h, Word.ofInt?_toInt w⟩

/-! ## The characters of a numeral -/

theorem Denotes.ne_nil (h : Denotes cs i) : cs ≠ [] := by
  cases h with
  | plain h => exact h.ne_nil
  | plus | minus => exact List.cons_ne_nil _ _

theorem Denotes.inNumeral (h : Denotes cs i) : ∀ c ∈ cs, InNumeral c := by
  have hdigits {cs n} (h : Digits cs n) : ∀ c ∈ cs, InNumeral c := fun c hc => .inr (.inr (h.isDigit c hc))
  cases h with
  | plain h => exact hdigits h
  | plus h => exact List.forall_mem_cons.2 ⟨.inl rfl, hdigits h⟩
  | minus h => exact List.forall_mem_cons.2 ⟨.inr (.inl rfl), hdigits h⟩

theorem InNumeral.isBlank (h : InNumeral c) : Text.isBlank c = false := by
  rcases h with rfl | rfl | hdigit
  · rfl
  · rfl
  · simp only [Char.isDigit, Bool.and_eq_true, decide_eq_true_eq] at hdigit
    have hlow : 48 ≤ c.toNat := hdigit.1
    have hhigh : c.toNat ≤ 57 := hdigit.2
    simp [Text.isBlank, Text.blankRuns]
    omega

/-! ## Written numerals -/

theorem digits_ofNat (n : Nat) : Digits (ofNat n).toList n :=
  natural?_eq_some_iff.1 (natural?_ofNat n)

theorem inNumeral_ofNat (n : Nat) : ∀ c ∈ (ofNat n).toList, InNumeral c :=
  (Denotes.plain (digits_ofNat n)).inNumeral

theorem denotes_ofWord (w : Word) : Denotes (ofWord w).toList w.toInt :=
  word?_eq_some_iff.1 (word?_ofWord w)

theorem ofNat_injective : Function.Injective ofNat := by
  intro m n h
  have hm := digits_ofNat m
  rw [h] at hm
  exact hm.value.symm.trans (digits_ofNat n).value

theorem ofWord_injective : Function.Injective ofWord := by
  intro w v h
  have hw := denotes_ofWord w
  rw [h] at hw
  exact Int64.toInt_inj.1 (hw.unique (denotes_ofWord v))

end Intcode.Numeral
