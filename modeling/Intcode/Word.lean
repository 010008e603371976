/-!
# Words and addresses

A word, the content of one memory cell, is a signed 64-bit integer; an address is an unsigned one.
Arithmetic on both is checked: it is done on the integers, and a result outside the range is no
result. All of it goes through `Word.ofInt?`, so one lemma says when an operation answers.
-/

namespace Intcode

/-- The content of a memory cell. -/
abbrev Word := Int64

/-- The place of a memory cell. -/
abbrev Address := UInt64

/-! ## Words -/

namespace Word

/-- The word that denotes the integer `i`, where there is one. -/
def ofInt? (i : Int) : Option Word :=
  if (Int64.ofInt i).toInt = i then some (Int64.ofInt i) else none

/-- The sum of two words, where it is in range. -/
def add? (a b : Word) : Option Word :=
  ofInt? (a.toInt + b.toInt)

/-- The product of two words, where it is in range. -/
def mul? (a b : Word) : Option Word :=
  ofInt? (a.toInt * b.toInt)

/-- The address that a word names; a negative word names none. -/
def address? (w : Word) : Option Address :=
  if 0 ≤ w.toInt then some w.toUInt64 else none

/-- A truth value as a word: one for true, zero for false. -/
def ofBool (b : Bool) : Word :=
  if b then 1 else 0

theorem ofInt?_eq_some_iff {i : Int} {w : Word} : ofInt? i = some w ↔ w.toInt = i := by
  unfold ofInt?
  constructor
  · intro h
    split at h
    · rename_i hi
      cases h
      exact hi
    · cases h
  · rintro rfl
    simp

@[simp] theorem ofInt?_toInt (w : Word) : ofInt? w.toInt = some w :=
  ofInt?_eq_some_iff.2 rfl

theorem address?_eq_none_iff {w : Word} : w.address? = none ↔ w.toInt < 0 := by
  simp [address?]

end Word

/-! ## Addresses -/

namespace Address

/-- The address that the integer `i` counts, where there is one. -/
def ofInt? (i : Int) : Option Address :=
  if h : 0 ≤ i ∧ i.toNat < UInt64.size then some (UInt64.ofNatLT i.toNat h.2) else none

/-- The address `n` cells further on, where there is one. -/
def add? (a : Address) (n : Nat) : Option Address :=
  if h : a.toNat + n < UInt64.size then some (UInt64.ofNatLT (a.toNat + n) h) else none

theorem ofInt?_eq_some_iff {i : Int} {a : Address} : ofInt? i = some a ↔ (a.toNat : Int) = i := by
  unfold ofInt?
  split
  · rename_i h
    constructor
    · rintro ⟨⟩
      rw [UInt64.toNat_ofNatLT]
      omega
    · rintro rfl
      exact congrArg some (UInt64.toNat_inj.1 UInt64.toNat_ofNatLT)
  · rename_i h
    constructor
    · rintro ⟨⟩
    · rintro rfl
      exact absurd ⟨by omega, a.toNat_lt⟩ h

@[simp] theorem ofInt?_toNat (a : Address) : ofInt? a.toNat = some a :=
  ofInt?_eq_some_iff.2 rfl

theorem add?_eq_some_iff {a b : Address} {n : Nat} :
    a.add? n = some b ↔ b.toNat = a.toNat + n := by
  unfold add?
  split
  · rename_i h
    constructor
    · rintro ⟨⟩
      exact UInt64.toNat_ofNatLT
    · intro hb
      exact congrArg some (UInt64.toNat_inj.1 (UInt64.toNat_ofNatLT.trans hb.symm))
  · rename_i h
    constructor
    · rintro ⟨⟩
    · intro hb
      have := b.toNat_lt
      exact absurd (hb ▸ this) h

end Address

end Intcode
