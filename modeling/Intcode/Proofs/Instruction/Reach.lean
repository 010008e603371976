import Intcode.Memory.Place
import Intcode.Proofs.Instruction.Agreement
import Intcode.Proofs.Instruction.Offer

/-!
# What an instruction reaches

An instruction names cells by words, so it stores only in the lower half of the address space, where a word can name a
cell. Its program counter moves on to the next instruction or jumps into that half.

Main statement: `execute_within`.
-/

namespace Intcode

/-- The end of the addresses that words can name. -/
def wordEnd : Nat :=
  2 ^ 63

variable {w : Word} {a : Address}

theorem Word.lt_wordEnd (h : w.address? = some a) : a.toNat < wordEnd := by
  have htoNat := Table.toNat_address h
  have hlt := w.toInt_lt
  unfold wordEnd
  omega

theorem Memory.lt_wordEnd (h : place w = .ok a) : a.toNat < wordEnd := by
  unfold place at h
  cases ha : w.address? with
  | none =>
      rw [ha] at h
      cases h
  | some b =>
      rw [ha] at h
      cases h
      exact Word.lt_wordEnd ha

namespace Operand

variable {m : Memory} {r : Registers} {modes : Modes} {p : Parameter} {n : Nat}

theorem lt_wordEnd (h : address w = .ok a) : a.toNat < wordEnd := by
  unfold address at h
  cases ha : w.address? with
  | none =>
      rw [ha] at h
      cases h
  | some b =>
      rw [ha] at h
      cases h
      exact Word.lt_wordEnd ha

theorem target_lt_wordEnd (h : target m r modes p = .ok a) : a.toNat < wordEnd := by
  unfold target at h
  obtain ⟨w, -, h⟩ := Instruction.ok_of_bind h
  cases hmode : modes.get p with
  | immediate =>
      rw [hmode] at h
      cases h
  | position =>
      rw [hmode] at h
      exact lt_wordEnd h
  | relative =>
      rw [hmode] at h
      obtain ⟨v, -, h⟩ := Instruction.ok_of_bind h
      exact lt_wordEnd h

theorem toNat_behind (h : behind r n = .ok a) : a.toNat = r.pc.toNat + n := by
  unfold behind at h
  cases ha : r.pc.add? n with
  | none =>
      rw [ha] at h
      cases h
  | some b =>
      rw [ha] at h
      cases h
      exact Address.add?_eq_some_iff.1 ha

/-- The cells behind the program counter are there as long as they have addresses. -/
theorem exists_behind (h : r.pc.toNat + n < UInt64.size) : ∃ a, behind r n = .ok a ∧ a.toNat = r.pc.toNat + n := by
  have ha : r.pc.add? n = some (UInt64.ofNatLT (r.pc.toNat + n) h) :=
    Address.add?_eq_some_iff.2 UInt64.toNat_ofNatLT
  exact ⟨_, by rw [behind, ha], UInt64.toNat_ofNatLT⟩

end Operand

namespace Instruction

variable {i : Instruction} {m : Memory} {r t : Registers} {offered : Option Word} {c : Change}

/-- The change stores in the lower half of the address space, and its program counter is behind the instruction or in
that half. -/
structure Within (i : Instruction) (r : Registers) (c : Change) : Prop where
  store : ∀ a w, c.store = some (a, w) → a.toNat < wordEnd
  pc : c.registers.pc.toNat = r.pc.toNat + i.width ∨ c.registers.pc.toNat < wordEnd

theorem toNat_advance (h : i.advance r = .ok t) : t.pc.toNat = r.pc.toNat + i.width := by
  unfold advance at h
  obtain ⟨a, ha, h⟩ := ok_of_bind h
  cases h
  exact Operand.toNat_behind ha

theorem within_of_advance (h : i.advance r = .ok t) (hpc : c.registers.pc = t.pc)
    (hstore : ∀ a w, c.store = some (a, w) → a.toNat < wordEnd) : Within i r c :=
  ⟨hstore, .inl (by rw [hpc, toNat_advance h])⟩

theorem combine_within {f : Word → Word → Option Word} (h : i.combine m r f = .ok (.change c)) : Within i r c := by
  unfold combine at h
  obtain ⟨a, -, h⟩ := ok_of_bind h
  obtain ⟨b, -, h⟩ := ok_of_bind h
  obtain ⟨place, hplace, h⟩ := ok_of_bind h
  obtain ⟨t, ht, h⟩ := ok_of_bind h
  split at h
  · cases h
    refine within_of_advance ht rfl ?_
    rintro a w ⟨⟩
    exact Operand.target_lt_wordEnd hplace
  · cases h

theorem jump_within {taken : Word → Bool} (h : i.jump m r taken = .ok (.change c)) : Within i r c := by
  unfold jump at h
  obtain ⟨a, -, h⟩ := ok_of_bind h
  obtain ⟨b, -, h⟩ := ok_of_bind h
  obtain ⟨t, ht, h⟩ := ok_of_bind h
  split at h
  · obtain ⟨place, hplace, h⟩ := ok_of_bind h
    cases h
    exact ⟨nofun, .inr (Operand.lt_wordEnd hplace)⟩
  · cases h
    exact within_of_advance ht rfl nofun

theorem execute_within (h : i.execute m r offered = .ok (.change c)) : Within i r c := by
  cases hop : i.opcode with
  | add | multiply | lessThan | equals =>
      rw [execute, hop] at h
      exact combine_within h
  | jumpIfTrue | jumpIfFalse =>
      rw [execute, hop] at h
      exact jump_within h
  | input =>
      rw [execute, hop] at h
      obtain ⟨place, hplace, h⟩ := ok_of_bind h
      cases offered with
      | none => cases h
      | some w =>
          obtain ⟨t, ht, h⟩ := ok_of_bind h
          cases h
          refine within_of_advance ht rfl ?_
          rintro a w ⟨⟩
          exact Operand.target_lt_wordEnd hplace
  | output =>
      rw [execute, hop] at h
      obtain ⟨w, -, h⟩ := ok_of_bind h
      obtain ⟨t, ht, h⟩ := ok_of_bind h
      cases h
      exact within_of_advance ht rfl nofun
  | adjustBase =>
      rw [execute, hop] at h
      obtain ⟨w, -, h⟩ := ok_of_bind h
      obtain ⟨t, ht, h⟩ := ok_of_bind h
      obtain ⟨base, -, h⟩ := ok_of_bind h
      cases h
      exact within_of_advance ht rfl nofun
  | halt =>
      rw [execute, hop] at h
      cases h

/-- Zero is no instruction. -/
theorem get_ne_zero_of_fetch (h : fetch m r = .ok i) : m.get r.pc ≠ 0 := by
  intro hzero
  rw [fetch, hzero] at h
  cases h

theorem width_le (i : Instruction) : i.width ≤ 4 :=
  Nat.succ_le_succ i.opcode.arity_le

end Instruction

end Intcode
