import Intcode.Instruction.Execute

/-!
# Instructions and the input on offer

Only one operation looks at the input value on offer, and it looks at it last: what an instruction does
without a value it also does with one, unless it has to wait for it.
-/

namespace Intcode.Instruction

variable {i : Instruction} {m : Memory} {r : Registers} {offered : Option Word}

theorem ok_of_bind {α β : Type} {x : Except Fault α} {k : α → Except Fault β} {b : β}
    (h : (x >>= k) = .ok b) : ∃ a, x = .ok a ∧ k a = .ok b := by
  cases x with
  | error f => cases h
  | ok a => exact ⟨a, rfl, h⟩

/-! ## Families of instructions -/

theorem combine_ok {f : Word → Word → Option Word} {e : Effect} (h : i.combine m r f = .ok e) :
    ∃ c, e = .change c ∧ c.consumes = false ∧ c.emit = none := by
  unfold combine at h
  obtain ⟨a, -, h⟩ := ok_of_bind h
  obtain ⟨b, -, h⟩ := ok_of_bind h
  obtain ⟨place, -, h⟩ := ok_of_bind h
  obtain ⟨t, -, h⟩ := ok_of_bind h
  split at h
  · cases h
    exact ⟨_, rfl, rfl, rfl⟩
  · cases h

theorem jump_ok {taken : Word → Bool} {e : Effect} (h : i.jump m r taken = .ok e) :
    ∃ c, e = .change c ∧ c.consumes = false ∧ c.emit = none := by
  unfold jump at h
  obtain ⟨a, -, h⟩ := ok_of_bind h
  obtain ⟨b, -, h⟩ := ok_of_bind h
  obtain ⟨t, -, h⟩ := ok_of_bind h
  split at h
  · obtain ⟨place, -, h⟩ := ok_of_bind h
    cases h
    exact ⟨_, rfl, rfl, rfl⟩
  · cases h
    exact ⟨_, rfl, rfl, rfl⟩

/-! ## The operations by what they do with input -/

/-- An operation that does not read input makes no use of it and does not wait for it. -/
theorem execute_of_ne_input (hop : i.opcode ≠ .input) :
    i.execute m r offered = i.execute m r none ∧
      i.execute m r offered ≠ .ok .needInput ∧
      ∀ c, i.execute m r offered = .ok (.change c) → c.consumes = false := by
  have hplain : ∀ {e : Except Fault Effect},
      (∀ x, e = .ok x → ∃ c, x = .change c ∧ c.consumes = false) →
      e ≠ .ok .needInput ∧ ∀ c, e = .ok (.change c) → c.consumes = false := by
    intro e he
    refine ⟨fun h => ?_, fun c h => ?_⟩
    · obtain ⟨c, hc, -⟩ := he _ h
      cases hc
    · obtain ⟨d, hd, hfalse⟩ := he _ h
      cases hd
      exact hfalse
  unfold execute
  cases hi : i.opcode with
  | add | multiply | lessThan | equals =>
      refine ⟨rfl, hplain fun x h => ?_⟩
      obtain ⟨c, hc, hfalse, -⟩ := combine_ok h
      exact ⟨c, hc, hfalse⟩
  | jumpIfTrue | jumpIfFalse =>
      refine ⟨rfl, hplain fun x h => ?_⟩
      obtain ⟨c, hc, hfalse, -⟩ := jump_ok h
      exact ⟨c, hc, hfalse⟩
  | input => exact absurd hi hop
  | output =>
      refine ⟨rfl, hplain fun x h => ?_⟩
      obtain ⟨w, -, h⟩ := ok_of_bind h
      obtain ⟨t, -, h⟩ := ok_of_bind h
      cases h
      exact ⟨_, rfl, rfl⟩
  | adjustBase =>
      refine ⟨rfl, hplain fun x h => ?_⟩
      obtain ⟨w, -, h⟩ := ok_of_bind h
      obtain ⟨t, -, h⟩ := ok_of_bind h
      obtain ⟨base, -, h⟩ := ok_of_bind h
      cases h
      exact ⟨_, rfl, rfl⟩
  | halt => exact ⟨rfl, nofun, nofun⟩

/-- An operation that reads input resolves its target first; then it takes the value on offer or waits. -/
theorem execute_input (hop : i.opcode = .input) :
    i.execute m r offered =
      match Operand.target m r i.modes .first, offered with
      | .error f, _ => .error f
      | .ok _, none => .ok .needInput
      | .ok place, some w =>
        match i.advance r with
        | .error f => .error f
        | .ok t => .ok (.change { registers := t, store := some (place, w), consumes := true }) := by
  unfold execute
  rw [hop]
  cases Operand.target m r i.modes .first with
  | error f => rfl
  | ok place =>
      cases offered with
      | none => rfl
      | some w => cases i.advance r <;> rfl

/-- An operation that emits resolves its operand first, and then moves on. -/
theorem execute_output (hop : i.opcode = .output) :
    i.execute m r offered =
      match Operand.value m r i.modes .first, i.advance r with
      | .error f, _ => .error f
      | .ok _, .error f => .error f
      | .ok w, .ok t => .ok (.change { registers := t, emit := some w }) := by
  unfold execute
  rw [hop]
  cases Operand.value m r i.modes .first with
  | error f => rfl
  | ok w => cases i.advance r <;> rfl

/-! ## What a value on offer changes -/

theorem execute_offer {w : Word} {e : Except Fault Effect} (h : i.execute m r none = e)
    (hne : e ≠ .ok .needInput) : i.execute m r (some w) = e := by
  by_cases hop : i.opcode = .input
  · rw [execute_input hop] at h ⊢
    cases ht : Operand.target m r i.modes .first with
    | error f =>
        rw [ht] at h
        exact h
    | ok place =>
        rw [ht] at h
        exact absurd h.symm hne
  · rw [(execute_of_ne_input hop).1]
    exact h

theorem execute_needInput (h : i.execute m r offered = .ok .needInput) :
    offered = none ∧ i.opcode = .input := by
  by_cases hop : i.opcode = .input
  · refine ⟨?_, hop⟩
    rw [execute_input hop] at h
    cases ht : Operand.target m r i.modes .first with
    | error f =>
        rw [ht] at h
        cases h
    | ok place =>
        rw [ht] at h
        cases offered with
        | none => rfl
        | some w => cases ha : i.advance r <;> rw [ha] at h <;> cases h
  · exact absurd h (execute_of_ne_input hop).2.1

/-- An instruction uses input up only if there was some on offer. -/
theorem execute_consumes {c : Change} (h : i.execute m r offered = .ok (.change c))
    (hc : c.consumes = true) : ∃ w, offered = some w := by
  by_cases hop : i.opcode = .input
  · rw [execute_input hop] at h
    cases offered with
    | none => cases ht : Operand.target m r i.modes .first <;> rw [ht] at h <;> cases h
    | some w => exact ⟨w, rfl⟩
  · rw [(execute_of_ne_input hop).2.2 c h] at hc
    cases hc

end Intcode.Instruction
