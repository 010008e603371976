import Intcode.Proofs.Machine.Move
import Intcode.Proofs.Memory.Contents
import Intcode.Proofs.Memory.LastStore

/-!
# What a machine stores

A store may make the dense part grow, fill a gap with zeros and move far cells, but at every other address it leaves
what is read there. A step makes the store of its effect, if that has one, and none else; so the memory after a run is
the memory before it with the stores of its instructions, one after another.

Main statement: nothing but a store at an address changes what is read there (`stores_disturb_nothing_else`).
-/

namespace Intcode

/-! ## One store -/

/-- At its own address a store leaves its word or what was read before. -/
theorem Memory.get_set_or (m : Memory) (a : Address) (w : Word) :
    (m.set a w).get a = w ∨ (m.set a w).get a = m.get a := by
  cases hkeeps : m.keeps a w with
  | true => exact .inl (of_decide_eq_true hkeeps)
  | false => exact .inr (get_set_of_lost hkeeps a)

/-! ## Steps and runs -/

/-- The cell that an effect stores, with its new word, if it stores one. -/
def Effect.store? : Effect → Option (Address × Word)
  | .change c => c.store
  | _ => none

namespace Machine

variable {m n : Machine} {budget : Option Nat} {fuel : Nat} {e : Effect} {stop : RunEnd}

/-- The store of the instruction that the machine executes next, if it executes one that stores. -/
def storing (m : Machine) : Array (Address × Word) :=
  (m.move?.bind Effect.store?).toArray

/-- The stores of the instructions of a run, in their order. -/
def stores (fuel : Nat) (budget : Option Nat) (m : Machine) : List (Address × Word) :=
  (m.runTrail storing fuel budget).toList

theorem memory_after : (m.after e).memory = m.memory.storeAll e.store?.toList := by
  cases e with
  | needInput | halt => rfl
  | change c =>
      simp only [after, apply, Change.storeIn, Effect.store?]
      cases c.store <;> rfl

theorem memory_step (m : Machine) : m.step.2.memory = m.memory.storeAll m.storing.toList := by
  have hstepped := m.stepped_step
  unfold storing
  generalize m.step = r at hstepped
  cases hstepped with
  | @moves e hmove =>
      rw [hmove, Option.bind_some, Option.toList_toArray]
      exact memory_after
  | rests hs =>
      have hmove : m.move? = none := if_pos hs
      rw [hmove]
      rfl
  | fails hs hmove hfault =>
      rw [hmove]
      rfl
  | waits hs hstarves hpolicy =>
      rw [hstarves.move?]
      rfl

/-- A run leaves the memory as its stores make it, one after another. -/
theorem memory_run (h : m.run fuel budget = some stop) :
    stop.2.memory = m.memory.storeAll (m.stores fuel budget) := by
  refine runTrail_induct (R := fun m stores n => n.memory = m.memory.storeAll stores.toList) (fun _ => rfl) memory_step
    (fun m k n stores stores' hk hn => ?_) h
  rw [hn, hk, Array.toList_append, Memory.storeAll_append]

/-- An executed instruction changes what is read at the address that its effect stores to, and nowhere else. -/
theorem step_frame (h : m.step = (.ok true, n)) :
    ∃ i e, m.attempt = .ok (i, e) ∧ n.memory = m.memory.storeAll e.store?.toList ∧
      ∀ b, (∀ w, e.store? ≠ some (b, w)) → n.memory.get b = m.memory.get b := by
  have hstepped := m.stepped_step
  rw [h] at hstepped
  cases hstepped with
  | @moves e hmove =>
      obtain ⟨i, ha, -⟩ := attempt_of_move hmove
      refine ⟨i, e, ha, memory_after, fun b hb => ?_⟩
      rw [memory_after]
      refine Memory.get_storeAll_of_ne fun c hc hcb => hb c.2 ?_
      rw [← hcb]
      exact Option.mem_toList.1 hc

theorem run_frame {b : Address} (h : m.run fuel budget = some stop) (hb : b ∉ (m.stores fuel budget).map (·.1)) :
    stop.2.memory.get b = m.memory.get b := by
  rw [memory_run h]
  exact Memory.get_storeAll_of_ne fun c hc hcb => hb (hcb ▸ List.mem_map_of_mem hc)

/-- No far cell is one that the dense part reaches. A memory of an image has none; one that is read has those of the two
parts that its record holds; and after any stores there are the ones from before and the stored ones, as far as they
are beyond the dense part. One more store leaves what is read at every other address, and at its own leaves its word or
what was read before. So a step changes what is read at the address that its effect stores to only, and a run at those
that its instructions store to. -/
theorem stores_disturb_nothing_else :
    (∀ image b, b ∉ (Memory.ofImage image).far) ∧
      (∀ dense far fits b, b ∈ (Memory.ofParts dense far fits).far ↔
        b ∈ far ∧ (Memory.ofParts dense far fits).dense.size ≤ b.toNat) ∧
      (∀ (m : Memory) stores b, b ∈ (m.storeAll stores).far ↔
        (b ∈ m.far ∨ b ∈ stores.map (·.1)) ∧ (m.storeAll stores).dense.size ≤ b.toNat) ∧
      (∀ (m : Memory) a w,
        (∀ b, b ∈ (m.set a w).far ↔ (b ∈ m.far ∨ b = a) ∧ (m.set a w).dense.size ≤ b.toNat) ∧
          (∀ b, b ≠ a → (m.set a w).get b = m.get b) ∧
          ((m.set a w).get a = w ∨ (m.set a w).get a = m.get a)) ∧
      (∀ m n : Machine, m.step = (.ok true, n) →
        ∃ i e, m.attempt = .ok (i, e) ∧ n.memory = m.memory.storeAll e.store?.toList ∧
          ∀ b, (∀ w, e.store? ≠ some (b, w)) → n.memory.get b = m.memory.get b) ∧
      ∀ (m : Machine) fuel budget stop, m.run fuel budget = some stop →
        ∀ b, b ∉ (m.stores fuel budget).map (·.1) → stop.2.memory.get b = m.memory.get b := by
  refine ⟨fun image b => Std.ExtTreeMap.not_mem_empty, fun dense far fits b => ?_, fun m stores b => ?_,
    fun m a w => ⟨fun b => ?_, fun b => Memory.get_set_of_ne m w, m.get_set_or a w⟩, fun m n => step_frame,
    fun m fuel budget stop h b => run_frame h⟩
  · rw [Memory.size_dense_ofParts]
    exact Memory.mem_far_ofParts
  · rw [Memory.size_dense_storeAll]
    exact Memory.mem_far_storeAll
  · rw [Memory.size_dense_set]
    exact Memory.mem_far_set

/-- A machine with one far cell. Its first instruction stores so close to it that the dense part grows over it. -/
def settler : Machine :=
  { ofImage #[] .batch with
    memory :=
      { dense := #[1101, 1, 2, 14, 99]
        far := (∅ : FarCells).insert 9 7
        dense_fits := by decide
        far_beyond := by simp [Std.ExtTreeMap.mem_insert] } }

/-- The cell has moved into the dense part and reads as before, after the step and after a run of it. -/
theorem stores_disturb_nothing_else_settler :
    9 ∈ settler.memory.far ∧ settler.memory.get 9 = 7 ∧
      (∃ n, settler.step = (.ok true, n) ∧ 9 ∉ n.memory.far ∧ n.memory.get 9 = settler.memory.get 9) ∧
      ∃ stop, settler.run 2 (some 1) = some stop ∧ stop.2.memory.get 9 = settler.memory.get 9 := by
  obtain ⟨-, -, -, -, hsteps, hruns⟩ := stores_disturb_nothing_else
  have hstep : settler.step = (.ok true, settler.apply { registers := ⟨4, 0⟩, store := some (14, 3) }) := rfl
  have hrun : settler.run 2 (some 1) = some _ := rfl
  have hattempt : settler.attempt = .ok (_, .change { registers := ⟨4, 0⟩, store := some (14, 3) }) := rfl
  obtain ⟨i, e, ha, -, hframe⟩ := hsteps _ _ hstep
  rw [hattempt] at ha
  cases ha
  refine ⟨by simp [settler], by simp [settler, Memory.get_eq],
    ⟨_, hstep, fun hfar => ?_, hframe 9 (by simp [Effect.store?])⟩,
    _, hrun, hruns _ _ _ _ hrun 9 (by decide)⟩
  have hbeyond := (Memory.mem_far_set.1 hfar).2
  exact absurd hbeyond (by decide)

end Machine

end Intcode
