import Intcode.Memory.Lemmas

/-!
# The layout of a memory

Where the dense part ends and which cells are far, for each way to make a memory and to store in it.
-/

namespace Intcode.Memory

variable {m : Memory} {a b : Address} {w : Word}

/-! ## Parts -/

/-- Cells that all have addresses are told apart by what stands at these. -/
theorem cells_ext {cells cells' : Array Word} (hfits : cells.size ≤ UInt64.size) (hsize : cells.size = cells'.size)
    (h : ∀ a : Address, cells[a.toNat]? = cells'[a.toNat]?) : cells = cells' := by
  refine Array.ext_getElem? fun i => ?_
  by_cases hi : i < UInt64.size
  · have ha := h (UInt64.ofNatLT i hi)
    rwa [UInt64.toNat_ofNatLT] at ha
  · rw [Array.getElem?_eq_none (by omega), Array.getElem?_eq_none (by omega)]

theorem addressable_eq {image : Array Word} (h : image.size ≤ UInt64.size) : addressable image = ⟨image, h⟩ :=
  dif_pos h

theorem size_addressable (image : Array Word) : (addressable image).1.size = min image.size UInt64.size := by
  unfold addressable
  split
  · rename_i h
    exact (Nat.min_eq_left h).symm
  · exact (Array.size_extract).trans (Nat.min_comm _ _)

theorem clearOf_iff {n : Nat} {far : FarCells} : clearOf n far = true ↔ ∀ a ∈ far, n ≤ a.toNat := by
  refine ⟨le_of_clearOf, fun h => ?_⟩
  unfold clearOf
  split
  · rename_i a ha
    exact decide_eq_true (h a (Std.ExtTreeMap.minKey?_eq_some_iff_mem_and_forall.1 ha).1)
  · rfl

/-- The parts of a memory make that memory. -/
theorem ofParts_self (m : Memory) : ofParts m.dense m.far m.dense_fits = m := by
  rw [ofParts, dif_pos (clearOf_iff.2 m.far_beyond)]

theorem mem_farFrom {n : Nat} {far : FarCells} : b ∈ farFrom n far ↔ b ∈ far ∧ n ≤ b.toNat := by
  rw [farFrom, Std.ExtTreeMap.mem_filter]
  constructor
  · rintro ⟨hb, hn⟩
    exact ⟨hb, by simpa using hn⟩
  · rintro ⟨hb, hn⟩
    exact ⟨hb, by simpa using hn⟩

theorem size_dense_ofParts (dense : Array Word) (far : FarCells) (fits : dense.size ≤ UInt64.size) :
    (ofParts dense far fits).dense.size = dense.size := by
  unfold ofParts
  split
  · rfl
  · exact size_overlay dense far

theorem mem_far_ofParts {dense : Array Word} {far : FarCells} {fits : dense.size ≤ UInt64.size} :
    b ∈ (ofParts dense far fits).far ↔ b ∈ far ∧ dense.size ≤ b.toNat := by
  unfold ofParts
  split
  · rename_i clear
    exact ⟨fun hb => ⟨hb, le_of_clearOf clear b hb⟩, And.left⟩
  · exact mem_farFrom

/-- A far cell of the parts stays one if the dense part does not reach it. -/
theorem getElem?_far_ofParts {dense : Array Word} {far : FarCells} {fits : dense.size ≤ UInt64.size} :
    (ofParts dense far fits).far[b]? = if dense.size ≤ b.toNat then far[b]? else none := by
  unfold ofParts
  split
  · rename_i clear
    split
    · rfl
    · rename_i hcovered
      exact Std.ExtTreeMap.getElem?_eq_none fun hb => hcovered (le_of_clearOf clear b hb)
  · exact getElem?_farFrom _ _ _

/-! ## Stores -/

/-- The end of a dense part of `n` cells after a store at an address. -/
def denseStep (n : Nat) (a : Address) : Nat :=
  if n ≤ a.toNat ∧ a.toNat ≤ n + longestGap then a.toNat + 1 else n

theorem le_denseStep (n : Nat) (a : Address) : n ≤ denseStep n a := by
  unfold denseStep
  split <;> omega

theorem size_dense_set : (m.set a w).dense.size = denseStep m.dense.size a := by
  unfold set denseStep
  split
  · rw [if_neg (by omega)]
    simp
  · split
    · rw [if_neg (by omega)]
    · rw [if_pos (by omega), size_dense_ofParts]
      simp only [Array.size_push, Array.size_append, Array.size_replicate]
      omega

/-- The far cells after a store: those from before and the stored one, as far as they stay beyond the
dense part. -/
theorem mem_far_set :
    b ∈ (m.set a w).far ↔ (b ∈ m.far ∨ b = a) ∧ denseStep m.dense.size a ≤ b.toNat := by
  unfold set denseStep
  split
  · rename_i hin
    rw [if_neg (by omega)]
    constructor
    · intro hb
      exact ⟨Or.inl hb, m.far_beyond b hb⟩
    · rintro ⟨hb | rfl, hle⟩
      · exact hb
      · omega
  · split
    · rename_i hout hfar
      rw [if_neg (by omega), Std.ExtTreeMap.mem_insert, Std.compare_eq_iff_eq]
      constructor
      · rintro (rfl | hb)
        · exact ⟨Or.inr rfl, by omega⟩
        · exact ⟨Or.inl hb, m.far_beyond b hb⟩
      · rintro ⟨hb | rfl, -⟩
        · exact Or.inr hb
        · exact Or.inl rfl
    · rename_i hout hnear
      have hsize : ((m.dense ++ Array.replicate (a.toNat - m.dense.size) 0).push w).size
          = a.toNat + 1 := by
        simp only [Array.size_push, Array.size_append, Array.size_replicate]
        omega
      rw [if_pos (by omega), mem_far_ofParts, hsize]
      constructor
      · rintro ⟨hb, hle⟩
        exact ⟨Or.inl hb, hle⟩
      · rintro ⟨hb | rfl, hle⟩
        · exact ⟨hb, hle⟩
        · omega

end Intcode.Memory
