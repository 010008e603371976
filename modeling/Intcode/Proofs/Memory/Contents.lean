import Mathlib.Data.List.Sort
import Intcode.Proofs.Memory.Layout

/-!
# The contents of a memory

The list of the cells that do not hold zero is in ascending order and tells exactly what is read where, so
memories with the same cells read the same everywhere, whatever their parts (`equality_is_extensional`). A
store keeps them the same unless it is lost in one of them and kept in the other (`sameCells_set_iff`).
-/

namespace Intcode.Memory

variable {m n : Memory} {a : Address} {w : Word}

/-! ## Dense cells -/

theorem mem_denseCells : (a, w) ∈ m.denseCells ↔ m.dense[a.toNat]? = some w := by
  simp only [denseCells, List.mem_map, Prod.exists, List.mk_mem_zipIdx_iff_getElem?,
    Array.getElem?_toList, Prod.mk.injEq]
  constructor
  · rintro ⟨v, i, hi, rfl, rfl⟩
    have hlt := (Array.getElem?_eq_some_iff.1 hi).1
    have := m.dense_fits
    rwa [UInt64.toNat_ofNat_of_lt' (by omega)]
  · intro h
    exact ⟨w, a.toNat, h, by simp, rfl⟩

theorem pairwise_denseCells : m.denseCells.Pairwise fun c d => c.1 < d.1 := by
  rw [denseCells, List.pairwise_map, List.pairwise_iff_getElem]
  intro i j hi hj hij
  have := m.dense_fits
  simp only [List.length_zipIdx, Array.length_toList] at hi hj
  simp only [List.getElem_zipIdx, Nat.zero_add, UInt64.lt_iff_toNat_lt]
  rwa [UInt64.toNat_ofNat_of_lt' (by omega), UInt64.toNat_ofNat_of_lt' (by omega)]

/-! ## All cells -/

/-- The cells are in ascending order: the far ones among themselves, and behind the dense ones. -/
theorem pairwise_cells (m : Memory) : m.cells.Pairwise fun c d => c.1 < d.1 := by
  refine List.Pairwise.filter _ (List.pairwise_append.2 ⟨pairwise_denseCells, ?_, ?_⟩)
  · refine m.far.ordered_keys_toList.imp fun h => ?_
    rwa [Std.compare_eq_lt] at h
  · rintro ⟨a, v⟩ ha ⟨b, w⟩ hb
    have hdense := (Array.getElem?_eq_some_iff.1 (mem_denseCells.1 ha)).1
    rw [Std.ExtTreeMap.mem_toList_iff_getElem?_eq_some] at hb
    have hfar := m.far_beyond b (Std.ExtTreeMap.mem_iff_isSome_getElem?.2 (by rw [hb]; rfl))
    exact UInt64.lt_iff_toNat_lt.2 (Nat.lt_of_lt_of_le hdense hfar)

theorem mem_cells : (a, w) ∈ m.cells ↔ m.get a = w ∧ w ≠ 0 := by
  rw [cells, List.mem_filter, List.mem_append, mem_denseCells,
    Std.ExtTreeMap.mem_toList_iff_getElem?_eq_some, get_eq]
  simp only [ne_eq, decide_not, Bool.not_eq_true', decide_eq_false_iff_not]
  refine and_congr_left fun hw => ?_
  by_cases hin : a.toNat < m.dense.size
  · have hfar : a ∉ m.far := fun ha => by
      have := m.far_beyond a ha
      omega
    simp [hin, Std.ExtTreeMap.getElem?_eq_none hfar]
  · rw [Array.getElem?_eq_none (by omega), Option.none_or]
    cases m.far[a]? with
    | none => simpa using fun h => hw h.symm
    | some v => simp

/-- The list of the cells is the one in ascending order that tells what is read where, and no other. -/
theorem cells_eq_iff {cells : List (Address × Word)} :
    m.cells = cells ↔
      (cells.Pairwise fun c d => c.1 < d.1) ∧ ∀ a w, (a, w) ∈ cells ↔ m.get a = w ∧ w ≠ 0 := by
  constructor
  · rintro rfl
    exact ⟨m.pairwise_cells, fun a w => mem_cells⟩
  · rintro ⟨hordered, hmem⟩
    -- no two cells of one list are at the same address, so each list is determined by its members
    have : Std.Antisymm fun c d : Address × Word => c.1 < d.1 :=
      ⟨fun c d hcd hdc => absurd (UInt64.lt_trans hcd hdc) (UInt64.lt_irrefl _)⟩
    have : Std.Irrefl fun c d : Address × Word => c.1 < d.1 := ⟨fun c => UInt64.lt_irrefl _⟩
    refine m.pairwise_cells.eq_of_mem_iff hordered fun c => ?_
    obtain ⟨a, w⟩ := c
    rw [mem_cells, hmem]

/-- Memories have the same cells exactly if they read the same everywhere. -/
theorem sameCells_iff : m.sameCells n = true ↔ ∀ a, m.get a = n.get a := by
  rw [sameCells, beq_iff_eq]
  constructor
  · intro h a
    by_cases hm : m.get a = 0
    · by_contra hne
      have hn : (a, n.get a) ∈ n.cells := mem_cells.2 ⟨rfl, fun hn => hne (hm.trans hn.symm)⟩
      rw [← h, mem_cells] at hn
      exact hne hn.1
    · have hcell : (a, m.get a) ∈ m.cells := mem_cells.2 ⟨rfl, hm⟩
      rw [h, mem_cells] at hcell
      exact hcell.1.symm
  · intro h
    refine cells_eq_iff.2 ⟨n.pairwise_cells, fun a w => ?_⟩
    rw [mem_cells, h]

/-- Memories are equal exactly if every address reads the same in both, and a list is that of the cells of a memory
exactly if its addresses ascend strictly and it has a word at an address where that word, not zero, is read there. -/
theorem equality_is_extensional (m n : Memory) :
    (m.sameCells n = true ↔ ∀ a, m.get a = n.get a) ∧
      ∀ cells : List (Address × Word), m.cells = cells ↔
        (cells.Pairwise fun c d => c.1 < d.1) ∧ ∀ a w, (a, w) ∈ cells ↔ m.get a = w ∧ w ≠ 0 :=
  ⟨sameCells_iff, fun _ => cells_eq_iff⟩

/-! ## Stores that are kept -/

/-- The store of a word is kept: the word is read back. -/
def keeps (m : Memory) (a : Address) (w : Word) : Bool :=
  (m.set a w).get a = w

/-- A store is lost exactly where the dense part grows over a far cell that holds another word. -/
theorem keeps_eq_false_iff :
    m.keeps a w = false ↔ a ∈ m.far ∧ a.toNat ≤ m.dense.size + longestGap ∧ m.get a ≠ w := by
  rw [keeps, decide_eq_false_iff_not, get_set]
  by_cases ha : a ∈ m.far
  · have hbeyond := m.far_beyond a ha
    have hget : m.get a = m.far[a]?.getD w := by
      rw [get_eq, Array.getElem?_eq_none hbeyond, Std.ExtTreeMap.getElem?_eq_some_getElem ha]
      rfl
    simp only [hbeyond, ha, true_and, ← hget]
    split <;> simp_all
  · simp [ha]

/-- A store that is lost changes nothing that is read. -/
theorem get_set_of_lost (h : m.keeps a w = false) (b : Address) : (m.set a w).get b = m.get b := by
  by_cases hb : b = a
  · obtain ⟨ha, hnear, -⟩ := keeps_eq_false_iff.1 h
    have hbeyond := m.far_beyond a ha
    rw [hb, get_set, if_pos ⟨hbeyond, hnear⟩, get_eq, Array.getElem?_eq_none hbeyond,
      Std.ExtTreeMap.getElem?_eq_some_getElem ha]
    rfl
  · exact get_set_of_ne m w hb

theorem get_set_of_not_mem_far (h : a ∉ m.far) : (m.set a w).get a = w := by
  rw [get_set, Std.ExtTreeMap.getElem?_eq_none h]
  exact ite_self w

/-- Stores at two addresses that are not far make the same contents in either order. -/
theorem sameCells_set_comm {b : Address} {v : Word} (ha : a ∉ m.far) (hb : b ∉ m.far) (hne : a ≠ b) :
    ((m.set a v).set b w).sameCells ((m.set b w).set a v) = true := by
  have hb' : b ∉ (m.set a v).far := fun h => ((mem_far_set.1 h).1).elim hb hne.symm
  have ha' : a ∉ (m.set b w).far := fun h => ((mem_far_set.1 h).1).elim ha hne
  refine sameCells_iff.2 fun c => ?_
  by_cases hca : c = a
  · subst hca
    rw [get_set_of_ne _ _ hne, get_set_of_not_mem_far ha, get_set_of_not_mem_far ha']
  · by_cases hcb : c = b
    · subst hcb
      rw [get_set_of_not_mem_far hb', get_set_of_ne _ _ hne.symm, get_set_of_not_mem_far hb]
    · rw [get_set_of_ne _ _ hcb, get_set_of_ne _ _ hca, get_set_of_ne _ _ hca, get_set_of_ne _ _ hcb]

/-- Memories with the same contents have the same contents after a store exactly if both keep it or both
lose it. -/
theorem sameCells_set_iff (h : m.sameCells n = true) :
    (m.set a w).sameCells (n.set a w) = true ↔ m.keeps a w = n.keeps a w := by
  rw [sameCells_iff] at h ⊢
  constructor
  · intro hset
    rw [keeps, keeps, hset]
  · intro hkeeps b
    by_cases hb : b = a
    · subst hb
      cases hm : m.keeps b w with
      | false => rw [get_set_of_lost hm, get_set_of_lost (hkeeps.symm.trans hm), h]
      | true =>
          have hn := hkeeps.symm.trans hm
          rw [keeps, decide_eq_true_eq] at hm hn
          rw [hm, hn]
    · rw [get_set_of_ne m w hb, get_set_of_ne n w hb, h]

end Intcode.Memory
