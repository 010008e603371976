import Intcode.Memory.Basic

/-!
# Reading memory back

`get` is the view of a memory, and each way to make one has its equation through that view. A store leaves
every other address as it was. At its own address the new word is read, unless the store makes the dense
part grow over a far cell there; then what the far cell held is read, as it was before.
-/

namespace Intcode.Memory

/-! ## Parts -/

theorem getElem?_foldl_setIfInBounds (cells : List (Address × Word))
    (distinct : cells.Pairwise fun c d => c.1 ≠ d.1) (dense : Array Word) (a : Address) :
    (cells.foldl (fun ds c => ds.setIfInBounds c.1.toNat c.2) dense)[a.toNat]? =
      if a.toNat < dense.size then
        ((cells.find? (·.1 == a)).map (·.2)).or dense[a.toNat]?
      else none := by
  induction cells generalizing dense with
  | nil =>
    simp only [List.foldl_nil, List.find?_nil]
    split
    · rfl
    · rename_i h
      exact Array.getElem?_eq_none (by omega)
  | cons c cs ih =>
    rw [List.pairwise_cons] at distinct
    rw [List.foldl_cons, ih distinct.2, Array.size_setIfInBounds]
    by_cases hin : a.toNat < dense.size
    · rw [if_pos hin, if_pos hin]
      by_cases hc : c.1 = a
      · have hnone : cs.find? (·.1 == a) = none := by
          rw [List.find?_eq_none]
          intro d hd
          simpa [← hc] using (distinct.1 d hd).symm
        have hsome : (c :: cs).find? (·.1 == a) = some c := by simp [hc]
        rw [hnone, hsome]
        subst hc
        simp [hin]
      · have hskip : (c :: cs).find? (·.1 == a) = cs.find? (·.1 == a) := by simp [hc]
        rw [hskip]
        have hne : c.1.toNat ≠ a.toNat := fun h => hc (UInt64.toNat_inj.1 h)
        simp [Array.getElem?_setIfInBounds_ne hne]
    · rw [if_neg hin, if_neg hin]

theorem find?_toList_eq (far : FarCells) (a : Address) :
    (far.toList.find? (·.1 == a)).map (·.2) = far[a]? := by
  cases h : far.toList.find? (·.1 == a) with
  | none =>
    rw [Option.map_none, eq_comm]
    refine Std.ExtTreeMap.getElem?_eq_none fun ha => ?_
    rw [List.find?_eq_none] at h
    have hmem := (Std.ExtTreeMap.mem_toList_iff_getElem?_eq_some (t := far) (k := a) (v := far[a])).2
      (Std.ExtTreeMap.getElem?_eq_some_getElem ha)
    simpa using h _ hmem
  | some c =>
    have ha := List.find?_some h
    have hc := List.mem_of_find?_eq_some h
    obtain ⟨b, w⟩ := c
    simp only [beq_iff_eq] at ha
    subst ha
    simpa using (Std.ExtTreeMap.mem_toList_iff_getElem?_eq_some.1 hc).symm

theorem distinct_toList (far : FarCells) : far.toList.Pairwise fun c d => c.1 ≠ d.1 := by
  refine far.distinct_keys_toList.imp fun h => ?_
  simpa [Std.compare_eq_iff_eq] using h

/-- A dense cell with the far cells written over it. -/
theorem getElem?_overlay (dense : Array Word) (far : FarCells) (a : Address) :
    (overlay dense far)[a.toNat]? =
      if a.toNat < dense.size then far[a]?.or dense[a.toNat]? else none := by
  unfold overlay
  rw [Std.ExtTreeMap.foldl_eq_foldl_toList,
    getElem?_foldl_setIfInBounds _ (distinct_toList far), find?_toList_eq]

theorem getElem?_farFrom (n : Nat) (far : FarCells) (a : Address) :
    (farFrom n far)[a]? = if n ≤ a.toNat then far[a]? else none := by
  rw [farFrom, Std.ExtTreeMap.getElem?_filter']
  split
  · rename_i h
    cases far[a]? <;> simp [h]
  · rename_i h
    cases far[a]? <;> simp [h]

/-! ## Views -/

theorem get_eq (m : Memory) (a : Address) : m.get a = (m.dense[a.toNat]?.or m.far[a]?).getD 0 := by
  unfold get
  split
  · rename_i h
    simp [h]
  · rename_i h
    rw [Array.getElem?_eq_none (by omega), Option.none_or,
      Std.ExtTreeMap.getD_eq_getD_getElem?]

/-- A far cell of the parts is read before a dense one at its address. -/
theorem get_ofParts (dense : Array Word) (far : FarCells) (fits : dense.size ≤ UInt64.size)
    (a : Address) : (ofParts dense far fits).get a = (far[a]?.or dense[a.toNat]?).getD 0 := by
  rw [get_eq]
  unfold ofParts
  split
  · rename_i h
    by_cases ha : a ∈ far
    · have := le_of_clearOf h a ha
      simp [Array.getElem?_eq_none this]
    · simp [Std.ExtTreeMap.getElem?_eq_none ha]
  · simp only [getElem?_overlay, getElem?_farFrom]
    by_cases ha : a.toNat < dense.size
    · simp [ha, Nat.not_le.2 ha]
    · simp [ha, Nat.not_lt.1 ha]

/-- An address finds the same cell whether or not the image has more cells than there are addresses. -/
theorem getElem?_addressable (image : Array Word) (a : Address) :
    (addressable image).1[a.toNat]? = image[a.toNat]? := by
  unfold addressable
  split
  · rfl
  · have hlt : a.toNat < UInt64.size := a.toNat_lt
    simp only [Array.take, Array.getElem?_extract, Nat.zero_add]
    rw [if_pos (by omega)]

theorem get_ofImage (image : Array Word) (a : Address) :
    (ofImage image).get a = image[a.toNat]?.getD 0 := by
  rw [get_eq]
  simp only [ofImage, getElem?_addressable, Std.ExtTreeMap.getElem?_empty, Option.or_none]

/-! ## Stores -/

/-- The dense part after it has grown to hold `w` at the address `n`. -/
theorem getElem?_grown (dense : Array Word) (n : Nat) (h : dense.size ≤ n) (w : Word) (i : Nat) :
    ((dense ++ Array.replicate (n - dense.size) 0).push w)[i]? =
      if i < dense.size then dense[i]?
      else if i < n then some 0
      else if i = n then some w
      else none := by
  have hsize : (dense ++ Array.replicate (n - dense.size) 0).size = n := by
    simp only [Array.size_append, Array.size_replicate]
    omega
  rw [Array.getElem?_push, hsize]
  by_cases hi : i = n
  · rw [if_pos hi, if_neg (by omega), if_neg (by omega), if_pos hi]
  · rw [if_neg hi, if_neg hi]
    split
    · rename_i hlt
      rw [Array.getElem?_append_left hlt]
    · rename_i hge
      have hiff : i - dense.size < n - dense.size ↔ i < n := by omega
      rw [Array.getElem?_append_right (by omega), Array.getElem?_replicate]
      simp only [hiff]

/-- A store leaves every other address as it was. -/
theorem get_set_of_ne (m : Memory) {a b : Address} (w : Word) (h : b ≠ a) :
    (m.set a w).get b = m.get b := by
  have hne : a.toNat ≠ b.toNat := fun hab => h (UInt64.toNat_inj.1 hab).symm
  unfold set
  split
  · rw [get_eq, get_eq]
    simp [Array.getElem?_set_ne, hne]
  · split
    · rw [get_eq, get_eq, Std.ExtTreeMap.getElem?_insert, if_neg]
      rw [Std.compare_eq_iff_eq]
      exact fun hab => h hab.symm
    · rename_i hout _
      rw [get_ofParts, get_eq, getElem?_grown _ _ (by omega)]
      by_cases hb : b ∈ m.far
      · have := m.far_beyond b hb
        simp [Std.ExtTreeMap.getElem?_eq_some_getElem hb, Array.getElem?_eq_none this]
      · rw [Std.ExtTreeMap.getElem?_eq_none hb, Option.none_or, Option.or_none]
        split
        · rfl
        · rename_i hge
          rw [Array.getElem?_eq_none (by omega), if_neg (Ne.symm hne)]
          split <;> rfl

/-- At the address of a store the new word is read, or what a far cell there has held. -/
theorem get_set (m : Memory) (a : Address) (w : Word) :
    (m.set a w).get a =
      if m.dense.size ≤ a.toNat ∧ a.toNat ≤ m.dense.size + longestGap then m.far[a]?.getD w else w := by
  unfold set
  split
  · rename_i hin
    rw [get_eq, if_neg (by omega)]
    simp [hin]
  · rename_i hout
    split
    · rw [get_eq, if_neg (by omega)]
      simp [Array.getElem?_eq_none (Nat.not_lt.1 hout)]
    · have hnear : m.dense.size ≤ a.toNat ∧ a.toNat ≤ m.dense.size + longestGap := by omega
      rw [if_pos hnear, get_ofParts, getElem?_grown _ _ hnear.1]
      simp only [hout, if_false, Nat.lt_irrefl, if_true]
      cases m.far[a]? <;> rfl

end Intcode.Memory
