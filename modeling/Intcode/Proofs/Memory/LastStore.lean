import Mathlib.Data.List.Induction
import Intcode.Proofs.Memory.Layout

/-!
# Which store is read back

A memory is meant to read, at every address, as the last store there left it. The stores of a sequence
decide where the dense part ends after it (`denseEnd`), and with the far cells of the start that is all
it takes to say when the last store at an address is lost: the address was a far cell, and the store
makes the dense part grow over it (`Folds`). What such a store leaves is what was read before it.

Main statement: the last store at an address is read back unless it is lost (`get_storeAll_iff`).
-/

namespace Intcode.Memory

variable {m : Memory} {stores before after : List (Address × Word)} {a : Address} {w : Word}

/-! ## Sequences of stores -/

/-- The memory after a sequence of stores. -/
def storeAll (m : Memory) (stores : List (Address × Word)) : Memory :=
  stores.foldl (fun m c => m.set c.1 c.2) m

/-- The word of the last store at an address. -/
def lastStore? (a : Address) (stores : List (Address × Word)) : Option Word :=
  (stores.reverse.find? (·.1 = a)).map (·.2)

/-- What the last store at an address left there; without one, what memory held at the start. -/
def lastWord (m : Memory) (stores : List (Address × Word)) (a : Address) : Word :=
  (lastStore? a stores).getD (m.get a)

/-- The end of a dense part of `n` cells after a sequence of stores. -/
def denseEnd (n : Nat) (stores : List (Address × Word)) : Nat :=
  stores.foldl (fun n c => denseStep n c.1) n

/-- After the stores `before`, one more store at `a` makes the dense part grow over a far cell there. -/
structure Folds (m : Memory) (before : List (Address × Word)) (a : Address) : Prop where
  stored : a ∈ m.far ∨ a ∈ before.map (·.1)
  outside : denseEnd m.dense.size before ≤ a.toNat
  near : a.toNat ≤ denseEnd m.dense.size before + longestGap

/-- The last store at `a` is lost: it folds a far cell over a word that differs from its own. -/
def Loses (m : Memory) (stores : List (Address × Word)) (a : Address) : Prop :=
  ∃ before w after, stores = before ++ (a, w) :: after ∧ (∀ c ∈ after, c.1 ≠ a) ∧
    m.Folds before a ∧ m.lastWord before a ≠ w

/-! ## The last store -/

theorem lastWord_snoc (c : Address × Word) :
    m.lastWord (stores ++ [c]) a = if c.1 = a then c.2 else m.lastWord stores a := by
  unfold lastWord lastStore?
  rw [List.reverse_append, List.reverse_singleton, List.singleton_append, List.find?_cons]
  by_cases h : c.1 = a <;> simp [h]

theorem lastWord_append_of_ne (h : ∀ c ∈ after, c.1 ≠ a) :
    m.lastWord (stores ++ after) a = m.lastWord stores a := by
  induction after using List.reverseRecOn with
  | nil => rw [List.append_nil]
  | append_singleton cs c ih =>
      rw [← List.append_assoc, lastWord_snoc, if_neg (h c (by simp))]
      exact ih fun d hd => h d (by simp [hd])

/-- The sequence has no store at `a`, or it has a last one. -/
theorem last_split (stores : List (Address × Word)) (a : Address) :
    (∀ c ∈ stores, c.1 ≠ a) ∨
      ∃ before w after, stores = before ++ (a, w) :: after ∧ ∀ c ∈ after, c.1 ≠ a := by
  induction stores using List.reverseRecOn with
  | nil => exact Or.inl (by simp)
  | append_singleton cs c ih =>
      by_cases hc : c.1 = a
      · refine Or.inr ⟨cs, c.2, [], ?_, by simp⟩
        rw [← hc]
      · rcases ih with h | ⟨before, w, after, rfl, h⟩
        · refine Or.inl fun d hd => ?_
          rcases List.mem_append.1 hd with hd | hd
          · exact h d hd
          · rw [List.mem_singleton.1 hd]
            exact hc
        · refine Or.inr ⟨before, w, after ++ [c], by simp, fun d hd => ?_⟩
          rcases List.mem_append.1 hd with hd | hd
          · exact h d hd
          · rw [List.mem_singleton.1 hd]
            exact hc

/-! ## The layout after the stores -/

theorem storeAll_snoc (c : Address × Word) :
    m.storeAll (stores ++ [c]) = (m.storeAll stores).set c.1 c.2 := by
  simp [storeAll]

theorem storeAll_append : m.storeAll (stores ++ after) = (m.storeAll stores).storeAll after :=
  List.foldl_append

theorem denseEnd_snoc (n : Nat) (c : Address × Word) :
    denseEnd n (stores ++ [c]) = denseStep (denseEnd n stores) c.1 := by
  simp [denseEnd]

theorem size_dense_storeAll : (m.storeAll stores).dense.size = denseEnd m.dense.size stores := by
  induction stores using List.reverseRecOn with
  | nil => rfl
  | append_singleton cs c ih => rw [storeAll_snoc, size_dense_set, denseEnd_snoc, ih]

/-- The far cells are the addresses that were ever far or stored to, as far as the dense part does not
reach them. -/
theorem mem_far_storeAll :
    a ∈ (m.storeAll stores).far ↔
      (a ∈ m.far ∨ a ∈ stores.map (·.1)) ∧ denseEnd m.dense.size stores ≤ a.toNat := by
  induction stores using List.reverseRecOn with
  | nil =>
      constructor
      · intro h
        exact ⟨Or.inl h, m.far_beyond a h⟩
      · rintro ⟨h | h, -⟩
        · exact h
        · cases h
  | append_singleton cs c ih =>
      have hle := le_denseStep (denseEnd m.dense.size cs) c.1
      rw [storeAll_snoc, mem_far_set, ih, size_dense_storeAll, denseEnd_snoc, List.map_append,
        List.mem_append, List.map_singleton, List.mem_singleton]
      constructor
      · rintro ⟨⟨h | h, -⟩ | h, hend⟩
        · exact ⟨Or.inl h, hend⟩
        · exact ⟨Or.inr (Or.inl h), hend⟩
        · exact ⟨Or.inr (Or.inr h), hend⟩
      · rintro ⟨h | h | h, hend⟩
        · exact ⟨Or.inl ⟨Or.inl h, by omega⟩, hend⟩
        · exact ⟨Or.inl ⟨Or.inr h, by omega⟩, hend⟩
        · exact ⟨Or.inr h, hend⟩

/-! ## Reading back -/

theorem get_storeAll_of_ne (h : ∀ c ∈ stores, c.1 ≠ a) : (m.storeAll stores).get a = m.get a := by
  induction stores using List.reverseRecOn with
  | nil => rfl
  | append_singleton cs c ih =>
      rw [storeAll_snoc, get_set_of_ne _ _ (h c (by simp)).symm]
      exact ih fun d hd => h d (by simp [hd])

/-- As long as the dense part does not reach an address, its last store is read there. -/
theorem get_storeAll_of_denseEnd_le (h : denseEnd m.dense.size stores ≤ a.toNat) :
    (m.storeAll stores).get a = m.lastWord stores a := by
  induction stores using List.reverseRecOn with
  | nil => rfl
  | append_singleton cs c ih =>
      rw [denseEnd_snoc] at h
      have hle := le_denseStep (denseEnd m.dense.size cs) c.1
      rw [storeAll_snoc, lastWord_snoc]
      by_cases hc : c.1 = a
      · -- a store that makes the dense part grow would have made it reach `a`
        subst hc
        rw [if_pos rfl, get_set, size_dense_storeAll, if_neg]
        intro hnear
        rw [denseStep, if_pos hnear] at h
        omega
      · rw [if_neg hc, get_set_of_ne _ _ (Ne.symm hc)]
        exact ih (by omega)

/-- One more store is read back unless it folds a far cell over its word. -/
theorem get_set_storeAll_of_not_folds (h : ¬ m.Folds before a) :
    ((m.storeAll before).set a w).get a = w := by
  rw [get_set, size_dense_storeAll]
  split
  · rename_i hnear
    rw [Std.ExtTreeMap.getElem?_eq_none, Option.getD_none]
    intro ha
    exact h ⟨(mem_far_storeAll.1 ha).1, hnear.1, hnear.2⟩
  · rfl

/-- A store that folds a far cell over its word leaves what was read before it. -/
theorem get_set_storeAll_of_folds (h : m.Folds before a) :
    ((m.storeAll before).set a w).get a = m.lastWord before a := by
  have ha : a ∈ (m.storeAll before).far := mem_far_storeAll.2 ⟨h.stored, h.outside⟩
  rw [get_set, size_dense_storeAll, if_pos ⟨h.outside, h.near⟩,
    ← get_storeAll_of_denseEnd_le h.outside, get_eq, Array.getElem?_eq_none, Option.none_or,
    Std.ExtTreeMap.getElem?_eq_some_getElem ha]
  · rfl
  · rw [size_dense_storeAll]
    exact h.outside

theorem get_storeAll_split (h : ∀ c ∈ after, c.1 ≠ a) :
    (m.storeAll (before ++ (a, w) :: after)).get a = ((m.storeAll before).set a w).get a := by
  rw [List.append_cons, storeAll_append, get_storeAll_of_ne h, storeAll_snoc]

theorem lastWord_split (h : ∀ c ∈ after, c.1 ≠ a) :
    m.lastWord (before ++ (a, w) :: after) a = w := by
  rw [List.append_cons, lastWord_append_of_ne h, lastWord_snoc, if_pos rfl]

/-- What was read before is read in the place of a lost store. -/
theorem get_storeAll_of_folds (h : ∀ c ∈ after, c.1 ≠ a) (hf : m.Folds before a) :
    (m.storeAll (before ++ (a, w) :: after)).get a = m.lastWord before a := by
  rw [get_storeAll_split h, get_set_storeAll_of_folds hf]

/-- The last store at an address is read back, or what the start held without one, exactly if that store
does not fold a far cell over its word. -/
theorem get_storeAll_iff (m : Memory) (stores : List (Address × Word)) (a : Address) :
    (m.storeAll stores).get a = (lastStore? a stores).getD (m.get a) ↔ ¬ m.Loses stores a := by
  constructor
  · rintro h ⟨before, w, after, rfl, hafter, hfolds, hne⟩
    rw [get_storeAll_of_folds hafter hfolds] at h
    exact hne (h.trans (lastWord_split hafter))
  · intro h
    rcases last_split stores a with hne | ⟨before, w, after, rfl, hafter⟩
    · rw [get_storeAll_of_ne hne]
      exact (@lastWord_append_of_ne m [] stores a hne).symm
    · have hlast : (lastStore? a (before ++ (a, w) :: after)).getD (m.get a) = w :=
        lastWord_split hafter
      rw [hlast]
      by_cases hf : m.Folds before a
      · rw [get_storeAll_of_folds hafter hf]
        by_contra hw
        exact h ⟨before, w, after, rfl, hafter, hf, hw⟩
      · rw [get_storeAll_split hafter, get_set_storeAll_of_not_folds hf]

/-- A store in the gap between the dense part and a far cell brings the far cell near; then a store at the
far cell is lost. -/
theorem second_far_store_is_lost :
    ((ofImage #[0]).storeAll [(70000, 1), (10000, 0), (70000, 2)]).get 70000 = 1 ∧
      lastStore? 70000 [(70000, 1), (10000, 0), (70000, 2)] = some 2 := by
  have hfolds : (ofImage #[0]).Folds [(70000, 1), (10000, 0)] 70000 :=
    ⟨Or.inr (by decide), by decide, by decide⟩
  have hafter : ∀ c ∈ ([] : List (Address × Word)), c.1 ≠ 70000 := by simp
  exact ⟨get_storeAll_of_folds (w := 2) hafter hfolds, by decide⟩

end Intcode.Memory
