import Intcode.Proofs.Instruction.Reach
import Intcode.Proofs.Memory.Extent
import Intcode.Proofs.Memory.Reading

/-!
# Strict memory

A strict computation has numbers of 64 bits and reaches cells by their indexes. It has no result, but traps, where a sum
is out of range, a difference is below zero or nothing stands at an index. The operations on the two parts of a memory
are told here step by step in this way, without any promise that the parts are those of a memory. On parts that are,
they come to the parts of the memory that the operation makes, and on any two parts reading does.

Memories are taken to have a dense part in the lower half of the address space. Words name no address beyond, so it stays
there (`size_dense_set_le`).
-/

namespace Intcode

/-- Why a strict computation has no result. -/
inductive Trap where
  /-- A sum is out of range. -/
  | sum
  /-- A difference is below zero. -/
  | difference
  /-- Nothing stands at an index. -/
  | index
  /-- The counter of executed instructions is full. -/
  | count
  deriving DecidableEq, Repr

namespace Strict

def sum (a b : Nat) : Except Trap Nat :=
  if a + b < UInt64.size then .ok (a + b) else .error .sum

def difference (a b : Nat) : Except Trap Nat :=
  if b ≤ a then .ok (a - b) else .error .difference

def item {α : Type} (xs : List α) (i : Nat) : Except Trap α :=
  match xs[i]? with
  | some x => .ok x
  | none => .error .index

def replace (cells : Array Word) (i : Nat) (w : Word) : Except Trap (Array Word) :=
  if h : i < cells.size then .ok (cells.set i w) else .error .index

/-- One more executed instruction. -/
def count (n : Nat) : Except Trap Nat :=
  if n + 1 < UInt64.size then .ok (n + 1) else .error .count

theorem replace_eq {cells : Array Word} {i : Nat} {w : Word} (h : i < cells.size) :
    replace cells i w = .ok (cells.setIfInBounds i w) := by
  rw [replace, dif_pos h, Array.setIfInBounds, dif_pos h]

theorem foldlM_replace {cells : List (Address × Word)} {dense : Array Word}
    (h : ∀ c ∈ cells, c.1.toNat < dense.size) :
    cells.foldlM (fun dense c => replace dense c.1.toNat c.2) dense =
      .ok (cells.foldl (fun dense c => dense.setIfInBounds c.1.toNat c.2) dense) := by
  induction cells generalizing dense with
  | nil => rfl
  | cons c cs ih =>
      rw [List.forall_mem_cons] at h
      rw [List.foldlM_cons, replace_eq h.1, List.foldl_cons]
      refine ih fun d hd => ?_
      rw [Array.size_setIfInBounds]
      exact h.2 d hd

end Strict

namespace Memory

variable {m : Memory} {a : Address} {w : Word}

/-! ## Operations on parts -/

namespace Parts

/-- The word at an address. -/
def get (p : Parts) (a : Address) : Word :=
  match p.dense[a.toNat]? with
  | some w => w
  | none => p.far.getD a 0

/-- The far cells that the dense part covers. -/
def covered (p : Parts) : FarCells :=
  p.far.filter fun a _ => a.toNat < p.dense.size

/-- Moves the far cells that the dense part covers into it. -/
def absorb (p : Parts) : Except Trap Parts :=
  if p.far.isEmpty then .ok p
  else do
    let dense ← p.covered.toList.foldlM (fun dense c => Strict.replace dense c.1.toNat c.2) p.dense
    return { dense, far := farFrom p.dense.size p.far }

/-- Stores a word at an address. -/
def set (p : Parts) (a : Address) (w : Word) : Except Trap Parts :=
  if a.toNat < p.dense.size then do
    return { p with dense := ← Strict.replace p.dense a.toNat w }
  else do
    let gap ← Strict.difference a.toNat p.dense.size
    if longestGap < gap then
      return { p with far := p.far.insert a w }
    else
      let size ← Strict.sum a.toNat 1
      let grown := p.dense ++ Array.replicate (size - p.dense.size) 0
      absorb { p with dense := ← Strict.replace grown a.toNat w }

/-- One more than the highest address in use. -/
def extent (p : Parts) : Except Trap Nat :=
  match p.far.maxKey? with
  | some a => Strict.sum a.toNat 1
  | none => .ok p.dense.size

end Parts

/-! ## Agreement -/

theorem parts_dense (m : Memory) : m.parts.dense = m.dense := rfl

theorem get_parts (m : Memory) (a : Address) : m.parts.get a = m.get a := by
  unfold Parts.get get parts
  split
  · rename_i w hw
    obtain ⟨h, hw⟩ := Array.getElem?_eq_some_iff.1 hw
    rw [dif_pos h]
    exact hw.symm
  · rename_i hnone
    rw [dif_neg (by simpa using hnone)]

theorem Parts.getElem?_covered (p : Parts) (a : Address) :
    p.covered[a]? = if a.toNat < p.dense.size then p.far[a]? else none := by
  rw [covered, Std.ExtTreeMap.getElem?_filter']
  split
  · rename_i h
    cases p.far[a]? <;> simp [h]
  · rename_i h
    cases p.far[a]? <;> simp [h]

theorem Parts.lt_of_mem_covered {p : Parts} {c : Address × Word} (h : c ∈ p.covered.toList) :
    c.1.toNat < p.dense.size := by
  rw [covered, Std.ExtTreeMap.toList_filter, List.mem_filter] at h
  exact of_decide_eq_true h.2

/-- Far cells that are not covered do not show in the dense part, so they may be left out. -/
theorem Parts.overlay_covered {p : Parts} (fits : p.dense.size ≤ UInt64.size) :
    overlay p.dense p.covered = overlay p.dense p.far := by
  refine cells_ext ?_ ?_ fun a => ?_
  · rwa [size_overlay]
  · rw [size_overlay, size_overlay]
  · rw [getElem?_overlay, getElem?_overlay]
    split
    · rename_i h
      rw [p.getElem?_covered, if_pos h]
    · rfl

theorem parts_ofParts (dense : Array Word) (far : FarCells) (fits : dense.size ≤ UInt64.size) :
    (ofParts dense far fits).parts = ⟨overlay dense far, farFrom dense.size far⟩ := by
  unfold ofParts
  split
  · rename_i clear
    have hnone : ∀ a : Address, a.toNat < dense.size → far[a]? = none := fun a ha =>
      Std.ExtTreeMap.getElem?_eq_none fun hmem => absurd (le_of_clearOf clear a hmem) (by omega)
    have hdense : overlay dense far = dense := by
      refine cells_ext (by rwa [size_overlay]) (size_overlay dense far) fun a => ?_
      rw [getElem?_overlay]
      split
      · rename_i h
        rw [hnone a h, Option.none_or]
      · rename_i h
        exact (Array.getElem?_eq_none (by omega)).symm
    have hfar : farFrom dense.size far = far := Std.ExtTreeMap.ext_getElem? fun a => by
      rw [getElem?_farFrom]
      split
      · rfl
      · rename_i h
        exact (hnone a (by omega)).symm
    rw [hdense, hfar]
    rfl
  · rfl

/-- Any two parts become those of the memory that they make, and no index is one where nothing stands. -/
theorem Parts.absorb_eq (p : Parts) (fits : p.dense.size ≤ UInt64.size) :
    p.absorb = .ok (ofParts p.dense p.far fits).parts := by
  unfold absorb
  split
  · rename_i hempty
    have hclear : clearOf p.dense.size p.far = true := by
      rw [Std.ExtTreeMap.isEmpty_iff] at hempty
      rw [hempty]
      exact clearOf_iff.2 fun a ha => absurd ha Std.ExtTreeMap.not_mem_empty
    rw [ofParts, dif_pos hclear]
    rfl
  · have hoverlay := overlay_covered fits
    rw [overlay, Std.ExtTreeMap.foldl_eq_foldl_toList] at hoverlay
    rw [Strict.foldlM_replace fun c => lt_of_mem_covered, hoverlay, parts_ofParts]
    rfl

/-- A dense part with room up to an address, where the word is put then, is the dense part with zeros and the word
behind it. -/
theorem grown_eq {dense : Array Word} {n : Nat} (h : dense.size ≤ n) (w : Word) :
    (dense ++ Array.replicate (n + 1 - dense.size) 0).setIfInBounds n w =
      (dense ++ Array.replicate (n - dense.size) 0).push w := by
  have hroom : n + 1 - dense.size = n - dense.size + 1 := by omega
  have hsize : (dense ++ Array.replicate (n - dense.size) (0 : Word)).size = n := by
    rw [Array.size_append, Array.size_replicate]
    omega
  rw [hroom, Array.replicate_succ, ← Array.push_append, Array.push_eq_append,
    Array.setIfInBounds_append_right (Nat.le_of_eq hsize), hsize, Nat.sub_self]
  rfl

theorem set_parts (hm : m.dense.size ≤ wordEnd) : m.parts.set a w = .ok (m.set a w).parts := by
  by_cases hin : a.toNat < m.dense.size
  · have hreplace : Strict.replace m.dense a.toNat w = .ok (m.dense.set a.toNat w) := dif_pos hin
    rw [Parts.set, parts_dense, if_pos hin, hreplace, set, dif_pos hin]
    rfl
  · have hgap : Strict.difference a.toNat m.dense.size = .ok (a.toNat - m.dense.size) := if_pos (Nat.not_lt.1 hin)
    rw [Parts.set, parts_dense, if_neg hin, hgap, set, dif_neg hin]
    by_cases hfar : longestGap < a.toNat - m.dense.size
    · rw [dif_pos hfar]
      exact if_pos hfar
    · rw [dif_neg hfar]
      have hsum : Strict.sum a.toNat 1 = .ok (a.toNat + 1) := if_pos (by
        simp only [longestGap, wordEnd, UInt64.size] at *
        omega)
      have hroom : a.toNat < (m.dense ++ Array.replicate (a.toNat + 1 - m.dense.size) (0 : Word)).size := by
        rw [Array.size_append, Array.size_replicate]
        omega
      simp only [bind, Except.bind, if_neg hfar, hsum, Strict.replace_eq hroom, grown_eq (Nat.not_lt.1 hin)]
      exact Parts.absorb_eq ⟨_, _⟩ _

/-- The extent is told exactly if there is no cell at the last address. -/
theorem extent_parts_iff (hm : m.dense.size ≤ wordEnd) : m.parts.extent = .ok m.extent ↔ ¬ m.HasCell .last := by
  rw [← extent_lt_iff]
  unfold Parts.extent extent
  have hfar : m.parts.far = m.far := rfl
  rw [hfar, parts_dense]
  cases m.far.maxKey? with
  | some a =>
      simp only [Strict.sum]
      split <;> simp_all
  | none =>
      simp only [wordEnd, UInt64.size] at *
      simp only [true_iff]
      omega

theorem size_dense_set_le (hm : m.dense.size ≤ wordEnd) (ha : a.toNat < wordEnd) :
    (m.set a w).dense.size ≤ wordEnd := by
  rw [size_dense_set]
  unfold denseStep
  split <;> omega

end Memory

end Intcode
