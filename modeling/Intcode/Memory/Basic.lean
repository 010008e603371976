import Std.Data.ExtTreeMap
import Intcode.Word

/-!
# Memory

Memory reads as one word for every address, zero where nothing was stored. It is kept in two parts: a
dense part, an array of the cells from address zero on, and the far cells, a sorted map of single cells
beyond it. A store close to the end of the dense part extends it; a store far beyond it makes one far
cell, so that a single high address does not fill the gap.

When the dense part grows over far cells these move into it, and what they hold replaces what the dense
part held at their addresses, the word just stored included.
-/

namespace Intcode

/-- Single cells by their addresses, in ascending order. -/
abbrev FarCells := Std.ExtTreeMap Address Word

/-- The cells of a machine: the dense part, and far cells none of which the dense part covers. -/
structure Memory where
  /-- The cells from address zero on. -/
  dense : Array Word
  /-- The cells beyond the dense part. -/
  far : FarCells
  dense_fits : dense.size ≤ UInt64.size
  far_beyond : ∀ a ∈ far, dense.size ≤ a.toNat

namespace Memory

/-! ## Making -/

/-- No cell of `far` is covered by the first `n` addresses. -/
def clearOf (n : Nat) (far : FarCells) : Bool :=
  match far.minKey? with
  | some a => decide (n ≤ a.toNat)
  | none => true

theorem le_of_clearOf {n : Nat} {far : FarCells} (h : clearOf n far = true) :
    ∀ a ∈ far, n ≤ a.toNat := by
  intro a ha
  unfold clearOf at h
  cases hk : far.minKey? with
  | none =>
    rw [Std.ExtTreeMap.minKey?_eq_none_iff] at hk
    simp [hk] at ha
  | some k =>
    rw [hk] at h
    have hle := (Std.ExtTreeMap.minKey?_eq_some_iff_mem_and_forall.1 hk).2 a ha
    rw [Std.isLE_compare] at hle
    exact Nat.le_trans (of_decide_eq_true h) (UInt64.le_iff_toNat_le.1 hle)

/-- The far cells at and beyond the address `n`. -/
def farFrom (n : Nat) (far : FarCells) : FarCells :=
  far.filter fun a _ => n ≤ a.toNat

theorem le_of_mem_farFrom {n : Nat} {far : FarCells} : ∀ a ∈ farFrom n far, n ≤ a.toNat := by
  intro a ha
  obtain ⟨h, hn⟩ := Std.ExtTreeMap.mem_filter.1 ha
  simpa using hn

/-- The dense cells with every far cell among them written over. -/
def overlay (dense : Array Word) (far : FarCells) : Array Word :=
  far.foldl (fun cells a w => cells.setIfInBounds a.toNat w) dense

theorem size_overlay (dense : Array Word) (far : FarCells) :
    (overlay dense far).size = dense.size := by
  unfold overlay
  rw [Std.ExtTreeMap.foldl_eq_foldl_toList]
  generalize far.toList = cells
  induction cells generalizing dense with
  | nil => rfl
  | cons c cs ih => simpa using ih (dense.setIfInBounds c.1.toNat c.2)

/-- Memory from any two parts: far cells that the dense part covers move into it. -/
def ofParts (dense : Array Word) (far : FarCells) (fits : dense.size ≤ UInt64.size) : Memory :=
  if clear : clearOf dense.size far then
    { dense, far, dense_fits := fits, far_beyond := le_of_clearOf clear }
  else
    { dense := overlay dense far
      far := farFrom dense.size far
      dense_fits := by rw [size_overlay]; exact fits
      far_beyond := by rw [size_overlay]; exact le_of_mem_farFrom }

/-- The cells of an image that have addresses: all of them, unless it is larger than the address space. -/
def addressable (image : Array Word) : { cells : Array Word // cells.size ≤ UInt64.size } :=
  if h : image.size ≤ UInt64.size then ⟨image, h⟩
  else ⟨image.take UInt64.size, by rw [Array.take, Array.size_extract]; omega⟩

/-- Memory that holds an image from address zero on. -/
def ofImage (image : Array Word) : Memory where
  dense := addressable image
  far := ∅
  dense_fits := (addressable image).2
  far_beyond := by simp

instance : Inhabited Memory := ⟨ofImage #[]⟩

/-! ## Reading and storing -/

/-- The word at an address. -/
def get (m : Memory) (a : Address) : Word :=
  if h : a.toNat < m.dense.size then m.dense[a.toNat] else m.far.getD a 0

/-- The longest gap behind the dense part that a store fills. -/
def longestGap : Nat :=
  65536

/-- Stores a word at an address. -/
def set (m : Memory) (a : Address) (w : Word) : Memory :=
  if inside : a.toNat < m.dense.size then
    { m with
      dense := m.dense.set a.toNat w
      dense_fits := by simpa using m.dense_fits
      far_beyond := by simpa using m.far_beyond }
  else if isFar : longestGap < a.toNat - m.dense.size then
    { m with
      far := m.far.insert a w
      far_beyond := by
        intro b hb
        rcases Std.ExtTreeMap.mem_insert.1 hb with h | h
        · rw [Std.compare_eq_iff_eq] at h
          subst h
          omega
        · exact m.far_beyond b h }
  else
    ofParts ((m.dense ++ Array.replicate (a.toNat - m.dense.size) 0).push w) m.far (by
      have := a.toNat_lt
      simp only [Array.size_push, Array.size_append, Array.size_replicate, UInt64.size]
      omega)

/-! ## Views -/

/-- One more than the highest address in use. -/
def extent (m : Memory) : Nat :=
  match m.far.maxKey? with
  | some a => a.toNat + 1
  | none => m.dense.size

/-- The cells of the dense part with their addresses. -/
def denseCells (m : Memory) : List (Address × Word) :=
  m.dense.toList.zipIdx.map fun (w, i) => (UInt64.ofNat i, w)

/-- The cells that do not hold zero, by ascending address. -/
def cells (m : Memory) : List (Address × Word) :=
  (m.denseCells ++ m.far.toList).filter (·.2 ≠ 0)

/-- Both memories hold the same cells, whatever their parts. -/
def sameCells (m n : Memory) : Bool :=
  m.cells == n.cells

end Memory

end Intcode
