import Mathlib.Data.Nat.Basic
import Mathlib.Order.Basic
import Intcode.Proofs.Memory.LastStore

/-!
# The extent of a memory

The extent looks at the highest far cell, or at the dense part if there is none. A store may add a far cell, or make the
dense part grow over some or all of them; in each case the extent is the end of the cells that there are, and the store
has added no cell beyond its own address.

Main statement: `extent_tracks_stores`.
-/

namespace Intcode

/-- The last address. -/
def Address.last : Address :=
  UInt64.ofNatLT (UInt64.size - 1) (by decide)

namespace Memory

variable {m : Memory} {stores : List (Address × Word)} {a b : Address} {w : Word} {n : Nat}

/-- Memory keeps a cell for the address, in one of its parts. -/
def HasCell (m : Memory) (a : Address) : Prop :=
  a.toNat < m.dense.size ∨ a ∈ m.far

/-- One more than the highest address that is stored to. -/
def storesEnd (stores : List (Address × Word)) : Nat :=
  (stores.map (·.1.toNat + 1)).max?.getD 0

/-! ## Upper bounds -/

theorem extent_le_iff : m.extent ≤ n ↔ m.dense.size ≤ n ∧ ∀ a ∈ m.far, a.toNat < n := by
  unfold extent
  cases hmax : m.far.maxKey? with
  | none =>
      rw [Std.ExtTreeMap.maxKey?_eq_none_iff] at hmax
      simp [hmax]
  | some last =>
      obtain ⟨hlast, hhighest⟩ := Std.ExtTreeMap.maxKey?_eq_some_iff_mem_and_forall.1 hmax
      have hbeyond := m.far_beyond last hlast
      constructor
      · intro h
        refine ⟨by simp only at h; omega, fun a ha => ?_⟩
        have hle := hhighest a ha
        rw [Std.isLE_compare, UInt64.le_iff_toNat_le] at hle
        simp only at h
        omega
      · exact fun h => h.2 last hlast

theorem storesEnd_le_iff : storesEnd stores ≤ n ↔ ∀ c ∈ stores, c.1.toNat < n := by
  unfold storesEnd
  cases hmax : (stores.map (·.1.toNat + 1)).max? with
  | none =>
      rw [List.max?_eq_none_iff, List.map_eq_nil_iff] at hmax
      simp [hmax]
  | some highest =>
      rw [Option.getD_some, List.max?_le_iff hmax, List.forall_mem_map]
      simp only [Nat.succ_le_iff]

/-- The extent is out of the range of addresses only if there is a cell at the last of them. -/
theorem extent_lt_iff : m.extent < UInt64.size ↔ ¬ m.HasCell .last := by
  have hlast : Address.last.toNat = UInt64.size - 1 := UInt64.toNat_ofNatLT
  have hpos : 0 < UInt64.size := by decide
  rw [← Nat.le_sub_one_iff_lt hpos, extent_le_iff, HasCell, not_or, hlast, Nat.not_lt]
  refine and_congr_right fun _ => ⟨fun h hfar => ?_, fun h a ha => ?_⟩
  · exact Nat.lt_irrefl _ (hlast ▸ h _ hfar)
  · have hne : a.toNat ≠ Address.last.toNat := fun heq => h (UInt64.toNat_inj.1 heq ▸ ha)
    have hlt : a.toNat < UInt64.size := a.toNat_lt
    omega

/-! ## Stores -/

theorem extent_set (m : Memory) (a : Address) (w : Word) : (m.set a w).extent = max m.extent (a.toNat + 1) := by
  refine eq_of_forall_ge_iff fun n => ?_
  rw [Nat.max_le, extent_le_iff, extent_le_iff, size_dense_set]
  simp only [mem_far_set]
  have hle := le_denseStep m.dense.size a
  constructor
  · rintro ⟨hsize, hfar⟩
    have hbelow : ∀ b, b ∈ m.far ∨ b = a → b.toNat < n := fun b hb => by
      by_cases hstep : denseStep m.dense.size a ≤ b.toNat
      · exact hfar b ⟨hb, hstep⟩
      · omega
    exact ⟨⟨by omega, fun b hb => hbelow b (.inl hb)⟩, hbelow a (.inr rfl)⟩
  · rintro ⟨⟨hsize, hfar⟩, ha⟩
    refine ⟨?_, ?_⟩
    · unfold denseStep
      split <;> omega
    · rintro b ⟨hb | rfl, -⟩
      · exact hfar b hb
      · exact ha

theorem extent_storeAll (m : Memory) (stores : List (Address × Word)) :
    (m.storeAll stores).extent = max m.extent (storesEnd stores) := by
  refine eq_of_forall_ge_iff fun n => ?_
  rw [Nat.max_le, storesEnd_le_iff]
  induction stores using List.reverseRecOn with
  | nil => simp [storeAll]
  | append_singleton cs c ih =>
      rw [storeAll_snoc, extent_set, Nat.max_le, ih]
      simp only [List.forall_mem_append, List.forall_mem_singleton, and_assoc, Nat.succ_le_iff]

theorem extent_ofImage (image : Array Word) : (ofImage image).extent = min image.size UInt64.size := by
  have hextent : (ofImage image).extent = (addressable image).1.size := by
    unfold extent
    rw [ofImage, Std.ExtTreeMap.maxKey?_empty]
  rw [hextent, size_addressable]

/-! ## Beyond the extent -/

theorem get_of_extent_le (h : m.extent ≤ b.toNat) : m.get b = 0 := by
  obtain ⟨hdense, hfar⟩ := extent_le_iff.1 h
  have hb : b ∉ m.far := fun hb => Nat.lt_irrefl _ (hfar b hb)
  rw [get_eq, Array.getElem?_eq_none hdense, Std.ExtTreeMap.getElem?_eq_none hb]
  rfl

/-- After a store the extent is as it was, or one more than the address of the store if that is more; so after a sequence
of stores in the memory of an image it is the end of the image or one more than the highest address stored to. It never
shrinks, from it on zero is read, and it is a number in the range of addresses unless the last address has a cell. -/
theorem extent_tracks_stores :
    (∀ (m : Memory) a w, (m.set a w).extent = max m.extent (a.toNat + 1)) ∧
      (∀ (image : Array Word) stores,
        ((ofImage image).storeAll stores).extent = max (min image.size UInt64.size) (storesEnd stores)) ∧
      (∀ (m : Memory) stores, (m.storeAll stores).extent = max m.extent (storesEnd stores)) ∧
      (∀ (m : Memory) stores, m.extent ≤ (m.storeAll stores).extent) ∧
      (∀ (m : Memory) b, m.extent ≤ b.toNat → m.get b = 0) ∧
      ∀ m : Memory, m.extent < UInt64.size ↔ ¬ m.HasCell .last := by
  refine ⟨extent_set, fun image stores => ?_, extent_storeAll, fun m stores => ?_, fun m b => get_of_extent_le,
    fun m => extent_lt_iff⟩
  · rw [extent_storeAll, extent_ofImage]
  · rw [extent_storeAll]
    exact Nat.le_max_left _ _

/-- A far cell, a store of zero between it and the dense part, and a store that folds it. -/
theorem extent_tracks_stores_folded :
    let m := (ofImage #[1, 2, 3]).storeAll [(70000, 5), (10000, 0), (70001, 6)]
    m.extent = 70002 ∧ m.get 80000 = 0 := by
  intro m
  have hextent : m.extent = 70002 := extent_tracks_stores.2.1 #[1, 2, 3] _
  exact ⟨hextent, extent_tracks_stores.2.2.2.2.1 m 80000 (by rw [hextent]; decide)⟩

end Memory

end Intcode
