import Intcode.Memory.Json
import Intcode.Proofs.Json.Record
import Intcode.Proofs.Memory.Layout

/-!
# Memories from any parts

The two parts that a record holds need not be those of a memory: the dense part may cover far cells. They are read as
they stand (`parts?`), and then a memory is made of them. A far cell that is covered counts for more than the dense
cell at its address; all other cells stay where they are. The parts of a memory are left alone, so a memory that is
written is read back with the same two parts.

Main statement: `reading_normalizes`.
-/

namespace Intcode.Memory

open Json

/-! ## Parts -/

/-- A dense part and far cells, some of which the dense part may cover. -/
structure Parts where
  dense : Array Word
  far : FarCells

/-- The parts of a memory. -/
def parts (m : Memory) : Parts where
  dense := m.dense
  far := m.far

/-- The memory that any two parts make. -/
def Parts.toMemory (p : Parts) : Memory :=
  ofParts (addressable p.dense) p.far (addressable p.dense).2

/-- The memory holds the cells of both parts: as many dense cells as there were, as far as they have addresses; the far
cells that these do not cover; and where there are two words for an address, that of the far cell. -/
structure Normalizes (m : Memory) (p : Parts) : Prop where
  size : m.dense.size = min p.dense.size UInt64.size
  far : ∀ a : Address, m.far[a]? = if p.dense.size ≤ a.toNat then p.far[a]? else none
  get : ∀ a : Address, m.get a = (p.far[a]?.or p.dense[a.toNat]?).getD 0

variable {m n : Memory} {p : Parts}

theorem parts_inj (h : m.parts = n.parts) : m = n := by
  obtain ⟨dense, far, _, _⟩ := m
  obtain ⟨dense', far', _, _⟩ := n
  cases h
  rfl

theorem toMemory_parts (m : Memory) : m.parts.toMemory = m := by
  simp only [Parts.toMemory, parts, addressable_eq m.dense_fits, ofParts_self]

/-! ## What the parts make -/

theorem normalizes_toMemory (p : Parts) : p.toMemory.Normalizes p := by
  refine ⟨?_, fun a => ?_, fun a => ?_⟩
  · rw [Parts.toMemory, size_dense_ofParts, size_addressable]
  · have hlt : a.toNat < UInt64.size := a.toNat_lt
    rw [Parts.toMemory, getElem?_far_ofParts, size_addressable]
    -- no address is beyond the cells that have addresses
    have hle : min p.dense.size UInt64.size ≤ a.toNat ↔ p.dense.size ≤ a.toNat := by omega
    simp only [hle]
  · rw [Parts.toMemory, get_ofParts, getElem?_addressable]

/-- A dense cell is read at its address. -/
theorem getElem?_dense (m : Memory) (a : Address) :
    m.dense[a.toNat]? = if a.toNat < m.dense.size then some (m.get a) else none := by
  split
  · rename_i h
    rw [get_eq, Array.getElem?_eq_getElem h]
    rfl
  · rename_i h
    exact Array.getElem?_eq_none (by omega)

/-- The parts leave no choice. -/
theorem Normalizes.unique (h : m.Normalizes p) (h' : n.Normalizes p) : m = n := by
  have hfar : m.far = n.far := Std.ExtTreeMap.ext_getElem? fun a => by rw [h.far, h'.far]
  have hsize : m.dense.size = n.dense.size := h.size.trans h'.size.symm
  have hdense : m.dense = n.dense := cells_ext m.dense_fits hsize fun a => by
    rw [getElem?_dense, getElem?_dense, hsize, h.get, h'.get]
  exact parts_inj (by rw [parts, parts, hdense, hfar])

/-! ## Records -/

/-- The two parts that a record holds; without far cells there are none, and of several at one address the last
counts. -/
def parts? (j : Json) : Option Parts :=
  match fields? ["dense", "sparse"] j with
  | some [some dense, far] => do
    let dense ← dense.words?
    let far ← far.elim (some []) (Json.members? farCell?)
    return { dense := dense.toArray, far := far.foldl (fun cells (a, w) => cells.insert a w) ∅ }
  | _ => none

/-- Any two parts as a record. -/
def Parts.toJson (p : Parts) : Json :=
  .object
    [("dense", .words p.dense.toList),
      ("sparse", .object (p.far.toList.map fun (a, w) => (Numeral.ofAddress a, .word w)))]

theorem ofJson?_eq (j : Json) : ofJson? j = (parts? j).map Parts.toMemory := by
  unfold ofJson? parts?
  split
  · rename_i dense far hfields
    cases hdense : dense.words? with
    | none => simp [*]
    | some ws => cases hfar : far.elim (some []) (Json.members? farCell?) <;> simp [*, Parts.toMemory]
  · simp

theorem farCell?_ofAddress (a : Address) (w : Word) :
    farCell? (Numeral.ofAddress a) (.word w) = some (a, w) := by
  simp [farCell?, Numeral.ofAddress, plainInt?_ofNat]

theorem parts?_toJson (p : Parts) : parts? p.toJson = some p := by
  have hfields : fields? ["dense", "sparse"] p.toJson =
      some [some (.words p.dense.toList),
        some (.object (p.far.toList.map fun c => (Numeral.ofAddress c.1, .word c.2)))] :=
    fields?_object (by decide) rfl
  have hfar : (Json.object (p.far.toList.map fun c =>
      (Numeral.ofAddress c.1, .word c.2))).members? farCell? = some p.far.toList :=
    members?_map (fun c => farCell?_ofAddress c.1 c.2) _
  simp only [parts?, hfields, words?_words, Option.elim_some, hfar]
  simp [foldl_insert_toList]

theorem ofJson?_toJson (m : Memory) : ofJson? m.toJson = some m := by
  have hparts : m.toJson = m.parts.toJson := rfl
  rw [ofJson?_eq, hparts, parts?_toJson, Option.map_some, toMemory_parts]

theorem Parts.canonical_toJson (p : Parts) : Canonical p.toJson := by
  refine canonical_object (show FieldNames ["dense", "sparse"] by decide) rfl ?_
  rw [List.forall_mem_cons, List.forall_mem_singleton]
  refine ⟨canonical_words _, canonical_map (fun c => ?_) (fun c => canonical_word c.2) _⟩
  exact ⟨_, (escape_ofNat c.1.toNat).symm⟩

theorem canonical_toJson (m : Memory) : Canonical m.toJson :=
  m.parts.canonical_toJson

/-- A record is read exactly if its two parts are, and any two parts stand in some text. The memory they make is the one
that has as many dense cells, the far cells that these do not cover, and at each address the word of the far cell
there, else that of the dense cell, else zero. Written down and read again it is the same memory. -/
theorem reading_normalizes :
    (∀ j, ofJson? j = (parts? j).map Parts.toMemory) ∧
      (∀ p : Parts, ∃ text, (read? text).bind parts? = some p) ∧
      (∀ (p : Parts) m, m = p.toMemory ↔ m.Normalizes p) ∧
      ∀ m : Memory, (read? m.toJson.write).bind ofJson? = some m := by
  refine ⟨ofJson?_eq, fun p => ⟨p.toJson.write, ?_⟩, fun p m => ⟨?_, fun h => h.unique (normalizes_toMemory p)⟩,
    fun m => ?_⟩
  · rw [read?_write p.canonical_toJson, Option.bind_some, parts?_toJson]
  · rintro rfl
    exact normalizes_toMemory p
  · rw [read?_write m.canonical_toJson, Option.bind_some, ofJson?_toJson]

end Intcode.Memory
