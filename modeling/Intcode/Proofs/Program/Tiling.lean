import Mathlib.Data.List.Basic
import Intcode.Program.Listing

/-!
# The lines of a listing

Which lines a program is listed in. They lie one behind another from its first cell to its last (`Tiles`), and what is on
each of them is settled by the cells from its address on (`Shows`); there is one list of lines of which this is true. So
every cell is on one line, and two programs show the same on all their lines exactly if they agree in all that instructions
are read for and in all other cells (`ListedAlike`).
-/

namespace Intcode.Program

variable {p q : Program} {cells : List Word} {w : Word} {a b start stop stop' : Nat} {l l' : Line}
  {ls : List (Nat × Line)}

/-! ## What the lines are -/

/-- The lines lie one behind another: the first is at `start`, any other where the one before it ends, and the last ends
at `stop`. -/
inductive Tiles : Nat → List (Nat × Line) → Nat → Prop where
  | nil {start : Nat} : Tiles start [] start
  | cons {start stop : Nat} {l : Line} {ls : List (Nat × Line)} (hls : Tiles (start + l.width) ls stop) :
      Tiles start ((start, l) :: ls) stop

/-- What the line at an address shows: the word there as an instruction with its operands, if it is one and ends with
the cells or before; else the word as it is. -/
inductive Shows (cells : List Word) (a : Nat) : Line → Prop where
  | code {w : Word} {i : Instruction} (hw : cells[a]? = some w) (hi : Instruction.decode w = .ok i)
      (hfits : a + i.width ≤ cells.length) : Shows cells a (.code i ((cells.drop (a + 1)).take i.opcode.arity))
  | data {w : Word} (hw : cells[a]? = some w)
      (hno : ∀ i, Instruction.decode w = .ok i → cells.length < a + i.width) : Shows cells a (.data w)

theorem Line.width_pos (l : Line) : 0 < l.width := by
  cases l with
  | code i operands => exact Nat.succ_pos _
  | data w => exact Nat.one_pos

/-! ## One line -/

theorem drop_eq_cons (hw : cells[a]? = some w) : cells.drop a = w :: cells.drop (a + 1) := by
  obtain ⟨ha, rfl⟩ := List.getElem?_eq_some_iff.1 hw
  exact List.drop_eq_getElem_cons ha

/-- The operands of an instruction are there exactly if it ends with the cells or before. -/
theorem length_operands_iff {i : Instruction} (hw : cells[a]? = some w) :
    ((cells.drop (a + 1)).take i.opcode.arity).length = i.opcode.arity ↔ a + i.width ≤ cells.length := by
  have ha := (List.getElem?_eq_some_iff.1 hw).1
  rw [List.length_take, List.length_drop, Instruction.width]
  omega

theorem shows_iff : Shows cells a l ↔ ∃ w, cells[a]? = some w ∧ l = Line.first w (cells.drop (a + 1)) := by
  unfold Line.first
  constructor
  · intro h
    cases h with
    | @code w i hw hi hfits =>
        refine ⟨w, hw, ?_⟩
        simp only [hi, if_pos ((length_operands_iff hw).2 hfits)]
    | @data w hw hno =>
        refine ⟨w, hw, ?_⟩
        cases hdecode : Instruction.decode w with
        | error f => rfl
        | ok i => exact (if_neg fun h => Nat.not_le.2 (hno i hdecode) ((length_operands_iff hw).1 h)).symm
  · rintro ⟨w, hw, rfl⟩
    cases hdecode : Instruction.decode w with
    | error f => exact .data hw fun i hi => by rw [hdecode] at hi; cases hi
    | ok i =>
        simp only [length_operands_iff hw]
        split
        · rename_i hfits
          exact .code hw hdecode hfits
        · rename_i hfits
          refine .data hw fun j hj => ?_
          rw [hdecode] at hj
          cases hj
          exact Nat.not_le.1 hfits

theorem Shows.unique (h : Shows cells a l) (h' : Shows cells a l') : l = l' := by
  obtain ⟨w, hw, rfl⟩ := shows_iff.1 h
  obtain ⟨w', hw', rfl⟩ := shows_iff.1 h'
  rw [hw] at hw'
  cases hw'
  rfl

theorem Shows.end_le (h : Shows cells a l) : a + l.width ≤ cells.length := by
  cases h with
  | code _ _ hfits => exact hfits
  | data hw _ => exact (List.getElem?_eq_some_iff.1 hw).1

/-! ## All lines -/

theorem linesFrom_drop (hw : cells[a]? = some w) (hl : l = Line.first w (cells.drop (a + 1))) :
    linesFrom a (cells.drop a) = (a, l) :: linesFrom (a + l.width) (cells.drop (a + l.width)) := by
  have hpos := l.width_pos
  have hnext : (cells.drop (a + 1)).drop (l.width - 1) = cells.drop (a + l.width) := by
    rw [List.drop_drop]
    congr 1
    omega
  rw [drop_eq_cons hw, linesFrom]
  simp only [← hl, hnext]

theorem eq_linesFrom (htiles : Tiles start ls cells.length) (hshows : ∀ l ∈ ls, Shows cells l.1 l.2) :
    ls = linesFrom start (cells.drop start) := by
  generalize hstop : cells.length = stop at htiles
  induction htiles with
  | nil =>
      subst hstop
      rw [List.drop_length, linesFrom]
  | cons _ ih =>
      obtain ⟨hl, hls⟩ := List.forall_mem_cons.1 hshows
      obtain ⟨w, hw, hfirst⟩ := shows_iff.1 hl
      rw [linesFrom_drop hw hfirst, ← ih hls hstop]

theorem tiles_linesFrom (h : start ≤ cells.length) :
    Tiles start (linesFrom start (cells.drop start)) cells.length ∧
      ∀ l ∈ linesFrom start (cells.drop start), Shows cells l.1 l.2 := by
  -- what is left of the cells gets shorter with each line
  induction hn : cells.length - start using Nat.strongRecOn generalizing start with
  | ind n ih =>
      obtain rfl | hlt := Nat.eq_or_lt_of_le h
      · rw [List.drop_length, linesFrom]
        exact ⟨.nil, List.forall_mem_nil _⟩
      · have hshows := shows_iff.2 ⟨_, List.getElem?_eq_getElem hlt, rfl⟩
        have hend := hshows.end_le
        rw [linesFrom_drop (List.getElem?_eq_getElem hlt) rfl]
        generalize Line.first cells[start] (cells.drop (start + 1)) = l at hshows hend ⊢
        have hpos := l.width_pos
        obtain ⟨htiles, hrest⟩ := ih _ (by omega) hend rfl
        exact ⟨.cons htiles, List.forall_mem_cons.2 ⟨hshows, hrest⟩⟩

theorem tiles_lines (p : Program) : Tiles 0 p.lines p.cells.length :=
  (tiles_linesFrom p.cells.length.zero_le).1

theorem shows_of_mem_lines (hl : (a, l) ∈ p.lines) : Shows p.cells a l :=
  (tiles_linesFrom p.cells.length.zero_le).2 _ hl

theorem eq_lines_iff : ls = p.lines ↔ Tiles 0 ls p.cells.length ∧ ∀ l ∈ ls, Shows p.cells l.1 l.2 := by
  constructor
  · rintro rfl
    exact ⟨tiles_lines p, fun l => shows_of_mem_lines⟩
  · exact fun h => eq_linesFrom h.1 h.2

/-! ## Places on lines -/

theorem Tiles.length_le (h : Tiles start ls stop) : start + ls.length ≤ stop := by
  induction h with
  | nil => exact Nat.le_refl _
  | @cons start stop l ls _ ih =>
      have := l.width_pos
      rw [List.length_cons]
      omega

theorem Tiles.start_le (h : Tiles start ls stop) (hl : (a, l) ∈ ls) : start ≤ a := by
  induction h with
  | nil => cases hl
  | cons _ ih =>
      rcases List.mem_cons.1 hl with heq | hl
      · cases heq
        exact Nat.le_refl _
      · exact Nat.le_trans (Nat.le_add_right _ _) (ih hl)

/-- Every cell is on a line. -/
theorem Tiles.exists_mem (h : Tiles start ls stop) (hstart : start ≤ b) (hstop : b < stop) :
    ∃ a l, (a, l) ∈ ls ∧ a ≤ b ∧ b < a + l.width := by
  induction h with
  | nil => omega
  | @cons start stop l ls _ ih =>
      by_cases hb : b < start + l.width
      · exact ⟨start, l, List.mem_cons_self, hstart, hb⟩
      · obtain ⟨a, l', hl', hle, hlt⟩ := ih (Nat.not_lt.1 hb) hstop
        exact ⟨a, l', List.mem_cons_of_mem _ hl', hle, hlt⟩

/-- No line begins on another one. -/
theorem Tiles.le_of_lt (h : Tiles start ls stop) (hl : (a, l) ∈ ls) (hl' : (b, l') ∈ ls) (hlt : a < b) :
    a + l.width ≤ b := by
  induction h with
  | nil => cases hl
  | cons hls ih =>
      rcases List.mem_cons.1 hl with heq | hmem <;> rcases List.mem_cons.1 hl' with heq' | hmem'
      · cases heq
        cases heq'
        omega
      · cases heq
        exact hls.start_le hmem'
      · cases heq'
        have := hls.start_le hmem
        omega
      · exact ih hmem hmem'

/-! ## What is shown alike -/

/-- A line without the word of its instruction, of which no more than the operation and the modes show. -/
def Line.face : Line → Line
  | .code i operands => .code { i with word := 0 } operands
  | .data w => .data w

/-- The lines with their addresses, as far as they show. -/
def faces (p : Program) : List (Nat × Line) :=
  p.lines.map fun l => (l.1, l.2.face)

/-- A line with an instruction begins at the address. -/
def InstructionAt (p : Program) (a : Nat) : Prop :=
  ∃ i operands, (a, Line.code i operands) ∈ p.lines

/-- The word at the address is read as the instruction. -/
def DecodesAt (p : Program) (a : Nat) (i : Instruction) : Prop :=
  ∃ w, p.cells[a]? = some w ∧ Instruction.decode w = .ok i

/-- Two programs have as many cells, and lines that begin at the same addresses; where the line of the first begins an
instruction, both have words with the same operation and modes; and all other cells, operands and data, are the same. It
is enough to look for instructions in one of them, since the other has none elsewhere. -/
structure ListedAlike (p q : Program) : Prop where
  length : p.cells.length = q.cells.length
  starts : p.lines.map Prod.fst = q.lines.map Prod.fst
  instructions : ∀ a, p.InstructionAt a →
    ∃ i j, p.DecodesAt a i ∧ q.DecodesAt a j ∧ i.opcode = j.opcode ∧ i.modes = j.modes
  others : ∀ a, ¬ p.InstructionAt a → p.cells[a]? = q.cells[a]?

theorem Line.width_face (l : Line) : l.face.width = l.width := by
  cases l <;> rfl

theorem Tiles.faces (h : Tiles start ls stop) : Tiles start (ls.map fun l => (l.1, l.2.face)) stop := by
  induction h with
  | nil => exact .nil
  | @cons start stop l ls _ ih =>
      rw [List.map_cons]
      exact .cons (l.width_face ▸ ih)

theorem tiles_faces (p : Program) : Tiles 0 p.faces p.cells.length :=
  (tiles_lines p).faces

theorem Tiles.stop_unique (h : Tiles start ls stop) (h' : Tiles start ls stop') : stop = stop' := by
  induction h with
  | nil =>
      cases h'
      rfl
  | cons _ ih =>
      cases h' with
      | cons hls => exact ih hls

theorem Line.face_eq_face_iff : l.face = l'.face ↔ match l, l' with
    | .code i operands, .code j operands' => i.opcode = j.opcode ∧ i.modes = j.modes ∧ operands = operands'
    | .data w, .data v => w = v
    | _, _ => False := by
  cases l <;> cases l' <;> simp [face, and_assoc]

theorem exists_mem_lines_of_faces_eq (h : p.faces = q.faces) (hl : (a, l) ∈ p.lines) :
    ∃ l', (a, l') ∈ q.lines ∧ l.face = l'.face := by
  have hface : (a, l.face) ∈ q.faces := h ▸ List.mem_map_of_mem (f := fun l => (l.1, l.2.face)) hl
  obtain ⟨⟨b, l'⟩, hl', heq⟩ := List.mem_map.1 hface
  obtain ⟨rfl, hlike⟩ := Prod.ext_iff.1 heq
  exact ⟨l', hl', hlike.symm⟩

theorem Shows.operand {i : Instruction} {operands : List Word} {k : Nat} (h : Shows cells a (.code i operands))
    (hk : k < i.opcode.arity) : operands[k]? = cells[a + 1 + k]? := by
  cases h with
  | code => rw [List.getElem?_take_of_lt hk, List.getElem?_drop]

theorem DecodesAt.of_shows {i : Instruction} {operands : List Word} (h : Shows p.cells a (.code i operands)) :
    p.DecodesAt a i := by
  cases h with
  | @code w i hw hi _ => exact ⟨w, hw, hi⟩

/-- The cells on two lines that show the same are the same, but for the words of instructions. -/
theorem getElem?_eq_of_face_eq (h : Shows p.cells a l) (h' : Shows q.cells a l') (hface : l.face = l'.face)
    (hle : a ≤ b) (hlt : b < a + l.width) (hcode : ∀ i operands, l = .code i operands → a ≠ b) :
    p.cells[b]? = q.cells[b]? := by
  rw [Line.face_eq_face_iff] at hface
  cases l with
  | data w =>
      cases l' with
      | code => exact hface.elim
      | data v =>
          subst hface
          obtain rfl : a = b := by
            simp only [Line.width] at hlt
            omega
          cases h with
          | data hw _ =>
              cases h' with
              | data hw' _ => rw [hw, hw']
  | code i operands =>
      cases l' with
      | data => exact hface.elim
      | code j operands' =>
          obtain ⟨hopcode, -, rfl⟩ := hface
          have hne := hcode i operands rfl
          have hk : b - (a + 1) < i.opcode.arity := by
            simp only [Line.width, Instruction.width] at hlt
            omega
          have hplace : a + 1 + (b - (a + 1)) = b := by omega
          rw [← hplace, ← h.operand hk, h'.operand (hopcode ▸ hk)]

theorem listedAlike_of_faces_eq (h : p.faces = q.faces) : ListedAlike p q := by
  have hlength : p.cells.length = q.cells.length :=
    (tiles_faces p).stop_unique (h ▸ tiles_faces q)
  refine ⟨hlength, ?_, ?_, fun b hb => ?_⟩
  · have hstarts := congrArg (List.map Prod.fst) h
    rwa [faces, faces, List.map_map, List.map_map] at hstarts
  · rintro a ⟨i, operands, hl⟩
    obtain ⟨l', hl', hface⟩ := exists_mem_lines_of_faces_eq h hl
    rw [Line.face_eq_face_iff] at hface
    cases l' with
    | data w => exact hface.elim
    | code j operands' =>
        exact ⟨i, j, .of_shows (shows_of_mem_lines hl), .of_shows (shows_of_mem_lines hl'), hface.1, hface.2.1⟩
  · by_cases hend : b < p.cells.length
    · obtain ⟨a, l, hl, hle, hlt⟩ := (tiles_lines p).exists_mem b.zero_le hend
      obtain ⟨l', hl', hface⟩ := exists_mem_lines_of_faces_eq h hl
      refine getElem?_eq_of_face_eq (shows_of_mem_lines hl) (shows_of_mem_lines hl') hface hle hlt ?_
      rintro i operands rfl rfl
      exact hb ⟨i, operands, hl⟩
    · rw [List.getElem?_eq_none (by omega), List.getElem?_eq_none (by omega)]

/-- Operands lie behind the beginning of their own line, so no line begins there. -/
theorem not_instructionAt_operand {i : Instruction} {operands : List Word} {k : Nat}
    (hl : (a, Line.code i operands) ∈ p.lines) (hk : k < i.opcode.arity) : ¬ p.InstructionAt (a + 1 + k) := by
  rintro ⟨j, operands', hother⟩
  have hle := (tiles_lines p).le_of_lt hl hother (by omega)
  simp only [Line.width, Instruction.width] at hle
  omega

theorem face_eq_of_listedAlike (h : ListedAlike p q) (hl : (a, l) ∈ p.lines) (hl' : (a, l') ∈ q.lines) :
    l.face = l'.face := by
  have hshows := shows_of_mem_lines hl
  have hshows' := shows_of_mem_lines hl'
  cases hshows with
  | @code w i hw hi hfits =>
      obtain ⟨i', j, ⟨w', hw', hi'⟩, ⟨v, hv, hj⟩, hopcode, hmodes⟩ := h.instructions a ⟨i, _, hl⟩
      rw [hw] at hw'
      cases hw'
      rw [hi] at hi'
      cases hi'
      have hfits' : a + j.width ≤ q.cells.length := by
        rw [← h.length, Instruction.width, ← hopcode]
        exact hfits
      obtain rfl := hshows'.unique (.code hv hj hfits')
      refine Line.face_eq_face_iff.2 ⟨hopcode, hmodes, ?_⟩
      rw [← hopcode]
      refine List.ext_getElem? fun k => ?_
      by_cases hk : k < i.opcode.arity
      · rw [List.getElem?_take_of_lt hk, List.getElem?_take_of_lt hk, List.getElem?_drop, List.getElem?_drop]
        exact h.others _ (not_instructionAt_operand hl hk)
      · rw [List.getElem?_take_eq_none (Nat.not_lt.1 hk), List.getElem?_take_eq_none (Nat.not_lt.1 hk)]
  | @data w hw hno =>
      have hv : q.cells[a]? = some w := by
        rw [← h.others a fun ⟨i, operands, hcode⟩ => ?_, hw]
        exact Line.noConfusion ((shows_of_mem_lines hcode).unique (shows_of_mem_lines hl))
      obtain rfl := hshows'.unique (.data hv fun i hi => h.length ▸ hno i hi)
      rfl

/-- Lists that agree under one function agree under another that does not tell more of their members. -/
theorem map_eq_map_of_map_eq_map {α β γ : Type} {f : α → β} {g : α → γ} {xs ys : List α}
    (h : ∀ x ∈ xs, ∀ y ∈ ys, f x = f y → g x = g y) (hf : xs.map f = ys.map f) : xs.map g = ys.map g := by
  induction xs generalizing ys with
  | nil =>
      rw [List.map_nil, eq_comm, List.map_eq_nil_iff] at hf
      rw [hf]
  | cons x xs ih =>
      rw [List.map_cons, eq_comm, List.map_eq_cons_iff] at hf
      obtain ⟨y, ys, rfl, hy, hys⟩ := hf
      rw [List.map_cons, List.map_cons, h x List.mem_cons_self y List.mem_cons_self hy.symm]
      rw [ih (fun x hx y hy => h x (List.mem_cons_of_mem _ hx) y (List.mem_cons_of_mem _ hy)) hys.symm]

/-- Two programs show the same on their lines exactly if they are listed alike. -/
theorem faces_eq_iff : p.faces = q.faces ↔ ListedAlike p q := by
  refine ⟨listedAlike_of_faces_eq, fun h => map_eq_map_of_map_eq_map ?_ h.starts⟩
  rintro ⟨a, l⟩ hl ⟨b, l'⟩ hl' hstart
  obtain rfl : a = b := hstart
  exact Prod.ext rfl (face_eq_of_listedAlike h hl hl')

end Intcode.Program
