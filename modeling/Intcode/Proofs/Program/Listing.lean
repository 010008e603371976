import Intcode.Proofs.Program.Tiling
import Intcode.Proofs.Instruction.Digits
import Intcode.Proofs.Text.Numeral

/-!
# Reading a listing back

What a listing shows can be read off its text. Lines end where the first line end stands, the address ends at the first
colon, the name behind it has a column of its own, and operands end at commas; the characters that are not in numerals tell
the mode of an operand. So two programs have one text exactly if their lines show the same.

Main statement: `listing_covers`.
-/

namespace Intcode.Program

variable {p q : Program} {w v : Word} {c : Char} {mode mode' : Mode} {a b : Nat} {l l' : Line}

/-! ## Operands -/

/-- What stands before the numeral of an operand. -/
def opening : Mode → List Char
  | .position => ['[']
  | .immediate => []
  | .relative => ['[', 'r', 'b']

/-- What stands behind the numeral of an operand. -/
def closing : Mode → List Char
  | .position => [']']
  | .immediate => []
  | .relative => [']']

theorem denotes_plus_ofWord (h : 0 ≤ w.toInt) : Numeral.Denotes ('+' :: (Numeral.ofWord w).toList) w.toInt := by
  obtain ⟨n, hn⟩ := Int.eq_ofNat_of_zero_le h
  rw [Numeral.ofWord, hn]
  exact .plus (Numeral.digits_ofNat n)

/-- An operand is a numeral of its word between what its mode has before and behind it. -/
theorem toList_operandText (mode : Mode) (w : Word) :
    ∃ numeral, (Line.operandText mode w).toList = opening mode ++ numeral ++ closing mode ∧
      Numeral.Denotes numeral w.toInt := by
  have hw := Numeral.denotes_ofWord w
  cases mode with
  | position => exact ⟨_, by simp [Line.operandText, opening, closing], hw⟩
  | immediate => exact ⟨_, by simp [Line.operandText, opening, closing], hw⟩
  | relative =>
      by_cases hneg : w < 0
      · exact ⟨_, by simp [Line.operandText, opening, closing, hneg], hw⟩
      · refine ⟨_, by simp [Line.operandText, opening, closing, hneg], denotes_plus_ofWord ?_⟩
        rwa [Int64.lt_iff_toInt_lt, Int.not_lt] at hneg

theorem takeWhile_operandText {numeral : List Char} {i : Int} (mode : Mode) (h : Numeral.Denotes numeral i)
    (rest : List Char) :
    (opening mode ++ numeral ++ rest).takeWhile (fun c => ¬ Numeral.InNumeral c) = opening mode := by
  have hopening : (opening mode).all (fun c => ¬ Numeral.InNumeral c) = true := by
    cases mode <;> rfl
  obtain ⟨c, cs, rfl⟩ := List.exists_cons_of_ne_nil h.ne_nil
  have hc := h.inNumeral c List.mem_cons_self
  rw [List.append_assoc, List.takeWhile_append_of_pos (List.all_eq_true.1 hopening), List.cons_append,
    List.takeWhile_cons_of_neg (by simpa using hc), List.append_nil]

theorem opening_inj (h : opening mode = opening mode') : mode = mode' := by
  cases mode <;> cases mode' <;> first | rfl | cases h

theorem operandText_inj (h : Line.operandText mode w = Line.operandText mode' v) : mode = mode' ∧ w = v := by
  obtain ⟨numeral, htext, hw⟩ := toList_operandText mode w
  obtain ⟨numeral', htext', hv⟩ := toList_operandText mode' v
  rw [h, htext'] at htext
  have hopening := congrArg (List.takeWhile fun c => ¬ Numeral.InNumeral c) htext
  rw [takeWhile_operandText mode hw, takeWhile_operandText mode' hv] at hopening
  obtain rfl := opening_inj hopening
  obtain rfl := List.append_cancel_left (List.append_cancel_right htext)
  exact ⟨rfl, Int64.toInt_inj.1 (hw.unique hv)⟩

theorem mem_operandText (hc : c ∈ (Line.operandText mode w).toList) :
    Numeral.InNumeral c ∨ c ∈ ['[', 'r', 'b', ']'] := by
  obtain ⟨numeral, htext, hw⟩ := toList_operandText mode w
  rw [htext, List.mem_append, List.mem_append] at hc
  rcases hc with (hc | hc) | hc
  · right
    cases mode <;> simp [opening] at hc ⊢ <;> tauto
  · exact .inl (hw.inNumeral c hc)
  · right
    cases mode <;> simp [closing] at hc ⊢ <;> tauto

/-- The texts of the operands `ws`, in order, for the parameters `ps`. -/
def operandTexts (modes : Modes) (ps : List Parameter) (ws : List Word) : List String :=
  ps.zipWith (fun p w => Line.operandText (modes.get p) w) ws

theorem exists_operandText {modes : Modes} {ps : List Parameter} {ws : List Word} {piece : String}
    (h : piece ∈ operandTexts modes ps ws) : ∃ mode w, piece = Line.operandText mode w := by
  rw [operandTexts, ← List.map_uncurry_zip_eq_zipWith] at h
  obtain ⟨⟨p, w⟩, -, rfl⟩ := List.mem_map.1 h
  exact ⟨modes.get p, w, rfl⟩

theorem comma_not_mem_operandTexts {modes : Modes} {ps : List Parameter} {ws : List Word} :
    ∀ piece ∈ (operandTexts modes ps ws).map String.toList, ',' ∉ piece := by
  refine List.forall_mem_map.2 fun piece hpiece hc => ?_
  obtain ⟨mode, w, rfl⟩ := exists_operandText hpiece
  exact absurd (mem_operandText hc) (by decide)

theorem operandTexts_inj {ps : List Parameter} {modes modes' : Modes} {ws vs : List Word}
    (hws : ws.length = ps.length) (hvs : vs.length = ps.length)
    (h : operandTexts modes ps ws = operandTexts modes' ps vs) :
    (∀ p ∈ ps, modes.get p = modes'.get p) ∧ ws = vs := by
  induction ps generalizing ws vs with
  | nil =>
      rw [List.length_eq_zero_iff.1 hws, List.length_eq_zero_iff.1 hvs]
      exact ⟨List.forall_mem_nil _, rfl⟩
  | cons p ps ih =>
      obtain ⟨w, ws, rfl⟩ := List.exists_cons_of_length_eq_add_one hws
      obtain ⟨v, vs, rfl⟩ := List.exists_cons_of_length_eq_add_one hvs
      rw [operandTexts, operandTexts, List.zipWith_cons_cons, List.zipWith_cons_cons, List.cons.injEq] at h
      obtain ⟨hmode, rfl⟩ := operandText_inj h.1
      obtain ⟨hmodes, rfl⟩ := ih (Nat.succ.inj hws) (Nat.succ.inj hvs) h.2
      exact ⟨List.forall_mem_cons.2 ⟨hmode, hmodes⟩, rfl⟩

theorem length_operandTexts {ps : List Parameter} {modes : Modes} {ws : List Word} (hws : ws.length = ps.length) :
    (operandTexts modes ps ws).length = ps.length := by
  rw [operandTexts, List.length_zipWith, hws, Nat.min_self]

/-- Operands are told apart by what stands between the commas. -/
theorem joined_operandTexts_inj {ps : List Parameter} {modes modes' : Modes} {ws vs : List Word}
    (hws : ws.length = ps.length) (hvs : vs.length = ps.length)
    (h : ", ".intercalate (operandTexts modes ps ws) = ", ".intercalate (operandTexts modes' ps vs)) :
    (∀ p ∈ ps, modes.get p = modes'.get p) ∧ ws = vs := by
  have hpieces := congrArg String.toList h
  rw [String.toList_intercalate, String.toList_intercalate] at hpieces
  have hlength : ((operandTexts modes ps ws).map String.toList).length =
      ((operandTexts modes' ps vs).map String.toList).length := by
    rw [List.length_map, List.length_map, length_operandTexts hws, length_operandTexts hvs]
  have hsame := Text.intercalate_inj hlength comma_not_mem_operandTexts comma_not_mem_operandTexts hpieces
  exact operandTexts_inj hws hvs (List.map_injective_iff.2 (fun _ _ => String.toList_inj.1) hsame)

/-! ## Names -/

theorem all_not_isBlank_mnemonic (op : Opcode) : op.mnemonic.toList.all (fun c => !Text.isBlank c) = true := by
  cases op <;> rfl

theorem length_mnemonic_le (op : Opcode) : op.mnemonic.length ≤ 5 := by
  cases op <;> decide

theorem mnemonic_ne_data (op : Opcode) : op.mnemonic ≠ "DATA" := by
  cases op <;> decide

theorem mnemonic_inj {op op' : Opcode} (h : op.mnemonic = op'.mnemonic) : op = op' := by
  cases op <;> cases op' <;> simp [Opcode.mnemonic] at h ⊢

/-! ## Lines -/

namespace Line

/-- The name at the beginning of what a line shows. -/
def label : Line → String
  | code i _ => i.opcode.mnemonic
  | data _ => "DATA"

/-- What a line shows behind the name. -/
def content : Line → String
  | code i operands => ", ".intercalate (operandTexts i.modes i.parameters operands)
  | data w => Numeral.ofWord w

/-- A line as it stands in listings: an instruction has its operands, and only modes that its operation admits. -/
def Proper : Line → Prop
  | code i operands => operands.length = i.opcode.arity ∧ i.opcode.Admits i.modes
  | data _ => True

/-- A line is its address, its name and what it shows behind the name. -/
theorem text_eq (a : Nat) (l : Line) :
    l.text a = Text.alignRight 5 (Numeral.ofNat a) ++ ": " ++ Text.alignLeft 5 l.label ++ l.content := by
  cases l with
  | code i operands => simp [text, label, content, operandTexts, String.append_assoc]
  | data w =>
      have hlabel : Text.alignLeft 5 "DATA" = "DATA " := by decide
      simp only [text, label, content, hlabel, String.append_assoc]

theorem toList_text (a : Nat) (l : Line) :
    (l.text a).toList = (Text.alignRight 5 (Numeral.ofNat a)).toList ++
      ':' :: ' ' :: ((Text.alignLeft 5 l.label).toList ++ l.content.toList) := by
  simp [text_eq]

theorem text_face (a : Nat) (l : Line) : l.face.text a = l.text a := by
  cases l <;> rfl

theorem isBlank_label (l : Line) : ∀ c ∈ l.label.toList, Text.isBlank c = false := by
  have hall : l.label.toList.all (fun c => !Text.isBlank c) = true := by
    cases l with
    | code i _ => exact all_not_isBlank_mnemonic i.opcode
    | data _ => exact (by decide : "DATA".toList.all (fun c => !Text.isBlank c) = true)
  simpa using hall

theorem length_label_le (l : Line) : l.label.length ≤ 5 := by
  cases l with
  | code i _ => exact length_mnemonic_le i.opcode
  | data _ => exact (by decide : "DATA".length ≤ 5)

theorem mem_address (hc : c ∈ (Text.alignRight 5 (Numeral.ofNat a)).toList) : c = ' ' ∨ Numeral.InNumeral c := by
  rw [Text.alignRight, String.toList_append, List.mem_append] at hc
  exact hc.imp Text.eq_of_mem_fill (Numeral.inNumeral_ofNat a c)

theorem mem_content (hc : c ∈ l.content.toList) :
    c ∈ [',', ' ', '[', 'r', 'b', ']'] ∨ Numeral.InNumeral c := by
  cases l with
  | data w => exact .inr ((Numeral.denotes_ofWord w).inNumeral c hc)
  | code i operands =>
      rw [content, String.toList_intercalate] at hc
      rcases Text.mem_intercalate hc with hc | ⟨piece, hpiece, hc⟩
      · exact .inl (List.mem_append_left ['[', 'r', 'b', ']'] hc)
      · obtain ⟨_, hoperand, rfl⟩ := List.mem_map.1 hpiece
        obtain ⟨mode, w, rfl⟩ := exists_operandText hoperand
        rcases mem_operandText hc with hc | hc
        · exact .inr hc
        · exact .inl (List.mem_append_right [',', ' '] hc)

theorem newline_not_mem_text (a : Nat) (l : Line) : '\n' ∉ (l.text a).toList := by
  intro hc
  rw [toList_text, List.mem_append, List.mem_cons, List.mem_cons, List.mem_append, Text.alignLeft,
    String.toList_append, List.mem_append] at hc
  rcases hc with hc | hc | hc | (hc | hc) | hc
  · exact absurd (mem_address hc) (by decide)
  · cases hc
  · cases hc
  · exact absurd (isBlank_label l _ hc) (by decide)
  · exact absurd (Text.eq_of_mem_fill hc) (by decide)
  · exact absurd (mem_content hc) (by decide)

theorem face_eq_of_label_of_content (h : l.Proper) (h' : l'.Proper) (hlabel : l.label = l'.label)
    (hcontent : l.content = l'.content) : l.face = l'.face := by
  rw [face_eq_face_iff]
  cases l with
  | data w =>
      cases l' with
      | data v => exact Numeral.ofWord_injective hcontent
      | code j operands' => exact mnemonic_ne_data j.opcode hlabel.symm
  | code i operands =>
      cases l' with
      | data v => exact mnemonic_ne_data i.opcode hlabel
      | code j operands' =>
          obtain ⟨word, op, modes⟩ := i
          obtain ⟨word', op', modes'⟩ := j
          obtain rfl : op = op' := mnemonic_inj hlabel
          obtain ⟨hoperands, hadmits⟩ := h
          obtain ⟨hoperands', hadmits'⟩ := h'
          have hlength : (Parameter.upTo op.arity).length = op.arity :=
            List.length_take_of_le op.arity_le
          obtain ⟨hmodes, rfl⟩ :=
            joined_operandTexts_inj (hoperands.trans hlength.symm) (hoperands'.trans hlength.symm) hcontent
          refine ⟨rfl, Modes.ext_get fun p => ?_, rfl⟩
          by_cases hp : p.number ≤ op.arity
          · exact hmodes p ((Parameter.mem_upTo op.arity_le).2 hp)
          · exact (hadmits.unused p (Nat.not_le.1 hp)).trans (hadmits'.unused p (Nat.not_le.1 hp)).symm

theorem address_inj (h : Text.alignRight 5 (Numeral.ofNat a) = Text.alignRight 5 (Numeral.ofNat b)) : a = b := by
  have hplain (n : Nat) : ∀ c ∈ (Numeral.ofNat n).toList, Text.isBlank c = false :=
    fun c hc => (Numeral.inNumeral_ofNat n c hc).isBlank
  refine Numeral.ofNat_injective ?_
  rw [(Text.stripped_alignRight (hplain a)).eq_trim, (Text.stripped_alignRight (hplain b)).eq_trim, h]

theorem text_inj (h : l.Proper) (h' : l'.Proper) (htext : l.text a = l'.text b) : a = b ∧ l.face = l'.face := by
  have hdivide := congrArg String.toList htext
  rw [toList_text, toList_text] at hdivide
  have hcolon (n : Nat) : ':' ∉ (Text.alignRight 5 (Numeral.ofNat n)).toList :=
    fun hc => absurd (mem_address hc) (by decide)
  obtain ⟨haddress, hshown⟩ := Text.append_cons_inj (hcolon a) (hcolon b) hdivide
  have hwidth (l : Line) := Text.length_alignLeft (length_label_le l)
  obtain ⟨hname, hcontent⟩ := List.append_inj (List.cons.inj hshown).2 ((hwidth l).trans (hwidth l').symm)
  have hlabel : l.label = l'.label := by
    rw [(Text.stripped_alignLeft (isBlank_label l)).eq_trim, (Text.stripped_alignLeft (isBlank_label l')).eq_trim,
      String.toList_inj.1 hname]
  exact ⟨address_inj (String.toList_inj.1 haddress),
    face_eq_of_label_of_content h h' hlabel (String.toList_inj.1 hcontent)⟩

end Line

/-! ## Listings -/

theorem proper_of_mem_lines (hl : (a, l) ∈ p.lines) : l.Proper := by
  cases shows_of_mem_lines hl with
  | code hw hi hfits => exact ⟨(length_operands_iff hw).2 hfits, (Instruction.decode_eq_ok_iff.1 hi).admits⟩
  | data => trivial

/-- The text of a listing depends on what its lines show. -/
theorem listing_eq (p : Program) : p.listing = String.join (p.faces.map fun l => l.2.text l.1 ++ "\n") := by
  rw [listing, faces, List.map_map]
  refine congrArg String.join (List.map_congr_left fun l _ => ?_)
  rw [Function.comp_apply, Line.text_face]

theorem toList_listing (p : Program) :
    p.listing.toList = (p.lines.map fun l => (l.2.text l.1).toList).flatMap (· ++ ['\n']) := by
  simp [listing, List.flatMap_map]

/-- The lines of the text are those of the listing. -/
theorem splitOn_listing (p : Program) :
    p.listing.toList.splitOn '\n' = (p.lines.map fun l => (l.2.text l.1).toList) ++ [[]] := by
  rw [toList_listing, Text.splitOn_flatMap]
  exact List.forall_mem_map.2 fun l _ => Line.newline_not_mem_text l.1 l.2

theorem listing_eq_iff : p.listing = q.listing ↔ p.faces = q.faces := by
  constructor
  · intro h
    have htexts : (p.lines.map fun l => (l.2.text l.1).toList) = q.lines.map fun l => (l.2.text l.1).toList := by
      have hsplit := splitOn_listing p
      rw [h, splitOn_listing q] at hsplit
      exact (List.append_cancel_right hsplit).symm
    refine map_eq_map_of_map_eq_map ?_ htexts
    rintro ⟨a, l⟩ hl ⟨b, l'⟩ hl' htext
    obtain ⟨rfl, hface⟩ :=
      Line.text_inj (proper_of_mem_lines hl) (proper_of_mem_lines hl') (String.toList_inj.1 htext)
    exact Prod.ext rfl hface
  · intro h
    rw [listing_eq, listing_eq, h]

/-- The text of a listing has its lines, each with its address in front, and no more of them than the program has cells.
They are the one list of lines that lie one behind another from the first cell to the last and show the cells that they
lie on. Two programs have the same listing exactly if they are listed alike. -/
theorem listing_covers (p : Program) :
    p.listing.toList.splitOn '\n' = (p.lines.map fun l => (l.2.text l.1).toList) ++ [[]] ∧
      (∀ a l, (a, l) ∈ p.lines →
        l.text a = Text.alignRight 5 (Numeral.ofNat a) ++ ": " ++ Text.alignLeft 5 l.label ++ l.content) ∧
      p.lines.length ≤ p.cells.length ∧
      (∀ ls, ls = p.lines ↔ Tiles 0 ls p.cells.length ∧ ∀ l ∈ ls, Shows p.cells l.1 l.2) ∧
      ∀ q, p.listing = q.listing ↔ ListedAlike p q := by
  refine ⟨splitOn_listing p, fun a l _ => l.text_eq a, ?_, fun ls => eq_lines_iff, fun q => listing_eq_iff.trans faces_eq_iff⟩
  have hle := (tiles_lines p).length_le
  rwa [Nat.zero_add] at hle

/-- A digit that is not read makes no difference. -/
example : listing ⟨[701002, 4, 3, 4, 33]⟩ = "    0: MUL  [4], 3, [4]\n    4: DATA 33\n" := by decide +kernel

end Intcode.Program
