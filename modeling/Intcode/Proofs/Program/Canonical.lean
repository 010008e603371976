import Intcode.Proofs.Program.Grammar

/-!
# The canonical text of a program

Cells have many texts, which differ in white space, plus signs and leading zeros. One of them is the text that is written
for a program: it is read as that program, and whichever text was read before, what is written is the same.

Main statement: `text_canonical`.
-/

namespace Intcode.Program

open Text (Blank Stripped Separated)

variable {s s' t : String} {p q : Program} {w : Word} {cells : List Word}

/-- The text that is written for what a text is read as. -/
def rewritten (s : String) : Except Error String :=
  (ofText s).map text

/-! ## The written text -/

theorem mem_text {c : Char} (hc : c ∈ p.text.toList) : c = ',' ∨ Numeral.InNumeral c := by
  rw [text, String.toList_intercalate, List.map_map] at hc
  rcases Text.mem_intercalate hc with hc | ⟨piece, hpiece, hc⟩
  · exact .inl (List.mem_singleton.1 hc)
  · obtain ⟨w, -, rfl⟩ := List.mem_map.1 hpiece
    exact .inr ((Numeral.denotes_ofWord w).inNumeral c hc)

theorem token_ofWord (w : Word) : Token (Numeral.ofWord w) w :=
  ⟨[], _, [], nofun, nofun, (List.append_nil _).symm, Numeral.denotes_ofWord w⟩

theorem stripped_text (p : Program) : Stripped p.text p.text := by
  refine Text.stripped_of_plain (List.forall_mem_nil _) (List.forall_mem_nil _) (List.append_nil _).symm fun c hc => ?_
  rcases mem_text hc with rfl | hc
  · rfl
  · exact hc.isBlank

theorem separated_text (h : p.cells ≠ []) : Separated p.text (p.cells.map Numeral.ofWord) := by
  refine ⟨rfl, List.map_eq_nil_iff.not.2 h, List.forall_mem_map.2 fun w _ hcomma => ?_⟩
  have hnumeral : Numeral.InNumeral ',' := (Numeral.denotes_ofWord w).inNumeral _ hcomma
  rcases hnumeral with h | h | h <;> cases h

theorem text_ne_empty (h : p.cells ≠ []) : p.text ≠ "" := by
  intro hempty
  -- the only piece of the empty text is the empty one, which is no numeral
  have hpieces : p.cells.map Numeral.ofWord = [""] := (hempty ▸ separated_text h).eq_splitCommas
  have hmem : "" ∈ p.cells.map Numeral.ofWord := hpieces ▸ List.mem_cons_self
  obtain ⟨w, -, hw⟩ := List.mem_map.1 hmem
  exact (Numeral.denotes_ofWord w).ne_nil (congrArg String.toList hw)

theorem spells_text (h : p.cells ≠ []) : Spells p.text p.cells := by
  refine ⟨p.text, _, stripped_text p, text_ne_empty h, separated_text h, ?_⟩
  rw [List.forall₂_map_left_iff]
  exact List.forall₂_same.2 fun w _ => token_ofWord w

theorem Spells.ne_nil (h : Spells s cells) : cells ≠ [] := by
  obtain ⟨t, tokens, -, -, htokens, hcells⟩ := h
  rintro rfl
  exact htokens.nonempty (List.forall₂_nil_right_iff.1 hcells)

/-! ## Reading what is written -/

theorem ofText_text (h : p.cells ≠ []) : ofText p.text = .ok p :=
  (spells_text h).ofText

/-- What was read has cells, so its text is read as it again. -/
theorem ofText_text_of_ofText (h : ofText s = .ok p) : ofText p.text = .ok p :=
  ofText_text (ofText_eq_ok_iff.1 h).ne_nil

theorem rewritten_eq_ok_iff : rewritten s = .ok t ↔ ∃ p, ofText s = .ok p ∧ p.text = t := by
  unfold rewritten
  cases ofText s with
  | error e => simp [Except.map]
  | ok p => simp [Except.map]

theorem rewritten_text (h : rewritten s = .ok t) : rewritten t = .ok t := by
  obtain ⟨p, hp, rfl⟩ := rewritten_eq_ok_iff.1 h
  exact rewritten_eq_ok_iff.2 ⟨p, ofText_text_of_ofText hp, rfl⟩

theorem rewritten_eq_ok_iff_same (h : rewritten s = .ok t) : rewritten s' = .ok t ↔ ofText s' = ofText s := by
  obtain ⟨p, hp, rfl⟩ := rewritten_eq_ok_iff.1 h
  rw [rewritten_eq_ok_iff, hp]
  constructor
  · rintro ⟨q, hq, htext⟩
    have hread := ofText_text_of_ofText hq
    rw [htext, ofText_text_of_ofText hp] at hread
    rw [hq, hread]
  · exact fun hs => ⟨p, hs, rfl⟩

/-- The text of a program with cells is read as that program. So what is written for a text that can be read is read as
the same cells, it is the same for exactly those texts that are read as these cells, and to write it again changes
nothing. -/
theorem text_canonical :
    (∀ p : Program, p.cells ≠ [] → ofText p.text = .ok p) ∧
      (∀ s p, ofText s = .ok p → ofText p.text = .ok p) ∧
      (∀ s s' t, rewritten s = .ok t → (rewritten s' = .ok t ↔ ofText s' = ofText s)) ∧
      ∀ s, (rewritten s).bind rewritten = rewritten s := by
  refine ⟨fun p => ofText_text, fun s p => ofText_text_of_ofText, fun s s' t => rewritten_eq_ok_iff_same, fun s => ?_⟩
  cases h : rewritten s with
  | error e => rfl
  | ok t => simp only [Except.bind, rewritten_text h]

/-- The two extreme words, and two other texts of them. -/
theorem text_canonical_extremes :
    ofText (text ⟨[-9223372036854775808, 9223372036854775807]⟩) =
        .ok ⟨[-9223372036854775808, 9223372036854775807]⟩ ∧
      (rewritten "\n-009223372036854775808 , +9223372036854775807" =
          .ok "-9223372036854775808,9223372036854775807" ↔
        ofText "\n-009223372036854775808 , +9223372036854775807" =
          ofText " -9223372036854775808,+09223372036854775807\r\n") := by
  have hread : ofText " -9223372036854775808,+09223372036854775807\r\n" =
      .ok ⟨[-9223372036854775808, 9223372036854775807]⟩ := by decide +kernel
  have hwritten : rewritten " -9223372036854775808,+09223372036854775807\r\n" =
      .ok "-9223372036854775808,9223372036854775807" := by decide +kernel
  exact ⟨text_canonical.2.1 _ _ hread, text_canonical.2.2.1 _ _ _ hwritten⟩

end Intcode.Program
