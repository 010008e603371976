import Mathlib.Data.List.Forall2
import Intcode.Program.Basic
import Intcode.Proofs.Text.Numeral

/-!
# The grammar of programs

Which texts are programs, told by how they are put together: a text without the white space at its ends, its pieces between
commas, and in each piece the numeral of a word with white space around it. A text that is none is refused for being
empty or for its first piece that is not of this form.

Main statement: `ofText_grammar`.
-/

namespace Intcode.Program

open Text (Blank Stripped Separated)

variable {s t token : String} {tokens : List String} {w v : Word} {cells ws : List Word} {p : Program} {e : Error}

/-! ## Texts of programs -/

/-- A piece of a text is the numeral of a word, with nothing but white space before and behind it. -/
def Token (token : String) (w : Word) : Prop :=
  ∃ before numeral after, Blank before ∧ Blank after ∧ token.toList = before ++ numeral ++ after ∧
    Numeral.Denotes numeral w.toInt

/-- A text spells cells: it is not empty without the white space at its ends, and its pieces are numerals of the cells. -/
def Spells (s : String) (cells : List Word) : Prop :=
  ∃ t tokens, Stripped s t ∧ t ≠ "" ∧ Separated t tokens ∧ List.Forall₂ Token tokens cells

/-- What is wrong with a text that spells no cells: there is nothing in it, or there is a first piece that is no numeral
of a word. The piece is reported as it stands, and with its place. -/
inductive Refused (s : String) : Error → Prop where
  | empty (hs : Stripped s "") : Refused s .empty
  | value {t token : String} {good rest : List String} (hs : Stripped s t) (ht : t ≠ "")
      (htokens : Separated t (good ++ token :: rest)) (hgood : ∀ piece ∈ good, ∃ w, Token piece w)
      (hbad : ∀ w, ¬ Token token w) : Refused s (.invalidValue good.length token)

/-! ## One piece -/

theorem Token.word? (h : Token token w) : Numeral.word? (Text.trim token) = some w := by
  obtain ⟨before, numeral, after, hbefore, hafter, htoken, hnumeral⟩ := h
  have hplain : ∀ c ∈ numeral, Text.isBlank c = false := fun c hc => (hnumeral.inNumeral c hc).isBlank
  have hstripped : Stripped token (String.ofList numeral) := by
    refine Text.stripped_of_plain hbefore hafter ?_ ?_
    · rwa [String.toList_ofList]
    · rwa [String.toList_ofList]
  rw [← hstripped.eq_trim, Numeral.word?_eq_some_iff, String.toList_ofList]
  exact hnumeral

theorem word?_trim_eq_some_iff : Numeral.word? (Text.trim token) = some w ↔ Token token w := by
  refine ⟨fun h => ?_, Token.word?⟩
  obtain ⟨before, after, hbefore, hafter, htoken⟩ := (Text.stripped_trim token).around
  exact ⟨before, _, after, hbefore, hafter, htoken, Numeral.word?_eq_some_iff.1 h⟩

theorem word?_trim_eq_none_iff : Numeral.word? (Text.trim token) = none ↔ ∀ w, ¬ Token token w := by
  rw [Option.eq_none_iff_forall_ne_some]
  exact forall_congr' fun w => word?_trim_eq_some_iff.not

/-! ## All pieces -/

/-- Pieces are numerals of words, or there is a first one that is none. -/
theorem tokens_cases (tokens : List String) :
    (∃ cells, List.Forall₂ Token tokens cells) ∨
      ∃ good token rest, tokens = good ++ token :: rest ∧ (∀ piece ∈ good, ∃ w, Token piece w) ∧
        ∀ w, ¬ Token token w := by
  induction tokens with
  | nil => exact .inl ⟨[], .nil⟩
  | cons token tokens ih =>
      cases hword : Numeral.word? (Text.trim token) with
      | none => exact .inr ⟨[], token, tokens, rfl, nofun, word?_trim_eq_none_iff.1 hword⟩
      | some w =>
          have htoken := word?_trim_eq_some_iff.1 hword
          rcases ih with ⟨cells, hcells⟩ | ⟨good, bad, rest, rfl, hgood, hbad⟩
          · exact .inl ⟨w :: cells, .cons htoken hcells⟩
          · exact .inr ⟨token :: good, bad, rest, rfl, List.forall_mem_cons.2 ⟨⟨w, htoken⟩, hgood⟩, hbad⟩

theorem readCells_of_forall₂ (index : Nat) (seen : List Word) (h : List.Forall₂ Token tokens cells) :
    readCells index seen tokens = .ok (seen.reverse ++ cells) := by
  induction h generalizing index seen with
  | nil => rw [readCells, List.append_nil]
  | @cons token w tokens cells htoken _ ih =>
      rw [readCells, htoken.word?]
      simp only [ih, List.reverse_cons, List.append_assoc, List.singleton_append]

theorem readCells_of_bad (index : Nat) (seen : List Word) {good rest : List String}
    (hgood : ∀ piece ∈ good, ∃ w, Token piece w) (hbad : ∀ w, ¬ Token token w) :
    readCells index seen (good ++ token :: rest) = .error (.invalidValue (index + good.length) token) := by
  induction good generalizing index seen with
  | nil =>
      rw [List.nil_append, readCells, word?_trim_eq_none_iff.2 hbad]
      rfl
  | cons piece good ih =>
      obtain ⟨⟨w, hpiece⟩, hgood⟩ := List.forall_mem_cons.1 hgood
      rw [List.cons_append, readCells, hpiece.word?]
      simp only [ih (index + 1) (w :: seen) hgood, List.length_cons]
      rw [Nat.add_assoc, Nat.add_comm 1]

/-! ## Whole texts -/

theorem ofText_of_stripped (hs : Stripped s t) (ht : t ≠ "") (htokens : Separated t tokens) :
    ofText s = (readCells 0 [] tokens).map Program.mk := by
  rw [ofText, ← hs.eq_trim, ← htokens.eq_splitCommas, if_neg (by rwa [String.isEmpty_iff])]

theorem Spells.ofText (h : Spells s cells) : ofText s = .ok ⟨cells⟩ := by
  obtain ⟨t, tokens, hs, ht, htokens, hcells⟩ := h
  rw [ofText_of_stripped hs ht htokens, readCells_of_forall₂ 0 [] hcells]
  rfl

theorem Refused.ofText (h : Refused s e) : ofText s = .error e := by
  cases h with
  | empty hs =>
      rw [Program.ofText, ← hs.eq_trim]
      rfl
  | value hs ht htokens hgood hbad =>
      rw [ofText_of_stripped hs ht htokens, readCells_of_bad 0 [] hgood hbad, Nat.zero_add]
      rfl

/-- A text spells cells, or something is wrong with it. -/
theorem spells_or_refused (s : String) : (∃ cells, Spells s cells) ∨ ∃ e, Refused s e := by
  have hs := Text.stripped_trim s
  by_cases ht : Text.trim s = ""
  · exact .inr ⟨_, .empty (ht ▸ hs)⟩
  · have htokens := Text.separated_splitCommas (Text.trim s)
    rcases tokens_cases (Text.splitCommas (Text.trim s)) with ⟨cells, hcells⟩ | ⟨good, token, rest, heq, hgood, hbad⟩
    · exact .inl ⟨cells, _, _, hs, ht, htokens, hcells⟩
    · exact .inr ⟨_, .value hs ht (heq ▸ htokens) hgood hbad⟩

theorem ofText_eq_ok_iff : ofText s = .ok p ↔ Spells s p.cells := by
  refine ⟨fun h => ?_, Spells.ofText⟩
  rcases spells_or_refused s with ⟨cells, hcells⟩ | ⟨e, he⟩
  · rw [hcells.ofText] at h
    cases h
    exact hcells
  · rw [he.ofText] at h
    cases h

theorem ofText_eq_error_iff : ofText s = .error e ↔ Refused s e := by
  refine ⟨fun h => ?_, Refused.ofText⟩
  rcases spells_or_refused s with ⟨cells, hcells⟩ | ⟨e', he⟩
  · rw [hcells.ofText] at h
    cases h
  · rw [he.ofText] at h
    cases h
    exact he

/-- A text is read as the cells that it spells, and refused for what is wrong with it; so it is refused as empty exactly if
there is nothing but white space in it. -/
theorem ofText_grammar (s : String) :
    (∀ cells, ofText s = .ok ⟨cells⟩ ↔ Spells s cells) ∧ (ofText s = .error .empty ↔ Stripped s "") ∧
      ∀ e, ofText s = .error e ↔ Refused s e := by
  refine ⟨fun cells => ofText_eq_ok_iff, ⟨fun h => ?_, fun h => (Refused.empty h).ofText⟩, fun e => ofText_eq_error_iff⟩
  cases ofText_eq_error_iff.1 h with
  | empty hs => exact hs

/-- The sign has to stand at the digits, and a piece that is refused keeps its white space. -/
example : ofText "\t+1, 02 , - 3,\n" = .error (.invalidValue 2 " - 3") := by decide +kernel

end Intcode.Program
