import Mathlib.Data.List.Basic
import Intcode.Text.CharacterCode

/-!
# What is lost in text

Words become text and an answer behind it, and the codes of that text with the answer become words again. On this way a
word changes only if no character has it for its code, and only in the text: such a word comes back as the code of the
replacement character, at its own place.

Main statement: `text_and_answer_faithful`.
-/

namespace Intcode.Text

variable {ws : List Word} {w last : Word} {i : Nat}

/-- The word is a Unicode scalar value: a code point, but none of those that are set apart for surrogates. -/
def IsScalar (w : Word) : Prop :=
  (0 ≤ w.toInt ∧ w.toInt ≤ 0xD7FF) ∨ (0xE000 ≤ w.toInt ∧ w.toInt ≤ 0x10FFFF)

instance (w : Word) : Decidable (IsScalar w) :=
  inferInstanceAs (Decidable (_ ∨ _))

/-- The word at place `i`, counted from zero, is taken for the answer. -/
def AnswerAt (ws : List Word) (i : Nat) : Prop :=
  (splitAnswer ws).2.isSome ∧ i + 1 = ws.length

instance (ws : List Word) (i : Nat) : Decidable (AnswerAt ws i) :=
  inferInstanceAs (Decidable (_ ∧ _))

/-- The word if a character has it for its code, else the code of the replacement character. -/
def legible (w : Word) : Word :=
  if IsScalar w then w else 0xFFFD

/-- The codes of the text that words are split into, and the answer behind them. -/
def rejoined (ws : List Word) : List Word :=
  encode (splitAnswer ws).1 ++ (splitAnswer ws).2.toList

/-! ## One word -/

theorem isScalar_iff : IsScalar w ↔ 0 ≤ w.toInt ∧ w.toInt.toNat.isValidChar := by
  unfold IsScalar Nat.isValidChar
  omega

theorem ofNat_toNat (h : 0 ≤ w.toInt) : Int64.ofNat w.toInt.toNat = w := by
  refine Int64.toInt_inj.1 ?_
  have hlt := Int64.toInt_lt w
  rw [Int64.toInt_ofNat_of_lt (by omega), Int.toNat_of_nonneg h]

/-- The character that stands for a word has the word for its code, or is the replacement character. -/
theorem code_charOf (w : Word) : Int64.ofNat (charOf w).toNat = legible w := by
  unfold charOf charOf? legible
  simp only [← isScalar_iff]
  split
  · rename_i h
    have hvalid := isScalar_iff.1 h
    rw [Option.getD_some, Char.ofNat, dif_pos hvalid.2]
    exact ofNat_toNat hvalid.1
  · rfl

theorem legible_eq_self_iff : legible w = w ↔ IsScalar w := by
  unfold legible
  split
  · rename_i h
    exact iff_of_true rfl h
  · rename_i h
    refine iff_of_false (fun heq => h ?_) h
    rw [← heq]
    decide

theorem encode_render (ws : List Word) : encode (render ws) = ws.map legible := by
  rw [encode, render, String.toList_ofList, List.map_map]
  exact List.map_congr_left fun w _ => code_charOf w

/-! ## The answer -/

theorem isAscii_iff : isAscii w = true ↔ 0 ≤ w.toInt ∧ w.toInt ≤ 127 := by
  rw [isAscii, Bool.and_eq_true, decide_eq_true_eq, decide_eq_true_eq]

theorem splitAnswer_concat (ws : List Word) (last : Word) :
    splitAnswer (ws ++ [last]) =
      if isAscii last then (render (ws ++ [last]), none) else (render ws, some last) := by
  rw [splitAnswer, List.getLast?_concat, List.dropLast_concat]

/-- Words are all text, or the last of them is the answer. -/
theorem splitAnswer_cases (ws : List Word) :
    (splitAnswer ws = (render ws, none) ∧ ∀ last ∈ ws.getLast?, isAscii last = true) ∨
      ∃ text last, ws = text ++ [last] ∧ isAscii last = false ∧ splitAnswer ws = (render text, some last) := by
  obtain rfl | ⟨text, last, rfl⟩ := List.eq_nil_or_concat' ws
  · exact .inl ⟨rfl, nofun⟩
  · rw [splitAnswer_concat]
    cases hlast : isAscii last with
    | true =>
        refine .inl ⟨rfl, fun v hv => ?_⟩
        rw [List.getLast?_concat] at hv
        cases hv
        exact hlast
    | false => exact .inr ⟨text, last, rfl, hlast, rfl⟩

theorem answer_eq_some_iff :
    (splitAnswer ws).2 = some last ↔ ws.getLast? = some last ∧ ¬ (0 ≤ last.toInt ∧ last.toInt ≤ 127) := by
  rw [← isAscii_iff]
  rcases splitAnswer_cases ws with ⟨hsplit, hascii⟩ | ⟨text, v, rfl, hv, hsplit⟩
  · rw [hsplit]
    exact ⟨nofun, fun h => absurd (hascii last h.1) h.2⟩
  · rw [hsplit, List.getLast?_concat]
    constructor
    · rintro ⟨⟩
      exact ⟨rfl, Bool.eq_false_iff.1 hv⟩
    · exact fun h => h.1

/-! ## All words -/

/-- What comes back is every word as far as it is legible, but for an answer at the end, which comes back as it is. -/
theorem rejoined_cases (ws : List Word) :
    (rejoined ws = ws.map legible ∧ ∀ i, ¬ AnswerAt ws i) ∨
      ∃ text last, ws = text ++ [last] ∧ rejoined ws = text.map legible ++ [last] ∧
        ∀ i, AnswerAt ws i ↔ i = text.length := by
  unfold rejoined AnswerAt
  rcases splitAnswer_cases ws with ⟨hsplit, -⟩ | ⟨text, last, rfl, -, hsplit⟩
  · rw [hsplit, encode_render]
    exact .inl ⟨List.append_nil _, fun i h => Bool.noConfusion h.1⟩
  · rw [hsplit, encode_render]
    refine .inr ⟨text, last, rfl, rfl, fun i => ?_⟩
    rw [List.length_append, List.length_singleton, Nat.add_right_cancel_iff]
    exact and_iff_right rfl

theorem length_rejoined (ws : List Word) : (rejoined ws).length = ws.length := by
  rcases rejoined_cases ws with ⟨hback, -⟩ | ⟨text, last, rfl, hback, -⟩
  · rw [hback, List.length_map]
  · rw [hback, List.length_append, List.length_append, List.length_map, List.length_singleton]

theorem getElem?_rejoined (h : ws[i]? = some w) :
    (rejoined ws)[i]? = some (if AnswerAt ws i then w else legible w) := by
  rcases rejoined_cases ws with ⟨hback, hno⟩ | ⟨text, last, rfl, hback, hanswer⟩
  · rw [hback, List.getElem?_map, h, if_neg (hno i)]
    rfl
  · rw [hback]
    by_cases hi : AnswerAt (text ++ [last]) i
    · obtain rfl := (hanswer i).1 hi
      rw [List.getElem?_concat_length] at h
      rw [if_pos hi, ← h, ← List.length_map (f := legible), List.getElem?_concat_length]
    · have hlt : i < text.length := by
        have := (List.getElem?_eq_some_iff.1 h).1
        rw [List.length_append, List.length_singleton] at this
        have := mt (hanswer i).2 hi
        omega
      rw [List.getElem?_append_left hlt] at h
      rw [if_neg hi, List.getElem?_append_left (by rwa [List.length_map]), List.getElem?_map, h]
      rfl

theorem rejoined_eq_self_iff : rejoined ws = ws ↔ ∀ i w, ws[i]? = some w → IsScalar w ∨ AnswerAt ws i := by
  constructor
  · intro h i w hw
    have hback := getElem?_rejoined hw
    rw [h, hw, Option.some.injEq] at hback
    split at hback
    · rename_i hanswer
      exact .inr hanswer
    · exact .inl (legible_eq_self_iff.1 hback.symm)
  · intro h
    refine List.ext_getElem? fun i => ?_
    cases hw : ws[i]? with
    | none => rwa [List.getElem?_eq_none_iff, length_rejoined, ← List.getElem?_eq_none_iff]
    | some w =>
        rw [getElem?_rejoined hw, Option.some.injEq]
        split
        · rfl
        · rename_i hanswer
          exact legible_eq_self_iff.2 ((h i w hw).resolve_right hanswer)

/-- Text is encoded without loss. Words that are split into text and an answer come back one for one: those that are
scalar values and the answer as they are, any other as the code of the replacement character. There is an answer exactly
if there is a last word that is no ASCII character, and then it is this word. -/
theorem text_and_answer_faithful :
    (∀ s, render (encode s) = s) ∧
      ∀ ws, (rejoined ws).length = ws.length ∧
        (∀ i w, ws[i]? = some w →
          (rejoined ws)[i]? = some (if IsScalar w ∨ AnswerAt ws i then w else 0xFFFD)) ∧
        (rejoined ws = ws ↔ ∀ i w, ws[i]? = some w → IsScalar w ∨ AnswerAt ws i) ∧
        ∀ answer, (splitAnswer ws).2 = some answer ↔
          ws.getLast? = some answer ∧ ¬ (0 ≤ answer.toInt ∧ answer.toInt ≤ 127) := by
  refine ⟨render_encode, fun ws => ⟨length_rejoined ws, fun i w hw => ?_, rejoined_eq_self_iff,
    fun answer => answer_eq_some_iff⟩⟩
  rw [getElem?_rejoined hw, legible]
  by_cases hanswer : AnswerAt ws i
  · rw [if_pos hanswer, if_pos (.inr hanswer)]
  · simp only [hanswer, or_false, if_false]

/-- A letter, a negative word, a surrogate, and an answer that is a code point itself. -/
theorem text_and_answer_faithful_mixed :
    splitAnswer [79, -1, 0xD800, 0x1F600] = ("O��", some 0x1F600) ∧
      (rejoined [79, -1, 0xD800, 0x1F600])[1]? = some 0xFFFD ∧
      (rejoined [79, -1, 0xD800, 0x1F600])[3]? = some 0x1F600 := by
  refine ⟨by decide, ?_, ?_⟩
  · exact ((text_and_answer_faithful.2 [79, -1, 0xD800, 0x1F600]).2.1 1 (-1) rfl).trans (by decide)
  · exact ((text_and_answer_faithful.2 [79, -1, 0xD800, 0x1F600]).2.1 3 0x1F600 rfl).trans (by decide)

end Intcode.Text
