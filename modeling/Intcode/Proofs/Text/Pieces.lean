import Mathlib.Data.List.DropRight
import Intcode.Text.Blank
import Intcode.Text.Columns

/-!
# Pieces of a text

What is left of a text without the white space at its ends, and what stands between its commas. Each is told by how the
text is put together from it, so that there is one such rest and one such list, and these are the ones that are found.
Then how texts are told apart that are put together from columns, or with a separator between or behind their pieces.
-/

namespace Intcode.Text

variable {s t : String} {cs before after : List Char} {c : Char} {pieces : List String} {width : Nat}

/-! ## White space at the ends -/

/-- There is nothing but white space. -/
def Blank (cs : List Char) : Prop :=
  ∀ c ∈ cs, isBlank c = true

/-- `t` is `s` without the white space at its ends: around `t` there is nothing else, and `t` has none at its own ends. -/
structure Stripped (s t : String) : Prop where
  around : ∃ before after, Blank before ∧ Blank after ∧ s.toList = before ++ t.toList ++ after
  head : ∀ c ∈ t.toList.head?, isBlank c = false
  last : ∀ c ∈ t.toList.getLast?, isBlank c = false

theorem toList_trim (s : String) : (trim s).toList = (s.toList.dropWhile isBlank).rdropWhile isBlank :=
  String.toList_ofList

theorem isBlank_head_dropWhile (hc : c ∈ (cs.dropWhile isBlank).head?) : isBlank c = false := by
  have h := List.head?_dropWhile_not isBlank cs
  rwa [Option.mem_def.1 hc] at h

theorem dropWhile_isBlank_eq_self (h : ∀ c ∈ cs.head?, isBlank c = false) : cs.dropWhile isBlank = cs := by
  cases cs with
  | nil => rfl
  | cons c cs => exact List.dropWhile_cons_of_neg (by simp [h c rfl])

theorem rdropWhile_isBlank_append (hafter : Blank after) (h : ∀ c ∈ cs.getLast?, isBlank c = false) :
    (cs ++ after).rdropWhile isBlank = cs := by
  have hblank : ∀ c ∈ after.reverse, isBlank c = true := fun c hc => hafter c (List.mem_reverse.1 hc)
  rw [List.rdropWhile, List.reverse_append, List.dropWhile_append_of_pos hblank, dropWhile_isBlank_eq_self,
    List.reverse_reverse]
  rwa [List.head?_reverse]

theorem stripped_trim (s : String) : Stripped s (trim s) := by
  refine ⟨⟨s.toList.takeWhile isBlank, (s.toList.dropWhile isBlank).rtakeWhile isBlank, ?_, ?_, ?_⟩, ?_, ?_⟩
  · exact fun c hc => List.mem_takeWhile_imp hc
  · exact fun c hc => List.mem_rtakeWhile_imp hc
  · rw [toList_trim, List.append_assoc, List.rdropWhile_append_rtakeWhile, List.takeWhile_append_dropWhile]
  · intro c hc
    rw [toList_trim] at hc
    -- what is cut off at the end does not change the front
    obtain ⟨cut, hcut⟩ := List.rdropWhile_prefix isBlank (s.toList.dropWhile isBlank)
    have hfront : c ∈ (s.toList.dropWhile isBlank).head? := by
      rw [← hcut, List.head?_append, Option.mem_def.1 hc]
      rfl
    exact isBlank_head_dropWhile hfront
  · intro c hc
    rw [toList_trim, List.rdropWhile, List.getLast?_reverse] at hc
    exact isBlank_head_dropWhile hc

theorem Stripped.eq_trim (h : Stripped s t) : t = trim s := by
  obtain ⟨before, after, hbefore, hafter, hs⟩ := h.around
  refine String.toList_inj.1 ?_
  rw [toList_trim, hs, List.append_assoc, List.dropWhile_append_of_pos hbefore]
  by_cases ht : t.toList = []
  · rw [ht, List.nil_append, List.dropWhile_eq_nil_iff.2 hafter, List.rdropWhile_nil]
  · obtain ⟨c, cs, hcs⟩ := List.exists_cons_of_ne_nil ht
    have hfront : (t.toList ++ after).dropWhile isBlank = t.toList ++ after := by
      refine dropWhile_isBlank_eq_self fun c hc => h.head c ?_
      rw [hcs] at hc ⊢
      exact hc
    rw [hfront, rdropWhile_isBlank_append hafter h.last]

theorem stripped_of_plain (hbefore : Blank before) (hafter : Blank after)
    (hs : s.toList = before ++ t.toList ++ after) (ht : ∀ c ∈ t.toList, isBlank c = false) : Stripped s t :=
  ⟨⟨before, after, hbefore, hafter, hs⟩, fun c hc => ht c (List.mem_of_mem_head? hc),
    fun c hc => ht c (List.mem_of_mem_getLast? hc)⟩

/-! ## Pieces between commas -/

/-- `pieces` are what stands between the commas of `s`: they have none themselves, and with commas between them they make
up `s`. -/
structure Separated (s : String) (pieces : List String) : Prop where
  joined : ",".intercalate pieces = s
  nonempty : pieces ≠ []
  apart : ∀ piece ∈ pieces, ',' ∉ piece.toList

theorem splitChars_cons (sep : Char → Bool) (c : Char) (cs : List Char) :
    splitChars sep (c :: cs) =
      if sep c then [] :: splitChars sep cs else (splitChars sep cs).modifyHead (c :: ·) := by
  obtain ⟨piece, rest, hpieces⟩ := List.exists_cons_of_ne_nil (splitChars_ne_nil sep cs)
  rw [splitChars, List.foldr_cons, ← splitChars, hpieces]
  rfl

theorem splitChars_eq_splitOnP (sep : Char → Bool) (cs : List Char) : splitChars sep cs = cs.splitOnP sep := by
  induction cs with
  | nil => rfl
  | cons c cs ih => rw [splitChars_cons, List.splitOnP_cons_eq_if_modifyHead, ih]

theorem sep_eq_false_of_mem_splitChars {sep : Char → Bool} {piece : List Char} (hpiece : piece ∈ splitChars sep cs)
    (hc : c ∈ piece) : sep c = false := by
  induction cs generalizing piece with
  | nil =>
      obtain rfl := List.mem_singleton.1 hpiece
      cases hc
  | cons d cs ih =>
      rw [splitChars_cons] at hpiece
      obtain ⟨first, rest, hpieces⟩ := List.exists_cons_of_ne_nil (splitChars_ne_nil sep cs)
      rw [hpieces] at hpiece ih
      split at hpiece
      · rcases List.mem_cons.1 hpiece with rfl | hpiece
        · cases hc
        · exact ih hpiece hc
      · rename_i hd
        rcases List.mem_cons.1 hpiece with rfl | hpiece
        · rcases List.mem_cons.1 hc with rfl | hc
          · exact Bool.eq_false_iff.2 hd
          · exact ih List.mem_cons_self hc
        · exact ih (List.mem_cons_of_mem first hpiece) hc

theorem toList_splitCommas (s : String) : (splitCommas s).map String.toList = s.toList.splitOn ',' := by
  have hsep : (fun c : Char => decide (c = ',')) = (· == ',') := rfl
  have hlist : String.toList ∘ String.ofList = id := funext fun cs => String.toList_ofList
  rw [splitCommas, splitChars_eq_splitOnP, List.splitOn_eq_splitOnP, List.map_map, hsep, hlist, List.map_id]

theorem separated_splitCommas (s : String) : Separated s (splitCommas s) := by
  refine ⟨String.toList_inj.1 ?_, ?_, ?_⟩
  · rw [String.toList_intercalate, toList_splitCommas]
    exact List.intercalate_splitOn ','
  · exact List.map_eq_nil_iff.not.2 (splitChars_ne_nil _ s.toList)
  · refine List.forall_mem_map.2 fun piece hpiece hcomma => ?_
    rw [String.toList_ofList] at hcomma
    exact absurd (sep_eq_false_of_mem_splitChars hpiece hcomma) (by decide)

theorem Separated.eq_splitCommas (h : Separated s pieces) : pieces = splitCommas s := by
  refine List.map_injective_iff.2 (fun _ _ => String.toList_inj.1) ?_
  rw [toList_splitCommas, ← h.joined, String.toList_intercalate]
  refine (List.splitOn_intercalate ',' ?_ ?_).symm
  · exact List.forall_mem_map.2 h.apart
  · exact List.map_eq_nil_iff.not.2 h.nonempty

/-! ## Texts with a separator -/

theorem mem_intercalate {sep : List Char} {pieces : List (List Char)} (hc : c ∈ sep.intercalate pieces) :
    c ∈ sep ∨ ∃ piece ∈ pieces, c ∈ piece := by
  induction pieces with
  | nil => cases hc
  | cons piece rest ih =>
      obtain rfl | hrest := eq_or_ne rest []
      · exact .inr ⟨piece, List.mem_cons_self, by rwa [List.intercalate_singleton] at hc⟩
      · rw [List.intercalate_cons_of_ne_nil hrest, List.mem_append, List.mem_append] at hc
        rcases hc with (hc | hc) | hc
        · exact .inr ⟨piece, List.mem_cons_self, hc⟩
        · exact .inl hc
        · exact (ih hc).imp_right fun ⟨other, hother, hc⟩ => ⟨other, List.mem_cons_of_mem piece hother, hc⟩

/-- The first separator divides a text in one way. -/
theorem append_cons_inj {xs xs' ys ys' : List Char} (hxs : c ∉ xs) (hxs' : c ∉ xs')
    (h : xs ++ c :: ys = xs' ++ c :: ys') : xs = xs' ∧ ys = ys' := by
  have hsplit := congrArg (List.splitOn c) h
  rw [List.splitOn_append_cons_self_of_not_mem hxs, List.splitOn_append_cons_self_of_not_mem hxs',
    List.cons.injEq] at hsplit
  obtain ⟨rfl, -⟩ := hsplit
  exact ⟨rfl, (List.cons.inj (List.append_cancel_left h)).2⟩

theorem intercalate_inj {sep : List Char} {pieces pieces' : List (List Char)}
    (hlength : pieces.length = pieces'.length) (hpieces : ∀ piece ∈ pieces, c ∉ piece)
    (hpieces' : ∀ piece ∈ pieces', c ∉ piece)
    (h : (c :: sep).intercalate pieces = (c :: sep).intercalate pieces') : pieces = pieces' := by
  induction pieces generalizing pieces' with
  | nil => exact (List.length_eq_zero_iff.1 hlength.symm).symm
  | cons piece rest ih =>
      obtain ⟨piece', rest', rfl⟩ := List.exists_cons_of_length_eq_add_one hlength.symm
      rw [List.length_cons, List.length_cons, Nat.add_right_cancel_iff] at hlength
      obtain ⟨hpiece, hrest⟩ := List.forall_mem_cons.1 hpieces
      obtain ⟨hpiece', hrest'⟩ := List.forall_mem_cons.1 hpieces'
      obtain rfl | hne := eq_or_ne rest []
      · obtain rfl := List.length_eq_zero_iff.1 hlength.symm
        rw [List.intercalate_singleton, List.intercalate_singleton] at h
        rw [h]
      · have hne' : rest' ≠ [] := by
          rintro rfl
          exact hne (List.length_eq_zero_iff.1 hlength)
        rw [List.intercalate_cons_of_ne_nil hne, List.intercalate_cons_of_ne_nil hne', List.append_assoc,
          List.append_assoc, List.cons_append, List.cons_append] at h
        obtain ⟨rfl, hbehind⟩ := append_cons_inj hpiece hpiece' h
        rw [ih hlength hrest hrest' (List.append_cancel_left hbehind)]

/-- Pieces with a separator behind each of them are read back, with nothing behind the last separator. -/
theorem splitOn_flatMap {pieces : List (List Char)} (h : ∀ piece ∈ pieces, c ∉ piece) :
    (pieces.flatMap (· ++ [c])).splitOn c = pieces ++ [[]] := by
  induction pieces with
  | nil => rfl
  | cons piece rest ih =>
      obtain ⟨hpiece, hrest⟩ := List.forall_mem_cons.1 h
      rw [List.flatMap_cons, List.append_assoc, List.singleton_append,
        List.splitOn_append_cons_self_of_not_mem hpiece, ih hrest, List.cons_append]

/-! ## Columns -/

theorem eq_of_mem_fill (hc : c ∈ (fill width s).toList) : c = ' ' := by
  rw [fill, String.toList_ofList] at hc
  exact List.eq_of_mem_replicate hc

theorem blank_fill (width : Nat) (s : String) : Blank (fill width s).toList :=
  fun _ hc => eq_of_mem_fill hc ▸ rfl

theorem stripped_alignRight (hs : ∀ c ∈ s.toList, isBlank c = false) : Stripped (alignRight width s) s := by
  refine stripped_of_plain (blank_fill width s) (List.forall_mem_nil _) ?_ hs
  rw [alignRight, String.toList_append, List.append_nil]

theorem stripped_alignLeft (hs : ∀ c ∈ s.toList, isBlank c = false) : Stripped (alignLeft width s) s := by
  refine stripped_of_plain (List.forall_mem_nil _) (blank_fill width s) ?_ hs
  rw [alignLeft, String.toList_append, List.nil_append]

theorem length_alignLeft (h : s.length ≤ width) : (alignLeft width s).toList.length = width := by
  rw [alignLeft, fill, String.toList_append, List.length_append, String.toList_ofList, List.length_replicate,
    String.length_toList]
  omega

end Intcode.Text
