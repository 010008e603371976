import Intcode.Proofs.Json.Scalar

/-!
# A written tree is read back

Not every tree is: the text of a number may be no number. The trees that are built from integers and texts
are canonical, and each of them is what the reader makes of its text.
-/

namespace Intcode.Json

/-! ## The text of a tree -/

mutual

theorem writeTo_eq (out : String) : (j : Json) → writeTo out j = out ++ writeTo "" j
  | .null => by simp [writeTo]
  | .bool true => by simp [writeTo]
  | .bool false => by simp [writeTo]
  | .number text => by simp [writeTo]
  | .string body => by simp [writeTo, String.push_eq_append, String.append_assoc]
  | .array items => by
      simp [writeTo, writeItems_eq "" (out ++ "[") items, writeItems_eq "" "[" items,
        String.push_eq_append, String.append_assoc]
  | .object members => by
      simp [writeTo, writeMembers_eq "" (out ++ "\x7b") members,
        writeMembers_eq "" "\x7b" members, String.append_assoc]

theorem writeItems_eq (sep out : String) :
    (items : List Json) → writeItems sep out items = out ++ writeItems sep "" items
  | [] => by simp [writeItems]
  | item :: items => by
      rw [writeItems, writeItems, writeItems_eq "," (writeTo (out ++ sep) item) items,
        writeItems_eq "," (writeTo ("" ++ sep) item) items, writeTo_eq (out ++ sep) item,
        writeTo_eq ("" ++ sep) item]
      simp [String.append_assoc]

theorem writeMembers_eq (sep out : String) :
    (members : List (String × Json)) →
      writeMembers sep out members = out ++ writeMembers sep "" members
  | [] => by simp [writeMembers]
  | (key, value) :: members => by
      rw [writeMembers, writeMembers, writeMembers_eq "," (writeTo _ value) members,
        writeMembers_eq "," (writeTo ("" ++ sep ++ "\"" ++ key ++ "\":") value) members,
        writeTo_eq (out ++ sep ++ "\"" ++ key ++ "\":") value,
        writeTo_eq ("" ++ sep ++ "\"" ++ key ++ "\":") value]
      simp [String.append_assoc]

end

/-- The items of an array as they stand between the brackets. -/
def itemsText (items : List Json) : List Char :=
  (writeItems "" "" items).toList

/-- The members of an object as they stand between the braces. -/
def membersText (members : List (String × Json)) : List Char :=
  (writeMembers "" "" members).toList

theorem toList_write_array (items : List Json) :
    (write (.array items)).toList = '[' :: itemsText items ++ [']'] := by
  simp [write, writeTo, itemsText, writeItems_eq "" "[" items]

theorem toList_write_object (members : List (String × Json)) :
    (write (.object members)).toList = '\x7b' :: membersText members ++ ['\x7d'] := by
  simp [write, writeTo, membersText, writeMembers_eq "" "\x7b" members]

theorem toList_write_int (i : Int) : (write (.int i)).toList = (Numeral.ofInt i).toList := by
  simp [write, writeTo, int]

theorem toList_write_text (s : String) :
    (write (.text s)).toList = '"' :: (escape s).toList ++ ['"'] := by
  simp [write, writeTo, text]

@[simp] theorem itemsText_nil : itemsText [] = [] := by
  simp [itemsText, writeItems]

@[simp] theorem itemsText_singleton (item : Json) : itemsText [item] = item.write.toList := by
  simp [itemsText, writeItems, write]

@[simp] theorem itemsText_cons_cons (item next : Json) (items : List Json) :
    itemsText (item :: next :: items) = item.write.toList ++ ',' :: itemsText (next :: items) := by
  simp only [itemsText, write, writeItems]
  rw [writeItems_eq "," (writeTo _ next), writeItems_eq "," (writeTo ("" ++ "") next),
    writeTo_eq (writeTo _ item ++ ",") next, writeTo_eq ("" ++ "") next]
  simp

@[simp] theorem membersText_nil : membersText [] = [] := by
  simp [membersText, writeMembers]

@[simp] theorem membersText_singleton (key : String) (value : Json) :
    membersText [(key, value)] = '"' :: key.toList ++ '"' :: ':' :: value.write.toList := by
  simp [membersText, writeMembers, write, writeTo_eq ("\"" ++ key ++ "\":") value]

@[simp] theorem membersText_cons_cons (key : String) (value : Json) (next : String × Json)
    (members : List (String × Json)) :
    membersText ((key, value) :: next :: members) =
      '"' :: key.toList ++ '"' :: ':' :: value.write.toList ++
        ',' :: membersText (next :: members) := by
  simp only [membersText, write, writeMembers]
  rw [writeMembers_eq "," (writeTo _ next.2),
    writeMembers_eq "," (writeTo ("" ++ "" ++ _ ++ _ ++ _) next.2),
    writeTo_eq (writeTo _ value ++ _ ++ _ ++ _ ++ _) next.2,
    writeTo_eq ("" ++ "" ++ _ ++ _ ++ _) next.2, writeTo_eq ("" ++ "" ++ _ ++ _ ++ _) value]
  simp

/-! ## Canonical trees -/

/-- The trees built from integers and texts alone. -/
inductive Canonical : Json → Prop
  | null : Canonical .null
  | bool (b : Bool) : Canonical (.bool b)
  | int (i : Int) : Canonical (.int i)
  | text (s : String) : Canonical (.text s)
  | array {items : List Json} : (∀ j ∈ items, Canonical j) → Canonical (.array items)
  | object {members : List (String × Json)} : (∀ m ∈ members, ∃ s, m.1 = escape s) →
      (∀ m ∈ members, Canonical m.2) → Canonical (.object members)

/-- The text begins with a character that a value can begin with: it is no blank and closes no array. -/
def Begins (cs : List Char) : Prop :=
  ∃ c cs', cs = c :: cs' ∧ isSpace c = false ∧ c ≠ ']'

theorem skip_cons {c : Char} (h : isSpace c = false) (cs : List Char) : skip (c :: cs) = c :: cs := by
  simp [skip, h]

theorem begins_of_leads {c : Char} (h : Numeral.Leads c) (cs : List Char) : Begins (c :: cs) := by
  refine ⟨c, cs, rfl, ?_, ?_⟩
  · by_contra hspace
    simp only [isSpace, Bool.not_eq_false, Bool.or_eq_true, decide_eq_true_eq] at hspace
    rcases hspace with ((rfl | rfl) | rfl) | rfl <;> simp [Numeral.Leads] at h
  · rintro rfl
    simp [Numeral.Leads] at h

theorem Canonical.begins {j : Json} (h : Canonical j) : Begins j.write.toList := by
  cases h with
  | null => exact ⟨'n', _, rfl, rfl, by decide⟩
  | bool b => cases b with
    | true => exact ⟨'t', _, rfl, rfl, by decide⟩
    | false => exact ⟨'f', _, rfl, rfl, by decide⟩
  | int i =>
      obtain ⟨c, cs, hcs, hc⟩ := Numeral.exists_cons_ofInt i
      rw [toList_write_int, hcs]
      exact begins_of_leads hc cs
  | text s => exact ⟨'"', _, toList_write_text s, rfl, by decide⟩
  | array => exact ⟨'[', _, toList_write_array _, rfl, by decide⟩
  | object => exact ⟨'\x7b', _, toList_write_object _, rfl, by decide⟩

theorem Begins.append {cs : List Char} (h : Begins cs) (rest : List Char) : Begins (cs ++ rest) := by
  obtain ⟨c, cs, rfl, hc⟩ := h
  exact ⟨c, cs ++ rest, rfl, hc⟩

theorem Begins.itemsText {item : Json} (h : Begins item.write.toList) (items : List Json) :
    Begins (itemsText (item :: items)) := by
  cases items with
  | nil => simpa using h
  | cons next items => simpa using h.append _

theorem exists_membersText (m : String × Json) (members : List (String × Json)) :
    ∃ cs, membersText (m :: members) = '"' :: cs := by
  obtain ⟨key, value⟩ := m
  cases members <;> simp

/-! ## Reading values

What the reader does once the first character is known. -/

variable {fuel : Nat}

theorem readValue_quote (cs : List Char) :
    readValue (fuel + 1) ('"' :: cs) =
      (readString [] cs).map fun (body, rest) => (.string body, rest) := by
  rw [readValue, skip_cons rfl]
  rfl

theorem readValue_bracket {cs : List Char} (h : Begins cs) :
    readValue (fuel + 1) ('[' :: cs) = readItems fuel [] cs := by
  obtain ⟨c, cs', rfl, hspace, hclose⟩ := h
  rw [readValue, skip_cons rfl]
  simp only [skip_cons hspace]
  split <;> simp_all

theorem readValue_brace (cs : List Char) :
    readValue (fuel + 1) ('\x7b' :: '"' :: cs) = readMembers fuel [] ('"' :: cs) := by
  rw [readValue, skip_cons rfl]
  rfl

theorem readValue_number {c : Char} (h : Numeral.Leads c) (cs : List Char) :
    readValue (fuel + 1) (c :: cs) =
      (readNumber (c :: cs)).map fun (text, rest) => (.number (String.ofList text), rest) := by
  obtain ⟨_, _, ⟨⟩, hspace, -⟩ := begins_of_leads h cs
  rw [readValue, skip_cons hspace]
  split
  all_goals first | rfl | (rename_i heq; cases heq; simp [Numeral.Leads] at h)

variable {item value : Json} {cs rest : List Char}

theorem readItems_comma (seen : List Json) (h : readValue fuel cs = some (item, ',' :: rest)) :
    readItems (fuel + 1) seen cs = readItems fuel (item :: seen) rest := by
  simp (disch := decide) only [readItems, h, skip_cons]

theorem readItems_bracket (seen : List Json) (h : readValue fuel cs = some (item, ']' :: rest)) :
    readItems (fuel + 1) seen cs = some (.array (seen.reverse ++ [item]), rest) := by
  simp (disch := decide) only [readItems, h, skip_cons, List.reverse_cons]

theorem readMembers_comma (seen : List (String × Json)) (s : String)
    (h : readValue fuel cs = some (value, ',' :: rest)) :
    readMembers (fuel + 1) seen ('"' :: (escape s).toList ++ '"' :: ':' :: cs) =
      readMembers fuel ((escape s, value) :: seen) rest := by
  simp (disch := decide) only [readMembers, List.cons_append, skip_cons, readString_escape, h]

theorem readMembers_brace (seen : List (String × Json)) (s : String)
    (h : readValue fuel cs = some (value, '\x7d' :: rest)) :
    readMembers (fuel + 1) seen ('"' :: (escape s).toList ++ '"' :: ':' :: cs) =
      some (.object (seen.reverse ++ [(escape s, value)]), rest) := by
  simp (disch := decide) only [readMembers, List.cons_append, skip_cons, readString_escape, h,
    List.reverse_cons]

/-! ## Whole trees -/

/-- With fuel for its length, a value is taken off the front of a text as the tree it was written from. -/
def ReadsBack (j : Json) : Prop :=
  ∀ fuel rest, Delimited rest → 2 * j.write.toList.length ≤ fuel →
    readValue fuel (j.write.toList ++ rest) = some (j, rest)

theorem readItems_itemsText {items : List Json} (h : ∀ j ∈ item :: items, ReadsBack j)
    (seen : List Json) (hfuel : 2 * (itemsText (item :: items)).length < fuel) :
    readItems fuel seen (itemsText (item :: items) ++ ']' :: rest) =
      some (.array (seen.reverse ++ item :: items), rest) := by
  obtain ⟨fuel, rfl⟩ : ∃ n, fuel = n + 1 := ⟨fuel - 1, by omega⟩
  induction items generalizing item seen fuel with
  | nil =>
      rw [itemsText_singleton] at hfuel ⊢
      exact readItems_bracket seen (h item (by simp) fuel _ (.bracket rest) (by omega))
  | cons next items ih =>
      -- the first item ends at the comma, behind which the text of the others stands
      rw [List.forall_mem_cons] at h
      simp only [itemsText_cons_cons, List.length_append, List.length_cons] at hfuel
      rw [itemsText_cons_cons, List.append_assoc, List.cons_append,
        readItems_comma seen (h.1 fuel _ (.comma _) (by omega))]
      obtain ⟨fuel, rfl⟩ : ∃ n, fuel = n + 1 := ⟨fuel - 1, by omega⟩
      simpa using ih h.2 (item :: seen) fuel (by omega)

theorem readMembers_membersText {m : String × Json} {members : List (String × Json)}
    (hkeys : ∀ n ∈ m :: members, ∃ s, n.1 = escape s) (h : ∀ n ∈ m :: members, ReadsBack n.2)
    (seen : List (String × Json)) (hfuel : 2 * (membersText (m :: members)).length < fuel) :
    readMembers fuel seen (membersText (m :: members) ++ '\x7d' :: rest) =
      some (.object (seen.reverse ++ m :: members), rest) := by
  obtain ⟨fuel, rfl⟩ : ∃ n, fuel = n + 1 := ⟨fuel - 1, by omega⟩
  induction members generalizing m seen fuel with
  | nil =>
      obtain ⟨key, value⟩ := m
      obtain ⟨s, rfl⟩ : ∃ s, key = escape s := hkeys (key, value) (by simp)
      have hvalue : ReadsBack value := h (escape s, value) (by simp)
      simp only [membersText_singleton, List.length_cons, List.length_append] at hfuel
      have hread := hvalue fuel _ (.brace rest) (by omega)
      simpa using readMembers_brace seen s hread
  | cons next members ih =>
      obtain ⟨key, value⟩ := m
      rw [List.forall_mem_cons] at h hkeys
      obtain ⟨s, rfl⟩ : ∃ s, key = escape s := hkeys.1
      simp only [membersText_cons_cons, List.length_cons, List.length_append] at hfuel
      have hread := h.1 fuel _ (.comma (membersText (next :: members) ++ '\x7d' :: rest)) (by
        simp only
        omega)
      have hstep := readMembers_comma seen s hread
      obtain ⟨fuel, rfl⟩ : ∃ n, fuel = n + 1 := ⟨fuel - 1, by omega⟩
      rw [ih hkeys.2 h.2 _ fuel (by omega)] at hstep
      simpa using hstep

/-- The first item must not begin with what closes an empty array. -/
theorem ReadsBack.array {items : List Json} (hbegin : ∀ j ∈ items, Begins j.write.toList)
    (h : ∀ j ∈ items, ReadsBack j) : ReadsBack (.array items) := by
  intro fuel rest _ hfuel
  simp only [toList_write_array, List.length_cons, List.length_append] at hfuel
  obtain ⟨fuel, rfl⟩ : ∃ n, fuel = n + 1 := ⟨fuel - 1, by omega⟩
  rw [toList_write_array, List.cons_append, List.cons_append, List.append_assoc]
  cases items with
  | nil => rfl
  | cons item items =>
      rw [readValue_bracket (((hbegin item (by simp)).itemsText items).append _)]
      exact readItems_itemsText h [] (by omega)

theorem ReadsBack.object {members : List (String × Json)}
    (hkeys : ∀ m ∈ members, ∃ s, m.1 = escape s) (h : ∀ m ∈ members, ReadsBack m.2) :
    ReadsBack (.object members) := by
  intro fuel rest _ hfuel
  simp only [toList_write_object, List.length_cons, List.length_append] at hfuel
  obtain ⟨fuel, rfl⟩ : ∃ n, fuel = n + 1 := ⟨fuel - 1, by omega⟩
  rw [toList_write_object, List.cons_append, List.cons_append, List.append_assoc]
  cases members with
  | nil => rfl
  | cons m members =>
      have hread : readMembers fuel [] (membersText (m :: members) ++ '\x7d' :: rest) = _ :=
        readMembers_membersText hkeys h [] (by omega)
      obtain ⟨cs, hcs⟩ := exists_membersText m members
      rw [hcs, List.cons_append] at hread ⊢
      rw [List.singleton_append, readValue_brace, hread]
      rfl

theorem Canonical.readsBack {j : Json} (h : Canonical j) : ReadsBack j := by
  induction h with
  | null =>
      rintro (_ | fuel) rest - hfuel
      · cases hfuel
      · rfl
  | bool b =>
      rintro (_ | fuel) rest - hfuel
      · cases b <;> cases hfuel
      · cases b <;> rfl
  | int i =>
      intro fuel rest hrest hfuel
      have hread := readNumber_ofInt i hrest
      obtain ⟨c, cs, hcs, hc⟩ := Numeral.exists_cons_ofInt i
      rw [hcs] at hread
      rw [toList_write_int, hcs] at hfuel ⊢
      rw [List.length_cons] at hfuel
      obtain ⟨fuel, rfl⟩ : ∃ n, fuel = n + 1 := ⟨fuel - 1, by omega⟩
      rw [List.cons_append, readValue_number hc, ← List.cons_append, hread, ← hcs]
      simp only [Option.map_some, String.ofList_toList]
      rfl
  | text s =>
      intro fuel rest _ hfuel
      rw [toList_write_text] at hfuel ⊢
      rw [List.cons_append, List.length_cons] at hfuel
      obtain ⟨fuel, rfl⟩ : ∃ n, fuel = n + 1 := ⟨fuel - 1, by omega⟩
      rw [List.cons_append, List.cons_append, readValue_quote, List.append_assoc,
        List.singleton_append, readString_escape]
      rfl
  | array h ih => exact .array (fun j hj => (h j hj).begins) ih
  | object hkeys h ih => exact .object hkeys ih

/-- A canonical tree is read from its text. -/
theorem read?_write {j : Json} (h : Canonical j) : read? j.write = some j := by
  have hread := h.readsBack (2 * j.write.toList.length + 2) [] .nil (by omega)
  rw [List.append_nil] at hread
  simp [read?, hread, skip]

end Intcode.Json
