import Intcode.Proofs.Json.Tree

/-!
# Records of trees

What is put into a tree is found there: integers in range, lists of them, and the fields of a record that is
written with all its fields in their order.
-/

namespace Intcode.Json

/-! ## Numbers -/

@[simp] theorem word?_word (w : Word) : (word w).word? = some w := by
  simp [word?, word, int?, Numeral.ofWord]

@[simp] theorem address?_address (a : Address) : (address a).address? = some a := by
  simp [address?, address, int?, Numeral.ofAddress, plainInt?_ofNat]

theorem canonical_word (w : Word) : Canonical (word w) :=
  .int w.toInt

theorem canonical_address (a : Address) : Canonical (address a) :=
  .int (Int.ofNat a.toNat)

/-! ## Lists -/

theorem mapM_map_eq_some {α β : Type} {f : β → Option α} {g : α → β} (h : ∀ a, f (g a) = some a)
    (as : List α) : (as.map g).mapM f = some as := by
  induction as with
  | nil => rfl
  | cons a as ih => simp [h, ih]

@[simp] theorem words?_words (ws : List Word) : (words ws).words? = some ws :=
  mapM_map_eq_some word?_word ws

theorem canonical_words (ws : List Word) : Canonical (words ws) := by
  refine .array fun j hj => ?_
  obtain ⟨w, -, rfl⟩ := List.mem_map.1 hj
  exact canonical_word w

/-! ## Entries -/

section Entries

variable {α : Type} {entry : α → String × Json}

theorem members?_map {f : String → Json → Option α} (h : ∀ a, f (entry a).1 (entry a).2 = some a)
    (as : List α) : (Json.object (as.map entry)).members? f = some as :=
  mapM_map_eq_some h as

theorem canonical_map (hkey : ∀ a, ∃ s, (entry a).1 = escape s) (h : ∀ a, Canonical (entry a).2)
    (as : List α) : Canonical (.object (as.map entry)) := by
  refine .object ?_ ?_
  · intro m hm
    obtain ⟨a, -, rfl⟩ := List.mem_map.1 hm
    exact hkey a
  · intro m hm
    obtain ⟨a, -, rfl⟩ := List.mem_map.1 hm
    exact h a

end Entries

/-- A sorted map is what its entries make when they are put into an empty one. -/
theorem foldl_insert_toList {α β : Type} [Ord α] [Std.TransOrd α] [Std.LawfulEqOrd α]
    [BEq α] [LawfulBEq α] (t : Std.ExtTreeMap α β) :
    t.toList.foldl (fun kept (k, v) => kept.insert k v) ∅ = t := by
  have hfold : t.toList.foldl (fun kept (k, v) => kept.insert k v) ∅ =
      Std.ExtTreeMap.ofList t.toList := Std.ExtTreeMap.ofList_eq_foldl.symm
  rw [hfold]
  refine Std.ExtTreeMap.ext_getElem? fun k => ?_
  cases hk : t[k]? with
  | some v =>
      exact Std.ExtTreeMap.getElem?_ofList_of_mem Std.ReflCmp.compare_self t.distinct_keys_toList
        (Std.ExtTreeMap.mem_toList_iff_getElem?_eq_some.2 hk)
  | none =>
      refine Std.ExtTreeMap.getElem?_eq_none fun hmem => ?_
      rw [Std.ExtTreeMap.mem_ofList, Std.ExtTreeMap.map_fst_toList_eq_keys, List.contains_iff_mem,
        Std.ExtTreeMap.mem_keys] at hmem
      rw [Std.ExtTreeMap.getElem?_eq_some_getElem hmem] at hk
      cases hk

/-! ## Fields -/

/-- A value goes to the place of its name, behind the places that are taken. -/
theorem placeField_append (name : String) (value : Json) (taken : List (String × Json))
    (h : name ∉ taken.map Prod.fst) (names : List String) (values : List (Option Json)) :
    placeField (taken.map Prod.fst ++ name :: names)
        (taken.map (some ∘ Prod.snd) ++ none :: values) name value =
      some (taken.map (some ∘ Prod.snd) ++ some value :: values) := by
  induction taken with
  | nil => simp [placeField]
  | cons t taken ih =>
      rw [List.map_cons, List.mem_cons, not_or] at h
      simp [placeField, Ne.symm h.1, ih h.2]

theorem foldlM_placeField (left taken : List (String × Json))
    (hdistinct : (taken.map Prod.fst ++ left.map Prod.fst).Nodup)
    (hplain : ∀ m ∈ left, escape m.1 = m.1) :
    left.foldlM
        (fun values (key, value) => do
          placeField (taken.map Prod.fst ++ left.map Prod.fst) values (← unescape? key) value)
        (taken.map (some ∘ Prod.snd) ++ left.map fun _ => none) =
      some (taken.map (some ∘ Prod.snd) ++ left.map (some ∘ Prod.snd)) := by
  induction left generalizing taken with
  | nil => simp
  | cons m left ih =>
      obtain ⟨key, value⟩ := m
      rw [List.forall_mem_cons] at hplain
      have hkey : unescape? key = some key := by
        simpa only [hplain.1] using unescape?_escape key
      have hnew : key ∉ taken.map Prod.fst := by
        rw [List.nodup_append] at hdistinct
        exact fun hmem => hdistinct.2.2 key hmem key (by simp) rfl
      have hplace := placeField_append key value taken hnew (left.map Prod.fst)
        (left.map fun _ => none)
      -- the field just placed is the last of those that are taken
      have hrest := ih (taken ++ [(key, value)]) (by simpa using hdistinct) hplain.2
      simp only [List.map_append, List.map_cons, List.map_nil, List.append_assoc,
        List.singleton_append] at hrest
      simp only [List.map_cons, List.foldlM_cons, hkey, Option.bind_eq_bind, Option.bind_some,
        hplace]
      exact hrest

/-- Names of fields, all different, that stand in a text as they are. -/
def FieldNames (names : List String) : Prop :=
  names.Nodup ∧ ∀ name ∈ names, escape name = name

instance (names : List String) : Decidable (FieldNames names) :=
  inferInstanceAs (Decidable (_ ∧ _))

variable {names : List String} {members : List (String × Json)}

/-- The fields of a record that has just these, in this order. -/
theorem fields?_object (h : FieldNames names) (hnames : members.map Prod.fst = names) :
    fields? names (.object members) = some (members.map (some ∘ Prod.snd)) := by
  subst hnames
  have hplain : ∀ m ∈ members, escape m.1 = m.1 := fun m hm => h.2 m.1 (List.mem_map_of_mem hm)
  rw [fields?, List.map_map]
  exact foldlM_placeField members [] h.1 hplain

theorem canonical_object (h : FieldNames names) (hnames : members.map Prod.fst = names)
    (hvalues : ∀ m ∈ members, Canonical m.2) : Canonical (.object members) := by
  subst hnames
  exact .object (fun m hm => ⟨m.1, (h.2 m.1 (List.mem_map_of_mem hm)).symm⟩) hvalues

end Intcode.Json
