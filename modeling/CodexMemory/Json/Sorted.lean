import CodexMemory.Json.Parse

/-!
# Values with their keys in order

`sortKeys` puts the fields of every object in key order.  It keeps what stands
under a key (`lookup_sorted`) and does nothing the second time
(`sortKeys_sortKeys`).  Two objects without repeated keys are the same up to the
order of their keys exactly when they have the same under every key
(`sortKeys_obj_eq`).
-/

namespace CodexMemory.Json

variable {F : Type}

theorem sortItems_eq_map (items : List (Json F)) : sortItems items = items.map sortKeys := by
  induction items with
  | nil => rfl
  | cons v rest ih => rw [sortItems, ih, List.map_cons]

theorem sortFields_eq_map (fields : List (String × Json F)) :
    sortFields fields = fields.map fun f => (f.1, sortKeys f.2) := by
  induction fields with
  | nil => rfl
  | cons field rest ih => rw [sortFields, ih, List.map_cons]

/-- The fields of an object in key order, each with its own fields in key order. -/
def sortedFields (fields : List (String × Json F)) : List (String × Json F) :=
  (fields.map fun f => (f.1, sortKeys f.2)).insertionSort keyBefore

theorem sortKeys_arr (items : List (Json F)) : sortKeys (.arr items) = .arr (items.map sortKeys) := by
  rw [sortKeys, sortItems_eq_map]

theorem sortKeys_obj (fields : List (String × Json F)) : sortKeys (.obj fields) = .obj (sortedFields fields) := by
  rw [sortKeys, sortFields_eq_map, sortedFields]

/-! ## Lookups -/

theorem lookup_cons_if {α : Type} (k : String) (v : α) (rest : List (String × α)) (key : String) :
    ((k, v) :: rest).lookup key = if key = k then some v else rest.lookup key := by
  rw [List.lookup_cons]
  by_cases h : key = k
  · rw [if_pos h, h, beq_self_eq_true]
  · rw [if_neg h, beq_false_of_ne h]

theorem mem_of_lookup {α : Type} {fields : List (String × α)} {key : String} {v : α} (h : fields.lookup key = some v) :
    (key, v) ∈ fields := by
  induction fields with
  | nil => cases h
  | cons field rest ih =>
    obtain ⟨k, w⟩ := field
    rw [lookup_cons_if] at h
    split at h
    · next hkey =>
      rw [hkey, Option.some.inj h]
      exact List.mem_cons_self
    · exact List.mem_cons_of_mem _ (ih h)

theorem lookup_of_nodup {α : Type} {fields : List (String × α)} (hnodup : (fields.map Prod.fst).Nodup)
    {field : String × α} (h : field ∈ fields) : fields.lookup field.1 = some field.2 := by
  induction fields with
  | nil => cases h
  | cons first rest ih =>
    obtain ⟨k, v⟩ := first
    rw [List.map_cons, List.nodup_cons] at hnodup
    rw [lookup_cons_if]
    rcases List.mem_cons.mp h with rfl | hrest
    · rw [if_pos rfl]
    · rw [if_neg, ih hnodup.2 hrest]
      intro hkey
      have hmem : field.1 ∈ rest.map Prod.fst := List.mem_map_of_mem hrest
      rw [hkey] at hmem
      exact hnodup.1 hmem

theorem lookup_map_snd {α β : Type} (f : α → β) (fields : List (String × α)) (key : String) :
    (fields.map fun p => (p.1, f p.2)).lookup key = (fields.lookup key).map f := by
  induction fields with
  | nil => rfl
  | cons field rest ih =>
    obtain ⟨k, v⟩ := field
    rw [List.map_cons, lookup_cons_if, lookup_cons_if, ih]
    split <;> rfl

theorem lookup_orderedInsert (k : String) (v : Json F) (fields : List (String × Json F)) (key : String) :
    (fields.orderedInsert keyBefore (k, v)).lookup key = if key = k then some v else fields.lookup key := by
  induction fields with
  | nil => exact lookup_cons_if k v [] key
  | cons field rest ih =>
    obtain ⟨k', v'⟩ := field
    rw [List.orderedInsert_cons]
    split
    · exact lookup_cons_if k v _ key
    · next hbefore =>
      have hne : k ≠ k' := by
        rintro rfl
        exact hbefore (le_refl k.toList)
      rw [lookup_cons_if, lookup_cons_if, ih]
      by_cases h : key = k'
      · rw [if_pos h, if_pos h, if_neg fun he => hne (he.symm.trans h)]
      · rw [if_neg h, if_neg h]

theorem lookup_insertionSort (fields : List (String × Json F)) (key : String) :
    (fields.insertionSort keyBefore).lookup key = fields.lookup key := by
  induction fields with
  | nil => rfl
  | cons field rest ih =>
    obtain ⟨k, v⟩ := field
    rw [List.insertionSort_cons, lookup_orderedInsert, ih, lookup_cons_if]

/-- **What stands under a key is kept.** -/
theorem lookup_sorted (fields : List (String × Json F)) (key : String) :
    (sortedFields fields).lookup key = (fields.lookup key).map sortKeys := by
  rw [sortedFields, lookup_insertionSort, lookup_map_snd]

theorem keys_sorted_perm (fields : List (String × Json F)) :
    List.Perm ((sortedFields fields).map Prod.fst) (fields.map Prod.fst) := by
  have hperm := (List.perm_insertionSort keyBefore (fields.map fun f => (f.1, sortKeys f.2))).map Prod.fst
  rw [List.map_map] at hperm
  exact hperm

/-! ## Order -/

instance : Std.Total (keyBefore (F := F)) := ⟨fun a b => le_total a.1.toList b.1.toList⟩

instance : IsTrans (String × Json F) keyBefore := ⟨fun _ _ _ hab hbc => le_trans hab hbc⟩

theorem pairwise_sorted (fields : List (String × Json F)) : (sortedFields fields).Pairwise keyBefore :=
  List.pairwise_insertionSort keyBefore _

/-- Putting keys in order a second time changes nothing. -/
theorem sortKeys_sortKeys (v : Json F) : sortKeys (sortKeys v) = sortKeys v := by
  induction v using induction with
  | null | bool b | int n | float x | str s => rfl
  | arr items ih =>
    rw [sortKeys_arr, sortKeys_arr, List.map_map]
    exact congrArg _ (List.map_congr_left fun v hv => ih v hv)
  | obj fields ih =>
    rw [sortKeys_obj, sortKeys_obj]
    have hsame : ((sortedFields fields).map fun f => (f.1, sortKeys f.2)) = sortedFields fields := by
      refine (List.map_congr_left fun f hf => ?_).trans (List.map_id _)
      rw [sortedFields, List.mem_insertionSort] at hf
      obtain ⟨g, hg, rfl⟩ := List.mem_map.mp hf
      exact Prod.ext rfl (ih g hg)
    rw [sortedFields, hsame, List.Pairwise.insertionSort_eq (pairwise_sorted fields)]

/-- Fields in key order without repeated keys are told apart by what stands under a key. -/
theorem eq_of_lookup {fields fields' : List (String × Json F)} (hsorted : fields.Pairwise keyBefore)
    (hsorted' : fields'.Pairwise keyBefore) (hnodup : (fields.map Prod.fst).Nodup)
    (hnodup' : (fields'.map Prod.fst).Nodup) (h : ∀ key, fields.lookup key = fields'.lookup key) :
    fields = fields' := by
  have hmem : ∀ {fields : List (String × Json F)}, (fields.map Prod.fst).Nodup → ∀ k v,
      fields.lookup k = some v ↔ (k, v) ∈ fields := fun hnodup k v =>
    ⟨mem_of_lookup, fun h => lookup_of_nodup hnodup h⟩
  have hperm : List.Perm fields fields' := by
    refine (List.perm_ext_iff_of_nodup hnodup.of_map hnodup'.of_map).mpr fun f => ?_
    obtain ⟨k, v⟩ := f
    rw [← hmem hnodup, ← hmem hnodup', h]
  refine hperm.eq_of_pairwise (fun a b ha hb hab hba => ?_) hsorted hsorted'
  have hkey : a.1 = b.1 := String.ext (le_antisymm hab hba)
  have hlookup := (hmem hnodup a.1 a.2).mpr ha
  rw [h, hkey] at hlookup
  exact Prod.ext hkey (Option.some.inj (hlookup.symm.trans ((hmem hnodup' b.1 b.2).mpr hb)))

/-- **Objects up to the order of their keys.** -/
theorem sortKeys_obj_eq {fields fields' : List (String × Json F)} (hnodup : (fields.map Prod.fst).Nodup)
    (hnodup' : (fields'.map Prod.fst).Nodup) :
    sortKeys (.obj fields) = sortKeys (.obj fields') ↔
      ∀ key, (fields.lookup key).map sortKeys = (fields'.lookup key).map sortKeys := by
  rw [sortKeys_obj, sortKeys_obj, Json.obj.injEq]
  constructor
  · intro h key
    rw [← lookup_sorted, ← lookup_sorted, h]
  · intro h
    refine eq_of_lookup (pairwise_sorted fields) (pairwise_sorted fields')
      ((keys_sorted_perm fields).nodup_iff.mpr hnodup) ((keys_sorted_perm fields').nodup_iff.mpr hnodup') fun key => ?_
    rw [lookup_sorted, lookup_sorted, h]

/-! ## No repeated keys -/

theorem mem_setField {key : String} {value : Json F} {fields : List (String × Json F)} {f : String × Json F}
    (h : f ∈ setField key value fields) : f = (key, value) ∨ f ∈ fields := by
  induction fields with
  | nil => exact Or.inl (List.mem_singleton.mp h)
  | cons field rest ih =>
    obtain ⟨k, v⟩ := field
    rw [setField] at h
    split at h
    · rcases List.mem_cons.mp h with rfl | h
      · exact Or.inl rfl
      · exact Or.inr (List.mem_cons_of_mem _ h)
    · rcases List.mem_cons.mp h with rfl | h
      · exact Or.inr List.mem_cons_self
      · exact (ih h).imp_right (List.mem_cons_of_mem _)

theorem setField_nodup {key : String} {value : Json F} {fields : List (String × Json F)}
    (h : (fields.map Prod.fst).Nodup) : ((setField key value fields).map Prod.fst).Nodup := by
  induction fields with
  | nil => exact List.nodup_singleton key
  | cons field rest ih =>
    obtain ⟨k, v⟩ := field
    rw [List.map_cons, List.nodup_cons] at h
    rw [setField]
    split
    · next hkey =>
      rw [List.map_cons, List.nodup_cons, ← hkey]
      exact h
    · next hkey =>
      rw [List.map_cons, List.nodup_cons]
      refine ⟨fun hmem => ?_, ih h.2⟩
      obtain ⟨f, hf, hfk⟩ := List.mem_map.mp hmem
      rcases mem_setField hf with rfl | hf
      · exact hkey hfk.symm
      · exact h.1 (hfk ▸ List.mem_map_of_mem hf)

theorem unique_obj {fields : List (String × Json F)} :
    unique (.obj fields) = true ↔ (fields.map Prod.fst).Nodup ∧ ∀ field ∈ fields, unique field.2 = true := by
  rw [unique, Bool.and_eq_true, decide_eq_true_eq, uniqueFields_eq_true]

theorem unique_sortKeys {v : Json F} (h : unique v = true) : unique (sortKeys v) = true := by
  induction v using induction with
  | null | bool b | int n | float x | str s => rfl
  | arr items ih =>
    rw [unique, uniqueItems_eq_true] at h
    rw [sortKeys_arr, unique, uniqueItems_eq_true]
    intro w hw
    obtain ⟨v, hv, rfl⟩ := List.mem_map.mp hw
    exact ih v hv (h v hv)
  | obj fields ih =>
    rw [unique_obj] at h
    rw [sortKeys_obj, unique_obj]
    refine ⟨(keys_sorted_perm fields).nodup_iff.mpr h.1, fun f hf => ?_⟩
    rw [sortedFields, List.mem_insertionSort] at hf
    obtain ⟨g, hg, rfl⟩ := List.mem_map.mp hf
    exact ih g hg (h.2 g hg)

end CodexMemory.Json
