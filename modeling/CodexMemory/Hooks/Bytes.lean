import CodexMemory.Hooks.Events
import CodexMemory.Json.Sorted
import Mathlib.Algebra.Order.BigOperators.Group.List

/-!
# The bytes of a JSON text

The UTF-8 length of `json.dumps(value, ensure_ascii=False, sort_keys=True, separators=(",", ":"))`.

* `jsonBytes_obj`, `jsonBytes_arr`: an object takes what its fields take, in any order, and a list what its items do;
* `field_le_jsonBytes`, `jsonBytes_sublist_le`: a field, and some of the fields, take no more than the object;
* `length_le_jsonBytes`: a text takes at least one byte for each character.
-/

namespace CodexMemory.Hooks

variable {F : Type}

/-! ## Texts -/

theorem byteLength_append (s t : List Char) : byteLength (s ++ t) = byteLength s + byteLength t := by
  rw [byteLength, List.map_append, List.sum_append]
  rfl

theorem byteLength_cons (c : Char) (s : List Char) : byteLength (c :: s) = c.utf8Size + byteLength s := by
  rw [byteLength, List.map_cons, List.sum_cons]
  rfl

theorem length_le_byteLength (s : List Char) : s.length ≤ byteLength s := by
  induction s with
  | nil => exact Nat.zero_le _
  | cons c s ih =>
    have hc := c.utf8Size_pos
    rw [byteLength_cons, List.length_cons]
    omega

/-- The bytes of a text between its quotes. -/
def quotedBytes (s : String) : Nat := byteLength (Json.quote s.toList)

theorem length_le_quotedBytes (s : String) : s.toList.length ≤ quotedBytes s := by
  have htext := Json.length_le_flatMap_escape s.toList
  have hbytes := length_le_byteLength (Json.quote s.toList)
  rw [Json.quote, List.length_append, List.length_cons] at hbytes
  rw [quotedBytes, Json.quote]
  omega

/-! ## Values -/

section

variable [Json.PyFloat F]

/-- The bytes of `json.dumps` with sorted keys and compact separators. -/
def jsonBytes (value : Json F) : Nat := byteLength (value.sortKeys.dumps .compact)

/-- A field with its colon, and a comma or a brace. -/
def fieldBytes (field : String × Json F) : Nat := quotedBytes field.1 + byteLength (field.2.dumps .compact) + 2

theorem byteLength_dumpsFields (fields : List (String × Json F)) :
    byteLength (Json.dumpsFields .compact fields) = (fields.map fieldBytes).sum := by
  induction fields with
  | nil => rfl
  | cons field rest ih =>
    obtain ⟨k, v⟩ := field
    have hcomma : byteLength Json.Separators.compact.item = 1 := by decide
    have hcolon : byteLength Json.Separators.compact.key = 1 := by decide
    rw [Json.dumpsFields, List.map_cons, List.sum_cons, ← ih]
    simp only [byteLength_append, fieldBytes, quotedBytes, hcomma, hcolon]
    omega

theorem byteLength_dumps_obj {fields : List (String × Json F)} (h : fields ≠ []) :
    byteLength ((Json.obj fields).dumps .compact) = 1 + (fields.map fieldBytes).sum := by
  cases fields with
  | nil => exact absurd rfl h
  | cons field rest =>
    obtain ⟨k, v⟩ := field
    have hcolon : byteLength Json.Separators.compact.key = 1 := by decide
    have hopen : '{'.utf8Size = 1 := by decide
    have hclose : byteLength ['}'] = 1 := by decide
    rw [Json.dumps, List.map_cons, List.sum_cons, ← byteLength_dumpsFields]
    simp only [byteLength_append, byteLength_cons, fieldBytes, quotedBytes, hcolon, hopen, hclose]
    omega

theorem byteLength_dumpsItems (items : List (Json F)) :
    byteLength (Json.dumpsItems .compact items) = (items.map fun v => byteLength (v.dumps .compact) + 1).sum := by
  induction items with
  | nil => rfl
  | cons v rest ih =>
    have hcomma : byteLength Json.Separators.compact.item = 1 := by decide
    rw [Json.dumpsItems, List.map_cons, List.sum_cons, ← ih]
    simp only [byteLength_append, hcomma]
    omega

/-- A list takes one byte, and for each item its value and one byte. -/
theorem jsonBytes_arr {items : List (Json F)} (h : items ≠ []) :
    jsonBytes (.arr items) = 1 + (items.map fun v => jsonBytes v + 1).sum := by
  cases items with
  | nil => exact absurd rfl h
  | cons v rest =>
    have hopen : '['.utf8Size = 1 := by decide
    have hclose : byteLength [']'] = 1 := by decide
    rw [jsonBytes, Json.sortKeys_arr, List.map_cons, Json.dumps, List.map_cons, List.sum_cons]
    simp only [byteLength_append, byteLength_cons, byteLength_dumpsItems, List.map_map, hopen, hclose]
    change 1 + jsonBytes v + (rest.map fun v => jsonBytes v + 1).sum + 1 =
      1 + (jsonBytes v + 1 + (rest.map fun v => jsonBytes v + 1).sum)
    omega

/-- A list takes at least as much as its items do. -/
theorem mul_le_jsonBytes {items : List (Json F)} {n : Nat} (h : ∀ v ∈ items, n ≤ jsonBytes v) :
    items.length * n ≤ jsonBytes (.arr items) := by
  by_cases hne : items = []
  · rw [hne, List.length_nil, Nat.zero_mul]
    exact Nat.zero_le _
  · have hsum : items.length * n ≤ (items.map fun v => jsonBytes v + 1).sum := by
      clear hne
      induction items with
      | nil => simp
      | cons v rest ih =>
        have hv := h v List.mem_cons_self
        have hrest := ih fun w hw => h w (List.mem_cons_of_mem _ hw)
        rw [List.length_cons, List.map_cons, List.sum_cons, Nat.succ_mul]
        omega
    rw [jsonBytes_arr hne]
    omega

theorem jsonBytes_str (s : String) : jsonBytes (.str s : Json F) = quotedBytes s := by
  rw [jsonBytes, Json.sortKeys, Json.dumps, quotedBytes]
  all_goals simp

/-- **An object takes one byte, and for each field its key, its value and two bytes.** -/
theorem jsonBytes_obj {fields : List (String × Json F)} (h : fields ≠ []) :
    jsonBytes (.obj fields) = 1 + (fields.map fun field => quotedBytes field.1 + jsonBytes field.2 + 2).sum := by
  have hperm : (Json.sortedFields fields).Perm (fields.map fun field => (field.1, field.2.sortKeys)) :=
    List.perm_insertionSort Json.keyBefore _
  have hne : Json.sortedFields fields ≠ [] := by
    intro hnil
    rw [hnil] at hperm
    exact h (List.map_eq_nil_iff.mp hperm.symm.eq_nil)
  rw [jsonBytes, Json.sortKeys_obj, byteLength_dumps_obj hne, (hperm.map fieldBytes).sum_eq, List.map_map]
  rfl

theorem jsonBytes_obj_nil : jsonBytes (.obj [] : Json F) = 2 := by
  rw [jsonBytes, Json.sortKeys_obj]
  rfl

theorem field_le_jsonBytes {fields : List (String × Json F)} {field : String × Json F} (h : field ∈ fields) :
    quotedBytes field.1 + jsonBytes field.2 + 2 ≤ jsonBytes (.obj fields) := by
  rw [jsonBytes_obj (List.ne_nil_of_mem h)]
  have hsum := List.single_le_sum (fun _ _ => Nat.zero_le _) _
    (List.mem_map_of_mem (f := fun field => quotedBytes field.1 + jsonBytes field.2 + 2) h)
  omega

/-- The order of the fields does not matter. -/
theorem jsonBytes_perm {fields fields' : List (String × Json F)} (h : fields.Perm fields') :
    jsonBytes (.obj fields) = jsonBytes (.obj fields') := by
  by_cases hne : fields = []
  · subst hne
    rw [h.symm.eq_nil]
  · have hne' : fields' ≠ [] := fun hnil => hne (by rw [hnil] at h; exact h.eq_nil)
    rw [jsonBytes_obj hne, jsonBytes_obj hne', (h.map _).sum_eq]

/-- An object with fewer fields takes no more. -/
theorem jsonBytes_sublist_le {fields fields' : List (String × Json F)} (h : fields.Sublist fields') :
    jsonBytes (.obj fields) ≤ jsonBytes (.obj fields') := by
  by_cases hne : fields = []
  · subst hne
    rw [jsonBytes_obj_nil]
    cases fields' with
    | nil => exact le_of_eq jsonBytes_obj_nil.symm
    | cons field rest =>
      have hfield := @field_le_jsonBytes F _ (field :: rest) field List.mem_cons_self
      omega
  · have hne' : fields' ≠ [] := fun hnil => hne (by rw [hnil] at h; exact List.sublist_nil.mp h)
    rw [jsonBytes_obj hne, jsonBytes_obj hne']
    exact Nat.add_le_add_left ((h.map _).sum_le_sum fun _ _ => Nat.zero_le _) 1

theorem length_le_jsonBytes (s : String) : s.toList.length ≤ jsonBytes (.str s : Json F) := by
  rw [jsonBytes_str]
  exact length_le_quotedBytes s

end

end CodexMemory.Hooks
