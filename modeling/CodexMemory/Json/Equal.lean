import CodexMemory.Json.Parse
import Mathlib

/-!
# Python's `==` on JSON values

`True == 1 == 1.0`, and two dictionaries are equal when they have the same
keys with equal values, in any order.  Where no key occurs twice, a value is
equal to itself (`equal_refl`).
-/

namespace CodexMemory.Json

variable {F : Type}

/-- The number that a value is for `==`; `value` is that of a float. -/
def number (value : F → Rat) : Json F → Option Rat
  | .bool b => some (if b then 1 else 0)
  | .int n => some n
  | .float x => some (value x)
  | _ => none

mutual

/-- `a == b` -/
def equal (value : F → Rat) : Json F → Json F → Bool
  | .null, .null => true
  | .str s, .str t => decide (s = t)
  | .arr items, .arr items' => equalItems value items items'
  | .obj fields, .obj fields' => decide (fields.length = fields'.length) && equalFields value fields fields'
  | .bool b, w => decide (number value w = some (if b then 1 else 0))
  | .int n, w => decide (number value w = some (n : Rat))
  | .float x, w => decide (number value w = some (value x))
  | _, _ => false

def equalItems (value : F → Rat) : List (Json F) → List (Json F) → Bool
  | [], [] => true
  | v :: rest, w :: rest' => equal value v w && equalItems value rest rest'
  | _, _ => false

/-- Every field has its like among the others. -/
def equalFields (value : F → Rat) : List (String × Json F) → List (String × Json F) → Bool
  | [], _ => true
  | (k, v) :: rest, fields' =>
    (match fields'.lookup k with
      | some w => equal value v w
      | none => false) && equalFields value rest fields'

end

theorem equalItems_refl {value : F → Rat} {items : List (Json F)} (h : ∀ v ∈ items, equal value v v = true) :
    equalItems value items items = true := by
  induction items with
  | nil => rfl
  | cons v rest ih =>
    rw [equalItems, h v List.mem_cons_self, ih fun w hw => h w (List.mem_cons_of_mem v hw)]
    rfl

theorem lookup_of_mem {fields : List (String × Json F)} (hkeys : (fields.map Prod.fst).Nodup)
    {field : String × Json F} (h : field ∈ fields) : fields.lookup field.1 = some field.2 := by
  induction fields with
  | nil => cases h
  | cons first rest ih =>
    rw [List.map_cons, List.nodup_cons] at hkeys
    rcases List.mem_cons.mp h with rfl | hrest
    · simp [List.lookup]
    · have hne : field.1 ≠ first.1 := by
        intro heq
        exact hkeys.1 (heq ▸ List.mem_map_of_mem hrest)
      rw [List.lookup_cons, beq_false_of_ne hne, ih hkeys.2 hrest]

theorem equalFields_of_mem {value : F → Rat} {fields fields' : List (String × Json F)}
    (hkeys : (fields'.map Prod.fst).Nodup) (hmem : ∀ field ∈ fields, field ∈ fields')
    (h : ∀ field ∈ fields, equal value field.2 field.2 = true) : equalFields value fields fields' = true := by
  induction fields with
  | nil => rfl
  | cons first rest ih =>
    obtain ⟨k, v⟩ := first
    have hfirst := lookup_of_mem hkeys (hmem (k, v) List.mem_cons_self)
    rw [equalFields, hfirst, ih (fun f hf => hmem f (List.mem_cons_of_mem _ hf))
      fun f hf => h f (List.mem_cons_of_mem _ hf)]
    simpa using h (k, v) List.mem_cons_self

/-- **A value is equal to itself.** -/
theorem equal_refl (value : F → Rat) (v : Json F) (h : unique v = true) : equal value v v = true := by
  induction v using Json.induction with
  | null => rfl
  | bool b => simp [equal, number]
  | int n => simp [equal, number]
  | float x => simp [equal, number]
  | str s => simp [equal]
  | arr items ih =>
    rw [unique, uniqueItems_eq_true] at h
    exact equalItems_refl fun v hv => ih v hv (h v hv)
  | obj fields ih =>
    rw [unique, Bool.and_eq_true, decide_eq_true_eq, uniqueFields_eq_true] at h
    have hfields := equalFields_of_mem h.1 (fun _ hf => hf) fun field hf => ih field hf (h.2 field hf)
    rw [equal, hfields]
    simp

end CodexMemory.Json
