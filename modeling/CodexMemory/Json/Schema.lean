import CodexMemory.Json.Sorted
import Mathlib.Algebra.Order.Ring.Unbundled.Rat

/-!
# Schemas and the values that satisfy them

The keywords with which JSON Schema builds schemas from schemas: `properties`,
`additionalProperties`, `items`, `allOf`, `anyOf`, `oneOf` and `not`.  What the
other keywords say differs between versions and is a parameter (`Dialect`).
Values have exact numbers, and an object is what it has under each key.
-/

namespace CodexMemory.Json

/-- A value with exact numbers. -/
inductive Value
  | null
  | bool (b : Bool)
  | num (q : Rat)
  | str (s : String)
  | arr (items : List Value)
  | obj (fields : String → Option Value)

variable {F : Type}

/-- A predicate on values. -/
abbrev Pred := Value → Prop

mutual

/-- The value that is written; `exact` is the number that a float is. -/
def denote (exact : F → Rat) : Json F → Value
  | .null => .null
  | .bool b => .bool b
  | .int n => .num n
  | .float x => .num (exact x)
  | .str s => .str s
  | .arr items => .arr (denoteItems exact items)
  | .obj fields => .obj fun key => (denoteFields exact fields).lookup key

def denoteItems (exact : F → Rat) : List (Json F) → List Value
  | [] => []
  | v :: rest => denote exact v :: denoteItems exact rest

def denoteFields (exact : F → Rat) : List (String × Json F) → List (String × Value)
  | [] => []
  | (key, v) :: rest => (key, denote exact v) :: denoteFields exact rest

end

theorem denoteItems_eq (exact : F → Rat) (items : List (Json F)) :
    denoteItems exact items = items.map (denote exact) := by
  induction items with
  | nil => rfl
  | cons v rest ih => rw [denoteItems, ih, List.map_cons]

theorem denoteFields_eq (exact : F → Rat) (fields : List (String × Json F)) :
    denoteFields exact fields = fields.map fun f => (f.1, denote exact f.2) := by
  induction fields with
  | nil => rfl
  | cons f rest ih => rw [denoteFields, ih, List.map_cons]

/-- The order of keys does not matter. -/
theorem denote_sortKeys (exact : F → Rat) (v : Json F) : denote exact (sortKeys v) = denote exact v := by
  induction v using induction with
  | null | bool b | int n | float x | str s => rfl
  | arr items ih =>
    rw [sortKeys_arr, denote, denote, denoteItems_eq, denoteItems_eq, List.map_map]
    exact congrArg _ (List.map_congr_left fun v hv => ih v hv)
  | obj fields ih =>
    rw [sortKeys_obj, denote, denote, Value.obj.injEq]
    funext key
    rw [denoteFields_eq, denoteFields_eq, lookup_map_snd, lookup_map_snd, lookup_sorted, Option.map_map]
    cases hlookup : fields.lookup key with
    | none => rfl
    | some v =>
      have hmem : (key, v) ∈ fields := mem_of_lookup hlookup
      rw [Option.map_some, Option.map_some, Function.comp_apply, ih _ hmem]

/-! ## Satisfaction -/

/-- A version of JSON Schema: what its other keywords say of a value, next to the
fields of their schema. -/
structure Dialect (F : Type) where
  asserts : List (String × Json F) → String → Json F → Pred

/-- The names under `properties`. -/
def propertyNames (fields : List (String × Json F)) : List String :=
  match fields.lookup "properties" with
  | some (.obj properties) => properties.map Prod.fst
  | _ => []

/-- What the keyword `key` with the argument `s` says; `one`, `many` and `named` are what
its argument says as a schema, as a list and as a dictionary of schemas. -/
def Keyword (d : Dialect F) (fields : List (String × Json F)) (key : String) (s : Json F) (one : Pred)
    (many : List Pred) (named : List (String × Pred)) (v : Value) : Prop :=
  if key = "properties" then
    ∀ object, v = .obj object → ∀ name p, (name, p) ∈ named → ∀ w, object name = some w → p w
  else if key = "additionalProperties" then
    ∀ object, v = .obj object → ∀ name w, object name = some w → name ∉ propertyNames fields → one w
  else if key = "items" then ∀ items, v = .arr items → ∀ w ∈ items, one w
  else if key = "not" then ¬ one v
  else if key = "allOf" then ∀ p ∈ many, p v
  else if key = "anyOf" then ∃ p ∈ many, p v
  else if key = "oneOf" then
    ∃ (i : Nat) (p : Pred), many[i]? = some p ∧ p v ∧ ∀ (j : Nat) (q : Pred), many[j]? = some q → q v → j = i
  else d.asserts fields key s v

mutual

/-- The value satisfies the schema. -/
def Satisfies (d : Dialect F) : Json F → Pred
  | .bool b => fun _ => b = true
  | .obj fields => fun v => SatisfiesFields d fields fields v
  | _ => fun _ => False

/-- The value satisfies the keywords of a schema with the fields `all`. -/
def SatisfiesFields (d : Dialect F) (all : List (String × Json F)) : List (String × Json F) → Pred
  | [] => fun _ => True
  | (key, s) :: rest => fun v =>
    Keyword d all key s (Satisfies d s) (schemasOf d s) (namedSchemasOf d s) v ∧ SatisfiesFields d all rest v

/-- A list of schemas. -/
def schemasOf (d : Dialect F) : Json F → List Pred
  | .arr items => satisfiesEach d items
  | _ => []

def satisfiesEach (d : Dialect F) : List (Json F) → List Pred
  | [] => []
  | s :: rest => Satisfies d s :: satisfiesEach d rest

/-- A dictionary of schemas. -/
def namedSchemasOf (d : Dialect F) : Json F → List (String × Pred)
  | .obj fields => satisfiesNamed d fields
  | _ => []

def satisfiesNamed (d : Dialect F) : List (String × Json F) → List (String × Pred)
  | [] => []
  | (name, s) :: rest => (name, Satisfies d s) :: satisfiesNamed d rest

end

theorem satisfiesEach_eq (d : Dialect F) (items : List (Json F)) : satisfiesEach d items = items.map (Satisfies d) := by
  induction items with
  | nil => rfl
  | cons s rest ih => rw [satisfiesEach, ih, List.map_cons]

theorem satisfiesNamed_eq (d : Dialect F) (fields : List (String × Json F)) :
    satisfiesNamed d fields = fields.map fun f => (f.1, Satisfies d f.2) := by
  induction fields with
  | nil => rfl
  | cons f rest ih => rw [satisfiesNamed, ih, List.map_cons]

/-- What the field `key` of a schema says. -/
def Says (d : Dialect F) (fields : List (String × Json F)) (key : String) (v : Value) : Prop :=
  ∀ s, fields.lookup key = some s → Keyword d fields key s (Satisfies d s) (schemasOf d s) (namedSchemasOf d s) v

/-- **A schema says what its fields say.** -/
theorem satisfies_obj (d : Dialect F) {fields : List (String × Json F)} (hnodup : (fields.map Prod.fst).Nodup)
    (v : Value) : Satisfies d (.obj fields) v ↔ ∀ key, Says d fields key v := by
  have hfields : ∀ all rest : List (String × Json F), SatisfiesFields d all rest v ↔
      ∀ f ∈ rest, Keyword d all f.1 f.2 (Satisfies d f.2) (schemasOf d f.2) (namedSchemasOf d f.2) v := by
    intro all rest
    induction rest with
    | nil => exact iff_of_true trivial nofun
    | cons f rest ih =>
      rw [List.forall_mem_cons, ← ih]
      exact Iff.rfl
  refine (hfields fields fields).trans ?_
  constructor
  · intro h key s hlookup
    exact h _ (mem_of_lookup hlookup)
  · intro h f hf
    exact h f.1 f.2 (lookup_of_nodup hnodup hf)

end CodexMemory.Json
