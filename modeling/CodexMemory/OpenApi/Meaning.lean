import CodexMemory.Json.Schema
import CodexMemory.OpenApi.Accepted
import CodexMemory.OpenApi.Images
import Mathlib

/-!
# What schemas say, before and after

The keywords of a Schema Object of OpenAPI 3.0.3 and of a schema of JSON Schema
2020-12, as two dialects over values with exact numbers.  The main result is
`normalizeSchema_meaning`: for the schemas `Schema30` the normal form says of
every value what the schema says.
-/

namespace CodexMemory.OpenApi

open Json (Value Pred Dialect Satisfies Keyword Says schemasOf namedSchemasOf propertyNames)

variable {F : Type}

/-! ## The two dialects -/

/-- A value has the type with the name; an integer is a number without a fraction. -/
def HasType (name : String) : Value → Prop
  | .null => name = "null"
  | .bool _ => name = "boolean"
  | .num q => name = "number" ∨ (name = "integer" ∧ q.den = 1)
  | .str _ => name = "string"
  | .arr _ => name = "array"
  | .obj _ => name = "object"

/-- The number that is written. -/
def numberOf (exact : F → Rat) : Json F → Option Rat
  | .int n => some n
  | .float x => some (exact x)
  | _ => none

/-- A number lies on the right side of a bound: `strictly` where the bound is exclusive. -/
def Bounded (exact : F → Rat) (within strictly : Rat → Rat → Prop) (exclusive : Prop) (s : Json F) (v : Value) : Prop :=
  ∃ q, numberOf exact s = some q ∧
    ∀ x, v = .num x → (exclusive → strictly q x) ∧ (¬ exclusive → within q x)

/-- The value is one of those that are listed. -/
def OneOf (exact : F → Rat) (s : Json F) (v : Value) : Prop :=
  ∃ items, s = .arr items ∧ ∃ e ∈ items, Json.denote exact e = v

/-- The Schema Object of OpenAPI 3.0.3: `nullable` adds null to the type, and a bound is exclusive
when a flag says so. -/
def dialect30 (exact : F → Rat) : Dialect F where
  asserts fields key s v :=
    if key = "type" then
      (∃ name, s = .str name ∧ HasType name v) ∨ (fields.lookup "nullable" = some (.bool true) ∧ v = .null)
    else if key = "minimum" then
      Bounded exact (· ≤ ·) (· < ·) (fields.lookup "exclusiveMinimum" = some (.bool true)) s v
    else if key = "maximum" then
      Bounded exact (· ≥ ·) (· > ·) (fields.lookup "exclusiveMaximum" = some (.bool true)) s v
    else if key = "enum" then OneOf exact s v
    else True

/-- JSON Schema 2020-12: there may be several types, and an exclusive bound is a keyword of its own. -/
def dialect2020 (exact : F → Rat) : Dialect F where
  asserts _ key s v :=
    if key = "type" then
      (∃ name, s = .str name ∧ HasType name v) ∨ (∃ names, s = .arr names ∧ ∃ name, .str name ∈ names ∧ HasType name v)
    else if key = "minimum" then Bounded exact (· ≤ ·) (· < ·) False s v
    else if key = "exclusiveMinimum" then Bounded exact (· ≤ ·) (· < ·) True s v
    else if key = "maximum" then Bounded exact (· ≥ ·) (· > ·) False s v
    else if key = "exclusiveMaximum" then Bounded exact (· ≥ ·) (· > ·) True s v
    else if key = "enum" then OneOf exact s v
    else True

/-! ## Schema Objects -/

def isNumber : Json F → Bool
  | .int _ => true
  | .float _ => true
  | _ => false

mutual

/-- A Schema Object of OpenAPI 3.0.3 that is built from these keywords. -/
inductive Schema30 : Json F → Prop
  | mk (fields : List (String × Json F)) (keywords : ∀ f ∈ fields, Keyword30 fields f.1 f.2) : Schema30 (.obj fields)

/-- A keyword of the Schema Object with the fields `all`. -/
inductive Keyword30 : List (String × Json F) → String → Json F → Prop
  | type {all : List (String × Json F)} (name : String) : Keyword30 all "type" (.str name)
  | nullable {all : List (String × Json F)} (b : Bool) (typed : all.lookup "type" ≠ none) :
      Keyword30 all "nullable" (.bool b)
  | bound {all : List (String × Json F)} {key : String} {s : Json F} (isBound : key = "minimum" ∨ key = "maximum")
      (number : isNumber s = true) : Keyword30 all key s
  | flag {all : List (String × Json F)} {key : String} (b : Bool)
      (isFlag : key = "exclusiveMinimum" ∨ key = "exclusiveMaximum") : Keyword30 all key (.bool b)
  | enum {all : List (String × Json F)} (items : List (Json F)) : Keyword30 all "enum" (.arr items)
  | properties {all : List (String × Json F)} (properties : List (String × Json F))
      (schemas : ∀ f ∈ properties, Schema30 f.2) : Keyword30 all "properties" (.obj properties)
  | additional {all : List (String × Json F)} (b : Bool) : Keyword30 all "additionalProperties" (.bool b)
  | schema {all : List (String × Json F)} {key : String} {s : Json F}
      (isSchema : key = "items" ∨ key = "additionalProperties" ∨ key = "not") (schema : Schema30 s) :
      Keyword30 all key s
  | list {all : List (String × Json F)} {key : String} (items : List (Json F))
      (isList : key = "allOf" ∨ key = "anyOf" ∨ key = "oneOf") (schemas : ∀ s ∈ items, Schema30 s) :
      Keyword30 all key (.arr items)

end

theorem Keyword30.type_inv {all : List (String × Json F)} {key : String} {s : Json F} (h : Keyword30 all key s)
    (hkey : key = "type") :
    ∃ name, s = .str name := by
  cases h with
  | type name => exact ⟨name, rfl⟩
  | bound isBound number => simp [hkey] at isBound
  | flag b isFlag => simp [hkey] at isFlag
  | schema isSchema schema => simp [hkey] at isSchema
  | list items isList schemas => simp [hkey] at isList
  | nullable | enum | properties | additional => simp at hkey

theorem Keyword30.nullable_inv {all : List (String × Json F)} {key : String} {s : Json F} (h : Keyword30 all key s)
    (hkey : key = "nullable") :
    all.lookup "type" ≠ none := by
  cases h with
  | nullable b typed => exact typed
  | bound isBound number => simp [hkey] at isBound
  | flag b isFlag => simp [hkey] at isFlag
  | schema isSchema schema => simp [hkey] at isSchema
  | list items isList schemas => simp [hkey] at isList
  | type | enum | properties | additional => simp at hkey

theorem Keyword30.bound_inv {all : List (String × Json F)} {key : String} {s : Json F} (h : Keyword30 all key s)
    (hkey : key = "minimum" ∨ key = "maximum") : isNumber s = true := by
  cases h with
  | bound isBound number => exact number
  | type | nullable | enum | properties | additional => simp at hkey
  | flag b isFlag => rcases hkey with rfl | rfl <;> simp at isFlag
  | schema isSchema schema => rcases hkey with rfl | rfl <;> simp at isSchema
  | list items isList schemas => rcases hkey with rfl | rfl <;> simp at isList

theorem Keyword30.flag_inv {all : List (String × Json F)} {key : String} {s : Json F} (h : Keyword30 all key s)
    (hkey : key = "exclusiveMinimum" ∨ key = "exclusiveMaximum") : ∃ b, s = .bool b := by
  cases h with
  | flag b isFlag => exact ⟨b, rfl⟩
  | type | nullable | enum | properties | additional => simp at hkey
  | bound isBound number => rcases hkey with rfl | rfl <;> simp at isBound
  | schema isSchema schema => rcases hkey with rfl | rfl <;> simp at isSchema
  | list items isList schemas => rcases hkey with rfl | rfl <;> simp at isList

theorem Keyword30.properties_inv {all : List (String × Json F)} {key : String} {s : Json F} (h : Keyword30 all key s)
    (hkey : key = "properties") :
    ∃ properties, s = .obj properties ∧ ∀ f ∈ properties, Schema30 f.2 := by
  cases h with
  | properties properties schemas => exact ⟨properties, rfl, schemas⟩
  | bound isBound number => simp [hkey] at isBound
  | flag b isFlag => simp [hkey] at isFlag
  | schema isSchema schema => simp [hkey] at isSchema
  | list items isList schemas => simp [hkey] at isList
  | type | nullable | enum | additional => simp at hkey

theorem Keyword30.ne_components {all : List (String × Json F)} {key : String} {s : Json F} (h : Keyword30 all key s) :
    key ≠ "components" := by
  cases h with
  | type | nullable | enum | properties | additional => decide
  | bound isBound number => rcases isBound with rfl | rfl <;> decide
  | flag b isFlag => rcases isFlag with rfl | rfl <;> decide
  | schema isSchema schema => rcases isSchema with rfl | rfl | rfl <;> decide
  | list items isList schemas => rcases isList with rfl | rfl | rfl <;> decide

/-- A schema that is nullable has a type, so that it is not wrapped. -/
theorem not_wraps {fields : List (String × Json F)} (keywords : ∀ f ∈ fields, Keyword30 fields f.1 f.2) :
    wraps fields = false := by
  rw [wraps, Bool.and_eq_false_imp]
  intro hnullable
  have htyped := (keywords _ (Json.mem_of_lookup (isNullable_eq.mp hnullable))).nullable_inv rfl
  cases htype : fields.lookup "type" with
  | none => exact absurd htype htyped
  | some s =>
    obtain ⟨name, rfl⟩ := (keywords _ (Json.mem_of_lookup htype)).type_inv rfl
    rw [hasType, htype]
    rfl

/-! ## The same keywords -/

section

variable [DocumentFloat F] (exact : F → Rat)

/-- A schema and its normal form say the same. -/
def SameMeaning (s w : Json F) : Prop := Satisfies (dialect30 exact) s = Satisfies (dialect2020 exact) w

/-- The number under a key is kept. -/
theorem kept_number {fields ws : List (String × Json F)} {key : String} (h : Kept true .schema fields ws key)
    (hnumber : ∀ s, fields.lookup key = some s → isNumber s = true) : ws.lookup key = fields.lookup key := by
  rcases h with ⟨hfields, hws⟩ | ⟨v, w, hfields, hws, hnormal⟩
  · rw [hfields, hws]
  · have hv := hnumber v hfields
    rw [hfields, hws]
    cases v with
    | int n | float x => exact hnormal.symm
    | null | bool b | str s | arr items | obj fields => cases hv

/-- **A bound and its flag**, in the end one bound that is exclusive or not. -/
theorem bounds_same (within strictly : Rat → Rat → Prop) {fields ws : List (String × Json F)} {bound exclusive : String}
    (himage : BoundFields fields ws bound exclusive)
    (hbound : boundFlag fields exclusive ≠ some true → Kept true .schema fields ws bound)
    (hexclusive : boundFlag fields exclusive = none → Kept true .schema fields ws exclusive)
    (hnumber : ∀ s, fields.lookup bound = some s → isNumber s = true)
    (hflag : ∀ s, fields.lookup exclusive = some s → ∃ b, s = .bool b) (v : Value) :
    (∀ s, fields.lookup bound = some s →
        Bounded exact within strictly (fields.lookup exclusive = some (.bool true)) s v) ↔
      (∀ s, ws.lookup bound = some s → Bounded exact within strictly False s v) ∧
        ∀ s, ws.lookup exclusive = some s → Bounded exact within strictly True s v := by
  cases hcase : boundFlag fields exclusive with
  | none =>
    have hnone : fields.lookup exclusive = none := by
      cases hlookup : fields.lookup exclusive with
      | none => rfl
      | some s =>
        obtain ⟨b, rfl⟩ := hflag s hlookup
        rw [boundFlag_eq.mpr hlookup] at hcase
        cases hcase
    have hws : ws.lookup exclusive = none := by
      rcases hexclusive hcase with ⟨-, hws⟩ | ⟨v, w, hfields, -, -⟩
      · exact hws
      · rw [hnone] at hfields
        cases hfields
    rw [kept_number (hbound (by rw [hcase]; nofun)) hnumber, hws]
    simp [hnone]
  | some b =>
    have hlookup := boundFlag_eq.mp hcase
    cases b with
    | false =>
      rw [kept_number (hbound (by rw [hcase]; simp)) hnumber, himage.removed hcase]
      simp [hlookup]
    | true =>
      obtain ⟨hws, number, hfields, -, hmoved⟩ := himage.moved hcase
      simp [hlookup, hws, hfields, hmoved]

/-- The type, with null for a schema that is nullable. -/
theorem type_same {fields ws : List (String × Json F)} (himage : SchemaImage fields ws)
    (hname : ∀ s, fields.lookup "type" = some s → ∃ name, s = .str name) (v : Value) :
    Says (dialect30 exact) fields "type" v ↔ Says (dialect2020 exact) ws "type" v := by
  have hnull : HasType "null" v ↔ v = .null := by
    cases v <;> simp [HasType]
  cases hlookup : fields.lookup "type" with
  | none =>
    have hws : ws.lookup "type" = none := by
      rcases himage.kept "type" (by simp [changed, hasType, hlookup]) with ⟨-, hws⟩ | ⟨v, w, hfields, -, -⟩
      · exact hws
      · rw [hlookup] at hfields
        cases hfields
    simp [Says, hlookup, hws]
  | some s =>
    obtain ⟨name, rfl⟩ := hname s hlookup
    have hnullable : fields.lookup "nullable" = some (.bool true) ↔ isNullable fields = true := isNullable_eq.symm
    cases hcase : isNullable fields with
    | true =>
      simp [Says, Keyword, dialect30, dialect2020, hlookup, himage.typeName name hcase hlookup, hnullable, hcase, hnull]
    | false =>
      have hws : ws.lookup "type" = some (.str name) := by
        rcases himage.kept "type" (by simp [changed, hcase]) with ⟨hfields, -⟩ | ⟨v, w, hfields, hws, hnormal⟩
        · rw [hlookup] at hfields
          cases hfields
        · obtain rfl := Option.some.inj (hlookup.symm.trans hfields)
          rw [hws]
          exact hnormal.symm
      simp [Says, Keyword, dialect30, dialect2020, hlookup, hws, hnullable, hcase]

/-! ## Schemas in schemas -/

/-- Every schema below has the meaning of its normal form. -/
def Preserved (s : Json F) : Prop := Schema30 s → ∀ w, normalize true .schema s = some w → SameMeaning exact s w

theorem schemas_same {items ws : List (Json F)} (h : normalizeAll true .schema items = some ws)
    (hitems : ∀ s ∈ items, Schema30 s ∧ Preserved exact s) :
    schemasOf (dialect30 exact) (.arr items) = schemasOf (dialect2020 exact) (.arr ws) := by
  rw [schemasOf, schemasOf, Json.satisfiesEach_eq, Json.satisfiesEach_eq]
  have hall := normalizeAll_eq h
  clear h
  induction hall with
  | nil => rfl
  | @cons s w items ws hw hrest ih =>
    obtain ⟨hs, hpreserved⟩ := hitems s List.mem_cons_self
    rw [List.map_cons, List.map_cons, hpreserved hs w hw, ih fun t ht => hitems t (List.mem_cons_of_mem s ht)]

theorem named_same {fields ws : List (String × Json F)} (h : normalizeEach true .schemaMap fields = some ws)
    (hfields : ∀ f ∈ fields, Schema30 f.2 ∧ Preserved exact f.2) :
    namedSchemasOf (dialect30 exact) (.obj fields) = namedSchemasOf (dialect2020 exact) (.obj ws) ∧
      ws.map Prod.fst = fields.map Prod.fst := by
  rw [namedSchemasOf, namedSchemasOf, Json.satisfiesNamed_eq, Json.satisfiesNamed_eq]
  induction fields generalizing ws with
  | nil =>
    cases h
    exact ⟨rfl, rfl⟩
  | cons f rest ih =>
    obtain ⟨name, s⟩ := f
    obtain ⟨hs, hpreserved⟩ := hfields _ List.mem_cons_self
    rw [normalizeEach, if_neg (by simp [dropped])] at h
    obtain ⟨w, hw, h⟩ := Option.bind_eq_some_iff.mp h
    obtain ⟨ws', hws', h⟩ := Option.bind_eq_some_iff.mp h
    cases h
    obtain ⟨hrest, hkeys⟩ := ih hws' fun g hg => hfields g (List.mem_cons_of_mem _ hg)
    rw [List.map_cons, List.map_cons, List.map_cons, List.map_cons, hrest, hkeys, hpreserved hs w hw]
    exact ⟨rfl, rfl⟩

/-- The names of the properties stay. -/
theorem propertyNames_same {fields ws : List (String × Json F)} (hkept : Kept true .schema fields ws "properties")
    (hproperties : ∀ s, fields.lookup "properties" = some s → ∃ properties, s = .obj properties ∧
      ∀ f ∈ properties, Schema30 f.2 ∧ Preserved exact f.2) : propertyNames ws = propertyNames fields := by
  rcases hkept with ⟨hfields, hws⟩ | ⟨s, w, hfields, hws, hnormal⟩
  · rw [propertyNames, propertyNames, hfields, hws]
  · obtain ⟨properties, rfl, hschemas⟩ := hproperties s hfields
    obtain ⟨ws', rfl, hws', -⟩ := normalize_object (m := .schemaMap) nofun (by decide) hnormal
    rw [propertyNames, propertyNames, hfields, hws]
    exact (named_same exact hws' hschemas).2

/-- The keywords that are neither of the type nor of a bound. -/
theorem keyword_same {fields ws : List (String × Json F)} {key : String} {s w : Json F} (hkey : Keyword30 fields key s)
    (hnormal : normalize true (schemaChild key s) s = some w) (hnames : propertyNames ws = propertyNames fields)
    (hplain : key ∉ ["type", "nullable", "minimum", "maximum", "exclusiveMinimum", "exclusiveMaximum"])
    (hself : Preserved exact s) (hitems : ∀ items, s = .arr items → ∀ t ∈ items, Preserved exact t)
    (hfields : ∀ properties, s = .obj properties → ∀ f ∈ properties, Preserved exact f.2) (v : Value) :
    Keyword (dialect30 exact) fields key s (Satisfies (dialect30 exact) s) (schemasOf (dialect30 exact) s)
        (namedSchemasOf (dialect30 exact) s) v ↔
      Keyword (dialect2020 exact) ws key w (Satisfies (dialect2020 exact) w) (schemasOf (dialect2020 exact) w)
        (namedSchemasOf (dialect2020 exact) w) v := by
  cases hkey with
  | type name => exact absurd (by decide) hplain
  | nullable b typed => exact absurd (by decide) hplain
  | bound isBound number => rcases isBound with rfl | rfl <;> exact absurd (by decide) hplain
  | flag b isFlag => rcases isFlag with rfl | rfl <;> exact absurd (by decide) hplain
  | enum items =>
    have hw : w = canonical (.arr items) := by
      rw [show schemaChild "enum" (.arr items) = .data from rfl, canonical_of_data] at hnormal
      exact (Option.some.inj hnormal).symm
    subst hw
    simp [Keyword, dialect30, dialect2020, OneOf, canonical, Json.sortKeys_arr, Json.denote_sortKeys]
  | properties properties schemas =>
    obtain ⟨ws', rfl, hws', -⟩ := normalize_object (m := .schemaMap) nofun (by decide) hnormal
    have hnamed := (named_same exact hws' fun f hf => ⟨schemas f hf, hfields properties rfl f hf⟩).1
    simp only [Keyword, if_true, hnamed]
  | additional b =>
    cases hnormal
    simp [Keyword, hnames, Satisfies]
  | schema isSchema schema =>
    cases schema with
    | mk properties keywords =>
      have hw : normalize true .schema (.obj properties) = some w := by
        rw [← hnormal]
        rcases isSchema with rfl | rfl | rfl <;> rfl
      have hsame : Satisfies (dialect30 exact) (.obj properties) = Satisfies (dialect2020 exact) w :=
        hself (.mk properties keywords) w hw
      rcases isSchema with rfl | rfl | rfl <;> simp [Keyword, hsame, hnames]
  | list items isList schemas =>
    have hws : normalize true .schemaList (.arr items) = some w := by
      rw [← hnormal]
      rcases isList with rfl | rfl | rfl <;> rfl
    rw [normalize, if_neg (by decide)] at hws
    obtain ⟨ws', hws', rfl⟩ := Option.map_eq_some_iff.mp hws
    have hmany := schemas_same exact hws' fun t ht => ⟨schemas t ht, hitems items rfl t ht⟩
    rcases isList with rfl | rfl | rfl <;> simp [Keyword, hmany]

/-! ## The whole schema -/

/-- The fields of a schema say together what the fields of its normal form say. -/
theorem fields_same {fields ws : List (String × Json F)} (keywords : ∀ f ∈ fields, Keyword30 fields f.1 f.2)
    (himage : SchemaImage fields ws) (hself : ∀ f ∈ fields, Preserved exact f.2)
    (hitems : ∀ f ∈ fields, ∀ items, f.2 = .arr items → ∀ t ∈ items, Preserved exact t)
    (hfields : ∀ f ∈ fields, ∀ properties, f.2 = .obj properties → ∀ g ∈ properties, Preserved exact g.2) (v : Value) :
    (∀ key, Says (dialect30 exact) fields key v) ↔ ∀ key, Says (dialect2020 exact) ws key v := by
  have hkeyword : ∀ {key s}, fields.lookup key = some s → Keyword30 fields key s := fun h =>
    keywords _ (Json.mem_of_lookup h)
  have hnames : propertyNames ws = propertyNames fields := by
    refine propertyNames_same exact (himage.kept "properties" (by simp [changed])) fun s hs => ?_
    obtain ⟨properties, rfl, hschemas⟩ := (hkeyword hs).properties_inv rfl
    exact ⟨properties, rfl, fun f hf => ⟨hschemas f hf, hfields _ (Json.mem_of_lookup hs) properties rfl f hf⟩⟩
  have htype := type_same exact himage (fun s hs => (hkeyword hs).type_inv rfl) v
  have hminimum : Says (dialect30 exact) fields "minimum" v ↔
      Says (dialect2020 exact) ws "minimum" v ∧ Says (dialect2020 exact) ws "exclusiveMinimum" v := by
    have hsame := bounds_same exact (· ≤ ·) (· < ·) himage.minimum (fun h => himage.kept _ (by simp [changed, h]))
      (fun h => himage.kept _ (by simp [changed, h])) (fun s hs => (hkeyword hs).bound_inv (Or.inl rfl))
      (fun s hs => (hkeyword hs).flag_inv (Or.inl rfl)) v
    simpa [Says, Keyword, dialect30, dialect2020] using hsame
  have hmaximum : Says (dialect30 exact) fields "maximum" v ↔
      Says (dialect2020 exact) ws "maximum" v ∧ Says (dialect2020 exact) ws "exclusiveMaximum" v := by
    have hsame := bounds_same exact (· ≥ ·) (· > ·) himage.maximum (fun h => himage.kept _ (by simp [changed, h]))
      (fun h => himage.kept _ (by simp [changed, h])) (fun s hs => (hkeyword hs).bound_inv (Or.inr rfl))
      (fun s hs => (hkeyword hs).flag_inv (Or.inr rfl)) v
    simpa [Says, Keyword, dialect30, dialect2020] using hsame
  have hother : ∀ key, key ∉ ["type", "nullable", "minimum", "maximum", "exclusiveMinimum", "exclusiveMaximum"] →
      (Says (dialect30 exact) fields key v ↔ Says (dialect2020 exact) ws key v) := by
    intro key hplain
    have hchanged : changed fields key = false := by
      simp only [List.mem_cons, List.not_mem_nil, or_false, not_or] at hplain
      simp [changed, hplain]
    rcases himage.kept key hchanged with ⟨hnone, hws⟩ | ⟨s, w, hs, hw, hnormal⟩
    · simp [Says, hnone, hws]
    · have hmem := Json.mem_of_lookup hs
      have hsame := keyword_same exact (hkeyword hs) hnormal hnames hplain (hself _ hmem) (hitems _ hmem)
        (hfields _ hmem) v
      simpa [Says, hs, hw] using hsame
  -- `nullable` and the flags say nothing by themselves
  have hsilent : ∀ key, key ∈ ["nullable", "exclusiveMinimum", "exclusiveMaximum"] →
      Says (dialect30 exact) fields key v := by
    intro key hkey
    simp only [List.mem_cons, List.not_mem_nil, or_false] at hkey
    rcases hkey with rfl | rfl | rfl <;> simp [Says, Keyword, dialect30]
  constructor
  · intro h key
    by_cases hkey : key ∈ ["type", "nullable", "minimum", "maximum", "exclusiveMinimum", "exclusiveMaximum"]
    · simp only [List.mem_cons, List.not_mem_nil, or_false] at hkey
      rcases hkey with rfl | rfl | rfl | rfl | rfl | rfl
      · exact htype.mp (h _)
      · simp [Says, himage.nullable]
      · exact (hminimum.mp (h _)).1
      · exact (hmaximum.mp (h _)).1
      · exact (hminimum.mp (h _)).2
      · exact (hmaximum.mp (h _)).2
    · exact (hother key hkey).mp (h key)
  · intro h key
    by_cases hkey : key ∈ ["type", "nullable", "minimum", "maximum", "exclusiveMinimum", "exclusiveMaximum"]
    · simp only [List.mem_cons, List.not_mem_nil, or_false] at hkey
      rcases hkey with rfl | rfl | rfl | rfl | rfl | rfl
      · exact htype.mpr (h _)
      · exact hsilent _ (by decide)
      · exact hminimum.mpr ⟨h _, h _⟩
      · exact hmaximum.mpr ⟨h _, h _⟩
      · exact hsilent _ (by decide)
      · exact hsilent _ (by decide)
    · exact (hother key hkey).mpr (h key)

/-- Schemas, and the schemas in lists and dictionaries, keep their meaning. -/
theorem preserved (s : Json F) (hunique : Json.unique s = true) :
    Preserved exact s ∧ (∀ items, s = .arr items → ∀ t ∈ items, Preserved exact t) ∧
      ∀ fields, s = .obj fields → ∀ f ∈ fields, Preserved exact f.2 := by
  induction s using Json.induction with
  | null | bool b | int n | float x | str s => exact ⟨nofun, nofun, nofun⟩
  | arr items ih =>
    rw [Json.unique, Json.uniqueItems_eq_true] at hunique
    refine ⟨nofun, fun items' h t ht => ?_, nofun⟩
    cases h
    exact (ih t ht (hunique t ht)).1
  | obj fields ih =>
    have hfields := Json.unique_obj.mp hunique
    refine ⟨fun hschema w hw => ?_, nofun, fun fields' h f hf => ?_⟩
    · cases hschema with
      | mk _ keywords =>
        have hws := normalize_unique hw hunique
        obtain ⟨ws, himage, rfl⟩ := normalize_schema hw
        rw [not_wraps keywords, if_neg Bool.false_ne_true] at hws ⊢
        funext v
        rw [eq_iff_iff, Json.satisfies_obj _ hfields.1, Json.satisfies_obj _ (Json.unique_obj.mp hws).1]
        exact fields_same exact keywords himage (fun f hf => (ih f hf (hfields.2 f hf)).1)
          (fun f hf => (ih f hf (hfields.2 f hf)).2.1) (fun f hf => (ih f hf (hfields.2 f hf)).2.2) v
    · cases h
      exact (ih f hf (hfields.2 f hf)).1

/-- **Meaning is preserved.**  A value satisfies a Schema Object of OpenAPI 3.0.3 exactly when it
satisfies the normal form under JSON Schema 2020-12. -/
theorem normalizeSchema_meaning {path : String} {schema w : Json F} (hschema : Schema30 schema)
    (hunique : Json.unique schema = true) (h : normalizeSchema true path schema = .ok w) (v : Value) :
    Satisfies (dialect30 exact) schema v ↔ Satisfies (dialect2020 exact) w v := by
  have hnormal : normalize true .schema schema = some w := by
    cases hschema with
    | mk fields keywords =>
      exact (normalizeSchema_obj_eq true fun f hf => (keywords f hf).ne_components).mp h
  rw [(preserved exact schema hunique).1 hschema w hnormal]

end

/-- A whole number above a bound, or null, and not one of those listed. -/
def countSchema : Json Empty :=
  .obj [("type", .str "integer"), ("nullable", .bool true), ("minimum", .int 3), ("exclusiveMinimum", .bool true),
    ("not", .obj [("enum", .arr [.int 5, .int 7])])]

theorem countSchema_schema30 : Schema30 countSchema := by
  refine .mk _ fun f hf => ?_
  simp only [List.mem_cons, List.not_mem_nil, or_false] at hf
  rcases hf with rfl | rfl | rfl | rfl | rfl
  · exact .type "integer"
  · exact .nullable true (by decide)
  · exact .bound (Or.inl rfl) rfl
  · exact .flag true (Or.inl rfl)
  · refine .schema (Or.inr (Or.inr rfl)) (.mk _ fun g hg => ?_)
    rw [List.mem_singleton.mp hg]
    exact .enum _

theorem normalizeSchema_countSchema :
    normalizeSchema true "/components/schemas/Count" countSchema = .ok (.obj [("type", .arr [.str "integer", .str "null"]),
      ("exclusiveMinimum", .int 3), ("not", .obj [("enum", .arr [.int 5, .int 7])])]) := by
  have hnumber : ¬(floatOverflow ≤ 3 ∨ 3 ≤ -floatOverflow) := by decide +kernel
  have hfields : normalizeSchemaFields (F := Empty) true "/components/schemas/Count" [("type", .str "integer"),
      ("nullable", .bool true), ("minimum", .int 3), ("exclusiveMinimum", .bool true),
      ("not", .obj [("enum", .arr [.int 5, .int 7])])] = .ok [("type", .str "integer"), ("minimum", .int 3),
      ("exclusiveMinimum", .bool true), ("not", .obj [("enum", .arr [.int 5, .int 7])])] := rfl
  simp [countSchema, normalizeSchema, hfields, finishSchema, exclusiveBounds, exclusiveBound, boundNumber, hnumber,
    bind, Except.bind, pure, Except.pure, nullableSchema, unhashableTypes, popField, Json.setField, List.lookup]

theorem normalizeSchema_meaning_count :
    Satisfies (dialect30 Empty.elim) countSchema .null ↔
      Satisfies (dialect2020 Empty.elim)
        (.obj [("type", .arr [.str "integer", .str "null"]), ("exclusiveMinimum", .int 3),
          ("not", .obj [("enum", .arr [.int 5, .int 7])])]) .null :=
  normalizeSchema_meaning Empty.elim countSchema_schema30 (by decide) normalizeSchema_countSchema _

end CodexMemory.OpenApi
