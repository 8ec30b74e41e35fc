import CodexMemory.OpenApi.Document

/-!
# The two walkers of `api_operations.py`

`_normalize_openapi_document` goes through a document and hands what stands
under `schema`, or in the schemas of the components, to `_normalize_schema`.
A value under a key of data is only put in key order (`_canonical`).
-/

namespace CodexMemory.OpenApi

variable {F : Type}

/-- `_canonical` -/
def canonical (v : Json F) : Json F := v.sortKeys

/-- `key.startswith("x-")` -/
def isExtension (key : String) : Bool := ['x', '-'].isPrefixOf key.toList

/-- The keys whose values are data in a document. -/
def isDocumentData (key : String) : Bool :=
  key ∈ ["example", "default", "enum", "const", "value"] || isExtension key

/-- The keys whose values are data in a schema. -/
def isSchemaData (key : String) : Bool :=
  key ∈ ["example", "examples", "default", "enum", "const"] || isExtension key

def schemaMapKeywords : List String := ["properties", "patternProperties", "dependentSchemas", "$defs", "definitions"]

def schemaListKeywords : List String := ["allOf", "anyOf", "oneOf", "prefixItems"]

/-- The keywords with one schema. -/
def schemaKeywords : List String :=
  ["items", "contains", "additionalProperties", "unevaluatedProperties", "propertyNames", "not", "if", "then", "else",
    "contentSchema"]

/-- `isinstance(value, list)` -/
def isList : Json F → Bool
  | .arr _ => true
  | _ => false

/-- `normalized.pop(key, None)` -/
def popField (key : String) (fields : List (String × Json F)) : List (String × Json F) :=
  fields.filter fun f => f.1 ≠ key

/-- `float(number)` of an integer raises from here on. -/
def floatOverflow : Int := 2 ^ 1024 - 2 ^ 970

/-- The bound of an exclusive flag: an `int` or a finite `float`, and no `bool`. -/
def boundNumber [DocumentFloat F] (path : String) : Option (Json F) → Except Failure (Json F)
  | some (.int n) => if floatOverflow ≤ n ∨ n ≤ -floatOverflow then .error .overflow else .ok (.int n)
  | some (.float x) =>
    if DocumentFloat.isFinite x then .ok (.float x)
    else rejectAt "lossy_normalization" "无法无损归一化 OpenAPI 3.0.3 排他边界" path []
  | _ => rejectAt "lossy_normalization" "无法无损归一化 OpenAPI 3.0.3 排他边界" path []

/-- One round of the loop over the exclusive bounds; `fields` are those of the schema. -/
def exclusiveBound [DocumentFloat F] (path : String) (fields : List (String × Json F)) (bound exclusive : String)
    (normalized : List (String × Json F)) : Except Failure (List (String × Json F)) :=
  match fields.lookup exclusive with
  | some (.bool false) => .ok (popField exclusive normalized)
  | some (.bool true) => do
    let number ← boundNumber (childPath path exclusive) (fields.lookup bound)
    return Json.setField exclusive number (popField bound normalized)
  | _ => .ok normalized

def exclusiveBounds [DocumentFloat F] (path : String) (fields normalized : List (String × Json F)) :
    Except Failure (List (String × Json F)) := do
  let normalized ← exclusiveBound path fields "minimum" "exclusiveMinimum" normalized
  exclusiveBound path fields "maximum" "exclusiveMaximum" normalized

/-- `list(dict.fromkeys(..))` for names of types: the first of each. -/
def fromkeys : List (Json F) → List (Json F)
  | [] => []
  | .str s :: rest => .str s :: (fromkeys rest).filter fun t => match t with | .str u => decide (u ≠ s) | _ => true
  | t :: rest => t :: fromkeys rest

/-- `list(dict.fromkeys([*types, "null"]))` -/
def withNull (types : List (Json F)) : List (Json F) := fromkeys (types ++ [.str "null"])

/-- A schema that is `nullable`. -/
def nullableSchema (schema : List (String × Json F)) : Json F :=
  match schema.lookup "type" with
  | some (.str type) => .obj (Json.setField "type" (.arr [.str type, .str "null"]) schema)
  | some (.arr types) => .obj (Json.setField "type" (.arr (withNull types)) schema)
  | _ => .obj [("anyOf", .arr [.obj schema, .obj [("type", .str "null")]])]

/-- `dict.fromkeys` raises for a dictionary or a list among the types. -/
def unhashableTypes (schema : List (String × Json F)) : Bool :=
  match schema.lookup "type" with
  | some (.arr types) => types.any fun type => type.isObject || isList type
  | _ => false

/-- What is done to a schema after its fields. -/
def finishSchema [DocumentFloat F] (from30 : Bool) (path : String) (fields normalized : List (String × Json F)) :
    Except Failure (Json F) :=
  if from30 then do
    let normalized ← exclusiveBounds path fields normalized
    match fields.lookup "nullable" with
    | some (.bool true) => if unhashableTypes normalized then .error .type else return nullableSchema normalized
    | _ => return .obj normalized
  else .ok (.obj normalized)

section Walkers

variable [DocumentFloat F]

mutual

/-- `_normalize_openapi_document` -/
def normalizeDocument (from30 : Bool) (path : String) : Json F → Except Failure (Json F)
  | .arr items => do return .arr (← normalizeItems from30 path 0 items)
  | .obj fields => do return .obj (← normalizeFields from30 path fields)
  | v => .ok v

def normalizeItems (from30 : Bool) (path : String) (index : Nat) : List (Json F) → Except Failure (List (Json F))
  | [] => .ok []
  | v :: rest => do
    let v ← normalizeDocument from30 (indexPath path index) v
    return v :: (← normalizeItems from30 path (index + 1) rest)

def normalizeFields (from30 : Bool) (path : String) :
    List (String × Json F) → Except Failure (List (String × Json F))
  | [] => .ok []
  | (key, v) :: rest => do
    let v ← (
      if key = "schema" then normalizeSchema from30 (childPath path key) v
      else if path = "/components" ∧ key = "schemas" ∧ v.isObject then normalizeMap from30 (childPath path key) v
      else if isDocumentData key then .ok (canonical v)
      else normalizeDocument from30 (childPath path key) v)
    return (key, v) :: (← normalizeFields from30 path rest)

/-- `_normalize_schema` -/
def normalizeSchema (from30 : Bool) (path : String) : Json F → Except Failure (Json F)
  | .obj fields => do finishSchema from30 path fields (← normalizeSchemaFields from30 path fields)
  | v => .ok v

def normalizeSchemaFields (from30 : Bool) (path : String) :
    List (String × Json F) → Except Failure (List (String × Json F))
  | [] => .ok []
  | (key, v) :: rest =>
    if from30 && key = "nullable" then normalizeSchemaFields from30 path rest
    else do
      let child := path ++ "/" ++ key
      let v ← (
        if isSchemaData key then .ok (canonical v)
        else if key ∈ schemaMapKeywords ∧ v.isObject then normalizeMap from30 child v
        else if key ∈ schemaListKeywords ∧ isList v then normalizeList from30 child v
        else if key ∈ schemaKeywords ∧ v.isObject then normalizeSchema from30 child v
        else if key = "dependencies" ∧ v.isObject then normalizeDependencies from30 child v
        else normalizeDocument from30 child v)
      return (key, v) :: (← normalizeSchemaFields from30 path rest)

/-- A dictionary of schemas. -/
def normalizeMap (from30 : Bool) (path : String) : Json F → Except Failure (Json F)
  | .obj fields => do return .obj (← normalizeEntries from30 path fields)
  | v => .ok v

def normalizeEntries (from30 : Bool) (path : String) :
    List (String × Json F) → Except Failure (List (String × Json F))
  | [] => .ok []
  | (name, v) :: rest => do
    let v ← normalizeSchema from30 (path ++ "/" ++ name) v
    return (name, v) :: (← normalizeEntries from30 path rest)

/-- A list of schemas. -/
def normalizeList (from30 : Bool) (path : String) : Json F → Except Failure (Json F)
  | .arr items => do return .arr (← normalizeSchemas from30 path 0 items)
  | v => .ok v

def normalizeSchemas (from30 : Bool) (path : String) (index : Nat) : List (Json F) → Except Failure (List (Json F))
  | [] => .ok []
  | v :: rest => do
    let v ← normalizeSchema from30 (indexPath path index) v
    return v :: (← normalizeSchemas from30 path (index + 1) rest)

/-- The value of `dependencies`. -/
def normalizeDependencies (from30 : Bool) (path : String) : Json F → Except Failure (Json F)
  | .obj fields => do return .obj (← normalizeDependents from30 path fields)
  | v => .ok v

def normalizeDependents (from30 : Bool) (path : String) :
    List (String × Json F) → Except Failure (List (String × Json F))
  | [] => .ok []
  | (name, v) :: rest => do
    let v ← (if v.isObject then normalizeSchema from30 (path ++ "/" ++ name) v else .ok (canonical v))
    return (name, v) :: (← normalizeDependents from30 path rest)

end

end Walkers

end CodexMemory.OpenApi
