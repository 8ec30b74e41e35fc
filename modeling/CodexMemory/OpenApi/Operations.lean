import CodexMemory.OpenApi.Normalize

/-!
# `parse_and_normalize_openapi`

The checks on a document, its operations, the Markdown and the whole parse.
-/

namespace CodexMemory.OpenApi

variable {F : Type}

/-! ## Methods and sorting -/

def methodOrder : List String := ["get", "post", "put", "patch", "delete", "options", "head", "trace"]

/-- `METHOD_RANK.get(method, 99)` -/
def methodRank (method : String) : Nat := if method ∈ methodOrder then methodOrder.idxOf method else 99

/-- The order of strings. -/
def textBefore (s t : String) : Prop := s.toList ≤ t.toList

instance : DecidableRel textBefore := fun s t => inferInstanceAs (Decidable (s.toList ≤ t.toList))

/-- `sorted(items, key=key)` for a key that is a string. -/
def sortedBy {α : Type} (key : α → String) (items : List α) : List α :=
  items.insertionSort fun a b => textBefore (key a) (key b)

/-! ## Checks on the document -/

/-- The first of the keys that the object has. -/
def firstKey (keys : List String) (fields : List (String × Json F)) : Option String :=
  keys.find? fun key => (fields.lookup key).isSome

/-- The `OpenAPIContractError` of a field that is not supported. -/
def unsupported {α : Type} (key path : String) : Except Failure α :=
  rejectAt "unsupported_feature" ("不支持 OpenAPI 字段：" ++ key) path []

/-- The `links` of a response. -/
def inspectResponse (host : Host F) (document : Json F) (path : String) (value : Json F) : Except Failure Unit := do
  let response ← resolve host document host.recursionLimit [] value
  if (response.get? "links").isSome then unsupported "links" path

def inspectOperation (host : Host F) (document : Json F) (path method : String) (value : Json F) :
    Except Failure Unit := do
  match ← resolve host document host.recursionLimit [] value with
  | .obj operation =>
    if (operation.lookup "callbacks").isSome then unsupported "callbacks" ("/paths/" ++ path ++ "/" ++ method ++ "/callbacks")
    match operation.lookup "responses" with
    | some (.obj responses) =>
      responses.forM fun response =>
        inspectResponse host document ("/paths/" ++ path ++ "/" ++ method ++ "/responses/" ++ response.1 ++ "/links")
          response.2
    | _ => return ()
  | _ => return ()

/-- `inspect_path_item` -/
def inspectPathItem (host : Host F) (document : Json F) (path : String) (value : Json F) : Except Failure Unit := do
  match ← resolve host document host.recursionLimit [] value with
  | .obj pathItem =>
    methodOrder.forM fun method =>
      match pathItem.lookup method with
      | some operation => inspectOperation host document path method operation
      | none => .ok ()
  | _ => return ()

/-- The fields of an object, none of another value. -/
def fieldsOf : Option (Json F) → List (String × Json F)
  | some (.obj fields) => fields
  | _ => []

/-- `_reject_structural_features` -/
def rejectStructuralFeatures (host : Host F) (document : Json F) : Except Failure Unit := do
  match firstKey ["callbacks", "webhooks", "links"] (fieldsOf (some document)) with
  | some key => unsupported key ("/" ++ key)
  | none =>
    let components := fieldsOf (document.get? "components")
    match firstKey ["callbacks", "links", "webhooks"] components with
    | some key => unsupported key ("/components/" ++ key)
    | none => do
      (fieldsOf (document.get? "paths")).forM fun item => inspectPathItem host document item.1 item.2
      (fieldsOf (components.lookup "pathItems")).forM fun item =>
        inspectPathItem host document ("components/pathItems/" ++ item.1) item.2
      (fieldsOf (components.lookup "responses")).forM fun response =>
        inspectResponse host document ("/components/responses/" ++ response.1 ++ "/links") response.2

/-- `_validate_version`: the version of the document. -/
def validateVersion (host : Host F) (document : Json F) : Except Failure String :=
  match document.get? "swagger", document.get? "openapi" with
  | some _, _ => rejectAt "unsupported_version" "不支持 Swagger 2.0" "/openapi" []
  | none, some (.str version) =>
    if version = "2.0" then rejectAt "unsupported_version" "不支持 Swagger 2.0" "/openapi" []
    else
      match (splitOn '.' version.toList).map String.ofList with
      | [major, minor, patch] =>
        if isDigits host major && isDigits host minor && isDigits host patch then
          match intOfDigits host major, intOfDigits host minor, intOfDigits host patch with
          | some 3, some 0, some 3 => .ok version
          | some 3, some 1, some _ => .ok version
          | some _, some _, some _ => rejectAt "unsupported_version" "只接受 OpenAPI 3.0.3 和 3.1.x" "/openapi" []
          | _, _, _ => .error (.value version)
        else rejectAt "invalid_version" "OpenAPI 版本格式无效" "/openapi" []
      | _ => rejectAt "invalid_version" "OpenAPI 版本格式无效" "/openapi" []
  | none, _ => rejectAt "invalid_version" "缺少有效的 OpenAPI 版本" "/openapi" []

/-- The stripped `operationId` of an operation; `seen` are those before it. -/
def operationIdOf (path : String) (seen : List String) (operation : List (String × Json F)) : Except Failure String :=
  match operation.lookup "operationId" with
  | some (.str operationId) =>
    if strip operationId = "" then rejectAt "missing_operation_id" "每个 operation 都必须有非空 operationId" path []
    else if strip operationId ∈ seen then
      rejectAt "duplicate_operation_id" "Revision 内 operationId 必须唯一" path [("operation_id", strip operationId)]
    else .ok (strip operationId)
  | _ => rejectAt "missing_operation_id" "每个 operation 都必须有非空 operationId" path []

/-- The identifiers of a path item, after those seen before. -/
def pathItemIds (host : Host F) (document : Json F) (path : String) (seen : List String) :
    List (String × Json F) → Except Failure (List String)
  | [] => .ok seen
  | (key, value) :: rest =>
    let method := lower key
    if method ∈ methodOrder then do
      match ← resolve host document host.recursionLimit [] value with
      | .obj operation =>
        let operationId ← operationIdOf ("/paths/" ++ path ++ "/" ++ method) seen operation
        pathItemIds host document path (seen ++ [operationId]) rest
      | _ => pathItemIds host document path seen rest
    else pathItemIds host document path seen rest

/-- `_validate_operation_id_constraints` -/
def validateOperationIdConstraints (host : Host F) (document : Json F) : Except Failure Unit := do
  let _ ← (sortedBy Prod.fst (fieldsOf (document.get? "paths"))).foldlM (fun seen item => do
    match ← resolve host document host.recursionLimit [] item.2 with
    | .obj pathItem => pathItemIds host document item.1 seen pathItem
    | _ => return seen) []
  return ()

/-- `_json_path` -/
def jsonPath (parts : List String) : String :=
  let escape := fun (part : String) => part.toList.flatMap fun c =>
    if c = '~' then ['~', '0'] else if c = '/' then ['~', '1'] else [c]
  if parts = [] then "/" else "/" ++ "/".intercalate (parts.map fun part => String.ofList (escape part))

/-- `_validate_openapi_spec` -/
def validateOpenapiSpec (host : Host F) (document : Json F) : Except Failure Unit :=
  match host.validateSpec document with
  | none => .ok ()
  | some (error, parts) =>
    rejectAt "openapi_validation_error"
      ("OpenAPI 规范校验失败（JSON 路径 " ++ jsonPath parts ++ "）：" ++ error) (jsonPath parts) []

/-! ## Operations -/

/-- `ParsedOperation` -/
structure ParsedOperation (F : Type) where
  method : String
  path : String
  operationId : String
  summary : Option String
  tags : List String
  deprecated : Bool
  operation : Json F
  operationHash : String

/-- The tags of an operation. -/
def tagsOf (path : String) (operation : List (String × Json F)) : Except Failure (List String) :=
  let invalid : Except Failure (List String) :=
    rejectAt "invalid_tags" "operation tags 必须是字符串数组" path []
  match operation.lookup "tags" with
  | none => .ok []
  | some (.arr tags) => tags.foldlM (fun found tag =>
      match tag with
      | .str s => .ok (found ++ [s])
      | _ => invalid) []
  | some _ => invalid

/-- `sorted(set(tags))` -/
def sortedSet (tags : List String) : List String := sortedBy id tags.dedup

/-- `path.lstrip("/").replace("~", "~0").replace("/", "~1")` -/
def pathToken (path : String) : String :=
  String.ofList ((path.toList.dropWhile (· = '/')).flatMap fun c =>
    if c = '~' then ['~', '0'] else if c = '/' then ['~', '1'] else [c])

/-- `value.upper()` of a method. -/
def upper (method : String) : String := String.ofList (method.toList.map Char.toUpper)

section Parse

variable [DocumentFloat F]

/-- `json.dumps(value, ensure_ascii=False, sort_keys=True, separators=(",", ":"))` -/
def dumpsCompact (v : Json F) : String := String.ofList (Json.dumps .compact v.sortKeys)

mutual

/-- An integer of the value has more digits than `str` writes. -/
def hasLong : Json F → Bool
  | .int n => decide (10 ^ maxDigits ≤ n.natAbs)
  | .arr items => hasLongItems items
  | .obj fields => hasLongFields fields
  | _ => false

def hasLongItems : List (Json F) → Bool
  | [] => false
  | v :: rest => hasLong v || hasLongItems rest

def hasLongFields : List (String × Json F) → Bool
  | [] => false
  | (_, v) :: rest => hasLong v || hasLongFields rest

end

/-- `json.dumps` of a document or an operation, or the `ValueError` of one of its integers. -/
def serialize (v : Json F) : Except Failure String :=
  if hasLong v then .error tooManyDigits else .ok (dumpsCompact v)

/-- One operation of a path; `seen` are the identifiers before it. -/
def parseOperation (host : Host F) (document : Json F) (path : String) (pathItem : List (String × Json F))
    (seen : List String) (method : String) : Except Failure (ParsedOperation F) := do
  let place := "/paths/" ++ path ++ "/" ++ method
  match pathItem.lookup method with
  | none => .error (.key method)
  | some value =>
    match ← resolve host document host.recursionLimit [] value with
    | .obj operation => do
      let operationId ← operationIdOf place seen operation
      let tags ← tagsOf place operation
      let serialized ← serialize (canonical (.obj operation))
      return {
        method := upper method
        path := path
        operationId := operationId
        summary := match operation.lookup "summary" with
          | some (.str summary) => some summary
          | _ => none
        tags := sortedSet tags
        deprecated := match operation.lookup "deprecated" with
          | some (.bool true) => true
          | _ => false
        operation := canonical (.obj operation)
        operationHash := host.sha256 serialized }
    | _ => rejectAt "invalid_operation" "operation 必须是对象" place []

def maxOperations : Nat := 500

/-- The operations of a path item after those before it. -/
def pathOperations (host : Host F) (document : Json F) (path : String) (pathItem : List (String × Json F))
    (result : List (ParsedOperation F)) : Except Failure (List (ParsedOperation F)) :=
  let methods := (pathItem.map fun f => lower f.1).filter fun method => method ∈ methodOrder
  (methods.insertionSort fun a b => methodRank a ≤ methodRank b).foldlM (fun result method => do
    let operation ← parseOperation host document path pathItem (result.map fun o => o.operationId) method
    if maxOperations < result.length + 1 then
      rejectAt "too_many_operations" "OpenAPI operations 不能超过 500 个" "/paths" []
    else return result ++ [operation]) result

/-- `_operations` -/
def operationsOf (host : Host F) (document : Json F) : Except Failure (List (ParsedOperation F)) :=
  match document.get? "paths" with
  | some (.obj paths) =>
    (sortedBy Prod.fst paths).foldlM (fun result item => do
      if item.1.toList.head? = some '/' then
        match ← resolve host document host.recursionLimit ["#/paths/" ++ pathToken item.1] item.2 with
        | .obj pathItem => pathOperations host document item.1 pathItem result
        | _ => return result
      else return result) []
  | _ => rejectAt "invalid_paths" "OpenAPI paths 必须是对象" "/paths" []

/-- An operation of the previous revision. -/
structure PreviousOperation where
  method : String
  path : String
  operationId : String
  deriving DecidableEq

/-- The last of the items with a key, as a dictionary built from them keeps it. -/
def lastWith {α κ β : Type} [DecidableEq κ] (key : α → κ) (value : α → β) (k : κ) (items : List α) : Option β :=
  (items.reverse.find? fun item => key item = k).map value

/-- The warning of `validate_operation_transition` for one operation, or its error. -/
def checkTransition (previous : List PreviousOperation) (method path operationId : String) :
    Except Failure (List Issue) :=
  let oldId := lastWith (fun item : PreviousOperation => (upper item.method, item.path)) PreviousOperation.operationId
    (method, path) previous
  let oldRoute := lastWith PreviousOperation.operationId
    (fun item : PreviousOperation => (upper item.method, item.path)) operationId previous
  match oldId, oldRoute with
  | some oldId, oldRoute =>
    if oldId ≠ operationId then
      rejectAt "operation_id_changed" "相同 method + path 的 operationId 不可变更"
        ("/paths/" ++ path ++ "/" ++ lower method) [("previous_operation_id", oldId), ("operation_id", operationId)]
    else .ok (routeWarning oldRoute)
  | none, oldRoute => .ok (routeWarning oldRoute)
where
  routeWarning : Option (String × String) → List Issue
    | some oldRoute =>
      if oldRoute ≠ (method, path) then
        [{ code := "route_changed", message := "相同 operationId 的路由已变更"
           extra := [("operation_id", operationId), ("previous_method", oldRoute.1), ("previous_path", oldRoute.2),
             ("method", method), ("path", path)] }]
      else []
    | none => []

/-- `validate_operation_transition`, on the method, path and identifier of each operation. -/
def validateOperationTransition (operations : List (String × String × String)) (previous : List PreviousOperation) :
    Except Failure (List Issue) :=
  operations.foldlM (fun warnings operation => do
    let more ← checkTransition previous operation.1 operation.2.1 operation.2.2
    return warnings ++ more) []

end Parse

end CodexMemory.OpenApi
