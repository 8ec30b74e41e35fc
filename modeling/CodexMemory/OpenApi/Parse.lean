import CodexMemory.OpenApi.Operations

/-!
# The Markdown of a document and the whole parse

`generate_markdown` and `parse_and_normalize_openapi`.
-/

namespace CodexMemory.OpenApi

variable {F : Type} [DocumentFloat F]

/-! ## `json.dumps(value, indent=2)` -/

def newline (level : Nat) : List Char := '\n' :: List.replicate (2 * level) ' '

mutual

/-- `json.dumps(value, ensure_ascii=False, indent=2)`, `level` levels in. -/
def dumpsIndent (level : Nat) : Json F → List Char
  | .null => ['n', 'u', 'l', 'l']
  | .bool true => ['t', 'r', 'u', 'e']
  | .bool false => ['f', 'a', 'l', 's', 'e']
  | .int n => Json.intText n
  | .float x => Json.PyFloat.repr x
  | .str s => Json.quote s.toList
  | .arr [] => ['[', ']']
  | .arr (v :: rest) =>
    '[' :: newline (level + 1) ++ dumpsIndent (level + 1) v ++ dumpsIndentItems (level + 1) rest ++ newline level ++ [']']
  | .obj [] => ['{', '}']
  | .obj ((k, v) :: rest) =>
    '{' :: newline (level + 1) ++ Json.quote k.toList ++ [':', ' '] ++ dumpsIndent (level + 1) v ++
      dumpsIndentFields (level + 1) rest ++ newline level ++ ['}']

def dumpsIndentItems (level : Nat) : List (Json F) → List Char
  | [] => []
  | v :: rest => ',' :: newline level ++ dumpsIndent level v ++ dumpsIndentItems level rest

def dumpsIndentFields (level : Nat) : List (String × Json F) → List Char
  | [] => []
  | (k, v) :: rest =>
    ',' :: newline level ++ Json.quote k.toList ++ [':', ' '] ++ dumpsIndent level v ++ dumpsIndentFields level rest

end

/-! ## `generate_markdown` -/

/-- `str(value)` -/
def pyStr (host : Host F) : Json F → String
  | .str s => s
  | v => host.str v

/-- `bool(value)` -/
def truthy : Json F → Bool
  | .null => false
  | .bool b => b
  | .int n => n ≠ 0
  | .float x => !Json.PyFloat.isZero x
  | .str s => s ≠ ""
  | .arr items => !items.isEmpty
  | .obj fields => !fields.isEmpty

/-- `str(value or fallback)` -/
def orText (host : Host F) (value : Option (Json F)) (fallback : String) : String :=
  match value with
  | some v => if truthy v then pyStr host v else fallback
  | none => fallback

/-- `str(item.get(key, ""))` -/
def getText (host : Host F) (key : String) (fields : List (String × Json F)) : String :=
  ((fields.lookup key).map (pyStr host)).getD ""

/-- `f"：{description}"` for a description that is a string and not empty. -/
def described : Option (Json F) → String
  | some (.str description) => if description = "" then "" else "：" ++ description
  | _ => ""

/-- The dictionaries of a list. -/
def objectsOf : List (Json F) → List (List (String × Json F))
  | [] => []
  | .obj fields :: rest => fields :: objectsOf rest
  | _ :: rest => objectsOf rest

def serverLines (host : Host F) (document : Json F) : List String :=
  match document.get? "servers" with
  | some (.arr (first :: rest)) =>
    (sortedBy (getText host "url") (objectsOf (first :: rest))).map fun server =>
      "- `" ++ getText host "url" server ++ "`" ++ described (server.lookup "description")
  | _ => ["未声明服务器。"]

def securityLines (document : Json F) : List String :=
  match document.get? "security" with
  | some (.arr (first :: rest)) =>
    (sortedBy (fun requirement => dumpsCompact (.obj requirement)) (objectsOf (first :: rest))).map fun requirement =>
      let names := sortedBy id (requirement.map Prod.fst)
      "- " ++ if names = [] then "匿名" else ", ".intercalate (names.map fun name => "`" ++ name ++ "`")
  | _ => ["未声明全局鉴权。"]

def parameterLines (host : Host F) : Option (Json F) → List String
  | some (.arr (first :: rest)) =>
    let parameters := sortedBy (getText host "name") (objectsOf (first :: rest))
    "- 参数：" :: (sortedBy (getText host "in") parameters).map fun parameter =>
      "  - `" ++ getText host "in" parameter ++ "` `" ++ getText host "name" parameter ++ "`"
  | _ => []

def requestBodyLines : Option (Json F) → List String
  | some (.obj body) =>
    match body.lookup "content" with
    | some (.obj content) => ["- Content-Type：" ++ ", ".intercalate (sortedBy id (content.map Prod.fst))]
    | _ => if body = [] then [] else ["- 请求体已声明。"]
  | _ => []

def responseLines : Option (Json F) → List String
  | some (.obj (first :: rest)) =>
    (sortedBy Prod.fst (first :: rest)).map fun response =>
      "- `" ++ response.1 ++ "`" ++ described (response.2.get? "description")
  | _ => ["未声明响应。"]

/-- `isinstance(parameters, list) and parameters`, or a request body. -/
def hasRequest (operation : Json F) : Bool :=
  (match operation.get? "parameters" with
    | some (.arr (_ :: _)) => true
    | _ => false) ||
  match operation.get? "requestBody" with
  | some body => body.isObject
  | none => false

/-- `summary.replace("\n", " ")` -/
def oneLine (summary : String) : String := String.ofList (summary.toList.map fun c => if c = '\n' then ' ' else c)

def operationLines (host : Host F) (operation : ParsedOperation F) : List String :=
  ["### `" ++ operation.method ++ " " ++ operation.path ++ "`", "- operationId：`" ++ operation.operationId ++ "`"] ++
  (match operation.summary with
    | some summary => if summary = "" then [] else ["- 摘要：" ++ oneLine summary]
    | none => []) ++
  (if operation.deprecated then ["- 已弃用：是"] else []) ++
  (if operation.tags = [] then [] else ["- 标签：" ++ ", ".intercalate operation.tags]) ++
  ["", "#### 请求"] ++
  parameterLines host (operation.operation.get? "parameters") ++
  requestBodyLines (operation.operation.get? "requestBody") ++
  (if hasRequest operation.operation then [] else ["无请求参数或请求体。"]) ++
  ["", "#### 响应"] ++
  responseLines (operation.operation.get? "responses") ++ [""]

/-- `sorted(operations, key=lambda item: (item.path, rank, item.method))` -/
def orderedOperations (operations : List (ParsedOperation F)) : List (ParsedOperation F) :=
  let byMethod := sortedBy ParsedOperation.method operations
  sortedBy ParsedOperation.path
    (byMethod.insertionSort fun a b => methodRank (lower a.method) ≤ methodRank (lower b.method))

def schemaLines (document : Json F) : List String :=
  match (document.get? "components").bind (Json.get? "schemas") with
  | some (.obj (first :: rest)) =>
    (sortedBy Prod.fst (first :: rest)).flatMap fun schema =>
      ["### Schema `" ++ schema.1 ++ "`", "", "```json", String.ofList (dumpsIndent 0 schema.2.sortKeys), "```", ""]
  | _ => ["未声明公共 Schema。"]

/-- `text.rstrip()` -/
def rstrip (text : String) : String := String.ofList (text.toList.reverse.dropWhile isSpace).reverse

/-- `generate_markdown` -/
def generateMarkdown (host : Host F) (document : Json F) (operations : List (ParsedOperation F)) : String :=
  let info := fieldsOf (document.get? "info")
  let title := orText host (info.lookup "title") "OpenAPI 接口契约"
  let version := orText host (info.lookup "version") ""
  let lines :=
    ["# " ++ title, "", "- OpenAPI：3.1.0", "- Profile：v1"] ++
    (if version = "" then [] else ["- 接口版本：" ++ version]) ++
    ["", "## 服务器", ""] ++ serverLines host document ++
    ["", "## 鉴权", ""] ++ securityLines document ++
    ["", "## 接口列表", ""] ++
    (if operations = [] then ["暂无接口。"] else (orderedOperations operations).flatMap (operationLines host)) ++
    ["## 公共 Schema", ""] ++ schemaLines document
  rstrip ("\n".intercalate lines) ++ "\n"

/-! ## `parse_and_normalize_openapi` -/

/-- `NormalizedOpenAPI` -/
structure NormalizedOpenAPI (F : Type) where
  sourceDocument : Json F
  sourceVersion : String
  document : Json F
  normalizedVersion : String := "3.1.0"
  contentHash : String
  operations : List (ParsedOperation F)
  errors : List Issue := []
  warnings : List Issue
  markdown : String

/-- Every reference of the document can be followed. -/
def checkRefs (host : Host F) (document : Json F) : List (String × String) → Except Failure Unit
  | [] => .ok ()
  | (reference, path) :: rest =>
    match pointer host document reference with
    | .ok _ => checkRefs host document rest
    | .error (.key _) =>
      rejectAt "unresolved_ref" "本地 $ref 无法解析" path [("reference", reference)]
    | .error e => .error e

/-- The checks on a decoded document, and its version. -/
def checkDocument (host : Host F) (loaded : Loaded F) : Except Failure (Json F × String) := do
  let refs ← walk "" 0 loaded
  let document := loaded.toJson
  checkRefs host document refs
  let version ← validateVersion host document
  rejectStructuralFeatures host document
  validateOperationIdConstraints host document
  validateOpenapiSpec host document
  return (document, version)

/-- The normalised document of a document. -/
def normalizedOf (document : Json F) (version : String) : Except Failure (Json F) := do
  match ← normalizeDocument (decide (version = "3.0.3")) "" document with
  | .obj fields => return canonical (.obj (Json.setField "openapi" (.str "3.1.0") fields))
  | _ => reject "invalid_document" "OpenAPI 文档根节点必须是对象"

def routesOf (operations : List (ParsedOperation F)) : List (String × String × String) :=
  operations.map fun operation => (operation.method, operation.path, operation.operationId)

/-- The parse of a decoded document. -/
def parseLoaded (host : Host F) (loaded : Loaded F) (previous : List PreviousOperation) :
    Except Failure (NormalizedOpenAPI F) := do
  let (document, version) ← checkDocument host loaded
  let normalized ← normalizedOf document version
  let operations ← operationsOf host normalized
  let warnings ← validateOperationTransition (routesOf operations) previous
  let serialized ← serialize normalized
  return {
    sourceDocument := document
    sourceVersion := version
    document := normalized
    contentHash := host.sha256 serialized
    operations := operations
    warnings := warnings
    markdown := generateMarkdown host normalized operations }

def parseAndNormalizeOpenapi (host : Host F) (filename : String) (content : ByteArray)
    (previous : List PreviousOperation) : Except Failure (NormalizedOpenAPI F) := do
  let loaded ← decodeDocument host filename content
  parseLoaded host loaded previous

end CodexMemory.OpenApi
