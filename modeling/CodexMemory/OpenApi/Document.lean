import CodexMemory.Json.Grammar
import CodexMemory.Text

/-!
# OpenAPI documents as `api_operations.py` reads them

Decoding of a file, the checks on the decoded value, JSON pointers and the
references of a document.  What `yaml.safe_load`, the validator, SHA-256 and the
Unicode tables answer is in `Host`.
-/

namespace CodexMemory.OpenApi

/-! ## Errors -/

/-- `_issue(…)`; an optional path is `none` where it is left out. -/
structure Issue where
  code : String
  message : String
  path : Option String := none
  extra : List (String × String) := []
  deriving DecidableEq

/-- What a call raises: `OpenAPIContractError` with its issues, a `KeyError`, a
`ValueError` of `int` or of `str` of an integer, a `TypeError` of a value that cannot be
hashed, an `OverflowError` of `float`, a `UnicodeEncodeError`, or a `RecursionError`. -/
inductive Failure
  | contract (message : String) (errors : List Issue)
  | key (reference : String)
  | value (text : String)
  | type
  | overflow
  | encode
  | recursion
  deriving DecidableEq

/-- `OpenAPIContractError(message, [_issue(code, message)])` -/
def reject {α : Type} (code message : String) : Except Failure α :=
  .error (.contract message [{ code := code, message := message }])

/-- `OpenAPIContractError(message, [_issue(code, message, path, **extra)])` -/
def rejectAt {α : Type} (code message path : String) (extra : List (String × String)) : Except Failure α :=
  .error (.contract message [{ code := code, message := message, path := some path, extra := extra }])

/-! ## Decoded values -/

/-- A key of a decoded dictionary: a string, another value with its `str`, or an integer
that `str` does not write. -/
inductive Key
  | text (s : String)
  | other (shown : String)
  | long

def Key.shown : Key → String
  | .text s => s
  | .other s => s
  | .long => ""

/-- What `json.loads` and `yaml.safe_load` build: JSON values, `other` scalars such as
dates, and `again`, a collection inside itself. -/
inductive Loaded (F : Type)
  | null
  | bool (b : Bool)
  | int (n : Int)
  | float (x : F)
  | str (s : String)
  | other
  | again
  | arr (items : List (Loaded F))
  | obj (fields : List (Key × Loaded F))

/-- Floats of a document: a constant such as `NaN` is not read (`parse_constant`
raises), and some floats may not be finite. -/
class DocumentFloat (F : Type) extends Json.PyFloat F where
  isFinite : F → Bool
  no_constants : ∀ text ∈ Json.constants, Json.PyFloat.ofText (F := F) text = none

/-- The code that the module calls. -/
structure Host (F : Type) where
  /-- `yaml.safe_load`; `none` where it raises. -/
  safeLoad : String → Option (Loaded F)
  /-- `validate_spec`: the text of the error and its path. -/
  validateSpec : Json F → Option (String × List String)
  /-- The hexadecimal digest of a text in UTF-8. -/
  sha256 : String → String
  /-- `str.isdigit` of a character, with its value where `int` takes it. -/
  digit : Char → Option (Option Nat)
  /-- `str(value)` of a value that is no string. -/
  str : Json F → String
  /-- How deep calls of `_resolve` may nest. -/
  recursionLimit : Nat

variable {F : Type}

/-- How many digits `int` reads and `str` of an integer writes. -/
def maxDigits : Nat := 4300

/-- The `ValueError` of an integer with more digits. -/
def tooManyDigits : Failure := .value "Exceeds the limit (4300 digits) for integer string conversion"

mutual

def Loaded.ofJson : Json F → Loaded F
  | .null => .null
  | .bool b => .bool b
  | .int n => .int n
  | .float x => .float x
  | .str s => .str s
  | .arr items => .arr (Loaded.ofItems items)
  | .obj fields => .obj (Loaded.ofFields fields)

def Loaded.ofItems : List (Json F) → List (Loaded F)
  | [] => []
  | v :: rest => Loaded.ofJson v :: Loaded.ofItems rest

def Loaded.ofFields : List (String × Json F) → List (Key × Loaded F)
  | [] => []
  | (k, v) :: rest => (.text k, Loaded.ofJson v) :: Loaded.ofFields rest

end

mutual

/-- The JSON value of a decoded value that the checks have let through; a dictionary has
no key twice. -/
def Loaded.toJson : Loaded F → Json F
  | .null => .null
  | .bool b => .bool b
  | .int n => .int n
  | .float x => .float x
  | .str s => .str s
  | .other => .null
  | .again => .null
  | .arr items => .arr (Loaded.toItems items)
  | .obj fields => .obj (Json.ofPairs (Loaded.toFields fields))

def Loaded.toItems : List (Loaded F) → List (Json F)
  | [] => []
  | v :: rest => v.toJson :: Loaded.toItems rest

def Loaded.toFields : List (Key × Loaded F) → List (String × Json F)
  | [] => []
  | (k, v) :: rest => (k.shown, v.toJson) :: Loaded.toFields rest

end

/-! ## Checks on the decoded value -/

/-- `f"{path}/{key}" if path else f"/{key}"` -/
def childPath (path key : String) : String := if path = "" then "/" ++ key else path ++ "/" ++ key

/-- `f"{path}/{index}"` -/
def indexPath (path : String) (index : Nat) : String := path ++ "/" ++ toString index

section Checks

variable [DocumentFloat F]

mutual

/-- `_validate_json_values` -/
def validateJsonValues (path : String) : Loaded F → Except Failure Unit
  | .null => .ok ()
  | .bool _ => .ok ()
  | .int _ => .ok ()
  | .str _ => .ok ()
  | .float x =>
    if DocumentFloat.isFinite x then .ok ()
    else rejectAt "invalid_number" "OpenAPI 文档不能包含非有限数字" path []
  | .other =>
    .error (.contract "OpenAPI 文档包含不支持的 YAML 标量"
      [{ code := "unsupported_scalar", message := "OpenAPI 文档包含不支持的 YAML 标量，请使用字符串", path := some path }])
  | .again => rejectAt "document_cycle" "OpenAPI 文档不能包含 YAML 别名循环" path []
  | .arr items => validateItems path 0 items
  | .obj fields => validateFields path fields

def validateItems (path : String) (index : Nat) : List (Loaded F) → Except Failure Unit
  | [] => .ok ()
  | v :: rest => do
    validateJsonValues (indexPath path index) v
    validateItems path (index + 1) rest

def validateFields (path : String) : List (Key × Loaded F) → Except Failure Unit
  | [] => .ok ()
  | (.long, _) :: _ => .error tooManyDigits
  | (k, v) :: rest => do
    validateJsonValues (childPath path k.shown) v
    validateFields path rest

end

end Checks

def maxDepth : Nat := 64

/-- `item.startswith("#")` for a string. -/
def localRef : Loaded F → Option String
  | .str s => if s.toList.head? = some '#' then some s else none
  | _ => none

mutual

/-- `_walk`: the references of a value with their paths. -/
def walk (path : String) (depth : Nat) (v : Loaded F) : Except Failure (List (String × String)) :=
  if maxDepth < depth then rejectAt "document_too_deep" "OpenAPI 文档结构深度不能超过 64" path []
  else
    match v with
    | .again => rejectAt "document_cycle" "OpenAPI 文档不能包含 YAML 别名循环" path []
    | .arr items => walkItems path depth 0 items
    | .obj fields => walkFields path depth fields
    | _ => .ok []

def walkItems (path : String) (depth index : Nat) : List (Loaded F) → Except Failure (List (String × String))
  | [] => .ok []
  | v :: rest => do
    let refs ← walk (indexPath path index) (depth + 1) v
    let more ← walkItems path depth (index + 1) rest
    return refs ++ more

def walkFields (path : String) (depth : Nat) : List (Key × Loaded F) → Except Failure (List (String × String))
  | [] => .ok []
  | (.other _, _) :: _ => rejectAt "invalid_key" "OpenAPI 对象键必须是字符串" path []
  | (.long, _) :: _ => rejectAt "invalid_key" "OpenAPI 对象键必须是字符串" path []
  | (.text key, v) :: rest => do
    let own ←
      if key = "$ref" then
        match localRef v with
        | some reference => Except.ok [(reference, childPath path key)]
        | none => rejectAt "external_ref" "只允许本地 $ref" (childPath path key) []
      else .ok []
    let refs ← walk (childPath path key) (depth + 1) v
    let more ← walkFields path depth rest
    return own ++ refs ++ more

end

/-! ## Pointers and references -/

/-- `text.split(sep)` -/
def splitOn (sep : Char) : List Char → List (List Char)
  | [] => [[]]
  | c :: rest =>
    if c = sep then [] :: splitOn sep rest
    else
      match splitOn sep rest with
      | [] => [[c]]
      | part :: parts => (c :: part) :: parts

/-- `token.replace("~1", "/")` -/
def replaceTilde1 : List Char → List Char
  | '~' :: '1' :: rest => '/' :: replaceTilde1 rest
  | c :: rest => c :: replaceTilde1 rest
  | [] => []

/-- `token.replace("~0", "~")` -/
def replaceTilde0 : List Char → List Char
  | '~' :: '0' :: rest => '~' :: replaceTilde0 rest
  | c :: rest => c :: replaceTilde0 rest
  | [] => []

/-- `token.isdigit()` -/
def isDigits (host : Host F) (token : String) : Bool :=
  token.toList ≠ [] && token.toList.all fun c => (host.digit c).isSome

/-- `int(token)` of digits; `none` is a `ValueError`. -/
def intOfDigits (host : Host F) (token : String) : Option Nat :=
  if maxDigits < token.length then none
  else token.toList.foldl (fun n c => do return 10 * (← n) + (← (host.digit c).join)) (some 0)

/-- One token of a pointer. -/
def pointerStep (host : Host F) (reference : String) (v : Json F) (token : String) : Except Failure (Json F) :=
  match v with
  | .obj fields =>
    match fields.lookup token with
    | some w => .ok w
    | none => .error (.key reference)
  | .arr items =>
    if isDigits host token then
      match intOfDigits host token with
      | none => .error (.value token)
      | some index =>
        match items[index]? with
        | some w => .ok w
        | none => .error (.key reference)
    else .error (.key reference)
  | _ => .error (.key reference)

/-- The tokens of `reference[2:]`. -/
def pointerTokens (reference : String) : List String :=
  (splitOn '/' (reference.toList.drop 2)).map fun token =>
    String.ofList (replaceTilde0 (replaceTilde1 token))

/-- `_pointer` -/
def pointer (host : Host F) (document : Json F) (reference : String) : Except Failure (Json F) :=
  if reference = "#" then .ok document
  else if ['#', '/'].isPrefixOf reference.toList then
    (pointerTokens reference).foldlM (pointerStep host reference) document
  else .error (.key reference)

/-- The fields without `$ref`. -/
def withoutRef (fields : List (String × Json F)) : List (String × Json F) := fields.filter fun f => f.1 ≠ "$ref"

/-- `merged.update(fields)` -/
def update (merged fields : List (String × Json F)) : List (String × Json F) :=
  fields.foldl (fun merged f => Json.setField f.1 f.2 merged) merged

/-- `_resolve`, in calls nested at most `fuel` deep. -/
def resolve (host : Host F) (document : Json F) : Nat → List String → Json F → Except Failure (Json F)
  | 0, _, _ => .error .recursion
  | fuel + 1, stack, v =>
    match v with
    | .obj fields =>
      match fields.lookup "$ref" with
      | some (.str reference) =>
        if reference ∈ stack then .ok (.obj (withoutRef fields))
        else do
          let target ← pointer host document reference
          match ← resolve host document fuel (stack ++ [reference]) target with
          | .obj resolved => return .obj (update resolved (withoutRef fields))
          | resolved => return resolved
      | _ => .ok v
    | _ => .ok v

/-! ## `_decode_document` -/

def maxDocumentBytes : Nat := 2 * 1024 * 1024

/-- `name.endswith(suffix)` -/
def endsWith (name suffix : String) : Bool := suffix.toList.isSuffixOf name.toList

/-- `content.decode("utf-8-sig")` -/
def decodeUtf8Sig (content : ByteArray) : Option String :=
  (String.fromUTF8? content).map fun text =>
    match text.toList with
    | '\ufeff' :: rest => String.ofList rest
    | _ => text

/-- A lone surrogate is escaped in the text; `paired` says that the next escape is the low surrogate of a
pair. -/
def loneSurrogate (paired : Bool) : List Char → Bool
  | '\\' :: 'u' :: rest =>
    if paired then loneSurrogate false rest
    else
      match Json.decodeHex rest, Json.decodeUnicode rest with
      | some _, none => true
      | some _, some (c, _) => loneSurrogate (decide (0x10000 ≤ c.toNat)) rest
      | none, _ => loneSurrogate false rest
  | '\\' :: _ :: rest => loneSurrogate false rest
  | _ :: rest => loneSurrogate paired rest
  | [] => false

/-- A JSON text with a string that has no UTF-8. -/
def unencodable (text : String) : Bool := Json.accepts Json.python text.toList && loneSurrogate false text.toList

/-- `json.loads(text, parse_constant=_reject_json_constant)` -/
def loadsDocument [DocumentFloat F] (text : String) : Option (Loaded F) :=
  if Json.accepts Json.python text.toList then (Json.loads text.toList).map Loaded.ofJson else none

/-- `_decode_document`.  A JSON text with a string that has no UTF-8 is not followed further: the code reads it, and
raises where it hashes the document if no check has refused it before. -/
def decodeDocument [DocumentFloat F] (host : Host F) (filename : String) (content : ByteArray) :
    Except Failure (Loaded F) :=
  if !([".json", ".yaml", ".yml"].any (endsWith (lower filename))) then
    reject "invalid_extension" "文件扩展名必须是 .json、.yaml 或 .yml"
  else if maxDocumentBytes < content.size then
    reject "document_too_large" "OpenAPI 文件不能超过 2 MiB"
  else
    match decodeUtf8Sig content with
    | none => reject "invalid_encoding" "OpenAPI 文件必须是 UTF-8 编码"
    | some text =>
      if endsWith (lower filename) ".json" && unencodable text then .error .encode
      else
        match if endsWith (lower filename) ".json" then loadsDocument text else host.safeLoad text with
        | none => reject "invalid_syntax" "OpenAPI 文件格式无效"
        | some (.obj fields) => do
          validateJsonValues "" (.obj fields)
          return .obj fields
        | some _ => reject "invalid_root" "OpenAPI 文档根节点必须是对象"

end CodexMemory.OpenApi
