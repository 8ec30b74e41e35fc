import CodexMemory.OpenApi.Parse
import CodexMemory.Table
import CodexMemory.Trace
import Mathlib.Data.List.MinMax

/-!
# `contract_revisions.py`

The three tables of V1.5 and the calls that write them: `create_service`,
`create_revision` and `publish`.  A call is one transaction and the lock on the
row of the service puts the calls on a service one after the other, so that a
step of the system is a whole call.  Times are left out.
-/

namespace CodexMemory.Contracts

open OpenApi (DocumentFloat Failure Issue NormalizedOpenAPI ParsedOperation PreviousOperation
  parseAndNormalizeOpenapi validateOperationTransition)

/-! ## Rows -/

inductive RevisionStatus
  | proposed | published | superseded
  deriving DecidableEq, Repr

/-- `ContractServiceRow` -/
structure ContractService where
  projectId : Nat
  serviceKey : String
  name : String
  description : Option String := none
  currentPublishedRevisionId : Option Nat := none

/-- What a revision is created with. -/
structure RevisionContent (F : Type) where
  projectId : Nat
  serviceId : Nat
  revisionNumber : Nat
  sourceFilename : String
  sourceExtension : String
  sourceVersion : String
  normalizedVersion : String
  profileVersion : String := "v1"
  sourceDocument : Json F
  normalizedDocument : Json F
  contentHash : String
  errors : List Issue
  warnings : List Issue
  markdownDocument : String
  createdBy : String

/-- `ContractRevisionRow`; `validation_summary` and `validation_result` both hold the errors
and the warnings. -/
structure ContractRevision (F : Type) extends RevisionContent F where
  status : RevisionStatus := .proposed
  publishedBy : Option String := none

/-- `ApiOperationRow` -/
structure ApiOperation (F : Type) where
  projectId : Nat
  serviceId : Nat
  revisionId : Nat
  method : String
  path : String
  operationId : String
  operationHash : String
  summary : Option String
  tags : List String
  deprecated : Bool
  operationJson : Json F

structure Database (F : Type) where
  services : Table ContractService
  revisions : Table (ContractRevision F)
  operations : Table (ApiOperation F)

/-- What a call raises: `LookupError`, `ValueError`, `ContractRevisionConflictError`, what the
parser raises, or an error of the database such as a text that is too long. -/
inductive ContractError
  | lookup (message : String)
  | value (message : String)
  | conflict (message code : String) (details : List (String × String))
  | parser (failure : Failure)
  | data
  deriving DecidableEq

/-- What the database checks besides the unique constraints. -/
structure Engine (F : Type) where
  /-- There is a project with the key. -/
  hasProject : Nat → Bool
  /-- The values fit their columns. -/
  stores : Database F → Bool

variable {F : Type}

namespace Database

def empty : Database F := ⟨.empty, .empty, .empty⟩

def revisionsOf (s : Database F) (serviceId : Nat) : List (Nat × ContractRevision F) :=
  s.revisions.select fun r => r.serviceId = serviceId

def operationsOf (s : Database F) (revisionId : Nat) : List (Nat × ApiOperation F) :=
  s.operations.select fun o => o.revisionId = revisionId

/-- `row.project_id == project_id`, where a project is given. -/
def inProject (projectId : Option Nat) (rowProject : Nat) : Bool :=
  match projectId with
  | none => true
  | some projectId => rowProject = projectId

/-- The service, with its row locked. -/
def lockService (s : Database F) (serviceId : Nat) (projectId : Option Nat) : Option ContractService :=
  (s.services.get? serviceId).filter fun service => inProject projectId service.projectId

/-- The revision of the service with the hash. -/
def revisionWithHash (s : Database F) (serviceId : Nat) (contentHash : String) :
    Option (Nat × ContractRevision F) :=
  (s.revisionsOf serviceId).find? fun r => r.2.contentHash = contentHash

/-- The revision of the service with the number. -/
def revisionNumbered (s : Database F) (serviceId revisionNumber : Nat) (projectId : Option Nat) :
    Option (Nat × ContractRevision F) :=
  (s.revisionsOf serviceId).find? fun r => r.2.revisionNumber = revisionNumber && inProject projectId r.2.projectId

/-- The operations of a revision as the transition check reads them. -/
def previousOperations (s : Database F) (revisionId : Nat) : List PreviousOperation :=
  (s.operationsOf revisionId).map fun o => ⟨o.2.method, o.2.path, o.2.operationId⟩

/-- The method, path and identifier of the operations of a revision. -/
def routesOf (s : Database F) (revisionId : Nat) : List (String × String × String) :=
  (s.operationsOf revisionId).map fun o => (o.2.method, o.2.path, o.2.operationId)

/-- `uq_contract_services_project_key` and the foreign key of the project. -/
def insertService (engine : Engine F) (s : Database F) (row : ContractService) : Option (Database F) :=
  if !engine.hasProject row.projectId ||
      s.services.rows.any fun r => r.2.projectId = row.projectId && r.2.serviceKey = row.serviceKey then none
  else some { s with services := s.services.insert row }

/-- `uq_contract_revisions_service_number` and `uq_contract_revisions_service_hash`. -/
def insertRevision (s : Database F) (row : ContractRevision F) : Option (Database F) :=
  if (s.revisionsOf row.serviceId).any fun r =>
      r.2.revisionNumber = row.revisionNumber || r.2.contentHash = row.contentHash then none
  else some { s with revisions := s.revisions.insert row }

/-- `uq_api_operations_revision_route` and `uq_api_operations_revision_operation_id`. -/
def insertOperation (s : Database F) (row : ApiOperation F) : Option (Database F) :=
  if (s.operationsOf row.revisionId).any fun o =>
      (o.2.method = row.method && o.2.path = row.path) || o.2.operationId = row.operationId then none
  else some { s with operations := s.operations.insert row }

def setCurrent (s : Database F) (serviceId revisionId : Nat) : Database F :=
  { s with services := s.services.modify serviceId fun service =>
      { service with currentPublishedRevisionId := some revisionId } }

def setStatus (s : Database F) (revisionId : Nat) (status : RevisionStatus) : Database F :=
  { s with revisions := s.revisions.modify revisionId fun r => { r with status := status } }

/-- `revision.status = "published"`, with who published it. -/
def setPublished (s : Database F) (revisionId : Nat) (publishedBy : String) : Database F :=
  { s with revisions := s.revisions.modify revisionId fun r =>
      { r with status := .published, publishedBy := some publishedBy } }

end Database

/-! ## `create_service` -/

structure CreateService where
  projectId : Nat
  serviceKey : String
  name : Option String := none
  description : Option String := none

/-- `text or default` -/
def orDefault (text default : String) : String := if text = "" then default else text

def createService (engine : Engine F) (s : Database F) (call : CreateService) :
    Except ContractError Nat × Database F :=
  let serviceKey := strip call.serviceKey
  let name := strip (orDefault (call.name.getD "") serviceKey)
  if serviceKey = "" ∨ name = "" then (.error (.value "服务标识和名称不能为空"), s)
  else
    match s.insertService engine
        { projectId := call.projectId, serviceKey := serviceKey, name := name, description := call.description } with
    | none => (.error (.conflict "项目内服务标识已存在" "service_exists" []), s)
    | some s' => if engine.stores s' then (.ok s.services.nextId, s') else (.error .data, s)

/-! ## `create_revision` -/

structure CreateRevision where
  serviceId : Nat
  filename : String
  content : ByteArray
  projectId : Option Nat := none
  createdBy : String := "system"

/-- `filename.rsplit(".", 1)[-1].lower()` -/
def extensionOf (filename : String) : String :=
  lower (String.ofList (filename.toList.reverse.takeWhile (· ≠ '.')).reverse)

/-- The revision whose operations a proposal is checked against. -/
def previousRevision (s : Database F) (serviceId : Nat) (service : ContractService) : Option Nat :=
  match service.currentPublishedRevisionId.bind fun k => (s.revisions.get? k).map fun _ => k with
  | some k => some k
  | none =>
    (List.argmax (fun r => r.2.revisionNumber)
      ((s.revisionsOf serviceId).filter fun r => r.2.status = .published)).map Prod.fst

/-- `func.max(revision_number)` or 0, and one more. -/
def nextNumber (s : Database F) (serviceId : Nat) : Nat :=
  ((s.revisionsOf serviceId).map fun r => r.2.revisionNumber).max?.getD 0 + 1

def revisionRow (call : CreateRevision) (service : ContractService) (number : Nat) (parsed : NormalizedOpenAPI F) :
    ContractRevision F where
  projectId := service.projectId
  serviceId := call.serviceId
  revisionNumber := number
  sourceFilename := call.filename
  sourceExtension := extensionOf call.filename
  sourceVersion := parsed.sourceVersion
  normalizedVersion := parsed.normalizedVersion
  sourceDocument := parsed.sourceDocument
  normalizedDocument := parsed.document
  contentHash := parsed.contentHash
  errors := parsed.errors
  warnings := parsed.warnings
  markdownDocument := parsed.markdown
  createdBy := orDefault call.createdBy "system"

def operationRow (projectId serviceId revisionId : Nat) (operation : ParsedOperation F) : ApiOperation F where
  projectId := projectId
  serviceId := serviceId
  revisionId := revisionId
  method := operation.method
  path := operation.path
  operationId := operation.operationId
  operationHash := operation.operationHash
  summary := operation.summary
  tags := operation.tags
  deprecated := operation.deprecated
  operationJson := operation.operation

/-- The rows of the operations, one after the other. -/
def insertOperations (projectId serviceId revisionId : Nat) (s : Database F) (operations : List (ParsedOperation F)) :
    Option (Database F) :=
  operations.foldlM (fun s operation => s.insertOperation (operationRow projectId serviceId revisionId operation)) s

/-- How the transaction of `create_revision` ends: it commits, a unique constraint refuses it, or it
raises. -/
inductive Outcome (F : Type)
  | returned (revisionId : Nat) (reused : Bool) (s : Database F)
  | integrity (parsed : NormalizedOpenAPI F)
  | raised (error : ContractError)

section

variable (engine : Engine F)

/-- The revision and its operations. -/
def insertAll (s : Database F) (call : CreateRevision) (service : ContractService) (parsed : NormalizedOpenAPI F) :
    Outcome F :=
  match s.insertRevision (revisionRow call service (nextNumber s call.serviceId) parsed) with
  | none => .integrity parsed
  | some s₁ =>
    match insertOperations service.projectId call.serviceId s.revisions.nextId s₁ parsed.operations with
    | none => .integrity parsed
    | some s₂ => if engine.stores s₂ then .returned s.revisions.nextId false s₂ else .raised .data

/-- One transaction of `create_revision`; `parse` parses the file again. -/
def createAttempt (s : Database F) (call : CreateRevision)
    (parse : List PreviousOperation → Except Failure (NormalizedOpenAPI F)) (parsed : NormalizedOpenAPI F) : Outcome F :=
  match s.lockService call.serviceId call.projectId with
  | none => .raised (.lookup "服务不存在")
  | some service =>
    match s.revisionWithHash call.serviceId parsed.contentHash with
    | some existing => .returned existing.1 true s
    | none =>
      let previous := (previousRevision s call.serviceId service).elim [] s.previousOperations
      if previous.isEmpty then insertAll engine s call service parsed
      else
        match parse previous with
        | .error failure => .raised (.parser failure)
        | .ok parsed => insertAll engine s call service parsed

/-- The attempts that are left. -/
def createLoop (s : Database F) (call : CreateRevision)
    (parse : List PreviousOperation → Except Failure (NormalizedOpenAPI F)) :
    Nat → NormalizedOpenAPI F → Except ContractError (Nat × Bool) × Database F
  | 0, _ => (.error (.conflict "Revision 编号竞争未能完成" "revision_number_conflict" []), s)
  | attempts + 1, parsed =>
    match createAttempt engine s call parse parsed with
    | .returned revisionId reused s' => (.ok (revisionId, reused), s')
    | .raised error => (.error error, s)
    | .integrity parsed =>
      match s.revisionWithHash call.serviceId parsed.contentHash with
      | some existing => (.ok (existing.1, true), s)
      | none => createLoop s call parse attempts parsed

/-- The first parse is without the operations of a previous revision. -/
def createParsed (s : Database F) (call : CreateRevision)
    (parse : List PreviousOperation → Except Failure (NormalizedOpenAPI F)) :
    Except ContractError (Nat × Bool) × Database F :=
  match parse [] with
  | .error failure => (.error (.parser failure), s)
  | .ok parsed => createLoop engine s call parse 3 parsed

def createRevision [DocumentFloat F] (host : OpenApi.Host F) (s : Database F) (call : CreateRevision) :
    Except ContractError (Nat × Bool) × Database F :=
  createParsed engine s call (parseAndNormalizeOpenapi host call.filename call.content)

end

/-! ## `publish` -/

structure Publish where
  serviceId : Nat
  revisionNumber : Nat
  expectedContentHash : String
  projectId : Option Nat := none
  publishedBy : String := "admin"

/-- The revision that is published now, if it is not the one that is to be published. -/
def currentRevision (s : Database F) (serviceId : Nat) (service : ContractService) (revisionId : Nat) : Option Nat :=
  let pointed := service.currentPublishedRevisionId.bind fun k =>
    if k = revisionId then none else (s.revisions.get? k).map fun _ => k
  match pointed with
  | some k => some k
  | none => ((s.revisionsOf serviceId).find? fun r => r.2.status = .published).map Prod.fst

/-- The end of the transaction: the commit writes everything or raises. -/
def commit (engine : Engine F) (s s' : Database F) (revisionId : Nat) (reused : Bool) :
    Except ContractError (Nat × Bool) × Database F :=
  if engine.stores s' then (.ok (revisionId, reused), s') else (.error .data, s)

/-- The revision is published and the service points to it. -/
def switchTo (s : Database F) (call : Publish) (revisionId : Nat) : Database F :=
  (s.setPublished revisionId (orDefault call.publishedBy "admin")).setCurrent call.serviceId revisionId

def publish (engine : Engine F) (s : Database F) (call : Publish) : Except ContractError (Nat × Bool) × Database F :=
  match s.lockService call.serviceId call.projectId with
  | none => (.error (.lookup "服务不存在"), s)
  | some service =>
    match s.revisionNumbered call.serviceId call.revisionNumber call.projectId with
    | none => (.error (.lookup "Revision 不存在"), s)
    | some (revisionId, revision) =>
      if revision.contentHash ≠ call.expectedContentHash then
        (.error (.conflict "expected_content_hash 不匹配" "content_hash_mismatch"
          [("expected_content_hash", call.expectedContentHash), ("content_hash", revision.contentHash)]), s)
      else
        match revision.status with
        | .published => commit engine s (s.setCurrent call.serviceId revisionId) revisionId true
        | .superseded => (.error (.conflict "只有 proposed Revision 可以发布" "revision_not_publishable" []), s)
        | .proposed =>
          match currentRevision s call.serviceId service revisionId with
          | none => commit engine s (switchTo s call revisionId) revisionId false
          | some current =>
            if current = revisionId then commit engine s (switchTo s call revisionId) revisionId false
            else
              match validateOperationTransition (s.routesOf revisionId) (s.previousOperations current) with
              | .error failure => (.error (.parser failure), s)
              | .ok _ => commit engine s (switchTo (s.setStatus current .superseded) call revisionId) revisionId false

/-! ## The system -/

inductive Call
  | createService (call : CreateService)
  | createRevision (call : CreateRevision)
  | publish (call : Publish)

/-- What a call returns. -/
inductive Answer
  | service (serviceId : Nat)
  | revision (revisionId : Nat) (reused : Bool)
  | published (revisionId : Nat) (reused : Bool)
  deriving DecidableEq

def answered {α : Type} (answer : α → Answer) (r : Except ContractError α × Database F) :
    Except ContractError Answer × Database F := (r.1.map answer, r.2)

/-- One call. -/
def step [DocumentFloat F] (host : OpenApi.Host F) (engine : Engine F) (s : Database F) :
    Call → Except ContractError Answer × Database F
  | .createService call => answered .service (createService engine s call)
  | .createRevision call => answered (fun r => .revision r.1 r.2) (createRevision engine host s call)
  | .publish call => answered (fun r => .published r.1 r.2) (publish engine s call)

end CodexMemory.Contracts
