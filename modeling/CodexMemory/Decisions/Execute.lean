import CodexMemory.Decisions.Gates
import CodexMemory.Decisions.Jobs

/-!
# `CandidateDecisionWorker.execute`

One attempt at a `decide_candidate` job, from the status of its candidate to the
decision that is applied to it, with the run that is recorded on the way.  Each
transaction is a function of the store; what the adapter answers is a parameter.
Audit rows are left out, and with them `record_model_failure`, which writes nothing else.
-/

namespace CodexMemory.Decisions

open Candidates (CandidateDecision Decision Host PyNumber)
open DecisionJobs (Raised candidateId? decisionEngineEnabled pyInt row?)
open Worker (JobClaim)

variable {F : Type}

/-! ## What the adapter answers -/

/-- What `decide` returns: a `CandidateDecision`, a mapping of JSON values, or anything else. -/
inductive AdapterResult (F : Type)
  | decision (raw : CandidateDecision F)
  | mapping (value : Json F)
  | other

/-- `InvalidCandidateDecision` -/
def invalid {α : Type} (message : String) : Except Candidates.Error α := .error (.invalidDecision message)

/-- A number, or nothing. -/
def mappingConfidence (py : Pydantic F) : Option (Json F) → Except Candidates.Error (Option PyNumber)
  | none | some .null => .ok none
  | some (.int n) => .ok (some (.finite n))
  | some (.float x) => .ok (some (.finite (py.value x)))
  | some _ => invalid "confidence 必须是数字或 null"

/-- A text that `strip` leaves something of. -/
def reasonCode : Json F → Option String
  | .str code => if strip code = "" then none else some (strip code)
  | _ => none

def mappingReasonCodes : Option (Json F) → Except Candidates.Error (List String)
  | none => .ok []
  | some (.arr items) =>
    match items.mapM reasonCode with
    | none => invalid "reason_codes 必须只包含非空字符串"
    | some codes => .ok codes
  | some _ => invalid "reason_codes 必须是字符串数组"

/-- A text or nothing, under this name. -/
def mappingText (name : String) : Option (Json F) → Except Candidates.Error (Option String)
  | none | some .null => .ok none
  | some (.str text) => .ok (some text)
  | some _ => invalid (name ++ " 必须是字符串或 null")

def mappingAbstain : Option (Json F) → Except Candidates.Error Bool
  | none => .ok false
  | some (.bool abstain) => .ok abstain
  | some _ => invalid "abstain 必须是布尔值"

def mappingMetadata : Option (Json F) → Except Candidates.Error (Json F)
  | none => .ok (.obj [])
  | some (.obj fields) => .ok (.obj fields)
  | some _ => invalid "metadata 必须是对象"

/-- The `CandidateDecision` that `normalize_candidate_decision` makes of a mapping. -/
def decisionOfMapping (py : Pydantic F) (value : Json F) : Except Candidates.Error (CandidateDecision F) := do
  let action ← match (value.get? "decision").or (value.get? "action") with
    | some (.str action) => .ok action
    | _ => invalid "模型输出缺少 decision"
  let confidence ← mappingConfidence py (value.get? "confidence")
  let reasonCodes ← mappingReasonCodes (value.get? "reason_codes")
  let model ← mappingText "model" (value.get? "model")
  let promptVersion ← mappingText "prompt_version" (value.get? "prompt_version")
  let abstain ← mappingAbstain (value.get? "abstain")
  let metadata ← mappingMetadata (value.get? "metadata")
  return ⟨action, confidence, reasonCodes, model, promptVersion, abstain, metadata⟩

/-- `normalize_candidate_decision` of what the adapter returns. -/
def normalizeResult (py : Pydantic F) : AdapterResult F → Except Candidates.Error (Decision F)
  | .decision raw => Candidates.normalizeCandidateDecision raw
  | .mapping value =>
    match decisionOfMapping py value with
    | .error e => .error e
    | .ok raw => Candidates.normalizeCandidateDecision raw
  | .other => invalid "模型输出必须是 CandidateDecision 或对象"

/-- A normalized decision, as it is handed to `apply_model_decision`. -/
def normalized (decision : Decision F) : CandidateDecision F where
  decision := actionText decision.decision
  confidence := decision.confidence.map .finite
  reasonCodes := decision.reasonCodes
  model := decision.model
  promptVersion := decision.promptVersion
  abstain := decision.abstain
  metadata := decision.metadata

/-- The error as a `CandidateDecisionError`, as the handlers of `execute` see it. -/
def wrapped : Raised → String × String × Bool
  | .candidateDecisionError code message retryable => (code, message, retryable)
  | _ => ("model_call_failed", "模型调用失败", true)

/-- What `execute` raises in its place. -/
def raiseWrapped (e : Raised) : Raised := .candidateDecisionError (wrapped e).1 (wrapped e).2.1 (wrapped e).2.2

/-! ## The run -/

/-- A `CandidateDecisionWorker`: the name and the version of its adapter, its threshold,
and whether the database has the table `decision_runs`. -/
structure DecisionWorker where
  name : String
  version : String
  svc : Candidates.Service := {}
  hasRuns : Bool := true

/-- `CandidateSnapshot` -/
structure CandidateSnapshot (F : Type) where
  candidateId : Nat
  projectId : Nat
  level : String
  scope : String
  memoryType : String
  title : String
  content : List (String × Json F)
  sourceMessageId : Nat
  evidence : List Candidates.Evidence
  projectKey : String

section Transactions

variable [Json.PyFloat F] (py : Pydantic F) (host : Host F) (worker : DecisionWorker)

/-- `dict(candidate.content or {})`; a content that is neither empty nor an object raises. -/
def snapshotContent (content : Json F) : Option (List (String × Json F)) :=
  if Candidates.truthy content then
    match content with
    | .obj fields => some fields
    | _ => none
  else some []

/-- `get_candidate_snapshot` -/
def candidateSnapshot (db : Candidates.Db F) (candidateId : Int) : Except Raised (CandidateSnapshot F) :=
  match row? db candidateId with
  | .error e => .error e
  | .ok row =>
    match db.projects.get? row.projectId with
    | none => .error (.other "candidate project does not exist")
    | some project =>
      match snapshotContent row.content with
      | none => .error (.other "content")
      | some content =>
        .ok
          { candidateId := candidateId.toNat, projectId := row.projectId, level := row.level.text
            scope := row.scope.text, memoryType := row.memoryType, title := row.title, content := content
            sourceMessageId := row.sourceMessageId
            evidence := (Candidates.evidenceOf db candidateId.toNat).map Prod.snd
            projectKey := project.projectKey }

def evidencePayload (e : Candidates.Evidence) : Json F :=
  .obj [("message_id", .int e.messageId), ("start_char", .int e.startChar), ("end_char", .int e.endChar),
    ("quoted_text", .str e.quotedText), ("content_hash", .str e.contentHash)]

/-- `snapshot_payload` -/
def CandidateSnapshot.payload (snapshot : CandidateSnapshot F) : Json F :=
  .obj [("project_key", .str snapshot.projectKey), ("candidate_id", .int snapshot.candidateId),
    ("project_id", .int snapshot.projectId), ("level", .str snapshot.level), ("scope", .str snapshot.scope),
    ("memory_type", .str snapshot.memoryType), ("title", .str snapshot.title), ("content", .obj snapshot.content),
    ("source_message_id", .int snapshot.sourceMessageId), ("evidence", .arr (snapshot.evidence.map evidencePayload))]

/-- `text[:length]` -/
def truncated (length : Nat) (text : String) : String := String.ofList (text.toList.take length)

/-- `int(claim.payload.get("max_retries", 3))`, `none` where it raises. -/
def maxRetries? (payload : Json F) : Option Int :=
  match payload.get? "max_retries" with
  | none => some 3
  | some value => pyInt host value

/-- `claim.payload.get("outbox_event_id")`, `none` where it is no key of a row. -/
def outboxEventId? (payload : Json F) : Option (Option Nat) :=
  match payload.get? "outbox_event_id" with
  | none | some .null => some none
  | some (.int (.ofNat n)) => some (some n)
  | some _ => none

/-- The arguments of `start_run`, `none` where they cannot be made. -/
def runRequest (snapshot : CandidateSnapshot F) (claim : JobClaim (Json F)) : Option RunRequest := do
  let maxRetries ← maxRetries? host claim.payload
  let outboxEventId ← outboxEventId? claim.payload
  return {
    model := truncated 128 worker.name, promptVersion := truncated 64 worker.version
    inputHash := host.sha256 (String.ofList (snapshot.payload.sortKeys.dumps .compact))
    maxRetries := maxRetries, processingJobId := some claim.jobId, outboxEventId := outboxEventId }

def startFailed : Raised := .candidateDecisionError "decision_run_start_failed" "无法建立决策运行审计记录" true

/-- `_start_decision_run` -/
def startDecisionRun (s : Store F) (snapshot : CandidateSnapshot F) (claim : JobClaim (Json F)) :
    Except Raised Nat × Store F :=
  if !worker.hasRuns then
    (.error (.candidateDecisionError "decision_contract_unavailable" "V1.6 决策持久化表不可用" true), s)
  else
    match runRequest host worker snapshot claim with
    | none => (.error startFailed, s)
    | some request =>
      match startRun py s snapshot.projectId request with
      | (.error _, s') => (.error startFailed, s')
      | (.ok runId, s') => (.ok runId, s')

/-- `_record_decision_contract` -/
def recordDecisionContract (s : Store F) (runId : Nat) (decision : Decision F) (candidateId : Nat) :
    Except Raised Unit × Store F :=
  match decision.metadata.get? "model_decision" with
  | some (.obj fields) =>
    match recordDecision py host s runId (.mapping (.obj fields)) (some candidateId) with
    | (.ok _, s') => (.ok (), s')
    | (.error (.validation code message), s') => (.error (.candidateDecisionError code message false), s')
    | (.error (.lookup message), s') => (.error (.other message), s')
    | (.error (.value message), s') => (.error (.other message), s')
    | (.error (.permission message), s') => (.error (.other message), s')
  | _ => (.error (.candidateDecisionError "invalid_model_output" "adapter 未提供严格 ModelDecisionOutput" true), s)

/-- `_finish_decision_run` with the status "succeeded" -/
def finishDecisionRun (s : Store F) (runId : Nat) (claim : JobClaim (Json F)) : Except Raised Unit × Store F :=
  match finishRun py s runId { status := "succeeded", retryCount := some (claim.attemptNo : Int) } with
  | (.error _, s') =>
    (.error (.candidateDecisionError "decision_run_finish_failed" "无法完成决策运行审计记录" true), s')
  | (.ok _, s') => (.ok (), s')

/-- The `error_class` of a code. -/
def errorClassOf (code : String) : String :=
  if isIn "timeout" code then "timeout" else if isIn "invalid" code then "validation" else "provider"

/-- The update that `_finish_decision_run_for_error` asks for. -/
def errorFinish (claim : JobClaim (Json F)) (code message : String) (retryable : Bool) : RunFinish where
  status := if retryable then "retry_wait" else "failed"
  retryCount := some (claim.attemptNo : Int)
  errorClass := some (errorClassOf code)
  errorCode := some code
  errorMessage := some (truncated 4000 message)

/-- `_finish_decision_run_for_error`, which drops what `finish_run` raises. -/
def finishDecisionRunForError (s : Store F) (runId : Nat) (claim : JobClaim (Json F)) (e : Raised) : Store F :=
  (finishRun py s runId (errorFinish claim (wrapped e).1 (wrapped e).2.1 (wrapped e).2.2)).2

/-! ## `execute` -/

/-- The body of the `try` once the run is there: the model's answer is normalized,
recorded, and the run finished. -/
def callModel (s : Store F) (runId : Nat) (claim : JobClaim (Json F)) (candidateId : Nat)
    (answer : Except Raised (AdapterResult F)) : Except Raised (Decision F) × Store F :=
  match answer with
  | .error e => (.error e, s)
  | .ok result =>
    match normalizeResult py result with
    | .error e => (.error (Raised.ofError e), s)
    | .ok decision =>
      match recordDecisionContract py host s runId decision candidateId with
      | (.error e, s') => (.error e, s')
      | (.ok (), s') =>
        match finishDecisionRun py s' runId claim with
        | (.error e, s'') => (.error e, s'')
        | (.ok (), s'') => (.ok decision, s'')

/-- `HandlerResult`: the candidate is closed already, or the decision was applied. -/
inductive Handled
  | duplicateNoop (status : Candidates.Status)
  | applied (application : Candidates.Application)

/-- `service.apply_model_decision` -/
def applyDecision (s : Store F) (candidateId : Nat) (decision : Decision F) : Except Raised Handled × Store F :=
  match Candidates.applyModelDecision host worker.svc s.db candidateId (normalized decision) with
  | (.error e, db) => (.error (.ofError e), { s with base := db })
  | (.ok application, db) => (.ok (.applied application), { s with base := db })

/-- The handlers of the `try`, and what follows it. -/
def concludeAttempt (runId : Nat) (claim : JobClaim (Json F)) (candidateId : Nat) :
    Except Raised (Decision F) × Store F → Except Raised Handled × Store F
  | (.error e, s) => (.error (raiseWrapped e), finishDecisionRunForError py s runId claim e)
  | (.ok decision, s) => applyDecision host worker s candidateId decision

/-- `execute` from the snapshot on. -/
def decideCandidate (s : Store F) (claim : JobClaim (Json F)) (snapshot : CandidateSnapshot F)
    (answer : Except Raised (AdapterResult F)) : Except Raised Handled × Store F :=
  match startDecisionRun py host worker s snapshot claim with
  | (.error e, s') => (.error (raiseWrapped e), s')
  | (.ok runId, s') =>
    concludeAttempt py host worker runId claim snapshot.candidateId
      (callModel py host s' runId claim snapshot.candidateId answer)

def engineDisabled : Raised :=
  .candidateDecisionError "decision_engine_disabled" "项目 decision_engine_enabled 未开启" false

/-- `execute`; `answer` is what `model.decide` returns or raises, should it be called. -/
def execute (s : Store F) (claim : JobClaim (Json F)) (answer : Except Raised (AdapterResult F)) :
    Except Raised Handled × Store F :=
  match candidateId? claim.payload with
  | none => (.error (.other "candidate_id"), s)
  | some candidateId =>
    match row? s.base candidateId with
    | .error e => (.error e, s)
    | .ok row =>
      match row.status with
      | .approved | .published | .rejected | .superseded => (.ok (.duplicateNoop row.status), s)
      | _ =>
        let s' : Store F := { s with base := (Candidates.beginModelDecision s.db candidateId.toNat).2 }
        if !decisionEngineEnabled s'.base row then (.error engineDisabled, s')
        else
          match candidateSnapshot s'.base candidateId with
          | .error e => (.error e, s')
          | .ok snapshot => decideCandidate py host worker s' claim snapshot answer

end Transactions

end CodexMemory.Decisions
