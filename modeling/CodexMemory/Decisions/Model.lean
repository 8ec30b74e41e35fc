import CodexMemory.Candidates.Model
import CodexMemory.Decisions.Contract
import CodexMemory.Trace

/-!
# `decision_service.py`

Decision runs, the decisions of the model recorded for them and their reviews.
Each operation returns what the call returns or raises, and the store after its
commit; `record_decision` also commits when it rejects an output.  Times and
audit rows are left out: no operation reads them.
-/

namespace CodexMemory.Decisions

open Candidates (Host)

/-! ## Rows -/

inductive RunStatus | pending | running | succeeded | failed | retryWait | cancelled
  deriving DecidableEq, Repr

def RunStatus.ofText? : String → Option RunStatus
  | "pending" => some .pending
  | "running" => some .running
  | "succeeded" => some .succeeded
  | "failed" => some .failed
  | "retry_wait" => some .retryWait
  | "cancelled" => some .cancelled
  | _ => none

/-- `_TERMINAL_RUN_STATUSES` -/
def RunStatus.terminal : RunStatus → Bool
  | .succeeded | .failed | .cancelled => true
  | _ => false

inductive ErrorClass | validation | policy | timeout | rateLimit | provider | internal | unknown
  deriving DecidableEq, Repr

def ErrorClass.ofText? : String → Option ErrorClass
  | "validation" => some .validation
  | "policy" => some .policy
  | "timeout" => some .timeout
  | "rate_limit" => some .rateLimit
  | "provider" => some .provider
  | "internal" => some .internal
  | "unknown" => some .unknown
  | _ => none

/-- `DecisionRunRow` -/
structure Run where
  projectId : Nat
  processingJobId : Option Nat
  outboxEventId : Option Nat
  model : String
  promptVersion : String
  inputHash : String
  status : RunStatus := .running
  retryCount : Nat := 0
  maxRetries : Nat
  errorClass : Option ErrorClass := none
  errorCode : Option String := none
  errorMessage : Option String := none
  inputTokens : Option Nat := none
  outputTokens : Option Nat := none
  totalTokens : Option Nat := none
  costMicros : Option Nat := none

inductive ReviewStatus | pending | approved | rejected | corrected
  deriving DecidableEq, Repr

/-- `ModelDecisionRow`; the columns of the model's answer are the `output`. -/
structure ModelDecisionRow (F : Type) where
  projectId : Nat
  decisionRunId : Nat
  candidateId : Option Nat
  output : ModelDecisionOutput F
  reviewStatus : ReviewStatus := .pending
  autoPublishAllowed : Bool
  policyVersion : String

inductive ReviewAction | approve | reject | correct
  deriving DecidableEq, Repr

def ReviewAction.ofText? : String → Option ReviewAction
  | "approve" => some .approve
  | "reject" => some .reject
  | "correct" => some .correct
  | _ => none

def ReviewAction.status : ReviewAction → ReviewStatus
  | .approve => .approved
  | .reject => .rejected
  | .correct => .corrected

/-- `DecisionReviewActionRow` -/
structure ReviewActionRow (F : Type) where
  projectId : Nat
  decisionId : Nat
  reviewer : String
  action : ReviewAction
  reason : String
  correction : Option (ModelDecisionOutput F)

/-- The tables of the service beside those of the candidates, and the projects of
the jobs and the outbox events that a run may name. -/
structure Store (F : Type) where
  base : Candidates.Db F
  policyRows : Nat → Option PolicyRow
  jobs : Nat → Option Nat
  outboxEvents : Nat → Option Nat
  runs : Table Run
  decisions : Table (ModelDecisionRow F)
  reviews : Table (ReviewActionRow F)

/-- The database as the candidates' service sees it, with the policies of the rows. -/
def Store.db {F : Type} (s : Store F) : Candidates.Db F :=
  { s.base with policies := fun projectId => candidateDecisionPolicy (s.policyRows projectId) }

/-- What an operation raises. -/
inductive Error
  | lookup (message : String)
  | value (message : String)
  | permission (message : String)
  | validation (code message : String)
  deriving DecidableEq

section Service

variable {F : Type} [Json.PyFloat F] (py : Pydantic F) (host : Host F) (s : Store F)

/-! ## Checks -/

/-- `_load_policy` -/
def loadPolicy (projectId : Nat) : Option Policy :=
  projectDecisionPolicy py ((s.policyRows projectId).getD {})

def invalidPolicy : Error := .validation "invalid_policy" "项目决策策略无效，已拒绝自动路径"

/-- One item of `_validate_evidence_ranges`. -/
def evidenceErrors (projectId : Nat) (item : EvidenceRange) : List String :=
  let named (text : String) := "evidence message_id=" ++ toString item.messageId ++ " " ++ text
  match s.base.messages.get? item.messageId with
  | none => [named "不存在"]
  | some message =>
    if message.projectId ≠ projectId then [named "不属于当前项目"]
    else if message.content.length < item.endChar then [named "超出内容范围"]
    else
      (if slice message.content item.startChar item.endChar ≠ item.quote then [named "quote 不匹配"] else []) ++
        if host.sha256 message.content ≠ message.contentHash then [named "原始内容哈希不匹配"] else []

/-- `_validate_database_constraints` -/
def databaseErrors (projectId : Nat) (payload : ModelDecisionOutput F) (policy : Policy) : List String :=
  (if policy.maxTitleLength < payload.title.length then ["title 超出项目策略长度"] else []) ++
  (if policy.maxContentChars < ((Json.obj payload.content).dumps .compact).length then
    ["content 超出项目策略长度"] else []) ++
  (if policy.maxReasonLength < payload.reason.length then ["reason 超出项目策略长度"] else []) ++
  (if policy.maxEvidenceRanges < payload.evidenceRanges.length then ["evidence_ranges 超出项目策略数量"] else []) ++
  (if policy.requireEvidence ∧ payload.evidenceRanges = [] then ["项目策略要求至少一条 evidence_range"] else []) ++
  payload.evidenceRanges.flatMap (evidenceErrors host s projectId)

/-- The candidate, where one is named, is of the project. -/
def candidateErrors (projectId : Nat) : Option Nat → List String
  | none => []
  | some candidateId =>
    match s.base.candidates.get? candidateId with
    | none => ["candidate 不属于当前项目"]
    | some candidate => if candidate.projectId ≠ projectId then ["candidate 不属于当前项目"] else []

/-- `_auto_publish_allowed` -/
def autoPublishAllowed (flags : Option Candidates.FeatureFlags) (policy : Policy) (payload : ModelDecisionOutput F) :
    Bool :=
  match flags with
  | none => false
  | some flags =>
    flags.decisionEngineEnabled && flags.candidatePublishEnabled && policy.enabled && policy.autoPublishEnabled &&
      policy.strategy = .autoPublish && payload.decision = .publish && payload.level = .L1 &&
      payload.scope = .project && policy.minConfidence ≤ payload.confidence && payload.riskFlags.isEmpty &&
      !payload.evidenceRanges.isEmpty

/-! ## Runs -/

structure RunRequest where
  model : String
  promptVersion : String
  inputHash : String
  maxRetries : Int := 3
  processingJobId : Option Nat := none
  outboxEventId : Option Nat := none

/-- `DecisionRunInput`, `none` where it raises. -/
def RunRequest.validate (request : RunRequest) : Option (String × String × String × Nat) := do
  let ⟨model, _⟩ ← strictText py 128 (some (.str request.model))
  let ⟨promptVersion, _⟩ ← strictText py 64 (some (.str request.promptVersion))
  let inputHash := py.trim request.inputHash
  if inputHash.length = 64 ∧ ∀ c ∈ inputHash.toList, c.isDigit ∨ ('a' ≤ c ∧ c ≤ 'f') then
    if 0 ≤ request.maxRetries ∧ request.maxRetries ≤ 20 then
      some (model, promptVersion, inputHash, request.maxRetries.toNat)
    else none
  else none

/-- `_require_related_project`: the row, where one is named, is of the project. -/
def related (rows : Nat → Option Nat) (projectId : Nat) : Option Nat → Bool
  | none => true
  | some rowId => rows rowId = some projectId

/-- `start_run` -/
def startRun (projectId : Nat) (request : RunRequest) : Except Error Nat × Store F :=
  match request.validate py with
  | none => (.error (.value "决策运行输入无效"), s)
  | some (model, promptVersion, inputHash, maxRetries) =>
    if (s.base.projects.get? projectId).isNone then
      (.error (.lookup ("project does not exist: " ++ toString projectId)), s)
    else if !related s.jobs projectId request.processingJobId then
      (.error (.value "processing_job 不属于当前项目"), s)
    else if !related s.outboxEvents projectId request.outboxEventId then
      (.error (.value "outbox_event 不属于当前项目"), s)
    else
      (.ok s.runs.nextId,
        { s with
          runs := s.runs.insert
            { projectId := projectId, processingJobId := request.processingJobId,
              outboxEventId := request.outboxEventId, model := model, promptVersion := promptVersion,
              inputHash := inputHash, maxRetries := maxRetries } })

/-- The arguments of `finish_run`. -/
structure RunFinish where
  status : String
  retryCount : Option Int := none
  errorClass : Option String := none
  errorCode : Option String := none
  errorMessage : Option String := none
  inputTokens : Option Int := none
  outputTokens : Option Int := none
  totalTokens : Option Int := none
  costMicros : Option Int := none

/-- `DecisionRunFinish` -/
structure DecisionRunFinish where
  status : RunStatus
  retryCount : Nat
  errorClass : Option ErrorClass
  errorCode : Option String
  errorMessage : Option String
  inputTokens : Option Nat
  outputTokens : Option Nat
  totalTokens : Option Nat
  costMicros : Option Nat
  finished : status ≠ .pending ∧ status ≠ .running
  no_error : status = .succeeded → errorClass = none

/-- A value that may be missing, `none` where it is there and not valid. -/
def optional {α β : Type} (validate : α → Option β) : Option α → Option (Option β)
  | none => some none
  | some a => (validate a).map some

def natural : Int → Option Nat
  | .ofNat n => some n
  | .negSucc _ => none

/-- `DecisionRunFinish.model_validate`, `none` where it raises. -/
def RunFinish.validate (update : RunFinish) : Option DecisionRunFinish := do
  let status ← RunStatus.ofText? update.status
  let retryCount ← natural (update.retryCount.getD 0)
  let errorClass ← optional ErrorClass.ofText? update.errorClass
  let errorCode ← optional (fun code => (strictText py 64 (some (.str code))).map Subtype.val) update.errorCode
  let errorMessage ← optional (fun message =>
    if (py.trim message).length ≤ 4000 then some (py.trim message) else none) update.errorMessage
  let inputTokens ← optional natural update.inputTokens
  let outputTokens ← optional natural update.outputTokens
  let totalTokens ← optional natural update.totalTokens
  let costMicros ← optional natural update.costMicros
  if retryCount ≤ 20 then
    if h : (status ≠ .pending ∧ status ≠ .running) ∧ (status = .succeeded → errorClass = none) then
      some ⟨status, retryCount, errorClass, errorCode, errorMessage, inputTokens, outputTokens, totalTokens,
        costMicros, h.1, h.2⟩
    else none
  else none

/-- The store with the run rewritten. -/
def Store.setRun (runId : Nat) (row : Run) : Store F := { s with runs := s.runs.modify runId fun _ => row }

def noRun (runId : Nat) : Error := .lookup ("decision run does not exist: " ++ toString runId)

/-- `finish_run` -/
def finishRun (runId : Nat) (update : RunFinish) : Except Error Nat × Store F :=
  match update.validate py with
  | none => (.error (.value "决策运行结果无效"), s)
  | some update =>
    match s.runs.get? runId with
    | none => (.error (noRun runId), s)
    | some run =>
      if run.status.terminal ∧ run.status ≠ update.status then (.error (.value "决策运行已经进入不可逆终态"), s)
      else
        (.ok runId, s.setRun runId
          { run with
            status := update.status, retryCount := update.retryCount, errorClass := update.errorClass
            errorCode := update.errorCode, errorMessage := update.errorMessage, inputTokens := update.inputTokens
            outputTokens := update.outputTokens, totalTokens := update.totalTokens, costMicros := update.costMicros })

/-! ## Decisions -/

/-- `_reject_run_in_session` -/
def rejectRun (run : Run) (code message : String) : Run :=
  { run with
    status := .failed, errorClass := some .validation, errorCode := some code
    errorMessage := some (String.ofList (message.toList.take 4000)) }

/-- The decision recorded for the run. -/
def decisionOf (runId : Nat) : Option (Nat × ModelDecisionRow F) :=
  s.decisions.rows.find? fun r => decide (r.2.decisionRunId = runId)

/-- `_reject_invalid_output`, and the error that `record_decision` raises again. -/
def rejectInvalidOutput (runId : Nat) : Except Error Nat × Store F :=
  match s.runs.get? runId with
  | none => (.error (noRun runId), s)
  | some run =>
    (.error (.validation "invalid_model_output" "模型输出不符合决策契约"),
      s.setRun runId (rejectRun run "invalid_model_output" "模型输出未通过结构校验，原始输出未持久化"))

/-- `record_decision` of an output for a run without a decision. -/
def recordFirst (runId : Nat) (run : Run) (payload : ModelDecisionOutput F) (candidateId : Option Nat) :
    Except Error Nat × Store F :=
  match loadPolicy py s run.projectId with
  | none =>
    (.error invalidPolicy, s.setRun runId (rejectRun run "invalid_policy" "项目决策策略无效，已拒绝自动路径"))
  | some policy =>
    let errors := databaseErrors host s run.projectId payload policy ++ candidateErrors s run.projectId candidateId
    if errors ≠ [] then
      (.error (.validation "invalid_decision_constraints" "模型决策未通过项目与证据校验"),
        s.setRun runId (rejectRun run "invalid_decision_constraints" ("; ".intercalate errors)))
    else
      (.ok s.decisions.nextId,
        { s.setRun runId { run with status := .succeeded } with
          decisions := s.decisions.insert
            { projectId := run.projectId, decisionRunId := runId, candidateId := candidateId, output := payload
              autoPublishAllowed := autoPublishAllowed (s.base.flags run.projectId) policy payload
              policyVersion := policy.policyVersion } })

/-- `record_decision`: the id of the decision. -/
def recordDecision (runId : Nat) (payload : Payload F) (candidateId : Option Nat) : Except Error Nat × Store F :=
  match validateModelOutput py payload with
  | none => rejectInvalidOutput s runId
  | some payload =>
    match s.runs.get? runId with
    | none => (.error (noRun runId), s)
    | some run =>
      if run.status ≠ .running ∧ run.status ≠ .succeeded then
        (.error (.value "只有 running 或 succeeded 运行可以记录决策"), s)
      else
        match decisionOf s runId with
        | some (decisionId, existing) =>
          if existing.output.same py payload then (.ok decisionId, s)
          else (.error (.validation "decision_conflict" "同一 decision run 已记录不同决策"), s)
        | none => recordFirst py host s runId run payload candidateId

/-! ## Reviews -/

/-- The arguments of `review_decision`. -/
structure ReviewRequest (F : Type) where
  reviewer : String
  action : String
  reason : String
  correction : Option (Payload F) := none

/-- `DecisionReviewInput.model_validate`, `none` where it raises. -/
def ReviewRequest.validate (request : ReviewRequest F) :
    Option (String × ReviewAction × String × Option (ModelDecisionOutput F)) := do
  let ⟨reviewer, _⟩ ← strictText py 255 (some (.str request.reviewer))
  let action ← ReviewAction.ofText? request.action
  let ⟨reason, _⟩ ← strictText py 2000 (some (.str request.reason))
  let correction ← optional (validateModelOutput py) request.correction
  if action = .correct ↔ correction.isSome then some (reviewer, action, reason, correction) else none

/-- The errors of a correction, or why they could not be found. -/
def correctionErrors (projectId : Nat) : Option (ModelDecisionOutput F) → Except Error Unit
  | none => .ok ()
  | some payload =>
    match loadPolicy py s projectId with
    | none => .error invalidPolicy
    | some policy =>
      if databaseErrors host s projectId payload policy ≠ [] then
        .error (.validation "invalid_correction" "人工纠正未通过项目与证据校验")
      else .ok ()

/-- `review_decision`: the id of the review. -/
def reviewDecision (decisionId projectId : Nat) (request : ReviewRequest F) : Except Error Nat × Store F :=
  match request.validate py with
  | none => (.error (.value "审核动作无效"), s)
  | some (reviewer, action, reason, correction) =>
    match s.decisions.get? decisionId with
    | none => (.error (.lookup ("model decision does not exist: " ++ toString decisionId)), s)
    | some decision =>
      if decision.projectId ≠ projectId then (.error (.permission "decision 不属于当前项目"), s)
      else
        match correctionErrors py host s projectId correction with
        | .error e => (.error e, s)
        | .ok () =>
          (.ok s.reviews.nextId,
            { s with
              reviews := s.reviews.insert ⟨projectId, decisionId, reviewer, action, reason, correction⟩
              decisions := s.decisions.modify decisionId fun row =>
                { row with
                  reviewStatus := action.status
                  autoPublishAllowed := if action = .approve then row.autoPublishAllowed else false } })

end Service

/-! ## Calls -/

/-- A call of the service; a policy row may also be written, and the candidates'
service is called in between. -/
inductive Call (F : Type)
  | startRun (projectId : Nat) (request : RunRequest)
  | finishRun (runId : Nat) (update : RunFinish)
  | recordDecision (runId : Nat) (payload : Payload F) (candidateId : Option Nat)
  | reviewDecision (decisionId projectId : Nat) (request : ReviewRequest F)
  | setPolicyRow (projectId : Nat) (row : Option PolicyRow)
  | candidates (call : Candidates.Call F)

inductive Reply
  | id (result : Except Error Nat)
  | written
  | candidates (reply : Candidates.Reply)

def step {F : Type} [Json.PyFloat F] (py : Pydantic F) (host : Host F) (s : Store F) : Call F → Reply × Store F
  | .startRun projectId request => ((.id (startRun py s projectId request).1), (startRun py s projectId request).2)
  | .finishRun runId update => ((.id (finishRun py s runId update).1), (finishRun py s runId update).2)
  | .recordDecision runId payload candidateId =>
    ((.id (recordDecision py host s runId payload candidateId).1), (recordDecision py host s runId payload candidateId).2)
  | .reviewDecision decisionId projectId request =>
    ((.id (reviewDecision py host s decisionId projectId request).1),
      (reviewDecision py host s decisionId projectId request).2)
  | .setPolicyRow projectId row => (.written, { s with policyRows := Function.update s.policyRows projectId row })
  | .candidates call =>
    let out := Candidates.step host s.db call
    (.candidates out.1, { s with base := out.2 })

end CodexMemory.Decisions
