import CodexMemory.Json.Value
import CodexMemory.Idempotency
import CodexMemory.Table
import CodexMemory.Trace
import Mathlib.Data.Rat.Defs
import Mathlib.Logic.Function.Basic
import Mathlib.Algebra.Order.Ring.Unbundled.Rat

/-!
# Candidate memories of `pipelines/v11_candidates.py`

Rows of the candidate tables and the operations of `CandidatePolicyService`
on them, the admin review endpoint of `api/http_api.py`, and the changes of
feature flags and of the decision policy.  Each operation is a function of the
database; it returns what the call returns or raises and the database after
its commit (unchanged when it raises before).  Audit rows are left out: no
operation reads them.
-/

namespace CodexMemory.Candidates

inductive Level | L1 | L2 | L3
  deriving DecidableEq, Repr

def Level.text : Level → String
  | .L1 => "L1"
  | .L2 => "L2"
  | .L3 => "L3"

def Level.ofText? : String → Option Level
  | "L1" => some .L1
  | "L2" => some .L2
  | "L3" => some .L3
  | _ => none

inductive Scope | project | global
  deriving DecidableEq, Repr

def Scope.text : Scope → String
  | .project => "project"
  | .global => "global"

def Scope.ofText? : String → Option Scope
  | "project" => some .project
  | "global" => some .global
  | _ => none

inductive Status | generated | validating | needsReview | approved | published | rejected | superseded
  deriving DecidableEq, Repr

/-- The `decision` column of `candidate_policy_results`. -/
inductive PolicyDecision | publish | reject | skip | needsReview | approve | supersede
  deriving DecidableEq, Repr

/-- Named checks with their results, in the order of the source's dictionary. -/
abbrev Checks := List (String × Bool)

/-- `all(checks.values())`. -/
def Checks.passed (checks : Checks) : Bool := checks.all fun c => c.2

/-- The names of the checks that fail. -/
def Checks.reasons (checks : Checks) : List String := (checks.filter fun c => !c.2).map Prod.fst

/-- One assignment of `dict.update`. -/
def Checks.set (checks : Checks) (name : String) (passed : Bool) : Checks :=
  if checks.any fun c => c.1 = name then checks.map fun c => if c.1 = name then (name, passed) else c
  else checks ++ [(name, passed)]

/-- `checks.update(extra)`. -/
def Checks.update (checks : Checks) : Checks → Checks
  | [] => checks
  | (name, passed) :: rest => Checks.update (checks.set name passed) rest

/-! ## Rows -/

structure Project where
  projectKey : String

/-- `MessageRow`: an immutable message of the archive. -/
structure Message where
  projectId : Nat
  content : String
  contentHash : String

/-- `MemoryCandidateRow`. -/
structure Candidate (F : Type) where
  projectId : Nat
  sourceMessageId : Nat
  taskType : String
  level : Level
  scope : Scope
  memoryType : String
  title : String
  content : Json F
  model : Option String := none
  promptVersion : Option String := none
  classifierVersion : String := "rule-v1"
  modelConfidence : Option Rat := none
  status : Status := .generated
  abstain : Bool := false
  publishedMemoryId : Option Nat := none

/-- `CandidateEvidenceRow`. -/
structure Evidence where
  candidateId : Nat
  messageId : Nat
  startChar : Nat
  endChar : Nat
  quotedText : String
  contentHash : String

/-- `CandidatePolicyResultRow`. -/
structure PolicyResult where
  candidateId : Nat
  policyVersion : String
  decision : PolicyDecision
  reasonCodes : List String
  checks : Checks
  reviewer : Option String := none
  reason : Option String := none

/-- `MemoryRow`. -/
structure Memory (F : Type) where
  projectId : Option Nat
  level : Level
  memoryType : String
  title : String
  content : Json F
  confidence : Rat
  status : String
  scope : Scope
  sourceKind : String
  reviewStatus : String
  deprecated : Bool := false

/-- `MemorySourceRow`. -/
structure MemorySource where
  memoryId : Nat
  messageId : Nat

inductive EventType | decisionRequested | accepted
  deriving DecidableEq, Repr

/-- An outbox event of a candidate.  Its idempotency key is made of the
project's key, the event type and the candidate's id. -/
structure Event where
  projectId : Nat
  eventType : EventType
  candidateId : Nat
  deriving DecidableEq

/-- `ProjectFeatureFlagRow`, the flags that are read here. -/
structure FeatureFlags where
  candidatePublishEnabled : Bool := false
  decisionEngineEnabled : Bool := false

/-- `CandidateDecisionPolicy`, as `policy_provider.get` returns it. -/
structure DecisionPolicy where
  enabled : Bool := false
  autoPublishEnabled : Bool := false
  strategy : String := "manual_review"
  allowedLevel : String := "L1"
  allowedScope : String := "project"
  minConfidence : Rat := 4 / 5

structure Db (F : Type) where
  projects : Table Project
  messages : Table Message
  candidates : Table (Candidate F)
  evidence : Table Evidence
  policyResults : Table PolicyResult
  memories : Table (Memory F)
  memorySources : Table MemorySource
  events : Table Event
  flags : Nat → Option FeatureFlags
  policies : Nat → DecisionPolicy

/-- What the code takes from Python: `str` and `int` of a JSON value (`none`
where `int` raises), and the hexadecimal SHA-256 of a text in UTF-8. -/
structure Host (F : Type) where
  str : Json F → String
  int : Json F → Option Int
  sha256 : String → String

/-- A `CandidatePolicyService`, with its own threshold if it was given one. -/
structure Service where
  autoPublishThreshold : Option Rat := none

/-- What an operation raises. -/
inductive Error
  | lookup (message : String)
  | value (message : String)
  | invalidDecision (message : String)
  | integrity (constraint : String)
  deriving DecidableEq

/-! ## Checks -/

section Checks

variable {F : Type} [Json.PyFloat F] (host : Host F) (svc : Service) (db : Db F)

/-- `bool(value)`. -/
def truthy : Json F → Bool
  | .null => false
  | .bool b => b
  | .int n => n ≠ 0
  | .float x => !Json.PyFloat.isZero x
  | .str s => s ≠ ""
  | .arr items => !items.isEmpty
  | .obj fields => !fields.isEmpty

/-- The value is the text `s`. -/
def isText (s : String) : Json F → Bool
  | .str t => t = s
  | _ => false

/-- `json.dumps(content or {}, ensure_ascii=False, sort_keys=True,
separators=(",", ":"))`. -/
def contentKey (content : Json F) : List Char :=
  (if truthy content then content else .obj []).sortKeys.dumps .compact

def evidenceOf (candidateId : Nat) : List (Nat × Evidence) :=
  db.evidence.select fun e => e.candidateId = candidateId

/-- `str(content.get("text", ""))`, empty when the content is no object. -/
def candidateText (content : Json F) : String :=
  if content.isObject then ((content.get? "text").map host.str).getD "" else ""

/-- One row of `_verify_evidence`. -/
def evidenceHolds (projectId : Nat) (text : String) (e : Evidence) : Bool :=
  match db.messages.get? e.messageId with
  | none => false
  | some message =>
    message.projectId = projectId && host.sha256 message.content = e.contentHash &&
      e.endChar ≤ message.content.length &&
      slice message.content e.startChar e.endChar = e.quotedText && isIn e.quotedText text

/-- `_verify_evidence`. -/
def verifyEvidence (candidateId : Nat) (candidate : Candidate F) : Bool :=
  let rows := evidenceOf db candidateId
  !rows.isEmpty && rows.all fun r =>
    evidenceHolds host db candidate.projectId (candidateText host candidate.content) r.2

/-- One item of `_verify_model_evidence`. -/
def modelEvidenceHolds (projectId : Nat) (item : Json F) : Bool :=
  match (item.get? "message_id").bind host.int, (item.get? "start_char").bind host.int,
    (item.get? "end_char").bind host.int, (item.get? "quote").map host.str with
  | some messageId, some start, some stop, some quote =>
    match (if messageId < 0 then none else db.messages.get? messageId.toNat) with
    | none => false
    | some message =>
      message.projectId = projectId && 0 ≤ start && start < stop &&
        stop ≤ message.content.length &&
        slice message.content start.toNat stop.toNat = quote &&
        host.sha256 message.content = message.contentHash
  | _, _, _, _ => false

/-- `_verify_model_evidence`. -/
def verifyModelEvidence (projectId : Nat) : Option (Json F) → Bool
  | some (.arr items) => !items.isEmpty && items.all (modelEvidenceHolds host db projectId)
  | _ => false

/-- `_has_duplicate_memory`. -/
def hasDuplicateMemory (candidate : Candidate F) : Bool :=
  db.memories.rows.any fun r =>
    r.2.projectId = some candidate.projectId && r.2.scope = .project && r.2.status = "published" &&
      r.2.level = candidate.level && r.2.memoryType = candidate.memoryType &&
      contentKey r.2.content = contentKey candidate.content

/-- `a` and `b` agree in project, level, scope, type and content. -/
def identical (a b : Candidate F) : Bool :=
  a.projectId = b.projectId && a.level = b.level && a.scope = b.scope &&
    a.memoryType = b.memoryType && contentKey a.content = contentKey b.content

/-- `_has_duplicate_candidate`. -/
def hasDuplicateCandidate (candidateId : Nat) (candidate : Candidate F) : Bool :=
  db.candidates.rows.any fun r =>
    r.1 ≠ candidateId && identical r.2 candidate &&
      (r.2.status = .validating || r.2.status = .approved || r.2.status = .published)

/-- `_publish_enabled`. -/
def publishEnabled (projectId : Nat) : Bool :=
  match db.flags projectId with
  | none => false
  | some flags => flags.candidatePublishEnabled

/-- `_auto_publish_enabled`. -/
def autoPublishEnabled (projectId : Nat) : Bool :=
  match db.flags projectId with
  | none => false
  | some flags => flags.candidatePublishEnabled && flags.decisionEngineEnabled

/-- `_threshold_for`. -/
def thresholdFor (policy : DecisionPolicy) : Rat :=
  svc.autoPublishThreshold.getD policy.minConfidence

/-- `_base_checks`.  The level and the scope of a row are valid by their
types. -/
def baseChecks (candidateId : Nat) (candidate : Candidate F) : Checks :=
  [("schema_valid", candidate.content.isObject),
   ("evidence_valid", verifyEvidence host db candidateId candidate),
   ("scope_valid", true),
   ("project_access_valid", (db.projects.get? candidate.projectId).isSome),
   ("conflict_check",
    candidate.publishedMemoryId.isNone && !hasDuplicateCandidate db candidateId candidate),
   ("feature_enabled", publishEnabled db candidate.projectId)]

/-- `CandidateDecision` as `normalize_candidate_decision` returns it. -/
inductive ModelDecision | publish | skip | needsReview
  deriving DecidableEq, Repr

structure Decision (F : Type) where
  decision : ModelDecision
  confidence : Option Rat
  reasonCodes : List String
  model : Option String
  promptVersion : Option String
  abstain : Bool
  metadata : Json F

/-- `decision.confidence is not None and decision.confidence >= threshold`. -/
def reaches (threshold : Rat) : Option Rat → Bool
  | none => false
  | some confidence => threshold ≤ confidence

/-- `_automatic_checks`. -/
def automaticChecks (candidateId : Nat) (candidate : Candidate F) (decision : Decision F) : Checks :=
  let policy := db.policies candidate.projectId
  let flagged (name : String) := ((decision.metadata.get? name).map truthy).getD false
  [("schema_valid", candidate.content.isObject),
   ("evidence_valid", verifyEvidence host db candidateId candidate),
   ("scope_valid", candidate.scope = .project),
   ("project_access_valid", (db.projects.get? candidate.projectId).isSome),
   ("conflict_check", candidate.publishedMemoryId.isNone && !hasDuplicateMemory db candidate &&
      !hasDuplicateCandidate db candidateId candidate),
   ("feature_enabled", autoPublishEnabled db candidate.projectId),
   ("policy_enabled", policy.enabled && policy.autoPublishEnabled),
   ("policy_strategy", policy.strategy = "auto_publish"),
   ("policy_level", policy.allowedLevel = "L1"),
   ("policy_scope", policy.allowedScope = "project"),
   ("level_allowed", candidate.level = .L1),
   ("model_level_allowed", candidate.level = .L1 &&
      ((decision.metadata.get? "level").map (isText "L1")).getD false),
   ("model_scope_allowed", candidate.scope = .project &&
      ((decision.metadata.get? "scope").map (isText "project")).getD false),
   ("model_evidence_valid",
    verifyModelEvidence host db candidate.projectId (decision.metadata.get? "evidence_ranges")),
   ("confidence_threshold", reaches (thresholdFor svc policy) decision.confidence),
   ("model_not_abstained", !decision.abstain),
   ("risk_check", !(flagged "risk_flags" || flagged "risk" || flagged "validation_errors")),
   ("model_validation", match decision.metadata.get? "validation_passed" with
      | some (.bool false) => false
      | _ => true),
   ("model_publish_requested", decision.decision = .publish)]

/-- The latest policy result of a candidate; rows stand in key order. -/
def latestPolicy (candidateId : Nat) : Option PolicyResult :=
  ((db.policyResults.select fun r => r.candidateId = candidateId).getLast?).map Prod.snd

/-- The checks that `publish` adds on the automatic path. -/
def automaticPublishChecks (candidateId : Nat) (candidate : Candidate F) : Checks :=
  let policy := db.policies candidate.projectId
  [("level_allowed", candidate.level = .L1),
   ("scope_project", candidate.scope = .project),
   ("candidate_approved", candidate.status = .approved),
   ("feature_enabled", autoPublishEnabled db candidate.projectId),
   ("policy_enabled", policy.enabled && policy.autoPublishEnabled),
   ("policy_strategy", policy.strategy = "auto_publish"),
   ("policy_level", policy.allowedLevel = "L1"),
   ("policy_scope", policy.allowedScope = "project"),
   ("confidence_threshold", reaches (thresholdFor svc policy) candidate.modelConfidence),
   ("model_not_abstained", !candidate.abstain),
   ("decision_approved", match latestPolicy db candidateId with
      | none => false
      | some result => result.decision = .approve && result.checks.passed)]

/-- The checks of `publish`. -/
def publishChecks (candidateId : Nat) (candidate : Candidate F) (automatic : Bool) : Checks :=
  let base := baseChecks host db candidateId candidate
  if automatic then base.update (automaticPublishChecks svc db candidateId candidate) else base

end Checks

/-! ## Writing rows -/

section Writes

variable {F : Type} (db : Db F)

def setCandidate (candidateId : Nat) (row : Candidate F) : Db F :=
  { db with candidates := db.candidates.modify candidateId fun _ => row }

/-- `DECISION_HANDLER_VERSION`. -/
def decisionHandlerVersion : String := "candidate-decision-v1"

/-- `_policy_result`. -/
def addPolicyResult (candidateId : Nat) (decision : PolicyDecision) (reasonCodes : List String)
    (checks : Checks) (reviewer reason : Option String) : Db F :=
  { db with
    policyResults := db.policyResults.insert
      ⟨candidateId, decisionHandlerVersion, decision, reasonCodes, checks, reviewer, reason⟩ }

def eventOf (eventType : EventType) (candidateId : Nat) : Option Nat :=
  (db.events.rows.find? fun r =>
    r.2.eventType = eventType && r.2.candidateId = candidateId).map Prod.fst

/-- `_queue_decision_event` and `_queue_accepted_event`: the event with this
idempotency key, inserted unless it exists. -/
def queueEvent (project : Project) (projectId : Nat) (eventType : EventType) (candidateId : Nat) :
    Except Error (Nat × Db F) :=
  match normalisePart project.projectKey with
  | none => .error (.value "project_key contains invalid idempotency characters")
  | some _ =>
    match eventOf db eventType candidateId with
    | some eventId => .ok (eventId, db)
    | none =>
      .ok (db.events.nextId,
        { db with events := db.events.insert ⟨projectId, eventType, candidateId⟩ })

/-- The evidence rows of a new candidate. -/
def addEvidence (projectId candidateId : Nat) : List (Nat × Int × Int) → Db F → Except Error (Db F)
  | [], db => .ok db
  | (messageId, start, stop) :: rest, db =>
    match db.messages.get? messageId with
    | none => .error (.value "evidence message does not belong to project")
    | some message =>
      if message.projectId ≠ projectId then
        .error (.value "evidence message does not belong to project")
      else if start < 0 ∨ stop ≤ start ∨ message.content.length < stop then
        .error (.value "证据偏移量无效")
      else
        addEvidence projectId candidateId rest
          { db with
            evidence := db.evidence.insert
              ⟨candidateId, messageId, start.toNat, stop.toNat,
                slice message.content start.toNat stop.toNat, message.contentHash⟩ }

/-- What a new candidate is made from. -/
structure NewCandidate (F : Type) where
  sourceMessageId : Nat
  taskType : String
  level : String
  scope : String
  memoryType : String
  title : String
  content : Json F
  evidence : List (Nat × Int × Int)

/-- `_create_candidate_in_session`. -/
def createCandidateInSession (projectId : Nat) (new : NewCandidate F) : Except Error (Nat × Db F) :=
  match Scope.ofText? new.scope with
  | none => .error (.value "scope 必须是 project 或 global")
  | some scope =>
    match Level.ofText? new.level with
    | none => .error (.value "level 必须是 L1、L2 或 L3")
    | some level =>
      match db.messages.get? new.sourceMessageId with
      | none => .error (.value "source message does not belong to project")
      | some source =>
        if source.projectId ≠ projectId then
          .error (.value "source message does not belong to project")
        else
          let candidateId := db.candidates.nextId
          let row : Candidate F :=
            { projectId := projectId, sourceMessageId := new.sourceMessageId
              taskType := new.taskType, level := level, scope := scope
              memoryType := new.memoryType, title := new.title, content := new.content }
          match addEvidence projectId candidateId new.evidence
            { db with candidates := db.candidates.insert row } with
          | .error e => .error e
          | .ok db => .ok (candidateId, db)

end Writes

/-! ## Operations -/

section Operations

variable {F : Type} [Json.PyFloat F] (host : Host F) (svc : Service) (db : Db F)

def noCandidate : Error := .lookup "candidate does not exist"

/-- An operation that raises leaves the database as it was. -/
def orRollback {α : Type} (result : Except Error (α × Db F)) : Except Error α × Db F :=
  match result with
  | .error e => (.error e, db)
  | .ok (a, db') => (.ok a, db')

/-- Create the candidate and queue its decision. -/
def createAndQueue (project : Project) (projectId : Nat) (new : NewCandidate F) :
    Except Error (Nat × Db F) :=
  match createCandidateInSession db projectId new with
  | .error e => .error e
  | .ok (candidateId, db') =>
    match queueEvent db' project projectId .decisionRequested candidateId with
    | .error e => .error e
    | .ok (_, db'') => .ok (candidateId, db'')

/-- `create_candidate`. -/
def createCandidate (projectId : Nat) (new : NewCandidate F) : Except Error Nat × Db F :=
  orRollback db <|
    if (Scope.ofText? new.scope).isNone then .error (.value "scope 必须是 project 或 global")
    else if (Level.ofText? new.level).isNone then .error (.value "level 必须是 L1、L2 或 L3")
    else if !new.content.isObject then .error (.value "候选 content 必须是对象")
    else
      match db.projects.get? projectId with
      | none => .error (.value "source message does not belong to project")
      | some project => createAndQueue db project projectId new

/-- `begin_model_decision`. -/
def beginModelDecision (candidateId : Nat) : Except Error Unit × Db F :=
  match db.candidates.get? candidateId with
  | none => (.error noCandidate, db)
  | some candidate =>
    match candidate.status with
    | .generated | .needsReview | .validating =>
      (.ok (), setCandidate db candidateId { candidate with status := .validating })
    | _ => (.ok (), db)

/-- `evaluate`: the id of the policy result. -/
def evaluate (candidateId : Nat) : Except Error Nat × Db F :=
  match db.candidates.get? candidateId with
  | none => (.error noCandidate, db)
  | some candidate =>
    let checks := baseChecks host db candidateId candidate
    let reasons := checks.reasons
    (.ok db.policyResults.nextId,
      addPolicyResult db candidateId (if reasons.isEmpty then .publish else .reject) reasons checks
        none none)

/-- A Python number as a confidence: a float may be infinite or no number. -/
inductive PyNumber
  | finite (q : Rat)
  | nonFinite
  deriving DecidableEq

/-- `CandidateDecision` as a caller builds it. -/
structure CandidateDecision (F : Type) where
  decision : String
  confidence : Option PyNumber
  reasonCodes : List String
  model : Option String
  promptVersion : Option String
  abstain : Bool
  metadata : Json F

def ModelDecision.ofText? : String → Option ModelDecision
  | "publish" => some .publish
  | "skip" => some .skip
  | "needs_review" => some .needsReview
  | _ => none

/-- `normalize_candidate_decision`. -/
def normalizeCandidateDecision (raw : CandidateDecision F) : Except Error (Decision F) :=
  if !raw.reasonCodes.all fun code => strip code ≠ "" then
    .error (.invalidDecision "reason_codes 必须只包含非空字符串")
  else
    match ModelDecision.ofText? (lower (strip raw.decision)) with
    | none => .error (.invalidDecision "decision 必须是 publish、skip 或 needs_review")
    | some action =>
      let checked : Except Error (Option Rat) :=
        match raw.confidence with
        | none => .ok none
        | some .nonFinite => .error (.invalidDecision "confidence 必须是 0 到 1 之间的有限数字")
        | some (.finite q) =>
          if 0 ≤ q ∧ q ≤ 1 then .ok (some q)
          else .error (.invalidDecision "confidence 必须是 0 到 1 之间的有限数字")
      match checked with
      | .error e => .error e
      | .ok confidence =>
        if action = .publish ∧ confidence = none then
          .error (.invalidDecision "publish 决策必须提供 confidence")
        else
          .ok ⟨action, confidence, raw.reasonCodes, raw.model, raw.promptVersion, raw.abstain,
            raw.metadata⟩

/-- `DecisionApplication.outcome`. -/
inductive Outcome | skip | needsReview | accepted
  deriving DecidableEq, Repr

/-- `DecisionApplication`. -/
structure Application where
  candidateId : Nat
  outcome : Outcome
  candidateStatus : Status
  reasonCodes : List String := []
  policyResultId : Option Nat := none
  acceptedEventId : Option Nat := none
  deriving DecidableEq

/-- The candidate with the model's answer written to it. -/
def decidedRow (candidate : Candidate F) (decision : Decision F) (status : Status) : Candidate F :=
  { candidate with
    model := decision.model
    promptVersion := decision.promptVersion
    modelConfidence := decision.confidence
    abstain := decision.abstain
    status := status }

/-- Close an application with a policy result. -/
def conclude (candidateId : Nat) (row : Candidate F) (outcome : Outcome) (decision : PolicyDecision)
    (reasonCodes : List String) (checks : Checks) : Application × Db F :=
  (⟨candidateId, outcome, row.status, reasonCodes, some db.policyResults.nextId, none⟩,
    addPolicyResult (setCandidate db candidateId row) candidateId decision reasonCodes checks none
      none)

def orDefault (reasonCodes : List String) (code : String) : List String :=
  if reasonCodes.isEmpty then [code] else reasonCodes

/-- `apply_model_decision` for a candidate that is not closed. -/
def applyOpen (project : Project) (candidateId : Nat) (candidate : Candidate F)
    (decision : Decision F) : Except Error (Application × Db F) :=
  match decision.decision with
  | .skip =>
    .ok (conclude db candidateId (decidedRow candidate decision .rejected) .skip .skip
      (orDefault decision.reasonCodes "model_skip") [("model_decision", true)])
  | .needsReview =>
    .ok (conclude db candidateId (decidedRow candidate decision .needsReview) .needsReview
      .needsReview (orDefault decision.reasonCodes "model_needs_review") [("model_decision", true)])
  | .publish =>
    let checks := automaticChecks host svc db candidateId candidate decision
    let duplicateMemory := hasDuplicateMemory db candidate
    let duplicateCandidate := hasDuplicateCandidate db candidateId candidate
    -- both duplicates are part of `conflict_check`
    if duplicateMemory || duplicateCandidate then
      .ok (conclude db candidateId (decidedRow candidate decision .superseded) .skip .skip
        [if duplicateMemory then "duplicate_memory" else "duplicate_candidate"] checks)
    else if !checks.passed then
      .ok (conclude db candidateId (decidedRow candidate decision .needsReview) .needsReview
        .needsReview checks.reasons checks)
    else
      let out := conclude db candidateId (decidedRow candidate decision .approved) .accepted
        .approve [] checks
      match queueEvent out.2 project candidate.projectId .accepted candidateId with
      | .error e => .error e
      | .ok (eventId, db') => .ok ({ out.1 with acceptedEventId := some eventId }, db')

/-- `apply_model_decision`. -/
def applyModelDecision (candidateId : Nat) (raw : CandidateDecision F) :
    Except Error Application × Db F :=
  match normalizeCandidateDecision raw with
  | .error e => (.error e, db)
  | .ok decision =>
    match db.candidates.get? candidateId with
    | none => (.error noCandidate, db)
    | some candidate =>
      match db.projects.get? candidate.projectId with
      | none => (.error (.lookup "candidate project does not exist"), db)
      | some project =>
        if candidate.publishedMemoryId.isSome then
          (.ok ⟨candidateId, .skip, .published, ["already_published"], none, none⟩, db)
        else if candidate.status = .rejected ∨ candidate.status = .superseded then
          (.ok ⟨candidateId, .skip, candidate.status, ["candidate_closed"], none, none⟩, db)
        else orRollback db (applyOpen host svc db project candidateId candidate decision)

/-- The row of the memory that `publish` creates. -/
def memoryOf (candidate : Candidate F) : Memory F where
  projectId := if candidate.scope = .project then some candidate.projectId else none
  level := candidate.level
  memoryType := candidate.memoryType
  title := candidate.title
  content := candidate.content
  confidence := match candidate.modelConfidence with
    | none => 1 / 2
    | some q => if q = 0 then 1 / 2 else q
  status := "published"
  scope := candidate.scope
  sourceKind := match candidate.model with
    | none => "rule"
    | some model => if model = "" then "rule" else "llm"
  reviewStatus := "accepted"

/-- What `publish` decides on the rows it reads: raise without a write, return
the memory that exists, refuse (with the status it then sets), or create a
memory with these sources. -/
inductive PublishPlan (F : Type)
  | raise (error : Error)
  | existing (memoryId : Nat)
  | refuse (status : Status) (checks : Checks)
  | create (memory : Memory F) (messageIds : List Nat) (checks : Checks)

/-- The reading half of `publish`.  Two evidence rows of one message violate
the unique constraint of the memory's sources. -/
def publishPlan (candidateId : Nat) (candidate : Candidate F) (automatic : Bool) : PublishPlan F :=
  match candidate.publishedMemoryId.bind fun m => (db.memories.get? m).map fun _ => m with
  | some memoryId => .existing memoryId
  | none =>
    let checks := publishChecks host svc db candidateId candidate automatic
    if !checks.passed then
      .refuse
        (if automatic ∧ candidate.status ≠ .rejected ∧ candidate.status ≠ .superseded ∧
            candidate.status ≠ .published then .needsReview
          else candidate.status) checks
    else
      let messageIds := (evidenceOf db candidateId).map fun r => r.2.messageId
      if messageIds.Nodup then .create (memoryOf candidate) messageIds checks
      else .raise (.integrity "uq_memory_sources_memory_message")

/-- The rows of `memory_sources`. -/
def addSources (memoryId : Nat) : List Nat → Table MemorySource → Table MemorySource
  | [], sources => sources
  | messageId :: rest, sources => addSources memoryId rest (sources.insert ⟨memoryId, messageId⟩)

/-- The error that `publish` raises after it has committed a refusal. -/
def refusal (checks : Checks) : Error :=
  if ("evidence_valid", false) ∈ checks then .value "evidence could not be verified"
  else .value ("candidate rejected: " ++ ", ".intercalate checks.reasons)

/-- The writing half of `publish`: `read` is the candidate as it was read. -/
def commitPublish (candidateId : Nat) (read : Candidate F) : PublishPlan F → Except Error Nat × Db F
  | .raise e => (.error e, db)
  | .existing memoryId => (.ok memoryId, db)
  | .refuse status checks =>
    (.error (refusal checks),
      addPolicyResult
        { db with candidates := db.candidates.modify candidateId fun row =>
            { row with status := if status = read.status then row.status else status } }
        candidateId .reject checks.reasons checks none none)
  | .create memory messageIds checks =>
    let memoryId := db.memories.nextId
    (.ok memoryId,
      addPolicyResult
        { db with
          memories := db.memories.insert memory
          memorySources := addSources memoryId messageIds db.memorySources
          candidates := db.candidates.modify candidateId fun row =>
            { row with
              status := if read.status = .published then row.status else .published
              publishedMemoryId := some memoryId } }
        candidateId .publish [] checks none none)

/-- `publish` as one step. -/
def publish (candidateId : Nat) (automatic : Bool) : Except Error Nat × Db F :=
  match db.candidates.get? candidateId with
  | none => (.error noCandidate, db)
  | some candidate =>
    commitPublish db candidateId candidate (publishPlan host svc db candidateId candidate automatic)

/-- `mark_model_failure_needs_review`. -/
def markModelFailureNeedsReview (candidateId : Nat) (errorCode : String) : Except Error Unit × Db F :=
  match db.candidates.get? candidateId with
  | none => (.ok (), db)
  | some candidate =>
    match candidate.status with
    | .published | .superseded | .rejected => (.ok (), db)
    | _ =>
      (.ok (), addPolicyResult (setCandidate db candidateId { candidate with status := .needsReview })
        candidateId .needsReview ["model_failed_after_retries", errorCode] [("model_failed", true)]
        none none)

inductive CorrectAction | discard | reject | supersede | replace
  deriving DecidableEq, Repr

def CorrectAction.ofText? : String → Option CorrectAction
  | "discard" => some .discard
  | "reject" => some .reject
  | "supersede" => some .supersede
  | "replace" => some .replace
  | _ => none

/-- The `reason_codes` text of a correction. -/
def CorrectAction.code : CorrectAction → String
  | .discard => "human_discard"
  | .reject => "human_reject"
  | .supersede => "human_supersede"
  | .replace => "human_replace"

/-- The `replacement` argument of `correct`; a field that is absent, empty or
zero falls back to the candidate's. -/
structure Replacement (F : Type) where
  sourceMessageId : Nat := 0
  taskType : String := ""
  level : String := ""
  scope : String := ""
  memoryType : String := ""
  title : String := ""
  content : Option (Json F) := none
  evidence : Option (List (Nat × Int × Int)) := none

def orElse (value default : String) : String := if value = "" then default else value

/-- The candidate that replaces `candidate`. -/
def replacementOf (candidateId : Nat) (candidate : Candidate F) (r : Replacement F) :
    NewCandidate F where
  sourceMessageId := if r.sourceMessageId = 0 then candidate.sourceMessageId else r.sourceMessageId
  taskType := orElse r.taskType candidate.taskType
  level := orElse r.level candidate.level.text
  scope := orElse r.scope candidate.scope.text
  memoryType := orElse r.memoryType candidate.memoryType
  title := orElse r.title (orElse candidate.title "替代候选")
  content := r.content.getD candidate.content
  evidence := r.evidence.getD
    ((evidenceOf db candidateId).map fun e => (e.2.messageId, (e.2.startChar : Int), (e.2.endChar : Int)))

/-- The candidate and its memory superseded. -/
def supersedeRows (candidateId : Nat) (candidate : Candidate F) : Db F :=
  let db' := setCandidate db candidateId { candidate with status := .superseded }
  match candidate.publishedMemoryId with
  | none => db'
  | some m =>
    { db' with
      memories := db'.memories.modify m fun memory =>
        { memory with reviewStatus := "superseded", deprecated := true } }

/-- The new candidate of a `replace`; the other actions create none. -/
def createReplacement (project : Project) (candidateId : Nat) (candidate : Candidate F)
    (action : CorrectAction) (replacement : Replacement F) : Except Error (Option Nat × Db F) :=
  match action with
  | .replace =>
    let new := replacementOf db candidateId candidate replacement
    if !new.content.isObject then .error (.value "替代版本 content 必须是对象")
    else
      match createAndQueue db project candidate.projectId new with
      | .error e => .error e
      | .ok (id, db') => .ok (some id, db')
  | _ => .ok (none, db)

/-- `correct` once its arguments are checked: the id of the replacement. -/
def correctOpen (project : Project) (candidateId : Nat) (candidate : Candidate F)
    (action : CorrectAction) (reviewer reason : String) (replacement : Replacement F) :
    Except Error (Option Nat × Db F) :=
  match createReplacement db project candidateId candidate action replacement with
  | .error e => .error e
  | .ok (replacementId, db') =>
    let supersedes := action = .supersede ∨ action = .replace
    let db'' := if supersedes then supersedeRows db' candidateId candidate
      else setCandidate db' candidateId { candidate with status := .rejected }
    .ok (replacementId,
      addPolicyResult db'' candidateId (if supersedes then .supersede else .reject) [action.code]
        [("human_reviewed", true), ("l0_immutable", true)] (some reviewer) (some reason))

/-- `correct`. -/
def correct (candidateId : Nat) (action reviewer reason : String) (replacement : Replacement F) :
    Except Error (Option Nat) × Db F :=
  match CorrectAction.ofText? (lower (strip action)) with
  | none => (.error (.value "人工纠错 action 必须是 discard、reject、supersede 或 replace"), db)
  | some action =>
    if strip reviewer = "" ∨ strip reason = "" then
      (.error (.value "人工纠错必须提供 reviewer 和 reason"), db)
    else
      match db.candidates.get? candidateId with
      | none => (.error noCandidate, db)
      | some candidate =>
        match db.projects.get? candidate.projectId with
        | none => (.error (.lookup "candidate project does not exist"), db)
        | some project =>
          if (action = .discard ∨ action = .reject) ∧ candidate.publishedMemoryId.isSome then
            (.error (.value "已发布候选必须使用 supersede 或 replace"), db)
          else
            orRollback db
              (correctOpen db project candidateId candidate action reviewer reason replacement)

inductive ReviewDecision | approve | reject
  deriving DecidableEq, Repr

def ReviewDecision.ofText? : String → Option ReviewDecision
  | "approve" => some .approve
  | "reject" => some .reject
  | _ => none

/-- `review_admin_candidate` for an admin with access to the project: the new
status. -/
def reviewAdminCandidate (candidateId : Nat) (decision : String) (reviewer reason : Option String) :
    Except Error Status × Db F :=
  match ReviewDecision.ofText? decision with
  | none => (.error (.value "decision 必须是 approve 或 reject"), db)
  | some decision =>
    match db.candidates.get? candidateId with
    | none => (.error (.lookup "候选记忆不存在"), db)
    | some candidate =>
      match db.projects.get? candidate.projectId with
      | none => (.error (.lookup "项目不存在"), db)
      | some _ =>
        let status : Status := if decision = .reject then .rejected else .approved
        let db' := setCandidate db candidateId { candidate with status := status }
        (.ok status,
          { db' with
            policyResults := db'.policyResults.insert
              ⟨candidateId, "review-v1", if decision = .reject then .reject else .approve,
                if decision = .reject then ["review_rejected"] else [], [("reviewed", true)],
                reviewer, reason⟩ })

end Operations

/-! ## One step -/

inductive Call (F : Type)
  | createCandidate (projectId : Nat) (new : NewCandidate F)
  | beginModelDecision (candidateId : Nat)
  | applyModelDecision (svc : Service) (candidateId : Nat) (decision : CandidateDecision F)
  | markModelFailureNeedsReview (candidateId : Nat) (errorCode : String)
  | correct (candidateId : Nat) (action reviewer reason : String) (replacement : Replacement F)
  | review (candidateId : Nat) (decision : String) (reviewer reason : Option String)
  | evaluate (candidateId : Nat)
  | publish (svc : Service) (candidateId : Nat) (automatic : Bool)
  | setFlags (projectId : Nat) (flags : Option FeatureFlags)
  | setPolicy (projectId : Nat) (policy : DecisionPolicy)

inductive Reply
  | created (result : Except Error Nat)
  | done (result : Except Error Unit)
  | applied (result : Except Error Application)
  | corrected (result : Except Error (Option Nat))
  | reviewed (result : Except Error Status)
  | evaluated (result : Except Error Nat)
  | published (result : Except Error Nat)

/-- One call, as one atomic step. -/
def step {F : Type} [Json.PyFloat F] (host : Host F) (db : Db F) : Call F → Reply × Db F
  | .createCandidate projectId new =>
    let out := createCandidate db projectId new
    (.created out.1, out.2)
  | .beginModelDecision candidateId =>
    let out := beginModelDecision db candidateId
    (.done out.1, out.2)
  | .applyModelDecision svc candidateId decision =>
    let out := applyModelDecision host svc db candidateId decision
    (.applied out.1, out.2)
  | .markModelFailureNeedsReview candidateId errorCode =>
    let out := markModelFailureNeedsReview db candidateId errorCode
    (.done out.1, out.2)
  | .correct candidateId action reviewer reason replacement =>
    let out := correct db candidateId action reviewer reason replacement
    (.corrected out.1, out.2)
  | .review candidateId decision reviewer reason =>
    let out := reviewAdminCandidate db candidateId decision reviewer reason
    (.reviewed out.1, out.2)
  | .evaluate candidateId =>
    let out := evaluate host db candidateId
    (.evaluated out.1, out.2)
  | .publish svc candidateId automatic =>
    let out := publish host svc db candidateId automatic
    (.published out.1, out.2)
  | .setFlags projectId flags =>
    (.done (.ok ()), { db with flags := Function.update db.flags projectId flags })
  | .setPolicy projectId policy =>
    (.done (.ok ()), { db with policies := Function.update db.policies projectId policy })

end CodexMemory.Candidates
