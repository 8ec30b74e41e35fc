import CodexMemory.Hooks.Events
import CodexMemory.Memories.Model
import CodexMemory.Sorting

/-!
# The task service of `v14_service.py`

`append_event` stores the redacted and bounded events of a session under the numbers
1, 2, …, each with an outbox event; `TaskReportProjector.handle` is what the worker
runs for each of these.  It takes the Git baseline of a run from a `PreToolUse` event
and writes a report for each `Stop` and `SessionEnd`.

Audit rows are left out, nobody reads them; of the columns only the widths of the keys
and of the baseline are checked.
-/

namespace CodexMemory.Tasks

open Hooks Regex
open Candidates (truthy)

/-! ## Rows -/

/-- `EVENT_TYPES` -/
inductive EventType | userPromptSubmit | preToolUse | postToolUse | stop | sessionEnd
  deriving DecidableEq, Repr

def EventType.text : EventType → String
  | .userPromptSubmit => "UserPromptSubmit"
  | .preToolUse => "PreToolUse"
  | .postToolUse => "PostToolUse"
  | .stop => "Stop"
  | .sessionEnd => "SessionEnd"

def EventType.ofText? : String → Option EventType
  | "UserPromptSubmit" => some .userPromptSubmit
  | "PreToolUse" => some .preToolUse
  | "PostToolUse" => some .postToolUse
  | "Stop" => some .stop
  | "SessionEnd" => some .sessionEnd
  | _ => none

/-- The Git columns of a run. -/
structure Baseline (F : Type) where
  branch : Option String := none
  head : Option String := none
  statusPorcelain : Option String := none
  diffHash : Option String := none
  untracked : Json F := .null
  available : Option Bool := none

/-- A `TaskRunRow`. -/
structure TaskRun (F : Type) where
  projectId : Nat
  sessionKey : String
  status : String := "running"
  endedAt : Option String := none
  git : Baseline F := {}
  currentReportRevision : Nat := 0

/-- What `_truncate` returns: the text, the length and the digest of the whole, and whether it was cut. -/
structure Summary where
  text : Option String
  originalLength : Nat
  sha256 : Option String
  truncated : Bool
  deriving DecidableEq

/-- A `TaskEventRow`. -/
structure TaskEvent (F : Type) where
  projectId : Nat
  taskRunId : Nat
  eventKey : String
  eventType : EventType
  sequenceNo : Nat
  occurredAt : Option String
  payloadJson : Json F
  metadataJson : Json F
  contentHash : String
  originalLength : Nat
  command : Summary
  result : Summary
  exitCode : Option Int
  redactionApplied : Bool
  truncated : Bool

/-- The `OutboxEventRow` of an event. -/
structure OutboxEvent where
  projectId : Nat
  aggregateType : String
  aggregateId : Nat
  eventType : String
  payloadVersion : String
  idempotencyKey : String
  projectKey : String
  taskRunId : Nat
  deriving DecidableEq

inductive Error
  | access (error : AccessError)
  | validation (message : String)
  | value (message : String)
  | lookup (message : String)
  | conflict (eventId : Nat)
  | integrity (constraint : String)
  | data (message : String)
  | type (message : String)
  deriving DecidableEq

/-- What the service takes from Python and from the database driver: the tables of `\w`, `str()` of a JSON
value, SHA-256, and what a text column stores of a value that is no text and a boolean column of a float
(`none` where the driver raises). -/
structure Host (F : Type) where
  table : WordTable
  str : Json F → String
  sha256 : String → String
  textOf : Json F → Option String
  flagOf : F → Option Bool

section

variable {F : Type}

/-! ## Redaction -/

/-- `_SENSITIVE_KEY` -/
def sensitiveKey : Regex :=
  .alt (pairName "api" "key") (.alt (literal "authorization") (.alt (literal "bearer") (.alt (literal "credential")
    (.alt (literal "password") (.alt (literal "secret") (literal "token"))))))

/-- `_SENSITIVE_VALUE` -/
def sensitiveValue (table : WordTable) : Pattern :=
  .whole (.alt
    (.seq (.boundary table.word)
      (.seq (.alt bearerWord (.seq (literal "basic") (.many isSpace 1))) (.many (tokenChar "._~+/=-") 1)))
    (.seq (.alt (literal "sk") (.alt (.seq (literal "gh") (oneOf "pousr")) (.seq (literal "xox") (oneOf "baprs"))))
      (.seq (oneOf "-") (.many (tokenChar "_-") 8))))

def isSensitiveKey (key : String) : Bool := search sensitiveKey none key.toList

/-- `_SENSITIVE_VALUE.sub("[REDACTED]", value)` -/
def redactText (table : WordTable) (text : String) : String :=
  String.ofList ((sensitiveValue table).sub "[REDACTED]".toList text.toList)

mutual

/-- `_redact` without a key: the value, and whether something was redacted. -/
def redact (table : WordTable) : Json F → Json F × Bool
  | .obj fields => let out := redactFields table fields; (.obj out.1, out.2)
  | .arr items => let out := redactItems table items; (.arr out.1, out.2)
  | .str text => (.str (redactText table text), redactText table text ≠ text)
  | value => (value, false)

/-- `_redact` of a dictionary; a sensitive key hides its value. -/
def redactFields (table : WordTable) : List (String × Json F) → List (String × Json F) × Bool
  | [] => ([], false)
  | (key, value) :: rest =>
    let clean := if isSensitiveKey key then (.str "[REDACTED]", true) else redact table value
    let out := redactFields table rest
    ((key, clean.1) :: out.1, clean.2 || out.2)

def redactItems (table : WordTable) : List (Json F) → List (Json F) × Bool
  | [] => ([], false)
  | value :: rest =>
    let clean := redact table value
    let out := redactItems table rest
    (clean.1 :: out.1, clean.2 || out.2)

end

/-! ## `append_event`: the event -/

/-- The arguments of `append_event`; a dictionary that is missing is empty. -/
structure Call (F : Type) where
  principal : Principal
  projectKey : String
  sessionKey : String
  eventKey : String
  eventType : String
  occurredAt : Option String := none
  payload : List (String × Json F) := []
  metadata : List (String × Json F) := []
  commandSummary : Option String := none
  resultSummary : Option String := none
  exitCode : Option Int := none
  git : List (String × Json F) := []

def maxEventBytes : Nat := 64 * 1024
def maxCommandBytes : Nat := 4 * 1024
def maxResultBytes : Nat := 8 * 1024

/-- `_truncate` -/
def truncate (host : Host F) (value : Option String) (limit : Nat) : Summary :=
  match value with
  | none => ⟨none, 0, none, false⟩
  | some text =>
    let length := byteLength text.toList
    if length ≤ limit then ⟨some text, length, some (host.sha256 text), false⟩
    else ⟨some (String.ofList (clip (limit - byteLength ['…']) text.toList ++ ['…'])), length, some (host.sha256 text), true⟩

/-- A text argument, or else the text in the payload. -/
def textArgument (argument : Option String) (payload : List (String × Json F)) (key : String) : Option String :=
  match argument, payload.lookup key with
  | none, some (.str text) => some text
  | argument, _ => argument

/-- The exit code, or else the integer in the payload; a truth value is an integer too. -/
def exitCodeArgument (argument : Option Int) (payload : List (String × Json F)) : Json F :=
  match argument, payload.lookup "exit_code" with
  | some code, _ => .int code
  | none, some (.int code) => .int code
  | none, some (.bool flag) => .bool flag
  | none, _ => .null

/-- What the integer column stores. -/
def exitCodeColumn : Json F → Option Int
  | .int code => some code
  | .bool flag => some (if flag then 1 else 0)
  | _ => none

/-- The Git argument, or else the object in the payload. -/
def gitArgument (argument payload : List (String × Json F)) : List (String × Json F) :=
  match argument, payload.lookup "git" with
  | [], some (.obj git) => git
  | argument, _ => argument

def textOrNull (text : Option String) : Json F := (text.map Json.str).getD .null

section

variable [Json.PyFloat F]

/-- `_canonical` -/
def canonical (value : Json F) : String := String.ofList (value.sortKeys.dumps .compact)

def canonicalBytes (value : Json F) : Nat := byteLength (canonical value).toList

/-- The redacted and bounded event. -/
structure Prepared (F : Type) where
  eventType : EventType
  occurredAt : Option String
  storedPayload : Json F
  metadata : Json F
  contentHash : String
  originalLength : Nat
  command : Summary
  result : Summary
  exitCode : Option Int
  redactionApplied : Bool

/-- The parts of the event, as they are hashed. -/
structure Parts (F : Type) where
  payload : Json F
  metadata : Json F
  git : Json F
  command : Option String
  result : Option String
  exitCode : Json F
  redacted : Bool

/-- The redaction of all parts. -/
def Call.parts (table : WordTable) (call : Call F) : Parts F :=
  let payload := redactFields table call.payload
  let metadata := redactFields table call.metadata
  let git := redactFields table (gitArgument call.git call.payload)
  let command := textArgument call.commandSummary call.payload "command_summary"
  let result := textArgument call.resultSummary call.payload "result_summary"
  { payload := .obj payload.1
    metadata := .obj metadata.1
    git := .obj git.1
    command := command.map (redactText table)
    result := result.map (redactText table)
    exitCode := exitCodeArgument call.exitCode call.payload
    redacted := payload.2 || metadata.2 || git.2 || command.any (fun text => redactText table text ≠ text) ||
      result.any fun text => redactText table text ≠ text }

/-- `normalized` -/
def normalized (eventType : EventType) (parts : Parts F) : Json F :=
  .obj [("event_type", .str eventType.text), ("payload", parts.payload), ("metadata", parts.metadata),
    ("git", parts.git), ("command_summary", textOrNull parts.command), ("result_summary", textOrNull parts.result),
    ("exit_code", parts.exitCode)]

/-- `stored_payload` -/
def storedPayload (eventType : EventType) (parts : Parts F) (command result : Summary) : Json F :=
  .obj [("payload", parts.payload), ("metadata", parts.metadata), ("git", parts.git),
    ("event_type", .str eventType.text), ("command_summary", textOrNull command.text),
    ("result_summary", textOrNull result.text), ("exit_code", parts.exitCode), ("redaction_applied", .bool parts.redacted)]

/-- The event of a call that is permitted, within its limits. -/
def prepareParts (host : Host F) (call : Call F) (eventType : EventType) : Except Error (Prepared F) :=
  let parts := call.parts host.table
  let command := truncate host parts.command maxCommandBytes
  let result := truncate host parts.result maxResultBytes
  let text := canonical (normalized eventType parts)
  let stored := storedPayload eventType parts command result
  if maxEventBytes < byteLength text.toList && !(command.truncated || result.truncated) then
    .error (.validation "事件载荷超过 64 KiB 限制")
  else if maxEventBytes < canonicalBytes stored then .error (.validation "脱敏和截断后的事件载荷仍超过 64 KiB 限制")
  else
    .ok { eventType := eventType
          occurredAt := call.occurredAt
          storedPayload := stored
          metadata := parts.metadata
          contentHash := host.sha256 text
          originalLength := byteLength text.toList
          command := command
          result := result
          exitCode := exitCodeColumn parts.exitCode
          redactionApplied := parts.redacted }

/-- The part of `append_event` before its session. -/
def prepare (host : Host F) (call : Call F) : Except Error (Prepared F) :=
  match requirePermission call.principal "append" with
  | .error error => .error (.access error)
  | .ok () =>
    match requireProjectAccess call.principal call.projectKey with
    | .error error => .error (.access error)
    | .ok () =>
      if strip call.sessionKey = "" || strip call.eventKey = "" then
        .error (.validation "session_key 和 event_key 不能为空")
      else
        match EventType.ofText? call.eventType with
        | none => .error (.validation ("不支持的事件类型：" ++ call.eventType))
        | some eventType => prepareParts host call eventType

end

/-! ## `append_event`: the rows -/

def newRun (projectId : Nat) (sessionKey : String) : TaskRun F := { projectId := projectId, sessionKey := sessionKey }

def Prepared.event (prepared : Prepared F) (projectId runId : Nat) (eventKey : String) (sequenceNo : Nat) :
    TaskEvent F where
  projectId := projectId
  taskRunId := runId
  eventKey := eventKey
  eventType := prepared.eventType
  sequenceNo := sequenceNo
  occurredAt := prepared.occurredAt
  payloadJson := prepared.storedPayload
  metadataJson := prepared.metadata
  contentHash := prepared.contentHash
  originalLength := prepared.originalLength
  command := prepared.command
  result := prepared.result
  exitCode := prepared.exitCode
  redactionApplied := prepared.redactionApplied
  truncated := prepared.command.truncated || prepared.result.truncated

def outboxOf (projectId : Nat) (projectKey : String) (runId eventId : Nat) (key : String) : OutboxEvent where
  projectId := projectId
  aggregateType := "task_event"
  aggregateId := eventId
  eventType := "task.event.received.v1"
  payloadVersion := "v1.4"
  idempotencyKey := key
  projectKey := projectKey
  taskRunId := runId

/-- `IdempotencyKeyBuilder(project_key).build("task.event.received", "task_event", event.id, "v1.4")` -/
def outboxKey (host : Host F) (projectKey : String) (eventId : Nat) : Except String String :=
  buildIdempotencyKey host.sha256 projectKey "task.event.received" "task_event" (toString eventId) "v1.4"

/-- A value of a `String(255)` column. -/
def fits (key : String) : Bool := key.length ≤ 255

def tooLong : Error := .data "value too long for type character varying(255)"

def isRun (projectId : Nat) (sessionKey : String) (run : TaskRun F) : Bool :=
  run.projectId = projectId && run.sessionKey = sessionKey

def isEvent (runId : Nat) (eventKey : String) (event : TaskEvent F) : Bool :=
  event.taskRunId = runId && event.eventKey = eventKey

/-- The greatest number, `0` if there is none. -/
def lastNumber (numbers : List Nat) : Nat := numbers.foldl max 0

/-! ## Reports -/

structure TimelineEntry where
  sequence : Nat
  eventKey : String
  eventType : EventType
  occurredAt : Option String
  deriving DecidableEq

structure ToolEntry where
  eventKey : String
  commandSummary : Option String
  resultSummary : Option String
  exitCode : Option Int
  deriving DecidableEq

inductive Kind | checkpoint | final
  deriving DecidableEq

def Kind.text : Kind → String
  | .checkpoint => "checkpoint"
  | .final => "final"

/-- The `report_json` of a report. -/
structure ReportJson (F : Type) where
  runId : Nat
  sessionKey : String
  status : String
  revision : Nat
  timeline : List TimelineEntry
  toolSummary : List ToolEntry
  gitBaseline : Baseline F
  changes : List (List (String × Json F))
  kind : Kind
  uncertain : Bool
  truncated : Bool

/-- A `TaskReportRow`. -/
structure TaskReport (F : Type) where
  projectId : Nat
  taskRunId : Nat
  sourceEventId : Nat
  revision : Nat
  kind : Kind
  status : String
  reportJson : ReportJson F
  body : String
  contentHash : String
  uncertain : Bool
  truncated : Bool

/-- A `TaskFileChangeRow`. -/
structure FileChange (F : Type) where
  projectId : Nat
  taskRunId : Nat
  reportId : Nat
  changeIndex : Nat
  path : String
  oldPath : Json F
  changeType : String
  beforeHash : Json F
  afterHash : Json F
  attribution : String
  metadata : Json F

/-! ## `append_event`: the transaction -/

/-- The projects and the memories are in the tables of the candidates. -/
structure Db (F : Type) where
  candidates : Candidates.Db F
  runs : Table (TaskRun F)
  events : Table (TaskEvent F)
  reports : Table (TaskReport F)
  changes : Table (FileChange F)
  outbox : Table OutboxEvent

/-- The first row with the property, with its key. -/
def findRow {α : Type} (t : Table α) (p : α → Bool) : Option (Nat × α) := t.rows.find? fun r => p r.2

def projectOf (projects : Table Candidates.Project) (projectKey : String) : Option Nat :=
  (findRow projects fun p => p.projectKey = projectKey).map Prod.fst

/-- The greatest sequence number in a run. -/
def lastSequence (events : Table (TaskEvent F)) (runId : Nat) : Nat :=
  lastNumber ((events.select fun e => e.taskRunId = runId).map fun e => e.2.sequenceNo)

inductive Status | accepted | duplicate
  deriving DecidableEq

structure Outcome where
  eventId : Nat
  taskRunId : Nat
  status : Status
  deriving DecidableEq

/-- The event in a run that exists. -/
def appendTo (host : Host F) (db : Db F) (call : Call F) (prepared : Prepared F) (projectId runId : Nat) :
    Except Error (Outcome × Db F) :=
  match findRow db.events (isEvent runId call.eventKey) with
  | some (eventId, existing) =>
    if existing.contentHash ≠ prepared.contentHash then .error (.conflict eventId)
    else .ok (⟨eventId, runId, .duplicate⟩, db)
  | none =>
    if !fits call.eventKey then .error tooLong
    else
      let eventId := db.events.nextId
      match outboxKey host call.projectKey eventId with
      | .error message => .error (.value message)
      | .ok key =>
        if db.outbox.rows.any fun o => o.2.projectId = projectId && o.2.idempotencyKey = key then
          .error (.integrity "uq_outbox_project_idempotency")
        else
          .ok (⟨eventId, runId, .accepted⟩,
            { db with
              events := db.events.insert (prepared.event projectId runId call.eventKey (lastSequence db.events runId + 1))
              outbox := db.outbox.insert (outboxOf projectId call.projectKey runId eventId key) })

/-- `append_event` of a call that no other call interrupts. -/
def appendEvent [Json.PyFloat F] (host : Host F) (db : Db F) (call : Call F) : Except Error Outcome × Db F :=
  match prepare host call with
  | .error error => (.error error, db)
  | .ok prepared =>
    match projectOf db.candidates.projects call.projectKey with
    | none => (.error (.lookup ("项目不存在：" ++ call.projectKey)), db)
    | some projectId =>
      let appended :=
        match findRow db.runs (isRun projectId call.sessionKey) with
        | some (runId, _) => appendTo host db call prepared projectId runId
        | none =>
          if !fits call.sessionKey then .error tooLong
          else
            appendTo host { db with runs := db.runs.insert (newRun projectId call.sessionKey) } call prepared projectId
              db.runs.nextId
      match appended with
      | .error error => (.error error, db)
      | .ok (outcome, db') => (.ok outcome, if outcome.status = .accepted then db' else db)

end

/-! ## One project -/

/-- A host whose digest is the text itself. -/
def textHost : Host Empty where
  table := asciiTable
  str
    | .str text => text
    | _ => ""
  sha256 := id
  textOf := fun _ => none
  flagOf := fun x => nomatch x

/-- A project without tasks. -/
def oneProject : Db Empty where
  candidates :=
    { projects := Table.empty.insert ⟨"demo"⟩
      messages := .empty
      candidates := .empty
      evidence := .empty
      policyResults := .empty
      memories := .empty
      memorySources := .empty
      events := .empty
      flags := fun _ => none
      policies := fun _ => {} }
  runs := .empty
  events := .empty
  reports := .empty
  changes := .empty
  outbox := .empty

end CodexMemory.Tasks
