import CodexMemory.Auth
import CodexMemory.Idempotency
import CodexMemory.Worker.Model

/-!
# The other operations on the job queue

`OutboxDispatcher.dispatch_once`, the four administrator endpoints of
`api/http_api.py` that retry, cancel and replay, and `cancel_import_batch` of
`admin/api.py`.  Together with the five operations of the worker they are all
that writes a job, an attempt or the status of an event.  Audit rows are left
out: no operation reads them.
-/

namespace CodexMemory.Worker

/-! ## Rows -/

inductive BatchStatus
  | draft | pending | uploaded | queued | running | processing | awaitingReview | completed | failed
  | cancelled | rolledBack
  deriving DecidableEq, Repr

inductive FileStatus
  | uploaded | queued | processing | parsed | duplicate | quarantined | failed | cancelled
  deriving DecidableEq, Repr

/-- `ImportBatchRow`, the columns that are read here. -/
structure ImportBatch where
  projectId : Nat
  scopeId : Nat := 0
  scopeKey : String := "project"
  status : BatchStatus := .pending
  cancelledAt : Option Time := none

/-- `ImportFileRow`, the columns that are read here. -/
structure ImportFile where
  importBatchId : Nat
  status : FileStatus := .uploaded

/-- A row of `knowledge_scopes`. -/
structure KnowledgeScope where
  projectId : Nat
  scopeKey : String

/-- The queue with the tables that its other operations read: the keys of the
projects, the import batches and their files, and the scopes if that table
exists. -/
structure Queue (P : Type) where
  db : Db P
  projects : Table String
  batches : Table ImportBatch
  files : Table ImportFile
  scopes : Option (Table KnowledgeScope)

/-- What is taken from Python: the hexadecimal SHA-256 of a text, and the
`import_batch_id` of a payload where it is one. -/
structure Host (P : Type) where
  sha256 : String → String
  importBatchId : P → Option Nat

variable {P : Type}

/-! ## Dispatch -/

/-- The `WHERE` clause of `dispatch_once`. -/
def dispatchable (exclude : List String) (now : Time) (event : OutboxEvent P) : Bool :=
  (event.status = .pending || event.status = .retryWait) && event.nextAttemptAt ≤ now &&
    (match event.leaseExpiresAt with
      | none => true
      | some lease => lease ≤ now) && !exclude.contains event.eventType

/-- The `ORDER BY` clause: priority descending, then creation time, then key. -/
def dispatchBefore (a b : Nat × OutboxEvent P) : Prop :=
  b.2.priority < a.2.priority ∨ (a.2.priority = b.2.priority ∧
    (a.2.createdAt < b.2.createdAt ∨ (a.2.createdAt = b.2.createdAt ∧ a.1 ≤ b.1)))

instance : DecidableRel (dispatchBefore (P := P)) := fun a b => by
  unfold dispatchBefore; infer_instance

/-- What `_job_spec` returns. -/
structure JobSpec where
  jobType : String
  handlerVersion : Option String
  idempotencyKey : Option String
  jobKey : String

/-- The operation and the handler version for an event. -/
def actionOf (event : OutboxEvent P) : String × String :=
  if event.eventType = "message.appended.v1" then ("extract_memory_candidate", "memory-extractor-v1")
  else if event.eventType = "memory.created.v1" then ("generate_embedding", "embedding-v1")
  else if event.eventType = "candidate.accepted.v1" then ("publish_memory", "publish-v1")
  else if event.eventType = "candidate.decision.requested.v1" then
    ("decide_candidate", "candidate-decision-v1")
  else if event.eventType = "reflection.requested.v1" then ("reflect_project", "reflection-v1")
  else (event.eventType, event.payloadVersion)

/-- `f"outbox:{event.id}:{event.event_type}:{event.aggregate_id}:{event.payload_version}"` -/
def legacyKey (eventId : Nat) (event : OutboxEvent P) : String :=
  "outbox:" ++ toString eventId ++ ":" ++ event.eventType ++ ":" ++ toString event.aggregateId ++ ":" ++
    event.payloadVersion

/-- What `dispatch_once` raises: a `ValueError` of the key builder, or an
`IntegrityError` of a unique index. -/
inductive DispatchError
  | value (message : String)
  | integrity (constraint : String)
  deriving DecidableEq

/-- `_job_spec` -/
def jobSpec (host : Host P) (projects : Table String) (eventId : Nat) (event : OutboxEvent P) :
    Except DispatchError JobSpec :=
  match event.idempotencyKey with
  | none => .ok ⟨event.eventType, none, none, legacyKey eventId event⟩
  | some key =>
    if key = "" then .ok ⟨event.eventType, none, none, legacyKey eventId event⟩
    else
      match projects.get? event.projectId with
      | none => .ok ⟨event.eventType, none, some key, key⟩
      | some projectKey =>
        if event.eventType = "document.imported.v1" then
          .ok ⟨"parse_document", some "knowledge-import-v1", some key, key⟩
        else
          let action := actionOf event
          match buildIdempotencyKey host.sha256 projectKey action.1 event.aggregateType
              (toString event.aggregateId) action.2 with
          | .error message => .error (.value message)
          | .ok key => .ok ⟨action.1, some action.2, some key, key⟩

/-- The job is the one that `dispatch_once` looks for. -/
def matchesSpec (projectId : Nat) (spec : JobSpec) (job : ProcessingJob P) : Bool :=
  match spec.idempotencyKey with
  | some key => job.projectId = projectId && job.jobType = spec.jobType && job.idempotencyKey = some key
  | none => job.jobKey = spec.jobKey

/-- The job that the query of `dispatch_once` returns. -/
def findJob (jobs : Table (ProcessingJob P)) (projectId : Nat) (spec : JobSpec) :
    Option (Nat × ProcessingJob P) :=
  jobs.rows.find? fun r => matchesSpec projectId spec r.2

/-- The job that `dispatch_once` adds; `serverNow` is `now()` of the database. -/
def newJob (eventId : Nat) (event : OutboxEvent P) (spec : JobSpec) (serverNow : Time) : ProcessingJob P where
  projectId := event.projectId
  outboxEventId := some eventId
  jobType := spec.jobType
  sourceType := some event.aggregateType
  sourceId := some (toString event.aggregateId)
  handlerVersion := spec.handlerVersion
  idempotencyKey := spec.idempotencyKey
  aggregateType := event.aggregateType
  aggregateId := event.aggregateId
  jobKey := spec.jobKey
  payloadVersion := event.payloadVersion
  payload := event.payload
  priority := event.priority
  nextAttemptAt := serverNow
  createdAt := serverNow

/-- The event row that `dispatch_once` writes. -/
def dispatchedEvent (workerId : String) (leaseSeconds : Nat) (now : Time) (event : OutboxEvent P) :
    OutboxEvent P :=
  { event with
    status := .dispatched
    attemptCount := event.attemptCount + 1
    lockedBy := some workerId
    lockedAt := some now
    leaseExpiresAt := some (now + seconds leaseSeconds)
    dispatchedAt := some now }

/-- The settings of an `OutboxDispatcher`, with its name and the readings of both
clocks. -/
structure Dispatch where
  workerId : String
  leaseSeconds : Nat := 60
  now : Time
  serverNow : Time

/-- The loop body of `dispatch_once`. -/
def dispatchEvent (host : Host P) (projects : Table String) (d : Dispatch) (eventId : Nat)
    (event : OutboxEvent P) (db : Db P) : Except DispatchError (Db P) :=
  match jobSpec host projects eventId event with
  | .error e => .error e
  | .ok spec =>
    let events := db.events.modify eventId (dispatchedEvent d.workerId d.leaseSeconds d.now)
    match findJob db.jobs event.projectId spec with
    | some _ => .ok { db with events := events }
    | none =>
      if db.jobs.rows.any fun r => r.2.jobKey = spec.jobKey then
        .error (.integrity "processing_jobs.job_key")
      else
        .ok { db with events := events, jobs := db.jobs.insert (newJob eventId event spec d.serverNow) }

def dispatchEach (host : Host P) (projects : Table String) (d : Dispatch) :
    List (Nat × OutboxEvent P) → Db P → Except DispatchError (Db P)
  | [], db => .ok db
  | (eventId, event) :: rest, db =>
    match dispatchEvent host projects d eventId event db with
    | .error e => .error e
    | .ok db => dispatchEach host projects d rest db

def selectForDispatch (db : Db P) (limit : Nat) (exclude : List String) (now : Time) :
    List (Nat × OutboxEvent P) :=
  ((db.events.select (dispatchable exclude now)).insertionSort dispatchBefore).take limit

/-- `dispatch_once`; what it raises rolls everything back. -/
def dispatchOnce (host : Host P) (projects : Table String) (d : Dispatch) (limit : Nat)
    (exclude : List String) (db : Db P) : Except DispatchError Nat × Db P :=
  let events := selectForDispatch db limit exclude d.now
  match dispatchEach host projects d events db with
  | .error e => (.error e, db)
  | .ok db' => (.ok events.length, db')

/-! ## Administrator endpoints -/

/-- What an endpoint answers instead of doing its work. -/
inductive Refusal
  | access (error : AccessError)
  | http (status : Nat) (detail : String)
  deriving DecidableEq

/-- The row that `retry_admin_job` writes. -/
def retriedRow (now : Time) (job : ProcessingJob P) : ProcessingJob P :=
  unlocked { job with
    status := .pending, nextAttemptAt := now, lastErrorCode := none, lastErrorMessage := none }

/-- The row that `replay_admin_job` writes. -/
def replayedRow (now : Time) (job : ProcessingJob P) : ProcessingJob P :=
  unlocked { job with
    status := .pending, nextAttemptAt := now, lastErrorCode := none, lastErrorMessage := none
    errorClass := none, cancelledAt := none, cancelReason := none }

/-- The job row that `replay_admin_outbox` writes. -/
def requeuedRow (now : Time) (job : ProcessingJob P) : ProcessingJob P :=
  unlocked { job with status := .pending, nextAttemptAt := now }

/-- The row that `cancel_admin_job` writes. -/
def cancelledRow (reason : String) (now : Time) (job : ProcessingJob P) : ProcessingJob P :=
  unlocked { job with status := .cancelled, cancelledAt := some now, cancelReason := some reason }

/-- The event row that `cancel_admin_job` writes. -/
def cancelledJobEvent (reason : String) (event : OutboxEvent P) : OutboxEvent P :=
  { event with
    status := .dead
    lastErrorCode := some "cancelled"
    lastErrorMessage := some reason
    lockedBy := none
    lockedAt := none
    leaseExpiresAt := none }

/-- The event row that `replay_admin_job` and `replay_admin_outbox` write. -/
def replayedEvent (now : Time) (event : OutboxEvent P) : OutboxEvent P :=
  { event with
    status := .pending
    replayCount := event.replayCount + 1
    nextAttemptAt := now
    lastErrorCode := none
    lastErrorMessage := none
    lockedBy := none
    lockedAt := none
    leaseExpiresAt := none }

/-- The access of the principal to a project, as an endpoint answers it. -/
def openProject (q : Queue P) (principal : Principal) (projectId : Nat) : Except Refusal Unit :=
  match q.projects.get? projectId with
  | none => .error (.http 404 "项目不存在")
  | some projectKey =>
    match requireProjectAccess principal projectKey with
    | .error (.projectAccessDenied message) => .error (.http 403 message)
    | .error (.permissionDenied message) => .error (.http 403 message)
    | .ok () => .ok ()

/-- The checks of a job endpoint: the permission, a reason where it asks for one,
the job, its project, and whether its status is one of `statuses`. -/
def jobFor (q : Queue P) (principal : Principal) (reason : Option String) (jobId : Nat)
    (statuses : JobStatus → Bool) (detail : String) : Except Refusal (ProcessingJob P) :=
  match requirePermission principal "admin" with
  | .error e => .error (.access e)
  | .ok () =>
    if reason.map strip = some "" then .error (.http 422 "reason 不能为空")
    else
      match q.db.jobs.get? jobId with
      | none => .error (.http 404 "任务不存在")
      | some job =>
        match openProject q principal job.projectId with
        | .error e => .error e
        | .ok () => if statuses job.status then .ok job else .error (.http 409 detail)

/-- The checks of `retry_admin_job`. -/
def retryFor (q : Queue P) (principal : Principal) (jobId : Nat) : Except Refusal (ProcessingJob P) :=
  jobFor q principal none jobId (fun status => status = .dead || status = .retryWait) "任务不可重试"

/-- `retry_admin_job` -/
def retryAdminJob (q : Queue P) (principal : Principal) (jobId : Nat) (now : Time) :
    Except Refusal JobStatus × Queue P :=
  match retryFor q principal jobId with
  | .error e => (.error e, q)
  | .ok job =>
    (.ok .pending, { q with db := { q.db with jobs := q.db.jobs.modify jobId fun _ => retriedRow now job } })

/-- The checks of `cancel_admin_job`. -/
def cancelFor (q : Queue P) (principal : Principal) (jobId : Nat) (reason : String) :
    Except Refusal (ProcessingJob P) :=
  jobFor q principal (some reason) jobId
    (fun status => !(status = .succeeded || status = .dead || status = .cancelled)) "任务不可取消"

/-- `cancel_admin_job` -/
def cancelAdminJob (q : Queue P) (principal : Principal) (jobId : Nat) (reason : String) (now : Time) :
    Except Refusal JobStatus × Queue P :=
  match cancelFor q principal jobId reason with
  | .error e => (.error e, q)
  | .ok job =>
    let row := cancelledRow (strip reason) now job
    let db := { q.db with jobs := q.db.jobs.modify jobId fun _ => row }
    (.ok .cancelled, { q with db := updateEvent db row (cancelledJobEvent (strip reason)) })

/-- The checks of `replay_admin_job`. -/
def replayFor (q : Queue P) (principal : Principal) (jobId : Nat) (reason : String) :
    Except Refusal (ProcessingJob P) :=
  jobFor q principal (some reason) jobId
    (fun status => status = .dead || status = .retryWait || status = .cancelled) "任务不可回放"

/-- `replay_admin_job` -/
def replayAdminJob (q : Queue P) (principal : Principal) (jobId : Nat) (reason : String) (now : Time) :
    Except Refusal JobStatus × Queue P :=
  match replayFor q principal jobId reason with
  | .error e => (.error e, q)
  | .ok job =>
    let row := replayedRow now job
    let db := { q.db with jobs := q.db.jobs.modify jobId fun _ => row }
    (.ok .pending, { q with db := updateEvent db row (replayedEvent now) })

/-- The checks of `replay_admin_outbox`. -/
def replayEventFor (q : Queue P) (principal : Principal) (eventId : Nat) (reason : String) :
    Except Refusal (OutboxEvent P) :=
  match requirePermission principal "admin" with
  | .error e => .error (.access e)
  | .ok () =>
    if strip reason = "" then .error (.http 422 "reason 不能为空")
    else
      match q.db.events.get? eventId with
      | none => .error (.http 404 "Outbox 事件不存在")
      | some event =>
        match openProject q principal event.projectId with
        | .error e => .error e
        | .ok () =>
          if event.status = .dead ∨ event.status = .retryWait ∨ event.status = .dispatched then .ok event
          else .error (.http 409 "Outbox 事件不可回放")

/-- The job that `replay_admin_outbox` looks for. -/
def jobOfEvent (jobs : Table (ProcessingJob P)) (eventId : Nat) : Option (Nat × ProcessingJob P) :=
  jobs.rows.find? fun r => r.2.outboxEventId = some eventId

/-- `replay_admin_outbox` -/
def replayAdminOutbox (q : Queue P) (principal : Principal) (eventId : Nat) (reason : String) (now : Time) :
    Except Refusal EventStatus × Queue P :=
  match replayEventFor q principal eventId reason with
  | .error e => (.error e, q)
  | .ok _ =>
    let db := { q.db with events := q.db.events.modify eventId (replayedEvent now) }
    match jobOfEvent q.db.jobs eventId with
    | none => (.ok .pending, { q with db := db })
    | some (k, job) =>
      if job.status = .dead ∨ job.status = .retryWait ∨ job.status = .cancelled then
        (.ok .pending, { q with db := { db with jobs := q.db.jobs.modify k fun _ => requeuedRow now job } })
      else (.ok .pending, { q with db := db })

/-! ## Cancelling an import batch -/

/-- `project.project_key.removeprefix("project-")` -/
def projectSuffix (projectKey : String) : String :=
  if "project-".toList.isPrefixOf projectKey.toList then
    String.ofList (projectKey.toList.drop "project-".toList.length)
  else projectKey

/-- `_scope_allowed` -/
def scopeAllowed (scopes : Option (Table KnowledgeScope)) (projectId : Nat) (projectKey scopeId : String) : Bool :=
  scopeId = "" || scopeId = "default" || scopeId = "project" || scopeId = "scope-" ++ projectSuffix projectKey ||
    match scopes with
    | none => scopeId = toString projectId
    | some scopes => scopes.rows.any fun r =>
        r.2.projectId = projectId && (toString r.1 = scopeId || r.2.scopeKey = scopeId)

/-- `batch.scope_id or batch.scope_key`, as a text. -/
def ImportBatch.scope (batch : ImportBatch) : String :=
  if batch.scopeId = 0 then batch.scopeKey else toString batch.scopeId

/-- The events of the batch that are cancelled. -/
def importEvent (host : Host P) (projectId batchId : Nat) (event : OutboxEvent P) : Bool :=
  event.projectId = projectId && event.eventType = "document.imported.v1" &&
    host.importBatchId event.payload = some batchId &&
      (event.status = .pending || event.status = .retryWait || event.status = .dispatched)

/-- The jobs of the batch that are cancelled. -/
def importJob (host : Host P) (projectId batchId : Nat) (job : ProcessingJob P) : Bool :=
  job.projectId = projectId && job.jobType = "parse_document" &&
    host.importBatchId job.payload = some batchId &&
      (job.status = .pending || job.status = .retryWait || job.status = .running)

def cancelledImportEvent (event : OutboxEvent P) : OutboxEvent P :=
  { event with status := .cancelled, lockedBy := none, lockedAt := none, leaseExpiresAt := none }

def cancelledFile (file : ImportFile) : ImportFile :=
  if file.status = .uploaded ∨ file.status = .queued ∨ file.status = .processing then
    { file with status := .cancelled }
  else file

/-- The queue after the rows of a batch are cancelled. -/
def cancelBatch (host : Host P) (q : Queue P) (batchId : Nat) (batch : ImportBatch) (now : Time) : Queue P :=
  let jobs := q.db.jobs.select (importJob host batch.projectId batchId)
  -- `if job.outbox_event_id:` is false for a key 0 as well
  let carried := fun eventId => jobs.any fun r => r.2.outboxEventId = some eventId && eventId ≠ 0
  { q with
    batches := q.batches.modify batchId fun b => { b with status := .cancelled, cancelledAt := some now }
    files := q.files.mapRows fun _ file => if file.importBatchId = batchId then cancelledFile file else file
    db := { q.db with
      events := q.db.events.mapRows fun eventId event =>
        if importEvent host batch.projectId batchId event || carried eventId then cancelledImportEvent event
        else event
      jobs := q.db.jobs.mapRows fun _ job =>
        if importJob host batch.projectId batchId job then cancelledRow "import batch cancelled" now job
        else job } }

/-- The checks of `cancel_import_batch`. -/
def batchFor (q : Queue P) (principal : Principal) (batchId : Nat) : Except Refusal ImportBatch :=
  match requirePermission principal "admin" with
  | .error e => .error (.access e)
  | .ok () =>
    match q.batches.get? batchId with
    | none => .error (.http 404 "导入批次不存在")
    | some batch =>
      match q.projects.get? batch.projectId with
      | none => .error (.http 404 "项目不存在")
      | some projectKey =>
        if scopeAllowed q.scopes batch.projectId projectKey batch.scope then
          match openProject q principal batch.projectId with
          | .error e => .error e
          | .ok () =>
            if batch.status = .completed ∨ batch.status = .failed ∨ batch.status = .cancelled ∨
                batch.status = .rolledBack then
              .error (.http 409 "当前批次已经结束，不能取消")
            else .ok batch
        else .error (.http 403 ("令牌无权访问作用域：" ++ batch.scope))

/-- `cancel_import_batch` -/
def cancelImportBatch (host : Host P) (q : Queue P) (principal : Principal) (batchId : Nat) (now : Time) :
    Except Refusal BatchStatus × Queue P :=
  match batchFor q principal batchId with
  | .error e => (.error e, q)
  | .ok batch => (.ok .cancelled, cancelBatch host q batchId batch now)

/-! ## One step of the queue -/

/-- A call of the worker, with the settings of that worker, of the dispatcher or
of an endpoint. -/
inductive Operation
  | worker (cfg : Config) (call : Call)
  | dispatchOnce (workerId : String) (leaseSeconds limit : Nat) (exclude : List String) (serverNow : Time)
  | retryAdminJob (principal : Principal) (jobId : Nat)
  | cancelAdminJob (principal : Principal) (jobId : Nat) (reason : String)
  | replayAdminJob (principal : Principal) (jobId : Nat) (reason : String)
  | replayAdminOutbox (principal : Principal) (eventId : Nat) (reason : String)
  | cancelImportBatch (principal : Principal) (batchId : Nat)

inductive Answer (P : Type)
  | worker (reply : Reply P)
  | dispatched (result : Except DispatchError Nat)
  | job (result : Except Refusal JobStatus)
  | event (result : Except Refusal EventStatus)
  | batch (result : Except Refusal BatchStatus)

/-- One operation with its reading of the clock, as one atomic step. -/
def Queue.step (host : Host P) (q : Queue P) (input : Operation × Time) : Answer P × Queue P :=
  match input with
  | (.worker cfg call, now) =>
    let out := Worker.step cfg q.db (call, now)
    (.worker out.1, { q with db := out.2 })
  | (.dispatchOnce workerId leaseSeconds limit exclude serverNow, now) =>
    let out := Worker.dispatchOnce host q.projects ⟨workerId, leaseSeconds, now, serverNow⟩ limit exclude q.db
    (.dispatched out.1, { q with db := out.2 })
  | (.retryAdminJob principal jobId, now) =>
    let out := Worker.retryAdminJob q principal jobId now
    (.job out.1, out.2)
  | (.cancelAdminJob principal jobId reason, now) =>
    let out := Worker.cancelAdminJob q principal jobId reason now
    (.job out.1, out.2)
  | (.replayAdminJob principal jobId reason, now) =>
    let out := Worker.replayAdminJob q principal jobId reason now
    (.job out.1, out.2)
  | (.replayAdminOutbox principal eventId reason, now) =>
    let out := Worker.replayAdminOutbox q principal eventId reason now
    (.event out.1, out.2)
  | (.cancelImportBatch principal batchId, now) =>
    let out := Worker.cancelImportBatch host q principal batchId now
    (.batch out.1, out.2)

end CodexMemory.Worker
