import CodexMemory.Table
import CodexMemory.Trace
import Mathlib

/-!
# The job queue of `pipelines/v11_worker.py`

Rows of `outbox_events`, `processing_jobs` and `job_attempts`, and the five
operations of `V11JobWorker` on them: `claim_jobs`, `heartbeat`, `complete`,
`fail` and `sweep_expired`.  Each is a function of the database, its
arguments and one reading of the clock; it returns the reply and the database
after its commit.  Times are microseconds.  The JSON payload of a job is only
handed on, so its type `P` is a parameter.
-/

namespace CodexMemory.Worker

abbrev Time := Nat

/-- `timedelta(seconds=n)`. -/
def seconds (n : Nat) : Time := n * 1000000

inductive JobStatus | pending | running | succeeded | retryWait | dead | cancelled
  deriving DecidableEq, Repr

inductive EventStatus | pending | dispatched | retryWait | dead | completed | cancelled
  deriving DecidableEq, Repr

inductive Outcome | running | succeeded | failed | abandoned
  deriving DecidableEq, Repr

/-- `OutboxEventRow`. -/
structure OutboxEvent (P : Type) where
  projectId : Nat
  aggregateType : String
  aggregateId : Nat
  eventType : String
  payloadVersion : String
  payload : P
  idempotencyKey : Option String := none
  priority : Int := 0
  status : EventStatus := .pending
  attemptCount : Nat := 0
  nextAttemptAt : Time
  lockedBy : Option String := none
  lockedAt : Option Time := none
  leaseExpiresAt : Option Time := none
  lastErrorCode : Option String := none
  lastErrorMessage : Option String := none
  createdAt : Time
  dispatchedAt : Option Time := none
  completedAt : Option Time := none
  replayCount : Nat := 0
  deriving DecidableEq

/-- `ProcessingJobRow`. -/
structure ProcessingJob (P : Type) where
  projectId : Nat
  outboxEventId : Option Nat := none
  jobType : String
  sourceType : Option String := none
  sourceId : Option String := none
  handlerVersion : Option String := none
  idempotencyKey : Option String := none
  aggregateType : String
  aggregateId : Nat
  jobKey : String
  payloadVersion : String
  payload : P
  status : JobStatus := .pending
  priority : Int := 0
  attemptCount : Nat := 0
  maxAttempts : Nat := 5
  lockedBy : Option String := none
  lockedAt : Option Time := none
  leaseExpiresAt : Option Time := none
  heartbeatAt : Option Time := none
  nextAttemptAt : Time
  lastErrorCode : Option String := none
  lastErrorMessage : Option String := none
  errorClass : Option String := none
  completedAt : Option Time := none
  cancelledAt : Option Time := none
  cancelReason : Option String := none
  createdAt : Time
  deriving DecidableEq

/-- `JobAttemptRow`. -/
structure JobAttempt where
  jobId : Nat
  attemptNo : Nat
  workerId : String
  endedAt : Option Time := none
  outcome : Outcome := .running
  errorCode : Option String := none
  errorMessage : Option String := none
  errorClass : Option String := none
  finishedReason : Option String := none
  deriving DecidableEq

structure Db (P : Type) where
  events : Table (OutboxEvent P)
  jobs : Table (ProcessingJob P)
  attempts : Table JobAttempt

/-- The settings of a `V11JobWorker`. -/
structure Config where
  leaseSeconds : Nat := 60
  maxBackoffSeconds : Nat := 3600

/-- `JobClaim`. -/
structure JobClaim (P : Type) where
  jobId : Nat
  jobType : String
  payload : P
  attemptNo : Nat
  leaseExpiresAt : Time
  deriving DecidableEq

variable {P : Type}

/-! ## Claiming -/

/-- The `WHERE` clause of `claim_jobs`. -/
def claimable (now : Time) (job : ProcessingJob P) : Bool :=
  (job.status = .pending || job.status = .retryWait) && job.nextAttemptAt ≤ now &&
    match job.leaseExpiresAt with
    | none => true
    | some lease => lease ≤ now

/-- The `ORDER BY` clause: priority descending, then creation time, then key. -/
def claimBefore (a b : Nat × ProcessingJob P) : Prop :=
  b.2.priority < a.2.priority ∨ (a.2.priority = b.2.priority ∧
    (a.2.createdAt < b.2.createdAt ∨ (a.2.createdAt = b.2.createdAt ∧ a.1 ≤ b.1)))

instance : DecidableRel (claimBefore (P := P)) := fun a b => by
  unfold claimBefore; infer_instance

/-- The row of a job after it is claimed. -/
def claimedRow (cfg : Config) (workerId : String) (now : Time) (job : ProcessingJob P) :
    ProcessingJob P :=
  { job with
    attemptCount := job.attemptCount + 1
    status := .running
    lockedBy := some workerId
    lockedAt := some now
    heartbeatAt := some now
    leaseExpiresAt := some (now + seconds cfg.leaseSeconds) }

/-- The loop body of `claim_jobs` for the selected rows, in their order. -/
def claimEach (cfg : Config) (workerId : String) (now : Time) :
    List (Nat × ProcessingJob P) → Db P → List (JobClaim P) × Db P
  | [], db => ([], db)
  | (k, job) :: rest, db =>
    let row := claimedRow cfg workerId now job
    let db' : Db P :=
      { db with
        jobs := db.jobs.modify k fun _ => row
        attempts := db.attempts.insert
          { jobId := k, attemptNo := row.attemptCount, workerId := workerId } }
    let out := claimEach cfg workerId now rest db'
    (⟨k, job.jobType, job.payload, row.attemptCount, now + seconds cfg.leaseSeconds⟩ :: out.1, out.2)

/-- The rows that `claim_jobs` selects.  In one atomic step no row is locked
by another transaction, so `SKIP LOCKED` skips none. -/
def selectForClaim (db : Db P) (limit : Nat) (now : Time) : List (Nat × ProcessingJob P) :=
  ((db.jobs.select (claimable now)).insertionSort claimBefore).take limit

def claimJobs (cfg : Config) (db : Db P) (workerId : String) (limit : Nat) (now : Time) :
    List (JobClaim P) × Db P :=
  claimEach cfg workerId now (selectForClaim db limit now) db

/-! ## Heartbeat, completion and failure -/

/-- `_owns_live_job`. -/
def ownsLiveJob (job : Option (ProcessingJob P)) (workerId : String) (now : Time) : Bool :=
  match job with
  | none => false
  | some job =>
    if job.status ≠ .running ∨ job.lockedBy ≠ some workerId then false
    else match job.leaseExpiresAt with
      | none => true
      | some lease => now < lease

def heartbeat (cfg : Config) (db : Db P) (jobId : Nat) (workerId : String) (now : Time) :
    Bool × Db P :=
  match db.jobs.get? jobId with
  | none => (false, db)
  | some job =>
    if job.status ≠ .running ∨ job.lockedBy ≠ some workerId then (false, db)
    else
      let row := { job with
        heartbeatAt := some now
        leaseExpiresAt := some (now + seconds cfg.leaseSeconds) }
      match job.leaseExpiresAt with
      | none => (true, { db with jobs := db.jobs.modify jobId fun _ => row })
      | some lease =>
        if lease ≤ now then (false, db)
        else (true, { db with jobs := db.jobs.modify jobId fun _ => row })

/-- `ORDER BY attempt_no DESC`. -/
def attemptBefore (a b : Nat × JobAttempt) : Prop := b.2.attemptNo ≤ a.2.attemptNo

instance : DecidableRel attemptBefore := fun a b => by
  unfold attemptBefore; infer_instance

/-- The first row of `job_attempts` of the job in that order. -/
def latestAttempt (db : Db P) (jobId : Nat) : Option (Nat × JobAttempt) :=
  ((db.attempts.select fun a => a.jobId = jobId).insertionSort attemptBefore).head?

/-- The lease columns of a job that is no longer running. -/
def unlocked (job : ProcessingJob P) : ProcessingJob P :=
  { job with lockedBy := none, lockedAt := none, heartbeatAt := none, leaseExpiresAt := none }

/-- Write the latest attempt of a job, if it has one. -/
def updateAttempt (db : Db P) (jobId : Nat) (f : JobAttempt → JobAttempt) : Db P :=
  match latestAttempt db jobId with
  | none => db
  | some (k, _) => { db with attempts := db.attempts.modify k f }

/-- Write the event that a job carries, if it carries one. -/
def updateEvent (db : Db P) (job : ProcessingJob P) (f : OutboxEvent P → OutboxEvent P) : Db P :=
  match job.outboxEventId with
  | none => db
  | some e => { db with events := db.events.modify e f }

/-- The event row that `_complete_outbox` writes. -/
def completedEvent (now : Time) (event : OutboxEvent P) : OutboxEvent P :=
  { event with
    status := .completed
    completedAt := some now
    lockedBy := none
    lockedAt := none
    leaseExpiresAt := none }

/-- `_complete_outbox`. -/
def completeOutbox (db : Db P) (job : ProcessingJob P) (now : Time) : Db P :=
  updateEvent db job (completedEvent now)

/-- The event status that `_fail_outbox` derives from the job status. -/
def failedEventStatus : JobStatus → EventStatus
  | .dead => .dead
  | _ => .retryWait

/-- The event row that `_fail_outbox` writes; `job` is the job row as already
rewritten. -/
def failedEvent (job : ProcessingJob P) (errorCode errorMessage : String)
    (event : OutboxEvent P) : OutboxEvent P :=
  { event with
    status := failedEventStatus job.status
    nextAttemptAt := job.nextAttemptAt
    lastErrorCode := some errorCode
    lastErrorMessage := some errorMessage
    lockedBy := none
    lockedAt := none
    leaseExpiresAt := none }

/-- `_fail_outbox`. -/
def failOutbox (db : Db P) (job : ProcessingJob P) (errorCode errorMessage : String) : Db P :=
  updateEvent db job (failedEvent job errorCode errorMessage)

/-- The job row that `complete` writes. -/
def completedRow (now : Time) (job : ProcessingJob P) : ProcessingJob P :=
  unlocked { job with status := .succeeded, completedAt := some now }

/-- The attempt row that `complete` writes. -/
def completedAttempt (now : Time) (attempt : JobAttempt) : JobAttempt :=
  { attempt with endedAt := some now, outcome := .succeeded, finishedReason := some "completed" }

/-- The body of `complete` once the caller owns the job row `job`. -/
def completeOwned (db : Db P) (jobId : Nat) (job : ProcessingJob P) (now : Time) : Db P :=
  let row := completedRow now job
  let db := { db with jobs := db.jobs.modify jobId fun _ => row }
  let db := updateAttempt db jobId (completedAttempt now)
  completeOutbox db row now

def complete (db : Db P) (jobId : Nat) (workerId : String) (now : Time) : Bool × Db P :=
  match db.jobs.get? jobId with
  | none => (false, db)
  | some job =>
    if ownsLiveJob (some job) workerId now then (true, completeOwned db jobId job now)
    else (false, db)

/-- The exponential backoff `min(max_backoff, 2 ** max(attempt_count - 1, 0))`. -/
def backoff (cfg : Config) (attemptCount : Nat) : Time :=
  seconds (min cfg.maxBackoffSeconds (2 ^ (attemptCount - 1)))

/-- The `finished_reason` text of a job status. -/
def JobStatus.text : JobStatus → String
  | .pending => "pending"
  | .running => "running"
  | .succeeded => "succeeded"
  | .retryWait => "retry_wait"
  | .dead => "dead"
  | .cancelled => "cancelled"

/-- The job row that `fail` writes. -/
def failedRow (cfg : Config) (errorCode errorMessage : String) (retryable : Bool) (now : Time)
    (job : ProcessingJob P) : ProcessingJob P :=
  let shouldRetry := retryable && job.attemptCount < job.maxAttempts
  unlocked { job with
    status := if shouldRetry then .retryWait else .dead
    nextAttemptAt := if shouldRetry then now + backoff cfg job.attemptCount else job.nextAttemptAt
    lastErrorCode := some errorCode
    lastErrorMessage := some errorMessage
    errorClass := some (if retryable then "retryable" else "permanent") }

/-- The attempt row that `fail` writes; `job` is the job row as already
rewritten. -/
def failedAttempt (job : ProcessingJob P) (errorCode errorMessage : String) (now : Time)
    (attempt : JobAttempt) : JobAttempt :=
  { attempt with
    endedAt := some now
    outcome := .failed
    errorCode := some errorCode
    errorMessage := some errorMessage
    errorClass := job.errorClass
    finishedReason := some job.status.text }

/-- The body of `fail` once the caller owns the job row `job`. -/
def failOwned (cfg : Config) (db : Db P) (jobId : Nat) (job : ProcessingJob P)
    (errorCode errorMessage : String) (retryable : Bool) (now : Time) : Db P :=
  let row := failedRow cfg errorCode errorMessage retryable now job
  let db := { db with jobs := db.jobs.modify jobId fun _ => row }
  let db := updateAttempt db jobId (failedAttempt row errorCode errorMessage now)
  failOutbox db row errorCode errorMessage

def fail (cfg : Config) (db : Db P) (jobId : Nat) (workerId : String)
    (errorCode errorMessage : String) (retryable : Bool) (now : Time) :
    Option JobStatus × Db P :=
  match db.jobs.get? jobId with
  | none => (none, db)
  | some job =>
    if ownsLiveJob (some job) workerId now then
      (some (failedRow cfg errorCode errorMessage retryable now job).status,
        failOwned cfg db jobId job errorCode errorMessage retryable now)
    else (none, db)

/-! ## Sweeping -/

/-- The `WHERE` clause of `sweep_expired`. -/
def expired (now : Time) (job : ProcessingJob P) : Bool :=
  job.status = .running &&
    match job.leaseExpiresAt with
    | none => false
    | some lease => lease ≤ now

/-- The job row that `sweep_expired` writes.  The backoff delay is computed in
the source but not used: a swept job is due at once. -/
def sweptRow (now : Time) (job : ProcessingJob P) : ProcessingJob P :=
  let shouldRetry := job.attemptCount < job.maxAttempts
  unlocked { job with
    status := if shouldRetry then .retryWait else .dead
    nextAttemptAt := if shouldRetry then now else job.nextAttemptAt }

/-- The attempt row that `sweep_expired` writes: a running attempt is
abandoned. -/
def sweptAttempt (now : Time) (attempt : JobAttempt) : JobAttempt :=
  if attempt.outcome = .running then
    { attempt with
      endedAt := some now, outcome := .abandoned, finishedReason := some "lease_expired" }
  else attempt

/-- The loop body of `sweep_expired` for one expired job. -/
def sweepJob (db : Db P) (jobId : Nat) (job : ProcessingJob P) (now : Time) : Db P :=
  let row := sweptRow now job
  let db := { db with jobs := db.jobs.modify jobId fun _ => row }
  let db := updateAttempt db jobId (sweptAttempt now)
  failOutbox db row "lease_expired" "job lease expired"

def sweepEach (now : Time) : List (Nat × ProcessingJob P) → Db P → Db P
  | [], db => db
  | (k, job) :: rest, db => sweepEach now rest (sweepJob db k job now)

def sweepExpired (db : Db P) (now : Time) : Nat × Db P :=
  let jobs := db.jobs.select (expired now)
  (jobs.length, sweepEach now jobs db)

/-! ## One step of the queue -/

inductive Call
  | claimJobs (workerId : String) (limit : Nat)
  | heartbeat (jobId : Nat) (workerId : String)
  | complete (jobId : Nat) (workerId : String)
  | fail (jobId : Nat) (workerId : String) (errorCode errorMessage : String) (retryable : Bool)
  | sweepExpired
  deriving DecidableEq

inductive Reply (P : Type)
  | claims (claims : List (JobClaim P))
  | done (ok : Bool)
  | failed (status : Option JobStatus)
  | recovered (count : Nat)
  deriving DecidableEq

/-- One call with its own reading of the clock, as one atomic step. -/
def step (cfg : Config) (db : Db P) (input : Call × Time) : Reply P × Db P :=
  match input with
  | (.claimJobs workerId limit, now) =>
    let out := claimJobs cfg db workerId limit now
    (.claims out.1, out.2)
  | (.heartbeat jobId workerId, now) =>
    let out := heartbeat cfg db jobId workerId now
    (.done out.1, out.2)
  | (.complete jobId workerId, now) =>
    let out := complete db jobId workerId now
    (.done out.1, out.2)
  | (.fail jobId workerId errorCode errorMessage retryable, now) =>
    let out := fail cfg db jobId workerId errorCode errorMessage retryable now
    (.failed out.1, out.2)
  | (.sweepExpired, now) =>
    let out := sweepExpired db now
    (.recovered out.1, out.2)

end CodexMemory.Worker
