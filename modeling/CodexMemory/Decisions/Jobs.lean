import CodexMemory.Candidates.Model
import CodexMemory.Worker.Model

/-!
# Decision jobs: `process_once` with `V11JobHandlers`

Any number of processes run `process_once` over the job queue.  The handler of
a `decide_candidate` job is `CandidateDecisionWorker`: one transaction after
the other it reads the candidate, begins its decision, asks the model and
applies the answer.  When `fail` has made a job dead, `process_once` calls
`on_dead` in a transaction of its own.  Between any two transactions other
processes act, the lease runs out, or the process crashes.

What the model does (run records, the call, the checks of its output) ends in
a decision or an error, and either may be any.  The handlers of other job
types are left out; what they write to candidates are calls of the candidates'
service, which may come at any time.
-/

namespace CodexMemory.DecisionJobs

open Candidates (Candidate CandidateDecision)
open Worker (Config JobClaim JobStatus ProcessingJob Time)

variable {F : Type}

/-! ## Errors of handlers -/

/-- What a handler raises: `PermanentJobError`, `CandidateDecisionError` (or one
of its subclasses), or any other exception. -/
inductive Raised
  | permanentJobError (message : String)
  | candidateDecisionError (code message : String) (retryable : Bool)
  | other (message : String)
  deriving DecidableEq

/-- `str(error)`. -/
def Raised.message : Raised → String
  | .permanentJobError message => message
  | .candidateDecisionError _ message _ => message
  | .other message => message

/-- The code and `retryable` that `process_once` hands to `fail`: its branch for
`PermanentJobError`, and `classify_error` for the rest. -/
def Raised.classify : Raised → String × Bool
  | .permanentJobError _ => ("permanent", false)
  | .candidateDecisionError code _ retryable => (code, retryable)
  | .other _ => ("handler_error", true)

/-- `getattr(error, "code", "model_failed_after_retries")`. -/
def Raised.code : Raised → String
  | .candidateDecisionError code _ _ => code
  | _ => "model_failed_after_retries"

/-- What the candidates' service raises, as the handler sees it. -/
def Raised.ofError : Candidates.Error → Raised
  | .lookup message => .other message
  | .value message => .other message
  | .invalidDecision message => .candidateDecisionError "invalid_model_output" message true
  | .integrity constraint => .other constraint

/-! ## `validate` -/

/-- The job types that `V11JobHandlers` supports. -/
def supportedTypes : List String :=
  ["message.appended.v1", "memory.candidate_requested.v1", "extract_memory_candidate",
    "memory.embedding_requested.v1", "generate_embedding", "memory.published.v1", "publish_memory",
    "memory.reindex_requested.v1", "candidate.decision.requested.v1", "decide_candidate",
    "parse_document", "chunk_document", "task.event.received.v1"]

/-- The job types that `V11JobHandlers` hands to its `CandidateDecisionWorker`. -/
def decisionTypes : List String := ["candidate.decision.requested.v1", "decide_candidate"]

/-- `DECISION_JOB_TYPE`. -/
def decisionJobType : String := "decide_candidate"

/-- The `candidate_id` of a payload that is an integer, and not a bool. -/
def candidateId? (payload : Json F) : Option Int :=
  match payload.get? "candidate_id" with
  | some (.int n) => some n
  | _ => none

/-- `CandidateDecisionWorker.validate`: the text of its `ValueError`. -/
def decisionValidate (claim : JobClaim (Json F)) : Except String Unit :=
  if claim.jobType ≠ decisionJobType then .error ("不支持的候选决策任务类型：" ++ claim.jobType)
  else if (candidateId? claim.payload).isNone then .error "候选决策任务缺少 candidate_id"
  else .ok ()

/-- `V11JobHandlers.validate`. -/
def validate (claim : JobClaim (Json F)) : Except Raised Unit :=
  if claim.jobType ∉ supportedTypes then .error (.permanentJobError ("不支持的任务类型：" ++ claim.jobType))
  else if claim.jobType ∈ decisionTypes then
    match decisionValidate claim with
    | .error message => .error (.permanentJobError message)
    | .ok () => .ok ()
  else .ok ()

/-! ## `execute` -/

/-- The transaction that `execute` is at. -/
inductive Stage (F : Type)
  | status
  | begin
  | engine
  | snapshot
  | model
  | apply (decision : CandidateDecision F)
  | elsewhere

/-- Where `execute` starts. -/
def firstStage (claim : JobClaim (Json F)) : Stage F :=
  if claim.jobType ∈ decisionTypes then .status else .elsewhere

/-- The candidate's row, or the `LookupError` that every transaction raises
without it. -/
def row? (db : Candidates.Db F) (candidateId : Int) : Except Raised (Candidate F) :=
  match (if candidateId < 0 then none else db.candidates.get? candidateId.toNat) with
  | none => .error (.other "candidate does not exist")
  | some row => .ok row

/-- `decision_engine_enabled`. -/
def decisionEngineEnabled (db : Candidates.Db F) (row : Candidate F) : Bool :=
  match db.flags row.projectId with
  | none => false
  | some flags => flags.decisionEngineEnabled

/-- The settings of a worker: its queue, its `worker_id` for each process, and
what the candidates' service needs. -/
structure Setup (F : Type) where
  cfg : Config := {}
  name : Nat → String
  host : Candidates.Host F
  svc : Candidates.Service := {}

variable [Json.PyFloat F] (setup : Setup F)

/-- One transaction of `execute`: it raises, returns (`none`) or goes on to the
next one.  At `model` and `elsewhere` an answer is awaited. -/
def executeStage (db : Candidates.Db F) (candidateId : Int) :
    Stage F → Except Raised (Option (Stage F)) × Candidates.Db F
  | .status =>
    match row? db candidateId with
    | .error e => (.error e, db)
    | .ok row =>
      match row.status with
      | .approved | .published | .rejected | .superseded => (.ok none, db)
      | _ => (.ok (some .begin), db)
  | .begin =>
    match row? db candidateId with
    | .error e => (.error e, db)
    | .ok _ =>
      match Candidates.beginModelDecision db candidateId.toNat with
      | (.error e, db') => (.error (.ofError e), db')
      | (.ok (), db') => (.ok (some .engine), db')
  | .engine =>
    match row? db candidateId with
    | .error e => (.error e, db)
    | .ok row =>
      if decisionEngineEnabled db row then (.ok (some .snapshot), db)
      else
        (.error (.candidateDecisionError "decision_engine_disabled" "项目 decision_engine_enabled 未开启" false),
          db)
  | .snapshot =>
    match row? db candidateId with
    | .error e => (.error e, db)
    | .ok row =>
      match db.projects.get? row.projectId with
      | none => (.error (.other "candidate project does not exist"), db)
      | some _ => (.ok (some .model), db)
  | .apply decision =>
    match row? db candidateId with
    | .error e => (.error e, db)
    | .ok _ =>
      match Candidates.applyModelDecision setup.host setup.svc db candidateId.toNat decision with
      | (.error e, db') => (.error (.ofError e), db')
      | (.ok _, db') => (.ok none, db')
  | .model => (.ok (some .model), db)
  | .elsewhere => (.ok (some .elsewhere), db)

/-- `int(value)`. -/
def pyInt (host : Candidates.Host F) : Json F → Option Int
  | .int n => some n
  | value => host.int value

/-- `V11JobHandlers.on_dead`.  A payload without a usable `candidate_id` raises,
and `_notify_dead` drops the error. -/
def onDead (db : Candidates.Db F) (claim : JobClaim (Json F)) (error : Raised) : Candidates.Db F :=
  if claim.jobType ∈ decisionTypes then
    match (claim.payload.get? "candidate_id").bind (pyInt setup.host) with
    | none => db
    | some n =>
      if n < 0 then db else (Candidates.markModelFailureNeedsReview db n.toNat error.code).2
  else db

/-! ## The system -/

/-- Where the loop of `process_once` stands. -/
inductive Phase (F : Type)
  | between
  | handling (claim : JobClaim (Json F)) (stage : Stage F)
  | reporting (claim : JobClaim (Json F)) (result : Except Raised Unit)
  | notifying (claim : JobClaim (Json F)) (error : Raised)

/-- A process: where it stands and the claims of the batch still to come. -/
structure Proc (F : Type) where
  phase : Phase F
  rest : List (JobClaim (Json F))

def Proc.idle : Proc F := ⟨.between, []⟩

structure State (F : Type) where
  clock : Time
  queue : Worker.Db (Json F)
  candidates : Candidates.Db F
  procs : Nat → Proc F

/-- One transaction of a process, or something outside every process: time
passes, someone calls the queue (`sweep_expired`, `fail` and the rest) or the
candidates' service.  `raises` is a transaction that the database refuses,
`modelAnswers` and `handlerEnds` end the two stages that await an answer. -/
inductive Action (F : Type)
  | tick (d : Time)
  | queue (call : Worker.Call)
  | candidates (call : Candidates.Call F)
  | processOnce (p : Nat) (limit : Nat)
  | callHandler (p : Nat)
  | advance (p : Nat)
  | raises (p : Nat) (message : String)
  | modelAnswers (p : Nat) (answer : Except Raised (CandidateDecision F))
  | handlerEnds (p : Nat) (result : Except Raised Unit)
  | report (p : Nat)
  | notify (p : Nat) (raises : Bool)
  | crash (p : Nat)

def setProc (st : State F) (p : Nat) (proc : Proc F) : State F :=
  { st with procs := Function.update st.procs p proc }

/-- The phase after a transaction of `execute`. -/
def Phase.after (claim : JobClaim (Json F)) : Except Raised (Option (Stage F)) → Phase F
  | .error e => .reporting claim (.error e)
  | .ok none => .reporting claim (.ok ())
  | .ok (some stage) => .handling claim stage

/-- The phase after `validate`. -/
def Phase.called (claim : JobClaim (Json F)) : Phase F :=
  match validate claim with
  | .error e => .reporting claim (.error e)
  | .ok () => .handling claim (firstStage claim)

/-- The call of `fail` for an error. -/
def failCall (claim : JobClaim (Json F)) (w : String) (error : Raised) : Worker.Call :=
  .fail claim.jobId w error.classify.1 error.message error.classify.2

/-- The phase after `fail`: `_notify_dead` follows when it replies "dead". -/
def Phase.failed (claim : JobClaim (Json F)) (error : Raised) : Worker.Reply (Json F) → Phase F
  | .failed (some .dead) => .notifying claim error
  | _ => .between

/-- One step. -/
def act (st : State F) : Action F → State F
  | .tick d => { st with clock := st.clock + d }
  | .queue call => { st with queue := (Worker.step setup.cfg st.queue (call, st.clock)).2 }
  | .candidates call => { st with candidates := (Candidates.step setup.host st.candidates call).2 }
  | .processOnce p limit =>
    match st.procs p with
    | ⟨.between, []⟩ =>
      let out := Worker.claimJobs setup.cfg st.queue (setup.name p) limit st.clock
      setProc { st with queue := out.2 } p ⟨.between, out.1⟩
    | _ => st
  | .callHandler p =>
    match st.procs p with
    | ⟨.between, claim :: rest⟩ => setProc st p ⟨.called claim, rest⟩
    | _ => st
  | .advance p =>
    match st.procs p with
    | ⟨.handling claim stage, rest⟩ =>
      let out := executeStage setup st.candidates ((candidateId? claim.payload).getD (-1)) stage
      setProc { st with candidates := out.2 } p ⟨.after claim out.1, rest⟩
    | _ => st
  | .raises p message =>
    match st.procs p with
    | ⟨.handling claim _, rest⟩ => setProc st p ⟨.reporting claim (.error (.other message)), rest⟩
    | _ => st
  | .modelAnswers p answer =>
    match st.procs p with
    | ⟨.handling claim .model, rest⟩ =>
      setProc st p ⟨.after claim (answer.map fun decision => some (.apply decision)), rest⟩
    | _ => st
  | .handlerEnds p result =>
    match st.procs p with
    | ⟨.handling claim .elsewhere, rest⟩ => setProc st p ⟨.reporting claim result, rest⟩
    | _ => st
  | .report p =>
    match st.procs p with
    | ⟨.reporting claim (.ok ()), rest⟩ =>
      let out := Worker.step setup.cfg st.queue (.complete claim.jobId (setup.name p), st.clock)
      setProc { st with queue := out.2 } p ⟨.between, rest⟩
    | ⟨.reporting claim (.error e), rest⟩ =>
      let out := Worker.step setup.cfg st.queue (failCall claim (setup.name p) e, st.clock)
      setProc { st with queue := out.2 } p ⟨.failed claim e out.1, rest⟩
    | _ => st
  | .notify p raises =>
    match st.procs p with
    | ⟨.notifying claim e, rest⟩ =>
      setProc { st with candidates := if raises then st.candidates else onDead setup st.candidates claim e }
        p ⟨.between, rest⟩
    | _ => st
  | .crash p => setProc st p .idle

/-- `act` as a step function; it has no reply. -/
def step (st : State F) (action : Action F) : Unit × State F := ((), act setup st action)

end CodexMemory.DecisionJobs
