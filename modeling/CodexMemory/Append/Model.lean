import CodexMemory.Auth
import CodexMemory.Idempotency
import CodexMemory.Trace
import CodexMemory.Versions

/-!
# `append_message_v11` of `api/v1_service.py`

Any number of calls run at the same time, each in its own transaction.  A step
lets one call go on to its next statement: it reads the message and the session,
inserts the session, the message and the event, each of which a unique index may
refuse or hold up, and commits.  The tables of V1.1 are there, so the fallback to
`append_message` is not taken.  What nobody reads is left out: the time and the
metadata of a message, the metadata of an audit row.
-/

namespace CodexMemory.Append

open Versioned

/-! ## Rows -/

structure SessionRow where
  projectId : Nat
  sessionKey : String
  deriving DecidableEq

structure Message where
  projectId : Nat
  sessionId : Nat
  eventKey : String
  role : String
  content : String
  contentHash : String
  source : String
  deriving DecidableEq

/-- The payload of a `message.appended.v1` event. -/
structure AppendedPayload where
  projectId : Nat
  projectKey : String
  messageId : Nat
  eventKey : String
  sessionKey : String
  deriving DecidableEq

/-- `OutboxEventRow`, the columns that are written here; the payload of another
event is `none`. -/
structure OutboxEvent where
  projectId : Nat
  aggregateType : String
  aggregateId : Nat
  eventType : String
  payloadVersion : String
  idempotencyKey : Option String
  payload : Option AppendedPayload
  deriving DecidableEq

structure AuditLog where
  projectId : Nat
  eventType : String
  subjectType : String
  subjectId : String
  deriving DecidableEq

/-- `uq_sessions_project_session_key` -/
def sessionIndex (row : SessionRow) : Option (Nat × String) := some (row.projectId, row.sessionKey)

/-- `uq_messages_project_event_key` -/
def messageIndex (row : Message) : Option (Nat × String) := some (row.projectId, row.eventKey)

/-- `uq_outbox_project_idempotency` -/
def eventIndex (row : OutboxEvent) : Option (Nat × String) := row.idempotencyKey.map fun key => (row.projectId, key)

/-! ## Calls -/

/-- The arguments of a call. -/
structure Call where
  principal : Principal
  projectKey : String
  sessionKey : String
  eventKey : String
  role : String
  content : String
  source : String := "hook"

inductive AppendStatus
  | accepted | stored | duplicate
  deriving DecidableEq

structure AppendResult where
  messageId : Nat
  status : AppendStatus
  eventId : Option Nat := none
  isV11 : Bool := false
  deriving DecidableEq

/-- How a call ends: it returns, or raises `AppendConflictError`, an error of the
access checks, a `LookupError`, a `ValueError` or an `IntegrityError`. -/
inductive Ended
  | returned (result : AppendResult)
  | conflict (auditId : Nat)
  | access (error : AccessError)
  | lookup (message : String)
  | value (message : String)
  | integrity (constraint : String)
  deriving DecidableEq

/-- What a call does next; `recovering` after its commit was refused. -/
inductive Phase
  | starting
  | readingSession (projectId : Nat)
  | addingSession (projectId : Nat)
  | addingMessage (projectId sessionId : Nat)
  | addingEvent (projectId messageId : Nat)
  | committing (projectId messageId eventId : Nat)
  | recovering (projectId : Nat)
  | ended (result : Ended)
  deriving DecidableEq

/-- The database and the calls, each under its number. -/
structure State where
  projects : Table String
  sessions : Versioned SessionRow
  messages : Versioned Message
  events : Versioned OutboxEvent
  audits : Table AuditLog
  phase : Nat → Phase

namespace State

def goTo (s : State) (c : Nat) (phase : Phase) : State :=
  { s with phase := fun i => if i = c then phase else s.phase i }

/-- `session.commit()` of call `c`. -/
def commit (s : State) (c : Nat) : State :=
  { s with sessions := s.sessions.commit c, messages := s.messages.commit c, events := s.events.commit c }

/-- `session.rollback()` of call `c`, which leaving `with session_factory()` also is. -/
def rollback (s : State) (c : Nat) : State :=
  { s with sessions := s.sessions.rollback c, messages := s.messages.rollback c, events := s.events.rollback c }

end State

/-- `hashlib.sha256(content.encode("utf-8")).hexdigest()` -/
def Call.contentHash (sha256 : String → String) (call : Call) : String := sha256 call.content

/-- The message and the event that a call adds. -/
def Call.message (sha256 : String → String) (call : Call) (projectId sessionId : Nat) : Message where
  projectId := projectId
  sessionId := sessionId
  eventKey := call.eventKey
  role := call.role
  content := call.content
  contentHash := call.contentHash sha256
  source := call.source

def Call.event (call : Call) (projectId messageId : Nat) (key : String) : OutboxEvent where
  projectId := projectId
  aggregateType := "message"
  aggregateId := messageId
  eventType := "message.appended.v1"
  payloadVersion := "v1"
  idempotencyKey := some key
  payload := some ⟨projectId, call.projectKey, messageId, call.eventKey, call.sessionKey⟩

/-- `IdempotencyKeyBuilder(project_key).build("message.appended", "message", event_key, "v1")` -/
def Call.idempotencyKey (sha256 : String → String) (call : Call) : Except String String :=
  buildIdempotencyKey sha256 call.projectKey "message.appended" "message" call.eventKey "v1"

/-- The key of the project row, if there is one. -/
def projectOf (projects : Table String) (projectKey : String) : Option Nat :=
  (projects.rows.find? fun r => r.2 = projectKey).map Prod.fst

/-- The answer when the message is there: `duplicate`, or an audit row and
`AppendConflictError`. -/
def answerExisting (sha256 : String → String) (s : State) (c : Nat) (call : Call) (projectId messageId : Nat)
    (message : Message) : State :=
  if message.contentHash = call.contentHash sha256 then
    s.goTo c (.ended (.returned { messageId := messageId, status := .duplicate, isV11 := true }))
  else
    { s with audits := s.audits.insert ⟨projectId, "event_key_conflict", "message", call.eventKey⟩ }.goTo c
      (.ended (.conflict s.audits.nextId))

/-- The message under the event key, as call `c` sees it. -/
def findMessage (s : State) (c : Nat) (call : Call) (projectId : Nat) : Option (Nat × Message) :=
  s.messages.find? c fun row => row.projectId = projectId && row.eventKey = call.eventKey

/-- The checks and the first reads. -/
def start (sha256 : String → String) (s : State) (c : Nat) (call : Call) : State :=
  match requirePermission call.principal "append" with
  | .error e => s.goTo c (.ended (.access e))
  | .ok () =>
    match requireProjectAccess call.principal call.projectKey with
    | .error e => s.goTo c (.ended (.access e))
    | .ok () =>
      match projectOf s.projects call.projectKey with
      | none => s.goTo c (.ended (.lookup ("project does not exist: " ++ call.projectKey)))
      | some projectId =>
        match findMessage s c call projectId with
        | some (k, message) => answerExisting sha256 s c call projectId k message
        | none => s.goTo c (.readingSession projectId)

def readSession (s : State) (c : Nat) (call : Call) (projectId : Nat) : State :=
  match s.sessions.find? c fun row => row.projectId = projectId && row.sessionKey = call.sessionKey with
  | none => s.goTo c (.addingSession projectId)
  | some (sessionId, _) => s.goTo c (.addingMessage projectId sessionId)

/-- `session.flush()` of the session row; its `IntegrityError` is not caught. -/
def addSession (s : State) (c : Nat) (call : Call) (projectId : Nat) : Bool × State :=
  match insertUnique sessionIndex s.sessions c ⟨projectId, call.sessionKey⟩ with
  | .blocked => (false, s)
  | .refused => (true, (s.rollback c).goTo c (.ended (.integrity "uq_sessions_project_session_key")))
  | .inserted sessions =>
    (true, { s with sessions := sessions }.goTo c (.addingMessage projectId s.sessions.nextId))

/-- `session.flush()` of the message row; its `IntegrityError` is not caught. -/
def addMessage (sha256 : String → String) (s : State) (c : Nat) (call : Call) (projectId sessionId : Nat) :
    Bool × State :=
  match insertUnique messageIndex s.messages c (call.message sha256 projectId sessionId) with
  | .blocked => (false, s)
  | .refused => (true, (s.rollback c).goTo c (.ended (.integrity "uq_messages_project_event_key")))
  | .inserted messages =>
    (true, { s with messages := messages }.goTo c (.addingEvent projectId s.messages.nextId))

/-- The event row, built and then flushed by `session.commit()`. -/
def addEvent (sha256 : String → String) (s : State) (c : Nat) (call : Call) (projectId messageId : Nat) :
    Bool × State :=
  match call.idempotencyKey sha256 with
  | .error message => (true, (s.rollback c).goTo c (.ended (.value message)))
  | .ok key =>
    match insertUnique eventIndex s.events c (call.event projectId messageId key) with
    | .blocked => (false, s)
    | .refused => (true, (s.rollback c).goTo c (.recovering projectId))
    | .inserted events =>
      (true, { s with events := events }.goTo c (.committing projectId messageId s.events.nextId))

def commitCall (s : State) (c : Nat) (call : Call) (projectId messageId eventId : Nat) : State :=
  { s.commit c with audits := s.audits.insert ⟨projectId, "message_appended", "message", call.eventKey⟩ }.goTo c
    (.ended (.returned { messageId := messageId, status := .accepted, eventId := some eventId, isV11 := true }))

/-- The handler of the `IntegrityError`, after its rollback. -/
def recover (sha256 : String → String) (s : State) (c : Nat) (call : Call) (projectId : Nat) : State :=
  match findMessage s c call projectId with
  | none => s.goTo c (.ended (.integrity "uq_outbox_project_idempotency"))
  | some (k, message) => answerExisting sha256 s c call projectId k message

/-- The next statement of call `c`; the answer is whether it went on, which it does
not while another transaction holds its key or when it has ended. -/
def step (sha256 : String → String) (calls : List Call) (s : State) (c : Nat) : Bool × State :=
  match calls[c]? with
  | none => (false, s)
  | some call =>
    match s.phase c with
    | .starting => (true, start sha256 s c call)
    | .readingSession projectId => (true, readSession s c call projectId)
    | .addingSession projectId => addSession s c call projectId
    | .addingMessage projectId sessionId => addMessage sha256 s c call projectId sessionId
    | .addingEvent projectId messageId => addEvent sha256 s c call projectId messageId
    | .committing projectId messageId eventId => (true, commitCall s c call projectId messageId eventId)
    | .recovering projectId => (true, recover sha256 s c call projectId)
    | .ended _ => (false, s)

end CodexMemory.Append
