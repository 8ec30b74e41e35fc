import CodexMemory.Hooks.Redaction
import CodexMemory.Json.Parse
import CodexMemory.Lines

/-!
# The local outbox of `local_outbox.py`

`enqueue` and `replay` of `LocalOutbox` on the two files of every project
directory.  A call is the list of its file operations and sends, in the order of
the source; a process that dies has carried out some of them and perhaps a part
of the next append.  Times are UTC microseconds since the beginning of the year 1.
-/

namespace CodexMemory.Outbox

/-! ## Time -/

/-- `datetime.max` -/
def maxTime : Nat := 315537897599999999

/-- `datetime + timedelta(seconds=…)`; `none` is an `OverflowError`. -/
def addSeconds (time seconds : Nat) : Option Nat :=
  if time + 1000000 * seconds ≤ maxTime then some (time + 1000000 * seconds) else none

/-- `_DAYS_BEFORE_MONTH` -/
def daysBeforeMonth : List Nat := [0, 0, 31, 59, 90, 120, 151, 181, 212, 243, 273, 304, 334]

/-- `_ord2ymd`, for the days since the first of January of the year 1. -/
def ymdOfDays (days : Nat) : Nat × Nat × Nat :=
  let n100 := days % 146097 / 36524
  let n4 := days % 146097 % 36524 / 1461
  let n1 := days % 146097 % 36524 % 1461 / 365
  let n := days % 146097 % 36524 % 1461 % 365
  let year := days / 146097 * 400 + 1 + n100 * 100 + n4 * 4 + n1
  if n1 = 4 ∨ n100 = 4 then (year - 1, 12, 31)
  else
    let leap := n1 = 3 ∧ (n4 ≠ 24 ∨ n100 = 3)
    let before := fun month => daysBeforeMonth.getD month 0 + if month > 2 ∧ leap then 1 else 0
    let month := if before ((n + 50) / 32) > n then (n + 50) / 32 - 1 else (n + 50) / 32
    (year, month, n - before month + 1)

/-- A number with leading zeros. -/
def padded (width n : Nat) : List Char := List.leftpad width '0' (Json.natText n)

/-- `datetime.isoformat` of a UTC time. -/
def isoformat (time : Nat) : String :=
  let (year, month, day) := ymdOfDays (time / 86400000000)
  let seconds := time / 1000000 % 86400
  String.ofList (padded 4 year ++ '-' :: padded 2 month ++ '-' :: padded 2 day ++
    'T' :: padded 2 (seconds / 3600) ++ ':' :: padded 2 (seconds / 60 % 60) ++ ':' :: padded 2 (seconds % 60) ++
    (if time % 1000000 = 0 then [] else '.' :: padded 6 (time % 1000000)) ++ "+00:00".toList)

/-! ## Records -/

/-- The fields of a dictionary. -/
abbrev Fields (F : Type) := List (String × Json F)

inductive Error
  | value (message : String)
  | type
  | overflow
  | unicodeDecode
  deriving DecidableEq

/-- What is left to Python: the table of `\w`, `datetime.fromisoformat` in UTC
(`none` is a `ValueError`), and `int` of a text and of a float. -/
structure Python (F : Type) where
  table : Hooks.WordTable
  fromisoformat : String → Option Nat
  intOfText : String → Except Error Int
  intOfFloat : F → Except Error Int

/-- `_PROJECT_ID_PATTERN.fullmatch` -/
def isProjectId (text : String) : Bool :=
  let first := fun c : Char => c.isLower || c.isDigit
  match text.toList with
  | [] => false
  | c :: rest => first c && decide (rest.length ≤ 63) &&
      rest.all fun c => first c || c == '.' || c == '_' || c == '-'

/-- `_SENSITIVE_KEY_PARTS` -/
def sensitiveKeyParts : List String := ["token", "secret", "password", "authorization", "api_key"]

def isSensitiveKey (key : String) : Bool := sensitiveKeyParts.any fun part => isIn part (lower key)

variable {F : Type}

mutual

/-- `_strip_sensitive` -/
def stripSensitive (table : Hooks.WordTable) : Json F → Json F
  | .obj fields => .obj (stripFields table fields)
  | .arr items => .arr (stripItems table items)
  | .str s => .str (String.ofList (Hooks.redactCredentials table s.toList))
  | v => v

def stripFields (table : Hooks.WordTable) : List (String × Json F) → List (String × Json F)
  | [] => []
  | (key, item) :: rest =>
    if isSensitiveKey key then stripFields table rest
    else (key, stripSensitive table item) :: stripFields table rest

def stripItems (table : Hooks.WordTable) : List (Json F) → List (Json F)
  | [] => []
  | item :: rest => stripSensitive table item :: stripItems table rest

end

/-- `_safe_reason`, whatever the reason. -/
def safeReason (_reason : String) : String := "Codex Memory 服务暂时不可用"

/-- The record that `enqueue` appends. -/
def newRecord (py : Python F) (projectId eventKey : String) (payload : Fields F) (reason : String)
    (now : Nat) : Fields F :=
  [("schema", .int 1), ("project_id", .str projectId), ("event_key", .str eventKey),
    ("payload", stripSensitive py.table (.obj payload)), ("queued_at", .str (isoformat now)),
    ("attempts", .int 0), ("next_attempt_at", .null), ("last_error", .str (safeReason reason))]

/-- `retry_delay_seconds` -/
def retryDelaySeconds (attempts : Int) : Nat := min 3600 (2 ^ (min (max attempts 0) 11).toNat)

/-- `int(record.get("attempts", 0))` -/
def attemptsOf (py : Python F) (record : Fields F) : Except Error Int :=
  match record.lookup "attempts" with
  | none => .ok 0
  | some (.int n) => .ok n
  | some (.bool b) => .ok (if b then 1 else 0)
  | some (.float x) => py.intOfFloat x
  | some (.str s) => py.intOfText s
  | some _ => .error .type

/-- `_is_due` -/
def isDue (py : Python F) (record : Fields F) (now : Nat) : Bool :=
  match record.lookup "next_attempt_at" with
  | some (.str text) =>
    match py.fromisoformat text with
    | some time => decide (time ≤ now)
    | none => true
  | _ => true

/-- `_retry_record` -/
def retryRecord (py : Python F) (record : Fields F) (now : Nat) : Except Error (Fields F) :=
  match attemptsOf py record with
  | .error e => .error e
  | .ok attempts =>
    match addSeconds now (retryDelaySeconds (attempts + 1)) with
    | none => .error .overflow
    | some next =>
      .ok (Json.setField "last_error" (.str "Codex Memory 服务暂时不可用")
        (Json.setField "next_attempt_at" (.str (isoformat next))
          (Json.setField "attempts" (.int (attempts + 1)) record)))

/-- `_dead_letter` -/
def deadLetter (record : Fields F) (now : Nat) : Fields F :=
  Json.setField "last_error" (.str "Codex Memory 拒绝该归档事件")
    (Json.setField "dead_lettered_at" (.str (isoformat now)) record)

/-! ## Lines of a file -/

section Lines

variable [Json.PyFloat F]

/-- The line that `_append_record` and `_rewrite_records` write for a record. -/
def recordLine (record : Fields F) : List Char := Json.dumps .default (.obj record) ++ ['\n']

/-- The record of a line, if the line is one. -/
def recordOfLine (line : List Char) : Option (Fields F) :=
  match Json.loads line with
  | some (.obj record) =>
    match record.lookup "payload" with
    | some (.obj _) => some record
    | _ => none
  | _ => none

/-- The records of the decoded content of a file. -/
def recordsOfText (text : List Char) : List (Fields F) := (readLines text).filterMap recordOfLine

/-- `_read_records`; `none` is a `UnicodeDecodeError`. -/
def readRecords (content : ByteArray) : Option (List (Fields F)) :=
  (String.fromUTF8? content).map fun text => recordsOfText text.toList

end Lines

/-! ## Operations -/

inductive File | pending | deadLetter
  deriving DecidableEq

/-- The files of the outbox: what is in a file of a project, if it exists. -/
abbrev Disk := String → File → Option ByteArray

/-- What a call of `send` does: it returns, or it raises. -/
inductive Outcome | returned | permanentHookError | retryableHookError | otherException
  deriving DecidableEq

inductive Op (F : Type)
  | send (project : String) (record : Fields F) (outcome : Outcome)
  | append (project : String) (file : File) (text : List Char)
  | replace (project : String) (text : List Char)
  | unlink (project : String)

/-- An append that was carried out: what was in the file, the text, and the
number of bytes written if the process died in it. -/
structure Append where
  before : ByteArray
  text : List Char
  torn : Option Nat

/-- The files, and what has happened: the records for which `enqueue` returned,
the calls of `send` with the record whose payload was handed over, and the appends. -/
structure World (F : Type) where
  disk : Disk := fun _ _ => none
  accepted : List (String × Fields F) := []
  sent : List (String × Fields F × Outcome) := []
  appends : List Append := []

/-- What is in a file; a file that does not exist is created empty by an append. -/
def World.content (w : World F) (project : String) (file : File) : ByteArray :=
  (w.disk project file).getD ByteArray.empty

def World.write (w : World F) (project : String) (file : File) (content : Option ByteArray) : World F :=
  { w with disk := fun p f => if p = project ∧ f = file then content else w.disk p f }

/-- The bytes of a text. -/
def encode (text : List Char) : ByteArray := (String.ofList text).toUTF8

def Op.exec (w : World F) : Op F → World F
  | .send project record outcome => { w with sent := w.sent ++ [(project, record, outcome)] }
  | .append project file text =>
    { w.write project file (some (w.content project file ++ encode text)) with
      appends := w.appends ++ [⟨w.content project file, text, none⟩] }
  | .replace project text => w.write project .pending (some (encode text))
  | .unlink project => w.write project .pending none

/-- The process dies inside the operation: of an append, `bytes` bytes are there. -/
def Op.torn (w : World F) (bytes : Nat) : Op F → World F
  | .append project file text =>
    { w.write project file (some (w.content project file ++ (encode text).extract 0 bytes)) with
      appends := w.appends ++ [⟨w.content project file, text, some bytes⟩] }
  | _ => w

/-- Where the process dies: after so many operations, inside the next one. -/
structure Crash where
  operations : Nat
  bytes : Nat

/-- How far a list of operations came. -/
inductive Progress (F : Type)
  | done (w : World F) (crash : Option Crash)
  | died (w : World F)

def Progress.world : Progress F → World F
  | .done w _ => w
  | .died w => w

def runOps : List (Op F) → Option Crash → World F → Progress F
  | [], crash, w => .done w crash
  | op :: ops, none, w => runOps ops none (op.exec w)
  | op :: _, some ⟨0, bytes⟩, w => .died (op.torn w bytes)
  | op :: ops, some ⟨n + 1, bytes⟩, w => runOps ops (some ⟨n, bytes⟩) (op.exec w)

/-! ## `enqueue` and `replay` -/

/-- What a call returns, raises, or nothing if the process died. -/
inductive Result
  | accepted
  | report (delivered remaining deadLettered : Nat)
  | raised (error : Error)
  | died

section Calls

variable [Json.PyFloat F] (py : Python F)

/-- `LocalOutbox.enqueue` -/
def enqueue (projectId : String) (payload : Fields F) (reason : String) (now : Nat)
    (crash : Option Crash) (w : World F) : Result × World F :=
  if isProjectId projectId then
    match payload.lookup "event_key" with
    | some (.str eventKey) =>
      if eventKey = "" then (.raised (.value "outbox 事件缺少有效 event_key"), w)
      else
        let record := newRecord py projectId eventKey payload reason now
        match runOps [.append projectId .pending (recordLine record)] crash w with
        | .done w' _ => (.accepted, { w' with accepted := w'.accepted ++ [(projectId, record)] })
        | .died w' => (.died, w')
    | _ => (.raised (.value "outbox 事件缺少有效 event_key"), w)
  else (.raised (.value "outbox 项目标识格式无效"), w)

/-- A call of `send`: what it does, and the time when a dead letter is written. -/
structure Attempt where
  outcome : Outcome
  now : Nat

/-- What the loop of `replay` over the records of one directory collects: the
sends it made, `remaining`, `dead_records`, and the error that left it. -/
structure Pass (F : Type) where
  sends : List (Fields F × Outcome) := []
  remaining : List (Fields F) := []
  deadRecords : List (Fields F) := []
  error : Option Error := none

/-- The loop over the records; `attempt` answers the sends in their order. -/
def passRecords (now : Nat) : List (Fields F) → (Nat → Attempt) → Pass F
  | [], _ => {}
  | record :: records, attempt =>
    if isDue py record now then
      match (attempt 0).outcome with
      | .returned =>
        let pass := passRecords now records fun i => attempt (i + 1)
        { pass with sends := (record, .returned) :: pass.sends }
      | .permanentHookError =>
        let pass := passRecords now records fun i => attempt (i + 1)
        { pass with
          sends := (record, .permanentHookError) :: pass.sends
          deadRecords := deadLetter record (attempt 0).now :: pass.deadRecords }
      | outcome =>
        match retryRecord py record now with
        | .error e => { sends := [(record, outcome)], error := some e }
        | .ok retry =>
          let pass := passRecords now records fun i => attempt (i + 1)
          { pass with sends := (record, outcome) :: pass.sends, remaining := retry :: pass.remaining }
    else
      let pass := passRecords now records attempt
      { pass with remaining := record :: pass.remaining }

/-- The operations of `replay` on one directory: the sends, and if no error left
the loop, the dead letters and the rewriting of the pending file. -/
def Pass.ops (project : String) (pass : Pass F) : List (Op F) :=
  pass.sends.map (fun s => .send project s.1 s.2) ++
    match pass.error with
    | some _ => []
    | none =>
      pass.deadRecords.map (fun record => .append project .deadLetter (recordLine record)) ++
        [if pass.remaining = [] then .unlink project
          else .replace project (pass.remaining.flatMap recordLine)]

/-- `replay` over the directories, with the counters of the report so far. -/
def replayDirs (now : Nat) : List String → (Nat → Attempt) → Nat × Nat × Nat → Option Crash → World F →
    Result × World F
  | [], _, (delivered, remaining, dead), _, w => (.report delivered remaining dead, w)
  | project :: projects, attempt, (delivered, remaining, dead), crash, w =>
    match w.disk project .pending with
    | none => replayDirs now projects attempt (delivered, remaining, dead) crash w
    | some content =>
      match readRecords content with
      | none => (.raised .unicodeDecode, w)
      | some records =>
        let pass := passRecords py now records attempt
        match runOps (pass.ops project) crash w with
        | .died w' => (.died, w')
        | .done w' crash' =>
          match pass.error with
          | some e => (.raised e, w')
          | none =>
            replayDirs now projects (fun i => attempt (i + pass.sends.length))
              (delivered + (pass.sends.filter fun s => s.2 = .returned).length,
                remaining + pass.remaining.length, dead + pass.deadRecords.length) crash' w'

/-- `LocalOutbox.replay`; `listing` is what the directory of the outbox lists. -/
def replay (projectId : Option String) (listing : List String) (now : Nat) (attempt : Nat → Attempt)
    (crash : Option Crash) (w : World F) : Result × World F :=
  match projectId with
  | none => replayDirs py now (listing.filter isProjectId) attempt (0, 0, 0) crash w
  | some project =>
    if project = "" then replayDirs py now (listing.filter isProjectId) attempt (0, 0, 0) crash w
    else if isProjectId project then replayDirs py now [project] attempt (0, 0, 0) crash w
    else (.raised (.value "outbox 项目标识格式无效"), w)

end Calls

/-- A payload as `enqueue` is given it: no dictionary has a key twice. -/
structure Payload (F : Type) where
  fields : Fields F
  unique : Json.unique (.obj fields) = true

inductive Call (F : Type)
  | enqueue (projectId : String) (payload : Payload F) (reason : String) (now : Nat)
  | replay (projectId : Option String) (listing : List String) (now : Nat) (attempt : Nat → Attempt)

/-- A call, and where the process dies in it, if it does. -/
structure Step (F : Type) where
  call : Call F
  crash : Option Crash := none

variable [Json.PyFloat F]

def step (py : Python F) (w : World F) (s : Step F) : World F :=
  match s.call with
  | .enqueue projectId payload reason now => (enqueue py projectId payload.fields reason now s.crash w).2
  | .replay projectId listing now attempt => (replay py projectId listing now attempt s.crash w).2

/-- The world after a sequence of calls on an empty outbox. -/
def run (py : Python F) (steps : List (Step F)) : World F := steps.foldl (step py) {}

end CodexMemory.Outbox
