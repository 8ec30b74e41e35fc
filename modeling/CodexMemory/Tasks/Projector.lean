import CodexMemory.Tasks.Model
import Mathlib.Data.String.Basic

/-!
# `TaskReportProjector.handle`

The job of an event runs `handle`: a `PreToolUse` gives its Git evidence to a run that
has none, a `Stop` or `SessionEnd` writes a report, with its changes and a memory, unless
there is one.  What it raises leaves the database as it was.
-/

namespace CodexMemory.Tasks

open Candidates (truthy)

variable {F : Type} [Json.PyFloat F]

/-! ## The baseline -/

/-- `a or b` -/
def either (a b : Json F) : Json F := if truthy a then a else b

/-- `fields.get(key)` -/
def field (fields : List (String × Json F)) (key : String) : Json F := (fields.lookup key).getD .null

/-- What a text column of a width stores, `none` where the driver raises. -/
def textColumn (host : Host F) (width : Option Nat) : Json F → Option (Option String)
  | .null => some none
  | .str text => if width.all fun width => text.length ≤ width then some (some text) else none
  | value => (host.textOf value).map some

/-- What a boolean column stores. -/
def flagColumn (host : Host F) : Json F → Option (Option Bool)
  | .null => some none
  | .bool flag => some (some flag)
  | .int n => if n = 0 then some (some false) else if n = 1 then some (some true) else none
  | .float x => (host.flagOf x).map some
  | _ => none

/-- The Git evidence of a stored payload. -/
def gitOf (payloadJson : Json F) : List (String × Json F) :=
  match payloadJson.get? "git" with
  | some (.obj git) => git
  | _ => []

/-- `_capture_baseline` and the flush of its columns. -/
def captureBaseline (host : Host F) (payloadJson : Json F) : Option (Baseline F) := do
  let git := gitOf payloadJson
  let branch ← textColumn host (some 255) (either (field git "branch") (field git "git_branch"))
  let head ← textColumn host (some 128) (either (field git "head") (field git "git_head"))
  let status ← textColumn host none (either (field git "status_porcelain") (field git "status"))
  let diffHash ← textColumn host (some 64) (field git "diff_hash")
  let available ← flagColumn host ((git.lookup "available").getD (.bool !git.isEmpty))
  return ⟨branch, head, status, diffHash, field git "untracked", available⟩

/-- `_is_uncertain` -/
def isUncertain (git : Baseline F) : Bool := git.available = some false || strip (git.statusPorcelain.getD "") ≠ ""

/-! ## The changes -/

/-- `str(value)` -/
def pyStr (host : Host F) : Json F → String
  | .str text => text
  | value => host.str value

/-- `str(item.get(key, default))` -/
def textOr (host : Host F) (item : List (String × Json F)) (key default : String) : String :=
  ((item.lookup key).map (pyStr host)).getD default

/-- The items under `file_changes`, or else under `changes`. -/
def rawChanges (payloadJson : Json F) : List (Json F) :=
  match either ((payloadJson.get? "file_changes").getD .null) ((payloadJson.get? "changes").getD .null) with
  | .arr items => items
  | _ => []

/-- The dictionary can have the value in a key. -/
def hashable : Json F → Bool
  | .arr _ | .obj _ => false
  | _ => true

/-- The key of a change; numbers and truth values that Python holds equal are told apart. -/
def changeKey (host : Host F) (item : List (String × Json F)) : String × String :=
  (pyStr host (field item "path"), canonical (field item "old_path"))

/-- `result[key] = clean` -/
def putChange (host : Host F) (item : List (String × Json F)) (changes : List (List (String × Json F))) :
    List (List (String × Json F)) :=
  if changes.any fun other => changeKey host other = changeKey host item then
    changes.map fun other => if changeKey host other = changeKey host item then item else other
  else changes ++ [item]

/-- One item; `none` where its old path cannot be a key. -/
def addChange (host : Host F) (changes : List (List (String × Json F))) :
    Json F → Option (List (List (String × Json F)))
  | .obj item =>
    if truthy (field item "path") then
      let clean := (redactFields host.table item).1
      if hashable (field clean "old_path") then some (putChange host clean changes) else none
    else some changes
  | _ => some changes

/-- `_changes_for` -/
def changesFor (host : Host F) (events : List (TaskEvent F)) : Option (List (List (String × Json F))) := do
  let changes ← (events.flatMap fun event => rawChanges event.payloadJson).foldlM (addChange host) []
  return sortBy (fun item => (toLex (textOr host item "path" "", toLex (textOr host item "old_path" "",
    textOr host item "change_type" "modified")) : String ×ₗ String ×ₗ String)) changes

/-! ## The report -/

/-- `_report_json` -/
def reportJson (runId : Nat) (run : TaskRun F) (events : List (TaskEvent F)) (changes : List (List (String × Json F)))
    (kind : Kind) (revision : Nat) (uncertain : Bool) : ReportJson F where
  runId := runId
  sessionKey := run.sessionKey
  status := if kind = .final then "completed" else run.status
  revision := revision
  timeline := events.map fun e => ⟨e.sequenceNo, e.eventKey, e.eventType, e.occurredAt⟩
  toolSummary := (events.filter fun e => e.eventType = .postToolUse).map fun e =>
    ⟨e.eventKey, e.command.text, e.result.text, e.exitCode⟩
  gitBaseline := run.git
  changes := changes
  kind := kind
  uncertain := uncertain
  truncated := events.any TaskEvent.truncated

def TimelineEntry.toJson (entry : TimelineEntry) : Json F :=
  .obj [("sequence", .int entry.sequence), ("event_key", .str entry.eventKey), ("event_type", .str entry.eventType.text),
    ("occurred_at", textOrNull entry.occurredAt)]

def ToolEntry.toJson (entry : ToolEntry) : Json F :=
  .obj [("event_key", .str entry.eventKey), ("command_summary", textOrNull entry.commandSummary),
    ("result_summary", textOrNull entry.resultSummary), ("exit_code", (entry.exitCode.map Json.int).getD .null)]

def Baseline.toJson (git : Baseline F) : Json F :=
  .obj [("branch", textOrNull git.branch), ("head", textOrNull git.head),
    ("status_porcelain", textOrNull git.statusPorcelain), ("diff_hash", textOrNull git.diffHash),
    ("untracked", git.untracked), ("available", (git.available.map Json.bool).getD .null)]

def ReportJson.toJson (report : ReportJson F) : Json F :=
  .obj [
    ("run", .obj [("id", .int report.runId), ("session_key", .str report.sessionKey), ("status", .str report.status),
      ("revision", .int report.revision)]),
    ("timeline", .arr (report.timeline.map TimelineEntry.toJson)),
    ("tool_summary", .arr (report.toolSummary.map ToolEntry.toJson)),
    ("git_baseline", report.gitBaseline.toJson),
    ("change_manifest", .obj [("changes", .arr (report.changes.map Json.obj)), ("count", .int report.changes.length)]),
    ("attribution", .obj [("status", .str (if report.uncertain then "uncertain" else "certain")),
      ("reason", .str (if report.uncertain then "基线存在既有变更或 Git 不可用" else "基线可用且未发现既有变更"))]),
    ("integrity", .obj [("kind", .str report.kind.text), ("uncertain", .bool report.uncertain),
      ("truncated", .bool report.truncated)]),
    ("limitations", .arr [.str "报告由固定输入确定性生成", .str "V1.4 不调用 LLM，也不生成 L2/L3 记忆"])]

/-- The events of a run in the order of their numbers. -/
def eventsOf (db : Db F) (runId : Nat) : List (TaskEvent F) :=
  (sortBy (fun e => (toLex (e.2.sequenceNo, e.1) : Nat ×ₗ Nat)) (db.events.select fun e => e.taskRunId = runId)).map
    Prod.snd

/-- The rows of the changes of a report. -/
def fileChange (host : Host F) (projectId runId reportId : Nat) (uncertain : Bool)
    (item : List (String × Json F) × Nat) : FileChange F where
  projectId := projectId
  taskRunId := runId
  reportId := reportId
  changeIndex := item.2
  path := textOr host item.1 "path" ""
  oldPath := field item.1 "old_path"
  changeType := textOr host item.1 "change_type" "modified"
  beforeHash := field item.1 "before_hash"
  afterHash := field item.1 "after_hash"
  attribution := if uncertain then "uncertain" else textOr host item.1 "attribution" "certain"
  metadata := (item.1.lookup "metadata").getD (.obj [])

/-- The run after a report. -/
def reportedRun (run : TaskRun F) (kind : Kind) (occurredAt : Option String) (revision : Nat) : TaskRun F :=
  { run with
    status := if kind = .final then "completed" else run.status
    endedAt := if kind = .final then occurredAt else run.endedAt
    currentReportRevision := revision }

def kindOf : EventType → Option Kind
  | .stop => some .checkpoint
  | .sessionEnd => some .final
  | _ => none

/-- The row of a report with its changes. -/
def reportRow (host : Host F) (eventId runId : Nat) (run : TaskRun F) (events : List (TaskEvent F))
    (changes : List (List (String × Json F))) (kind : Kind) (revision : Nat) : TaskReport F :=
  let status := if kind = .final then "completed" else run.status
  let content := reportJson runId run events changes kind revision (isUncertain run.git)
  let body := canonical content.toJson
  { projectId := run.projectId
    taskRunId := runId
    sourceEventId := eventId
    revision := revision
    kind := kind
    status := status
    reportJson := content
    body := body
    contentHash := host.sha256 body
    uncertain := isUncertain run.git
    truncated := events.any TaskEvent.truncated }

/-- What an end of the session writes. -/
def writeReport (host : Host F) (db : Db F) (eventId runId : Nat) (run : TaskRun F) (kind : Kind)
    (occurredAt : Option String) : Except Error Nat × Db F :=
  let revision := run.currentReportRevision + 1
  let events := eventsOf db runId
  match changesFor host events with
  | none => (.error (.type "unhashable type"), db)
  | some changes =>
    if db.reports.rows.any fun r => r.2.taskRunId = runId && r.2.revision = revision then
      (.error (.integrity "uq_task_reports_run_revision"), db)
    else
      let report := reportRow host eventId runId run events changes kind revision
      let reportId := db.reports.nextId
      (.ok reportId,
        { db with
          candidates := Memories.projectL1 db.candidates run.projectId
            ⟨reportId, runId, revision, kind.text, report.status, report.body⟩
          runs := db.runs.modify runId fun run => reportedRun run kind occurredAt revision
          reports := db.reports.insert report
          changes := (changes.zipIdx.map (fileChange host run.projectId runId reportId report.uncertain)).foldl
            (fun t change => t.insert change) db.changes })

/-- `handle` -/
def handle (host : Host F) (db : Db F) (eventId : Nat) : Except Error (Option Nat) × Db F :=
  match db.events.get? eventId with
  | none => (.error (.lookup ("任务事件不存在：" ++ toString eventId)), db)
  | some event =>
    match db.runs.get? event.taskRunId with
    | none => (.error (.lookup "任务事件与项目不匹配"), db)
    | some run =>
      if run.projectId ≠ event.projectId then (.error (.lookup "任务事件与项目不匹配"), db)
      else if event.eventType = .preToolUse ∧ run.git.available = none then
        match captureBaseline host event.payloadJson with
        | none => (.error (.data "invalid baseline"), db)
        | some git => (.ok none, { db with runs := db.runs.modify event.taskRunId fun run => { run with git := git } })
      else
        match kindOf event.eventType with
        | none => (.ok none, db)
        | some kind =>
          match findRow db.reports fun r => r.sourceEventId = eventId with
          | some (reportId, _) => (.ok (some reportId), db)
          | none =>
            let out := writeReport host db eventId event.taskRunId run kind event.occurredAt
            (out.1.map some, out.2)

end CodexMemory.Tasks
