import CodexMemory.Candidates.Model
import CodexMemory.Import.Accounting

/-!
# The creators of memories

The table of memories is the one of the candidates.  Besides `publish` of
`pipelines/v11_candidates.py` four operations write rows to it: the review of an
imported candidate, `create_l1_memory` and `reflect_project` of `api/v1_service.py`,
and the projection of a task report of `v14_service.py`.
-/

namespace CodexMemory.Memories

open Candidates (Level Scope Db Memory Message MemorySource Error)

/-! ## The system -/

/-- The tables of the candidates with all memories, the tables of the imports, whose own table of
memories stays empty, and the key of the session of a message. -/
structure System (F : Type) where
  candidates : Db F
  imports : Import.Database
  sessions : Nat → Option String

/-- A `ClassifiedMemory`; the weight is left out. -/
structure ClassifiedMemory (F : Type) where
  layer : Level
  title : String
  body : String
  tags : List String
  memoryType : String
  metadata : Json F

/-- What the operations take from elsewhere; `classify` is `MemoryClassifier().classify` of the log of a
message. -/
structure Host (F : Type) where
  candidates : Candidates.Host F
  imports : Import.Host
  classify : Nat → Message → List (ClassifiedMemory F)

section

variable {F : Type}

/-! ## `review_candidate` of the imports -/

/-- An empty table that goes on where another one ends. -/
def tableAfter {α β : Type} (t : Table α) : Table β := ⟨[], t.nextId, List.nodup_nil, by simp⟩

/-- The row of a memory that has been imported. -/
def importedMemory (memory : Import.Memory) : Memory F where
  projectId := memory.projectId
  level := (Level.ofText? memory.level).getD .L2
  memoryType := memory.memoryType
  title := memory.title
  content := .obj [("text", .str (String.ofList memory.content.text)), ("source_name", .str memory.content.sourceName),
    ("source_type", .str memory.content.sourceType),
    ("security_issues", .arr (memory.content.securityIssues.map Json.str))]
  confidence := 1 / 2
  status := "published"
  scope := (Scope.ofText? memory.scope).getD .project
  sourceKind := memory.sourceKind
  reviewStatus := memory.reviewStatus

/-- `review_candidate`: the memory that it creates goes to the common table. -/
def reviewImport (s : System F) (candidateId : Nat) (decision : Import.Decision) (reviewer reason : Option String) :
    Except Import.ImportError (Option Nat) × System F :=
  let out := Import.reviewCandidate { s.imports with memories := tableAfter s.candidates.memories } candidateId decision
    reviewer reason
  (out.1, { s with
    candidates := { s.candidates with
      memories := out.2.memories.rows.foldl (fun t r => t.insert (importedMemory r.2)) s.candidates.memories }
    imports := { out.2 with memories := .empty } })

/-- `rollback_candidate` -/
def rollbackImport (s : System F) (candidateId : Nat) (reason : Option String) :
    Except Import.ImportError Nat × System F :=
  match Import.rollbackCandidate s.imports candidateId reason with
  | (.error error, _) => (.error error, s)
  | (.ok memoryId, imports) =>
    (.ok memoryId, { s with
      candidates := { s.candidates with
        memories := s.candidates.memories.modify memoryId fun m =>
          { m with status := "deprecated", deprecated := true, reviewStatus := "rolled_back" } }
      imports := { imports with memories := .empty } })

/-! ## `create_l1_memory` -/

def l1Memory (projectId : Nat) (memoryType : String) (content : Json F) (title : Option String) : Memory F where
  projectId := some projectId
  level := .L1
  memoryType := memoryType
  title := title.getD ""
  content := content
  confidence := 1 / 2
  status := "candidate"
  scope := .project
  sourceKind := "rule"
  reviewStatus := "accepted"

def createL1Memory (db : Db F) (projectId : Nat) (memoryType : String) (content : Json F) (title : Option String) :
    Except Error Nat × Db F :=
  match db.projects.get? projectId with
  | none => (.error (.lookup "project does not exist"), db)
  | some _ =>
    (.ok db.memories.nextId, { db with memories := db.memories.insert (l1Memory projectId memoryType content title) })

/-! ## `reflect_project` -/

/-- The messages from which the project has memories. -/
def processedIds (db : Db F) (projectId : Nat) : List Nat :=
  (db.memorySources.rows.filter fun s => (db.memories.get? s.2.memoryId).any fun m => m.projectId = some projectId).map
    fun s => s.2.messageId

/-- `Layer.L1.value if item.layer == Layer.L2 else item.layer.value` -/
def reflectedLevel : Level → Level
  | .L2 => .L1
  | layer => layer

def reflectedMemory (projectId : Nat) (item : ClassifiedMemory F) : Memory F where
  projectId := some projectId
  level := reflectedLevel item.layer
  memoryType := item.memoryType
  title := item.title
  content := .obj [("text", .str item.body), ("tags", .arr (item.tags.map Json.str)), ("metadata", item.metadata)]
  confidence := if reflectedLevel item.layer = .L3 then 1 else 1 / 2
  status := if reflectedLevel item.layer = .L3 then "active" else "candidate"
  scope := .project
  sourceKind := "rule"
  reviewStatus := "accepted"

/-- The memories of the items of a message. -/
def addClassified (projectId messageId : Nat) (db : Db F) : List (ClassifiedMemory F) → Db F
  | [] => db
  | item :: rest =>
    addClassified projectId messageId
      { db with
        memories := db.memories.insert (reflectedMemory projectId item)
        memorySources := db.memorySources.insert ⟨db.memories.nextId, messageId⟩ } rest

/-- The first half: the messages of the project that have not been processed. -/
def reflectMessages (host : Host F) (projectId : Nat) (processed : List Nat) (db : Db F) :
    List (Nat × Message) → Db F
  | [] => db
  | (messageId, message) :: rest =>
    if processed.contains messageId then reflectMessages host projectId processed db rest
    else
      reflectMessages host projectId processed
        (addClassified projectId messageId db (host.classify messageId message)) rest

/-- `str(memory.content.get("text", ""))` -/
def textKey (host : Host F) (memory : Memory F) : String := ((memory.content.get? "text").map host.candidates.str).getD ""

/-- An L1 memory of the project with the session of one of its sources. -/
structure Sourced (F : Type) where
  memoryId : Nat
  memory : Memory F
  session : String

/-- The L1 memories of the project, each with the session of each of its sources. -/
def sourced (s : System F) (db : Db F) (projectId : Nat) : List (Sourced F) :=
  db.memories.rows.flatMap fun m =>
    if m.2.projectId = some projectId && m.2.level = .L1 then
      db.memorySources.rows.filterMap fun source =>
        if source.2.memoryId = m.1 then (s.sessions source.2.messageId).map fun session => ⟨m.1, m.2, session⟩ else none
    else []

/-- The texts of the L2 memories of the project. -/
def existingL2 (host : Host F) (db : Db F) (projectId : Nat) : List String :=
  (db.memories.rows.filter fun m => m.2.projectId = some projectId && m.2.level = .L2).map fun m => textKey host m.2

/-- `s.replace(old, new, 1)`, where `old` is not empty. -/
def replaceFirst (old new : List Char) : List Char → List Char
  | [] => []
  | c :: s => if old.isPrefixOf (c :: s) then new ++ (c :: s).drop old.length else c :: replaceFirst old new s

/-- `{**content, key: value}` -/
def withField (key : String) (value : Json F) : Json F → Json F
  | .obj fields =>
    if fields.any fun f => f.1 = key then .obj (fields.map fun f => if f.1 = key then (key, value) else f)
    else .obj (fields ++ [(key, value)])
  | content => content

/-- The knowledge that some sessions have in common. -/
def knowledgeMemory (projectId : Nat) (source : Memory F) (sessions : List String) : Memory F where
  projectId := some projectId
  level := .L2
  memoryType := "knowledge"
  title := String.ofList (replaceFirst "Working:".toList "Knowledge:".toList
    (if source.title = "" then "Knowledge" else source.title).toList)
  content := withField "validated_sessions" (.arr ((sessions.mergeSort fun a b => decide (a ≤ b)).map Json.str)) source.content
  confidence := 9 / 10
  status := "active"
  scope := .project
  sourceKind := "rule"
  reviewStatus := "accepted"

/-- The messages of the sources of a memory. -/
def sourceMessages (db : Db F) (memoryId : Nat) : List Nat :=
  (db.memorySources.rows.filter fun s => s.2.memoryId = memoryId).map fun s => s.2.messageId

/-- One group: its knowledge, unless there are fewer than two sessions or the text has some.  Two
sources with one message violate the unique constraint. -/
def reflectGroup (projectId : Nat) (known : List String) (db : Db F) (text : String) (group : List (Sourced F)) :
    Except Error (Db F) :=
  let sessions := (group.map Sourced.session).eraseDups
  match group with
  | [] => .ok db
  | first :: _ =>
    if sessions.length < 2 || known.contains text then .ok db
    else
      let messageIds := group.flatMap fun row => sourceMessages db row.memoryId
      if messageIds.Nodup then
        .ok { db with
          memories := db.memories.insert (knowledgeMemory projectId first.memory sessions)
          memorySources := Candidates.addSources db.memories.nextId messageIds db.memorySources }
      else .error (.integrity "uq_memory_sources_memory_message")

/-- The second half: the groups in the order of their first memories. -/
def reflectGroups (host : Host F) (projectId : Nat) (known : List String) (rows : List (Sourced F)) (db : Db F) :
    List String → Except Error (Db F)
  | [] => .ok db
  | text :: rest =>
    match reflectGroup projectId known db text (rows.filter fun row => textKey host row.memory = text) with
    | .error error => .error error
    | .ok db' => reflectGroups host projectId known rows db' rest

def reflectProject (host : Host F) (s : System F) (projectId : Nat) : Except Error Unit × System F :=
  match s.candidates.projects.get? projectId with
  | none => (.error (.lookup "project does not exist"), s)
  | some _ =>
    let db := reflectMessages host projectId (processedIds s.candidates projectId) s.candidates
      (s.candidates.messages.select fun m => m.projectId = projectId)
    let rows := sourced s db projectId
    let texts := (rows.map fun row => textKey host row.memory).eraseDups
    match reflectGroups host projectId (existingL2 host db projectId) rows db texts with
    | .error error => (.error error, s)
    | .ok db' => (.ok (), { s with candidates := db' })

/-! ## `_project_l1` -/

/-- A `TaskReportRow`, as far as its memory has it. -/
structure Report where
  reportId : Nat
  taskRunId : Nat
  revision : Nat
  kind : String
  status : String
  body : String

def reportMemory (projectId : Nat) (report : Report) : Memory F where
  projectId := some projectId
  level := .L1
  memoryType := "task_report"
  title := "任务报告 #" ++ toString report.reportId
  content := .obj [("report_id", .int report.reportId), ("task_run_id", .int report.taskRunId),
    ("revision", .int report.revision), ("kind", .str report.kind), ("status", .str report.status),
    ("body", .str report.body)]
  confidence := 1
  status := "active"
  scope := .project
  sourceKind := "task_report"
  reviewStatus := "accepted"

/-- The memory is of the report. -/
def ofReport (reportId : Nat) (memory : Memory F) : Bool :=
  match memory.content.get? "report_id" with
  | some (.int id) => id = reportId
  | _ => false

def projectL1 (db : Db F) (projectId : Nat) (report : Report) : Db F :=
  if db.memories.rows.any fun m =>
      m.2.projectId = some projectId && m.2.memoryType = "task_report" && m.2.level = .L1 && ofReport report.reportId m.2
  then db
  else { db with memories := db.memories.insert (reportMemory projectId report) }

/-! ## One step -/

inductive Call (F : Type)
  | candidates (call : Candidates.Call F)
  | imports (call : Import.Call)
  | reviewImport (candidateId : Nat) (decision : Import.Decision) (reviewer reason : Option String)
  | rollbackImport (candidateId : Nat) (reason : Option String)
  | createL1Memory (projectId : Nat) (memoryType : String) (content : Json F) (title : Option String)
  | reflectProject (projectId : Nat)
  | projectL1 (projectId : Nat) (report : Report)

def step [Json.PyFloat F] (host : Host F) (s : System F) : Call F → Unit × System F
  | .candidates call => ((), { s with candidates := (Candidates.step host.candidates s.candidates call).2 })
  | .imports call => ((), { s with imports := (Import.step host.imports s.imports call).2 })
  | .reviewImport candidateId decision reviewer reason => ((), (reviewImport s candidateId decision reviewer reason).2)
  | .rollbackImport candidateId reason => ((), (rollbackImport s candidateId reason).2)
  | .createL1Memory projectId memoryType content title =>
    ((), { s with candidates := (createL1Memory s.candidates projectId memoryType content title).2 })
  | .reflectProject projectId => ((), (reflectProject host s projectId).2)
  | .projectL1 projectId report => ((), { s with candidates := projectL1 s.candidates projectId report })

end

end CodexMemory.Memories
