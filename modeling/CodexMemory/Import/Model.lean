import CodexMemory.Import.Parse
import CodexMemory.Worker.Operations
import CodexMemory.WriteBack

/-!
# The import service of `pipelines/v131_import.py`

The tables of an import and the calls that write them: `create_batch`, `add_files`,
`start_batch`, `retry_batch`, `process_import_file`, `review_candidate`,
`rollback_candidate` and the `cancel_import_batch` of `admin/api.py`.  Times of the
batches, metadata and the rows of issues, which nobody reads, are left out.
-/

namespace CodexMemory.Import

open Worker (BatchStatus FileStatus OutboxEvent ProcessingJob Time)

/-! ## Rows -/

/-- `ImportBatchRow` -/
structure ImportBatch where
  projectId : Nat
  scopeId : Nat
  status : BatchStatus
  scopeKey : String
  sourceCount : Nat := 0
  documentCount : Nat := 0
  chunkCount : Nat := 0
  errorCount : Nat := 0
  errorMessage : Option String := none
  retryCount : Nat := 0
  processedCount : Nat := 0
  deriving DecidableEq

/-- `StoredImport` -/
structure StoredImport where
  backend : String
  key : String
  content : Option String
  deriving DecidableEq

/-- `ImportFileRow` -/
structure ImportFile where
  projectId : Nat
  scopeId : Nat
  importBatchId : Nat
  sourceName : String
  sourceType : String
  sizeBytes : Nat
  contentHash : String
  stored : StoredImport
  status : FileStatus := .uploaded
  errorMessage : Option String := none
  deriving DecidableEq

inductive DocumentStatus
  | parsed | quarantined
  deriving DecidableEq, Repr

/-- `SourceDocumentRow` -/
structure SourceDocument where
  projectId : Nat
  scopeId : Nat
  importBatchId : Nat
  sourceName : String
  sourceType : String
  contentHash : String
  content : String
  securityIssues : List String
  status : DocumentStatus
  errorMessage : Option String := none
  deriving DecidableEq

/-- `DocumentChunkRow` -/
structure DocumentChunk where
  projectId : Nat
  scopeId : Nat
  documentId : Nat
  chunkIndex : Nat
  heading : Option String
  content : List Char
  contentHash : String
  startChar : Nat
  endChar : Nat
  deriving DecidableEq

inductive CandidateStatus
  | pendingReview | rejected | published | rolledBack
  deriving DecidableEq, Repr

/-- The `content` of a candidate. -/
structure CandidateContent where
  text : List Char
  sourceName : String
  sourceType : String
  securityIssues : List String
  deriving DecidableEq

/-- `ReferenceCandidateRow` -/
structure ReferenceCandidate where
  projectId : Nat
  scopeId : Nat
  documentId : Nat
  chunkId : Nat
  title : String
  content : CandidateContent
  status : CandidateStatus := .pendingReview
  dedupeKey : String
  scopeKey : String
  publishedMemoryId : Option Nat := none
  reviewer : Option String := none
  reviewReason : Option String := none
  deriving DecidableEq

inductive MemoryStatus
  | published | deprecated
  deriving DecidableEq, Repr

/-- `MemoryRow`, with the content of its only version. -/
structure Memory where
  projectId : Option Nat
  scopeId : Nat
  level : String
  memoryType : String
  title : String
  content : CandidateContent
  status : MemoryStatus
  scope : String
  sourceKind : String
  reviewStatus : String
  deprecated : Bool := false
  deriving DecidableEq

/-- The payload of a `document.imported.v1` event. -/
structure ImportPayload where
  projectId : Nat
  projectKey : String
  importBatchId : Nat
  importFileId : Nat
  scopeKey : String
  deriving DecidableEq

/-- The payload of an event or of a job; that of another type is `none`. -/
abbrev Payload := Option ImportPayload

/-- The tables. -/
structure Database where
  projects : Table String
  batches : Table ImportBatch
  files : Table ImportFile
  documents : Table SourceDocument
  chunks : Table DocumentChunk
  candidates : Table ReferenceCandidate
  memories : Table Memory
  queue : Worker.Db Payload

/-- The tables before any import. -/
def initial (projects : Table String) : Database where
  projects := projects
  batches := .empty
  files := .empty
  documents := .empty
  chunks := .empty
  candidates := .empty
  memories := .empty
  queue := ⟨.empty, .empty, .empty⟩

/-- What a call raises, with its text. -/
inductive ImportError
  | lookup (message : String)
  | value (message : String)
  | storage (message : String)
  deriving DecidableEq

/-- `ImportStorage` -/
structure Storage where
  backend : String
  put : String → Nat → String → Except String StoredImport
  get : StoredImport → Except String String

/-- `DatabaseImportStorage` -/
def databaseStorage : Storage where
  backend := "database"
  put content batchId contentHash :=
    .ok ⟨"database", "db://import-files/" ++ toString batchId ++ "/" ++ contentHash, some content⟩
  get stored :=
    match stored.content with
    | some content => .ok content
    | none => .error "数据库存储记录缺少导入内容"

/-- What is taken from Python: the hexadecimal SHA-256 of a text, the Unicode table of `\w`, the
libraries of the formats, and the storage. -/
structure Host where
  sha256 : String → String
  table : Hooks.WordTable
  library : Library
  storage : Storage

/-- `ImportItem`; `metadata` is left out. -/
structure ImportItem where
  sourceName : String
  content : String
  sourceType : Option String := none

/-- `(item.source_type or source_type_for_name(item.source_name)).lower()` -/
def ImportItem.kind (item : ImportItem) : String :=
  lower (match item.sourceType with
    | some kind => if kind = "" then sourceTypeForName item.sourceName else kind
    | none => sourceTypeForName item.sourceName)

namespace Database

def filesOf (db : Database) (batchId : Nat) : List (Nat × ImportFile) :=
  db.files.select fun f => f.importBatchId = batchId

def documentsOf (db : Database) (batchId : Nat) : List (Nat × SourceDocument) :=
  db.documents.select fun d => d.importBatchId = batchId

/-- The document of the project with the hash. -/
def documentWithHash (db : Database) (projectId : Nat) (contentHash : String) : Option (Nat × SourceDocument) :=
  db.documents.rows.find? fun d => d.2.projectId = projectId && d.2.contentHash = contentHash

/-- The candidates whose document is of the batch. -/
def candidatesOf (db : Database) (batchId : Nat) : List (Nat × ReferenceCandidate) :=
  db.candidates.select fun c => (db.documents.get? c.documentId).any fun d => d.importBatchId = batchId

end Database

/-! ## `create_batch` and `add_files` -/

/-- `create_batch`; the scope of the batch has been resolved. -/
def createBatch (db : Database) (projectId scopeId : Nat) (scopeKey : String) : Except ImportError Nat × Database :=
  if strip scopeKey = "" then (.error (.value "scope_key 不能为空"), db)
  else if (db.projects.get? projectId).isNone then (.error (.lookup "项目不存在"), db)
  else
    let batch : ImportBatch := { projectId := projectId, scopeId := scopeId, status := .draft, scopeKey := scopeKey }
    (.ok db.batches.nextId, { db with batches := db.batches.insert batch })

/-- The statuses in which files can be added and a batch can be started. -/
def isOpen (status : BatchStatus) : Bool :=
  status = .draft || status = .uploaded || status = .failed || status = .cancelled

/-- The row of an item. -/
def fileRow (batchId : Nat) (batch : ImportBatch) (item : ImportItem) (contentHash : String) (stored : StoredImport)
    (size : Nat) : ImportFile where
  projectId := batch.projectId
  scopeId := batch.scopeId
  importBatchId := batchId
  sourceName := item.sourceName
  sourceType := item.kind
  sizeBytes := size
  contentHash := contentHash
  stored := stored

/-- The files of the items, one after the other; `hashes` are those that the batch has. -/
def addEach (host : Host) (batchId : Nat) (batch : ImportBatch) (hashes : List String) (files : Table ImportFile)
    (added : Nat) : List ImportItem → Except ImportError (Nat × Table ImportFile)
  | [] => .ok (added, files)
  | item :: rest =>
    if !supportedTypes.contains item.kind then .error (.value ("不支持的导入格式：" ++ item.kind))
    else
      let contentHash := host.sha256 item.content
      if hashes.contains contentHash then addEach host batchId batch hashes files added rest
      else
        match host.storage.put item.content batchId contentHash with
        | .error message => .error (.storage message)
        | .ok stored =>
          match contentBytes host.library item.content with
          | .error message => .error (.value message)
          | .ok bytes =>
            addEach host batchId batch (contentHash :: hashes)
              (files.insert (fileRow batchId batch item contentHash stored bytes.size)) (added + 1) rest

def addFiles (host : Host) (db : Database) (batchId : Nat) (items : List ImportItem) :
    Except ImportError Nat × Database :=
  if items = [] then (.error (.value "至少需要一个导入文件"), db)
  else
    match db.batches.get? batchId with
    | none => (.error (.lookup ("导入批次不存在：" ++ toString batchId)), db)
    | some batch =>
      if !isOpen batch.status then (.error (.value "当前批次不允许上传文件"), db)
      else if (db.projects.get? batch.projectId).isNone then (.error (.lookup "项目不存在"), db)
      else
        match addEach host batchId batch ((db.filesOf batchId).map fun f => f.2.contentHash) db.files 0 items with
        | .error error => (.error error, db)
        | .ok (added, files) =>
          (.ok added, { db with
            files := files
            batches := db.batches.modify batchId fun b =>
              { b with sourceCount := b.sourceCount + added, status := .uploaded } })

/-! ## `start_batch` and `retry_batch` -/

/-- A file that `start_batch` queues. -/
def startable (status : FileStatus) : Bool := status = .uploaded || status = .failed || status = .cancelled

/-- The key of the event of a file. -/
def eventKey (projectKey : String) (fileId retryCount : Nat) : String :=
  projectKey ++ ".import.parse_document.file-" ++ toString fileId ++ ".knowledge-import-v1.retry-" ++ toString retryCount

/-- The event of a file. -/
def importedEvent (now : Time) (batchId : Nat) (batch : ImportBatch) (projectKey : String) (fileId : Nat) :
    OutboxEvent Payload where
  projectId := batch.projectId
  aggregateType := "import_file"
  aggregateId := fileId
  eventType := "document.imported.v1"
  payloadVersion := "v1"
  payload := some ⟨batch.projectId, projectKey, batchId, fileId, batch.scopeKey⟩
  idempotencyKey := some (eventKey projectKey fileId batch.retryCount)
  priority := 5
  nextAttemptAt := now
  createdAt := now

/-- The event with a key. -/
def hasKey (projectId : Nat) (key : String) (event : OutboxEvent Payload) : Bool :=
  event.projectId = projectId && event.idempotencyKey = some key

/-- The event of one file, unless there is one with its key. -/
def addEvent (now : Time) (batchId : Nat) (batch : ImportBatch) (projectKey : String)
    (events : Table (OutboxEvent Payload)) (fileId : Nat) : Table (OutboxEvent Payload) :=
  if events.rows.any fun e => hasKey batch.projectId (eventKey projectKey fileId batch.retryCount) e.2 then events
  else events.insert (importedEvent now batchId batch projectKey fileId)

/-- The files of the batch that are to be queued. -/
def toQueue (db : Database) (batchId : Nat) : List (Nat × ImportFile) :=
  (db.filesOf batchId).filter fun f => startable f.2.status

def startBatch (db : Database) (now : Time) (batchId : Nat) : Except ImportError Nat × Database :=
  match db.batches.get? batchId with
  | none => (.error (.lookup ("导入批次不存在：" ++ toString batchId)), db)
  | some batch =>
    if !isOpen batch.status then (.error (.value "当前批次不能启动"), db)
    else if db.filesOf batchId = [] then (.error (.value "批次没有可处理文件"), db)
    else
      match db.projects.get? batch.projectId with
      | none => (.error (.lookup "项目不存在"), db)
      | some projectKey =>
        let events := (toQueue db batchId).foldl
          (fun events f => addEvent now batchId batch projectKey events f.1) db.queue.events
        (.ok (events.rows.length - db.queue.events.rows.length), { db with
          batches := db.batches.modify batchId fun b => { b with status := .queued }
          files := db.files.mapRows fun _ f =>
            if f.importBatchId = batchId && startable f.status then { f with status := .queued } else f
          queue := { db.queue with events := events } })

/-- A file that `retry_batch` takes up again. -/
def retryable (status : FileStatus) : Bool := status = .failed || status = .cancelled

/-- The first transaction of `retry_batch`. -/
def reopenBatch (db : Database) (batchId : Nat) : Except ImportError Unit × Database :=
  match db.batches.get? batchId with
  | none => (.error (.lookup ("导入批次不存在：" ++ toString batchId)), db)
  | some batch =>
    if !(batch.status = .failed || batch.status = .cancelled) then (.error (.value "只有失败或已取消批次可以重试"), db)
    else
      let failedFiles := (db.filesOf batchId).filter fun f => retryable f.2.status
      if failedFiles = [] then (.error (.value "批次没有可重试文件"), db)
      else
        (.ok (), { db with
          files := db.files.mapRows fun _ f =>
            if f.importBatchId = batchId && retryable f.status then { f with status := .uploaded, errorMessage := none }
            else f
          batches := db.batches.modify batchId fun b =>
            { b with
              retryCount := b.retryCount + 1
              errorMessage := none
              errorCount := 0
              processedCount := b.sourceCount - failedFiles.length
              status := .uploaded } })

def retryBatch (db : Database) (now : Time) (batchId : Nat) : Except ImportError Nat × Database :=
  match reopenBatch db batchId with
  | (.error error, _) => (.error error, db)
  | (.ok (), db') => startBatch db' now batchId

/-! ## `process_import_file` -/

/-- `batch.status in {"cancelled", "rolled_back"}` -/
def isClosed (status : BatchStatus) : Bool := status = .cancelled || status = .rolledBack

/-- `file.status in {"parsed", "duplicate", "quarantined"}` -/
def isDone (status : FileStatus) : Bool := status = .parsed || status = .duplicate || status = .quarantined

/-- The columns of a batch that `process_import_file` assigns. -/
def writeBatch (loaded changed current : ImportBatch) : ImportBatch :=
  { current with
    status := writeColumn loaded.status changed.status current.status
    processedCount := writeColumn loaded.processedCount changed.processedCount current.processedCount
    documentCount := writeColumn loaded.documentCount changed.documentCount current.documentCount
    chunkCount := writeColumn loaded.chunkCount changed.chunkCount current.chunkCount
    errorCount := writeColumn loaded.errorCount changed.errorCount current.errorCount }

/-- The columns of a file that it assigns. -/
def writeFile (loaded changed current : ImportFile) : ImportFile :=
  { current with
    status := writeColumn loaded.status changed.status current.status
    errorMessage := writeColumn loaded.errorMessage changed.errorMessage current.errorMessage }

/-- `_finish_batch_if_done` -/
def finishIfDone (hasCandidates : Bool) (batch : ImportBatch) : ImportBatch :=
  if batch.processedCount < batch.sourceCount then batch
  else if 0 < batch.errorCount then { batch with status := .failed }
  else if hasCandidates then { batch with status := .awaitingReview }
  else { batch with status := .completed }

/-- A batch with one more file processed. -/
def ImportBatch.processed (batch : ImportBatch) (documents chunks errors : Nat) : ImportBatch :=
  { batch with
    processedCount := batch.processedCount + 1
    documentCount := batch.documentCount + documents
    chunkCount := batch.chunkCount + chunks
    errorCount := batch.errorCount + errors }

/-- A file and its batch, as a transaction has read them. -/
structure LoadedFile where
  fileId : Nat
  file : ImportFile
  batch : ImportBatch
  projectKey : String

/-- The rows of a file and of its batch are written. -/
def saveFile (db : Database) (loaded : LoadedFile) (file : ImportFile) (batch : ImportBatch) : Database :=
  { db with
    files := db.files.modify loaded.fileId fun current => writeFile loaded.file file current
    batches := db.batches.modify loaded.file.importBatchId fun current => writeBatch loaded.batch batch current }

/-- The end of an exit of `process_import_file`: the batch is finished if it is done. -/
def saveProcessed (db : Database) (loaded : LoadedFile) (file : ImportFile) (batch : ImportBatch) : Database :=
  saveFile db loaded file (finishIfDone (db.candidatesOf loaded.file.importBatchId ≠ []) batch)

/-- The document of a file. -/
def documentRow (loaded : LoadedFile) (content : String) (issues : List String) : SourceDocument where
  projectId := loaded.file.projectId
  scopeId := loaded.batch.scopeId
  importBatchId := loaded.file.importBatchId
  sourceName := loaded.file.sourceName
  sourceType := loaded.file.sourceType
  contentHash := loaded.file.contentHash
  content := content
  securityIssues := issues
  status := .parsed

/-- `"检测到提示注入内容，已隔离，未生成候选"` -/
def quarantineMessage : String := "检测到提示注入内容，已隔离，未生成候选"

/-- What a chunk and its candidate are made from besides their part. -/
structure PartSource where
  projectId : Nat
  projectKey : String
  scopeId : Nat
  /-- The scope of the candidates, which `process_import_file` does not set. -/
  candidateScopeId : Nat
  documentId : Nat
  sourceName : String
  sourceType : String
  securityIssues : List String
  scopeKey : String

def chunkRow (host : Host) (source : PartSource) (index : Nat) (part : Part) : DocumentChunk where
  projectId := source.projectId
  scopeId := source.scopeId
  documentId := source.documentId
  chunkIndex := index
  heading := part.heading
  content := (scanSecurity host.table part.text).2
  contentHash := host.sha256 (String.ofList part.text)
  startChar := part.start
  endChar := part.stop

/-- `heading or source_name` -/
def titleOf (heading : Option String) (sourceName : String) : String :=
  match heading with
  | some heading => if heading = "" then sourceName else heading
  | none => sourceName

def candidateRow (host : Host) (source : PartSource) (chunkId : Nat) (part : Part) : ReferenceCandidate where
  projectId := source.projectId
  scopeId := source.candidateScopeId
  documentId := source.documentId
  chunkId := chunkId
  title := titleOf part.heading source.sourceName
  content := ⟨(scanSecurity host.table part.text).2, source.sourceName, source.sourceType, source.securityIssues⟩
  dedupeKey := source.projectKey ++ ".reference." ++ host.sha256 (String.ofList part.text)
  scopeKey := source.scopeKey

/-- The chunks and the candidates of the parts from an index on. -/
def addParts (host : Host) (source : PartSource) (index : Nat) (db : Database) : List Part → Database
  | [] => db
  | part :: rest =>
    addParts host source (index + 1)
      { db with
        chunks := db.chunks.insert (chunkRow host source index part)
        candidates := db.candidates.insert (candidateRow host source db.chunks.nextId part) } rest

/-- What `process_import_file` returns. -/
structure Processed where
  status : FileStatus
  candidates : Nat
  deriving DecidableEq

/-- What a transaction writes once the content has been read and parsed. -/
def storeParsed (host : Host) (db : Database) (loaded : LoadedFile) (content : String) (parts : List Part) :
    Processed × Database :=
  let issues := (scanSecurity host.table content.toList).1
  match db.documentWithHash loaded.file.projectId loaded.file.contentHash with
  | some _ =>
    (⟨.duplicate, 0⟩,
      saveProcessed db loaded { loaded.file with status := .duplicate } (loaded.batch.processed 0 0 0))
  | none =>
    let document := documentRow loaded content issues
    if issues.contains "prompt_injection" then
      let document := { document with status := .quarantined, errorMessage := some quarantineMessage }
      let db := { db with documents := db.documents.insert document }
      (⟨.quarantined, 0⟩,
        saveProcessed db loaded { loaded.file with status := .quarantined } (loaded.batch.processed 0 0 1))
    else
      let source : PartSource := {
        projectId := loaded.file.projectId
        projectKey := loaded.projectKey
        scopeId := loaded.batch.scopeId
        candidateScopeId := 0
        documentId := db.documents.nextId
        sourceName := loaded.file.sourceName
        sourceType := loaded.file.sourceType
        securityIssues := issues
        scopeKey := loaded.batch.scopeKey }
      let db := addParts host source 0 { db with documents := db.documents.insert document } parts
      (⟨.parsed, parts.length⟩,
        saveProcessed db loaded { loaded.file with status := .parsed } (loaded.batch.processed 1 parts.length 0))

/-- The content of a file with its parts, or the text of the error. -/
def readParts (host : Host) (file : ImportFile) : Except String (String × List Part) :=
  match host.storage.get file.stored with
  | .error message => .error message
  | .ok content => (parseDocument host.library content file.sourceType).map fun parts => (content, parts)

/-- `str(error)[:1000]` -/
def shortMessage (message : String) : String := slice message 0 1000

/-- `process_import_file` from the rows that it has read. -/
def processLoaded (host : Host) (db : Database) (loaded : LoadedFile) : Processed × Database :=
  if isClosed loaded.batch.status then
    (⟨.cancelled, 0⟩, saveFile db loaded { loaded.file with status := .cancelled } loaded.batch)
  else if isDone loaded.file.status then (⟨loaded.file.status, 0⟩, db)
  else
    match readParts host loaded.file with
    | .error message =>
      (⟨.failed, 0⟩,
        saveProcessed db loaded { loaded.file with status := .failed, errorMessage := some (shortMessage message) }
          (loaded.batch.processed 0 0 1))
    | .ok (content, parts) => storeParsed host db loaded content parts

/-- The rows that `process_import_file` reads first. -/
def loadFile (db : Database) (fileId : Nat) : Except ImportError LoadedFile :=
  match db.files.get? fileId with
  | none => .error (.lookup ("导入文件不存在：" ++ toString fileId))
  | some file =>
    match db.batches.get? file.importBatchId, db.projects.get? file.projectId with
    | some batch, some projectKey =>
      if batch.projectId = file.projectId then .ok ⟨fileId, file, batch, projectKey⟩
      else .error (.value "导入文件项目边界无效")
    | _, _ => .error (.value "导入文件项目边界无效")

def processImportFile (host : Host) (db : Database) (fileId : Nat) : Except ImportError Processed × Database :=
  match loadFile db fileId with
  | .error error => (.error error, db)
  | .ok loaded =>
    let out := processLoaded host db loaded
    (.ok out.1, out.2)

/-! ## `cancel_import_batch` -/

/-- A payload is of the batch. -/
def ofBatch (batchId : Nat) (payload : Payload) : Bool := payload.any fun p => p.importBatchId = batchId

/-- The events of the batch that are cancelled. -/
def cancelledEvent (projectId batchId : Nat) (event : OutboxEvent Payload) : Bool :=
  event.projectId = projectId && event.eventType = "document.imported.v1" && ofBatch batchId event.payload &&
    (event.status = .pending || event.status = .retryWait || event.status = .dispatched)

/-- The jobs of the batch that are cancelled. -/
def cancelledJob (projectId batchId : Nat) (job : ProcessingJob Payload) : Bool :=
  job.projectId = projectId && job.jobType = "parse_document" && ofBatch batchId job.payload &&
    (job.status = .pending || job.status = .retryWait || job.status = .running)

/-- A file that is cancelled with its batch. -/
def cancellable (status : FileStatus) : Bool := status = .uploaded || status = .queued || status = .processing

/-- The queue without the events and the jobs of a batch. -/
def cancelQueue (queue : Worker.Db Payload) (projectId batchId : Nat) (now : Time) : Worker.Db Payload :=
  let jobs := queue.jobs.select (cancelledJob projectId batchId)
  -- `if job.outbox_event_id:` is false for a key 0 as well
  let carried := fun eventId => jobs.any fun r => r.2.outboxEventId = some eventId && eventId ≠ 0
  { queue with
    events := queue.events.mapRows fun eventId event =>
      if cancelledEvent projectId batchId event || carried eventId then Worker.cancelledImportEvent event else event
    jobs := queue.jobs.mapRows fun _ job =>
      if cancelledJob projectId batchId job then Worker.cancelledRow "import batch cancelled" now job else job }

/-- The statuses in which a batch cannot be cancelled. -/
def isEnded (status : BatchStatus) : Bool :=
  status = .completed || status = .failed || status = .cancelled || status = .rolledBack

/-- `cancel_import_batch`, for a principal that may do it. -/
def cancelImportBatch (db : Database) (now : Time) (batchId : Nat) : Except ImportError Unit × Database :=
  match db.batches.get? batchId with
  | none => (.error (.lookup "导入批次不存在"), db)
  | some batch =>
    if isEnded batch.status then (.error (.value "当前批次已经结束，不能取消"), db)
    else
      (.ok (), { db with
        batches := db.batches.modify batchId fun b => { b with status := .cancelled }
        files := db.files.mapRows fun _ f =>
          if f.importBatchId = batchId && cancellable f.status then { f with status := .cancelled } else f
        queue := cancelQueue db.queue batch.projectId batchId now })

/-! ## Review and rollback -/

inductive Decision
  | approve | reject
  deriving DecidableEq

/-- The memory that an approved candidate becomes. -/
def memoryRow (candidate : ReferenceCandidate) : Memory where
  projectId := if candidate.scopeKey ≠ "global" then some candidate.projectId else none
  scopeId := candidate.scopeId
  level := "L2"
  memoryType := "imported_reference"
  title := candidate.title
  content := candidate.content
  status := .published
  scope := if candidate.scopeKey = "global" then "global" else "project"
  sourceKind := "import"
  reviewStatus := "accepted"

/-- `review_candidate`; it returns the memory that is published. -/
def reviewCandidate (db : Database) (candidateId : Nat) (decision : Decision) (reviewer reason : Option String) :
    Except ImportError (Option Nat) × Database :=
  match db.candidates.get? candidateId with
  | none => (.error (.lookup ("导入候选不存在：" ++ toString candidateId)), db)
  | some candidate =>
    if candidate.status = .published ∨ candidate.status = .rolledBack then
      (.error (.value "导入候选已经完成审核，不能重复处理"), db)
    else
      match decision with
      | .reject =>
        (.ok none, { db with candidates := db.candidates.modify candidateId fun c =>
          { c with status := .rejected, reviewer := reviewer, reviewReason := reason } })
      | .approve =>
        (.ok (some db.memories.nextId), { db with
          memories := db.memories.insert (memoryRow candidate)
          candidates := db.candidates.modify candidateId fun c =>
            { c with
              status := .published
              publishedMemoryId := some db.memories.nextId
              reviewer := reviewer
              reviewReason := reason } })

/-- `rollback_candidate` -/
def rollbackCandidate (db : Database) (candidateId : Nat) (reason : Option String) : Except ImportError Nat × Database :=
  match db.candidates.get? candidateId with
  | none => (.error (.lookup ("导入候选不存在：" ++ toString candidateId)), db)
  | some candidate =>
    match candidate.publishedMemoryId with
    | none => (.error (.value "导入候选尚未发布，不能回滚"), db)
    | some memoryId =>
      (.ok memoryId, { db with
        memories := db.memories.modify memoryId fun m =>
          { m with status := .deprecated, deprecated := true, reviewStatus := "rolled_back" }
        candidates := db.candidates.modify candidateId fun c =>
          { c with
            status := .rolledBack
            reviewReason := match reason with
              | some reason => if reason = "" then c.reviewReason else some reason
              | none => c.reviewReason } })

/-! ## A host for ASCII text -/

/-- The libraries on ASCII text that is no JSON and no archive. -/
def textLibrary : Library where
  jsonError _ := some "Expecting value: line 1 column 1 (char 0)"
  b64decode _ := none
  decodeReplace data := data.data.toList.map fun b => Char.ofNat b.toNat
  pdfPages := none
  openZip _ := none
  docxParagraphs _ := .error "DOCX 压缩包无效"

def textHost : Host where
  sha256 text := text
  table := Hooks.asciiTable
  library := textLibrary
  storage := databaseStorage

/-- One project. -/
def oneProject : Table String := Table.empty.insert "memory"

end CodexMemory.Import
