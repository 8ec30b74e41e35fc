import CodexMemory.Counts
import CodexMemory.Import.Model

/-!
# What the calls of an import do

For each call that changes something a structure of its effects, with what it has
checked before, and a theorem that it does nothing else.
-/

namespace CodexMemory.Import

open Worker (BatchStatus FileStatus Time)

/-! ## Tests of files -/

/-- A file that has been processed. -/
def finished (status : FileStatus) : Bool := isDone status || status = .failed

def inBatch (batchId : Nat) (file : ImportFile) : Bool := file.importBatchId = batchId

theorem filesOf_filter_length (db : Database) (batchId : Nat) (p : ImportFile → Bool) :
    ((db.filesOf batchId).filter fun f => p f.2).length = db.files.count fun f => inBatch batchId f && p f := by
  rw [Database.filesOf, Table.select, List.filter_filter, ← List.countP_eq_length_filter]
  refine List.countP_congr fun r _ => ?_
  rw [Bool.and_comm]
  rfl

theorem filesOf_length (db : Database) (batchId : Nat) :
    (db.filesOf batchId).length = db.files.count (inBatch batchId) := Table.length_select _ _

theorem mem_filesOf {db : Database} {batchId fileId : Nat} {file : ImportFile} :
    (fileId, file) ∈ db.filesOf batchId ↔ db.files.get? fileId = some file ∧ inBatch batchId file = true :=
  Table.mem_select _ _ _ _

/-! ## The tables that a call leaves alone -/

/-- The documents, the chunks, the candidates and the memories are as they were. -/
structure SameContents (db db' : Database) : Prop where
  projects : db'.projects = db.projects
  documents : db'.documents = db.documents
  chunks : db'.chunks = db.chunks
  candidates : db'.candidates = db.candidates
  memories : db'.memories = db.memories

/-! ## `add_files` -/

/-- Files of a batch have been added. -/
inductive FilesAdded (batchId : Nat) : Table ImportFile → Nat → Table ImportFile → Prop
  | none (files : Table ImportFile) : FilesAdded batchId files 0 files
  | one {files files' : Table ImportFile} {n : Nat} (file : ImportFile) (owner : file.importBatchId = batchId)
      (status : file.status = .uploaded) (rest : FilesAdded batchId (files.insert file) n files') :
      FilesAdded batchId files (n + 1) files'

theorem addEach_added {host : Host} {batchId : Nat} {batch : ImportBatch} {items : List ImportItem} {hashes : List String}
    {files files' : Table ImportFile} {added n : Nat}
    (h : addEach host batchId batch hashes files added items = .ok (n, files')) :
    ∃ m, n = added + m ∧ FilesAdded batchId files m files' := by
  induction items generalizing hashes files added with
  | nil =>
    cases h
    exact ⟨0, rfl, .none files'⟩
  | cons item rest ih =>
    rw [addEach] at h
    split at h
    · cases h
    · simp only at h
      split at h
      · exact ih h
      · split at h
        · cases h
        · split at h
          · cases h
          · obtain ⟨m, hm, hadded⟩ := ih h
            exact ⟨m + 1, by omega, .one _ rfl rfl hadded⟩

/-- What `add_files` does to the database. -/
structure Uploaded (db : Database) (batchId : Nat) (batch : ImportBatch) (added : Nat) (db' : Database) : Prop where
  row : db.batches.get? batchId = some batch
  opened : isOpen batch.status = true
  files : FilesAdded batchId db.files added db'.files
  batches : db'.batches = db.batches.modify batchId fun b =>
    { b with sourceCount := b.sourceCount + added, status := .uploaded }
  contents : SameContents db db'
  queue : db'.queue = db.queue

theorem addFiles_effect (host : Host) (db : Database) (batchId : Nat) (items : List ImportItem) :
    (addFiles host db batchId items).2 = db ∨
      ∃ batch added, Uploaded db batchId batch added (addFiles host db batchId items).2 := by
  rw [addFiles]
  split
  · exact Or.inl rfl
  · split
    · exact Or.inl rfl
    · next batch hbatch =>
      split
      · exact Or.inl rfl
      · next hopen =>
        split
        · exact Or.inl rfl
        · split
          · exact Or.inl rfl
          · next added files hadd =>
            obtain ⟨m, rfl, hadded⟩ := addEach_added hadd
            rw [Nat.zero_add]
            exact Or.inr ⟨batch, m, hbatch, by simpa using hopen, hadded, rfl, ⟨rfl, rfl, rfl, rfl, rfl⟩, rfl⟩

/-! ## `start_batch`, `retry_batch` and `cancel_import_batch` -/

/-- The files of a batch with one of some statuses get another one. -/
def rewriteFiles (files : Table ImportFile) (batchId : Nat) (p : FileStatus → Bool) (f : ImportFile → ImportFile) :
    Table ImportFile :=
  files.mapRows fun _ file => if file.importBatchId = batchId && p file.status then f file else file

structure Started (db : Database) (batchId : Nat) (batch : ImportBatch) (db' : Database) : Prop where
  row : db.batches.get? batchId = some batch
  opened : isOpen batch.status = true
  nonempty : db.filesOf batchId ≠ []
  files : db'.files = rewriteFiles db.files batchId startable fun f => { f with status := .queued }
  batches : db'.batches = db.batches.modify batchId fun b => { b with status := .queued }
  contents : SameContents db db'

theorem startBatch_effect (db : Database) (now : Time) (batchId : Nat) :
    (startBatch db now batchId).2 = db ∨ ∃ batch, Started db batchId batch (startBatch db now batchId).2 := by
  rw [startBatch]
  split
  · exact Or.inl rfl
  · next batch hbatch =>
    split
    · exact Or.inl rfl
    · next hopen =>
      split
      · exact Or.inl rfl
      · next hsome =>
        split
        · exact Or.inl rfl
        · exact Or.inr ⟨batch, hbatch, by simpa using hopen, hsome, rfl, rfl, ⟨rfl, rfl, rfl, rfl, rfl⟩⟩

/-- A batch that can be started is started, where its project exists. -/
theorem startBatch_started {db : Database} {now : Time} {batchId : Nat} {batch : ImportBatch}
    (hbatch : db.batches.get? batchId = some batch) (hopen : isOpen batch.status = true) (hsome : db.filesOf batchId ≠ [])
    (hproject : (db.projects.get? batch.projectId).isSome = true) :
    Started db batchId batch (startBatch db now batchId).2 := by
  obtain ⟨projectKey, hkey⟩ := Option.isSome_iff_exists.mp hproject
  rw [startBatch]
  simp only [hbatch, hopen, hkey, if_neg hsome, Bool.not_true, Bool.false_eq_true, if_false]
  exact ⟨hbatch, hopen, hsome, rfl, rfl, ⟨rfl, rfl, rfl, rfl, rfl⟩⟩

structure Reopened (db : Database) (batchId : Nat) (batch : ImportBatch) (db' : Database) : Prop where
  row : db.batches.get? batchId = some batch
  status : batch.status = .failed ∨ batch.status = .cancelled
  nonempty : 0 < db.files.count fun f => inBatch batchId f && retryable f.status
  files : db'.files = rewriteFiles db.files batchId retryable fun f => { f with status := .uploaded, errorMessage := none }
  batches : db'.batches = db.batches.modify batchId fun b =>
    { b with
      retryCount := b.retryCount + 1
      errorMessage := none
      errorCount := 0
      processedCount := b.sourceCount - db.files.count fun f => inBatch batchId f && retryable f.status
      status := .uploaded }
  contents : SameContents db db'
  queue : db'.queue = db.queue

theorem reopenBatch_effect (db : Database) (batchId : Nat) :
    (∃ error, reopenBatch db batchId = (.error error, db)) ∨
      ∃ batch, (reopenBatch db batchId).1 = .ok () ∧ Reopened db batchId batch (reopenBatch db batchId).2 := by
  rw [reopenBatch]
  split
  · exact Or.inl ⟨_, rfl⟩
  · next batch hbatch =>
    split
    · exact Or.inl ⟨_, rfl⟩
    · next hstatus =>
      simp only
      split
      · exact Or.inl ⟨_, rfl⟩
      · next hsome =>
        have hlength := filesOf_filter_length db batchId fun f => retryable f.status
        refine Or.inr ⟨batch, rfl, hbatch, by simpa [or_iff_not_imp_left] using hstatus, ?_, rfl, ?_, ⟨rfl, rfl, rfl, rfl, rfl⟩, rfl⟩
        · rw [← hlength]
          exact List.length_pos_iff.mpr hsome
        · rw [← hlength]

/-- `retry_batch` reopens the batch and starts it. -/
theorem retryBatch_effect (db : Database) (now : Time) (batchId : Nat) :
    (retryBatch db now batchId).2 = db ∨ ∃ batch db₁, Reopened db batchId batch db₁ ∧
      (retryBatch db now batchId).2 = (startBatch db₁ now batchId).2 := by
  rcases reopenBatch_effect db batchId with ⟨error, h⟩ | ⟨batch, hok, h⟩
  · left
    rw [retryBatch, h]
  · right
    refine ⟨batch, (reopenBatch db batchId).2, h, ?_⟩
    rw [retryBatch]
    rw [show reopenBatch db batchId = (.ok (), (reopenBatch db batchId).2) from Prod.ext hok rfl]

structure Cancelled (db : Database) (now : Time) (batchId : Nat) (batch : ImportBatch) (db' : Database) : Prop where
  row : db.batches.get? batchId = some batch
  status : isEnded batch.status = false
  files : db'.files = rewriteFiles db.files batchId cancellable fun f => { f with status := .cancelled }
  batches : db'.batches = db.batches.modify batchId fun b => { b with status := .cancelled }
  contents : SameContents db db'
  queue : db'.queue = cancelQueue db.queue batch.projectId batchId now

theorem cancelImportBatch_effect (db : Database) (now : Time) (batchId : Nat) :
    (cancelImportBatch db now batchId).2 = db ∨
      ∃ batch, Cancelled db now batchId batch (cancelImportBatch db now batchId).2 := by
  rw [cancelImportBatch]
  split
  · exact Or.inl rfl
  · next batch hbatch =>
    split
    · exact Or.inl rfl
    · next hended =>
      exact Or.inr ⟨batch, hbatch, by simpa using hended, rfl, rfl, ⟨rfl, rfl, rfl, rfl, rfl⟩, rfl⟩

/-! ## `process_import_file` -/

/-- Chunks and candidates have been added. -/
structure PartsAdded (db db' : Database) : Prop where
  projects : db'.projects = db.projects
  batches : db'.batches = db.batches
  files : db'.files = db.files
  documents : db'.documents = db.documents
  memories : db'.memories = db.memories
  queue : db'.queue = db.queue

theorem addParts_added (host : Host) (source : PartSource) (index : Nat) (db : Database) (parts : List Part) :
    PartsAdded db (addParts host source index db parts) := by
  induction parts generalizing index db with
  | nil => exact ⟨rfl, rfl, rfl, rfl, rfl, rfl⟩
  | cons part rest ih =>
    have h := ih (index + 1)
      { db with
        chunks := db.chunks.insert (chunkRow host source index part)
        candidates := db.candidates.insert (candidateRow host source db.chunks.nextId part) }
    exact ⟨h.projects, h.batches, h.files, h.documents, h.memories, h.queue⟩

/-- What a transaction that processes a file adds to the counters of its batch. -/
structure Increment where
  documents : Nat
  chunks : Nat
  errors : Nat

/-- The rows of a file that has been processed, and of its batch. -/
structure Saved (db : Database) (loaded : LoadedFile) (file : ImportFile) (inc : Increment) (db' : Database) : Prop where
  projects : db'.projects = db.projects
  files : db'.files = db.files.modify loaded.fileId fun current => writeFile loaded.file file current
  batches : ∃ hasCandidates, db'.batches = db.batches.modify loaded.file.importBatchId fun current =>
    writeBatch loaded.batch (finishIfDone hasCandidates (loaded.batch.processed inc.documents inc.chunks inc.errors))
      current
  memories : db'.memories = db.memories
  queue : db'.queue = db.queue
  finished : finished file.status = true
  owner : file.importBatchId = loaded.file.importBatchId

/-- What `process_import_file` does from the rows that it has read. -/
inductive ProcessChange (host : Host) (db : Database) (loaded : LoadedFile) : Database → Prop
  | closed (closed : isClosed loaded.batch.status = true) :
      ProcessChange host db loaded (saveFile db loaded { loaded.file with status := .cancelled } loaded.batch)
  | done (opened : isClosed loaded.batch.status = false) (done : isDone loaded.file.status = true) :
      ProcessChange host db loaded db
  | failed {db' : Database} (file : ImportFile) (opened : isClosed loaded.batch.status = false)
      (undone : isDone loaded.file.status = false) (status : file.status = .failed)
      (saved : Saved db loaded file ⟨0, 0, 1⟩ db') (documents : db'.documents = db.documents)
      (chunks : db'.chunks = db.chunks) (candidates : db'.candidates = db.candidates) :
      ProcessChange host db loaded db'
  | duplicate {db' : Database} (file : ImportFile) (opened : isClosed loaded.batch.status = false)
      (undone : isDone loaded.file.status = false) (status : file.status = .duplicate)
      (saved : Saved db loaded file ⟨0, 0, 0⟩ db') (documents : db'.documents = db.documents)
      (chunks : db'.chunks = db.chunks) (candidates : db'.candidates = db.candidates) :
      ProcessChange host db loaded db'
  | quarantined {db' : Database} (file : ImportFile) (content : String) (parts : List Part) (document : SourceDocument)
      (opened : isClosed loaded.batch.status = false) (undone : isDone loaded.file.status = false)
      (read : readParts host loaded.file = .ok (content, parts)) (injected : injected host.table content.toList = true)
      (unique : db.documentWithHash loaded.file.projectId loaded.file.contentHash = none)
      (status : file.status = .quarantined) (saved : Saved db loaded file ⟨0, 0, 1⟩ db')
      (owner : document.importBatchId = loaded.file.importBatchId)
      (documents : db'.documents = db.documents.insert document)
      (chunks : db'.chunks = db.chunks) (candidates : db'.candidates = db.candidates) :
      ProcessChange host db loaded db'
  | parsed {db' : Database} (file : ImportFile) (content : String) (parts : List Part) (document : SourceDocument)
      (source : PartSource) (opened : isClosed loaded.batch.status = false) (undone : isDone loaded.file.status = false)
      (read : readParts host loaded.file = .ok (content, parts)) (clean : injected host.table content.toList = false)
      (unique : db.documentWithHash loaded.file.projectId loaded.file.contentHash = none)
      (status : file.status = .parsed) (saved : Saved db loaded file ⟨1, parts.length, 0⟩ db')
      (owner : document.importBatchId = loaded.file.importBatchId)
      (documents : db'.documents = db.documents.insert document) (documentId : source.documentId = db.documents.nextId)
      (chunks : db'.chunks = (addParts host source 0 db parts).chunks)
      (candidates : db'.candidates = (addParts host source 0 db parts).candidates) :
      ProcessChange host db loaded db'

theorem saveProcessed_saved {db db₁ : Database} (loaded : LoadedFile) (file : ImportFile) (inc : Increment)
    (hfinished : finished file.status = true) (howner : file.importBatchId = loaded.file.importBatchId)
    (h : PartsAdded db { db₁ with documents := db.documents }) :
    Saved db loaded file inc
      (saveProcessed db₁ loaded file (loaded.batch.processed inc.documents inc.chunks inc.errors)) := by
  refine ⟨h.projects, ?_, ⟨db₁.candidatesOf loaded.file.importBatchId ≠ [], ?_⟩, h.memories, h.queue, hfinished, howner⟩
  · rw [← h.files]
    rfl
  · rw [← h.batches]
    rfl

theorem addParts_documents (host : Host) (source : PartSource) (index : Nat) (db : Database) (parts : List Part)
    (documents : Table SourceDocument) :
    (addParts host source index { db with documents := documents } parts).chunks = (addParts host source index db parts).chunks ∧
      (addParts host source index { db with documents := documents } parts).candidates =
        (addParts host source index db parts).candidates := by
  induction parts generalizing index db with
  | nil => exact ⟨rfl, rfl⟩
  | cons part rest ih =>
    exact ih (index + 1)
      { db with
        chunks := db.chunks.insert (chunkRow host source index part)
        candidates := db.candidates.insert (candidateRow host source db.chunks.nextId part) }

/-- **`process_import_file` does one of these.** -/
theorem processLoaded_change (host : Host) (db : Database) (loaded : LoadedFile) :
    ProcessChange host db loaded (processLoaded host db loaded).2 := by
  have hself : PartsAdded db { db with documents := db.documents } := ⟨rfl, rfl, rfl, rfl, rfl, rfl⟩
  rw [processLoaded]
  split
  · next hclosed => exact .closed hclosed
  · next hclosed =>
    have hopen := Bool.eq_false_iff.mpr hclosed
    split
    · next hdone => exact .done hopen hdone
    · next hdone =>
      have hundone := Bool.eq_false_iff.mpr hdone
      split
      · exact .failed _ hopen hundone rfl (saveProcessed_saved loaded _ ⟨0, 0, 1⟩ rfl rfl hself) rfl rfl rfl
      · next content parts hread =>
        simp only [storeParsed]
        split
        · exact .duplicate _ hopen hundone rfl (saveProcessed_saved loaded _ ⟨0, 0, 0⟩ rfl rfl hself) rfl rfl rfl
        · next hnone =>
          split
          · next hinjected =>
            have hinjection := (injection_reported host.table content.toList).mp (List.contains_iff_mem.mp hinjected)
            refine .quarantined _ content parts _ hopen hundone hread hinjection hnone rfl
              (saveProcessed_saved loaded _ ⟨0, 0, 1⟩ rfl rfl ⟨rfl, rfl, rfl, rfl, rfl, rfl⟩) ?_ rfl rfl rfl
            rfl
          · next hclean =>
            have hinjection : injected host.table content.toList = false := by
              rw [← Bool.not_eq_true, ← injection_reported host.table content.toList]
              exact fun h => hclean (List.contains_iff_mem.mpr h)
            generalize hsource : PartSource.mk _ _ _ _ _ _ _ _ _ = source
            generalize hdocument : documentRow loaded content _ = document
            have hparts := addParts_added host source 0 { db with documents := db.documents.insert document } parts
            have hcontents := addParts_documents host source 0 db parts (db.documents.insert document)
            refine .parsed _ content parts document source hopen hundone hread hinjection hnone rfl
              (saveProcessed_saved loaded _ ⟨1, parts.length, 0⟩ rfl rfl ?_) ?_ ?_ ?_ ?_ ?_
            · exact ⟨hparts.projects, hparts.batches, hparts.files, rfl, hparts.memories, hparts.queue⟩
            · rw [← hdocument]
              rfl
            · exact hparts.documents
            · rw [← hsource]
            · exact hcontents.1
            · exact hcontents.2

theorem addParts_length (host : Host) (source : PartSource) (index : Nat) (db : Database) (parts : List Part) :
    (addParts host source index db parts).chunks.rows.length = db.chunks.rows.length + parts.length := by
  induction parts generalizing index db with
  | nil => rfl
  | cons part rest ih =>
    rw [addParts, ih, List.length_cons]
    show (db.chunks.rows ++ [_]).length + _ = _
    rw [List.length_append, List.length_singleton]
    omega

/-- A file has been processed, and what it adds to the counters of its batch. -/
structure Counted (db : Database) (loaded : LoadedFile) (file : ImportFile) (inc : Increment) (db' : Database) : Prop where
  saved : Saved db loaded file inc db'
  documents : inc.documents = if file.status = .parsed then 1 else 0
  errors : inc.errors = if file.status = .failed ∨ file.status = .quarantined then 1 else 0
  chunks : db'.chunks.rows.length = db.chunks.rows.length + inc.chunks

/-- An unfinished file of a batch that is not closed is counted. -/
theorem ProcessChange.counted {host : Host} {db db' : Database} {loaded : LoadedFile}
    (h : ProcessChange host db loaded db') (hopen : isClosed loaded.batch.status = false)
    (hundone : isDone loaded.file.status = false) : ∃ file inc, Counted db loaded file inc db' := by
  cases h with
  | closed hclosed =>
    rw [hopen] at hclosed
    cases hclosed
  | done hopen hdone =>
    rw [hundone] at hdone
    cases hdone
  | failed file hopen hundone hstatus hsaved hdocuments hchunks =>
    exact ⟨file, _, hsaved, by rw [hstatus]; rfl, by rw [hstatus]; rfl, by rw [hchunks]; rfl⟩
  | duplicate file hopen hundone hstatus hsaved hdocuments hchunks =>
    exact ⟨file, _, hsaved, by rw [hstatus]; rfl, by rw [hstatus]; rfl, by rw [hchunks]; rfl⟩
  | quarantined file content parts document hopen hundone hread hinjected hunique hstatus hsaved howner hdocuments
      hchunks =>
    exact ⟨file, _, hsaved, by rw [hstatus]; rfl, by rw [hstatus]; rfl, by rw [hchunks]; rfl⟩
  | parsed file content parts document source hopen hundone hread hclean hunique hstatus hsaved howner hdocuments
      hdocumentId hchunks =>
    exact ⟨file, _, hsaved, by rw [hstatus]; rfl, by rw [hstatus]; rfl, by rw [hchunks, addParts_length]⟩

/-- A document with an injection is stored, and counted as an error. -/
theorem processLoaded_quarantined {host : Host} {db : Database} {loaded : LoadedFile} {content : String}
    {parts : List Part} (hopen : isClosed loaded.batch.status = false) (hundone : isDone loaded.file.status = false)
    (hread : readParts host loaded.file = .ok (content, parts)) (hinjected : injected host.table content.toList = true)
    (hunique : db.documentWithHash loaded.file.projectId loaded.file.contentHash = none) :
    ∃ file document, Saved db loaded file ⟨0, 0, 1⟩ (processLoaded host db loaded).2 ∧
      document.importBatchId = loaded.file.importBatchId ∧
        (processLoaded host db loaded).2.documents = db.documents.insert document := by
  have hissue : (scanSecurity host.table content.toList).1.contains "prompt_injection" = true :=
    List.contains_iff_mem.mpr ((injection_reported host.table content.toList).mpr hinjected)
  rw [processLoaded, hopen, hundone, hread]
  simp only [Bool.false_eq_true, if_false, storeParsed, hunique]
  rw [if_pos hissue]
  exact ⟨_, _, saveProcessed_saved loaded _ ⟨0, 0, 1⟩ rfl rfl ⟨rfl, rfl, rfl, rfl, rfl, rfl⟩, rfl, rfl⟩

/-- The rows that are loaded are those of the database. -/
theorem loadFile_ok {db : Database} {fileId : Nat} {loaded : LoadedFile} (h : loadFile db fileId = .ok loaded) :
    loaded.fileId = fileId ∧ db.files.get? fileId = some loaded.file ∧
      db.batches.get? loaded.file.importBatchId = some loaded.batch ∧
        db.projects.get? loaded.file.projectId = some loaded.projectKey := by
  rw [loadFile] at h
  split at h
  · cases h
  · next file hfile =>
    split at h
    · next batch projectKey hbatch hproject =>
      split at h
      · cases h
        exact ⟨rfl, hfile, hbatch, hproject⟩
      · cases h
    · cases h

theorem loadFile_iff {db : Database} {fileId : Nat} {loaded : LoadedFile} :
    loadFile db fileId = .ok loaded ↔ loaded.fileId = fileId ∧ db.files.get? fileId = some loaded.file ∧
      db.batches.get? loaded.file.importBatchId = some loaded.batch ∧
        db.projects.get? loaded.file.projectId = some loaded.projectKey ∧
          loaded.batch.projectId = loaded.file.projectId := by
  constructor
  · intro h
    obtain ⟨hid, hfile, hbatch, hproject⟩ := loadFile_ok h
    refine ⟨hid, hfile, hbatch, hproject, ?_⟩
    rw [loadFile, hfile] at h
    simp only [hbatch, hproject] at h
    split at h
    · next hboundary => exact hboundary
    · cases h
  · rintro ⟨rfl, hfile, hbatch, hproject, hboundary⟩
    rw [loadFile, hfile]
    simp only [hbatch, hproject, hboundary, if_true]

/-- A file is processed, or nothing is. -/
theorem processImportFile_effect (host : Host) (db : Database) (fileId : Nat) :
    (processImportFile host db fileId).2 = db ∨ ∃ loaded, loadFile db fileId = .ok loaded ∧
      ProcessChange host db loaded (processImportFile host db fileId).2 := by
  rw [processImportFile]
  split
  · exact Or.inl rfl
  · next loaded hloaded => exact Or.inr ⟨loaded, hloaded, processLoaded_change host db loaded⟩

theorem processImportFile_loaded {host : Host} {db : Database} {fileId : Nat} {loaded : LoadedFile}
    (h : loadFile db fileId = .ok loaded) :
    (processImportFile host db fileId).2 = (processLoaded host db loaded).2 := by
  rw [processImportFile, h]

end CodexMemory.Import
