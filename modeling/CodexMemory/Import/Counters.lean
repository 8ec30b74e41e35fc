import CodexMemory.Import.Effects

/-!
# The invariant of the counters of an import

`Ok` says of every batch that its counters are those of its files and documents.
Every call keeps it except where a batch is started over files that have failed or
with nothing left to process, and where a file is processed that has failed, that is
finished in a closed batch, or that is quarantined.
-/

namespace CodexMemory.Import

open Worker (BatchStatus FileStatus Time)

/-- `queued` or `running` -/
def isActive (status : BatchStatus) : Bool := status = .queued || status = .running

/-- The counters of a batch are right, and it is active only while a file is left. -/
structure Accounted (db : Database) (batchId : Nat) (batch : ImportBatch) : Prop where
  processed : batch.processedCount = ((db.filesOf batchId).filter fun f => finished f.2.status).length
  bounded : batch.processedCount ≤ batch.sourceCount
  documents : batch.documentCount = (db.documentsOf batchId).length
  active : isActive batch.status = true → ∃ f ∈ db.filesOf batchId, finished f.2.status = false

/-! ## The invariant -/

/-- A file that is still to be processed. -/
def waiting (status : FileStatus) : Bool := status = .uploaded || status = .queued || status = .processing

/-- The number of files of a batch with a property. -/
def countFiles (files : Table ImportFile) (batchId : Nat) (p : FileStatus → Bool) : Nat :=
  files.count fun f => inBatch batchId f && p f.status

def countDocuments (documents : Table SourceDocument) (batchId : Nat) : Nat :=
  documents.count fun d => d.importBatchId = batchId

structure BatchOk (files : Table ImportFile) (documents : Table SourceDocument) (batchId : Nat) (batch : ImportBatch) :
    Prop where
  source : batch.sourceCount = countFiles files batchId fun _ => true
  processed : batch.processedCount = countFiles files batchId finished
  documents : batch.documentCount = countDocuments documents batchId
  active : isActive batch.status = true → 0 < countFiles files batchId fun s => !finished s
  settled : batch.status = .failed ∨ batch.status = .cancelled → countFiles files batchId waiting = 0

structure Ok (db : Database) : Prop where
  batches : ∀ b batch, db.batches.get? b = some batch → BatchOk db.files db.documents b batch
  projects : ∀ b batch, db.batches.get? b = some batch → (db.projects.get? batch.projectId).isSome = true
  files : ∀ k file, db.files.get? k = some file → file.importBatchId < db.batches.nextId
  documents : ∀ k document, db.documents.get? k = some document → document.importBatchId < db.batches.nextId

theorem ok_initial (projects : Table String) : Ok (initial projects) := ⟨nofun, nofun, nofun, nofun⟩

theorem countFiles_split (files : Table ImportFile) (batchId : Nat) (p q : FileStatus → Bool) :
    countFiles files batchId p = countFiles files batchId (fun s => p s && q s) +
      countFiles files batchId fun s => p s && !q s := by
  rw [countFiles, files.count_split _ fun f => q f.status]
  simp only [countFiles, Bool.and_assoc]

theorem countFiles_congr (files : Table ImportFile) (batchId : Nat) {p q : FileStatus → Bool} (h : ∀ s, p s = q s) :
    countFiles files batchId p = countFiles files batchId q := by
  rw [funext h]

theorem countFiles_all (files : Table ImportFile) (batchId : Nat) (q : FileStatus → Bool) :
    countFiles files batchId (fun _ => true) = countFiles files batchId q + countFiles files batchId fun s => !q s := by
  rw [countFiles_split files batchId (fun _ => true) q]
  rfl

theorem countFiles_filesOf (db : Database) (batchId : Nat) (p : FileStatus → Bool) :
    ((db.filesOf batchId).filter fun f => p f.2.status).length = countFiles db.files batchId p :=
  filesOf_filter_length db batchId fun f => p f.status

theorem countFiles_pos {db : Database} {batchId : Nat} {p : FileStatus → Bool} :
    0 < countFiles db.files batchId p ↔ ∃ f ∈ db.filesOf batchId, p f.2.status = true := by
  rw [countFiles, Table.count_pos]
  constructor
  · rintro ⟨k, f, hf, hp⟩
    rw [Bool.and_eq_true] at hp
    exact ⟨(k, f), mem_filesOf.mpr ⟨hf, hp.1⟩, hp.2⟩
  · rintro ⟨⟨k, f⟩, hmem, hp⟩
    obtain ⟨hf, howner⟩ := mem_filesOf.mp hmem
    exact ⟨k, f, hf, by rw [Bool.and_eq_true]; exact ⟨howner, hp⟩⟩

/-- The invariant gives what is claimed of the counters. -/
theorem BatchOk.accounted {db : Database} {batchId : Nat} {batch : ImportBatch}
    (h : BatchOk db.files db.documents batchId batch) : Accounted db batchId batch := by
  refine ⟨?_, ?_, ?_, fun hactive => ?_⟩
  · rw [countFiles_filesOf, h.processed]
  · rw [h.processed, h.source, countFiles_all db.files batchId finished]
    exact Nat.le_add_right _ _
  · rw [h.documents, Database.documentsOf, Table.length_select]
    rfl
  · obtain ⟨f, hf, hp⟩ := countFiles_pos.mp (h.active hactive)
    exact ⟨f, hf, by simpa using hp⟩

/-- The invariant after a call that changes one batch. -/
theorem Ok.update {db db' : Database} (hok : Ok db) {batchId : Nat} {g : ImportBatch → ImportBatch}
    (hbatches : db'.batches = db.batches.modify batchId g) (hg : ∀ batch, (g batch).projectId = batch.projectId)
    (hprojects : db'.projects = db.projects)
    (hfiles : ∀ k file, db'.files.get? k = some file → file.importBatchId < db.batches.nextId)
    (hdocuments : ∀ k document, db'.documents.get? k = some document → document.importBatchId < db.batches.nextId)
    (hothers : ∀ c, c ≠ batchId → (∀ p, countFiles db'.files c p = countFiles db.files c p) ∧
      countDocuments db'.documents c = countDocuments db.documents c)
    (hself : ∀ batch, db.batches.get? batchId = some batch → BatchOk db'.files db'.documents batchId (g batch)) :
    Ok db' := by
  have hrow : ∀ b batch', db'.batches.get? b = some batch' → ∃ batch, db.batches.get? b = some batch ∧
      batch' = if b = batchId then g batch else batch := by
    intro b batch' h
    rw [hbatches, Table.get?_modify] at h
    obtain ⟨batch, hbatch, rfl⟩ := Option.map_eq_some_iff.mp h
    exact ⟨batch, hbatch, rfl⟩
  have hnext : db'.batches.nextId = db.batches.nextId := by rw [hbatches]; rfl
  refine ⟨fun b batch' h => ?_, fun b batch' h => ?_, fun k file h => ?_, fun k document h => ?_⟩
  · obtain ⟨batch, hbatch, rfl⟩ := hrow b batch' h
    by_cases hb : b = batchId
    · subst hb
      rw [if_pos rfl]
      exact hself batch hbatch
    · rw [if_neg hb]
      obtain ⟨hcount, hdocs⟩ := hothers b hb
      have hold := hok.batches b batch hbatch
      refine ⟨?_, ?_, ?_, fun hactive => ?_, fun hstatus => ?_⟩
      · rw [hcount, hold.source]
      · rw [hcount, hold.processed]
      · rw [hdocs, hold.documents]
      · rw [hcount]
        exact hold.active hactive
      · rw [hcount]
        exact hold.settled hstatus
  · obtain ⟨batch, hbatch, rfl⟩ := hrow b batch' h
    rw [hprojects]
    split
    · rw [hg]
      exact hok.projects b batch hbatch
    · exact hok.projects b batch hbatch
  · rw [hnext]
    exact hfiles k file h
  · rw [hnext]
    exact hdocuments k document h

/-! ## The calls -/

theorem createBatch_ok {db : Database} (hok : Ok db) (projectId scopeId : Nat) (scopeKey : String) :
    Ok (createBatch db projectId scopeId scopeKey).2 := by
  rw [createBatch]
  split
  · exact hok
  · split
    · exact hok
    · next hproject =>
      have hfiles : ∀ p, countFiles db.files db.batches.nextId p = 0 := by
        intro p
        refine (db.files.count_eq_zero).mpr fun k file hfile => ?_
        rw [inBatch, decide_eq_false (hok.files k file hfile).ne, Bool.false_and]
      have hdocuments : countDocuments db.documents db.batches.nextId = 0 :=
        (db.documents.count_eq_zero).mpr fun k document h => decide_eq_false (hok.documents k document h).ne
      refine ⟨fun b batch h => ?_, fun b batch h => ?_, fun k file h => ?_, fun k document h => ?_⟩
      · by_cases hb : b = db.batches.nextId
        · subst hb
          rw [Table.get?_insert_self] at h
          obtain rfl := Option.some.inj h
          refine ⟨(hfiles _).symm, (hfiles _).symm, hdocuments.symm, nofun, fun hstatus => ?_⟩
          rcases hstatus with hstatus | hstatus <;> cases hstatus
        · rw [Table.get?_insert_ne _ _ hb] at h
          exact hok.batches b batch h
      · by_cases hb : b = db.batches.nextId
        · subst hb
          rw [Table.get?_insert_self] at h
          obtain rfl := Option.some.inj h
          simpa [Option.isSome_iff_ne_none] using hproject
        · rw [Table.get?_insert_ne _ _ hb] at h
          exact hok.projects b batch h
      · exact (hok.files k file h).trans (Nat.lt_succ_self _)
      · exact (hok.documents k document h).trans (Nat.lt_succ_self _)

theorem FilesAdded.count {batchId n : Nat} {files files' : Table ImportFile} (h : FilesAdded batchId files n files')
    (c : Nat) (p : FileStatus → Bool) :
    countFiles files' c p = countFiles files c p + if batchId = c ∧ p .uploaded = true then n else 0 := by
  induction h with
  | none files => simp
  | @one files files' n file owner status rest ih =>
    rw [ih]
    show (files.insert file).count _ + _ = countFiles files c p + _
    rw [Table.count_insert, countFiles, inBatch, owner, status]
    by_cases hc : batchId = c <;> cases p .uploaded <;> simp [hc]
    omega

theorem FilesAdded.owners {batchId n next : Nat} {files files' : Table ImportFile} (h : FilesAdded batchId files n files')
    (hbatch : batchId < next) (hfiles : ∀ k file, files.get? k = some file → file.importBatchId < next) :
    ∀ k file, files'.get? k = some file → file.importBatchId < next := by
  induction h with
  | none files => exact hfiles
  | @one files files' n file owner status rest ih =>
    refine ih fun k other hother => ?_
    rcases Table.get?_insert_cases hother with ⟨-, rfl⟩ | ⟨-, hother⟩
    · exact owner ▸ hbatch
    · exact hfiles k other hother

theorem uploaded_ok {db db' : Database} (hok : Ok db) {batchId added : Nat} {batch : ImportBatch}
    (h : Uploaded db batchId batch added db') : Ok db' := by
  have hbatch := db.batches.lt_nextId h.row
  refine hok.update h.batches (fun _ => rfl) h.contents.projects (h.files.owners hbatch hok.files) ?_ ?_ ?_
  · rw [h.contents.documents]
    exact hok.documents
  · intro c hc
    refine ⟨fun p => ?_, by rw [h.contents.documents]⟩
    rw [h.files.count, if_neg fun hcond => hc hcond.1.symm, Nat.add_zero]
  · intro batch' hbatch'
    have hold := hok.batches batchId batch' hbatch'
    refine ⟨?_, ?_, ?_, nofun, fun hstatus => ?_⟩
    · rw [h.files.count, if_pos ⟨rfl, rfl⟩, ← hold.source]
    · rw [h.files.count, if_neg (by simp [finished, isDone]), ← hold.processed]
      rfl
    · rw [h.contents.documents, ← hold.documents]
    · rcases hstatus with hstatus | hstatus <;> cases hstatus

/-- The files of a batch after some of them got another status. -/
theorem countFiles_rewrite {files : Table ImportFile} {batchId : Nat} {p : FileStatus → Bool}
    {f : ImportFile → ImportFile} (hf : ∀ file, (f file).importBatchId = file.importBatchId) {q : FileStatus → Bool}
    (q' : FileStatus → Bool) (h : ∀ file : ImportFile, q (if p file.status then f file else file).status = q' file.status) :
    countFiles (rewriteFiles files batchId p f) batchId q = countFiles files batchId q' := by
  refine Table.count_mapRows _ fun k file _ => ?_
  simp only [inBatch]
  by_cases hb : file.importBatchId = batchId
  · simp only [hb, decide_true, Bool.true_and, ← h file]
    split
    · simp only [hf, hb, decide_true, Bool.true_and]
    · simp only [hb, decide_true, Bool.true_and]
  · simp only [hb, decide_false, Bool.false_and, Bool.false_eq_true, if_false]

theorem countFiles_rewrite_other {files : Table ImportFile} {batchId c : Nat} {p : FileStatus → Bool}
    {f : ImportFile → ImportFile} (hf : ∀ file, (f file).importBatchId = file.importBatchId) (hc : c ≠ batchId)
    (q : FileStatus → Bool) : countFiles (rewriteFiles files batchId p f) c q = countFiles files c q := by
  refine Table.count_mapRows _ fun k file _ => ?_
  split
  · next hcond =>
    rw [Bool.and_eq_true, decide_eq_true_eq] at hcond
    rw [inBatch, inBatch, hf, hcond.1, decide_eq_false hc.symm, Bool.false_and, Bool.false_and]
  · rfl

theorem rewriteFiles_owners {files : Table ImportFile} {batchId next : Nat} {p : FileStatus → Bool}
    {f : ImportFile → ImportFile} (hf : ∀ file, (f file).importBatchId = file.importBatchId)
    (hfiles : ∀ k file, files.get? k = some file → file.importBatchId < next) :
    ∀ k file, (rewriteFiles files batchId p f).get? k = some file → file.importBatchId < next := by
  intro k file h
  rw [rewriteFiles, Table.get?_mapRows] at h
  obtain ⟨before, hbefore, rfl⟩ := Option.map_eq_some_iff.mp h
  split
  · rw [hf]
    exact hfiles k before hbefore
  · exact hfiles k before hbefore

/-- The invariant after a call that gives files of a batch another status. -/
theorem Ok.rewrite {db db' : Database} (hok : Ok db) {batchId : Nat} {p : FileStatus → Bool}
    {f : ImportFile → ImportFile} {g : ImportBatch → ImportBatch} (hf : ∀ file, (f file).importBatchId = file.importBatchId)
    (hfiles : db'.files = rewriteFiles db.files batchId p f) (hbatches : db'.batches = db.batches.modify batchId g)
    (hg : ∀ batch, (g batch).projectId = batch.projectId) (hcontents : SameContents db db')
    (hself : ∀ batch, db.batches.get? batchId = some batch → BatchOk db'.files db'.documents batchId (g batch)) :
    Ok db' := by
  refine hok.update hbatches hg hcontents.projects ?_ ?_ (fun c hc => ⟨fun q => ?_, ?_⟩) hself
  · rw [hfiles]
    exact rewriteFiles_owners hf hok.files
  · rw [hcontents.documents]
    exact hok.documents
  · rw [hfiles, countFiles_rewrite_other hf hc]
  · rw [hcontents.documents]

/-- The finished files are the done ones and those that have failed. -/
theorem countFiles_finished (files : Table ImportFile) (batchId : Nat) :
    countFiles files batchId finished = countFiles files batchId isDone + countFiles files batchId (· = .failed) := by
  rw [countFiles_split _ _ finished isDone, countFiles_congr _ _ (q := isDone) (by intro s; cases s <;> rfl),
    countFiles_congr _ _ (p := fun s => finished s && !isDone s) (q := (· = .failed)) (by intro s; cases s <;> rfl)]

/-- A batch that is started keeps only its done files as finished. -/
theorem Started.count_finished {db db' : Database} {batchId : Nat} {batch : ImportBatch}
    (h : Started db batchId batch db') : countFiles db'.files batchId finished = countFiles db.files batchId isDone := by
  rw [h.files]
  refine countFiles_rewrite (by intro _; rfl) _ fun file => ?_
  cases hs : file.status <;> simp [startable, finished, isDone, hs]

theorem Started.count_all {db db' : Database} {batchId : Nat} {batch : ImportBatch}
    (h : Started db batchId batch db') :
    countFiles db'.files batchId (fun _ => true) = countFiles db.files batchId fun _ => true := by
  rw [h.files]
  exact countFiles_rewrite (by intro _; rfl) _ fun _ => rfl

theorem started_ok {db db' : Database} (hok : Ok db) {batchId : Nat} {batch : ImportBatch}
    (h : Started db batchId batch db') (hfailed : countFiles db.files batchId (· = .failed) = 0)
    (hleft : 0 < countFiles db.files batchId fun s => !finished s) : Ok db' := by
  refine hok.rewrite (by intro _; rfl) h.files h.batches (fun _ => rfl) h.contents fun batch' hbatch' => ?_
  have hold := hok.batches batchId batch' hbatch'
  -- no file has failed, so none of the finished ones is queued
  have hfinished : countFiles db'.files batchId finished = countFiles db.files batchId finished := by
    rw [h.count_finished, countFiles_finished db.files, hfailed, Nat.add_zero]
  refine ⟨?_, ?_, ?_, fun _ => ?_, fun hstatus => ?_⟩
  · rw [h.count_all]
    exact hold.source
  · rw [hfinished]
    exact hold.processed
  · rw [h.contents.documents]
    exact hold.documents
  · have hsplit := countFiles_all db.files batchId finished
    have hsplit' := countFiles_all db'.files batchId finished
    rw [h.count_all, hfinished] at hsplit'
    omega
  · rcases hstatus with hstatus | hstatus <;> cases hstatus

theorem reopened_ok {db db' : Database} (hok : Ok db) {batchId : Nat} {batch : ImportBatch}
    (h : Reopened db batchId batch db') : Ok db' := by
  refine hok.rewrite (by intro _; rfl) h.files h.batches (fun _ => rfl) h.contents fun batch' hbatch' => ?_
  have hold := hok.batches batchId batch' hbatch'
  rw [h.row] at hbatch'
  obtain rfl := Option.some.inj hbatch'
  refine ⟨?_, ?_, ?_, nofun, fun hstatus => ?_⟩
  · rw [h.files, countFiles_rewrite (by intro _; rfl) (fun _ => true) fun _ => rfl]
    exact hold.source
  · -- no file waits, so the files are the done ones and those that are taken up again
    have hwaiting := hold.settled h.status
    have hsplit := countFiles_all db.files batchId retryable
    have hrest := countFiles_split db.files batchId (fun s => !retryable s) waiting
    rw [countFiles_congr _ _ (p := fun s => !retryable s && waiting s) (q := waiting) (by intro s; cases s <;> rfl),
      countFiles_congr _ _ (p := fun s => !retryable s && !waiting s) (q := isDone) (by intro s; cases s <;> rfl),
      hwaiting] at hrest
    have hdone : countFiles db'.files batchId finished = countFiles db.files batchId isDone := by
      rw [h.files]
      refine countFiles_rewrite (by intro _; rfl) _ fun file => ?_
      cases hs : file.status <;> simp [retryable, finished, isDone, hs]
    rw [hdone]
    show batch.sourceCount - countFiles db.files batchId retryable = _
    rw [hold.source]
    omega
  · rw [h.contents.documents]
    exact hold.documents
  · rcases hstatus with hstatus | hstatus <;> cases hstatus

/-- After a batch has been reopened a file waits and none has failed. -/
theorem reopened_files {db db' : Database} {batchId : Nat} {batch : ImportBatch} (h : Reopened db batchId batch db') :
    countFiles db'.files batchId (· = .failed) = 0 ∧ 0 < countFiles db'.files batchId fun s => !finished s := by
  constructor
  · rw [h.files, countFiles_rewrite (by intro _; rfl) fun _ => false]
    · exact (db.files.count_eq_zero).mpr fun k file _ => Bool.and_false _
    · intro file
      cases hs : file.status <;> simp [retryable, hs]
  · refine Nat.lt_of_lt_of_le h.nonempty ?_
    rw [h.files, countFiles_rewrite (by intro _; rfl) fun s => !finished s || retryable s]
    · rw [countFiles_split _ _ _ retryable]
      refine Nat.le_trans (Nat.le_of_eq ?_) (Nat.le_add_right _ _)
      exact countFiles_congr _ _ (p := retryable) (by intro s; cases s <;> rfl)
    · intro file
      cases hs : file.status <;> simp [retryable, finished, isDone, hs]

theorem cancelled_ok {db db' : Database} (hok : Ok db) {now : Time} {batchId : Nat} {batch : ImportBatch}
    (h : Cancelled db now batchId batch db') : Ok db' := by
  refine hok.rewrite (by intro _; rfl) h.files h.batches (fun _ => rfl) h.contents fun batch' hbatch' => ?_
  have hold := hok.batches batchId batch' hbatch'
  refine ⟨?_, ?_, ?_, nofun, fun _ => ?_⟩
  · rw [h.files, countFiles_rewrite (by intro _; rfl) (fun _ => true) fun _ => rfl]
    exact hold.source
  · rw [h.files, countFiles_rewrite (by intro _; rfl) finished]
    · exact hold.processed
    · intro file
      cases hs : file.status <;> simp [cancellable, finished, isDone, hs]
  · rw [h.contents.documents]
    exact hold.documents
  · rw [h.files, countFiles_rewrite (by intro _; rfl) fun _ => false]
    · exact (db.files.count_eq_zero).mpr fun k file _ => Bool.and_false _
    · intro file
      cases hs : file.status <;> simp [cancellable, waiting, hs]

/-! ## `process_import_file` -/

/-- The files of a batch after one of them has been written. -/
theorem countFiles_write {files : Table ImportFile} {fileId : Nat} {before : ImportFile}
    (hfile : files.get? fileId = some before) (after : ImportFile) (p : FileStatus → Bool) :
    countFiles (files.modify fileId fun current => writeFile before after current) before.importBatchId p +
        (p before.status).toNat =
      countFiles files before.importBatchId p + (p after.status).toNat := by
  have h := files.count_modify hfile (fun current => writeFile before after current)
    fun f => inBatch before.importBatchId f && p f.status
  have howner : inBatch before.importBatchId before = true := decide_eq_true rfl
  have hafter : inBatch before.importBatchId (writeFile before after before) = true := decide_eq_true rfl
  have hstatus : (writeFile before after before).status = after.status := writeColumn_fresh _ _
  rw [howner, hafter, hstatus, Bool.true_and, Bool.true_and] at h
  exact h

theorem countFiles_write_other {files : Table ImportFile} {fileId : Nat} {before after : ImportFile}
    (hfile : files.get? fileId = some before) {c : Nat} (hc : c ≠ before.importBatchId) (p : FileStatus → Bool) :
    countFiles (files.modify fileId fun current => writeFile before after current) c p = countFiles files c p := by
  refine files.count_modify_same fun a ha => ?_
  rw [hfile] at ha
  rw [← Option.some.inj ha, inBatch, inBatch, decide_eq_false hc.symm]
  rw [show (writeFile before after before).importBatchId = before.importBatchId from rfl, decide_eq_false hc.symm]
  rfl

theorem write_owners {files : Table ImportFile} {fileId next : Nat} {before after : ImportFile}
    (hfiles : ∀ k file, files.get? k = some file → file.importBatchId < next) :
    ∀ k file, (files.modify fileId fun current => writeFile before after current).get? k = some file →
      file.importBatchId < next := by
  intro k file h
  rw [Table.get?_modify] at h
  obtain ⟨current, hcurrent, rfl⟩ := Option.map_eq_some_iff.mp h
  split
  · exact hfiles k current hcurrent
  · exact hfiles k current hcurrent

theorem writeBatch_same (loaded current : ImportBatch) : writeBatch loaded loaded current = current := by
  simp only [writeBatch, writeColumn_unchanged]

/-- The status of a batch in which one more file has been processed. -/
theorem finishIfDone_status (hasCandidates : Bool) (batch : ImportBatch) :
    (batch.processedCount < batch.sourceCount ∧ finishIfDone hasCandidates batch = batch) ∨
      (batch.sourceCount ≤ batch.processedCount ∧ isActive (finishIfDone hasCandidates batch).status = false ∧
        (finishIfDone hasCandidates batch).status ≠ .cancelled) := by
  rw [finishIfDone]
  split
  · next h => exact Or.inl ⟨h, rfl⟩
  · next h =>
    right
    refine ⟨Nat.le_of_not_lt h, ?_⟩
    split
    · exact ⟨rfl, nofun⟩
    · split <;> exact ⟨rfl, nofun⟩

theorem finishIfDone_counts (hasCandidates : Bool) (batch : ImportBatch) :
    (finishIfDone hasCandidates batch).processedCount = batch.processedCount ∧
      (finishIfDone hasCandidates batch).sourceCount = batch.sourceCount ∧
      (finishIfDone hasCandidates batch).documentCount = batch.documentCount ∧
      (finishIfDone hasCandidates batch).projectId = batch.projectId := by
  rw [finishIfDone]
  split
  · exact ⟨rfl, rfl, rfl, rfl⟩
  · split
    · exact ⟨rfl, rfl, rfl, rfl⟩
    · split <;> exact ⟨rfl, rfl, rfl, rfl⟩

theorem writeBatch_fresh (hasCandidates : Bool) (batch : ImportBatch) (documents chunks errors : Nat) :
    writeBatch batch (finishIfDone hasCandidates (batch.processed documents chunks errors)) batch =
      finishIfDone hasCandidates (batch.processed documents chunks errors) := by
  simp only [writeBatch, writeColumn_fresh]
  rw [finishIfDone]
  split
  · rfl
  · split
    · rfl
    · split <;> rfl

section

variable {host : Host} {db db' : Database} {loaded : LoadedFile}

/-- What the database has of the loaded rows. -/
structure Current (db : Database) (loaded : LoadedFile) : Prop where
  file : db.files.get? loaded.fileId = some loaded.file
  batch : db.batches.get? loaded.file.importBatchId = some loaded.batch

theorem current_of_load {fileId : Nat} (h : loadFile db fileId = .ok loaded) : Current db loaded := by
  obtain ⟨hid, hfile, hbatch, -⟩ := loadFile_ok h
  rw [← hid] at hfile
  exact ⟨hfile, hbatch⟩

/-- The row of the batch after one of its files has been processed. -/
theorem Saved.batch {file : ImportFile} {inc : Increment} (h : Saved db loaded file inc db') (hcurrent : Current db loaded) :
    ∃ hasCandidates, db'.batches.get? loaded.file.importBatchId =
      some (finishIfDone hasCandidates (loaded.batch.processed inc.documents inc.chunks inc.errors)) := by
  obtain ⟨hasCandidates, hbatches⟩ := h.batches
  refine ⟨hasCandidates, ?_⟩
  rw [hbatches, Table.get?_modify_self, hcurrent.batch, Option.map_some, writeBatch_fresh]

/-- The invariant after a file has been processed that was unfinished, where the documents agree with
what is counted. -/
theorem saved_ok (hok : Ok db) (hcurrent : Current db loaded) {file : ImportFile} {inc : Increment}
    (h : Saved db loaded file inc db') (hunfinished : finished loaded.file.status = false)
    (hdocuments : ∀ k document, db'.documents.get? k = some document → document.importBatchId < db.batches.nextId)
    (hothers : ∀ c, c ≠ loaded.file.importBatchId → countDocuments db'.documents c = countDocuments db.documents c)
    (hself : countDocuments db'.documents loaded.file.importBatchId =
      countDocuments db.documents loaded.file.importBatchId + inc.documents) : Ok db' := by
  obtain ⟨hasCandidates, hbatches⟩ := h.batches
  have hfiles := h.files
  refine hok.update hbatches (fun _ => rfl) h.projects ?_ hdocuments (fun c hc => ⟨fun p => ?_, hothers c hc⟩)
    fun batch hbatch => ?_
  · rw [hfiles]
    exact write_owners hok.files
  · rw [hfiles, countFiles_write_other hcurrent.file hc]
  · rw [hcurrent.batch] at hbatch
    obtain rfl := Option.some.inj hbatch
    have hold := hok.batches _ _ hcurrent.batch
    have hcount := fun p => countFiles_write hcurrent.file file p
    rw [← hfiles] at hcount
    have hall := hcount fun _ => true
    have hfinished := hcount finished
    have hwaiting := hcount waiting
    rw [hunfinished, h.finished] at hfinished
    have hafter : waiting file.status = false := by
      have hfile := h.finished
      cases hs : file.status <;> simp [hs, finished, isDone, waiting] at hfile ⊢
    rw [hafter] at hwaiting
    simp only [Bool.toNat_true, Bool.toNat_false] at hall hfinished hwaiting
    have hsplit := countFiles_all db'.files loaded.file.importBatchId finished
    rw [writeBatch_fresh]
    obtain ⟨hp, hs, hd, -⟩ :=
      finishIfDone_counts hasCandidates (loaded.batch.processed inc.documents inc.chunks inc.errors)
    have hprocessed : (loaded.batch.processed inc.documents inc.chunks inc.errors).processedCount =
        loaded.batch.processedCount + 1 := rfl
    have hsource : (loaded.batch.processed inc.documents inc.chunks inc.errors).sourceCount = loaded.batch.sourceCount := rfl
    have hstatus := finishIfDone_status hasCandidates (loaded.batch.processed inc.documents inc.chunks inc.errors)
    rw [hprocessed, hsource, hold.source, hold.processed] at hstatus
    refine ⟨?_, ?_, ?_, fun hactive => ?_, fun hstop => ?_⟩
    · rw [hs, hsource, hold.source]
      omega
    · rw [hp, hprocessed, hold.processed]
      omega
    · rw [hd, hself, ← hold.documents]
      rfl
    · rcases hstatus with ⟨hless, -⟩ | ⟨-, hinactive, -⟩
      · omega
      · rw [hinactive] at hactive
        cases hactive
    · rcases hstatus with ⟨-, hsame⟩ | ⟨hdone, -, -⟩
      · -- the batch is not finished and has the status that it had
        rw [hsame] at hstop
        have hzero := hold.settled hstop
        omega
      · have hle : countFiles db'.files loaded.file.importBatchId waiting ≤
            countFiles db'.files loaded.file.importBatchId fun s => !finished s := by
          rw [countFiles_split _ _ (fun s => !finished s) waiting,
            countFiles_congr _ _ (p := fun s => !finished s && waiting s) (q := waiting) (by intro s; cases s <;> rfl)]
          exact Nat.le_add_right _ _
        omega

theorem countDocuments_insert (documents : Table SourceDocument) (document : SourceDocument) (c : Nat) :
    countDocuments (documents.insert document) c = countDocuments documents c + if document.importBatchId = c then 1 else 0 := by
  rw [countDocuments, Table.count_insert]
  simp only [decide_eq_true_eq]
  rfl

theorem insert_owners {documents : Table SourceDocument} {document : SourceDocument} {next : Nat}
    (hdocument : document.importBatchId < next)
    (hdocuments : ∀ k d, documents.get? k = some d → d.importBatchId < next) :
    ∀ k d, (documents.insert document).get? k = some d → d.importBatchId < next := by
  intro k d h
  rcases Table.get?_insert_cases h with ⟨-, rfl⟩ | ⟨-, h⟩
  · exact hdocument
  · exact hdocuments k d h

/-- An unfinished file of a closed batch becomes cancelled. -/
theorem closed_ok (hok : Ok db) (hcurrent : Current db loaded) (hunfinished : finished loaded.file.status = false)
    {file : ImportFile} (hstatus : file.status = .cancelled) : Ok (saveFile db loaded file loaded.batch) := by
  refine hok.update (g := fun current => writeBatch loaded.batch loaded.batch current) rfl
    (fun _ => rfl) rfl (write_owners hok.files) hok.documents
    (fun c hc => ⟨countFiles_write_other hcurrent.file hc, rfl⟩) fun batch hbatch => ?_
  have hold := hok.batches _ _ hbatch
  have hcount : ∀ p : FileStatus → Bool,
      countFiles (saveFile db loaded file loaded.batch).files loaded.file.importBatchId p + (p loaded.file.status).toNat =
        countFiles db.files loaded.file.importBatchId p + (p file.status).toNat := countFiles_write hcurrent.file file
  have hall := hcount fun _ => true
  have hfinished := hcount finished
  have hrest := hcount fun s => !finished s
  have hwaiting := hcount waiting
  rw [hunfinished, hstatus] at hfinished hrest
  rw [hstatus] at hwaiting
  have hcancelled : finished .cancelled = false ∧ waiting .cancelled = false := ⟨rfl, rfl⟩
  simp only [hcancelled, Bool.toNat_true, Bool.toNat_false, Bool.not_false] at hall hfinished hrest hwaiting
  rw [writeBatch_same]
  refine ⟨?_, ?_, hold.documents, fun hactive => ?_, fun hstop => ?_⟩
  · rw [hold.source]
    omega
  · rw [hold.processed]
    omega
  · have hpos := hold.active hactive
    omega
  · have hzero := hold.settled hstop
    omega

/-- The documents after one has been added to the batch of a file. -/
theorem inserted_ok (hok : Ok db) (hcurrent : Current db loaded) {file : ImportFile} {inc : Increment}
    (h : Saved db loaded file inc db') (hunfinished : finished loaded.file.status = false) {document : SourceDocument}
    (howner : document.importBatchId = loaded.file.importBatchId) (hdocuments : db'.documents = db.documents.insert document)
    (hinc : inc.documents = 1) : Ok db' := by
  refine saved_ok hok hcurrent h hunfinished ?_ (fun c hc => ?_) ?_
  · rw [hdocuments]
    refine insert_owners ?_ hok.documents
    rw [howner]
    exact hok.files _ _ hcurrent.file
  · rw [hdocuments, countDocuments_insert, howner, if_neg hc.symm, Nat.add_zero]
  · rw [hdocuments, countDocuments_insert, howner, if_pos rfl, hinc]

/-- The documents after none has been added. -/
theorem unchanged_ok (hok : Ok db) (hcurrent : Current db loaded) {file : ImportFile} {inc : Increment}
    (h : Saved db loaded file inc db') (hunfinished : finished loaded.file.status = false)
    (hdocuments : db'.documents = db.documents) (hinc : inc.documents = 0) : Ok db' := by
  refine saved_ok hok hcurrent h hunfinished ?_ (fun c _ => ?_) ?_
  · rw [hdocuments]
    exact hok.documents
  · rw [hdocuments]
  · rw [hdocuments, hinc, Nat.add_zero]

end

end CodexMemory.Import
