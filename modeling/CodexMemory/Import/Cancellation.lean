import CodexMemory.Import.Accounting

/-!
# Cancelling a batch while its files are processed

A transaction of `process_import_file` reads the status of its batch once and commits
later.  `cancellation_kept`: a cancelled batch stays as it is until it is started,
retried or uploaded to, in every run in which no transaction that has read the batch
before the cancellation commits contents, or ends the batch, after it.
-/

namespace CodexMemory.Import.Cancellation

open Worker (BatchStatus FileStatus)

/-! ## The system -/

/-- The database and the rows that the open transactions have read. -/
structure System where
  db : Database
  opened : List LoadedFile

inductive Step
  | call (call : Call)
  | read (fileId : Nat)
  | commit (position : Nat)

def step (host : Host) (s : System) : Step → Unit × System
  | .call call => ((), { s with db := (Import.step host s.db call).2 })
  | .read fileId =>
    match loadFile s.db fileId with
    | .error _ => ((), s)
    | .ok loaded => ((), { s with opened := s.opened ++ [loaded] })
  | .commit position =>
    match s.opened[position]? with
    | none => ((), s)
    | some loaded => ((), ⟨(processLoaded host s.db loaded).2, s.opened.eraseIdx position⟩)

def start (projects : Table String) : System := ⟨initial projects, []⟩

/-! ## What is claimed -/

/-- The batch is retried, uploaded to or started. -/
def reopens (batchId : Nat) : Step → Bool
  | .call (.addFiles b _) | .call (.startBatch _ b) | .call (.retryBatch _ b) => b = batchId
  | _ => false

/-- A file that has been queued, is processed or has been parsed. -/
def revived (status : FileStatus) : Bool := status = .queued || status = .processing || status = .parsed

/-- The document is of the batch. -/
def documentOf (db : Database) (batchId documentId : Nat) : Prop :=
  ∃ document, db.documents.get? documentId = some document ∧ document.importBatchId = batchId

/-- No file of the batch comes back, and nothing is added to it. -/
structure Still (db : Database) (batchId : Nat) (db' : Database) : Prop where
  files : ∀ k file', db'.files.get? k = some file' → file'.importBatchId = batchId → revived file'.status = true →
    ∃ file, db.files.get? k = some file ∧ file.importBatchId = batchId ∧ file.status = file'.status
  documents : ∀ k document, db'.documents.get? k = some document → document.importBatchId = batchId →
    db.documents.get? k = some document
  chunks : ∀ k chunk, db'.chunks.get? k = some chunk → documentOf db' batchId chunk.documentId →
    db.chunks.get? k = some chunk
  candidates : ∀ k candidate, db'.candidates.get? k = some candidate → documentOf db' batchId candidate.documentId →
    db.candidates.get? k = some candidate

/-- A batch that has been cancelled stays so, and as it is, unless the step takes it up again. -/
def Effective (host : Host) (s : System) (i : Step) : Prop :=
  ∀ batchId batch, s.db.batches.get? batchId = some batch → batch.status = .cancelled → reopens batchId i = false →
    (∃ batch', (step host s i).2.db.batches.get? batchId = some batch' ∧ batch'.status = .cancelled) ∧
      Still s.db batchId (step host s i).2.db

/-- The batch of a file has been cancelled since a transaction has read it. -/
def Late (s : System) (loaded : LoadedFile) : Prop :=
  (∃ batch, s.db.batches.get? loaded.file.importBatchId = some batch ∧ batch.status = .cancelled) ∧
    isClosed loaded.batch.status = false ∧ isDone loaded.file.status = false

/-- A transaction on an unfinished file that has read its batch before a cancellation commits after it
only where the file cannot be read or is a duplicate, and is not the last one. -/
def Timely (host : Host) (s : System) : Step → Prop
  | .commit position => ∀ loaded, s.opened[position]? = some loaded → Late s loaded →
      loaded.batch.processedCount + 1 < loaded.batch.sourceCount ∧
        ((∃ message, readParts host loaded.file = .error message) ∨
          (s.db.documentWithHash loaded.file.projectId loaded.file.contentHash).isSome = true)
  | _ => True

/-! ## What stays as it is -/

section

variable {host : Host} {db db' : Database} {loaded : LoadedFile} {batchId : Nat}

theorem Still.refl (db : Database) (batchId : Nat) : Still db batchId db :=
  ⟨fun _ file h howner _ => ⟨file, h, howner, rfl⟩, fun _ _ h _ => h, fun _ _ h _ => h, fun _ _ h _ => h⟩

theorem Still.trans {db'' : Database} (h : Still db batchId db') (h' : Still db' batchId db'') : Still db batchId db'' := by
  have hdocument : ∀ k, documentOf db'' batchId k → documentOf db' batchId k := by
    rintro k ⟨document, hdocument, howner⟩
    exact ⟨document, h'.documents k document hdocument howner, howner⟩
  refine ⟨fun k file'' hfile howner hrevived => ?_, fun k document hd howner => ?_, fun k chunk hc hd => ?_,
    fun k candidate hc hd => ?_⟩
  · obtain ⟨file', hfile', howner', hstatus'⟩ := h'.files k file'' hfile howner hrevived
    obtain ⟨file, hfile, howner, hstatus⟩ := h.files k file' hfile' howner' (hstatus' ▸ hrevived)
    exact ⟨file, hfile, howner, hstatus.trans hstatus'⟩
  · exact h.documents k document (h'.documents k document hd howner) howner
  · exact h.chunks k chunk (h'.chunks k chunk hc hd) (hdocument _ hd)
  · exact h.candidates k candidate (h'.candidates k candidate hc hd) (hdocument _ hd)

/-- Only files have changed. -/
theorem Still.of_contents (hdocuments : db'.documents = db.documents) (hchunks : db'.chunks = db.chunks)
    (hcandidates : db'.candidates = db.candidates)
    (hfiles : ∀ k file', db'.files.get? k = some file' → file'.importBatchId = batchId → revived file'.status = true →
      ∃ file, db.files.get? k = some file ∧ file.importBatchId = batchId ∧ file.status = file'.status) :
    Still db batchId db' :=
  ⟨hfiles, fun _ _ h _ => hdocuments ▸ h, fun _ _ h _ => hchunks ▸ h, fun _ _ h _ => hcandidates ▸ h⟩

/-! ## The batch of a file never changes -/

def OwnersKept (files files' : Table ImportFile) : Prop :=
  ∀ k file, files.get? k = some file → ∃ file', files'.get? k = some file' ∧ file'.importBatchId = file.importBatchId

theorem OwnersKept.refl (files : Table ImportFile) : OwnersKept files files := fun _ file h => ⟨file, h, rfl⟩

theorem OwnersKept.trans {files files' files'' : Table ImportFile} (h : OwnersKept files files')
    (h' : OwnersKept files' files'') : OwnersKept files files'' := by
  intro k file hfile
  obtain ⟨file', hfile', howner⟩ := h k file hfile
  obtain ⟨file'', hfile'', howner'⟩ := h' k file' hfile'
  exact ⟨file'', hfile'', howner'.trans howner⟩

theorem mapRows_ownersKept {files : Table ImportFile} {f : Nat → ImportFile → ImportFile}
    (hf : ∀ k file, (f k file).importBatchId = file.importBatchId) : OwnersKept files (files.mapRows f) := by
  intro k file hfile
  exact ⟨f k file, by rw [Table.get?_mapRows, hfile, Option.map_some], hf k file⟩

theorem rewrite_ownersKept {files : Table ImportFile} {b : Nat} {p : FileStatus → Bool} {f : ImportFile → ImportFile}
    (hf : ∀ file, (f file).importBatchId = file.importBatchId) : OwnersKept files (rewriteFiles files b p f) := by
  refine mapRows_ownersKept fun k file => ?_
  split
  · exact hf file
  · rfl

theorem write_ownersKept {files : Table ImportFile} {fileId : Nat} {before after : ImportFile} :
    OwnersKept files (files.modify fileId fun current => writeFile before after current) := by
  refine mapRows_ownersKept fun k file => ?_
  split <;> rfl

theorem added_ownersKept {n : Nat} {files files' : Table ImportFile} (h : FilesAdded batchId files n files') :
    OwnersKept files files' := by
  induction h with
  | none files => exact .refl files
  | @one files files' n file owner status rest ih =>
    intro k old hold
    refine ih k old ?_
    rw [Table.get?_insert_ne _ _ (files.lt_nextId hold).ne]
    exact hold

/-! ## What a transaction does -/

/-- The parts of a document get its key. -/
theorem addParts_owned (host : Host) (source : PartSource) (index : Nat) (db : Database) (parts : List Part) :
    (∀ k chunk, (addParts host source index db parts).chunks.get? k = some chunk →
      db.chunks.get? k = some chunk ∨ chunk.documentId = source.documentId) ∧
    ∀ k candidate, (addParts host source index db parts).candidates.get? k = some candidate →
      db.candidates.get? k = some candidate ∨ candidate.documentId = source.documentId := by
  induction parts generalizing index db with
  | nil => exact ⟨fun _ _ h => Or.inl h, fun _ _ h => Or.inl h⟩
  | cons part rest ih =>
    obtain ⟨hchunks, hcandidates⟩ := ih (index + 1)
      { db with
        chunks := db.chunks.insert (chunkRow host source index part)
        candidates := db.candidates.insert (candidateRow host source db.chunks.nextId part) }
    constructor
    · intro k chunk h
      rcases hchunks k chunk h with h | h
      · rcases Table.get?_insert_cases h with ⟨-, rfl⟩ | ⟨-, h⟩
        · exact Or.inr rfl
        · exact Or.inl h
      · exact Or.inr h
    · intro k candidate h
      rcases hcandidates k candidate h with h | h
      · rcases Table.get?_insert_cases h with ⟨-, rfl⟩ | ⟨-, h⟩
        · exact Or.inr rfl
        · exact Or.inl h
      · exact Or.inr h

/-- A transaction touches its file and its batch, and what it adds is of this batch. -/
structure Confined (db : Database) (loaded : LoadedFile) (db' : Database) : Prop where
  batches : ∀ b, b ≠ loaded.file.importBatchId → db'.batches.get? b = db.batches.get? b
  files : ∀ k, k ≠ loaded.fileId → db'.files.get? k = db.files.get? k
  owners : OwnersKept db.files db'.files
  documents : ∀ k document, db'.documents.get? k = some document →
    db.documents.get? k = some document ∨ document.importBatchId = loaded.file.importBatchId
  chunks : ∀ k chunk, db'.chunks.get? k = some chunk →
    db.chunks.get? k = some chunk ∨ documentOf db' loaded.file.importBatchId chunk.documentId
  candidates : ∀ k candidate, db'.candidates.get? k = some candidate →
    db.candidates.get? k = some candidate ∨ documentOf db' loaded.file.importBatchId candidate.documentId

theorem saved_confined {file : ImportFile} {inc : Increment} (h : Saved db loaded file inc db')
    (hdocuments : ∀ k document, db'.documents.get? k = some document →
      db.documents.get? k = some document ∨ document.importBatchId = loaded.file.importBatchId)
    (hchunks : ∀ k chunk, db'.chunks.get? k = some chunk →
      db.chunks.get? k = some chunk ∨ documentOf db' loaded.file.importBatchId chunk.documentId)
    (hcandidates : ∀ k candidate, db'.candidates.get? k = some candidate →
      db.candidates.get? k = some candidate ∨ documentOf db' loaded.file.importBatchId candidate.documentId) :
    Confined db loaded db' := by
  obtain ⟨hasCandidates, hbatches⟩ := h.batches
  refine ⟨fun b hb => ?_, fun k hk => ?_, ?_, hdocuments, hchunks, hcandidates⟩
  · rw [hbatches, Table.get?_modify_ne _ _ hb]
  · rw [h.files, Table.get?_modify_ne _ _ hk]
  · rw [h.files]
    exact write_ownersKept

theorem inserted_documents {document : SourceDocument} (howner : document.importBatchId = loaded.file.importBatchId)
    (hdocuments : db'.documents = db.documents.insert document) :
    (∀ k d, db'.documents.get? k = some d → db.documents.get? k = some d ∨ d.importBatchId = loaded.file.importBatchId) ∧
      documentOf db' loaded.file.importBatchId db.documents.nextId := by
  rw [hdocuments]
  constructor
  · intro k d h
    rcases Table.get?_insert_cases h with ⟨-, rfl⟩ | ⟨-, h⟩
    · exact Or.inr howner
    · exact Or.inl h
  · refine ⟨document, ?_, howner⟩
    rw [hdocuments, Table.get?_insert_self]

theorem process_confined (h : ProcessChange host db loaded db') : Confined db loaded db' := by
  cases h with
  | closed hclosed =>
    exact ⟨fun b hb => Table.get?_modify_ne _ _ hb, fun k hk => Table.get?_modify_ne _ _ hk, write_ownersKept,
      fun _ _ h => Or.inl h, fun _ _ h => Or.inl h, fun _ _ h => Or.inl h⟩
  | done hopen hdone =>
    exact ⟨fun _ _ => rfl, fun _ _ => rfl, .refl _, fun _ _ h => Or.inl h, fun _ _ h => Or.inl h,
      fun _ _ h => Or.inl h⟩
  | failed file hopen hundone hstatus hsaved hdocuments hchunks hcandidates
  | duplicate file hopen hundone hstatus hsaved hdocuments hchunks hcandidates =>
    exact saved_confined hsaved (fun _ _ h => Or.inl (hdocuments ▸ h)) (fun _ _ h => Or.inl (hchunks ▸ h))
      fun _ _ h => Or.inl (hcandidates ▸ h)
  | quarantined file content parts document hopen hundone hread hinjected hunique hstatus hsaved howner hdocuments
      hchunks hcandidates =>
    exact saved_confined hsaved (inserted_documents howner hdocuments).1 (fun _ _ h => Or.inl (hchunks ▸ h))
      fun _ _ h => Or.inl (hcandidates ▸ h)
  | parsed file content parts document source hopen hundone hread hclean hunique hstatus hsaved howner hdocuments
      hdocumentId hchunks hcandidates =>
    obtain ⟨hold, hnew⟩ := inserted_documents howner hdocuments
    obtain ⟨hownedChunks, hownedCandidates⟩ := addParts_owned host source 0 db parts
    rw [← hdocumentId] at hnew
    refine saved_confined hsaved hold (fun k chunk h => ?_) fun k candidate h => ?_
    · rw [hchunks] at h
      exact (hownedChunks k chunk h).imp_right fun heq => by rw [heq]; exact hnew
    · rw [hcandidates] at h
      exact (hownedCandidates k candidate h).imp_right fun heq => by rw [heq]; exact hnew

/-- A transaction leaves the other batches as they are. -/
theorem confined_still (h : Confined db loaded db')
    (howned : ∃ file, db.files.get? loaded.fileId = some file ∧ file.importBatchId = loaded.file.importBatchId)
    (hb : batchId ≠ loaded.file.importBatchId) : Still db batchId db' := by
  have hother : ∀ k, documentOf db' batchId k → ¬documentOf db' loaded.file.importBatchId k := by
    rintro k ⟨document, hdocument, howner⟩ ⟨document', hdocument', howner'⟩
    obtain rfl := Option.some.inj (hdocument.symm.trans hdocument')
    exact hb (howner.symm.trans howner')
  refine ⟨fun k file' hfile' howner _ => ?_, fun k document hd howner => ?_, fun k chunk hc hd => ?_,
    fun k candidate hc hd => ?_⟩
  · by_cases hk : k = loaded.fileId
    · subst hk
      obtain ⟨file, hfile, hsame⟩ := howned
      obtain ⟨file'', hfile'', hsame'⟩ := h.owners _ file hfile
      obtain rfl := Option.some.inj (hfile'.symm.trans hfile'')
      exact absurd (howner.symm.trans (hsame'.trans hsame)) hb
    · rw [h.files k hk] at hfile'
      exact ⟨file', hfile', howner, rfl⟩
  · exact (h.documents k document hd).resolve_right fun howner' => hb (howner.symm.trans howner')
  · exact (h.chunks k chunk hc).resolve_right (hother _ hd)
  · exact (h.candidates k candidate hc).resolve_right (hother _ hd)

/-- A file is written that does not come back. -/
theorem write_still {files : Table ImportFile} {fileId : Nat} {before after : ImportFile}
    (hafter : revived after.status = false) :
    ∀ k file', (files.modify fileId fun current => writeFile before after current).get? k = some file' →
      file'.importBatchId = batchId → revived file'.status = true →
        ∃ file, files.get? k = some file ∧ file.importBatchId = batchId ∧ file.status = file'.status := by
  intro k file' h howner hrevived
  rw [Table.get?_modify] at h
  obtain ⟨file, hfile, rfl⟩ := Option.map_eq_some_iff.mp h
  refine ⟨file, hfile, ?_, ?_⟩
  · split at howner <;> exact howner
  · split
    · next hk =>
      rw [if_pos hk] at hrevived
      show file.status = writeColumn before.status after.status file.status
      have hstatus : revived (writeColumn before.status after.status file.status) = true := hrevived
      rw [writeColumn] at hstatus ⊢
      split
      · rfl
      · next hne =>
        rw [if_neg hne, hafter] at hstatus
        cases hstatus
    · rfl

/-- A cancelled batch is left alone by a transaction that is not late, or that adds nothing and does not
end the batch. -/
theorem own_still (h : ProcessChange host db loaded db') {batch : ImportBatch}
    (hrow : db.batches.get? loaded.file.importBatchId = some batch)
    (hguard : isClosed loaded.batch.status = false → isDone loaded.file.status = false →
      loaded.batch.processedCount + 1 < loaded.batch.sourceCount ∧
        ((∃ message, readParts host loaded.file = .error message) ∨
          (db.documentWithHash loaded.file.projectId loaded.file.contentHash).isSome = true)) :
    (∃ batch', db'.batches.get? loaded.file.importBatchId = some batch' ∧ batch'.status = batch.status) ∧
      Still db loaded.file.importBatchId db' := by
  have hsaved : ∀ file inc, Saved db loaded file inc db' → isClosed loaded.batch.status = false →
      isDone loaded.file.status = false →
        ∃ batch', db'.batches.get? loaded.file.importBatchId = some batch' ∧ batch'.status = batch.status := by
    intro file inc hsaved hopen hundone
    obtain ⟨hasCandidates, hbatches⟩ := hsaved.batches
    have hrow' : db'.batches.get? loaded.file.importBatchId = some (writeBatch loaded.batch
        (finishIfDone hasCandidates (loaded.batch.processed inc.documents inc.chunks inc.errors)) batch) := by
      rw [hbatches, Table.get?_modify_self, hrow, Option.map_some]
    refine ⟨_, hrow', ?_⟩
    have hmore : (loaded.batch.processed inc.documents inc.chunks inc.errors).processedCount <
        (loaded.batch.processed inc.documents inc.chunks inc.errors).sourceCount := (hguard hopen hundone).1
    rw [finishIfDone, if_pos hmore]
    exact writeColumn_unchanged _ _
  cases h with
  | closed hclosed =>
    refine ⟨⟨batch, ?_, rfl⟩, .of_contents rfl rfl rfl (write_still rfl)⟩
    show (db.batches.modify _ _).get? _ = _
    rw [Table.get?_modify_self, hrow, Option.map_some, writeBatch_same]
  | done hopen hdone => exact ⟨⟨batch, hrow, rfl⟩, .refl db _⟩
  | failed file hopen hundone hstatus hs hdocuments hchunks hcandidates
  | duplicate file hopen hundone hstatus hs hdocuments hchunks hcandidates =>
    refine ⟨hsaved file _ hs hopen hundone, .of_contents hdocuments hchunks hcandidates ?_⟩
    rw [hs.files]
    exact write_still (by rw [hstatus]; rfl)
  | quarantined file content parts document hopen hundone hread hinjected hunique
  | parsed file content parts document source hopen hundone hread hclean hunique =>
    rcases (hguard hopen hundone).2 with ⟨message, herror⟩ | hsome
    · rw [hread] at herror
      cases herror
    · rw [hunique] at hsome
      cases hsome

/-! ## The calls on other batches -/

theorem rewrite_still {b : Nat} {p : FileStatus → Bool} {f : ImportFile → ImportFile}
    (hf : ∀ file, (f file).importBatchId = file.importBatchId) (hb : batchId ≠ b)
    (hfiles : db'.files = rewriteFiles db.files b p f) (hcontents : SameContents db db') : Still db batchId db' := by
  refine .of_contents hcontents.documents hcontents.chunks hcontents.candidates fun k file' h howner _ => ?_
  rw [hfiles, rewriteFiles, Table.get?_mapRows] at h
  obtain ⟨file, hfile, rfl⟩ := Option.map_eq_some_iff.mp h
  by_cases hcond : (decide (file.importBatchId = b) && p file.status) = true
  · rw [if_pos hcond, hf] at howner
    rw [Bool.and_eq_true, decide_eq_true_eq] at hcond
    exact absurd (howner.symm.trans hcond.1) hb
  · rw [if_neg hcond] at howner ⊢
    exact ⟨file, hfile, howner, rfl⟩

theorem uploaded_still {b added : Nat} {batch : ImportBatch} (h : Uploaded db b batch added db') (hb : batchId ≠ b) :
    Still db batchId db' := by
  refine .of_contents h.contents.documents h.contents.chunks h.contents.candidates fun k file' hfile' howner _ => ?_
  have hold : ∀ {n : Nat} {files files' : Table ImportFile}, FilesAdded b files n files' →
      files'.get? k = some file' → files.get? k = some file' := by
    intro n files files' hadded
    induction hadded with
    | none files => exact id
    | @one files files' n file owner status rest ih =>
      intro hk
      rcases Table.get?_insert_cases (ih hk) with ⟨-, rfl⟩ | ⟨-, hk⟩
      · exact absurd (howner.symm.trans owner) hb
      · exact hk
  exact ⟨file', hold h.files hfile', howner, rfl⟩

/-- A call on another batch leaves the row of a batch. -/
theorem get?_batches_other {b : Nat} {g : ImportBatch → ImportBatch} (hb : batchId ≠ b)
    (h : db'.batches = db.batches.modify b g) : db'.batches.get? batchId = db.batches.get? batchId := by
  rw [h, Table.get?_modify_ne _ _ hb]

theorem started_still (db : Database) (now : Nat) {b : Nat} (hb : batchId ≠ b) :
    (startBatch db now b).2.batches.get? batchId = db.batches.get? batchId ∧ Still db batchId (startBatch db now b).2 := by
  rcases startBatch_effect db now b with h | ⟨batch, h⟩
  · rw [h]
    exact ⟨rfl, .refl db batchId⟩
  · exact ⟨get?_batches_other hb h.batches, rewrite_still (by intro _; rfl) hb h.files h.contents⟩

theorem startBatch_ownersKept (now b : Nat) : OwnersKept db.files (startBatch db now b).2.files := by
  rcases startBatch_effect db now b with h | ⟨batch, h⟩
  · rw [h]
    exact .refl _
  · rw [h.files]
    exact rewrite_ownersKept (by intro _; rfl)

/-- **A call that does not take a cancelled batch up again leaves it as it is.** -/
theorem call_still (host : Host) {batch : ImportBatch} (call : Call) (hrow : db.batches.get? batchId = some batch)
    (hcancelled : batch.status = .cancelled) (hno : reopens batchId (.call call) = false) :
    (∃ batch', (Import.step host db call).2.batches.get? batchId = some batch' ∧ batch'.status = batch.status) ∧
      Still db batchId (Import.step host db call).2 := by
  have hsame : ∀ {db' : Database}, db'.batches.get? batchId = db.batches.get? batchId → Still db batchId db' →
      (∃ batch', db'.batches.get? batchId = some batch' ∧ batch'.status = batch.status) ∧ Still db batchId db' :=
    fun hbatch hstill => ⟨⟨batch, hbatch.trans hrow, rfl⟩, hstill⟩
  cases call with
  | createBatch projectId scopeId scopeKey =>
    simp only [Import.step, createBatch]
    split
    · exact hsame rfl (.refl db batchId)
    · split
      · exact hsame rfl (.refl db batchId)
      · refine hsame (Table.get?_insert_ne _ _ (db.batches.lt_nextId hrow).ne) (.of_contents rfl rfl rfl ?_)
        exact fun _ file h howner _ => ⟨file, h, howner, rfl⟩
  | addFiles b items =>
    have hb : batchId ≠ b := fun h => absurd hno (by rw [h]; simp [reopens])
    rcases addFiles_effect host db b items with h | ⟨batch', added, h⟩
    · rw [show (Import.step host db (.addFiles b items)).2 = db from h]
      exact hsame rfl (.refl db batchId)
    · exact hsame (get?_batches_other hb h.batches) (uploaded_still h hb)
  | startBatch now b =>
    have hb : batchId ≠ b := fun h => absurd hno (by rw [h]; simp [reopens])
    obtain ⟨hbatch, hstill⟩ := started_still db now hb
    exact hsame hbatch hstill
  | retryBatch now b =>
    have hb : batchId ≠ b := fun h => absurd hno (by rw [h]; simp [reopens])
    rcases retryBatch_effect db now b with h | ⟨batch', db₁, hreopened, h⟩
    · rw [show (Import.step host db (.retryBatch now b)).2 = db from h]
      exact hsame rfl (.refl db batchId)
    · rw [show (Import.step host db (.retryBatch now b)).2 = (startBatch db₁ now b).2 from h]
      obtain ⟨hbatch, hstill⟩ := started_still db₁ now hb
      have hfirst := rewrite_still (by intro _; rfl) hb hreopened.files hreopened.contents
      exact hsame (hbatch.trans (get?_batches_other hb hreopened.batches)) (hfirst.trans hstill)
  | cancelImportBatch now b =>
    rcases cancelImportBatch_effect db now b with h | ⟨batch', h⟩
    · rw [show (Import.step host db (.cancelImportBatch now b)).2 = db from h]
      exact hsame rfl (.refl db batchId)
    · have hb : batchId ≠ b := by
        rintro rfl
        obtain rfl := Option.some.inj (hrow.symm.trans h.row)
        have hended := h.status
        rw [hcancelled] at hended
        cases hended
      exact hsame (get?_batches_other hb h.batches) (rewrite_still (by intro _; rfl) hb h.files h.contents)
  | processImportFile fileId =>
    rcases processImportFile_effect host db fileId with h | ⟨loaded, hload, h⟩
    · rw [show (Import.step host db (.processImportFile fileId)).2 = db from h]
      exact hsame rfl (.refl db batchId)
    · obtain ⟨hfile, hbatch⟩ := current_of_load hload
      by_cases hb : batchId = loaded.file.importBatchId
      · subst hb
        obtain rfl := Option.some.inj (hrow.symm.trans hbatch)
        refine own_still h hrow fun hopen _ => ?_
        rw [hcancelled] at hopen
        cases hopen
      · have hconfined := process_confined h
        exact hsame (hconfined.batches _ hb) (confined_still hconfined ⟨_, hfile, rfl⟩ hb)

theorem call_ownersKept (call : Call) : OwnersKept db.files (Import.step host db call).2.files := by
  cases call with
  | createBatch projectId scopeId scopeKey =>
    simp only [Import.step, createBatch]
    split
    · exact .refl _
    · split <;> exact .refl _
  | addFiles b items =>
    rcases addFiles_effect host db b items with h | ⟨batch, added, h⟩
    · rw [show (Import.step host db (.addFiles b items)).2 = db from h]
      exact .refl _
    · exact added_ownersKept h.files
  | startBatch now b => exact startBatch_ownersKept now b
  | retryBatch now b =>
    rcases retryBatch_effect db now b with h | ⟨batch, db₁, hreopened, h⟩
    · rw [show (Import.step host db (.retryBatch now b)).2 = db from h]
      exact .refl _
    · rw [show (Import.step host db (.retryBatch now b)).2 = (startBatch db₁ now b).2 from h]
      refine OwnersKept.trans ?_ (startBatch_ownersKept now b)
      rw [hreopened.files]
      exact rewrite_ownersKept (by intro _; rfl)
  | cancelImportBatch now b =>
    rcases cancelImportBatch_effect db now b with h | ⟨batch, h⟩
    · rw [show (Import.step host db (.cancelImportBatch now b)).2 = db from h]
      exact .refl _
    · rw [show (Import.step host db (.cancelImportBatch now b)).2.files = _ from h.files]
      exact rewrite_ownersKept (by intro _; rfl)
  | processImportFile fileId =>
    rcases processImportFile_effect host db fileId with h | ⟨loaded, hload, h⟩
    · rw [show (Import.step host db (.processImportFile fileId)).2 = db from h]
      exact .refl _
    · exact (process_confined h).owners

end

/-! ## Runs -/

/-- The files of the open transactions are of the batches that they have read. -/
def Owned (s : System) : Prop :=
  ∀ loaded ∈ s.opened, ∃ file, s.db.files.get? loaded.fileId = some file ∧
    file.importBatchId = loaded.file.importBatchId

theorem Owned.keep {s : System} (h : Owned s) {db : Database} (hkept : OwnersKept s.db.files db.files)
    {opened : List LoadedFile} (hopened : ∀ loaded ∈ opened, loaded ∈ s.opened) : Owned ⟨db, opened⟩ := by
  intro loaded hmem
  obtain ⟨file, hfile, howner⟩ := h loaded (hopened loaded hmem)
  obtain ⟨file', hfile', howner'⟩ := hkept _ file hfile
  exact ⟨file', hfile', howner'.trans howner⟩

theorem step_owned (host : Host) {s : System} (h : Owned s) (i : Step) : Owned (step host s i).2 := by
  cases i with
  | call call => exact h.keep (call_ownersKept call) fun _ hmem => hmem
  | read fileId =>
    simp only [step]
    split
    · exact h
    · next loaded hload =>
      intro other hother
      rcases List.mem_append.mp hother with hother | hother
      · exact h other hother
      · obtain rfl := List.mem_singleton.mp hother
        exact ⟨_, (current_of_load hload).file, rfl⟩
  | commit position =>
    simp only [step]
    split
    · exact h
    · next loaded hloaded =>
      exact h.keep (process_confined (processLoaded_change host s.db loaded)).owners fun _ => List.mem_of_mem_eraseIdx

theorem timely_effective (host : Host) {s : System} (h : Owned s) (i : Step) (htimely : Timely host s i) :
    Effective host s i := by
  intro batchId batch hrow hcancelled hno
  cases i with
  | call call =>
    obtain ⟨⟨batch', hrow', hstatus⟩, hstill⟩ := call_still host call hrow hcancelled hno
    exact ⟨⟨batch', hrow', hstatus.trans hcancelled⟩, hstill⟩
  | read fileId =>
    simp only [step]
    split <;> exact ⟨⟨batch, hrow, hcancelled⟩, .refl s.db batchId⟩
  | commit position =>
    simp only [step]
    split
    · exact ⟨⟨batch, hrow, hcancelled⟩, .refl s.db batchId⟩
    · next loaded hloaded =>
      have hchange := processLoaded_change host s.db loaded
      by_cases hb : batchId = loaded.file.importBatchId
      · subst hb
        obtain ⟨⟨batch', hrow', hstatus⟩, hstill⟩ := own_still hchange hrow fun hopen hundone =>
          htimely loaded hloaded ⟨⟨batch, hrow, hcancelled⟩, hopen, hundone⟩
        exact ⟨⟨batch', hrow', hstatus.trans hcancelled⟩, hstill⟩
      · have hconfined := process_confined hchange
        refine ⟨⟨batch, (hconfined.batches _ hb).trans hrow, hcancelled⟩, confined_still hconfined ?_ hb⟩
        exact h loaded (List.mem_of_getElem? hloaded)

/-- **A cancellation is effective in every run without late commits.** -/
theorem cancellation_kept (host : Host) (projects : Table String) (steps : List Step)
    (htimely : Trace.Always (step host) (Timely host) (start projects) steps) :
    Trace.Always (step host) (Effective host) (start projects) steps := by
  have hstep : ∀ s i, Owned s → Timely host s i → Owned (step host s i).2 := fun s i h _ => step_owned host h i
  have hstart : Owned (start projects) := fun loaded hmem => absurd hmem List.not_mem_nil
  exact Trace.always_of_invariant hstep (fun s i h => timely_effective host h i) hstart htimely

/-- A batch with one text is queued and cancelled, then its file is processed. -/
def cancelledFirst : List Step :=
  [.call (.createBatch 0 0 "project"), .call (.addFiles 0 [⟨"notes.txt", "text", none⟩]), .call (.startBatch 0 0),
    .call (.cancelImportBatch 0 0), .read 0, .commit 0]

theorem cancelledFirst_effective :
    Trace.Always (step textHost) (Effective textHost) (start oneProject) cancelledFirst := by
  refine cancellation_kept textHost oneProject cancelledFirst
    ⟨trivial, trivial, trivial, trivial, trivial, fun loaded hloaded hlate => ?_, trivial⟩
  have hclosed : ((Trace.exec (step textHost) (start oneProject) (cancelledFirst.take 5)).opened[0]?).map
      (fun loaded => isClosed loaded.batch.status) = some true := by decide
  rw [show (Trace.exec (step textHost) (start oneProject) (cancelledFirst.take 5)).opened[0]? = some loaded from hloaded,
    Option.map_some, hlate.2.1] at hclosed
  cases hclosed

/-- The batch is cancelled after the transaction of its file has read it. -/
def cancelledLate : List Step :=
  [.call (.createBatch 0 0 "project"), .call (.addFiles 0 [⟨"notes.txt", "text", none⟩]), .call (.startBatch 0 0), .read 0,
    .call (.cancelImportBatch 0 0), .commit 0]

/-- The transaction takes the batch out of `cancelled`. -/
theorem cancelledLate_undone :
    ¬Trace.Always (step textHost) (Effective textHost) (start oneProject) cancelledLate := by
  intro h
  have hcommit := h.2.2.2.2.2.1
  have hbefore : ((Trace.exec (step textHost) (start oneProject) (cancelledLate.take 5)).db.batches.get? 0).map
      ImportBatch.status = some .cancelled := by decide
  have hafter : ((Trace.exec (step textHost) (start oneProject) cancelledLate).db.batches.get? 0).map
      ImportBatch.status = some .awaitingReview := by decide
  obtain ⟨batch, hrow, hstatus⟩ := Option.map_eq_some_iff.mp hbefore
  obtain ⟨⟨batch', hrow', hstatus'⟩, -⟩ := hcommit 0 batch hrow hstatus rfl
  rw [show (Trace.exec (step textHost) (start oneProject) cancelledLate).db.batches.get? 0 = some batch' from hrow',
    Option.map_some, hstatus'] at hafter
  cases hafter

end CodexMemory.Import.Cancellation
