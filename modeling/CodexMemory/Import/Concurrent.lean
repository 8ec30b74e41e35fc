import CodexMemory.Import.Counters
import CodexMemory.Trace

/-!
# Files of one batch that are processed at the same time

A transaction of `process_import_file` reads the rows of its file, its batch and its
project in one step and writes at its commit.  `progress_iff`: the counters and the
status of the batch are those of the sequential run exactly when every commit still
finds the row of the batch that its transaction has read.
-/

namespace CodexMemory.Import.Concurrent

open Worker (BatchStatus FileStatus)

/-! ## The system -/

/-- The database, the files whose transaction has not begun, the rows that the open transactions have
read, and the files whose transaction has committed, in this order. -/
structure System where
  db : Database
  waiting : List Nat
  opened : List LoadedFile
  committed : List Nat

inductive Step
  | read (fileId : Nat)
  | commit (fileId : Nat)

def step (host : Host) (s : System) : Step → Option Processed × System
  | .read fileId =>
    if fileId ∈ s.waiting then
      match loadFile s.db fileId with
      | .error _ => (none, { s with waiting := s.waiting.erase fileId })
      | .ok loaded => (none, { s with waiting := s.waiting.erase fileId, opened := loaded :: s.opened })
    else (none, s)
  | .commit fileId =>
    match s.opened.find? fun loaded => loaded.fileId = fileId with
    | none => (none, s)
    | some loaded =>
      (some (processLoaded host s.db loaded).1, {
        db := (processLoaded host s.db loaded).2
        waiting := s.waiting
        opened := s.opened.eraseP fun loaded => loaded.fileId = fileId
        committed := s.committed ++ [fileId] })

def start (db : Database) (ids : List Nat) : System := ⟨db, ids, [], []⟩

/-- The files one after the other. -/
def sequential (host : Host) (db : Database) (ids : List Nat) : Database :=
  ids.foldl (fun db fileId => (processImportFile host db fileId).2) db

/-! ## What is claimed -/

/-- Different files of a batch that is not closed, none of which is done. -/
structure Ready (db : Database) (batchId : Nat) (batch : ImportBatch) (ids : List Nat) : Prop where
  row : db.batches.get? batchId = some batch
  opened : isClosed batch.status = false
  nodup : ids.Nodup
  files : ∀ fileId ∈ ids, ∃ loaded, loadFile db fileId = .ok loaded ∧ loaded.file.importBatchId = batchId ∧
    isDone loaded.file.status = false

/-- The file has a status with a property. -/
def hasStatus (db : Database) (p : FileStatus → Bool) (fileId : Nat) : Bool :=
  (db.files.get? fileId).any fun file => p file.status

/-- The counters of the batch have grown by the sums over the files, and it has ended if all its files
have been processed. -/
structure Progress (db : Database) (batch : ImportBatch) (ids : List Nat) (db' : Database) (batch' : ImportBatch) :
    Prop where
  processed : batch'.processedCount = batch.processedCount + ids.length
  documents : batch'.documentCount = batch.documentCount + ids.countP (hasStatus db' (· = .parsed))
  chunks : batch'.chunkCount + db.chunks.rows.length = batch.chunkCount + db'.chunks.rows.length
  errors : batch'.errorCount = batch.errorCount + ids.countP (hasStatus db' fun s => s = .failed || s = .quarantined)
  left : ids ≠ [] → batch.sourceCount ≤ batch.processedCount + ids.length → isActive batch'.status = false

/-- The transactions have lost no progress: the counters are the sums over the files, and the status is
that of the sequential run. -/
structure Agrees (host : Host) (db : Database) (batchId : Nat) (batch : ImportBatch) (ids : List Nat) (s : System) :
    Prop where
  progress : ∃ batch', s.db.batches.get? batchId = some batch' ∧ Progress db batch ids s.db batch'
  status : (s.db.batches.get? batchId).map ImportBatch.status =
    ((sequential host db s.committed).batches.get? batchId).map ImportBatch.status

/-- Every transaction has committed. -/
def Ended (s : System) : Prop := s.waiting = [] ∧ s.opened = []

/-- A commit finds the row of the batch that its transaction has read. -/
def Fresh (s : System) : Step → Prop
  | .read _ => True
  | .commit fileId => ∀ loaded ∈ s.opened, loaded.fileId = fileId →
      s.db.batches.get? loaded.file.importBatchId = some loaded.batch

/-! ## One file -/

section

variable {host : Host} {db db' : Database} {loaded : LoadedFile} {file : ImportFile} {inc : Increment}

theorem finishIfDone_open (hasCandidates : Bool) {batch : ImportBatch} (h : isClosed batch.status = false) :
    isClosed (finishIfDone hasCandidates batch).status = false := by
  rw [finishIfDone]
  split
  · exact h
  · split
    · rfl
    · split <;> rfl

theorem finishIfDone_sums (hasCandidates : Bool) (batch : ImportBatch) :
    (finishIfDone hasCandidates batch).chunkCount = batch.chunkCount ∧
      (finishIfDone hasCandidates batch).errorCount = batch.errorCount := by
  rw [finishIfDone]
  split
  · exact ⟨rfl, rfl⟩
  · split
    · exact ⟨rfl, rfl⟩
    · split <;> exact ⟨rfl, rfl⟩

/-- The row of the batch after a commit, whatever it was before. -/
theorem counted_row (h : Counted db loaded file inc db') {current : ImportBatch}
    (hcurrent : db.batches.get? loaded.file.importBatchId = some current) :
    ∃ row, db'.batches.get? loaded.file.importBatchId = some row ∧
      row.processedCount = loaded.batch.processedCount + 1 ∧ row.projectId = current.projectId ∧
        (isClosed loaded.batch.status = false → isClosed current.status = false → isClosed row.status = false) := by
  obtain ⟨hasCandidates, hbatches⟩ := h.saved.batches
  have hrow : db'.batches.get? loaded.file.importBatchId = some (writeBatch loaded.batch
      (finishIfDone hasCandidates (loaded.batch.processed inc.documents inc.chunks inc.errors)) current) := by
    rw [hbatches, Table.get?_modify_self, hcurrent, Option.map_some]
  refine ⟨_, hrow, ?_, rfl, fun hloaded hopen => ?_⟩
  · show writeColumn _ _ _ = _
    rw [(finishIfDone_counts hasCandidates _).1, writeColumn]
    exact if_neg (Nat.succ_ne_self _)
  · show isClosed (writeColumn _ _ _) = false
    rw [writeColumn]
    split
    · exact hopen
    · exact finishIfDone_open hasCandidates hloaded

theorem counted_file (h : Counted db loaded file inc db') (hfile : db.files.get? loaded.fileId = some loaded.file) :
    ∃ after, db'.files.get? loaded.fileId = some after ∧ after.status = file.status := by
  have hrow : db'.files.get? loaded.fileId = some (writeFile loaded.file file loaded.file) := by
    rw [h.saved.files, Table.get?_modify_self, hfile, Option.map_some]
  exact ⟨_, hrow, writeColumn_fresh _ _⟩

theorem counted_other (h : Counted db loaded file inc db') {fileId : Nat} (hne : fileId ≠ loaded.fileId) :
    db'.files.get? fileId = db.files.get? fileId := by rw [h.saved.files, Table.get?_modify_ne _ _ hne]

/-- The rows of another file of the batch can still be loaded. -/
theorem counted_load (h : Counted db loaded file inc db') {fileId : Nat} {other : LoadedFile}
    (hother : loadFile db fileId = .ok other) (hne : fileId ≠ loaded.fileId)
    (howner : other.file.importBatchId = loaded.file.importBatchId) :
    ∃ row, loadFile db' fileId = .ok { other with batch := row } := by
  obtain ⟨hid, hfile, hbatch, hproject, hboundary⟩ := loadFile_iff.mp hother
  rw [howner] at hbatch
  obtain ⟨row, hrow, -, hprojectId, -⟩ := counted_row h hbatch
  refine ⟨row, loadFile_iff.mpr ⟨hid, ?_, ?_, ?_, ?_⟩⟩
  · rw [counted_other h hne]
    exact hfile
  · show db'.batches.get? other.file.importBatchId = _
    rw [howner]
    exact hrow
  · show db'.projects.get? _ = _
    rw [h.saved.projects]
    exact hproject
  · show row.projectId = _
    rw [hprojectId]
    exact hboundary

end

/-! ## The sequential run -/

section

variable {host : Host} {db : Database} {batchId : Nat} {batch : ImportBatch}

/-- The first file of a sequential run. -/
theorem Ready.one (host : Host) {fileId : Nat} {rest : List Nat} (h : Ready db batchId batch (fileId :: rest)) :
    ∃ loaded file inc row hasCandidates,
      loadFile db fileId = .ok loaded ∧ Counted db loaded file inc (processImportFile host db fileId).2 ∧
        row = finishIfDone hasCandidates (batch.processed inc.documents inc.chunks inc.errors) ∧
          loaded.file.importBatchId = batchId ∧ Ready (processImportFile host db fileId).2 batchId row rest := by
  obtain ⟨loaded, hload, howner, hundone⟩ := h.files fileId List.mem_cons_self
  obtain ⟨hid, hfile, hbatch, hproject, hboundary⟩ := loadFile_iff.mp hload
  rw [howner, h.row] at hbatch
  obtain rfl := Option.some.inj hbatch
  rw [processImportFile_loaded hload]
  obtain ⟨file, inc, hcounted⟩ := (processLoaded_change host db loaded).counted h.opened hundone
  obtain ⟨hasCandidates, hrow⟩ := hcounted.saved.batch (current_of_load hload)
  refine ⟨loaded, file, inc, _, hasCandidates, hload, hcounted, rfl, howner, ?_, ?_, (List.nodup_cons.mp h.nodup).2, ?_⟩
  · rw [← howner]
    exact hrow
  · exact finishIfDone_open hasCandidates h.opened
  · intro other hother
    obtain ⟨loaded', hload', howner', hundone'⟩ := h.files other (List.mem_cons_of_mem _ hother)
    have hne : other ≠ loaded.fileId := by
      rintro rfl
      rw [hid] at hother
      exact (List.nodup_cons.mp h.nodup).1 hother
    obtain ⟨row, hrow'⟩ := counted_load hcounted hload' hne (howner'.trans howner.symm)
    exact ⟨_, hrow', howner', hundone'⟩

/-- The files of a sequential run that are not in it stay. -/
theorem Ready.sequential_other {ids : List Nat} (h : Ready db batchId batch ids) {fileId : Nat} (hnot : fileId ∉ ids) :
    (sequential host db ids).files.get? fileId = db.files.get? fileId := by
  induction ids generalizing db batch with
  | nil => rfl
  | cons first rest ih =>
    obtain ⟨loaded, file, inc, row, hasCandidates, hload, hcounted, -, -, hrest⟩ := h.one host
    rw [List.mem_cons, not_or] at hnot
    refine (ih hrest hnot.2).trans (counted_other hcounted ?_)
    rw [(loadFile_ok hload).1]
    exact hnot.1

/-- **The sequential run counts every file.** -/
theorem Ready.sequential_progress (host : Host) {ids : List Nat} (h : Ready db batchId batch ids) :
    ∃ row, (sequential host db ids).batches.get? batchId = some row ∧ Progress db batch ids (sequential host db ids) row := by
  induction ids generalizing db batch with
  | nil => exact ⟨batch, h.row, rfl, rfl, rfl, rfl, fun hne => absurd rfl hne⟩
  | cons first rest ih =>
    obtain ⟨loaded, file, inc, row, hasCandidates, hload, hcounted, hrow, howner, hrest⟩ := h.one host
    obtain ⟨row', hrow', hprogress⟩ := ih hrest
    obtain ⟨hid, hfile, -, -, -⟩ := loadFile_iff.mp hload
    rw [← hid] at hfile
    obtain ⟨after, hafter, hstatus⟩ := counted_file hcounted hfile
    have hlast : ∀ p : FileStatus → Bool, hasStatus (sequential host db (first :: rest)) p first = p file.status := by
      intro p
      have hother : (sequential host _ rest).files.get? first = _ := hrest.sequential_other (List.nodup_cons.mp h.nodup).1
      rw [hid] at hafter
      rw [hasStatus, show (sequential host db (first :: rest)).files.get? first = some after from hother.trans hafter,
        Option.any_some, hstatus]
    obtain ⟨hp, hs, hd, -⟩ := finishIfDone_counts hasCandidates (batch.processed inc.documents inc.chunks inc.errors)
    obtain ⟨hc, he⟩ := finishIfDone_sums hasCandidates (batch.processed inc.documents inc.chunks inc.errors)
    rw [← hrow] at hp hs hd hc he
    refine ⟨row', hrow', ?_, ?_, ?_, ?_, fun _ hle => ?_⟩
    · rw [hprogress.processed, hp, List.length_cons]
      show batch.processedCount + 1 + _ = _
      omega
    · rw [List.countP_cons, hlast, hprogress.documents, hd]
      show batch.documentCount + inc.documents + _ = _
      rw [hcounted.documents]
      simp only [decide_eq_true_eq]
      exact (Nat.add_assoc _ _ _).trans (congrArg _ (Nat.add_comm _ _))
    · have hchunks := hprogress.chunks
      rw [hcounted.chunks, hc] at hchunks
      have hbatch : (batch.processed inc.documents inc.chunks inc.errors).chunkCount = batch.chunkCount + inc.chunks := rfl
      have hsame : sequential host db (first :: rest) = sequential host (processImportFile host db first).2 rest := rfl
      rw [hsame]
      omega
    · rw [List.countP_cons, hlast, hprogress.errors, he]
      show batch.errorCount + inc.errors + _ = _
      rw [hcounted.errors]
      simp only [Bool.or_eq_true, decide_eq_true_eq]
      exact (Nat.add_assoc _ _ _).trans (congrArg _ (Nat.add_comm _ _))
    · rw [List.length_cons] at hle
      have hbatch : (batch.processed inc.documents inc.chunks inc.errors).processedCount = batch.processedCount + 1 ∧
        (batch.processed inc.documents inc.chunks inc.errors).sourceCount = batch.sourceCount := ⟨rfl, rfl⟩
      by_cases hrest' : rest = []
      · subst hrest'
        obtain rfl := Option.some.inj (hrow'.symm.trans hrest.row)
        rcases finishIfDone_status hasCandidates (batch.processed inc.documents inc.chunks inc.errors) with
          ⟨hless, -⟩ | ⟨-, hinactive, -⟩
        · rw [hbatch.1, hbatch.2] at hless
          rw [List.length_nil] at hle
          omega
        · rw [hrow]
          exact hinactive
      · refine hprogress.left hrest' ?_
        rw [hs, hp, hbatch.1, hbatch.2]
        omega

end

/-! ## The interleaved run -/

/-- An open transaction, whose file no other one writes. -/
structure Pending (db : Database) (batchId : Nat) (loaded : LoadedFile) : Prop where
  load : ∃ row, loadFile db loaded.fileId = .ok { loaded with batch := row }
  owner : loaded.file.importBatchId = batchId
  undone : isDone loaded.file.status = false
  opened : isClosed loaded.batch.status = false

structure Inv (batchId : Nat) (ids : List Nat) (s : System) : Prop where
  row : ∃ row, s.db.batches.get? batchId = some row ∧ isClosed row.status = false
  waiting : ∀ fileId ∈ s.waiting, ∃ loaded, loadFile s.db fileId = .ok loaded ∧ loaded.file.importBatchId = batchId ∧
    isDone loaded.file.status = false
  opened : ∀ loaded ∈ s.opened, Pending s.db batchId loaded
  files : (s.waiting ++ (s.opened.map LoadedFile.fileId ++ s.committed)).Perm ids
  nodup : ids.Nodup

/-- What a step does: nothing, or a transaction begins or commits. -/
inductive Moved (host : Host) (s : System) : Step → System → Prop
  | same (i : Step) (still : ∀ fileId, i = .commit fileId → ∀ loaded ∈ s.opened, loaded.fileId ≠ fileId) : Moved host s i s
  | read (fileId : Nat) (loaded : LoadedFile) (waiting : fileId ∈ s.waiting) (load : loadFile s.db fileId = .ok loaded) :
      Moved host s (.read fileId) { s with waiting := s.waiting.erase fileId, opened := loaded :: s.opened }
  | commit (loaded : LoadedFile) (before after : List LoadedFile) (opened : s.opened = before ++ loaded :: after) :
      Moved host s (.commit loaded.fileId)
        ⟨(processLoaded host s.db loaded).2, s.waiting, before ++ after, s.committed ++ [loaded.fileId]⟩

section

variable {host : Host} {db : Database} {batchId : Nat} {batch : ImportBatch} {ids : List Nat} {s s' : System}

theorem step_moved (host : Host) (hinv : Inv batchId ids s) (i : Step) : Moved host s i (step host s i).2 := by
  cases i with
  | read fileId =>
    rw [step]
    split
    · next hwaiting =>
      obtain ⟨loaded, hload, -, -⟩ := hinv.waiting fileId hwaiting
      rw [hload]
      exact .read fileId loaded hwaiting hload
    · exact .same _ nofun
  | commit fileId =>
    rw [step]
    split
    · next hnone =>
      refine .same _ fun other hother loaded hmem hid => ?_
      cases hother
      have hfalse := List.find?_eq_none.mp hnone loaded hmem
      exact hfalse (decide_eq_true hid)
    · next loaded hfound =>
      obtain ⟨hid, before, after, hopened, hbefore⟩ := List.find?_eq_some_iff_append.mp hfound
      obtain rfl := of_decide_eq_true hid
      have herase : (s.opened.eraseP fun other => other.fileId = loaded.fileId) = before ++ after := by
        rw [hopened, List.eraseP_append_right _ fun other hother => by simpa using hbefore other hother,
          List.eraseP_cons_of_pos (p := fun other : LoadedFile => other.fileId = loaded.fileId) hid]
      rw [herase]
      exact .commit loaded before after hopened

theorem inv_start (h : Ready db batchId batch ids) : Inv batchId ids (start db ids) :=
  ⟨⟨batch, h.row, h.opened⟩, h.files, fun _ hmem => absurd hmem List.not_mem_nil, by simp [start], h.nodup⟩

/-- The other open transactions, and the files that wait, are of other files. -/
theorem Inv.others (hinv : Inv batchId ids s) {loaded : LoadedFile} {before after : List LoadedFile}
    (hopened : s.opened = before ++ loaded :: after) :
    (∀ fileId ∈ s.waiting, fileId ≠ loaded.fileId) ∧ ∀ other ∈ before ++ after, other.fileId ≠ loaded.fileId := by
  have hnodup := hinv.files.nodup_iff.mpr hinv.nodup
  rw [hopened, List.map_append, List.map_cons] at hnodup
  have hperm : (s.waiting ++ before.map LoadedFile.fileId ++
      loaded.fileId :: (after.map LoadedFile.fileId ++ s.committed)).Perm (loaded.fileId ::
        (s.waiting ++ before.map LoadedFile.fileId ++ (after.map LoadedFile.fileId ++ s.committed))) := List.perm_middle
  have hnot := (List.nodup_cons.mp (hperm.nodup_iff.mp (by simpa using hnodup))).1
  simp only [List.mem_append, List.mem_map, not_or, not_exists, not_and] at hnot
  refine ⟨fun fileId hwaiting heq => hnot.1.1 (heq ▸ hwaiting), fun other hother heq => ?_⟩
  rcases List.mem_append.mp hother with hmem | hmem
  · exact hnot.1.2 other hmem heq
  · exact hnot.2.1 other hmem heq

theorem Inv.pending (hinv : Inv batchId ids s) {loaded : LoadedFile} {before after : List LoadedFile}
    (hopened : s.opened = before ++ loaded :: after) : Pending s.db batchId loaded :=
  hinv.opened loaded (by rw [hopened]; exact List.mem_append_right _ List.mem_cons_self)

theorem Inv.counted (host : Host) (hinv : Inv batchId ids s) {loaded : LoadedFile} {before after : List LoadedFile}
    (hopened : s.opened = before ++ loaded :: after) :
    ∃ file inc, Counted s.db loaded file inc (processLoaded host s.db loaded).2 :=
  (processLoaded_change host s.db loaded).counted (hinv.pending hopened).opened (hinv.pending hopened).undone

/-- Every step keeps the invariant. -/
theorem Inv.moved (hinv : Inv batchId ids s) {i : Step} (h : Moved host s i s') : Inv batchId ids s' := by
  cases h with
  | same i still => exact hinv
  | read fileId loaded hwaiting hload =>
    obtain ⟨loaded', hload', howner, hundone⟩ := hinv.waiting fileId hwaiting
    obtain rfl := Except.ok.inj (hload.symm.trans hload')
    obtain ⟨hid, -, hbatch, -, -⟩ := loadFile_iff.mp hload
    obtain ⟨row, hrow, hopen⟩ := hinv.row
    rw [howner, hrow] at hbatch
    refine ⟨hinv.row, fun other hother => hinv.waiting other (List.mem_of_mem_erase hother), ?_, ?_, hinv.nodup⟩
    · intro other hother
      rcases List.mem_cons.mp hother with rfl | hother
      · exact ⟨⟨_, hid ▸ hload⟩, howner, hundone, Option.some.inj hbatch ▸ hopen⟩
      · exact hinv.opened other hother
    · refine List.Perm.trans ?_ hinv.files
      show (s.waiting.erase fileId ++ (loaded.fileId :: _ ++ _)).Perm _
      rw [hid, List.cons_append]
      exact List.perm_middle.trans ((List.perm_cons_erase hwaiting).symm.append_right _)
  | commit loaded before after hopened =>
    obtain ⟨hwaitingNe, hopenedNe⟩ := hinv.others hopened
    have hpending := hinv.pending hopened
    obtain ⟨file, inc, hcounted⟩ := hinv.counted host hopened
    obtain ⟨row, hrow, hopen⟩ := hinv.row
    rw [← hpending.owner] at hrow
    obtain ⟨row', hrow', -, -, hopen'⟩ := counted_row hcounted hrow
    refine ⟨⟨row', hpending.owner ▸ hrow', hopen' hpending.opened hopen⟩, ?_, ?_, ?_, hinv.nodup⟩
    · intro fileId hwaiting
      obtain ⟨other, hload, howner, hundone⟩ := hinv.waiting fileId hwaiting
      obtain ⟨row, hload'⟩ := counted_load hcounted hload (hwaitingNe fileId hwaiting)
        (howner.trans hpending.owner.symm)
      exact ⟨_, hload', howner, hundone⟩
    · intro other hother
      have hmem : other ∈ s.opened := by
        rw [hopened]
        rcases List.mem_append.mp hother with h | h
        · exact List.mem_append_left _ h
        · exact List.mem_append_right _ (List.mem_cons_of_mem _ h)
      obtain ⟨⟨row, hload⟩, howner, hundone, hopen⟩ := hinv.opened other hmem
      obtain ⟨row', hload'⟩ := counted_load hcounted hload (hopenedNe other hother) (howner.trans hpending.owner.symm)
      exact ⟨⟨row', hload'⟩, howner, hundone, hopen⟩
    · refine List.Perm.trans ?_ hinv.files
      rw [hopened]
      simp only [List.map_append, List.map_cons, List.append_assoc]
      refine List.Perm.append_left _ (List.Perm.append_left _ ?_)
      rw [← List.append_assoc]
      exact (List.perm_append_singleton _ _).trans (List.Perm.refl _)

/-! ## No commit has been late, or one has -/

/-- No commit has found another row of the batch than its transaction has read. -/
structure OnTime (host : Host) (db : Database) (batchId : Nat) (batch : ImportBatch) (s : System) : Prop where
  row : ∃ row, s.db.batches.get? batchId = some row ∧ row.processedCount = batch.processedCount + s.committed.length ∧
    ∀ loaded ∈ s.opened, loaded.batch.processedCount ≤ row.processedCount ∧
      (loaded.batch.processedCount = row.processedCount → loaded.batch = row)
  run : s.db = sequential host db s.committed

/-- A file has been lost. -/
structure Behind (batchId : Nat) (batch : ImportBatch) (s : System) : Prop where
  row : ∃ row, s.db.batches.get? batchId = some row ∧ row.processedCount < batch.processedCount + s.committed.length
  opened : ∀ loaded ∈ s.opened, loaded.batch.processedCount < batch.processedCount + s.committed.length

theorem mem_of_opened {loaded other : LoadedFile} {before after : List LoadedFile}
    (hopened : s.opened = before ++ loaded :: after) (hother : other ∈ before ++ after) : other ∈ s.opened := by
  rw [hopened]
  rcases List.mem_append.mp hother with h | h
  · exact List.mem_append_left _ h
  · exact List.mem_append_right _ (List.mem_cons_of_mem _ h)

theorem onTime_start (host : Host) (h : Ready db batchId batch ids) : OnTime host db batchId batch (start db ids) :=
  ⟨⟨batch, h.row, rfl, fun _ hmem => absurd hmem List.not_mem_nil⟩, rfl⟩

/-- The row that a commit writes. -/
theorem Inv.committed_row (host : Host) (hinv : Inv batchId ids s) {loaded : LoadedFile} {before after : List LoadedFile}
    (hopened : s.opened = before ++ loaded :: after) :
    ∃ row, (processLoaded host s.db loaded).2.batches.get? batchId = some row ∧
      row.processedCount = loaded.batch.processedCount + 1 := by
  obtain ⟨file, inc, hcounted⟩ := hinv.counted host hopened
  obtain ⟨current, hcurrent, -⟩ := hinv.row
  rw [← (hinv.pending hopened).owner] at hcurrent ⊢
  obtain ⟨row, hrow, hprocessed, -, -⟩ := counted_row hcounted hcurrent
  exact ⟨row, hrow, hprocessed⟩

theorem OnTime.moved (hinv : Inv batchId ids s) (h : OnTime host db batchId batch s) {i : Step}
    (hmoved : Moved host s i s') (hfresh : Fresh s i) : OnTime host db batchId batch s' := by
  obtain ⟨row, hrow, hprocessed, hopen⟩ := h.row
  cases hmoved with
  | same i still => exact h
  | read fileId loaded hwaiting hload =>
    refine ⟨⟨row, hrow, hprocessed, fun other hother => ?_⟩, h.run⟩
    rcases List.mem_cons.mp hother with rfl | hother
    · obtain ⟨loaded', hload', howner, -⟩ := hinv.waiting fileId hwaiting
      obtain rfl := Except.ok.inj (hload.symm.trans hload')
      have hbatch := (loadFile_iff.mp hload).2.2.1
      rw [howner, hrow] at hbatch
      rw [Option.some.inj hbatch]
      exact ⟨le_rfl, fun _ => rfl⟩
    · exact hopen other hother
  | commit loaded before after hopened =>
    have hpending := hinv.pending hopened
    have hbatch := hfresh loaded (by rw [hopened]; exact List.mem_append_right _ List.mem_cons_self) rfl
    have hsame := hbatch
    rw [hpending.owner, hrow] at hsame
    obtain rfl := Option.some.inj hsame
    obtain ⟨row', hrow', hprocessed'⟩ := hinv.committed_row host hopened
    refine ⟨⟨row', hrow', ?_, fun other hother => ?_⟩, ?_⟩
    · rw [hprocessed', hprocessed, List.length_append, List.length_singleton]
      exact Nat.add_assoc _ _ _
    · have hle := (hopen other (mem_of_opened hopened hother)).1
      exact ⟨by omega, fun heq => by omega⟩
    · -- the transaction has read what the sequential run would read
      obtain ⟨row, hload⟩ := hpending.load
      have hloaded := (loadFile_iff.mp hload).2.2.1
      obtain rfl : loaded.batch = row := Option.some.inj (hbatch.symm.trans hloaded)
      show (processLoaded host s.db loaded).2 = sequential host db (s.committed ++ [loaded.fileId])
      rw [sequential, List.foldl_append]
      show _ = (processImportFile host (sequential host db s.committed) loaded.fileId).2
      rw [← h.run]
      exact (processImportFile_loaded hload).symm

/-- The first late commit loses a file. -/
theorem OnTime.stale (hinv : Inv batchId ids s) (h : OnTime host db batchId batch s) {i : Step}
    (hmoved : Moved host s i s') (hstale : ¬Fresh s i) : Behind batchId batch s' := by
  obtain ⟨row, hrow, hprocessed, hopen⟩ := h.row
  cases hmoved with
  | same i still =>
    refine absurd ?_ hstale
    cases i with
    | read fileId => trivial
    | commit fileId => exact fun loaded hmem hid => absurd hid (still fileId rfl loaded hmem)
  | read fileId loaded hwaiting hload => exact absurd trivial hstale
  | commit loaded before after hopened =>
    have hmem : loaded ∈ s.opened := by rw [hopened]; exact List.mem_append_right _ List.mem_cons_self
    have hne : loaded.batch ≠ row := by
      rintro rfl
      refine hstale fun other hother hid => ?_
      rw [hopened] at hother
      have hsame : other = loaded := by
        rcases List.mem_append.mp hother with hother | hother
        · exact absurd hid ((hinv.others hopened).2 other (List.mem_append_left _ hother))
        · rcases List.mem_cons.mp hother with rfl | hother
          · rfl
          · exact absurd hid ((hinv.others hopened).2 other (List.mem_append_right _ hother))
      rw [hsame, (hinv.pending hopened).owner]
      exact hrow
    obtain ⟨hle, heq⟩ := hopen loaded hmem
    have hlt : loaded.batch.processedCount < row.processedCount := lt_of_le_of_ne hle fun h => hne (heq h)
    obtain ⟨row', hrow', hprocessed'⟩ := hinv.committed_row host hopened
    refine ⟨⟨row', hrow', ?_⟩, fun other hother => ?_⟩
    · rw [List.length_append, List.length_singleton]
      omega
    · have hother' := (hopen other (mem_of_opened hopened hother)).1
      rw [List.length_append, List.length_singleton]
      omega

/-- What has been lost stays lost. -/
theorem Behind.moved (hinv : Inv batchId ids s) (h : Behind batchId batch s) {i : Step} (hmoved : Moved host s i s') :
    Behind batchId batch s' := by
  obtain ⟨row, hrow, hless⟩ := h.row
  cases hmoved with
  | same i still => exact h
  | read fileId loaded hwaiting hload =>
    refine ⟨⟨row, hrow, hless⟩, fun other hother => ?_⟩
    rcases List.mem_cons.mp hother with rfl | hother
    · obtain ⟨loaded', hload', howner, -⟩ := hinv.waiting fileId hwaiting
      obtain rfl := Except.ok.inj (hload.symm.trans hload')
      have hbatch := (loadFile_iff.mp hload).2.2.1
      rw [howner, hrow] at hbatch
      rw [← Option.some.inj hbatch]
      exact hless
    · exact h.opened other hother
  | commit loaded before after hopened =>
    have hmem : loaded ∈ s.opened := by rw [hopened]; exact List.mem_append_right _ List.mem_cons_self
    have hloaded := h.opened loaded hmem
    obtain ⟨row', hrow', hprocessed'⟩ := hinv.committed_row host hopened
    refine ⟨⟨row', hrow', ?_⟩, fun other hother => ?_⟩
    · rw [List.length_append, List.length_singleton]
      omega
    · have hother' := h.opened other (mem_of_opened hopened hother)
      rw [List.length_append, List.length_singleton]
      omega

/-! ## Runs -/

theorem inv_run (host : Host) (hinv : Inv batchId ids s) (steps : List Step) : Inv batchId ids (Trace.exec (step host) s steps) :=
  Trace.exec_invariant (fun _ i h => h.moved (step_moved host h i)) hinv steps

theorem onTime_run (hinv : Inv batchId ids s) (h : OnTime host db batchId batch s) {steps : List Step}
    (hfresh : Trace.Always (step host) Fresh s steps) : OnTime host db batchId batch (Trace.exec (step host) s steps) := by
  induction steps generalizing s with
  | nil => exact h
  | cons i rest ih =>
    have hmoved := step_moved host hinv i
    exact ih (hinv.moved hmoved) (h.moved hinv hmoved hfresh.1) hfresh.2

theorem behind_run (hinv : Inv batchId ids s) (h : Behind batchId batch s) (steps : List Step) :
    Behind batchId batch (Trace.exec (step host) s steps) := by
  induction steps generalizing s with
  | nil => exact h
  | cons i rest ih =>
    have hmoved := step_moved host hinv i
    exact ih (hinv.moved hmoved) (h.moved hinv hmoved)

/-- After a late commit the counter of a run stays behind. -/
theorem stale_run (hinv : Inv batchId ids s) (h : OnTime host db batchId batch s) {steps : List Step}
    (hstale : ¬Trace.Always (step host) Fresh s steps) : Behind batchId batch (Trace.exec (step host) s steps) := by
  induction steps generalizing s with
  | nil => exact absurd trivial hstale
  | cons i rest ih =>
    have hmoved := step_moved host hinv i
    by_cases hfresh : Fresh s i
    · exact ih (hinv.moved hmoved) (h.moved hinv hmoved hfresh) fun hrest => hstale ⟨hfresh, hrest⟩
    · exact behind_run (hinv.moved hmoved) (h.stale hinv hmoved hfresh) rest

/-- The files of a run that has ended are those that have committed. -/
theorem Inv.ended (hinv : Inv batchId ids s) (hended : Ended s) : s.committed.Perm ids := by
  have hfiles := hinv.files
  rw [hended.1, hended.2] at hfiles
  exact hfiles

theorem Ready.perm (h : Ready db batchId batch ids) {order : List Nat} (hperm : order.Perm ids) :
    Ready db batchId batch order :=
  ⟨h.row, h.opened, hperm.nodup_iff.mpr h.nodup, fun fileId hmem => h.files fileId (hperm.mem_iff.mp hmem)⟩

theorem Progress.perm {order : List Nat} {db' : Database} {batch' : ImportBatch} (h : Progress db batch order db' batch')
    (hperm : order.Perm ids) : Progress db batch ids db' batch' := by
  refine ⟨?_, ?_, h.chunks, ?_, fun hne hle => h.left ?_ ?_⟩
  · rw [h.processed, hperm.length_eq]
  · rw [h.documents, hperm.countP_eq]
  · rw [h.errors, hperm.countP_eq]
  · rintro rfl
    exact hne hperm.nil_eq.symm
  · rw [hperm.length_eq]
    exact hle

/-- **Files of one batch that are processed at the same time lose no progress exactly when every commit
finds the row of the batch that its transaction has read.** -/
theorem progress_iff (host : Host) (hready : Ready db batchId batch ids) (steps : List Step)
    (hended : Ended (Trace.exec (step host) (start db ids) steps)) :
    Agrees host db batchId batch ids (Trace.exec (step host) (start db ids) steps) ↔
      Trace.Always (step host) Fresh (start db ids) steps := by
  have hinv := inv_run host (inv_start hready) steps
  have hperm := hinv.ended hended
  constructor
  · intro hagrees
    by_contra hstale
    obtain ⟨row, hrow, hless⟩ := (stale_run (inv_start hready) (onTime_start host hready) hstale).row
    obtain ⟨batch', hbatch', hprogress⟩ := hagrees.progress
    obtain rfl := Option.some.inj (hrow.symm.trans hbatch')
    rw [hprogress.processed, hperm.length_eq] at hless
    exact Nat.lt_irrefl _ hless
  · intro hfresh
    have hrun := (onTime_run (inv_start hready) (onTime_start host hready) hfresh).run
    obtain ⟨row, hrow, hprogress⟩ := (hready.perm hperm).sequential_progress host
    rw [← hrun] at hrow hprogress
    refine ⟨⟨row, hrow, hprogress.perm hperm⟩, ?_⟩
    rw [← hrun]

end

/-! ## Two files -/

def queuedBatch : ImportBatch where
  projectId := 0
  scopeId := 0
  status := .queued
  scopeKey := "project"
  sourceCount := 2

def queuedFile (name content : String) : ImportFile where
  projectId := 0
  scopeId := 0
  importBatchId := 0
  sourceName := name
  sourceType := "text"
  sizeBytes := content.utf8ByteSize
  contentHash := content
  stored := ⟨"database", "db://import-files/0/" ++ content, some content⟩
  status := .queued

/-- A batch with two files that have been queued. -/
def twoQueued : Database :=
  { initial oneProject with
    batches := Table.empty.insert queuedBatch
    files := (Table.empty.insert (queuedFile "a.txt" "first")).insert (queuedFile "b.txt" "second") }

theorem twoQueued_ready : Ready twoQueued 0 queuedBatch [0, 1] := by
  refine ⟨rfl, rfl, by decide, fun fileId hmem => ?_⟩
  rcases List.mem_cons.mp hmem with rfl | hmem
  · exact ⟨⟨0, queuedFile "a.txt" "first", queuedBatch, "memory"⟩, rfl, rfl, rfl⟩
  · obtain rfl := List.mem_singleton.mp hmem
    exact ⟨⟨1, queuedFile "b.txt" "second", queuedBatch, "memory"⟩, rfl, rfl, rfl⟩

/-- One file after the other, from `progress_iff`. -/
theorem progress_twoQueued :
    Agrees textHost twoQueued 0 queuedBatch [0, 1]
        (Trace.exec (step textHost) (start twoQueued [0, 1]) [.read 0, .commit 0, .read 1, .commit 1]) ↔
      Trace.Always (step textHost) Fresh (start twoQueued [0, 1]) [.read 0, .commit 0, .read 1, .commit 1] :=
  progress_iff textHost twoQueued_ready [.read 0, .commit 0, .read 1, .commit 1] ⟨by decide, by decide⟩

/-- Two transactions that read the batch before either commits count one file. -/
theorem interleaved_lost :
    Ready twoQueued 0 queuedBatch [0, 1] ∧
      Ended (Trace.exec (step textHost) (start twoQueued [0, 1]) [.read 0, .read 1, .commit 0, .commit 1]) ∧
      ¬Agrees textHost twoQueued 0 queuedBatch [0, 1]
        (Trace.exec (step textHost) (start twoQueued [0, 1]) [.read 0, .read 1, .commit 0, .commit 1]) := by
  refine ⟨twoQueued_ready, ⟨by decide, by decide⟩, fun hagrees => ?_⟩
  obtain ⟨row, hrow, hprogress⟩ := hagrees.progress
  have hcount : ((Trace.exec (step textHost) (start twoQueued [0, 1])
      [.read 0, .read 1, .commit 0, .commit 1]).db.batches.get? 0).map ImportBatch.processedCount = some 1 := by
    decide
  rw [hrow, Option.map_some, hprogress.processed] at hcount
  exact absurd hcount (by decide)

end CodexMemory.Import.Concurrent
