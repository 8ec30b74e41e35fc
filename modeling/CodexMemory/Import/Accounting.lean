import CodexMemory.Import.Counters

/-!
# The counters of an import batch

`accounted_iff`: the counters of every batch are right throughout a run exactly when
it is orderly: no batch is started over files that have failed, or with nothing left
to process, and no file is processed that has failed, that is finished in a closed
batch, or that is quarantined.
-/

namespace CodexMemory.Import

open Worker (BatchStatus FileStatus Time)

/-! ## The system -/

inductive Call
  | createBatch (projectId scopeId : Nat) (scopeKey : String)
  | addFiles (batchId : Nat) (items : List ImportItem)
  | startBatch (now : Time) (batchId : Nat)
  | retryBatch (now : Time) (batchId : Nat)
  | cancelImportBatch (now : Time) (batchId : Nat)
  | processImportFile (fileId : Nat)

inductive Reply
  | number (result : Except ImportError Nat)
  | done (result : Except ImportError Unit)
  | processed (result : Except ImportError Processed)

def step (host : Host) (db : Database) : Call → Reply × Database
  | .createBatch projectId scopeId scopeKey =>
    (.number (createBatch db projectId scopeId scopeKey).1, (createBatch db projectId scopeId scopeKey).2)
  | .addFiles batchId items => (.number (addFiles host db batchId items).1, (addFiles host db batchId items).2)
  | .startBatch now batchId => (.number (startBatch db now batchId).1, (startBatch db now batchId).2)
  | .retryBatch now batchId => (.number (retryBatch db now batchId).1, (retryBatch db now batchId).2)
  | .cancelImportBatch now batchId =>
    (.done (cancelImportBatch db now batchId).1, (cancelImportBatch db now batchId).2)
  | .processImportFile fileId =>
    (.processed (processImportFile host db fileId).1, (processImportFile host db fileId).2)

/-! ## What is claimed -/

/-- A call does what the accounting asks of it: the counters are right afterwards, processing a
finished file changes nothing, and processing a file ends an active batch exactly when no file is
left. -/
structure GoodCall (host : Host) (db : Database) (call : Call) : Prop where
  accounted : ∀ batchId batch, (step host db call).2.batches.get? batchId = some batch →
    Accounted (step host db call).2 batchId batch
  again : ∀ fileId file, call = .processImportFile fileId → db.files.get? fileId = some file →
    finished file.status = true → (step host db call).2 = db
  leaves : ∀ fileId file batch batch', call = .processImportFile fileId → db.files.get? fileId = some file →
    db.batches.get? file.importBatchId = some batch → isActive batch.status = true →
    (step host db call).2.batches.get? file.importBatchId = some batch' →
    (isActive batch'.status = false ↔ ∀ f ∈ (step host db call).2.filesOf file.importBatchId, finished f.2.status = true)

/-- The calls that the counters stand: a batch is started when no file has failed and one is left to
process; a file is processed when it has not failed and is not quarantined, and in a closed batch only
when it is unfinished. -/
def Orderly (host : Host) (db : Database) : Call → Prop
  | .startBatch _ batchId => ∀ batch, db.batches.get? batchId = some batch → isOpen batch.status = true →
      db.filesOf batchId ≠ [] →
      (∀ f ∈ db.filesOf batchId, f.2.status ≠ .failed) ∧ ∃ f ∈ db.filesOf batchId, finished f.2.status = false
  | .processImportFile fileId => ∀ loaded, loadFile db fileId = .ok loaded →
      if isClosed loaded.batch.status then finished loaded.file.status = false
      else
        loaded.file.status ≠ .failed ∧
          (isDone loaded.file.status = false →
            db.documentWithHash loaded.file.projectId loaded.file.contentHash = none →
            ∀ content parts, readParts host loaded.file = .ok (content, parts) →
              injected host.table content.toList = false)
  | _ => True

/-! ## Orderly calls keep the invariant -/

section

variable {host : Host} {db db' : Database}

theorem finished_of_undone {status : FileStatus} (hundone : isDone status = false) (hfailed : status ≠ .failed) :
    finished status = false := by
  rw [finished, hundone, Bool.false_or]
  exact decide_eq_false hfailed

/-- A file is processed that is unfinished, or done in a batch that is not closed. -/
theorem processed_ok (hok : Ok db) {fileId : Nat} {loaded : LoadedFile} (hload : loadFile db fileId = .ok loaded)
    (horderly : Orderly host db (.processImportFile fileId)) (hchange : ProcessChange host db loaded db') : Ok db' := by
  have hcurrent := current_of_load hload
  have hguard := horderly loaded hload
  cases hchange with
  | closed hclosed =>
    rw [if_pos hclosed] at hguard
    exact closed_ok hok hcurrent hguard rfl
  | done hopen hdone => exact hok
  | failed file hopen hundone hstatus hsaved hdocuments hchunks hcandidates =>
    rw [if_neg (by rw [hopen]; exact Bool.false_ne_true)] at hguard
    exact unchanged_ok hok hcurrent hsaved (finished_of_undone hundone hguard.1) hdocuments rfl
  | duplicate file hopen hundone hstatus hsaved hdocuments hchunks hcandidates =>
    rw [if_neg (by rw [hopen]; exact Bool.false_ne_true)] at hguard
    exact unchanged_ok hok hcurrent hsaved (finished_of_undone hundone hguard.1) hdocuments rfl
  | quarantined file content parts document hopen hundone hread hinjected hunique hstatus hsaved howner hdocuments
      hchunks hcandidates =>
    rw [if_neg (by rw [hopen]; exact Bool.false_ne_true)] at hguard
    rw [hguard.2 hundone hunique content parts hread] at hinjected
    cases hinjected
  | parsed file content parts document source hopen hundone hread hclean hunique hstatus hsaved howner hdocuments
      hdocumentId hchunks hcandidates =>
    rw [if_neg (by rw [hopen]; exact Bool.false_ne_true)] at hguard
    exact inserted_ok hok hcurrent hsaved (finished_of_undone hundone hguard.1) howner hdocuments rfl

/-- A batch is started over files none of which has failed and one of which is left. -/
theorem startBatch_ok (hok : Ok db) {now : Time} {batchId : Nat} (horderly : Orderly host db (.startBatch now batchId)) :
    Ok (startBatch db now batchId).2 := by
  rcases startBatch_effect db now batchId with h | ⟨batch, h⟩
  · rw [h]
    exact hok
  · obtain ⟨hfailed, f, hf, hleft⟩ := horderly batch h.row h.opened h.nonempty
    refine started_ok hok h ?_ (countFiles_pos.mpr ⟨f, hf, by rw [hleft]; rfl⟩)
    rw [← Nat.le_zero, ← Nat.not_lt, countFiles_pos]
    rintro ⟨g, hg, hstatus⟩
    exact hfailed g hg (of_decide_eq_true hstatus)

theorem retryBatch_ok (hok : Ok db) (now : Time) (batchId : Nat) : Ok (retryBatch db now batchId).2 := by
  rcases retryBatch_effect db now batchId with h | ⟨batch, db₁, hreopened, h⟩
  · rw [h]
    exact hok
  · rw [h]
    have hok₁ := reopened_ok hok hreopened
    obtain ⟨hfailed, hleft⟩ := reopened_files hreopened
    rcases startBatch_effect db₁ now batchId with h' | ⟨batch', h'⟩
    · rw [h']
      exact hok₁
    · exact started_ok hok₁ h' hfailed hleft

/-- **An orderly call keeps the invariant.** -/
theorem step_ok (hok : Ok db) (call : Call) (horderly : Orderly host db call) : Ok (step host db call).2 := by
  cases call with
  | createBatch projectId scopeId scopeKey => exact createBatch_ok hok projectId scopeId scopeKey
  | addFiles batchId items =>
    rcases addFiles_effect host db batchId items with h | ⟨batch, added, h⟩
    · rw [show (step host db (.addFiles batchId items)).2 = db from h]
      exact hok
    · exact uploaded_ok hok h
  | startBatch now batchId => exact startBatch_ok hok horderly
  | retryBatch now batchId => exact retryBatch_ok hok now batchId
  | cancelImportBatch now batchId =>
    rcases cancelImportBatch_effect db now batchId with h | ⟨batch, h⟩
    · rw [show (step host db (.cancelImportBatch now batchId)).2 = db from h]
      exact hok
    · exact cancelled_ok hok h
  | processImportFile fileId =>
    rcases processImportFile_effect host db fileId with h | ⟨loaded, hload, h⟩
    · rw [show (step host db (.processImportFile fileId)).2 = db from h]
      exact hok
    · exact processed_ok hok hload horderly h

/-! ## Orderly calls do what is claimed -/

/-- An open batch processes only unfinished files. -/
theorem Orderly.unfinished {fileId : Nat} {loaded : LoadedFile} (horderly : Orderly host db (.processImportFile fileId))
    (hload : loadFile db fileId = .ok loaded) (hopen : isClosed loaded.batch.status = false)
    (hundone : isDone loaded.file.status = false) : finished loaded.file.status = false := by
  have hguard := horderly loaded hload
  rw [if_neg (by rw [hopen]; exact Bool.false_ne_true)] at hguard
  exact finished_of_undone hundone hguard.1

/-- Processing a finished file again changes nothing. -/
theorem processed_again {fileId : Nat} {loaded : LoadedFile} (horderly : Orderly host db (.processImportFile fileId))
    (hload : loadFile db fileId = .ok loaded) (hchange : ProcessChange host db loaded db')
    (hfinished : finished loaded.file.status = true) : db' = db := by
  cases hchange with
  | closed hclosed =>
    have hguard := horderly loaded hload
    rw [if_pos hclosed, hfinished] at hguard
    cases hguard
  | done hopen hdone => rfl
  | failed file hopen hundone | duplicate file hopen hundone | quarantined file content parts document hopen hundone
  | parsed file content parts document source hopen hundone =>
    rw [horderly.unfinished hload hopen hundone] at hfinished
    cases hfinished

/-- A batch that was active and no longer is has all its files processed. -/
theorem Saved.all_processed {loaded : LoadedFile} {file : ImportFile} {inc : Increment} {batch' : ImportBatch}
    (h : Saved db loaded file inc db') (hcurrent : Current db loaded) (hactive : isActive loaded.batch.status = true)
    (hbatch' : db'.batches.get? loaded.file.importBatchId = some batch') (hinactive : isActive batch'.status = false) :
    batch'.sourceCount ≤ batch'.processedCount := by
  obtain ⟨hasCandidates, hrow⟩ := h.batch hcurrent
  obtain rfl := Option.some.inj (hbatch'.symm.trans hrow)
  obtain ⟨hp, hs, -, -⟩ := finishIfDone_counts hasCandidates (loaded.batch.processed inc.documents inc.chunks inc.errors)
  rcases finishIfDone_status hasCandidates (loaded.batch.processed inc.documents inc.chunks inc.errors) with
    ⟨-, hsame⟩ | ⟨hle, -, -⟩
  · rw [hsame, show (loaded.batch.processed inc.documents inc.chunks inc.errors).status = loaded.batch.status from rfl,
      hactive] at hinactive
    cases hinactive
  · rw [hp, hs]
    exact hle

/-- Where a batch agrees with its files, it has none left exactly when all are finished. -/
theorem BatchOk.all_finished {batchId : Nat} {batch : ImportBatch} (h : BatchOk db.files db.documents batchId batch)
    (hle : batch.sourceCount ≤ batch.processedCount) : ∀ f ∈ db.filesOf batchId, finished f.2.status = true := by
  intro f hf
  rw [h.source, h.processed, countFiles_all db.files batchId finished] at hle
  by_contra hunfinished
  have hpos : 0 < countFiles db.files batchId fun s => !finished s :=
    countFiles_pos.mpr ⟨f, hf, by simpa using hunfinished⟩
  omega

/-- Processing a file of an active batch ends it exactly when no file is left. -/
theorem processed_leaves (hok : Ok db) {fileId : Nat} {loaded : LoadedFile} {batch' : ImportBatch}
    (horderly : Orderly host db (.processImportFile fileId)) (hload : loadFile db fileId = .ok loaded)
    (hchange : ProcessChange host db loaded db') (hactive : isActive loaded.batch.status = true)
    (hbatch' : db'.batches.get? loaded.file.importBatchId = some batch') :
    isActive batch'.status = false ↔ ∀ f ∈ db'.filesOf loaded.file.importBatchId, finished f.2.status = true := by
  have hcurrent := current_of_load hload
  have hrow := (processed_ok hok hload horderly hchange).batches _ _ hbatch'
  constructor
  · intro hinactive
    refine hrow.all_finished ?_
    cases hchange with
    | closed hclosed =>
      cases hs : loaded.batch.status <;> simp [hs, isClosed, isActive] at hclosed hactive
    | done hopen hdone =>
      obtain rfl := Option.some.inj (hbatch'.symm.trans hcurrent.batch)
      rw [hactive] at hinactive
      cases hinactive
    | failed file hopen hundone hstatus hsaved | duplicate file hopen hundone hstatus hsaved
    | quarantined file content parts document hopen hundone hread hinjected hunique hstatus hsaved
    | parsed file content parts document source hopen hundone hread hclean hunique hstatus hsaved =>
      exact hsaved.all_processed hcurrent hactive hbatch' hinactive
  · intro hall
    by_contra hstill
    obtain ⟨f, hf, hleft⟩ := countFiles_pos.mp (hrow.active (by simpa using hstill))
    rw [hall f hf] at hleft
    cases hleft

theorem goodCall_of_orderly (hok : Ok db) (call : Call) (horderly : Orderly host db call) : GoodCall host db call := by
  refine ⟨fun batchId batch h => ((step_ok hok call horderly).batches batchId batch h).accounted, ?_, ?_⟩
  · rintro fileId file rfl hfile hfinished
    rcases processImportFile_effect host db fileId with h | ⟨loaded, hload, h⟩
    · exact h
    · obtain ⟨-, hloaded, -, -⟩ := loadFile_ok hload
      obtain rfl := Option.some.inj (hfile.symm.trans hloaded)
      exact processed_again horderly hload h hfinished
  · rintro fileId file batch batch' rfl hfile hbatch hactive hbatch'
    rcases processImportFile_effect host db fileId with h | ⟨loaded, hload, h⟩
    · rw [show (step host db (.processImportFile fileId)).2 = db from h] at hbatch' ⊢
      obtain rfl := Option.some.inj (hbatch'.symm.trans hbatch)
      rw [hactive]
      refine iff_of_false nofun fun hall => ?_
      obtain ⟨f, hf, hleft⟩ := countFiles_pos.mp ((hok.batches _ _ hbatch).active hactive)
      rw [hall f hf] at hleft
      cases hleft
    · obtain ⟨-, hloaded, hrow, -⟩ := loadFile_ok hload
      obtain rfl := Option.some.inj (hfile.symm.trans hloaded)
      obtain rfl := Option.some.inj (hbatch.symm.trans hrow)
      exact processed_leaves hok horderly hload h hactive hbatch'

/-! ## Only orderly calls do what is claimed -/

theorem countDocuments_documentsOf (db : Database) (batchId : Nat) :
    (db.documentsOf batchId).length = countDocuments db.documents batchId := Table.length_select _ _

/-- A start over a failed file loses it, and one with no file left never ends. -/
theorem started_orderly (hok : Ok db) {now : Time} {batchId : Nat} (hgood : GoodCall host db (.startBatch now batchId)) :
    Orderly host db (.startBatch now batchId) := by
  intro batch hbatch hopen hsome
  have hstarted : Started db batchId batch (startBatch db now batchId).2 :=
    startBatch_started hbatch hopen hsome (hok.projects _ _ hbatch)
  have hold := hok.batches _ _ hbatch
  have hrow : (step host db (.startBatch now batchId)).2.batches.get? batchId = some { batch with status := .queued } := by
    show (startBatch db now batchId).2.batches.get? batchId = _
    rw [hstarted.batches, Table.get?_modify_self, hbatch]
    rfl
  have haccounted := hgood.accounted _ _ hrow
  have hprocessed : batch.processedCount = countFiles db.files batchId isDone := by
    rw [← hstarted.count_finished, ← countFiles_filesOf]
    exact haccounted.processed
  have hfinished := countFiles_finished db.files batchId
  rw [← hold.processed] at hfinished
  constructor
  · intro f hf hfailed
    have hpos : 0 < countFiles db.files batchId (· = .failed) := countFiles_pos.mpr ⟨f, hf, decide_eq_true hfailed⟩
    omega
  · obtain ⟨f, hf, hleft⟩ := haccounted.active rfl
    have hpos : 0 < countFiles (startBatch db now batchId).2.files batchId fun s => !finished s :=
      countFiles_pos.mpr ⟨f, hf, by rw [hleft]; rfl⟩
    have hafter := countFiles_all (startBatch db now batchId).2.files batchId finished
    have hbefore := countFiles_all db.files batchId finished
    rw [hstarted.count_all, hstarted.count_finished] at hafter
    have hopenFiles : 0 < countFiles db.files batchId fun s => !finished s := by
      rw [← hold.processed] at hbefore
      omega
    obtain ⟨g, hg, hopen'⟩ := countFiles_pos.mp hopenFiles
    exact ⟨g, hg, by simpa using hopen'⟩

/-- A file of an open batch that has failed is counted once more. -/
theorem processed_counts_failed {loaded : LoadedFile} (hcurrent : Current db loaded)
    (hchange : ProcessChange host db loaded db') (hsame : db' = db) (hopen : isClosed loaded.batch.status = false) :
    loaded.file.status ≠ .failed := by
  intro hfailed
  have hundone : isDone loaded.file.status = false := by rw [hfailed]; rfl
  have hcounted : ∀ file inc, ¬Saved db loaded file inc db' := by
    intro file inc h
    obtain ⟨hasCandidates, hrow⟩ := h.batch hcurrent
    rw [hsame] at hrow
    have hsame := Option.some.inj (hcurrent.batch.symm.trans hrow)
    have hcount := (finishIfDone_counts hasCandidates
      (loaded.batch.processed inc.documents inc.chunks inc.errors)).1
    rw [← hsame] at hcount
    exact Nat.lt_irrefl _ (Nat.lt_of_lt_of_eq (Nat.lt_succ_self _) hcount.symm)
  cases hchange with
  | closed hclosed =>
    rw [hopen] at hclosed
    cases hclosed
  | done hopen hdone =>
    rw [hundone] at hdone
    cases hdone
  | failed file hopen hundone hstatus hsaved | duplicate file hopen hundone hstatus hsaved
  | quarantined file content parts document hopen hundone hread hinjected hunique hstatus hsaved
  | parsed file content parts document source hopen hundone hread hclean hunique hstatus hsaved =>
    exact hcounted file _ hsaved

theorem process_orderly (hok : Ok db) {fileId : Nat} (hgood : GoodCall host db (.processImportFile fileId)) :
    Orderly host db (.processImportFile fileId) := by
  intro loaded hload
  obtain ⟨-, hfile, -, -⟩ := loadFile_ok hload
  have hcurrent := current_of_load hload
  have hafter : (step host db (.processImportFile fileId)).2 = (processLoaded host db loaded).2 :=
    processImportFile_loaded hload
  have hchange := processLoaded_change host db loaded
  have hagain := hgood.again fileId loaded.file rfl hfile
  rw [hafter] at hagain
  split
  · next hclosed =>
    by_contra hfinished
    rw [Bool.not_eq_false] at hfinished
    -- the file gets the status `cancelled`, which is not a finished one
    have hsame := hagain hfinished
    rw [processLoaded, if_pos hclosed] at hsame
    have hrow := congrArg (fun d : Database => d.files.get? loaded.fileId) hsame
    simp only [saveFile, Table.get?_modify_self, hcurrent.file, Option.map_some, Option.some.injEq] at hrow
    have hstatus := congrArg ImportFile.status hrow
    rw [show (writeFile loaded.file { loaded.file with status := .cancelled } loaded.file).status = .cancelled from
      writeColumn_fresh _ _] at hstatus
    rw [← hstatus] at hfinished
    cases hfinished
  · next hclosed =>
    have hopen := Bool.eq_false_iff.mpr hclosed
    constructor
    · intro hfailed
      refine processed_counts_failed hcurrent hchange (hagain ?_) hopen hfailed
      rw [hfailed]
      rfl
    · intro hundone hunique content parts hread
      by_contra hinjected
      rw [Bool.not_eq_false] at hinjected
      obtain ⟨file, document, hsaved, howner, hdocuments⟩ :=
        processLoaded_quarantined hopen hundone hread hinjected hunique
      obtain ⟨hasCandidates, hrow⟩ := hsaved.batch hcurrent
      rw [← hafter] at hrow
      have hcount := (hgood.accounted _ _ hrow).documents
      rw [(finishIfDone_counts hasCandidates _).2.2.1, countDocuments_documentsOf, hafter, hdocuments,
        countDocuments_insert, if_pos howner, ← (hok.batches _ _ hcurrent.batch).documents] at hcount
      exact Nat.lt_irrefl _ (Nat.lt_of_lt_of_eq (Nat.lt_succ_self _) hcount.symm)

theorem orderly_of_goodCall (hok : Ok db) (call : Call) (hgood : GoodCall host db call) : Orderly host db call := by
  cases call with
  | startBatch now batchId => exact started_orderly hok hgood
  | processImportFile fileId => exact process_orderly hok hgood
  | createBatch projectId scopeId scopeKey | addFiles batchId items | retryBatch now batchId
  | cancelImportBatch now batchId => trivial

end

/-! ## Runs -/

/-- **The counters are right throughout a run exactly when its calls are orderly.** -/
theorem accounted_iff (host : Host) (projects : Table String) (calls : List Call) :
    Trace.Always (step host) (GoodCall host) (initial projects) calls ↔
      Trace.Always (step host) (Orderly host) (initial projects) calls := by
  have hstep : ∀ db call, Ok db → Orderly host db call → Ok (step host db call).2 :=
    fun db call hok horderly => step_ok hok call horderly
  have hiff : ∀ db call, Ok db → (GoodCall host db call ↔ Orderly host db call) :=
    fun db call hok => ⟨orderly_of_goodCall hok call, goodCall_of_orderly hok call⟩
  exact Trace.always_iff_of_invariant hstep hiff (ok_initial projects) calls

/-- A file that is no JSON is processed, and delivered once more. -/
def redelivered : List Call :=
  [.createBatch 0 0 "project", .addFiles 0 [⟨"notes.json", "x", none⟩], .startBatch 0 0, .processImportFile 0,
    .processImportFile 0]

/-- The second delivery of a failed file counts it again. -/
theorem failed_counted_again : ¬Trace.Always (step textHost) (GoodCall textHost) (initial oneProject) redelivered := by
  intro h
  have hgood := h.2.2.2.2.1
  have hcounts : ((Trace.exec (step textHost) (initial oneProject) redelivered).batches.get? 0).map
      (fun b => (b.processedCount, b.sourceCount)) = some (2, 1) := by decide
  obtain ⟨batch, hbatch, hrow⟩ := Option.map_eq_some_iff.mp hcounts
  have hbounded := (hgood.accounted 0 batch hbatch).bounded
  rw [(Prod.mk.inj hrow).1, (Prod.mk.inj hrow).2] at hbounded
  exact absurd hbounded (by decide)

end CodexMemory.Import
