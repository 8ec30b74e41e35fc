import CodexMemory.Import.Accounting
import CodexMemory.Json.Parse
import CodexMemory.Worker.Work

/-!
# The work behind a queued file

`start_batch` queues a file and leaves an event for it, whose key names the file and the retries of the batch;
the dispatcher makes a job of the event, and the worker that executes the job calls `process_import_file`.

* `eventKey_inj`: the key of an event names one file and one number of retries;
* `none_stranded`: behind every queued file there is a live event or an unfinished job, in every run in which
  no batch is started over a used key whose event has ended, and no job ends while its file is queued.
-/

namespace CodexMemory.Import.Stranded

open Worker (BatchStatus FileStatus OutboxEvent ProcessingJob Time)

/-! ## The system -/

/-- A call of the service, of the dispatcher or of a worker. -/
inductive Step
  | call (call : Call)
  | dispatchOnce (dispatch : Worker.Dispatch) (limit : Nat) (exclude : List String)
  | worker (cfg : Worker.Config) (call : Worker.Call) (now : Time)

def queueHost (host : Host) : Worker.Host Payload := ⟨host.sha256, fun payload => payload.map ImportPayload.importBatchId⟩

def step (host : Host) (db : Database) : Step → Unit × Database
  | .call call => ((), (Import.step host db call).2)
  | .dispatchOnce dispatch limit exclude =>
    ((), { db with queue := (Worker.dispatchOnce (queueHost host) db.projects dispatch limit exclude db.queue).2 })
  | .worker cfg call now => ((), { db with queue := (Worker.step cfg db.queue (call, now)).2 })

/-! ## What is claimed -/

/-- Event `e` is the live event of a file in the current attempt of its batch. -/
def CurrentEvent (db : Database) (fileId : Nat) (file : ImportFile) (e : Nat) : Prop :=
  ∃ event batch projectKey, db.queue.events.get? e = some event ∧ db.batches.get? file.importBatchId = some batch ∧
    db.projects.get? batch.projectId = some projectKey ∧ event.eventType = "document.imported.v1" ∧
    hasKey batch.projectId (eventKey projectKey fileId batch.retryCount) event = true ∧ event.status.isLive = true

/-- Job `k` is an unfinished job of a file. -/
def OpenJob (db : Database) (fileId k : Nat) : Prop :=
  ∃ job payload, db.queue.jobs.get? k = some job ∧ job.jobType = "parse_document" ∧ job.payload = some payload ∧
    payload.importFileId = fileId ∧ job.status.isUnfinished = true

/-- **Every queued file has a live event or an unfinished job.** -/
def NoneStranded (db : Database) : Prop :=
  ∀ fileId file, db.files.get? fileId = some file → file.status = .queued →
    (∃ e, CurrentEvent db fileId file e) ∨ ∃ k, OpenJob db fileId k

/-- A live event or an unfinished job of a file that is not with a job which ends in the call. -/
def Left (db : Database) (input : Worker.Call × Time) (fileId : Nat) (file : ImportFile) : Prop :=
  (∃ e, CurrentEvent db fileId file e ∧ ∀ k job, db.queue.jobs.get? k = some job → job.outboxEventId = some e →
    Worker.ends input k job = false) ∨
  ∃ k, OpenJob db fileId k ∧ ∀ job, db.queue.jobs.get? k = some job → Worker.ends input k job = false

/-- The steps that strand no file.  Where `start_batch` finds an event under the key of a file, it is live, or
the file has an unfinished job; `retry_batch` finds no queued file without one; and a job whose file is queued
does not end for good, or the file has something else. -/
def Regular (db : Database) : Step → Prop
  | .call (.startBatch _ batchId) => ∀ batch projectKey fileId file e event, db.batches.get? batchId = some batch →
      isOpen batch.status = true → db.projects.get? batch.projectId = some projectKey → db.files.get? fileId = some file →
      file.importBatchId = batchId → startable file.status = true → db.queue.events.get? e = some event →
      hasKey batch.projectId (eventKey projectKey fileId batch.retryCount) event = true →
      event.status.isLive = true ∨ ∃ k, OpenJob db fileId k
  | .call (.retryBatch _ batchId) => (reopenBatch db batchId).1 = .ok () → ∀ fileId file,
      db.files.get? fileId = some file → file.importBatchId = batchId → file.status = .queued → ∃ k, OpenJob db fileId k
  | .worker _ call now => ∀ k job payload file, db.queue.jobs.get? k = some job → Worker.ends (call, now) k job = true →
      job.payload = some payload → db.files.get? payload.importFileId = some file → file.status = .queued →
      Left db (call, now) payload.importFileId file
  | _ => True

/-! ## The key of an event -/

theorem toString_toList (n : Nat) : (toString n).toList = Nat.toDigits 10 n := by
  rw [Nat.toString_eq_repr, Nat.repr, String.toList_ofList]

theorem toDigits_inj {a b : Nat} (h : Nat.toDigits 10 a = Nat.toDigits 10 b) : a = b := by
  rw [← Nat.ofDigitChars_ten_toDigits (n := a), h, Nat.ofDigitChars_ten_toDigits]

/-- Digits end where the text goes on with a dot. -/
theorem digits_cancel {a b : Nat} {s t : List Char} (h : Nat.toDigits 10 a ++ '.' :: s = Nat.toDigits 10 b ++ '.' :: t) :
    a = b ∧ s = t := by
  have hdigits : ∀ n c, c ∈ Nat.toDigits 10 n → c.isDigit = true := fun n c hc =>
    Nat.isDigit_of_mem_toDigits (by decide) (by decide) hc
  have hdot : ∀ (u : List Char) c, c ∈ ('.' :: u).head? → c.isDigit = false := by
    intro u c hc
    obtain rfl := Option.some.inj hc
    decide
  have hleft := Json.takeWhile_digits (hdigits a) (hdot s)
  have hright := Json.takeWhile_digits (hdigits b) (hdot t)
  rw [h] at hleft
  have htail := hleft.2.symm.trans hright.2
  exact ⟨toDigits_inj (hleft.1.symm.trans hright.1), (List.cons.inj htail).2⟩

/-- **The key names the file and the retries.** -/
theorem eventKey_inj {projectKey : String} {a b n m : Nat} (h : eventKey projectKey a n = eventKey projectKey b m) :
    a = b ∧ n = m := by
  have hlist := congrArg String.toList h
  simp only [eventKey, String.toList_append, toString_toList, List.append_assoc] at hlist
  have hfile := List.append_cancel_left (List.append_cancel_left hlist)
  obtain ⟨hab, hrest⟩ := digits_cancel hfile
  refine ⟨hab, toDigits_inj ?_⟩
  exact List.append_cancel_left hrest

/-! ## The events of `start_batch` -/

/-- What `start_batch` makes of the events for some files. -/
structure Added (now : Time) (batchId : Nat) (batch : ImportBatch) (projectKey : String) (files : List (Nat × ImportFile))
    (events events' : Table (OutboxEvent Payload)) : Prop where
  old : ∀ e event, events.get? e = some event → events'.get? e = some event
  new : ∀ e event, events'.get? e = some event →
    events.get? e = some event ∨ ∃ f ∈ files, event = importedEvent now batchId batch projectKey f.1
  each : ∀ f ∈ files, ∃ e event, events'.get? e = some event ∧
    hasKey batch.projectId (eventKey projectKey f.1 batch.retryCount) event = true ∧
    (events.get? e = some event ∨ event = importedEvent now batchId batch projectKey f.1)

theorem hasKey_importedEvent {now : Time} {batchId : Nat} {batch : ImportBatch} {projectKey : String} {f g : Nat} :
    hasKey batch.projectId (eventKey projectKey f batch.retryCount) (importedEvent now batchId batch projectKey g) = true ↔
      g = f := by
  rw [hasKey, Bool.and_eq_true, decide_eq_true_eq, decide_eq_true_eq]
  constructor
  · rintro ⟨-, hkey⟩
    exact (eventKey_inj (Option.some.inj hkey)).1
  · rintro rfl
    exact ⟨rfl, rfl⟩

theorem addEvent_added (now : Time) (batchId : Nat) (batch : ImportBatch) (projectKey : String)
    (events : Table (OutboxEvent Payload)) (f : Nat × ImportFile) :
    Added now batchId batch projectKey [f] events (addEvent now batchId batch projectKey events f.1) := by
  rw [addEvent]
  split
  · next hused =>
    refine ⟨fun _ _ h => h, fun _ _ h => Or.inl h, fun g hg => ?_⟩
    obtain rfl := List.mem_singleton.mp hg
    obtain ⟨r, hr, hkey⟩ := List.any_eq_true.mp hused
    have hget := (events.get?_eq_some_iff r.1 r.2).mpr hr
    exact ⟨r.1, r.2, hget, hkey, Or.inl hget⟩
  · refine ⟨fun e event h => ?_, fun e event h => ?_, fun g hg => ?_⟩
    · rw [Table.get?_insert_ne _ _ (Nat.ne_of_lt (events.lt_nextId h))]
      exact h
    · rcases Table.get?_insert_cases h with ⟨-, rfl⟩ | ⟨-, hold⟩
      · exact Or.inr ⟨f, List.mem_singleton_self f, rfl⟩
      · exact Or.inl hold
    · obtain rfl := List.mem_singleton.mp hg
      exact ⟨_, _, Table.get?_insert_self _ _, hasKey_importedEvent.mpr rfl, Or.inr rfl⟩

theorem addEvents_added (now : Time) (batchId : Nat) (batch : ImportBatch) (projectKey : String)
    (files : List (Nat × ImportFile)) (events : Table (OutboxEvent Payload)) :
    Added now batchId batch projectKey files events
      (files.foldl (fun events f => addEvent now batchId batch projectKey events f.1) events) := by
  induction files generalizing events with
  | nil => exact ⟨fun _ _ h => h, fun _ _ h => Or.inl h, fun _ h => absurd h List.not_mem_nil⟩
  | cons f files ih =>
    rw [List.foldl_cons]
    have hfirst := addEvent_added now batchId batch projectKey events f
    generalize addEvent now batchId batch projectKey events f.1 = middle at hfirst
    have hrest := ih middle
    refine ⟨fun e event h => hrest.old e event (hfirst.old e event h), fun e event h => ?_, fun g hg => ?_⟩
    · rcases hrest.new e event h with hmiddle | ⟨g, hg, hevent⟩
      · rcases hfirst.new e event hmiddle with hold | ⟨g, hg, hevent⟩
        · exact Or.inl hold
        · obtain rfl := List.mem_singleton.mp hg
          exact Or.inr ⟨g, List.mem_cons_self, hevent⟩
      · exact Or.inr ⟨g, List.mem_cons_of_mem _ hg, hevent⟩
    · rcases List.mem_cons.mp hg with rfl | hg
      · obtain ⟨e, event, hmiddle, hkey, horigin⟩ := hfirst.each g List.mem_cons_self
        exact ⟨e, event, hrest.old e event hmiddle, hkey, horigin⟩
      · obtain ⟨e, event, hlast, hkey, hmiddle | hnew⟩ := hrest.each g hg
        · refine ⟨e, event, hlast, hkey, ?_⟩
          rcases hfirst.new e event hmiddle with hold | ⟨f', hf', hevent⟩
          · exact Or.inl hold
          -- an event of another file with the key of this one
          · rw [hevent] at hkey
            rw [hevent, hasKey_importedEvent.mp hkey]
            exact Or.inr rfl
        · exact ⟨e, event, hlast, hkey, Or.inr hnew⟩

/-- What `start_batch` does to the queue. -/
structure Queued (db : Database) (now : Time) (batchId : Nat) (batch : ImportBatch) (projectKey : String) (db' : Database) :
    Prop where
  project : db.projects.get? batch.projectId = some projectKey
  events : Added now batchId batch projectKey (toQueue db batchId) db.queue.events db'.queue.events
  jobs : db'.queue.jobs = db.queue.jobs

theorem startBatch_queued (db : Database) (now : Time) (batchId : Nat) :
    (startBatch db now batchId).2 = db ∨ ∃ batch projectKey, Started db batchId batch (startBatch db now batchId).2 ∧
      Queued db now batchId batch projectKey (startBatch db now batchId).2 := by
  rw [startBatch]
  split
  · exact Or.inl rfl
  · next batch hbatch =>
    split
    · exact Or.inl rfl
    · next hopen =>
      split
      · exact Or.inl rfl
      · next hsome =>
        split
        · exact Or.inl rfl
        · next projectKey hproject =>
          exact Or.inr ⟨batch, projectKey, ⟨hbatch, by simpa using hopen, hsome, rfl, rfl, ⟨rfl, rfl, rfl, rfl, rfl⟩⟩,
            ⟨hproject, addEvents_added now batchId batch projectKey _ _, rfl⟩⟩

theorem mem_toQueue {db : Database} {batchId fileId : Nat} {file : ImportFile} :
    (fileId, file) ∈ toQueue db batchId ↔ db.files.get? fileId = some file ∧ file.importBatchId = batchId ∧
      startable file.status = true := by
  rw [toQueue, List.mem_filter, mem_filesOf, inBatch, decide_eq_true_eq, and_assoc]

/-! ## The invariant -/

/-- An event is of a file, under a key of it. -/
structure Keyed (db : Database) (event : OutboxEvent Payload) (payload : ImportPayload) : Prop where
  type : event.eventType = "document.imported.v1"
  file : ∃ file, db.files.get? payload.importFileId = some file ∧ file.importBatchId = payload.importBatchId
  key : ∃ batch projectKey n, db.batches.get? payload.importBatchId = some batch ∧
    db.projects.get? batch.projectId = some projectKey ∧ event.projectId = batch.projectId ∧
    event.idempotencyKey = some (eventKey projectKey payload.importFileId n) ∧ n ≤ batch.retryCount

structure Inv (db : Database) : Prop where
  none : NoneStranded db
  events : ∀ e event, db.queue.events.get? e = some event → ∃ payload, event.payload = some payload ∧ Keyed db event payload
  carried : ∀ k job, db.queue.jobs.get? k = some job →
    ∃ e event, job.outboxEventId = some e ∧ db.queue.events.get? e = some event ∧ job.payload = event.payload

/-- The files and the batches are there, each file in its batch. -/
structure Kept (db db' : Database) : Prop where
  projects : db'.projects = db.projects
  files : ∀ k file, db.files.get? k = some file → ∃ file', db'.files.get? k = some file' ∧ file'.importBatchId = file.importBatchId
  batches : ∀ b batch, db.batches.get? b = some batch → ∃ batch', db'.batches.get? b = some batch' ∧
    batch'.projectId = batch.projectId ∧ batch.retryCount ≤ batch'.retryCount

section

variable {db db' : Database}

theorem Keyed.mono {event row : OutboxEvent Payload} {payload : ImportPayload} (h : Keyed db event payload) (hkept : Kept db db')
    (hsame : Worker.SameEvent event row) : Keyed db' row payload := by
  obtain ⟨htype, ⟨file, hfile, howner⟩, batch, projectKey, n, hbatch, hproject, howner', hkey, hn⟩ := h
  obtain ⟨file', hfile', hsameBatch⟩ := hkept.files _ file hfile
  obtain ⟨batch', hbatch', hproject', hretry⟩ := hkept.batches _ batch hbatch
  refine ⟨hsame.eventType.trans htype, ⟨file', hfile', hsameBatch.trans howner⟩, batch', projectKey, n, hbatch', ?_,
    (hsame.projectId.trans howner').trans hproject'.symm, hsame.idempotencyKey.trans hkey, hn.trans hretry⟩
  rw [hkept.projects, hproject']
  exact hproject

/-- The payload of an event with the key of a file is of the file. -/
theorem Keyed.importFileId {event : OutboxEvent Payload} {payload : ImportPayload} (h : Keyed db event payload)
    {batch : ImportBatch} {projectKey : String} {fileId n : Nat} (hproject : db.projects.get? batch.projectId = some projectKey)
    (hkey : hasKey batch.projectId (eventKey projectKey fileId n) event = true) : payload.importFileId = fileId := by
  obtain ⟨-, -, batch', projectKey', m, -, hproject', howner, hkey', -⟩ := h
  rw [hasKey, Bool.and_eq_true, decide_eq_true_eq, decide_eq_true_eq] at hkey
  rw [← howner, hkey.1, hproject] at hproject'
  obtain rfl := Option.some.inj hproject'
  exact (eventKey_inj (Option.some.inj (hkey'.symm.trans hkey.2))).1

/-! ## What a step hands on -/

/-- The batch of a file is in the same attempt. -/
def SameAttempt (db db' : Database) (b : Nat) : Prop :=
  ∀ batch, db.batches.get? b = some batch →
    ∃ batch', db'.batches.get? b = some batch' ∧ batch'.projectId = batch.projectId ∧ batch'.retryCount = batch.retryCount

theorem CurrentEvent.mono {fileId e : Nat} {file file' : ImportFile} (h : CurrentEvent db fileId file e)
    (hprojects : db'.projects = db.projects) (hbatches : SameAttempt db db' file.importBatchId)
    (hfile : file'.importBatchId = file.importBatchId)
    (hevents : ∀ event, db.queue.events.get? e = some event → event.status.isLive = true →
      ∃ row, db'.queue.events.get? e = some row ∧ Worker.SameEvent event row ∧ row.status.isLive = true) :
    CurrentEvent db' fileId file' e := by
  obtain ⟨event, batch, projectKey, hevent, hbatch, hproject, htype, hkey, hlive⟩ := h
  obtain ⟨row, hrow, hsame, hlive'⟩ := hevents event hevent hlive
  obtain ⟨batch', hbatch', hproject', hretry⟩ := hbatches batch hbatch
  refine ⟨row, batch', projectKey, hrow, by rw [hfile]; exact hbatch', ?_, hsame.eventType.trans htype, ?_, hlive'⟩
  · rw [hprojects, hproject']
    exact hproject
  · rw [hproject', hretry, hasKey, hsame.projectId, hsame.idempotencyKey]
    exact hkey

theorem OpenJob.mono {fileId k : Nat} (h : OpenJob db fileId k)
    (hjobs : ∀ job, db.queue.jobs.get? k = some job → job.status.isUnfinished = true →
      ∃ row, db'.queue.jobs.get? k = some row ∧ row.jobType = job.jobType ∧ row.payload = job.payload ∧
        row.status.isUnfinished = true) : OpenJob db' fileId k := by
  obtain ⟨job, payload, hjob, htype, hpayload, hfile, hopen⟩ := h
  obtain ⟨row, hrow, htype', hpayload', hopen'⟩ := hjobs job hjob hopen
  exact ⟨row, payload, hrow, htype'.trans htype, hpayload'.trans hpayload, hfile, hopen'⟩

/-- The queue is as it was, no file has been queued, and each batch is in the same attempt. -/
structure Calm (db db' : Database) : Prop extends Kept db db' where
  queue : db'.queue = db.queue
  queued : ∀ k file', db'.files.get? k = some file' → file'.status = .queued →
    ∃ file, db.files.get? k = some file ∧ file.status = .queued ∧ file'.importBatchId = file.importBatchId
  attempts : ∀ b, SameAttempt db db' b

theorem Calm.refl (db : Database) : Calm db db :=
  ⟨⟨rfl, fun _ file h => ⟨file, h, rfl⟩, fun _ batch h => ⟨batch, h, rfl, le_rfl⟩⟩, rfl,
    fun _ file h hqueued => ⟨file, h, hqueued, rfl⟩, fun _ batch h => ⟨batch, h, rfl, rfl⟩⟩

/-- The rows of the queue are handed on with the queue. -/
theorem Inv.rows (h : Inv db) (hkept : Kept db db') (hqueue : db'.queue = db.queue) :
    (∀ e event, db'.queue.events.get? e = some event → ∃ payload, event.payload = some payload ∧ Keyed db' event payload) ∧
      ∀ k job, db'.queue.jobs.get? k = some job →
        ∃ e event, job.outboxEventId = some e ∧ db'.queue.events.get? e = some event ∧ job.payload = event.payload := by
  rw [hqueue]
  refine ⟨fun e event hevent => ?_, h.carried⟩
  obtain ⟨payload, hpayload, hkeyed⟩ := h.events e event hevent
  exact ⟨payload, hpayload, hkeyed.mono hkept (.refl event)⟩

theorem inv_calm (h : Inv db) (hcalm : Calm db db') : Inv db' := by
  obtain ⟨hevents, hcarried⟩ := h.rows hcalm.toKept hcalm.queue
  refine ⟨fun fileId file' hfile' hqueued => ?_, hevents, hcarried⟩
  obtain ⟨file, hfile, hstatus, howner⟩ := hcalm.queued fileId file' hfile' hqueued
  rcases h.none fileId file hfile hstatus with ⟨e, hcurrent⟩ | ⟨k, hopen⟩
  · refine Or.inl ⟨e, hcurrent.mono hcalm.projects (hcalm.attempts _) howner fun event hevent hlive => ?_⟩
    exact ⟨event, by rw [hcalm.queue]; exact hevent, .refl event, hlive⟩
  · refine Or.inr ⟨k, hopen.mono fun job hjob hunfinished => ?_⟩
    exact ⟨job, by rw [hcalm.queue]; exact hjob, rfl, rfl, hunfinished⟩

theorem sameAttempt_modify {b : Nat} {g : ImportBatch → ImportBatch}
    (hbatches : db'.batches = db.batches.modify b g) (hg : ∀ batch, (g batch).projectId = batch.projectId ∧
      (g batch).retryCount = batch.retryCount) (i : Nat) : SameAttempt db db' i := by
  intro batch hbatch
  refine ⟨_, by rw [hbatches, Table.get?_modify, hbatch]; rfl, ?_⟩
  split
  · exact hg batch
  · exact ⟨rfl, rfl⟩

theorem kept_of_sameAttempt (hprojects : db'.projects = db.projects)
    (hfiles : ∀ k file, db.files.get? k = some file → ∃ file', db'.files.get? k = some file' ∧ file'.importBatchId = file.importBatchId)
    (hattempts : ∀ b, SameAttempt db db' b) : Kept db db' :=
  ⟨hprojects, hfiles, fun b batch hbatch =>
    let ⟨batch', hbatch', hproject, hretry⟩ := hattempts b batch hbatch
    ⟨batch', hbatch', hproject, Nat.le_of_eq hretry.symm⟩⟩

/-! ## The calls that leave the queue alone -/

theorem calm_insertBatch (db : Database) (row : ImportBatch) : Calm db { db with batches := db.batches.insert row } := by
  have hattempts : ∀ b, SameAttempt db { db with batches := db.batches.insert row } b := by
    intro b batch hbatch
    exact ⟨batch, by rw [Table.get?_insert_ne _ _ (Nat.ne_of_lt (db.batches.lt_nextId hbatch))]; exact hbatch, rfl, rfl⟩
  exact ⟨kept_of_sameAttempt rfl (fun k file h => ⟨file, h, rfl⟩) hattempts, rfl,
    fun k file h hqueued => ⟨file, h, hqueued, rfl⟩, hattempts⟩

theorem calm_createBatch (db : Database) (projectId scopeId : Nat) (scopeKey : String) :
    Calm db (createBatch db projectId scopeId scopeKey).2 := by
  rw [createBatch]
  split
  · exact .refl db
  · split
    · exact .refl db
    · exact calm_insertBatch db _

theorem filesAdded_queued {batchId n : Nat} {files files' : Table ImportFile} (h : FilesAdded batchId files n files') :
    (∀ k file, files.get? k = some file → files'.get? k = some file) ∧
      ∀ k file, files'.get? k = some file → file.status = .queued → files.get? k = some file := by
  induction h with
  | none => exact ⟨fun _ _ h => h, fun _ _ h _ => h⟩
  | one file owner status rest ih =>
    refine ⟨fun k old hold => ih.1 k old ?_, fun k old hold hqueued => ?_⟩
    · rw [Table.get?_insert_ne _ _ (Nat.ne_of_lt (Table.lt_nextId _ hold))]
      exact hold
    · rcases Table.get?_insert_cases (ih.2 k old hold hqueued) with ⟨-, rfl⟩ | ⟨-, hfirst⟩
      · rw [status] at hqueued
        cases hqueued
      · exact hfirst

theorem calm_addFiles (host : Host) (db : Database) (batchId : Nat) (items : List ImportItem) :
    Calm db (addFiles host db batchId items).2 := by
  rcases addFiles_effect host db batchId items with hsame | ⟨batch, added, h⟩
  · rw [hsame]
    exact .refl db
  · obtain ⟨hkept, hback⟩ := filesAdded_queued h.files
    have hattempts := sameAttempt_modify h.batches fun _ => ⟨rfl, rfl⟩
    exact ⟨kept_of_sameAttempt h.contents.projects (fun k file hfile => ⟨file, hkept k file hfile, rfl⟩) hattempts, h.queue,
      fun k file hfile hqueued => ⟨file, hback k file hfile hqueued, hqueued, rfl⟩, hattempts⟩

/-- A file is written that is not queued any more. -/
theorem calm_written {loaded : LoadedFile} (hcurrent : Current db loaded) {file : ImportFile} (hstatus : file.status ≠ .queued)
    {batch' : ImportBatch} (hprojects : db'.projects = db.projects)
    (hfiles : db'.files = db.files.modify loaded.fileId fun current => writeFile loaded.file file current)
    (hbatches : db'.batches = db.batches.modify loaded.file.importBatchId fun current => writeBatch loaded.batch batch' current)
    (hqueue : db'.queue = db.queue) : Calm db db' := by
  have hattempts : ∀ b, SameAttempt db db' b := sameAttempt_modify hbatches fun _ => ⟨rfl, rfl⟩
  refine ⟨kept_of_sameAttempt hprojects (fun k old hold => ?_) hattempts, hqueue, fun k row hrow hqueued => ?_, hattempts⟩
  · refine ⟨_, by rw [hfiles, Table.get?_modify, hold]; rfl, ?_⟩
    split <;> rfl
  · rw [hfiles, Table.get?_modify] at hrow
    obtain ⟨old, hold, rfl⟩ := Option.map_eq_some_iff.mp hrow
    split at hqueued
    · next hk =>
      subst hk
      obtain rfl := Option.some.inj (hcurrent.file.symm.trans hold)
      exact absurd ((writeColumn_fresh _ _).symm.trans hqueued) hstatus
    · exact ⟨old, hold, hqueued, by split <;> rfl⟩

theorem Saved.calm {loaded : LoadedFile} (hcurrent : Current db loaded) {file : ImportFile} {inc : Increment}
    (h : Saved db loaded file inc db') : Calm db db' := by
  obtain ⟨_, hbatches⟩ := h.batches
  refine calm_written hcurrent ?_ h.projects h.files hbatches h.queue
  intro hqueued
  have hfinished := h.finished
  rw [hqueued] at hfinished
  cases hfinished

theorem calm_processImportFile (host : Host) (db : Database) (fileId : Nat) : Calm db (processImportFile host db fileId).2 := by
  rcases processImportFile_effect host db fileId with hsame | ⟨loaded, hload, hchange⟩
  · rw [hsame]
    exact .refl db
  · have hcurrent := current_of_load hload
    generalize (processImportFile host db fileId).2 = db' at hchange
    cases hchange with
    | closed => exact calm_written hcurrent (by simp) rfl rfl rfl rfl
    | done => exact .refl db
    | failed file _ _ _ saved => exact Saved.calm hcurrent saved
    | duplicate file _ _ _ saved => exact Saved.calm hcurrent saved
    | quarantined file content parts document _ _ _ _ _ _ saved => exact Saved.calm hcurrent saved
    | parsed file content parts document source _ _ _ _ _ _ saved => exact Saved.calm hcurrent saved

/-! ## `start_batch` and `retry_batch` -/

theorem rewriteFiles_back {files : Table ImportFile} {batchId k : Nat} {p : FileStatus → Bool} {f : ImportFile → ImportFile}
    {row : ImportFile} (h : (rewriteFiles files batchId p f).get? k = some row) : ∃ file, files.get? k = some file ∧
      row = if file.importBatchId = batchId && p file.status then f file else file := by
  rw [rewriteFiles, Table.get?_mapRows] at h
  obtain ⟨file, hfile, rfl⟩ := Option.map_eq_some_iff.mp h
  exact ⟨file, hfile, rfl⟩

theorem rewriteFiles_kept {files : Table ImportFile} {batchId k : Nat} {p : FileStatus → Bool} (f : ImportFile → ImportFile)
    (hf : ∀ file, (f file).importBatchId = file.importBatchId) {file : ImportFile} (h : files.get? k = some file) :
    ∃ file', (rewriteFiles files batchId p f).get? k = some file' ∧ file'.importBatchId = file.importBatchId := by
  refine ⟨if file.importBatchId = batchId && p file.status then f file else file, ?_, ?_⟩
  · rw [rewriteFiles, Table.get?_mapRows, h]
    rfl
  · split
    · exact hf file
    · rfl

theorem inv_startBatch (h : Inv db) {now : Time} {batchId : Nat} (hregular : Regular db (.call (.startBatch now batchId))) :
    Inv (startBatch db now batchId).2 := by
  rcases startBatch_queued db now batchId with hsame | ⟨batch, projectKey, hstarted, hqueued⟩
  · rw [hsame]
    exact h
  generalize (startBatch db now batchId).2 = db' at hstarted hqueued
  have hattempts : ∀ b, SameAttempt db db' b := sameAttempt_modify hstarted.batches fun _ => ⟨rfl, rfl⟩
  have hkept : Kept db db' := kept_of_sameAttempt hstarted.contents.projects (fun k file hfile => by
    rw [hstarted.files]
    exact rewriteFiles_kept (fun f => { f with status := .queued }) (fun _ => rfl) hfile) hattempts
  have hold : ∀ {e event}, db.queue.events.get? e = some event → event.status.isLive = true →
      ∃ row, db'.queue.events.get? e = some row ∧ Worker.SameEvent event row ∧ row.status.isLive = true :=
    fun hevent hlive => ⟨_, hqueued.events.old _ _ hevent, .refl _, hlive⟩
  have hopen : ∀ {fileId k}, OpenJob db fileId k → OpenJob db' fileId k := fun hjob => hjob.mono fun job hget hunfinished =>
    ⟨job, by rw [hqueued.jobs]; exact hget, rfl, rfl, hunfinished⟩
  constructor
  case none =>
    intro fileId file' hfile' hstatus
    rw [hstarted.files] at hfile'
    obtain ⟨file, hfile, rfl⟩ := rewriteFiles_back hfile'
    by_cases hstart : (file.importBatchId = batchId && startable file.status) = true
    · rw [if_pos hstart]
      rw [Bool.and_eq_true, decide_eq_true_eq] at hstart
      obtain ⟨howner, hstartable⟩ := hstart
      obtain ⟨e, event, hevent, hkey, horigin⟩ := hqueued.events.each _ (mem_toQueue.mpr ⟨hfile, howner, hstartable⟩)
      obtain ⟨batch', hbatch', hproject', hretry⟩ := hattempts batchId batch hstarted.row
      have hnow : event.eventType = "document.imported.v1" → event.status.isLive = true →
          CurrentEvent db' fileId { file with status := .queued } e := by
        intro htype hlive
        refine ⟨event, batch', projectKey, hevent, ?_, ?_, htype, ?_, hlive⟩
        · rw [howner]
          exact hbatch'
        · rw [hkept.projects, hproject']
          exact hqueued.project
        · rw [hproject', hretry]
          exact hkey
      rcases horigin with hused | rfl
      · obtain ⟨payload, -, hkeyed⟩ := h.events e event hused
        rcases hregular batch projectKey fileId file e event hstarted.row hstarted.opened hqueued.project hfile howner hstartable
          hused hkey with hlive | ⟨k, hjob⟩
        · exact Or.inl ⟨e, hnow hkeyed.type hlive⟩
        · exact Or.inr ⟨k, hopen hjob⟩
      · exact Or.inl ⟨e, hnow rfl rfl⟩
    · rw [if_neg hstart] at hstatus ⊢
      rcases h.none fileId file hfile hstatus with ⟨e, hcurrent⟩ | ⟨k, hjob⟩
      · exact Or.inl ⟨e, hcurrent.mono hkept.projects (hattempts _) rfl fun _ => hold⟩
      · exact Or.inr ⟨k, hopen hjob⟩
  case events =>
    intro e event hevent
    rcases hqueued.events.new e event hevent with hused | ⟨f, hf, rfl⟩
    · obtain ⟨payload, hpayload, hkeyed⟩ := h.events e event hused
      exact ⟨payload, hpayload, hkeyed.mono hkept (.refl event)⟩
    · obtain ⟨hfile, howner, -⟩ := mem_toQueue.mp hf
      have hkeyed : Keyed db (importedEvent now batchId batch projectKey f.1)
          ⟨batch.projectId, projectKey, batchId, f.1, batch.scopeKey⟩ :=
        ⟨rfl, ⟨f.2, hfile, howner⟩, batch, projectKey, batch.retryCount, hstarted.row, hqueued.project, rfl, rfl, le_rfl⟩
      exact ⟨_, rfl, hkeyed.mono hkept (.refl _)⟩
  case carried =>
    intro k job hjob
    rw [hqueued.jobs] at hjob
    obtain ⟨e, event, hcarries, hevent, hpayload⟩ := h.carried k job hjob
    exact ⟨e, event, hcarries, hqueued.events.old e event hevent, hpayload⟩

/-- A batch is reopened whose queued files have unfinished jobs. -/
theorem inv_reopened (h : Inv db) {batchId : Nat} {batch : ImportBatch} (hreopened : Reopened db batchId batch db')
    (hjobs : ∀ fileId file, db.files.get? fileId = some file → file.importBatchId = batchId → file.status = .queued →
      ∃ k, OpenJob db fileId k) : Inv db' := by
  have hkept : Kept db db' := by
    refine ⟨hreopened.contents.projects, fun k file hfile => ?_, fun b old hold => ?_⟩
    · rw [hreopened.files]
      exact rewriteFiles_kept (fun f => { f with status := .uploaded, errorMessage := none }) (fun _ => rfl) hfile
    · refine ⟨_, by rw [hreopened.batches, Table.get?_modify, hold]; rfl, ?_⟩
      split
      · exact ⟨rfl, Nat.le_succ _⟩
      · exact ⟨rfl, le_rfl⟩
  obtain ⟨hevents, hcarried⟩ := h.rows hkept hreopened.queue
  refine ⟨fun fileId file' hfile' hstatus => ?_, hevents, hcarried⟩
  rw [hreopened.files] at hfile'
  obtain ⟨file, hfile, rfl⟩ := rewriteFiles_back hfile'
  by_cases hretry : (file.importBatchId = batchId && retryable file.status) = true
  · rw [if_pos hretry] at hstatus
    cases hstatus
  · rw [if_neg hretry] at hstatus ⊢
    have hopen : ∀ {k}, OpenJob db fileId k → OpenJob db' fileId k := fun hjob => hjob.mono fun job hget hunfinished =>
      ⟨job, by rw [hreopened.queue]; exact hget, rfl, rfl, hunfinished⟩
    by_cases howner : file.importBatchId = batchId
    · obtain ⟨k, hjob⟩ := hjobs fileId file hfile howner hstatus
      exact Or.inr ⟨k, hopen hjob⟩
    · rcases h.none fileId file hfile hstatus with ⟨e, hcurrent⟩ | ⟨k, hjob⟩
      · refine Or.inl ⟨e, hcurrent.mono hkept.projects (fun old hold => ?_) rfl fun event hevent hlive => ?_⟩
        · exact ⟨old, by rw [hreopened.batches, Table.get?_modify_ne _ _ howner]; exact hold, rfl, rfl⟩
        · exact ⟨event, by rw [hreopened.queue]; exact hevent, .refl event, hlive⟩
      · exact Or.inr ⟨k, hopen hjob⟩

/-- **The keys of a new attempt are new.** -/
theorem regular_reopened (h : Inv db) {now : Time} {batchId : Nat} {batch : ImportBatch}
    (hreopened : Reopened db batchId batch db') : Regular db' (.call (.startBatch now batchId)) := by
  intro batch' projectKey fileId file' e event hbatch' _ hproject hfile' howner _ hevent hkey
  rw [hreopened.batches, Table.get?_modify_self, hreopened.row] at hbatch'
  obtain rfl := Option.some.inj hbatch'
  rw [hreopened.queue] at hevent
  rw [hreopened.contents.projects] at hproject
  rw [hreopened.files] at hfile'
  obtain ⟨file, hfile, rfl⟩ := rewriteFiles_back hfile'
  have hsame : file.importBatchId = batchId := by
    split at howner
    · exact howner
    · exact howner
  obtain ⟨payload, -, hkeyed⟩ := h.events e event hevent
  have hproject'' : db.projects.get? batch.projectId = some projectKey := hproject
  have himport := hkeyed.importFileId hproject'' hkey
  obtain ⟨-, ⟨other, hother, hotherOwner⟩, old, projectKey', n, hold, hproject', -, hkey', hn⟩ := hkeyed
  rw [himport, hfile] at hother
  obtain rfl := Option.some.inj hother
  rw [← hotherOwner, hsame, hreopened.row] at hold
  obtain rfl := Option.some.inj hold
  rw [hasKey, Bool.and_eq_true, decide_eq_true_eq, decide_eq_true_eq] at hkey
  obtain rfl := Option.some.inj (hproject'.symm.trans hproject'')
  have hretries := (eventKey_inj (Option.some.inj (hkey'.symm.trans hkey.2))).2
  exact absurd hn (by rw [hretries]; exact Nat.not_succ_le_self _)

theorem inv_retryBatch (h : Inv db) {now : Time} {batchId : Nat} (hregular : Regular db (.call (.retryBatch now batchId))) :
    Inv (retryBatch db now batchId).2 := by
  rcases reopenBatch_effect db batchId with ⟨error, herror⟩ | ⟨batch, hok, hreopened⟩
  · rw [retryBatch, herror]
    exact h
  · have hretry : (retryBatch db now batchId).2 = (startBatch (reopenBatch db batchId).2 now batchId).2 := by
      rw [retryBatch, show reopenBatch db batchId = (.ok (), (reopenBatch db batchId).2) from Prod.ext hok rfl]
    rw [hretry]
    exact inv_startBatch (inv_reopened h hreopened (hregular hok)) (regular_reopened h hreopened)

/-! ## `cancel_import_batch` -/

/-- The work of the other batches is not cancelled. -/
theorem inv_cancelImportBatch (h : Inv db) (now : Time) (batchId : Nat) : Inv (cancelImportBatch db now batchId).2 := by
  rcases cancelImportBatch_effect db now batchId with hsame | ⟨batch, hcancelled⟩
  · rw [hsame]
    exact h
  generalize (cancelImportBatch db now batchId).2 = db' at hcancelled
  have hattempts : ∀ b, SameAttempt db db' b := sameAttempt_modify hcancelled.batches fun _ => ⟨rfl, rfl⟩
  have hkept : Kept db db' := kept_of_sameAttempt hcancelled.contents.projects (fun k file hfile => by
    rw [hcancelled.files]
    exact rewriteFiles_kept (fun f => { f with status := .cancelled }) (fun _ => rfl) hfile) hattempts
  have hevents : db'.queue.events = _ := congrArg Worker.Db.events hcancelled.queue
  have hjobs : db'.queue.jobs = _ := congrArg Worker.Db.jobs hcancelled.queue
  simp only [cancelQueue] at hevents hjobs
  constructor
  case none =>
    intro fileId file' hfile' hstatus
    rw [hcancelled.files] at hfile'
    obtain ⟨file, hfile, rfl⟩ := rewriteFiles_back hfile'
    split at hstatus
    · cases hstatus
    next hleft =>
    rw [if_neg hleft]
    have hother : file.importBatchId ≠ batchId := by
      intro hsame
      rw [hsame, hstatus] at hleft
      exact hleft (by simp [cancellable])
    -- the payloads of the work of the file name its batch
    have hpayload : ∀ {event payload}, Keyed db event payload → payload.importFileId = fileId →
        payload.importBatchId ≠ batchId := by
      intro event payload hkeyed himport
      obtain ⟨-, ⟨owned, howned, howner⟩, -⟩ := hkeyed
      rw [himport, hfile] at howned
      obtain rfl := Option.some.inj howned
      rw [← howner]
      exact hother
    rcases h.none fileId file hfile hstatus with ⟨e, hcurrent⟩ | ⟨k, hopen⟩
    · refine Or.inl ⟨e, hcurrent.mono hkept.projects (hattempts _) rfl fun event hevent hlive => ?_⟩
      obtain ⟨event', batch', projectKey, hevent', hbatch', hproject, -, hkey, -⟩ := hcurrent
      obtain rfl := Option.some.inj (hevent.symm.trans hevent')
      obtain ⟨payload, hhas, hkeyed⟩ := h.events e event hevent
      have hnot := hpayload hkeyed (hkeyed.importFileId hproject hkey)
      refine ⟨event, ?_, .refl event, hlive⟩
      rw [hevents, Table.get?_mapRows, hevent, Option.map_some, if_neg]
      rw [Bool.or_eq_true, not_or]
      refine ⟨by simp [cancelledEvent, ofBatch, hhas, hnot], fun hcarried => ?_⟩
      obtain ⟨⟨k, job⟩, hmem, hcarries⟩ := List.any_eq_true.mp hcarried
      obtain ⟨hjob, htest⟩ := (Table.mem_select _ _ k job).mp hmem
      obtain ⟨e', carrier, hcarries', hcarrier, hsame⟩ := h.carried k job hjob
      rw [Bool.and_eq_true, decide_eq_true_eq] at hcarries
      obtain rfl := Option.some.inj (hcarries'.symm.trans hcarries.1)
      obtain rfl := Option.some.inj (hevent.symm.trans hcarrier)
      rw [cancelledJob, hsame, hhas] at htest
      simp [ofBatch, hnot] at htest
    · refine Or.inr ⟨k, hopen.mono fun job hjob hunfinished => ⟨job, ?_, rfl, rfl, hunfinished⟩⟩
      obtain ⟨job', payload, hjob', -, hhas, himport, -⟩ := hopen
      obtain rfl := Option.some.inj (hjob.symm.trans hjob')
      obtain ⟨e, event, -, hevent, hsame⟩ := h.carried k job hjob
      obtain ⟨payload', hhas', hkeyed⟩ := h.events e event hevent
      obtain rfl := Option.some.inj (hhas'.symm.trans (hsame.symm.trans hhas))
      have hnot := hpayload hkeyed himport
      rw [hjobs, Table.get?_mapRows, hjob, Option.map_some, if_neg]
      simp [cancelledJob, ofBatch, hhas, hnot]
  case events =>
    intro e row hrow
    rw [hevents, Table.get?_mapRows] at hrow
    obtain ⟨event, hevent, rfl⟩ := Option.map_eq_some_iff.mp hrow
    obtain ⟨payload, hpayload, hkeyed⟩ := h.events e event hevent
    split
    · exact ⟨payload, hpayload, hkeyed.mono hkept ⟨rfl, rfl, rfl, rfl, rfl, rfl⟩⟩
    · exact ⟨payload, hpayload, hkeyed.mono hkept (.refl event)⟩
  case carried =>
    intro k row hrow
    rw [hjobs, Table.get?_mapRows] at hrow
    obtain ⟨job, hjob, rfl⟩ := Option.map_eq_some_iff.mp hrow
    obtain ⟨e, event, hcarries, hevent, hpayload⟩ := h.carried k job hjob
    refine ⟨e, _, ?_, by rw [hevents, Table.get?_mapRows, hevent]; rfl, ?_⟩
    · split <;> exact hcarries
    · dsimp only
      split <;> split <;> exact hpayload

/-! ## The dispatcher and the workers -/

theorem kept_queue (db : Database) (queue : Worker.Db Payload) : Kept db { db with queue := queue } :=
  ⟨rfl, fun _ file h => ⟨file, h, rfl⟩, fun _ batch h => ⟨batch, h, rfl, le_rfl⟩⟩

/-- The queue is written; every event and every job keeps what it is of. -/
theorem inv_queue (h : Inv db) {queue : Worker.Db Payload} (hnone : NoneStranded { db with queue := queue })
    (hevents : ∀ e row, queue.events.get? e = some row →
      ∃ event, db.queue.events.get? e = some event ∧ Worker.SameEvent event row ∧ row.payload = event.payload)
    (hcarried : ∀ k job, queue.jobs.get? k = some job →
      ∃ e row, job.outboxEventId = some e ∧ queue.events.get? e = some row ∧ job.payload = row.payload) :
    Inv { db with queue := queue } := by
  refine ⟨hnone, fun e row hrow => ?_, hcarried⟩
  obtain ⟨event, hevent, hsame, hpayload'⟩ := hevents e row hrow
  obtain ⟨payload, hpayload, hkeyed⟩ := h.events e event hevent
  exact ⟨payload, hpayload'.trans hpayload, hkeyed.mono (kept_queue db queue) hsame⟩

theorem inv_dispatchOnce (h : Inv db) (host : Host) (dispatch : Worker.Dispatch) (limit : Nat) (exclude : List String) :
    Inv (step host db (.dispatchOnce dispatch limit exclude)).2 := by
  have hdispatched := Worker.dispatched_dispatchOnce (queueHost host) db.projects dispatch limit exclude db.queue
  rw [step]
  generalize (Worker.dispatchOnce (queueHost host) db.projects dispatch limit exclude db.queue).2 = queue at hdispatched
  refine inv_queue h (fun fileId file hfile hstatus => ?_) (fun e row hrow => ?_) fun k job hjob => ?_
  · rcases h.none fileId file hfile hstatus with ⟨e, hcurrent⟩ | ⟨k, hopen⟩
    · refine Or.inl ⟨e, hcurrent.mono rfl ((Calm.refl db).attempts _) rfl fun event hevent hlive => ?_⟩
      obtain ⟨row, hrow, hmove⟩ := hdispatched.events e event hevent
      exact ⟨row, hrow, hmove.same, hmove.live hlive fun _ _ _ _ hfalse => hfalse⟩
    · exact Or.inr ⟨k, hopen.mono fun job hjob hunfinished => ⟨job, hdispatched.jobs k job hjob, rfl, rfl, hunfinished⟩⟩
  · obtain ⟨event, hevent, hmove⟩ := hdispatched.eventsBack e row hrow
    exact ⟨event, hevent, hmove.same, hmove.payload⟩
  · have hcarries : ∃ e event, job.outboxEventId = some e ∧ db.queue.events.get? e = some event ∧ job.payload = event.payload := by
      rcases hdispatched.jobsBack k job hjob with hold | hnew
      · exact h.carried k job hold
      · exact hnew
    obtain ⟨e, event, hcarries, hevent, hpayload⟩ := hcarries
    obtain ⟨row, hrow, hmove⟩ := hdispatched.events e event hevent
    exact ⟨e, row, hcarries, hrow, hpayload.trans hmove.payload.symm⟩

theorem inv_worker (h : Inv db) (host : Host) {cfg : Worker.Config} {call : Worker.Call} {now : Time}
    (hregular : Regular db (.worker cfg call now)) : Inv (step host db (.worker cfg call now)).2 := by
  have hworked := Worker.worked_step cfg db.queue (call, now)
  rw [step]
  generalize (Worker.step cfg db.queue (call, now)).2 = queue at hworked
  refine inv_queue h (fun fileId file hfile hstatus => ?_) (fun e row hrow => ?_) fun k row hrow => ?_
  · have hcurrent : ∀ e, CurrentEvent db fileId file e → (∀ k job, db.queue.jobs.get? k = some job →
        job.outboxEventId = some e → Worker.ends (call, now) k job = false) →
        CurrentEvent { db with queue := queue } fileId file e := by
      refine fun e hcurrent hstay => hcurrent.mono rfl ((Calm.refl db).attempts _) rfl fun event hevent hlive => ?_
      obtain ⟨row, hrow, hmove⟩ := hworked.events e event hevent
      refine ⟨row, hrow, hmove.same, hmove.live hlive fun k job hjob hcarries hends => ?_⟩
      obtain ⟨job', hjob', hends⟩ := hends
      obtain rfl := Option.some.inj (hjob.symm.trans hjob')
      exact Bool.false_ne_true ((hstay k job hjob hcarries).symm.trans hends)
    have hopen : ∀ k, OpenJob db fileId k → (∀ job, db.queue.jobs.get? k = some job → Worker.ends (call, now) k job = false) →
        OpenJob { db with queue := queue } fileId k := by
      refine fun k hopen hstay => hopen.mono fun job hjob hunfinished => ?_
      obtain ⟨row, hrow, hmove⟩ := hworked.jobs k job hjob
      refine ⟨row, hrow, hmove.same.jobType, hmove.payload, hmove.unfinished hunfinished fun hends => ?_⟩
      obtain ⟨job', hjob', hends⟩ := hends
      obtain rfl := Option.some.inj (hjob.symm.trans hjob')
      exact Bool.false_ne_true ((hstay job hjob).symm.trans hends)
    have hleft : Left db (call, now) fileId file → (∃ e, CurrentEvent { db with queue := queue } fileId file e) ∨
        ∃ k, OpenJob { db with queue := queue } fileId k := by
      rintro (⟨e, hc, hstay⟩ | ⟨k, ho, hstay⟩)
      · exact Or.inl ⟨e, hcurrent e hc hstay⟩
      · exact Or.inr ⟨k, hopen k ho hstay⟩
    -- where the work of the file ends, there is something else
    have hends : ∀ k job payload, db.queue.jobs.get? k = some job → job.payload = some payload → payload.importFileId = fileId →
        Worker.ends (call, now) k job = true → Left db (call, now) fileId file := by
      intro k job payload hjob hpayload himport hends
      subst himport
      exact hregular k job payload file hjob hends hpayload hfile hstatus
    rcases h.none fileId file hfile hstatus with ⟨e, hc⟩ | ⟨k, ho⟩
    · by_cases hstay : ∀ k job, db.queue.jobs.get? k = some job → job.outboxEventId = some e → Worker.ends (call, now) k job = false
      · exact Or.inl ⟨e, hcurrent e hc hstay⟩
      · push Not at hstay
        obtain ⟨k, job, hjob, hcarries, hended⟩ := hstay
        obtain ⟨event, batch, projectKey, hevent, -, hproject, -, hkey, -⟩ := hc
        obtain ⟨payload, hpayload, hkeyed⟩ := h.events e event hevent
        obtain ⟨e', event', hcarries', hevent', hsame⟩ := h.carried k job hjob
        obtain rfl := Option.some.inj (hcarries.symm.trans hcarries')
        obtain rfl := Option.some.inj (hevent.symm.trans hevent')
        exact hleft (hends k job payload hjob (hsame.trans hpayload) (hkeyed.importFileId hproject hkey)
          (Bool.eq_true_of_not_eq_false hended))
    · obtain ⟨job, payload, hjob, -, hpayload, himport, -⟩ := id ho
      cases hended : Worker.ends (call, now) k job with
      | true => exact hleft (hends k job payload hjob hpayload himport hended)
      | false =>
        refine Or.inr ⟨k, hopen k ho fun job' hjob' => ?_⟩
        obtain rfl := Option.some.inj (hjob.symm.trans hjob')
        exact hended
  · obtain ⟨event, hevent, hmove⟩ := hworked.eventsBack e row hrow
    exact ⟨event, hevent, hmove.same, hmove.payload⟩
  · obtain ⟨job, hjob, hmove⟩ := hworked.jobsBack k row hrow
    obtain ⟨e, event, hcarries, hevent, hpayload⟩ := h.carried k job hjob
    obtain ⟨event', hevent', hmove'⟩ := hworked.events e event hevent
    exact ⟨e, event', hmove.same.outboxEventId.trans hcarries, hevent',
      hmove.payload.trans (hpayload.trans hmove'.payload.symm)⟩

/-! ## Every run -/

/-- **A regular step strands no file.** -/
theorem inv_step (h : Inv db) (host : Host) {i : Step} (hregular : Regular db i) : Inv (step host db i).2 := by
  cases i with
  | call call =>
    cases call with
    | createBatch projectId scopeId scopeKey =>
      rw [step, Import.step]
      exact inv_calm h (calm_createBatch db projectId scopeId scopeKey)
    | addFiles batchId items =>
      rw [step, Import.step]
      exact inv_calm h (calm_addFiles host db batchId items)
    | startBatch now batchId =>
      rw [step, Import.step]
      exact inv_startBatch h hregular
    | retryBatch now batchId =>
      rw [step, Import.step]
      exact inv_retryBatch h hregular
    | cancelImportBatch now batchId =>
      rw [step, Import.step]
      exact inv_cancelImportBatch h now batchId
    | processImportFile fileId =>
      rw [step, Import.step]
      exact inv_calm h (calm_processImportFile host db fileId)
  | dispatchOnce dispatch limit exclude => exact inv_dispatchOnce h host dispatch limit exclude
  | worker cfg call now => exact inv_worker h host hregular

end

theorem inv_initial (projects : Table String) : Inv (initial projects) := by
  have hempty : ∀ {α : Type} {k : Nat} {a : α}, (Table.empty : Table α).get? k = some a → False := by
    intro α k a h
    rw [Table.get?_empty] at h
    cases h
  exact ⟨fun _ _ h => (hempty h).elim, fun _ _ h => (hempty h).elim, fun _ _ h => (hempty h).elim⟩

/-- **Behind every queued file there is work**, in every run of regular steps. -/
theorem none_stranded (host : Host) (projects : Table String) (steps : List Step)
    (hregular : Trace.Always (step host) Regular (initial projects) steps) :
    Trace.Always (step host) (fun db i => NoneStranded (step host db i).2) (initial projects) steps := by
  have hstep : ∀ db i, Inv db → Regular db i → Inv (step host db i).2 := fun _ _ h hregular => inv_step h host hregular
  exact Trace.always_of_invariant hstep (fun db i h hregular => (hstep db i h hregular).none) (inv_initial projects) hregular

/-! ## Two runs -/

theorem regular_start_first {db : Database} (hempty : db.queue.events.rows = []) (now : Time) (batchId : Nat) :
    Regular db (.call (.startBatch now batchId)) := by
  intro _ _ _ _ e event _ _ _ _ _ _ hevent
  rw [Table.get?_eq_some_iff, hempty] at hevent
  cases hevent

theorem regular_worker_done {db : Database} (hdone : db.files.rows.all fun r => r.2.status ≠ .queued) (cfg : Worker.Config)
    (call : Worker.Call) (now : Time) : Regular db (.worker cfg call now) := by
  intro _ _ payload file _ _ _ hfile hstatus
  have hnot := List.all_eq_true.mp hdone _ ((Table.get?_eq_some_iff _ _ _).mp hfile)
  rw [decide_eq_true_eq] at hnot
  exact absurd hstatus hnot

/-- A batch with one file is started, and a worker takes up the job and processes the file. -/
def oneFile (sourceName : String) : List Step :=
  [.call (.createBatch 0 0 "project"), .call (.addFiles 0 [⟨sourceName, "text", none⟩]), .call (.startBatch 0 0),
    .dispatchOnce ⟨"dispatcher", 60, 0, 0⟩ 10 [], .worker {} (.claimJobs "worker" 1) 0, .call (.processImportFile 0),
    .worker {} (.complete 0 "worker") 0]

theorem oneFile_never_stranded :
    Trace.Always (step textHost) (fun db i => NoneStranded (step textHost db i).2) (initial oneProject) (oneFile "notes.txt") := by
  refine none_stranded textHost oneProject _ ⟨trivial, trivial, regular_start_first ?_ 0 0, trivial, ?_, trivial,
    regular_worker_done ?_ _ _ 0, trivial⟩
  · decide
  · exact fun _ _ _ _ _ hends => Bool.noConfusion hends
  · decide

/-- The file cannot be parsed, and the batch is started again. -/
def startedAgain : List Step := oneFile "notes.json" ++ [.call (.startBatch 0 0)]

/-- **The file is queued; its event is completed and its job has succeeded.** -/
theorem startedAgain_stranded :
    ¬Trace.Always (step textHost) (fun db i => NoneStranded (step textHost db i).2) (initial oneProject) startedAgain := by
  intro h
  have hnone := ((Trace.always_snoc _ _ (oneFile "notes.json") _).mp h).2
  rw [← Trace.exec_snoc] at hnone
  generalize hdb : Trace.exec _ _ _ = db at hnone
  have hfile : (db.files.get? 0).map ImportFile.status = some .queued := by rw [← hdb]; decide
  have hevents : db.queue.events.rows.all fun r => !r.2.status.isLive := by rw [← hdb]; decide
  have hjobs : db.queue.jobs.rows.all fun r => !r.2.status.isUnfinished := by rw [← hdb]; decide
  obtain ⟨file, hfile, hstatus⟩ := Option.map_eq_some_iff.mp hfile
  rcases hnone 0 file hfile hstatus with ⟨e, event, _, _, hevent, _, _, _, _, hlive⟩ | ⟨k, job, _, hjob, _, _, _, hopen⟩
  · have hended := List.all_eq_true.mp hevents _ ((Table.get?_eq_some_iff _ _ _).mp hevent)
    rw [hlive] at hended
    cases hended
  · have hended := List.all_eq_true.mp hjobs _ ((Table.get?_eq_some_iff _ _ _).mp hjob)
    rw [hopen] at hended
    cases hended

end CodexMemory.Import.Stranded
