import CodexMemory.Tasks.Projector

/-!
# What the task service does to its tables

* `appendEvent_cases`: a call stores one event, in the run of its session, or nothing;
* `handle_cases`: a job takes a baseline, writes a report, or does nothing;
* `stored_git`, `stored_changes`: what the projector finds in a stored payload;
* `redact_plain`: what has nothing sensitive stays as it is;
* `appendEvent_new`, `appendEvent_known`: when the first event and a further one of a
  session are accepted.
-/

namespace CodexMemory.Tasks

open Candidates (truthy)
open Hooks (WordTable)

variable {F : Type} {host : Host F} {db : Db F}

/-! ## Rows -/

theorem findRow_some {α : Type} {t : Table α} {p : α → Bool} {k : Nat} {a : α} (h : findRow t p = some (k, a)) :
    t.get? k = some a ∧ p a = true := by
  have hp := List.find?_some h
  exact ⟨(t.get?_eq_some_iff k a).mpr (List.mem_of_find?_eq_some h), hp⟩

theorem findRow_none {α : Type} {t : Table α} {p : α → Bool} (h : findRow t p = none) {k : Nat} {a : α}
    (ha : t.get? k = some a) : p a = false := by
  have hp := List.find?_eq_none.mp h (k, a) ((t.get?_eq_some_iff k a).mp ha)
  simpa using hp

/-! ## Plain values -/

mutual

/-- The value has no sensitive key and no sensitive text. -/
def plain (table : WordTable) : Json F → Bool
  | .obj fields => plainFields table fields
  | .arr items => plainItems table items
  | .str text => redactText table text = text
  | _ => true

def plainFields (table : WordTable) : List (String × Json F) → Bool
  | [] => true
  | (key, value) :: rest => !isSensitiveKey key && plain table value && plainFields table rest

def plainItems (table : WordTable) : List (Json F) → Bool
  | [] => true
  | value :: rest => plain table value && plainItems table rest

end

mutual

/-- **A plain value is not redacted.** -/
theorem redact_plain (table : WordTable) : ∀ {value : Json F}, plain table value = true → redact table value = (value, false)
  | .obj fields, h => by
    rw [plain] at h
    rw [redact, redactFields_plain table h]
  | .arr items, h => by
    rw [plain] at h
    rw [redact, redactItems_plain table h]
  | .str text, h => by
    rw [plain, decide_eq_true_eq] at h
    rw [redact, h]
    simp
  | .null, _ => rfl
  | .bool _, _ => rfl
  | .int _, _ => rfl
  | .float _, _ => rfl

theorem redactFields_plain (table : WordTable) :
    ∀ {fields : List (String × Json F)}, plainFields table fields = true → redactFields table fields = (fields, false)
  | [], _ => rfl
  | (key, value) :: rest, h => by
    rw [plainFields, Bool.and_eq_true, Bool.and_eq_true, Bool.not_eq_true'] at h
    rw [redactFields, h.1.1, redactFields_plain table h.2]
    simp [redact_plain table h.1.2]

theorem redactItems_plain (table : WordTable) :
    ∀ {items : List (Json F)}, plainItems table items = true → redactItems table items = (items, false)
  | [], _ => rfl
  | value :: rest, h => by
    rw [plainItems, Bool.and_eq_true] at h
    rw [redactItems, redactItems_plain table h.2]
    simp [redact_plain table h.1]

end

/-! ## `append_event` -/

/-- The row of a run: the one of the session, or a new one. -/
def RunOf (db db' : Db F) (projectId : Nat) (sessionKey : String) (runId : Nat) : Prop :=
  (∃ run, findRow db.runs (isRun projectId sessionKey) = some (runId, run) ∧ db'.runs = db.runs) ∨
    findRow db.runs (isRun projectId sessionKey) = none ∧ runId = db.runs.nextId ∧
      db'.runs = db.runs.insert (newRun projectId sessionKey)

/-- A call that is accepted stores one event in the run of its session. -/
structure Stores [Json.PyFloat F] (host : Host F) (db db' : Db F) (call : Call F) (prepared : Prepared F) (projectId runId : Nat) :
    Prop where
  prepare : prepare host call = .ok prepared
  project : projectOf db.candidates.projects call.projectKey = some projectId
  run : RunOf db db' projectId call.sessionKey runId
  fresh : findRow db.events (isEvent runId call.eventKey) = none
  events : db'.events =
    db.events.insert (prepared.event projectId runId call.eventKey (lastSequence db.events runId + 1))
  candidates : db'.candidates = db.candidates
  reports : db'.reports = db.reports
  changes : db'.changes = db.changes

theorem appendTo_accepted {call : Call F} {prepared : Prepared F} {projectId runId : Nat} {outcome : Outcome}
    {db' : Db F} (h : appendTo host db call prepared projectId runId = .ok (outcome, db'))
    (haccepted : outcome.status = .accepted) :
    outcome = ⟨db.events.nextId, runId, .accepted⟩ ∧ findRow db.events (isEvent runId call.eventKey) = none ∧
      db'.events = db.events.insert (prepared.event projectId runId call.eventKey (lastSequence db.events runId + 1)) ∧
      db'.runs = db.runs ∧ db'.candidates = db.candidates ∧ db'.reports = db.reports ∧ db'.changes = db.changes := by
  unfold appendTo at h
  split at h
  · split at h
    · cases h
    · cases h
      cases haccepted
  · next hnone =>
    split at h
    · cases h
    · simp only at h
      split at h
      · cases h
      · split at h
        · cases h
        · cases h
          exact ⟨rfl, hnone, rfl, rfl, rfl, rfl, rfl⟩

/-- The Git evidence of a stored payload. -/
theorem stored_git (eventType : EventType) (parts : Parts F) (command result : Summary) :
    gitOf (storedPayload eventType parts command result) = gitOf (.obj [("git", parts.git)]) := by
  simp [gitOf, storedPayload, Json.get?, List.lookup]

variable [Json.PyFloat F]

/-- **A call stores one event or nothing.** -/
theorem appendEvent_cases (host : Host F) (db : Db F) (call : Call F) :
    (appendEvent host db call).2 = db ∧ (∀ outcome, (appendEvent host db call).1 = .ok outcome → outcome.status = .duplicate) ∨
      ∃ prepared projectId runId, Stores host db (appendEvent host db call).2 call prepared projectId runId ∧
        (appendEvent host db call).1 = .ok ⟨db.events.nextId, runId, .accepted⟩ := by
  unfold appendEvent
  split
  · exact .inl ⟨rfl, nofun⟩
  · next prepared hprepare =>
    split
    · exact .inl ⟨rfl, nofun⟩
    · next projectId hproject =>
      simp only
      split
      · exact .inl ⟨rfl, nofun⟩
      · next outcome db' happended =>
        by_cases haccepted : outcome.status = .accepted
        · right
          rw [if_pos haccepted]
          split at happended
          · next runId run hrun =>
            obtain ⟨rfl, hfresh, hevents, hruns, hcandidates, hreports, hchanges⟩ := appendTo_accepted happended haccepted
            exact ⟨prepared, projectId, runId, ⟨hprepare, hproject, .inl ⟨run, hrun, hruns⟩, hfresh, hevents, hcandidates,
              hreports, hchanges⟩, rfl⟩
          · next hnone =>
            split at happended
            · cases happended
            · obtain ⟨rfl, hfresh, hevents, hruns, hcandidates, hreports, hchanges⟩ := appendTo_accepted happended haccepted
              exact ⟨prepared, projectId, db.runs.nextId, ⟨hprepare, hproject, .inr ⟨hnone, rfl, hruns⟩, hfresh, hevents,
                hcandidates, hreports, hchanges⟩, rfl⟩
        · left
          rw [if_neg haccepted]
          refine ⟨rfl, fun outcome' houtcome => ?_⟩
          cases houtcome
          cases hstatus : outcome.status with
          | accepted => exact absurd hstatus haccepted
          | duplicate => rfl

/-- The rows of an event that is accepted. -/
def withEvent (db : Db F) (call : Call F) (prepared : Prepared F) (projectId runId : Nat) (key : String) :
    Db F :=
  { db with
    events := db.events.insert (prepared.event projectId runId call.eventKey (lastSequence db.events runId + 1))
    outbox := db.outbox.insert (outboxOf projectId call.projectKey runId db.events.nextId key) }

/-- **A further event of a session is accepted** under a key that the run does not have. -/
theorem appendEvent_known {call : Call F} {prepared : Prepared F} {projectId runId : Nat} {run : TaskRun F} {key : String}
    (hprepare : prepare host call = .ok prepared)
    (hproject : projectOf db.candidates.projects call.projectKey = some projectId)
    (hrun : findRow db.runs (isRun projectId call.sessionKey) = some (runId, run))
    (hfresh : findRow db.events (isEvent runId call.eventKey) = none) (hfits : fits call.eventKey = true)
    (hkey : outboxKey host call.projectKey db.events.nextId = .ok key)
    (hunused : (db.outbox.rows.any fun o => o.2.projectId = projectId && o.2.idempotencyKey = key) = false) :
    appendEvent host db call =
      (.ok ⟨db.events.nextId, runId, .accepted⟩, withEvent db call prepared projectId runId key) := by
  simp only [appendEvent, hprepare, hproject, hrun, appendTo, hfresh, hfits, Bool.not_true, Bool.false_eq_true, if_false,
    hkey, hunused, if_true, withEvent]

/-- **The first event of a session is accepted.** -/
theorem appendEvent_new {call : Call F} {prepared : Prepared F} {projectId : Nat} {key : String}
    (hprepare : prepare host call = .ok prepared)
    (hproject : projectOf db.candidates.projects call.projectKey = some projectId)
    (hnew : findRow db.runs (isRun projectId call.sessionKey) = none) (hsession : fits call.sessionKey = true)
    (hfresh : findRow db.events (isEvent db.runs.nextId call.eventKey) = none) (hfits : fits call.eventKey = true)
    (hkey : outboxKey host call.projectKey db.events.nextId = .ok key)
    (hunused : (db.outbox.rows.any fun o => o.2.projectId = projectId && o.2.idempotencyKey = key) = false) :
    appendEvent host db call = (.ok ⟨db.events.nextId, db.runs.nextId, .accepted⟩,
      withEvent { db with runs := db.runs.insert (newRun projectId call.sessionKey) } call prepared projectId
        db.runs.nextId key) := by
  simp only [appendEvent, hprepare, hproject, hnew, hsession, appendTo, hfresh, hfits, Bool.not_true, Bool.false_eq_true,
    if_false, hkey, hunused, if_true, withEvent]

/-- A call passes within the limit. -/
theorem prepare_of_bytes {call : Call F} {eventType : EventType} (hpermission : requirePermission call.principal "append" = .ok ())
    (haccess : requireProjectAccess call.principal call.projectKey = .ok ())
    (hkeys : ¬(strip call.sessionKey = "" || strip call.eventKey = ""))
    (htype : EventType.ofText? call.eventType = some eventType)
    (hnormalized : canonicalBytes (normalized eventType (call.parts host.table)) ≤ maxEventBytes)
    (hstored : canonicalBytes (storedPayload eventType (call.parts host.table)
      (truncate host (call.parts host.table).command maxCommandBytes)
      (truncate host (call.parts host.table).result maxResultBytes)) ≤ maxEventBytes) :
    ∃ prepared, prepare host call = .ok prepared := by
  have hparts : prepare host call = prepareParts host call eventType := by
    simp only [prepare, hpermission, haccess, htype]
    exact if_neg hkeys
  rw [hparts]
  simp only [prepareParts]
  split
  · next hlarge =>
    rw [Bool.and_eq_true, decide_eq_true_eq] at hlarge
    exact absurd hlarge.1 (Nat.not_lt.mpr hnormalized)
  · split
    · next hlarge => exact absurd hlarge (Nat.not_lt.mpr hstored)
    · exact ⟨_, rfl⟩

/-! ## What is stored -/

/-- What the columns of an event are made of. -/
structure Prepares (host : Host F) (call : Call F) (prepared : Prepared F) : Prop where
  eventType : EventType.ofText? call.eventType = some prepared.eventType
  occurredAt : prepared.occurredAt = call.occurredAt
  storedPayload : prepared.storedPayload =
    Tasks.storedPayload prepared.eventType (call.parts host.table) prepared.command prepared.result
  metadata : prepared.metadata = (call.parts host.table).metadata
  command : prepared.command = truncate host (call.parts host.table).command maxCommandBytes
  result : prepared.result = truncate host (call.parts host.table).result maxResultBytes
  exitCode : prepared.exitCode = exitCodeColumn (call.parts host.table).exitCode
  redactionApplied : prepared.redactionApplied = (call.parts host.table).redacted

theorem prepare_ok {call : Call F} {prepared : Prepared F} (h : prepare host call = .ok prepared) :
    Prepares host call prepared := by
  unfold prepare at h
  split at h
  · cases h
  · split at h
    · cases h
    · split at h
      · cases h
      · split at h
        · cases h
        · next eventType htype =>
          unfold prepareParts at h
          simp only at h
          split at h
          · cases h
          · split at h
            · cases h
            · cases h
              exact ⟨htype, rfl, rfl, rfl, rfl, rfl, rfl, rfl⟩

/-- The parts of the call are in the payload of its event. -/
theorem prepare_payload {call : Call F} {prepared : Prepared F} (h : prepare host call = .ok prepared) :
    prepared.storedPayload = storedPayload prepared.eventType (call.parts host.table) prepared.command prepared.result ∧
      EventType.ofText? call.eventType = some prepared.eventType :=
  ⟨(prepare_ok h).storedPayload, (prepare_ok h).eventType⟩

/-- A stored payload has no list of changes. -/
theorem stored_changes (eventType : EventType) (parts : Parts F) (command result : Summary) :
    rawChanges (storedPayload eventType parts command result) = [] := by
  simp [rawChanges, storedPayload, Json.get?, List.lookup, either, truthy]

/-! ## `handle` -/

/-- The event, its run, and that they belong together. -/
structure Job (db : Db F) (eventId : Nat) (event : TaskEvent F) (run : TaskRun F) : Prop where
  stored : db.events.get? eventId = some event
  started : db.runs.get? event.taskRunId = some run
  project : run.projectId = event.projectId

/-- What `writeReport` does when it succeeds. -/
structure Reports (host : Host F) (db db' : Db F) (eventId : Nat) (event : TaskEvent F) (run : TaskRun F) (kind : Kind)
    (changes : List (List (String × Json F))) : Prop where
  changesFor : changesFor host (eventsOf db event.taskRunId) = some changes
  fresh : ∀ id r, db.reports.get? id = some r → r.taskRunId = event.taskRunId →
    r.revision ≠ run.currentReportRevision + 1
  reports : db'.reports = db.reports.insert (reportRow host eventId event.taskRunId run (eventsOf db event.taskRunId)
    changes kind (run.currentReportRevision + 1))
  runs : db'.runs = db.runs.modify event.taskRunId fun row =>
    reportedRun row kind event.occurredAt (run.currentReportRevision + 1)
  events : db'.events = db.events
  projects : db'.candidates.projects = db.candidates.projects

/-- **What a job does.** -/
inductive Handled (host : Host F) (db : Db F) (eventId : Nat) : Except Error (Option Nat) → Db F → Prop
  | nothing (result : Except Error (Option Nat)) : Handled host db eventId result db
  | captured (event : TaskEvent F) (run : TaskRun F) (git : Baseline F) (job : Job db eventId event run)
      (type : event.eventType = .preToolUse) (unset : run.git.available = none)
      (capture : captureBaseline host event.payloadJson = some git) :
      Handled host db eventId (.ok none)
        { db with runs := db.runs.modify event.taskRunId fun run => { run with git := git } }
  | reported (event : TaskEvent F) (run : TaskRun F) (kind : Kind) (changes : List (List (String × Json F))) (db' : Db F)
      (job : Job db eventId event run) (type : kindOf event.eventType = some kind)
      (first : ∀ id r, db.reports.get? id = some r → r.sourceEventId ≠ eventId)
      (reports : Reports host db db' eventId event run kind changes) :
      Handled host db eventId (.ok (some db.reports.nextId)) db'

omit [Json.PyFloat F] in
theorem projectL1_projects (db : Candidates.Db F) (projectId : Nat) (report : Memories.Report) :
    (Memories.projectL1 db projectId report).projects = db.projects := by
  unfold Memories.projectL1
  split <;> rfl

theorem writeReport_cases (host : Host F) (db : Db F) (eventId : Nat) (event : TaskEvent F) (run : TaskRun F)
    (kind : Kind) :
    (writeReport host db eventId event.taskRunId run kind event.occurredAt).2 = db ∨
      (∃ changes, Reports host db (writeReport host db eventId event.taskRunId run kind event.occurredAt).2 eventId event
          run kind changes) ∧
        (writeReport host db eventId event.taskRunId run kind event.occurredAt).1 = .ok db.reports.nextId := by
  unfold writeReport
  simp only
  split
  · exact .inl rfl
  · next changes hchanges =>
    split
    · exact .inl rfl
    · next hfresh =>
      refine .inr ⟨⟨changes, hchanges, fun id r hr hrun hrevision => hfresh ?_, rfl, rfl, rfl,
        projectL1_projects _ _ _⟩, rfl⟩
      rw [List.any_eq_true]
      refine ⟨(id, r), (db.reports.get?_eq_some_iff id r).mp hr, ?_⟩
      simp [hrun, hrevision]

theorem handle_cases (host : Host F) (db : Db F) (eventId : Nat) :
    Handled host db eventId (handle host db eventId).1 (handle host db eventId).2 := by
  unfold handle
  split
  · exact .nothing _
  · next event hevent =>
    split
    · exact .nothing _
    · next run hrun =>
      split
      · exact .nothing _
      · next hproject =>
        have job : Job db eventId event run := ⟨hevent, hrun, not_not.mp hproject⟩
        split
        · next hcapture =>
          split
          · exact .nothing _
          · next git hgit => exact .captured event run git job hcapture.1 hcapture.2 hgit
        · split
          · exact .nothing _
          · next kind hkind =>
            split
            · exact .nothing _
            · next hnone =>
              have hfirst : ∀ id r, db.reports.get? id = some r → r.sourceEventId ≠ eventId := by
                intro id r hr hsource
                have hno := findRow_none hnone hr
                rw [hsource, decide_eq_false_iff_not] at hno
                exact hno rfl
              rcases writeReport_cases host db eventId event run kind with hsame | ⟨⟨changes, hreports⟩, hok⟩
              · simp only [hsame]
                exact .nothing _
              · simp only [hok]
                exact .reported event run kind changes _ job hkind hfirst hreports

/-- The first evidence becomes the baseline. -/
theorem handle_capture {eventId : Nat} {event : TaskEvent F} {run : TaskRun F} (job : Job db eventId event run)
    (htype : event.eventType = .preToolUse) (hunset : run.git.available = none) {git : Baseline F}
    (hcapture : captureBaseline host event.payloadJson = some git) :
    handle host db eventId =
      (.ok none, { db with runs := db.runs.modify event.taskRunId fun run => { run with git := git } }) := by
  have hproject : ¬run.projectId ≠ event.projectId := not_not.mpr job.project
  simp only [handle, job.stored, job.started, if_neg hproject, if_pos (And.intro htype hunset), hcapture]

/-- The end of a session that has no report yet is reported. -/
theorem handle_end {eventId : Nat} {event : TaskEvent F} {run : TaskRun F} (job : Job db eventId event run) {kind : Kind}
    (hkind : kindOf event.eventType = some kind) (hfirst : ∀ id r, db.reports.get? id = some r → r.sourceEventId ≠ eventId)
    {changes : List (List (String × Json F))} (hchanges : changesFor host (eventsOf db event.taskRunId) = some changes)
    (hfresh : ∀ id r, db.reports.get? id = some r → r.taskRunId = event.taskRunId →
      r.revision ≠ run.currentReportRevision + 1) :
    Reports host db (handle host db eventId).2 eventId event run kind changes := by
  have hpre : ¬(event.eventType = .preToolUse ∧ run.git.available = none) := by
    rintro ⟨htype, -⟩
    rw [htype] at hkind
    cases hkind
  have hnone : (findRow db.reports fun r => r.sourceEventId = eventId) = none := by
    rw [findRow, List.find?_eq_none]
    intro r hr
    simpa using hfirst r.1 r.2 ((db.reports.get?_eq_some_iff r.1 r.2).mpr hr)
  have hany : (db.reports.rows.any fun r => r.2.taskRunId = event.taskRunId &&
      r.2.revision = run.currentReportRevision + 1) = false := by
    rw [List.any_eq_false]
    intro r hr
    have hne := hfresh r.1 r.2 ((db.reports.get?_eq_some_iff r.1 r.2).mpr hr)
    simpa using hne
  have hwrite : Reports host db (writeReport host db eventId event.taskRunId run kind event.occurredAt).2 eventId event run
      kind changes := by
    simp only [writeReport, hchanges, hany, Bool.false_eq_true, if_false]
    exact ⟨hchanges, hfresh, rfl, rfl, rfl, projectL1_projects _ _ _⟩
  simpa only [handle, job.stored, job.started, job.project, ne_eq, not_true, if_false, if_neg hpre, hkind, hnone] using hwrite

/-! ## Evidence that is not there -/

/-- The baseline of a run whose event brings no Git evidence. -/
def unavailable : Baseline F := { available := some false }

theorem captureBaseline_empty {payloadJson : Json F} (h : gitOf payloadJson = []) :
    captureBaseline host payloadJson = some unavailable := by
  simp [captureBaseline, h, field, either, truthy, textColumn, flagColumn, unavailable]

omit [Json.PyFloat F] in
theorem isUncertain_unavailable : isUncertain (unavailable : Baseline F) = true := rfl

theorem changesFor_empty {events : List (TaskEvent F)} (h : ∀ e ∈ events, rawChanges e.payloadJson = []) :
    changesFor host events = some [] := by
  have hraw : (events.flatMap fun event => rawChanges event.payloadJson) = [] := by
    rw [List.flatMap_eq_nil_iff]
    exact h
  rw [changesFor, hraw]
  rfl

omit [Json.PyFloat F] in
theorem mem_eventsOf {runId : Nat} {e : TaskEvent F} :
    e ∈ eventsOf db runId ↔ e.taskRunId = runId ∧ ∃ id, db.events.get? id = some e := by
  simp only [eventsOf, List.mem_map, mem_sortBy, Prod.exists, exists_eq_right, Table.mem_select, decide_eq_true_eq]
  constructor
  · rintro ⟨id, hid, hrun⟩
    exact ⟨hrun, id, hid⟩
  · rintro ⟨hrun, id, hid⟩
    exact ⟨id, hid, hrun⟩

end CodexMemory.Tasks
