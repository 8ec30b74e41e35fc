import CodexMemory.Hooks.Manifest
import CodexMemory.Tasks.Effects

/-!
# The Git evidence of the hooks

A hook sends its baseline under `metadata.git_baseline` and its manifest under
`metadata.change_manifest`; the service reads Git evidence from `git` or `payload.git`
and changes from `file_changes`.  So the run of a session that only a hook records has
the baseline of a directory without Git and its reports have no changes
(`recorded_deliver`), which is what the hook saw only where Git was
not available (`evidence_iff`).
-/

namespace CodexMemory.Tasks

open Hooks (asciiTable GitSnapshot Manifest TaskPayload DiffLine taskPayload baselineMetadata manifestMetadata buildChangeManifest)

variable {F : Type} [Json.PyFloat F] {host : Host F} {db : Db F}

/-! ## What a hook sends -/

/-- `POST /api/v1/task-events` with the payload of a hook: the fields that it lacks get their defaults. -/
def requestOf (principal : Principal) (payload : TaskPayload F) : Call F where
  principal := principal
  projectKey := payload.projectKey
  sessionKey := payload.sessionKey
  eventKey := payload.eventKey
  eventType := payload.eventType
  metadata := payload.metadata

/-- An event of the hook: its type, the turn and the tool call that name it, and its metadata. -/
structure HookEvent (F : Type) where
  eventType : EventType
  turnId : String
  toolCall : String
  metadata : List (String × Json F)

/-- A session that a hook records: a tool use with the baseline, further events, and an end with the manifest. -/
structure Recording (F : Type) where
  principal : Principal
  projectKey : String
  sessionKey : String
  baseline : GitSnapshot F
  current : GitSnapshot F
  diff : List DiffLine
  turnId : String
  toolCall : String
  tool : List (String × Json F)
  between : List (HookEvent F)
  endType : EventType
  endTurnId : String
  ends : endType = .stop ∨ endType = .sessionEnd

namespace Recording

def call (host : Host F) (r : Recording F) (event : HookEvent F) : Call F :=
  requestOf r.principal (taskPayload host.table event.eventType.text r.projectKey r.sessionKey event.turnId event.toolCall
    event.metadata)

def manifest (host : Host F) (r : Recording F) : Manifest F := buildChangeManifest host.str r.baseline r.current r.diff

/-- The event with the baseline. -/
def start (r : Recording F) : HookEvent F := ⟨.preToolUse, r.turnId, r.toolCall, baselineMetadata r.tool r.baseline⟩

/-- The event with the manifest. -/
def finish (host : Host F) (r : Recording F) : HookEvent F :=
  ⟨r.endType, r.endTurnId, "", manifestMetadata host.sha256 (r.manifest host)⟩

end Recording

/-- The event is stored and its job is run. -/
def deliver (host : Host F) (db : Db F) (call : Call F) : Db F :=
  match appendEvent host db call with
  | (.error _, db) => db
  | (.ok outcome, db) => (handle host db outcome.eventId).2

/-- The database before the end of the session, and after it. -/
def beforeEnd (host : Host F) (db : Db F) (r : Recording F) : Db F :=
  ((r.start :: r.between).map (r.call host)).foldl (deliver host) db

def afterEnd (host : Host F) (db : Db F) (r : Recording F) : Db F :=
  deliver host (beforeEnd host db r) (r.call host (r.finish host))

/-! ## What the service shows -/

/-- The columns show the snapshot. -/
structure Shows (git : Baseline F) (snapshot : GitSnapshot F) : Prop where
  available : git.available = some snapshot.available
  branch : git.branch = snapshot.branch
  head : git.head = snapshot.head
  porcelain : git.statusPorcelain.getD "" = snapshot.porcelain
  diffHash : git.diffHash = snapshot.diffHash
  untracked : git.untracked = .arr (snapshot.untracked.map Json.obj) ∨ git.untracked = .null ∧ snapshot.untracked = []

/-- Path, old path and kind of a change. -/
def shownChange (host : Host F) (item : List (String × Json F)) : String × Json F × String :=
  (textOr host item "path" "", field item "old_path", textOr host item "change_type" "modified")

def manifestChange (file : Hooks.ManifestFile F) : String × Json F × String :=
  (file.path, textOrNull file.oldPath, file.change)

/-- The run of the session and the report of its end agree with the hook. -/
def Agrees (host : Host F) (db : Db F) (projectId endId : Nat) (r : Recording F) : Prop :=
  ∃ runId run reportId report, db.runs.get? runId = some run ∧ isRun projectId r.sessionKey run = true ∧
    db.reports.get? reportId = some report ∧ report.sourceEventId = endId ∧ report.taskRunId = runId ∧
    Shows run.git r.baseline ∧ Shows report.reportJson.gitBaseline r.baseline ∧
    report.uncertain = (r.manifest host).uncertain ∧
    report.reportJson.changes.map (shownChange host) = (r.manifest host).files.map manifestChange

/-- Git was not available, and there is nothing else to show. -/
structure Blank (snapshot : GitSnapshot F) : Prop where
  available : snapshot.available = false
  branch : snapshot.branch = none
  head : snapshot.head = none
  porcelain : snapshot.porcelain = ""
  diffHash : snapshot.diffHash = none
  untracked : snapshot.untracked = []

/-! ## The run of a recorded session -/

/-- The rows that are there belong together: events to runs, reports to events that have been. -/
structure Linked (db : Db F) : Prop where
  events : ∀ id e, db.events.get? id = some e → e.taskRunId < db.runs.nextId
  sources : ∀ id report, db.reports.get? id = some report → report.sourceEventId < db.events.nextId
  runs : ∀ id report, db.reports.get? id = some report → report.taskRunId < db.runs.nextId

/-- The run is that of the session, and its events bring no evidence that the projector finds. -/
structure Recorded (db : Db F) (projectId : Nat) (sessionKey : String) (runId : Nat) (git : Baseline F) : Prop where
  linked : Linked db
  run : ∃ run, db.runs.get? runId = some run ∧ isRun projectId sessionKey run = true ∧ run.git = git ∧
    ∀ id report, db.reports.get? id = some report → report.taskRunId = runId → report.revision ≤ run.currentReportRevision
  only : ∀ id run, db.runs.get? id = some run → isRun projectId sessionKey run = true → id = runId
  events : ∀ id e, db.events.get? id = some e → e.taskRunId = runId →
    e.projectId = projectId ∧ gitOf e.payloadJson = [] ∧ rawChanges e.payloadJson = []

/-! ## Storing an event -/

/-- What a request of a hook stores brings no evidence. -/
theorem prepared_of_hook {principal : Principal} {payload : TaskPayload F} {prepared : Prepared F}
    (h : prepare host (requestOf principal payload) = .ok prepared) :
    gitOf prepared.storedPayload = [] ∧ rawChanges prepared.storedPayload = [] := by
  rw [(prepare_payload h).1]
  exact ⟨by rw [stored_git]; rfl, stored_changes _ _ _ _⟩

omit [Json.PyFloat F] in
/-- The runs after a call: those before, and perhaps the new one of the session. -/
theorem runOf_get? {db' : Db F} {projectId runId : Nat} {sessionKey : String} (h : RunOf db db' projectId sessionKey runId) :
    db.runs.nextId ≤ db'.runs.nextId ∧ runId < db'.runs.nextId ∧
      (∀ id run, db.runs.get? id = some run → db'.runs.get? id = some run) ∧
      ∀ id run, db'.runs.get? id = some run →
        db.runs.get? id = some run ∨ id = runId ∧ run = newRun projectId sessionKey ∧
          findRow db.runs (isRun projectId sessionKey) = none := by
  rcases h with ⟨run, hrun, hsame⟩ | ⟨hnone, rfl, hinsert⟩
  · rw [hsame]
    exact ⟨le_rfl, db.runs.lt_nextId (findRow_some hrun).1, fun _ _ h => h, fun _ _ h => .inl h⟩
  · rw [hinsert]
    refine ⟨Nat.le_succ _, Nat.lt_succ_self _, fun id run h => ?_, fun id run h => ?_⟩
    · rw [Table.get?_insert_ne _ _ (Nat.ne_of_lt (db.runs.lt_nextId h))]
      exact h
    · rcases Table.get?_insert_cases h with ⟨rfl, rfl⟩ | ⟨-, h⟩
      · exact .inr ⟨rfl, rfl, hnone⟩
      · exact .inl h

theorem linked_stores {db' : Db F} {call : Call F} {prepared : Prepared F} {projectId runId : Nat} (h : Linked db)
    (hstores : Stores host db db' call prepared projectId runId) : Linked db' := by
  obtain ⟨hnext, hrun, -, -⟩ := runOf_get? hstores.run
  refine ⟨fun id e he => ?_, fun id report hreport => ?_, fun id report hreport => ?_⟩
  · rw [hstores.events] at he
    rcases Table.get?_insert_cases he with ⟨-, rfl⟩ | ⟨-, he⟩
    · exact hrun
    · exact (h.events id e he).trans_le hnext
  · rw [hstores.reports] at hreport
    rw [hstores.events, Table.nextId_insert]
    exact (h.sources id report hreport).trans_le (Nat.le_succ _)
  · rw [hstores.reports] at hreport
    exact (h.runs id report hreport).trans_le hnext

/-- A further event of the hook. -/
theorem recorded_stores {projectId runId : Nat} {git : Baseline F} {principal : Principal} {payload : TaskPayload F}
    (h : Recorded db projectId payload.sessionKey runId git) {db' : Db F} {prepared : Prepared F} {runId' : Nat}
    (hstores : Stores host db db' (requestOf principal payload) prepared projectId runId') :
    Recorded db' projectId payload.sessionKey runId git ∧ runId' = runId := by
  obtain ⟨run, hrun, his, hgit, hrevisions⟩ := h.run
  have hsame : runId' = runId ∧ db'.runs = db.runs := by
    rcases hstores.run with ⟨run', hfind, hsame⟩ | ⟨hnone, -⟩
    · obtain ⟨hrun', his'⟩ := findRow_some hfind
      exact ⟨h.only _ _ hrun' his', hsame⟩
    · have hno := findRow_none hnone hrun
      rw [show isRun projectId (requestOf principal payload).sessionKey run = true from his] at hno
      cases hno
  obtain ⟨rfl, hruns⟩ := hsame
  refine ⟨⟨linked_stores h.linked hstores, ?_, ?_, fun id e he hof => ?_⟩, rfl⟩
  · rw [hruns, hstores.reports]
    exact h.run
  · rw [hruns]
    exact h.only
  · rw [hstores.events] at he
    rcases Table.get?_insert_cases he with ⟨-, rfl⟩ | ⟨-, he⟩
    · exact ⟨rfl, prepared_of_hook hstores.prepare⟩
    · exact h.events id e he hof

/-! ## Running a job -/

theorem linked_handle (host : Host F) (h : Linked db) (eventId : Nat) : Linked (handle host db eventId).2 := by
  generalize hout : (handle host db eventId).2 = db'
  have hcases := handle_cases host db eventId
  rw [hout] at hcases
  generalize (handle host db eventId).1 = result at hcases
  cases hcases with
  | nothing => exact h
  | captured event run git job =>
    exact ⟨fun id e he => h.events id e he, h.sources, fun id report hreport => h.runs id report hreport⟩
  | reported event run kind changes db' job type first reports =>
    have hnext : db'.runs.nextId = db.runs.nextId := by rw [reports.runs]; rfl
    refine ⟨fun id e he => ?_, fun id report hreport => ?_, fun id report hreport => ?_⟩
    · rw [reports.events] at he
      rw [hnext]
      exact h.events id e he
    · rw [reports.events]
      rw [reports.reports] at hreport
      rcases Table.get?_insert_cases hreport with ⟨-, rfl⟩ | ⟨-, hreport⟩
      · exact db.events.lt_nextId job.stored
      · exact h.sources id report hreport
    · rw [hnext]
      rw [reports.reports] at hreport
      rcases Table.get?_insert_cases hreport with ⟨-, rfl⟩ | ⟨-, hreport⟩
      · exact db.runs.lt_nextId job.started
      · exact h.runs id report hreport

omit [Json.PyFloat F] in
/-- Changes of a row that keep its project and its session. -/
theorem only_modify {projectId runId : Nat} {sessionKey : String} {k : Nat} {f : TaskRun F → TaskRun F}
    (hf : ∀ run, isRun projectId sessionKey (f run) = isRun projectId sessionKey run)
    (h : ∀ id run, db.runs.get? id = some run → isRun projectId sessionKey run = true → id = runId) :
    ∀ id run, (db.runs.modify k f).get? id = some run → isRun projectId sessionKey run = true → id = runId := by
  intro id run hrun his
  rw [Table.get?_modify] at hrun
  obtain ⟨old, hold, rfl⟩ := Option.map_eq_some_iff.mp hrun
  refine h id old hold ?_
  split at his
  · rwa [hf] at his
  · exact his

/-- A job of any run keeps what is known of the recorded one. -/
theorem recorded_handle (host : Host F) {projectId runId : Nat} {sessionKey : String} {git : Baseline F} (hgit : git.available ≠ none)
    (h : Recorded db projectId sessionKey runId git) (eventId : Nat) :
    Recorded (handle host db eventId).2 projectId sessionKey runId git := by
  have hlinked := linked_handle host h.linked eventId
  generalize hout : (handle host db eventId).2 = db' at hlinked
  have hcases := handle_cases host db eventId
  rw [hout] at hcases
  generalize (handle host db eventId).1 = result at hcases
  obtain ⟨run, hrun, his, hgitOf, hrevisions⟩ := h.run
  cases hcases with
  | nothing => exact h
  | captured event other git' job type unset =>
    have hother : event.taskRunId ≠ runId := by
      intro heq
      have hsame := Option.some.inj (hrun.symm.trans (heq ▸ job.started))
      rw [← hsame, hgitOf] at unset
      exact hgit unset
    refine ⟨hlinked, ⟨run, ?_, his, hgitOf, hrevisions⟩, only_modify (fun _ => rfl) h.only, h.events⟩
    exact (Table.get?_modify_ne _ _ hother.symm).trans hrun
  | reported event other kind changes db' job type first reports =>
    refine ⟨hlinked, ?_, ?_, ?_⟩
    · rw [reports.runs, reports.reports]
      by_cases heq : event.taskRunId = runId
      · have hsame := Option.some.inj (hrun.symm.trans (heq ▸ job.started))
        subst hsame
        refine ⟨reportedRun run kind event.occurredAt (run.currentReportRevision + 1),
          by rw [heq, Table.get?_modify_self, hrun]; rfl, his, hgitOf, fun id report hreport hof => ?_⟩
        rcases Table.get?_insert_cases hreport with ⟨-, rfl⟩ | ⟨-, hreport⟩
        · exact le_rfl
        · exact (hrevisions id report hreport hof).trans (Nat.le_succ _)
      · refine ⟨run, (Table.get?_modify_ne _ _ (Ne.symm heq)).trans hrun, his, hgitOf, fun id report hreport hof => ?_⟩
        rcases Table.get?_insert_cases hreport with ⟨-, rfl⟩ | ⟨-, hreport⟩
        · exact absurd hof heq
        · exact hrevisions id report hreport hof
    · rw [reports.runs]
      exact only_modify (fun _ => rfl) h.only
    · rw [reports.events]
      exact h.events

/-! ## Delivery -/

theorem handle_projects (host : Host F) (db : Db F) (eventId : Nat) :
    (handle host db eventId).2.candidates.projects = db.candidates.projects := by
  have hcases := handle_cases host db eventId
  generalize (handle host db eventId).2 = db' at hcases
  generalize (handle host db eventId).1 = result at hcases
  cases hcases with
  | nothing => rfl
  | captured => rfl
  | reported event run kind changes db' job type first reports => exact reports.projects

/-- A delivery is a call and, unless it raises, the job of an event. -/
theorem deliver_cases (host : Host F) (db : Db F) (call : Call F) :
    deliver host db call = (appendEvent host db call).2 ∨
      ∃ eventId, deliver host db call = (handle host (appendEvent host db call).2 eventId).2 := by
  unfold deliver
  split
  · next happend => exact .inl (by rw [happend])
  · next outcome db' happend => exact .inr ⟨outcome.eventId, by rw [happend]⟩

theorem appendEvent_projects (host : Host F) (db : Db F) (call : Call F) :
    (appendEvent host db call).2.candidates.projects = db.candidates.projects := by
  rcases appendEvent_cases host db call with ⟨hsame, -⟩ | ⟨prepared, projectId, runId, hstores, -⟩
  · rw [hsame]
  · rw [hstores.candidates]

theorem deliver_projects (host : Host F) (db : Db F) (call : Call F) :
    (deliver host db call).candidates.projects = db.candidates.projects := by
  rcases deliver_cases host db call with h | ⟨eventId, h⟩
  · rw [h, appendEvent_projects]
  · rw [h, handle_projects, appendEvent_projects]

/-- **Every delivery keeps the run as it is recorded.** -/
theorem recorded_deliver {projectId runId : Nat} {git : Baseline F} (hgit : git.available ≠ none) {principal : Principal}
    {payload : TaskPayload F} (hproject : projectOf db.candidates.projects payload.projectKey = some projectId)
    (h : Recorded db projectId payload.sessionKey runId git) :
    Recorded (deliver host db (requestOf principal payload)) projectId payload.sessionKey runId git := by
  have happended : Recorded (appendEvent host db (requestOf principal payload)).2 projectId payload.sessionKey runId git := by
    rcases appendEvent_cases host db (requestOf principal payload) with ⟨hsame, -⟩ | ⟨prepared, p, runId', hstores, -⟩
    · rw [hsame]
      exact h
    · cases hproject.symm.trans hstores.project
      exact (recorded_stores h hstores).1
  rcases deliver_cases host db (requestOf principal payload) with hsame | ⟨eventId, hsame⟩
  · rw [hsame]
    exact happended
  · rw [hsame]
    exact recorded_handle host hgit happended eventId

/-- A call that is accepted is followed by the job of its event. -/
theorem deliver_accepted {call : Call F} {outcome : Outcome} (hok : (appendEvent host db call).1 = .ok outcome) :
    deliver host db call = (handle host (appendEvent host db call).2 outcome.eventId).2 := by
  unfold deliver
  split
  · next happend =>
    rw [happend] at hok
    cases hok
  · next outcome' db' happend =>
    rw [happend] at hok
    cases hok
    rw [happend]

/-- A call that is accepted stores its event. -/
theorem stores_of_accepted {call : Call F} {outcome : Outcome} (hok : (appendEvent host db call).1 = .ok outcome)
    (hstatus : outcome.status = .accepted) :
    ∃ prepared projectId runId, Stores host db (appendEvent host db call).2 call prepared projectId runId ∧
      outcome.eventId = db.events.nextId := by
  rcases appendEvent_cases host db call with ⟨-, hduplicate⟩ | ⟨prepared, projectId, runId, hstores, hresult⟩
  · have hdup := hduplicate outcome hok
    rw [hstatus] at hdup
    cases hdup
  · cases hok.symm.trans hresult
    exact ⟨prepared, projectId, runId, hstores, rfl⟩

/-- The first event of a session that is accepted: its job finds no Git evidence. -/
theorem recorded_start {r : Recording F} {projectId : Nat} (hlinked : Linked db)
    (hproject : projectOf db.candidates.projects r.projectKey = some projectId)
    (hnew : findRow db.runs (isRun projectId r.sessionKey) = none)
    (haccepted : ∃ outcome, (appendEvent host db (r.call host r.start)).1 = .ok outcome ∧ outcome.status = .accepted) :
    ∃ runId, Recorded (deliver host db (r.call host r.start)) projectId r.sessionKey runId unavailable := by
  obtain ⟨outcome, hok, hstatus⟩ := haccepted
  obtain ⟨prepared, p, runId, hstores, heventId⟩ := stores_of_accepted hok hstatus
  cases hproject.symm.trans hstores.project
  have hlinked' := linked_stores hlinked hstores
  rw [deliver_accepted hok, heventId]
  generalize (appendEvent host db (r.call host r.start)).2 = db' at hstores hlinked'
  rcases hstores.run with ⟨run, hfind, -⟩ | ⟨-, rfl, hruns⟩
  · cases hnew.symm.trans hfind
  · have hevidence := prepared_of_hook hstores.prepare
    have htype : prepared.eventType = .preToolUse := Option.some.inj ((prepare_payload hstores.prepare).2.symm.trans rfl)
    have hrun : db'.runs.get? db.runs.nextId = some (newRun projectId r.sessionKey) := by
      rw [hruns]
      exact Table.get?_insert_self _ _
    have hevent : db'.events.get? db.events.nextId = some (prepared.event projectId db.runs.nextId
        (r.call host r.start).eventKey (lastSequence db.events db.runs.nextId + 1)) := by
      rw [hstores.events]
      exact Table.get?_insert_self _ _
    have hlinked'' := linked_handle host hlinked' db.events.nextId
    have job : Job db' db.events.nextId _ (newRun projectId r.sessionKey) := ⟨hevent, hrun, rfl⟩
    rw [handle_capture job htype rfl (captureBaseline_empty hevidence.1)] at hlinked'' ⊢
    refine ⟨db.runs.nextId, ?_⟩
    constructor
    case linked => exact hlinked''
    case run =>
      have hkept : (db'.runs.modify db.runs.nextId fun run => { run with git := unavailable }).get? db.runs.nextId =
          some { (newRun projectId r.sessionKey : TaskRun F) with git := unavailable } :=
        (Table.get?_modify_self _ _ _).trans (by rw [hrun]; rfl)
      refine ⟨_, hkept, ?_, rfl, ?_⟩
      · simp [isRun, newRun]
      · intro id report hreport hof
        change db'.reports.get? id = some report at hreport
        rw [hstores.reports] at hreport
        exact absurd hof (Nat.ne_of_lt (hlinked.runs id report hreport))
    case only =>
      refine only_modify (fun _ => rfl) fun id run hrun' his => ?_
      rw [hruns] at hrun'
      rcases Table.get?_insert_cases hrun' with ⟨rfl, -⟩ | ⟨-, hold⟩
      · rfl
      · have hno := findRow_none hnew hold
        rw [his] at hno
        cases hno
    case events =>
      intro id e he hof
      change db'.events.get? id = some e at he
      rw [hstores.events] at he
      rcases Table.get?_insert_cases he with ⟨-, rfl⟩ | ⟨-, hold⟩
      · exact ⟨rfl, hevidence⟩
      · exact absurd hof (Nat.ne_of_lt (hlinked.events id e hold))

/-- The run before the end of the session. -/
theorem recorded_beforeEnd {r : Recording F} {projectId : Nat} (hlinked : Linked db)
    (hproject : projectOf db.candidates.projects r.projectKey = some projectId)
    (hnew : findRow db.runs (isRun projectId r.sessionKey) = none)
    (haccepted : ∃ outcome, (appendEvent host db (r.call host r.start)).1 = .ok outcome ∧ outcome.status = .accepted) :
    (∃ runId, Recorded (beforeEnd host db r) projectId r.sessionKey runId unavailable) ∧
      (beforeEnd host db r).candidates.projects = db.candidates.projects := by
  obtain ⟨runId, hstart⟩ := recorded_start hlinked hproject hnew haccepted
  have hprojects := deliver_projects host db (r.call host r.start)
  -- induction on the events between, from the database after the first one
  have hrun : ∀ (events : List (HookEvent F)) (d : Db F), Recorded d projectId r.sessionKey runId unavailable →
      d.candidates.projects = db.candidates.projects →
      Recorded ((events.map (r.call host)).foldl (deliver host) d) projectId r.sessionKey runId unavailable ∧
        ((events.map (r.call host)).foldl (deliver host) d).candidates.projects = db.candidates.projects := by
    intro events
    induction events with
    | nil => exact fun d hd hp => ⟨hd, hp⟩
    | cons event events ih =>
      intro d hd hp
      rw [List.map_cons, List.foldl_cons]
      refine ih _ ?_ ((deliver_projects host d _).trans hp)
      refine recorded_deliver (by simp [unavailable]) ?_ hd
      rw [hp]
      exact hproject
  have hall := hrun r.between _ hstart hprojects
  exact ⟨⟨runId, hall.1⟩, hall.2⟩

/-! ## The report -/

omit [Json.PyFloat F] in
theorem shows_unavailable {snapshot : GitSnapshot F} : Shows unavailable snapshot ↔ Blank snapshot := by
  constructor
  · rintro ⟨havailable, hbranch, hhead, hporcelain, hdiff, huntracked⟩
    refine ⟨(Option.some.inj havailable).symm, hbranch.symm, hhead.symm, hporcelain.symm, hdiff.symm, ?_⟩
    rcases huntracked with h | h
    · cases h
    · exact h.2
  · rintro ⟨havailable, hbranch, hhead, hporcelain, hdiff, huntracked⟩
    refine ⟨by rw [havailable]; rfl, hbranch.symm, hhead.symm, hporcelain.symm, hdiff.symm, .inr ⟨rfl, huntracked⟩⟩

omit [Json.PyFloat F] in
/-- The manifest against a directory without Git. -/
theorem manifest_of_blank (host : Host F) {r : Recording F} (h : Blank r.baseline) :
    (r.manifest host).uncertain = true ∧ (r.manifest host).files = [] := by
  simp [Recording.manifest, buildChangeManifest, h.available]

omit [Json.PyFloat F] in
theorem kindOf_end {r : Recording F} : ∃ kind, kindOf r.endType = some kind := by
  rcases r.ends with h | h <;> rw [h]
  · exact ⟨.checkpoint, rfl⟩
  · exact ⟨.final, rfl⟩

/-- The end of the session gets a report, without evidence and without changes. -/
theorem reported_end {r : Recording F} {projectId runId : Nat} (h : Recorded db projectId r.sessionKey runId unavailable)
    {db' : Db F} {prepared : Prepared F} {runId' : Nat}
    (hstores : Stores host db db' (r.call host (r.finish host)) prepared projectId runId') :
    ∃ reportId report, (handle host db' db.events.nextId).2.reports.get? reportId = some report ∧
      report.sourceEventId = db.events.nextId ∧ report.taskRunId = runId ∧ report.reportJson.gitBaseline = unavailable ∧
      report.uncertain = true ∧ report.reportJson.changes = [] := by
  obtain ⟨h', rfl⟩ := recorded_stores h hstores
  obtain ⟨run, hrun, his, hgit, hrevisions⟩ := h'.run
  have hevent : db'.events.get? db.events.nextId = some (prepared.event projectId runId'
      (r.call host (r.finish host)).eventKey (lastSequence db.events runId' + 1)) := by
    rw [hstores.events]
    exact Table.get?_insert_self _ _
  have hproject : run.projectId = projectId := by
    simp only [isRun, Bool.and_eq_true, decide_eq_true_eq] at his
    exact his.1
  have job : Job db' db.events.nextId _ run := ⟨hevent, hrun, hproject⟩
  have htype : EventType.ofText? r.endType.text = some prepared.eventType := (prepare_payload hstores.prepare).2
  have htype' : prepared.eventType = r.endType := by
    rcases r.ends with hend | hend <;> rw [hend] at htype ⊢ <;> exact (Option.some.inj htype).symm
  obtain ⟨kind, hkind⟩ := kindOf_end (r := r)
  rw [← htype'] at hkind
  have hchanges : changesFor host (eventsOf db' runId') = some [] := by
    refine changesFor_empty fun e he => ?_
    obtain ⟨hof, id, hid⟩ := mem_eventsOf.mp he
    exact (h'.events id e hid hof).2.2
  have hfirst : ∀ id report, db'.reports.get? id = some report → report.sourceEventId ≠ db.events.nextId := by
    intro id report hreport
    rw [hstores.reports] at hreport
    exact Nat.ne_of_lt (h.linked.sources id report hreport)
  have hreports : Reports host db' (handle host db' db.events.nextId).2 db.events.nextId _ run kind [] :=
    handle_end job hkind hfirst hchanges fun id report hreport hof =>
      Nat.ne_of_lt (Nat.lt_succ_of_le (hrevisions id report hreport hof))
  refine ⟨db'.reports.nextId, _, by rw [hreports.reports]; exact Table.get?_insert_self _ _, rfl, rfl, hgit, ?_, rfl⟩
  show isUncertain run.git = true
  rw [hgit, isUncertain_unavailable]

/-- What a service that agrees shows is that Git was not available. -/
theorem blank_of_agrees {r : Recording F} {projectId runId endId : Nat}
    (h : Recorded db projectId r.sessionKey runId unavailable) (hagrees : Agrees host db projectId endId r) :
    Blank r.baseline := by
  obtain ⟨run, hrun, his, hgit, -⟩ := h.run
  obtain ⟨runId', run', -, -, hrun', his', -, -, -, hshows, -⟩ := hagrees
  cases h.only _ _ hrun' his'
  cases hrun.symm.trans hrun'
  rw [hgit] at hshows
  exact shows_unavailable.mp hshows

/-- **The service agrees with the hook about a session exactly where Git was not available.** -/
theorem evidence_iff (r : Recording F) {projectId : Nat} (hlinked : Linked db)
    (hproject : projectOf db.candidates.projects r.projectKey = some projectId)
    (hnew : findRow db.runs (isRun projectId r.sessionKey) = none)
    (hstart : ∃ outcome, (appendEvent host db (r.call host r.start)).1 = .ok outcome ∧ outcome.status = .accepted)
    (hend : ∃ outcome, (appendEvent host (beforeEnd host db r) (r.call host (r.finish host))).1 = .ok outcome ∧
      outcome.status = .accepted) :
    Agrees host (afterEnd host db r) projectId (beforeEnd host db r).events.nextId r ↔ Blank r.baseline := by
  obtain ⟨⟨runId, hbefore⟩, hprojects⟩ := recorded_beforeEnd hlinked hproject hnew hstart
  rw [← hprojects] at hproject
  obtain ⟨outcome, hok, hstatus⟩ := hend
  obtain ⟨prepared, p, runId', hstores, heventId⟩ := stores_of_accepted hok hstatus
  cases hproject.symm.trans hstores.project
  rw [afterEnd, deliver_accepted hok, heventId]
  obtain ⟨hstored, rfl⟩ := recorded_stores hbefore hstores
  have hrecorded := recorded_handle host (by simp [unavailable]) hstored (beforeEnd host db r).events.nextId
  constructor
  · exact blank_of_agrees hrecorded
  · intro hblank
    obtain ⟨run, hrun, his, hgit, -⟩ := hrecorded.run
    obtain ⟨reportId, report, hreport, hsource, hof, hbaseline, huncertain, hchanges⟩ := reported_end hbefore hstores
    obtain ⟨hmanifest, hfiles⟩ := manifest_of_blank host hblank
    refine ⟨runId', run, reportId, report, hrun, his, hreport, hsource, hof, ?_, ?_, ?_, ?_⟩
    · rw [hgit]
      exact shows_unavailable.mpr hblank
    · rw [hbaseline]
      exact shows_unavailable.mpr hblank
    · rw [huncertain, hmanifest]
    · rw [hchanges, hfiles]
      rfl

/-! ## Events that are accepted -/

/-- The parts of an event of a hook with plain metadata. -/
def hookParts (metadata : List (String × Json F)) : Parts F where
  payload := .obj []
  metadata := .obj metadata
  git := .obj []
  command := none
  result := none
  exitCode := .null
  redacted := false

omit [Json.PyFloat F] in
theorem parts_requestOf {principal : Principal} {payload : TaskPayload F}
    (hplain : plainFields host.table payload.metadata = true) :
    (requestOf principal payload).parts host.table = hookParts payload.metadata := by
  have hmetadata := redactFields_plain host.table hplain
  have hnone : redactFields host.table ([] : List (String × Json F)) = ([], false) := rfl
  simp only [Call.parts, requestOf, hmetadata, gitArgument, textArgument, exitCodeArgument, List.lookup, hnone, hookParts]
  rfl

theorem canonicalBytes_eq (value : Json F) : canonicalBytes value = Hooks.byteLength (value.sortKeys.dumps .compact) := by
  rw [canonicalBytes, canonical, String.toList_ofList]

/-- A request with plain metadata passes within the limit. -/
theorem prepare_requestOf {principal : Principal} {payload : TaskPayload F} {eventType : EventType}
    (hpermission : requirePermission principal "append" = .ok ())
    (haccess : requireProjectAccess principal payload.projectKey = .ok ())
    (hkeys : ¬(strip payload.sessionKey = "" || strip payload.eventKey = ""))
    (htype : EventType.ofText? payload.eventType = some eventType)
    (hplain : plainFields host.table payload.metadata = true)
    (hnormalized : canonicalBytes (normalized eventType (hookParts payload.metadata)) ≤ maxEventBytes)
    (hstored : canonicalBytes (storedPayload eventType (hookParts payload.metadata) ⟨none, 0, none, false⟩
      ⟨none, 0, none, false⟩) ≤ maxEventBytes) :
    ∃ prepared, prepare host (requestOf principal payload) = .ok prepared := by
  refine prepare_of_bytes hpermission haccess hkeys htype ?_ ?_
  · rw [parts_requestOf hplain]
    exact hnormalized
  · rw [parts_requestOf hplain]
    exact hstored

/-! ## Two sessions -/

/-- A host with a short digest, the same for every text. -/
def shortHost : Host Empty := { textHost with sha256 := fun _ => "0" }

/-- A session of one tool use and its end. -/
def shortSession (baseline current : GitSnapshot Empty) (diff : List DiffLine) : Recording Empty where
  principal := ⟨"demo", ["append"]⟩
  projectKey := "demo"
  sessionKey := "s1"
  baseline := baseline
  current := current
  diff := diff
  turnId := "t1"
  toolCall := ""
  tool := []
  between := []
  endType := .stop
  endTurnId := "t1"
  ends := .inl rfl

/-- Outside a repository. -/
def noGit : Recording Empty := shortSession { available := false } { available := false } []

/-- On a clean `main`, where a file is then modified. -/
def cleanMain : Recording Empty :=
  shortSession { available := true, root := some "/repo", branch := some "main", head := some "abc", diffHash := some "d0" }
    { available := true, root := some "/repo", branch := some "main", head := some "abc", porcelain := " M a.py",
      diffHash := some "d1" }
    [⟨"M", "a.py", "a.py"⟩]

theorem oneProject_linked : Linked oneProject where
  events id e h := by
    rw [show oneProject.events = .empty from rfl, Table.get?_empty] at h
    cases h
  sources id report h := by
    rw [show oneProject.reports = .empty from rfl, Table.get?_empty] at h
    cases h
  runs id report h := by
    rw [show oneProject.reports = .empty from rfl, Table.get?_empty] at h
    cases h

/-- The request of an event of the session whose metadata is sent as it is. -/
def shortRequest (eventKey eventType : String) (metadata : List (String × Json Empty)) : Call Empty :=
  requestOf ⟨"demo", ["append"]⟩ ⟨"demo", "s1", eventKey, eventType, metadata⟩

theorem shortSession_start {baseline current : GitSnapshot Empty} {diff : List DiffLine}
    (hsame : Hooks.redactJsonFields shortHost.table (baselineMetadata [] baseline) = baselineMetadata [] baseline) :
    (shortSession baseline current diff).call shortHost (shortSession baseline current diff).start =
      shortRequest "codex:demo:s1:PreToolUse:t1" "PreToolUse" (baselineMetadata [] baseline) := by
  have hkey : "codex:" ++ "demo" ++ ":" ++ "s1" ++ ":" ++ "PreToolUse" ++ ":" ++ "t1" ++ (if "" = "" then "" else ":" ++ "") =
      "codex:demo:s1:PreToolUse:t1" := by decide
  have hpayload : taskPayload shortHost.table "PreToolUse" "demo" "s1" "t1" "" (baselineMetadata [] baseline) =
      ⟨"demo", "s1", "codex:demo:s1:PreToolUse:t1", "PreToolUse", baselineMetadata [] baseline⟩ := by
    rw [taskPayload, hkey, hsame]
  exact congrArg (requestOf _) hpayload

theorem shortSession_finish {baseline current : GitSnapshot Empty} {diff : List DiffLine} {metadata : List (String × Json Empty)}
    (hmetadata : Hooks.redactJsonFields shortHost.table (manifestMetadata shortHost.sha256
      (buildChangeManifest shortHost.str baseline current diff)) = metadata) :
    (shortSession baseline current diff).call shortHost ((shortSession baseline current diff).finish shortHost) =
      shortRequest "codex:demo:s1:Stop:t1" "Stop" metadata := by
  have hkey : "codex:" ++ "demo" ++ ":" ++ "s1" ++ ":" ++ "Stop" ++ ":" ++ "t1" ++ (if "" = "" then "" else ":" ++ "") =
      "codex:demo:s1:Stop:t1" := by decide
  have hpayload : taskPayload shortHost.table "Stop" "demo" "s1" "t1" "" (manifestMetadata shortHost.sha256
      (buildChangeManifest shortHost.str baseline current diff)) =
      ⟨"demo", "s1", "codex:demo:s1:Stop:t1", "Stop", metadata⟩ := by
    rw [taskPayload, hkey, hmetadata]
  exact congrArg (requestOf _) hpayload

/-- A request that is small and plain. -/
structure Small (eventType : EventType) (metadata : List (String × Json Empty)) : Prop where
  plain : plainFields asciiTable metadata = true
  normalized : canonicalBytes (normalized eventType (hookParts metadata)) ≤ maxEventBytes
  stored : canonicalBytes (storedPayload eventType (hookParts metadata) ⟨none, 0, none, false⟩ ⟨none, 0, none, false⟩) ≤
    maxEventBytes

theorem prepare_shortRequest (eventKey : String) {eventType : EventType} {metadata : List (String × Json Empty)}
    (hkey : ¬(strip "s1" = "" || strip eventKey = "")) (htype : EventType.ofText? eventType.text = some eventType)
    (h : Small eventType metadata) :
    ∃ prepared, prepare shortHost (shortRequest eventKey eventType.text metadata) = .ok prepared :=
  prepare_requestOf rfl rfl hkey htype h.plain h.normalized h.stored

/-- The start of the session in the empty database. -/
theorem shortRequest_start {metadata : List (String × Json Empty)} (h : Small .preToolUse metadata) :
    ∃ prepared, prepare shortHost (shortRequest "codex:demo:s1:PreToolUse:t1" "PreToolUse" metadata) = .ok prepared ∧
      appendEvent shortHost oneProject (shortRequest "codex:demo:s1:PreToolUse:t1" "PreToolUse" metadata) =
        (.ok ⟨0, 0, .accepted⟩,
          withEvent { oneProject with runs := oneProject.runs.insert (newRun 0 "s1") }
            (shortRequest "codex:demo:s1:PreToolUse:t1" "PreToolUse" metadata) prepared 0 0
            "demo.task.event.received.task_event.0.v1.4") := by
  obtain ⟨prepared, hprepare⟩ := prepare_shortRequest "codex:demo:s1:PreToolUse:t1" (by decide) rfl h
  have hsession : fits "s1" = true := by decide
  have hfits : fits "codex:demo:s1:PreToolUse:t1" = true := by decide
  have hkey : outboxKey shortHost "demo" 0 = .ok "demo.task.event.received.task_event.0.v1.4" := by rfl
  exact ⟨prepared, hprepare, appendEvent_new hprepare rfl rfl hsession rfl hfits hkey rfl⟩

/-- The database after the start and its job. -/
def startedDb (prepared : Prepared Empty) : Db Empty :=
  { oneProject with
    runs := (oneProject.runs.insert (newRun 0 "s1")).modify 0 fun run => { run with git := unavailable }
    events := oneProject.events.insert (prepared.event 0 0 "codex:demo:s1:PreToolUse:t1" 1)
    outbox := oneProject.outbox.insert (outboxOf 0 "demo" 0 0 "demo.task.event.received.task_event.0.v1.4") }

theorem deliver_start {metadata : List (String × Json Empty)} (h : Small .preToolUse metadata) :
    (∃ outcome, (appendEvent shortHost oneProject
        (shortRequest "codex:demo:s1:PreToolUse:t1" "PreToolUse" metadata)).1 = .ok outcome ∧ outcome.status = .accepted) ∧
      ∃ prepared, deliver shortHost oneProject (shortRequest "codex:demo:s1:PreToolUse:t1" "PreToolUse" metadata) =
        startedDb prepared := by
  obtain ⟨prepared, hprepare, happend⟩ := shortRequest_start h
  have hok : (appendEvent shortHost oneProject
      (shortRequest "codex:demo:s1:PreToolUse:t1" "PreToolUse" metadata)).1 = .ok ⟨0, 0, .accepted⟩ := by rw [happend]
  refine ⟨⟨_, hok, rfl⟩, prepared, ?_⟩
  rw [deliver_accepted hok, happend]
  have htype : prepared.eventType = .preToolUse := (Option.some.inj (prepare_payload hprepare).2).symm
  have job : Job (withEvent { oneProject with runs := oneProject.runs.insert (newRun 0 "s1") }
      (shortRequest "codex:demo:s1:PreToolUse:t1" "PreToolUse" metadata) prepared 0 0
      "demo.task.event.received.task_event.0.v1.4") 0
      (prepared.event 0 0 "codex:demo:s1:PreToolUse:t1" 1) (newRun 0 "s1") := ⟨rfl, rfl, rfl⟩
  rw [handle_capture job htype rfl (captureBaseline_empty (prepared_of_hook hprepare).1)]
  rfl

/-- The end of the session after it. -/
theorem shortRequest_finish (first : Prepared Empty) {metadata : List (String × Json Empty)} (h : Small .stop metadata) :
    ∃ outcome, (appendEvent shortHost (startedDb first) (shortRequest "codex:demo:s1:Stop:t1" "Stop" metadata)).1 =
      .ok outcome ∧ outcome.status = .accepted := by
  obtain ⟨prepared, hprepare⟩ := prepare_shortRequest "codex:demo:s1:Stop:t1" (by decide) rfl h
  have hother : ¬"codex:demo:s1:PreToolUse:t1" = "codex:demo:s1:Stop:t1" := by decide
  have hfresh : findRow (startedDb first).events (isEvent 0 "codex:demo:s1:Stop:t1") = none := by
    simp [findRow, startedDb, Table.insert, oneProject, Table.empty, isEvent, Prepared.event, hother]
  have hkey : outboxKey shortHost "demo" 1 = .ok "demo.task.event.received.task_event.1.v1.4" := by rfl
  have hunused : ((startedDb first).outbox.rows.any fun o =>
      o.2.projectId = 0 && o.2.idempotencyKey = "demo.task.event.received.task_event.1.v1.4") = false := by rfl
  have hfits : fits "codex:demo:s1:Stop:t1" = true := by decide
  have happend : appendEvent shortHost (startedDb first) _ = _ :=
    appendEvent_known hprepare rfl rfl hfresh hfits hkey hunused
  exact ⟨_, congrArg Prod.fst happend, rfl⟩

theorem beforeEnd_nil (host : Host F) (db : Db F) {r : Recording F} (h : r.between = []) :
    beforeEnd host db r = deliver host db (r.call host r.start) := by
  rw [beforeEnd, h]
  rfl

/-- What the hook sends at the end of `noGit`. -/
def noGitEnd : List (String × Json Empty) :=
  manifestMetadata shortHost.sha256 (buildChangeManifest shortHost.str noGit.baseline noGit.current noGit.diff)

theorem small_noGit : Small .preToolUse (baselineMetadata [] noGit.baseline) where
  plain := by decide
  normalized := by
    rw [canonicalBytes_eq]
    decide +kernel
  stored := by
    rw [canonicalBytes_eq]
    decide +kernel

theorem small_noGitEnd : Small .stop noGitEnd where
  plain := by decide
  normalized := by
    rw [canonicalBytes_eq]
    decide +kernel
  stored := by
    rw [canonicalBytes_eq]
    decide +kernel

theorem small_cleanMain : Small .preToolUse (baselineMetadata [] cleanMain.baseline) where
  plain := by decide
  normalized := by
    rw [canonicalBytes_eq]
    decide +kernel
  stored := by
    rw [canonicalBytes_eq]
    decide +kernel

theorem noGit_start : noGit.call shortHost noGit.start =
    shortRequest "codex:demo:s1:PreToolUse:t1" "PreToolUse" (baselineMetadata [] noGit.baseline) :=
  shortSession_start (by rfl)

set_option maxRecDepth 4096 in
theorem noGit_finish : noGit.call shortHost (noGit.finish shortHost) =
    shortRequest "codex:demo:s1:Stop:t1" "Stop" noGitEnd :=
  shortSession_finish (by rfl)

theorem cleanMain_start : cleanMain.call shortHost cleanMain.start =
    shortRequest "codex:demo:s1:PreToolUse:t1" "PreToolUse" (baselineMetadata [] cleanMain.baseline) :=
  shortSession_start (by rfl)

theorem evidence_noGit : Agrees shortHost (afterEnd shortHost oneProject noGit) 0 1 noGit := by
  obtain ⟨hstart, prepared, hdeliver⟩ := deliver_start small_noGit
  have hbefore : beforeEnd shortHost oneProject noGit = startedDb prepared := by
    rw [beforeEnd_nil _ _ rfl, noGit_start]
    exact hdeliver
  have hend := shortRequest_finish prepared small_noGitEnd
  rw [← noGit_start] at hstart
  rw [← hbefore, ← noGit_finish] at hend
  have hagrees := (evidence_iff noGit oneProject_linked rfl rfl hstart hend).mpr ⟨rfl, rfl, rfl, rfl, rfl, rfl⟩
  rw [hbefore] at hagrees
  exact hagrees

/-- The run of a session on a clean branch says that Git was not available. -/
theorem evidence_cleanMain : ¬Agrees shortHost (afterEnd shortHost oneProject cleanMain) 0 1 cleanMain := by
  obtain ⟨hstart, -⟩ := deliver_start small_cleanMain
  rw [← cleanMain_start] at hstart
  obtain ⟨⟨runId, hbefore⟩, hprojects⟩ := recorded_beforeEnd oneProject_linked rfl rfl hstart
  have hafter : Recorded (afterEnd shortHost oneProject cleanMain) 0 "s1" runId unavailable :=
    recorded_deliver (by simp [unavailable]) (by rw [hprojects]; rfl) hbefore
  intro hagrees
  have hblank := (blank_of_agrees hafter hagrees).available
  cases hblank

end CodexMemory.Tasks
