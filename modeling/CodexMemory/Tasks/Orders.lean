import CodexMemory.Tasks.Evidence

/-!
# The jobs of a run in any order

The events of a run are stored; then their jobs are executed, in any order, some again, with the jobs of
other runs between them.  A report says what the run has as its baseline when it is written, and that is the
evidence of the `PreToolUse` job that happens to be first, or nothing.

* `coherent_perform`, `settled_runJobs`: in every order each end of the session gets one report, under the
  revisions 1, 2, …;
* `orders_iff`: the final reports are the same in every order exactly where there is none or no `PreToolUse`
  event of the run has evidence.
-/

namespace CodexMemory.Tasks.Orders

variable {F : Type} [Json.PyFloat F] {host : Host F}

/-! ## Sessions -/

/-- What happens to the tables. -/
inductive Action (F : Type)
  | append (call : Call F)
  | job (eventId : Nat)

def act (host : Host F) (db : Db F) : Action F → Db F
  | .append call => (appendEvent host db call).2
  | .job eventId => (handle host db eventId).2

def perform (host : Host F) (db : Db F) (actions : List (Action F)) : Db F := actions.foldl (act host) db

/-- `TaskReportWorker.execute` of each event id. -/
def runJobs (host : Host F) (db : Db F) (order : List Nat) : Db F :=
  order.foldl (fun db eventId => (handle host db eventId).2) db

/-- A run whose events are all stored, none of whose jobs has been executed; jobs of other runs may have. -/
structure Session (host : Host F) where
  start : Db F
  noRuns : ∀ k, start.runs.get? k = none
  noEvents : ∀ k, start.events.get? k = none
  noReports : ∀ k, start.reports.get? k = none
  actions : List (Action F)
  runId : Nat
  isRun : ((perform host start actions).runs.get? runId).isSome
  noJob : ∀ eventId event, .job eventId ∈ actions → (perform host start actions).events.get? eventId = some event →
    event.taskRunId ≠ runId

/-- The database with all events of the run. -/
def Session.stored (session : Session host) : Db F := perform host session.start session.actions

/-- Every event of the run is executed at least once. -/
def Covers (db : Db F) (runId : Nat) (order : List Nat) : Prop :=
  ∀ eventId event, db.events.get? eventId = some event → event.taskRunId = runId → eventId ∈ order

/-! ## What the reports of a run are -/

/-- Each `Stop` and `SessionEnd` of the run has one report, no other event has one, and the revisions of
the reports are 1, …, `currentReportRevision`, each once. -/
structure Settled (db : Db F) (runId : Nat) : Prop where
  oneReport : ∀ eventId event, db.events.get? eventId = some event → event.taskRunId = runId →
    (kindOf event.eventType).isSome → ∃! k, ∃ report, db.reports.get? k = some report ∧ report.sourceEventId = eventId
  ofEnd : ∀ k report, db.reports.get? k = some report → report.taskRunId = runId →
    ∃ event, db.events.get? report.sourceEventId = some event ∧ event.taskRunId = runId ∧
      kindOf event.eventType = some report.kind
  revisions : ∃ run, db.runs.get? runId = some run ∧ ∀ n, 0 < n ∧ n ≤ run.currentReportRevision ↔
    ∃ k report, db.reports.get? k = some report ∧ report.taskRunId = runId ∧ report.revision = n
  oneRevision : ∀ k l report other, db.reports.get? k = some report → db.reports.get? l = some other →
    report.taskRunId = runId → other.taskRunId = runId → report.revision = other.revision → k = l

/-- The reports show the same baseline, uncertainty, timeline, tools and changes. -/
structure Same (report other : TaskReport F) : Prop where
  gitBaseline : report.reportJson.gitBaseline = other.reportJson.gitBaseline
  uncertain : report.uncertain = other.uncertain
  shownUncertain : report.reportJson.uncertain = other.reportJson.uncertain
  timeline : report.reportJson.timeline = other.reportJson.timeline
  toolSummary : report.reportJson.toolSummary = other.reportJson.toolSummary
  changes : report.reportJson.changes = other.reportJson.changes

/-- **The reports do not depend on the order**: after every order they are settled, and the final report of
an event is the same after every two. -/
structure OrderFree (host : Host F) (session : Session host) : Prop where
  settled : ∀ order, Covers session.stored session.runId order → Settled (runJobs host session.stored order) session.runId
  same : ∀ order other k l report report', Covers session.stored session.runId order → Covers session.stored session.runId other →
    (runJobs host session.stored order).reports.get? k = some report →
    (runJobs host session.stored other).reports.get? l = some report' →
    report.taskRunId = session.runId → report.sourceEventId = report'.sourceEventId → report.kind = .final →
    Same report report'

/-! ## Evidence -/

/-- The Git evidence of an event says nothing: a column refuses a value of it, or all its values are null. -/
def Silent (host : Host F) (git : List (String × Json F)) : Prop :=
  let branch := either (field git "branch") (field git "git_branch")
  let head := either (field git "head") (field git "git_head")
  let status := either (field git "status_porcelain") (field git "status")
  let available := (git.lookup "available").getD (.bool !git.isEmpty)
  (textColumn host (some 255) branch = none ∨ textColumn host (some 128) head = none ∨ textColumn host none status = none ∨
      textColumn host (some 64) (field git "diff_hash") = none ∨ flagColumn host available = none) ∨
    branch = .null ∧ head = .null ∧ status = .null ∧ field git "diff_hash" = .null ∧ field git "untracked" = .null ∧
      available = .null

omit [Json.PyFloat F] in
theorem null_of_textColumn {width : Option Nat} {value : Json F} {text : Option String}
    (h : textColumn host width value = some text) : value = .null ↔ text = none := by
  have hnull : textColumn host width value = some none ↔ value = .null := by cases value <;> simp [textColumn]
  rw [← hnull, h, Option.some.injEq]

omit [Json.PyFloat F] in
theorem null_of_flagColumn {value : Json F} {flag : Option Bool} (h : flagColumn host value = some flag) :
    value = .null ↔ flag = none := by
  have hnull : flagColumn host value = some none ↔ value = .null := by
    cases value <;> simp [flagColumn]
    split <;> simp
  rw [← hnull, h, Option.some.injEq]

/-- **Silent evidence leaves a run without a baseline.** -/
theorem silent_iff {payloadJson : Json F} :
    Silent host (gitOf payloadJson) ↔ captureBaseline host payloadJson = none ∨ captureBaseline host payloadJson = some {} := by
  unfold Silent captureBaseline
  simp only
  generalize gitOf payloadJson = git
  generalize either (field git "branch") (field git "git_branch") = branch
  generalize either (field git "head") (field git "git_head") = head
  generalize either (field git "status_porcelain") (field git "status") = status
  generalize (git.lookup "available").getD (.bool !git.isEmpty) = available
  cases hbranch : textColumn host (some 255) branch with
  | none => simp
  | some b =>
    cases hhead : textColumn host (some 128) head with
    | none => simp
    | some h =>
      cases hstatus : textColumn host none status with
      | none => simp
      | some s =>
        cases hdiff : textColumn host (some 64) (field git "diff_hash") with
        | none => simp
        | some d =>
          cases havailable : flagColumn host available with
          | none => simp
          | some a =>
            simp [null_of_textColumn hbranch, null_of_textColumn hhead, null_of_textColumn hstatus, null_of_textColumn hdiff,
              null_of_flagColumn havailable]

/-! ## Rows that belong together -/

/-- The events belong to runs of their projects and list no changes; the reports come from different ends of
sessions, and those of a run have the revisions 1, …, `currentReportRevision`, each once. -/
structure Coherent (db : Db F) : Prop where
  ofRun : ∀ k event, db.events.get? k = some event →
    ∃ run, db.runs.get? event.taskRunId = some run ∧ run.projectId = event.projectId
  noChanges : ∀ k event, db.events.get? k = some event → rawChanges event.payloadJson = []
  ofEnd : ∀ k report, db.reports.get? k = some report → ∃ event, db.events.get? report.sourceEventId = some event ∧
    event.taskRunId = report.taskRunId ∧ kindOf event.eventType = some report.kind
  oneSource : ∀ k l report other, db.reports.get? k = some report → db.reports.get? l = some other →
    report.sourceEventId = other.sourceEventId → k = l
  revision : ∀ k report, db.reports.get? k = some report →
    ∃ run, db.runs.get? report.taskRunId = some run ∧ 0 < report.revision ∧ report.revision ≤ run.currentReportRevision
  allRevisions : ∀ i run n, db.runs.get? i = some run → 0 < n → n ≤ run.currentReportRevision →
    ∃ k report, db.reports.get? k = some report ∧ report.taskRunId = i ∧ report.revision = n
  oneRevision : ∀ k l report other, db.reports.get? k = some report → db.reports.get? l = some other →
    report.taskRunId = other.taskRunId → report.revision = other.revision → k = l

section

variable {db db' : Db F}

omit [Json.PyFloat F] in
theorem modify_runs {i k : Nat} {run : TaskRun F} (f : TaskRun F → TaskRun F) (h : db.runs.get? i = some run) :
    (db.runs.modify k f).get? i = some (if i = k then f run else run) := by
  rw [Table.get?_modify, h]
  rfl

omit [Json.PyFloat F] in
theorem modify_runs_cases {i k : Nat} {run : TaskRun F} {f : TaskRun F → TaskRun F}
    (h : (db.runs.modify k f).get? i = some run) : ∃ old, db.runs.get? i = some old ∧ run = if i = k then f old else old := by
  rw [Table.get?_modify] at h
  obtain ⟨old, hold, rfl⟩ := Option.map_eq_some_iff.mp h
  exact ⟨old, hold, rfl⟩

/-- **A call keeps the rows together.** -/
theorem coherent_append (h : Coherent db) (call : Call F) : Coherent (appendEvent host db call).2 := by
  rcases appendEvent_cases host db call with ⟨hsame, -⟩ | ⟨prepared, projectId, runId, hstores, -⟩
  · rw [hsame]
    exact h
  generalize (appendEvent host db call).2 = db' at hstores
  obtain ⟨-, -, hold, hcases⟩ := runOf_get? hstores.run
  have hevent : ∀ {k event}, db.events.get? k = some event → db'.events.get? k = some event := by
    intro k event he
    rw [hstores.events, Table.get?_insert_ne _ _ (Nat.ne_of_lt (db.events.lt_nextId he))]
    exact he
  constructor
  case ofRun =>
    intro k event he
    rw [hstores.events] at he
    rcases Table.get?_insert_cases he with ⟨-, rfl⟩ | ⟨-, he⟩
    · rcases hstores.run with ⟨run, hfind, hruns⟩ | ⟨-, rfl, hruns⟩
      · obtain ⟨hrun, his⟩ := findRow_some hfind
        rw [isRun, Bool.and_eq_true, decide_eq_true_eq] at his
        exact ⟨run, by rw [hruns]; exact hrun, his.1⟩
      · exact ⟨_, by rw [hruns]; exact Table.get?_insert_self _ _, rfl⟩
    · obtain ⟨run, hrun, hproject⟩ := h.ofRun k event he
      exact ⟨run, hold _ _ hrun, hproject⟩
  case noChanges =>
    intro k event he
    rw [hstores.events] at he
    rcases Table.get?_insert_cases he with ⟨-, rfl⟩ | ⟨-, he⟩
    · change rawChanges prepared.storedPayload = []
      rw [(prepare_payload hstores.prepare).1]
      exact stored_changes _ _ _ _
    · exact h.noChanges k event he
  case ofEnd =>
    intro k report hreport
    rw [hstores.reports] at hreport
    obtain ⟨event, he, hof⟩ := h.ofEnd k report hreport
    exact ⟨event, hevent he, hof⟩
  case oneSource =>
    rw [hstores.reports]
    exact h.oneSource
  case revision =>
    intro k report hreport
    rw [hstores.reports] at hreport
    obtain ⟨run, hrun, hrevision⟩ := h.revision k report hreport
    exact ⟨run, hold _ _ hrun, hrevision⟩
  case allRevisions =>
    intro i run n hrun hpositive hle
    rw [hstores.reports]
    rcases hcases i run hrun with hrun | ⟨-, rfl, -⟩
    · exact h.allRevisions i run n hrun hpositive hle
    · exact absurd hle (Nat.not_le.mpr hpositive)
  case oneRevision =>
    rw [hstores.reports]
    exact h.oneRevision

/-- A report of a coherent database: its revision is new. -/
theorem coherent_report (h : Coherent db) {eventId : Nat} {event : TaskEvent F} {run : TaskRun F} {kind : Kind}
    {changes : List (List (String × Json F))} (job : Job db eventId event run) (type : kindOf event.eventType = some kind)
    (first : ∀ id r, db.reports.get? id = some r → r.sourceEventId ≠ eventId)
    (reports : Reports host db db' eventId event run kind changes) : Coherent db' := by
  have hrun : ∀ {i row}, db.runs.get? i = some row → ∃ row', db'.runs.get? i = some row' ∧ row'.projectId = row.projectId ∧
      row.currentReportRevision ≤ row'.currentReportRevision ∧
      (i = event.taskRunId → row'.currentReportRevision = run.currentReportRevision + 1) := by
    intro i row hrow
    refine ⟨_, by rw [reports.runs]; exact modify_runs _ hrow, ?_⟩
    split
    · next heq =>
      subst heq
      obtain rfl := Option.some.inj (job.started.symm.trans hrow)
      exact ⟨rfl, Nat.le_succ _, fun _ => rfl⟩
    · next hne => exact ⟨rfl, Nat.le_refl _, fun heq => absurd heq hne⟩
  have hnew : ∀ {k report}, db.reports.get? k = some report → report.taskRunId = event.taskRunId →
      report.revision ≠ run.currentReportRevision + 1 := fun hreport hof => reports.fresh _ _ hreport hof
  constructor
  case ofRun =>
    intro k other he
    rw [reports.events] at he
    obtain ⟨row, hrow, hproject⟩ := h.ofRun k other he
    obtain ⟨row', hrow', hproject', -⟩ := hrun hrow
    exact ⟨row', hrow', hproject'.trans hproject⟩
  case noChanges =>
    rw [reports.events]
    exact h.noChanges
  case ofEnd =>
    intro k report hreport
    rw [reports.reports] at hreport
    rw [reports.events]
    rcases Table.get?_insert_cases hreport with ⟨-, rfl⟩ | ⟨-, hreport⟩
    · exact ⟨event, job.stored, rfl, type⟩
    · exact h.ofEnd k report hreport
  case oneSource =>
    intro k l report other hk hl hsame
    rw [reports.reports] at hk hl
    rcases Table.get?_insert_cases hk with ⟨rfl, rfl⟩ | ⟨-, hk⟩
    · rcases Table.get?_insert_cases hl with ⟨rfl, -⟩ | ⟨-, hl⟩
      · rfl
      · exact absurd hsame.symm (first l other hl)
    · rcases Table.get?_insert_cases hl with ⟨rfl, rfl⟩ | ⟨-, hl⟩
      · exact absurd hsame (first k report hk)
      · exact h.oneSource k l report other hk hl hsame
  case revision =>
    intro k report hreport
    rw [reports.reports] at hreport
    rcases Table.get?_insert_cases hreport with ⟨-, rfl⟩ | ⟨-, hreport⟩
    · obtain ⟨row', hrow', -, -, hcurrent⟩ := hrun job.started
      exact ⟨row', hrow', Nat.succ_pos _, Nat.le_of_eq (hcurrent rfl).symm⟩
    · obtain ⟨row, hrow, hpositive, hle⟩ := h.revision k report hreport
      obtain ⟨row', hrow', -, hmore, -⟩ := hrun hrow
      exact ⟨row', hrow', hpositive, Nat.le_trans hle hmore⟩
  case allRevisions =>
    intro i row n hrow hpositive hle
    rw [reports.reports]
    have hkept : ∀ {k report}, db.reports.get? k = some report → (db.reports.insert (reportRow host eventId event.taskRunId run
        (eventsOf db event.taskRunId) changes kind (run.currentReportRevision + 1))).get? k = some report := by
      intro k report hreport
      rw [Table.get?_insert_ne _ _ (Nat.ne_of_lt (db.reports.lt_nextId hreport))]
      exact hreport
    rw [reports.runs] at hrow
    obtain ⟨old, hold, rfl⟩ := modify_runs_cases hrow
    split at hle
    · next heq =>
      subst heq
      obtain rfl := Option.some.inj (job.started.symm.trans hold)
      rcases Nat.lt_or_ge run.currentReportRevision n with hlt | hge
      · have hn : n = run.currentReportRevision + 1 := Nat.le_antisymm hle hlt
        exact ⟨_, _, Table.get?_insert_self _ _, rfl, hn.symm⟩
      · obtain ⟨k, report, hreport, hof⟩ := h.allRevisions _ run n hold hpositive hge
        exact ⟨k, report, hkept hreport, hof⟩
    · obtain ⟨k, report, hreport, hof⟩ := h.allRevisions _ old n hold hpositive hle
      exact ⟨k, report, hkept hreport, hof⟩
  case oneRevision =>
    intro k l report other hk hl hof hsame
    rw [reports.reports] at hk hl
    rcases Table.get?_insert_cases hk with ⟨rfl, rfl⟩ | ⟨-, hk⟩
    · rcases Table.get?_insert_cases hl with ⟨rfl, -⟩ | ⟨-, hl⟩
      · rfl
      · exact absurd hsame.symm (hnew hl hof.symm)
    · rcases Table.get?_insert_cases hl with ⟨rfl, rfl⟩ | ⟨-, hl⟩
      · exact absurd hsame (hnew hk hof)
      · exact h.oneRevision k l report other hk hl hof hsame

theorem coherent_handle (host : Host F) (h : Coherent db) (eventId : Nat) : Coherent (handle host db eventId).2 := by
  have hcases := handle_cases host db eventId
  generalize (handle host db eventId).2 = db' at hcases
  generalize (handle host db eventId).1 = result at hcases
  cases hcases with
  | nothing => exact h
  | captured event run git job =>
    have hrun : ∀ {i row}, db.runs.get? i = some row →
        ∃ row', (db.runs.modify event.taskRunId fun run => { run with git := git }).get? i = some row' ∧
          row'.projectId = row.projectId ∧ row'.currentReportRevision = row.currentReportRevision := by
      intro i row hrow
      refine ⟨_, modify_runs _ hrow, ?_⟩
      split <;> exact ⟨rfl, rfl⟩
    constructor
    case ofRun =>
      intro k other he
      obtain ⟨row, hrow, hproject⟩ := h.ofRun k other he
      obtain ⟨row', hrow', hproject', -⟩ := hrun hrow
      exact ⟨row', hrow', hproject'.trans hproject⟩
    case noChanges => exact h.noChanges
    case ofEnd => exact h.ofEnd
    case oneSource => exact h.oneSource
    case revision =>
      intro k report hreport
      obtain ⟨row, hrow, hpositive, hle⟩ := h.revision k report hreport
      obtain ⟨row', hrow', -, hcurrent⟩ := hrun hrow
      exact ⟨row', hrow', hpositive, by rw [hcurrent]; exact hle⟩
    case allRevisions =>
      intro i row n hrow hpositive hle
      obtain ⟨old, hold, rfl⟩ := modify_runs_cases hrow
      refine h.allRevisions i old n hold hpositive ?_
      split at hle <;> exact hle
    case oneRevision => exact h.oneRevision
  | reported event run kind changes db' job type first reports => exact coherent_report h job type first reports

/-! ## What a job leaves -/

/-- The events are the same, and the runs and reports that were there are there. -/
structure Grows (db db' : Db F) : Prop where
  events : db'.events = db.events
  runs : ∀ i run, db.runs.get? i = some run → ∃ run', db'.runs.get? i = some run'
  reports : ∀ k report, db.reports.get? k = some report → db'.reports.get? k = some report

theorem handle_grows (host : Host F) (db : Db F) (eventId : Nat) : Grows db (handle host db eventId).2 := by
  have hcases := handle_cases host db eventId
  generalize (handle host db eventId).2 = db' at hcases
  generalize (handle host db eventId).1 = result at hcases
  cases hcases with
  | nothing => exact ⟨rfl, fun _ run h => ⟨run, h⟩, fun _ _ h => h⟩
  | captured => exact ⟨rfl, fun _ _ h => ⟨_, modify_runs _ h⟩, fun _ _ h => h⟩
  | reported event run kind changes db' job type first reports =>
    refine ⟨reports.events, fun i row hrow => ?_, fun k report hreport => ?_⟩
    · rw [reports.runs]
      exact ⟨_, modify_runs _ hrow⟩
    · rw [reports.reports, Table.get?_insert_ne _ _ (Nat.ne_of_lt (db.reports.lt_nextId hreport))]
      exact hreport

omit [Json.PyFloat F] in
theorem Grows.trans {db'' : Db F} (h : Grows db db') (h' : Grows db' db'') : Grows db db'' :=
  ⟨h'.events.trans h.events, fun i run hrun => let ⟨run', hrun'⟩ := h.runs i run hrun; h'.runs i run' hrun',
    fun k report hreport => h'.reports k report (h.reports k report hreport)⟩

theorem runJobs_grows (host : Host F) : ∀ (order : List Nat) (db : Db F), Grows db (runJobs host db order)
  | [], _ => ⟨rfl, fun _ run h => ⟨run, h⟩, fun _ _ h => h⟩
  | eventId :: order, db => (handle_grows host db eventId).trans (runJobs_grows host order _)

theorem coherent_runJobs (host : Host F) : ∀ (order : List Nat) {db : Db F}, Coherent db → Coherent (runJobs host db order)
  | [], _, h => h
  | eventId :: order, _, h => coherent_runJobs host order (coherent_handle _ h eventId)

/-- **An end of a session has a report after its job**: the one it had, or a new one with the baseline of
the run. -/
theorem handle_reports (host : Host F) (h : Coherent db) {eventId : Nat} {event : TaskEvent F} {kind : Kind}
    (hevent : db.events.get? eventId = some event) (hkind : kindOf event.eventType = some kind) :
    ∃ k report, (handle host db eventId).2.reports.get? k = some report ∧ report.sourceEventId = eventId ∧
      ((∀ id r, db.reports.get? id = some r → r.sourceEventId ≠ eventId) → report.taskRunId = event.taskRunId ∧ report.kind = kind ∧
        ∃ run, db.runs.get? event.taskRunId = some run ∧ report.reportJson.gitBaseline = run.git) := by
  by_cases hfirst : ∀ id r, db.reports.get? id = some r → r.sourceEventId ≠ eventId
  · obtain ⟨run, hrun, hproject⟩ := h.ofRun eventId event hevent
    have hchanges : changesFor host (eventsOf db event.taskRunId) = some [] := by
      refine changesFor_empty fun e he => ?_
      obtain ⟨-, id, hid⟩ := mem_eventsOf.mp he
      exact h.noChanges id e hid
    have hreports := handle_end ⟨hevent, hrun, hproject⟩ hkind hfirst hchanges fun id r hr hof hrevision => by
      obtain ⟨run', hrun', -, hle⟩ := h.revision id r hr
      rw [hof] at hrun'
      obtain rfl := Option.some.inj (hrun.symm.trans hrun')
      omega
    exact ⟨_, _, by rw [hreports.reports]; exact Table.get?_insert_self _ _, rfl, fun _ => ⟨rfl, rfl, run, hrun, rfl⟩⟩
  · push Not at hfirst
    obtain ⟨k, report, hreport, hsource⟩ := hfirst
    exact ⟨k, report, (handle_grows host db eventId).reports k report hreport, hsource,
      fun hnone => absurd hsource (hnone k report hreport)⟩

theorem runJobs_reports (host : Host F) (order : List Nat) (h : Coherent db) {eventId : Nat} {event : TaskEvent F} {kind : Kind}
    (hevent : db.events.get? eventId = some event) (hkind : kindOf event.eventType = some kind) (hmem : eventId ∈ order) :
    ∃ k report, (runJobs host db order).reports.get? k = some report ∧ report.sourceEventId = eventId := by
  induction order generalizing db with
  | nil => cases hmem
  | cons first order ih =>
    by_cases hfirst : eventId = first
    · subst hfirst
      obtain ⟨k, report, hreport, hsource, -⟩ := handle_reports host h hevent hkind
      exact ⟨k, report, (runJobs_grows host order _).reports k report hreport, hsource⟩
    · have hrest : eventId ∈ order := (List.mem_cons.mp hmem).resolve_left hfirst
      have hevent' : (handle host db first).2.events.get? eventId = some event := by
        rw [(handle_grows host db first).events]
        exact hevent
      exact ih (coherent_handle _ h first) hevent' hrest

/-- **In every order the reports are settled.** -/
theorem settled_runJobs (h : Coherent db) {runId : Nat} (hrun : (db.runs.get? runId).isSome) {order : List Nat}
    (hcovers : Covers db runId order) : Settled (runJobs host db order) runId := by
  have hdone := coherent_runJobs host order h
  have hevents := (runJobs_grows host order db).events
  constructor
  case oneReport =>
    intro eventId event hevent hof hkind
    rw [hevents] at hevent
    obtain ⟨kind, hkind⟩ := Option.isSome_iff_exists.mp hkind
    obtain ⟨k, report, hreport, hsource⟩ := runJobs_reports host order h hevent hkind (hcovers eventId event hevent hof)
    refine ⟨k, ⟨report, hreport, hsource⟩, ?_⟩
    rintro l ⟨other, hother, hsource'⟩
    exact hdone.oneSource l k other report hother hreport (hsource'.trans hsource.symm)
  case ofEnd =>
    intro k report hreport hof
    obtain ⟨event, hevent, hof', hkind⟩ := hdone.ofEnd k report hreport
    exact ⟨event, hevent, hof'.trans hof, hkind⟩
  case revisions =>
    obtain ⟨run, hrun⟩ := Option.isSome_iff_exists.mp hrun
    obtain ⟨run', hrun'⟩ := (runJobs_grows host order db).runs runId run hrun
    refine ⟨run', hrun', fun n => ⟨fun hn => hdone.allRevisions runId run' n hrun' hn.1 hn.2, ?_⟩⟩
    rintro ⟨k, report, hreport, hof, rfl⟩
    obtain ⟨row, hrow, hrevision⟩ := hdone.revision k report hreport
    rw [hof] at hrow
    obtain rfl := Option.some.inj (hrun'.symm.trans hrow)
    exact hrevision
  case oneRevision =>
    intro k l report other hk hl hof hof' hsame
    exact hdone.oneRevision k l report other hk hl (hof.trans hof'.symm) hsame

/-! ## A run without jobs -/

/-- The run has no baseline and no report. -/
structure Untouched (db : Db F) (runId : Nat) : Prop where
  git : ∀ run, db.runs.get? runId = some run → run.git = {}
  reports : ∀ k report, db.reports.get? k = some report → report.taskRunId ≠ runId

theorem untouched_append {runId : Nat} (h : Untouched db runId) (call : Call F) :
    Untouched (appendEvent host db call).2 runId := by
  rcases appendEvent_cases host db call with ⟨hsame, -⟩ | ⟨prepared, projectId, r, hstores, -⟩
  · rw [hsame]
    exact h
  generalize (appendEvent host db call).2 = db' at hstores
  obtain ⟨-, -, -, hcases⟩ := runOf_get? hstores.run
  refine ⟨fun run hrun => ?_, fun k report hreport => ?_⟩
  · rcases hcases runId run hrun with hrun | ⟨-, rfl, -⟩
    · exact h.git run hrun
    · rfl
  · rw [hstores.reports] at hreport
    exact h.reports k report hreport

/-- The job of an event of another run. -/
theorem untouched_handle {runId eventId : Nat} (h : Untouched db runId)
    (hother : ∀ event, db.events.get? eventId = some event → event.taskRunId ≠ runId) :
    Untouched (handle host db eventId).2 runId := by
  have hcases := handle_cases host db eventId
  generalize (handle host db eventId).2 = db' at hcases
  generalize (handle host db eventId).1 = result at hcases
  cases hcases with
  | nothing => exact h
  | captured event run git job =>
    refine ⟨fun row hrow => h.git row ?_, h.reports⟩
    exact (Table.get?_modify_ne _ _ (hother event job.stored).symm).symm.trans hrow
  | reported event run kind changes db' job type first reports =>
    have hne := hother event job.stored
    refine ⟨fun row hrow => h.git row ?_, fun k report hreport => ?_⟩
    · rw [reports.runs, Table.get?_modify_ne _ _ hne.symm] at hrow
      exact hrow
    · rw [reports.reports] at hreport
      rcases Table.get?_insert_cases hreport with ⟨-, rfl⟩ | ⟨-, hreport⟩
      · exact hne
      · exact h.reports k report hreport

theorem act_events (action : Action F) {k : Nat} {event : TaskEvent F} (h : db.events.get? k = some event) :
    (act host db action).events.get? k = some event := by
  cases action with
  | append call =>
    change (appendEvent host db call).2.events.get? k = some event
    rcases appendEvent_cases host db call with ⟨hsame, -⟩ | ⟨prepared, projectId, r, hstores, -⟩
    · rw [hsame]
      exact h
    · rw [hstores.events, Table.get?_insert_ne _ _ (Nat.ne_of_lt (db.events.lt_nextId h))]
      exact h
  | job eventId =>
    change (handle host db eventId).2.events.get? k = some event
    rw [(handle_grows host db eventId).events]
    exact h

theorem perform_events (actions : List (Action F)) {k : Nat} {event : TaskEvent F} (h : db.events.get? k = some event) :
    (perform host db actions).events.get? k = some event := by
  induction actions generalizing db with
  | nil => exact h
  | cons action actions ih => exact ih (act_events action h)

/-- **The tables before the first job of the run.** -/
theorem perform_ok (actions : List (Action F)) {runId : Nat} (h : Coherent db) (huntouched : Untouched db runId)
    (hother : ∀ eventId event, .job eventId ∈ actions → (perform host db actions).events.get? eventId = some event →
      event.taskRunId ≠ runId) : Coherent (perform host db actions) ∧ Untouched (perform host db actions) runId := by
  induction actions generalizing db with
  | nil => exact ⟨h, huntouched⟩
  | cons action actions ih =>
    have hrest : ∀ eventId event, .job eventId ∈ actions →
        (perform host (act host db action) actions).events.get? eventId = some event → event.taskRunId ≠ runId :=
      fun eventId event hmem => hother eventId event (List.mem_cons_of_mem _ hmem)
    cases action with
    | append call => exact ih (coherent_append h call) (untouched_append huntouched call) hrest
    | job eventId =>
      refine ih (coherent_handle _ h eventId) (untouched_handle huntouched fun event hevent => ?_) hrest
      exact hother eventId event List.mem_cons_self (perform_events actions (act_events (.job eventId) hevent))

theorem Session.ok (session : Session host) : Coherent session.stored ∧ Untouched session.stored session.runId := by
  refine perform_ok session.actions ⟨?_, ?_, ?_, ?_, ?_, ?_, ?_⟩ ⟨?_, ?_⟩ session.noJob
  · exact fun k event he => absurd he (by rw [session.noEvents]; nofun)
  · exact fun k event he => absurd he (by rw [session.noEvents]; nofun)
  · exact fun k report hreport => absurd hreport (by rw [session.noReports]; nofun)
  · exact fun k l report other hreport => absurd hreport (by rw [session.noReports]; nofun)
  · exact fun k report hreport => absurd hreport (by rw [session.noReports]; nofun)
  · exact fun i run n hrun => absurd hrun (by rw [session.noRuns]; nofun)
  · exact fun k l report other hreport => absurd hreport (by rw [session.noReports]; nofun)
  · exact fun run hrun => absurd hrun (by rw [session.noRuns]; nofun)
  · exact fun k report hreport => absurd hreport (by rw [session.noReports]; nofun)

/-! ## Without evidence -/

/-- The report of a run without a baseline. -/
def Blank (db : Db F) (runId : Nat) (report : TaskReport F) : Prop :=
  report.uncertain = isUncertain ({} : Baseline F) ∧ ∃ run kind revision, run.git = {} ∧
    report.reportJson = reportJson runId run (eventsOf db runId) [] kind revision (isUncertain ({} : Baseline F))

/-- The run has no baseline, and its reports show none. -/
structure Quiet (db : Db F) (runId : Nat) : Prop where
  git : ∀ run, db.runs.get? runId = some run → run.git = {}
  reports : ∀ k report, db.reports.get? k = some report → report.taskRunId = runId → Blank db runId report

omit [Json.PyFloat F] in
theorem blank_of_events {runId : Nat} {report : TaskReport F} (hevents : db'.events = db.events) (h : Blank db runId report) :
    Blank db' runId report := by
  rw [Blank, eventsOf, hevents]
  exact h

theorem quiet_handle (hc : Coherent db) {runId : Nat}
    (hsilent : ∀ k event, db.events.get? k = some event → event.taskRunId = runId → event.eventType = .preToolUse →
      Silent host (gitOf event.payloadJson)) (h : Quiet db runId) (eventId : Nat) :
    Quiet (handle host db eventId).2 runId := by
  have hcases := handle_cases host db eventId
  generalize (handle host db eventId).2 = db' at hcases
  generalize (handle host db eventId).1 = result at hcases
  cases hcases with
  | nothing => exact h
  | captured event run git job type unset capture =>
    refine ⟨fun row hrow => ?_, fun k report hreport hof => blank_of_events rfl (h.reports k report hreport hof)⟩
    obtain ⟨old, hold, rfl⟩ := modify_runs_cases hrow
    split
    · next heq =>
      rcases silent_iff.mp (hsilent eventId event job.stored heq.symm type) with hnone | hempty
      · cases capture.symm.trans hnone
      · exact Option.some.inj (capture.symm.trans hempty)
    · exact h.git old hold
  | reported event run kind changes db' job type first reports =>
    refine ⟨fun row hrow => ?_, fun k report hreport hof => blank_of_events reports.events ?_⟩
    · rw [reports.runs] at hrow
      obtain ⟨old, hold, rfl⟩ := modify_runs_cases hrow
      have hgit := h.git old hold
      split <;> exact hgit
    · rw [reports.reports] at hreport
      rcases Table.get?_insert_cases hreport with ⟨-, rfl⟩ | ⟨-, hreport⟩
      · have hrunId : event.taskRunId = runId := hof
        subst hrunId
        have hgit := h.git run job.started
        have hchanges : changes = [] := by
          refine Option.some.inj (reports.changesFor.symm.trans (changesFor_empty fun e he => ?_))
          obtain ⟨-, id, hid⟩ := mem_eventsOf.mp he
          exact hc.noChanges id e hid
        subst hchanges
        refine ⟨by rw [reportRow, hgit], run, kind, run.currentReportRevision + 1, hgit, ?_⟩
        rw [reportRow, hgit]
      · exact h.reports k report hreport hof

theorem quiet_runJobs (order : List Nat) (hc : Coherent db) {runId : Nat}
    (hsilent : ∀ k event, db.events.get? k = some event → event.taskRunId = runId → event.eventType = .preToolUse →
      Silent host (gitOf event.payloadJson)) (h : Quiet db runId) : Quiet (runJobs host db order) runId := by
  induction order generalizing db with
  | nil => exact h
  | cons eventId order ih =>
    refine ih (coherent_handle _ hc eventId) ?_ (quiet_handle hc hsilent h eventId)
    rw [(handle_grows host db eventId).events]
    exact hsilent

omit [Json.PyFloat F] in
theorem same_of_blank {runId : Nat} {report other : TaskReport F} (h : Blank db runId report) (h' : Blank db' runId other)
    (hevents : db'.events = db.events) : Same report other := by
  obtain ⟨huncertain, run, kind, revision, hgit, hjson⟩ := h
  obtain ⟨huncertain', run', kind', revision', hgit', hjson'⟩ := h'
  have hsame : eventsOf db' runId = eventsOf db runId := by rw [eventsOf, hevents]; rfl
  rw [hsame] at hjson'
  constructor
  case gitBaseline =>
    rw [hjson, hjson']
    exact hgit.trans hgit'.symm
  case uncertain => exact huncertain.trans huncertain'.symm
  all_goals
    rw [hjson, hjson']
    rfl

/-! ## Every order -/

/-- The ids of the events of a run. -/
def eventIds (db : Db F) (runId : Nat) : List Nat := (db.events.select fun event => event.taskRunId = runId).map Prod.fst

omit [Json.PyFloat F] in
theorem covers_eventIds (db : Db F) (runId : Nat) : Covers db runId (eventIds db runId) := by
  intro eventId event hevent hof
  refine List.mem_map.mpr ⟨(eventId, event), (Table.mem_select _ _ _ _).mpr ⟨hevent, ?_⟩, rfl⟩
  rw [hof]
  exact decide_eq_true rfl

/-- **The baseline of a final report depends on the job before it**: the end of the session first, or evidence
before it. -/
theorem silent_of_orderFree {session : Session host} (h : OrderFree host session) {endId eventId : Nat}
    {endEvent event : TaskEvent F} (hend : session.stored.events.get? endId = some endEvent)
    (hendOf : endEvent.taskRunId = session.runId) (hfinal : endEvent.eventType = .sessionEnd)
    (hevent : session.stored.events.get? eventId = some event) (hof : event.taskRunId = session.runId)
    (htype : event.eventType = .preToolUse) : Silent host (gitOf event.payloadJson) := by
  obtain ⟨hc, huntouched⟩ := session.ok
  generalize hdb : session.stored = db at *
  rw [silent_iff]
  by_contra hevidence
  rw [not_or] at hevidence
  obtain ⟨git, hcapture⟩ := Option.ne_none_iff_exists'.mp hevidence.1
  have hkind : kindOf endEvent.eventType = some .final := by rw [hfinal]; rfl
  have hfirst : ∀ id r, db.reports.get? id = some r → r.sourceEventId ≠ endId := by
    intro id r hr hsource
    obtain ⟨other, hother, hotherOf, -⟩ := hc.ofEnd id r hr
    rw [hsource] at hother
    obtain rfl := Option.some.inj (hend.symm.trans hother)
    exact huntouched.reports id r hr (hotherOf.symm.trans hendOf)
  -- the end of the session first
  obtain ⟨k, report, hreport, hsource, hnew⟩ := handle_reports host hc hend hkind
  obtain ⟨hreportOf, hreportKind, run, hrun, hgit⟩ := hnew hfirst
  rw [hendOf] at hrun
  -- the evidence first
  obtain ⟨run', hrun', hproject⟩ := hc.ofRun eventId event hevent
  rw [hof] at hrun'
  obtain rfl := Option.some.inj (hrun.symm.trans hrun')
  have hempty := huntouched.git run hrun
  have hstarted : db.runs.get? event.taskRunId = some run := by rw [hof]; exact hrun
  have hunset : run.git.available = none := by rw [hempty]
  have hcaptured := handle_capture ⟨hevent, hstarted, hproject⟩ htype hunset hcapture
  have hevents := (handle_grows host db eventId).events
  have hreports : (handle host db eventId).2.reports = db.reports := by rw [hcaptured]
  have hrunAfter : (handle host db eventId).2.runs.get? session.runId = some { run with git := git } := by
    rw [hcaptured, ← hof]
    exact (Table.get?_modify_self _ _ _).trans (by rw [hstarted]; rfl)
  obtain ⟨l, other, hother, hotherSource, hnew'⟩ := handle_reports host (coherent_handle host hc eventId)
    (by rw [hevents]; exact hend) hkind
  obtain ⟨-, -, run', hrun', hgit'⟩ := hnew' (by rw [hreports]; exact hfirst)
  rw [hendOf] at hrun'
  obtain rfl := Option.some.inj (hrunAfter.symm.trans hrun')
  have hcovers := covers_eventIds db session.runId
  have hsame := h.same (endId :: eventIds db session.runId) (eventId :: endId :: eventIds db session.runId) k l report other
  rw [hdb] at hsame
  have hbaseline := (hsame (fun id e he hofRun => List.mem_cons_of_mem _ (hcovers id e he hofRun))
    (fun id e he hofRun => List.mem_cons_of_mem _ (List.mem_cons_of_mem _ (hcovers id e he hofRun)))
    ((runJobs_grows host (eventIds db session.runId) _).reports k report hreport)
    ((runJobs_grows host (eventIds db session.runId) _).reports l other hother)
    (hreportOf.trans hendOf) (hsource.trans hotherSource.symm) hreportKind).gitBaseline
  rw [hgit, hempty, hgit'] at hbaseline
  have hnothing : {} = git := hbaseline
  exact hevidence.2 (by rw [hcapture, ← hnothing])

/-- **The reports do not depend on the order of the jobs if and only if** the session has no end, or no tool
use of it brings evidence. -/
theorem orders_iff (session : Session host) :
    OrderFree host session ↔
      (∀ k event, session.stored.events.get? k = some event → event.taskRunId = session.runId → event.eventType ≠ .sessionEnd) ∨
        ∀ k event, session.stored.events.get? k = some event → event.taskRunId = session.runId →
          event.eventType = .preToolUse → Silent host (gitOf event.payloadJson) := by
  obtain ⟨hc, huntouched⟩ := session.ok
  constructor
  · intro h
    by_cases hends : ∀ k event, session.stored.events.get? k = some event → event.taskRunId = session.runId →
        event.eventType ≠ .sessionEnd
    · exact Or.inl hends
    · push Not at hends
      obtain ⟨endId, endEvent, hend, hendOf, hfinal⟩ := hends
      exact Or.inr fun k event hevent hof htype => silent_of_orderFree h hend hendOf hfinal hevent hof htype
  · intro hcondition
    refine ⟨fun order hcovers => settled_runJobs hc session.isRun hcovers, ?_⟩
    intro order other k l report report' _ _ hreport hreport' hof hsource hfinal
    obtain ⟨event, hevent, heventOf, hkind⟩ := (coherent_runJobs host order hc).ofEnd k report hreport
    obtain ⟨event', hevent', heventOf', -⟩ := (coherent_runJobs host other hc).ofEnd l report' hreport'
    rw [(runJobs_grows host order _).events] at hevent
    rw [(runJobs_grows host other _).events, ← hsource] at hevent'
    obtain rfl := Option.some.inj (hevent.symm.trans hevent')
    rcases hcondition with hends | hsilent
    · refine absurd ?_ (hends _ event hevent (heventOf.trans hof))
      rw [hfinal] at hkind
      cases htype : event.eventType <;> rw [htype] at hkind <;> first | rfl | cases hkind
    · have hquiet : Quiet session.stored session.runId :=
        ⟨huntouched.git, fun k report hreport hof => absurd hof (huntouched.reports k report hreport)⟩
      have hblank := (quiet_runJobs order hc hsilent hquiet).reports k report hreport hof
      have hblank' := (quiet_runJobs other hc hsilent hquiet).reports l report' hreport'
        (heventOf'.symm.trans (heventOf.trans hof))
      exact same_of_blank hblank hblank'
        ((runJobs_grows host other _).events.trans (runJobs_grows host order _).events.symm)

end

/-! ## One tool use and the end of its session -/

theorem act_append {F : Type} [Json.PyFloat F] {host : Host F} {db : Db F} {call : Call F} {out : Except Error Outcome × Db F}
    (h : appendEvent host db call = out) : act host db (.append call) = out.2 := congrArg Prod.snd h

/-- A tool use on the branch `main`. -/
def mainUse : Call Empty where
  principal := ⟨"demo", ["append"]⟩
  projectKey := "demo"
  sessionKey := "s1"
  eventKey := "tool"
  eventType := "PreToolUse"
  git := [("branch", .str "main")]

def sessionEnd : Call Empty where
  principal := ⟨"demo", ["append"]⟩
  projectKey := "demo"
  sessionKey := "s1"
  eventKey := "end"
  eventType := "SessionEnd"

def mainParts : Parts Empty := { hookParts [] with git := .obj [("branch", .str "main")] }

theorem parts_mainUse : mainUse.parts shortHost.table = mainParts := by
  have hgit : redactFields shortHost.table [("branch", Json.str (F := Empty) "main")] = ([("branch", .str "main")], false) :=
    redactFields_plain _ (by decide)
  have hnone : redactFields shortHost.table ([] : List (String × Json Empty)) = ([], false) := rfl
  simp only [Call.parts, mainUse, gitArgument, textArgument, exitCodeArgument, List.lookup, hgit, hnone,
    mainParts, hookParts]
  rfl

theorem prepare_mainUse : ∃ prepared, prepare shortHost mainUse = .ok prepared := by
  refine prepare_of_bytes rfl rfl (by decide) (show EventType.ofText? "PreToolUse" = some .preToolUse from rfl) ?_ ?_
  · rw [parts_mainUse, canonicalBytes_eq]
    decide +kernel
  · rw [parts_mainUse, canonicalBytes_eq]
    decide +kernel

theorem parts_sessionEnd : sessionEnd.parts shortHost.table = hookParts [] := by
  have hnone : redactFields shortHost.table ([] : List (String × Json Empty)) = ([], false) := rfl
  simp only [Call.parts, sessionEnd, gitArgument, textArgument, exitCodeArgument, List.lookup, hnone, hookParts]
  rfl

theorem prepare_sessionEnd : ∃ prepared, prepare shortHost sessionEnd = .ok prepared := by
  refine prepare_of_bytes rfl rfl (by decide) (show EventType.ofText? "SessionEnd" = some .sessionEnd from rfl) ?_ ?_
  · rw [parts_sessionEnd, canonicalBytes_eq]
    decide +kernel
  · rw [parts_sessionEnd, canonicalBytes_eq]
    decide +kernel

/-- The tool use is stored. -/
def usedDb (first : Prepared Empty) : Db Empty :=
  withEvent { oneProject with runs := oneProject.runs.insert (newRun 0 "s1") } mainUse first 0 0
    "demo.task.event.received.task_event.0.v1.4"

theorem outboxKey_mainUse : outboxKey shortHost "demo" 0 = .ok "demo.task.event.received.task_event.0.v1.4" := by rfl

theorem outboxKey_sessionEnd : outboxKey shortHost "demo" 1 = .ok "demo.task.event.received.task_event.1.v1.4" := by rfl

theorem unused_sessionEnd (first : Prepared Empty) : ((usedDb first).outbox.rows.any fun o =>
    o.2.projectId = 0 && o.2.idempotencyKey = "demo.task.event.received.task_event.1.v1.4") = false := by rfl

theorem fresh_sessionEnd (first : Prepared Empty) : findRow (usedDb first).events (isEvent 0 "end") = none := by
  have hother : ¬"tool" = "end" := by decide
  simp [findRow, usedDb, withEvent, Table.insert, oneProject, Table.empty, isEvent, Prepared.event, mainUse, hother]

theorem append_mainUse {first : Prepared Empty} (h : prepare shortHost mainUse = .ok first) :
    appendEvent shortHost oneProject mainUse = (.ok ⟨0, 0, .accepted⟩, usedDb first) := by
  have hsession : fits "s1" = true := by decide
  have hfits : fits "tool" = true := by decide
  exact appendEvent_new h rfl rfl hsession rfl hfits outboxKey_mainUse rfl

theorem append_sessionEnd (first : Prepared Empty) {second : Prepared Empty} (h : prepare shortHost sessionEnd = .ok second) :
    appendEvent shortHost (usedDb first) sessionEnd = (.ok ⟨1, 0, .accepted⟩,
      withEvent (usedDb first) sessionEnd second 0 0 "demo.task.event.received.task_event.1.v1.4") := by
  have hfits : fits "end" = true := by decide
  exact appendEvent_known h rfl rfl (fresh_sessionEnd first) hfits outboxKey_sessionEnd (unused_sessionEnd first)

theorem perform_main : ∃ first second, prepare shortHost mainUse = .ok first ∧ prepare shortHost sessionEnd = .ok second ∧
    perform shortHost oneProject [.append mainUse, .append sessionEnd] =
      withEvent (usedDb first) sessionEnd second 0 0 "demo.task.event.received.task_event.1.v1.4" := by
  obtain ⟨first, hfirst⟩ := prepare_mainUse
  obtain ⟨second, hsecond⟩ := prepare_sessionEnd
  refine ⟨first, second, hfirst, hsecond, ?_⟩
  rw [perform, List.foldl_cons, List.foldl_cons, List.foldl_nil, act_append (append_mainUse hfirst),
    act_append (append_sessionEnd first hsecond)]

def mainSession : Session shortHost where
  start := oneProject
  noRuns _ := rfl
  noEvents _ := rfl
  noReports _ := rfl
  actions := [.append mainUse, .append sessionEnd]
  runId := 0
  isRun := by
    obtain ⟨first, second, -, -, hperform⟩ := perform_main
    rw [hperform]
    rfl
  noJob _ _ hmem := by simp at hmem

/-- **The final report has the branch or not**, as the job of the tool use comes first or second. -/
theorem orders_main : ¬ OrderFree shortHost mainSession := by
  intro h
  obtain ⟨first, second, hfirst, hsecond, hperform⟩ := perform_main
  have hstored : mainSession.stored = _ := hperform
  have htype : first.eventType = .preToolUse := (Option.some.inj (prepare_payload hfirst).2).symm
  have hfinal : second.eventType = .sessionEnd := (Option.some.inj (prepare_payload hsecond).2).symm
  have hpayload : gitOf first.storedPayload = [("branch", .str "main")] := by
    rw [(prepare_payload hfirst).1, stored_git, parts_mainUse]
    rfl
  have hevent : mainSession.stored.events.get? 0 = some (first.event 0 0 "tool" 1) := by
    rw [hstored]
    rfl
  have hend : mainSession.stored.events.get? 1 = some (second.event 0 0 "end" 2) := by
    rw [hstored]
    rfl
  have hsilent : Silent shortHost (gitOf first.storedPayload) := silent_of_orderFree h hend rfl hfinal hevent rfl htype
  rw [hpayload] at hsilent
  have hlength : "main".length ≤ 255 := by decide
  revert hsilent
  simp [Silent, field, either, Candidates.truthy, textColumn, flagColumn, List.lookup, hlength]

end CodexMemory.Tasks.Orders
