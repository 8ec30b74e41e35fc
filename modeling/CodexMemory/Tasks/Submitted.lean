import CodexMemory.Tasks.Orders

/-!
# The changes in the reports

A payload may list changes under `file_changes` or `changes`.  `append_event` stores the
payload under a key of its own, and `_changes_for` looks for the lists beside it.

* `events_of_calls`: the events of a run are its accepted calls, under the numbers 1, 2, …;
* `reported_iff`: a report shows what was submitted exactly where no change was.
-/

namespace CodexMemory.Tasks.Submitted

open Orders Hooks
open Candidates (truthy)

variable {F : Type} [Json.PyFloat F] {host : Host F}

/-! ## What is submitted -/

/-- The call, if it is accepted into the run. -/
def acceptedCall (host : Host F) (runId : Nat) (db : Db F) (call : Call F) : List (Call F) :=
  match (appendEvent host db call).1 with
  | .ok ⟨_, run, .accepted⟩ => if run = runId then [call] else []
  | _ => []

/-- The calls whose events a run has, in the order in which they were accepted. -/
def accepted (host : Host F) (runId : Nat) : Db F → List (Action F) → List (Call F)
  | _, [] => []
  | db, .append call :: actions =>
    acceptedCall host runId db call ++ accepted host runId (appendEvent host db call).2 actions
  | db, .job eventId :: actions => accepted host runId (handle host db eventId).2 actions

theorem acceptedCall_of_append {runId : Nat} {db db' : Db F} {call : Call F} {eventId : Nat}
    (h : appendEvent host db call = (.ok ⟨eventId, runId, .accepted⟩, db')) : acceptedCall host runId db call = [call] := by
  rw [acceptedCall, h]
  exact if_pos rfl

/-- The items of a list in a payload. -/
def itemsAt (payload : List (String × Json F)) (key : String) : List (Json F) :=
  match payload.lookup key with
  | some (.arr items) => items
  | _ => []

/-- The changes of both lists: the items with a path. -/
def submitted (payload : List (String × Json F)) : List (List (String × Json F)) :=
  (objects (itemsAt payload "file_changes") ++ objects (itemsAt payload "changes")).filter fun item =>
    truthy (field item "path")

/-- One change for each pair of path and old path, the last one of the items, sorted by path. -/
structure ShowsChanges (host : Host F) (items changes : List (List (String × Json F))) : Prop where
  once : (changes.map (changeKey host)).Nodup
  last : ∀ item, item ∈ changes ↔ ∃ before after, items = before ++ item :: after ∧
    ∀ other ∈ after, changeKey host other ≠ changeKey host item
  sorted : changes.Pairwise fun a b => textOr host a "path" "" ≤ textOr host b "path" ""

def timelineOf (calls : List (Call F)) : List TimelineEntry :=
  calls.zipIdx.filterMap fun c => (EventType.ofText? c.1.eventType).map fun type =>
    ⟨c.2 + 1, c.1.eventKey, type, c.1.occurredAt⟩

def toolEntry (host : Host F) (call : Call F) : ToolEntry :=
  let parts := call.parts host.table
  ⟨call.eventKey, (truncate host parts.command maxCommandBytes).text,
    (truncate host parts.result maxResultBytes).text, exitCodeColumn parts.exitCode⟩

def toolsOf (host : Host F) (calls : List (Call F)) : List ToolEntry :=
  (calls.filter fun call => EventType.ofText? call.eventType = some .postToolUse).map (toolEntry host)

/-- **The report shows what was submitted**: the changes, and the events and the tool uses in their order. -/
structure ShowsSubmitted (host : Host F) (calls : List (Call F)) (report : ReportJson F) : Prop where
  changes : ShowsChanges host (calls.flatMap fun call => submitted call.payload) report.changes
  timeline : report.timeline = timelineOf calls
  toolSummary : report.toolSummary = toolsOf host calls

/-- A report that a job writes, after any calls and jobs from a database without events on. -/
structure History (host : Host F) where
  start : Db F
  noEvents : ∀ k, start.events.get? k = none
  actions : List (Action F)
  eventId : Nat
  reportId : Nat
  report : TaskReport F
  fresh : (perform host start actions).reports.get? reportId = none
  written : (handle host (perform host start actions) eventId).2.reports.get? reportId = some report

/-- The accepted calls of the run of the report. -/
def History.calls (history : History host) : List (Call F) :=
  accepted host history.report.taskRunId history.start history.actions

/-! ## The events of a run -/

/-- The event of an accepted call, the one with the number after `c.2`. -/
def StoredAs (host : Host F) (runId : Nat) (c : Call F × Nat) (event : TaskEvent F) : Prop :=
  ∃ prepared projectId, prepare host c.1 = .ok prepared ∧
    event = prepared.event projectId runId c.1.eventKey (c.2 + 1)

/-- The events of the run come from the calls, in their order. -/
def Holds (host : Host F) (runId : Nat) (calls : List (Call F)) (db : Db F) : Prop :=
  List.Forall₂ (StoredAs host runId) calls.zipIdx ((db.events.select fun e => e.taskRunId = runId).map Prod.snd)

variable {runId : Nat} {calls : List (Call F)} {db : Db F}

theorem numbers_of_forall {l : List (Call F × Nat)} {events : List (TaskEvent F)}
    (h : List.Forall₂ (StoredAs host runId) l events) : events.map TaskEvent.sequenceNo = l.map fun c => c.2 + 1 := by
  induction h with
  | nil => rfl
  | cons hhead _ ih =>
    obtain ⟨prepared, projectId, -, rfl⟩ := hhead
    rw [List.map_cons, List.map_cons, ih]
    rfl

theorem Holds.numbers (h : Holds host runId calls db) :
    ((db.events.select fun e => e.taskRunId = runId).map Prod.snd).map TaskEvent.sequenceNo =
      List.range' 1 calls.length := by
  rw [numbers_of_forall h]
  have hzip : (calls.zipIdx.map fun c => c.2 + 1) = (calls.zipIdx.map Prod.snd).map (· + 1) := by
    rw [List.map_map]
    rfl
  rw [hzip, List.zipIdx_map_snd, List.range'_succ_left]

theorem lastNumber_range' (n : Nat) : lastNumber (List.range' 1 n) = n := by
  induction n with
  | zero => rfl
  | succ n ih =>
    rw [List.range'_concat, lastNumber, List.foldl_append, ← lastNumber, ih]
    simp only [List.foldl_cons, List.foldl_nil]
    omega

theorem Holds.lastSequence (h : Holds host runId calls db) : lastSequence db.events runId = calls.length := by
  have hnumbers := h.numbers
  rw [List.map_map] at hnumbers
  rw [Tasks.lastSequence, ← lastNumber_range' calls.length, ← hnumbers]
  rfl

/-- **A call extends the events of its run at their end**, and no other's. -/
theorem holds_append (h : Holds host runId calls db) (call : Call F) :
    Holds host runId (calls ++ acceptedCall host runId db call) (appendEvent host db call).2 := by
  rcases appendEvent_cases host db call with ⟨hsame, hduplicate⟩ | ⟨prepared, projectId, run, hstores, haccepted⟩
  · have hnone : acceptedCall host runId db call = [] := by
      unfold acceptedCall
      split
      · next hok => cases hduplicate _ hok
      · rfl
    rw [hnone, List.append_nil, hsame]
    exact h
  · have hselect : ((appendEvent host db call).2.events.select fun e => e.taskRunId = runId).map Prod.snd =
        (db.events.select fun e => e.taskRunId = runId).map Prod.snd ++
          if run = runId then [prepared.event projectId run call.eventKey (lastSequence db.events run + 1)] else [] := by
      rw [hstores.events, Table.select, Table.insert, List.filter_append, List.map_append]
      congr 1
      by_cases hrun : run = runId
      · simp [hrun, Prepared.event]
      · simp [hrun, Prepared.event]
    rw [Holds, hselect]
    simp only [acceptedCall, haccepted]
    by_cases hrun : run = runId
    · subst hrun
      rw [if_pos rfl, if_pos rfl, List.zipIdx_append, h.lastSequence]
      refine List.rel_append h (.cons ?_ .nil)
      exact ⟨prepared, projectId, hstores.prepare, by rw [Nat.zero_add]⟩
    · rw [if_neg hrun, if_neg hrun, List.append_nil, List.append_nil]
      exact h

/-- **The events of a run are its accepted calls.** -/
theorem events_of_calls (actions : List (Action F)) (h : Holds host runId calls db) :
    Holds host runId (calls ++ accepted host runId db actions) (perform host db actions) := by
  induction actions generalizing calls db with
  | nil =>
    rw [accepted, List.append_nil]
    exact h
  | cons action actions ih =>
    cases action with
    | append call =>
      rw [accepted, ← List.append_assoc]
      exact ih (holds_append h call)
    | job eventId =>
      refine ih ?_
      rw [Holds, (handle_grows host db eventId).events]
      exact h

theorem holds_empty (h : ∀ k, db.events.get? k = none) : Holds host runId [] db := by
  have hnone : (db.events.select fun e => e.taskRunId = runId) = [] := by
    rw [List.eq_nil_iff_forall_not_mem]
    rintro ⟨k, event⟩ hmem
    rw [Table.mem_select, h k] at hmem
    cases hmem.1
  rw [Holds, hnone]
  exact .nil

/-- Their numbers order them already. -/
theorem Holds.eventsOf (h : Holds host runId calls db) :
    List.Forall₂ (StoredAs host runId) calls.zipIdx (eventsOf db runId) := by
  have hsorted : (db.events.select fun e => e.taskRunId = runId) =
      sortBy (fun e => (toLex (e.2.sequenceNo, e.1) : Nat ×ₗ Nat)) (db.events.select fun e => e.taskRunId = runId) := by
    refine eq_sortBy (List.Perm.refl _) ?_ fun a ha b hb heq => ?_
    · have hnumbers := h.numbers
      rw [List.map_map] at hnumbers
      have hlt : (List.range' 1 calls.length).Pairwise (· < ·) := List.pairwise_lt_range'
      rw [← hnumbers, List.pairwise_map] at hlt
      exact hlt.imp fun hab => le_of_lt (Prod.Lex.toLex_lt_toLex.mpr (.inl hab))
    · have hkeys : (a.2.sequenceNo, a.1) = (b.2.sequenceNo, b.1) := toLex_inj.mp heq
      have hid : a.1 = b.1 := congrArg Prod.snd hkeys
      have hrow := ((Table.mem_select _ _ _ _).mp ha).1
      rw [hid, ((Table.mem_select _ _ _ _).mp hb).1] at hrow
      exact Prod.ext hid (Option.some.inj hrow).symm
  rw [Tasks.eventsOf, ← hsorted]
  exact h

/-! ## What is shown -/

theorem timeline_of_forall {l : List (Call F × Nat)} {events : List (TaskEvent F)}
    (h : List.Forall₂ (StoredAs host runId) l events) :
    events.map (fun e => (⟨e.sequenceNo, e.eventKey, e.eventType, e.occurredAt⟩ : TimelineEntry)) =
      l.filterMap fun c => (EventType.ofText? c.1.eventType).map fun type =>
        ⟨c.2 + 1, c.1.eventKey, type, c.1.occurredAt⟩ := by
  induction h with
  | nil => rfl
  | cons hhead _ ih =>
    obtain ⟨prepared, projectId, hprepare, rfl⟩ := hhead
    have hprepares := prepare_ok hprepare
    rw [List.map_cons, ih, List.filterMap_cons, hprepares.eventType, ← hprepares.occurredAt]
    rfl

theorem tools_of_forall {l : List (Call F × Nat)} {events : List (TaskEvent F)}
    (h : List.Forall₂ (StoredAs host runId) l events) :
    (events.filter fun e => e.eventType = .postToolUse).map
        (fun e => (⟨e.eventKey, e.command.text, e.result.text, e.exitCode⟩ : ToolEntry)) =
      toolsOf host (l.map Prod.fst) := by
  induction h with
  | nil => rfl
  | @cons c _ _ _ hhead _ ih =>
    obtain ⟨prepared, projectId, hprepare, rfl⟩ := hhead
    have hprepares := prepare_ok hprepare
    have hentry : (⟨c.1.eventKey, prepared.command.text, prepared.result.text, prepared.exitCode⟩ : ToolEntry) =
        toolEntry host c.1 := by
      rw [hprepares.command, hprepares.result, hprepares.exitCode]
      rfl
    rw [toolsOf] at ih ⊢
    rw [List.map_cons, List.filter_cons, List.filter_cons, hprepares.eventType]
    by_cases htype : prepared.eventType = .postToolUse
    · simpa [Prepared.event, htype, hentry] using ih
    · simpa [Prepared.event, htype] using ih

theorem changes_of_forall {l : List (Call F × Nat)} {events : List (TaskEvent F)}
    (h : List.Forall₂ (StoredAs host runId) l events) : ∀ e ∈ events, rawChanges e.payloadJson = [] := by
  induction h with
  | nil => simp
  | cons hhead _ ih =>
    obtain ⟨prepared, projectId, hprepare, rfl⟩ := hhead
    rintro e (_ | ⟨_, he⟩)
    · change rawChanges prepared.storedPayload = []
      rw [(prepare_ok hprepare).storedPayload]
      exact stored_changes _ _ _ _
    · exact ih e he

/-- No change is shown: that is right where none was submitted. -/
theorem showsChanges_nil (host : Host F) (items : List (List (String × Json F))) :
    ShowsChanges host items [] ↔ items = [] := by
  constructor
  · intro h
    rcases List.eq_nil_or_concat items with rfl | ⟨front, item, rfl⟩
    · rfl
    · have hmem := (h.last item).mpr ⟨front, [], by rw [List.concat_eq_append], by simp⟩
      cases hmem
  · rintro rfl
    refine ⟨List.nodup_nil, fun item => ?_, List.Pairwise.nil⟩
    simp

/-- The report that a job writes comes from the accepted calls of its run. -/
theorem History.reportJson_eq (history : History host) : ∃ run kind revision,
    history.report.reportJson = reportJson history.report.taskRunId run
        (eventsOf (perform host history.start history.actions) history.report.taskRunId) [] kind revision
        (isUncertain run.git) ∧
      Holds host history.report.taskRunId history.calls (perform host history.start history.actions) := by
  have hholds : Holds host history.report.taskRunId history.calls (perform host history.start history.actions) :=
    events_of_calls history.actions (holds_empty history.noEvents)
  have hwritten := history.written
  have hcases := handle_cases host (perform host history.start history.actions) history.eventId
  generalize (handle host (perform host history.start history.actions) history.eventId).2 = db' at hcases hwritten
  generalize (handle host (perform host history.start history.actions) history.eventId).1 = result at hcases
  cases hcases with
  | nothing => cases history.fresh.symm.trans hwritten
  | captured => cases history.fresh.symm.trans hwritten
  | reported event run kind changes db' job type first reports =>
    rw [reports.reports] at hwritten
    rcases Table.get?_insert_cases hwritten with ⟨-, hreport⟩ | ⟨-, hold⟩
    · have hof : history.report.taskRunId = event.taskRunId := by rw [hreport]; rfl
      have hchanges : changes = [] := by
        refine Option.some.inj (reports.changesFor.symm.trans (changesFor_empty ?_))
        rw [← hof]
        exact changes_of_forall hholds.eventsOf
      refine ⟨run, kind, run.currentReportRevision + 1, ?_, hholds⟩
      rw [hof, ← hchanges, hreport]
      rfl
    · cases history.fresh.symm.trans hold

/-- **The report shows what was submitted if and only if no change was.** -/
theorem reported_iff (history : History host) :
    ShowsSubmitted host history.calls history.report.reportJson ↔ ∀ call ∈ history.calls, submitted call.payload = [] := by
  obtain ⟨run, kind, revision, hreport, hholds⟩ := history.reportJson_eq
  have hevents := hholds.eventsOf
  have hiff : ShowsChanges host (history.calls.flatMap fun call => submitted call.payload) history.report.reportJson.changes ↔
      ∀ call ∈ history.calls, submitted call.payload = [] := by
    rw [hreport, ← List.flatMap_eq_nil_iff]
    exact showsChanges_nil host _
  constructor
  · intro h
    exact hiff.mp h.changes
  · intro h
    refine ⟨hiff.mpr h, ?_, ?_⟩
    · rw [hreport]
      exact timeline_of_forall hevents
    · rw [hreport]
      have htools := tools_of_forall hevents
      rw [List.zipIdx_map_fst] at htools
      exact htools

/-! ## One edit and the end of its session -/

/-- An edit of `src/a.py`. -/
def edit : List (String × Json Empty) := [("path", .str "src/a.py"), ("change_type", .str "modified")]

def editUse : Call Empty where
  principal := ⟨"demo", ["append"]⟩
  projectKey := "demo"
  sessionKey := "s1"
  eventKey := "tool"
  eventType := "PostToolUse"
  payload := [("file_changes", .arr [.obj edit])]

def editParts : Parts Empty := { hookParts [] with payload := .obj [("file_changes", .arr [.obj edit])] }

theorem parts_editUse : editUse.parts shortHost.table = editParts := by
  have hpayload : redactFields shortHost.table [("file_changes", Json.arr [.obj edit])] =
      ([("file_changes", .arr [.obj edit])], false) := redactFields_plain _ (by decide)
  have hnone : redactFields shortHost.table ([] : List (String × Json Empty)) = ([], false) := rfl
  have hgit : gitArgument [] editUse.payload = [] := rfl
  rw [Call.parts]
  simp only [show editUse.payload = [("file_changes", Json.arr [.obj edit])] from rfl, hpayload] at hgit ⊢
  rw [show editUse.git = [] from rfl, show editUse.metadata = [] from rfl, hgit, hnone]
  rfl

theorem prepare_editUse : ∃ prepared, prepare shortHost editUse = .ok prepared := by
  refine prepare_of_bytes rfl rfl (by decide) (show EventType.ofText? "PostToolUse" = some .postToolUse from rfl) ?_ ?_
  · rw [parts_editUse, canonicalBytes_eq]
    decide +kernel
  · rw [parts_editUse, canonicalBytes_eq]
    decide +kernel

theorem append_editUse {first : Prepared Empty} (h : prepare shortHost editUse = .ok first) :
    appendEvent shortHost oneProject editUse = (.ok ⟨0, 0, .accepted⟩, usedDb first) := by
  have hsession : fits "s1" = true := by decide
  have hfits : fits "tool" = true := by decide
  exact appendEvent_new h rfl rfl hsession rfl hfits outboxKey_mainUse rfl

/-- **The edit is missing** from the final report. -/
theorem edit_missing : ∃ history : History shortHost, history.start = oneProject ∧
    history.actions = [.append editUse, .append sessionEnd] ∧ history.eventId = 1 ∧
    ¬ ShowsSubmitted shortHost history.calls history.report.reportJson := by
  obtain ⟨first, hfirst⟩ := prepare_editUse
  obtain ⟨second, hsecond⟩ := prepare_sessionEnd
  have hperform : perform shortHost oneProject [.append editUse, .append sessionEnd] =
      withEvent (usedDb first) sessionEnd second 0 0 "demo.task.event.received.task_event.1.v1.4" := by
    rw [perform, List.foldl_cons, List.foldl_cons, List.foldl_nil, act_append (append_editUse hfirst),
      act_append (append_sessionEnd first hsecond)]
  have hcalls : accepted shortHost 0 oneProject [.append editUse, .append sessionEnd] = [editUse, sessionEnd] := by
    rw [accepted, accepted, accepted, acceptedCall_of_append (append_editUse hfirst), append_editUse hfirst,
      acceptedCall_of_append (append_sessionEnd first hsecond)]
    rfl
  have hempty : Holds shortHost 0 [] oneProject := holds_empty fun _ => rfl
  have hholds := events_of_calls [.append editUse, .append sessionEnd] hempty
  rw [hcalls, List.nil_append] at hholds
  have hkind : kindOf second.eventType = some .final := by
    have htype : some .sessionEnd = some second.eventType := (prepare_ok hsecond).eventType
    rw [← Option.some.inj htype]
    rfl
  generalize hdb : perform shortHost oneProject [.append editUse, .append sessionEnd] = db at hperform hholds
  have job : Job db 1 (second.event 0 0 "end" 2) (newRun 0 "s1") := by
    rw [hperform]
    exact ⟨rfl, rfl, rfl⟩
  have hreports : db.reports = .empty := by
    rw [hperform]
    rfl
  have hnone : ∀ id, db.reports.get? id = none := by
    rw [hreports]
    exact Table.get?_empty
  have hfirstReport : ∀ {p : Nat → TaskReport Empty → Prop}, ∀ id r, db.reports.get? id = some r → p id r := by
    intro p id r hr
    rw [hnone id] at hr
    cases hr
  have hchanges : changesFor shortHost (eventsOf db 0) = some [] := changesFor_empty (changes_of_forall hholds.eventsOf)
  have reports := handle_end job hkind hfirstReport hchanges hfirstReport
  have hfresh : (perform shortHost oneProject [.append editUse, .append sessionEnd]).reports.get? 0 = none := by
    rw [hdb]
    exact hnone 0
  have hwritten : (handle shortHost (perform shortHost oneProject [.append editUse, .append sessionEnd]) 1).2.reports.get? 0 =
      some (reportRow shortHost 1 0 (newRun 0 "s1") (eventsOf db 0) [] .final 1) := by
    rw [hdb, reports.reports, hreports]
    rfl
  refine ⟨⟨oneProject, fun _ => rfl, [.append editUse, .append sessionEnd], 1, 0, _, hfresh, hwritten⟩, rfl, rfl, rfl,
    fun h => ?_⟩
  have hshown := h.changes
  rw [History.calls] at hshown
  change ShowsChanges shortHost ((accepted shortHost 0 oneProject [.append editUse, .append sessionEnd]).flatMap _) [] at hshown
  rw [hcalls, showsChanges_nil] at hshown
  cases hshown

end CodexMemory.Tasks.Submitted
