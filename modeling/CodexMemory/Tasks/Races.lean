import CodexMemory.Tasks.Evidence
import CodexMemory.Trace
import CodexMemory.Versions

/-!
# `append_event` with other calls at the same time

Any number of calls run at the same time, each in its own transaction; a step lets one call go on to its
next statement.  A call reads the run, the event and the last sequence number, inserts the run and the
event in flushes of their own, and the outbox event at the commit, whose `IntegrityError` it handles.
Each insertion waits while an open transaction holds its key, and is refused when a stored row has it.
The number that a call has read is not locked: the commit of another call can make it stale.

* `kept_step`: one step keeps the log exactly when it is regular;
* `log_iff`: so does every run.
-/

namespace CodexMemory.Tasks.Races

open Versioned

variable {F : Type}

/-! ## Rows -/

/-- `uq_task_runs_project_session_key` -/
def runIndex (run : TaskRun F) : Option (Nat × String) := some (run.projectId, run.sessionKey)

/-- `uq_task_events_run_event_key` -/
def eventIndex (event : TaskEvent F) : Option (Nat × String) := some (event.taskRunId, event.eventKey)

/-- `uq_outbox_project_idempotency` -/
def outboxIndex (row : OutboxEvent) : Option (Nat × String) := some (row.projectId, row.idempotencyKey)

/-- What a call does next; `recovering` after its commit was refused. -/
inductive Phase
  | starting
  | readingRun (projectId : Nat)
  | addingRun (projectId : Nat)
  | readingEvent (projectId runId : Nat)
  | readingSequence (projectId runId : Nat)
  | addingEvent (projectId runId sequenceNo : Nat)
  | addingOutbox (projectId runId eventId : Nat)
  | committing (projectId runId eventId : Nat)
  | recovering (runId : Nat)
  | ended (result : Except Error Outcome)

/-- The database and the calls, each under its number. -/
structure State (F : Type) where
  projects : Table Candidates.Project
  runs : Versioned (TaskRun F)
  events : Versioned (TaskEvent F)
  outbox : Versioned OutboxEvent
  phase : Nat → Phase

namespace State

def goTo (s : State F) (c : Nat) (phase : Phase) : State F :=
  { s with phase := fun i => if i = c then phase else s.phase i }

def commit (s : State F) (c : Nat) : State F :=
  { s with runs := s.runs.commit c, events := s.events.commit c, outbox := s.outbox.commit c }

/-- `session.rollback()` of call `c`, which leaving `with self.session_factory()` also is. -/
def rollback (s : State F) (c : Nat) : State F :=
  { s with runs := s.runs.rollback c, events := s.events.rollback c, outbox := s.outbox.rollback c }

/-- The call ends without a commit. -/
def leave (s : State F) (c : Nat) (result : Except Error Outcome) : State F := (s.rollback c).goTo c (.ended result)

/-- The greatest sequence number that call `c` sees in a run. -/
def lastSequence (s : State F) (c : Nat) (runId : Nat) : Nat :=
  lastNumber ((s.events.rows.filter fun row => visible c row.2.version && row.2.data.taskRunId = runId).map fun row =>
    row.2.data.sequenceNo)

end State

/-! ## Statements -/

section

variable (host : Host F) (s : State F) (c : Nat) (call : Call F) (prepared : Prepared F)

/-- The answer when the event is there. -/
def answerExisting (eventId : Nat) (existing : TaskEvent F) : State F :=
  if existing.contentHash ≠ prepared.contentHash then s.leave c (.error (.conflict eventId))
  else s.leave c (.ok ⟨eventId, existing.taskRunId, .duplicate⟩)

def readProject : State F :=
  match projectOf s.projects call.projectKey with
  | none => s.leave c (.error (.lookup ("项目不存在：" ++ call.projectKey)))
  | some projectId => s.goTo c (.readingRun projectId)

def readRun (projectId : Nat) : State F :=
  match s.runs.find? c (isRun projectId call.sessionKey) with
  | none => s.goTo c (.addingRun projectId)
  | some (runId, _) => s.goTo c (.readingEvent projectId runId)

/-- `session.flush()` of the run; its errors are not caught. -/
def addRun (projectId : Nat) : Bool × State F :=
  if !fits call.sessionKey then (true, s.leave c (.error tooLong))
  else
    match insertUnique runIndex s.runs c (newRun projectId call.sessionKey) with
    | .blocked => (false, s)
    | .refused => (true, s.leave c (.error (.integrity "uq_task_runs_project_session_key")))
    | .inserted runs => (true, { s with runs := runs }.goTo c (.readingEvent projectId s.runs.nextId))

def readEvent (projectId runId : Nat) : State F :=
  match s.events.find? c (isEvent runId call.eventKey) with
  | some (eventId, existing) => answerExisting s c prepared eventId existing
  | none => s.goTo c (.readingSequence projectId runId)

/-- `session.flush()` of the event; its errors are not caught. -/
def addEvent (projectId runId sequenceNo : Nat) : Bool × State F :=
  if !fits call.eventKey then (true, s.leave c (.error tooLong))
  else
    match insertUnique eventIndex s.events c (prepared.event projectId runId call.eventKey sequenceNo) with
    | .blocked => (false, s)
    | .refused => (true, s.leave c (.error (.integrity "uq_task_events_run_event_key")))
    | .inserted events => (true, { s with events := events }.goTo c (.addingOutbox projectId runId s.events.nextId))

/-- The outbox event, built and then flushed by `session.commit()`. -/
def addOutbox (projectId runId eventId : Nat) : Bool × State F :=
  match outboxKey host call.projectKey eventId with
  | .error message => (true, s.leave c (.error (.value message)))
  | .ok key =>
    match insertUnique outboxIndex s.outbox c (outboxOf projectId call.projectKey runId eventId key) with
    | .blocked => (false, s)
    | .refused => (true, (s.rollback c).goTo c (.recovering runId))
    | .inserted outbox => (true, { s with outbox := outbox }.goTo c (.committing projectId runId eventId))

def commitCall (runId eventId : Nat) : State F := (s.commit c).goTo c (.ended (.ok ⟨eventId, runId, .accepted⟩))

/-- The handler of the `IntegrityError`, after its rollback. -/
def recover (runId : Nat) : State F :=
  match s.events.find? c (isEvent runId call.eventKey) with
  | none => s.leave c (.error (.integrity "uq_outbox_project_idempotency"))
  | some (eventId, existing) => answerExisting s c prepared eventId existing

/-- The next statement of a call whose event is prepared. -/
def next : Phase → Bool × State F
  | .starting => (true, readProject s c call)
  | .readingRun p => (true, readRun s c call p)
  | .addingRun p => addRun s c call p
  | .readingEvent p r => (true, readEvent s c call prepared p r)
  | .readingSequence p r => (true, s.goTo c (.addingEvent p r (s.lastSequence c r + 1)))
  | .addingEvent p r n => addEvent s c call prepared p r n
  | .addingOutbox p r k => addOutbox host s c call p r k
  | .committing _ r k => (true, commitCall s c r k)
  | .recovering r => (true, recover s c call prepared r)
  | .ended _ => (false, s)

end

/-- The next statement of call `c`; the answer is whether it went on, which it does not while another
transaction holds its key or when it has ended.  What comes before the session is done with its first
statement. -/
def step [Json.PyFloat F] (host : Host F) (calls : List (Call F)) (s : State F) (c : Nat) : Bool × State F :=
  match calls[c]? with
  | none => (false, s)
  | some call =>
    match s.phase c with
    | .ended _ => (false, s)
    | phase =>
      match prepare host call with
      | .error error => (true, s.leave c (.error error))
      | .ok prepared => next host s c call prepared phase

/-! ## The log of a session -/

/-- Row `k` is the stored event of a call, in the run of its session. -/
def State.Stored (s : State F) (call : Call F) (k : Nat) (event : TaskEvent F) : Prop :=
  s.events.Live k event .committed ∧ event.eventKey = call.eventKey ∧
    ∃ p run, projectOf s.projects call.projectKey = some p ∧ s.runs.Live event.taskRunId run .committed ∧
      runIndex run = some (p, call.sessionKey)

/-- A call has ended as it must: with `accepted` or `duplicate` for the stored event of its content, with
a conflict with the stored event of another content, or before it has come to the rows. -/
def State.EndedWell [Json.PyFloat F] (host : Host F) (s : State F) (call : Call F) : Except Error Outcome → Prop
  | .ok outcome => ∃ event prepared, s.Stored call outcome.eventId event ∧ event.taskRunId = outcome.taskRunId ∧
      prepare host call = .ok prepared ∧ event.contentHash = prepared.contentHash
  | .error (.conflict k) => ∃ event prepared, s.Stored call k event ∧ prepare host call = .ok prepared ∧
      event.contentHash ≠ prepared.contentHash
  | .error (.integrity _) | .error (.data _) => False
  | .error _ => True

/-- The call was accepted and stored event `k`. -/
def Phase.Accepts (phase : Phase) (k : Nat) : Prop := ∃ r, phase = .ended (.ok ⟨k, r, .accepted⟩)

/-- **The log**: the stored events of each run have the numbers 1, 2, … without gap or repeat and
different keys, every call that has ended has ended as it must, and each event that was not there before
(`stored` is the number of event ids used before) was accepted once. -/
structure Kept [Json.PyFloat F] (host : Host F) (calls : List (Call F)) (stored : Nat) (s : State F) : Prop where
  oneNumber : ∀ k l e f, s.events.Live k e .committed → s.events.Live l f .committed → e.taskRunId = f.taskRunId →
    e.sequenceNo = f.sequenceNo → k = l
  noGap : ∀ k e, s.events.Live k e .committed → 0 < e.sequenceNo ∧
    ∀ j, 0 < j → j ≤ e.sequenceNo → ∃ l f, s.events.Live l f .committed ∧ f.taskRunId = e.taskRunId ∧ f.sequenceNo = j
  oneEvent : ∀ k l e f, s.events.Live k e .committed → s.events.Live l f .committed → e.taskRunId = f.taskRunId →
    e.eventKey = f.eventKey → k = l
  ended : ∀ (c : Nat) call result, calls[c]? = some call → s.phase c = .ended result → s.EndedWell host call result
  accepted : ∀ c k, (s.phase c).Accepts k → stored ≤ k ∧ ∃ e, s.events.Live k e .committed
  writer : ∀ k e, s.events.Live k e .committed → stored ≤ k → ∃ c, (s.phase c).Accepts k
  once : ∀ c d k, (s.phase c).Accepts k → (s.phase d).Accepts k → c = d

/-- The greatest number that is stored in a run. -/
def State.storedLast (s : State F) (runId : Nat) : Nat :=
  lastNumber ((s.events.rows.filter fun row => row.2.version = .committed && row.2.data.taskRunId = runId).map fun row =>
    row.2.data.sequenceNo)

/-- A step that cannot go wrong: the keys fit their columns; a run and an event are inserted where none is
stored under their keys; what is committed has the number after the last one stored; and where the outbox
event was refused, the event is there. -/
def Regular [Json.PyFloat F] (host : Host F) (calls : List (Call F)) (s : State F) (c : Nat) : Prop :=
  ∀ call prepared, calls[c]? = some call → prepare host call = .ok prepared →
    match s.phase c with
    | .addingRun p => fits call.sessionKey = true ∧
        ∀ k run, s.runs.Live k run .committed → runIndex run ≠ some (p, call.sessionKey)
    | .addingEvent _ r _ => fits call.eventKey = true ∧
        ∀ k event, s.events.Live k event .committed → eventIndex event ≠ some (r, call.eventKey)
    | .committing _ r k => ∀ event, s.events.Live k event (.uncommitted c) → event.sequenceNo = s.storedLast r + 1
    | .recovering r => ∃ k event, s.events.Live k event .committed ∧ isEvent r call.eventKey event = true
    | _ => True

/-! ## The invariant -/

/-- The phases in which the transaction of a call may hold a run. -/
def Phase.holdsRun : Phase → Bool
  | .readingEvent _ _ | .readingSequence _ _ | .addingEvent _ _ _ | .addingOutbox _ _ _ | .committing _ _ _ => true
  | _ => false

/-- The call sees the run of its session. -/
def State.SeesRun (s : State F) (c : Nat) (call : Call F) (p r : Nat) : Prop :=
  projectOf s.projects call.projectKey = some p ∧
    ∃ run v, s.runs.Live r run v ∧ (v = .committed ∨ v = .uncommitted c) ∧ runIndex run = some (p, call.sessionKey)

/-- The event of a call is in its transaction. -/
def State.HasEvent [Json.PyFloat F] (host : Host F) (s : State F) (c : Nat) (call : Call F) (p r k : Nat) : Prop :=
  ∃ n prepared, prepare host call = .ok prepared ∧
    s.events.Live k (prepared.event p r call.eventKey n) (.uncommitted c)

/-- What holds of a call in its phase. -/
def State.PhaseOk [Json.PyFloat F] (host : Host F) (s : State F) (c : Nat) (call : Call F) : Phase → Prop
  | .starting | .ended _ => True
  | .readingRun p | .addingRun p => projectOf s.projects call.projectKey = some p
  | .readingEvent p r | .readingSequence p r => s.SeesRun c call p r
  | .addingEvent p r n => s.SeesRun c call p r ∧ 0 < n
  | .addingOutbox p r k | .committing p r k => s.SeesRun c call p r ∧ s.HasEvent host c call p r k
  | .recovering r => ∃ p row, projectOf s.projects call.projectKey = some p ∧ s.runs.get? r = some row ∧
      runIndex row.data = some (p, call.sessionKey)

structure Inv [Json.PyFloat F] (host : Host F) (calls : List (Call F)) (stored : Nat) (s : State F) : Prop where
  kept : Kept host calls stored s
  runs : s.runs.UniqueBy runIndex
  events : s.events.UniqueBy eventIndex
  positive : ∀ k e v, s.events.Live k e v → 0 < e.sequenceNo
  hasRun : ∀ k e v, s.events.Live k e v → ∃ run w, s.runs.Live e.taskRunId run w ∧ (w = .committed ∨ w = v)
  openRun : ∀ k run c, s.runs.Live k run (.uncommitted c) → (s.phase c).holdsRun = true
  openEvent : ∀ k e c, s.events.Live k e (.uncommitted c) →
    stored ≤ k ∧ ((∃ p r, s.phase c = .addingOutbox p r k) ∨ ∃ p r, s.phase c = .committing p r k)
  phases : ∀ (c : Nat) call, calls[c]? = some call → s.PhaseOk host c call (s.phase c)
  next : stored ≤ s.events.nextId

/-! ## Numbers -/

theorem lastNumber_cons (n : Nat) (numbers : List Nat) : lastNumber (n :: numbers) = max n (lastNumber numbers) := by
  have hmax : ∀ (numbers : List Nat) (a : Nat), numbers.foldl max a = max a (numbers.foldl max 0) := by
    intro numbers
    induction numbers with
    | nil => exact fun a => (Nat.max_zero a).symm
    | cons b numbers ih =>
      intro a
      rw [List.foldl_cons, List.foldl_cons, ih, ih (max 0 b), Nat.zero_max, Nat.max_assoc]
  rw [lastNumber, List.foldl_cons, hmax, Nat.zero_max, lastNumber]

theorem le_lastNumber {numbers : List Nat} {n : Nat} (h : n ∈ numbers) : n ≤ lastNumber numbers := by
  induction numbers with
  | nil => cases h
  | cons m numbers ih =>
    rw [lastNumber_cons]
    rcases List.mem_cons.mp h with rfl | h
    · exact Nat.le_max_left _ _
    · exact Nat.le_trans (ih h) (Nat.le_max_right _ _)

theorem lastNumber_mem (numbers : List Nat) : lastNumber numbers = 0 ∨ lastNumber numbers ∈ numbers := by
  induction numbers with
  | nil => exact Or.inl rfl
  | cons m numbers ih =>
    rw [lastNumber_cons]
    rcases Nat.le_total m (lastNumber numbers) with hle | hle
    · rw [Nat.max_eq_right hle]
      exact ih.imp_right fun h => List.mem_cons_of_mem _ h
    · rw [Nat.max_eq_left hle]
      exact Or.inr List.mem_cons_self

section

variable {s : State F}

theorem le_storedLast {k : Nat} {e : TaskEvent F} (h : s.events.Live k e .committed) :
    e.sequenceNo ≤ s.storedLast e.taskRunId := by
  refine le_lastNumber (List.mem_map.mpr ⟨(k, ⟨e, .committed⟩), List.mem_filter.mpr ⟨?_, by simp⟩, rfl⟩)
  exact (s.events.get?_eq_some_iff k _).mp h.1

theorem storedLast_mem (r : Nat) :
    s.storedLast r = 0 ∨ ∃ k e, s.events.Live k e .committed ∧ e.taskRunId = r ∧ e.sequenceNo = s.storedLast r := by
  refine (lastNumber_mem _).imp_right fun hmem => ?_
  obtain ⟨⟨k, row⟩, hrow, hnumber⟩ := List.mem_map.mp hmem
  obtain ⟨hrow, hboth⟩ := List.mem_filter.mp hrow
  rw [Bool.and_eq_true, decide_eq_true_iff, decide_eq_true_iff] at hboth
  obtain ⟨data, version⟩ := row
  obtain ⟨rfl, hr⟩ : version = .committed ∧ data.taskRunId = r := hboth
  exact ⟨k, data, ⟨(s.events.get?_eq_some_iff k _).mpr hrow, by simp⟩, hr, hnumber⟩

end

/-! ## What a step leaves alone -/

section

variable {s s' : State F}

/-- The projects, the phases of the other calls, the data of the runs, and all rows that call `c` does
not hold. -/
structure Frame (c : Nat) (s s' : State F) : Prop where
  projects : s'.projects = s.projects
  phase : ∀ d, d ≠ c → s'.phase d = s.phase d
  row : ∀ k row, s.runs.get? k = some row → ∃ row', s'.runs.get? k = some row' ∧ row'.data = row.data
  runs : ∀ k run v, s.runs.Live k run v → v ≠ .uncommitted c → s'.runs.Live k run v
  events : ∀ k e v, s.events.Live k e v → v ≠ .uncommitted c → s'.events.Live k e v

theorem goTo_self (s : State F) (c : Nat) (phase : Phase) : (s.goTo c phase).phase c = phase := if_pos rfl

theorem goTo_ne (s : State F) {c d : Nat} (phase : Phase) (h : d ≠ c) : (s.goTo c phase).phase d = s.phase d :=
  if_neg h

theorem Frame.goTo {c : Nat} (h : Frame c s s') (phase : Phase) : Frame c s (s'.goTo c phase) :=
  ⟨h.projects, fun d hd => (goTo_ne s' phase hd).trans (h.phase d hd), h.row, h.runs, h.events⟩

theorem Frame.refl (c : Nat) (s : State F) : Frame c s s :=
  ⟨rfl, fun _ _ => rfl, fun _ row h => ⟨row, h, rfl⟩, fun _ _ _ h _ => h, fun _ _ _ h _ => h⟩

theorem get?_mapRows_data {α : Type} {t : Versioned α} {k tx : Nat} {outcome : Version} {row : Row α}
    (h : t.get? k = some row) :
    ∃ row', (t.mapRows fun _ => settle tx outcome).get? k = some row' ∧ row'.data = row.data := by
  refine ⟨settle tx outcome row, by rw [Table.get?_mapRows, h, Option.map_some], ?_⟩
  rw [settle]
  split
  · rfl
  · rfl

theorem Frame.rollback (c : Nat) (s : State F) : Frame c s (s.rollback c) :=
  ⟨rfl, fun _ _ => rfl, fun _ _ h => get?_mapRows_data h, fun _ _ _ h hv => live_rollback.mpr ⟨h, hv⟩,
    fun _ _ _ h hv => live_rollback.mpr ⟨h, hv⟩⟩

theorem Frame.commit (c : Nat) (s : State F) : Frame c s (s.commit c) :=
  ⟨rfl, fun _ _ => rfl, fun _ _ h => get?_mapRows_data h, fun _ _ _ h hv => live_commit.mpr (Or.inl ⟨h, hv⟩),
    fun _ _ _ h hv => live_commit.mpr (Or.inl ⟨h, hv⟩)⟩

theorem Frame.insertRun {c : Nat} {runs : Versioned (TaskRun F)} {run : TaskRun F}
    (h : runs = s.runs.insert ⟨run, .uncommitted c⟩) : Frame c s { s with runs := runs } := by
  subst h
  refine ⟨rfl, fun _ _ => rfl, fun k row hrow => ⟨row, ?_, rfl⟩, fun _ _ _ hlive _ => live_insert.mpr (Or.inr hlive),
    fun _ _ _ hlive _ => hlive⟩
  have hne : k ≠ s.runs.nextId := Nat.ne_of_lt (s.runs.lt_nextId hrow)
  exact (Table.get?_insert_ne _ _ hne).trans hrow

theorem Frame.insertEvent {c : Nat} {events : Versioned (TaskEvent F)} {e : TaskEvent F}
    (h : events = s.events.insert ⟨e, .uncommitted c⟩) : Frame c s { s with events := events } := by
  subst h
  exact ⟨rfl, fun _ _ => rfl, fun _ row hrow => ⟨row, hrow, rfl⟩, fun _ _ _ hlive _ => hlive,
    fun _ _ _ hlive _ => live_insert.mpr (Or.inr hlive)⟩

variable [Json.PyFloat F] {host : Host F} {calls : List (Call F)} {stored : Nat}

omit [Json.PyFloat F] in
theorem Frame.storedEvent {c : Nat} (h : Frame c s s') {call : Call F} {k : Nat} {e : TaskEvent F} (hs : s.Stored call k e) :
    s'.Stored call k e := by
  obtain ⟨hlive, hkey, p, run, hproject, hrun, hindex⟩ := hs
  exact ⟨h.events _ _ _ hlive (by simp), hkey, p, run, by rw [h.projects]; exact hproject, h.runs _ _ _ hrun (by simp), hindex⟩

theorem Frame.endedWell {c : Nat} (h : Frame c s s') {call : Call F} {result : Except Error Outcome}
    (hs : s.EndedWell host call result) : s'.EndedWell host call result := by
  cases result with
  | ok outcome =>
    obtain ⟨e, prepared, hstored, hrest⟩ := hs
    exact ⟨e, prepared, h.storedEvent hstored, hrest⟩
  | error error =>
    cases error with
    | conflict k =>
      obtain ⟨e, prepared, hstored, hrest⟩ := hs
      exact ⟨e, prepared, h.storedEvent hstored, hrest⟩
    | integrity _ => exact hs
    | data _ => exact hs
    | access _ => trivial
    | validation _ => trivial
    | value _ => trivial
    | lookup _ => trivial
    | type _ => trivial

/-- What holds of another call in its phase. -/
theorem Frame.phaseOk {c d : Nat} (h : Frame c s s') (hd : d ≠ c) {call : Call F} {phase : Phase}
    (hs : s.PhaseOk host d call phase) : s'.PhaseOk host d call phase := by
  have hown : Version.uncommitted d ≠ .uncommitted c := fun heq => hd (Version.uncommitted.inj heq)
  have hsees : ∀ {p r}, s.SeesRun d call p r → s'.SeesRun d call p r := by
    rintro p r ⟨hproject, run, v, hlive, hv, hindex⟩
    refine ⟨by rw [h.projects]; exact hproject, run, v, h.runs _ _ _ hlive ?_, hv, hindex⟩
    rcases hv with rfl | rfl
    · simp
    · exact hown
  have hhas : ∀ {p r k}, s.HasEvent host d call p r k → s'.HasEvent host d call p r k := by
    rintro p r k ⟨n, prepared, hprepare, hlive⟩
    exact ⟨n, prepared, hprepare, h.events _ _ _ hlive hown⟩
  cases phase with
  | starting => trivial
  | ended _ => trivial
  | readingRun p => exact (congrArg (fun t => projectOf t call.projectKey) h.projects).trans hs
  | addingRun p => exact (congrArg (fun t => projectOf t call.projectKey) h.projects).trans hs
  | readingEvent p r => exact hsees hs
  | readingSequence p r => exact hsees hs
  | addingEvent p r n => exact ⟨hsees hs.1, hs.2⟩
  | addingOutbox p r k => exact ⟨hsees hs.1, hhas hs.2⟩
  | committing p r k => exact ⟨hsees hs.1, hhas hs.2⟩
  | recovering r =>
    obtain ⟨p, row, hproject, hrow, hindex⟩ := hs
    obtain ⟨row', hrow', hdata⟩ := h.row r row hrow
    exact ⟨p, row', by rw [h.projects]; exact hproject, hrow', by rw [hdata]; exact hindex⟩

/-- **A step that commits nothing** keeps the log, as long as its own call ends as it must. -/
theorem Kept.frame (h : Kept host calls stored s) {c : Nat} (hframe : Frame c s s')
    (hevents : ∀ k e, s'.events.Live k e .committed → s.events.Live k e .committed)
    (hbefore : ∀ k, ¬ (s.phase c).Accepts k) (hafter : ∀ k, ¬ (s'.phase c).Accepts k)
    (hended : ∀ call result, calls[c]? = some call → s'.phase c = .ended result → s'.EndedWell host call result) :
    Kept host calls stored s' := by
  have haccepts : ∀ d k, (s'.phase d).Accepts k ↔ (s.phase d).Accepts k := by
    intro d k
    by_cases hd : d = c
    · subst hd
      exact iff_of_false (hafter k) (hbefore k)
    · rw [hframe.phase d hd]
  refine ⟨fun k l e f hk hl => h.oneNumber k l e f (hevents k e hk) (hevents l f hl), fun k e hk => ?_,
    fun k l e f hk hl => h.oneEvent k l e f (hevents k e hk) (hevents l f hl), fun d call result hcall hd => ?_,
    fun d k hk => ?_, fun k e hk hle => ?_,
    fun d d' k hk hk' => h.once d d' k ((haccepts d k).mp hk) ((haccepts d' k).mp hk')⟩
  · obtain ⟨hpositive, hall⟩ := h.noGap k e (hevents k e hk)
    refine ⟨hpositive, fun j hj hle => ?_⟩
    obtain ⟨l, f, hlive, hrun, hnumber⟩ := hall j hj hle
    exact ⟨l, f, hframe.events _ _ _ hlive (by simp), hrun, hnumber⟩
  · by_cases heq : d = c
    · subst heq
      exact hended call result hcall hd
    · rw [hframe.phase d heq] at hd
      exact hframe.endedWell (h.ended d call result hcall hd)
  · obtain ⟨hle, e, hlive⟩ := h.accepted d k ((haccepts d k).mp hk)
    exact ⟨hle, e, hframe.events _ _ _ hlive (by simp)⟩
  · obtain ⟨d, hd⟩ := h.writer k e (hevents k e hk) hle
    exact ⟨d, (haccepts d k).mpr hd⟩

/-! ## Statements that commit nothing -/

/-- A call that goes on to a phase in which it may hold as much as before. -/
theorem Inv.goTo (h : Inv host calls stored s) {c : Nat} {call : Call F} {phase : Phase} (hcall : calls[c]? = some call)
    (hbefore : ∀ k, ¬ (s.phase c).Accepts k) (hafter : ∀ result, phase ≠ .ended result)
    (hrun : (s.phase c).holdsRun = true → phase.holdsRun = true)
    (hevent : ∀ p r k, s.phase c = .addingOutbox p r k → phase = .committing p r k)
    (hcommitting : ∀ p r k, s.phase c ≠ .committing p r k) (hok : s.PhaseOk host c call phase) :
    Inv host calls stored (s.goTo c phase) where
  kept := by
    refine h.kept.frame ((Frame.refl c s).goTo phase) (fun _ _ hlive => hlive) hbefore (fun k => ?_) fun _ result _ hended => ?_
    · rintro ⟨r, hr⟩
      rw [goTo_self] at hr
      exact hafter _ hr
    · rw [goTo_self] at hended
      exact absurd hended (hafter result)
  runs := h.runs
  events := h.events
  positive := h.positive
  hasRun := h.hasRun
  openRun k run d hlive := by
    have hold := h.openRun k run d hlive
    by_cases hd : d = c
    · subst hd
      rw [goTo_self]
      exact hrun hold
    · rwa [goTo_ne _ _ hd]
  openEvent k e d hlive := by
    obtain ⟨hle, hold⟩ := h.openEvent k e d hlive
    refine ⟨hle, ?_⟩
    by_cases hd : d = c
    · subst hd
      rw [goTo_self]
      rcases hold with ⟨p, r, hp⟩ | ⟨p, r, hp⟩
      · exact Or.inr ⟨p, r, hevent p r k hp⟩
      · exact absurd hp (hcommitting p r k)
    · rwa [goTo_ne _ _ hd]
  phases d call' hcall' := by
    by_cases hd : d = c
    · subst hd
      obtain rfl := Option.some.inj (hcall.symm.trans hcall')
      rw [goTo_self]
      exact hok
    · rw [goTo_ne _ _ hd]
      exact h.phases d call' hcall'
  next := h.next

/-- **A call that gives up its transaction**, and ends as it must or goes on to recover. -/
theorem Inv.rollback (h : Inv host calls stored s) {c : Nat} {call : Call F} {phase : Phase} (hcall : calls[c]? = some call)
    (hbefore : ∀ k, ¬ (s.phase c).Accepts k) (hafter : ∀ k, ¬ phase.Accepts k)
    (hended : ∀ result, phase = .ended result → s.EndedWell host call result)
    (hok : (s.rollback c).PhaseOk host c call phase) : Inv host calls stored ((s.rollback c).goTo c phase) where
  kept := by
    refine h.kept.frame ((Frame.rollback c s).goTo phase) (fun _ _ hlive => (live_rollback.mp hlive).1) hbefore (fun k => ?_)
      fun call' result hcall' hresult => ?_
    · rw [goTo_self]
      exact hafter k
    · rw [goTo_self] at hresult
      obtain rfl := Option.some.inj (hcall.symm.trans hcall')
      exact (Frame.goTo (Frame.rollback c s) phase).endedWell (hended result hresult)
  runs := uniqueBy_rollback h.runs c
  events := uniqueBy_rollback h.events c
  positive k e v hlive := h.positive k e v (live_rollback.mp hlive).1
  hasRun k e v hlive := by
    obtain ⟨hlive, hv⟩ := live_rollback.mp hlive
    obtain ⟨run, w, hrun, hw⟩ := h.hasRun k e v hlive
    refine ⟨run, w, live_rollback.mpr ⟨hrun, ?_⟩, hw⟩
    rcases hw with rfl | rfl
    · simp
    · exact hv
  openRun k run d hlive := by
    obtain ⟨hlive, hv⟩ := live_rollback.mp hlive
    rw [goTo_ne _ _ fun hd => hv (congrArg Version.uncommitted hd)]
    exact h.openRun k run d hlive
  openEvent k e d hlive := by
    obtain ⟨hlive, hv⟩ := live_rollback.mp hlive
    rw [goTo_ne _ _ fun hd => hv (congrArg Version.uncommitted hd)]
    exact h.openEvent k e d hlive
  phases d call' hcall' := by
    by_cases hd : d = c
    · subst hd
      obtain rfl := Option.some.inj (hcall.symm.trans hcall')
      rw [goTo_self]
      exact hok
    · rw [goTo_ne _ _ hd]
      exact (Frame.rollback c s).phaseOk hd (h.phases d call' hcall')
  next := h.next

theorem Inv.outbox (h : Inv host calls stored s) (outbox : Versioned OutboxEvent) :
    Inv host calls stored { s with outbox := outbox } :=
  ⟨⟨h.kept.oneNumber, h.kept.noGap, h.kept.oneEvent, h.kept.ended, h.kept.accepted, h.kept.writer, h.kept.once⟩, h.runs,
    h.events, h.positive, h.hasRun, h.openRun, h.openEvent, h.phases, h.next⟩

/-- A call that ends without a commit. -/
theorem Inv.leave (h : Inv host calls stored s) {c : Nat} {call : Call F} {result : Except Error Outcome}
    (hcall : calls[c]? = some call) (hbefore : ∀ k, ¬ (s.phase c).Accepts k)
    (hresult : ∀ k r, result ≠ .ok ⟨k, r, .accepted⟩) (hended : s.EndedWell host call result) :
    Inv host calls stored (s.leave c result) := by
  refine h.rollback hcall hbefore ?_ (fun result' heq => ?_) trivial
  · rintro k ⟨r, hr⟩
    exact hresult k r (Phase.ended.inj hr)
  · rw [← Phase.ended.inj heq]
    exact hended

/-- The event that a call finds is the one of its session, under its key. -/
theorem stored_of_find (h : Inv host calls stored s) {c p r k : Nat} {call : Call F} {existing : TaskEvent F}
    (hproject : projectOf s.projects call.projectKey = some p)
    (hrow : ∃ row, s.runs.get? r = some row ∧ runIndex row.data = some (p, call.sessionKey))
    (hopen : ∀ k e, ¬ s.events.Live k e (.uncommitted c))
    (hfind : s.events.find? c (isEvent r call.eventKey) = some (k, existing)) : s.Stored call k existing := by
  obtain ⟨v, hlive, hv, hmatch⟩ := find?_some hfind
  rw [isEvent, Bool.and_eq_true, decide_eq_true_iff, decide_eq_true_iff] at hmatch
  obtain rfl : v = .committed := hv.resolve_right fun hv' => hopen k existing (hv' ▸ hlive)
  obtain ⟨run, w, hrun, hw⟩ := h.hasRun k existing _ hlive
  obtain rfl : w = .committed := hw.elim id id
  obtain ⟨row, hget, hindex⟩ := hrow
  have hsame : row = ⟨run, .committed⟩ := by
    rw [← hmatch.1] at hget
    exact Option.some.inj (hget.symm.trans hrun.1)
  refine ⟨hlive, hmatch.2, p, run, hproject, hrun, ?_⟩
  rw [hsame] at hindex
  exact hindex

theorem Inv.answerExisting (h : Inv host calls stored s) {c k : Nat} {call : Call F} {prepared : Prepared F}
    {existing : TaskEvent F} (hcall : calls[c]? = some call) (hbefore : ∀ k, ¬ (s.phase c).Accepts k)
    (hprepare : prepare host call = .ok prepared) (hstored : s.Stored call k existing) :
    Inv host calls stored (answerExisting s c prepared k existing) := by
  rw [Races.answerExisting]
  split
  · next hdiffer =>
    refine h.leave hcall hbefore (fun _ _ heq => nomatch heq) ?_
    exact ⟨existing, prepared, hstored, hprepare, hdiffer⟩
  · next hsame =>
    refine h.leave hcall hbefore (fun _ _ heq => nomatch heq) ?_
    exact ⟨existing, prepared, hstored, rfl, hprepare, Classical.not_not.mp hsame⟩

/-- A new run in the transaction of call `c`. -/
theorem Inv.runAdded (h : Inv host calls stored s) {c p : Nat} {call : Call F} {runs : Versioned (TaskRun F)}
    (hcall : calls[c]? = some call) (hphase : s.phase c = .addingRun p)
    (hinserted : insertUnique runIndex s.runs c (newRun p call.sessionKey) = .inserted runs) :
    Inv host calls stored ({ s with runs := runs }.goTo c (.readingEvent p s.runs.nextId)) := by
  obtain ⟨hruns, -⟩ := insertUnique_inserted hinserted
  have hframe := (Frame.insertRun hruns).goTo (s := s) (c := c) (.readingEvent p s.runs.nextId)
  have hproject : projectOf s.projects call.projectKey = some p := by
    have hok := h.phases c call hcall
    rwa [hphase] at hok
  have hopen : ∀ k e, ¬ s.events.Live k e (.uncommitted c) := by
    intro k e hlive
    obtain ⟨-, ⟨p', r, hp⟩ | ⟨p', r, hp⟩⟩ := h.openEvent k e c hlive
    · rw [hphase] at hp
      cases hp
    · rw [hphase] at hp
      cases hp
  constructor
  case kept =>
    refine h.kept.frame hframe (fun _ _ hlive => hlive) (fun k => ?_) (fun k => ?_) fun _ result _ hended => ?_
    · rintro ⟨r, hr⟩
      rw [hphase] at hr
      cases hr
    · rintro ⟨r, hr⟩
      rw [goTo_self] at hr
      cases hr
    · rw [goTo_self] at hended
      cases hended
  case runs => exact uniqueBy_insert h.runs hinserted
  case events => exact h.events
  case positive => exact h.positive
  case hasRun =>
    intro k e v hlive
    obtain ⟨run, w, hrun, hw⟩ := h.hasRun k e v hlive
    refine ⟨run, w, ?_, hw⟩
    change runs.Live _ _ _
    rw [hruns]
    exact live_insert.mpr (Or.inr hrun)
  case openRun =>
    intro k run d hlive
    by_cases hd : d = c
    · subst hd
      rw [goTo_self]
      rfl
    · rw [goTo_ne _ _ hd]
      change runs.Live k run _ at hlive
      rw [hruns] at hlive
      rcases live_insert.mp hlive with ⟨-, -, hv⟩ | hlive
      · exact absurd (Version.uncommitted.inj hv) hd
      · exact h.openRun k run d hlive
  case openEvent =>
    intro k e d hlive
    have hd : d ≠ c := by
      rintro rfl
      exact hopen k e hlive
    rw [goTo_ne _ _ hd]
    exact h.openEvent k e d hlive
  case phases =>
    intro d call' hcall'
    by_cases hd : d = c
    · subst hd
      obtain rfl := Option.some.inj (hcall.symm.trans hcall')
      rw [goTo_self]
      refine ⟨hproject, newRun p call.sessionKey, .uncommitted d, ?_, Or.inr rfl, rfl⟩
      change runs.Live _ _ _
      rw [hruns]
      exact live_insert.mpr (Or.inl ⟨rfl, rfl, rfl⟩)
    · rw [goTo_ne _ _ hd]
      exact (Frame.insertRun hruns).phaseOk hd (h.phases d call' hcall')
  case next => exact h.next

/-- A new event in the transaction of call `c`. -/
theorem Inv.eventAdded (h : Inv host calls stored s) {c p r n : Nat} {call : Call F} {prepared : Prepared F}
    {events : Versioned (TaskEvent F)} (hcall : calls[c]? = some call) (hprepare : prepare host call = .ok prepared)
    (hphase : s.phase c = .addingEvent p r n)
    (hinserted : insertUnique eventIndex s.events c (prepared.event p r call.eventKey n) = .inserted events) :
    Inv host calls stored ({ s with events := events }.goTo c (.addingOutbox p r s.events.nextId)) := by
  obtain ⟨hevents, -⟩ := insertUnique_inserted hinserted
  have hframe := (Frame.insertEvent hevents).goTo (s := s) (c := c) (.addingOutbox p r s.events.nextId)
  obtain ⟨⟨hproject, hrun⟩, hpositive⟩ : s.SeesRun c call p r ∧ 0 < n := by
    have hok := h.phases c call hcall
    rwa [hphase] at hok
  have hcases : ∀ {k e v}, events.Live k e v →
      (k = s.events.nextId ∧ e = prepared.event p r call.eventKey n ∧ v = .uncommitted c) ∨ s.events.Live k e v := by
    intro k e v hlive
    rw [hevents] at hlive
    exact live_insert.mp hlive
  constructor
  case kept =>
    refine h.kept.frame hframe (fun k e hlive => ?_) (fun k => ?_) (fun k => ?_) fun _ result _ hended => ?_
    · rcases hcases hlive with ⟨-, -, hv⟩ | hlive
      · cases hv
      · exact hlive
    · rintro ⟨r', hr⟩
      rw [hphase] at hr
      cases hr
    · rintro ⟨r', hr⟩
      rw [goTo_self] at hr
      cases hr
    · rw [goTo_self] at hended
      cases hended
  case runs => exact h.runs
  case events => exact uniqueBy_insert h.events hinserted
  case positive =>
    intro k e v hlive
    rcases hcases hlive with ⟨-, rfl, -⟩ | hlive
    · exact hpositive
    · exact h.positive k e v hlive
  case hasRun =>
    intro k e v hlive
    rcases hcases hlive with ⟨-, rfl, rfl⟩ | hlive
    · obtain ⟨run, w, hlive, hw, -⟩ := hrun
      exact ⟨run, w, hlive, hw⟩
    · exact h.hasRun k e v hlive
  case openRun =>
    intro k run d hlive
    have hold := h.openRun k run d hlive
    by_cases hd : d = c
    · subst hd
      rw [goTo_self]
      rfl
    · rwa [goTo_ne _ _ hd]
  case openEvent =>
    intro k e d hlive
    rcases hcases hlive with ⟨rfl, -, hv⟩ | hlive
    · obtain rfl := Version.uncommitted.inj hv
      exact ⟨h.next, Or.inl ⟨p, r, goTo_self _ _ _⟩⟩
    · obtain ⟨hle, hold⟩ := h.openEvent k e d hlive
      have hd : d ≠ c := by
        rintro rfl
        rw [hphase] at hold
        rcases hold with ⟨p', r', hp⟩ | ⟨p', r', hp⟩
        · cases hp
        · cases hp
      rw [goTo_ne _ _ hd]
      exact ⟨hle, hold⟩
  case phases =>
    intro d call' hcall'
    by_cases hd : d = c
    · subst hd
      obtain rfl := Option.some.inj (hcall.symm.trans hcall')
      rw [goTo_self]
      refine ⟨⟨hproject, hrun⟩, n, prepared, hprepare, ?_⟩
      change events.Live _ _ _
      rw [hevents]
      exact live_insert.mpr (Or.inl ⟨rfl, rfl, rfl⟩)
    · rw [goTo_ne _ _ hd]
      exact (Frame.insertEvent hevents).phaseOk hd (h.phases d call' hcall')
  case next =>
    change stored ≤ events.nextId
    rw [hevents, Table.nextId_insert]
    exact Nat.le_succ_of_le h.next

/-! ## The commit -/

/-- The event that is committed. -/
theorem Inv.committing (h : Inv host calls stored s) {c p r k : Nat} {call : Call F} (hcall : calls[c]? = some call)
    (hphase : s.phase c = .committing p r k) :
    s.SeesRun c call p r ∧ ∃ n prepared, prepare host call = .ok prepared ∧
      s.events.Live k (prepared.event p r call.eventKey n) (.uncommitted c) := by
  have hok := h.phases c call hcall
  rwa [hphase] at hok

/-- What is stored after the commit: what was stored before, and the event of the call. -/
theorem commit_events (h : Inv host calls stored s) {c p r k : Nat} (hphase : s.phase c = .committing p r k)
    {event : TaskEvent F} (hevent : s.events.Live k event (.uncommitted c)) {l : Nat} {e : TaskEvent F} :
    (s.events.commit c).Live l e .committed ↔ s.events.Live l e .committed ∨ (l = k ∧ e = event) := by
  rw [live_commit]
  constructor
  · rintro (⟨hlive, -⟩ | ⟨-, hlive⟩)
    · exact Or.inl hlive
    · obtain ⟨-, ⟨p', r', hp⟩ | ⟨p', r', hp⟩⟩ := h.openEvent l e c hlive
      · rw [hphase] at hp
        cases hp
      · rw [hphase] at hp
        cases hp
        exact Or.inr ⟨rfl, (live_unique hlive hevent).1⟩
  · rintro (hlive | ⟨rfl, rfl⟩)
    · exact Or.inl ⟨hlive, by simp⟩
    · exact Or.inr ⟨rfl, hevent⟩

theorem Inv.commit (h : Inv host calls stored s) {c p r k : Nat} {call : Call F} (hcall : calls[c]? = some call)
    (hphase : s.phase c = .committing p r k)
    (hnumber : ∀ event, s.events.Live k event (.uncommitted c) → event.sequenceNo = s.storedLast r + 1) :
    Inv host calls stored (commitCall s c r k) := by
  obtain ⟨⟨hproject, run, w, hrun, hw, hindex⟩, n, prepared, hprepare, hevent⟩ := h.committing hcall hphase
  have hn : n = s.storedLast r + 1 := hnumber _ hevent
  have hcommitted := fun {l : Nat} {e : TaskEvent F} => commit_events h hphase hevent (l := l) (e := e)
  have hframe := Frame.commit c s
  have hself : (commitCall s c r k).phase c = .ended (.ok ⟨k, r, .accepted⟩) := goTo_self _ _ _
  have hother : ∀ {d}, d ≠ c → (commitCall s c r k).phase d = s.phase d := fun hd => goTo_ne _ _ hd
  have hnotyet : ∀ l, ¬ (s.phase c).Accepts l := by
    rintro l ⟨r', hr⟩
    rw [hphase] at hr
    cases hr
  have hnew : ∀ l e, s.events.Live l e .committed → l ≠ k := by
    rintro l e hlive rfl
    obtain ⟨-, hv⟩ := live_unique hlive hevent
    cases hv
  have hbelow : ∀ {l e}, s.events.Live l e .committed → e.taskRunId = r → e.sequenceNo < n := by
    intro l e hlive hr
    have hle := le_storedLast hlive
    rw [hr] at hle
    omega
  have hstored : (commitCall s c r k).Stored call k (prepared.event p r call.eventKey n) := by
    refine ⟨hcommitted.mpr (Or.inr ⟨rfl, rfl⟩), rfl, p, run, hproject, ?_, hindex⟩
    rcases hw with rfl | rfl
    · exact live_commit.mpr (Or.inl ⟨hrun, by simp⟩)
    · exact live_commit.mpr (Or.inr ⟨rfl, hrun⟩)
  constructor
  case kept =>
    constructor
    case oneNumber =>
      intro l m e f hl hm hsame hnumber
      rcases hcommitted.mp hl with hl' | ⟨rfl, rfl⟩
      · rcases hcommitted.mp hm with hm' | ⟨rfl, rfl⟩
        · exact h.kept.oneNumber l m e f hl' hm' hsame hnumber
        · have hlt := hbelow hl' hsame
          exact absurd hnumber (Nat.ne_of_lt hlt)
      · rcases hcommitted.mp hm with hm' | ⟨rfl, rfl⟩
        · have hlt := hbelow hm' hsame.symm
          exact absurd hnumber.symm (Nat.ne_of_lt hlt)
        · rfl
    case noGap =>
      intro l e hl
      rcases hcommitted.mp hl with hl | ⟨rfl, rfl⟩
      · obtain ⟨hpositive, hall⟩ := h.kept.noGap l e hl
        refine ⟨hpositive, fun j hj hle => ?_⟩
        obtain ⟨m, f, hm, hrest⟩ := hall j hj hle
        exact ⟨m, f, hcommitted.mpr (Or.inl hm), hrest⟩
      · refine ⟨?_, fun j hj hle => ?_⟩
        · change 0 < n
          omega
        · change j ≤ n at hle
          rcases Nat.eq_or_lt_of_le hle with rfl | hlt
          · exact ⟨l, _, hl, rfl, rfl⟩
          · -- the numbers below are those of the event with the last number
            rcases storedLast_mem r (s := s) with hzero | ⟨m, f, hm, hr, hlast⟩
            · omega
            · obtain ⟨-, hall⟩ := h.kept.noGap m f hm
              obtain ⟨m', f', hm', hr', hj'⟩ := hall j hj (by omega)
              exact ⟨m', f', hcommitted.mpr (Or.inl hm'), hr'.trans hr, hj'⟩
    case oneEvent =>
      intro l m e f hl hm hsame hkey
      have hindex' : eventIndex f = some (e.taskRunId, e.eventKey) := by rw [eventIndex, hsame, hkey]
      obtain ⟨v, hl⟩ := live_of_commit hl
      obtain ⟨w, hm⟩ := live_of_commit hm
      exact h.events l m e f v w _ hl hm rfl hindex'
    case ended =>
      intro d call' result hcall' hd
      by_cases heq : d = c
      · subst heq
        obtain rfl := Option.some.inj (hcall.symm.trans hcall')
        rw [hself] at hd
        obtain rfl := Phase.ended.inj hd
        exact ⟨_, prepared, hstored, rfl, hprepare, rfl⟩
      · rw [hother heq] at hd
        exact (Frame.goTo hframe _).endedWell (h.kept.ended d call' result hcall' hd)
    case accepted =>
      rintro d l ⟨r', hr⟩
      by_cases heq : d = c
      · subst heq
        rw [hself] at hr
        cases hr
        exact ⟨(h.openEvent k _ d hevent).1, _, hcommitted.mpr (Or.inr ⟨rfl, rfl⟩)⟩
      · rw [hother heq] at hr
        obtain ⟨hle, e, hlive⟩ := h.kept.accepted d l ⟨r', hr⟩
        exact ⟨hle, e, hcommitted.mpr (Or.inl hlive)⟩
    case writer =>
      intro l e hl hle
      rcases hcommitted.mp hl with hl | ⟨rfl, -⟩
      · obtain ⟨d, hd⟩ := h.kept.writer l e hl hle
        have hne : d ≠ c := by
          rintro rfl
          exact hnotyet l hd
        exact ⟨d, by rw [hother hne]; exact hd⟩
      · exact ⟨c, r, hself⟩
    case once =>
      -- an event that another call was accepted for is stored already
      have hclash : ∀ d, d ≠ c → ¬ ((commitCall s c r k).phase d).Accepts k := by
        rintro d hd ⟨r', hr⟩
        rw [hother hd] at hr
        obtain ⟨-, e, hlive⟩ := h.kept.accepted d k ⟨r', hr⟩
        exact hnew k e hlive rfl
      intro d d' l hd hd'
      by_cases hdc : d = c
      · subst hdc
        obtain ⟨r', hr⟩ := hd
        rw [hself] at hr
        cases hr
        exact (Classical.not_not.mp fun hne => hclash d' hne hd').symm
      · by_cases hdc' : d' = c
        · subst hdc'
          obtain ⟨r', hr⟩ := hd'
          rw [hself] at hr
          cases hr
          exact absurd hd (hclash d hdc)
        · rw [hother hdc] at hd
          rw [hother hdc'] at hd'
          exact h.kept.once d d' l hd hd'
  case runs => exact uniqueBy_commit h.runs c
  case events => exact uniqueBy_commit h.events c
  case positive =>
    intro l e v hl
    obtain ⟨w, hl⟩ := live_of_commit hl
    exact h.positive l e w hl
  case hasRun =>
    have hkept : ∀ {l run' v}, s.runs.Live l run' v → v = .committed ∨ v = .uncommitted c →
        (s.runs.commit c).Live l run' .committed := by
      intro l run' v hl hv
      rcases hv with rfl | rfl
      · exact live_commit.mpr (Or.inl ⟨hl, by simp⟩)
      · exact live_commit.mpr (Or.inr ⟨rfl, hl⟩)
    intro l e v hl
    rcases live_commit.mp hl with ⟨hl', hv⟩ | ⟨rfl, hl'⟩
    · obtain ⟨run', w', hrun', hw'⟩ := h.hasRun l e v hl'
      refine ⟨run', w', live_commit.mpr (Or.inl ⟨hrun', ?_⟩), hw'⟩
      rcases hw' with rfl | rfl
      · simp
      · exact hv
    · obtain ⟨run', w', hrun', hw'⟩ := h.hasRun l e _ hl'
      exact ⟨run', .committed, hkept hrun' hw', Or.inl rfl⟩
  case openRun =>
    intro l run' d hl
    rcases live_commit.mp hl with ⟨hl, hv⟩ | ⟨hv, -⟩
    · rw [hother fun hd => hv (congrArg Version.uncommitted hd)]
      exact h.openRun l run' d hl
    · cases hv
  case openEvent =>
    intro l e d hl
    rcases live_commit.mp hl with ⟨hl, hv⟩ | ⟨hv, -⟩
    · rw [hother fun hd => hv (congrArg Version.uncommitted hd)]
      exact h.openEvent l e d hl
    · cases hv
  case phases =>
    intro d call' hcall'
    by_cases hd : d = c
    · subst hd
      rw [hself]
      trivial
    · rw [hother hd]
      exact hframe.phaseOk hd (h.phases d call' hcall')
  case next => exact h.next

/-! ## Steps -/

/-- What comes before the session raises no error of the database. -/
theorem prepare_error {call : Call F} {error : Error} (h : prepare host call = .error error) :
    (∃ e, error = .access e) ∨ ∃ message, error = .validation message := by
  rw [prepare] at h
  split at h
  · cases h
    exact Or.inl ⟨_, rfl⟩
  · split at h
    · cases h
      exact Or.inl ⟨_, rfl⟩
    · split at h
      · cases h
        exact Or.inr ⟨_, rfl⟩
      · split at h
        · cases h
          exact Or.inr ⟨_, rfl⟩
        · rw [prepareParts] at h
          split at h
          · cases h
            exact Or.inr ⟨_, rfl⟩
          · split at h
            · cases h
              exact Or.inr ⟨_, rfl⟩
            · cases h

/-- A call that has not come to its event holds none. -/
theorem no_event (h : Inv host calls stored s) {c : Nat} (houtbox : ∀ p r k, s.phase c ≠ .addingOutbox p r k)
    (hcommitting : ∀ p r k, s.phase c ≠ .committing p r k) (k : Nat) (e : TaskEvent F) :
    ¬ s.events.Live k e (.uncommitted c) := by
  intro hlive
  obtain ⟨-, ⟨p, r, hp⟩ | ⟨p, r, hp⟩⟩ := h.openEvent k e c hlive
  · exact houtbox p r k hp
  · exact hcommitting p r k hp

theorem inv_addRun (h : Inv host calls stored s) {c p : Nat} {call : Call F} (hcall : calls[c]? = some call)
    (hphase : s.phase c = .addingRun p) (hfits : fits call.sessionKey = true)
    (hfresh : ∀ k run, s.runs.Live k run .committed → runIndex run ≠ some (p, call.sessionKey)) :
    Inv host calls stored (addRun s c call p).2 := by
  rw [addRun, if_neg (by rw [hfits]; decide)]
  split
  · exact h
  · next hrefused =>
    obtain ⟨k, run, v, i, hlive, hv, ha, hb⟩ := insertUnique_refused hrefused
    obtain rfl := Option.some.inj ha
    rcases hv with rfl | rfl
    · exact absurd hb (hfresh k run hlive)
    · have hholds := h.openRun k run c hlive
      rw [hphase] at hholds
      cases hholds
  · next runs hinserted => exact h.runAdded hcall hphase hinserted

theorem inv_addEvent (h : Inv host calls stored s) {c p r n : Nat} {call : Call F} {prepared : Prepared F}
    (hcall : calls[c]? = some call) (hprepare : prepare host call = .ok prepared) (hphase : s.phase c = .addingEvent p r n)
    (hfits : fits call.eventKey = true)
    (hfresh : ∀ k event, s.events.Live k event .committed → eventIndex event ≠ some (r, call.eventKey)) :
    Inv host calls stored (addEvent s c call prepared p r n).2 := by
  rw [addEvent, if_neg (by rw [hfits]; decide)]
  split
  · exact h
  · next hrefused =>
    obtain ⟨k, event, v, i, hlive, hv, ha, hb⟩ := insertUnique_refused hrefused
    obtain rfl := Option.some.inj ha
    rcases hv with rfl | rfl
    · exact absurd hb (hfresh k event hlive)
    · exact absurd hlive (no_event h (by simp [hphase]) (by simp [hphase]) k event)
  · next events hinserted => exact h.eventAdded hcall hprepare hphase hinserted

theorem inv_addOutbox (h : Inv host calls stored s) {c p r k : Nat} {call : Call F} (hcall : calls[c]? = some call)
    (hphase : s.phase c = .addingOutbox p r k) : Inv host calls stored (addOutbox host s c call p r k).2 := by
  have hok := h.phases c call hcall
  rw [hphase] at hok
  have hbefore : ∀ l, ¬ (s.phase c).Accepts l := by
    rintro l ⟨r', hr⟩
    rw [hphase] at hr
    cases hr
  rw [addOutbox]
  split
  · exact h.leave hcall hbefore (fun _ _ heq => nomatch heq) trivial
  · split
    · exact h
    · obtain ⟨⟨hproject, run, v, hlive, -, hindex⟩, -⟩ := hok
      obtain ⟨row', hrow', hdata⟩ := (Frame.rollback c s).row r ⟨run, v⟩ hlive.1
      refine h.rollback hcall hbefore ?_ (fun _ heq => nomatch heq) ⟨p, row', hproject, hrow', ?_⟩
      · rintro l ⟨r', hr⟩
        cases hr
      · rw [hdata]
        exact hindex
    · next outbox _ =>
      refine (h.outbox outbox).goTo hcall hbefore (fun _ heq => nomatch heq) (fun _ => rfl) ?_ ?_ hok
      · intro p' r' k' heq
        rw [show s.phase c = .addingOutbox p' r' k' from heq] at hphase
        cases hphase
        rfl
      · intro p' r' k' heq
        rw [show s.phase c = .committing p' r' k' from heq] at hphase
        cases hphase

/-- **A regular step keeps the log.** -/
theorem inv_step (h : Inv host calls stored s) {c : Nat} (hregular : Regular host calls s c) :
    Inv host calls stored (step host calls s c).2 := by
  rw [step]
  split
  · exact h
  · next call hcall =>
    have hok := h.phases c call hcall
    split
    · exact h
    · next hended =>
      have hbefore : ∀ k, ¬ (s.phase c).Accepts k := fun k ⟨r, hr⟩ => hended _ hr
      split
      · next error hprepare =>
        refine h.leave hcall hbefore (fun _ _ heq => nomatch heq) ?_
        rcases prepare_error hprepare with ⟨e, rfl⟩ | ⟨message, rfl⟩
        · trivial
        · trivial
      · next prepared hprepare =>
        have hturn := hregular call prepared hcall hprepare
        cases hphase : s.phase c with
        | starting =>
          rw [hphase] at hok
          change Inv host calls stored (readProject s c call)
          rw [readProject]
          split
          · exact h.leave hcall hbefore (fun _ _ heq => nomatch heq) trivial
          · next p hproject => exact h.goTo hcall hbefore (by simp) (by simp [hphase, Phase.holdsRun]) (by simp [hphase]) (by simp [hphase]) hproject
        | readingRun p =>
          rw [hphase] at hok
          change Inv host calls stored (readRun s c call p)
          rw [readRun]
          split
          · exact h.goTo hcall hbefore (by simp) (by simp [hphase, Phase.holdsRun]) (by simp [hphase]) (by simp [hphase]) hok
          · next r run hfind =>
            obtain ⟨v, hlive, hv, hmatch⟩ := find?_some hfind
            rw [isRun, Bool.and_eq_true, decide_eq_true_iff, decide_eq_true_iff] at hmatch
            refine h.goTo hcall hbefore (by simp) (by simp [Phase.holdsRun]) (by simp [hphase]) (by simp [hphase])
              ⟨hok, run, v, hlive, hv, ?_⟩
            rw [runIndex, hmatch.1, hmatch.2]
        | addingRun p =>
          rw [hphase] at hturn
          obtain ⟨hfits, hfresh⟩ := hturn
          change Inv host calls stored (addRun s c call p).2
          exact inv_addRun h hcall hphase hfits hfresh
        | readingEvent p r =>
          rw [hphase] at hok
          change Inv host calls stored (readEvent s c call prepared p r)
          rw [readEvent]
          split
          · next k existing hfind =>
            obtain ⟨hproject, run, v, hlive, -, hindex⟩ := hok
            exact h.answerExisting hcall hbefore hprepare (stored_of_find h hproject ⟨_, hlive.1, hindex⟩
              (no_event h (by simp [hphase]) (by simp [hphase])) hfind)
          · exact h.goTo hcall hbefore (by simp) (by simp [Phase.holdsRun]) (by simp [hphase]) (by simp [hphase]) hok
        | readingSequence p r =>
          rw [hphase] at hok
          exact h.goTo hcall hbefore (by simp) (by simp [Phase.holdsRun]) (by simp [hphase]) (by simp [hphase])
            ⟨hok, Nat.succ_pos _⟩
        | addingEvent p r n =>
          rw [hphase] at hturn
          obtain ⟨hfits, hfresh⟩ := hturn
          change Inv host calls stored (addEvent s c call prepared p r n).2
          exact inv_addEvent h hcall hprepare hphase hfits hfresh
        | addingOutbox p r k =>
          change Inv host calls stored (addOutbox host s c call p r k).2
          exact inv_addOutbox h hcall hphase
        | committing p r k =>
          rw [hphase] at hturn
          change Inv host calls stored (commitCall s c r k)
          exact h.commit hcall hphase hturn
        | recovering r =>
          rw [hphase] at hok hturn
          obtain ⟨p, row, hproject, hrow, hindex⟩ := hok
          obtain ⟨k', event, hlive', hmatch⟩ := hturn
          change Inv host calls stored (recover s c call prepared r)
          rw [recover]
          split
          · next hnone =>
            rw [find?_none hnone hlive' (Or.inl rfl)] at hmatch
            cases hmatch
          · next k existing hfind =>
            exact h.answerExisting hcall hbefore hprepare (stored_of_find h hproject ⟨row, hrow, hindex⟩
              (no_event h (by simp [hphase]) (by simp [hphase])) hfind)
        | ended result => exact absurd hphase (hended result)

/-- The call goes on with its next statement. -/
theorem step_next {c : Nat} {call : Call F} {prepared : Prepared F} (hcall : calls[c]? = some call)
    (hprepare : prepare host call = .ok prepared) : (step host calls s c).2 = (next host s c call prepared (s.phase c)).2 := by
  simp only [step, hcall, hprepare]
  split
  · next result hended =>
    rw [hended]
    rfl
  · rfl

/-- Where the log is kept, no call ends with an error of the database. -/
theorem not_left (error : Error) {s' : State F} (hkept : Kept host calls stored s') {c : Nat} {call : Call F}
    (hcall : calls[c]? = some call) (hs' : s' = s.leave c (.error error)) : ¬ s'.EndedWell host call (.error error) → False := by
  intro hbad
  refine hbad (hkept.ended c call _ hcall ?_)
  rw [hs']
  exact goTo_self _ _ _

theorem regular_addRun {c p : Nat} {call : Call F} (hcall : calls[c]? = some call)
    (hkept : Kept host calls stored (addRun s c call p).2) :
    fits call.sessionKey = true ∧ ∀ k run, s.runs.Live k run .committed → runIndex run ≠ some (p, call.sessionKey) := by
  have hfits : fits call.sessionKey = true := by
    by_contra hlong
    refine not_left (s := s) tooLong hkept hcall ?_ id
    rw [addRun, if_pos (by rw [Bool.eq_false_of_not_eq_true hlong]; rfl)]
  refine ⟨hfits, fun k run hlive hindex => ?_⟩
  refine not_left (s := s) (.integrity "uq_task_runs_project_session_key") hkept hcall ?_ id
  have hrefused : insertUnique runIndex s.runs c (newRun p call.sessionKey) = .refused :=
    insertUnique_of_committed hlive rfl hindex
  rw [addRun, if_neg (by rw [hfits]; decide), hrefused]

theorem regular_addEvent {c p r n : Nat} {call : Call F} {prepared : Prepared F} (hcall : calls[c]? = some call)
    (hkept : Kept host calls stored (addEvent s c call prepared p r n).2) :
    fits call.eventKey = true ∧
      ∀ k event, s.events.Live k event .committed → eventIndex event ≠ some (r, call.eventKey) := by
  have hfits : fits call.eventKey = true := by
    by_contra hlong
    refine not_left (s := s) tooLong hkept hcall ?_ id
    rw [addEvent, if_pos (by rw [Bool.eq_false_of_not_eq_true hlong]; rfl)]
  refine ⟨hfits, fun k event hlive hindex => ?_⟩
  refine not_left (s := s) (.integrity "uq_task_events_run_event_key") hkept hcall ?_ id
  have hrefused : insertUnique eventIndex s.events c (prepared.event p r call.eventKey n) = .refused :=
    insertUnique_of_committed hlive rfl hindex
  rw [addEvent, if_neg (by rw [hfits]; decide), hrefused]

theorem regular_recover (h : Inv host calls stored s) {c r : Nat} {call : Call F} {prepared : Prepared F}
    (hcall : calls[c]? = some call) (hphase : s.phase c = .recovering r)
    (hkept : Kept host calls stored (recover s c call prepared r)) :
    ∃ k event, s.events.Live k event .committed ∧ isEvent r call.eventKey event = true := by
  cases hfind : s.events.find? c (isEvent r call.eventKey) with
  | none =>
    refine (not_left (s := s) (.integrity "uq_outbox_project_idempotency") hkept hcall ?_ id).elim
    rw [recover, hfind]
  | some found =>
    obtain ⟨k, event⟩ := found
    obtain ⟨v, hlive, hv, hmatch⟩ := find?_some hfind
    obtain rfl : v = .committed :=
      hv.resolve_right fun hv' => no_event h (by simp [hphase]) (by simp [hphase]) k event (hv' ▸ hlive)
    exact ⟨k, event, hlive, hmatch⟩

/-- **A stale number shows in the log**: it is there already, or one before it is missing. -/
theorem regular_commit (h : Inv host calls stored s) {c p r k : Nat} {call : Call F} (hcall : calls[c]? = some call)
    (hphase : s.phase c = .committing p r k) (hkept : Kept host calls stored (commitCall s c r k)) {event : TaskEvent F}
    (hevent : s.events.Live k event (.uncommitted c)) : event.sequenceNo = s.storedLast r + 1 := by
  obtain ⟨-, n, prepared, -, hmine⟩ := h.committing hcall hphase
  obtain ⟨rfl, -⟩ := live_unique hevent hmine
  have hcommitted := fun {l : Nat} {e : TaskEvent F} => commit_events h hphase hevent (l := l) (e := e)
  have hnew := hcommitted.mpr (Or.inr ⟨rfl, rfl⟩)
  have hpositive := h.positive _ _ _ hevent
  rcases Nat.lt_trichotomy n (s.storedLast r + 1) with hlt | heq | hlt
  · rcases storedLast_mem r (s := s) with hzero | ⟨m, f, hm, hr, hlast⟩
    · change 0 < n at hpositive
      omega
    · obtain ⟨-, hall⟩ := h.kept.noGap m f hm
      obtain ⟨l, e, hl, hr', hn⟩ := hall n hpositive (by omega)
      have hsame := hkept.oneNumber l k e _ (hcommitted.mpr (Or.inl hl)) hnew (hr'.trans hr) hn
      subst hsame
      obtain ⟨-, hv⟩ := live_unique hl hevent
      cases hv
  · exact heq
  · obtain ⟨-, hall⟩ := hkept.noGap k _ hnew
    obtain ⟨l, e, hl, hr, hn⟩ := hall (s.storedLast r + 1) (Nat.succ_pos _) (Nat.le_of_lt hlt)
    rcases hcommitted.mp hl with hl | ⟨-, rfl⟩
    · have hle := le_storedLast hl
      rw [show e.taskRunId = r from hr] at hle
      omega
    · exact absurd hn (Nat.ne_of_gt hlt)

/-- **A step keeps the log exactly if it is regular.** -/
theorem kept_step (h : Inv host calls stored s) (c : Nat) :
    Kept host calls stored (step host calls s c).2 ↔ Regular host calls s c := by
  refine ⟨fun hkept call prepared hcall hprepare => ?_, fun hregular => (inv_step h hregular).kept⟩
  cases hphase : s.phase c with
  | starting => trivial
  | readingRun => trivial
  | readingEvent => trivial
  | readingSequence => trivial
  | addingOutbox => trivial
  | ended => trivial
  | addingRun p =>
    rw [step_next hcall hprepare, hphase] at hkept
    exact regular_addRun hcall hkept
  | addingEvent p r n =>
    rw [step_next hcall hprepare, hphase] at hkept
    exact regular_addEvent hcall hkept
  | committing p r k =>
    rw [step_next hcall hprepare, hphase] at hkept
    exact fun event hevent => regular_commit h hcall hphase hkept hevent
  | recovering r =>
    rw [step_next hcall hprepare, hphase] at hkept
    exact regular_recover h hcall hphase hkept

end

/-! ## Runs -/

/-- A database before the first step: everything is committed, the stored events of each run have the
numbers 1, 2, … and different keys, and no call has begun. -/
structure Start (F : Type) where
  state : State F
  starting : ∀ c, state.phase c = .starting
  runs : state.runs.UniqueBy runIndex
  events : state.events.UniqueBy eventIndex
  settledRuns : ∀ k run c, ¬ state.runs.Live k run (.uncommitted c)
  settledEvents : ∀ k e c, ¬ state.events.Live k e (.uncommitted c)
  hasRun : ∀ k e, state.events.Live k e .committed → ∃ run, state.runs.Live e.taskRunId run .committed
  oneNumber : ∀ k l e f, state.events.Live k e .committed → state.events.Live l f .committed →
    e.taskRunId = f.taskRunId → e.sequenceNo = f.sequenceNo → k = l
  noGap : ∀ k e, state.events.Live k e .committed → 0 < e.sequenceNo ∧ ∀ j, 0 < j → j ≤ e.sequenceNo →
    ∃ l f, state.events.Live l f .committed ∧ f.taskRunId = e.taskRunId ∧ f.sequenceNo = j

section

variable [Json.PyFloat F] {host : Host F} {calls : List (Call F)}

theorem Start.inv (start : Start F) (host : Host F) (calls : List (Call F)) :
    Inv host calls start.state.events.nextId start.state := by
  have hcommitted : ∀ {k e v}, start.state.events.Live k e v → v = .committed := by
    intro k e v hlive
    cases v with
    | committed => rfl
    | uncommitted c => exact absurd hlive (start.settledEvents k e c)
    | gone => exact absurd rfl hlive.2
  have haccepts : ∀ c k, ¬ (start.state.phase c).Accepts k := by
    rintro c k ⟨r, hr⟩
    rw [start.starting] at hr
    cases hr
  constructor
  case kept =>
    refine ⟨start.oneNumber, start.noGap, fun k l e f hk hl hrun hkey => ?_, fun c call result _ hended => ?_,
      fun c k hk => absurd hk (haccepts c k), fun k e hlive hle => ?_, fun c d k hk _ => absurd hk (haccepts c k)⟩
    · exact start.events k l e f _ _ (e.taskRunId, e.eventKey) hk hl rfl (by rw [eventIndex, hrun, hkey])
    · rw [start.starting] at hended
      cases hended
    · exact absurd (live_lt hlive) (Nat.not_lt.mpr hle)
  case runs => exact start.runs
  case events => exact start.events
  case positive =>
    intro k e v hlive
    obtain rfl := hcommitted hlive
    exact (start.noGap k e hlive).1
  case hasRun =>
    intro k e v hlive
    obtain rfl := hcommitted hlive
    obtain ⟨run, hrun⟩ := start.hasRun k e hlive
    exact ⟨run, .committed, hrun, Or.inl rfl⟩
  case openRun => exact fun k run c hlive => absurd hlive (start.settledRuns k run c)
  case openEvent => exact fun k e c hlive => absurd hlive (start.settledEvents k e c)
  case phases =>
    intro _ call _
    rw [start.starting]
    trivial
  case next => exact Nat.le_refl _

end

/-! ## Two calls at a time -/

/-- A row of the log, by its run and its number. -/
def place (row : Row (TaskEvent F)) : Version × Nat × Nat := (row.version, row.data.taskRunId, row.data.sequenceNo)

section

variable [Json.PyFloat F] {host : Host F} {calls : List (Call F)} {stored : Nat} {s : State F}

end

end CodexMemory.Tasks.Races
