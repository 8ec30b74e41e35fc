import CodexMemory.Worker.Moves

/-!
# An event and the job that carries it

* `carrier`: the job that the dispatch of an event found or created; rewritten
  rows and new jobs leave it (`carrier_mapRows`, `carrier_insert`);
* `Paired`: the invariant. A job that points to an event is its only one, was
  made from it, and the two statuses agree;
* `events_agree`: the statuses agree in every run in which each dispatched event
  has a job of its own and no dead job that carries an event is put back by
  `retry_admin_job`;
* `retried_event_stays_dead`: without the second condition they do not.
-/

namespace CodexMemory.Worker

variable {P : Type}

/-! ## The carrier of an event -/

/-- The job that `dispatch_once` finds for an event, before its dispatch and ever
after. -/
def carrier (host : Host P) (projects : Table String) (jobs : Table (ProcessingJob P)) (eventId : Nat)
    (event : OutboxEvent P) : Option (Nat × ProcessingJob P) :=
  match jobSpec host projects eventId event with
  | .error _ => none
  | .ok spec => findJob jobs event.projectId spec

/-- The two final statuses are the matching ones, and neither side has one alone. -/
def Agrees (job : ProcessingJob P) (event : OutboxEvent P) : Prop :=
  (event.status = .completed ↔ job.status = .succeeded) ∧
    (event.status = .dead ∨ event.status = .cancelled ↔ job.status = .dead ∨ job.status = .cancelled)

instance (job : ProcessingJob P) (event : OutboxEvent P) : Decidable (Agrees job event) := by
  unfold Agrees; infer_instance

/-- Every event that has been dispatched agrees with its carrier. -/
def AllAgree (host : Host P) (q : Queue P) : Prop :=
  ∀ e event, q.db.events.get? e = some event → event.dispatchedAt ≠ none →
    ∃ k job, carrier host q.projects q.db.jobs e event = some (k, job) ∧ Agrees job event

/-! ## What no operation rewrites -/

/-- The columns by which a job is looked up, and its event. -/
structure SameJob (job row : ProcessingJob P) : Prop where
  projectId : row.projectId = job.projectId
  outboxEventId : row.outboxEventId = job.outboxEventId
  jobType : row.jobType = job.jobType
  idempotencyKey : row.idempotencyKey = job.idempotencyKey
  jobKey : row.jobKey = job.jobKey

/-- The columns of an event that `_job_spec` reads. -/
structure SameEvent (event row : OutboxEvent P) : Prop where
  projectId : row.projectId = event.projectId
  idempotencyKey : row.idempotencyKey = event.idempotencyKey
  eventType : row.eventType = event.eventType
  aggregateType : row.aggregateType = event.aggregateType
  aggregateId : row.aggregateId = event.aggregateId
  payloadVersion : row.payloadVersion = event.payloadVersion

theorem SameJob.refl (job : ProcessingJob P) : SameJob job job := ⟨rfl, rfl, rfl, rfl, rfl⟩

theorem SameEvent.refl (event : OutboxEvent P) : SameEvent event event := ⟨rfl, rfl, rfl, rfl, rfl, rfl⟩

theorem jobSpec_congr (host : Host P) (projects : Table String) (e : Nat) {event row : OutboxEvent P}
    (h : SameEvent event row) : jobSpec host projects e row = jobSpec host projects e event := by
  simp only [jobSpec, legacyKey, actionOf, h.projectId, h.idempotencyKey, h.eventType, h.aggregateType,
    h.aggregateId, h.payloadVersion]

theorem matchesSpec_congr (projectId : Nat) (spec : JobSpec) {job row : ProcessingJob P} (h : SameJob job row) :
    matchesSpec projectId spec row = matchesSpec projectId spec job := by
  simp only [matchesSpec, h.projectId, h.jobType, h.idempotencyKey, h.jobKey]

theorem newJob_matches (eventId : Nat) (event : OutboxEvent P) (spec : JobSpec) (serverNow : Time) :
    matchesSpec event.projectId spec (newJob eventId event spec serverNow) = true := by
  cases hkey : spec.idempotencyKey <;> simp [matchesSpec, newJob, hkey]

theorem find?_mapRows {α : Type} (rows : List (Nat × α)) (g : Nat → α → α) (p : α → Bool)
    (hp : ∀ r ∈ rows, p (g r.1 r.2) = p r.2) :
    (rows.map fun r => (r.1, g r.1 r.2)).find? (fun r => p r.2) =
      (rows.find? fun r => p r.2).map fun r => (r.1, g r.1 r.2) := by
  induction rows with
  | nil => rfl
  | cons r rows ih =>
    have ih := ih fun s hs => hp s (List.mem_cons_of_mem _ hs)
    have hr := hp r List.mem_cons_self
    simp only [List.map_cons, List.find?_cons, hr]
    cases hpr : p r.2 with
    | true => rfl
    | false => exact ih

theorem findJob_mapRows {jobs : Table (ProcessingJob P)} {g : Nat → ProcessingJob P → ProcessingJob P}
    (hg : ∀ k job, jobs.get? k = some job → SameJob job (g k job)) (projectId : Nat) (spec : JobSpec) :
    findJob (jobs.mapRows g) projectId spec =
      (findJob jobs projectId spec).map fun r => (r.1, g r.1 r.2) := by
  refine find?_mapRows jobs.rows g (matchesSpec projectId spec) fun r hr => ?_
  exact matchesSpec_congr projectId spec (hg r.1 r.2 ((jobs.get?_eq_some_iff r.1 r.2).mpr hr))

theorem findJob_insert (jobs : Table (ProcessingJob P)) (job : ProcessingJob P) (projectId : Nat)
    (spec : JobSpec) :
    findJob (jobs.insert job) projectId spec =
      (findJob jobs projectId spec).or (if matchesSpec projectId spec job then some (jobs.nextId, job) else none) := by
  simp only [findJob, Table.insert, List.find?_append]
  cases hmatch : matchesSpec projectId spec job <;> simp [List.find?, hmatch]

theorem findJob_some {jobs : Table (ProcessingJob P)} {projectId k : Nat} {spec : JobSpec} {job : ProcessingJob P}
    (h : findJob jobs projectId spec = some (k, job)) :
    jobs.get? k = some job ∧ matchesSpec projectId spec job = true :=
  ⟨(jobs.get?_eq_some_iff k job).mpr (List.mem_of_find?_eq_some h), by simpa using List.find?_some h⟩

theorem findJob_none {jobs : Table (ProcessingJob P)} {projectId k : Nat} {spec : JobSpec} {job : ProcessingJob P}
    (h : findJob jobs projectId spec = none) (hjob : jobs.get? k = some job) :
    matchesSpec projectId spec job = false := by
  have hnot := List.find?_eq_none.mp h (k, job) ((jobs.get?_eq_some_iff k job).mp hjob)
  simpa using hnot

theorem carrier_eq {host : Host P} {projects : Table String} {jobs : Table (ProcessingJob P)} {e : Nat}
    {event : OutboxEvent P} {spec : JobSpec} (h : jobSpec host projects e event = .ok spec) :
    carrier host projects jobs e event = findJob jobs event.projectId spec := by
  rw [carrier, h]

theorem carrier_some {host : Host P} {projects : Table String} {jobs : Table (ProcessingJob P)} {e : Nat}
    {event : OutboxEvent P} {r : Nat × ProcessingJob P} (h : carrier host projects jobs e event = some r) :
    ∃ spec, jobSpec host projects e event = .ok spec ∧ findJob jobs event.projectId spec = some r := by
  rw [carrier] at h
  split at h
  · cases h
  · next spec hspec => exact ⟨spec, hspec, h⟩

/-- Rewriting rows keeps every carrier. -/
theorem carrier_mapRows (host : Host P) (projects : Table String) {jobs : Table (ProcessingJob P)}
    {g : Nat → ProcessingJob P → ProcessingJob P}
    (hg : ∀ k job, jobs.get? k = some job → SameJob job (g k job)) (e : Nat) {event row : OutboxEvent P}
    (hevent : SameEvent event row) :
    carrier host projects (jobs.mapRows g) e row =
      (carrier host projects jobs e event).map fun r => (r.1, g r.1 r.2) := by
  rw [carrier, carrier, jobSpec_congr host projects e hevent]
  cases jobSpec host projects e event with
  | error error => rfl
  | ok spec =>
    rw [hevent.projectId]
    exact findJob_mapRows hg event.projectId spec

/-- A new job is the carrier of no event that has one. -/
theorem carrier_insert (host : Host P) (projects : Table String) {jobs : Table (ProcessingJob P)}
    (job : ProcessingJob P) {e : Nat} {event row : OutboxEvent P} (hevent : SameEvent event row)
    {r : Nat × ProcessingJob P} (h : carrier host projects jobs e event = some r) :
    carrier host projects (jobs.insert job) e row = some r := by
  obtain ⟨spec, hspec, hfind⟩ := carrier_some h
  rw [← jobSpec_congr host projects e hevent] at hspec
  rw [carrier_eq hspec, hevent.projectId, findJob_insert, hfind, Option.some_or]

/-! ## The invariant -/

/-- A job that points to an event is the only one, was made from the event and
agrees with it; an event that has been dispatched is carried by a job that points
to it. -/
structure Paired (host : Host P) (projects : Table String) (db : Db P) : Prop where
  separate : SeparateEvents db
  agrees : ∀ k job e, db.jobs.get? k = some job → job.outboxEventId = some e →
    ∃ event spec, db.events.get? e = some event ∧ Agrees job event ∧
      jobSpec host projects e event = .ok spec ∧ matchesSpec event.projectId spec job = true
  carried : ∀ e event, db.events.get? e = some event → event.dispatchedAt ≠ none →
    ∃ k job, carrier host projects db.jobs e event = some (k, job) ∧ job.outboxEventId = some e

variable {host : Host P} {projects : Table String}

theorem Paired.allAgree {q : Queue P} (h : Paired host q.projects q.db) : AllAgree host q := by
  intro e event hevent hdispatched
  obtain ⟨k, job, hcarrier, hpoints⟩ := h.carried e event hevent hdispatched
  obtain ⟨spec, -, hfind⟩ := carrier_some hcarrier
  obtain ⟨event', -, hevent', hagrees, -⟩ := h.agrees k job e (findJob_some hfind).1 hpoints
  obtain rfl := Option.some.inj (hevent.symm.trans hevent')
  exact ⟨k, job, hcarrier, hagrees⟩

/-- Rows are rewritten so that a job and its event agree when they agreed before. -/
theorem paired_mapRows {db db' : Db P} (h : Paired host projects db)
    {g : Nat → ProcessingJob P → ProcessingJob P} {f : Nat → OutboxEvent P → OutboxEvent P}
    (hjobs : db'.jobs = db.jobs.mapRows g) (hevents : db'.events = db.events.mapRows f)
    (hg : ∀ k job, db.jobs.get? k = some job → SameJob job (g k job))
    (hf : ∀ e event, db.events.get? e = some event → SameEvent event (f e event))
    (hfirst : ∀ e event, db.events.get? e = some event → (f e event).dispatchedAt ≠ none →
      event.dispatchedAt ≠ none ∨ ∃ k job, carrier host projects db.jobs e event = some (k, job) ∧
        job.outboxEventId = some e)
    (hagrees : ∀ k job e event, db.jobs.get? k = some job → job.outboxEventId = some e →
      db.events.get? e = some event → Agrees job event → Agrees (g k job) (f e event)) :
    Paired host projects db' := by
  have hback : ∀ k row, db'.jobs.get? k = some row → ∃ job, db.jobs.get? k = some job ∧ g k job = row := by
    intro k row hrow
    rw [hjobs, Table.get?_mapRows] at hrow
    exact Option.map_eq_some_iff.mp hrow
  refine ⟨?_, ?_, ?_⟩
  · refine separateEvents_of_kept h.separate fun k row hrow => ?_
    obtain ⟨job, hjob, rfl⟩ := hback k row hrow
    exact ⟨job, hjob, (hg k job hjob).outboxEventId.symm⟩
  · intro k row e hrow hpoints
    obtain ⟨job, hjob, rfl⟩ := hback k row hrow
    rw [(hg k job hjob).outboxEventId] at hpoints
    obtain ⟨event, spec, hevent, hag, hspec, hmatch⟩ := h.agrees k job e hjob hpoints
    have hsame := hf e event hevent
    refine ⟨f e event, spec, ?_, hagrees k job e event hjob hpoints hevent hag, ?_, ?_⟩
    · rw [hevents, Table.get?_mapRows, hevent]
      rfl
    · rw [jobSpec_congr host projects e hsame]
      exact hspec
    · rw [matchesSpec_congr _ spec (hg k job hjob), hsame.projectId]
      exact hmatch
  · intro e row hrow hdispatched
    rw [hevents, Table.get?_mapRows] at hrow
    obtain ⟨event, hevent, rfl⟩ := Option.map_eq_some_iff.mp hrow
    obtain ⟨k, job, hcarrier, hpoints⟩ : ∃ k job, carrier host projects db.jobs e event = some (k, job) ∧
        job.outboxEventId = some e :=
      (hfirst e event hevent hdispatched).elim (h.carried e event hevent) id
    obtain ⟨spec, -, hfind⟩ := carrier_some hcarrier
    have hjob := (findJob_some hfind).1
    refine ⟨k, g k job, ?_, (hg k job hjob).outboxEventId.trans hpoints⟩
    rw [hjobs, carrier_mapRows host projects hg e (hf e event hevent), hcarrier]
    rfl

theorem mapRows_id {α : Type} (t : Table α) : (t.mapRows fun _ a => a) = t :=
  Table.ext (List.map_id t.rows) rfl

theorem updateEvent_events (db : Db P) (job : ProcessingJob P) (f : OutboxEvent P → OutboxEvent P) :
    (updateEvent db job f).events =
      db.events.mapRows fun e event => if job.outboxEventId = some e then f event else event := by
  rw [updateEvent]
  split
  · next hnone =>
    rw [hnone]
    simp only [reduceCtorEq, if_false, mapRows_id]
  · next e hsome =>
    rw [hsome]
    show db.events.modify e f = _
    simp only [Table.modify, Option.some.injEq, eq_comm]

/-- One job is rewritten, with the event that it carries. -/
theorem paired_worked {db db' : Db P} (h : Paired host projects db) {k : Nat} {job row : ProcessingJob P}
    {f : OutboxEvent P → OutboxEvent P} (hjob : db.jobs.get? k = some job)
    (hjobs : db'.jobs = db.jobs.modify k fun _ => row) (hevents : db'.events = (updateEvent db job f).events)
    (hsame : SameJob job row)
    (hkeeps : ∀ event, SameEvent event (f event) ∧ (f event).dispatchedAt = event.dispatchedAt)
    (hagrees : ∀ e event, job.outboxEventId = some e → db.events.get? e = some event → Agrees job event →
      Agrees row (f event)) : Paired host projects db' := by
  rw [updateEvent_events] at hevents
  refine paired_mapRows h hjobs hevents ?_ ?_ ?_ ?_
  · intro i a ha
    by_cases hi : i = k
    · rw [if_pos hi]
      rw [hi, hjob] at ha
      rw [← Option.some.inj ha]
      exact hsame
    · rw [if_neg hi]
      exact .refl a
  · intro e event _
    split
    · exact (hkeeps event).1
    · exact .refl event
  · intro e event _ hdispatched
    left
    split at hdispatched
    · rwa [(hkeeps event).2] at hdispatched
    · exact hdispatched
  · intro i a e event ha hpoints hevent hag
    by_cases hi : i = k
    · rw [hi, hjob] at ha
      obtain rfl := Option.some.inj ha
      rw [if_pos hi, if_pos hpoints]
      exact hagrees e event hpoints hevent hag
    · rw [if_neg hi, if_neg]
      · exact hag
      · exact fun hpoints' => hi (h.separate i k a job e ha hjob hpoints hpoints')

/-! ## The worker -/

/-- What the three endings do to the two statuses. -/
structure Ending.Matching (e : Ending P) : Prop where
  job : ∀ job, SameJob job (e.row job)
  event : ∀ row event, SameEvent event (e.event row event) ∧
    (e.event row event).dispatchedAt = event.dispatchedAt
  agrees : ∀ job event, Agrees (e.row job) (e.event (e.row job) event)

theorem completing_matching (now : Time) : (completing (P := P) now).Matching where
  job _ := ⟨rfl, rfl, rfl, rfl, rfl⟩
  event _ _ := ⟨⟨rfl, rfl, rfl, rfl, rfl, rfl⟩, rfl⟩
  agrees _ _ := by simp [Agrees, completing, completedRow, completedEvent, unlocked]

/-- `_fail_outbox` copies the status of a job that is dead or waits. -/
theorem failedEvent_agrees {row : ProcessingJob P} (h : row.status = .retryWait ∨ row.status = .dead)
    (code message : String) (event : OutboxEvent P) : Agrees row (failedEvent row code message event) := by
  rcases h with h | h <;> simp [Agrees, failedEvent, failedEventStatus, h]

theorem failing_matching (cfg : Config) (code message : String) (retryable : Bool) (now : Time) :
    (failing (P := P) cfg code message retryable now).Matching where
  job _ := ⟨rfl, rfl, rfl, rfl, rfl⟩
  event _ _ := ⟨⟨rfl, rfl, rfl, rfl, rfl, rfl⟩, rfl⟩
  agrees job event := by
    refine failedEvent_agrees ?_ code message event
    simp only [failing, failedRow, unlocked]
    split
    · exact Or.inl rfl
    · exact Or.inr rfl

theorem sweeping_matching (now : Time) : (sweeping (P := P) now).Matching where
  job _ := ⟨rfl, rfl, rfl, rfl, rfl⟩
  event _ _ := ⟨⟨rfl, rfl, rfl, rfl, rfl, rfl⟩, rfl⟩
  agrees job event := by
    refine failedEvent_agrees ?_ _ _ event
    simp only [sweeping, sweptRow, unlocked]
    split
    · exact Or.inl rfl
    · exact Or.inr rfl

theorem paired_apply {e : Ending P} (he : e.Matching) {db : Db P} (h : Paired host projects db) {k : Nat}
    {job : ProcessingJob P} (hjob : db.jobs.get? k = some job) : Paired host projects (e.apply db k job) := by
  refine paired_worked h hjob (e.apply_jobs db k job) ?_ (he.job job) (he.event (e.row job))
    fun _ event _ _ _ => he.agrees job event
  rw [e.apply_events, updateEvent]
  cases job.outboxEventId <;> rfl

theorem paired_applyEach {e : Ending P} (he : e.Matching) (rows : List (Nat × ProcessingJob P)) {db : Db P}
    (h : Paired host projects db) (hrows : Rows db rows) : Paired host projects (e.applyEach rows db) := by
  induction rows generalizing db with
  | nil => exact h
  | cons r rows ih =>
    exact ih (paired_apply he h (hrows.current r List.mem_cons_self)) (Ending.rows_tail hrows)

/-- One job is rewritten and no event, and neither status of the job is final. -/
theorem paired_open {db db' : Db P} (h : Paired host projects db) {k : Nat} {job row : ProcessingJob P}
    (hjob : db.jobs.get? k = some job) (hjobs : db'.jobs = db.jobs.modify k fun _ => row)
    (hevents : db'.events = db.events) (hsame : SameJob job row)
    (hstatus : (row.status = .succeeded ↔ job.status = .succeeded) ∧
      (row.status = .dead ∨ row.status = .cancelled ↔ job.status = .dead ∨ job.status = .cancelled)) :
    Paired host projects db' := by
  refine paired_worked (f := id) h hjob hjobs ?_ hsame (fun event => ⟨.refl event, rfl⟩) ?_
  · rw [updateEvent_events]
    simp only [id, ite_self, mapRows_id]
    exact hevents
  · intro e event _ _ hag
    exact ⟨hag.1.trans hstatus.1.symm, hag.2.trans hstatus.2.symm⟩

theorem paired_claimEach (cfg : Config) (w : String) (now : Time) (rows : List (Nat × ProcessingJob P))
    {db : Db P} (h : Paired host projects db) (hrows : Rows db rows)
    (hstatus : ∀ r ∈ rows, r.2.status = .pending ∨ r.2.status = .retryWait) :
    Paired host projects (claimEach cfg w now rows db).2 := by
  induction rows generalizing db with
  | nil => exact h
  | cons r rows ih =>
    have hopen := hstatus r List.mem_cons_self
    have hone : Paired host projects (claimOne cfg w now db r.1 r.2) := by
      refine paired_open h (hrows.current r List.mem_cons_self) rfl rfl ⟨rfl, rfl, rfl, rfl, rfl⟩ ?_
      rcases hopen with hs | hs <;> simp [claimedRow, hs]
    exact ih hone (rows_claimOne cfg w now hrows) fun q hq => hstatus q (List.mem_cons_of_mem _ hq)

theorem paired_worker (cfg : Config) {db : Db P} (h : Paired host projects db) (input : Call × Time) :
    Paired host projects (step cfg db input).2 := by
  obtain ⟨call, now⟩ := input
  cases call with
  | claimJobs w limit =>
    exact paired_claimEach cfg w now _ h (rows_selectForClaim db limit now) fun r hr =>
      claimable_status (mem_selectForClaim hr).2
  | heartbeat j w =>
    have hout : (step cfg db (.heartbeat j w, now)).2 = (heartbeat cfg db j w now).2 := by simp only [step]
    rw [hout, heartbeat_eq]
    split
    · exact h
    · next job hjob =>
      split
      · exact paired_open h hjob rfl rfl ⟨rfl, rfl, rfl, rfl, rfl⟩ ⟨Iff.rfl, Iff.rfl⟩
      · exact h
  | complete j w =>
    have hout : (step cfg db (.complete j w, now)).2 = (complete db j w now).2 := by simp only [step]
    rw [hout, complete]
    split
    · exact h
    · next job hjob =>
      split
      · exact paired_apply (completing_matching now) h hjob
      · exact h
  | fail j w code message retryable =>
    have hout : (step cfg db (.fail j w code message retryable, now)).2 =
        (fail cfg db j w code message retryable now).2 := by simp only [step]
    rw [hout, fail]
    split
    · exact h
    · next job hjob =>
      split
      · exact paired_apply (failing_matching cfg code message retryable now) h hjob
      · exact h
  | sweepExpired =>
    have hout : (step cfg db (.sweepExpired, now)).2 =
        (sweeping now).applyEach (db.jobs.select (expired now)) db := by
      rw [← sweepEach_eq_applyEach]
      rfl
    rw [hout]
    exact paired_applyEach (sweeping_matching now) _ h (rows_select db (expired now))

/-! ## Dispatch -/

/-- The job made for the first row is the one that is found for the second. -/
def SameWork (host : Host P) (projects : Table String) (r s : Nat × OutboxEvent P) : Prop :=
  ∃ spec spec', jobSpec host projects r.1 r.2 = .ok spec ∧ jobSpec host projects s.1 s.2 = .ok spec' ∧
    matchesSpec s.2.projectId spec' (newJob r.1 r.2 spec 0) = true

/-- Every listed event finds no job or the job that points to it, and no two of
them are for the same work. -/
def OwnCarriers (host : Host P) (projects : Table String) (jobs : Table (ProcessingJob P))
    (rows : List (Nat × OutboxEvent P)) : Prop :=
  (∀ r ∈ rows, ∀ k job, carrier host projects jobs r.1 r.2 = some (k, job) → job.outboxEventId = some r.1) ∧
    rows.Pairwise fun r s => ¬ SameWork host projects r s

theorem newJob_agrees (d : Dispatch) (e : Nat) (event : OutboxEvent P) (spec : JobSpec) :
    Agrees (newJob e event spec d.serverNow) (dispatchedEvent d.workerId d.leaseSeconds d.now event) := by
  simp [Agrees, newJob, dispatchedEvent]

/-- The event is found to have its job already. -/
theorem paired_found {db : Db P} (h : Paired host projects db) (d : Dispatch) {e k : Nat} {event : OutboxEvent P}
    {job : ProcessingJob P} (hevent : db.events.get? e = some event)
    (hopen : event.status = .pending ∨ event.status = .retryWait)
    (hcarrier : carrier host projects db.jobs e event = some (k, job)) (hpoints : job.outboxEventId = some e) :
    Paired host projects
      { db with events := db.events.modify e (dispatchedEvent d.workerId d.leaseSeconds d.now) } := by
  refine paired_mapRows (f := fun i a => if i = e then dispatchedEvent d.workerId d.leaseSeconds d.now a else a) h
    (mapRows_id db.jobs).symm rfl (fun _ job _ => .refl job) ?_ ?_ ?_
  · intro i a _
    split
    · exact ⟨rfl, rfl, rfl, rfl, rfl, rfl⟩
    · exact .refl a
  · intro i a ha hdispatched
    by_cases hi : i = e
    · rw [hi, hevent] at ha
      rw [hi, ← Option.some.inj ha]
      exact Or.inr ⟨k, job, hcarrier, hpoints⟩
    · rw [if_neg hi] at hdispatched
      exact Or.inl hdispatched
  · intro i a e' b _ _ hb hag
    by_cases he : e' = e
    · rw [he, hevent] at hb
      obtain rfl := Option.some.inj hb
      rw [if_pos he]
      rcases hopen with hs | hs <;> simpa [Agrees, dispatchedEvent, hs] using hag
    · rw [if_neg he]
      exact hag

/-- The event gets a job. -/
theorem paired_created {db : Db P} (h : Paired host projects db) (d : Dispatch) {e : Nat} {event : OutboxEvent P}
    {spec : JobSpec} (hevent : db.events.get? e = some event) (hspec : jobSpec host projects e event = .ok spec)
    (hfind : findJob db.jobs event.projectId spec = none) :
    Paired host projects
      { db with
        events := db.events.modify e (dispatchedEvent d.workerId d.leaseSeconds d.now)
        jobs := db.jobs.insert (newJob e event spec d.serverNow) } := by
  have hfree : ∀ k job, db.jobs.get? k = some job → job.outboxEventId ≠ some e := by
    intro k job hjob hpoints
    obtain ⟨event', spec', hevent', -, hspec', hmatch⟩ := h.agrees k job e hjob hpoints
    obtain rfl := Option.some.inj (hevent.symm.trans hevent')
    obtain rfl := Except.ok.inj (hspec.symm.trans hspec')
    rw [findJob_none hfind hjob] at hmatch
    cases hmatch
  have hsame : SameEvent event (dispatchedEvent d.workerId d.leaseSeconds d.now event) :=
    ⟨rfl, rfl, rfl, rfl, rfl, rfl⟩
  refine ⟨?_, ?_, ?_⟩
  · intro i j a b v ha hb hav hbv
    rcases Table.get?_insert_cases ha with ⟨rfl, rfl⟩ | ⟨-, ha⟩
    · rcases Table.get?_insert_cases hb with ⟨rfl, rfl⟩ | ⟨-, hb⟩
      · rfl
      · cases hav
        exact absurd hbv (hfree j b hb)
    · rcases Table.get?_insert_cases hb with ⟨rfl, rfl⟩ | ⟨-, hb⟩
      · cases hbv
        exact absurd hav (hfree i a ha)
      · exact h.separate i j a b v ha hb hav hbv
  · intro k job v hjob hpoints
    rcases Table.get?_insert_cases hjob with ⟨rfl, rfl⟩ | ⟨-, hjob⟩
    · cases hpoints
      refine ⟨_, spec, ?_, newJob_agrees d e event spec, ?_, newJob_matches e event spec d.serverNow⟩
      · rw [Table.get?_modify_self, hevent]
        rfl
      · rw [jobSpec_congr host projects e hsame]
        exact hspec
    · have hv : v ≠ e := fun hv => hfree k job hjob (hv ▸ hpoints)
      show ∃ event spec, (db.events.modify e _).get? v = some event ∧ _
      rw [Table.get?_modify_ne _ _ hv]
      exact h.agrees k job v hjob hpoints
  · intro v row hrow hdispatched
    by_cases hv : v = e
    · subst hv
      rw [Table.get?_modify_self, hevent] at hrow
      obtain rfl := Option.some.inj hrow
      refine ⟨db.jobs.nextId, newJob v event spec d.serverNow, ?_, rfl⟩
      rw [← jobSpec_congr host projects v hsame] at hspec
      rw [carrier_eq hspec, hsame.projectId, findJob_insert, hfind, newJob_matches]
      rfl
    · rw [Table.get?_modify_ne _ _ hv] at hrow
      obtain ⟨k, job, hcarrier, hpoints⟩ := h.carried v row hrow hdispatched
      exact ⟨k, job, carrier_insert host projects _ (.refl row) hcarrier, hpoints⟩

theorem paired_dispatchEvent {db db' : Db P} (h : Paired host projects db) {d : Dispatch} {e : Nat}
    {event : OutboxEvent P} (hevent : db.events.get? e = some event)
    (hopen : event.status = .pending ∨ event.status = .retryWait)
    (hown : ∀ k job, carrier host projects db.jobs e event = some (k, job) → job.outboxEventId = some e)
    (hdispatch : dispatchEvent host projects d e event db = .ok db') : Paired host projects db' := by
  rw [dispatchEvent] at hdispatch
  split at hdispatch
  · cases hdispatch
  · next spec hspec =>
    simp only at hdispatch
    split at hdispatch
    · next r hfind =>
      obtain rfl := Except.ok.inj hdispatch
      have hcarrier : carrier host projects db.jobs e event = some r := (carrier_eq hspec).trans hfind
      exact paired_found h d hevent hopen hcarrier (hown r.1 r.2 hcarrier)
    · next hfind =>
      split at hdispatch
      · cases hdispatch
      · obtain rfl := Except.ok.inj hdispatch
        exact paired_created h d hevent hspec hfind

/-- A dispatched event leaves the other events and their carriers alone. -/
theorem dispatchEvent_others {db db' : Db P} {d : Dispatch} {r s : Nat × OutboxEvent P}
    (hdispatch : dispatchEvent host projects d r.1 r.2 db = .ok db') (hne : s.1 ≠ r.1)
    (hwork : ¬ SameWork host projects r s) :
    db'.events.get? s.1 = db.events.get? s.1 ∧
      carrier host projects db'.jobs s.1 s.2 = carrier host projects db.jobs s.1 s.2 := by
  rw [dispatchEvent] at hdispatch
  split at hdispatch
  · cases hdispatch
  · next spec hspec =>
    simp only at hdispatch
    split at hdispatch
    · obtain rfl := Except.ok.inj hdispatch
      exact ⟨Table.get?_modify_ne _ _ hne, rfl⟩
    · split at hdispatch
      · cases hdispatch
      · obtain rfl := Except.ok.inj hdispatch
        refine ⟨Table.get?_modify_ne _ _ hne, ?_⟩
        cases hspec' : jobSpec host projects s.1 s.2 with
        | error error => rw [carrier, carrier, hspec']
        | ok spec' =>
          have hmatch : matchesSpec s.2.projectId spec' (newJob r.1 r.2 spec d.serverNow) = false := by
            rw [Bool.eq_false_iff]
            intro hmatch
            refine hwork ⟨spec, spec', hspec, hspec', ?_⟩
            rw [← hmatch]
            exact matchesSpec_congr _ spec' ⟨rfl, rfl, rfl, rfl, rfl⟩
          rw [carrier_eq hspec', carrier_eq hspec', findJob_insert, hmatch]
          simp

theorem paired_dispatchEach {d : Dispatch} (rows : List (Nat × OutboxEvent P)) {db db' : Db P}
    (h : Paired host projects db) (hnodup : (rows.map Prod.fst).Nodup)
    (hcurrent : ∀ r ∈ rows, db.events.get? r.1 = some r.2)
    (hopen : ∀ r ∈ rows, r.2.status = .pending ∨ r.2.status = .retryWait)
    (hown : OwnCarriers host projects db.jobs rows) (hdispatch : dispatchEach host projects d rows db = .ok db') :
    Paired host projects db' := by
  induction rows generalizing db with
  | nil =>
    obtain rfl := Except.ok.inj hdispatch
    exact h
  | cons r rows ih =>
    rw [dispatchEach] at hdispatch
    split at hdispatch
    · cases hdispatch
    · next db₁ hdb₁ =>
      obtain ⟨hfirst, hpairwise⟩ := hown
      obtain ⟨hwork, hpairwise⟩ := List.pairwise_cons.mp hpairwise
      obtain ⟨hnot, hnodup⟩ := List.nodup_cons.mp hnodup
      have hothers : ∀ s ∈ rows, db₁.events.get? s.1 = db.events.get? s.1 ∧
          carrier host projects db₁.jobs s.1 s.2 = carrier host projects db.jobs s.1 s.2 := by
        intro s hs
        refine dispatchEvent_others hdb₁ (fun hsame => hnot ?_) (hwork s hs)
        exact List.mem_map.mpr ⟨s, hs, hsame⟩
      have hpaired := paired_dispatchEvent h (hcurrent r List.mem_cons_self) (hopen r List.mem_cons_self)
        (hfirst r List.mem_cons_self) hdb₁
      refine ih hpaired hnodup (fun s hs => ?_) (fun s hs => hopen s (List.mem_cons_of_mem _ hs))
        ⟨fun s hs => ?_, hpairwise⟩ hdispatch
      · rw [(hothers s hs).1]
        exact hcurrent s (List.mem_cons_of_mem _ hs)
      · rw [(hothers s hs).2]
        exact hfirst s (List.mem_cons_of_mem _ hs)

theorem mem_selectForDispatch {db : Db P} {limit : Nat} {exclude : List String} {now : Time}
    {r : Nat × OutboxEvent P} (h : r ∈ selectForDispatch db limit exclude now) :
    db.events.get? r.1 = some r.2 ∧ (r.2.status = .pending ∨ r.2.status = .retryWait) := by
  have hs := List.mem_of_mem_take h
  rw [List.mem_insertionSort] at hs
  obtain ⟨hget, hdispatchable⟩ := (db.events.mem_select _ r.1 r.2).mp hs
  simp only [dispatchable, Bool.and_eq_true, Bool.or_eq_true, decide_eq_true_eq] at hdispatchable
  exact ⟨hget, hdispatchable.1.1.1⟩

theorem selectForDispatch_nodup (db : Db P) (limit : Nat) (exclude : List String) (now : Time) :
    ((selectForDispatch db limit exclude now).map Prod.fst).Nodup := by
  have hsel := db.events.select_keys_nodup (dispatchable exclude now)
  have hsort := ((List.perm_insertionSort dispatchBefore
    (db.events.select (dispatchable exclude now))).map Prod.fst).nodup_iff.mpr hsel
  exact hsort.sublist ((List.take_sublist _ _).map _)

theorem paired_dispatchOnce {db : Db P} (h : Paired host projects db) (d : Dispatch) (limit : Nat)
    (exclude : List String) (hown : OwnCarriers host projects db.jobs (selectForDispatch db limit exclude d.now)) :
    Paired host projects (dispatchOnce host projects d limit exclude db).2 := by
  rw [dispatchOnce]
  split
  · exact h
  · next db' hdb' =>
    exact paired_dispatchEach _ h (selectForDispatch_nodup db limit exclude d.now)
      (fun r hr => (mem_selectForDispatch hr).1) (fun r hr => (mem_selectForDispatch hr).2) hown hdb'

/-! ## Administrator endpoints -/

theorem paired_retryAdminJob {q : Queue P} (h : Paired host q.projects q.db) (principal : Principal)
    (jobId : Nat) (now : Time)
    (hfree : ∀ job, retryFor q principal jobId = .ok job → job.status = .dead → job.outboxEventId = none) :
    Paired host q.projects (retryAdminJob q principal jobId now).2.db := by
  cases hfor : retryFor q principal jobId with
  | error e =>
    rw [retryAdminJob, hfor]
    exact h
  | ok job =>
    obtain ⟨hjob, hstatus⟩ := jobFor_ok hfor
    have hdb : (retryAdminJob q principal jobId now).2.db =
        { q.db with jobs := q.db.jobs.modify jobId fun _ => retriedRow now job } := by
      rw [retryAdminJob, hfor]
    rw [hdb]
    refine paired_worked (f := id) h hjob rfl ?_ ⟨rfl, rfl, rfl, rfl, rfl⟩ (fun event => ⟨.refl event, rfl⟩) ?_
    · rw [updateEvent_events]
      simp only [id, ite_self, mapRows_id]
    · intro e event hpoints _ hag
      simp only [Bool.or_eq_true, decide_eq_true_eq] at hstatus
      rcases hstatus with hs | hs
      · rw [hfree job hfor hs] at hpoints
        cases hpoints
      · simpa [Agrees, retriedRow, unlocked, hs] using hag

theorem paired_cancelAdminJob {q : Queue P} (h : Paired host q.projects q.db) (principal : Principal)
    (jobId : Nat) (reason : String) (now : Time) :
    Paired host q.projects (cancelAdminJob q principal jobId reason now).2.db := by
  cases hfor : cancelFor q principal jobId reason with
  | error e =>
    rw [cancelAdminJob, hfor]
    exact h
  | ok job =>
    obtain ⟨hjob, -⟩ := jobFor_ok hfor
    rw [cancelAdminJob, hfor]
    refine paired_worked h hjob (updateEvent_jobs _ _ _) ?_ ⟨rfl, rfl, rfl, rfl, rfl⟩ (f := cancelledJobEvent (strip reason))
      (fun event => ⟨⟨rfl, rfl, rfl, rfl, rfl, rfl⟩, rfl⟩) fun _ event _ _ _ => ?_
    · rw [updateEvent_events, updateEvent_events]
      rfl
    · simp [Agrees, cancelledRow, cancelledJobEvent, unlocked]

theorem replayedEvent_keeps (now : Time) (event : OutboxEvent P) :
    SameEvent event (replayedEvent now event) ∧ (replayedEvent now event).dispatchedAt = event.dispatchedAt :=
  ⟨⟨rfl, rfl, rfl, rfl, rfl, rfl⟩, rfl⟩

theorem paired_replayAdminJob {q : Queue P} (h : Paired host q.projects q.db) (principal : Principal)
    (jobId : Nat) (reason : String) (now : Time) :
    Paired host q.projects (replayAdminJob q principal jobId reason now).2.db := by
  cases hfor : replayFor q principal jobId reason with
  | error e =>
    rw [replayAdminJob, hfor]
    exact h
  | ok job =>
    obtain ⟨hjob, -⟩ := jobFor_ok hfor
    rw [replayAdminJob, hfor]
    refine paired_worked h hjob (updateEvent_jobs _ _ _) ?_ ⟨rfl, rfl, rfl, rfl, rfl⟩ (f := replayedEvent now)
      (replayedEvent_keeps now) fun _ event _ _ _ => ?_
    · rw [updateEvent_events, updateEvent_events]
      rfl
    · simp [Agrees, replayedRow, replayedEvent, unlocked]

theorem replayEventFor_ok {q : Queue P} {principal : Principal} {eventId : Nat} {reason : String}
    {event : OutboxEvent P} (h : replayEventFor q principal eventId reason = .ok event) :
    q.db.events.get? eventId = some event ∧
      (event.status = .dead ∨ event.status = .retryWait ∨ event.status = .dispatched) := by
  rw [replayEventFor] at h
  split at h
  · cases h
  · split at h
    · cases h
    · split at h
      · cases h
      · next event' hevent =>
        split at h
        · cases h
        · split at h
          · next hstatus =>
            obtain rfl := Except.ok.inj h
            exact ⟨hevent, hstatus⟩
          · cases h

theorem jobOfEvent_none {jobs : Table (ProcessingJob P)} {eventId k : Nat} {job : ProcessingJob P}
    (h : jobOfEvent jobs eventId = none) (hjob : jobs.get? k = some job) : job.outboxEventId ≠ some eventId := by
  have hnot := List.find?_eq_none.mp h (k, job) ((jobs.get?_eq_some_iff k job).mp hjob)
  simpa using hnot

/-- An event that is replayed leaves its job open. -/
theorem replayed_agrees {job row : ProcessingJob P} {event : OutboxEvent P} (now : Time)
    (hevent : event.status = .dead ∨ event.status = .retryWait ∨ event.status = .dispatched)
    (hag : Agrees job event)
    (hrow : row.status = .pending ∨ (row.status = job.status ∧ job.status ≠ .dead ∧ job.status ≠ .cancelled)) :
    Agrees row (replayedEvent now event) := by
  have hnot : job.status ≠ .succeeded := by
    intro hs
    have hcompleted := hag.1.mpr hs
    rcases hevent with he | he | he <;> rw [he] at hcompleted <;> cases hcompleted
  rcases hrow with hs | ⟨hs, hdead, hcancelled⟩
  · simp [Agrees, replayedEvent, hs]
  · simp [Agrees, replayedEvent, hs, hnot, hdead, hcancelled]

theorem paired_replayAdminOutbox {q : Queue P} (h : Paired host q.projects q.db) (principal : Principal)
    (eventId : Nat) (reason : String) (now : Time) :
    Paired host q.projects (replayAdminOutbox q principal eventId reason now).2.db := by
  cases hfor : replayEventFor q principal eventId reason with
  | error e =>
    rw [replayAdminOutbox, hfor]
    exact h
  | ok event =>
    obtain ⟨hevent, hstatus⟩ := replayEventFor_ok hfor
    have hkeeps : ∀ i (a : OutboxEvent P), SameEvent a (if i = eventId then replayedEvent now a else a) ∧
        (if i = eventId then replayedEvent now a else a).dispatchedAt = a.dispatchedAt := by
      intro i a
      split
      · exact replayedEvent_keeps now a
      · exact ⟨.refl a, rfl⟩
    cases hfind : jobOfEvent q.db.jobs eventId with
    | none =>
      rw [replayAdminOutbox, hfor]
      simp only [hfind]
      refine paired_mapRows (f := fun i a => if i = eventId then replayedEvent now a else a) h
        (mapRows_id q.db.jobs).symm rfl (fun _ job _ => .refl job) (fun i a _ => (hkeeps i a).1) ?_ ?_
      · intro i a _ hdispatched
        rw [(hkeeps i a).2] at hdispatched
        exact Or.inl hdispatched
      · intro k job e a hjob hpoints _ hag
        rw [if_neg]
        · exact hag
        · exact fun he => jobOfEvent_none hfind hjob (he ▸ hpoints)
    | some r =>
      obtain ⟨k, job⟩ := r
      obtain ⟨hjob, hpoints⟩ := jobOfEvent_some hfind
      have hevents : q.db.events.modify eventId (replayedEvent now) =
          (updateEvent q.db job (replayedEvent now)).events := by
        rw [updateEvent, hpoints]
      rw [replayAdminOutbox, hfor]
      simp only [hfind]
      split
      · refine paired_worked h hjob rfl hevents ⟨rfl, rfl, rfl, rfl, rfl⟩ (replayedEvent_keeps now) ?_
        intro e a he ha hag
        obtain rfl := Option.some.inj (hpoints.symm.trans he)
        obtain rfl := Option.some.inj (hevent.symm.trans ha)
        exact replayed_agrees now hstatus hag (Or.inl rfl)
      · next hopen =>
        have hjobs : q.db.jobs = q.db.jobs.modify k fun _ => job := by
          refine Eq.trans ?_ (Table.modify_const q.db.jobs hjob id).symm
          simp only [Table.modify, id, ite_self, mapRows_id]
        refine paired_worked h hjob hjobs hevents (.refl job) (replayedEvent_keeps now) ?_
        intro e a he ha hag
        obtain rfl := Option.some.inj (hpoints.symm.trans he)
        obtain rfl := Option.some.inj (hevent.symm.trans ha)
        exact replayed_agrees now hstatus hag
          (Or.inr ⟨rfl, fun hs => hopen (Or.inl hs), fun hs => hopen (Or.inr (Or.inr hs))⟩)

/-! ## Runs -/

/-- The step keeps one job for each event: an event that is dispatched has or gets
a job of its own, and no dead job that carries an event is retried. -/
def OneJobEach (host : Host P) (q : Queue P) : Operation × Time → Prop
  | (.dispatchOnce _ _ limit exclude _, now) =>
    OwnCarriers host q.projects q.db.jobs (selectForDispatch q.db limit exclude now)
  | (.retryAdminJob principal jobId, _) =>
    ∀ job, retryFor q principal jobId = .ok job → job.status = .dead → job.outboxEventId = none
  | _ => True

/-- Every operation on jobs and their events but `cancel_import_batch`. -/
def Operation.OnJobs : Operation → Prop
  | .cancelImportBatch _ _ => False
  | _ => True

theorem projects_step (host : Host P) (q : Queue P) (input : Operation × Time) :
    (Queue.step host q input).2.projects = q.projects := by
  obtain ⟨op, now⟩ := input
  cases op with
  | worker cfg call => rfl
  | dispatchOnce => rfl
  | retryAdminJob principal jobId =>
    show (retryAdminJob q principal jobId now).2.projects = _
    rw [retryAdminJob]
    split <;> rfl
  | cancelAdminJob principal jobId reason =>
    show (cancelAdminJob q principal jobId reason now).2.projects = _
    rw [cancelAdminJob]
    split <;> rfl
  | replayAdminJob principal jobId reason =>
    show (replayAdminJob q principal jobId reason now).2.projects = _
    rw [replayAdminJob]
    split <;> rfl
  | replayAdminOutbox principal eventId reason =>
    show (replayAdminOutbox q principal eventId reason now).2.projects = _
    rw [replayAdminOutbox]
    split
    · rfl
    · split
      · rfl
      · split <;> rfl
  | cancelImportBatch principal batchId =>
    show (cancelImportBatch host q principal batchId now).2.projects = _
    rw [cancelImportBatch]
    split <;> rfl

theorem paired_step {q : Queue P} (h : Paired host q.projects q.db) {input : Operation × Time}
    (hop : input.1.OnJobs) (hone : OneJobEach host q input) :
    Paired host (Queue.step host q input).2.projects (Queue.step host q input).2.db := by
  rw [projects_step]
  obtain ⟨op, now⟩ := input
  cases op with
  | worker cfg call => exact paired_worker cfg h (call, now)
  | dispatchOnce workerId leaseSeconds limit exclude serverNow => exact paired_dispatchOnce h _ limit exclude hone
  | retryAdminJob principal jobId => exact paired_retryAdminJob h principal jobId now hone
  | cancelAdminJob principal jobId reason => exact paired_cancelAdminJob h principal jobId reason now
  | replayAdminJob principal jobId reason => exact paired_replayAdminJob h principal jobId reason now
  | replayAdminOutbox principal eventId reason => exact paired_replayAdminOutbox h principal eventId reason now
  | cancelImportBatch principal batchId => exact hop.elim

/-- A queue before its first dispatch. -/
structure Undispatched (P : Type) extends Start P where
  waiting : ∀ e event, queue.db.events.get? e = some event → event.dispatchedAt = none
  carryNone : ∀ k job, queue.db.jobs.get? k = some job → job.outboxEventId = none

theorem Undispatched.paired (host : Host P) (start : Undispatched P) :
    Paired host start.queue.projects start.queue.db where
  separate i _ a _ e ha _ hpoints _ := by
    rw [start.carryNone i a ha] at hpoints
    cases hpoints
  agrees k job e hjob hpoints := by
    rw [start.carryNone k job hjob] at hpoints
    cases hpoints
  carried e event hevent hdispatched := absurd (start.waiting e event hevent) hdispatched

/-- **Event and job agree, in every run whose steps keep one job for each event**:
an event that has been dispatched is completed, or dead or cancelled, exactly when
the job that carries it is. -/
theorem events_agree (host : Host P) (start : Undispatched P) (ops : List (Operation × Time))
    (hops : ∀ input ∈ ops, input.1.OnJobs)
    (hone : Trace.Always (Queue.step host) (OneJobEach host) start.queue ops) :
    AllAgree host (start.after host ops) := by
  have hrun : ∀ (q : Queue P), Paired host q.projects q.db →
      Trace.Always (Queue.step host) (OneJobEach host) q ops →
      Paired host (Trace.exec (Queue.step host) q ops).projects (Trace.exec (Queue.step host) q ops).db := by
    clear hone
    induction ops with
    | nil => exact fun q hq _ => hq
    | cons input ops ih =>
      intro q hq hone
      exact ih (fun i hi => hops i (List.mem_cons_of_mem _ hi)) _
        (paired_step hq (hops input List.mem_cons_self) hone.1) hone.2
  exact (hrun start.queue (start.paired host) hone).allAgree

/-- The small queue before its first dispatch. -/
def smallUndispatched : Undispatched Unit where
  toStart := smallStart
  waiting e event h := by
    rcases Table.get?_insert_cases h with ⟨-, rfl⟩ | ⟨-, h⟩
    · rfl
    · cases h
  carryNone k job h := by cases h

/-- The job fails for good. -/
def jobDies : List (Operation × Time) :=
  dispatchAndClaim ++ [(.worker {} (.fail 0 "worker" "permanent" "no" false), 1)]

/-- An event whose job has died agrees with it. -/
theorem events_agree_dead : AllAgree smallHost (smallUndispatched.after smallHost jobDies) := by
  refine events_agree smallHost smallUndispatched jobDies ?_ ?_
  · intro input hinput
    simp only [jobDies, dispatchAndClaim, List.cons_append, List.nil_append, List.mem_cons, List.not_mem_nil,
      or_false] at hinput
    rcases hinput with rfl | rfl | rfl <;> trivial
  · refine ⟨⟨fun r _ k job h => ?_, ?_⟩, trivial, trivial, trivial⟩
    · obtain ⟨spec, -, hfind⟩ := carrier_some h
      cases hfind
    · have hrows : selectForDispatch smallStart.queue.db 10 [] 0 = [(0, smallEvent)] := by decide
      show List.Pairwise _ (selectForDispatch smallStart.queue.db 10 [] 0)
      rw [hrows]
      exact List.pairwise_singleton _ _

/-- **A retried event stays dead.**  `retry_admin_job` puts the dead job back and
leaves the event that it carries dead. -/
theorem retried_event_stays_dead :
    ¬ AllAgree smallHost (smallStart.after smallHost (jobDies ++ [(.retryAdminJob administrator 0, 2)])) := by
  intro hall
  have hrun : (fun q : Queue Unit => (q.db.events.get? 0).map (·.status) = some .dead ∧
      ((q.db.events.get? 0).bind (·.dispatchedAt)) = some 0 ∧
      ∀ event ∈ q.db.events.get? 0, (carrier smallHost q.projects q.db.jobs 0 event).map (·.2.status) =
        some .pending)
      (smallStart.after smallHost (jobDies ++ [(.retryAdminJob administrator 0, 2)])) := by decide
  obtain ⟨hdead, hdispatched, hpending⟩ := hrun
  obtain ⟨event, hevent, hstatus⟩ := Option.map_eq_some_iff.mp hdead
  rw [hevent, Option.bind_some] at hdispatched
  obtain ⟨k, job, hcarrier, hagrees⟩ := hall 0 event hevent (by rw [hdispatched]; exact Option.some_ne_none 0)
  have hjob := hpending event hevent
  rw [hcarrier, Option.map_some, Option.some.injEq] at hjob
  have hfinal := hagrees.2.mp (Or.inl hstatus)
  rw [hjob] at hfinal
  rcases hfinal with h | h <;> cases h

/-- Two events for the same work share a job, which points to the first: the second
one is never completed. -/
example :
    let twin : OutboxEvent Unit := { smallEvent with idempotencyKey := some "key" }
    let start : Queue Unit :=
      { smallStart.queue with db := ⟨(Table.empty.insert twin).insert twin, Table.empty, Table.empty⟩ }
    (fun q : Queue Unit => (q.db.jobs.rows.map (·.2.status), q.db.events.rows.map (·.2.status)))
      (Trace.exec (Queue.step smallHost) start
        (dispatchAndClaim ++ [(.worker {} (.complete 0 "worker"), 1)])) =
    ([.succeeded], [.completed, .dispatched]) := by
  decide

end CodexMemory.Worker
