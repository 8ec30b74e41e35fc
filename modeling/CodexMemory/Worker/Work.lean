import CodexMemory.Worker.EventAgreement

/-!
# What becomes of the work in the queue

A call of the worker rewrites jobs and the events that they carry; a dispatch hands events on to jobs.
`worked_step` says which jobs and events stay open in a call: all but the jobs that end for good in it, and
the events that these carry.  `dispatched_dispatchOnce` says that a dispatch leaves all of them open.
-/

namespace CodexMemory.Worker

variable {P : Type}

/-- An event that waits or is with a job. -/
def EventStatus.isLive : EventStatus → Bool
  | .pending | .dispatched | .retryWait => true
  | .dead | .completed | .cancelled => false

/-- A job that will be executed or is. -/
def JobStatus.isUnfinished : JobStatus → Bool
  | .pending | .running | .retryWait => true
  | .succeeded | .dead | .cancelled => false

/-- The job ends for good in the call: it succeeds, or dies. -/
def ends (input : Call × Time) (k : Nat) (job : ProcessingJob P) : Bool :=
  match input with
  | (.complete jobId workerId, now) => k = jobId && ownsLiveJob (some job) workerId now
  | (.fail jobId workerId _ _ retryable, now) =>
    k = jobId && ownsLiveJob (some job) workerId now && !(retryable && job.attemptCount < job.maxAttempts)
  | (.sweepExpired, now) => expired now job && !(job.attemptCount < job.maxAttempts : Bool)
  | _ => false

/-! ## Rewritten rows -/

/-- Job `k`, where the jobs of `E` end. -/
structure JobMove (E : Nat → Prop) (k : Nat) (job row : ProcessingJob P) : Prop where
  same : SameJob job row
  payload : row.payload = job.payload
  unfinished : job.status.isUnfinished = true → ¬ E k → row.status.isUnfinished = true

/-- Event `e`, where the jobs of `E` end. -/
structure EventMove (jobs : Table (ProcessingJob P)) (E : Nat → Prop) (e : Nat) (event row : OutboxEvent P) : Prop where
  same : SameEvent event row
  payload : row.payload = event.payload
  live : event.status.isLive = true → (∀ k job, jobs.get? k = some job → job.outboxEventId = some e → ¬ E k) →
    row.status.isLive = true

/-- The jobs of `E` end, everything else goes on. -/
structure Worked (E : Nat → Prop) (db db' : Db P) : Prop where
  jobs : ∀ k job, db.jobs.get? k = some job → ∃ row, db'.jobs.get? k = some row ∧ JobMove E k job row
  jobsBack : ∀ k row, db'.jobs.get? k = some row → ∃ job, db.jobs.get? k = some job ∧ JobMove E k job row
  events : ∀ e event, db.events.get? e = some event →
    ∃ row, db'.events.get? e = some row ∧ EventMove db.jobs E e event row
  eventsBack : ∀ e row, db'.events.get? e = some row →
    ∃ event, db.events.get? e = some event ∧ EventMove db.jobs E e event row

section

variable {A B E : Nat → Prop} {db db' db'' : Db P}

theorem JobMove.refl (E : Nat → Prop) (k : Nat) (job : ProcessingJob P) : JobMove E k job job :=
  ⟨.refl job, rfl, fun h _ => h⟩

theorem EventMove.refl (jobs : Table (ProcessingJob P)) (E : Nat → Prop) (e : Nat) (event : OutboxEvent P) :
    EventMove jobs E e event event := ⟨.refl event, rfl, fun h _ => h⟩

theorem Worked.refl (E : Nat → Prop) (db : Db P) : Worked E db db :=
  ⟨fun k job h => ⟨job, h, .refl E k job⟩, fun k job h => ⟨job, h, .refl E k job⟩,
    fun e event h => ⟨event, h, .refl db.jobs E e event⟩, fun e event h => ⟨event, h, .refl db.jobs E e event⟩⟩

theorem SameJob.trans {job row last : ProcessingJob P} (h : SameJob job row) (h' : SameJob row last) : SameJob job last :=
  ⟨h'.projectId.trans h.projectId, h'.outboxEventId.trans h.outboxEventId, h'.jobType.trans h.jobType,
    h'.idempotencyKey.trans h.idempotencyKey, h'.jobKey.trans h.jobKey⟩

theorem SameEvent.trans {event row last : OutboxEvent P} (h : SameEvent event row) (h' : SameEvent row last) :
    SameEvent event last :=
  ⟨h'.projectId.trans h.projectId, h'.idempotencyKey.trans h.idempotencyKey, h'.eventType.trans h.eventType,
    h'.aggregateType.trans h.aggregateType, h'.aggregateId.trans h.aggregateId, h'.payloadVersion.trans h.payloadVersion⟩

theorem JobMove.trans {k : Nat} {job row last : ProcessingJob P} (h : JobMove A k job row) (h' : JobMove B k row last) :
    JobMove (fun i => A i ∨ B i) k job last :=
  ⟨h.same.trans h'.same, h'.payload.trans h.payload,
    fun hopen hnot => h'.unfinished (h.unfinished hopen fun ha => hnot (Or.inl ha)) fun hb => hnot (Or.inr hb)⟩

/-- A carrier of an event after the first step was one before it. -/
theorem Worked.eventMove_trans (h : Worked A db db') {e : Nat} {event row last : OutboxEvent P}
    (hfirst : EventMove db.jobs A e event row) (hsecond : EventMove db'.jobs B e row last) :
    EventMove db.jobs (fun i => A i ∨ B i) e event last := by
  refine ⟨hfirst.same.trans hsecond.same, hsecond.payload.trans hfirst.payload, fun hlive hnone => ?_⟩
  refine hsecond.live (hfirst.live hlive fun k job hjob hcarries ha => hnone k job hjob hcarries (Or.inl ha)) ?_
  intro k row hrow hcarries hb
  obtain ⟨job, hjob, hmove⟩ := h.jobsBack k row hrow
  exact hnone k job hjob (hmove.same.outboxEventId.symm.trans hcarries) (Or.inr hb)

theorem Worked.trans (h : Worked A db db') (h' : Worked B db' db'') : Worked (fun i => A i ∨ B i) db db'' := by
  constructor
  case jobs =>
    intro k job hjob
    obtain ⟨row, hrow, hmove⟩ := h.jobs k job hjob
    obtain ⟨last, hlast, hmove'⟩ := h'.jobs k row hrow
    exact ⟨last, hlast, hmove.trans hmove'⟩
  case jobsBack =>
    intro k last hlast
    obtain ⟨row, hrow, hmove'⟩ := h'.jobsBack k last hlast
    obtain ⟨job, hjob, hmove⟩ := h.jobsBack k row hrow
    exact ⟨job, hjob, hmove.trans hmove'⟩
  case events =>
    intro e event hevent
    obtain ⟨row, hrow, hmove⟩ := h.events e event hevent
    obtain ⟨last, hlast, hmove'⟩ := h'.events e row hrow
    exact ⟨last, hlast, h.eventMove_trans hmove hmove'⟩
  case eventsBack =>
    intro e last hlast
    obtain ⟨row, hrow, hmove'⟩ := h'.eventsBack e last hlast
    obtain ⟨event, hevent, hmove⟩ := h.eventsBack e row hrow
    exact ⟨event, hevent, h.eventMove_trans hmove hmove'⟩

theorem Worked.mono (h : Worked A db db') (hAB : ∀ k, A k → B k) : Worked B db db' := by
  have hjob : ∀ {k job row}, JobMove A k job row → JobMove (P := P) B k job row := fun hmove =>
    ⟨hmove.same, hmove.payload, fun hopen hnot => hmove.unfinished hopen fun ha => hnot (hAB _ ha)⟩
  have hevent : ∀ {e event row}, EventMove db.jobs A e event row → EventMove db.jobs B e event row := fun hmove =>
    ⟨hmove.same, hmove.payload, fun hlive hnone => hmove.live hlive fun k job hget hcarries ha =>
      hnone k job hget hcarries (hAB _ ha)⟩
  constructor
  case jobs => exact fun k job h' => let ⟨row, hrow, hmove⟩ := h.jobs k job h'; ⟨row, hrow, hjob hmove⟩
  case jobsBack => exact fun k row h' => let ⟨job, hget, hmove⟩ := h.jobsBack k row h'; ⟨job, hget, hjob hmove⟩
  case events => exact fun e event h' => let ⟨row, hrow, hmove⟩ := h.events e event h'; ⟨row, hrow, hevent hmove⟩
  case eventsBack => exact fun e row h' => let ⟨event, hget, hmove⟩ := h.eventsBack e row h'; ⟨event, hget, hevent hmove⟩

/-- One job is rewritten, with the event that it carries. -/
theorem worked_one {k : Nat} {job row : ProcessingJob P} {f : OutboxEvent P → OutboxEvent P}
    (hjob : db.jobs.get? k = some job) (hjobs : db'.jobs = db.jobs.modify k fun _ => row)
    (hevents : db'.events = (updateEvent db job f).events) (hmove : JobMove E k job row)
    (hevent : ∀ e event, job.outboxEventId = some e → EventMove db.jobs E e event (f event)) : Worked E db db' := by
  rw [updateEvent_events] at hevents
  have hget : ∀ i, db'.jobs.get? i = (db.jobs.get? i).map fun a => if i = k then row else a := fun i => by
    rw [hjobs, Table.get?_modify]
  have hrow : ∀ {i a}, db.jobs.get? i = some a → JobMove E i a (if i = k then row else a) := by
    intro i a ha
    by_cases hi : i = k
    · subst hi
      obtain rfl := Option.some.inj (hjob.symm.trans ha)
      rw [if_pos rfl]
      exact hmove
    · rw [if_neg hi]
      exact .refl E i a
  have hrewritten : ∀ e event, EventMove db.jobs E e event (if job.outboxEventId = some e then f event else event) := by
    intro e event
    split
    · next hcarries => exact hevent e event hcarries
    · exact .refl db.jobs E e event
  constructor
  case jobs =>
    intro i a ha
    exact ⟨_, by rw [hget, ha]; rfl, hrow ha⟩
  case jobsBack =>
    intro i b hb
    rw [hget] at hb
    obtain ⟨a, ha, rfl⟩ := Option.map_eq_some_iff.mp hb
    exact ⟨a, ha, hrow ha⟩
  case events =>
    intro e event he
    exact ⟨_, by rw [hevents, Table.get?_mapRows, he]; rfl, hrewritten e event⟩
  case eventsBack =>
    intro e last hlast
    rw [hevents, Table.get?_mapRows] at hlast
    obtain ⟨event, he, rfl⟩ := Option.map_eq_some_iff.mp hlast
    exact ⟨event, he, hrewritten e event⟩

/-! ## The worker -/

/-- An ending hands the payloads on. -/
structure Ending.Bearing (e : Ending P) : Prop extends e.Matching where
  jobPayload : ∀ job, (e.row job).payload = job.payload
  eventPayload : ∀ row event, (e.event row event).payload = event.payload

theorem completing_bearing (now : Time) : (completing (P := P) now).Bearing :=
  ⟨completing_matching now, fun _ => rfl, fun _ _ => rfl⟩

theorem failing_bearing (cfg : Config) (code message : String) (retryable : Bool) (now : Time) :
    (failing (P := P) cfg code message retryable now).Bearing :=
  ⟨failing_matching cfg code message retryable now, fun _ => rfl, fun _ _ => rfl⟩

theorem sweeping_bearing (now : Time) : (sweeping (P := P) now).Bearing :=
  ⟨sweeping_matching now, fun _ => rfl, fun _ _ => rfl⟩

/-- An event that agrees with an unfinished job is live. -/
theorem live_of_agrees {job : ProcessingJob P} {event : OutboxEvent P} (h : Agrees job event)
    (hopen : job.status.isUnfinished = true) : event.status.isLive = true := by
  obtain ⟨hdone, hdead⟩ := h
  cases hjob : job.status <;> rw [hjob] at hopen hdone hdead <;> cases hopen <;>
    cases hevent : event.status <;> simp [hevent] at hdone hdead <;> rfl

theorem worked_apply {e : Ending P} (he : e.Bearing) {k : Nat} {job : ProcessingJob P} (hjob : db.jobs.get? k = some job) :
    Worked (fun i => i = k ∧ (e.row job).status.isUnfinished = false) db (e.apply db k job) := by
  have hopen : ¬(k = k ∧ (e.row job).status.isUnfinished = false) → (e.row job).status.isUnfinished = true := by
    intro hnot
    exact Bool.eq_true_of_not_eq_false fun hfalse => hnot ⟨rfl, hfalse⟩
  refine worked_one hjob (e.apply_jobs db k job) ?_ ⟨he.job job, he.jobPayload job, fun _ => hopen⟩
    (f := e.event (e.row job)) fun v event hcarries => ?_
  · rw [e.apply_events, updateEvent]
    cases job.outboxEventId <;> rfl
  · refine ⟨(he.event _ event).1, he.eventPayload _ event, fun _ hnone => ?_⟩
    exact live_of_agrees (he.agrees job event) (hopen (hnone k job hjob hcarries))

theorem worked_applyEach {e : Ending P} (he : e.Bearing) (rows : List (Nat × ProcessingJob P)) (hrows : Rows db rows) :
    Worked (fun i => ∃ job, (i, job) ∈ rows ∧ (e.row job).status.isUnfinished = false) db (e.applyEach rows db) := by
  induction rows generalizing db with
  | nil => exact .refl _ db
  | cons r rows ih =>
    refine ((worked_apply he (hrows.current r List.mem_cons_self)).trans (ih (Ending.rows_tail hrows))).mono ?_
    rintro k (⟨rfl, hclosed⟩ | ⟨job, hmem, hclosed⟩)
    · exact ⟨r.2, List.mem_cons_self, hclosed⟩
    · exact ⟨job, List.mem_cons_of_mem _ hmem, hclosed⟩

theorem worked_claimEach (cfg : Config) (w : String) (now : Time) (rows : List (Nat × ProcessingJob P))
    (hrows : Rows db rows) : Worked E db (claimEach cfg w now rows db).2 := by
  induction rows generalizing db with
  | nil => exact .refl E db
  | cons r rows ih =>
    have hone : Worked E db (claimOne cfg w now db r.1 r.2) := by
      refine worked_one (f := id) (hrows.current r List.mem_cons_self) rfl ?_ ⟨⟨rfl, rfl, rfl, rfl, rfl⟩, rfl, fun _ _ => rfl⟩
        fun e event _ => .refl _ E e event
      rw [updateEvent_events]
      simp only [id, ite_self, mapRows_id]
      rfl
    refine (hone.trans (ih (rows_claimOne cfg w now hrows))).mono ?_
    rintro k (h | h) <;> exact h

/-- **A call leaves open what does not end for good in it.** -/
theorem worked_step (cfg : Config) (db : Db P) (input : Call × Time) :
    Worked (fun k => ∃ job, db.jobs.get? k = some job ∧ ends input k job = true) db (step cfg db input).2 := by
  obtain ⟨call, now⟩ := input
  cases call with
  | claimJobs w limit => exact worked_claimEach cfg w now _ (rows_selectForClaim db limit now)
  | heartbeat j w =>
    have hout : (step cfg db (.heartbeat j w, now)).2 = (heartbeat cfg db j w now).2 := by simp only [step]
    rw [hout, heartbeat_eq]
    split
    · exact .refl _ db
    · next job hjob =>
      split
      · refine worked_one (f := id) hjob rfl ?_ ⟨⟨rfl, rfl, rfl, rfl, rfl⟩, rfl, fun h _ => h⟩ fun e event _ => .refl _ _ e event
        rw [updateEvent_events]
        simp only [id, ite_self, mapRows_id]
      · exact .refl _ db
  | complete j w =>
    have hout : (step cfg db (.complete j w, now)).2 = (complete db j w now).2 := by simp only [step]
    rw [hout, complete]
    split
    · exact .refl _ db
    · next job hjob =>
      split
      · next howns =>
        refine (worked_apply (completing_bearing now) hjob).mono ?_
        rintro k ⟨rfl, -⟩
        exact ⟨job, hjob, by simp [ends, howns]⟩
      · exact .refl _ db
  | fail j w code message retryable =>
    have hout : (step cfg db (.fail j w code message retryable, now)).2 =
        (fail cfg db j w code message retryable now).2 := by simp only [step]
    rw [hout, fail]
    split
    · exact .refl _ db
    · next job hjob =>
      split
      · next howns =>
        refine (worked_apply (failing_bearing cfg code message retryable now) hjob).mono ?_
        rintro k ⟨rfl, hclosed⟩
        refine ⟨job, hjob, ?_⟩
        simp only [failing, failedRow, unlocked] at hclosed
        split at hclosed
        · cases hclosed
        · next hnot => simp only [ends, howns, hnot, decide_true, Bool.and_self, Bool.not_false]
      · exact .refl _ db
  | sweepExpired =>
    have hout : (step cfg db (.sweepExpired, now)).2 = (sweeping now).applyEach (db.jobs.select (expired now)) db := by
      rw [← sweepEach_eq_applyEach]
      rfl
    rw [hout]
    refine (worked_applyEach (sweeping_bearing now) _ (rows_select db (expired now))).mono ?_
    rintro k ⟨job, hmem, hclosed⟩
    obtain ⟨hjob, hexpired⟩ := (db.jobs.mem_select _ k job).mp hmem
    refine ⟨job, hjob, ?_⟩
    simp only [sweeping, sweptRow, unlocked] at hclosed
    split at hclosed
    · cases hclosed
    · next hnot => simp [ends, hexpired, hnot]

/-! ## Dispatch -/

/-- The jobs are there as they were, with new ones of events; the events go on. -/
structure Dispatched (db db' : Db P) : Prop where
  jobs : ∀ k job, db.jobs.get? k = some job → db'.jobs.get? k = some job
  jobsBack : ∀ k row, db'.jobs.get? k = some row → db.jobs.get? k = some row ∨
    ∃ e event, row.outboxEventId = some e ∧ db.events.get? e = some event ∧ row.payload = event.payload
  events : ∀ e event, db.events.get? e = some event →
    ∃ row, db'.events.get? e = some row ∧ EventMove db.jobs (fun _ => False) e event row
  eventsBack : ∀ e row, db'.events.get? e = some row →
    ∃ event, db.events.get? e = some event ∧ EventMove db.jobs (fun _ => False) e event row

theorem Dispatched.refl (db : Db P) : Dispatched db db :=
  ⟨fun _ _ h => h, fun _ _ h => Or.inl h, fun e event h => ⟨event, h, .refl _ _ e event⟩,
    fun e event h => ⟨event, h, .refl _ _ e event⟩⟩

/-- A move in which no job ends. -/
theorem EventMove.step {jobs jobs' : Table (ProcessingJob P)} {e : Nat} {event row last : OutboxEvent P}
    (h : EventMove jobs (fun _ => False) e event row) (h' : EventMove jobs' (fun _ => False) e row last) :
    EventMove jobs (fun _ => False) e event last :=
  ⟨h.same.trans h'.same, h'.payload.trans h.payload,
    fun hlive _ => h'.live (h.live hlive fun _ _ _ _ hfalse => hfalse) fun _ _ _ _ hfalse => hfalse⟩

theorem Dispatched.trans (h : Dispatched db db') (h' : Dispatched db' db'') : Dispatched db db'' := by
  constructor
  case jobs => exact fun k job hjob => h'.jobs k job (h.jobs k job hjob)
  case jobsBack =>
    intro k last hlast
    rcases h'.jobsBack k last hlast with hrow | ⟨e, row, hcarries, hrow, hpayload⟩
    · exact h.jobsBack k last hrow
    · obtain ⟨event, hevent, hmove⟩ := h.eventsBack e row hrow
      exact Or.inr ⟨e, event, hcarries, hevent, hpayload.trans hmove.payload⟩
  case events =>
    intro e event hevent
    obtain ⟨row, hrow, hmove⟩ := h.events e event hevent
    obtain ⟨last, hlast, hmove'⟩ := h'.events e row hrow
    exact ⟨last, hlast, hmove.step hmove'⟩
  case eventsBack =>
    intro e last hlast
    obtain ⟨row, hrow, hmove'⟩ := h'.eventsBack e last hlast
    obtain ⟨event, hevent, hmove⟩ := h.eventsBack e row hrow
    exact ⟨event, hevent, hmove.step hmove'⟩

/-- One event is dispatched, perhaps with a new job. -/
theorem dispatched_one (d : Dispatch) (spec : JobSpec) {e : Nat} {event current : OutboxEvent P}
    (hcurrent : db.events.get? e = some current) (hpayload : current.payload = event.payload)
    (hevents : db'.events = db.events.modify e (dispatchedEvent d.workerId d.leaseSeconds d.now))
    (hjobs : db'.jobs = db.jobs ∨ db'.jobs = db.jobs.insert (newJob e event spec d.serverNow)) : Dispatched db db' := by
  have hmove : ∀ i row, EventMove db.jobs (fun _ => False) i row
      (if i = e then dispatchedEvent d.workerId d.leaseSeconds d.now row else row) := by
    intro i row
    split
    · exact ⟨⟨rfl, rfl, rfl, rfl, rfl, rfl⟩, rfl, fun _ _ => rfl⟩
    · exact .refl _ _ i row
  constructor
  case jobs =>
    intro k job hjob
    rcases hjobs with hsame | hinsert
    · rw [hsame]
      exact hjob
    · rw [hinsert, Table.get?_insert_ne _ _ (Nat.ne_of_lt (db.jobs.lt_nextId hjob))]
      exact hjob
  case jobsBack =>
    intro k row hrow
    rcases hjobs with hsame | hinsert
    · rw [hsame] at hrow
      exact Or.inl hrow
    · rw [hinsert] at hrow
      rcases Table.get?_insert_cases hrow with ⟨-, rfl⟩ | ⟨-, hold⟩
      · exact Or.inr ⟨e, current, rfl, hcurrent, hpayload.symm⟩
      · exact Or.inl hold
  case events =>
    intro i row hrow
    exact ⟨_, by rw [hevents, Table.get?_modify, hrow]; rfl, hmove i row⟩
  case eventsBack =>
    intro i last hlast
    rw [hevents, Table.get?_modify] at hlast
    obtain ⟨row, hrow, rfl⟩ := Option.map_eq_some_iff.mp hlast
    exact ⟨row, hrow, hmove i row⟩

theorem dispatched_dispatchEach (host : Host P) (projects : Table String) (d : Dispatch) (rows : List (Nat × OutboxEvent P))
    (hrows : ∀ r ∈ rows, ∃ current, db.events.get? r.1 = some current ∧ current.payload = r.2.payload)
    (h : dispatchEach host projects d rows db = .ok db') : Dispatched db db' := by
  induction rows generalizing db with
  | nil =>
    cases h
    exact .refl _
  | cons r rows ih =>
    rw [dispatchEach] at h
    split at h
    · cases h
    · next middle hone =>
      obtain ⟨current, hcurrent, hpayload⟩ := hrows r List.mem_cons_self
      have hfirst : Dispatched db middle := by
        unfold dispatchEvent at hone
        split at hone
        · cases hone
        · next spec _ =>
          simp only at hone
          split at hone
          · cases hone
            exact dispatched_one d spec hcurrent hpayload rfl (Or.inl rfl)
          · split at hone
            · cases hone
            · cases hone
              exact dispatched_one d spec hcurrent hpayload rfl (Or.inr rfl)
      refine hfirst.trans (ih (fun q hq => ?_) h)
      obtain ⟨before, hbefore, hsame⟩ := hrows q (List.mem_cons_of_mem _ hq)
      obtain ⟨row, hrow, hmove⟩ := hfirst.events q.1 before hbefore
      exact ⟨row, hrow, hmove.payload.trans hsame⟩

/-- **A dispatch leaves everything open.** -/
theorem dispatched_dispatchOnce (host : Host P) (projects : Table String) (d : Dispatch) (limit : Nat)
    (exclude : List String) (db : Db P) : Dispatched db (dispatchOnce host projects d limit exclude db).2 := by
  rw [dispatchOnce]
  split
  · exact .refl db
  · next out hout =>
    refine dispatched_dispatchEach host projects d _ (fun r hr => ⟨r.2, ?_, rfl⟩) hout
    exact (mem_selectForDispatch hr).1

end

end CodexMemory.Worker
