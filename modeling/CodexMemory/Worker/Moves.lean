import CodexMemory.Worker.Operations
import CodexMemory.Worker.Story

/-!
# What one step of the queue is made of

Every operation on the queue is a sequence of small moves (`Move`): one job is
claimed, beaten, ended or put back, some are cancelled, events are written, a job
is added.  `step_path` says so for each operation and is the only place where
their bodies are unfolded for jobs and attempts; an invariant of jobs and attempts
is proved for the moves alone (`path_invariant`).
-/

namespace CodexMemory.Worker

variable {P : Type}

/-! ## Moves -/

/-- What a move counts as: a claim of a job, an operator's requeue of a job, or
the cancelling of a running job. -/
inductive Label
  | claim (jobId : Nat)
  | requeue (jobId : Nat)
  | stop
  | other
  deriving DecidableEq

/-- What the three endings of a running job have in common. -/
structure Ending.Proper (e : Ending P) : Prop where
  unlocks : ∀ job, (e.row job).lockedBy = none ∧ (e.row job).lockedAt = none ∧
    (e.row job).heartbeatAt = none ∧ (e.row job).leaseExpiresAt = none
  maxAttempts : ∀ job, (e.row job).maxAttempts = job.maxAttempts
  status : ∀ job, (e.row job).status = .succeeded ∨ (e.row job).status = .dead ∨
    ((e.row job).status = .retryWait ∧ job.attemptCount < job.maxAttempts)
  outcome : ∀ job a, (e.attempt job a).outcome ≠ .running

theorem completing_proper (now : Time) : (completing (P := P) now).Proper where
  unlocks _ := ⟨rfl, rfl, rfl, rfl⟩
  maxAttempts _ := rfl
  status _ := Or.inl rfl
  outcome _ _ := by simp [completing, completedAttempt]

theorem failing_proper (cfg : Config) (code message : String) (retryable : Bool) (now : Time) :
    (failing (P := P) cfg code message retryable now).Proper where
  unlocks _ := ⟨rfl, rfl, rfl, rfl⟩
  maxAttempts _ := rfl
  status job := by
    simp only [failing, failedRow, unlocked]
    split
    · next h =>
      rw [Bool.and_eq_true, decide_eq_true_eq] at h
      exact Or.inr (Or.inr ⟨rfl, h.2⟩)
    · exact Or.inr (Or.inl rfl)
  outcome _ _ := by simp [failing, failedAttempt]

theorem sweeping_proper (now : Time) : (sweeping (P := P) now).Proper where
  unlocks _ := ⟨rfl, rfl, rfl, rfl⟩
  maxAttempts _ := rfl
  status job := by
    simp only [sweeping, sweptRow, unlocked]
    split
    · next h => exact Or.inr (Or.inr ⟨rfl, h⟩)
    · exact Or.inr (Or.inl rfl)
  outcome _ a := by
    simp only [sweeping, sweptAttempt]
    split
    · simp
    · next h => exact h

/-- A row that an operator puts back. -/
def Requeued (job row : ProcessingJob P) : Prop :=
  ∃ now, row = retriedRow now job ∨ row = replayedRow now job ∨ row = requeuedRow now job

/-- A job that was never claimed. -/
def Unclaimed (job : ProcessingJob P) : Prop :=
  job.status = .pending ∧ job.attemptCount = 0 ∧ job.lockedBy = none ∧ job.lockedAt = none ∧
    job.heartbeatAt = none ∧ job.leaseExpiresAt = none

/-- The statuses in which a job can be cancelled. -/
def JobStatus.canCancel : JobStatus → Bool
  | .pending | .running | .retryWait => true
  | _ => false

/-- The statuses from which an operator puts a job back. -/
def JobStatus.canRequeue : JobStatus → Bool
  | .dead | .retryWait | .cancelled => true
  | _ => false

theorem canCancel_iff {status : JobStatus} :
    status.canCancel = true ↔ status = .pending ∨ status = .running ∨ status = .retryWait := by
  cases status <;> simp [JobStatus.canCancel]

theorem canRequeue_iff {status : JobStatus} :
    status.canRequeue = true ↔ status = .dead ∨ status = .retryWait ∨ status = .cancelled := by
  cases status <;> simp [JobStatus.canRequeue]

/-- One move, with what it counts as. -/
inductive Move : Db P → Label → Db P → Prop
  | claimed {db : Db P} {k : Nat} {job : ProcessingJob P} (cfg : Config) (w : String) (now : Time)
      (hjob : db.jobs.get? k = some job) (hstatus : job.status = .pending ∨ job.status = .retryWait) :
      Move db (.claim k) (claimOne cfg w now db k job)
  | beaten {db : Db P} {k : Nat} {job : ProcessingJob P} (cfg : Config) (now : Time)
      (hjob : db.jobs.get? k = some job) (hstatus : job.status = .running) :
      Move db .other { db with jobs := db.jobs.modify k fun _ => heartbeatRow cfg now job }
  | ended {db : Db P} {k : Nat} {job : ProcessingJob P} {e : Ending P} (he : e.Proper)
      (hjob : db.jobs.get? k = some job) (hstatus : job.status = .running) :
      Move db .other (e.apply db k job)
  | requeued {db : Db P} {k : Nat} {job row : ProcessingJob P} (hjob : db.jobs.get? k = some job)
      (hstatus : job.status.canRequeue = true) (hrow : Requeued job row) :
      Move db (.requeue k) { db with jobs := db.jobs.modify k fun _ => row }
  | cancelled {db : Db P} (hit : Nat → ProcessingJob P → Bool) (reason : String) (now : Time)
      (hopen : ∀ k job, db.jobs.get? k = some job → hit k job = true → job.status.canCancel = true)
      (hidle : ∀ k job, db.jobs.get? k = some job → hit k job = true → job.status ≠ .running) :
      Move db .other { db with
        jobs := db.jobs.mapRows fun k job => if hit k job then cancelledRow reason now job else job }
  | stopped {db : Db P} (hit : Nat → ProcessingJob P → Bool) (reason : String) (now : Time)
      (hopen : ∀ k job, db.jobs.get? k = some job → hit k job = true → job.status.canCancel = true) :
      Move db .stop { db with
        jobs := db.jobs.mapRows fun k job => if hit k job then cancelledRow reason now job else job }
  | wrote {db : Db P} (f : Nat → OutboxEvent P → OutboxEvent P) :
      Move db .other { db with events := db.events.mapRows f }
  | created {db : Db P} {job : ProcessingJob P} (hnew : Unclaimed job) :
      Move db .other { db with jobs := db.jobs.insert job }

/-- A sequence of moves with their labels. -/
inductive Path : Db P → List Label → Db P → Prop
  | nil (db : Db P) : Path db [] db
  | cons {db db' db'' : Db P} {label : Label} {labels : List Label} (hmove : Move db label db')
      (hpath : Path db' labels db'') : Path db (label :: labels) db''

theorem Move.path {db db' : Db P} {label : Label} (h : Move db label db') : Path db [label] db' :=
  .cons h (.nil db')

theorem Path.append {db db' db'' : Db P} {labels labels' : List Label} (h : Path db labels db')
    (h' : Path db' labels' db'') : Path db (labels ++ labels') db'' := by
  induction h with
  | nil => exact h'
  | cons hmove hpath ih => exact .cons hmove (ih h')

/-- **Path rule.**  What every move keeps, every path keeps. -/
theorem path_invariant {Inv : Db P → Prop} {allowed : Label → Prop}
    (hmove : ∀ db label db', Inv db → allowed label → Move db label db' → Inv db') {db db' : Db P}
    {labels : List Label} (h : Path db labels db') (hlabels : ∀ label ∈ labels, allowed label)
    (hinv : Inv db) : Inv db' := by
  induction h with
  | nil => exact hinv
  | cons hstep hpath ih =>
    exact ih (fun label hlabel => hlabels label (List.mem_cons_of_mem _ hlabel))
      (hmove _ _ _ hinv (hlabels _ List.mem_cons_self) hstep)

/-! ## What a move does to one row -/

/-- What a move with this label does to the row of job `k`. -/
inductive RowMove (k : Nat) (job : ProcessingJob P) : Label → ProcessingJob P → Prop
  | claimed (cfg : Config) (w : String) (now : Time)
      (hstatus : job.status = .pending ∨ job.status = .retryWait) :
      RowMove k job (.claim k) (claimedRow cfg w now job)
  | beaten (cfg : Config) (now : Time) (hstatus : job.status = .running) :
      RowMove k job .other (heartbeatRow cfg now job)
  | ended {e : Ending P} (he : e.Proper) (hstatus : job.status = .running) : RowMove k job .other (e.row job)
  | requeued {row : ProcessingJob P} (hstatus : job.status.canRequeue = true) (hrow : Requeued job row) :
      RowMove k job (.requeue k) row
  | cancelled {label : Label} (hlabel : label = .other ∨ label = .stop) (reason : String) (now : Time)
      (hopen : job.status.canCancel = true) : RowMove k job label (cancelledRow reason now job)
  | kept {label : Label} (hclaim : label ≠ .claim k) (hrequeue : label ≠ .requeue k) : RowMove k job label job

/-- A row rewritten under one key. -/
theorem get?_modify_cases {jobs : Table (ProcessingJob P)} {j k : Nat} {job row row' : ProcessingJob P}
    (hjob : jobs.get? j = some job) (h : (jobs.modify j fun _ => row).get? k = some row') :
    (k = j ∧ row' = row ∧ jobs.get? k = some job) ∨ (k ≠ j ∧ jobs.get? k = some row') := by
  by_cases hk : k = j
  · subst hk
    rw [Table.get?_modify_self, hjob] at h
    exact Or.inl ⟨rfl, (Option.some.inj h).symm, hjob⟩
  · rw [Table.get?_modify_ne _ _ hk] at h
    exact Or.inr ⟨hk, h⟩

/-- The rows after some jobs are cancelled. -/
theorem get?_cancel_cases {jobs : Table (ProcessingJob P)} {hit : Nat → ProcessingJob P → Bool} {reason : String}
    {now : Time} {k : Nat} {row' : ProcessingJob P}
    (h : (jobs.mapRows fun k job => if hit k job then cancelledRow reason now job else job).get? k = some row') :
    ∃ row, jobs.get? k = some row ∧
      ((hit k row = true ∧ row' = cancelledRow reason now row) ∨ row' = row) := by
  rw [Table.get?_mapRows] at h
  obtain ⟨row, hrow, rfl⟩ := Option.map_eq_some_iff.mp h
  refine ⟨row, hrow, ?_⟩
  split
  · next hhit => exact Or.inl ⟨hhit, rfl⟩
  · exact Or.inr rfl

/-- **A move, seen from one row**: the row is new and unclaimed, or it was there
and has been rewritten by a row move. -/
theorem Move.row {db db' : Db P} {label : Label} (h : Move db label db') {k : Nat} {row' : ProcessingJob P}
    (hrow' : db'.jobs.get? k = some row') :
    (∃ row, db.jobs.get? k = some row ∧ RowMove k row label row') ∨
      (db.jobs.get? k = none ∧ Unclaimed row' ∧ label = .other) := by
  cases h with
  | @claimed k₁ job cfg w now hjob hstatus =>
    rcases get?_modify_cases hjob hrow' with ⟨rfl, rfl, hk⟩ | ⟨hne, hk⟩
    · exact Or.inl ⟨job, hk, .claimed cfg w now hstatus⟩
    · exact Or.inl ⟨row', hk, .kept (fun h => hne (Label.claim.inj h).symm) (by simp)⟩
  | @beaten k₁ job cfg now hjob hstatus =>
    rcases get?_modify_cases hjob hrow' with ⟨rfl, rfl, hk⟩ | ⟨hne, hk⟩
    · exact Or.inl ⟨job, hk, .beaten cfg now hstatus⟩
    · exact Or.inl ⟨row', hk, .kept (by simp) (by simp)⟩
  | @ended k₁ job e he hjob hstatus =>
    rw [Ending.apply_jobs] at hrow'
    rcases get?_modify_cases hjob hrow' with ⟨rfl, rfl, hk⟩ | ⟨hne, hk⟩
    · exact Or.inl ⟨job, hk, .ended he hstatus⟩
    · exact Or.inl ⟨row', hk, .kept (by simp) (by simp)⟩
  | @requeued k₁ job row hjob hstatus hrow =>
    rcases get?_modify_cases hjob hrow' with ⟨rfl, rfl, hk⟩ | ⟨hne, hk⟩
    · exact Or.inl ⟨job, hk, .requeued hstatus hrow⟩
    · exact Or.inl ⟨row', hk, .kept (by simp) (fun h => hne (Label.requeue.inj h).symm)⟩
  | cancelled hit reason now hopen hidle =>
    obtain ⟨row, hrow, ⟨hhit, rfl⟩ | rfl⟩ := get?_cancel_cases hrow'
    · exact Or.inl ⟨row, hrow, .cancelled (Or.inl rfl) reason now (hopen k row hrow hhit)⟩
    · exact Or.inl ⟨row', hrow, .kept (by simp) (by simp)⟩
  | stopped hit reason now hopen =>
    obtain ⟨row, hrow, ⟨hhit, rfl⟩ | rfl⟩ := get?_cancel_cases hrow'
    · exact Or.inl ⟨row, hrow, .cancelled (Or.inr rfl) reason now (hopen k row hrow hhit)⟩
    · exact Or.inl ⟨row', hrow, .kept (by simp) (by simp)⟩
  | wrote f => exact Or.inl ⟨row', hrow', .kept (by simp) (by simp)⟩
  | @created job hnew =>
    by_cases hk : k = db.jobs.nextId
    · subst hk
      have hself : (db.jobs.insert job).get? db.jobs.nextId = some row' := hrow'
      rw [Table.get?_insert_self] at hself
      obtain rfl := Option.some.inj hself
      exact Or.inr ⟨db.jobs.get?_nextId, hnew, rfl⟩
    · have hold : (db.jobs.insert job).get? k = some row' := hrow'
      rw [Table.get?_insert_ne _ _ hk] at hold
      exact Or.inl ⟨row', hold, .kept (by simp) (by simp)⟩

/-! ## The worker -/

theorem claimEach_path (cfg : Config) (w : String) (now : Time) (rows : List (Nat × ProcessingJob P))
    {db : Db P} (hrows : Rows db rows)
    (hstatus : ∀ r ∈ rows, r.2.status = .pending ∨ r.2.status = .retryWait) :
    Path db (rows.map fun r => .claim r.1) (claimEach cfg w now rows db).2 := by
  induction rows generalizing db with
  | nil => exact .nil db
  | cons r rows ih =>
    refine .cons (.claimed cfg w now (hrows.current r List.mem_cons_self) (hstatus r List.mem_cons_self)) ?_
    exact ih (rows_claimOne cfg w now hrows) fun q hq => hstatus q (List.mem_cons_of_mem _ hq)

theorem Ending.applyEach_path {e : Ending P} (he : e.Proper) (rows : List (Nat × ProcessingJob P)) {db : Db P}
    (hrows : Rows db rows) (hstatus : ∀ r ∈ rows, r.2.status = .running) :
    Path db (rows.map fun _ => .other) (e.applyEach rows db) := by
  induction rows generalizing db with
  | nil => exact .nil db
  | cons r rows ih =>
    refine .cons (.ended he (hrows.current r List.mem_cons_self) (hstatus r List.mem_cons_self)) ?_
    exact ih (Ending.rows_tail hrows) fun q hq => hstatus q (List.mem_cons_of_mem _ hq)

theorem rows_select (db : Db P) (p : ProcessingJob P → Bool) : Rows db (db.jobs.select p) :=
  ⟨db.jobs.select_keys_nodup p, fun r hr => ((db.jobs.mem_select p r.1 r.2).mp hr).1⟩

theorem expired_status {now : Time} {job : ProcessingJob P} (h : expired now job = true) :
    job.status = .running := by
  simp only [expired, Bool.and_eq_true, decide_eq_true_eq] at h
  exact h.1

theorem ownsLiveJob_status {job : ProcessingJob P} {w : String} {now : Time}
    (h : ownsLiveJob (some job) w now = true) : job.status = .running := by
  rw [ownsLiveJob] at h
  split at h
  · cases h
  · next hnot => exact Classical.not_not.mp fun hne => hnot (Or.inl hne)

theorem sweepEach_eq_applyEach (now : Time) (rows : List (Nat × ProcessingJob P)) (db : Db P) :
    sweepEach now rows db = (sweeping now).applyEach rows db := by
  induction rows generalizing db with
  | nil => rfl
  | cons r rows ih => exact ih _

/-- The keys that a reply claims. -/
def claimedIn (k : Nat) : Reply P → Nat
  | .claims claims => claims.countP fun c => c.jobId = k
  | _ => 0

/-- **One call of the worker**: its claims, or moves that count as nothing. -/
theorem worker_path (cfg : Config) (db : Db P) (input : Call × Time) :
    ∃ labels, Path db labels (step cfg db input).2 ∧
      (∀ label ∈ labels, label = .other ∨ ∃ k, label = .claim k) ∧
      ∀ k, labels.count (.claim k) = claimedIn k (step cfg db input).1 := by
  have hnone : ∀ labels : List Label, (∀ label ∈ labels, label = .other) → ∀ k, labels.count (.claim k) = 0 := by
    intro labels hall k
    refine List.count_eq_zero.mpr fun hmem => ?_
    cases hall _ hmem
  have hidle : ∃ labels, Path db labels db ∧ (∀ label ∈ labels, label = .other ∨ ∃ k, label = .claim k) ∧
      ∀ k, labels.count (.claim k) = 0 := ⟨[], .nil db, fun _ h => (nomatch h), fun _ => rfl⟩
  have hone : ∀ {db'}, Move db .other db' → ∃ labels, Path db labels db' ∧
      (∀ label ∈ labels, label = .other ∨ ∃ k, label = .claim k) ∧ ∀ k, labels.count (.claim k) = 0 := by
    intro db' hmove
    have hother : ∀ label ∈ [Label.other], label = .other := fun _ h => List.mem_singleton.mp h
    exact ⟨_, hmove.path, fun label h => Or.inl (hother label h), hnone _ hother⟩
  obtain ⟨call, now⟩ := input
  cases call with
  | claimJobs w limit =>
    refine ⟨_, claimEach_path cfg w now _ (rows_selectForClaim db limit now) fun r hr =>
      claimable_status (mem_selectForClaim hr).2, fun label hlabel => ?_, fun k => ?_⟩
    · obtain ⟨r, -, rfl⟩ := List.mem_map.mp hlabel
      exact Or.inr ⟨r.1, rfl⟩
    · show _ = claimedIn k (.claims (claimEach cfg w now (selectForClaim db limit now) db).1)
      rw [claimEach_claims, claimedIn, List.countP_map, List.count, List.countP_map]
      congr 1
      funext r
      rw [Bool.eq_iff_iff]
      simp [claimOf]
  | heartbeat j w =>
    have hout : (step cfg db (.heartbeat j w, now)).2 = (heartbeat cfg db j w now).2 := by simp only [step]
    rw [hout, heartbeat_eq]
    split
    · exact hidle
    · next job hjob =>
      split
      · next howns => exact hone (.beaten cfg now hjob (ownsLiveJob_status howns))
      · exact hidle
  | complete j w =>
    have hout : (step cfg db (.complete j w, now)).2 = (complete db j w now).2 := by simp only [step]
    rw [hout, complete]
    split
    · exact hidle
    · next job hjob =>
      split
      · next howns => exact hone (.ended (completing_proper now) hjob (ownsLiveJob_status howns))
      · exact hidle
  | fail j w code message retryable =>
    have hout : (step cfg db (.fail j w code message retryable, now)).2 =
        (fail cfg db j w code message retryable now).2 := by simp only [step]
    rw [hout, fail]
    split
    · exact hidle
    · next job hjob =>
      split
      · next howns =>
        exact hone (.ended (failing_proper cfg code message retryable now) hjob (ownsLiveJob_status howns))
      · exact hidle
  | sweepExpired =>
    have hpath := (Ending.applyEach_path (sweeping_proper now) _ (rows_select db (expired now)) fun r hr =>
      expired_status ((db.jobs.mem_select _ r.1 r.2).mp hr).2)
    rw [← sweepEach_eq_applyEach] at hpath
    have hother : ∀ label ∈ (db.jobs.select (expired now)).map fun _ => Label.other, label = .other := by
      intro label hlabel
      obtain ⟨r, -, rfl⟩ := List.mem_map.mp hlabel
      rfl
    exact ⟨_, hpath, fun label hlabel => Or.inl (hother label hlabel), hnone _ hother⟩

/-! ## The other operations -/

/-- A step that writes only events. -/
theorem updateEvent_path (db : Db P) (job : ProcessingJob P) (f : OutboxEvent P → OutboxEvent P) :
    ∃ labels, Path db labels (updateEvent db job f) ∧ ∀ label ∈ labels, label = .other := by
  rw [updateEvent]
  split
  · exact ⟨[], .nil db, by rintro _ ⟨⟩⟩
  · exact ⟨[.other], (Move.wrote _).path, fun _ h => List.mem_singleton.mp h⟩

theorem newJob_unclaimed (eventId : Nat) (event : OutboxEvent P) (spec : JobSpec) (serverNow : Time) :
    Unclaimed (newJob eventId event spec serverNow) := ⟨rfl, rfl, rfl, rfl, rfl, rfl⟩

theorem dispatchEvent_path {host : Host P} {projects : Table String} {d : Dispatch} {eventId : Nat}
    {event : OutboxEvent P} {db db' : Db P} (h : dispatchEvent host projects d eventId event db = .ok db') :
    ∃ labels, Path db labels db' ∧ ∀ label ∈ labels, label = .other := by
  rw [dispatchEvent] at h
  split at h
  · cases h
  · next spec hspec =>
    simp only at h
    split at h
    · obtain rfl := Except.ok.inj h
      exact ⟨[.other], (Move.wrote _).path, fun _ h => List.mem_singleton.mp h⟩
    · split at h
      · cases h
      · obtain rfl := Except.ok.inj h
        have hwrote : Move db .other
            { db with events := db.events.modify eventId (dispatchedEvent d.workerId d.leaseSeconds d.now) } :=
          .wrote _
        refine ⟨[.other, .other], .cons hwrote
          (Move.created (newJob_unclaimed eventId event spec d.serverNow)).path, ?_⟩
        intro label hlabel
        simpa using hlabel

theorem dispatchEach_path {host : Host P} {projects : Table String} {d : Dispatch}
    (rows : List (Nat × OutboxEvent P)) {db db' : Db P} (h : dispatchEach host projects d rows db = .ok db') :
    ∃ labels, Path db labels db' ∧ ∀ label ∈ labels, label = .other := by
  induction rows generalizing db with
  | nil =>
    obtain rfl := Except.ok.inj h
    exact ⟨[], .nil db, fun _ h => nomatch h⟩
  | cons r rows ih =>
    rw [dispatchEach] at h
    split at h
    · cases h
    · next db₁ hdb₁ =>
      obtain ⟨labels₁, hpath₁, hother₁⟩ := dispatchEvent_path hdb₁
      obtain ⟨labels₂, hpath₂, hother₂⟩ := ih h
      exact ⟨labels₁ ++ labels₂, hpath₁.append hpath₂, List.forall_mem_append.mpr ⟨hother₁, hother₂⟩⟩

/-- What passes the checks of a job endpoint. -/
theorem jobFor_ok {q : Queue P} {principal : Principal} {reason : Option String} {jobId : Nat}
    {statuses : JobStatus → Bool} {detail : String} {job : ProcessingJob P}
    (h : jobFor q principal reason jobId statuses detail = .ok job) :
    q.db.jobs.get? jobId = some job ∧ statuses job.status = true := by
  rw [jobFor] at h
  split at h
  · cases h
  · split at h
    · cases h
    · split at h
      · cases h
      · next job' hjob =>
        split at h
        · cases h
        · split at h
          · next hstatus =>
            obtain rfl := Except.ok.inj h
            exact ⟨hjob, hstatus⟩
          · cases h

theorem jobOfEvent_some {jobs : Table (ProcessingJob P)} {eventId k : Nat} {job : ProcessingJob P}
    (h : jobOfEvent jobs eventId = some (k, job)) :
    jobs.get? k = some job ∧ job.outboxEventId = some eventId :=
  ⟨(jobs.get?_eq_some_iff k job).mpr (List.mem_of_find?_eq_some h), by simpa using List.find?_some h⟩

/-- The operation puts job `k` back. -/
def requeues (q : Queue P) (k : Nat) : Operation → Bool
  | .retryAdminJob principal jobId => jobId = k && (retryFor q principal jobId).isOk
  | .replayAdminJob principal jobId reason => jobId = k && (replayFor q principal jobId reason).isOk
  | .replayAdminOutbox principal eventId reason => (replayEventFor q principal eventId reason).isOk &&
      match jobOfEvent q.db.jobs eventId with
      | none => false
      | some (i, job) => i = k && job.status.canRequeue
  | _ => false

/-- The operation cancels a job that is running. -/
def StopsRunning (host : Host P) (q : Queue P) : Operation → Prop
  | .cancelAdminJob principal jobId reason =>
    ∃ job, cancelFor q principal jobId reason = .ok job ∧ job.status = .running
  | .cancelImportBatch principal batchId => ∃ batch, batchFor q principal batchId = .ok batch ∧
    ∃ k job, q.db.jobs.get? k = some job ∧ importJob host batch.projectId batchId job = true ∧
      job.status = .running
  | _ => False

/-- The claims of job `k` in an answer. -/
def claimsIn (k : Nat) : Answer P → Nat
  | .worker reply => claimedIn k reply
  | _ => 0

/-- The labels of a step: its claims, its requeues, and a stop only if a running
job is cancelled. -/
structure Labelled (host : Host P) (q : Queue P) (input : Operation × Time) (labels : List Label) : Prop where
  claims : ∀ k, labels.count (.claim k) = claimsIn k (Queue.step host q input).1
  requeues : ∀ k, labels.count (.requeue k) = if requeues q k input.1 then 1 else 0
  stops : .stop ∈ labels → StopsRunning host q input.1

theorem labelled_other {host : Host P} {q : Queue P} {input : Operation × Time} {labels : List Label}
    (hlabels : ∀ label ∈ labels, label = .other) (hclaims : ∀ k, claimsIn k (Queue.step host q input).1 = 0)
    (hrequeues : ∀ k, Worker.requeues q k input.1 = false) : Labelled host q input labels := by
  have hnot : ∀ label, label ≠ .other → label ∉ labels := fun label hne hmem => hne (hlabels label hmem)
  refine ⟨fun k => ?_, fun k => ?_, fun hstop => absurd hstop (hnot _ (by decide))⟩
  · rw [hclaims, List.count_eq_zero.mpr (hnot _ (by simp))]
  · rw [hrequeues, List.count_eq_zero.mpr (hnot _ (by simp))]
    rfl

/-- The labels of a step that puts one job back, besides moves of no label. -/
theorem labelled_requeue {host : Host P} {q : Queue P} {input : Operation × Time} {labels : List Label} {j : Nat}
    (hlabels : ∀ label ∈ labels, label = .other) (hclaims : ∀ k, claimsIn k (Queue.step host q input).1 = 0)
    (hrequeues : ∀ k, Worker.requeues q k input.1 = decide (j = k)) :
    Labelled host q input (.requeue j :: labels) := by
  have hnot : ∀ label, label ≠ .other → label ∉ labels := fun label hne hmem => hne (hlabels label hmem)
  refine ⟨fun k => ?_, fun k => ?_, fun hstop => ?_⟩
  · rw [hclaims, List.count_cons_of_ne (by simp), List.count_eq_zero.mpr (hnot _ (by simp))]
  · rw [hrequeues, List.count_cons, List.count_eq_zero.mpr (hnot _ (by simp))]
    simp
  · rcases List.mem_cons.mp hstop with h | h
    · cases h
    · exact absurd h (hnot _ (by simp))

theorem retryAdminJob_path (host : Host P) (q : Queue P) (principal : Principal) (jobId : Nat) (now : Time) :
    ∃ labels, Path q.db labels (retryAdminJob q principal jobId now).2.db ∧
      Labelled host q (.retryAdminJob principal jobId, now) labels := by
  cases hfor : retryFor q principal jobId with
  | error e =>
    refine ⟨[], by rw [retryAdminJob, hfor]; exact .nil _,
      labelled_other (fun _ h => nomatch h) (fun _ => rfl) fun k => ?_⟩
    rw [requeues, hfor]
    exact Bool.and_false _
  | ok job =>
    obtain ⟨hjob, hstatus⟩ := jobFor_ok hfor
    refine ⟨[.requeue jobId], ?_, labelled_requeue (fun _ h => nomatch h) (fun _ => rfl) fun k => ?_⟩
    · rw [retryAdminJob, hfor]
      refine (Move.requeued hjob (canRequeue_iff.mpr ?_) ⟨now, Or.inl rfl⟩).path
      simp only [Bool.or_eq_true, decide_eq_true_eq] at hstatus
      exact hstatus.imp_right Or.inl
    · rw [requeues, hfor]
      exact Bool.and_true _

theorem replayAdminJob_path (host : Host P) (q : Queue P) (principal : Principal) (jobId : Nat)
    (reason : String) (now : Time) :
    ∃ labels, Path q.db labels (replayAdminJob q principal jobId reason now).2.db ∧
      Labelled host q (.replayAdminJob principal jobId reason, now) labels := by
  cases hfor : replayFor q principal jobId reason with
  | error e =>
    refine ⟨[], by rw [replayAdminJob, hfor]; exact .nil _,
      labelled_other (fun _ h => nomatch h) (fun _ => rfl) fun k => ?_⟩
    rw [requeues, hfor]
    exact Bool.and_false _
  | ok job =>
    obtain ⟨hjob, hstatus⟩ := jobFor_ok hfor
    have hmove : Move q.db (.requeue jobId)
        { q.db with jobs := q.db.jobs.modify jobId fun _ => replayedRow now job } := by
      refine Move.requeued hjob (canRequeue_iff.mpr ?_) ⟨now, Or.inr (Or.inl rfl)⟩
      simp only [Bool.or_eq_true, decide_eq_true_eq] at hstatus
      exact or_assoc.mp hstatus
    obtain ⟨labels, hpath, hother⟩ := updateEvent_path
      { q.db with jobs := q.db.jobs.modify jobId fun _ => replayedRow now job } (replayedRow now job)
      (replayedEvent now)
    refine ⟨.requeue jobId :: labels, ?_, labelled_requeue hother (fun _ => rfl) fun k => ?_⟩
    · rw [replayAdminJob, hfor]
      exact .cons hmove hpath
    · rw [requeues, hfor]
      exact Bool.and_true _

theorem replayAdminOutbox_path (host : Host P) (q : Queue P) (principal : Principal) (eventId : Nat)
    (reason : String) (now : Time) :
    ∃ labels, Path q.db labels (replayAdminOutbox q principal eventId reason now).2.db ∧
      Labelled host q (.replayAdminOutbox principal eventId reason, now) labels := by
  cases hfor : replayEventFor q principal eventId reason with
  | error e =>
    refine ⟨[], by rw [replayAdminOutbox, hfor]; exact .nil _,
      labelled_other (fun _ h => nomatch h) (fun _ => rfl) fun k => ?_⟩
    rw [requeues, hfor]
    rfl
  | ok event =>
    have hwrote : Move q.db .other { q.db with events := q.db.events.modify eventId (replayedEvent now) } := .wrote _
    cases hfind : jobOfEvent q.db.jobs eventId with
    | none =>
      refine ⟨[.other], ?_, labelled_other (fun _ h => List.mem_singleton.mp h) (fun _ => rfl) fun k => ?_⟩
      · rw [replayAdminOutbox, hfor, hfind]
        exact hwrote.path
      · rw [requeues, hfor, hfind]
        rfl
    | some r =>
      obtain ⟨j, job⟩ := r
      obtain ⟨hjob, -⟩ := jobOfEvent_some hfind
      cases hstatus : job.status.canRequeue with
      | false =>
        refine ⟨[.other], ?_, labelled_other (fun _ h => List.mem_singleton.mp h) (fun _ => rfl) fun k => ?_⟩
        · rw [replayAdminOutbox, hfor]
          simp only [hfind]
          rw [if_neg]
          · exact hwrote.path
          · rw [← canRequeue_iff, hstatus]
            exact Bool.false_ne_true
        · rw [requeues, hfor, hfind]
          simp [hstatus]
      | true =>
        refine ⟨[.requeue j, .other], ?_,
          labelled_requeue (fun _ h => List.mem_singleton.mp h) (fun _ => rfl) fun k => ?_⟩
        · rw [replayAdminOutbox, hfor]
          simp only [hfind]
          rw [if_pos]
          · have hmove : Move q.db (.requeue j)
                { q.db with jobs := q.db.jobs.modify j fun _ => requeuedRow now job } :=
              Move.requeued hjob hstatus ⟨now, Or.inr (Or.inr rfl)⟩
            exact .cons hmove (Move.wrote fun i event => if i = eventId then replayedEvent now event else event).path
          · exact canRequeue_iff.mp hstatus
        · rw [requeues, hfor, hfind]
          simp [hstatus, Except.isOk, Except.toBool]

theorem cancelAdminJob_path (host : Host P) (q : Queue P) (principal : Principal) (jobId : Nat)
    (reason : String) (now : Time) :
    ∃ labels, Path q.db labels (cancelAdminJob q principal jobId reason now).2.db ∧
      Labelled host q (.cancelAdminJob principal jobId reason, now) labels := by
  cases hfor : cancelFor q principal jobId reason with
  | error e =>
    exact ⟨[], by rw [cancelAdminJob, hfor]; exact .nil _,
      labelled_other (fun _ h => nomatch h) (fun _ => rfl) fun _ => rfl⟩
  | ok job =>
    obtain ⟨hjob, hstatus⟩ := jobFor_ok hfor
    have hcancel : job.status.canCancel = true := by
      cases hs : job.status <;> rw [hs] at hstatus <;> first | rfl | cases hstatus
    -- the one row, as the rows that are hit
    have hrow : (q.db.jobs.modify jobId fun _ => cancelledRow (strip reason) now job) =
        q.db.jobs.mapRows fun k row =>
          if (fun k (_ : ProcessingJob P) => decide (k = jobId)) k row then cancelledRow (strip reason) now row
          else row := by
      rw [Table.modify_const _ hjob]
      simp [Table.modify]
    have hhit : ∀ k row, q.db.jobs.get? k = some row → decide (k = jobId) = true → row = job := by
      intro k row hrow hk
      rw [of_decide_eq_true hk, hjob] at hrow
      exact (Option.some.inj hrow).symm
    obtain ⟨labels, hpath, hother⟩ := updateEvent_path
      { q.db with jobs := q.db.jobs.modify jobId fun _ => cancelledRow (strip reason) now job }
      (cancelledRow (strip reason) now job) (cancelledJobEvent (strip reason))
    have hdb : (cancelAdminJob q principal jobId reason now).2.db = updateEvent
        { q.db with jobs := q.db.jobs.modify jobId fun _ => cancelledRow (strip reason) now job }
        (cancelledRow (strip reason) now job) (cancelledJobEvent (strip reason)) := by
      rw [cancelAdminJob, hfor]
    rw [hdb]
    by_cases hrunning : job.status = .running
    · refine ⟨.stop :: labels, .cons ?_ hpath, ?_⟩
      · rw [hrow]
        exact .stopped _ _ _ fun k row hk hd => by rw [hhit k row hk hd]; exact hcancel
      · have hnot : ∀ label, label ≠ .other → label ∉ labels := fun label hne hmem => hne (hother label hmem)
        refine ⟨fun k => ?_, fun k => ?_, fun _ => ⟨job, hfor, hrunning⟩⟩
        · rw [List.count_cons_of_ne (by simp), List.count_eq_zero.mpr (hnot _ (by simp))]
          rfl
        · rw [List.count_cons_of_ne (by simp), List.count_eq_zero.mpr (hnot _ (by simp))]
          rfl
    · refine ⟨.other :: labels, .cons ?_ hpath, labelled_other ?_ (fun _ => rfl) fun _ => rfl⟩
      · rw [hrow]
        exact .cancelled _ _ _ (fun k row hk hd => by rw [hhit k row hk hd]; exact hcancel)
          fun k row hk hd => by rw [hhit k row hk hd]; exact hrunning
      · exact List.forall_mem_cons.mpr ⟨rfl, hother⟩

theorem importJob_canCancel {host : Host P} {projectId batchId : Nat} {job : ProcessingJob P}
    (h : importJob host projectId batchId job = true) : job.status.canCancel = true := by
  rw [canCancel_iff]
  simp only [importJob, Bool.and_eq_true, Bool.or_eq_true, decide_eq_true_eq] at h
  rcases h.2 with (hs | hs) | hs
  · exact Or.inl hs
  · exact Or.inr (Or.inr hs)
  · exact Or.inr (Or.inl hs)

theorem cancelImportBatch_path (host : Host P) (q : Queue P) (principal : Principal) (batchId : Nat)
    (now : Time) :
    ∃ labels, Path q.db labels (cancelImportBatch host q principal batchId now).2.db ∧
      Labelled host q (.cancelImportBatch principal batchId, now) labels := by
  cases hfor : batchFor q principal batchId with
  | error e =>
    exact ⟨[], by rw [cancelImportBatch, hfor]; exact .nil _,
      labelled_other (fun _ h => nomatch h) (fun _ => rfl) fun _ => rfl⟩
  | ok batch =>
    rw [cancelImportBatch, hfor]
    have hopen : ∀ k job, q.db.jobs.get? k = some job → importJob host batch.projectId batchId job = true →
        job.status.canCancel = true := fun k job _ h => importJob_canCancel h
    by_cases hrunning : ∃ k job, q.db.jobs.get? k = some job ∧
        importJob host batch.projectId batchId job = true ∧ job.status = .running
    · have hmove := Move.stopped (fun _ => importJob host batch.projectId batchId) "import batch cancelled" now hopen
      refine ⟨[.stop, .other], .cons hmove (Move.wrote _).path, fun _ => rfl, fun _ => rfl, fun _ => ?_⟩
      exact ⟨batch, hfor, hrunning⟩
    · have hmove := Move.cancelled (fun _ => importJob host batch.projectId batchId) "import batch cancelled" now
        hopen fun k job hjob hhit hs => hrunning ⟨k, job, hjob, hhit, hs⟩
      refine ⟨[.other, .other], .cons hmove (Move.wrote _).path, labelled_other ?_ (fun _ => rfl) fun _ => rfl⟩
      intro label hlabel
      simpa using hlabel

/-- **One step of the queue is a path of moves**, and its labels are its claims,
its requeues and its stops. -/
theorem step_path (host : Host P) (q : Queue P) (input : Operation × Time) :
    ∃ labels, Path q.db labels (Queue.step host q input).2.db ∧ Labelled host q input labels := by
  obtain ⟨op, now⟩ := input
  cases op with
  | worker cfg call =>
    obtain ⟨labels, hpath, hlabels, hclaims⟩ := worker_path cfg q.db (call, now)
    refine ⟨labels, hpath, hclaims, fun k => List.count_eq_zero.mpr fun hmem => ?_, fun hstop => ?_⟩
    · rcases hlabels _ hmem with h | ⟨i, h⟩ <;> cases h
    · rcases hlabels _ hstop with h | ⟨i, h⟩ <;> cases h
  | dispatchOnce workerId leaseSeconds limit exclude serverNow =>
    have hout : (Queue.step host q (.dispatchOnce workerId leaseSeconds limit exclude serverNow, now)).2.db =
        (dispatchOnce host q.projects ⟨workerId, leaseSeconds, now, serverNow⟩ limit exclude q.db).2 := by
      simp only [Queue.step]
    rw [hout, dispatchOnce]
    simp only
    split
    · exact ⟨[], .nil _, labelled_other (fun _ h => nomatch h) (fun _ => rfl) fun _ => rfl⟩
    · next db' hdb' =>
      obtain ⟨labels, hpath, hother⟩ := dispatchEach_path _ hdb'
      exact ⟨labels, hpath, labelled_other hother (fun _ => rfl) fun _ => rfl⟩
  | retryAdminJob principal jobId => exact retryAdminJob_path host q principal jobId now
  | cancelAdminJob principal jobId reason => exact cancelAdminJob_path host q principal jobId reason now
  | replayAdminJob principal jobId reason => exact replayAdminJob_path host q principal jobId reason now
  | replayAdminOutbox principal eventId reason => exact replayAdminOutbox_path host q principal eventId reason now
  | cancelImportBatch principal batchId => exact cancelImportBatch_path host q principal batchId now

/-! ## Runs -/

/-- A queue before its first step: its jobs were never claimed. -/
structure Start (P : Type) where
  queue : Queue P
  unclaimed : ∀ k job, queue.db.jobs.get? k = some job → Unclaimed job
  unattempted : queue.db.attempts.rows = []

/-- The queue after a sequence of operations. -/
def Start.after (host : Host P) (start : Start P) (ops : List (Operation × Time)) : Queue P :=
  Trace.exec (Queue.step host) start.queue ops

/-- Every job has the property. -/
def AllJobs (R : ProcessingJob P → Prop) (db : Db P) : Prop := ∀ k job, db.jobs.get? k = some job → R job

theorem allJobs_move {R : ProcessingJob P → Prop} (hnew : ∀ job, Unclaimed job → R job)
    (hmove : ∀ k job label row, R job → RowMove k job label row → R row) {db db' : Db P} {label : Label}
    (h : AllJobs R db) (hstep : Move db label db') : AllJobs R db' := by
  intro k row' hrow'
  rcases hstep.row hrow' with ⟨row, hrow, hrowMove⟩ | ⟨-, hunclaimed, -⟩
  · exact hmove k row label row' (h k row hrow) hrowMove
  · exact hnew row' hunclaimed

/-- **Row rule.**  What every unclaimed row has and every row move keeps holds of
every row in every run. -/
theorem row_invariant {R : ProcessingJob P → Prop} (hnew : ∀ job, Unclaimed job → R job)
    (hmove : ∀ k job label row, R job → RowMove k job label row → R row) (host : Host P) (start : Start P)
    (ops : List (Operation × Time)) : AllJobs R (start.after host ops).db := by
  have hstep : ∀ (q : Queue P) input, AllJobs R q.db → AllJobs R (Queue.step host q input).2.db := by
    intro q input hinv
    obtain ⟨labels, hsteps, -⟩ := step_path host q input
    exact path_invariant (fun db label db' h (_ : True) => allJobs_move hnew hmove h) hsteps
      (fun _ _ => trivial) hinv
  have hall : ∀ (q : Queue P), AllJobs R q.db → AllJobs R (Trace.exec (Queue.step host) q ops).db := by
    induction ops with
    | nil => exact fun q hq => hq
    | cons input ops ih => exact fun q hq => ih _ (hstep q input hq)
  exact hall start.queue fun k job hjob => hnew job (start.unclaimed k job hjob)

/-! ## A small queue -/

/-- An event that was never dispatched. -/
def smallEvent : OutboxEvent Unit :=
  { projectId := 0, aggregateType := "episode", aggregateId := 7, eventType := "episode.ready"
    payloadVersion := "v1", payload := (), nextAttemptAt := 0, createdAt := 0 }

/-- A project with one event and no job. -/
def smallStart : Start Unit where
  queue :=
    { db := ⟨Table.empty.insert smallEvent, Table.empty, Table.empty⟩
      projects := Table.empty.insert "demo"
      batches := Table.empty
      files := Table.empty
      scopes := none }
  unclaimed k job h := by cases h
  unattempted := rfl

def smallHost : Host Unit := ⟨id, fun _ => none⟩

def administrator : Principal := ⟨"demo", ["admin"]⟩

/-- The event is dispatched and its job claimed. -/
def dispatchAndClaim : List (Operation × Time) :=
  [(.dispatchOnce "dispatcher" 60 10 [] 0, 0), (.worker {} (.claimJobs "worker" 1), 0)]

/-- The job that the dispatch adds. -/
def smallJob : ProcessingJob Unit :=
  newJob 0 smallEvent ⟨"episode.ready", none, none, "outbox:0:episode.ready:7:v1"⟩ 0

theorem smallJob_claimed : (smallStart.after smallHost dispatchAndClaim).db.jobs.get? 0 =
    some (claimedRow {} "worker" 0 smallJob) := by
  decide

end CodexMemory.Worker
