import CodexMemory.Worker.Model

/-!
# What one step does to one job

`step_get?_jobs` says for every call what happens to the row of a job:
`jobEffect`.  It is the only place where the bodies of the five operations
are unfolded for the job table; `claims_mem` says which claims a call returns.
-/

namespace CodexMemory.Worker

variable {P : Type}

/-! ## Frames: which tables an operation writes -/

@[simp] theorem updateAttempt_jobs (db : Db P) (k : Nat) (f : JobAttempt → JobAttempt) :
    (updateAttempt db k f).jobs = db.jobs := by
  unfold updateAttempt
  split <;> rfl

@[simp] theorem updateAttempt_events (db : Db P) (k : Nat) (f : JobAttempt → JobAttempt) :
    (updateAttempt db k f).events = db.events := by
  unfold updateAttempt
  split <;> rfl

@[simp] theorem updateEvent_jobs (db : Db P) (job : ProcessingJob P)
    (f : OutboxEvent P → OutboxEvent P) : (updateEvent db job f).jobs = db.jobs := by
  unfold updateEvent
  split <;> rfl

@[simp] theorem updateEvent_attempts (db : Db P) (job : ProcessingJob P)
    (f : OutboxEvent P → OutboxEvent P) : (updateEvent db job f).attempts = db.attempts := by
  unfold updateEvent
  split <;> rfl

@[simp] theorem completeOwned_jobs (db : Db P) (k : Nat) (job : ProcessingJob P) (now : Time) :
    (completeOwned db k job now).jobs = db.jobs.modify k fun _ => completedRow now job := by
  simp [completeOwned, completeOutbox]

@[simp] theorem failOwned_jobs (cfg : Config) (db : Db P) (k : Nat) (job : ProcessingJob P)
    (code message : String) (retryable : Bool) (now : Time) :
    (failOwned cfg db k job code message retryable now).jobs =
      db.jobs.modify k fun _ => failedRow cfg code message retryable now job := by
  simp [failOwned, failOutbox]

@[simp] theorem sweepJob_jobs (db : Db P) (k : Nat) (job : ProcessingJob P) (now : Time) :
    (sweepJob db k job now).jobs = db.jobs.modify k fun _ => sweptRow now job := by
  simp [sweepJob, failOutbox]

/-! ## Claiming -/

theorem mem_selectForClaim {db : Db P} {limit : Nat} {now : Time} {k : Nat}
    {job : ProcessingJob P} (h : (k, job) ∈ selectForClaim db limit now) :
    db.jobs.get? k = some job ∧ claimable now job = true := by
  have hs := List.mem_of_mem_take h
  rw [List.mem_insertionSort] at hs
  exact (db.jobs.mem_select _ k job).mp hs

theorem selectForClaim_nodup (db : Db P) (limit : Nat) (now : Time) :
    ((selectForClaim db limit now).map Prod.fst).Nodup := by
  have hsel := db.jobs.select_keys_nodup (claimable now)
  have hsort := ((List.perm_insertionSort claimBefore
    (db.jobs.select (claimable now))).map Prod.fst).nodup_iff.mpr hsel
  exact hsort.sublist ((List.take_sublist _ _).map _)

/-- The claim that `claim_jobs` returns for a selected row. -/
def claimOf (cfg : Config) (now : Time) (k : Nat) (job : ProcessingJob P) : JobClaim P :=
  ⟨k, job.jobType, job.payload, job.attemptCount + 1, now + seconds cfg.leaseSeconds⟩

theorem claimEach_claims (cfg : Config) (w : String) (now : Time)
    (rows : List (Nat × ProcessingJob P)) (db : Db P) :
    (claimEach cfg w now rows db).1 = rows.map fun r => claimOf cfg now r.1 r.2 := by
  induction rows generalizing db with
  | nil => rfl
  | cons r rows ih => simp [claimEach, claimOf, claimedRow, ih]

theorem claims_mem (cfg : Config) (db : Db P) (w : String) (limit : Nat) (now : Time)
    (c : JobClaim P) :
    c ∈ (claimJobs cfg db w limit now).1 ↔
      ∃ job, (c.jobId, job) ∈ selectForClaim db limit now ∧ c = claimOf cfg now c.jobId job := by
  unfold claimJobs
  rw [claimEach_claims, List.mem_map]
  constructor
  · rintro ⟨⟨k, job⟩, hr, rfl⟩
    exact ⟨job, hr, rfl⟩
  · rintro ⟨job, hr, e⟩
    exact ⟨(c.jobId, job), hr, e.symm⟩

theorem claimEach_jobs_of_notMem (cfg : Config) (w : String) (now : Time)
    (rows : List (Nat × ProcessingJob P)) (db : Db P) (k : Nat) (h : k ∉ rows.map Prod.fst) :
    (claimEach cfg w now rows db).2.jobs.get? k = db.jobs.get? k := by
  induction rows generalizing db with
  | nil => rfl
  | cons r rows ih =>
    simp only [List.map_cons, List.mem_cons, not_or] at h
    simp only [claimEach]
    rw [ih _ h.2, Table.get?_modify_ne _ _ h.1]

theorem claimEach_jobs_of_mem (cfg : Config) (w : String) (now : Time)
    (rows : List (Nat × ProcessingJob P)) (hn : (rows.map Prod.fst).Nodup) (db : Db P)
    (k : Nat) (job : ProcessingJob P) (h : (k, job) ∈ rows) :
    (claimEach cfg w now rows db).2.jobs.get? k =
      (db.jobs.get? k).map fun _ => claimedRow cfg w now job := by
  induction rows generalizing db with
  | nil => simp at h
  | cons r rows ih =>
    simp only [List.map_cons, List.nodup_cons] at hn
    simp only [claimEach]
    rcases List.mem_cons.mp h with e | hr
    · subst e
      rw [claimEach_jobs_of_notMem _ _ _ _ _ _ hn.1, Table.get?_modify_self]
    · have hne : k ≠ r.1 := by
        rintro rfl
        exact hn.1 (List.mem_map.mpr ⟨_, hr, rfl⟩)
      rw [ih hn.2 _ hr, Table.get?_modify_ne _ _ hne]

/-! ## Sweeping -/

theorem sweepEach_jobs_of_notMem (now : Time) (rows : List (Nat × ProcessingJob P)) (db : Db P)
    (k : Nat) (h : k ∉ rows.map Prod.fst) :
    (sweepEach now rows db).jobs.get? k = db.jobs.get? k := by
  induction rows generalizing db with
  | nil => rfl
  | cons r rows ih =>
    simp only [List.map_cons, List.mem_cons, not_or] at h
    simp only [sweepEach]
    rw [ih _ h.2, sweepJob_jobs, Table.get?_modify_ne _ _ h.1]

theorem sweepEach_jobs_of_mem (now : Time) (rows : List (Nat × ProcessingJob P))
    (hn : (rows.map Prod.fst).Nodup) (db : Db P) (k : Nat) (job : ProcessingJob P)
    (h : (k, job) ∈ rows) :
    (sweepEach now rows db).jobs.get? k = (db.jobs.get? k).map fun _ => sweptRow now job := by
  induction rows generalizing db with
  | nil => simp at h
  | cons r rows ih =>
    simp only [List.map_cons, List.nodup_cons] at hn
    simp only [sweepEach]
    rcases List.mem_cons.mp h with e | hr
    · subst e
      rw [sweepEach_jobs_of_notMem _ _ _ _ hn.1, sweepJob_jobs, Table.get?_modify_self]
    · have hne : k ≠ r.1 := by
        rintro rfl
        exact hn.1 (List.mem_map.mpr ⟨_, hr, rfl⟩)
      rw [ih hn.2 _ hr, sweepJob_jobs, Table.get?_modify_ne _ _ hne]

/-! ## One step, one job -/

/-- The row that `heartbeat` writes. -/
def heartbeatRow (cfg : Config) (now : Time) (job : ProcessingJob P) : ProcessingJob P :=
  { job with heartbeatAt := some now, leaseExpiresAt := some (now + seconds cfg.leaseSeconds) }

/-- The call claims job `k` in this state. -/
def claimsJob (db : Db P) (k : Nat) : Call × Time → Prop
  | (.claimJobs _ limit, now) => k ∈ (selectForClaim db limit now).map Prod.fst
  | _ => False

instance (db : Db P) (k : Nat) (input : Call × Time) : Decidable (claimsJob db k input) := by
  obtain ⟨call, now⟩ := input
  cases call <;> unfold claimsJob <;> infer_instance

/-- What a call does to the row of job `k`. -/
def jobEffect (cfg : Config) (db : Db P) (k : Nat) (input : Call × Time)
    (job : ProcessingJob P) : ProcessingJob P :=
  match input with
  | (.claimJobs w limit, now) =>
    if claimsJob db k (.claimJobs w limit, now) then claimedRow cfg w now job else job
  | (.heartbeat j w, now) =>
    if k = j ∧ ownsLiveJob (some job) w now then heartbeatRow cfg now job else job
  | (.complete j w, now) =>
    if k = j ∧ ownsLiveJob (some job) w now then completedRow now job else job
  | (.fail j w code message retryable, now) =>
    if k = j ∧ ownsLiveJob (some job) w now then failedRow cfg code message retryable now job
    else job
  | (.sweepExpired, now) => if expired now job then sweptRow now job else job

theorem heartbeat_eq (cfg : Config) (db : Db P) (j : Nat) (w : String) (now : Time) :
    heartbeat cfg db j w now =
      match db.jobs.get? j with
      | none => (false, db)
      | some job =>
        if ownsLiveJob (some job) w now then
          (true, { db with jobs := db.jobs.modify j fun _ => heartbeatRow cfg now job })
        else (false, db) := by
  unfold heartbeat ownsLiveJob heartbeatRow
  cases db.jobs.get? j with
  | none => rfl
  | some job =>
    by_cases hr : job.status ≠ .running ∨ job.lockedBy ≠ some w
    · simp [hr]
    · simp only [hr, if_false]
      cases hl : job.leaseExpiresAt with
      | none => simp
      | some lease =>
        by_cases hle : lease ≤ now
        · simp [hle]
        · simp [hle, Nat.not_le.mp hle]

/-- `heartbeat`, `complete` and `fail` rewrite the row of their job when the
caller owns it, and no other row. -/
theorem get?_rewriteOwned (jobs : Table (ProcessingJob P)) (j k : Nat) (w : String) (now : Time)
    (row : ProcessingJob P → ProcessingJob P) :
    (match jobs.get? j with
      | none => jobs
      | some job => if ownsLiveJob (some job) w now then jobs.modify j fun _ => row job else jobs).get? k =
    (jobs.get? k).map fun job => if k = j ∧ ownsLiveJob (some job) w now then row job else job := by
  by_cases hk : k = j
  · subst hk
    cases hj : jobs.get? k with
    | none => simp [hj]
    | some job =>
      by_cases ho : ownsLiveJob (some job) w now = true <;> simp [ho, hj]
  · cases jobs.get? j with
    | none => simp [hk]
    | some job =>
      by_cases ho : ownsLiveJob (some job) w now = true <;>
        simp [ho, hk, Table.get?_modify_ne _ _ hk]

theorem heartbeat_jobs (cfg : Config) (db : Db P) (j : Nat) (w : String) (now : Time) :
    (heartbeat cfg db j w now).2.jobs =
      match db.jobs.get? j with
      | none => db.jobs
      | some job =>
        if ownsLiveJob (some job) w now then db.jobs.modify j fun _ => heartbeatRow cfg now job
        else db.jobs := by
  rw [heartbeat_eq]
  cases db.jobs.get? j with
  | none => rfl
  | some job => by_cases ho : ownsLiveJob (some job) w now = true <;> simp [ho]

theorem complete_jobs (db : Db P) (j : Nat) (w : String) (now : Time) :
    (complete db j w now).2.jobs =
      match db.jobs.get? j with
      | none => db.jobs
      | some job =>
        if ownsLiveJob (some job) w now then db.jobs.modify j fun _ => completedRow now job
        else db.jobs := by
  unfold complete
  cases db.jobs.get? j with
  | none => rfl
  | some job => by_cases ho : ownsLiveJob (some job) w now = true <;> simp [ho]

theorem fail_jobs (cfg : Config) (db : Db P) (j : Nat) (w code message : String)
    (retryable : Bool) (now : Time) :
    (fail cfg db j w code message retryable now).2.jobs =
      match db.jobs.get? j with
      | none => db.jobs
      | some job =>
        if ownsLiveJob (some job) w now then
          db.jobs.modify j fun _ => failedRow cfg code message retryable now job
        else db.jobs := by
  unfold fail
  cases db.jobs.get? j with
  | none => rfl
  | some job => by_cases ho : ownsLiveJob (some job) w now = true <;> simp [ho]

/-- **One step, one row.**  Every call changes the row of every job as
`jobEffect` says, and adds or removes none. -/
theorem step_get?_jobs (cfg : Config) (db : Db P) (input : Call × Time) (k : Nat) :
    (step cfg db input).2.jobs.get? k = (db.jobs.get? k).map (jobEffect cfg db k input) := by
  obtain ⟨call, now⟩ := input
  cases call with
  | claimJobs w limit =>
    change (claimEach cfg w now (selectForClaim db limit now) db).2.jobs.get? k = _
    by_cases hk : k ∈ (selectForClaim db limit now).map Prod.fst
    · obtain ⟨⟨k', job⟩, hr, rfl⟩ := List.mem_map.mp hk
      rw [claimEach_jobs_of_mem _ _ _ _ (selectForClaim_nodup db limit now) _ _ _ hr,
        (mem_selectForClaim hr).1]
      simp only [Option.map_some, jobEffect, claimsJob, hk, if_true]
    · rw [claimEach_jobs_of_notMem _ _ _ _ _ _ hk]
      cases db.jobs.get? k with
      | none => rfl
      | some job => simp only [Option.map_some, jobEffect, claimsJob, hk, if_false]
  | heartbeat j w =>
    change (heartbeat cfg db j w now).2.jobs.get? k = _
    rw [heartbeat_jobs, get?_rewriteOwned]
    rfl
  | complete j w =>
    change (complete db j w now).2.jobs.get? k = _
    rw [complete_jobs, get?_rewriteOwned]
    rfl
  | fail j w code message retryable =>
    change (fail cfg db j w code message retryable now).2.jobs.get? k = _
    rw [fail_jobs, get?_rewriteOwned]
    rfl
  | sweepExpired =>
    change (sweepEach now (db.jobs.select (expired now)) db).jobs.get? k = _
    have hn := db.jobs.select_keys_nodup (expired now)
    by_cases hk : k ∈ (db.jobs.select (expired now)).map Prod.fst
    · obtain ⟨⟨k', job⟩, hr, rfl⟩ := List.mem_map.mp hk
      obtain ⟨hg, he⟩ := (db.jobs.mem_select _ _ _).mp hr
      rw [sweepEach_jobs_of_mem _ _ hn _ _ _ hr, hg]
      simp only [Option.map_some, jobEffect, he, if_true]
    · rw [sweepEach_jobs_of_notMem _ _ _ _ hk]
      cases hg : db.jobs.get? k with
      | none => rfl
      | some job =>
        have he : expired now job = false := by
          by_contra he
          exact hk (List.mem_map.mpr ⟨(k, job),
            (db.jobs.mem_select _ _ _).mpr ⟨hg, by simpa using he⟩, rfl⟩)
        simp only [Option.map_some, jobEffect, he, Bool.false_eq_true, if_false]

end CodexMemory.Worker
