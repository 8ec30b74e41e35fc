import CodexMemory.Worker.Moves

/-!
# The lease fields of a job

* `leased_of_run`: in every run a job has all four lease fields while it is
  running and none of them otherwise;
* `owner_unique`, `sweep_recovers`, `claimable_when_due`: what follows for its
  owner, for `sweep_expired` and for `claim_jobs`;
* `lease_fields`: the four together.
-/

namespace CodexMemory.Worker

variable {P : Type}

/-- All four lease fields are set while the job is running, and none otherwise. -/
def Leased (job : ProcessingJob P) : Prop :=
  if job.status = .running then
    (∃ w, job.lockedBy = some w) ∧ (∃ t, job.lockedAt = some t) ∧ (∃ t, job.heartbeatAt = some t) ∧
      ∃ t, job.leaseExpiresAt = some t
  else job.lockedBy = none ∧ job.lockedAt = none ∧ job.heartbeatAt = none ∧ job.leaseExpiresAt = none

theorem leased_unclaimed {job : ProcessingJob P} (h : Unclaimed job) : Leased job := by
  obtain ⟨hstatus, -, hlocks⟩ := h
  rw [Leased, if_neg (by rw [hstatus]; decide)]
  exact hlocks

theorem leased_unlocked {job : ProcessingJob P} (h : (unlocked job).status ≠ .running) :
    Leased (unlocked job) := by
  rw [Leased, if_neg h]
  exact ⟨rfl, rfl, rfl, rfl⟩

/-- **Every row move restores the lease fields.** -/
theorem leased_rowMove {k : Nat} {job row : ProcessingJob P} {label : Label} (h : Leased job)
    (hmove : RowMove k job label row) : Leased row := by
  cases hmove with
  | claimed cfg w now hstatus =>
    have hrunning : (claimedRow cfg w now job).status = .running := rfl
    rw [Leased, if_pos hrunning]
    exact ⟨⟨w, rfl⟩, ⟨now, rfl⟩, ⟨now, rfl⟩, ⟨_, rfl⟩⟩
  | beaten cfg now hstatus =>
    rw [Leased, if_pos hstatus] at h
    obtain ⟨hby, hat, -, -⟩ := h
    have hrunning : (heartbeatRow cfg now job).status = .running := hstatus
    rw [Leased, if_pos hrunning]
    exact ⟨hby, hat, ⟨now, rfl⟩, ⟨_, rfl⟩⟩
  | @ended e he hstatus =>
    rw [Leased, if_neg (e.row_status job)]
    exact he.unlocks job
  | requeued hstatus hrow =>
    obtain ⟨now, rfl | rfl | rfl⟩ := hrow <;> exact leased_unlocked (by simp [unlocked])
  | cancelled hlabel reason now hopen => exact leased_unlocked (by simp [unlocked])
  | kept => exact h

theorem leased_of_run (host : Host P) (start : Start P) (ops : List (Operation × Time)) (k : Nat)
    (job : ProcessingJob P) (hjob : (start.after host ops).db.jobs.get? k = some job) : Leased job :=
  row_invariant (fun _ => leased_unclaimed) (fun _ _ _ _ => leased_rowMove) host start ops k job hjob

/-- A running job has one owner, for as long as its lease lasts. -/
theorem owner_unique {job : ProcessingJob P} (h : Leased job) (hstatus : job.status = .running) :
    ∃ w lease, job.leaseExpiresAt = some lease ∧
      ∀ w' now, ownsLiveJob (some job) w' now = true ↔ w' = w ∧ now < lease := by
  rw [Leased, if_pos hstatus] at h
  obtain ⟨⟨w, hw⟩, -, -, lease, hlease⟩ := h
  refine ⟨w, lease, hlease, fun w' now => ?_⟩
  rw [ownsLiveJob, hlease, hw]
  by_cases hname : w' = w
  · subst hname
    simp [hstatus]
  · simp [hname, Ne.symm hname]

/-- When the lease has passed, a sweep takes the job from its owner. -/
theorem sweep_recovers {db : Db P} {k : Nat} {job : ProcessingJob P} (hjob : db.jobs.get? k = some job)
    (hstatus : job.status = .running) {lease now : Time} (hlease : job.leaseExpiresAt = some lease)
    (hpassed : lease ≤ now) : (sweepExpired db now).2.jobs.get? k = some (sweptRow now job) := by
  have hexpired : expired now job = true := by
    rw [expired, hlease]
    simp [hstatus, hpassed]
  have hstep := step_get?_jobs {} db (.sweepExpired, now) k
  rw [hjob, Option.map_some, jobEffect, if_pos hexpired] at hstep
  exact hstep

/-- A job that waits is claimable as soon as it is due. -/
theorem claimable_when_due {job : ProcessingJob P} (h : Leased job)
    (hstatus : job.status = .pending ∨ job.status = .retryWait) (now : Time) :
    claimable now job = true ↔ job.nextAttemptAt ≤ now := by
  have hnot : job.status ≠ .running := by
    rcases hstatus with hs | hs <;> rw [hs] <;> decide
  rw [Leased, if_neg hnot] at h
  rw [claimable, h.2.2.2]
  rcases hstatus with hs | hs <;> simp [hs]

/-- **The lease fields, in every run**: all set while the job is running, all null
otherwise; so a running job has one owner and is recovered once its lease has
passed, and a waiting job is never hidden from `claim_jobs`. -/
theorem lease_fields (host : Host P) (start : Start P) (ops : List (Operation × Time)) :
    ∀ k job, (start.after host ops).db.jobs.get? k = some job → Leased job ∧
      (job.status = .running → ∃ w lease, job.leaseExpiresAt = some lease ∧
        (∀ w' now, ownsLiveJob (some job) w' now = true ↔ w' = w ∧ now < lease) ∧
        ∀ now, lease ≤ now →
          (sweepExpired (start.after host ops).db now).2.jobs.get? k = some (sweptRow now job) ∧
            (sweptRow now job).status ≠ .running) ∧
      (job.status = .pending ∨ job.status = .retryWait →
        ∀ now, claimable now job = true ↔ job.nextAttemptAt ≤ now) := by
  intro k job hjob
  have hleased := leased_of_run host start ops k job hjob
  refine ⟨hleased, fun hstatus => ?_, claimable_when_due hleased⟩
  obtain ⟨w, lease, hlease, howner⟩ := owner_unique hleased hstatus
  exact ⟨w, lease, hlease, howner, fun now hpassed =>
    ⟨sweep_recovers hjob hstatus hlease hpassed, (sweeping now).row_status job⟩⟩

/-- A job just claimed has its lease fields. -/
theorem lease_fields_claimed : Leased (claimedRow {} "worker" 0 smallJob) :=
  (lease_fields smallHost smallStart dispatchAndClaim 0 _ smallJob_claimed).1

end CodexMemory.Worker
