import CodexMemory.Worker.Effects
import Mathlib.Data.List.Induction

/-!
# Fencing of stale executions

An execution is a claim that `claim_jobs` returned to some process.  It is
stale once its job was swept or claimed again.  `complete`, `fail` and
`heartbeat` recognise their caller by the `worker_id` string alone, so a
stale execution can act again exactly when a later claim of the same job was
made under its own string and holds a live lease
(`stale_report_refused_iff`); `shared_worker_id_unfenced` is such a run.
-/

namespace CodexMemory.Worker

open CodexMemory.Trace

variable {P : Type}

/-- The step takes job `k` away from whoever claimed it before. -/
def supersedes (k : Nat) (db : Db P) (input : Call × Time) : Prop :=
  claimsJob db k input ∨
    (input.1 = .sweepExpired ∧ ∃ job, db.jobs.get? k = some job ∧ expired input.2 job = true)

/-- The calls by which an execution of job `k` under the name `w` acts. -/
inductive ReportsOn (k : Nat) (w : String) : Call → Prop
  | heartbeat : ReportsOn k w (.heartbeat k w)
  | complete : ReportsOn k w (.complete k w)
  | fail (code message : String) (retryable : Bool) :
      ReportsOn k w (.fail k w code message retryable)

/-- What the call returns when it is refused. -/
def refusal : Call → Reply P
  | .fail .. => .failed none
  | _ => .done false

/-- The job is running and its lease has not run out. -/
def Live (job : Option (ProcessingJob P)) (now : Time) : Prop :=
  ∃ row, job = some row ∧ row.status = .running ∧ ∀ lease, row.leaseExpiresAt = some lease → now < lease

/-- The worker name and attempt number under which one entry of a history
claims job `k`. -/
def claimIn (k : Nat) : (Call × Time) × Reply P → Option (String × Nat)
  | ((.claimJobs w _, _), .claims cs) => (cs.find? fun c => c.jobId = k).map fun c => (w, c.attemptNo)
  | _ => none

/-- The last claim of job `k` in a history. -/
def lastClaim (k : Nat) : List ((Call × Time) × Reply P) → Option (String × Nat)
  | [] => none
  | e :: h => (lastClaim k h).or (claimIn k e)

theorem lastClaim_snoc (k : Nat) (h : List ((Call × Time) × Reply P))
    (e : (Call × Time) × Reply P) :
    lastClaim k (h ++ [e]) = (claimIn k e).or (lastClaim k h) := by
  induction h with
  | nil => simp [lastClaim]
  | cons a h ih => simp [lastClaim, ih, Option.or_assoc]

/-! ## One step -/

theorem ownsLiveJob_iff (job : Option (ProcessingJob P)) (w : String) (now : Time) :
    ownsLiveJob job w now = true ↔
      Live job now ∧ ∃ row, job = some row ∧ row.lockedBy = some w := by
  cases job with
  | none => simp [ownsLiveJob, Live]
  | some row =>
    unfold ownsLiveJob Live
    by_cases hr : row.status ≠ .running ∨ row.lockedBy ≠ some w
    · simp only [hr, if_true, Bool.false_eq_true, Option.some.injEq, exists_eq_left', false_iff]
      rintro ⟨⟨h1, -⟩, h2⟩
      rcases hr with h | h
      · exact h h1
      · exact h h2
    · push Not at hr
      obtain ⟨h1, h2⟩ := hr
      cases hl : row.leaseExpiresAt with
      | none => simp [h1, h2, hl]
      | some lease => simp [h1, h2, hl]

/-- A report is refused, with the database as it was, exactly when the caller
does not own the job. -/
theorem report_refused_iff (cfg : Config) (db : Db P) {k : Nat} {w : String} {call : Call}
    (hcall : ReportsOn k w call) (now : Time) :
    step cfg db (call, now) = (refusal call, db) ↔
      ¬ ownsLiveJob (db.jobs.get? k) w now = true := by
  cases hj : db.jobs.get? k with
  | none => cases hcall <;> simp [step, heartbeat_eq, complete, fail, hj, refusal, ownsLiveJob]
  | some job =>
    by_cases ho : ownsLiveJob (some job) w now = true
    · cases hcall <;> simp [step, heartbeat_eq, complete, fail, hj, refusal, ho]
    · cases hcall <;> simp [step, heartbeat_eq, complete, fail, hj, refusal, ho]

theorem claims_find? (cfg : Config) (db : Db P) (w : String) (limit : Nat) (now : Time) (k : Nat) :
    ((claimJobs cfg db w limit now).1.find? fun c => c.jobId = k) =
      if k ∈ (selectForClaim db limit now).map Prod.fst then
        (db.jobs.get? k).map (claimOf cfg now k)
      else none := by
  cases hf : (claimJobs cfg db w limit now).1.find? fun c => c.jobId = k with
  | some c =>
    have hk : c.jobId = k := by simpa using List.find?_some hf
    obtain ⟨job, hs, e⟩ := (claims_mem cfg db w limit now c).mp (List.mem_of_find?_eq_some hf)
    rw [hk] at hs e
    rw [if_pos (List.mem_map.mpr ⟨_, hs, rfl⟩), (mem_selectForClaim hs).1, Option.map_some, e]
  | none =>
    rw [if_neg]
    intro hk
    obtain ⟨⟨k', job⟩, hs, rfl⟩ := List.mem_map.mp hk
    have hc : claimOf cfg now k' job ∈ (claimJobs cfg db w limit now).1 :=
      (claims_mem ..).mpr ⟨job, hs, rfl⟩
    simpa [claimOf] using List.find?_eq_none.mp hf _ hc

/-- A step that claims job `k` shows in its history entry, and the row then
names the claimant. -/
theorem claimIn_of_claims (cfg : Config) (db : Db P) {k : Nat} {input : Call × Time}
    (h : claimsJob db k input) {job : ProcessingJob P} (hj : db.jobs.get? k = some job) :
    ∃ w, claimIn k (input, (step cfg db input).1) = some (w, job.attemptCount + 1) ∧
      jobEffect cfg db k input job = claimedRow cfg w input.2 job := by
  obtain ⟨call, now⟩ := input
  cases call with
  | claimJobs w limit =>
    refine ⟨w, ?_, ?_⟩
    · have hk : k ∈ (selectForClaim db limit now).map Prod.fst := h
      change ((claimJobs cfg db w limit now).1.find? fun c => c.jobId = k).map _ = _
      rw [claims_find?, if_pos hk, hj]
      rfl
    · simp only [jobEffect, h, if_true]
  | heartbeat => exact h.elim
  | complete => exact h.elim
  | fail => exact h.elim
  | sweepExpired => exact h.elim

theorem claimIn_of_not_claims (cfg : Config) (db : Db P) {k : Nat} {input : Call × Time}
    (h : ¬ claimsJob db k input) : claimIn k (input, (step cfg db input).1) = none := by
  obtain ⟨call, now⟩ := input
  cases call with
  | claimJobs w limit =>
    have hk : k ∉ (selectForClaim db limit now).map Prod.fst := h
    change ((claimJobs cfg db w limit now).1.find? fun c => c.jobId = k).map _ = _
    rw [claims_find?, if_neg hk]
    rfl
  | heartbeat => rfl
  | complete => rfl
  | fail => rfl
  | sweepExpired => rfl

/-- Only a claim starts an attempt or hands a running job to another name. -/
theorem jobEffect_of_not_claims (cfg : Config) (db : Db P) {k : Nat} {input : Call × Time}
    (h : ¬ claimsJob db k input) (job : ProcessingJob P) :
    (jobEffect cfg db k input job).attemptCount = job.attemptCount ∧
      ((jobEffect cfg db k input job).status = .running →
        job.status = .running ∧ (jobEffect cfg db k input job).lockedBy = job.lockedBy) := by
  obtain ⟨call, now⟩ := input
  cases call with
  | claimJobs w limit =>
    have e : jobEffect cfg db k (.claimJobs w limit, now) job = job := by
      simp only [jobEffect, h, if_false]
    rw [e]
    exact ⟨rfl, fun hr => ⟨hr, rfl⟩⟩
  | heartbeat j w =>
    simp only [jobEffect]
    split
    · exact ⟨rfl, fun hr => ⟨hr, rfl⟩⟩
    · exact ⟨rfl, fun hr => ⟨hr, rfl⟩⟩
  | complete j w =>
    simp only [jobEffect]
    split
    · exact ⟨rfl, fun hr => by simp [completedRow, unlocked] at hr⟩
    · exact ⟨rfl, fun hr => ⟨hr, rfl⟩⟩
  | fail j w code message retryable =>
    simp only [jobEffect]
    split
    · refine ⟨rfl, fun hr => ?_⟩
      simp only [failedRow, unlocked] at hr
      split at hr <;> cases hr
    · exact ⟨rfl, fun hr => ⟨hr, rfl⟩⟩
  | sweepExpired =>
    simp only [jobEffect]
    split
    · refine ⟨rfl, fun hr => ?_⟩
      simp only [sweptRow, unlocked] at hr
      split at hr <;> cases hr
    · exact ⟨rfl, fun hr => ⟨hr, rfl⟩⟩

theorem sweptRow_not_running (now : Time) (job : ProcessingJob P) :
    (sweptRow now job).status ≠ .running := by
  simp only [sweptRow, unlocked]
  split <;> simp

/-! ## Runs after a claim -/

/-- What is known of job `k` after a claim under `w` with attempt `n` and the
calls of history `h`: the attempt number is that of the last claim, and a
running row names the last claimant. -/
structure Tracks (k : Nat) (w : String) (n : Nat) (db : Db P)
    (h : List ((Call × Time) × Reply P)) (job : ProcessingJob P) : Prop where
  row : db.jobs.get? k = some job
  count : job.attemptCount = ((lastClaim k h).getD (w, n)).2
  later : ∀ q, lastClaim k h = some q → n < q.2
  owner : job.status = .running → job.lockedBy = some ((lastClaim k h).getD (w, n)).1

theorem tracks_claim (cfg : Config) (db : Db P) (w : String) (limit : Nat) (t : Time)
    (c : JobClaim P) (hc : c ∈ (claimJobs cfg db w limit t).1) :
    ∃ job, Tracks c.jobId w c.attemptNo (claimJobs cfg db w limit t).2 [] job := by
  obtain ⟨job, hs, e⟩ := (claims_mem cfg db w limit t c).mp hc
  have hrow := claimEach_jobs_of_mem cfg w t _ (selectForClaim_nodup db limit t) db _ _ hs
  rw [(mem_selectForClaim hs).1] at hrow
  have hn : c.attemptNo = job.attemptCount + 1 := by rw [e]; rfl
  exact ⟨_, hrow, by simp [lastClaim, claimedRow, hn], by simp [lastClaim],
    fun _ => by simp [lastClaim, claimedRow]⟩

theorem tracks_step (cfg : Config) {k n : Nat} {w : String} {db : Db P}
    {h : List ((Call × Time) × Reply P)} {job : ProcessingJob P} (ht : Tracks k w n db h job)
    (input : Call × Time) :
    Tracks k w n (step cfg db input).2 (h ++ [(input, (step cfg db input).1)])
      (jobEffect cfg db k input job) := by
  have hrow : (step cfg db input).2.jobs.get? k = some (jobEffect cfg db k input job) := by
    rw [step_get?_jobs, ht.row, Option.map_some]
  have hle : n ≤ job.attemptCount := by
    rw [ht.count]
    cases hl : lastClaim k h with
    | none => exact Nat.le_refl n
    | some q => exact Nat.le_of_lt (ht.later q hl)
  by_cases hcl : claimsJob db k input
  · obtain ⟨w', hin, heff⟩ := claimIn_of_claims cfg db hcl ht.row
    have hlast : lastClaim k (h ++ [(input, (step cfg db input).1)]) =
        some (w', job.attemptCount + 1) := by rw [lastClaim_snoc, hin]; rfl
    refine ⟨hrow, ?_, ?_, ?_⟩
    · rw [heff, hlast]; rfl
    · intro q hq
      rw [hlast] at hq
      cases hq
      exact Nat.lt_succ_of_le hle
    · intro _
      rw [heff, hlast]; rfl
  · have hlast : lastClaim k (h ++ [(input, (step cfg db input).1)]) = lastClaim k h := by
      rw [lastClaim_snoc, claimIn_of_not_claims cfg db hcl]; rfl
    obtain ⟨hcount, hrun⟩ := jobEffect_of_not_claims cfg db hcl job
    refine ⟨hrow, ?_, ?_, ?_⟩
    · rw [hcount, hlast, ht.count]
    · rw [hlast]; exact ht.later
    · intro hr
      obtain ⟨hr', hl⟩ := hrun hr
      rw [hl, hlast, ht.owner hr']

theorem tracks_run (cfg : Config) {k n : Nat} {w : String} {db : Db P} {job : ProcessingJob P}
    (ht : Tracks k w n db [] job) (calls : List (Call × Time)) :
    ∃ job', Tracks k w n (exec (step cfg) db calls) (history (step cfg) db calls) job' := by
  have hstep : ∀ (db : Db P) h i, (∃ job, Tracks k w n db h job) →
      ∃ job, Tracks k w n (step cfg db i).2 (h ++ [(i, (step cfg db i).1)]) job := by
    rintro db h i ⟨row, hrow⟩
    exact ⟨_, tracks_step cfg hrow i⟩
  have hj := exec_history_invariant (J := fun db h => ∃ job, Tracks k w n db h job) hstep
    ⟨job, ht⟩ calls
  simpa using hj

/-- Once the job was swept or claimed again, it was claimed again or is not
running. -/
theorem superseded_run (cfg : Config) {k n : Nat} {w : String} {db : Db P} {job : ProcessingJob P}
    (ht : Tracks k w n db [] job) (calls : List (Call × Time))
    (hs : Sometime (step cfg) (supersedes k) db calls) :
    lastClaim k (history (step cfg) db calls) ≠ none ∨
      ∀ row, (exec (step cfg) db calls).jobs.get? k = some row → row.status ≠ .running := by
  induction calls using List.reverseRecOn with
  | nil => exact hs.elim
  | append_singleton calls input ih =>
    obtain ⟨row, hrow⟩ := tracks_run cfg ht calls
    rw [exec_snoc, history_snoc, lastClaim_snoc]
    by_cases hcl : claimsJob (exec (step cfg) db calls) k input
    · obtain ⟨w', hin, -⟩ := claimIn_of_claims cfg _ hcl hrow.row
      left
      rw [hin]
      simp
    · rw [claimIn_of_not_claims cfg _ hcl, Option.none_or, step_get?_jobs, hrow.row]
      rcases (sometime_snoc _ _ _ _).mp hs with hs | hs
      · refine (ih hs).imp id fun hnr r hr => ?_
        cases hr
        intro hrun
        exact hnr row hrow.row ((jobEffect_of_not_claims cfg _ hcl row).2 hrun).1
      · right
        rintro r hr
        cases hr
        rcases hs with hs | ⟨hcall, row', hg, hexp⟩
        · exact absurd hs hcl
        · obtain ⟨call, now⟩ := input
          cases hcall
          rw [hrow.row] at hg
          cases hg
          simp only [jobEffect, hexp, if_true]
          exact sweptRow_not_running now row

/-- **Fencing.**  A process claims job `c.jobId` as attempt `c.attemptNo`
under the name `w`, any calls follow, and some of them sweep the job or claim
it again.  Then its heartbeat, complete and fail are refused and change
nothing, unless the last claim of the job since was made under the same name
`w` and the job is running under it with a live lease. -/
theorem stale_report_refused_iff (cfg : Config) (db : Db P) (w : String) (limit : Nat) (t : Time)
    (c : JobClaim P) (hc : c ∈ (claimJobs cfg db w limit t).1) (calls : List (Call × Time))
    (hs : Sometime (step cfg) (supersedes c.jobId) (claimJobs cfg db w limit t).2 calls)
    (call : Call) (hcall : ReportsOn c.jobId w call) (now : Time) :
    step cfg (exec (step cfg) (claimJobs cfg db w limit t).2 calls) (call, now) =
        (refusal call, exec (step cfg) (claimJobs cfg db w limit t).2 calls) ↔
      ¬ ((∃ m, c.attemptNo < m ∧
            lastClaim c.jobId (history (step cfg) (claimJobs cfg db w limit t).2 calls) = some (w, m)) ∧
          Live ((exec (step cfg) (claimJobs cfg db w limit t).2 calls).jobs.get? c.jobId) now) := by
  obtain ⟨job, ht⟩ := tracks_claim cfg db w limit t c hc
  obtain ⟨row, hrow⟩ := tracks_run cfg ht calls
  rw [report_refused_iff cfg _ hcall, ownsLiveJob_iff, not_iff_not, and_comm]
  refine and_congr_left fun hlive => ?_
  obtain ⟨row', hg, hrun, -⟩ := hlive
  rw [hrow.row] at hg
  cases hg
  have howner := hrow.owner hrun
  rcases superseded_run cfg ht calls hs with hlast | hdead
  · obtain ⟨⟨w', m⟩, hq⟩ := Option.ne_none_iff_exists'.mp hlast
    rw [hq] at howner ⊢
    constructor
    · rintro ⟨r, hr, hw⟩
      rw [hrow.row] at hr
      cases hr
      have hw' : w' = w := by simpa [howner] using hw
      exact ⟨m, hrow.later _ hq, by rw [hw']⟩
    · rintro ⟨m', -, e⟩
      cases e
      exact ⟨row, hrow.row, howner⟩
  · exact absurd hrun (hdead row hrow.row)

/-! ## Two processes under one name -/

/-- A queue with one event and its dispatched job, due at time `0`. -/
def oneJob : Db Unit where
  events := Table.empty.insert
    { projectId := 1, aggregateType := "episode", aggregateId := 7, eventType := "episode.ready"
      payloadVersion := "1.0", payload := (), status := .dispatched, nextAttemptAt := 0
      createdAt := 0 }
  jobs := Table.empty.insert
    { projectId := 1, outboxEventId := some 0, jobType := "candidate_extract"
      aggregateType := "episode", aggregateId := 7, jobKey := "1", payloadVersion := "1.0"
      payload := (), nextAttemptAt := 0, createdAt := 0 }
  attempts := Table.empty

/-- The first claim of the job, under the default name of a worker process. -/
def firstClaim : List (JobClaim Unit) × Db Unit := claimJobs {} oneJob "v13-worker" 1 0

/-- The lease runs out, the job is swept, and a process named `w` claims it
again. -/
def sweptAndReclaimed (w : String) : List (Call × Time) :=
  [(.sweepExpired, seconds 61), (.claimJobs w 1, seconds 62)]

theorem sweptAndReclaimed_supersedes (w : String) :
    Sometime (step {}) (supersedes 0) firstClaim.2 (sweptAndReclaimed w) := by
  refine Or.inl (Or.inr ⟨rfl, ?_⟩)
  cases hj : firstClaim.2.jobs.get? 0 with
  | none => revert hj; decide
  | some job =>
    refine ⟨job, rfl, ?_⟩
    revert job
    decide

/-- **The name is not a fence.**  The first execution of the job reports after
the job was swept and claimed again as attempt 2 by a process of the same
name: its `complete` is accepted and ends the job of the other process. -/
theorem shared_worker_id_unfenced :
    firstClaim.1.map (fun c => (c.jobId, c.attemptNo)) = [(0, 1)] ∧
    Sometime (step {}) (supersedes 0) firstClaim.2 (sweptAndReclaimed "v13-worker") ∧
    ((exec (step {}) firstClaim.2 (sweptAndReclaimed "v13-worker")).jobs.get? 0).map
        (fun job => (job.status, job.attemptCount)) = some (.running, 2) ∧
    (step {} (exec (step {}) firstClaim.2 (sweptAndReclaimed "v13-worker"))
        (.complete 0 "v13-worker", seconds 63)).1 = .done true ∧
    ((step {} (exec (step {}) firstClaim.2 (sweptAndReclaimed "v13-worker"))
        (.complete 0 "v13-worker", seconds 63)).2.jobs.get? 0).map
        (fun job => (job.status, job.attemptCount)) = some (.succeeded, 2) :=
  ⟨by decide, sweptAndReclaimed_supersedes "v13-worker", by decide, by decide, by decide⟩

/-- Reclaimed under a second name, the same late report changes nothing. -/
theorem stale_report_refused_other_name :
    step {} (exec (step {}) firstClaim.2 (sweptAndReclaimed "v11-worker"))
        (.complete 0 "v13-worker", seconds 63) =
      (.done false, exec (step {}) firstClaim.2 (sweptAndReclaimed "v11-worker")) := by
  have hmem : (⟨0, "candidate_extract", (), 1, seconds 60⟩ : JobClaim Unit) ∈ firstClaim.1 := by
    decide
  refine (stale_report_refused_iff {} oneJob "v13-worker" 1 0 _ hmem
    (sweptAndReclaimed "v11-worker") (sweptAndReclaimed_supersedes "v11-worker")
    (.complete 0 "v13-worker") .complete (seconds 63)).mpr ?_
  rintro ⟨⟨m, -, hlast⟩, -⟩
  have hname : lastClaim 0 (history (step {}) firstClaim.2 (sweptAndReclaimed "v11-worker")) =
      some ("v11-worker", 2) := by decide
  have := hlast.symm.trans hname
  simp at this

end CodexMemory.Worker
