import CodexMemory.WriteBack
import CodexMemory.Worker.Fencing
import CodexMemory.Worker.Story

/-!
# Job outcomes under read-committed transactions

`complete`, `fail` and `sweep_expired` read the job, its latest attempt and
its event in one step and write the changed columns by primary key at a later
commit, without a lock or a version check; `claim_jobs` locks what it selects
and is one step.  A commit on top of rows that another transaction has
rewritten in between destroys what that one reported
(`late_sweep_reopens_succeeded_job`).  When every commit finds its job rows as
it read them, `complete` is final and the three rows of every job agree after
every commit (`fresh_commits_one_outcome`).
-/

namespace CodexMemory.Worker

open CodexMemory.Trace

variable {P : Type}

/-! ## The model -/

/-- The columns of a job that `complete`, `fail` and `sweep_expired` assign. -/
def writeJob (loaded changed current : ProcessingJob P) : ProcessingJob P :=
  { current with
    status := writeColumn loaded.status changed.status current.status
    nextAttemptAt := writeColumn loaded.nextAttemptAt changed.nextAttemptAt current.nextAttemptAt
    lockedBy := writeColumn loaded.lockedBy changed.lockedBy current.lockedBy
    lockedAt := writeColumn loaded.lockedAt changed.lockedAt current.lockedAt
    heartbeatAt := writeColumn loaded.heartbeatAt changed.heartbeatAt current.heartbeatAt
    leaseExpiresAt := writeColumn loaded.leaseExpiresAt changed.leaseExpiresAt current.leaseExpiresAt
    lastErrorCode := writeColumn loaded.lastErrorCode changed.lastErrorCode current.lastErrorCode
    lastErrorMessage :=
      writeColumn loaded.lastErrorMessage changed.lastErrorMessage current.lastErrorMessage
    errorClass := writeColumn loaded.errorClass changed.errorClass current.errorClass
    completedAt := writeColumn loaded.completedAt changed.completedAt current.completedAt }

/-- The columns of an attempt that they assign. -/
def writeAttempt (loaded changed current : JobAttempt) : JobAttempt :=
  { current with
    endedAt := writeColumn loaded.endedAt changed.endedAt current.endedAt
    outcome := writeColumn loaded.outcome changed.outcome current.outcome
    errorCode := writeColumn loaded.errorCode changed.errorCode current.errorCode
    errorMessage := writeColumn loaded.errorMessage changed.errorMessage current.errorMessage
    errorClass := writeColumn loaded.errorClass changed.errorClass current.errorClass
    finishedReason := writeColumn loaded.finishedReason changed.finishedReason current.finishedReason }

/-- The columns of an event that they assign. -/
def writeEvent (loaded changed current : OutboxEvent P) : OutboxEvent P :=
  { current with
    status := writeColumn loaded.status changed.status current.status
    nextAttemptAt := writeColumn loaded.nextAttemptAt changed.nextAttemptAt current.nextAttemptAt
    lockedBy := writeColumn loaded.lockedBy changed.lockedBy current.lockedBy
    lockedAt := writeColumn loaded.lockedAt changed.lockedAt current.lockedAt
    leaseExpiresAt := writeColumn loaded.leaseExpiresAt changed.leaseExpiresAt current.leaseExpiresAt
    lastErrorCode := writeColumn loaded.lastErrorCode changed.lastErrorCode current.lastErrorCode
    lastErrorMessage :=
      writeColumn loaded.lastErrorMessage changed.lastErrorMessage current.lastErrorMessage
    completedAt := writeColumn loaded.completedAt changed.completedAt current.completedAt }

/-- The calls that run as unlocked transactions. -/
inductive TxCall
  | complete (jobId : Nat) (workerId : String)
  | fail (jobId : Nat) (workerId : String) (errorCode errorMessage : String) (retryable : Bool)
  | sweepExpired
  deriving DecidableEq

def TxCall.toCall : TxCall → Call
  | .complete jobId workerId => .complete jobId workerId
  | .fail jobId workerId errorCode errorMessage retryable =>
    .fail jobId workerId errorCode errorMessage retryable
  | .sweepExpired => .sweepExpired

/-- A transaction that has read and not yet committed. -/
structure Tx (P : Type) where
  call : TxCall
  now : Time
  loaded : Db P

structure System (P : Type) where
  db : Db P
  opened : List (Tx P)

inductive TxInput
  | claimJobs (workerId : String) (limit : Nat) (now : Time)
  | read (call : TxCall) (now : Time)
  | commit (i : Nat)
  deriving DecidableEq

inductive TxReply (P : Type)
  | claims (claims : List (JobClaim P))
  | read
  | committed (call : TxCall) (reply : Reply P)
  | noTransaction
  deriving DecidableEq

/-- The call runs on the rows it read; what it changed there is written over
the rows of the moment. -/
def commitTx (cfg : Config) (db : Db P) (tx : Tx P) : Reply P × Db P :=
  let out := step cfg tx.loaded (tx.call.toCall, tx.now)
  (out.1,
    { events := Table.writeBack writeEvent tx.loaded.events out.2.events db.events
      jobs := Table.writeBack writeJob tx.loaded.jobs out.2.jobs db.jobs
      attempts := Table.writeBack writeAttempt tx.loaded.attempts out.2.attempts db.attempts })

def txStep (cfg : Config) (st : System P) : TxInput → TxReply P × System P
  | .claimJobs workerId limit now =>
    let out := claimJobs cfg st.db workerId limit now
    (.claims out.1, { st with db := out.2 })
  | .read call now => (.read, { st with opened := st.opened ++ [⟨call, now, st.db⟩] })
  | .commit i =>
    match st.opened[i]? with
    | none => (.noTransaction, st)
    | some tx =>
      let out := commitTx cfg st.db tx
      (.committed tx.call out.1, ⟨out.2, st.opened.eraseIdx i⟩)

/-- The job rows that the transaction, by what it read, is to write. -/
def Tx.rows (tx : Tx P) : List (Nat × ProcessingJob P) :=
  match tx.call with
  | .complete jobId workerId | .fail jobId workerId _ _ _ =>
    match tx.loaded.jobs.get? jobId with
    | none => []
    | some job => if ownsLiveJob (some job) workerId tx.now then [(jobId, job)] else []
  | .sweepExpired => tx.loaded.jobs.select (expired tx.now)

/-- The transaction commits on the job rows that it read. -/
def Fresh (db : Db P) (tx : Tx P) : Prop := ∀ r ∈ tx.rows, db.jobs.get? r.1 = some r.2

def FreshCommit (st : System P) : TxInput → Prop
  | .commit i => ∀ tx, st.opened[i]? = some tx → Fresh st.db tx
  | _ => True

/-! ## A call on the rows it read -/

def TxCall.ending (cfg : Config) (now : Time) : TxCall → Ending P
  | .complete _ _ => completing now
  | .fail _ _ errorCode errorMessage retryable => failing cfg errorCode errorMessage retryable now
  | .sweepExpired => sweeping now

theorem sweepEach_eq (now : Time) (rows : List (Nat × ProcessingJob P)) (db : Db P) :
    sweepEach now rows db = (sweeping now).applyEach rows db := by
  induction rows generalizing db with
  | nil => rfl
  | cons r rows ih => exact ih _

theorem step_eq_applyEach (cfg : Config) (tx : Tx P) :
    (step cfg tx.loaded (tx.call.toCall, tx.now)).2 =
      (tx.call.ending cfg tx.now).applyEach tx.rows tx.loaded := by
  obtain ⟨call, now, db⟩ := tx
  cases call with
  | complete j w =>
    simp only [step, TxCall.toCall, complete, Tx.rows, TxCall.ending]
    cases db.jobs.get? j with
    | none => rfl
    | some job => by_cases ho : ownsLiveJob (some job) w now = true <;> simp only [ho] <;> rfl
  | fail j w code message retryable =>
    simp only [step, TxCall.toCall, fail, Tx.rows, TxCall.ending]
    cases db.jobs.get? j with
    | none => rfl
    | some job => by_cases ho : ownsLiveJob (some job) w now = true <;> simp only [ho] <;> rfl
  | sweepExpired => exact sweepEach_eq now _ db

theorem mem_rows {tx : Tx P} {r : Nat × ProcessingJob P} (h : r ∈ tx.rows) :
    tx.loaded.jobs.get? r.1 = some r.2 ∧ r.2.status = .running := by
  obtain ⟨call, now, db⟩ := tx
  have howned : ∀ j w, r ∈ (match db.jobs.get? j with
      | none => []
      | some job => if ownsLiveJob (some job) w now then [(j, job)] else []) →
      db.jobs.get? r.1 = some r.2 ∧ r.2.status = .running := by
    intro j w hr
    cases hj : db.jobs.get? j with
    | none => simp [hj] at hr
    | some job =>
      by_cases ho : ownsLiveJob (some job) w now = true
      · simp only [hj, ho, if_true, List.mem_singleton] at hr
        subst hr
        refine ⟨hj, ?_⟩
        unfold ownsLiveJob at ho
        by_contra hne
        simp [hne] at ho
      · simp [hj, ho] at hr
  cases call with
  | complete j w => exact howned j w h
  | fail j w code message retryable => exact howned j w h
  | sweepExpired =>
    obtain ⟨hg, he⟩ := (db.jobs.mem_select _ r.1 r.2).mp h
    refine ⟨hg, ?_⟩
    unfold expired at he
    by_contra hne
    simp [hne] at he

theorem rows_loaded (tx : Tx P) : Rows tx.loaded tx.rows := by
  refine ⟨?_, fun r hr => (mem_rows hr).1⟩
  obtain ⟨call, now, db⟩ := tx
  have howned : ∀ j w, ((match db.jobs.get? j with
      | none => []
      | some job => if ownsLiveJob (some job) w now then [(j, job)] else [] :
        List (Nat × ProcessingJob P)).map Prod.fst).Nodup := by
    intro j w
    cases db.jobs.get? j with
    | none => simp
    | some job => by_cases ho : ownsLiveJob (some job) w now = true <;> simp [ho]
  cases call with
  | complete j w => exact howned j w
  | fail j w code message retryable => exact howned j w
  | sweepExpired => exact db.jobs.select_keys_nodup _

/-! ## Write-back of the three kinds of rows -/

theorem writeJob_unchanged (l row : ProcessingJob P) : writeJob l l row = row := by
  simp [writeJob]

theorem writeAttempt_unchanged (l row : JobAttempt) : writeAttempt l l row = row := by
  simp [writeAttempt]

theorem writeEvent_unchanged (l row : OutboxEvent P) : writeEvent l l row = row := by
  simp [writeEvent]

/-- The write-back of an attempt keeps its job and its number. -/
theorem writeBackRow_attempt (l c : Option JobAttempt) (a : JobAttempt) :
    (Table.writeBackRow writeAttempt l c a).jobId = a.jobId ∧
      (Table.writeBackRow writeAttempt l c a).attemptNo = a.attemptNo := by
  cases l with
  | none => exact ⟨rfl, rfl⟩
  | some l =>
    cases c with
    | none => exact ⟨rfl, rfl⟩
    | some c => exact ⟨rfl, rfl⟩

theorem writeJob_ending (cfg : Config) (now : Time) (call : TxCall) (job : ProcessingJob P) :
    writeJob job ((call.ending cfg now).row job) job = (call.ending cfg now).row job := by
  cases call with
  | complete j w => simp [TxCall.ending, completing, completedRow, unlocked, writeJob]
  | fail j w code message retryable =>
    simp [TxCall.ending, failing, failedRow, unlocked, writeJob]
  | sweepExpired => simp [TxCall.ending, sweeping, sweptRow, unlocked, writeJob]

theorem writeAttempt_ending (cfg : Config) (now : Time) (call : TxCall) (job : ProcessingJob P)
    (a : JobAttempt) :
    writeAttempt a ((call.ending cfg now).attempt job a) a = (call.ending cfg now).attempt job a := by
  cases call with
  | complete j w => simp [TxCall.ending, completing, completedAttempt, writeAttempt]
  | fail j w code message retryable =>
    simp [TxCall.ending, failing, failedAttempt, writeAttempt]
  | sweepExpired =>
    simp only [TxCall.ending, sweeping, sweptAttempt]
    split
    · simp [writeAttempt]
    · exact writeAttempt_unchanged a a

theorem writeEvent_ending (cfg : Config) (now : Time) (call : TxCall) (job : ProcessingJob P)
    (event : OutboxEvent P) :
    writeEvent event ((call.ending cfg now).event job event) event =
      (call.ending cfg now).event job event := by
  cases call with
  | complete j w => simp [TxCall.ending, completing, completedEvent, writeEvent]
  | fail j w code message retryable => simp [TxCall.ending, failing, failedEvent, writeEvent]
  | sweepExpired => simp [TxCall.ending, sweeping, failedEvent, writeEvent]

/-! ## A commit on the rows that were read -/

/-- How far a job has come: every claim and every ending adds one or more. -/
def phase (job : ProcessingJob P) : Nat :=
  2 * job.attemptCount + if job.status = .running then 0 else 1

/-- Every story is as before or has moved on. -/
def Advances (db db' : Db P) : Prop :=
  ∀ k s, storyOf db k = some s →
    ∃ s', storyOf db' k = some s' ∧ (s' = s ∨ phase s.job < phase s'.job)

theorem Advances.refl (db : Db P) : Advances db db := fun _ s hs => ⟨s, hs, Or.inl rfl⟩

theorem Advances.trans {a b c : Db P} (hab : Advances a b) (hbc : Advances b c) : Advances a c := by
  intro k s hs
  obtain ⟨s', hs', h⟩ := hab k s hs
  obtain ⟨s'', hs'', h'⟩ := hbc k s' hs'
  refine ⟨s'', hs'', ?_⟩
  rcases h with rfl | h
  · exact h'
  · rcases h' with rfl | h'
    · exact Or.inr h
    · exact Or.inr (Nat.lt_trans h h')

/-- A job row that is still as it was read has its whole story as it was read. -/
theorem Advances.story_eq {a b : Db P} (h : Advances a b) {k : Nat} {job : ProcessingJob P}
    (ha : a.jobs.get? k = some job) (hb : b.jobs.get? k = some job) :
    ∃ s, storyOf a k = some s ∧ storyOf b k = some s ∧ s.job = job := by
  obtain ⟨s', hs', hor⟩ := h k _ (storyOf_eq_some ha)
  have hjob : s'.job = job := by
    have := job_of_storyOf hs'
    rw [hb] at this
    exact (Option.some.inj this).symm
  rcases hor with e | hlt
  · rw [e] at hs'
    exact ⟨_, storyOf_eq_some ha, hs', rfl⟩
  · rw [hjob] at hlt
    exact absurd hlt (Nat.lt_irrefl _)

section Commit

variable (cfg : Config) {db : Db P} {tx : Tx P}

/-- The tables after the call in the copy that the transaction holds. -/
def Tx.changed (tx : Tx P) : Db P := (step cfg tx.loaded (tx.call.toCall, tx.now)).2

theorem latestAttempt_commitTx (db : Db P) (tx : Tx P) (k : Nat) :
    latestAttempt (commitTx cfg db tx).2 k = (latestAttempt db k).map fun q =>
      (q.1, Table.writeBackRow writeAttempt (tx.loaded.attempts.get? q.1)
        ((tx.changed cfg).attempts.get? q.1) q.2) := by
  refine latestAttempt_mapRows _ (fun i => Table.writeBackRow writeAttempt
    (tx.loaded.attempts.get? i) ((tx.changed cfg).attempts.get? i)) ?_ k
  exact fun i a => writeBackRow_attempt _ _ a

/-- The story of a job that the transaction writes becomes the one in its
copy. -/
theorem storyOf_commitTx_written (hsep : SeparateEvents tx.loaded) (hadv : Advances tx.loaded db)
    {r : Nat × ProcessingJob P} (hr : r ∈ tx.rows) (hfresh : db.jobs.get? r.1 = some r.2) :
    storyOf (commitTx cfg db tx).2 r.1 =
      (storyOf db r.1).map (tx.call.ending cfg tx.now).story := by
  obtain ⟨s, hl, hc, -⟩ := hadv.story_eq (mem_rows hr).1 hfresh
  have hch : storyOf (tx.changed cfg) r.1 = some ((tx.call.ending cfg tx.now).story s) := by
    rw [Tx.changed, step_eq_applyEach, Ending.storyOf_applyEach _ _ hsep (rows_loaded tx),
      if_pos (List.mem_map.mpr ⟨r, hr, rfl⟩), hl, Option.map_some]
  rw [hc, Option.map_some]
  refine storyOf_intro ?_ ?_ ?_
  · exact Table.get?_writeBack_of_fresh (job_of_storyOf hl) (job_of_storyOf hch)
      (writeJob_ending cfg tx.now tx.call _) (job_of_storyOf hc)
  · have hlatest := attempt_of_storyOf hl
    have hlatest' := attempt_of_storyOf hch
    rw [latestAttempt_commitTx, attempt_of_storyOf hc]
    cases hq : s.attempt with
    | none => simp [Ending.story, hq]
    | some q =>
      rw [hq] at hlatest
      simp only [Ending.story, hq, Option.map_some] at hlatest' ⊢
      simp only [(latestAttempt_mem hlatest).1, (latestAttempt_mem hlatest').1,
        Table.writeBackRow, writeAttempt_ending]
  · have hevent := event_of_storyOf hl
    have hevent' := event_of_storyOf hch
    have heventc := event_of_storyOf hc
    simp only [Ending.story, Ending.row_outboxEventId] at hevent' ⊢
    cases hv : s.job.outboxEventId with
    | none => simpa [hv] using hevent'
    | some v =>
      simp only [hv, Option.bind_some] at hevent hevent' heventc ⊢
      cases hs : s.event with
      | none =>
        rw [hs] at heventc
        simp [commitTx, Table.get?_writeBack, heventc]
      | some event =>
        rw [hs] at hevent hevent' heventc
        exact Table.get?_writeBack_of_fresh hevent hevent'
          (writeEvent_ending cfg tx.now tx.call _ event) heventc

/-- The story of a job that the transaction does not write stays. -/
theorem storyOf_commitTx_unwritten (hsep : SeparateEvents db) (hadv : Advances tx.loaded db)
    (hfresh : Fresh db tx) {k : Nat} (hk : k ∉ tx.rows.map Prod.fst) :
    storyOf (commitTx cfg db tx).2 k = storyOf db k := by
  have hjobs : (commitTx cfg db tx).2.jobs.get? k = db.jobs.get? k := by
    refine Table.get?_writeBack_of_unchanged writeJob_unchanged db.jobs ?_
    rw [step_eq_applyEach]
    exact Ending.applyEach_jobs_of_notMem _ _ _ hk
  have hne : ∀ r ∈ tx.rows, r.1 ≠ k := by
    rintro r hr rfl
    exact hk (List.mem_map.mpr ⟨r, hr, rfl⟩)
  cases hs : storyOf db k with
  | none =>
    have hnone : db.jobs.get? k = none := by simpa [storyOf] using hs
    simp [storyOf, hjobs, hnone]
  | some s =>
    refine storyOf_intro (hjobs.trans (job_of_storyOf hs)) ?_ ?_
    · rw [latestAttempt_commitTx, attempt_of_storyOf hs]
      cases hq : s.attempt with
      | none => rfl
      | some q =>
        have hmem := latestAttempt_mem ((attempt_of_storyOf hs).trans hq)
        -- the attempt of another job cannot be the latest of one that is written
        have hsame : (tx.changed cfg).attempts.get? q.1 = tx.loaded.attempts.get? q.1 := by
          rw [Tx.changed, step_eq_applyEach]
          refine Ending.applyEach_attempts_of_ne _ _ (rows_loaded tx) fun r hr hlatest => ?_
          obtain ⟨s', hl, hc, -⟩ := hadv.story_eq (mem_rows hr).1 (hfresh r hr)
          rw [attempt_of_storyOf hl, ← attempt_of_storyOf hc] at hlatest
          obtain ⟨q', hq', he⟩ := Option.map_eq_some_iff.mp hlatest
          have hmem' := latestAttempt_mem hq'
          rw [he, hmem.1] at hmem'
          have hqq : q.2 = q'.2 := Option.some.inj hmem'.1
          exact hne r hr (by rw [← hmem'.2, ← hmem.2, hqq])
        rw [Option.map_some, hsame, Table.writeBackRow_unchanged writeAttempt_unchanged]
    · rw [← event_of_storyOf hs]
      cases hv : s.job.outboxEventId with
      | none => rfl
      | some v =>
        refine Table.get?_writeBack_of_unchanged writeEvent_unchanged db.events ?_
        rw [step_eq_applyEach]
        refine Ending.applyEach_events_of_ne _ _ _ fun r hr hrv => ?_
        exact hne r hr (hsep r.1 k r.2 s.job v (hfresh r hr) (job_of_storyOf hs) hrv hv)

end Commit

/-! ## One step of the system -/

/-- What one step can do to the story of job `k`. -/
inductive Moves (cfg : Config) (k : Nat) (s : Story P) : Story P → Prop
  | stays : Moves cfg k s s
  | claimed (w : String) (now : Time) (i : Nat)
      (h : s.job.status = .pending ∨ s.job.status = .retryWait) :
      Moves cfg k s (claimedStory cfg w now k i s)
  | ended (call : TxCall) (now : Time) (h : s.job.status = .running) :
      Moves cfg k s ((call.ending cfg now).story s)

/-- The consistent states, with every open transaction behind the database. -/
structure Sound (st : System P) : Prop where
  consistent : Consistent st.db
  opened : ∀ tx ∈ st.opened, SeparateEvents tx.loaded ∧ Advances tx.loaded st.db

theorem Moves.agree {cfg : Config} {k : Nat} {s s' : Story P} (h : Moves cfg k s s')
    (hs : Agree s) : Agree s' := by
  cases h with
  | stays => exact hs
  | claimed w now i hc => exact claimedStory_agree cfg w now k i hs hc
  | ended call now hr =>
    cases call with
    | complete j w => exact completing_agree now hs hr
    | fail j w code message retryable => exact failing_agree cfg code message retryable now hs hr
    | sweepExpired => exact sweeping_agree now hs hr

theorem Moves.phase {cfg : Config} {k : Nat} {s s' : Story P} (h : Moves cfg k s s') :
    s' = s ∨ phase s.job < phase s'.job := by
  cases h with
  | stays => exact Or.inl rfl
  | claimed w now i hc =>
    right
    simp only [claimedStory, claimedRow, Worker.phase, if_true]
    split <;> omega
  | ended call now hr =>
    right
    have hne := (call.ending cfg now).row_status s.job
    change Worker.phase s.job < Worker.phase ((call.ending cfg now).row s.job)
    rw [Worker.phase, Worker.phase, if_pos hr, if_neg hne, Ending.row_attemptCount]
    omega

/-- A succeeded job does not move. -/
theorem Moves.eq_of_succeeded {cfg : Config} {k : Nat} {s s' : Story P} (h : Moves cfg k s s')
    (hs : s.job.status = .succeeded) : s' = s := by
  cases h with
  | stays => rfl
  | claimed w now i hc => simp [hs] at hc
  | ended call now hr => simp [hs] at hr

/-- The database after a step: every story moves, and no row changes its event
or its number. -/
structure Step (cfg : Config) (db db' : Db P) : Prop where
  separate : SeparateEvents db'
  numbered : Numbered db'
  moves : ∀ k, Option.Rel (Moves cfg k) (storyOf db k) (storyOf db' k)

theorem moves_refl (cfg : Config) (k : Nat) (o : Option (Story P)) :
    Option.Rel (Moves cfg k) o o := by
  cases o with
  | none => exact .none
  | some s => exact .some .stays

theorem step_claimJobs (cfg : Config) {db : Db P} (h : Consistent db) (w : String) (limit : Nat)
    (now : Time) : Step cfg db (claimJobs cfg db w limit now).2 := by
  obtain ⟨hsep, hnum, hstory⟩ := claimEach_stories cfg w now _ h.separate h.numbered
    (rows_selectForClaim db limit now)
  refine ⟨hsep, hnum, fun k => ?_⟩
  by_cases hk : k ∈ (selectForClaim db limit now).map Prod.fst
  · obtain ⟨⟨k', job⟩, hr, rfl⟩ := List.mem_map.mp hk
    obtain ⟨hj, hc⟩ := mem_selectForClaim hr
    obtain ⟨i, hi⟩ := (hstory k').2 hk
    rw [claimJobs, hi, storyOf_eq_some hj, Option.map_some]
    exact .some (.claimed w now i (claimable_status hc))
  · rw [claimJobs, (hstory k).1 hk]
    exact moves_refl cfg k _

theorem step_commitTx (cfg : Config) {db : Db P} (h : Consistent db) {tx : Tx P}
    (hsep : SeparateEvents tx.loaded) (hadv : Advances tx.loaded db) (hfresh : Fresh db tx) :
    Step cfg db (commitTx cfg db tx).2 := by
  have hjobs : ∀ k row, (commitTx cfg db tx).2.jobs.get? k = some row →
      ∃ old, db.jobs.get? k = some old ∧ old.outboxEventId = row.outboxEventId ∧
        old.attemptCount = row.attemptCount := by
    intro k row hrow
    rw [commitTx, Table.get?_writeBack] at hrow
    obtain ⟨old, hold, rfl⟩ := Option.map_eq_some_iff.mp hrow
    refine ⟨old, hold, ?_⟩
    unfold Table.writeBackRow
    split <;> exact ⟨rfl, rfl⟩
  refine ⟨?_, ?_, fun k => ?_⟩
  · refine separateEvents_of_kept h.separate fun k row hrow => ?_
    obtain ⟨old, hold, he, -⟩ := hjobs k row hrow
    exact ⟨old, hold, he⟩
  · intro i a row ha hrow
    obtain ⟨old, hold, -, hcount⟩ := hjobs _ row hrow
    rw [commitTx, Table.get?_writeBack] at ha
    obtain ⟨b, hb, rfl⟩ := Option.map_eq_some_iff.mp ha
    obtain ⟨hjob, hno⟩ := writeBackRow_attempt (tx.loaded.attempts.get? i)
      ((step cfg tx.loaded (tx.call.toCall, tx.now)).2.attempts.get? i) b
    rw [hjob] at hold
    rw [← hcount, hno]
    exact h.numbered i b old hb hold
  · by_cases hk : k ∈ tx.rows.map Prod.fst
    · obtain ⟨r, hr, rfl⟩ := List.mem_map.mp hk
      rw [storyOf_commitTx_written cfg hsep hadv hr (hfresh r hr), storyOf_eq_some (hfresh r hr),
        Option.map_some]
      exact .some (.ended tx.call tx.now (mem_rows hr).2)
    · rw [storyOf_commitTx_unwritten cfg h.separate hadv hfresh hk]
      exact moves_refl cfg k _

theorem Step.consistent {cfg : Config} {db db' : Db P} (hstep : Step cfg db db')
    (h : Consistent db) : Consistent db' := by
  refine ⟨hstep.separate, hstep.numbered, fun k s' hs' => ?_⟩
  have hm := hstep.moves k
  rw [hs'] at hm
  cases hs : storyOf db k with
  | none => rw [hs] at hm; cases hm
  | some s =>
    rw [hs] at hm
    cases hm with
    | some hm => exact hm.agree (h.agree k s hs)

theorem Step.advances {cfg : Config} {db db' : Db P} (hstep : Step cfg db db') :
    Advances db db' := by
  intro k s hs
  have hm := hstep.moves k
  rw [hs] at hm
  cases hs' : storyOf db' k with
  | none => rw [hs'] at hm; cases hm
  | some s' =>
    rw [hs'] at hm
    cases hm with
    | some hm => exact ⟨s', rfl, hm.phase⟩

/-- **One step.**  A step that commits on the rows it read moves every story
by the rules of `Moves`. -/
theorem txStep_step (cfg : Config) {st : System P} (h : Sound st) (input : TxInput)
    (hfresh : FreshCommit st input) : Step cfg st.db (txStep cfg st input).2.db := by
  have hrefl : Step cfg st.db st.db :=
    ⟨h.consistent.separate, h.consistent.numbered, fun k => moves_refl cfg k _⟩
  cases input with
  | claimJobs w limit now => exact step_claimJobs cfg h.consistent w limit now
  | read call now => exact hrefl
  | commit i =>
    simp only [txStep]
    cases hi : st.opened[i]? with
    | none => exact hrefl
    | some tx =>
      obtain ⟨hsep, hadv⟩ := h.opened tx (List.mem_of_getElem? hi)
      exact step_commitTx cfg h.consistent hsep hadv (hfresh tx hi)

theorem opened_txStep (cfg : Config) (st : System P) (input : TxInput) :
    ∀ tx ∈ (txStep cfg st input).2.opened, tx ∈ st.opened ∨ tx.loaded = st.db := by
  intro tx htx
  cases input with
  | claimJobs w limit now => exact Or.inl htx
  | read call now =>
    rcases List.mem_append.mp htx with h | h
    · exact Or.inl h
    · rw [List.mem_singleton.mp h]
      exact Or.inr rfl
  | commit i =>
    simp only [txStep] at htx
    cases hi : st.opened[i]? with
    | none => rw [hi] at htx; exact Or.inl htx
    | some t =>
      rw [hi] at htx
      exact Or.inl (List.mem_of_mem_eraseIdx htx)

theorem sound_txStep (cfg : Config) (st : System P) (input : TxInput) (h : Sound st)
    (hfresh : FreshCommit st input) : Sound (txStep cfg st input).2 := by
  have hstep := txStep_step cfg h input hfresh
  refine ⟨hstep.consistent h.consistent, fun tx htx => ?_⟩
  have hclosed : (SeparateEvents tx.loaded ∧ Advances tx.loaded st.db) := by
    rcases opened_txStep cfg st input tx htx with hold | hnew
    · exact h.opened tx hold
    · rw [hnew]
      exact ⟨h.consistent.separate, Advances.refl _⟩
  exact ⟨hclosed.1, hclosed.2.trans hstep.advances⟩

theorem sound_start {db : Db P} (h : Consistent db) : Sound ⟨db, []⟩ :=
  ⟨h, fun _ htx => by cases htx⟩

/-! ## Runs -/

/-- The entry of a history claims job `k`. -/
def ClaimsIn (k : Nat) (reply : TxReply P) : Prop :=
  ∃ claims, reply = .claims claims ∧ ∃ c ∈ claims, c.jobId = k

theorem succeeded_step (cfg : Config) {st : System P} (h : Sound st) {input : TxInput}
    (hfresh : FreshCommit st input) {k : Nat} {s : Story P} (hs : storyOf st.db k = some s)
    (hdone : s.job.status = .succeeded) :
    storyOf (txStep cfg st input).2.db k = some s ∧ ¬ ClaimsIn k (txStep cfg st input).1 := by
  constructor
  · have hm := (txStep_step cfg h input hfresh).moves k
    rw [hs] at hm
    cases hs' : storyOf (txStep cfg st input).2.db k with
    | none => rw [hs'] at hm; cases hm
    | some s' =>
      rw [hs'] at hm
      cases hm with
      | some hm => rw [hm.eq_of_succeeded hdone]
  · rintro ⟨claims, hreply, c, hc, rfl⟩
    cases input with
    | claimJobs w limit now =>
      cases hreply
      obtain ⟨job, hsel, -⟩ := (claims_mem cfg st.db w limit now c).mp hc
      obtain ⟨hj, hcl⟩ := mem_selectForClaim hsel
      rw [job_of_storyOf hs] at hj
      cases hj
      rcases claimable_status hcl with e | e <;> simp [hdone] at e
    | read call now => cases hreply
    | commit i =>
      simp only [txStep] at hreply
      cases hi : st.opened[i]? with
      | none => rw [hi] at hreply; cases hreply
      | some tx => rw [hi] at hreply; cases hreply

theorem succeeded_run (cfg : Config) {k : Nat} {s : Story P} (hdone : s.job.status = .succeeded)
    (steps : List TxInput) {st : System P} (h : Sound st) (hs : storyOf st.db k = some s)
    (hfresh : Always (txStep cfg) FreshCommit st steps) :
    storyOf (exec (txStep cfg) st steps).db k = some s ∧
      ∀ e ∈ history (txStep cfg) st steps, ¬ ClaimsIn k e.2 := by
  induction steps generalizing st with
  | nil => exact ⟨hs, fun e he => by cases he⟩
  | cons input steps ih =>
    obtain ⟨hs', hnot⟩ := succeeded_step cfg h hfresh.1 hs hdone
    obtain ⟨hend, hrest⟩ := ih (sound_txStep cfg st input h hfresh.1) hs' hfresh.2
    refine ⟨hend, fun e he => ?_⟩
    rcases List.mem_cons.mp he with rfl | he
    · exact hnot
    · exact hrest e he

/-- A `complete` that returned true found its job in its hands. -/
theorem rows_of_complete_true (cfg : Config) {tx : Tx P} {k : Nat} {w : String}
    (hcall : tx.call = .complete k w)
    (hreply : (step cfg tx.loaded (tx.call.toCall, tx.now)).1 = .done true) :
    ∃ job, (k, job) ∈ tx.rows := by
  rw [hcall] at hreply
  simp only [step, TxCall.toCall, complete] at hreply
  cases hj : tx.loaded.jobs.get? k with
  | none => simp [hj] at hreply
  | some job =>
    by_cases ho : ownsLiveJob (some job) w tx.now = true
    · exact ⟨job, by simp [Tx.rows, hcall, hj, ho]⟩
    · simp [hj, ho] at hreply

theorem completed_commit (cfg : Config) {st : System P} (h : Sound st) {input : TxInput}
    (hfresh : FreshCommit st input) {k : Nat} {w : String}
    (hreply : (txStep cfg st input).1 = .committed (.complete k w) (.done true)) :
    ∃ s, storyOf (txStep cfg st input).2.db k = some s ∧ s.job.status = .succeeded := by
  cases input with
  | claimJobs w limit now => cases hreply
  | read call now => cases hreply
  | commit i =>
    simp only [txStep] at hreply ⊢
    cases hi : st.opened[i]? with
    | none => rw [hi] at hreply; cases hreply
    | some tx =>
      simp only [hi, TxReply.committed.injEq, commitTx] at hreply
      obtain ⟨hcall, hdone⟩ := hreply
      obtain ⟨job, hr⟩ := rows_of_complete_true cfg hcall hdone
      obtain ⟨hsep, hadv⟩ := h.opened tx (List.mem_of_getElem? hi)
      have hstory := storyOf_commitTx_written cfg hsep hadv hr (hfresh tx hi _ hr)
      rw [storyOf_eq_some (hfresh tx hi _ hr), Option.map_some, hcall] at hstory
      exact ⟨_, hstory, rfl⟩

/-- **One outcome for each attempt.**  Start from agreeing rows and let every
commit find the job rows it read.  Then the rows agree after every step, and
from a `complete` that returned true on, the story of its job (succeeded, the
attempt succeeded, the event completed) never changes and the job is never
claimed. -/
theorem fresh_commits_one_outcome (cfg : Config) {db : Db P} (hdb : Consistent db)
    (steps : List TxInput) (hfresh : Always (txStep cfg) FreshCommit ⟨db, []⟩ steps) :
    Consistent (exec (txStep cfg) ⟨db, []⟩ steps).db ∧
    ∀ before input after k w, steps = before ++ input :: after →
      (txStep cfg (exec (txStep cfg) ⟨db, []⟩ before) input).1 =
        .committed (.complete k w) (.done true) →
      ∃ s, s.job.status = .succeeded ∧
        s.attempt.map (fun q => q.2.outcome) = some .succeeded ∧
        (∀ event, s.event = some event → event.status = .completed) ∧
        (∀ middle rest, after = middle ++ rest →
          storyOf (exec (txStep cfg) ⟨db, []⟩ (before ++ input :: middle)).db k = some s) ∧
        ∀ e ∈ history (txStep cfg) (exec (txStep cfg) ⟨db, []⟩ (before ++ [input])) after,
          ¬ ClaimsIn k e.2 := by
  have hsound : ∀ is, Always (txStep cfg) FreshCommit ⟨db, []⟩ is →
      Sound (exec (txStep cfg) ⟨db, []⟩ is) := fun is his =>
    exec_invariant_of_always (sound_txStep cfg) (sound_start hdb) his
  refine ⟨(hsound steps hfresh).consistent, ?_⟩
  rintro before input after k w rfl hreply
  obtain ⟨hbefore, hinput, hafter⟩ := (always_append _ _ _ _).mp hfresh
  obtain ⟨s, hs, hdone⟩ := completed_commit cfg (hsound before hbefore) hinput hreply
  have hstart := sound_txStep cfg _ input (hsound before hbefore) hinput
  have hagree := (hstart.consistent.agree k s hs).told
  rw [hdone] at hagree
  refine ⟨s, hdone, hagree.1, ?_, ?_, ?_⟩
  · intro event hevent
    exact hagree.2 event.status (by rw [hevent]; rfl)
  · rintro middle rest rfl
    have hmiddle := ((always_append _ _ _ _).mp hafter).1
    rw [exec_append]
    exact (succeeded_run cfg hdone middle hstart hs hmiddle).1
  · rw [exec_snoc]
    exact (succeeded_run cfg hdone after hstart hs hafter).2

/-! ## A queue just dispatched -/

/-- Jobs that were dispatched and not claimed yet agree with their events. -/
theorem consistent_of_dispatched {db : Db P} (hsep : SeparateEvents db)
    (hjobs : ∀ k job, db.jobs.get? k = some job → job.status = .pending)
    (hevents : ∀ v event, db.events.get? v = some event → event.status = .dispatched)
    (hattempts : ∀ i, db.attempts.get? i = none) : Consistent db := by
  have hnone : ∀ k, latestAttempt db k = none := by
    intro k
    cases hq : latestAttempt db k with
    | none => rfl
    | some q =>
      have hget := (latestAttempt_mem hq).1
      rw [hattempts] at hget
      cases hget
  have hnum : Numbered db := by
    intro i a job ha
    rw [hattempts] at ha
    cases ha
  refine ⟨hsep, hnum, fun k s hs => ?_⟩
  have hattempt : s.attempt = none := (attempt_of_storyOf hs).symm.trans (hnone k)
  refine ⟨by simp [hattempt], ?_⟩
  rw [hjobs k s.job (job_of_storyOf hs), hattempt]
  refine ⟨by simp, by simp, fun status hstatus => ?_⟩
  obtain ⟨event, hevent, rfl⟩ := Option.map_eq_some_iff.mp hstatus
  rw [← event_of_storyOf hs] at hevent
  obtain ⟨v, -, hv⟩ := Option.bind_eq_some_iff.mp hevent
  exact Or.inr (Or.inl (hevents v event hv))

theorem oneJob_row {k : Nat} {job : ProcessingJob Unit} (h : oneJob.jobs.get? k = some job) :
    k = 0 := by
  by_contra hk
  have hnone : oneJob.jobs.get? k = none := by
    rw [oneJob, Table.get?_insert_ne _ _ hk, Table.get?_empty]
  rw [hnone] at h
  cases h

theorem oneJob_consistent : Consistent oneJob := by
  refine consistent_of_dispatched ?_ ?_ ?_ fun _ => rfl
  · intro i j a b v ha hb _ _
    rw [oneJob_row ha, oneJob_row hb]
  · intro k job hj
    cases oneJob_row hj
    have hrow : oneJob.jobs.get? 0 = some job := hj
    simp only [oneJob, Table.get?, Table.insert, Table.empty] at hrow
    cases hrow
    rfl
  · intro v event hv
    by_cases h0 : v = 0
    · subst h0
      simp only [oneJob, Table.get?, Table.insert, Table.empty] at hv
      cases hv
      rfl
    · rw [oneJob, Table.get?_insert_ne _ _ h0, Table.get?_empty] at hv
      cases hv

/-- A claim, and a `complete` that is read in time. -/
def claimedAndCompleting : List TxInput :=
  [.claimJobs "v13-worker" 1 0, .read (.complete 0 "v13-worker") (seconds 59)]

/-- **A late sweep reopens a succeeded job.**  The sweep reads the job after its
lease ran out, the `complete` that was read before commits, and then the sweep
commits what it read: the job waits for a retry, its attempt is abandoned, and
the next claim takes it as attempt 2. -/
theorem late_sweep_reopens_succeeded_job :
    let sweepRead := claimedAndCompleting ++ [.read .sweepExpired (seconds 61)]
    let st := exec (txStep {}) ⟨oneJob, []⟩ sweepRead
    let completed := (txStep {} st (.commit 0)).2
    let swept := (txStep {} completed (.commit 0)).2
    (txStep {} st (.commit 0)).1 = .committed (.complete 0 "v13-worker") (.done true) ∧
    (swept.db.jobs.get? 0).map (fun job => job.status) = some .retryWait ∧
    (latestAttempt swept.db 0).map (fun q => q.2.outcome) = some .abandoned ∧
    (swept.db.events.get? 0).map (fun event => event.status) = some .retryWait ∧
    (txStep {} swept (.claimJobs "v11-worker" 1 (seconds 62))).1 =
      .claims [⟨0, "candidate_extract", (), 2, seconds 122⟩] := by
  decide

theorem claimedAndCompleting_fresh :
    Always (txStep {}) FreshCommit ⟨oneJob, []⟩ (claimedAndCompleting ++ [.commit 0]) := by
  refine ⟨trivial, trivial, fun tx htx => ?_, trivial⟩
  cases htx
  unfold Fresh
  decide

/-- Without the sweep the same `complete` is final. -/
theorem complete_in_time_is_final :
    Consistent (exec (txStep {}) ⟨oneJob, []⟩ (claimedAndCompleting ++ [.commit 0])).db ∧
    ∃ s, storyOf (exec (txStep {}) ⟨oneJob, []⟩ (claimedAndCompleting ++ [.commit 0])).db 0 = some s ∧
      s.job.status = .succeeded := by
  obtain ⟨hcons, hfinal⟩ := fresh_commits_one_outcome {} oneJob_consistent
    (claimedAndCompleting ++ [.commit 0]) claimedAndCompleting_fresh
  obtain ⟨s, hdone, -, -, hstay, -⟩ :=
    hfinal claimedAndCompleting (.commit 0) [] 0 "v13-worker" rfl (by decide)
  exact ⟨hcons, s, hstay [] [] rfl, hdone⟩

end CodexMemory.Worker
