import CodexMemory.Worker.Fencing
import Mathlib.Logic.Function.Basic

/-!
# Batches of `process_once`

Any number of processes run `process_once`: claim a batch at one instant, then
for one claim after the other call the handler and report its result.  No
heartbeat is sent, so all leases of a batch run out together, however long the
first handlers take.  `handler_starts_live_iff` says when every handler starts
under the live lease of its own claim and when no job has two handlers at
once; `second_lease_starts_stale` is a run where neither holds.
-/

namespace CodexMemory.Worker

open CodexMemory.Trace

variable {P : Type}

/-! ## The model -/

/-- How a handler call ended: it returned, raised `PermanentJobError`, or
raised another error, with its class. -/
inductive HandlerResult
  | ok
  | permanent (message : String)
  | error (code message : String) (retryable : Bool)
  deriving DecidableEq

/-- Where the loop of `process_once` stands. -/
inductive Phase (P : Type)
  | between
  | handling (claim : JobClaim P)
  | reporting (claim : JobClaim P) (result : HandlerResult)

/-- A process: the claim it is at and the claims of the batch still to come. -/
structure Proc (P : Type) where
  phase : Phase P
  rest : List (JobClaim P)

def Proc.idle : Proc P := ⟨.between, []⟩

structure Workers (P : Type) where
  clock : Time
  db : Db P
  procs : Nat → Proc P

inductive Action
  | tick (d : Time)
  | sweepExpired
  | processOnce (p : Nat) (limit : Nat)
  | callHandler (p : Nat)
  | handlerEnds (p : Nat) (result : HandlerResult)
  | report (p : Nat)
  deriving DecidableEq

/-- The call by which `process_once` reports a result. -/
def reportCall (w : String) (claim : JobClaim P) : HandlerResult → Call
  | .ok => .complete claim.jobId w
  | .permanent message => .fail claim.jobId w "permanent" message false
  | .error code message retryable => .fail claim.jobId w code message retryable

def setProc (st : Workers P) (p : Nat) (proc : Proc P) : Workers P :=
  { st with procs := Function.update st.procs p proc }

/-- One action; the reply names the claim whose handler it starts.  `name` is
the `worker_id` of each process. -/
def act (cfg : Config) (name : Nat → String) (st : Workers P) :
    Action → Option (JobClaim P) × Workers P
  | .tick d => (none, { st with clock := st.clock + d })
  | .sweepExpired => (none, { st with db := (step cfg st.db (.sweepExpired, st.clock)).2 })
  | .processOnce p limit =>
    match st.procs p with
    | ⟨.between, []⟩ =>
      let out := claimJobs cfg st.db (name p) limit st.clock
      (none, setProc { st with db := out.2 } p ⟨.between, out.1⟩)
    | _ => (none, st)
  | .callHandler p =>
    match st.procs p with
    | ⟨.between, claim :: rest⟩ => (some claim, setProc st p ⟨.handling claim, rest⟩)
    | _ => (none, st)
  | .handlerEnds p result =>
    match st.procs p with
    | ⟨.handling claim, rest⟩ => (none, setProc st p ⟨.reporting claim result, rest⟩)
    | _ => (none, st)
  | .report p =>
    match st.procs p with
    | ⟨.reporting claim result, rest⟩ =>
      (none, setProc { st with
        db := (step cfg st.db (reportCall (name p) claim result, st.clock)).2 } p ⟨.between, rest⟩)
    | _ => (none, st)

/-! ## What is asked of a run -/

/-- The job runs under this very claim, with a lease that has not run out. -/
def LiveUnder (db : Db P) (claim : JobClaim P) (now : Time) : Prop :=
  ∃ row lease, db.jobs.get? claim.jobId = some row ∧ row.status = .running ∧
    row.attemptCount = claim.attemptNo ∧ row.leaseExpiresAt = some lease ∧ now < lease

/-- A handler that is called is called under the live lease of its claim. -/
def StartsLive (cfg : Config) (name : Nat → String) (st : Workers P) (action : Action) : Prop :=
  ∀ claim, (act cfg name st action).1 = some claim → LiveUnder st.db claim st.clock

/-- A handler that is called is called before the lease of its claim runs out. -/
def StartsInTime (cfg : Config) (name : Nat → String) (st : Workers P) (action : Action) : Prop :=
  ∀ claim, (act cfg name st action).1 = some claim → st.clock < claim.leaseExpiresAt

/-- Time does not carry a handler that is in progress past its lease. -/
def FinishesInTime (st : Workers P) : Action → Prop
  | .tick d => ∀ p claim, (st.procs p).phase = .handling claim → st.clock + d < claim.leaseExpiresAt
  | _ => True

/-- A result reported after its lease ran out is refused: the name of the
process is not that of the present owner. -/
def LateReportRefused (name : Nat → String) (st : Workers P) : Action → Prop
  | .report p => ∀ claim result, (st.procs p).phase = .reporting claim result →
      claim.leaseExpiresAt ≤ st.clock →
      ownsLiveJob (st.db.jobs.get? claim.jobId) (name p) st.clock = false
  | _ => True

/-- No job has two handlers in progress. -/
def Exclusive (st : Workers P) : Prop :=
  ∀ p q c d, (st.procs p).phase = .handling c → (st.procs q).phase = .handling d →
    c.jobId = d.jobId → p = q

/-! ## The invariant -/

/-- The claim a process is at. -/
def Phase.claim? : Phase P → List (JobClaim P)
  | .between => []
  | .handling claim => [claim]
  | .reporting claim _ => [claim]

/-- The claims a process has not reported on yet. -/
def Proc.held (proc : Proc P) : List (JobClaim P) := proc.phase.claim? ++ proc.rest

/-- What a held claim says about the row of its job. -/
structure HeldRow (w : String) (now : Time) (claim : JobClaim P) (row : ProcessingJob P) : Prop where
  count : claim.attemptNo ≤ row.attemptCount
  lease : row.status = .running → row.attemptCount = claim.attemptNo →
    row.leaseExpiresAt = some claim.leaseExpiresAt
  live : now < claim.leaseExpiresAt →
    row.status = .running ∧ row.attemptCount = claim.attemptNo ∧ row.lockedBy = some w

/-- Every held claim fits its row, and no two are of the same attempt. -/
structure Held (name : Nat → String) (st : Workers P) : Prop where
  row : ∀ p c, c ∈ (st.procs p).held →
    ∃ row, st.db.jobs.get? c.jobId = some row ∧ HeldRow (name p) st.clock c row
  distinct : ∀ p q c d, c ∈ (st.procs p).held → d ∈ (st.procs q).held → c.jobId = d.jobId →
    c.attemptNo = d.attemptNo → p = q
  nodup : ∀ p, ((st.procs p).held.map fun c => c.jobId).Nodup

theorem Held.liveUnder_iff {name : Nat → String} {st : Workers P} (h : Held name st) {p : Nat}
    {c : JobClaim P} (hc : c ∈ (st.procs p).held) :
    LiveUnder st.db c st.clock ↔ st.clock < c.leaseExpiresAt := by
  obtain ⟨row, hrow, hfit⟩ := h.row p c hc
  constructor
  · rintro ⟨row', lease, hrow', hrun, hcount, hlease, hlt⟩
    rw [hrow] at hrow'
    cases hrow'
    rw [hfit.lease hrun hcount] at hlease
    cases hlease
    exact hlt
  · intro hlt
    obtain ⟨hrun, hcount, -⟩ := hfit.live hlt
    exact ⟨row, _, hrow, hrun, hcount, hfit.lease hrun hcount, hlt⟩

/-! ## Rows under a step -/

theorem HeldRow.later {w : String} {now : Time} {c : JobClaim P} {row : ProcessingJob P}
    (h : HeldRow w now c row) (d : Time) : HeldRow w (now + d) c row :=
  ⟨h.count, h.lease, fun hlt => h.live (Nat.lt_of_le_of_lt (Nat.le_add_right now d) hlt)⟩

/-- A claim whose lease has run out fits any row of at least its attempt that
is not running under it. -/
theorem HeldRow.over {w : String} {now : Time} {c : JobClaim P} {row : ProcessingJob P}
    (hlease : ¬ now < c.leaseExpiresAt) (hcount : c.attemptNo ≤ row.attemptCount)
    (hrow : ¬ (row.status = .running ∧ row.attemptCount = c.attemptNo)) : HeldRow w now c row :=
  ⟨hcount, fun hrun heq => absurd ⟨hrun, heq⟩ hrow, fun hlt => absurd hlt hlease⟩

/-- `complete`, `fail` and `sweep_expired` leave a row alone or end it. -/
theorem report_effect (cfg : Config) (db : Db P) {k : Nat} {w : String} {claim : JobClaim P}
    (result : HandlerResult) (now : Time) (job : ProcessingJob P) :
    jobEffect cfg db k (reportCall w claim result, now) job = job ∨
      (k = claim.jobId ∧ ownsLiveJob (some job) w now = true ∧
        (jobEffect cfg db k (reportCall w claim result, now) job).status ≠ .running ∧
        (jobEffect cfg db k (reportCall w claim result, now) job).attemptCount = job.attemptCount) := by
  have hfail : ∀ code message retryable,
      (failedRow cfg code message retryable now job).status ≠ .running := by
    intro code message retryable
    simp only [failedRow, unlocked]
    split <;> simp
  by_cases h : k = claim.jobId ∧ ownsLiveJob (some job) w now = true
  · right
    refine ⟨h.1, h.2, ?_⟩
    cases result with
    | ok =>
      simp only [reportCall, jobEffect, if_pos h]
      exact ⟨by simp [completedRow, unlocked], rfl⟩
    | permanent message =>
      simp only [reportCall, jobEffect, if_pos h]
      exact ⟨hfail _ _ _, rfl⟩
    | error code message retryable =>
      simp only [reportCall, jobEffect, if_pos h]
      exact ⟨hfail _ _ _, rfl⟩
  · left
    cases result with
    | ok => simp only [reportCall, jobEffect, if_neg h]
    | permanent message => simp only [reportCall, jobEffect, if_neg h]
    | error code message retryable => simp only [reportCall, jobEffect, if_neg h]

/-- A report that is accepted ends the row under its own claim, and so no row
that another claim holds. -/
theorem heldRow_report (cfg : Config) {db : Db P} {w v : String} {now : Time}
    {c d : JobClaim P} {row : ProcessingJob P} (result : HandlerResult)
    (hd : HeldRow v now d row)
    (hother : ownsLiveJob (some row) w now = true → d.jobId = c.jobId → ¬ now < d.leaseExpiresAt) :
    HeldRow v now d (jobEffect cfg db d.jobId (reportCall w c result, now) row) := by
  rcases report_effect cfg db result now row with
    heq | ⟨hjob, hown, hend, hcount⟩
  · rw [heq]
    exact hd
  · exact .over (hother hown hjob) (by rw [hcount]; exact hd.count) fun h => hend h.1

theorem heldRow_sweep (cfg : Config) {db : Db P} {v : String} {now : Time} {d : JobClaim P}
    {row : ProcessingJob P} (hd : HeldRow v now d row) :
    HeldRow v now d (jobEffect cfg db d.jobId (.sweepExpired, now) row) := by
  simp only [jobEffect]
  split
  · next hexp =>
    refine .over ?_ hd.count fun h => sweptRow_not_running now row h.1
    intro hlt
    obtain ⟨hrun, hcount, -⟩ := hd.live hlt
    have hle : d.leaseExpiresAt ≤ now := by
      simpa [expired, hrun, hd.lease hrun hcount] using hexp
    exact Nat.lt_irrefl _ (Nat.lt_of_lt_of_le hlt hle)
  · exact hd

theorem heldRow_claims (cfg : Config) {db : Db P} {w v : String} {limit : Nat} {now : Time}
    {d : JobClaim P} {row : ProcessingJob P} (hrow : db.jobs.get? d.jobId = some row)
    (hd : HeldRow v now d row) :
    HeldRow v now d (jobEffect cfg db d.jobId (.claimJobs w limit, now) row) := by
  simp only [jobEffect]
  split
  · next hcl =>
    obtain ⟨⟨k, job⟩, hs, hk⟩ := List.mem_map.mp (show _ ∈ List.map _ _ from hcl)
    have hk' : k = d.jobId := hk
    subst hk'
    obtain ⟨hj, hc⟩ := mem_selectForClaim hs
    rw [hrow] at hj
    cases hj
    have hle := hd.count
    refine .over ?_ (Nat.le_succ_of_le hle) ?_
    · intro hlt
      simp only [claimable, (hd.live hlt).1, Bool.and_eq_true, Bool.or_eq_true,
        decide_eq_true_eq] at hc
      rcases hc.1.1 with h | h <;> cases h
    · rintro ⟨-, hcount⟩
      simp only [claimedRow] at hcount
      omega
  · exact hd

/-! ## One action -/

theorem held_setProc_ne {st : Workers P} {p q : Nat} (proc : Proc P) (h : q ≠ p) :
    (setProc st p proc).procs q = st.procs q := by
  simp [setProc, h]

theorem held_setProc_self (st : Workers P) (p : Nat) (proc : Proc P) :
    (setProc st p proc).procs p = proc := by
  simp [setProc]

/-- An action after which every process holds no more than before keeps the
invariant when it keeps the rows. -/
theorem Held.of_sublist {name : Nat → String} {st st' : Workers P} (h : Held name st)
    (hheld : ∀ p, ((st'.procs p).held).Sublist (st.procs p).held)
    (hrow : ∀ p c row, c ∈ (st'.procs p).held → st.db.jobs.get? c.jobId = some row →
      HeldRow (name p) st.clock c row →
      ∃ row', st'.db.jobs.get? c.jobId = some row' ∧ HeldRow (name p) st'.clock c row') :
    Held name st' := by
  refine ⟨fun p c hc => ?_, fun p q c d hc hd => ?_, fun p => ?_⟩
  · obtain ⟨row, hj, hfit⟩ := h.row p c ((hheld p).subset hc)
    exact hrow p c row hc hj hfit
  · exact h.distinct p q c d ((hheld p).subset hc) ((hheld q).subset hd)
  · exact (h.nodup p).sublist ((hheld p).map _)

theorem heldRow_new (cfg : Config) (db : Db P) (w : String) (limit : Nat) (now : Time)
    {c : JobClaim P} (hc : c ∈ (claimJobs cfg db w limit now).1) :
    ∃ old row, db.jobs.get? c.jobId = some old ∧ c.attemptNo = old.attemptCount + 1 ∧
      (claimJobs cfg db w limit now).2.jobs.get? c.jobId = some row ∧ HeldRow w now c row := by
  obtain ⟨job, hs, e⟩ := (claims_mem cfg db w limit now c).mp hc
  obtain ⟨hj, -⟩ := mem_selectForClaim hs
  have hrow := claimEach_jobs_of_mem cfg w now _ (selectForClaim_nodup db limit now) db _ _ hs
  rw [hj, Option.map_some] at hrow
  have hno : c.attemptNo = job.attemptCount + 1 := by rw [e]; rfl
  have hlease : c.leaseExpiresAt = now + seconds cfg.leaseSeconds := by rw [e]; rfl
  refine ⟨job, _, hj, hno, hrow, ?_, ?_, ?_⟩
  · simp [claimedRow, hno]
  · intro _ _
    simp [claimedRow, hlease]
  · intro _
    simp [claimedRow, hno]

theorem claims_nodup (cfg : Config) (db : Db P) (w : String) (limit : Nat) (now : Time) :
    ((claimJobs cfg db w limit now).1.map fun c => c.jobId).Nodup := by
  have h := selectForClaim_nodup db limit now
  rw [claimJobs, claimEach_claims, List.map_map]
  exact h

theorem held_claims (cfg : Config) {name : Nat → String} {st : Workers P} (h : Held name st)
    {p : Nat} (hidle : st.procs p = ⟨.between, []⟩) (limit : Nat) :
    Held name (setProc
      { st with db := (claimJobs cfg st.db (name p) limit st.clock).2 } p
      ⟨.between, (claimJobs cfg st.db (name p) limit st.clock).1⟩) := by
  have hold : ∀ q c, q ≠ p → c ∈ ((setProc
      { st with db := (claimJobs cfg st.db (name p) limit st.clock).2 } p
      ⟨.between, (claimJobs cfg st.db (name p) limit st.clock).1⟩).procs q).held →
      c ∈ (st.procs q).held := by
    intro q c hq hc
    rwa [held_setProc_ne _ hq] at hc
  have hnew : ∀ c, c ∈ ((setProc
      { st with db := (claimJobs cfg st.db (name p) limit st.clock).2 } p
      ⟨.between, (claimJobs cfg st.db (name p) limit st.clock).1⟩).procs p).held →
      c ∈ (claimJobs cfg st.db (name p) limit st.clock).1 := by
    intro c hc
    rwa [held_setProc_self] at hc
  -- a new attempt is numbered above every attempt that was held before
  have hfresh : ∀ q c d, d ∈ (st.procs q).held →
      c ∈ (claimJobs cfg st.db (name p) limit st.clock).1 → c.jobId = d.jobId →
      c.attemptNo ≠ d.attemptNo := by
    intro q c d hd hc hjob heq
    obtain ⟨old, -, hj, hno, -, -⟩ := heldRow_new cfg st.db (name p) limit st.clock hc
    obtain ⟨row, hj', hfit⟩ := h.row q d hd
    rw [← hjob, hj] at hj'
    cases hj'
    have hle := hfit.count
    omega
  refine ⟨fun q c hc => ?_, fun q r c d hc hd hjob hno => ?_, fun q => ?_⟩
  · by_cases hq : q = p
    · subst hq
      obtain ⟨-, row, -, -, hrow, hfit⟩ := heldRow_new cfg st.db (name q) limit st.clock (hnew c hc)
      exact ⟨row, hrow, hfit⟩
    · obtain ⟨row, hj, hfit⟩ := h.row q c (hold q c hq hc)
      have hstep := step_get?_jobs cfg st.db (.claimJobs (name p) limit, st.clock) c.jobId
      rw [hj, Option.map_some] at hstep
      exact ⟨_, hstep, heldRow_claims cfg hj hfit⟩
  · by_cases hq : q = p
    · by_cases hr : r = p
      · rw [hq, hr]
      · subst hq
        exact absurd hno (hfresh r c d (hold r d hr hd) (hnew c hc) hjob)
    · by_cases hr : r = p
      · subst hr
        exact absurd hno.symm (hfresh q d c (hold q c hq hc) (hnew d hd) hjob.symm)
      · exact h.distinct q r c d (hold q c hq hc) (hold r d hr hd) hjob hno
  · by_cases hq : q = p
    · subst hq
      rw [held_setProc_self]
      exact claims_nodup cfg st.db (name q) limit st.clock
    · rw [held_setProc_ne _ hq]
      exact h.nodup q

/-- Moving a process on, with the database as it was, keeps the invariant when
it holds no more claims than before. -/
theorem held_advance {name : Nat → String} {st : Workers P} (h : Held name st) {p : Nat}
    {proc : Proc P} (hsub : proc.held.Sublist (st.procs p).held) :
    Held name (setProc st p proc) := by
  refine h.of_sublist (fun q => ?_) fun q c row _ hj hfit => ⟨row, hj, hfit⟩
  by_cases hq : q = p
  · rw [hq, held_setProc_self]
    exact hsub
  · rw [held_setProc_ne _ hq]

theorem held_report (cfg : Config) {name : Nat → String} {st : Workers P} (h : Held name st)
    {p : Nat} {c : JobClaim P} {result : HandlerResult} {rest : List (JobClaim P)}
    (hp : st.procs p = ⟨.reporting c result, rest⟩)
    (hlate : LateReportRefused name st (.report p)) :
    Held name (setProc { st with
      db := (step cfg st.db (reportCall (name p) c result, st.clock)).2 } p ⟨.between, rest⟩) := by
  have hc : c ∈ (st.procs p).held := by simp [hp, Proc.held, Phase.claim?]
  have hsub : ∀ q, (((setProc { st with
      db := (step cfg st.db (reportCall (name p) c result, st.clock)).2 } p
      ⟨.between, rest⟩).procs q).held).Sublist (st.procs q).held := by
    intro q
    by_cases hq : q = p
    · rw [hq, held_setProc_self, hp]
      exact List.sublist_append_right _ _
    · rw [held_setProc_ne _ hq]
  refine h.of_sublist hsub fun q d row hd hj hfit => ?_
  have hother : ownsLiveJob (some row) (name p) st.clock = true → d.jobId = c.jobId →
      ¬ st.clock < d.leaseExpiresAt := by
    intro hown hjob hlt
    -- the report is accepted in time, so the row runs under both claims
    have hlive : st.clock < c.leaseExpiresAt := by
      by_contra hge
      have := hlate c result (by rw [hp]) (Nat.not_lt.mp hge)
      rw [← hjob, hj, hown] at this
      cases this
    obtain ⟨row', hj', hfit'⟩ := h.row p c hc
    rw [← hjob, hj] at hj'
    cases hj'
    have hno : d.attemptNo = c.attemptNo := by
      rw [← (hfit.live hlt).2.1, ← (hfit'.live hlive).2.1]
    have hqp := h.distinct q p d c ((hsub q).subset hd) hc hjob hno
    subst hqp
    rw [held_setProc_self] at hd
    have hnd := h.nodup q
    simp only [hp, Proc.held, Phase.claim?, List.singleton_append, List.map_cons,
      List.nodup_cons] at hnd
    exact hnd.1 (List.mem_map.mpr ⟨d, hd, hjob⟩)
  have hstep := step_get?_jobs cfg st.db (reportCall (name p) c result, st.clock) d.jobId
  rw [hj, Option.map_some] at hstep
  exact ⟨_, hstep, heldRow_report cfg result hfit hother⟩

theorem held_act (cfg : Config) (name : Nat → String) (st : Workers P) (action : Action)
    (h : Held name st) (hlate : LateReportRefused name st action) :
    Held name (act cfg name st action).2 := by
  cases action with
  | tick d =>
    exact h.of_sublist (fun _ => List.Sublist.refl _) fun p c row _ hj hfit =>
      ⟨row, hj, hfit.later d⟩
  | sweepExpired =>
    refine h.of_sublist (fun _ => List.Sublist.refl _) fun p c row _ hj hfit => ?_
    have hstep := step_get?_jobs cfg st.db (.sweepExpired, st.clock) c.jobId
    rw [hj, Option.map_some] at hstep
    exact ⟨_, hstep, heldRow_sweep cfg hfit⟩
  | processOnce p limit =>
    simp only [act]
    split
    · next hp => exact held_claims cfg h hp limit
    · exact h
  | callHandler p =>
    simp only [act]
    split
    · next claim rest hp =>
      refine held_advance h ?_
      rw [hp]
      exact List.Sublist.refl _
    · exact h
  | handlerEnds p result =>
    simp only [act]
    split
    · next claim rest hp =>
      refine held_advance h ?_
      rw [hp]
      exact List.Sublist.refl _
    · exact h
  | report p =>
    simp only [act]
    split
    · next claim result rest hp => exact held_report cfg h hp hlate
    · exact h

/-- The claim whose handler an action starts is held by the process. -/
theorem held_of_act (cfg : Config) (name : Nat → String) {st : Workers P} {action : Action}
    {c : JobClaim P} (h : (act cfg name st action).1 = some c) : ∃ p, c ∈ (st.procs p).held := by
  cases action with
  | callHandler p =>
    simp only [act] at h
    split at h
    · next claim rest hp =>
      cases h
      exact ⟨p, by simp [hp, Proc.held]⟩
    · cases h
  | tick d => cases h
  | sweepExpired => cases h
  | processOnce p limit =>
    simp only [act] at h
    split at h <;> cases h
  | handlerEnds p result =>
    simp only [act] at h
    split at h <;> cases h
  | report p =>
    simp only [act] at h
    split at h <;> cases h

theorem startsLive_iff (cfg : Config) {name : Nat → String} {st : Workers P} (h : Held name st)
    (action : Action) : StartsLive cfg name st action ↔ StartsInTime cfg name st action := by
  constructor
  · intro hlive c hc
    obtain ⟨p, hp⟩ := held_of_act cfg name hc
    exact (h.liveUnder_iff hp).mp (hlive c hc)
  · intro hin c hc
    obtain ⟨p, hp⟩ := held_of_act cfg name hc
    exact (h.liveUnder_iff hp).mpr (hin c hc)

/-! ## Handlers in progress -/

/-- Every handler in progress is within its lease. -/
def InTime (st : Workers P) : Prop :=
  ∀ p c, (st.procs p).phase = .handling c → st.clock < c.leaseExpiresAt

theorem inTime_setProc {st : Workers P} (h : InTime st) (p : Nat) {proc : Proc P}
    (hproc : ∀ c, proc.phase = .handling c → st.clock < c.leaseExpiresAt) :
    InTime (setProc st p proc) := by
  intro q c hq
  by_cases he : q = p
  · subst he
    rw [held_setProc_self] at hq
    exact hproc c hq
  · rw [held_setProc_ne _ he] at hq
    exact h q c hq

theorem inTime_act (cfg : Config) (name : Nat → String) (st : Workers P) (action : Action)
    (h : InTime st) (hstart : StartsInTime cfg name st action)
    (hfinish : FinishesInTime st action) : InTime (act cfg name st action).2 := by
  cases action with
  | tick d => exact hfinish
  | sweepExpired => exact h
  | processOnce p limit =>
    simp only [act]
    split
    · exact inTime_setProc (fun q c hq => h q c hq) p fun c hc => by cases hc
    · exact h
  | callHandler p =>
    simp only [StartsInTime, act] at hstart ⊢
    split
    · next claim rest hp =>
      refine inTime_setProc h p fun c hc => ?_
      cases hc
      exact hstart claim (by simp [hp])
    · exact h
  | handlerEnds p result =>
    simp only [act]
    split
    · exact inTime_setProc h p fun c hc => by cases hc
    · exact h
  | report p =>
    simp only [act]
    split
    · exact inTime_setProc (fun q c hq => h q c hq) p fun c hc => by cases hc
    · exact h

theorem exclusive_of_inTime {name : Nat → String} {st : Workers P} (h : Held name st)
    (hin : InTime st) : Exclusive st := by
  intro p q c d hp hq hjob
  have hc : c ∈ (st.procs p).held := by simp [Proc.held, hp, Phase.claim?]
  have hd : d ∈ (st.procs q).held := by simp [Proc.held, hq, Phase.claim?]
  obtain ⟨row, hj, hfit⟩ := h.row p c hc
  obtain ⟨row', hj', hfit'⟩ := h.row q d hd
  rw [← hjob, hj] at hj'
  cases hj'
  have hno : c.attemptNo = d.attemptNo := by
    rw [← (hfit.live (hin p c hp)).2.1, ← (hfit'.live (hin q d hq)).2.1]
  exact h.distinct p q c d hc hd hjob hno

/-! ## Runs -/

/-- No process has claimed anything yet. -/
def start (clock : Time) (db : Db P) : Workers P := ⟨clock, db, fun _ => .idle⟩

theorem held_start (name : Nat → String) (clock : Time) (db : Db P) :
    Held name (start clock db) := by
  refine ⟨?_, ?_, fun _ => List.nodup_nil⟩
  · intro p c hc
    cases hc
  · intro p q c d hc
    cases hc

/-- **Handlers and leases.**  In a run in which no result reported after its
lease is accepted for another attempt, every handler starts under the live
lease of its own claim exactly when every handler is called before that lease
runs out; and if no handler runs on past it either, no job ever has two
handlers in progress. -/
theorem handler_starts_live_iff (cfg : Config) (name : Nat → String) (clock : Time) (db : Db P)
    (actions : List Action)
    (hlate : Always (act cfg name) (LateReportRefused name) (start clock db) actions) :
    (Always (act cfg name) (StartsLive cfg name) (start clock db) actions ↔
      Always (act cfg name) (StartsInTime cfg name) (start clock db) actions) ∧
    (Always (act cfg name) (StartsInTime cfg name) (start clock db) actions →
      Always (act cfg name) FinishesInTime (start clock db) actions →
      Exclusive (exec (act cfg name) (start clock db) actions)) := by
  have hheld := held_start name clock db
  have hstep := held_act (P := P) cfg name
  refine ⟨⟨fun hlive => ?_, fun hin => ?_⟩, fun hin hfinish => ?_⟩
  · refine always_of_invariant (fun s i hs hg => hstep s i hs hg.1) (fun s i hs hg => ?_) hheld
      ((always_and _ _ _ _).mpr ⟨hlate, hlive⟩)
    exact (startsLive_iff cfg hs i).mp hg.2
  · refine always_of_invariant (fun s i hs hg => hstep s i hs hg.1) (fun s i hs hg => ?_) hheld
      ((always_and _ _ _ _).mpr ⟨hlate, hin⟩)
    exact (startsLive_iff cfg hs i).mpr hg.2
  · have hboth : ∀ (s : Workers P) i, (Held name s ∧ InTime s) →
        (LateReportRefused name s i ∧ StartsInTime cfg name s i ∧ FinishesInTime s i) →
        Held name (act cfg name s i).2 ∧ InTime (act cfg name s i).2 := by
      rintro s i ⟨hs, hsin⟩ ⟨hg, hgin, hgfinish⟩
      exact ⟨hstep s i hs hg, inTime_act cfg name s i hsin hgin hgfinish⟩
    have hnone : InTime (start clock db) := by
      intro p c hc
      cases hc
    obtain ⟨hend, hendin⟩ := exec_invariant_of_always hboth ⟨hheld, hnone⟩
      ((always_and _ _ _ _).mpr ⟨hlate, (always_and _ _ _ _).mpr ⟨hin, hfinish⟩⟩)
    exact exclusive_of_inTime hend hendin

/-! ## Two batches -/

/-- A job just dispatched. -/
def pendingJob (key : String) : ProcessingJob Unit :=
  { projectId := 1, jobType := "candidate_extract", aggregateType := "episode", aggregateId := 7
    jobKey := key, payloadVersion := "1.0", payload := (), nextAttemptAt := 0, createdAt := 0 }

def threeJobs : Db Unit where
  events := Table.empty
  jobs := ((Table.empty.insert (pendingJob "1")).insert (pendingJob "2")).insert (pendingJob "3")
  attempts := Table.empty

def twoNames (p : Nat) : String := if p = 0 then "worker-a" else "worker-b"

/-- The first two handlers of a batch of three take 40 seconds each; after 61
seconds a second process sweeps and claims. -/
def slowBatch : List Action :=
  [.processOnce 0 10, .callHandler 0, .tick (seconds 40), .handlerEnds 0 .ok, .report 0,
    .callHandler 0, .tick (seconds 21), .sweepExpired, .processOnce 1 10, .callHandler 1]

/-- **A lease is shared by the batch.**  With leases of 60 seconds and no
handler taking longer than 40, the second job has two handlers in progress,
and the handler of the third is then called for an attempt whose lease has run
out and whose job runs as attempt 2 of the other process. -/
theorem second_lease_starts_stale :
    let st := exec (act {} twoNames) (start 0 threeJobs) slowBatch
    let late := exec (act {} twoNames) st [.tick (seconds 19), .handlerEnds 0 .ok, .report 0]
    (∃ c d, (st.procs 0).phase = .handling c ∧ (st.procs 1).phase = .handling d ∧
      c.jobId = 1 ∧ d.jobId = 1) ∧
    (act {} twoNames late (.callHandler 0)).1 = some ⟨2, "candidate_extract", (), 1, seconds 60⟩ ∧
    late.clock = seconds 80 ∧
    (late.db.jobs.get? 2).map (fun job => (job.status, job.attemptCount, job.lockedBy)) =
      some (.running, 2, some "worker-b") := by
  refine ⟨⟨⟨1, "candidate_extract", (), 1, seconds 60⟩, ⟨1, "candidate_extract", (), 2, seconds 121⟩,
    rfl, rfl, rfl, rfl⟩, by decide, by decide, by decide⟩

/-- A batch of one whose handler takes 40 seconds. -/
def quickBatch : List Action :=
  [.processOnce 0 1, .callHandler 0, .tick (seconds 40), .handlerEnds 0 .ok, .report 0]

theorem quickBatch_reports : Always (act {} twoNames) (LateReportRefused twoNames)
    (start 0 threeJobs) quickBatch := by
  refine ⟨trivial, trivial, trivial, trivial, fun c r hc hle => ?_, trivial⟩
  cases hc
  exact absurd hle (by decide)

theorem quickBatch_starts : Always (act {} twoNames) (StartsInTime {} twoNames)
    (start 0 threeJobs) quickBatch := by
  refine ⟨?_, ?_, ?_, ?_, ?_, trivial⟩ <;> intro c hc <;> cases hc
  decide

theorem quickBatch_finishes : Always (act {} twoNames) FinishesInTime
    (start 0 threeJobs) quickBatch := by
  refine ⟨trivial, trivial, fun p c hc => ?_, trivial, trivial, trivial⟩
  by_cases hp : p = 0
  · subst hp
    cases hc
    decide
  · have hidle : (exec (act {} twoNames) (start 0 threeJobs)
        [.processOnce 0 1, .callHandler 0]).procs p = .idle := by
      change Function.update (Function.update (fun _ => Proc.idle) 0 _) 0 _ p = _
      rw [Function.update_of_ne hp, Function.update_of_ne hp]
    have hphase := congrArg Proc.phase hidle
    exact absurd (hphase.symm.trans hc) (by simp [Proc.idle])

theorem quickBatch_starts_live :
    Always (act {} twoNames) (StartsLive {} twoNames) (start 0 threeJobs) quickBatch ∧
      Exclusive (exec (act {} twoNames) (start 0 threeJobs) quickBatch) := by
  obtain ⟨hlive, hexcl⟩ := handler_starts_live_iff {} twoNames 0 threeJobs quickBatch
    quickBatch_reports
  exact ⟨hlive.mpr quickBatch_starts, hexcl quickBatch_starts quickBatch_finishes⟩

end CodexMemory.Worker
