import CodexMemory.Candidates.Rows
import CodexMemory.Candidates.Gate
import CodexMemory.Decisions.Jobs
import CodexMemory.Worker.Effects
import CodexMemory.Trace

/-!
# Dead decision jobs

A decision job that is dead has handed its candidate over when the candidate is
neither generated nor validating, or when a process is about to call `on_dead`
for the job.  `dead_jobs_handed_over_iff` says when all have, throughout a run;
`crashing_attempts_strand_candidate` is a run after which one has not.
-/

namespace CodexMemory.DecisionJobs

open Candidates (Candidate Rewrites)
open CodexMemory.Trace
open Worker (ProcessingJob Time)

variable {F : Type}

/-! ## What is asked of a state -/

/-- Job `k` is a `decide_candidate` job of candidate `c`. -/
def Decides (queue : Worker.Db (Json F)) (k c : Nat) : Prop :=
  ∃ job, queue.jobs.get? k = some job ∧ job.jobType = decisionJobType ∧
    candidateId? job.payload = some (c : Int)

def Dead (queue : Worker.Db (Json F)) (k : Nat) : Prop :=
  ∃ job, queue.jobs.get? k = some job ∧ job.status = .dead

/-- The candidate is generated or validating. -/
def Awaits (db : Candidates.Db F) (c : Nat) : Prop :=
  ∃ row, db.candidates.get? c = some row ∧ (row.status = .generated ∨ row.status = .validating)

/-- A process is about to call `on_dead` for job `k`. -/
def Owed (st : State F) (k : Nat) : Prop :=
  ∃ p claim e, (st.procs p).phase = .notifying claim e ∧ claim.jobId = k

/-- Every dead decision job has handed its candidate over, or is about to. -/
def HandedOver (st : State F) : Prop :=
  ∀ k c, Decides st.queue k c → Dead st.queue k → ¬ Awaits st.candidates c ∨ Owed st k

/-! ## What may go wrong -/

/-- The call makes job `k` dead: `fail` by its owner, or `sweep_expired`, with no
attempt left. -/
def Kills (queue : Worker.Db (Json F)) (k : Nat) : Worker.Call × Time → Prop
  | (.fail j w _ _ retryable, now) => j = k ∧ ∃ job, queue.jobs.get? k = some job ∧
      Worker.ownsLiveJob (some job) w now = true ∧
      ¬ (retryable = true ∧ job.attemptCount < job.maxAttempts)
  | (.sweepExpired, now) => ∃ job, queue.jobs.get? k = some job ∧
      Worker.expired now job = true ∧ ¬ job.attemptCount < job.maxAttempts
  | _ => False

/-- Job `k` dies outside `process_once`. -/
def DiesUnseen (st : State F) (k : Nat) : Action F → Prop
  | .queue call => Kills st.queue k (call, st.clock)
  | _ => False

/-- The process that is about to call `on_dead` for job `k` crashes, or the call
raises. -/
def Forgets (st : State F) (k : Nat) : Action F → Prop
  | .crash p | .notify p true => ∃ claim e, (st.procs p).phase = .notifying claim e ∧ claim.jobId = k
  | _ => False

/-- `begin_model_decision` of candidate `c`, by a handler or by anyone else. -/
def Begins (st : State F) (c : Nat) : Action F → Prop
  | .advance p => ∃ claim, (st.procs p).phase = .handling claim .begin ∧
      candidateId? claim.payload = some (c : Int)
  | .candidates (.beginModelDecision k) => k = c
  | _ => False

/-- The candidate is one that `begin_model_decision` makes validating. -/
def Reopenable (db : Candidates.Db F) (c : Nat) : Prop :=
  ∃ row, db.candidates.get? c = some row ∧
    (row.status = .generated ∨ row.status = .needsReview ∨ row.status = .validating)

/-- The three ways in which a candidate is left behind by its job. -/
structure Mishap (st : State F) (action : Action F) (k c : Nat) : Prop where
  decides : Decides st.queue k c
  left : DiesUnseen st k action ∧ Awaits st.candidates c ∨
    Forgets st k action ∧ Awaits st.candidates c ∨
    Begins st c action ∧ Reopenable st.candidates c ∧ Dead st.queue k ∧ ¬ Owed st k

def Careful (st : State F) (action : Action F) : Prop := ∀ k c, ¬ Mishap st action k c

/-! ## Rows of the queue -/

theorem jobEffect_keeps (cfg : Worker.Config) (queue : Worker.Db (Json F)) (k : Nat)
    (input : Worker.Call × Time) (job : ProcessingJob (Json F)) :
    (Worker.jobEffect cfg queue k input job).jobType = job.jobType ∧
      (Worker.jobEffect cfg queue k input job).payload = job.payload := by
  obtain ⟨call, now⟩ := input
  cases call <;> simp only [Worker.jobEffect] <;> split <;> exact ⟨rfl, rfl⟩

theorem decides_step (cfg : Worker.Config) (queue : Worker.Db (Json F)) (input : Worker.Call × Time)
    (k c : Nat) : Decides (Worker.step cfg queue input).2 k c ↔ Decides queue k c := by
  unfold Decides
  rw [Worker.step_get?_jobs]
  cases hk : queue.jobs.get? k with
  | none => simp
  | some job =>
    obtain ⟨htype, hpayload⟩ := jobEffect_keeps cfg queue k input job
    simp [htype, hpayload]

theorem not_dead_of_kills {queue : Worker.Db (Json F)} {k : Nat} {input : Worker.Call × Time}
    (h : Kills queue k input) : ¬ Dead queue k := by
  rintro ⟨job, hjob, hdead⟩
  obtain ⟨call, now⟩ := input
  cases call with
  | fail j w code message retryable =>
    obtain ⟨-, job', hjob', howns, -⟩ := h
    rw [hjob] at hjob'
    obtain rfl := Option.some.inj hjob'
    simp [Worker.ownsLiveJob, hdead] at howns
  | sweepExpired =>
    obtain ⟨job', hjob', hexpired, -⟩ := h
    rw [hjob] at hjob'
    obtain rfl := Option.some.inj hjob'
    simp [Worker.expired, hdead] at hexpired
  | _ => exact h

/-- A row that a call rewrites is dead afterwards exactly when the call kills it. -/
theorem dead_jobEffect (cfg : Worker.Config) {queue : Worker.Db (Json F)} {k : Nat}
    {job : ProcessingJob (Json F)} (hjob : queue.jobs.get? k = some job) (input : Worker.Call × Time) :
    (Worker.jobEffect cfg queue k input job).status = .dead ↔ job.status = .dead ∨ Kills queue k input := by
  obtain ⟨call, now⟩ := input
  have howned : ∀ w, Worker.ownsLiveJob (some job) w now = true → job.status ≠ .dead := by
    intro w howns hdead
    simp [Worker.ownsLiveJob, hdead] at howns
  cases call with
  | claimJobs w limit =>
    simp only [Worker.jobEffect, Kills, or_false]
    split
    · next hclaims =>
      obtain ⟨⟨i, row⟩, hrow, rfl⟩ := List.mem_map.mp (show _ ∈ List.map _ _ from hclaims)
      obtain ⟨hget, hclaimable⟩ := Worker.mem_selectForClaim hrow
      rw [hjob] at hget
      obtain rfl := Option.some.inj hget
      constructor
      · intro h
        cases h
      · intro hdead
        simp [Worker.claimable, hdead] at hclaimable
    · exact Iff.rfl
  | heartbeat j w =>
    simp only [Worker.jobEffect, Kills, or_false]
    split
    · next h => exact Iff.rfl
    · exact Iff.rfl
  | complete j w =>
    simp only [Worker.jobEffect, Kills, or_false]
    split
    · next h =>
      constructor
      · intro hrow
        cases hrow
      · intro hdead
        exact absurd hdead (howned w h.2)
    · exact Iff.rfl
  | fail j w code message retryable =>
    simp only [Worker.jobEffect, Kills]
    split
    · next h =>
      simp only [Worker.failedRow, Worker.unlocked, h.1, howned w h.2, true_and, false_or]
      by_cases hretry : (retryable && decide (job.attemptCount < job.maxAttempts)) = true
      · simp_all
      · simp_all
    · next h =>
      constructor
      · exact Or.inl
      · rintro (hdead | ⟨rfl, job', hjob', howns, -⟩)
        · exact hdead
        · rw [hjob] at hjob'
          obtain rfl := Option.some.inj hjob'
          exact absurd ⟨rfl, howns⟩ h
  | sweepExpired =>
    simp only [Worker.jobEffect, Kills, hjob, Option.some.injEq, exists_eq_left']
    split
    · next hexpired =>
      have halive : job.status ≠ .dead := by
        intro hdead
        simp [Worker.expired, hdead] at hexpired
      by_cases hretry : job.attemptCount < job.maxAttempts
      · simp [Worker.sweptRow, Worker.unlocked, hretry, halive]
      · simp [Worker.sweptRow, Worker.unlocked, hretry, hexpired]
    · next hexpired => simp [hexpired]

theorem dead_step (cfg : Worker.Config) (queue : Worker.Db (Json F)) (input : Worker.Call × Time) (k : Nat) :
    Dead (Worker.step cfg queue input).2 k ↔ Dead queue k ∨ Kills queue k input := by
  cases hk : queue.jobs.get? k with
  | none =>
    have hkills : ¬ Kills queue k input := by
      obtain ⟨call, now⟩ := input
      cases call <;> simp [Kills, hk]
    simp [Dead, Worker.step_get?_jobs, hk, hkills]
  | some job =>
    have h := dead_jobEffect cfg hk input
    simpa [Dead, Worker.step_get?_jobs, hk] using h

/-- `fail` replies "dead" exactly when it kills the job. -/
theorem fail_reply_dead (cfg : Worker.Config) (queue : Worker.Db (Json F)) (k : Nat)
    (w code message : String) (retryable : Bool) (now : Time) :
    (Worker.step cfg queue (.fail k w code message retryable, now)).1 = .failed (some .dead) ↔
      Kills queue k (.fail k w code message retryable, now) := by
  simp only [Worker.step, Worker.fail, Kills, true_and]
  cases hk : queue.jobs.get? k with
  | none => simp
  | some job =>
    by_cases howns : Worker.ownsLiveJob (some job) w now = true
    · by_cases hretry : (retryable && decide (job.attemptCount < job.maxAttempts)) = true
      · simp_all [Worker.failedRow, Worker.unlocked]
      · simp_all [Worker.failedRow, Worker.unlocked]
    · simp [howns]

/-! ## Rows of the candidates -/

theorem awaits_of_rewrites {db db' : Candidates.Db F} {j i : Nat} {f : Candidate F → Candidate F}
    (h : Rewrites db db' j f) (hi : (db.candidates.get? i).isSome)
    (hf : ∀ c, db.candidates.get? j = some c → (f c).status = .generated ∨ (f c).status = .validating →
      c.status = .generated ∨ c.status = .validating) (hawaits : Awaits db' i) : Awaits db i := by
  obtain ⟨c, hc⟩ := Option.isSome_iff_exists.mp hi
  obtain ⟨row, hrow, hstatus⟩ := hawaits
  rw [h.rows i c hc] at hrow
  obtain rfl := Option.some.inj hrow
  refine ⟨c, hc, ?_⟩
  split at hstatus
  · next hij =>
    subst hij
    exact hf c hc hstatus
  · exact hstatus

/-- `begin_model_decision` leaves those candidates validating that it may reopen. -/
theorem awaits_begin (db : Candidates.Db F) (c : Nat) :
    Awaits (Candidates.beginModelDecision db c).2 c ↔ Reopenable db c := by
  unfold Awaits Reopenable Candidates.beginModelDecision
  cases hc : db.candidates.get? c with
  | none => simp [hc]
  | some row =>
    simp only
    cases hs : row.status <;> simp [Candidates.setCandidate, hc, hs]

section Calls

variable [Json.PyFloat F] (host : Candidates.Host F)

/-- A decision of the model leaves its candidate with the status of its reply,
approved, rejected, superseded or for review. -/
theorem applyOpen_rewrites {svc : Candidates.Service} {db db' : Candidates.Db F} {project : Candidates.Project}
    {k : Nat} {c : Candidate F} (hk : db.candidates.get? k = some c) {decision : Candidates.Decision F}
    {app : Candidates.Application}
    (h : Candidates.applyOpen host svc db project k c decision = .ok (app, db')) :
    app.candidateStatus ≠ .generated ∧ app.candidateStatus ≠ .validating ∧
      Rewrites db db' k fun _ => Candidates.decidedRow c decision app.candidateStatus := by
  have hset := fun status => (Rewrites.refl db k).setCandidate hk (Candidates.decidedRow c decision status)
  simp only [Candidates.applyOpen] at h
  split at h
  · cases h
    exact ⟨by rintro ⟨⟩, by rintro ⟨⟩, (hset .rejected).congr rfl rfl⟩
  · cases h
    exact ⟨by rintro ⟨⟩, by rintro ⟨⟩, (hset .needsReview).congr rfl rfl⟩
  · split at h
    · cases h
      exact ⟨by rintro ⟨⟩, by rintro ⟨⟩, (hset .superseded).congr rfl rfl⟩
    · split at h
      · cases h
        exact ⟨by rintro ⟨⟩, by rintro ⟨⟩, (hset .needsReview).congr rfl rfl⟩
      · split at h
        · cases h
        · next db1 hqueue =>
          cases h
          obtain ⟨events, rfl⟩ := Candidates.queueEvent_frame hqueue
          exact ⟨by rintro ⟨⟩, by rintro ⟨⟩, (hset .approved).congr rfl rfl⟩

theorem awaits_apply (svc : Candidates.Service) {db : Candidates.Db F} (k : Nat)
    (raw : Candidates.CandidateDecision F) {i : Nat} (hi : (db.candidates.get? i).isSome)
    (h : Awaits (Candidates.applyModelDecision host svc db k raw).2 i) : Awaits db i := by
  rcases Candidates.decides_of_writes host svc db k raw with hsame | ⟨c, d, project, hd, hproject⟩
  · rwa [hsame] at h
  · rw [Candidates.applyModelDecision_of_decides host svc hd hproject] at h
    cases happly : Candidates.applyOpen host svc db project k c d with
    | error e =>
      rw [happly] at h
      exact h
    | ok out =>
      rw [happly] at h
      obtain ⟨hgenerated, hvalidating, hrows⟩ := applyOpen_rewrites host hd.row happly
      exact awaits_of_rewrites hrows hi (fun _ _ hs => hs.elim (absurd · hgenerated) (absurd · hvalidating)) h

/-- A refusal that writes a status sends the candidate to review. -/
theorem refuse_status {svc : Candidates.Service} {db : Candidates.Db F} {k : Nat} {c : Candidate F}
    {automatic : Bool} {status : Candidates.Status} {checks : Candidates.Checks}
    (h : Candidates.publishPlan host svc db k c automatic = .refuse status checks) :
    status = c.status ∨ status = .needsReview := by
  rw [Candidates.publishPlan_eq] at h
  split at h
  · cases h
  · split at h
    · split at h <;> cases h
    · obtain ⟨rfl, -⟩ := Candidates.PublishPlan.refuse.inj h
      split
      · exact Or.inr rfl
      · exact Or.inl rfl

omit [Json.PyFloat F] in
theorem awaits_commit {db : Candidates.Db F} {k i : Nat} {read : Candidate F}
    (hk : db.candidates.get? k = some read) (hi : (db.candidates.get? i).isSome)
    {plan : Candidates.PublishPlan F}
    (hplan : ∀ status checks, plan = .refuse status checks → status = read.status ∨ status = .needsReview)
    (h : Awaits (Candidates.commitPublish db k read plan).2 i) : Awaits db i := by
  rcases Candidates.commitPublish_rewrites hk read plan with
    ⟨memory, messageIds, checks, rfl⟩ | hrows | ⟨status, checks, hrefuse, hne, hrows⟩
  · obtain ⟨-, -, hcreated⟩ := Candidates.commitPublish_create db k read memory messageIds checks
    obtain ⟨row, hget, hstatus⟩ := h
    obtain ⟨c, hc⟩ := Option.isSome_iff_exists.mp hi
    rw [hcreated, hc] at hget
    obtain rfl := Option.some.inj hget
    refine ⟨c, hc, ?_⟩
    by_cases hik : i = k
    · subst hik
      rw [hk] at hc
      obtain rfl := Option.some.inj hc
      by_cases hpublished : read.status = .published
      · simp [hpublished] at hstatus
      · simp [hpublished] at hstatus
    · simpa [hik] using hstatus
  · exact awaits_of_rewrites hrows hi (fun _ _ hs => hs) h
  · have hreview : status = .needsReview := (hplan status checks hrefuse).resolve_left hne
    refine awaits_of_rewrites hrows hi (fun _ _ hs => ?_) h
    rw [hreview] at hs
    exact hs.elim nofun nofun

theorem awaits_publish (svc : Candidates.Service) {db : Candidates.Db F} (k : Nat) (automatic : Bool) {i : Nat}
    (hi : (db.candidates.get? i).isSome)
    (h : Awaits (Candidates.publish host svc db k automatic).2 i) : Awaits db i := by
  unfold Candidates.publish at h
  cases hk : db.candidates.get? k with
  | none =>
    rw [hk] at h
    exact h
  | some read =>
    rw [hk] at h
    exact awaits_commit hk hi (fun _ _ hplan => refuse_status host hplan) h

/-- **Only `begin_model_decision` reopens a candidate.** -/
theorem awaits_step {db : Candidates.Db F} {i : Nat} (hi : (db.candidates.get? i).isSome)
    {call : Candidates.Call F} (hcall : call ≠ .beginModelDecision i)
    (h : Awaits (Candidates.step host db call).2 i) : Awaits db i := by
  have hid : ∀ {db' : Candidates.Db F} {j}, Rewrites db db' j id → Awaits db' i → Awaits db i :=
    fun hrows => awaits_of_rewrites hrows hi fun _ _ hs => hs
  have hrow : ∀ {db' : Candidates.Db F} {j row}, Rewrites db db' j (fun _ => row) →
      row.status ≠ .generated → row.status ≠ .validating → Awaits db' i → Awaits db i :=
    fun hrows hg hv => awaits_of_rewrites hrows hi fun _ _ hs => hs.elim (absurd · hg) (absurd · hv)
  cases call with
  | createCandidate projectId new =>
    simp only [Candidates.step] at h
    exact hid (Candidates.createCandidate_rewrites db projectId new 0) h
  | beginModelDecision k =>
    simp only [Candidates.step] at h
    have hik : i ≠ k := fun e => hcall (by rw [e])
    rcases Candidates.beginModelDecision_rewrites db k with hrows | ⟨c, hc, -, hrows⟩
    · exact hid hrows h
    · obtain ⟨row, hrow', hstatus⟩ := h
      obtain ⟨c', hc'⟩ := Option.isSome_iff_exists.mp hi
      have hkeep := hrows.rows i c' hc'
      rw [if_neg hik] at hkeep
      exact ⟨c', hc', (Option.some.inj (hkeep.symm.trans hrow')) ▸ hstatus⟩
  | applyModelDecision svc k raw =>
    simp only [Candidates.step] at h
    exact awaits_apply host svc k raw hi h
  | markModelFailureNeedsReview k code =>
    simp only [Candidates.step] at h
    rcases Candidates.markModelFailureNeedsReview_rewrites db k code with hrows | ⟨c, -, -, -, -, hrows⟩
    · exact hid hrows h
    · exact hrow hrows (by rintro ⟨⟩) (by rintro ⟨⟩) h
  | correct k action reviewer reason replacement =>
    simp only [Candidates.step] at h
    rcases Candidates.correct_rewrites db k action reviewer reason replacement with
      ⟨hrows, -⟩ | ⟨act, c, -, hrows⟩
    · exact hid hrows h
    · exact hrow hrows (by cases act <;> rintro ⟨⟩) (by cases act <;> rintro ⟨⟩) h
  | review k decision reviewer reason =>
    simp only [Candidates.step] at h
    rcases Candidates.reviewAdminCandidate_rewrites db k decision reviewer reason with
      ⟨hrows, -⟩ | ⟨verdict, c, -, hrows⟩
    · exact hid hrows h
    · exact hrow hrows (by cases verdict <;> rintro ⟨⟩) (by cases verdict <;> rintro ⟨⟩) h
  | evaluate k =>
    refine hid (j := k) ?_ h
    simp only [Candidates.step, Candidates.evaluate]
    split
    · exact Rewrites.refl db k
    · exact (Rewrites.refl db k).addPolicyResult _ _ _ _ _ _
  | publish svc k automatic =>
    simp only [Candidates.step] at h
    exact awaits_publish host svc k automatic hi h
  | setFlags projectId flags => exact h
  | setPolicy projectId policy => exact h

end Calls

/-! ## The invariant -/

/-- The claims a process holds. -/
def Proc.claims (proc : Proc F) : List (Worker.JobClaim (Json F)) :=
  match proc.phase with
  | .between => proc.rest
  | .handling claim _ => claim :: proc.rest
  | .reporting claim _ => claim :: proc.rest
  | .notifying claim _ => claim :: proc.rest

/-- The claim carries the type and the payload of its job. -/
def Fits (queue : Worker.Db (Json F)) (claim : Worker.JobClaim (Json F)) : Prop :=
  ∃ job, queue.jobs.get? claim.jobId = some job ∧ job.jobType = claim.jobType ∧ job.payload = claim.payload

/-- One decision job a candidate, every job's candidate exists, claims fit their
jobs, and `on_dead` is due for dead jobs only, once each. -/
structure Inv (st : State F) : Prop where
  unique : ∀ j k c, Decides st.queue j c → Decides st.queue k c → j = k
  existing : ∀ k c, Decides st.queue k c → (st.candidates.candidates.get? c).isSome
  held : ∀ p, ∀ claim ∈ (st.procs p).claims, Fits st.queue claim
  owed : ∀ p claim e, (st.procs p).phase = .notifying claim e → Dead st.queue claim.jobId
  once : ∀ p q c d e e', (st.procs p).phase = .notifying c e → (st.procs q).phase = .notifying d e' →
    c.jobId = d.jobId → p = q

theorem Fits.step (cfg : Worker.Config) {queue : Worker.Db (Json F)} {claim : Worker.JobClaim (Json F)}
    (h : Fits queue claim) (input : Worker.Call × Time) : Fits (Worker.step cfg queue input).2 claim := by
  obtain ⟨job, hjob, htype, hpayload⟩ := h
  obtain ⟨hsameType, hsamePayload⟩ := jobEffect_keeps cfg queue claim.jobId input job
  refine ⟨_, by rw [Worker.step_get?_jobs, hjob]; rfl, ?_, ?_⟩
  · rw [hsameType, htype]
  · rw [hsamePayload, hpayload]

/-- A claim fits the job it was made from. -/
theorem fits_claimJobs (cfg : Worker.Config) (queue : Worker.Db (Json F)) (w : String) (limit : Nat) (now : Time)
    {claim : Worker.JobClaim (Json F)} (h : claim ∈ (Worker.claimJobs cfg queue w limit now).1) :
    Fits queue claim := by
  obtain ⟨job, hselected, hclaim⟩ := (Worker.claims_mem cfg queue w limit now claim).mp h
  obtain ⟨hjob, -⟩ := Worker.mem_selectForClaim hselected
  refine ⟨job, hjob, ?_, ?_⟩
  · rw [hclaim]
    rfl
  · rw [hclaim]
    rfl

/-- What an action keeps when the queue makes one call at most and one process at
most moves on. -/
structure Keeps (st st' : State F) (p : Nat) : Prop where
  decides : ∀ k c, Decides st'.queue k c ↔ Decides st.queue k c
  dead : ∀ k, Dead st.queue k → Dead st'.queue k
  fits : ∀ claim, Fits st.queue claim → Fits st'.queue claim
  exist : ∀ c, (st.candidates.candidates.get? c).isSome → (st'.candidates.candidates.get? c).isSome
  others : ∀ q, q ≠ p → st'.procs q = st.procs q

/-- The invariant goes on when the process that moves holds claims that fit, and
newly owes `on_dead` only for a job that has just died. -/
theorem Inv.next {st st' : State F} (h : Inv st) {p : Nat} (hkeeps : Keeps st st' p)
    (hclaims : ∀ claim ∈ (st'.procs p).claims, Fits st.queue claim)
    (hphase : ∀ claim e, (st'.procs p).phase = .notifying claim e →
      (st.procs p).phase = .notifying claim e ∨ (¬ Dead st.queue claim.jobId ∧ Dead st'.queue claim.jobId)) :
    Inv st' where
  unique j k c hj hk := h.unique j k c ((hkeeps.decides j c).mp hj) ((hkeeps.decides k c).mp hk)
  existing k c hk := hkeeps.exist c (h.existing k c ((hkeeps.decides k c).mp hk))
  held q claim hclaim := by
    by_cases hq : q = p
    · subst hq
      exact hkeeps.fits claim (hclaims claim hclaim)
    · rw [hkeeps.others q hq] at hclaim
      exact hkeeps.fits claim (h.held q claim hclaim)
  owed q claim e hnotify := by
    by_cases hq : q = p
    · subst hq
      rcases hphase claim e hnotify with hbefore | ⟨-, hdead⟩
      · exact hkeeps.dead _ (h.owed q claim e hbefore)
      · exact hdead
    · rw [hkeeps.others q hq] at hnotify
      exact hkeeps.dead _ (h.owed q claim e hnotify)
  once q r c d e e' hq hr hjob := by
    -- what was due before the step was due for a dead job
    have hbefore : ∀ {s claim e}, (st'.procs s).phase = .notifying claim e →
        (st.procs s).phase = .notifying claim e ∨ (s = p ∧ ¬ Dead st.queue claim.jobId) := by
      intro s claim e hs
      by_cases hsp : s = p
      · subst hsp
        exact (hphase claim e hs).imp_right fun hnew => ⟨rfl, hnew.1⟩
      · rw [hkeeps.others s hsp] at hs
        exact Or.inl hs
    rcases hbefore hq with hqold | ⟨rfl, hqalive⟩ <;> rcases hbefore hr with hrold | ⟨rfl, hralive⟩
    · exact h.once q r c d e e' hqold hrold hjob
    · exact absurd (hjob ▸ h.owed q c e hqold) hralive
    · exact absurd (hjob ▸ h.owed r d e' hrold) hqalive
    · rfl

theorem setProc_self (st : State F) (p : Nat) (proc : Proc F) : (setProc st p proc).procs p = proc := by
  simp [setProc]

theorem setProc_ne (st : State F) {p q : Nat} (proc : Proc F) (h : q ≠ p) :
    (setProc st p proc).procs q = st.procs q := by
  simp [setProc, h]

theorem keeps_procs (st : State F) (p : Nat) (proc : Proc F) : Keeps st (setProc st p proc) p where
  decides _ _ := Iff.rfl
  dead _ h := h
  fits _ h := h
  exist _ h := h
  others _ hq := setProc_ne st proc hq

theorem keeps_queue (cfg : Worker.Config) (st : State F) (input : Worker.Call × Time) (p : Nat) (proc : Proc F) :
    Keeps st (setProc { st with queue := (Worker.step cfg st.queue input).2 } p proc) p where
  decides k c := decides_step cfg st.queue input k c
  dead k h := (dead_step cfg st.queue input k).mpr (Or.inl h)
  fits _ h := h.step cfg input
  exist _ h := h
  others _ hq := setProc_ne _ proc hq

theorem keeps_candidates (st : State F) {db : Candidates.Db F}
    (hexist : ∀ c, (st.candidates.candidates.get? c).isSome → (db.candidates.get? c).isSome) (p : Nat)
    (proc : Proc F) : Keeps st (setProc { st with candidates := db } p proc) p where
  decides _ _ := Iff.rfl
  dead _ h := h
  fits _ h := h
  exist := hexist
  others _ hq := setProc_ne _ proc hq

/-! ## Where runs start -/

/-- Where a run starts: no process is at work.  A candidate has one decision job
(`uq_jobs_project_type_idempotency`), made by an event that is queued with the
candidate, and the dead ones among them have handed theirs over. -/
structure Start (F : Type) where
  clock : Time
  queue : Worker.Db (Json F)
  candidates : Candidates.Db F
  unique : ∀ j k c, Decides queue j c → Decides queue k c → j = k
  existing : ∀ k c, Decides queue k c → (candidates.candidates.get? c).isSome
  handed : ∀ k c, Decides queue k c → Dead queue k → ¬ Awaits candidates c

def Start.state (start : Start F) : State F := ⟨start.clock, start.queue, start.candidates, fun _ => .idle⟩

theorem inv_start (start : Start F) : Inv start.state where
  unique := start.unique
  existing := start.existing
  held := nofun
  owed := nofun
  once := nofun

/-! ## Steps of the candidates -/

section Steps

variable [Json.PyFloat F] (setup : Setup F)

theorem exist_step (db : Candidates.Db F) (call : Candidates.Call F) (c : Nat)
    (h : (db.candidates.get? c).isSome) : ((Candidates.step setup.host db call).2.candidates.get? c).isSome := by
  obtain ⟨row, hrow⟩ := Option.isSome_iff_exists.mp h
  obtain ⟨row', hrow', -⟩ := Candidates.step_origin setup.host db call hrow
  simp [hrow']

omit [Json.PyFloat F] in
theorem row?_ok {db : Candidates.Db F} {n : Int} {row : Candidate F} (h : row? db n = .ok row) : 0 ≤ n := by
  by_contra hneg
  rw [row?, if_pos (by omega)] at h
  cases h

/-- A transaction of `execute` is one call of the candidates' service, or writes
nothing. -/
theorem executeStage_writes (db : Candidates.Db F) (n : Int) (stage : Stage F) :
    (executeStage setup db n stage).2 = db ∨
      ∃ call, (executeStage setup db n stage).2 = (Candidates.step setup.host db call).2 ∧
        ∀ c, call = .beginModelDecision c → stage = .begin ∧ n = c := by
  cases stage with
  | status =>
    left
    simp only [executeStage]
    split
    · rfl
    · split <;> rfl
  | begin =>
    simp only [executeStage]
    cases hrow : row? db n with
    | error e => exact Or.inl rfl
    | ok row =>
      have hn := row?_ok hrow
      refine Or.inr ⟨.beginModelDecision n.toNat, ?_, ?_⟩
      · simp only [Candidates.step]
        cases Candidates.beginModelDecision db n.toNat with
        | mk reply db' => cases reply <;> rfl
      · intro c hc
        obtain rfl := Candidates.Call.beginModelDecision.inj hc
        exact ⟨trivial, (Int.toNat_of_nonneg hn).symm⟩
  | engine =>
    left
    simp only [executeStage]
    split
    · rfl
    · split <;> rfl
  | snapshot =>
    left
    simp only [executeStage]
    split
    · rfl
    · split <;> rfl
  | apply decision =>
    simp only [executeStage]
    cases hrow : row? db n with
    | error e => exact Or.inl rfl
    | ok row =>
      refine Or.inr ⟨.applyModelDecision setup.svc n.toNat decision, ?_, by rintro _ ⟨⟩⟩
      simp only [Candidates.step]
      cases Candidates.applyModelDecision setup.host setup.svc db n.toNat decision with
      | mk reply db' => cases reply <;> rfl
  | model => exact Or.inl rfl
  | elsewhere => exact Or.inl rfl

/-- `on_dead` marks one candidate, or writes nothing. -/
theorem onDead_writes (db : Candidates.Db F) (claim : Worker.JobClaim (Json F)) (e : Raised) :
    onDead setup db claim e = db ∨ ∃ k code, onDead setup db claim e =
      (Candidates.step setup.host db (.markModelFailureNeedsReview k code)).2 := by
  unfold onDead
  split
  · split
    · exact Or.inl rfl
    · split
      · exact Or.inl rfl
      · exact Or.inr ⟨_, _, rfl⟩
  · exact Or.inl rfl

omit [Json.PyFloat F] in
theorem mark_hands_over (db : Candidates.Db F) (c : Nat) (code : String) :
    ¬ Awaits (Candidates.markModelFailureNeedsReview db c code).2 c := by
  rintro ⟨row, hrow, hstatus⟩
  unfold Candidates.markModelFailureNeedsReview at hrow
  cases hc : db.candidates.get? c with
  | none =>
    simp only [hc] at hrow
    cases hrow
  | some old =>
    simp only [hc] at hrow
    cases hs : old.status <;>
      simp [hs, Candidates.addPolicyResult, Candidates.setCandidate, hc] at hrow <;>
      subst hrow <;> simp [hs] at hstatus

omit [Json.PyFloat F] in
/-- **`on_dead` hands the candidate of its job over.** -/
theorem onDead_hands_over {queue : Worker.Db (Json F)} (db : Candidates.Db F)
    {claim : Worker.JobClaim (Json F)} (hfits : Fits queue claim) (e : Raised) {c : Nat}
    (h : Decides queue claim.jobId c) : ¬ Awaits (onDead setup db claim e) c := by
  obtain ⟨job, hjob, htype, hid⟩ := h
  obtain ⟨job', hjob', htype', hpayload⟩ := hfits
  rw [hjob] at hjob'
  obtain rfl := Option.some.inj hjob'
  rw [htype] at htype'
  rw [hpayload] at hid
  have hget : claim.payload.get? "candidate_id" = some (.int c) := by
    unfold candidateId? at hid
    split at hid
    · next n hn => rw [hn, Option.some.inj hid]
    · cases hid
  have hnat : ¬ (c : Int) < 0 := by omega
  rw [onDead, if_pos (by rw [← htype']; decide), hget]
  simp only [Option.bind_some, pyInt, if_neg hnat, Int.toNat_natCast]
  exact mark_hands_over db c e.code

/-- The invariant survives every step. -/
theorem inv_step {st : State F} (h : Inv st) (action : Action F) : Inv (act setup st action) := by
  have hquiet : ∀ {st' : State F} {p}, Keeps st st' p →
      (∀ claim ∈ (st'.procs p).claims, claim ∈ (st.procs p).claims) →
      (∀ claim e, (st'.procs p).phase ≠ .notifying claim e) → Inv st' := by
    intro st' p hkeeps hclaims hphase
    exact h.next hkeeps (fun claim hc => h.held p claim (hclaims claim hc)) fun claim e hn => absurd hn (hphase claim e)
  cases action with
  | tick d => exact ⟨h.unique, h.existing, h.held, h.owed, h.once⟩
  | queue call =>
    have hkeeps := keeps_queue setup.cfg st (call, st.clock) 0 (st.procs 0)
    rw [setProc, Function.update_eq_self] at hkeeps
    exact h.next hkeeps (h.held 0) fun claim e hn => Or.inl hn
  | candidates call =>
    have hkeeps := keeps_candidates st (exist_step setup st.candidates call) 0 (st.procs 0)
    rw [setProc, Function.update_eq_self] at hkeeps
    exact h.next hkeeps (h.held 0) fun claim e hn => Or.inl hn
  | processOnce p limit =>
    simp only [act]
    split
    · refine h.next (keeps_queue setup.cfg st (.claimJobs (setup.name p) limit, st.clock) p _) ?_ ?_
      · intro claim hclaim
        rw [setProc_self] at hclaim
        exact fits_claimJobs _ _ _ _ _ hclaim
      · intro claim e hn
        rw [setProc_self] at hn
        cases hn
    · exact h
  | callHandler p =>
    simp only [act]
    split
    · next claim rest hp =>
      refine hquiet (keeps_procs st p _) ?_ ?_
      · rw [setProc_self, hp]
        unfold Phase.called
        split <;> exact fun claim hc => hc
      · rw [setProc_self]
        unfold Phase.called
        split <;> exact nofun
    · exact h
  | advance p =>
    simp only [act]
    split
    · next claim stage rest hp =>
      refine hquiet (keeps_candidates st ?_ p _) ?_ ?_
      · rcases executeStage_writes setup st.candidates _ stage with hsame | ⟨call, hcall, -⟩
        · rw [hsame]
          exact fun c hc => hc
        · rw [hcall]
          exact exist_step setup st.candidates call
      · rw [setProc_self, hp]
        unfold Phase.after
        split <;> exact fun claim hc => hc
      · rw [setProc_self]
        unfold Phase.after
        split <;> exact nofun
    · exact h
  | raises p message =>
    simp only [act]
    split
    · next claim stage rest hp =>
      refine hquiet (keeps_procs st p _) ?_ ?_
      · rw [setProc_self, hp]
        exact fun claim hc => hc
      · rw [setProc_self]
        exact nofun
    · exact h
  | modelAnswers p answer =>
    simp only [act]
    split
    · next claim rest hp =>
      refine hquiet (keeps_procs st p _) ?_ ?_
      · rw [setProc_self, hp]
        unfold Phase.after
        split <;> exact fun claim hc => hc
      · rw [setProc_self]
        unfold Phase.after
        split <;> exact nofun
    · exact h
  | handlerEnds p result =>
    simp only [act]
    split
    · next claim rest hp =>
      refine hquiet (keeps_procs st p _) ?_ ?_
      · rw [setProc_self, hp]
        exact fun claim hc => hc
      · rw [setProc_self]
        exact nofun
    · exact h
  | report p =>
    simp only [act]
    split
    · next claim rest hp =>
      refine hquiet (keeps_queue setup.cfg st _ p _) ?_ ?_
      · rw [setProc_self, hp]
        exact fun claim hc => List.mem_cons_of_mem _ hc
      · rw [setProc_self]
        exact nofun
    · next claim e rest hp =>
      refine h.next (keeps_queue setup.cfg st _ p _) ?_ ?_
      · rw [setProc_self]
        intro claim' hclaim'
        refine h.held p claim' ?_
        rw [hp]
        revert hclaim'
        unfold Phase.failed
        split
        · exact fun hc => hc
        · exact fun hc => List.mem_cons_of_mem _ hc
      · -- `on_dead` becomes due when `fail` has killed the job, which was alive
        rw [setProc_self]
        intro claim' e' hn
        right
        unfold Phase.failed at hn
        split at hn
        · next hreply =>
          obtain ⟨rfl, rfl⟩ := Phase.notifying.inj hn
          have hkills := (fail_reply_dead setup.cfg st.queue claim.jobId (setup.name p) e.classify.1 e.message
            e.classify.2 st.clock).mp hreply
          exact ⟨not_dead_of_kills hkills, (dead_step _ _ _ _).mpr (Or.inr hkills)⟩
        · cases hn
    · exact h
  | notify p raises =>
    simp only [act]
    split
    · next claim e rest hp =>
      refine hquiet (keeps_candidates st ?_ p _) ?_ ?_
      · intro c hc
        cases raises with
        | true => exact hc
        | false =>
          rcases onDead_writes setup st.candidates claim e with hsame | ⟨k, code, hcall⟩
          · simpa [hsame] using hc
          · simpa [hcall] using exist_step setup st.candidates _ c hc
      · rw [setProc_self, hp]
        exact fun claim hc => List.mem_cons_of_mem _ hc
      · rw [setProc_self]
        exact nofun
    · exact h
  | crash p =>
    simp only [act]
    refine hquiet (keeps_procs st p _) ?_ ?_
    · rw [setProc_self]
      exact nofun
    · rw [setProc_self]
      exact nofun

omit [Json.PyFloat F] in
/-- What is owed stays owed while the process that moves owes nothing. -/
theorem owed_others {st st' : State F} {p k : Nat} (hothers : ∀ q, q ≠ p → st'.procs q = st.procs q)
    (hp : ∀ claim e, (st.procs p).phase = .notifying claim e → claim.jobId ≠ k) (h : Owed st k) : Owed st' k := by
  obtain ⟨q, claim, e, hq, hk⟩ := h
  have hqp : q ≠ p := by
    rintro rfl
    exact hp claim e hq hk
  exact ⟨q, claim, e, by rw [hothers q hqp]; exact hq, hk⟩

/-- **A step without mishap leaves every dead job handed over.** -/
theorem handed_step {st : State F} (hinv : Inv st) (hst : HandedOver st) {action : Action F}
    (hcareful : Careful st action) : HandedOver (act setup st action) := by
  have hquiet : ∀ {st' : State F} {p}, (∀ k c, Decides st'.queue k c → Decides st.queue k c) →
      (∀ k, Dead st'.queue k → Dead st.queue k) →
      (∀ k c, Decides st.queue k c → Awaits st'.candidates c → Awaits st.candidates c) →
      (∀ q, q ≠ p → st'.procs q = st.procs q) → (∀ claim e, (st.procs p).phase ≠ .notifying claim e) →
      HandedOver st' := by
    intro st' p hdecides hdead hawaits hothers hphase k c hk hdeadk
    rcases hst k c (hdecides k c hk) (hdead k hdeadk) with hawait | howed
    · exact Or.inl fun ha => hawait (hawaits k c (hdecides k c hk) ha)
    · exact Or.inr (owed_others hothers (fun claim e hp => absurd hp (hphase claim e)) howed)
  have hbegin : ∀ {st' : State F} {p call}, st'.queue = st.queue →
      st'.candidates = (Candidates.step setup.host st.candidates call).2 →
      (∀ c, call = .beginModelDecision c → Begins st c action) →
      (∀ q, q ≠ p → st'.procs q = st.procs q) → (∀ claim e, (st.procs p).phase ≠ .notifying claim e) →
      HandedOver st' := by
    intro st' p call hqueue hcandidates hbegins hothers hphase k c hk hdead
    rw [hqueue] at hk hdead
    by_cases hcall : call = .beginModelDecision c
    · by_cases howed : Owed st k
      · exact Or.inr (owed_others hothers (fun claim e hp => absurd hp (hphase claim e)) howed)
      · left
        intro hawaits
        rw [hcandidates, hcall] at hawaits
        exact hcareful k c ⟨hk, Or.inr (Or.inr ⟨hbegins c hcall, (awaits_begin _ c).mp hawaits, hdead, howed⟩)⟩
    · rcases hst k c hk hdead with hawait | howed
      · left
        intro hawaits
        rw [hcandidates] at hawaits
        exact hawait (awaits_step setup.host (hinv.existing k c hk) hcall hawaits)
      · exact Or.inr (owed_others hothers (fun claim e hp => absurd hp (hphase claim e)) howed)
  cases action with
  | tick d => exact hst
  | queue call =>
    intro k c hk hdead
    have hk' := (decides_step setup.cfg st.queue _ k c).mp hk
    rcases (dead_step setup.cfg st.queue _ k).mp hdead with hdead' | hkills
    · exact hst k c hk' hdead'
    · exact Or.inl fun hawaits => hcareful k c ⟨hk', Or.inl ⟨hkills, hawaits⟩⟩
  | candidates call =>
    intro k c hk hdead
    by_cases hcall : call = .beginModelDecision c
    · by_cases howed : Owed st k
      · exact Or.inr howed
      · left
        intro hawaits
        simp only [act, hcall] at hawaits
        exact hcareful k c ⟨hk, Or.inr (Or.inr ⟨by rw [hcall]; rfl, (awaits_begin _ c).mp hawaits, hdead, howed⟩)⟩
    · rcases hst k c hk hdead with hawait | howed
      · exact Or.inl fun hawaits => hawait (awaits_step setup.host (hinv.existing k c hk) hcall hawaits)
      · exact Or.inr howed
  | processOnce p limit =>
    simp only [act]
    split
    · next hp =>
      refine hquiet (p := p) (fun k c => (decides_step setup.cfg st.queue (.claimJobs _ limit, st.clock) k c).mp)
        (fun k hdead => ?_) (fun _ _ _ ha => ha) (fun q hq => setProc_ne _ _ hq) (by rw [hp]; exact nofun)
      exact ((dead_step setup.cfg st.queue (.claimJobs _ limit, st.clock) k).mp hdead).resolve_right id
    · exact hst
  | callHandler p =>
    simp only [act]
    split
    · next claim rest hp =>
      exact hquiet (p := p) (fun _ _ h => h) (fun _ h => h) (fun _ _ _ ha => ha) (fun q hq => setProc_ne _ _ hq)
        (by rw [hp]; exact nofun)
    · exact hst
  | advance p =>
    simp only [act]
    split
    · next claim stage rest hp =>
      have hphase : ∀ claim' e, (st.procs p).phase ≠ .notifying claim' e := by
        rw [hp]
        exact nofun
      rcases executeStage_writes setup st.candidates ((candidateId? claim.payload).getD (-1)) stage with
        hsame | ⟨call, hcall, hwhich⟩
      · exact hquiet (p := p) (fun _ _ h => h) (fun _ h => h) (fun _ _ _ ha => by simpa [setProc, hsame] using ha)
          (fun q hq => setProc_ne _ _ hq) hphase
      · refine hbegin (p := p) rfl hcall (fun c hc => ?_) (fun q hq => setProc_ne _ _ hq) hphase
        obtain ⟨rfl, hn⟩ := hwhich c hc
        refine ⟨claim, by rw [hp], ?_⟩
        cases hid : candidateId? claim.payload with
        | none =>
          rw [hid] at hn
          have : (-1 : Int) = c := hn
          omega
        | some n =>
          rw [hid] at hn
          exact congrArg some hn
    · exact hst
  | raises p message =>
    simp only [act]
    split
    · next claim stage rest hp =>
      exact hquiet (p := p) (fun _ _ h => h) (fun _ h => h) (fun _ _ _ ha => ha) (fun q hq => setProc_ne _ _ hq)
        (by rw [hp]; exact nofun)
    · exact hst
  | modelAnswers p answer =>
    simp only [act]
    split
    · next claim rest hp =>
      exact hquiet (p := p) (fun _ _ h => h) (fun _ h => h) (fun _ _ _ ha => ha) (fun q hq => setProc_ne _ _ hq)
        (by rw [hp]; exact nofun)
    · exact hst
  | handlerEnds p result =>
    simp only [act]
    split
    · next claim rest hp =>
      exact hquiet (p := p) (fun _ _ h => h) (fun _ h => h) (fun _ _ _ ha => ha) (fun q hq => setProc_ne _ _ hq)
        (by rw [hp]; exact nofun)
    · exact hst
  | report p =>
    simp only [act]
    split
    · next claim rest hp =>
      refine hquiet (p := p) (fun k c => (decides_step setup.cfg st.queue _ k c).mp)
        (fun k hdead => ?_) (fun _ _ _ ha => ha) (fun q hq => setProc_ne _ _ hq) (by rw [hp]; exact nofun)
      exact ((dead_step setup.cfg st.queue (.complete _ _, st.clock) k).mp hdead).resolve_right id
    · next claim e rest hp =>
      intro k c hk hdead
      have hk' := (decides_step setup.cfg st.queue _ k c).mp hk
      rcases (dead_step setup.cfg st.queue _ k).mp hdead with hdead' | hkills
      · rcases hst k c hk' hdead' with hawait | howed
        · exact Or.inl hawait
        · refine Or.inr (owed_others (p := p) (fun q hq => setProc_ne _ _ hq) ?_ howed)
          rw [hp]
          exact nofun
      · -- this very process goes on to `on_dead`
        have hjob : claim.jobId = k := hkills.1
        subst hjob
        refine Or.inr ⟨p, claim, e, ?_, rfl⟩
        have hreply := (fail_reply_dead setup.cfg st.queue claim.jobId (setup.name p) e.classify.1 e.message
          e.classify.2 st.clock).mpr hkills
        rw [setProc_self]
        simp only [failCall, hreply, Phase.failed]
    · exact hst
  | notify p raises =>
    simp only [act]
    split
    · next claim e rest hp =>
      intro k c hk hdead
      have hphase : (st.procs p).phase = .notifying claim e := by rw [hp]
      by_cases hjob : claim.jobId = k
      · subst hjob
        left
        cases raises with
        | true => exact fun hawaits => hcareful claim.jobId c ⟨hk, Or.inr (Or.inl ⟨⟨claim, e, hphase, rfl⟩, hawaits⟩)⟩
        | false =>
          have hfits : Fits st.queue claim := by
            refine hinv.held p claim ?_
            rw [hp]
            exact List.mem_cons_self
          exact onDead_hands_over setup st.candidates hfits e hk
      · rcases hst k c hk hdead with hawait | howed
        · left
          intro hawaits
          refine hawait ?_
          cases raises with
          | true => exact hawaits
          | false =>
            rcases onDead_writes setup st.candidates claim e with hsame | ⟨j, code, hcall⟩
            · simpa [setProc, hsame] using hawaits
            · have hmark : (Candidates.Call.markModelFailureNeedsReview j code : Candidates.Call F) ≠
                .beginModelDecision c := nofun
              exact awaits_step setup.host (hinv.existing k c hk) hmark (by simpa [setProc, hcall] using hawaits)
        · refine Or.inr (owed_others (p := p) (fun q hq => setProc_ne _ _ hq) ?_ howed)
          rw [hp]
          rintro claim' e' heq
          obtain ⟨rfl, -⟩ := Phase.notifying.inj heq
          exact hjob
    · exact hst
  | crash p =>
    intro k c hk hdead
    by_cases hforgets : Forgets st k (.crash p)
    · exact Or.inl fun hawaits => hcareful k c ⟨hk, Or.inr (Or.inl ⟨hforgets, hawaits⟩)⟩
    · rcases hst k c hk hdead with hawait | howed
      · exact Or.inl hawait
      · refine Or.inr (owed_others (p := p) (fun q hq => setProc_ne _ _ hq) ?_ howed)
        exact fun claim e hphase hjob => hforgets ⟨claim, e, hphase, hjob⟩

omit [Json.PyFloat F] in
/-- A process that forgets its callback leaves nothing owed for that job. -/
theorem forgets_strands {st : State F} (hinv : Inv st) {p k : Nat} {claim : Worker.JobClaim (Json F)} {e : Raised}
    (hphase : (st.procs p).phase = .notifying claim e) (hjob : claim.jobId = k) {st' : State F}
    (hothers : ∀ q, q ≠ p → st'.procs q = st.procs q) (hp : ∀ d e', (st'.procs p).phase ≠ .notifying d e') :
    ¬ Owed st' k := by
  rintro ⟨q, d, e', hq, hd⟩
  by_cases hqp : q = p
  · subst hqp
    exact hp d e' hq
  · rw [hothers q hqp] at hq
    exact hqp (hinv.once q p d claim e' e hq hphase (hd.trans hjob.symm))

/-- **A mishap leaves a candidate behind.** -/
theorem mishap_strands {st : State F} (hinv : Inv st) {action : Action F} {k c : Nat}
    (h : Mishap st action k c) : ¬ HandedOver (act setup st action) := by
  intro hhanded
  obtain ⟨hk, ⟨hdies, hawaits⟩ | ⟨hforgets, hawaits⟩ | ⟨hbegins, hreopen, hdead, hnot⟩⟩ := h
  · cases action with
    | queue call =>
      have hdead := (dead_step setup.cfg st.queue _ k).mpr (Or.inr hdies)
      rcases hhanded k c ((decides_step _ _ _ k c).mpr hk) hdead with hawait | ⟨p, claim, e, hphase, hjob⟩
      · exact hawait hawaits
      · exact not_dead_of_kills hdies (hjob ▸ hinv.owed p claim e hphase)
    | _ => exact hdies
  · cases action with
    | crash p =>
      obtain ⟨claim, e, hphase, hjob⟩ := hforgets
      rcases hhanded k c hk (hjob ▸ hinv.owed p claim e hphase) with hawait | howed
      · exact hawait hawaits
      · refine forgets_strands hinv hphase hjob (fun q hq => setProc_ne _ _ hq) ?_ howed
        simp only [setProc_self]
        exact nofun
    | notify p raises =>
      cases raises with
      | false => exact hforgets
      | true =>
        obtain ⟨claim, e, hphase, hjob⟩ := hforgets
        obtain ⟨rest, hp⟩ : ∃ rest, st.procs p = ⟨.notifying claim e, rest⟩ := ⟨(st.procs p).rest, by rw [← hphase]⟩
        simp only [act, hp] at hhanded
        rcases hhanded k c hk (hjob ▸ hinv.owed p claim e hphase) with hawait | howed
        · exact hawait hawaits
        · refine forgets_strands hinv hphase hjob (fun q hq => setProc_ne _ _ hq) ?_ howed
          rw [setProc_self]
          exact nofun
    | _ => exact hforgets
  · cases action with
    | advance p =>
      obtain ⟨claim, hphase, hid⟩ := hbegins
      obtain ⟨rest, hp⟩ : ∃ rest, st.procs p = ⟨.handling claim .begin, rest⟩ := ⟨(st.procs p).rest, by rw [← hphase]⟩
      obtain ⟨row, hrow, hstatus⟩ := hreopen
      have hwrites : (executeStage setup st.candidates (c : Int) .begin).2 =
          (Candidates.beginModelDecision st.candidates c).2 := by
        have hfound : row? st.candidates (c : Int) = .ok row := by
          simp [row?, hrow, show ¬ (c : Int) < 0 by omega]
        simp only [executeStage, hfound, Int.toNat_natCast]
        cases Candidates.beginModelDecision st.candidates c with
        | mk reply db' => cases reply <;> rfl
      simp only [act, hp, hid, Option.getD_some] at hhanded
      rcases hhanded k c hk hdead with hawait | ⟨q, d, e, hq, hd⟩
      · refine hawait ?_
        simp only [setProc, hwrites]
        exact (awaits_begin _ c).mpr ⟨row, hrow, hstatus⟩
      · by_cases hqp : q = p
        · subst hqp
          rw [setProc_self] at hq
          unfold Phase.after at hq
          split at hq <;> cases hq
        · rw [setProc_ne _ _ hqp] at hq
          exact hnot ⟨q, d, e, hq, hd⟩
    | candidates call =>
      cases call with
      | beginModelDecision j =>
        obtain rfl : j = c := hbegins
        rcases hhanded k j hk hdead with hawait | howed
        · exact hawait ((awaits_begin _ j).mpr hreopen)
        · exact hnot howed
      | _ => exact hbegins
    | _ => exact hbegins

/-! ## Runs -/

/-- **Dead decision jobs hand their candidates over exactly as long as no step is a
mishap.** -/
theorem dead_jobs_handed_over_iff (start : Start F) (actions : List (Action F)) :
    Always (step setup) (fun st action => HandedOver (act setup st action)) start.state actions ↔
      Always (step setup) Careful start.state actions := by
  have hstep : ∀ (st : State F) (action : Action F), (Inv st ∧ HandedOver st) → Careful st action →
      Inv (act setup st action) ∧ HandedOver (act setup st action) := fun st action hst hcareful =>
    ⟨inv_step setup hst.1 action, handed_step setup hst.1 hst.2 hcareful⟩
  have hiff : ∀ (st : State F) (action : Action F), (Inv st ∧ HandedOver st) →
      (HandedOver (act setup st action) ↔ Careful st action) := by
    intro st action hst
    constructor
    · intro hhanded k c hmishap
      exact mishap_strands setup hst.1 hmishap hhanded
    · intro hcareful
      exact handed_step setup hst.1 hst.2 hcareful
  have hstart : HandedOver start.state := fun k c hk hdead => Or.inl (start.handed k c hk hdead)
  exact always_iff_of_invariant hstep hiff ⟨inv_start start, hstart⟩ actions

end Steps

/-! ## Five crashes -/

/-- A decision job as the dispatcher makes it. -/
def decisionJob : ProcessingJob (Json Empty) :=
  { projectId := 0, jobType := "decide_candidate", aggregateType := "memory_candidate", aggregateId := 0
    jobKey := "demo.decide_candidate.memory_candidate.0.candidate-decision-v1", payloadVersion := "v1"
    payload := .obj [("project_id", .int 0), ("candidate_id", .int 0)], nextAttemptAt := 0, createdAt := 0 }

def decisionQueue : Worker.Db (Json Empty) := ⟨.empty, Table.empty.insert decisionJob, .empty⟩

theorem decisionQueue_job {k : Nat} {job : ProcessingJob (Json Empty)} (h : decisionQueue.jobs.get? k = some job) :
    k = 0 ∧ job = decisionJob := by
  have hmem := (Table.get?_eq_some_iff _ _ _).mp h
  rw [show decisionQueue.jobs.rows = [(0, decisionJob)] from rfl] at hmem
  simpa using hmem

/-- The candidate has been created and its job dispatched. -/
def decisionStart : Start Empty where
  clock := 0
  queue := decisionQueue
  candidates := (Candidates.createCandidate Candidates.sampleDb 0 Candidates.sampleCandidate).2
  unique := by
    rintro j k c ⟨job, hj, -⟩ ⟨job', hk, -⟩
    rw [(decisionQueue_job hj).1, (decisionQueue_job hk).1]
  existing := by
    rintro k c ⟨job, hk, -, hid⟩
    obtain ⟨rfl, rfl⟩ := decisionQueue_job hk
    obtain rfl : c = 0 := by
      have : (0 : Int) = c := Option.some.inj hid
      omega
    decide
  handed := by
    rintro k c - ⟨job, hk, hdead⟩
    obtain ⟨rfl, rfl⟩ := decisionQueue_job hk
    cases hdead

def decisionSetup : Setup Empty where
  name _ := "v13-worker"
  host := Candidates.sampleHost

/-- The worker claims the job, begins the decision and crashes in the model call;
the lease runs out. -/
def crashingAttempt : List (Action Empty) :=
  [.processOnce 0 10, .callHandler 0, .advance 0, .advance 0, .crash 0, .tick (Worker.seconds 60)]

/-- Four attempts are swept up and the fifth is about to be. -/
def fiveCrashes : List (Action Empty) :=
  (List.replicate 4 (crashingAttempt ++ [.queue .sweepExpired])).flatten ++ crashingAttempt

/-- The state after the fifth sweep. -/
def stranded : State Empty :=
  exec (step decisionSetup) decisionStart.state (fiveCrashes ++ [.queue .sweepExpired])

theorem stranded_idle (p : Nat) : stranded.procs p = .idle := by
  cases p with
  | zero => rfl
  | succ p => rfl

/-- **A job that dies by its last lease strands its candidate**: it stays validating,
and nobody is left to hand it over. -/
theorem crashing_attempts_strand_candidate : ¬ ∀ (start : Start Empty) (actions : List (Action Empty)),
    Always (step decisionSetup) (fun st action => HandedOver (act decisionSetup st action)) start.state actions := by
  intro h
  have hlast := ((always_snoc _ _ _ _).mp (h decisionStart (fiveCrashes ++ [.queue .sweepExpired]))).2
  have hlast : HandedOver stranded := by
    rw [stranded, exec_snoc]
    exact hlast
  have hjob : (stranded.queue.jobs.get? 0).map (fun job => (job.jobType, candidateId? job.payload, job.status)) =
      some (decisionJobType, some 0, .dead) := by decide
  have hrow : (stranded.candidates.candidates.get? 0).map (fun row => row.status) = some .validating := by
    decide
  obtain ⟨job, hget, hfields⟩ := Option.map_eq_some_iff.mp hjob
  obtain ⟨row, hrow, hstatus⟩ := Option.map_eq_some_iff.mp hrow
  obtain ⟨htype, hid, hdead⟩ : job.jobType = decisionJobType ∧ candidateId? job.payload = some 0 ∧
      job.status = .dead := by simpa using hfields
  rcases hlast 0 0 ⟨job, hget, htype, hid⟩ ⟨job, hget, hdead⟩ with hawait | ⟨p, claim, e, hphase, -⟩
  · exact hawait ⟨row, hrow, Or.inr hstatus⟩
  · rw [stranded_idle] at hphase
    cases hphase

end CodexMemory.DecisionJobs
