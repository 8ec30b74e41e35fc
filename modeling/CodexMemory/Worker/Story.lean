import CodexMemory.Worker.Effects

/-!
# The story of a job

A job is told by three rows: its own, its latest attempt and its event
(`Story`).  This module says what `complete`, `fail`, `sweep_expired` and
`claim_jobs` do to the story of every job (`storyOf_rewriteJob`,
`storyOf_sweepEach`, `storyOf_claimEach`), which rows of the other tables they
touch, and that they keep the three rows in agreement (`Consistent`).
-/

namespace CodexMemory.Worker

variable {P : Type}

/-- What the three tables say about one job. -/
structure Story (P : Type) where
  job : ProcessingJob P
  attempt : Option (Nat × JobAttempt)
  event : Option (OutboxEvent P)

def storyOf (db : Db P) (k : Nat) : Option (Story P) :=
  (db.jobs.get? k).map fun job => ⟨job, latestAttempt db k, job.outboxEventId.bind db.events.get?⟩

theorem storyOf_eq_some {db : Db P} {k : Nat} {job : ProcessingJob P}
    (h : db.jobs.get? k = some job) :
    storyOf db k = some ⟨job, latestAttempt db k, job.outboxEventId.bind db.events.get?⟩ := by
  simp [storyOf, h]

theorem job_of_storyOf {db : Db P} {k : Nat} {s : Story P} (h : storyOf db k = some s) :
    db.jobs.get? k = some s.job := by
  obtain ⟨job, hj, rfl⟩ := Option.map_eq_some_iff.mp h
  exact hj

theorem attempt_of_storyOf {db : Db P} {k : Nat} {s : Story P} (h : storyOf db k = some s) :
    latestAttempt db k = s.attempt := by
  obtain ⟨job, -, rfl⟩ := Option.map_eq_some_iff.mp h
  rfl

theorem event_of_storyOf {db : Db P} {k : Nat} {s : Story P} (h : storyOf db k = some s) :
    s.job.outboxEventId.bind db.events.get? = s.event := by
  obtain ⟨job, -, rfl⟩ := Option.map_eq_some_iff.mp h
  rfl

theorem storyOf_intro {db : Db P} {k : Nat} {s : Story P} (hjob : db.jobs.get? k = some s.job)
    (hattempt : latestAttempt db k = s.attempt)
    (hevent : s.job.outboxEventId.bind db.events.get? = s.event) : storyOf db k = some s := by
  rw [storyOf_eq_some hjob, hattempt, hevent]

/-- No two jobs carry one event. -/
def SeparateEvents (db : Db P) : Prop :=
  ∀ i j a b e, db.jobs.get? i = some a → db.jobs.get? j = some b →
    a.outboxEventId = some e → b.outboxEventId = some e → i = j

/-- No attempt is numbered above the count of its job. -/
def Numbered (db : Db P) : Prop :=
  ∀ i a job, db.attempts.get? i = some a → db.jobs.get? a.jobId = some job →
    a.attemptNo ≤ job.attemptCount

/-- The listed rows are rows of the database, each once. -/
structure Rows (db : Db P) (rows : List (Nat × ProcessingJob P)) : Prop where
  nodup : (rows.map Prod.fst).Nodup
  current : ∀ r ∈ rows, db.jobs.get? r.1 = some r.2

theorem rows_selectForClaim (db : Db P) (limit : Nat) (now : Time) :
    Rows db (selectForClaim db limit now) :=
  ⟨selectForClaim_nodup db limit now, fun _ hr => (mem_selectForClaim hr).1⟩

theorem claimable_status {now : Time} {job : ProcessingJob P} (h : claimable now job = true) :
    job.status = .pending ∨ job.status = .retryWait := by
  simp only [claimable, Bool.and_eq_true, Bool.or_eq_true, decide_eq_true_eq] at h
  exact h.1.1

theorem separateEvents_of_kept {db db' : Db P} (hsep : SeparateEvents db)
    (hkept : ∀ i a, db'.jobs.get? i = some a →
      ∃ b, db.jobs.get? i = some b ∧ b.outboxEventId = a.outboxEventId) :
    SeparateEvents db' := by
  intro i j a b v ha hb hav hbv
  obtain ⟨a', ha', hae⟩ := hkept i a ha
  obtain ⟨b', hb', hbe⟩ := hkept j b hb
  exact hsep i j a' b' v ha' hb' (hae.trans hav) (hbe.trans hbv)

theorem separateEvents_modify {db : Db P} (hsep : SeparateEvents db) {k : Nat}
    {job row : ProcessingJob P} (hj : db.jobs.get? k = some job)
    (hrow : row.outboxEventId = job.outboxEventId) {db' : Db P}
    (hjobs : db'.jobs = db.jobs.modify k fun _ => row) : SeparateEvents db' := by
  refine separateEvents_of_kept hsep fun i a ha => ?_
  rw [hjobs, Table.get?_modify] at ha
  obtain ⟨b, hb, rfl⟩ := Option.map_eq_some_iff.mp ha
  refine ⟨b, hb, ?_⟩
  split
  · next hik =>
    rw [hik, hj] at hb
    cases hb
    exact hrow.symm
  · rfl

/-! ## The latest attempt -/

instance : Std.Total attemptBefore := ⟨fun a b => Nat.le_total b.2.attemptNo a.2.attemptNo⟩

instance : IsTrans _ attemptBefore := ⟨fun _ _ _ hab hbc => Nat.le_trans hbc hab⟩

theorem latestAttempt_mem {db : Db P} {k : Nat} {q : Nat × JobAttempt}
    (h : latestAttempt db k = some q) : db.attempts.get? q.1 = some q.2 ∧ q.2.jobId = k := by
  have hmem := List.mem_of_mem_head? h
  rw [List.mem_insertionSort] at hmem
  have := (db.attempts.mem_select _ q.1 q.2).mp hmem
  simpa using this

/-- Rewriting rows without touching `job_id` and `attempt_no` leaves the same
attempt the latest. -/
theorem latestAttempt_mapRows (db : Db P) (f : Nat → JobAttempt → JobAttempt)
    (hf : ∀ i a, (f i a).jobId = a.jobId ∧ (f i a).attemptNo = a.attemptNo) (k : Nat) :
    latestAttempt { db with attempts := db.attempts.mapRows f } k =
      (latestAttempt db k).map fun q => (q.1, f q.1 q.2) := by
  have hsel : (db.attempts.mapRows f).select (fun a => a.jobId = k) =
      (db.attempts.select fun a => a.jobId = k).map fun q => (q.1, f q.1 q.2) := by
    simp [Table.select, Table.mapRows, List.filter_map, Function.comp_def, (hf _ _).1]
  have hord : ∀ a b : Nat × JobAttempt,
      attemptBefore a b ↔ attemptBefore (a.1, f a.1 a.2) (b.1, f b.1 b.2) := by
    intro a b
    simp only [attemptBefore, (hf _ _).2]
  unfold latestAttempt
  rw [hsel, ← List.head?_map,
    List.map_insertionSort attemptBefore attemptBefore _ _ fun a _ b _ => hord a b]

theorem latestAttempt_insert_ne (db : Db P) (a : JobAttempt) {k : Nat} (h : a.jobId ≠ k) :
    latestAttempt { db with attempts := db.attempts.insert a } k = latestAttempt db k := by
  simp [latestAttempt, Table.select, Table.insert, List.filter_append, h]

/-- A new attempt with a number above the others is the latest. -/
theorem latestAttempt_insert_self (db : Db P) (a : JobAttempt)
    (hlt : ∀ i b, db.attempts.get? i = some b → b.jobId = a.jobId → b.attemptNo < a.attemptNo) :
    latestAttempt { db with attempts := db.attempts.insert a } a.jobId =
      some (db.attempts.nextId, a) := by
  have hsel : (db.attempts.insert a).select (fun b => b.jobId = a.jobId) =
      (db.attempts.select fun b => b.jobId = a.jobId) ++ [(db.attempts.nextId, a)] := by
    simp [Table.select, Table.insert, List.filter_append]
  unfold latestAttempt
  rw [hsel]
  generalize hsort : ((db.attempts.select fun b => decide (b.jobId = a.jobId)) ++
    [(db.attempts.nextId, a)]).insertionSort attemptBefore = sorted
  have hmem : ∀ q, q ∈ sorted ↔
      q ∈ db.attempts.select (fun b => b.jobId = a.jobId) ∨ q = (db.attempts.nextId, a) := by
    intro q
    rw [← hsort, List.mem_insertionSort, List.mem_append, List.mem_singleton]
  have hord : sorted.Pairwise attemptBefore := by
    rw [← hsort]
    exact List.pairwise_insertionSort _ _
  cases sorted with
  | nil => simpa using (hmem (db.attempts.nextId, a)).mpr (Or.inr rfl)
  | cons q rest =>
    rw [List.head?_cons]
    rcases (hmem q).mp List.mem_cons_self with hq | hq
    · exfalso
      have hold := (db.attempts.mem_select _ q.1 q.2).mp hq
      have hlow := hlt q.1 q.2 hold.1 (by simpa using hold.2)
      rcases List.mem_cons.mp ((hmem (db.attempts.nextId, a)).mpr (Or.inr rfl)) with e | hin
      · rw [← e] at hlow
        exact Nat.lt_irrefl _ hlow
      · have hle : a.attemptNo ≤ q.2.attemptNo := (List.pairwise_cons.mp hord).1 _ hin
        omega
    · rw [hq]

/-! ## Ending a running job -/

/-- How an operation ends a job: the job row it writes and, given that row,
the rows it makes of the latest attempt and of the event. -/
structure Ending (P : Type) where
  row : ProcessingJob P → ProcessingJob P
  attempt : ProcessingJob P → JobAttempt → JobAttempt
  event : ProcessingJob P → OutboxEvent P → OutboxEvent P
  row_outboxEventId : ∀ job, (row job).outboxEventId = job.outboxEventId
  row_attemptCount : ∀ job, (row job).attemptCount = job.attemptCount
  row_status : ∀ job, (row job).status ≠ .running
  attempt_jobId : ∀ job a, (attempt job a).jobId = a.jobId
  attempt_attemptNo : ∀ job a, (attempt job a).attemptNo = a.attemptNo

def completing (now : Time) : Ending P where
  row := completedRow now
  attempt _ := completedAttempt now
  event _ := completedEvent now
  row_outboxEventId _ := rfl
  row_attemptCount _ := rfl
  row_status _ := by simp [completedRow, unlocked]
  attempt_jobId _ _ := rfl
  attempt_attemptNo _ _ := rfl

def failing (cfg : Config) (code message : String) (retryable : Bool) (now : Time) :
    Ending P where
  row := failedRow cfg code message retryable now
  attempt job := failedAttempt job code message now
  event job := failedEvent job code message
  row_outboxEventId _ := rfl
  row_attemptCount _ := rfl
  row_status _ := by
    simp only [failedRow, unlocked]
    split <;> simp
  attempt_jobId _ _ := rfl
  attempt_attemptNo _ _ := rfl

def sweeping (now : Time) : Ending P where
  row := sweptRow now
  attempt _ := sweptAttempt now
  event job := failedEvent job "lease_expired" "job lease expired"
  row_outboxEventId _ := rfl
  row_attemptCount _ := rfl
  row_status _ := by
    simp only [sweptRow, unlocked]
    split <;> simp
  attempt_jobId _ a := by
    unfold sweptAttempt
    split <;> rfl
  attempt_attemptNo _ a := by
    unfold sweptAttempt
    split <;> rfl

namespace Ending

variable (e : Ending P)

/-- End job `k`, whose row is `job`. -/
def apply (db : Db P) (k : Nat) (job : ProcessingJob P) : Db P :=
  let row := e.row job
  updateEvent (updateAttempt { db with jobs := db.jobs.modify k fun _ => row } k (e.attempt row))
    row (e.event row)

def story (s : Story P) : Story P :=
  ⟨e.row s.job, s.attempt.map fun q => (q.1, e.attempt (e.row s.job) q.2),
    s.event.map (e.event (e.row s.job))⟩

@[simp] theorem apply_jobs (db : Db P) (k : Nat) (job : ProcessingJob P) :
    (e.apply db k job).jobs = db.jobs.modify k fun _ => e.row job := by
  simp [apply]

theorem apply_attempts (db : Db P) (k : Nat) (job : ProcessingJob P) :
    (e.apply db k job).attempts =
      match latestAttempt db k with
      | none => db.attempts
      | some q => db.attempts.modify q.1 (e.attempt (e.row job)) := by
  simp only [apply, updateEvent_attempts, updateAttempt]
  have hlatest : latestAttempt { db with jobs := db.jobs.modify k fun _ => e.row job } k = latestAttempt db k := rfl
  rw [hlatest]
  cases latestAttempt db k with
  | none => rfl
  | some q => rfl

theorem apply_events (db : Db P) (k : Nat) (job : ProcessingJob P) :
    (e.apply db k job).events =
      match job.outboxEventId with
      | none => db.events
      | some v => db.events.modify v (e.event (e.row job)) := by
  simp only [apply, updateEvent, e.row_outboxEventId]
  cases job.outboxEventId with
  | none => simp
  | some v => simp

theorem get?_apply_attempts (db : Db P) (k : Nat) (job : ProcessingJob P) (i : Nat) :
    (e.apply db k job).attempts.get? i = (db.attempts.get? i).map fun a =>
      if (latestAttempt db k).map Prod.fst = some i then e.attempt (e.row job) a else a := by
  rw [apply_attempts]
  cases latestAttempt db k with
  | none => simp
  | some q => simp [Table.get?_modify, eq_comm]

theorem get?_apply_events (db : Db P) (k : Nat) (job : ProcessingJob P) (v : Nat) :
    (e.apply db k job).events.get? v = (db.events.get? v).map fun event =>
      if job.outboxEventId = some v then e.event (e.row job) event else event := by
  rw [apply_events]
  cases job.outboxEventId with
  | none => simp
  | some w => simp [Table.get?_modify, eq_comm]

theorem latestAttempt_apply (db : Db P) (k : Nat) (job : ProcessingJob P) (i : Nat) :
    latestAttempt (e.apply db k job) i =
      if i = k then (latestAttempt db k).map fun q => (q.1, e.attempt (e.row job) q.2)
      else latestAttempt db i := by
  have hatt := e.apply_attempts db k job
  cases hk : latestAttempt db k with
  | none =>
    rw [hk] at hatt
    have hsame : latestAttempt (e.apply db k job) i = latestAttempt db i := by
      simp only [latestAttempt, hatt]
    rw [hsame]
    split
    · next h => rw [h, hk]; rfl
    · rfl
  | some q =>
    rw [hk] at hatt
    have hmap := latestAttempt_mapRows db
      (fun j a => if j = q.1 then e.attempt (e.row job) a else a) (by
        intro j a
        split
        · exact ⟨e.attempt_jobId _ a, e.attempt_attemptNo _ a⟩
        · exact ⟨rfl, rfl⟩) i
    have hsame : latestAttempt (e.apply db k job) i = _ := Eq.trans
      (by simp only [latestAttempt, hatt, Table.modify]) hmap
    rw [hsame]
    by_cases hik : i = k
    · simp [hik, hk]
    · rw [if_neg hik]
      cases hi : latestAttempt db i with
      | none => rfl
      | some r =>
        have hne : r.1 ≠ q.1 := by
          intro heq
          obtain ⟨hr, hri⟩ := latestAttempt_mem hi
          obtain ⟨hq, hqk⟩ := latestAttempt_mem hk
          have hrow : q.2 = r.2 := by simpa [heq, hq] using hr
          exact hik (by rw [← hri, ← hqk, hrow])
        simp [hne]

/-- **Ending one job.**  The story of that job is rewritten, the story of every
other job stays. -/
theorem storyOf_apply {db : Db P} (hsep : SeparateEvents db) {k : Nat} {job : ProcessingJob P}
    (hj : db.jobs.get? k = some job) (i : Nat) :
    storyOf (e.apply db k job) i =
      if i = k then (storyOf db k).map e.story else storyOf db i := by
  by_cases hik : i = k
  · subst hik
    have hrow : (e.apply db i job).jobs.get? i = some (e.row job) := by simp [hj]
    rw [if_pos rfl, storyOf_eq_some hrow, storyOf_eq_some hj, latestAttempt_apply, if_pos rfl,
      e.row_outboxEventId]
    cases hv : job.outboxEventId with
    | none => simp [story]
    | some v => simp [story, get?_apply_events, hv]
  · rw [if_neg hik]
    have hrow : (e.apply db k job).jobs.get? i = db.jobs.get? i := by
      rw [apply_jobs, Table.get?_modify_ne _ _ hik]
    cases hi : db.jobs.get? i with
    | none => rw [storyOf, hrow, storyOf, hi]; rfl
    | some other =>
      rw [storyOf_eq_some (hrow.trans hi), storyOf_eq_some hi, latestAttempt_apply, if_neg hik]
      cases hv : other.outboxEventId with
      | none => simp
      | some v =>
        have hne : job.outboxEventId ≠ some v := fun hw => hik (hsep i k other job v hi hj hv hw)
        simp [get?_apply_events, hne]

theorem separateEvents_apply {db : Db P} (hsep : SeparateEvents db) {k : Nat}
    {job : ProcessingJob P} (hj : db.jobs.get? k = some job) :
    SeparateEvents (e.apply db k job) :=
  separateEvents_modify hsep hj (e.row_outboxEventId job) (e.apply_jobs db k job)

/-- End every listed job. -/
def applyEach : List (Nat × ProcessingJob P) → Db P → Db P
  | [], db => db
  | (k, job) :: rest, db => applyEach rest (e.apply db k job)

variable {e} in
theorem rows_tail {db : Db P} {r : Nat × ProcessingJob P} {rows : List (Nat × ProcessingJob P)}
    (h : Rows db (r :: rows)) : Rows (e.apply db r.1 r.2) rows := by
  have hn := List.nodup_cons.mp h.nodup
  refine ⟨hn.2, fun q hq => ?_⟩
  have hne : q.1 ≠ r.1 := by
    intro heq
    exact hn.1 (List.mem_map.mpr ⟨q, hq, heq⟩)
  rw [apply_jobs, Table.get?_modify_ne _ _ hne]
  exact h.current q (List.mem_cons_of_mem _ hq)

/-- **Ending several jobs.**  Exactly the listed stories are rewritten. -/
theorem storyOf_applyEach (rows : List (Nat × ProcessingJob P)) {db : Db P}
    (hsep : SeparateEvents db) (hrows : Rows db rows) (i : Nat) :
    storyOf (e.applyEach rows db) i =
      if i ∈ rows.map Prod.fst then (storyOf db i).map e.story else storyOf db i := by
  induction rows generalizing db with
  | nil => simp [applyEach]
  | cons r rows ih =>
    have hj := hrows.current r List.mem_cons_self
    have hn := List.nodup_cons.mp hrows.nodup
    simp only [applyEach, List.map_cons, List.mem_cons]
    rw [ih (e.separateEvents_apply hsep hj) (rows_tail hrows), e.storyOf_apply hsep hj]
    by_cases hi : i = r.1
    · subst hi
      simp [hn.1]
    · simp only [hi, if_false, false_or]

theorem applyEach_jobs_of_notMem (rows : List (Nat × ProcessingJob P)) (db : Db P) {k : Nat}
    (h : k ∉ rows.map Prod.fst) : (e.applyEach rows db).jobs.get? k = db.jobs.get? k := by
  induction rows generalizing db with
  | nil => rfl
  | cons r rows ih =>
    simp only [List.map_cons, List.mem_cons, not_or] at h
    rw [applyEach, ih _ h.2, apply_jobs, Table.get?_modify_ne _ _ h.1]

/-- An attempt that is not the latest of a listed job is not written. -/
theorem applyEach_attempts_of_ne (rows : List (Nat × ProcessingJob P)) {db : Db P}
    (hrows : Rows db rows) {i : Nat}
    (h : ∀ r ∈ rows, (latestAttempt db r.1).map Prod.fst ≠ some i) :
    (e.applyEach rows db).attempts.get? i = db.attempts.get? i := by
  induction rows generalizing db with
  | nil => rfl
  | cons r rows ih =>
    have hn := List.nodup_cons.mp hrows.nodup
    have hrest : ∀ q ∈ rows, (latestAttempt (e.apply db r.1 r.2) q.1).map Prod.fst ≠ some i := by
      intro q hq
      have hne : q.1 ≠ r.1 := by
        intro heq
        exact hn.1 (List.mem_map.mpr ⟨q, hq, heq⟩)
      rw [latestAttempt_apply, if_neg hne]
      exact h q (List.mem_cons_of_mem _ hq)
    rw [applyEach, ih (rows_tail hrows) hrest, get?_apply_attempts]
    have hr := h r List.mem_cons_self
    simp [hr]

/-- An event that no listed job carries is not written. -/
theorem applyEach_events_of_ne (rows : List (Nat × ProcessingJob P)) (db : Db P) {v : Nat}
    (h : ∀ r ∈ rows, r.2.outboxEventId ≠ some v) :
    (e.applyEach rows db).events.get? v = db.events.get? v := by
  induction rows generalizing db with
  | nil => rfl
  | cons r rows ih =>
    have hr := h r List.mem_cons_self
    have hrest : ∀ q ∈ rows, q.2.outboxEventId ≠ some v := fun q hq =>
      h q (List.mem_cons_of_mem _ hq)
    rw [applyEach, ih _ hrest, get?_apply_events]
    simp [hr]

end Ending

/-! ## Claiming a job -/

/-- One iteration of the loop of `claim_jobs`. -/
def claimOne (cfg : Config) (w : String) (now : Time) (db : Db P) (k : Nat)
    (job : ProcessingJob P) : Db P :=
  let row := claimedRow cfg w now job
  { db with
    jobs := db.jobs.modify k fun _ => row
    attempts := db.attempts.insert { jobId := k, attemptNo := row.attemptCount, workerId := w } }

/-- The story of a job just claimed; `i` is the key of the new attempt. -/
def claimedStory (cfg : Config) (w : String) (now : Time) (k i : Nat) (s : Story P) : Story P :=
  ⟨claimedRow cfg w now s.job,
    some (i, { jobId := k, attemptNo := s.job.attemptCount + 1, workerId := w }), s.event⟩

theorem storyOf_claimOne_self (cfg : Config) (w : String) (now : Time) {db : Db P} (hnum : Numbered db)
    {k : Nat} {job : ProcessingJob P} (hj : db.jobs.get? k = some job) :
    storyOf (claimOne cfg w now db k job) k =
      (storyOf db k).map (claimedStory cfg w now k db.attempts.nextId) := by
  have hrow : (claimOne cfg w now db k job).jobs.get? k = some (claimedRow cfg w now job) := by
    simp [claimOne, hj]
  have hlatest := latestAttempt_insert_self db
    { jobId := k, attemptNo := job.attemptCount + 1, workerId := w } (by
      intro i b hb hbk
      have hle := hnum i b job hb (by rw [hbk]; exact hj)
      exact Nat.lt_succ_of_le hle)
  rw [storyOf_eq_some hrow, storyOf_eq_some hj]
  simp only [Option.map_some, claimedStory, Option.some.injEq, Story.mk.injEq, true_and]
  exact ⟨hlatest, rfl⟩

theorem storyOf_claimOne_ne (cfg : Config) (w : String) (now : Time) (db : Db P) {k i : Nat}
    (job : ProcessingJob P) (h : i ≠ k) :
    storyOf (claimOne cfg w now db k job) i = storyOf db i := by
  have hrow : (claimOne cfg w now db k job).jobs.get? i = db.jobs.get? i := by
    simp only [claimOne, Table.get?_modify_ne _ _ h]
  have hlatest : latestAttempt (claimOne cfg w now db k job) i = latestAttempt db i :=
    latestAttempt_insert_ne db _ (Ne.symm h)
  simp only [storyOf, hrow, hlatest]
  rfl

theorem numbered_claimOne (cfg : Config) (w : String) (now : Time) {db : Db P} (hnum : Numbered db)
    {k : Nat} {job : ProcessingJob P} (hj : db.jobs.get? k = some job) :
    Numbered (claimOne cfg w now db k job) := by
  intro i a row ha hrow
  have hrow' : ((db.jobs.get? a.jobId).map fun r =>
      if a.jobId = k then claimedRow cfg w now job else r) = some row := by
    rw [← Table.get?_modify]; exact hrow
  obtain ⟨old, hold, rfl⟩ := Option.map_eq_some_iff.mp hrow'
  by_cases hi : i = db.attempts.nextId
  · subst hi
    have hself : (db.attempts.insert
        { jobId := k, attemptNo := job.attemptCount + 1, workerId := w }).get? db.attempts.nextId =
        some a := ha
    rw [Table.get?_insert_self] at hself
    cases hself
    simp [claimedRow]
  · have hb : db.attempts.get? i = some a := by
      rw [← Table.get?_insert_ne db.attempts _ hi]; exact ha
    have hle := hnum i a old hb hold
    split
    · next hk =>
      rw [hk, hj] at hold
      cases hold
      exact Nat.le_succ_of_le hle
    · exact hle

theorem separateEvents_claimOne (cfg : Config) (w : String) (now : Time) {db : Db P}
    (hsep : SeparateEvents db) {k : Nat} {job : ProcessingJob P} (hj : db.jobs.get? k = some job) :
    SeparateEvents (claimOne cfg w now db k job) :=
  separateEvents_modify hsep hj (by simp [claimedRow]) rfl

theorem rows_claimOne (cfg : Config) (w : String) (now : Time) {db : Db P}
    {r : Nat × ProcessingJob P} {rows : List (Nat × ProcessingJob P)}
    (h : Rows db (r :: rows)) : Rows (claimOne cfg w now db r.1 r.2) rows := by
  have hn := List.nodup_cons.mp h.nodup
  refine ⟨hn.2, fun q hq => ?_⟩
  have hne : q.1 ≠ r.1 := by
    intro heq
    exact hn.1 (List.mem_map.mpr ⟨q, hq, heq⟩)
  exact (Table.get?_modify_ne _ _ hne).trans (h.current q (List.mem_cons_of_mem _ hq))

/-- **Claiming.**  The stories of the selected jobs become those of claimed
jobs, the others stay; attempts stay numbered and events separate. -/
theorem claimEach_stories (cfg : Config) (w : String) (now : Time)
    (rows : List (Nat × ProcessingJob P)) {db : Db P} (hsep : SeparateEvents db)
    (hnum : Numbered db) (hrows : Rows db rows) :
    SeparateEvents (claimEach cfg w now rows db).2 ∧ Numbered (claimEach cfg w now rows db).2 ∧
      ∀ k, (k ∉ rows.map Prod.fst → storyOf (claimEach cfg w now rows db).2 k = storyOf db k) ∧
        (k ∈ rows.map Prod.fst → ∃ i, storyOf (claimEach cfg w now rows db).2 k =
          (storyOf db k).map (claimedStory cfg w now k i)) := by
  induction rows generalizing db with
  | nil => exact ⟨hsep, hnum, fun k => ⟨fun _ => rfl, fun hk => by simp at hk⟩⟩
  | cons r rows ih =>
    have hj := hrows.current r List.mem_cons_self
    have hn := List.nodup_cons.mp hrows.nodup
    obtain ⟨hsep', hnum', hstory⟩ := ih (separateEvents_claimOne cfg w now hsep hj)
      (numbered_claimOne cfg w now hnum hj) (rows_claimOne cfg w now hrows)
    refine ⟨hsep', hnum', fun k => ?_⟩
    obtain ⟨hout, hin⟩ := hstory k
    change (_ → storyOf (claimEach cfg w now rows (claimOne cfg w now db r.1 r.2)).2 k = _) ∧
      (_ → ∃ i, storyOf (claimEach cfg w now rows (claimOne cfg w now db r.1 r.2)).2 k = _)
    by_cases hk : k = r.1
    · subst hk
      refine ⟨fun h => absurd List.mem_cons_self h, fun _ => ⟨db.attempts.nextId, ?_⟩⟩
      rw [hout hn.1, storyOf_claimOne_self cfg w now hnum hj]
    · rw [storyOf_claimOne_ne cfg w now db r.2 hk] at hout hin
      simp only [List.map_cons, List.mem_cons, hk, false_or]
      exact ⟨hout, hin⟩

/-! ## Agreement -/

/-- The event is still to be worked on. -/
def EventOpen (event : Option EventStatus) : Prop :=
  ∀ status, event = some status → status = .pending ∨ status = .dispatched ∨ status = .retryWait

/-- The outcome of the latest attempt and the status of the event that go with
a job status. -/
def Told (outcome : Option Outcome) (event : Option EventStatus) : JobStatus → Prop
  | .pending => outcome ≠ some .running ∧ outcome ≠ some .succeeded ∧ EventOpen event
  | .running => outcome = some .running ∧ EventOpen event
  | .succeeded => outcome = some .succeeded ∧ ∀ status, event = some status → status = .completed
  | .retryWait => (outcome = some .failed ∨ outcome = some .abandoned) ∧
      ∀ status, event = some status → status = .retryWait
  | .dead => (outcome = some .failed ∨ outcome = some .abandoned) ∧
      ∀ status, event = some status → status = .dead
  | .cancelled => outcome ≠ some .succeeded

/-- The three rows tell the same story, and the latest attempt is the one the
job counts. -/
structure Agree (s : Story P) : Prop where
  number : ∀ q, s.attempt = some q → q.2.attemptNo = s.job.attemptCount
  told : Told (s.attempt.map fun q => q.2.outcome) (s.event.map fun event => event.status)
    s.job.status

/-- Every job agrees with its latest attempt and its event. -/
structure Consistent (db : Db P) : Prop where
  separate : SeparateEvents db
  numbered : Numbered db
  agree : ∀ k s, storyOf db k = some s → Agree s

theorem claimedStory_agree (cfg : Config) (w : String) (now : Time) (k i : Nat) {s : Story P}
    (hs : Agree s) (hc : s.job.status = .pending ∨ s.job.status = .retryWait) :
    Agree (claimedStory cfg w now k i s) := by
  refine ⟨by simp [claimedStory, claimedRow], rfl, ?_⟩
  have htold := hs.told
  rcases hc with h | h
  · rw [h] at htold
    exact htold.2.2
  · rw [h] at htold
    intro status hstatus
    exact Or.inr (Or.inr (htold.2 status hstatus))

theorem Ending.story_number (e : Ending P) {s : Story P} (hs : Agree s) :
    ∀ q, (e.story s).attempt = some q → q.2.attemptNo = (e.story s).job.attemptCount := by
  intro q hq
  obtain ⟨q', hq', rfl⟩ := Option.map_eq_some_iff.mp hq
  simpa [story, e.attempt_attemptNo, e.row_attemptCount] using hs.number q' hq'

/-- A running story has a running attempt. -/
theorem Agree.running {s : Story P} (hs : Agree s) (hr : s.job.status = .running) :
    ∃ q, s.attempt = some q ∧ q.2.outcome = .running := by
  have htold := hs.told
  rw [hr] at htold
  obtain ⟨q, hq, ho⟩ := Option.map_eq_some_iff.mp htold.1
  exact ⟨q, hq, ho⟩

theorem completing_agree (now : Time) {s : Story P} (hs : Agree s) (hr : s.job.status = .running) :
    Agree ((completing now).story s) := by
  obtain ⟨q, hq, -⟩ := hs.running hr
  refine ⟨(completing now).story_number hs, ?_, ?_⟩
  · simp [Ending.story, completing, hq, completedAttempt]
  · intro status hstatus
    cases hev : s.event with
    | none => simp [Ending.story, hev] at hstatus
    | some event =>
      simpa [Ending.story, completing, hev, completedEvent, eq_comm] using hstatus

/-- An ending as failed or abandoned agrees when the event follows the job. -/
theorem ended_agree (e : Ending P) {s : Story P} (hs : Agree s)
    (hstatus : (e.row s.job).status = .retryWait ∨ (e.row s.job).status = .dead)
    (houtcome : ∃ q, (e.story s).attempt = some q ∧
      (q.2.outcome = .failed ∨ q.2.outcome = .abandoned))
    (hevent : ∀ event, (e.event (e.row s.job) event).status =
      failedEventStatus (e.row s.job).status) :
    Agree (e.story s) := by
  obtain ⟨q, hq, ho⟩ := houtcome
  have houtcome : (e.story s).attempt.map (fun q => q.2.outcome) = some .failed ∨
      (e.story s).attempt.map (fun q => q.2.outcome) = some .abandoned := by
    simpa [hq] using ho
  have hev : ∀ status, (e.story s).event.map (fun event => event.status) = some status →
      status = failedEventStatus (e.row s.job).status := by
    intro status h
    cases hse : s.event with
    | none => simp [Ending.story, hse] at h
    | some event => simpa [Ending.story, hse, hevent, eq_comm] using h
  refine ⟨e.story_number hs, ?_⟩
  change Told _ _ (e.row s.job).status
  rcases hstatus with h | h
  · rw [h] at hev ⊢
    exact ⟨houtcome, hev⟩
  · rw [h] at hev ⊢
    exact ⟨houtcome, hev⟩

theorem failing_agree (cfg : Config) (code message : String) (retryable : Bool) (now : Time)
    {s : Story P} (hs : Agree s) (hr : s.job.status = .running) :
    Agree ((failing cfg code message retryable now).story s) := by
  obtain ⟨q, hq, -⟩ := hs.running hr
  refine ended_agree _ hs ?_ ?_ fun _ => rfl
  · simp only [failing, failedRow, unlocked]
    split
    · exact Or.inl rfl
    · exact Or.inr rfl
  · exact ⟨_, by rw [Ending.story, hq]; rfl, Or.inl rfl⟩

theorem sweeping_agree (now : Time) {s : Story P} (hs : Agree s) (hr : s.job.status = .running) :
    Agree ((sweeping now).story s) := by
  obtain ⟨q, hq, ho⟩ := hs.running hr
  refine ended_agree _ hs ?_ ?_ fun _ => rfl
  · simp only [sweeping, sweptRow, unlocked]
    split
    · exact Or.inl rfl
    · exact Or.inr rfl
  · exact ⟨_, by rw [Ending.story, hq]; rfl, Or.inr (by simp [sweeping, sweptAttempt, ho])⟩

end CodexMemory.Worker
