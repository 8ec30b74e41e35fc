import CodexMemory.Worker.Leases

/-!
# The attempts of a job

* `attempts_bounded`: a job is claimed at most `max_attempts` times and once more
  for every requeue by an operator, and a job in `retry_wait` has attempts left;
* `ledger_of_run`: as long as no running job is cancelled, the attempts of a job
  are numbered `1..attempt_count` and the last one is running exactly when the job
  is;
* `cancelled_attempt_runs_on`: the attempt of a cancelled job is never closed.
-/

namespace CodexMemory.Worker

variable {P : Type}

/-! ## How often a job is claimed -/

/-- A job that was claimed `claims` times and put back `requeues` times. -/
structure Bounded (job : ProcessingJob P) (claims requeues : Nat) : Prop where
  counted : claims = job.attemptCount
  waiting : job.status = .retryWait → job.attemptCount < job.maxAttempts
  bound : 1 ≤ job.maxAttempts → job.attemptCount ≤ job.maxAttempts + requeues
  claimable : 1 ≤ job.maxAttempts → job.status = .pending ∨ job.status = .retryWait →
    job.attemptCount < job.maxAttempts + requeues

theorem bounded_unclaimed {job : ProcessingJob P} (h : Unclaimed job) : Bounded job 0 0 := by
  obtain ⟨hstatus, hcount, -⟩ := h
  refine ⟨hcount.symm, fun hs => ?_, fun _ => by omega, fun _ _ => by omega⟩
  rw [hstatus] at hs
  cases hs

/-- **Every row move keeps the bound.** -/
theorem bounded_rowMove {k : Nat} {job row : ProcessingJob P} {label : Label} {claims requeues : Nat}
    (h : Bounded job claims requeues) (hmove : RowMove k job label row) :
    Bounded row (claims + [label].count (.claim k)) (requeues + [label].count (.requeue k)) := by
  obtain ⟨hcounted, hwaiting, hbound, hclaimable⟩ := h
  cases hmove with
  | claimed cfg w now hstatus =>
    rw [List.count_singleton_self, List.count_singleton]
    refine ⟨congrArg Nat.succ hcounted, by rintro ⟨⟩, fun hmax => ?_, fun _ hs => ?_⟩
    · have hroom := hclaimable hmax hstatus
      show job.attemptCount + 1 ≤ job.maxAttempts + _
      omega
    · rcases hs with hs | hs <;> cases hs
  | beaten cfg now hstatus =>
    simp only [List.count_singleton, reduceCtorEq, beq_iff_eq, if_false, Nat.add_zero]
    refine ⟨hcounted, fun hs => hwaiting hs, hbound, fun hmax hs => hclaimable hmax hs⟩
  | @ended e he hstatus =>
    simp only [List.count_singleton, reduceCtorEq, beq_iff_eq, if_false, Nat.add_zero]
    have hcount := e.row_attemptCount job
    have hmax := he.maxAttempts job
    refine ⟨hcounted.trans hcount.symm, fun hs => ?_, fun h1 => ?_, fun h1 hs => ?_⟩
    · rw [hcount, hmax]
      rcases he.status job with h | h | h
      · rw [h] at hs
        cases hs
      · rw [h] at hs
        cases hs
      · exact h.2
    · rw [hcount, hmax]
      exact hbound (hmax ▸ h1)
    · rw [hcount, hmax]
      rcases he.status job with h | h | h
      · rw [h] at hs
        rcases hs with hs | hs <;> cases hs
      · rw [h] at hs
        rcases hs with hs | hs <;> cases hs
      · have hleft := h.2
        omega
  | requeued hstatus hrow =>
    rw [List.count_singleton_self, List.count_singleton]
    have hsame : row.attemptCount = job.attemptCount ∧ row.maxAttempts = job.maxAttempts ∧
        row.status = .pending := by
      obtain ⟨now, rfl | rfl | rfl⟩ := hrow <;> exact ⟨rfl, rfl, rfl⟩
    obtain ⟨hcount, hmax, hpending⟩ := hsame
    refine ⟨hcounted.trans hcount.symm, fun hs => ?_, fun h1 => ?_, fun h1 _ => ?_⟩
    · rw [hpending] at hs
      cases hs
    · have hle := hbound (hmax ▸ h1)
      omega
    · have hle := hbound (hmax ▸ h1)
      omega
  | cancelled hlabel reason now hopen =>
    have hzero : ∀ l, l ≠ label → [label].count l = 0 := fun l hne =>
      List.count_eq_zero.mpr fun hmem => hne (List.mem_singleton.mp hmem)
    rw [hzero (.claim k) (by rcases hlabel with rfl | rfl <;> simp),
      hzero (.requeue k) (by rcases hlabel with rfl | rfl <;> simp)]
    refine ⟨hcounted, by rintro ⟨⟩, hbound, fun _ hs => ?_⟩
    rcases hs with hs | hs <;> cases hs
  | kept hclaim hrequeue =>
    have hzero : ∀ l, label ≠ l → [label].count l = 0 := fun l hne =>
      List.count_eq_zero.mpr fun hmem => hne (List.mem_singleton.mp hmem).symm
    rw [hzero _ hclaim, hzero _ hrequeue]
    exact ⟨hcounted, hwaiting, hbound, hclaimable⟩

/-- Every job with the numbers of its claims and its requeues. -/
structure Counted (db : Db P) (claims requeues : Nat → Nat) : Prop where
  absent : ∀ k, db.jobs.get? k = none → claims k = 0 ∧ requeues k = 0
  job : ∀ k job, db.jobs.get? k = some job → Bounded job (claims k) (requeues k)

/-- A job that is not there was not there before, and the move is not about it. -/
theorem Move.absent {db db' : Db P} {label : Label} (h : Move db label db') {k : Nat}
    (hk : db'.jobs.get? k = none) : db.jobs.get? k = none ∧ label ≠ .claim k ∧ label ≠ .requeue k := by
  have hmodify : ∀ {j : Nat} {job : ProcessingJob P} {f : ProcessingJob P → ProcessingJob P},
      db.jobs.get? j = some job → (db.jobs.modify j f).get? k = none → db.jobs.get? k = none ∧ j ≠ k := by
    intro j job f hjob hnone
    rw [Table.get?_modify] at hnone
    have habsent := Option.map_eq_none_iff.mp hnone
    refine ⟨habsent, fun hjk => ?_⟩
    rw [← hjk, hjob] at habsent
    cases habsent
  have hmapRows : ∀ {f : Nat → ProcessingJob P → ProcessingJob P},
      (db.jobs.mapRows f).get? k = none → db.jobs.get? k = none := by
    intro f hnone
    rw [Table.get?_mapRows] at hnone
    exact Option.map_eq_none_iff.mp hnone
  cases h with
  | claimed cfg w now hjob hstatus =>
    obtain ⟨habsent, hne⟩ := hmodify hjob hk
    exact ⟨habsent, fun h => hne (Label.claim.inj h), by simp⟩
  | beaten cfg now hjob hstatus => exact ⟨(hmodify hjob hk).1, by simp, by simp⟩
  | ended he hjob hstatus =>
    rw [Ending.apply_jobs] at hk
    exact ⟨(hmodify hjob hk).1, by simp, by simp⟩
  | requeued hjob hstatus hrow =>
    obtain ⟨habsent, hne⟩ := hmodify hjob hk
    exact ⟨habsent, by simp, fun h => hne (Label.requeue.inj h)⟩
  | cancelled hit reason now hopen hidle => exact ⟨hmapRows hk, by simp, by simp⟩
  | stopped hit reason now hopen => exact ⟨hmapRows hk, by simp, by simp⟩
  | wrote f => exact ⟨hk, by simp, by simp⟩
  | @created job hnew =>
    by_cases hnext : k = db.jobs.nextId
    · subst hnext
      have hself : (db.jobs.insert job).get? db.jobs.nextId = none := hk
      rw [Table.get?_insert_self] at hself
      cases hself
    · have hold : (db.jobs.insert job).get? k = none := hk
      rw [Table.get?_insert_ne _ _ hnext] at hold
      exact ⟨hold, by simp, by simp⟩

theorem counted_move {db db' : Db P} {claims requeues : Nat → Nat} {label : Label}
    (h : Counted db claims requeues) (hmove : Move db label db') :
    Counted db' (fun k => claims k + [label].count (.claim k)) fun k => requeues k + [label].count (.requeue k) := by
  refine ⟨fun k hk => ?_, fun k row' hrow' => ?_⟩
  · obtain ⟨habsent, hclaim, hrequeue⟩ := hmove.absent hk
    obtain ⟨hclaims, hrequeues⟩ := h.absent k habsent
    simp [hclaims, hrequeues, hclaim, hrequeue]
  · rcases hmove.row hrow' with ⟨row, hrow, hrowMove⟩ | ⟨habsent, hunclaimed, rfl⟩
    · exact bounded_rowMove (h.job k row hrow) hrowMove
    · obtain ⟨hclaims, hrequeues⟩ := h.absent k habsent
      have hzero := bounded_unclaimed hunclaimed
      rw [← hclaims] at hzero
      simpa [hclaims, hrequeues, List.count_singleton] using hzero

theorem counted_path {db db' : Db P} {labels : List Label} (hpath : Path db labels db')
    {claims requeues : Nat → Nat} (h : Counted db claims requeues) :
    Counted db' (fun k => claims k + labels.count (.claim k)) fun k => requeues k + labels.count (.requeue k) := by
  induction hpath generalizing claims requeues with
  | nil => exact h
  | @cons db db₁ db' label labels hmove hpath ih =>
    have hall := ih (counted_move h hmove)
    simp only [Nat.add_assoc] at hall
    have hsplit : ∀ l, [label].count l + labels.count l = (label :: labels).count l := fun l => by
      rw [← List.count_append, List.singleton_append]
    simp only [hsplit] at hall
    exact hall

/-- How often a run claims job `k`. -/
def claimsOf (host : Host P) (q : Queue P) (ops : List (Operation × Time)) (k : Nat) : Nat :=
  Trace.total (Queue.step host) (fun q input => claimsIn k (Queue.step host q input).1) q ops

/-- How often operators put job `k` back in a run. -/
def requeuesOf (host : Host P) (q : Queue P) (ops : List (Operation × Time)) (k : Nat) : Nat :=
  Trace.total (Queue.step host) (fun q input => if requeues q k input.1 then 1 else 0) q ops

theorem counted_run (host : Host P) (ops : List (Operation × Time)) {q : Queue P} {claims requeues : Nat → Nat}
    (h : Counted q.db claims requeues) : Counted (Trace.exec (Queue.step host) q ops).db
      (fun k => claims k + claimsOf host q ops k) fun k => requeues k + requeuesOf host q ops k := by
  induction ops generalizing q claims requeues with
  | nil => exact h
  | cons input ops ih =>
    obtain ⟨labels, hpath, hlabelled⟩ := step_path host q input
    have hall := ih (counted_path hpath h)
    simp only [hlabelled.claims, hlabelled.requeues, Nat.add_assoc] at hall
    exact hall

/-- **Bounded attempts, in every run**: a job is claimed at most `max_attempts`
times and once more for every requeue, and has attempts left in `retry_wait`. -/
theorem attempts_bounded (host : Host P) (start : Start P) (ops : List (Operation × Time)) (k : Nat)
    (job : ProcessingJob P) (hjob : (start.after host ops).db.jobs.get? k = some job) :
    (1 ≤ job.maxAttempts →
      claimsOf host start.queue ops k ≤ job.maxAttempts + requeuesOf host start.queue ops k) ∧
    (job.status = .retryWait → job.attemptCount < job.maxAttempts) := by
  have hstart : Counted start.queue.db (fun _ => 0) fun _ => 0 :=
    ⟨fun _ _ => ⟨rfl, rfl⟩, fun k job hjob => bounded_unclaimed (start.unclaimed k job hjob)⟩
  have hbounded := (counted_run host ops hstart).job k job hjob
  simp only [Nat.zero_add] at hbounded
  refine ⟨fun hmax => ?_, hbounded.waiting⟩
  rw [hbounded.counted]
  exact hbounded.bound hmax

/-- One claim of a job that may be claimed five times. -/
theorem attempts_bounded_claimed : claimsOf smallHost smallStart.queue dispatchAndClaim 0 ≤
    5 + requeuesOf smallHost smallStart.queue dispatchAndClaim 0 :=
  (attempts_bounded smallHost smallStart dispatchAndClaim 0 _ smallJob_claimed).1 (by decide)

/-! ## The ledger -/

/-- The attempts of job `k` are numbered from 1 to its count, each number once, and
exactly the last one of a running job is running. -/
structure Ledger (db : Db P) (k : Nat) (job : ProcessingJob P) : Prop where
  numbered : ∀ i a, db.attempts.get? i = some a → a.jobId = k →
    1 ≤ a.attemptNo ∧ a.attemptNo ≤ job.attemptCount
  complete : ∀ n, 1 ≤ n → n ≤ job.attemptCount →
    ∃ i a, db.attempts.get? i = some a ∧ a.jobId = k ∧ a.attemptNo = n
  unique : ∀ i j a b, db.attempts.get? i = some a → db.attempts.get? j = some b → a.jobId = k → b.jobId = k →
    a.attemptNo = b.attemptNo → i = j
  running : ∀ i a, db.attempts.get? i = some a → a.jobId = k →
    (a.outcome = .running ↔ a.attemptNo = job.attemptCount ∧ job.status = .running)
  started : job.status = .running → 1 ≤ job.attemptCount

/-- Every job has its ledger, and every attempt a job. -/
structure Ledgers (db : Db P) : Prop where
  known : ∀ i a, db.attempts.get? i = some a → a.jobId < db.jobs.nextId
  ledger : ∀ k job, db.jobs.get? k = some job → Ledger db k job

theorem Ledger.frame {db db' : Db P} {k : Nat} {job row : ProcessingJob P} (h : Ledger db k job)
    (hsame : ∀ i a, a.jobId = k → (db'.attempts.get? i = some a ↔ db.attempts.get? i = some a))
    (hcount : row.attemptCount = job.attemptCount) (hstatus : row.status = .running ↔ job.status = .running) :
    Ledger db' k row := by
  refine ⟨fun i a ha hk => ?_, fun n h1 hn => ?_, fun i j a b ha hb hak hbk => ?_, fun i a ha hk => ?_, fun hs => ?_⟩
  · rw [hcount]
    exact h.numbered i a ((hsame i a hk).mp ha) hk
  · obtain ⟨i, a, ha, hk, hno⟩ := h.complete n h1 (hcount ▸ hn)
    exact ⟨i, a, (hsame i a hk).mpr ha, hk, hno⟩
  · exact h.unique i j a b ((hsame i a hak).mp ha) ((hsame j b hbk).mp hb) hak hbk
  · rw [hcount, hstatus]
    exact h.running i a ((hsame i a hk).mp ha) hk
  · rw [hcount]
    exact h.started (hstatus.mp hs)

theorem ledger_unclaimed {db : Db P} {k : Nat} {job : ProcessingJob P} (hunclaimed : Unclaimed job)
    (hnone : ∀ i a, db.attempts.get? i = some a → a.jobId ≠ k) : Ledger db k job := by
  obtain ⟨hstatus, hcount, -⟩ := hunclaimed
  refine ⟨fun i a ha hk => absurd hk (hnone i a ha), fun n h1 hn => ?_,
    fun i j a b ha hb hk => absurd hk (hnone i a ha), fun i a ha hk => absurd hk (hnone i a ha), fun hs => ?_⟩
  · omega
  · rw [hstatus] at hs
    cases hs

/-- **A claim opens the next attempt.** -/
theorem ledger_claimed (cfg : Config) (w : String) (now : Time) {db : Db P} {k : Nat} {job : ProcessingJob P}
    (h : Ledger db k job) (hstatus : job.status = .pending ∨ job.status = .retryWait) :
    Ledger (claimOne cfg w now db k job) k (claimedRow cfg w now job) := by
  have hidle : job.status ≠ .running := by
    rcases hstatus with hs | hs <;> rw [hs] <;> decide
  have hattempts : ∀ i a, (claimOne cfg w now db k job).attempts.get? i = some a →
      (i = db.attempts.nextId ∧ a = { jobId := k, attemptNo := job.attemptCount + 1, workerId := w }) ∨
        (i ≠ db.attempts.nextId ∧ db.attempts.get? i = some a) := by
    intro i a ha
    by_cases hi : i = db.attempts.nextId
    · subst hi
      have hself : (db.attempts.insert
          { jobId := k, attemptNo := job.attemptCount + 1, workerId := w }).get? db.attempts.nextId =
          some a := ha
      rw [Table.get?_insert_self] at hself
      exact Or.inl ⟨rfl, (Option.some.inj hself).symm⟩
    · have hold : (db.attempts.insert
          { jobId := k, attemptNo := job.attemptCount + 1, workerId := w }).get? i = some a := ha
      rw [Table.get?_insert_ne _ _ hi] at hold
      exact Or.inr ⟨hi, hold⟩
  have hkept : ∀ i a, db.attempts.get? i = some a → (claimOne cfg w now db k job).attempts.get? i = some a := by
    intro i a ha
    have hne : i ≠ db.attempts.nextId := fun hi => by
      rw [hi, Table.get?_nextId] at ha
      cases ha
    exact (Table.get?_insert_ne db.attempts _ hne).trans ha
  have hcount : (claimedRow cfg w now job).attemptCount = job.attemptCount + 1 := rfl
  have hrunning : (claimedRow cfg w now job).status = .running := rfl
  refine ⟨fun i a ha hk => ?_, fun n h1 hn => ?_, fun i j a b ha hb hak hbk hno => ?_, fun i a ha hk => ?_,
    fun _ => by omega⟩
  · rcases hattempts i a ha with ⟨-, rfl⟩ | ⟨-, hold⟩
    · exact ⟨Nat.succ_pos _, Nat.le_refl _⟩
    · have hbetween := h.numbered i a hold hk
      omega
  · by_cases hlast : n = job.attemptCount + 1
    · exact ⟨db.attempts.nextId, _, Table.get?_insert_self _ _, rfl, hlast.symm⟩
    · obtain ⟨i, a, ha, hk, hno⟩ := h.complete n h1 (by omega)
      exact ⟨i, a, hkept i a ha, hk, hno⟩
  · rcases hattempts i a ha with ⟨hi, rfl⟩ | ⟨-, holda⟩ <;> rcases hattempts j b hb with ⟨hj, rfl⟩ | ⟨-, holdb⟩
    · rw [hi, hj]
    · have hbetween := (h.numbered j b holdb hbk).2
      have hnew : job.attemptCount + 1 = b.attemptNo := hno
      omega
    · have hbetween := (h.numbered i a holda hak).2
      have hnew : a.attemptNo = job.attemptCount + 1 := hno
      omega
    · exact h.unique i j a b holda holdb hak hbk hno
  · rcases hattempts i a ha with ⟨-, rfl⟩ | ⟨-, hold⟩
    · simp [hcount, hrunning]
    · have hbetween := (h.numbered i a hold hk).2
      have hclosed := (h.running i a hold hk).mp.mt fun hboth => hidle hboth.2
      rw [hcount]
      constructor
      · intro hopen
        exact absurd hopen hclosed
      · intro hboth
        omega

/-- The latest attempt is the one with the count of its job. -/
theorem Ledger.latest {db : Db P} {k : Nat} {job : ProcessingJob P} (h : Ledger db k job)
    (hcount : 1 ≤ job.attemptCount) : ∃ i a, latestAttempt db k = some (i, a) ∧
      db.attempts.get? i = some a ∧ a.jobId = k ∧ a.attemptNo = job.attemptCount := by
  obtain ⟨i, a, ha, hk, hno⟩ := h.complete job.attemptCount hcount (Nat.le_refl _)
  have hmem : (i, a) ∈ (db.attempts.select fun a => a.jobId = k).insertionSort attemptBefore := by
    rw [List.mem_insertionSort, Table.mem_select]
    exact ⟨ha, decide_eq_true hk⟩
  have hsorted := List.pairwise_insertionSort attemptBefore (db.attempts.select fun a => a.jobId = k)
  cases hlatest : latestAttempt db k with
  | none =>
    rw [latestAttempt, List.head?_eq_none_iff] at hlatest
    rw [hlatest] at hmem
    cases hmem
  | some q =>
    obtain ⟨hq, hqk⟩ := latestAttempt_mem hlatest
    have hmax : a.attemptNo ≤ q.2.attemptNo := by
      rw [latestAttempt] at hlatest
      cases hrows : (db.attempts.select fun a => decide (a.jobId = k)).insertionSort attemptBefore with
      | nil =>
        rw [hrows] at hlatest
        cases hlatest
      | cons r rows =>
        rw [hrows] at hlatest hmem hsorted
        obtain rfl := Option.some.inj hlatest
        rcases List.mem_cons.mp hmem with hr | hr
        · exact le_of_eq (congrArg (fun r => r.2.attemptNo) hr)
        · exact (List.pairwise_cons.mp hsorted).1 (i, a) hr
    have hle := (h.numbered q.1 q.2 hq hqk).2
    exact ⟨q.1, q.2, rfl, hq, hqk, by omega⟩

/-- **An ending closes the last attempt.** -/
theorem ledger_ended {e : Ending P} (he : e.Proper) {db : Db P} {k : Nat} {job : ProcessingJob P}
    (h : Ledger db k job) (hstatus : job.status = .running) : Ledger (e.apply db k job) k (e.row job) := by
  obtain ⟨i₀, a₀, hlatest, ha₀, hk₀, hno₀⟩ := h.latest (h.started hstatus)
  have hattempts : ∀ i, (e.apply db k job).attempts.get? i = (db.attempts.get? i).map fun a =>
      if i = i₀ then e.attempt (e.row job) a else a := by
    intro i
    rw [e.get?_apply_attempts, hlatest]
    simp [eq_comm]
  have hback : ∀ i a', (e.apply db k job).attempts.get? i = some a' → ∃ a, db.attempts.get? i = some a ∧
      a'.jobId = a.jobId ∧ a'.attemptNo = a.attemptNo ∧ a' = if i = i₀ then e.attempt (e.row job) a else a := by
    intro i a' ha'
    rw [hattempts] at ha'
    obtain ⟨a, ha, rfl⟩ := Option.map_eq_some_iff.mp ha'
    refine ⟨a, ha, ?_, ?_, rfl⟩
    · split
      · exact e.attempt_jobId _ a
      · rfl
    · split
      · exact e.attempt_attemptNo _ a
      · rfl
  have hcount := e.row_attemptCount job
  have hidle := e.row_status job
  refine ⟨fun i a' ha' hk => ?_, fun n h1 hn => ?_, fun i j a' b' ha' hb' hak hbk hno => ?_,
    fun i a' ha' hk => ?_, fun hs => absurd hs hidle⟩
  · obtain ⟨a, ha, hjob, hno, -⟩ := hback i a' ha'
    rw [hcount, hno]
    exact h.numbered i a ha (hjob.symm.trans hk)
  · rw [hcount] at hn
    obtain ⟨i, a, ha, hk, hno⟩ := h.complete n h1 hn
    have ha' := hattempts i
    rw [ha, Option.map_some] at ha'
    obtain ⟨a₁, ha₁, hjob, hno₁, -⟩ := hback i _ ha'
    obtain rfl := Option.some.inj (ha.symm.trans ha₁)
    exact ⟨i, _, ha', hjob.trans hk, hno₁.trans hno⟩
  · obtain ⟨a, ha, hjoba, hnoa, -⟩ := hback i a' ha'
    obtain ⟨b, hb, hjobb, hnob, -⟩ := hback j b' hb'
    exact h.unique i j a b ha hb (hjoba.symm.trans hak) (hjobb.symm.trans hbk)
      ((hnoa.symm.trans hno).trans hnob)
  · obtain ⟨a, ha, hjob, hno, heq⟩ := hback i a' ha'
    constructor
    · intro hopen
      exfalso
      by_cases hi : i = i₀
      · rw [heq, if_pos hi] at hopen
        exact he.outcome _ _ hopen
      · rw [heq, if_neg hi] at hopen
        have hlast := ((h.running i a ha (hjob.symm.trans hk)).mp hopen).1
        exact hi (h.unique i i₀ a a₀ ha ha₀ (hjob.symm.trans hk) hk₀ (hlast.trans hno₀.symm))
    · intro hboth
      exact absurd hboth.2 hidle

/-- What an ending leaves of the attempts of other jobs. -/
theorem apply_attempts_of_ne (e : Ending P) {db : Db P} {k j : Nat} (job : ProcessingJob P) (hne : j ≠ k)
    (i : Nat) (a : JobAttempt) (hj : a.jobId = j) :
    (e.apply db k job).attempts.get? i = some a ↔ db.attempts.get? i = some a := by
  rw [e.get?_apply_attempts]
  by_cases hi : (latestAttempt db k).map Prod.fst = some i
  · obtain ⟨q, hq, rfl⟩ := Option.map_eq_some_iff.mp hi
    obtain ⟨hrow, hk⟩ := latestAttempt_mem hq
    rw [hrow, Option.map_some, if_pos hi]
    constructor
    · intro h
      have hjob := congrArg JobAttempt.jobId (Option.some.inj h)
      rw [e.attempt_jobId] at hjob
      exact absurd (hj.symm.trans (hjob.symm.trans hk)) hne
    · intro h
      have hjob := congrArg JobAttempt.jobId (Option.some.inj h)
      exact absurd (hj.symm.trans (hjob.symm.trans hk)) hne
  · simp [hi]

theorem claimOne_attempts_of_ne (cfg : Config) (w : String) (now : Time) {db : Db P} {k j : Nat}
    (job : ProcessingJob P) (hne : j ≠ k) (i : Nat) (a : JobAttempt) (hj : a.jobId = j) :
    (claimOne cfg w now db k job).attempts.get? i = some a ↔ db.attempts.get? i = some a := by
  by_cases hi : i = db.attempts.nextId
  · subst hi
    rw [Table.get?_nextId]
    have hself : (claimOne cfg w now db k job).attempts.get? db.attempts.nextId =
        some { jobId := k, attemptNo := job.attemptCount + 1, workerId := w } := Table.get?_insert_self _ _
    rw [hself]
    constructor
    · intro h
      have hk := congrArg JobAttempt.jobId (Option.some.inj h)
      exact absurd (hj.symm.trans hk.symm) hne
    · intro h
      cases h
  · exact iff_of_eq (congrArg (· = some a) (Table.get?_insert_ne db.attempts _ hi))

/-- **Every move but a stop keeps the ledgers.** -/
theorem ledgers_move {db db' : Db P} {label : Label} (h : Ledgers db) (hlabel : label ≠ .stop)
    (hmove : Move db label db') : Ledgers db' := by
  obtain ⟨hknown, hledger⟩ := h
  cases hmove with
  | @claimed k₁ job cfg w now hjob hstatus =>
    refine ⟨fun i a ha => ?_, fun k row' hrow' => ?_⟩
    · by_cases hk : a.jobId = k₁
      · rw [hk]
        exact db.jobs.lt_nextId hjob
      · exact hknown i a ((claimOne_attempts_of_ne cfg w now job hk i a rfl).mp ha)
    · rcases get?_modify_cases hjob hrow' with ⟨rfl, rfl, -⟩ | ⟨hne, hk⟩
      · exact ledger_claimed cfg w now (hledger k job hjob) hstatus
      · exact (hledger k row' hk).frame (claimOne_attempts_of_ne cfg w now job hne) rfl Iff.rfl
  | @beaten k₁ job cfg now hjob hstatus =>
    refine ⟨hknown, fun k row' hrow' => ?_⟩
    rcases get?_modify_cases hjob hrow' with ⟨rfl, rfl, -⟩ | ⟨hne, hk⟩
    · exact (hledger k job hjob).frame (fun _ _ _ => Iff.rfl) rfl Iff.rfl
    · exact (hledger k row' hk).frame (fun _ _ _ => Iff.rfl) rfl Iff.rfl
  | @ended k₁ job e he hjob hstatus =>
    refine ⟨fun i a ha => ?_, fun k row' hrow' => ?_⟩
    · have hnext : (e.apply db k₁ job).jobs.nextId = db.jobs.nextId := by rw [Ending.apply_jobs]; rfl
      rw [hnext]
      by_cases hk : a.jobId = k₁
      · rw [hk]
        exact db.jobs.lt_nextId hjob
      · exact hknown i a ((apply_attempts_of_ne e job hk i a rfl).mp ha)
    · rw [Ending.apply_jobs] at hrow'
      rcases get?_modify_cases hjob hrow' with ⟨rfl, rfl, -⟩ | ⟨hne, hk⟩
      · exact ledger_ended he (hledger k job hjob) hstatus
      · exact (hledger k row' hk).frame (apply_attempts_of_ne e job hne) rfl Iff.rfl
  | @requeued k₁ job row hjob hstatus hrow =>
    refine ⟨hknown, fun k row' hrow' => ?_⟩
    rcases get?_modify_cases hjob hrow' with ⟨rfl, rfl, -⟩ | ⟨hne, hk⟩
    · have hsame : row'.attemptCount = job.attemptCount ∧ row'.status = .pending := by
        obtain ⟨now, rfl | rfl | rfl⟩ := hrow <;> exact ⟨rfl, rfl⟩
      refine (hledger k job hjob).frame (fun _ _ _ => Iff.rfl) hsame.1 ?_
      rw [hsame.2]
      rcases canRequeue_iff.mp hstatus with hs | hs | hs <;> rw [hs] <;> decide
    · exact (hledger k row' hk).frame (fun _ _ _ => Iff.rfl) rfl Iff.rfl
  | cancelled hit reason now hopen hidle =>
    refine ⟨hknown, fun k row' hrow' => ?_⟩
    obtain ⟨row, hrow, ⟨hhit, rfl⟩ | rfl⟩ := get?_cancel_cases hrow'
    · refine (hledger k row hrow).frame (fun _ _ _ => Iff.rfl) rfl ⟨fun hs => ?_, fun hs => ?_⟩
      · cases hs
      · exact absurd hs (hidle k row hrow hhit)
    · exact (hledger k row' hrow).frame (fun _ _ _ => Iff.rfl) rfl Iff.rfl
  | stopped hit reason now hopen => exact absurd rfl hlabel
  | wrote f => exact ⟨hknown, fun k row' hrow' => (hledger k row' hrow').frame (fun _ _ _ => Iff.rfl) rfl Iff.rfl⟩
  | @created job hnew =>
    refine ⟨fun i a ha => Nat.lt_succ_of_lt (hknown i a ha), fun k row' hrow' => ?_⟩
    by_cases hk : k = db.jobs.nextId
    · subst hk
      have hself : (db.jobs.insert job).get? db.jobs.nextId = some row' := hrow'
      rw [Table.get?_insert_self] at hself
      obtain rfl := Option.some.inj hself
      exact ledger_unclaimed hnew fun i a ha => Nat.ne_of_lt (hknown i a ha)
    · have hold : (db.jobs.insert job).get? k = some row' := hrow'
      rw [Table.get?_insert_ne _ _ hk] at hold
      exact (hledger k row' hold).frame (fun _ _ _ => Iff.rfl) rfl Iff.rfl

/-- **The attempt ledger, in every run** in which no running job is cancelled: the
attempts of every job are numbered `1..attempt_count`, and the last one is running
exactly when the job is. -/
theorem ledger_of_run (host : Host P) (start : Start P) (ops : List (Operation × Time))
    (hstops : Trace.Always (Queue.step host) (fun q input => ¬ StopsRunning host q input.1) start.queue ops) :
    ∀ k job, (start.after host ops).db.jobs.get? k = some job → Ledger (start.after host ops).db k job := by
  have hstart : Ledgers start.queue.db := by
    have hnone : ∀ i a, start.queue.db.attempts.get? i ≠ some a := by
      intro i a ha
      have hmem := (start.queue.db.attempts.get?_eq_some_iff i a).mp ha
      rw [start.unattempted] at hmem
      cases hmem
    exact ⟨fun i a ha => absurd ha (hnone i a), fun k job hjob =>
      ledger_unclaimed (start.unclaimed k job hjob) fun i a ha => absurd ha (hnone i a)⟩
  have hstep : ∀ (q : Queue P) (input : Operation × Time), Ledgers q.db → ¬ StopsRunning host q input.1 →
      Ledgers (Queue.step host q input).2.db := by
    intro q input h hstops
    obtain ⟨labels, hpath, hlabelled⟩ := step_path host q input
    refine path_invariant (fun db label db' h hlabel hmove => ledgers_move h hlabel hmove) hpath ?_ h
    intro label hlabel hstop
    exact hstops (hlabelled.stops (hstop ▸ hlabel))
  have hall : ∀ q : Queue P, Ledgers q.db →
      Trace.Always (Queue.step host) (fun q input => ¬ StopsRunning host q input.1) q ops →
      Ledgers (Trace.exec (Queue.step host) q ops).db := by
    clear hstops
    induction ops with
    | nil => exact fun q hq _ => hq
    | cons input ops ih => exact fun q hq hguard => ih _ (hstep q input hq hguard.1) hguard.2
  exact (hall start.queue hstart hstops).ledger

/-- The ledger of a job just claimed. -/
theorem ledger_of_claimed : Ledger (smallStart.after smallHost dispatchAndClaim).db 0
    (claimedRow {} "worker" 0 smallJob) :=
  ledger_of_run smallHost smallStart dispatchAndClaim ⟨id, id, trivial⟩ 0 _ smallJob_claimed

/-- The job is claimed and then cancelled. -/
def claimAndCancel : List (Operation × Time) :=
  dispatchAndClaim ++ [(.cancelAdminJob administrator 0 "stop", 1)]

/-- **The attempt of a cancelled job runs on**: `cancel_admin_job` stops a running
job and leaves its attempt open. -/
theorem cancelled_attempt_runs_on :
    ¬ ∀ (host : Host Unit) (start : Start Unit) (ops : List (Operation × Time)) (k : Nat)
      (job : ProcessingJob Unit), (start.after host ops).db.jobs.get? k = some job →
        Ledger (start.after host ops).db k job := by
  intro h
  have hjob : (smallStart.after smallHost claimAndCancel).db.jobs.get? 0 =
      some (cancelledRow "stop" 1 (claimedRow {} "worker" 0 smallJob)) := by decide
  have hattempt : (smallStart.after smallHost claimAndCancel).db.attempts.get? 0 =
      some { jobId := 0, attemptNo := 1, workerId := "worker" } := by decide
  have hrunning := ((h smallHost smallStart claimAndCancel 0 _ hjob).running 0 _ hattempt rfl).mp rfl
  cases hrunning.2

end CodexMemory.Worker
