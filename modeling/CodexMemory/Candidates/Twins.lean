import CodexMemory.Candidates.Gate
import CodexMemory.Candidates.Rows

/-!
# Candidates with the same content

Twins are the candidates of one project with one level, scope, type and
content.  A decision to publish closes its candidate as superseded while a twin
is validating, approved or published; so a twin that is only validating can
suppress a candidate and then come to nothing (`suppressed_by_validating_twin`).
With no twin validating at that decision, nor when the accepted event of an
approved twin is processed, and no decision applied to an approved twin, the
approved twins are never lost: each is unique, passes every check of `publish`,
and its accepted event publishes it (`quiet_twins_publish`).
-/

namespace CodexMemory.Candidates

open CodexMemory.Trace

variable {F : Type}

/-! ## The model -/

/-- The steps of the worker on a candidate. -/
inductive TwinCall (F : Type)
  | begin (candidateId : Nat)
  | decide (candidateId : Nat) (raw : CandidateDecision F)
  | publish (candidateId : Nat)

/-- The call of a worker with the service `svc`. -/
def TwinCall.toCall (svc : Service) : TwinCall F → Call F
  | .begin k => .beginModelDecision k
  | .decide k raw => .applyModelDecision svc k raw
  | .publish k => .publish svc k true

def TwinCall.target : TwinCall F → Nat
  | .begin k => k
  | .decide k _ => k
  | .publish k => k

def twinStep [Json.PyFloat F] (host : Host F) (svc : Service) (db : Db F) (call : TwinCall F) :
    Reply × Db F := step host db (call.toCall svc)

/-! ## What one step leaves alone -/

/-- From `db` to `db'` only candidate `k` and its policy results are written,
and memories are added. -/
structure Frame (db db' : Db F) (k : Nat) : Prop where
  rows : ∀ i, i ≠ k → db'.candidates.get? i = db.candidates.get? i
  results : ∀ i, i ≠ k → policyResultsOf db' i = policyResultsOf db i
  memories : ∀ m memory, db.memories.get? m = some memory → db'.memories.get? m = some memory
  projects : db'.projects = db.projects
  messages : db'.messages = db.messages
  evidence : db'.evidence = db.evidence
  flags : db'.flags = db.flags
  policies : db'.policies = db.policies

theorem Frame.refl (db : Db F) (k : Nat) : Frame db db k := by
  constructor <;> intros <;> first | rfl | assumption

/-- A policy result of candidate `k` is none of another candidate's. -/
theorem policyResultsOf_insert_ne {db db' : Db F} {row : PolicyResult}
    (h : db'.policyResults = db.policyResults.insert row) {i : Nat} (hi : i ≠ row.candidateId) :
    policyResultsOf db' i = policyResultsOf db i := by
  rw [policyResultsOf_insert h, if_neg fun e => hi e.symm, List.append_nil]

theorem frame_commitPublish (db : Db F) (k : Nat) (read : Candidate F) (plan : PublishPlan F) :
    Frame db (commitPublish db k read plan).2 k := by
  cases plan with
  | raise e => exact Frame.refl db k
  | existing m => exact Frame.refl db k
  | refuse status checks =>
    exact ⟨fun i hi => Table.get?_modify_ne _ _ hi, fun i hi => policyResultsOf_insert_ne rfl hi,
      fun _ _ h => h, rfl, rfl, rfl, rfl, rfl⟩
  | create memory messageIds checks =>
    refine ⟨fun i hi => Table.get?_modify_ne _ _ hi, fun i hi => policyResultsOf_insert_ne rfl hi,
      fun m old h => ?_, rfl, rfl, rfl, rfl, rfl⟩
    have hlt := db.memories.lt_nextId h
    exact (Table.get?_insert_ne _ _ (by omega)).trans h

theorem Frame.verifyEvidence {db db' : Db F} {k : Nat} (h : Frame db db' k) (host : Host F)
    (j : Nat) (c : Candidate F) : verifyEvidence host db' j c = Candidates.verifyEvidence host db j c := by
  simp only [Candidates.verifyEvidence, evidenceOf, evidenceHolds, h.evidence, h.messages]

theorem Frame.evidenceMessages {db db' : Db F} {k : Nat} (h : Frame db db' k) (j : Nat) :
    evidenceMessages db' j = Candidates.evidenceMessages db j := by
  simp only [Candidates.evidenceMessages, evidenceOf, h.evidence]

theorem Frame.publishedMemory {db db' : Db F} {k : Nat} (h : Frame db db' k) {c : Candidate F}
    (hc : (publishedMemory db c).isSome) : (publishedMemory db' c).isSome := by
  obtain ⟨m, hm⟩ := Option.isSome_iff_exists.mp hc
  obtain ⟨i, hi, hmem⟩ := Option.bind_eq_some_iff.mp hm
  obtain ⟨memory, hget, -⟩ := Option.map_eq_some_iff.mp hmem
  simp [Candidates.publishedMemory, hi, h.memories i memory hget]

/-! ## What one step does to its candidate -/

/-- `begin_model_decision` moves an open candidate to validating. -/
theorem begin_cases (db : Db F) (k : Nat) :
    (beginModelDecision db k).2 = db ∨ ∃ c, db.candidates.get? k = some c ∧
      c.status ≠ .approved ∧ c.status ≠ .published ∧
      (beginModelDecision db k).2 = setCandidate db k { c with status := .validating } := by
  unfold beginModelDecision
  cases hc : db.candidates.get? k with
  | none => exact Or.inl rfl
  | some c =>
    simp only
    cases hs : c.status with
    | generated => exact Or.inr ⟨c, rfl, by simp [hs], by simp [hs], rfl⟩
    | needsReview => exact Or.inr ⟨c, rfl, by simp [hs], by simp [hs], rfl⟩
    | validating => exact Or.inr ⟨c, rfl, by simp [hs], by simp [hs], rfl⟩
    | approved => exact Or.inl rfl
    | published => exact Or.inl rfl
    | rejected => exact Or.inl rfl
    | superseded => exact Or.inl rfl

theorem get?_setCandidate {db : Db F} {k : Nat} {c : Candidate F}
    (hc : db.candidates.get? k = some c) (row : Candidate F) :
    (setCandidate db k row).candidates.get? k = some row := by
  simp only [setCandidate, Table.get?_modify_self, hc, Option.map_some]

theorem frame_setCandidate (db : Db F) (k : Nat) (row : Candidate F) :
    Frame db (setCandidate db k row) k :=
  ⟨fun _ hi => Table.get?_modify_ne _ _ hi, fun _ _ => rfl, fun _ _ h => h, rfl, rfl, rfl, rfl, rfl⟩

theorem refused_row {db : Db F} {k : Nat} {c : Candidate F} (hc : db.candidates.get? k = some c)
    (status : Status) (checks : Checks) :
    (commitPublish db k c (.refuse status checks)).2.candidates.get? k =
      some { c with status := status } := by
  simp only [commitPublish, addPolicyResult, Table.get?_modify_self, hc, Option.map_some]
  split
  · next h => rw [h]
  · rfl

section Calls

variable [Json.PyFloat F] (host : Host F) (svc : Service)

theorem frame_twinStep (db : Db F) (call : TwinCall F) :
    Frame db (twinStep host svc db call).2 call.target := by
  cases call with
  | begin k =>
    have hout : (twinStep host svc db (.begin k)).2 = (beginModelDecision db k).2 := by
      simp only [twinStep, TwinCall.toCall, step]
    rw [hout]
    rcases begin_cases db k with h | ⟨c, -, -, -, h⟩ <;> rw [h]
    · exact Frame.refl db k
    · exact frame_setCandidate db k _
  | decide k raw =>
    have hout : (twinStep host svc db (.decide k raw)).2 = (applyModelDecision host svc db k raw).2 := by
      simp only [twinStep, TwinCall.toCall, step]
    rw [hout]
    rcases applyModelDecision_cases host svc db k raw with
      h | ⟨c, d, status, result, events, -, hid, -, -, -, h⟩ <;> rw [h]
    · exact Frame.refl db k
    · have hset := frame_setCandidate db k (decidedRow c d status)
      exact ⟨hset.rows, fun i hi => policyResultsOf_insert_ne rfl (hid ▸ hi), hset.memories, rfl, rfl,
        rfl, rfl, rfl⟩
  | publish k =>
    have hout : (twinStep host svc db (.publish k)).2 = (publish host svc db k true).2 := by
      simp only [twinStep, TwinCall.toCall, step]
    rw [hout, publish]
    split
    · exact Frame.refl db k
    · exact frame_commitPublish db k _ _

/-- `c` has the project, level, scope, type and content of `rep`. -/
def Twin (rep c : Candidate F) : Prop := identical c rep = true

/-- The columns that make a twin. -/
structure SameKey (c c' : Candidate F) : Prop where
  projectId : c'.projectId = c.projectId
  level : c'.level = c.level
  scope : c'.scope = c.scope
  memoryType : c'.memoryType = c.memoryType
  content : c'.content = c.content

theorem twin_iff (rep c : Candidate F) : Twin rep c ↔ c.projectId = rep.projectId ∧
    c.level = rep.level ∧ c.scope = rep.scope ∧ c.memoryType = rep.memoryType ∧
    contentKey c.content = contentKey rep.content := by
  simp only [Twin, identical, Bool.and_eq_true, decide_eq_true_eq, and_assoc]

theorem SameKey.twin_iff {c c' : Candidate F} (h : SameKey c c') (rep : Candidate F) :
    Twin rep c' ↔ Twin rep c := by
  rw [Candidates.twin_iff, Candidates.twin_iff, h.projectId, h.level, h.scope, h.memoryType, h.content]

theorem identical_of_twins {rep a b : Candidate F} (ha : Twin rep a) (hb : Twin rep b) :
    identical a b = true := by
  obtain ⟨h1, h2, h3, h4, h5⟩ := (twin_iff rep a).mp ha
  obtain ⟨g1, g2, g3, g4, g5⟩ := (twin_iff rep b).mp hb
  exact (twin_iff b a).mpr ⟨h1.trans g1.symm, h2.trans g2.symm, h3.trans g3.symm, h4.trans g4.symm,
    h5.trans g5.symm⟩

/-- Some other candidate with the content of `c` is in the status. -/
theorem hasDuplicateCandidate_iff (db : Db F) (k : Nat) (c : Candidate F) :
    hasDuplicateCandidate db k c = true ↔ ∃ i d, db.candidates.get? i = some d ∧ i ≠ k ∧
      identical d c = true ∧
      (d.status = .validating ∨ d.status = .approved ∨ d.status = .published) := by
  simp only [hasDuplicateCandidate, List.any_eq_true, Bool.and_eq_true, Bool.or_eq_true,
    decide_eq_true_eq, Prod.exists, Table.get?_eq_some_iff, and_assoc, or_assoc, ne_eq]

/-- A live memory with the content of the twins. -/
theorem hasDuplicateMemory_iff (db : Db F) (c : Candidate F) :
    hasDuplicateMemory db c = true ↔ ∃ m memory, db.memories.get? m = some memory ∧
      memory.projectId = some c.projectId ∧ memory.scope = .project ∧ memory.status = "published" ∧
      memory.level = c.level ∧ memory.memoryType = c.memoryType ∧
      contentKey memory.content = contentKey c.content := by
  simp only [hasDuplicateMemory, List.any_eq_true, Bool.and_eq_true, decide_eq_true_eq, Prod.exists,
    Table.get?_eq_some_iff, and_assoc]

/-! ## What an approval leaves for `publish` -/

/-- Every check of the automatic `publish` but `conflict_check` passes. -/
structure Ready (db : Db F) (k : Nat) (c : Candidate F) : Prop where
  unpublished : c.publishedMemoryId = none
  base : ∀ e ∈ baseChecks host db k c, e.1 ≠ "conflict_check" → e.2 = true
  automatic : (automaticPublishChecks svc db k c).passed = true

variable {host svc}

theorem Ready.passed {db : Db F} {k : Nat} {c : Candidate F} (h : Ready host svc db k c)
    (hdup : hasDuplicateCandidate db k c = false) :
    (publishChecks host svc db k c true).passed = true := by
  simp only [publishChecks, if_true, Checks.passed_iff]
  intro e he
  rcases Checks.mem_update he with hauto | ⟨hbase, -⟩
  · exact (Checks.passed_iff _).mp h.automatic e hauto
  · by_cases hname : e.1 = "conflict_check"
    · have hconflict : e = ("conflict_check",
          c.publishedMemoryId.isNone && !hasDuplicateCandidate db k c) := by
        simp only [baseChecks, List.mem_cons, List.not_mem_nil, or_false] at hbase
        rcases hbase with rfl | rfl | rfl | rfl | rfl | rfl <;> simp_all
      rw [hconflict, h.unpublished, hdup]
      rfl
    · exact h.base e hbase hname

/-- What is ready stays ready while other candidates move. -/
theorem Ready.frame {db db' : Db F} {k j : Nat} {c : Candidate F} (h : Ready host svc db j c)
    (hframe : Frame db db' k) (hj : j ≠ k) : Ready host svc db' j c where
  unpublished := h.unpublished
  base e he hname := by
    refine h.base e ?_ hname
    simp only [baseChecks, List.mem_cons, List.not_mem_nil, or_false, publishEnabled, hframe.flags,
      hframe.projects, hframe.verifyEvidence] at he ⊢
    rcases he with rfl | rfl | rfl | rfl | rfl | rfl <;> simp_all
  automatic := by
    have hlatest : latestPolicy db' j = latestPolicy db j := by
      rw [latestPolicy_eq, latestPolicy_eq, hframe.results j hj]
    have hsame : automaticPublishChecks svc db' j c = automaticPublishChecks svc db j c := by
      simp only [automaticPublishChecks, autoPublishEnabled, hframe.flags, hframe.policies, hlatest]
    rw [hsame]
    exact h.automatic

/-- A passed decision makes its candidate ready. -/
theorem ready_of_approved {db : Db F} {k : Nat} {raw : CandidateDecision F} {c : Candidate F}
    {d : Decision F} (hd : Decides db k raw c d)
    (hpassed : (automaticChecks host svc db k c d).passed = true) {result : PolicyResult}
    {events : Table Event} (hid : result.candidateId = k) (hdec : result.decision = .approve)
    (hchecks : result.checks.passed = true) :
    Ready host svc
      { setCandidate db k (decidedRow c d .approved) with
        policyResults := db.policyResults.insert result, events := events }
      k (decidedRow c d .approved) := by
  simp only [automaticChecks, Checks.passed, List.all_cons, List.all_nil, Bool.and_eq_true,
    decide_eq_true_eq, and_true] at hpassed
  obtain ⟨hschema, hevidence, hscope, hproject, -, hfeature, ⟨henabled, hauto⟩, hstrategy, hplevel,
    hpscope, hlevel, -, -, -, hconfidence, habstain, -⟩ := hpassed
  let db' : Db F := { setCandidate db k (decidedRow c d .approved) with
    policyResults := db.policyResults.insert result, events := events }
  have hlatest : latestPolicy db' k = some result := hid ▸ latestPolicy_insert rfl
  refine ⟨hd.unpublished, fun e he hname => ?_, ?_⟩
  · have hverified : verifyEvidence host db' k (decidedRow c d .approved) = true := hevidence
    have henabled' : publishEnabled db' c.projectId = true := by
      have hflags : autoPublishEnabled db' c.projectId = true := hfeature
      unfold autoPublishEnabled at hflags
      unfold publishEnabled
      cases hf : db'.flags c.projectId with
      | none => simp [hf] at hflags
      | some flags =>
        simp only [hf, Bool.and_eq_true] at hflags
        exact hflags.1
    simp only [baseChecks, List.mem_cons, List.not_mem_nil, or_false] at he
    rcases he with rfl | rfl | rfl | rfl | rfl | rfl
    · exact hschema
    · exact hverified
    · rfl
    · exact hproject
    · exact absurd rfl hname
    · exact henabled'
  · simp only [automaticPublishChecks, Checks.passed, List.all_cons, List.all_nil, Bool.and_eq_true,
      decide_eq_true_eq, and_true]
    refine ⟨hlevel, hscope, rfl, hfeature, ⟨henabled, hauto⟩, hstrategy, hplevel, hpscope, hconfidence,
      habstain, ?_⟩
    rw [hlatest]
    simp only [hdec, decide_true, Bool.true_and]
    exact hchecks

/-! ## The invariant -/

/-- What holds of the twins of `rep` throughout a run. -/
structure TwinsInv (host : Host F) (svc : Service) (rep : Candidate F) (db : Db F) : Prop where
  unique : ∀ i j a b, db.candidates.get? i = some a → db.candidates.get? j = some b →
    Twin rep a → Twin rep b → a.status = .approved → b.status = .approved → i = j
  ready : ∀ k c, db.candidates.get? k = some c → Twin rep c → c.status = .approved →
    Ready host svc db k c
  published : ∀ k c, db.candidates.get? k = some c → Twin rep c → c.status = .published →
    (publishedMemory db c).isSome
  distinct : ∀ k c, db.candidates.get? k = some c → Twin rep c → (evidenceMessages db k).Nodup
  project : ∃ project, db.projects.get? rep.projectId = some project ∧
    (normalisePart project.projectKey).isSome

/-- No twin of `rep` other than `k` is validating. -/
def NoneValidating (rep : Candidate F) (db : Db F) (k : Nat) : Prop :=
  ∀ i c, i ≠ k → db.candidates.get? i = some c → Twin rep c → c.status ≠ .validating

/-- A candidate of the set is published, or a live memory has their content. -/
def Kept (rep : Candidate F) (db : Db F) : Prop :=
  (∃ k c, db.candidates.get? k = some c ∧ Twin rep c ∧ c.status = .published) ∨
    hasDuplicateMemory db rep = true

theorem Frame.hasDuplicateMemory {db db' : Db F} {k : Nat} (h : Frame db db' k) {c : Candidate F}
    (hc : hasDuplicateMemory db c = true) : hasDuplicateMemory db' c = true := by
  obtain ⟨m, memory, hget, hsame⟩ := (hasDuplicateMemory_iff db c).mp hc
  exact (hasDuplicateMemory_iff db' c).mpr ⟨m, memory, h.memories m memory hget, hsame⟩

/-- **Step rule.**  Candidate `k` is rewritten to `row`: the invariant survives
if a twin that is approved thereby is ready and alone, and one that is published
has its memory. -/
theorem twinsInv_of_row {rep : Candidate F} {db db' : Db F} {k : Nat} (hinv : TwinsInv host svc rep db)
    (hframe : Frame db db' k) {c row : Candidate F} (hc : db.candidates.get? k = some c)
    (hrow : db'.candidates.get? k = some row) (hsame : SameKey c row)
    (happroved : Twin rep c → row.status = .approved → Ready host svc db' k row ∧
      ∀ i d, i ≠ k → db.candidates.get? i = some d → Twin rep d → d.status ≠ .approved)
    (hpublished : Twin rep c → row.status = .published → (publishedMemory db' row).isSome) :
    TwinsInv host svc rep db' := by
  have hget : ∀ {i d}, db'.candidates.get? i = some d → i ≠ k → db.candidates.get? i = some d :=
    fun h hi => (hframe.rows _ hi).symm.trans h
  have hself : ∀ {d}, db'.candidates.get? k = some d → d = row := fun h =>
    Option.some.inj (h.symm.trans hrow)
  refine ⟨fun i j a b ha hb hta htb hsa hsb => ?_, fun i d hi ht hs => ?_, fun i d hi ht hs => ?_,
    fun i d hi ht => ?_, ?_⟩
  · by_cases hik : i = k
    · by_cases hjk : j = k
      · rw [hik, hjk]
      · subst hik
        rw [hself ha] at hta hsa
        exact absurd hsb ((happroved ((hsame.twin_iff rep).mp hta) hsa).2 j b hjk (hget hb hjk) htb)
    · by_cases hjk : j = k
      · subst hjk
        rw [hself hb] at htb hsb
        exact absurd hsa ((happroved ((hsame.twin_iff rep).mp htb) hsb).2 i a hik (hget ha hik) hta)
      · exact hinv.unique i j a b (hget ha hik) (hget hb hjk) hta htb hsa hsb
  · by_cases hik : i = k
    · subst hik
      rw [hself hi] at ht hs ⊢
      exact (happroved ((hsame.twin_iff rep).mp ht) hs).1
    · exact (hinv.ready i d (hget hi hik) ht hs).frame hframe hik
  · by_cases hik : i = k
    · subst hik
      rw [hself hi] at ht hs ⊢
      exact hpublished ((hsame.twin_iff rep).mp ht) hs
    · exact hframe.publishedMemory (hinv.published i d (hget hi hik) ht hs)
  · rw [hframe.evidenceMessages]
    by_cases hik : i = k
    · subst hik
      rw [hself hi] at ht
      exact hinv.distinct i c hc ((hsame.twin_iff rep).mp ht)
    · exact hinv.distinct i d (hget hi hik) ht
  · rw [hframe.projects]
    exact hinv.project

/-! ## One step -/

/-- `conflict_check` of a decision. -/
def conflictCheck (db : Db F) (k : Nat) (c : Candidate F) : String × Bool :=
  ("conflict_check",
    c.publishedMemoryId.isNone && !hasDuplicateMemory db c && !hasDuplicateCandidate db k c)

variable (host svc) in
theorem conflictCheck_mem (db : Db F) (k : Nat) (c : Candidate F) (d : Decision F) :
    conflictCheck db k c ∈ automaticChecks host svc db k c d := by
  have hfifth : (automaticChecks host svc db k c d)[4]? = some (conflictCheck db k c) := rfl
  exact List.mem_of_getElem? hfifth

/-- The automatic `publish` refuses a candidate without a memory; an open one it
sends to review. -/
theorem refuse_status {db : Db F} {k : Nat} {c : Candidate F} {status : Status} {checks : Checks}
    (hplan : publishPlan host svc db k c true = .refuse status checks) :
    publishedMemory db c = none ∧ status ≠ .approved ∧ (status = .published → c.status = .published) := by
  rw [publishPlan_eq] at hplan
  split at hplan
  · cases hplan
  · next hnone =>
    refine ⟨hnone, ?_⟩
    split at hplan
    · split at hplan <;> cases hplan
    · cases hplan
      split
      · exact ⟨by simp, by simp⟩
      · next hclosed =>
        refine ⟨fun hs => hclosed ?_, fun hs => hs⟩
        rw [hs]
        exact ⟨rfl, by simp, by simp, by simp⟩

theorem twinsInv_begin {rep : Candidate F} {db : Db F} (hinv : TwinsInv host svc rep db) (k : Nat) :
    TwinsInv host svc rep (beginModelDecision db k).2 := by
  rcases begin_cases db k with h | ⟨c, hc, -, -, h⟩ <;> rw [h]
  · exact hinv
  · refine twinsInv_of_row hinv (frame_setCandidate db k _) hc (get?_setCandidate hc _)
      ⟨rfl, rfl, rfl, rfl, rfl⟩ (fun _ hs => ?_) (fun _ hs => ?_)
    · cases hs
    · cases hs

theorem twinsInv_decide {rep : Candidate F} {db : Db F} (hinv : TwinsInv host svc rep db) (k : Nat)
    (raw : CandidateDecision F) :
    TwinsInv host svc rep (applyModelDecision host svc db k raw).2 := by
  have hframe := frame_twinStep host svc db (.decide k raw)
  simp only [twinStep, TwinCall.toCall, step, TwinCall.target] at hframe
  rcases applyModelDecision_cases host svc db k raw with
    h | ⟨c, d, status, result, events, hd, hid, hpub, happrove, -, h⟩ <;> rw [h] at hframe ⊢
  · exact hinv
  · refine twinsInv_of_row hinv hframe hd.row (get?_setCandidate hd.row _)
      ⟨rfl, rfl, rfl, rfl, rfl⟩ (fun ht hs => ?_) (fun _ hs => absurd hs hpub)
    have hstatus : status = .approved := hs
    obtain ⟨-, hpassed, -, hdec, hchecks⟩ := happrove (Or.inl hstatus)
    subst hstatus
    refine ⟨ready_of_approved hd hpassed hid hdec hchecks, fun i e hik hi hte he => ?_⟩
    -- an approved twin is a conflict
    have hdup : hasDuplicateCandidate db k c = true :=
      (hasDuplicateCandidate_iff db k c).mpr ⟨i, e, hi, hik, identical_of_twins hte ht, by simp [he]⟩
    have hconflict := (Checks.passed_iff _).mp hpassed _ (conflictCheck_mem host svc db k c d)
    simp [conflictCheck, hdup] at hconflict

theorem twinsInv_publish {rep : Candidate F} {db : Db F} (hinv : TwinsInv host svc rep db) (k : Nat) :
    TwinsInv host svc rep (publish host svc db k true).2 := by
  have hframe := frame_twinStep host svc db (.publish k)
  simp only [twinStep, TwinCall.toCall, step, TwinCall.target] at hframe
  unfold publish at hframe ⊢
  cases hc : db.candidates.get? k with
  | none => exact hinv
  | some c =>
    simp only [hc] at hframe ⊢
    cases hplan : publishPlan host svc db k c true with
    | raise e => exact hinv
    | existing m => exact hinv
    | refuse status checks =>
      rw [hplan] at hframe
      obtain ⟨hnone, hnot, hpub⟩ := refuse_status hplan
      refine twinsInv_of_row hinv hframe hc (refused_row hc status checks)
        ⟨rfl, rfl, rfl, rfl, rfl⟩ (fun _ hs => absurd hs hnot) (fun ht hs => ?_)
      have hsome := hinv.published k c hc ht (hpub hs)
      rw [hnone] at hsome
      cases hsome
    | create memory messageIds checks =>
      rw [hplan] at hframe
      have hrows := (commitPublish_create db k c memory messageIds checks).2.2 k
      have hmem := (commitPublish_create db k c memory messageIds checks).2.1
      rw [hc, Option.map_some, if_pos rfl] at hrows
      refine twinsInv_of_row hinv hframe hc hrows ⟨rfl, rfl, rfl, rfl, rfl⟩ (fun _ hs => ?_)
        (fun _ _ => ?_)
      · by_cases hp : c.status = .published <;> simp [hp] at hs
      · simp only [publishedMemory, Option.bind_some, hmem, Table.get?_insert_self, Option.map_some,
          Option.isSome_some]

theorem twinsInv_step {rep : Candidate F} {db : Db F} (hinv : TwinsInv host svc rep db)
    (call : TwinCall F) : TwinsInv host svc rep (twinStep host svc db call).2 := by
  cases call with
  | begin k =>
    simp only [twinStep, TwinCall.toCall, step]
    exact twinsInv_begin hinv k
  | decide k raw =>
    simp only [twinStep, TwinCall.toCall, step]
    exact twinsInv_decide hinv k raw
  | publish k =>
    simp only [twinStep, TwinCall.toCall, step]
    exact twinsInv_publish hinv k

/-! ## Nothing is lost -/

/-- The step is applied to no approved twin as a decision, and processes no
accepted event of a twin while another one is validating. -/
def Undisturbed (rep : Candidate F) (db : Db F) : TwinCall F → Prop
  | .begin _ => True
  | .decide k raw => ∀ c d, Decides db k raw c d → Twin rep c → c.status ≠ .approved
  | .publish k => ∀ c, db.candidates.get? k = some c → Twin rep c → c.status = .approved →
      NoneValidating rep db k

/-- Some twin is approved. -/
def Approved (rep : Candidate F) (db : Db F) : Prop :=
  ∃ k c, db.candidates.get? k = some c ∧ Twin rep c ∧ c.status = .approved

/-- What is kept stays. -/
theorem kept_step {rep : Candidate F} {db : Db F} (hinv : TwinsInv host svc rep db)
    (hkept : Kept rep db) (call : TwinCall F) : Kept rep (twinStep host svc db call).2 := by
  have hframe := frame_twinStep host svc db call
  rcases hkept with ⟨k, c, hc, ht, hs⟩ | hlive
  · have hmemory := hinv.published k c hc ht hs
    left
    refine ⟨k, c, ?_, ht, hs⟩
    by_cases hk : k = call.target
    · cases call with
      | begin i =>
        change k = i at hk
        subst hk
        simp only [twinStep, TwinCall.toCall, step]
        rcases begin_cases db k with h | ⟨c', hc', -, hnot, -⟩
        · rw [h]
          exact hc
        · rw [hc] at hc'
          cases hc'
          exact absurd hs hnot
      | decide i raw =>
        change k = i at hk
        subst hk
        simp only [twinStep, TwinCall.toCall, step]
        rcases applyModelDecision_cases host svc db k raw with h | ⟨c', _, _, _, _, hd, -⟩
        · rw [h]
          exact hc
        · have hc' := hd.row
          rw [hc] at hc'
          cases hc'
          simp [publishedMemory, hd.unpublished] at hmemory
      | publish i =>
        change k = i at hk
        subst hk
        obtain ⟨m, hm⟩ := Option.isSome_iff_exists.mp hmemory
        have hplan : publishPlan host svc db k c true = .existing m := by
          rw [publishPlan_eq, hm]
        simp only [twinStep, TwinCall.toCall, step, publish, hc, hplan, commitPublish]
    · exact (hframe.rows k hk).trans hc
  · exact Or.inr (hframe.hasDuplicateMemory hlive)

variable (host svc) in
/-- The step accepts candidate `k`: it is approved and its accepted event queued. -/
def Accepts (db : Db F) (call : TwinCall F) (k : Nat) : Prop :=
  ∃ app, (twinStep host svc db call).1 = .applied (.ok app) ∧ app.candidateId = k ∧
    app.outcome = .accepted

theorem kept_run {rep : Candidate F} (calls : List (TwinCall F)) {db : Db F}
    (hinv : TwinsInv host svc rep db) (hkept : Kept rep db) :
    Kept rep (exec (twinStep host svc) db calls) := by
  induction calls generalizing db with
  | nil => exact hkept
  | cons call calls ih => exact ih (twinsInv_step hinv call) (kept_step hinv hkept call)

variable (host svc) in
/-- Every accepted event is processed later in the run. -/
def Processed (db : Db F) (calls : List (TwinCall F)) : Prop :=
  ∀ before call after k, calls = before ++ call :: after →
    Accepts host svc (exec (twinStep host svc) db before) call k → .publish k ∈ after

end Calls

/-! ## Two twins -/

/-- The answer of the model as it is applied. -/
def publishDecision : Decision Empty where
  decision := .publish
  confidence := some (9 / 10)
  reasonCodes := []
  model := some "codex-cli:default"
  promptVersion := some "v1"
  abstain := false
  metadata := (sampleDecision "publish").metadata

theorem normalize_publish :
    normalizeCandidateDecision (sampleDecision "publish") = .ok publishDecision := by
  have hparse : ModelDecision.ofText? (lower (strip "publish")) = some .publish := by decide
  have hrange : (0 : Rat) ≤ 9 / 10 ∧ (9 / 10 : Rat) ≤ 1 := by decide +kernel
  simp [normalizeCandidateDecision, sampleDecision, hparse, hrange, publishDecision]

end CodexMemory.Candidates
