import CodexMemory.Candidates.Model

/-!
# What one step does to the candidate tables

Frame lemmas for the writes, the algebra of `Checks`, and for every call the
policy result it records (`step_policyResults`).  An approval is recorded by
two calls only: `apply_model_decision` with every automatic check passed, and
the review endpoint (`Approves`).
-/

namespace CodexMemory.Candidates

variable {F : Type}

/-! ## Checks -/

theorem Checks.passed_iff (checks : Checks) : checks.passed = true ↔ ∀ c ∈ checks, c.2 = true := by
  simp [Checks.passed]

theorem Checks.mem_set_self (checks : Checks) (name : String) (b : Bool) :
    (name, b) ∈ checks.set name b := by
  unfold Checks.set
  split
  · next h =>
    obtain ⟨c, hc, hname⟩ := List.any_eq_true.mp h
    exact List.mem_map.mpr ⟨c, hc, if_pos (by simpa using hname)⟩
  · exact List.mem_append_right _ (List.mem_singleton.mpr rfl)

theorem Checks.mem_set_of_ne {checks : Checks} {c : String × Bool} (hc : c ∈ checks) {name : String}
    (hne : c.1 ≠ name) (b : Bool) : c ∈ checks.set name b := by
  unfold Checks.set
  split
  · exact List.mem_map.mpr ⟨c, hc, if_neg hne⟩
  · exact List.mem_append_left _ hc

theorem Checks.mem_set {checks : Checks} {name : String} {b : Bool} {c : String × Bool}
    (h : c ∈ checks.set name b) : c = (name, b) ∨ (c ∈ checks ∧ c.1 ≠ name) := by
  unfold Checks.set at h
  split at h
  · obtain ⟨d, hd, he⟩ := List.mem_map.mp h
    by_cases hname : d.1 = name
    · rw [if_pos hname] at he
      exact Or.inl he.symm
    · rw [if_neg hname] at he
      subst he
      exact Or.inr ⟨hd, hname⟩
  · next hany =>
    rcases List.mem_append.mp h with hc | hc
    · refine Or.inr ⟨hc, fun hname => hany ?_⟩
      exact List.any_eq_true.mpr ⟨c, hc, by simpa using hname⟩
    · exact Or.inl (List.mem_singleton.mp hc)

/-- A check of the left side survives an update that does not name it. -/
theorem Checks.mem_update_left {checks : Checks} {c : String × Bool} (hc : c ∈ checks)
    (extra : Checks) (hne : c.1 ∉ extra.map Prod.fst) : c ∈ checks.update extra := by
  induction extra generalizing checks with
  | nil => exact hc
  | cons e extra ih =>
    simp only [List.map_cons, List.mem_cons, not_or] at hne
    exact ih (Checks.mem_set_of_ne hc hne.1 e.2) hne.2

/-- Every check of an update without repeated names is in the result. -/
theorem Checks.mem_update_right (checks : Checks) {extra : Checks}
    (hnodup : (extra.map Prod.fst).Nodup) {c : String × Bool} (hc : c ∈ extra) :
    c ∈ checks.update extra := by
  induction extra generalizing checks with
  | nil => cases hc
  | cons e extra ih =>
    simp only [List.map_cons, List.nodup_cons] at hnodup
    rcases List.mem_cons.mp hc with rfl | hc
    · exact Checks.mem_update_left (Checks.mem_set_self checks c.1 c.2) extra hnodup.1
    · exact ih _ hnodup.2 hc

theorem Checks.mem_update {checks extra : Checks} {c : String × Bool}
    (h : c ∈ checks.update extra) : c ∈ extra ∨ (c ∈ checks ∧ c.1 ∉ extra.map Prod.fst) := by
  induction extra generalizing checks with
  | nil => exact Or.inr ⟨h, by simp⟩
  | cons e extra ih =>
    rcases ih h with hc | ⟨hc, hne⟩
    · exact Or.inl (List.mem_cons_of_mem _ hc)
    · rcases Checks.mem_set hc with rfl | ⟨hc, hname⟩
      · exact Or.inl List.mem_cons_self
      · refine Or.inr ⟨hc, ?_⟩
        simp only [List.map_cons, List.mem_cons, not_or]
        exact ⟨hname, hne⟩

/-! ## Frames -/

@[simp] theorem setCandidate_policyResults (db : Db F) (k : Nat) (row : Candidate F) :
    (setCandidate db k row).policyResults = db.policyResults := rfl

theorem addEvidence_frame {projectId candidateId : Nat} (items : List (Nat × Int × Int))
    {db db' : Db F} (h : addEvidence projectId candidateId items db = .ok db') :
    ∃ evidence, db' = { db with evidence := evidence } := by
  induction items generalizing db with
  | nil =>
    cases h
    exact ⟨_, rfl⟩
  | cons item items ih =>
    obtain ⟨messageId, start, stop⟩ := item
    simp only [addEvidence] at h
    cases hm : db.messages.get? messageId with
    | none => rw [hm] at h; cases h
    | some message =>
      simp only [hm] at h
      split at h
      · cases h
      · split at h
        · cases h
        · obtain ⟨evidence, he⟩ := ih h
          exact ⟨evidence, he⟩

/-- A new candidate stands under the next key, generated and unpublished; of
the other tables only the evidence is written. -/
theorem createCandidateInSession_frame {db : Db F} {projectId : Nat} {new : NewCandidate F}
    {id : Nat} {db' : Db F} (h : createCandidateInSession db projectId new = .ok (id, db')) :
    ∃ row evidence, id = db.candidates.nextId ∧ row.status = .generated ∧
      row.publishedMemoryId = none ∧
      db' = { db with candidates := db.candidates.insert row, evidence := evidence } := by
  simp only [createCandidateInSession] at h
  split at h
  · cases h
  · next scope _ =>
    split at h
    · cases h
    · next level _ =>
      split at h
      · cases h
      · split at h
        · cases h
        · split at h
          · cases h
          · next db'' hadd =>
            cases h
            obtain ⟨evidence, he⟩ := addEvidence_frame _ hadd
            exact ⟨_, evidence, rfl, rfl, rfl, he⟩

theorem queueEvent_frame {db : Db F} {project : Project} {projectId : Nat} {eventType : EventType}
    {candidateId eventId : Nat} {db' : Db F}
    (h : queueEvent db project projectId eventType candidateId = .ok (eventId, db')) :
    ∃ events, db' = { db with events := events } := by
  simp only [queueEvent] at h
  split at h
  · cases h
  · split at h
    · cases h
      exact ⟨db.events, rfl⟩
    · cases h
      exact ⟨_, rfl⟩

theorem queueEvent_ok (db : Db F) {project : Project} (h : (normalisePart project.projectKey).isSome)
    (projectId : Nat) (eventType : EventType) (k : Nat) :
    ∃ out, queueEvent db project projectId eventType k = .ok out := by
  obtain ⟨key, hkey⟩ := Option.isSome_iff_exists.mp h
  simp only [queueEvent, hkey]
  cases eventOf db eventType k with
  | none => exact ⟨_, rfl⟩
  | some eventId => exact ⟨_, rfl⟩

theorem createAndQueue_frame {db : Db F} {project : Project} {projectId : Nat} {new : NewCandidate F}
    {id : Nat} {db' : Db F} (h : createAndQueue db project projectId new = .ok (id, db')) :
    ∃ row evidence events, row.status = .generated ∧ row.publishedMemoryId = none ∧
      db' = { db with
        candidates := db.candidates.insert row, evidence := evidence, events := events } := by
  simp only [createAndQueue] at h
  split at h
  · cases h
  · next id' db1 hcreate =>
    split at h
    · cases h
    · next db2 hqueue =>
      cases h
      obtain ⟨row, evidence, -, hstatus, hpub, rfl⟩ := createCandidateInSession_frame hcreate
      obtain ⟨events, rfl⟩ := queueEvent_frame hqueue
      exact ⟨row, evidence, events, hstatus, hpub, rfl⟩

/-! ## Policy results -/

/-- The policy results of a candidate, the earliest first. -/
def policyResultsOf (db : Db F) (k : Nat) : List PolicyResult :=
  (db.policyResults.select fun r => r.candidateId = k).map Prod.snd

theorem latestPolicy_eq (db : Db F) (k : Nat) :
    latestPolicy db k = (policyResultsOf db k).getLast? := by
  simp [latestPolicy, policyResultsOf]

theorem policyResultsOf_congr {db db' : Db F} (h : db'.policyResults = db.policyResults) (k : Nat) :
    policyResultsOf db' k = policyResultsOf db k := by
  simp [policyResultsOf, h]

theorem policyResultsOf_insert {db db' : Db F} {row : PolicyResult}
    (h : db'.policyResults = db.policyResults.insert row) (k : Nat) :
    policyResultsOf db' k = policyResultsOf db k ++ if row.candidateId = k then [row] else [] := by
  by_cases hk : row.candidateId = k <;>
    simp [policyResultsOf, h, Table.select, Table.insert, List.filter_append, hk]

/-- The result recorded last is the latest. -/
theorem latestPolicy_insert {db db' : Db F} {row : PolicyResult}
    (h : db'.policyResults = db.policyResults.insert row) :
    latestPolicy db' row.candidateId = some row := by
  rw [latestPolicy_eq, policyResultsOf_insert h, if_pos rfl, List.getLast?_append_cons]
  rfl

/-- The call records policy result `row`, or none. -/
def Records (db db' : Db F) (P : PolicyResult → Prop) : Prop :=
  db'.policyResults = db.policyResults ∨
    ∃ row, db'.policyResults = db.policyResults.insert row ∧ P row

theorem Records.mono {db db' : Db F} {P Q : PolicyResult → Prop} (h : Records db db' P)
    (hPQ : ∀ row, P row → Q row) : Records db db' Q := by
  rcases h with h | ⟨row, h, hrow⟩
  · exact Or.inl h
  · exact Or.inr ⟨row, h, hPQ row hrow⟩

/-- A decision arrives at candidate `k` while it is open. -/
structure Decides (db : Db F) (k : Nat) (raw : CandidateDecision F) (candidate : Candidate F)
    (decision : Decision F) : Prop where
  normalized : normalizeCandidateDecision raw = .ok decision
  row : db.candidates.get? k = some candidate
  unpublished : candidate.publishedMemoryId = none
  notRejected : candidate.status ≠ .rejected
  notSuperseded : candidate.status ≠ .superseded

/-- The call approves candidate `k`: a model decision to publish that passes
every automatic check, or an approval by review. -/
def Approves [Json.PyFloat F] (host : Host F) (db : Db F) (k : Nat) : Call F → Prop
  | .applyModelDecision svc id raw => id = k ∧ ∃ candidate decision,
      Decides db k raw candidate decision ∧ decision.decision = .publish ∧
        (automaticChecks host svc db k candidate decision).passed = true
  | .review id decision _ _ => id = k ∧ ReviewDecision.ofText? decision = some .approve
  | _ => False

theorem commitPublish_records (db : Db F) (id : Nat) (read : Candidate F) (plan : PublishPlan F) :
    Records db (commitPublish db id read plan).2 fun row =>
      row.candidateId = id ∧ row.decision ≠ .approve := by
  cases plan with
  | raise e => exact Or.inl rfl
  | existing m => exact Or.inl rfl
  | refuse status checks => exact Or.inr ⟨_, rfl, rfl, by simp⟩
  | create memory messageIds checks => exact Or.inr ⟨_, rfl, rfl, by simp⟩

theorem orRollback_createAndQueue_records (db : Db F) (project : Project) (projectId : Nat)
    (new : NewCandidate F) :
    Records db (orRollback db (createAndQueue db project projectId new)).2 fun _ => False := by
  unfold orRollback
  split
  · exact Or.inl rfl
  · next id db' hcreate =>
    obtain ⟨row, evidence, events, -, -, rfl⟩ := createAndQueue_frame hcreate
    exact Or.inl rfl

theorem createCandidate_records (db : Db F) (projectId : Nat) (new : NewCandidate F) :
    Records db (createCandidate db projectId new).2 fun _ => False := by
  unfold createCandidate
  split
  · exact Or.inl rfl
  · split
    · exact Or.inl rfl
    · split
      · exact Or.inl rfl
      · split
        · exact Or.inl rfl
        · next project _ => exact orRollback_createAndQueue_records db project projectId new

theorem createReplacement_frame {db : Db F} {project : Project} {k : Nat} {candidate : Candidate F}
    {action : CorrectAction} {replacement : Replacement F} {id : Option Nat} {db' : Db F}
    (h : createReplacement db project k candidate action replacement = .ok (id, db')) :
    db' = db ∨ ∃ row evidence events, row.status = .generated ∧ row.publishedMemoryId = none ∧
      db' = { db with
        candidates := db.candidates.insert row, evidence := evidence, events := events } := by
  simp only [createReplacement] at h
  split at h
  · split at h
    · cases h
    · split at h
      · cases h
      · next hcreate =>
        cases h
        exact Or.inr (createAndQueue_frame hcreate)
  · cases h
    exact Or.inl rfl

theorem createReplacement_policyResults {db : Db F} {project : Project} {k : Nat}
    {candidate : Candidate F} {action : CorrectAction} {replacement : Replacement F}
    {id : Option Nat} {db' : Db F}
    (h : createReplacement db project k candidate action replacement = .ok (id, db')) :
    db'.policyResults = db.policyResults := by
  rcases createReplacement_frame h with rfl | ⟨row, evidence, events, -, -, rfl⟩
  · rfl
  · rfl

@[simp] theorem supersedeRows_policyResults (db : Db F) (k : Nat) (candidate : Candidate F) :
    (supersedeRows db k candidate).policyResults = db.policyResults := by
  unfold supersedeRows
  split <;> rfl

theorem correctOpen_records {db : Db F} {project : Project} {id : Nat} {candidate : Candidate F}
    {action : CorrectAction} {reviewer reason : String} {replacement : Replacement F}
    {newId : Option Nat} {db' : Db F}
    (h : correctOpen db project id candidate action reviewer reason replacement = .ok (newId, db')) :
    Records db db' fun row => row.candidateId = id ∧ row.decision ≠ .approve := by
  simp only [correctOpen] at h
  split at h
  · cases h
  · next db1 hcreate =>
    cases h
    have hframe := createReplacement_policyResults hcreate
    split
    · have hrows := (supersedeRows_policyResults db1 id candidate).trans hframe
      exact Or.inr ⟨_, congrArg (fun t => Table.insert t _) hrows, rfl, by simp⟩
    · exact Or.inr ⟨_, congrArg (fun t => Table.insert t _) hframe, rfl, by simp⟩

theorem correct_records (db : Db F) (id : Nat) (action reviewer reason : String)
    (replacement : Replacement F) :
    Records db (correct db id action reviewer reason replacement).2 fun row =>
      row.candidateId = id ∧ row.decision ≠ .approve := by
  unfold correct
  split
  · exact Or.inl rfl
  · split
    · exact Or.inl rfl
    · split
      · exact Or.inl rfl
      · split
        · exact Or.inl rfl
        · split
          · exact Or.inl rfl
          · unfold orRollback
            split
            · exact Or.inl rfl
            · next hopen => exact correctOpen_records hopen

theorem reviewAdminCandidate_records (db : Db F) (id : Nat) (decision : String)
    (reviewer reason : Option String) :
    Records db (reviewAdminCandidate db id decision reviewer reason).2 fun row =>
      row.candidateId = id ∧
        (row.decision = .approve → ReviewDecision.ofText? decision = some .approve) := by
  unfold reviewAdminCandidate
  cases hverdict : ReviewDecision.ofText? decision with
  | none => exact Or.inl rfl
  | some verdict =>
    cases db.candidates.get? id with
    | none => exact Or.inl rfl
    | some candidate =>
      cases hproject : db.projects.get? candidate.projectId with
      | none =>
        left
        simp only [hproject]
      | some project =>
        cases verdict with
        | approve => exact Or.inr ⟨_, by simp only [hproject]; rfl, rfl, fun _ => rfl⟩
        | reject => exact Or.inr ⟨_, by simp only [hproject]; rfl, rfl, fun hd => by cases hd⟩

section Calls

variable [Json.PyFloat F] (host : Host F)

/-- What an accepted decision does: it writes the candidate, records one policy
result and may queue an event.  It approves only when every automatic check has
passed. -/
theorem applyOpen_cases (svc : Service) {db : Db F} {project : Project} {k : Nat}
    {candidate : Candidate F} {decision : Decision F} {app : Application} {db' : Db F}
    (h : applyOpen host svc db project k candidate decision = .ok (app, db')) :
    ∃ status result events, result.candidateId = k ∧ status ≠ .published ∧
      (status = .approved ∨ result.decision = .approve → decision.decision = .publish ∧
        (automaticChecks host svc db k candidate decision).passed = true ∧
        status = .approved ∧ result.decision = .approve ∧ result.checks.passed = true) ∧
      (app.candidateId = k ∧ (status = .approved → app.outcome = .accepted)) ∧
      db' = { setCandidate db k (decidedRow candidate decision status) with
        policyResults := db.policyResults.insert result, events := events } := by
  simp only [applyOpen] at h
  split at h
  · cases h
    exact ⟨_, _, _, rfl, by simp, by simp, ⟨rfl, by simp⟩, rfl⟩
  · cases h
    exact ⟨_, _, _, rfl, by simp, by simp, ⟨rfl, by simp⟩, rfl⟩
  · next hpublish =>
    split at h
    · cases h
      exact ⟨_, _, _, rfl, by simp, by simp, ⟨rfl, by simp⟩, rfl⟩
    · split at h
      · cases h
        exact ⟨_, _, _, rfl, by simp, by simp, ⟨rfl, by simp⟩, rfl⟩
      · next hpassed =>
        split at h
        · cases h
        · next db1 hqueue =>
          cases h
          obtain ⟨events, rfl⟩ := queueEvent_frame hqueue
          have hpassed : (automaticChecks host svc db k candidate decision).passed = true := by
            simpa using hpassed
          exact ⟨_, _, _, rfl, by simp, fun _ => ⟨hpublish, hpassed, rfl, rfl, hpassed⟩,
            ⟨rfl, fun _ => rfl⟩, rfl⟩

/-- A decision on an open candidate is what `applyOpen` makes of it. -/
theorem applyModelDecision_of_decides (svc : Service) {db : Db F} {k : Nat}
    {raw : CandidateDecision F} {c : Candidate F} {d : Decision F} (h : Decides db k raw c d)
    {project : Project} (hproject : db.projects.get? c.projectId = some project) :
    applyModelDecision host svc db k raw =
      orRollback db (applyOpen host svc db project k c d) := by
  have hclosed : ¬ (c.status = .rejected ∨ c.status = .superseded) := fun e =>
    e.elim h.notRejected h.notSuperseded
  simp only [applyModelDecision, h.normalized, h.row, hproject, h.unpublished, Option.isSome_none,
    Bool.false_eq_true, if_false, hclosed]

/-- Only a decision on an open candidate writes. -/
theorem decides_of_writes (svc : Service) (db : Db F) (k : Nat) (raw : CandidateDecision F) :
    (applyModelDecision host svc db k raw).2 = db ∨ ∃ c d project, Decides db k raw c d ∧
      db.projects.get? c.projectId = some project := by
  unfold applyModelDecision
  split
  · exact Or.inl rfl
  · next d hnorm =>
    split
    · exact Or.inl rfl
    · next c hc =>
      split
      · exact Or.inl rfl
      · next project hproject =>
        split
        · exact Or.inl rfl
        · next hpub =>
          split
          · exact Or.inl rfl
          · next hclosed =>
            obtain ⟨hrej, hsup⟩ := not_or.mp hclosed
            exact Or.inr ⟨c, d, project, ⟨hnorm, hc, by simpa using hpub, hrej, hsup⟩, hproject⟩

/-- **What a decision does.** -/
theorem applyModelDecision_cases (svc : Service) (db : Db F) (k : Nat) (raw : CandidateDecision F) :
    (applyModelDecision host svc db k raw).2 = db ∨
      ∃ c d status result events, Decides db k raw c d ∧ result.candidateId = k ∧
        status ≠ .published ∧
        (status = .approved ∨ result.decision = .approve → d.decision = .publish ∧
          (automaticChecks host svc db k c d).passed = true ∧
          status = .approved ∧ result.decision = .approve ∧ result.checks.passed = true) ∧
        (status = .approved → ∃ app, (applyModelDecision host svc db k raw).1 = .ok app ∧
          app.candidateId = k ∧ app.outcome = .accepted) ∧
        (applyModelDecision host svc db k raw).2 =
          { setCandidate db k (decidedRow c d status) with
            policyResults := db.policyResults.insert result, events := events } := by
  rcases decides_of_writes host svc db k raw with h | ⟨c, d, project, hd, hproject⟩
  · exact Or.inl h
  · rw [applyModelDecision_of_decides host svc hd hproject]
    unfold orRollback
    cases happly : applyOpen host svc db project k c d with
    | error e => exact Or.inl rfl
    | ok out =>
      obtain ⟨status, result, events, hid, hpub, happrove, ⟨hk, hout⟩, hdb⟩ :=
        applyOpen_cases host svc happly
      exact Or.inr ⟨c, d, status, result, events, hd, hid, hpub, happrove,
        fun hs => ⟨out.1, rfl, hk, hout hs⟩, hdb⟩

theorem applyModelDecision_records (svc : Service) (db : Db F) (id : Nat)
    (raw : CandidateDecision F) :
    Records db (applyModelDecision host svc db id raw).2 fun row =>
      row.candidateId = id ∧
        (row.decision = .approve → Approves host db id (.applyModelDecision svc id raw)) := by
  rcases applyModelDecision_cases host svc db id raw with
    h | ⟨c, d, status, result, events, hd, hid, -, happrove, -, hdb⟩
  · rw [h]
    exact Or.inl rfl
  · refine Or.inr ⟨result, by rw [hdb], hid, fun hdec => ?_⟩
    obtain ⟨hpublish, hpassed, -⟩ := happrove (Or.inr hdec)
    exact ⟨rfl, c, d, hd, hpublish, hpassed⟩

/-- **What a call records.**  A call records at most one policy result, and an
approval only when it approves that candidate. -/
theorem step_records (db : Db F) (call : Call F) :
    Records db (step host db call).2 fun row =>
      row.decision = .approve → Approves host db row.candidateId call := by
  cases call with
  | createCandidate projectId new =>
    exact (createCandidate_records db projectId new).mono fun _ h => h.elim
  | beginModelDecision id =>
    left
    simp only [step, beginModelDecision]
    split
    · rfl
    · split <;> rfl
  | applyModelDecision svc id raw =>
    refine (applyModelDecision_records host svc db id raw).mono fun row hrow hd => ?_
    rw [hrow.1]
    exact hrow.2 hd
  | markModelFailureNeedsReview id code =>
    simp only [step, markModelFailureNeedsReview]
    split
    · exact Or.inl rfl
    · split
      · exact Or.inl rfl
      · exact Or.inl rfl
      · exact Or.inl rfl
      · exact Or.inr ⟨_, rfl, fun hd => by cases hd⟩
  | correct id action reviewer reason replacement =>
    simp only [step]
    refine (correct_records db id action reviewer reason replacement).mono fun row hrow hd => ?_
    exact absurd hd hrow.2
  | review id decision reviewer reason =>
    simp only [step]
    refine (reviewAdminCandidate_records db id decision reviewer reason).mono fun row hrow hd => ?_
    exact ⟨hrow.1.symm, hrow.2 hd⟩
  | evaluate id =>
    simp only [step, evaluate]
    split
    · exact Or.inl rfl
    · refine Or.inr ⟨_, rfl, fun hd => ?_⟩
      simp only at hd
      split at hd <;> cases hd
  | publish svc id automatic =>
    simp only [step, publish]
    split
    · exact Or.inl rfl
    · exact (commitPublish_records db id _ _).mono fun row hrow hd => absurd hd hrow.2
  | setFlags projectId flags => exact Or.inl rfl
  | setPolicy projectId policy => exact Or.inl rfl

/-! ## The plan of a publication -/

/-- The memory that a candidate points to, if it is there. -/
def publishedMemory (db : Db F) (candidate : Candidate F) : Option Nat :=
  candidate.publishedMemoryId.bind fun m => (db.memories.get? m).map fun _ => m

/-- The messages of a candidate's evidence. -/
def evidenceMessages (db : Db F) (k : Nat) : List Nat :=
  (evidenceOf db k).map fun r => r.2.messageId

theorem publishPlan_eq (svc : Service) (db : Db F) (k : Nat) (candidate : Candidate F)
    (automatic : Bool) :
    publishPlan host svc db k candidate automatic =
      match publishedMemory db candidate with
      | some m => .existing m
      | none =>
        if (publishChecks host svc db k candidate automatic).passed = true then
          if (evidenceMessages db k).Nodup then
            .create (memoryOf candidate) (evidenceMessages db k)
              (publishChecks host svc db k candidate automatic)
          else .raise (.integrity "uq_memory_sources_memory_message")
        else .refuse
          (if automatic ∧ candidate.status ≠ .rejected ∧ candidate.status ≠ .superseded ∧
              candidate.status ≠ .published then .needsReview
            else candidate.status) (publishChecks host svc db k candidate automatic) := by
  unfold publishPlan publishedMemory evidenceMessages
  cases candidate.publishedMemoryId.bind fun m => (db.memories.get? m).map fun _ => m with
  | some m => rfl
  | none =>
    cases hp : (publishChecks host svc db k candidate automatic).passed with
    | true => simp only [hp, Bool.not_true, Bool.false_eq_true, if_false, if_true]
    | false => simp only [hp, Bool.not_false, Bool.false_eq_true, if_false, if_true]

theorem publishChecks_explicit (svc : Service) (db : Db F) (k : Nat) (candidate : Candidate F) :
    publishChecks host svc db k candidate false = baseChecks host db k candidate := by
  simp only [publishChecks, Bool.false_eq_true, if_false]

/-- When the checks of `publish` pass, so does every base check that the
automatic path does not replace. -/
theorem baseCheck_passed {svc : Service} {db : Db F} {k : Nat} {candidate : Candidate F}
    {automatic : Bool} (h : (publishChecks host svc db k candidate automatic).passed = true)
    {c : String × Bool} (hc : c ∈ baseChecks host db k candidate)
    (hkept : c.1 ∉ (automaticPublishChecks svc db k candidate).map Prod.fst) : c.2 = true := by
  rw [Checks.passed_iff] at h
  refine h c ?_
  cases automatic with
  | false => rwa [publishChecks_explicit]
  | true =>
    simp only [publishChecks, if_true]
    exact Checks.mem_update_left hc _ hkept

/-- A memory is created only for a candidate without one, when every check has
passed. -/
theorem publishPlan_create {svc : Service} {db : Db F} {k : Nat} {candidate : Candidate F}
    {automatic : Bool} {memory : Memory F} {messageIds : List Nat} {checks : Checks}
    (h : publishPlan host svc db k candidate automatic = .create memory messageIds checks) :
    publishedMemory db candidate = none ∧
      (publishChecks host svc db k candidate automatic).passed = true ∧
      (evidenceMessages db k).Nodup ∧ memory = memoryOf candidate := by
  rw [publishPlan_eq] at h
  split at h
  · cases h
  · next hnone =>
    split at h
    · next hpassed =>
      split at h
      · next hnodup =>
        cases h
        exact ⟨hnone, hpassed, hnodup, rfl⟩
      · cases h
    · cases h

theorem unpublished_of_passed {svc : Service} {db : Db F} {k : Nat} {candidate : Candidate F}
    {automatic : Bool} (h : (publishChecks host svc db k candidate automatic).passed = true) :
    candidate.publishedMemoryId = none ∧ hasDuplicateCandidate db k candidate = false := by
  have hmem : ("conflict_check", candidate.publishedMemoryId.isNone &&
      !hasDuplicateCandidate db k candidate) ∈ baseChecks host db k candidate := by
    simp [baseChecks]
  have hconflict := baseCheck_passed host h hmem (by simp [automaticPublishChecks])
  simpa using hconflict

/-- When every check passes on evidence from different messages, a memory is
created. -/
theorem publishPlan_of_passed {svc : Service} {db : Db F} {k : Nat} {candidate : Candidate F}
    {automatic : Bool} (h : (publishChecks host svc db k candidate automatic).passed = true)
    (hnodup : (evidenceMessages db k).Nodup) :
    publishPlan host svc db k candidate automatic =
      .create (memoryOf candidate) (evidenceMessages db k)
        (publishChecks host svc db k candidate automatic) := by
  have hnone : publishedMemory db candidate = none := by
    rw [publishedMemory, (unpublished_of_passed host h).1]
    rfl
  rw [publishPlan_eq, hnone]
  simp only [h, hnodup, if_true]

end Calls

end CodexMemory.Candidates
