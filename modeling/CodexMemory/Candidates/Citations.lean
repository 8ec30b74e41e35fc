import CodexMemory.Candidates.Rows

/-!
# What a call cites

Evidence is only ever of messages that are there.  `step_cites` says what a call other than
`publish` does to evidence, memories and sources, `publish_cites` what `publish` does.
-/

namespace CodexMemory.Candidates

section Citations

variable {F : Type}

/-- The memory as `correct` marks it. -/
def supersededMemory (memory : Memory F) : Memory F := { memory with reviewStatus := "superseded", deprecated := true }

/-- New evidence is of messages that are there, at most one memory is marked as superseded, and the sources stay. -/
structure Cites (db db' : Db F) : Prop where
  messages : db'.messages = db.messages
  projects : db'.projects = db.projects
  evidence : ∀ r ∈ db'.evidence.rows, r ∈ db.evidence.rows ∨ (db.messages.get? r.2.messageId).isSome
  memories : db'.memories = db.memories ∨ ∃ memoryId, db'.memories = db.memories.modify memoryId supersededMemory
  sources : db'.memorySources = db.memorySources

theorem Cites.of_evidence {db db' : Db F} (hmessages : db'.messages = db.messages) (hprojects : db'.projects = db.projects)
    (hevidence : ∀ r ∈ db'.evidence.rows, r ∈ db.evidence.rows ∨ (db.messages.get? r.2.messageId).isSome)
    (hmemories : db'.memories = db.memories) (hsources : db'.memorySources = db.memorySources) : Cites db db' :=
  ⟨hmessages, hprojects, hevidence, Or.inl hmemories, hsources⟩

/-- The other tables do not matter. -/
theorem Cites.of_eq {db db' : Db F} (hmessages : db'.messages = db.messages) (hprojects : db'.projects = db.projects)
    (hevidence : db'.evidence = db.evidence) (hmemories : db'.memories = db.memories)
    (hsources : db'.memorySources = db.memorySources) : Cites db db' :=
  .of_evidence hmessages hprojects (fun r hr => Or.inl (by rwa [hevidence] at hr)) hmemories hsources

theorem Cites.refl (db : Db F) : Cites db db := .of_eq rfl rfl rfl rfl rfl

theorem Cites.orRollback {α : Type} {db : Db F} {result : Except Error (α × Db F)}
    (h : ∀ a db', result = .ok (a, db') → Cites db db') : Cites db (orRollback db result).2 := by
  cases result with
  | error e => exact .refl db
  | ok out => exact h out.1 out.2 rfl

/-! ## Candidates -/

theorem addEvidence_cites {projectId candidateId : Nat} (items : List (Nat × Int × Int)) {db db' : Db F}
    (h : addEvidence projectId candidateId items db = .ok db') :
    ∀ r ∈ db'.evidence.rows, r ∈ db.evidence.rows ∨ (db.messages.get? r.2.messageId).isSome := by
  induction items generalizing db with
  | nil =>
    cases h
    exact fun r hr => Or.inl hr
  | cons item rest ih =>
    obtain ⟨messageId, start, stop⟩ := item
    simp only [addEvidence] at h
    cases hmessage : db.messages.get? messageId with
    | none =>
      rw [hmessage] at h
      cases h
    | some message =>
      simp only [hmessage] at h
      split at h
      · cases h
      · split at h
        · cases h
        · intro r hr
          rcases ih h r hr with hr | hr
          · rcases List.mem_append.mp hr with hr | hr
            · exact Or.inl hr
            · obtain rfl := List.mem_singleton.mp hr
              exact Or.inr (by rw [hmessage]; rfl)
          · exact Or.inr hr

theorem createAndQueue_cites {db db' : Db F} {project : Project} {projectId id : Nat} {new : NewCandidate F}
    (h : createAndQueue db project projectId new = .ok (id, db')) : Cites db db' := by
  simp only [createAndQueue] at h
  split at h
  · cases h
  · next id' db₁ hcreate =>
    split at h
    · cases h
    · next db₂ hqueue =>
      cases h
      have hevidence : ∀ r ∈ db₁.evidence.rows, r ∈ db.evidence.rows ∨ (db.messages.get? r.2.messageId).isSome := by
        simp only [createCandidateInSession] at hcreate
        split at hcreate
        · cases hcreate
        · split at hcreate
          · cases hcreate
          · split at hcreate
            · cases hcreate
            · split at hcreate
              · cases hcreate
              · split at hcreate
                · cases hcreate
                · next hadd =>
                  cases hcreate
                  have hkept := addEvidence_cites _ hadd
                  exact hkept
      obtain ⟨row, evidence, -, -, -, rfl⟩ := createCandidateInSession_frame hcreate
      obtain ⟨events, rfl⟩ := queueEvent_frame hqueue
      exact .of_evidence rfl rfl hevidence rfl rfl

theorem createCandidate_cites (db : Db F) (projectId : Nat) (new : NewCandidate F) :
    Cites db (createCandidate db projectId new).2 := by
  refine .orRollback fun id db' h => ?_
  split at h
  · cases h
  · split at h
    · cases h
    · split at h
      · cases h
      · split at h
        · cases h
        · exact createAndQueue_cites h

/-! ## Corrections -/

theorem createReplacement_cites {db db' : Db F} {project : Project} {k : Nat} {candidate : Candidate F}
    {action : CorrectAction} {replacement : Replacement F} {id : Option Nat}
    (h : createReplacement db project k candidate action replacement = .ok (id, db')) :
    Cites db db' ∧ db'.memories = db.memories := by
  have hmemories : db'.memories = db.memories := by
    rcases createReplacement_frame h with rfl | ⟨row, evidence, events, -, -, rfl⟩ <;> rfl
  refine ⟨?_, hmemories⟩
  simp only [createReplacement] at h
  split at h
  · split at h
    · cases h
    · split at h
      · cases h
      · next hcreate =>
        cases h
        exact createAndQueue_cites hcreate
  · cases h
    exact .refl db

theorem correctOpen_cites {db db' : Db F} {project : Project} {k : Nat} {candidate : Candidate F}
    {action : CorrectAction} {reviewer reason : String} {replacement : Replacement F} {newId : Option Nat}
    (h : correctOpen db project k candidate action reviewer reason replacement = .ok (newId, db')) : Cites db db' := by
  simp only [correctOpen] at h
  split at h
  · cases h
  · next db₁ hcreate =>
    obtain ⟨hcites, hmemories⟩ := createReplacement_cites hcreate
    cases h
    split
    · unfold supersedeRows
      split
      · exact ⟨hcites.messages, hcites.projects, hcites.evidence, Or.inl hmemories, hcites.sources⟩
      · next memoryId _ =>
        refine ⟨hcites.messages, hcites.projects, hcites.evidence, Or.inr ⟨memoryId, ?_⟩, hcites.sources⟩
        rw [← hmemories]
        rfl
    · exact ⟨hcites.messages, hcites.projects, hcites.evidence, Or.inl hmemories, hcites.sources⟩

theorem correct_cites (db : Db F) (k : Nat) (action reviewer reason : String) (replacement : Replacement F) :
    Cites db (correct db k action reviewer reason replacement).2 := by
  rw [correct]
  split
  · exact .refl db
  · split
    · exact .refl db
    · split
      · exact .refl db
      · split
        · exact .refl db
        · split
          · exact .refl db
          · exact .orRollback fun _ _ h => correctOpen_cites h

/-! ## One step -/

/-- **A call other than `publish` adds evidence of messages that are there and no sources.** -/
theorem step_cites [Json.PyFloat F] (host : Host F) (db : Db F) {call : Call F} (hcall : call.isPublish = false) :
    Cites db (step host db call).2 := by
  cases call with
  | createCandidate projectId new =>
    simp only [step]
    exact createCandidate_cites db projectId new
  | beginModelDecision k =>
    simp only [step, beginModelDecision]
    split
    · exact .refl db
    · split <;> exact .of_eq rfl rfl rfl rfl rfl
  | applyModelDecision svc k raw =>
    simp only [step]
    rcases applyModelDecision_cases host svc db k raw with h | ⟨c, d, status, result, events, -, -, -, -, -, h⟩
    · rw [h]
      exact .refl db
    · rw [h]
      exact .of_eq rfl rfl rfl rfl rfl
  | markModelFailureNeedsReview k code =>
    simp only [step, markModelFailureNeedsReview]
    split
    · exact .refl db
    · split <;> exact .of_eq rfl rfl rfl rfl rfl
  | correct k action reviewer reason replacement =>
    simp only [step]
    exact correct_cites db k action reviewer reason replacement
  | review k decision reviewer reason =>
    simp only [step, reviewAdminCandidate]
    split
    · exact .refl db
    · split
      · exact .refl db
      · split
        · exact .refl db
        · exact .of_eq rfl rfl rfl rfl rfl
  | evaluate k =>
    simp only [step, evaluate]
    split
    · exact .refl db
    · exact .of_eq rfl rfl rfl rfl rfl
  | publish svc k automatic => cases hcall
  | setFlags projectId flags => exact .of_eq rfl rfl rfl rfl rfl
  | setPolicy projectId policy => exact .of_eq rfl rfl rfl rfl rfl

/-- **`publish` adds no evidence, and writes one memory with the messages of the evidence as its sources, or none.** -/
theorem publish_cites [Json.PyFloat F] (host : Host F) (svc : Service) (db : Db F) (k : Nat) (automatic : Bool) :
    Cites db (publish host svc db k automatic).2 ∨ ∃ candidate,
      (publish host svc db k automatic).2.messages = db.messages ∧
      (publish host svc db k automatic).2.projects = db.projects ∧
      (publish host svc db k automatic).2.evidence = db.evidence ∧
      (publish host svc db k automatic).2.memories = db.memories.insert (memoryOf candidate) ∧
      (publish host svc db k automatic).2.memorySources =
        addSources db.memories.nextId (evidenceMessages db k) db.memorySources := by
  rw [publish]
  split
  · exact Or.inl (.refl db)
  · next candidate hcandidate =>
    cases hplan : publishPlan host svc db k candidate automatic with
    | raise error => exact Or.inl (.refl db)
    | existing memoryId => exact Or.inl (.refl db)
    | refuse status checks => exact Or.inl (.of_eq rfl rfl rfl rfl rfl)
    | create memory messageIds checks =>
      obtain ⟨-, -, -, rfl⟩ := publishPlan_create host hplan
      have hmessageIds : messageIds = evidenceMessages db k := by
        rw [publishPlan_eq] at hplan
        split at hplan
        · cases hplan
        · split at hplan
          · split at hplan
            · cases hplan
              rfl
            · cases hplan
          · cases hplan
      rw [hmessageIds]
      exact Or.inr ⟨candidate, rfl, rfl, rfl, rfl, rfl⟩

end Citations

end CodexMemory.Candidates
