import CodexMemory.Candidates.Gate
import CodexMemory.Candidates.Rows
import CodexMemory.Decisions.Runs

/-!
# The two gates of the automatic publication

`record_decision` marks a decision that may be published automatically;
`apply_model_decision` accepts a candidate.  The worker hands both the same output of
the model, as `CodexCliDecisionAdapter` maps it.

* `accepted_checks`: an accepted candidate has passed every automatic check;
* `gates_agree`: with the same flags and the same policy, what the candidates' gate
  accepts was marked by the contract.
-/

namespace CodexMemory.Decisions

open CodexMemory.Trace
open Candidates (Host Decides ModelDecision)

variable {F : Type}

/-! ## The adapter -/

def actionText : ModelDecision → String
  | .publish => "publish"
  | .skip => "skip"
  | .needsReview => "needs_review"

/-- `EvidenceRange.model_dump` -/
def EvidenceRange.dump (range : EvidenceRange) : Json F :=
  .obj [("message_id", .int range.messageId), ("start_char", .int range.startChar), ("end_char", .int range.endChar),
    ("quote", .str range.quote)]

/-- The codes of the risk flags, or one code for the decision. -/
def adapterReasonCodes (output : ModelDecisionOutput F) : List String :=
  if output.riskFlags.isEmpty then
    [match output.decision with
      | .needsReview => "model_needs_review"
      | .skip => "model_skip"
      | .publish => "model_output_validated"]
  else output.riskFlags.map RiskFlag.text

/-- The answer of `CodexCliDecisionAdapter.decide` for a validated output, of which
`dumped` is the dump; `runner` is what the runner says of its run. -/
def adapterDecision (name version : String) (output : ModelDecisionOutput F) (dumped runner : Json F) :
    Candidates.CandidateDecision F where
  decision := actionText output.decision
  confidence := some (.finite output.confidence)
  reasonCodes := adapterReasonCodes output
  model := some name
  promptVersion := some version
  abstain := output.decision = .needsReview
  metadata := .obj
    [("model_decision", dumped), ("title", .str output.title), ("content", .obj output.content),
      ("reason", .str output.reason), ("level", .str output.level.text), ("scope", .str output.scope.text),
      ("evidence_ranges", .arr (output.evidenceRanges.map EvidenceRange.dump)),
      ("risk_flags", .arr (output.riskFlags.map fun flag => .str flag.text)), ("validation_passed", .bool true),
      ("runner", runner)]

/-! ## What an accepted candidate has passed -/

theorem normalize_ok {raw : Candidates.CandidateDecision F} {d : Candidates.Decision F}
    (h : Candidates.normalizeCandidateDecision raw = .ok d) :
    d.metadata = raw.metadata ∧ ModelDecision.ofText? (lower (strip raw.decision)) = some d.decision ∧
      ∀ q, d.confidence = some q → raw.confidence = some (.finite q) := by
  unfold Candidates.normalizeCandidateDecision at h
  split at h
  · cases h
  · split at h
    · cases h
    · next action haction =>
      simp only at h
      split at h
      · cases h
      · next confidence hconfidence =>
        split at h
        · cases h
        · obtain rfl := Except.ok.inj h
          refine ⟨rfl, haction, fun q hq => ?_⟩
          cases hraw : raw.confidence with
          | none =>
            rw [hraw] at hconfidence
            obtain rfl := Except.ok.inj hconfidence
            cases hq
          | some number =>
            rw [hraw] at hconfidence
            cases number with
            | nonFinite => cases hconfidence
            | finite r =>
              simp only at hconfidence
              split at hconfidence
              · obtain rfl := Except.ok.inj hconfidence
                rw [Option.some.inj hq]
              · cases hconfidence

variable [Json.PyFloat F] (py : Pydantic F) (host : Host F)

/-- **An accepted candidate has passed every automatic check.** -/
theorem accepted_checks {svc : Candidates.Service} {db : Candidates.Db F} {k : Nat}
    {raw : Candidates.CandidateDecision F} {app : Candidates.Application}
    (h : (Candidates.applyModelDecision host svc db k raw).1 = .ok app) (haccepted : app.outcome = .accepted) :
    ∃ c d, Decides db k raw c d ∧ d.decision = .publish ∧
      (Candidates.automaticChecks host svc db k c d).passed = true := by
  unfold Candidates.applyModelDecision at h
  split at h
  · cases h
  · next d hnormalized =>
    split at h
    · cases h
    · next c hc =>
      split at h
      · cases h
      · next project hproject =>
        split at h
        · obtain rfl := Except.ok.inj h
          cases haccepted
        · next hunpublished =>
          split at h
          · obtain rfl := Except.ok.inj h
            cases haccepted
          · next hopen =>
            obtain ⟨hrejected, hsuperseded⟩ := not_or.mp hopen
            have hdecides : Decides db k raw c d :=
              ⟨hnormalized, hc, by simpa using hunpublished, hrejected, hsuperseded⟩
            refine ⟨c, d, hdecides, ?_⟩
            unfold Candidates.orRollback at h
            split at h
            · cases h
            · next out db' happly =>
              obtain rfl := Except.ok.inj h
              unfold Candidates.applyOpen at happly
              split at happly
              · obtain ⟨rfl, -⟩ := Prod.mk.inj (Except.ok.inj happly)
                cases haccepted
              · obtain ⟨rfl, -⟩ := Prod.mk.inj (Except.ok.inj happly)
                cases haccepted
              · next hpublish =>
                refine ⟨hpublish, ?_⟩
                simp only at happly
                split at happly
                · obtain ⟨rfl, -⟩ := Prod.mk.inj (Except.ok.inj happly)
                  cases haccepted
                · split at happly
                  · obtain ⟨rfl, -⟩ := Prod.mk.inj (Except.ok.inj happly)
                    cases haccepted
                  · next hpassed => simpa using hpassed

/-- What the candidates' gate has seen of an output that it admits, in a project with
these flags and this policy. -/
structure Admitted (flags : Option Candidates.FeatureFlags) (policy : Candidates.DecisionPolicy)
    (output : ModelDecisionOutput F) : Prop where
  flags : ∃ f, flags = some f ∧ f.candidatePublishEnabled = true ∧ f.decisionEngineEnabled = true
  enabled : policy.enabled = true
  autoPublish : policy.autoPublishEnabled = true
  strategy : policy.strategy = "auto_publish"
  confidence : policy.minConfidence ≤ output.confidence
  decision : output.decision = .publish
  level : output.level = .L1
  scope : output.scope = .project
  risks : output.riskFlags = []
  evidence : output.evidenceRanges ≠ []

theorem publish_of_actionText {action : ModelDecision}
    (h : ModelDecision.ofText? (lower (strip (actionText action))) = some .publish) : action = .publish := by
  cases action with
  | publish => rfl
  | skip => revert h; decide
  | needsReview => revert h; decide

/-- **What the checks say of an output**, where the worker has no threshold of its own. -/
theorem admitted_of_passed {db : Candidates.Db F} {k : Nat} {name version : String} {output : ModelDecisionOutput F}
    {dumped runner : Json F} {c : Candidates.Candidate F} {d : Candidates.Decision F}
    (hd : Decides db k (adapterDecision name version output dumped runner) c d) (hpublish : d.decision = .publish)
    (h : (Candidates.automaticChecks host {} db k c d).passed = true) :
    Admitted (db.flags c.projectId) (db.policies c.projectId) output := by
  obtain ⟨hmetadata, haction, hconfidence⟩ := normalize_ok hd.normalized
  rw [hpublish] at haction
  simp only [Candidates.automaticChecks, Candidates.Checks.passed, List.all_cons, List.all_nil, Bool.and_eq_true,
    decide_eq_true_eq, and_true, hmetadata] at h
  obtain ⟨-, -, -, -, -, hflags, ⟨henabled, hauto⟩, hstrategy, -, -, -, ⟨-, hlevel⟩, ⟨-, hscope⟩, hevidence, hreaches, -,
    hrisk, -, -⟩ := h
  refine ⟨?_, henabled, hauto, hstrategy, ?_, publish_of_actionText haction, ?_, ?_, ?_, ?_⟩
  · unfold Candidates.autoPublishEnabled at hflags
    cases hf : db.flags c.projectId with
    | none => rw [hf] at hflags; cases hflags
    | some flags =>
      rw [hf] at hflags
      simp only [Bool.and_eq_true] at hflags
      exact ⟨flags, rfl, hflags⟩
  · cases hq : d.confidence with
    | none => rw [hq] at hreaches; cases hreaches
    | some q =>
      rw [hq] at hreaches
      have hsame : some (Candidates.PyNumber.finite output.confidence) = some (.finite q) := hconfidence q hq
      obtain rfl := Candidates.PyNumber.finite.inj (Option.some.inj hsame)
      exact of_decide_eq_true hreaches
  · cases hl : output.level <;>
      simp [adapterDecision, Json.get?, List.lookup, Candidates.isText, hl, Candidates.Level.text] at hlevel ⊢
  · cases hs : output.scope <;>
      simp [adapterDecision, Json.get?, List.lookup, Candidates.isText, hs, Candidates.Scope.text] at hscope ⊢
  · simpa [adapterDecision, Json.get?, List.lookup, Candidates.truthy] using hrisk
  · intro hnone
    simp [adapterDecision, Json.get?, List.lookup, hnone, Candidates.verifyModelEvidence] at hevidence

/-! ## What a recorded decision has passed -/

omit [Json.PyFloat F] in
theorem policy_fields {row : PolicyRow} {policy : Policy} (h : projectDecisionPolicy py row = some policy) :
    policy.enabled = row.enabled ∧ policy.autoPublishEnabled = row.autoPublishEnabled ∧
      Strategy.ofText? row.strategy = some policy.strategy ∧ policy.minConfidence = row.minConfidence := by
  simp only [projectDecisionPolicy, Option.bind_eq_bind, Option.bind_eq_some_iff] at h
  obtain ⟨strategy, hstrategy, title, -, content, -, reason, -, evidence, -, version, -, updatedBy, -, h⟩ := h
  split at h
  · split at h
    · obtain rfl := Option.some.inj h
      exact ⟨rfl, rfl, hstrategy, rfl⟩
    · cases h
  · cases h

/-- A new decision is that of the output, of the project of its candidate. -/
theorem recorded_row {s s' : Store F} {runId k d : Nat} {payload : Payload F} {output : ModelDecisionOutput F}
    (hvalid : validateModelOutput py payload = some output)
    (h : recordDecision py host s runId payload (some k) = (.ok d, s')) (hnew : s.decisions.get? d = none) :
    ∃ candidate policy row, s.base.candidates.get? k = some candidate ∧
      loadPolicy py s candidate.projectId = some policy ∧ s'.decisions.get? d = some row ∧ row.output = output ∧
      row.autoPublishAllowed = autoPublishAllowed (s.base.flags candidate.projectId) policy output ∧
      s'.base = s.base := by
  rw [recordDecision, hvalid] at h
  simp only at h
  cases hrun : s.runs.get? runId with
  | none => rw [hrun] at h; cases h
  | some run =>
    rw [hrun] at h
    simp only at h
    split at h
    · cases h
    · cases hdecision : decisionOf s runId with
      | some found =>
        obtain ⟨i, existing⟩ := found
        rw [hdecision] at h
        simp only at h
        split at h
        · obtain ⟨hid, -⟩ := Prod.mk.inj h
          obtain rfl := Except.ok.inj hid
          have hmem := List.mem_of_find?_eq_some hdecision
          rw [(Table.get?_eq_some_iff _ _ _).mpr hmem] at hnew
          cases hnew
        · cases h
      | none =>
        rw [hdecision] at h
        simp only [recordFirst] at h
        cases hpolicy : loadPolicy py s run.projectId with
        | none => rw [hpolicy] at h; cases h
        | some policy =>
          rw [hpolicy] at h
          simp only at h
          split at h
          · cases h
          · next herrors =>
            obtain ⟨hid, rfl⟩ := Prod.mk.inj h
            obtain rfl := Except.ok.inj hid
            rw [ne_eq, Classical.not_not, List.append_eq_nil_iff] at herrors
            have hcandidate := herrors.2
            simp only [candidateErrors] at hcandidate
            cases hk : s.base.candidates.get? k with
            | none => rw [hk] at hcandidate; cases hcandidate
            | some candidate =>
              rw [hk] at hcandidate
              simp only at hcandidate
              split at hcandidate
              · cases hcandidate
              · next hproject =>
                have hproject : candidate.projectId = run.projectId := Classical.not_not.mp hproject
                rw [← hproject] at hpolicy
                exact ⟨candidate, policy, _, rfl, hpolicy, Table.get?_insert_self _ _, rfl, by rw [hproject], rfl⟩

/-! ## The candidate keeps its project -/

/-- Recording a decision changes neither the candidates' tables nor the policies. -/
theorem recordDecision_settings (s : Store F) (runId : Nat) (payload : Payload F) (candidateId : Option Nat) :
    (recordDecision py host s runId payload candidateId).2.base = s.base ∧
      (recordDecision py host s runId payload candidateId).2.policyRows = s.policyRows := by
  rcases recordDecision_cases py host s runId payload candidateId with
    ⟨hs, -⟩ | ⟨run, row, -, -, -, hs⟩ | ⟨run, row, decision, -, -, -, -, -, -, hs⟩ <;>
    rw [hs] <;> exact ⟨rfl, rfl⟩

/-- The call is one of the decision service on its own tables. -/
def Call.recordsOnly : Call F → Bool
  | .setPolicyRow _ _ | .candidates _ => false
  | _ => true

/-- **The decision service leaves the candidates' tables and the policies alone.** -/
theorem step_recordsOnly (s : Store F) {call : Call F} (h : call.recordsOnly = true) :
    (step py host s call).2.base = s.base ∧ (step py host s call).2.policyRows = s.policyRows := by
  cases call with
  | startRun projectId request =>
    rcases startRun_cases py s projectId request with hs | ⟨run, hs⟩ <;> simp only [step, hs, and_self]
  | finishRun runId update =>
    rcases finishRun_cases py s runId update with hs | ⟨run, row, -, -, hs⟩ <;>
      simp only [step, hs, Store.setRun, and_self]
  | recordDecision runId payload candidateId => exact recordDecision_settings py host s runId payload candidateId
  | reviewDecision decisionId projectId request =>
    rcases reviewDecision_cases py host s decisionId projectId request with hs | ⟨reviews, action, hs⟩ <;>
      simp only [step, hs, and_self]
  | setPolicyRow projectId row => cases h
  | candidates call => cases h

/-- **A candidate stays in its project**, whatever is called. -/
theorem run_project (calls : List (Call F)) {s : Store F} {k : Nat} {c : Candidates.Candidate F}
    (h : s.base.candidates.get? k = some c) :
    ∃ c', (exec (step py host) s calls).base.candidates.get? k = some c' ∧ c'.projectId = c.projectId := by
  induction calls generalizing s c with
  | nil => exact ⟨c, h, rfl⟩
  | cons call calls ih =>
    cases hrecords : call.recordsOnly with
    | true =>
      rw [← (step_recordsOnly py host s hrecords).1] at h
      exact ih h
    | false =>
      cases call with
      | candidates inner =>
        obtain ⟨c', hc', horigin⟩ := Candidates.step_origin host s.db inner h
        obtain ⟨c'', hc'', hproject⟩ := ih (s := (step py host s (.candidates inner)).2) hc'
        exact ⟨c'', hc'', hproject.trans (congrArg Candidates.Origin.projectId horigin)⟩
      | setPolicyRow projectId row => exact ih (s := (step py host s (.setPolicyRow projectId row)).2) h
      | _ => cases hrecords

/-! ## The gates agree -/

omit [Json.PyFloat F] in
/-- What the candidates' gate admits, the contract allows, under the same flags and the
same policy row. -/
theorem allowed_of_admitted {flags : Option Candidates.FeatureFlags} {row : Option PolicyRow}
    {output : ModelDecisionOutput F} {policy : Policy} (hpolicy : projectDecisionPolicy py (row.getD {}) = some policy)
    (h : Admitted flags (candidateDecisionPolicy row) output) : autoPublishAllowed flags policy output = true := by
  obtain ⟨f, rfl, hpublish, hengine⟩ := h.flags
  obtain ⟨henabled, hauto, hstrategy, hmin⟩ := policy_fields py hpolicy
  cases row with
  | none => exact absurd h.enabled (by simp [candidateDecisionPolicy])
  | some row =>
    have hview : candidateDecisionPolicy (some row) =
        ⟨row.enabled, row.autoPublishEnabled, row.strategy, row.allowedLevel, row.allowedScope, row.minConfidence⟩ := by
      rw [candidateDecisionPolicy]
      split
      · rfl
      · next hbounds =>
        have hrowEnabled := h.enabled
        rw [candidateDecisionPolicy, if_neg hbounds] at hrowEnabled
        cases hrowEnabled
    rw [hview] at h
    have hauto' := h.autoPublish
    have hstrategy' := h.strategy
    have hconfidence := h.confidence
    have henabled' := h.enabled
    simp only at hauto' hstrategy' hconfidence henabled'
    simp only [Option.getD_some] at henabled hauto hstrategy hmin
    rw [hstrategy'] at hstrategy
    obtain hs : Strategy.autoPublish = policy.strategy := Option.some.inj hstrategy
    simp [autoPublishAllowed, hengine, hpublish, henabled, henabled', hauto, hauto', ← hs, h.decision, h.level, h.scope,
      hmin, hconfidence, h.risks, h.evidence]

/-- **The candidates' gate admits only what the contract allows.**  The decision `d` is
recorded for an output; then come any calls that leave the flags and the policy of the
candidate's project as they were, and the worker's decision on the output is accepted:
then `d` was marked. -/
theorem gates_agree (s s₁ : Store F) (runId k d : Nat) (payload : Payload F) (output : ModelDecisionOutput F)
    (calls : List (Call F)) (name version : String) (dumped runner : Json F) (app : Candidates.Application)
    (hvalid : validateModelOutput py payload = some output)
    (hrecord : recordDecision py host s runId payload (some k) = (.ok d, s₁)) (hnew : s.decisions.get? d = none)
    (hsame : ∀ c, s.base.candidates.get? k = some c →
      (exec (step py host) s₁ calls).base.flags c.projectId = s.base.flags c.projectId ∧
      (exec (step py host) s₁ calls).policyRows c.projectId = s.policyRows c.projectId)
    (happly : (Candidates.applyModelDecision host {} (exec (step py host) s₁ calls).db k
      (adapterDecision name version output dumped runner)).1 = .ok app)
    (haccepted : app.outcome = .accepted) :
    ∃ row, s₁.decisions.get? d = some row ∧ row.output = output ∧ row.autoPublishAllowed = true := by
  obtain ⟨candidate, policy, row, hk, hpolicy, hrow, houtput, hallowed, hbase⟩ :=
    recorded_row py host hvalid hrecord hnew
  obtain ⟨c, decision, hdecides, hpublish, hpassed⟩ := accepted_checks host happly haccepted
  have hadmitted := admitted_of_passed host hdecides hpublish hpassed
  -- the candidate that is accepted has the project of the one that was recorded
  have hproject : c.projectId = candidate.projectId := by
    rw [← hbase] at hk
    obtain ⟨c', hc', hproject⟩ := run_project py host calls hk
    have hc := hdecides.row
    rw [Store.db] at hc
    rw [hc] at hc'
    rw [Option.some.inj hc', hproject]
  obtain ⟨hflags, hrows⟩ := hsame candidate hk
  simp only [Store.db] at hadmitted
  rw [hproject, hflags, hrows] at hadmitted
  exact ⟨row, hrow, houtput, hallowed.trans (allowed_of_admitted py hpolicy hadmitted)⟩

/-! ## An output that passes both gates -/

/-- The sample project with a message under key 1, and a candidate on it. -/
def gatesDb : Candidates.Db Empty :=
  exec (Candidates.step Candidates.sampleHost)
    { Candidates.sampleDb with
      messages := Candidates.sampleDb.messages.insert
        ⟨0, "Use tabs", Candidates.sampleHost.sha256 "Use tabs"⟩ }
    [.createCandidate 0 { Candidates.sampleCandidate with sourceMessageId := 1, evidence := [(1, 0, 8)] },
      .beginModelDecision 0]

/-- A run of the model in that project, where every switch is on. -/
def gatesStore : Store Empty where
  base := gatesDb
  policyRows _ := some { enabled := true, autoPublishEnabled := true, strategy := "auto_publish" }
  jobs _ := none
  outboxEvents _ := none
  runs := Table.empty.insert
    { projectId := 0, processingJobId := none, outboxEventId := none, model := "codex-cli:default"
      promptVersion := "codex-cli-adapter-v1", inputHash := "", maxRetries := 3 }
  decisions := .empty
  reviews := .empty

def publishOutput : ModelDecisionOutput Empty where
  decision := .publish
  confidence := 9 / 10
  title := "t"
  content := []
  reason := "r"
  evidenceRanges := [⟨1, 0, 8, "Use tabs", by decide, by decide, by decide, by decide⟩]
  riskFlags := []
  level := .L1
  scope := .project
  confidence_bounds := by decide +kernel
  title_length := by decide
  reason_length := by decide
  evidence_count := by decide
  risk_count := by decide
  risk_nodup := by decide
  evidence_of_publish := by decide

/-- The output is recorded and then accepted. -/
theorem gates_agree_published : ∃ row,
    (recordDecision plainPydantic Candidates.sampleHost gatesStore 0 (.output publishOutput) (some 0)).2.decisions.get?
      0 = some row ∧ row.output = publishOutput ∧ row.autoPublishAllowed = true :=
  gates_agree plainPydantic Candidates.sampleHost gatesStore _ 0 0 0 (.output publishOutput) publishOutput []
    "codex-cli:default" "codex-cli-adapter-v1" .null .null ⟨0, .accepted, .approved, [], some 0, some 1⟩ rfl
    (Prod.ext (by decide +kernel) rfl) rfl
    (fun c _ => by
      obtain ⟨hbase, hrows⟩ := recordDecision_settings plainPydantic Candidates.sampleHost gatesStore 0
        (.output publishOutput) (some 0)
      exact ⟨by rw [exec_nil, hbase], by rw [exec_nil, hrows]⟩)
    (by decide +kernel) rfl

end CodexMemory.Decisions
