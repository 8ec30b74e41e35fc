import CodexMemory.Candidates.Effects
import Mathlib.Data.List.Induction

/-!
# The gate of automatic publication

`publish` on the automatic path repeats every check of the decision in its own
step, and asks that the latest policy result of the candidate is an approval
with all checks passed.  Only two calls record one, and every later result
closes the gate again; so whatever happens between the two transactions, a
memory is created only through an open gate (`automatic_publish_gate`).
-/

namespace CodexMemory.Candidates

open CodexMemory.Trace

variable {F : Type} (host : Host F)

/-- The evidence of a candidate: there is some, and every piece of it is an
unaltered part of a message of the candidate's project and of its text. -/
structure EvidenceHolds (db : Db F) (k : Nat) (candidate : Candidate F) : Prop where
  nonempty : evidenceOf db k ≠ []
  each : ∀ e ∈ evidenceOf db k, ∃ message, db.messages.get? e.2.messageId = some message ∧
    message.projectId = candidate.projectId ∧
    host.sha256 message.content = e.2.contentHash ∧
    slice message.content e.2.startChar e.2.endChar = e.2.quotedText ∧
    List.IsInfix e.2.quotedText.toList (candidateText host candidate.content).toList

/-- What must hold of the database when a memory is created automatically. -/
structure GateOpen (svc : Service) (db : Db F) (k : Nat) (candidate : Candidate F) : Prop where
  level : candidate.level = .L1
  scope : candidate.scope = .project
  status : candidate.status = .approved
  evidence : EvidenceHolds host db k candidate
  notAbstained : candidate.abstain = false
  confidence : ∃ q, candidate.modelConfidence = some q ∧
    thresholdFor svc (db.policies candidate.projectId) ≤ q
  flags : ∃ flags, db.flags candidate.projectId = some flags ∧
    flags.candidatePublishEnabled = true ∧ flags.decisionEngineEnabled = true
  policyEnabled : (db.policies candidate.projectId).enabled = true
  policyAutoPublish : (db.policies candidate.projectId).autoPublishEnabled = true
  policyStrategy : (db.policies candidate.projectId).strategy = "auto_publish"

/-! ## One publication -/

theorem evidenceHolds_of_verified (db : Db F) (k : Nat) (candidate : Candidate F) :
    verifyEvidence host db k candidate = true → EvidenceHolds host db k candidate := by
  intro h
  simp only [verifyEvidence, Bool.and_eq_true, Bool.not_eq_true', List.isEmpty_eq_false_iff,
    List.all_eq_true] at h
  refine ⟨h.1, fun e he => ?_⟩
  have hrow := h.2 e he
  unfold evidenceHolds at hrow
  cases hm : db.messages.get? e.2.messageId with
  | none => simp [hm] at hrow
  | some message =>
    simp only [hm, Bool.and_eq_true, decide_eq_true_eq, isIn] at hrow
    obtain ⟨⟨⟨⟨hproject, hhash⟩, -⟩, hslice⟩, hin⟩ := hrow
    exact ⟨message, rfl, hproject, hhash, hslice, hin⟩

theorem automaticPublishChecks_nodup (svc : Service) (db : Db F) (k : Nat) (candidate : Candidate F) :
    ((automaticPublishChecks svc db k candidate).map Prod.fst).Nodup := by
  simp only [automaticPublishChecks, List.map_cons, List.map_nil]
  decide

variable [Json.PyFloat F]

/-- On the automatic path every check of either list has passed, except the
base check that the other list replaces. -/
theorem publishChecks_automatic_passed {svc : Service} {db : Db F} {k : Nat}
    {candidate : Candidate F} (h : (publishChecks host svc db k candidate true).passed = true) :
    (automaticPublishChecks svc db k candidate).passed = true ∧
      verifyEvidence host db k candidate = true := by
  have hmem : ("evidence_valid", verifyEvidence host db k candidate) ∈
      baseChecks host db k candidate := by
    simp [baseChecks]
  have hevidence := baseCheck_passed host h hmem (by simp [automaticPublishChecks])
  simp only [publishChecks, if_true, Checks.passed_iff] at h ⊢
  exact ⟨fun c hc =>
    h c (Checks.mem_update_right _ (automaticPublishChecks_nodup svc db k candidate) hc), hevidence⟩

theorem gateOpen_of_passed {svc : Service} {db : Db F} {k : Nat} {candidate : Candidate F}
    (h : (publishChecks host svc db k candidate true).passed = true) :
    GateOpen host svc db k candidate ∧
      ∃ result, latestPolicy db k = some result ∧ result.decision = .approve := by
  obtain ⟨hauto, hevidence⟩ := publishChecks_automatic_passed host h
  simp only [automaticPublishChecks, Checks.passed, List.all_cons, List.all_nil, Bool.and_eq_true,
    decide_eq_true_eq, Bool.not_eq_true', and_true] at hauto
  obtain ⟨hlevel, hscope, hstatus, hflags, ⟨henabled, hautoPublish⟩, hstrategy, -, -, hconf,
    habstain, hdecision⟩ := hauto
  refine ⟨⟨hlevel, hscope, hstatus, evidenceHolds_of_verified host db k candidate hevidence, habstain, ?_, ?_,
    henabled, hautoPublish, hstrategy⟩, ?_⟩
  · cases hq : candidate.modelConfidence with
    | none => simp [hq, reaches] at hconf
    | some q => exact ⟨q, rfl, by simpa [hq, reaches] using hconf⟩
  · unfold autoPublishEnabled at hflags
    cases hf : db.flags candidate.projectId with
    | none => simp [hf] at hflags
    | some flags => exact ⟨flags, rfl, by simpa [hf] using hflags⟩
  · cases hl : latestPolicy db k with
    | none => simp [hl] at hdecision
    | some result =>
      simp only [hl, Bool.and_eq_true, decide_eq_true_eq] at hdecision
      exact ⟨result, rfl, hdecision.1⟩

/-- The step created a memory. -/
def CreatesMemory (db : Db F) (call : Call F) : Prop :=
  (step host db call).2.memories.nextId ≠ db.memories.nextId

/-- A memory is created only when the plan of `publish` says so. -/
theorem createsMemory_publish {svc : Service} {db : Db F} {k : Nat} {automatic : Bool}
    (h : CreatesMemory host db (.publish svc k automatic)) :
    ∃ candidate, db.candidates.get? k = some candidate ∧
      (publishChecks host svc db k candidate automatic).passed = true := by
  simp only [CreatesMemory, step, publish] at h
  cases hc : db.candidates.get? k with
  | none => simp [hc] at h
  | some candidate =>
    refine ⟨candidate, rfl, ?_⟩
    simp only [hc] at h
    cases hplan : publishPlan host svc db k candidate automatic with
    | raise e => exact absurd rfl (hplan ▸ h)
    | existing m => exact absurd rfl (hplan ▸ h)
    | refuse status checks => exact absurd rfl (hplan ▸ h)
    | create memory messageIds checks => exact (publishPlan_create host hplan).2.1

/-! ## Where an approval comes from -/

/-- **The last word is an approval.**  If the latest policy result of a
candidate is an approval, some call approved the candidate and no policy
result was recorded for it since. -/
theorem approval_origin {db : Db F} (hnone : db.policyResults.rows = []) (calls : List (Call F))
    {k : Nat} {result : PolicyResult}
    (hlatest : latestPolicy (exec (step host) db calls) k = some result)
    (happrove : result.decision = .approve) :
    ∃ earlier call later, calls = earlier ++ call :: later ∧
      Approves host (exec (step host) db earlier) k call ∧
      policyResultsOf (exec (step host) db (earlier ++ [call])) k =
        policyResultsOf (exec (step host) db earlier) k ++ [result] ∧
      policyResultsOf (exec (step host) db calls) k =
        policyResultsOf (exec (step host) db (earlier ++ [call])) k := by
  induction calls using List.reverseRecOn with
  | nil =>
    rw [exec_nil, latestPolicy_eq] at hlatest
    simp [policyResultsOf, Table.select, hnone] at hlatest
  | append_singleton calls call ih =>
    have hold : policyResultsOf (exec (step host) db (calls ++ [call])) k =
        policyResultsOf (exec (step host) db calls) k →
        ∃ earlier call' later, calls ++ [call] = earlier ++ call' :: later ∧
          Approves host (exec (step host) db earlier) k call' ∧
          policyResultsOf (exec (step host) db (earlier ++ [call'])) k =
            policyResultsOf (exec (step host) db earlier) k ++ [result] ∧
          policyResultsOf (exec (step host) db (calls ++ [call])) k =
            policyResultsOf (exec (step host) db (earlier ++ [call'])) k := by
      intro hsame
      rw [latestPolicy_eq, hsame, ← latestPolicy_eq] at hlatest
      obtain ⟨earlier, call', later, hcalls, happ, hone, hres⟩ := ih hlatest
      exact ⟨earlier, call', later ++ [call], by simp [hcalls], happ, hone, hsame.trans hres⟩
    have hstep := step_records host (exec (step host) db calls) call
    rw [← exec_snoc] at hstep
    rcases hstep with hkept | ⟨row, hins, hrow⟩
    · exact hold (policyResultsOf_congr hkept k)
    · by_cases hk : row.candidateId = k
      · have hres := policyResultsOf_insert hins k
        rw [if_pos hk] at hres
        rw [latestPolicy_eq, hres, List.getLast?_append_cons] at hlatest
        cases hlatest
        exact ⟨calls, call, [], rfl, hk ▸ hrow happrove, hres, rfl⟩
      · have hres := policyResultsOf_insert hins k
        rw [if_neg hk, List.append_nil] at hres
        exact hold hres

/-- **The gate.**  Start without policy results and make any calls.  If an
automatic publish of candidate `k` then creates a memory, the gate is open at
that moment, and the last policy result recorded for `k` is an approval, that of
a call that approved it; none was recorded for it since. -/
theorem automatic_publish_gate (db : Db F) (hnone : db.policyResults.rows = [])
    (calls : List (Call F)) (svc : Service) (k : Nat)
    (hcreates : CreatesMemory host (exec (step host) db calls) (.publish svc k true)) :
    ∃ candidate, (exec (step host) db calls).candidates.get? k = some candidate ∧
      GateOpen host svc (exec (step host) db calls) k candidate ∧
      ∃ earlier call later result, calls = earlier ++ call :: later ∧
        Approves host (exec (step host) db earlier) k call ∧
        result.decision = .approve ∧
        policyResultsOf (exec (step host) db (earlier ++ [call])) k =
          policyResultsOf (exec (step host) db earlier) k ++ [result] ∧
        policyResultsOf (exec (step host) db calls) k =
          policyResultsOf (exec (step host) db (earlier ++ [call])) k := by
  obtain ⟨candidate, hrow, hpassed⟩ := createsMemory_publish host hcreates
  obtain ⟨hgate, result, hlatest, happrove⟩ := gateOpen_of_passed host hpassed
  obtain ⟨earlier, call, later, hcalls, happ, hone, hres⟩ :=
    approval_origin host hnone calls hlatest happrove
  exact ⟨candidate, hrow, hgate, earlier, call, later, result, hcalls, happ, happrove, hone, hres⟩

/-! ## A run through the gate -/

/-- Python's functions on the values below: texts and integers only. -/
def sampleHost : Host Empty where
  str
    | .str s => s
    | _ => ""
  int
    | .int n => some n
    | _ => none
  sha256 s :=
    if s = "Use tabs" then "0e9ce8352f73b037846c2796a4367419e0237e71a61b1fc506d29624bcd71fc6" else ""

/-- A project with every switch on and one message. -/
def sampleDb : Db Empty where
  projects := Table.empty.insert ⟨"demo"⟩
  messages := Table.empty.insert ⟨0, "Use tabs", sampleHost.sha256 "Use tabs"⟩
  candidates := Table.empty
  evidence := Table.empty
  policyResults := Table.empty
  memories := Table.empty
  memorySources := Table.empty
  events := Table.empty
  flags _ := some ⟨true, true⟩
  policies _ := { enabled := true, autoPublishEnabled := true, strategy := "auto_publish" }

/-- A candidate on the message. -/
def sampleCandidate : NewCandidate Empty where
  sourceMessageId := 0
  taskType := "message_ingestion"
  level := "L1"
  scope := "project"
  memoryType := "conversation"
  title := "user message"
  content := .obj [("text", .str "Use tabs")]
  evidence := [(0, 0, 8)]

/-- The model's answer `decision` with a confidence of 0.9. -/
def sampleDecision (decision : String) : CandidateDecision Empty where
  decision := decision
  confidence := some (.finite (9 / 10))
  reasonCodes := []
  model := some "codex-cli:default"
  promptVersion := some "v1"
  abstain := false
  metadata := .obj [("level", .str "L1"), ("scope", .str "project"),
    ("evidence_ranges", .arr [.obj [("message_id", .int 0), ("start_char", .int 0),
      ("end_char", .int 8), ("quote", .str "Use tabs")]])]

def decidedRun : List (Call Empty) :=
  [.createCandidate 0 sampleCandidate, .beginModelDecision 0,
    .applyModelDecision {} 0 (sampleDecision "publish")]

theorem decidedRun_creates :
    CreatesMemory sampleHost (exec (step sampleHost) sampleDb decidedRun) (.publish {} 0 true) := by
  unfold CreatesMemory
  decide +kernel

/-- After a passed decision the worker publishes through the open gate. -/
theorem decidedRun_gate :
    ∃ candidate, (exec (step sampleHost) sampleDb decidedRun).candidates.get? 0 = some candidate ∧
      GateOpen sampleHost {} (exec (step sampleHost) sampleDb decidedRun) 0 candidate := by
  obtain ⟨candidate, hrow, hgate, -⟩ := automatic_publish_gate sampleHost sampleDb rfl decidedRun {} 0
    decidedRun_creates
  exact ⟨candidate, hrow, hgate⟩

end CodexMemory.Candidates
