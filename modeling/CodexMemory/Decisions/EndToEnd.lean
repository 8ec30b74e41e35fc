import CodexMemory.Candidates.Rows
import CodexMemory.Decisions.Execute
import CodexMemory.Decisions.HandOver
import CodexMemory.Decisions.Quotation

/-!
# One attempt at a decision, end to end

What `execute` leaves behind for an open candidate of a project whose engine is on:
its run, the decision of the run and the candidate.

* `callModel_cases`: what the model's answer does to a fresh run;
* `execute_end_to_end_iff`: the run is finished, a good output is carried out and a raise
  leaves the candidate as it was, exactly where the update of the run can be made;
* `late_attempt_left_running`: an attempt whose run stays `running`.
-/

namespace CodexMemory.Decisions

open Candidates (CandidateDecision Candidate Decision Host ModelDecision)
open DecisionJobs (Raised candidateId? decisionEngineEnabled row?)
open Worker (JobClaim)

variable {F : Type}

/-! ## What the answer comes to -/

/-- The decision and the output that `record_decision` is handed, or the error before it. -/
def delivered (py : Pydantic F) (answer : Except Raised (AdapterResult F)) :
    Except Raised (Decision F × List (String × Json F)) :=
  match answer with
  | .error e => .error e
  | .ok result =>
    match normalizeResult py result with
    | .error e => .error (Raised.ofError e)
    | .ok decision =>
      match decision.metadata.get? "model_decision" with
      | some (.obj fields) => .ok (decision, fields)
      | _ => .error (.candidateDecisionError "invalid_model_output" "adapter 未提供严格 ModelDecisionOutput" true)

/-- What a normalized decision keeps of the checks. -/
theorem normalize_checked {raw : CandidateDecision F} {d : Decision F}
    (h : Candidates.normalizeCandidateDecision raw = .ok d) :
    (∀ code ∈ d.reasonCodes, strip code ≠ "") ∧ (∀ q, d.confidence = some q → 0 ≤ q ∧ q ≤ 1) ∧
      ¬ (d.decision = .publish ∧ d.confidence = none) := by
  unfold Candidates.normalizeCandidateDecision at h
  split at h
  · cases h
  · next hcodes =>
    split at h
    · cases h
    · next action haction =>
      simp only at h
      split at h
      · cases h
      · next confidence hconfidence =>
        split at h
        · cases h
        · next hpublish =>
          obtain rfl := Except.ok.inj h
          refine ⟨by simpa using hcodes, fun q hq => ?_, hpublish⟩
          obtain rfl : confidence = some q := hq
          split at hconfidence
          · cases hconfidence
          · cases hconfidence
          · split at hconfidence
            · next hbounds =>
              obtain rfl := Option.some.inj (Except.ok.inj hconfidence)
              exact hbounds
            · cases hconfidence

/-- **Normalizing twice is normalizing once.** -/
theorem normalize_normalized {raw : CandidateDecision F} {d : Decision F}
    (h : Candidates.normalizeCandidateDecision raw = .ok d) :
    Candidates.normalizeCandidateDecision (normalized d) = .ok d := by
  obtain ⟨hcodes, hconfidence, hpublish⟩ := normalize_checked h
  have haction : ModelDecision.ofText? (lower (strip (actionText d.decision))) = some d.decision := by
    cases d.decision <;> decide
  obtain ⟨decision, confidence, reasonCodes, model, promptVersion, abstain, metadata⟩ := d
  simp only at hcodes hconfidence hpublish haction
  cases confidence with
  | none =>
    have hother : decision ≠ .publish := fun heq => hpublish ⟨heq, rfl⟩
    simpa [Candidates.normalizeCandidateDecision, normalized, haction, hother] using hcodes
  | some q => simpa [Candidates.normalizeCandidateDecision, normalized, haction, hconfidence q rfl] using hcodes

theorem normalizeResult_normalized {py : Pydantic F} {result : AdapterResult F} {d : Decision F}
    (h : normalizeResult py result = .ok d) : Candidates.normalizeCandidateDecision (normalized d) = .ok d := by
  cases result with
  | decision raw =>
    rw [normalizeResult] at h
    exact normalize_normalized h
  | mapping value =>
    rw [normalizeResult] at h
    cases hraw : decisionOfMapping py value with
    | error e =>
      rw [hraw] at h
      cases h
    | ok raw =>
      rw [hraw] at h
      exact normalize_normalized h
  | other => cases h

theorem delivered_ok {py : Pydantic F} {answer : Except Raised (AdapterResult F)} {d : Decision F}
    {fields : List (String × Json F)} (h : delivered py answer = .ok (d, fields)) :
    ∃ result, answer = .ok result ∧ normalizeResult py result = .ok d ∧
      d.metadata.get? "model_decision" = some (.obj fields) := by
  unfold delivered at h
  split at h
  · cases h
  · next result =>
    split at h
    · cases h
    · next decision hdecision =>
      split at h
      · next fields' hfields =>
        simp only [Except.ok.injEq, Prod.mk.injEq] at h
        obtain ⟨rfl, rfl⟩ := h
        exact ⟨result, rfl, hdecision, hfields⟩
      · cases h

theorem delivered_normalized {py : Pydantic F} {answer : Except Raised (AdapterResult F)} {d : Decision F}
    {fields : List (String × Json F)} (h : delivered py answer = .ok (d, fields)) :
    Candidates.normalizeCandidateDecision (normalized d) = .ok d := by
  obtain ⟨result, -, hresult, -⟩ := delivered_ok h
  exact normalizeResult_normalized hresult

/-! ## The update of the run -/

section Runs

variable (py : Pydantic F)

/-- The code of the error fits the record of the run. -/
def CodeFits (code : String) : Prop := 1 ≤ (py.trim code).length ∧ (py.trim code).length ≤ 64

/-- The status that an error leaves the run in. -/
def errorStatus (retryable : Bool) : RunStatus := if retryable then .retryWait else .failed

theorem errorStatus_ne_running (retryable : Bool) : errorStatus retryable ≠ .running := by
  cases retryable <;> decide

theorem errorClassOf_valid (code : String) : (ErrorClass.ofText? (errorClassOf code)).isSome := by
  unfold errorClassOf
  split
  · rfl
  · split <;> rfl

theorem length_truncated_le (length : Nat) (text : String) : (truncated length text).length ≤ length := by
  rw [truncated, String.length_ofList, List.length_take]
  exact Nat.min_le_left _ _

/-- **The record of an error is valid exactly for an early attempt and a fitting code.** -/
theorem errorFinish_validate (htrim : ∀ text, (py.trim text).length ≤ text.length) (claim : JobClaim (Json F))
    (code message : String) (retryable : Bool) :
    (claim.attemptNo ≤ 20 ∧ CodeFits py code → ∃ update, (errorFinish claim code message retryable).validate py =
        some update ∧ update.status = errorStatus retryable) ∧
      (¬ (claim.attemptNo ≤ 20 ∧ CodeFits py code) →
        (errorFinish claim code message retryable).validate py = none) := by
  obtain ⟨cls, hcls⟩ := Option.isSome_iff_exists.mp (errorClassOf_valid code)
  have hmessage : (py.trim (truncated 4000 message)).length ≤ 4000 :=
    (htrim _).trans (length_truncated_le 4000 message)
  have hstatus : RunStatus.ofText? (if retryable then "retry_wait" else "failed") = some (errorStatus retryable) := by
    cases retryable <;> rfl
  have hfinal : (errorStatus retryable ≠ .pending ∧ errorStatus retryable ≠ .running) ∧
      (errorStatus retryable = .succeeded → some cls = none) := by
    cases retryable <;> simp [errorStatus]
  unfold RunFinish.validate
  simp only [errorFinish, hstatus, Option.bind_eq_bind, Option.bind_some, Option.getD_some, natural, optional, hcls,
    Option.map_some, hmessage, if_true]
  by_cases hcode : CodeFits py code
  · have hcode' := hcode
    rw [CodeFits] at hcode'
    simp only [strictText, hcode', and_self, dite_true, Option.map_some, Option.bind_some]
    by_cases hattempt : claim.attemptNo ≤ 20
    · simp only [hattempt, if_true, dif_pos hfinal, hcode, and_self, true_implies, not_true_eq_false, false_implies,
        and_true]
      exact ⟨_, rfl, rfl⟩
    · simp [hattempt]
  · have hcode' := hcode
    rw [CodeFits] at hcode'
    simp [strictText, hcode', hcode]

theorem succeededFinish_validate (claim : JobClaim (Json F)) :
    (claim.attemptNo ≤ 20 → ∃ update, RunFinish.validate py
        { status := "succeeded", retryCount := some (claim.attemptNo : Int) } = some update ∧
        update.status = .succeeded) ∧
      (¬ claim.attemptNo ≤ 20 → RunFinish.validate py
        { status := "succeeded", retryCount := some (claim.attemptNo : Int) } = none) := by
  unfold RunFinish.validate
  simp only [RunStatus.ofText?, Option.bind_eq_bind, Option.bind_some, Option.getD_some, natural, optional]
  by_cases hattempt : claim.attemptNo ≤ 20
  · simp [hattempt]
  · simp [hattempt]

/-- Nothing but the row of this run differs, which has the status. -/
structure LeavesRun (s s' : Store F) (runId : Nat) (status : RunStatus) : Prop where
  base : s'.base = s.base
  decisions : s'.decisions = s.decisions
  run : statusOf s' runId = some status
  others : ∀ i, i ≠ runId → s'.runs.get? i = s.runs.get? i

theorem leavesRun_refl {s : Store F} {runId : Nat} {run : Run} (h : s.runs.get? runId = some run) :
    LeavesRun s s runId run.status where
  base := rfl
  decisions := rfl
  run := by rw [statusOf, h]; rfl
  others _ _ := rfl

theorem leavesRun_setRun {s : Store F} {runId : Nat} {run : Run} (h : s.runs.get? runId = some run) (row : Run) :
    LeavesRun s (s.setRun runId row) runId row.status where
  base := rfl
  decisions := rfl
  run := by rw [statusOf_setRun h, if_pos rfl]
  others i hi := Table.get?_modify_ne _ _ hi

theorem finishRun_of_valid {s : Store F} {runId : Nat} {run : Run} (hrun : s.runs.get? runId = some run)
    {update : RunFinish} {valid : DecisionRunFinish} (hvalid : update.validate py = some valid)
    (hkept : run.status.terminal = true → run.status = valid.status) :
    (finishRun py s runId update).1 = .ok runId ∧
      LeavesRun s (finishRun py s runId update).2 runId valid.status := by
  have hguard : ¬ (run.status.terminal = true ∧ run.status ≠ valid.status) := fun h => h.2 (hkept h.1)
  simp only [finishRun, hvalid, hrun, if_neg hguard, true_and]
  exact leavesRun_setRun hrun _

theorem finishRun_of_invalid (s : Store F) (runId : Nat) {update : RunFinish} (h : update.validate py = none) :
    finishRun py s runId update = (.error (.value "决策运行结果无效"), s) := by
  simp only [finishRun, h]

/-- **What an error does to the run**: the run keeps its status where the record of the
error is not valid, or where the run is final already. -/
theorem finishDecisionRunForError_leaves (htrim : ∀ text, (py.trim text).length ≤ text.length) {s : Store F}
    {runId : Nat} {run : Run} (hrun : s.runs.get? runId = some run) (claim : JobClaim (Json F)) (e : Raised) :
    (run.status = .running → claim.attemptNo ≤ 20 ∧ CodeFits py (wrapped e).1 →
        LeavesRun s (finishDecisionRunForError py s runId claim e) runId (errorStatus (wrapped e).2.2)) ∧
      (run.status = .running → ¬ (claim.attemptNo ≤ 20 ∧ CodeFits py (wrapped e).1) →
        LeavesRun s (finishDecisionRunForError py s runId claim e) runId .running) ∧
      (run.status.terminal = true → LeavesRun s (finishDecisionRunForError py s runId claim e) runId run.status) := by
  obtain ⟨hfits, hrefused⟩ := errorFinish_validate py htrim claim (wrapped e).1 (wrapped e).2.1 (wrapped e).2.2
  have hsame (h : ¬ (claim.attemptNo ≤ 20 ∧ CodeFits py (wrapped e).1)) :
      LeavesRun s (finishDecisionRunForError py s runId claim e) runId run.status := by
    rw [finishDecisionRunForError, finishRun_of_invalid py s runId (hrefused h)]
    exact leavesRun_refl hrun
  refine ⟨fun hrunning h => ?_, fun hrunning h => ?_, fun hfinal => ?_⟩
  · obtain ⟨update, hupdate, hstatus⟩ := hfits h
    rw [← hstatus]
    refine (finishRun_of_valid py hrun hupdate fun hterminal => ?_).2
    rw [hrunning] at hterminal
    cases hterminal
  · rw [← hrunning]
    exact hsame h
  · rcases finishRun_cases py s runId (errorFinish claim (wrapped e).1 (wrapped e).2.1 (wrapped e).2.2) with
      hs | ⟨run', row, hrun', hkept, hs⟩
    · rw [finishDecisionRunForError, hs]
      exact leavesRun_refl hrun
    · rw [hrun] at hrun'
      obtain rfl := Option.some.inj hrun'
      rw [finishDecisionRunForError, hs, ← hkept hfinal]
      exact leavesRun_setRun hrun row

end Runs

/-! ## The answer of the model -/

section Answers

variable [Json.PyFloat F] (py : Pydantic F) (host : Host F)

/-- The output is valid, and within the policy and the evidence constraints of the project. -/
def Accepts (s : Store F) (projectId : Nat) (fields : List (String × Json F)) : Prop :=
  ∃ output policy, modelDecisionOutput py (.obj fields) = some output ∧ loadPolicy py s projectId = some policy ∧
    databaseErrors host s projectId output policy = []

/-- A run that has just been started, for a candidate of its project. -/
structure Fresh (s : Store F) (runId k projectId : Nat) (run : Run) : Prop where
  stored : s.runs.get? runId = some run
  project : run.projectId = projectId
  running : run.status = .running
  undecided : decisionOf s runId = none
  candidate : ∃ row, s.base.candidates.get? k = some row ∧ row.projectId = projectId

/-- The first decision of the run is recorded, which succeeds. -/
structure LeavesDecision (s s' : Store F) (runId : Nat) : Prop where
  base : s'.base = s.base
  decisions : ∃ decision, s'.decisions = s.decisions.insert decision ∧ decision.decisionRunId = runId
  run : statusOf s' runId = some .succeeded
  others : ∀ i, i ≠ runId → s'.runs.get? i = s.runs.get? i

/-- **What `record_decision` makes of an output for a fresh run.** -/
theorem recordDecision_fresh {s : Store F} {runId k projectId : Nat} {run : Run} (h : Fresh s runId k projectId run)
    (fields : List (String × Json F)) :
    (Accepts py host s projectId fields ∧
        (∃ d, (recordDecision py host s runId (.mapping (.obj fields)) (some k)).1 = .ok d) ∧
        LeavesDecision s (recordDecision py host s runId (.mapping (.obj fields)) (some k)).2 runId) ∨
      (¬ Accepts py host s projectId fields ∧
        (∃ code message, (recordDecision py host s runId (.mapping (.obj fields)) (some k)).1 =
          .error (.validation code message)) ∧
        LeavesRun s (recordDecision py host s runId (.mapping (.obj fields)) (some k)).2 runId .failed) := by
  obtain ⟨hrun, rfl, hrunning, hundecided, row, hrow, hproject⟩ := h
  have hcandidate : candidateErrors s run.projectId (some k) = [] := by simp [candidateErrors, hrow, hproject]
  rw [recordDecision, validateModelOutput, Accepts]
  cases hvalid : modelDecisionOutput py (.obj fields) with
  | none =>
    refine Or.inr ⟨by simp, ?_⟩
    simp only [rejectInvalidOutput, hrun]
    exact ⟨⟨_, _, rfl⟩, leavesRun_setRun hrun _⟩
  | some output =>
    simp only [hrun, hrunning, ne_eq, not_true_eq_false, false_and, if_false, hundecided, recordFirst, hcandidate,
      List.append_nil]
    cases hpolicy : loadPolicy py s run.projectId with
    | none => exact Or.inr ⟨by simp, ⟨_, _, rfl⟩, leavesRun_setRun hrun _⟩
    | some policy =>
      by_cases herrors : databaseErrors host s run.projectId output policy = []
      · simp only [herrors, not_true_eq_false, if_false]
        refine Or.inl ⟨⟨output, policy, rfl, rfl, herrors⟩, ⟨_, rfl⟩, rfl, ⟨_, rfl, rfl⟩, ?_, fun i hi => ?_⟩
        · exact (leavesRun_setRun hrun { run with status := .succeeded }).run
        · exact Table.get?_modify_ne _ _ hi
      · simp only [herrors, not_false_eq_true, if_true]
        exact Or.inr ⟨by simp [herrors], ⟨_, _, rfl⟩, leavesRun_setRun hrun _⟩

theorem callModel_undelivered (s : Store F) (runId : Nat) (claim : JobClaim (Json F)) (k : Nat)
    {answer : Except Raised (AdapterResult F)} {e : Raised} (h : delivered py answer = .error e) :
    callModel py host s runId claim k answer = (.error e, s) := by
  unfold delivered at h
  unfold callModel
  cases answer with
  | error e' =>
    obtain rfl := Except.error.inj h
    rfl
  | ok result =>
    simp only at h ⊢
    cases hresult : normalizeResult py result with
    | error e' =>
      rw [hresult] at h
      obtain rfl := Except.error.inj h
      rfl
    | ok decision =>
      rw [hresult] at h
      simp only at h ⊢
      split at h
      · cases h
      · next hother =>
        obtain rfl := Except.error.inj h
        have hcontract : recordDecisionContract py host s runId decision k = (.error (.candidateDecisionError
            "invalid_model_output" "adapter 未提供严格 ModelDecisionOutput" true), s) := by
          unfold recordDecisionContract
          split
          · next fields hfields => exact absurd hfields (hother fields)
          · rfl
        rw [hcontract]

/-- What the answer may do to a fresh run. -/
inductive ModelOutcome (s : Store F) (runId projectId : Nat) (claim : JobClaim (Json F))
    (answer : Except Raised (AdapterResult F)) : Except Raised (Decision F) → Store F → Prop
  | undelivered {e : Raised} (h : delivered py answer = .error e) :
    ModelOutcome s runId projectId claim answer (.error e) s
  | rejected {d : Decision F} {fields : List (String × Json F)} {e : Raised} {s' : Store F}
    (h : delivered py answer = .ok (d, fields)) (hrejected : ¬ Accepts py host s projectId fields)
    (hleaves : LeavesRun s s' runId .failed) : ModelOutcome s runId projectId claim answer (.error e) s'
  | unfinished {d : Decision F} {fields : List (String × Json F)} {e : Raised} {s' : Store F}
    (h : delivered py answer = .ok (d, fields)) (haccepted : Accepts py host s projectId fields)
    (hlate : ¬ claim.attemptNo ≤ 20) (hleaves : LeavesDecision s s' runId) :
    ModelOutcome s runId projectId claim answer (.error e) s'
  | finished {d : Decision F} {fields : List (String × Json F)} {s' : Store F}
    (h : delivered py answer = .ok (d, fields)) (haccepted : Accepts py host s projectId fields)
    (hearly : claim.attemptNo ≤ 20) (hleaves : LeavesDecision s s' runId) :
    ModelOutcome s runId projectId claim answer (.ok d) s'

/-- **What the model's answer does to a fresh run.** -/
theorem callModel_cases {s : Store F} {runId k projectId : Nat} {run : Run} (hfresh : Fresh s runId k projectId run)
    (claim : JobClaim (Json F)) (answer : Except Raised (AdapterResult F)) :
    ModelOutcome py host s runId projectId claim answer (callModel py host s runId claim k answer).1
      (callModel py host s runId claim k answer).2 := by
  cases hdelivered : delivered py answer with
  | error e =>
    rw [callModel_undelivered py host s runId claim k hdelivered]
    exact .undelivered hdelivered
  | ok out =>
    obtain ⟨d, fields⟩ := out
    obtain ⟨result, rfl, hresult, hfields⟩ := delivered_ok hdelivered
    rcases recordDecision_fresh py host hfresh fields with
      ⟨haccepts, ⟨decisionId, hok⟩, hleaves⟩ | ⟨hrejects, ⟨code, message, herror⟩, hleaves⟩
    · -- the decision is recorded; the run is finished by an early attempt only
      obtain ⟨s₁, hs₁⟩ : ∃ s₁, recordDecision py host s runId (.mapping (.obj fields)) (some k) =
        (.ok decisionId, s₁) := ⟨_, Prod.ext hok rfl⟩
      rw [hs₁] at hleaves
      have hcontract : recordDecisionContract py host s runId d k = (.ok (), s₁) := by
        simp only [recordDecisionContract, hfields, hs₁]
      obtain ⟨row, hrow, hstatus⟩ : ∃ row, s₁.runs.get? runId = some row ∧ row.status = .succeeded := by
        simpa [statusOf] using hleaves.run
      obtain ⟨hearly, hlate⟩ := succeededFinish_validate py claim
      simp only [callModel, hresult, hcontract]
      by_cases hattempt : claim.attemptNo ≤ 20
      · obtain ⟨update, hupdate, hsucceeded⟩ := hearly hattempt
        obtain ⟨hfinish, hkept⟩ := finishRun_of_valid py hrow hupdate fun _ => hstatus.trans hsucceeded.symm
        obtain ⟨s₂, hs₂⟩ : ∃ s₂, finishRun py s₁ runId
          { status := "succeeded", retryCount := some (claim.attemptNo : Int) } = (.ok runId, s₂) :=
            ⟨_, Prod.ext hfinish rfl⟩
        rw [hs₂] at hkept
        simp only [finishDecisionRun, hs₂]
        refine .finished hdelivered haccepts hattempt ⟨hkept.base.trans hleaves.base, ?_, ?_, fun i hi => ?_⟩
        · rw [hkept.decisions]
          exact hleaves.decisions
        · rw [← hsucceeded]
          exact hkept.run
        · exact (hkept.others i hi).trans (hleaves.others i hi)
      · have hrefused : finishDecisionRun py s₁ runId claim = (.error (.candidateDecisionError
            "decision_run_finish_failed" "无法完成决策运行审计记录" true), s₁) := by
          rw [finishDecisionRun, finishRun_of_invalid py s₁ runId (hlate hattempt)]
        simp only [hrefused]
        exact .unfinished hdelivered haccepts hattempt hleaves
    · obtain ⟨s₁, hs₁⟩ : ∃ s₁, recordDecision py host s runId (.mapping (.obj fields)) (some k) =
        (.error (.validation code message), s₁) := ⟨_, Prod.ext herror rfl⟩
      rw [hs₁] at hleaves
      have hcontract : recordDecisionContract py host s runId d k =
          (.error (.candidateDecisionError code message false), s₁) := by
        simp only [recordDecisionContract, hfields, hs₁]
      simp only [callModel, hresult, hcontract]
      exact .rejected hdelivered hrejects hleaves

end Answers

/-! ## One attempt -/

section Attempt

variable [Json.PyFloat F] (py : Pydantic F) (host : Host F) (worker : DecisionWorker)

/-- A candidate that a decision is open for, in a project whose engine is on.  The key of
the project is one that the candidate's own event carries. -/
structure Open (s : Store F) (claim : JobClaim (Json F)) (k : Nat) (row : Candidate F) (project : Candidates.Project) :
    Prop where
  claimed : candidateId? claim.payload = some (k : Int)
  stored : s.base.candidates.get? k = some row
  status : row.status = .generated ∨ row.status = .validating ∨ row.status = .needsReview
  engine : decisionEngineEnabled s.base row = true
  owner : s.base.projects.get? row.projectId = some project
  key : (normalisePart project.projectKey).isSome
  consistent : Consistent s

/-- The store once the decision of the candidate has begun. -/
def opened (s : Store F) (k : Nat) (row : Candidate F) : Store F :=
  { s with base := Candidates.setCandidate s.db k { row with status := .validating } }

/-- And once its run has been started. -/
def started (s : Store F) (k : Nat) (row : Candidate F) (run : Run) : Store F :=
  { opened s k row with runs := s.runs.insert run }

/-- The run of the attempt can be started. -/
def Starts (s : Store F) (claim : JobClaim (Json F)) (k : Nat) : Prop :=
  ∃ snapshot runId, candidateSnapshot s.base k = .ok snapshot ∧
    (startDecisionRun py host worker s snapshot claim).1 = .ok runId

omit [Json.PyFloat F] in
theorem row?_of_get {db : Candidates.Db F} {k : Nat} {row : Candidate F} (h : db.candidates.get? k = some row) :
    row? db (k : Int) = .ok row := by
  have hnat : ¬ (k : Int) < 0 := by omega
  simp only [row?, hnat, if_false, Int.toNat_natCast, h]

omit [Json.PyFloat F] in
theorem opened_row {s : Store F} {k : Nat} {row : Candidate F} (h : s.base.candidates.get? k = some row) :
    (opened s k row).base.candidates.get? k = some { row with status := .validating } := by
  simp [opened, Candidates.setCandidate, Store.db, h]

theorem candidateSnapshot_opened {s : Store F} {k : Nat} {row : Candidate F}
    (h : s.base.candidates.get? k = some row) :
    candidateSnapshot (opened s k row).base k = candidateSnapshot s.base k := by
  rw [candidateSnapshot, candidateSnapshot, row?_of_get h, row?_of_get (opened_row h)]
  rfl

theorem candidateSnapshot_ids {db : Candidates.Db F} {k : Nat} {row : Candidate F}
    {snapshot : CandidateSnapshot F} (hrow : db.candidates.get? k = some row)
    (h : candidateSnapshot db k = .ok snapshot) : snapshot.candidateId = k ∧ snapshot.projectId = row.projectId := by
  rw [candidateSnapshot, row?_of_get hrow] at h
  simp only at h
  split at h
  · cases h
  · split at h
    · cases h
    · obtain rfl := Except.ok.inj h
      exact ⟨Int.toNat_natCast k, rfl⟩

/-- `execute` for an open candidate goes on with the snapshot. -/
theorem execute_open {s : Store F} {claim : JobClaim (Json F)} {k : Nat} {row : Candidate F}
    {project : Candidates.Project} (h : Open s claim k row project) (answer : Except Raised (AdapterResult F)) :
    execute py host worker s claim answer =
      match candidateSnapshot (opened s k row).base k with
      | .error e => (.error e, opened s k row)
      | .ok snapshot => decideCandidate py host worker (opened s k row) claim snapshot answer := by
  have hbegin : (Candidates.beginModelDecision s.db (k : Int).toNat).2 =
      Candidates.setCandidate s.db k { row with status := .validating } := by
    have hstored : s.db.candidates.get? k = some row := h.stored
    rw [Int.toNat_natCast, Candidates.beginModelDecision, hstored]
    rcases h.status with hs | hs | hs <;> simp only [hs]
  have hengine : decisionEngineEnabled (Candidates.setCandidate s.db k { row with status := .validating }) row = true :=
    h.engine
  rw [execute, h.claimed]
  simp only [row?_of_get h.stored, hbegin, hengine, Bool.not_true, Bool.false_eq_true, if_false]
  rcases h.status with hs | hs | hs <;> simp only [hs] <;> rfl

omit [Json.PyFloat F] in
/-- `start_run` raises and writes nothing, or adds a running run of the project. -/
theorem startRun_result (s : Store F) (projectId : Nat) (request : RunRequest) :
    (∃ e, startRun py s projectId request = (.error e, s)) ∨
      ∃ run, run.projectId = projectId ∧ run.status = .running ∧
        startRun py s projectId request = (.ok s.runs.nextId, { s with runs := s.runs.insert run }) := by
  unfold startRun
  cases request.validate py with
  | none => exact Or.inl ⟨_, rfl⟩
  | some valid =>
    simp only
    split
    · exact Or.inl ⟨_, rfl⟩
    · split
      · exact Or.inl ⟨_, rfl⟩
      · split
        · exact Or.inl ⟨_, rfl⟩
        · exact Or.inr ⟨_, rfl, rfl, rfl⟩

theorem startDecisionRun_cases (s : Store F) (snapshot : CandidateSnapshot F) (claim : JobClaim (Json F)) :
    (∃ e, startDecisionRun py host worker s snapshot claim = (.error e, s)) ∨
      ∃ run, run.projectId = snapshot.projectId ∧ run.status = .running ∧
        startDecisionRun py host worker s snapshot claim =
          (.ok s.runs.nextId, { s with runs := s.runs.insert run }) := by
  unfold startDecisionRun
  split
  · exact Or.inl ⟨_, rfl⟩
  · cases runRequest host worker snapshot claim with
    | none => exact Or.inl ⟨_, rfl⟩
    | some request =>
      rcases startRun_result py s snapshot.projectId request with ⟨e, he⟩ | ⟨run, hproject, hrunning, hok⟩
      · exact Or.inl ⟨startFailed, by simp only [he]⟩
      · exact Or.inr ⟨run, hproject, hrunning, by simp only [hok]⟩

omit [Json.PyFloat F] in
theorem startRun_opened (s : Store F) (k : Nat) (row : Candidate F) (projectId : Nat) (request : RunRequest) :
    (startRun py (opened s k row) projectId request).1 = (startRun py s projectId request).1 := by
  have hprojects : (opened s k row).base.projects = s.base.projects := rfl
  unfold startRun
  cases request.validate py with
  | none => rfl
  | some valid =>
    have hjobs : (opened s k row).jobs = s.jobs := rfl
    have hevents : (opened s k row).outboxEvents = s.outboxEvents := rfl
    simp only [hprojects, hjobs, hevents]
    split_ifs <;> rfl

theorem startDecisionRun_fst (s : Store F) (snapshot : CandidateSnapshot F) (claim : JobClaim (Json F)) :
    (startDecisionRun py host worker s snapshot claim).1 =
      if !worker.hasRuns then
        .error (.candidateDecisionError "decision_contract_unavailable" "V1.6 决策持久化表不可用" true)
      else
        match (runRequest host worker snapshot claim).map fun request =>
          (startRun py s snapshot.projectId request).1 with
        | some (.ok runId) => .ok runId
        | _ => .error startFailed := by
  unfold startDecisionRun
  split
  · rfl
  · cases runRequest host worker snapshot claim with
    | none => rfl
    | some request =>
      simp only [Option.map_some]
      rcases startRun_result py s snapshot.projectId request with ⟨e, he⟩ | ⟨run, -, -, hok⟩
      · rw [he]
      · rw [hok]

/-- The run is started whether the decision has begun or not. -/
theorem startDecisionRun_opened (s : Store F) (k : Nat) (row : Candidate F) (snapshot : CandidateSnapshot F)
    (claim : JobClaim (Json F)) :
    (startDecisionRun py host worker (opened s k row) snapshot claim).1 =
      (startDecisionRun py host worker s snapshot claim).1 := by
  simp only [startDecisionRun_fst, startRun_opened]

theorem accepts_congr {s s' : Store F} (hpolicies : s'.policyRows = s.policyRows)
    (hmessages : s'.base.messages = s.base.messages) (projectId : Nat) (fields : List (String × Json F)) :
    Accepts py host s' projectId fields ↔ Accepts py host s projectId fields := by
  have herrors : evidenceErrors host s' projectId = evidenceErrors host s projectId := by
    funext item
    simp only [evidenceErrors, hmessages]
  simp only [Accepts, loadPolicy, databaseErrors, hpolicies, herrors]

/-! ## The decision is applied -/

theorem applyOpen_ok (svc : Candidates.Service) (db : Candidates.Db F) {project : Candidates.Project}
    (hkey : (normalisePart project.projectKey).isSome) (k : Nat) (c : Candidate F) (d : Decision F) :
    ∃ out, Candidates.applyOpen host svc db project k c d = .ok out := by
  unfold Candidates.applyOpen
  split
  · exact ⟨_, rfl⟩
  · exact ⟨_, rfl⟩
  · simp only
    split
    · exact ⟨_, rfl⟩
    · split
      · exact ⟨_, rfl⟩
      · split
        · next e hqueue =>
          obtain ⟨out, hout⟩ := Candidates.queueEvent_ok (Candidates.conclude db k
            (Candidates.decidedRow c d .approved) .accepted .approve []
              (Candidates.automaticChecks host svc db k c d)).2 hkey c.projectId .accepted k
          rw [hout] at hqueue
          cases hqueue
        · exact ⟨_, rfl⟩

/-- A decision that is applied while its candidate is validating changes the status,
unless the candidate has a memory. -/
theorem applyDecision_validating {s : Store F} {k : Nat} {c : Candidate F} {project : Candidates.Project}
    {d : Decision F} (hrow : s.base.candidates.get? k = some c) (hstatus : c.status = .validating)
    (howner : s.base.projects.get? c.projectId = some project) (hkey : (normalisePart project.projectKey).isSome)
    (hnormalized : Candidates.normalizeCandidateDecision (normalized d) = .ok d) :
    ∃ handled s', applyDecision host worker s k d = (.ok handled, s') ∧ s'.runs = s.runs ∧
      s'.decisions = s.decisions ∧ ∃ row, s'.base.candidates.get? k = some row ∧
        (row.status = .validating ↔ c.publishedMemoryId ≠ none) := by
  have hdb : s.db.candidates.get? k = some c := hrow
  have hproject : s.db.projects.get? c.projectId = some project := howner
  cases hpublished : c.publishedMemoryId with
  | some m =>
    refine ⟨.applied ⟨k, .skip, .published, ["already_published"], none, none⟩, { s with base := s.db }, ?_, rfl, rfl,
      c, hrow, by simp [hstatus]⟩
    simp [applyDecision, Candidates.applyModelDecision, hnormalized, hdb, hproject, hpublished]
  | none =>
    have hdecides : Candidates.Decides s.db k (normalized d) c d :=
      ⟨hnormalized, hdb, hpublished, by rw [hstatus]; decide, by rw [hstatus]; decide⟩
    obtain ⟨⟨app, db⟩, happly⟩ := applyOpen_ok host worker.svc s.db hkey k c d
    obtain ⟨-, hleft, hrewrites⟩ := DecisionJobs.applyOpen_rewrites host hdb happly
    refine ⟨.applied app, { s with base := db }, ?_, rfl, rfl, Candidates.decidedRow c d app.candidateStatus, ?_, ?_⟩
    · rw [applyDecision, Candidates.applyModelDecision_of_decides host worker.svc hdecides hproject, happly]
      rfl
    · simpa using hrewrites.rows k c hdb
    · simpa [Candidates.decidedRow] using hleft

/-! ## What `execute` leaves behind -/

/-- How an attempt at an open candidate ends; its run has the key that comes next. -/
inductive ExecuteOutcome (s : Store F) (claim : JobClaim (Json F)) (k : Nat) (row : Candidate F)
    (answer : Except Raised (AdapterResult F)) : Except Raised Handled → Store F → Prop
  | notStarted {e : Raised} (hstarts : ¬ Starts py host worker s claim k) :
    ExecuteOutcome s claim k row answer (.error e) (opened s k row)
  | undelivered {e e' : Raised} {s' : Store F} (hstarts : Starts py host worker s claim k)
    (h : delivered py answer = .error e') (hbase : s'.base = (opened s k row).base)
    (hothers : ∀ i, i ≠ s.runs.nextId → s'.runs.get? i = s.runs.get? i)
    (hmarked : claim.attemptNo ≤ 20 ∧ CodeFits py (wrapped e').1 →
      statusOf s' s.runs.nextId = some (errorStatus (wrapped e').2.2))
    (hstuck : ¬ (claim.attemptNo ≤ 20 ∧ CodeFits py (wrapped e').1) →
      statusOf s' s.runs.nextId = some .running) :
    ExecuteOutcome s claim k row answer (.error e) s'
  | rejected {d : Decision F} {fields : List (String × Json F)} {e : Raised} {s' : Store F}
    (h : delivered py answer = .ok (d, fields)) (hrejected : ¬ Accepts py host s row.projectId fields)
    (hbase : s'.base = (opened s k row).base) (hothers : ∀ i, i ≠ s.runs.nextId → s'.runs.get? i = s.runs.get? i)
    (hrun : statusOf s' s.runs.nextId = some .failed) : ExecuteOutcome s claim k row answer (.error e) s'
  | unfinished {d : Decision F} {fields : List (String × Json F)} {e : Raised} {s' : Store F}
    (hstarts : Starts py host worker s claim k) (h : delivered py answer = .ok (d, fields))
    (haccepted : Accepts py host s row.projectId fields) (hlate : ¬ claim.attemptNo ≤ 20)
    (hbase : s'.base = (opened s k row).base) (hothers : ∀ i, i ≠ s.runs.nextId → s'.runs.get? i = s.runs.get? i)
    (hrun : statusOf s' s.runs.nextId = some .succeeded) : ExecuteOutcome s claim k row answer (.error e) s'
  | applied {d : Decision F} {fields : List (String × Json F)} {handled : Handled} {s' : Store F}
    (hstarts : Starts py host worker s claim k) (h : delivered py answer = .ok (d, fields))
    (haccepted : Accepts py host s row.projectId fields) (hearly : claim.attemptNo ≤ 20)
    (hothers : ∀ i, i ≠ s.runs.nextId → s'.runs.get? i = s.runs.get? i)
    (hrun : statusOf s' s.runs.nextId = some .succeeded)
    (hdecision : ∃ decision, s'.decisions = s.decisions.insert decision ∧ decision.decisionRunId = s.runs.nextId)
    (hrow : ∃ row', s'.base.candidates.get? k = some row' ∧
      (row'.status = .validating ↔ row.publishedMemoryId ≠ none)) :
    ExecuteOutcome s claim k row answer (.ok handled) s'

omit [Json.PyFloat F] in
/-- The run that a started attempt finds. -/
theorem fresh_of_started {s : Store F} (hconsistent : Consistent s) {k : Nat} {row : Candidate F}
    (hrow : s.base.candidates.get? k = some row) {run : Run} (hproject : run.projectId = row.projectId)
    (hrunning : run.status = .running) :
    Fresh (started s k row run) s.runs.nextId k row.projectId run where
  stored := Table.get?_insert_self _ _
  project := hproject
  running := hrunning
  undecided := by
    refine List.find?_eq_none.mpr fun ⟨i, a⟩ hmem => ?_
    have hsome := hconsistent.succeeded i a ((Table.get?_eq_some_iff _ _ _).mpr hmem)
    have hne : a.decisionRunId ≠ s.runs.nextId := by
      intro heq
      rw [heq, statusOf, Table.get?_nextId] at hsome
      cases hsome
    simpa using hne
  candidate := ⟨_, opened_row hrow, rfl⟩

/-- **How an attempt ends.** -/
theorem execute_outcome (htrim : ∀ text, (py.trim text).length ≤ text.length) {s : Store F}
    {claim : JobClaim (Json F)} {k : Nat} {row : Candidate F} {project : Candidates.Project}
    (h : Open s claim k row project) (answer : Except Raised (AdapterResult F)) :
    ExecuteOutcome py host worker s claim k row answer (execute py host worker s claim answer).1
      (execute py host worker s claim answer).2 := by
  rw [execute_open py host worker h]
  cases hsnapshot : candidateSnapshot (opened s k row).base k with
  | error e =>
    refine .notStarted ?_
    rintro ⟨snapshot, runId, hok, -⟩
    rw [← candidateSnapshot_opened h.stored, hsnapshot] at hok
    cases hok
  | ok snapshot =>
    obtain ⟨hid, hprojectId⟩ := candidateSnapshot_ids (opened_row h.stored) hsnapshot
    simp only [decideCandidate]
    rcases startDecisionRun_cases py host worker (opened s k row) snapshot claim with
      ⟨e, hstart⟩ | ⟨run, hproject, hrunning, hstart⟩
    · simp only [hstart]
      refine .notStarted ?_
      rintro ⟨snapshot', runId, hok, hstarted⟩
      rw [← candidateSnapshot_opened h.stored, hsnapshot] at hok
      obtain rfl := Except.ok.inj hok
      rw [← startDecisionRun_opened py host worker s k row, hstart] at hstarted
      cases hstarted
    · have hstarts : Starts py host worker s claim k :=
        ⟨snapshot, s.runs.nextId, (candidateSnapshot_opened h.stored).symm.trans hsnapshot, by
          rw [← startDecisionRun_opened py host worker s k row, hstart]
          rfl⟩
      have hstarted : startDecisionRun py host worker (opened s k row) snapshot claim =
          (.ok s.runs.nextId, started s k row run) := hstart
      simp only [hstarted, hid]
      have hfresh := fresh_of_started h.consistent h.stored (hproject.trans hprojectId) hrunning
      have haccepts := accepts_congr py host (show (started s k row run).policyRows = s.policyRows from rfl) rfl
        row.projectId
      have hothers {s' : Store F} (hkept : ∀ i, i ≠ s.runs.nextId → s'.runs.get? i = (s.runs.insert run).get? i)
          (i : Nat) (hi : i ≠ s.runs.nextId) : s'.runs.get? i = s.runs.get? i :=
        (hkept i hi).trans (Table.get?_insert_ne _ _ hi)
      have houtcome := callModel_cases py host hfresh claim answer
      generalize callModel py host (started s k row run) s.runs.nextId claim k answer = out at houtcome ⊢
      obtain ⟨result, s₃⟩ := out
      simp only at houtcome
      cases houtcome with
      | @undelivered e hdelivered =>
        obtain ⟨hmarked, hstuck, -⟩ := finishDecisionRunForError_leaves py htrim hfresh.stored claim e
        by_cases hfits : claim.attemptNo ≤ 20 ∧ CodeFits py (wrapped e).1
        · have hleaves := hmarked hrunning hfits
          exact .undelivered hstarts hdelivered hleaves.base (hothers hleaves.others) (fun _ => hleaves.run)
            (fun hnot => absurd hfits hnot)
        · have hleaves := hstuck hrunning hfits
          exact .undelivered hstarts hdelivered hleaves.base (hothers hleaves.others) (fun hfit => absurd hfit hfits)
            (fun _ => hleaves.run)
      | @rejected d fields e s₃ hdelivered hrejected hleaves =>
        obtain ⟨row', hrow', hstatus⟩ : ∃ row', s₃.runs.get? s.runs.nextId = some row' ∧ row'.status = .failed := by
          simpa [statusOf] using hleaves.run
        have hfinal := (finishDecisionRunForError_leaves py htrim hrow' claim e).2.2 (by rw [hstatus]; rfl)
        rw [hstatus] at hfinal
        exact .rejected hdelivered (fun haccepted => hrejected ((haccepts _).mpr haccepted))
          (hfinal.base.trans hleaves.base) (hothers fun i hi => (hfinal.others i hi).trans (hleaves.others i hi)) hfinal.run
      | @unfinished d fields e s₃ hdelivered haccepted hlate hleaves =>
        obtain ⟨row', hrow', hstatus⟩ : ∃ row', s₃.runs.get? s.runs.nextId = some row' ∧ row'.status = .succeeded := by
          simpa [statusOf] using hleaves.run
        have hfinal := (finishDecisionRunForError_leaves py htrim hrow' claim e).2.2 (by rw [hstatus]; rfl)
        rw [hstatus] at hfinal
        exact .unfinished hstarts hdelivered ((haccepts _).mp haccepted) hlate (hfinal.base.trans hleaves.base)
          (hothers fun i hi => (hfinal.others i hi).trans (hleaves.others i hi)) hfinal.run
      | finished hdelivered haccepted hearly hleaves =>
        have hbase : s₃.base = (opened s k row).base := hleaves.base
        obtain ⟨handled, s₄, happly, hruns, hdecisions, row', hrow', hleft⟩ :=
          applyDecision_validating host worker (s := s₃) (by rw [hbase]; exact opened_row h.stored) rfl
            (by rw [hbase]; exact h.owner) h.key (delivered_normalized hdelivered)
        simp only [concludeAttempt, happly]
        refine .applied hstarts hdelivered ((haccepts _).mp haccepted) hearly ?_ ?_ ?_ ⟨row', hrow', hleft⟩
        · rw [hruns]
          exact hothers hleaves.others
        · rw [statusOf, hruns]
          exact hleaves.run
        · rw [hdecisions]
          exact hleaves.decisions

/-- The adapter's output is valid and within the policy and the evidence constraints. -/
def GoodAnswer (s : Store F) (projectId : Nat) (answer : Except Raised (AdapterResult F)) : Prop :=
  ∃ d fields, delivered py answer = .ok (d, fields) ∧ Accepts py host s projectId fields

/-- What is asked of an attempt: no run of it is left running; where the run starts and the
output is good, the attempt returns, its run is succeeded with one decision and the candidate
has left validating; a raise leaves the candidate validating, without an event. -/
structure EndToEnd (s : Store F) (claim : JobClaim (Json F)) (k projectId : Nat)
    (answer : Except Raised (AdapterResult F)) : Prop where
  finished : ∀ i, s.runs.get? i = none → statusOf (execute py host worker s claim answer).2 i ≠ some .running
  carriedOut : Starts py host worker s claim k → GoodAnswer py host s projectId answer →
    (∃ handled, (execute py host worker s claim answer).1 = .ok handled) ∧
      statusOf (execute py host worker s claim answer).2 s.runs.nextId = some .succeeded ∧
      ((execute py host worker s claim answer).2.decisions.select fun r =>
        decide (r.decisionRunId = s.runs.nextId)).length = 1 ∧
      ∃ row, (execute py host worker s claim answer).2.base.candidates.get? k = some row ∧ row.status ≠ .validating
  raised : ∀ e, (execute py host worker s claim answer).1 = .error e →
    (∃ row, (execute py host worker s claim answer).2.base.candidates.get? k = some row ∧ row.status = .validating) ∧
      (execute py host worker s claim answer).2.base.events = s.base.events

/-- The record of the run can be written: an error before `record_decision` comes in one of
the first 20 attempts and its code fits; a good output comes in one of them too, for a
candidate without a memory. -/
structure Finishable (s : Store F) (claim : JobClaim (Json F)) (k : Nat) (row : Candidate F)
    (answer : Except Raised (AdapterResult F)) : Prop where
  failure : Starts py host worker s claim k → ∀ e, delivered py answer = .error e →
    claim.attemptNo ≤ 20 ∧ CodeFits py (wrapped e).1
  success : Starts py host worker s claim k → GoodAnswer py host s row.projectId answer →
    claim.attemptNo ≤ 20 ∧ row.publishedMemoryId = none

omit [Json.PyFloat F] in
theorem select_insert {s s' : Store F} (hconsistent : Consistent s)
    (h : ∃ decision, s'.decisions = s.decisions.insert decision ∧ decision.decisionRunId = s.runs.nextId) :
    (s'.decisions.select fun r => decide (r.decisionRunId = s.runs.nextId)).length = 1 := by
  obtain ⟨decision, hdecisions, hid⟩ := h
  have hnone : (s.decisions.rows.filter fun r => decide (r.2.decisionRunId = s.runs.nextId)) = [] := by
    refine List.filter_eq_nil_iff.mpr fun ⟨i, a⟩ hmem => ?_
    have hsome := hconsistent.succeeded i a ((Table.get?_eq_some_iff _ _ _).mpr hmem)
    have hne : a.decisionRunId ≠ s.runs.nextId := by
      intro heq
      rw [heq, statusOf, Table.get?_nextId] at hsome
      cases hsome
    simpa using hne
  rw [hdecisions, Table.select, Table.insert, List.filter_append, hnone]
  simp [hid]

omit [Json.PyFloat F] in
theorem statusOf_kept {s s' : Store F} (hothers : ∀ i, i ≠ s.runs.nextId → s'.runs.get? i = s.runs.get? i) {i : Nat}
    (hnew : s.runs.get? i = none) (hi : i ≠ s.runs.nextId) : statusOf s' i ≠ some .running := by
  rw [statusOf, hothers i hi, hnew]
  rintro ⟨⟩

omit [Json.PyFloat F] in
/-- A run that is not left running, and nothing new beside it. -/
theorem finished_of {s s' : Store F} (hothers : ∀ i, i ≠ s.runs.nextId → s'.runs.get? i = s.runs.get? i)
    {status : RunStatus} (hrun : statusOf s' s.runs.nextId = some status) (hstatus : status ≠ .running) (i : Nat)
    (hnew : s.runs.get? i = none) : statusOf s' i ≠ some .running := by
  by_cases hi : i = s.runs.nextId
  · rw [hi, hrun]
    exact fun heq => hstatus (Option.some.inj heq)
  · exact statusOf_kept hothers hnew hi

omit [Json.PyFloat F] in
/-- What a raise leaves of the candidate. -/
theorem raised_of {s s' : Store F} {k : Nat} {row : Candidate F} (hrow : s.base.candidates.get? k = some row)
    (hbase : s'.base = (opened s k row).base) :
    (∃ row', s'.base.candidates.get? k = some row' ∧ row'.status = .validating) ∧ s'.base.events = s.base.events := by
  rw [hbase]
  exact ⟨⟨_, opened_row hrow, rfl⟩, rfl⟩

/-- **An attempt is carried through exactly where the record of its run can be written.** -/
theorem execute_end_to_end_iff (htrim : ∀ text, (py.trim text).length ≤ text.length) (s : Store F)
    (claim : JobClaim (Json F)) (k : Nat) (row : Candidate F) (project : Candidates.Project)
    (answer : Except Raised (AdapterResult F)) (h : Open s claim k row project) :
    EndToEnd py host worker s claim k row.projectId answer ↔ Finishable py host worker s claim k row answer := by
  have houtcome := execute_outcome py host worker htrim h answer
  have hnext : s.runs.get? s.runs.nextId = none := Table.get?_nextId _
  constructor
  · intro hall
    obtain ⟨hfinished, hcarried, -⟩ := hall
    generalize execute py host worker s claim answer = out at houtcome hfinished hcarried
    obtain ⟨result, s'⟩ := out
    simp only at houtcome hfinished hcarried
    cases houtcome with
    | notStarted hstarts => exact ⟨fun h => absurd h hstarts, fun h => absurd h hstarts⟩
    | undelivered hstarts hdelivered hbase hothers hmarked hstuck =>
      refine ⟨fun _ e he => ?_, fun _ ⟨d, fields, hok, _⟩ => ?_⟩
      · rw [hdelivered] at he
        obtain rfl := Except.error.inj he
        by_contra hnot
        exact hfinished _ hnext (hstuck hnot)
      · rw [hdelivered] at hok
        cases hok
    | rejected hdelivered hrejected hbase hothers hrun =>
      refine ⟨fun _ e he => ?_, fun _ ⟨d, fields, hok, haccepted⟩ => ?_⟩
      · rw [hdelivered] at he
        cases he
      · rw [hdelivered] at hok
        obtain ⟨rfl, rfl⟩ := Prod.mk.inj (Except.ok.inj hok)
        exact absurd haccepted hrejected
    | unfinished hstarts hdelivered haccepted hlate hbase hothers hrun =>
      obtain ⟨⟨handled, hreturned⟩, -⟩ := hcarried hstarts ⟨_, _, hdelivered, haccepted⟩
      cases hreturned
    | applied hstarts hdelivered haccepted hearly hothers hrun hdecision hrow =>
      refine ⟨fun _ e he => ?_, fun _ hgood => ⟨hearly, ?_⟩⟩
      · rw [hdelivered] at he
        cases he
      · obtain ⟨-, -, -, row', hrow', hleft⟩ := hcarried hstarts hgood
        obtain ⟨row'', hrow'', hiff⟩ := hrow
        rw [hrow'] at hrow''
        obtain rfl := Option.some.inj hrow''
        by_contra hpublished
        exact hleft (hiff.mpr hpublished)
  · intro hall
    suffices hsuffices : ∀ result s', ExecuteOutcome py host worker s claim k row answer result s' →
        (∀ i, s.runs.get? i = none → statusOf s' i ≠ some .running) ∧
        (Starts py host worker s claim k → GoodAnswer py host s row.projectId answer →
          (∃ handled, result = .ok handled) ∧ statusOf s' s.runs.nextId = some .succeeded ∧
            (s'.decisions.select fun r => decide (r.decisionRunId = s.runs.nextId)).length = 1 ∧
            ∃ row', s'.base.candidates.get? k = some row' ∧ row'.status ≠ .validating) ∧
        ∀ e, result = .error e → (∃ row', s'.base.candidates.get? k = some row' ∧ row'.status = .validating) ∧
          s'.base.events = s.base.events by
      obtain ⟨hfinished, hcarried, hraised⟩ := hsuffices _ _ houtcome
      exact ⟨hfinished, hcarried, hraised⟩
    intro result s' houtcome
    cases houtcome with
    | notStarted hstarts =>
      refine ⟨fun i hi => ?_, fun h => absurd h hstarts, fun _ _ => raised_of h.stored rfl⟩
      rw [statusOf, show (opened s k row).runs = s.runs from rfl, hi]
      rintro ⟨⟩
    | undelivered hstarts hdelivered hbase hothers hmarked hstuck =>
      refine ⟨finished_of hothers (hmarked (hall.failure hstarts _ hdelivered)) (errorStatus_ne_running _),
        fun _ ⟨d, fields, hok, _⟩ => ?_, fun _ _ => raised_of h.stored hbase⟩
      rw [hdelivered] at hok
      cases hok
    | rejected hdelivered hrejected hbase hothers hrun =>
      refine ⟨finished_of hothers hrun (by decide), fun _ ⟨d, fields, hok, haccepted⟩ => ?_,
        fun _ _ => raised_of h.stored hbase⟩
      rw [hdelivered] at hok
      obtain ⟨rfl, rfl⟩ := Prod.mk.inj (Except.ok.inj hok)
      exact absurd haccepted hrejected
    | unfinished hstarts hdelivered haccepted hlate hbase hothers hrun =>
      exact absurd (hall.success hstarts ⟨_, _, hdelivered, haccepted⟩).1 hlate
    | applied hstarts hdelivered haccepted hearly hothers hrun hdecision hrow =>
      obtain ⟨-, hpublished⟩ := hall.success hstarts ⟨_, _, hdelivered, haccepted⟩
      obtain ⟨row', hrow', hiff⟩ := hrow
      exact ⟨finished_of hothers hrun (by decide), fun _ _ => ⟨⟨_, rfl⟩, hrun, select_insert h.consistent hdecision,
        row', hrow', fun hvalidating => hiff.mp hvalidating hpublished⟩, by rintro _ ⟨⟩⟩

end Attempt

/-! ## A late attempt -/

/-- The sample host, which also knows the hash of the snapshot below. -/
def attemptHost : Host Empty :=
  { Candidates.sampleHost with
    sha256 := fun text => if text = "Use tabs" then Candidates.sampleHost.sha256 text
      else "4843a13a04af9d895b71c4dadf177eb9c6b75335b01dbdd91a088caede422f56" }

/-- The sample project with a candidate on its message, before its first run. -/
def attemptStore : Store Empty := { gatesStore with jobs := fun _ => some 0, runs := .empty }

def attemptWorker : DecisionWorker := ⟨"codex-cli:default", "codex-cli-adapter-v1", {}, true⟩

def attemptClaim (attemptNo : Nat) : JobClaim (Json Empty) where
  jobId := 0
  jobType := "decide_candidate"
  payload := .obj [("candidate_id", .int 0)]
  attemptNo := attemptNo
  leaseExpiresAt := 0

def attemptRow : Candidate Empty where
  projectId := 0
  sourceMessageId := 1
  taskType := "message_ingestion"
  level := .L1
  scope := .project
  memoryType := "conversation"
  title := "user message"
  content := .obj [("text", .str "Use tabs")]
  status := .validating

theorem attempt_open (attemptNo : Nat) : Open attemptStore (attemptClaim attemptNo) 0 attemptRow ⟨"demo"⟩ where
  claimed := rfl
  stored := rfl
  status := .inr (.inl rfl)
  engine := rfl
  owner := rfl
  key := by decide
  consistent := consistent_start gatesDb _ _ _

theorem length_strip_le (text : String) : (plainPydantic.trim text).length ≤ text.length := by
  change (strip text).length ≤ text.length
  rw [strip, String.length_ofList, List.length_reverse, ← String.length_toList]
  refine (List.dropWhile_suffix _).length_le.trans ?_
  rw [List.length_reverse]
  exact (List.dropWhile_suffix _).length_le

/-- A publication that quotes the whole message. -/
def attemptAnswer : AdapterResult Empty :=
  .decision { Candidates.sampleDecision "publish" with
    metadata := .obj [("model_decision", .obj (quotingFields 0 8 "Use tabs"))] }

theorem attemptAnswer_delivered (e : Raised) : delivered plainPydantic (.ok attemptAnswer) ≠ .error e := by
  intro h
  have hok : (delivered plainPydantic (.ok attemptAnswer)).isOk = true := by decide +kernel
  rw [h] at hok
  cases hok

/-- The first attempt carries a good output out. -/
theorem first_attempt_end_to_end :
    EndToEnd plainPydantic attemptHost attemptWorker attemptStore (attemptClaim 1) 0 0 (.ok attemptAnswer) :=
  (execute_end_to_end_iff plainPydantic attemptHost attemptWorker length_strip_le attemptStore (attemptClaim 1) 0
    attemptRow ⟨"demo"⟩ (.ok attemptAnswer) (attempt_open 1)).mpr
    ⟨fun _ e he => absurd he (attemptAnswer_delivered e), fun _ _ => ⟨by decide, rfl⟩⟩

/-- **The run of a late attempt is left running** when the adapter raises: the number of
the attempt does not fit the record that would finish it. -/
theorem late_attempt_left_running : ¬ ∀ (s : Store Empty) (claim : JobClaim (Json Empty)) (k : Nat)
    (row : Candidate Empty) (project : Candidates.Project) (answer : Except Raised (AdapterResult Empty)),
    Open s claim k row project → EndToEnd plainPydantic attemptHost attemptWorker s claim k row.projectId answer := by
  intro h
  have hfinished := (h attemptStore (attemptClaim 21) 0 attemptRow ⟨"demo"⟩
    (.error (.candidateDecisionError "codex_cli_timeout" "Codex CLI 执行超时" true)) (attempt_open 21)).finished 0 rfl
  revert hfinished
  decide +kernel

end CodexMemory.Decisions
