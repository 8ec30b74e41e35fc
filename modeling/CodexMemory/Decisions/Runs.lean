import CodexMemory.Decisions.Model

/-!
# The lives of decision runs

`finish_run` guards the final statuses of a run.  `record_decision` does not where
it rejects an output: it marks the run failed in any status.

* `decision_runs_orderly_iff`: final statuses stay, and every run has at most one
  decision and then is succeeded, exactly as long as no rejected output names a
  run that is succeeded or cancelled;
* `rejected_repetition_fails_run`: a malformed repetition turns a succeeded run into
  a failed one that has a decision.
-/

namespace CodexMemory.Decisions

open CodexMemory.Trace
open Candidates (Host)

variable {F : Type} [Json.PyFloat F] (py : Pydantic F) (host : Host F)

/-! ## What holds of runs and decisions -/

def statusOf (s : Store F) (runId : Nat) : Option RunStatus := (s.runs.get? runId).map Run.status

/-- No run in a final status has another status afterwards. -/
def TerminalKept (s s' : Store F) : Prop :=
  ∀ runId status, statusOf s runId = some status → status.terminal = true → statusOf s' runId = some status

/-- What the claim says of a state: a run has at most one decision and is then
succeeded; the same output again is answered with that decision, another one with a
conflict, and neither changes anything. -/
structure Orderly (s : Store F) : Prop where
  once : ∀ i j a b, s.decisions.get? i = some a → s.decisions.get? j = some b →
    a.decisionRunId = b.decisionRunId → i = j
  succeeded : ∀ i a, s.decisions.get? i = some a → statusOf s a.decisionRunId = some .succeeded
  repeated : ∀ i a payload output candidateId, s.decisions.get? i = some a →
    validateModelOutput py payload = some output → a.output.same py output = true →
    recordDecision py host s a.decisionRunId payload candidateId = (.ok i, s)
  conflicting : ∀ i a payload output candidateId, s.decisions.get? i = some a →
    validateModelOutput py payload = some output → a.output.same py output = false →
    recordDecision py host s a.decisionRunId payload candidateId =
      (.error (.validation "decision_conflict" "同一 decision run 已记录不同决策"), s)

/-- The part of `Orderly` that carries itself over. -/
structure Consistent (s : Store F) : Prop where
  once : ∀ i j a b, s.decisions.get? i = some a → s.decisions.get? j = some b →
    a.decisionRunId = b.decisionRunId → i = j
  succeeded : ∀ i a, s.decisions.get? i = some a → statusOf s a.decisionRunId = some .succeeded

/-- `record_decision` rejects the output, whatever the status of the run is. -/
def Rejected (s : Store F) (runId : Nat) (payload : Payload F) (candidateId : Option Nat) : Prop :=
  match validateModelOutput py payload with
  | none => True
  | some output => ∃ run, s.runs.get? runId = some run ∧ (run.status = .running ∨ run.status = .succeeded) ∧
      decisionOf s runId = none ∧ ∀ policy, loadPolicy py s run.projectId = some policy →
        databaseErrors host s run.projectId output policy ++ candidateErrors s run.projectId candidateId ≠ []

/-- A rejected output names a run that is neither succeeded nor cancelled. -/
def Welcome (s : Store F) : Call F → Prop
  | .recordDecision runId payload candidateId => Rejected py host s runId payload candidateId →
      statusOf s runId ≠ some .succeeded ∧ statusOf s runId ≠ some .cancelled
  | _ => True

/-! ## Rows -/

omit [Json.PyFloat F] in
theorem statusOf_setRun {s : Store F} {runId : Nat} {run row : Run} (h : s.runs.get? runId = some run) (i : Nat) :
    statusOf (s.setRun runId row) i = if i = runId then some row.status else statusOf s i := by
  unfold statusOf Store.setRun
  rw [Table.get?_modify]
  split
  · next hi =>
    subst hi
    rw [h]
    rfl
  · cases s.runs.get? i <;> rfl

omit [Json.PyFloat F] in
theorem decisionOf_some {s : Store F} {runId i : Nat} {a : ModelDecisionRow F} (h : decisionOf s runId = some (i, a)) :
    s.decisions.get? i = some a ∧ a.decisionRunId = runId := by
  have hmatch := List.find?_some h
  exact ⟨(Table.get?_eq_some_iff _ _ _).mpr (List.mem_of_find?_eq_some h), of_decide_eq_true hmatch⟩

omit [Json.PyFloat F] in
theorem decisionOf_none {s : Store F} {runId i : Nat} {a : ModelDecisionRow F} (h : decisionOf s runId = none)
    (hi : s.decisions.get? i = some a) : a.decisionRunId ≠ runId := by
  have hnot := List.find?_eq_none.mp h (i, a) ((Table.get?_eq_some_iff _ _ _).mp hi)
  simpa using hnot

omit [Json.PyFloat F] in
/-- In a consistent store the decision of a run is the one that is found for it. -/
theorem Consistent.decisionOf_eq {s : Store F} (h : Consistent s) {i : Nat} {a : ModelDecisionRow F}
    (hi : s.decisions.get? i = some a) : decisionOf s a.decisionRunId = some (i, a) := by
  cases hd : decisionOf s a.decisionRunId with
  | none => exact absurd rfl (decisionOf_none hd hi)
  | some found =>
    obtain ⟨j, b⟩ := found
    obtain ⟨hj, hb⟩ := decisionOf_some hd
    obtain rfl := h.once i j a b hi hj hb.symm
    rw [hi] at hj
    rw [Option.some.inj hj]

omit [Json.PyFloat F] in
/-- New rows of decisions come from old ones of the same run. -/
theorem Consistent.of_decisions {s s' : Store F} (h : Consistent s)
    (hrows : ∀ i a, s'.decisions.get? i = some a →
      ∃ b, s.decisions.get? i = some b ∧ a.decisionRunId = b.decisionRunId)
    (hstatus : ∀ runId, statusOf s runId = some .succeeded → statusOf s' runId = some .succeeded) :
    Consistent s' where
  once i j a b hi hj hab := by
    obtain ⟨c, hc, hac⟩ := hrows i a hi
    obtain ⟨d, hd, hbd⟩ := hrows j b hj
    exact h.once i j c d hc hd (by rw [← hac, ← hbd, hab])
  succeeded i a hi := by
    obtain ⟨b, hb, hab⟩ := hrows i a hi
    rw [hab]
    exact hstatus _ (h.succeeded i b hb)

/-! ## One call -/

/-- What `record_decision` does: it leaves the store as it is, marks the run failed
because the output is rejected, or records the first decision of the run. -/
theorem recordDecision_cases (s : Store F) (runId : Nat) (payload : Payload F) (candidateId : Option Nat) :
    (recordDecision py host s runId payload candidateId).2 = s ∧
        ((s.runs.get? runId).isSome → ¬ Rejected py host s runId payload candidateId) ∨
      (∃ run row, s.runs.get? runId = some run ∧ Rejected py host s runId payload candidateId ∧
        row.status = .failed ∧ (recordDecision py host s runId payload candidateId).2 = s.setRun runId row) ∨
      ∃ run row decision, s.runs.get? runId = some run ∧ (run.status = .running ∨ run.status = .succeeded) ∧
        ¬ Rejected py host s runId payload candidateId ∧ decisionOf s runId = none ∧
        row.status = .succeeded ∧ decision.decisionRunId = runId ∧
        (recordDecision py host s runId payload candidateId).2 =
          { s.setRun runId row with decisions := s.decisions.insert decision } := by
  unfold recordDecision
  cases hvalid : validateModelOutput py payload with
  | none =>
    have hrejected : Rejected py host s runId payload candidateId := by simp only [Rejected, hvalid]
    simp only [rejectInvalidOutput]
    cases hrun : s.runs.get? runId with
    | none => exact Or.inl ⟨rfl, fun h => by cases h⟩
    | some run => exact Or.inr (Or.inl ⟨run, _, rfl, hrejected, rfl, rfl⟩)
  | some output =>
    simp only
    cases hrun : s.runs.get? runId with
    | none => exact Or.inl ⟨rfl, fun h => by cases h⟩
    | some run =>
      have hread : ∀ run', s.runs.get? runId = some run' → run' = run := by
        intro run' h
        rw [hrun] at h
        exact (Option.some.inj h).symm
      simp only
      split
      · next hstatus =>
        refine Or.inl ⟨rfl, fun _ hrej => ?_⟩
        simp only [Rejected, hvalid] at hrej
        obtain ⟨run', hrun', hopen, -⟩ := hrej
        obtain rfl := hread run' hrun'
        rcases hopen with hopen | hopen
        · exact hstatus.1 hopen
        · exact hstatus.2 hopen
      · next hstatus =>
        have hopen : run.status = .running ∨ run.status = .succeeded := by
          by_cases hr : run.status = .running
          · exact Or.inl hr
          · exact Or.inr (Classical.not_not.mp fun hs => hstatus ⟨hr, hs⟩)
        cases hdecision : decisionOf s runId with
        | some found =>
          have hnot : ¬ Rejected py host s runId payload candidateId := by
            intro hrej
            simp only [Rejected, hvalid] at hrej
            obtain ⟨_, -, -, hnone, -⟩ := hrej
            rw [hdecision] at hnone
            cases hnone
          simp only
          split
          · exact Or.inl ⟨rfl, fun _ => hnot⟩
          · exact Or.inl ⟨rfl, fun _ => hnot⟩
        | none =>
          simp only [recordFirst]
          cases hpolicy : loadPolicy py s run.projectId with
          | none =>
            refine Or.inr (Or.inl ⟨run, _, rfl, ?_, rfl, rfl⟩)
            simp only [Rejected, hvalid]
            exact ⟨run, hrun, hopen, hdecision, fun policy h => by rw [hpolicy] at h; cases h⟩
          | some policy =>
            simp only
            split
            · next herrors =>
              refine Or.inr (Or.inl ⟨run, _, rfl, ?_, rfl, rfl⟩)
              simp only [Rejected, hvalid]
              refine ⟨run, hrun, hopen, hdecision, fun policy' h => ?_⟩
              rw [hpolicy] at h
              obtain rfl := Option.some.inj h
              exact herrors
            · next herrors =>
              refine Or.inr (Or.inr ⟨run, _, _, rfl, hopen, ?_, trivial, rfl, rfl, rfl⟩)
              intro hrej
              simp only [Rejected, hvalid] at hrej
              obtain ⟨run', hrun', -, -, hall⟩ := hrej
              obtain rfl := hread run' hrun'
              exact herrors (hall policy hpolicy)

omit [Json.PyFloat F] in
/-- `start_run` adds a run or nothing. -/
theorem startRun_cases (s : Store F) (projectId : Nat) (request : RunRequest) :
    (startRun py s projectId request).2 = s ∨
      ∃ run, (startRun py s projectId request).2 = { s with runs := s.runs.insert run } := by
  unfold startRun
  cases request.validate py with
  | none => exact Or.inl rfl
  | some request =>
    simp only
    split
    · exact Or.inl rfl
    · split
      · exact Or.inl rfl
      · split
        · exact Or.inl rfl
        · exact Or.inr ⟨_, rfl⟩

omit [Json.PyFloat F] in
/-- `finish_run` rewrites the run, but a final status only by itself. -/
theorem finishRun_cases (s : Store F) (runId : Nat) (update : RunFinish) :
    (finishRun py s runId update).2 = s ∨
      ∃ run row, s.runs.get? runId = some run ∧ (run.status.terminal = true → row.status = run.status) ∧
        (finishRun py s runId update).2 = s.setRun runId row := by
  unfold finishRun
  cases update.validate py with
  | none => exact Or.inl rfl
  | some update =>
    simp only
    cases hrun : s.runs.get? runId with
    | none => exact Or.inl rfl
    | some run =>
      simp only
      split
      · exact Or.inl rfl
      · next hguard =>
        refine Or.inr ⟨run, _, rfl, fun hterminal => ?_, rfl⟩
        by_contra hne
        exact hguard ⟨hterminal, fun heq => hne heq.symm⟩

/-- `review_decision` rewrites the review of a decision, or nothing. -/
theorem reviewDecision_cases (s : Store F) (decisionId projectId : Nat) (request : ReviewRequest F) :
    (reviewDecision py host s decisionId projectId request).2 = s ∨
      ∃ reviews action, (reviewDecision py host s decisionId projectId request).2 =
        { s with
          reviews := reviews
          decisions := s.decisions.modify decisionId fun row =>
            { row with
              reviewStatus := action.status
              autoPublishAllowed := if action = ReviewAction.approve then row.autoPublishAllowed else false } } := by
  unfold reviewDecision
  cases request.validate py with
  | none => exact Or.inl rfl
  | some request =>
    obtain ⟨reviewer, action, reason, correction⟩ := request
    simp only
    cases s.decisions.get? decisionId with
    | none => exact Or.inl rfl
    | some decision =>
      simp only
      split
      · exact Or.inl rfl
      · cases correctionErrors py host s projectId correction with
        | error e => exact Or.inl rfl
        | ok done => exact Or.inr ⟨_, action, rfl⟩

omit [Json.PyFloat F] in
/-- A run that is written keeps a status that is not final, or the one it had. -/
theorem terminalKept_setRun {s : Store F} {runId : Nat} {run row : Run} (h : s.runs.get? runId = some run)
    (hkept : run.status.terminal = true → row.status = run.status) : TerminalKept s (s.setRun runId row) := by
  intro i status hstatus hterminal
  rw [statusOf_setRun h]
  split
  · next hi =>
    subst hi
    rw [statusOf, h] at hstatus
    obtain rfl := Option.some.inj hstatus
    rw [hkept hterminal]
  · exact hstatus

/-- **Final statuses stay exactly at the calls that are welcome**, and such a call
keeps runs and decisions consistent. -/
theorem step_kept (s : Store F) (call : Call F) (h : Consistent s) :
    (TerminalKept s (step py host s call).2 ↔ Welcome py host s call) ∧
      (Welcome py host s call → Consistent (step py host s call).2) := by
  have hsame : TerminalKept s s := fun _ _ hstatus _ => hstatus
  cases call with
  | startRun projectId request =>
    simp only [step, Welcome, iff_true, true_implies]
    rcases startRun_cases py s projectId request with hs | ⟨run, hs⟩
    · rw [hs]
      exact ⟨hsame, h⟩
    · rw [hs]
      have hold : ∀ runId status, statusOf s runId = some status →
          statusOf { s with runs := s.runs.insert run } runId = some status := by
        intro runId status hstatus
        obtain ⟨row, hrow, rfl⟩ := Option.map_eq_some_iff.mp hstatus
        have hlt := s.runs.lt_nextId hrow
        rw [statusOf, Table.get?_insert_ne _ _ (by omega), hrow]
        rfl
      exact ⟨fun runId status hstatus _ => hold runId status hstatus,
        h.of_decisions (fun i a hi => ⟨a, hi, rfl⟩) fun runId => hold runId _⟩
  | finishRun runId update =>
    simp only [step, Welcome, iff_true, true_implies]
    rcases finishRun_cases py s runId update with hs | ⟨run, row, hrun, hkept, hs⟩
    · rw [hs]
      exact ⟨hsame, h⟩
    · rw [hs]
      have hterminal := terminalKept_setRun hrun hkept
      exact ⟨hterminal, h.of_decisions (fun i a hi => ⟨a, hi, rfl⟩) fun i hi => hterminal i _ hi rfl⟩
  | recordDecision runId payload candidateId =>
    simp only [step, Welcome]
    rcases recordDecision_cases py host s runId payload candidateId with
      ⟨hs, hnot⟩ | ⟨run, row, hrun, hrejected, hfailed, hs⟩ | ⟨run, row, decision, hrun, hopen, hnot, hnone, hrow, hid, hs⟩
    · rw [hs]
      refine ⟨⟨fun _ hrejected => ?_, fun _ => hsame⟩, fun _ => h⟩
      have hmissing : statusOf s runId = none := by
        cases hrun : s.runs.get? runId with
        | none => rw [statusOf, hrun]; rfl
        | some run => exact absurd hrejected (hnot (by rw [hrun]; rfl))
      rw [hmissing]
      exact ⟨by simp, by simp⟩
    · have hstatus : statusOf s runId = some run.status := by rw [statusOf, hrun]; rfl
      have hafter : statusOf (s.setRun runId row) runId = some .failed := by
        rw [statusOf_setRun hrun, if_pos rfl, hfailed]
      rw [hs]
      refine ⟨⟨fun hkept _ => ?_, fun hwelcome => ?_⟩, fun hwelcome => ?_⟩
      · constructor
        · intro hsucceeded
          have hagain := hkept runId _ hsucceeded rfl
          rw [hafter] at hagain
          cases hagain
        · intro hcancelled
          have hagain := hkept runId _ hcancelled rfl
          rw [hafter] at hagain
          cases hagain
      · obtain ⟨hsucceeded, hcancelled⟩ := hwelcome hrejected
        rw [hstatus] at hsucceeded hcancelled
        refine terminalKept_setRun hrun fun hterminal => ?_
        rw [hfailed]
        cases hrs : run.status <;> rw [hrs] at hsucceeded hcancelled hterminal <;> simp_all [RunStatus.terminal]
      · obtain ⟨hsucceeded, -⟩ := hwelcome hrejected
        refine h.of_decisions (fun i a hi => ⟨a, hi, rfl⟩) fun i hi => ?_
        rw [statusOf_setRun hrun, if_neg]
        · exact hi
        · rintro rfl
          exact hsucceeded hi
    · rw [hs]
      have hterminal : TerminalKept s (s.setRun runId row) := by
        refine terminalKept_setRun hrun fun hfinal => ?_
        rcases hopen with hrunning | hsucceeded
        · rw [hrunning] at hfinal
          cases hfinal
        · rw [hrow, hsucceeded]
      refine ⟨⟨fun _ hrejected => absurd hrejected hnot, fun _ => hterminal⟩, fun _ => ?_⟩
      have hafter : statusOf (s.setRun runId row) runId = some .succeeded := by
        rw [statusOf_setRun hrun, if_pos rfl, hrow]
      have hread : ∀ i a, (s.decisions.insert decision).get? i = some a →
          s.decisions.get? i = some a ∧ a.decisionRunId ≠ runId ∨ i = s.decisions.nextId ∧ a = decision := by
        intro i a hi
        by_cases hlast : i = s.decisions.nextId
        · subst hlast
          rw [Table.get?_insert_self] at hi
          exact Or.inr ⟨rfl, (Option.some.inj hi).symm⟩
        · rw [Table.get?_insert_ne _ _ hlast] at hi
          exact Or.inl ⟨hi, decisionOf_none hnone hi⟩
      constructor
      · intro i j a b hi hj hab
        rcases hread i a hi with ⟨hi, hane⟩ | ⟨rfl, rfl⟩ <;> rcases hread j b hj with ⟨hj, hbne⟩ | ⟨rfl, rfl⟩
        · exact h.once i j a b hi hj hab
        · exact absurd (hab.trans hid) hane
        · exact absurd (hab.symm.trans hid) hbne
        · rfl
      · intro i a hi
        rcases hread i a hi with ⟨hi, -⟩ | ⟨rfl, rfl⟩
        · exact hterminal _ _ (h.succeeded i a hi) rfl
        · rw [hid]
          exact hafter
  | reviewDecision decisionId projectId request =>
    simp only [step, Welcome, iff_true, true_implies]
    rcases reviewDecision_cases py host s decisionId projectId request with hs | ⟨reviews, action, hs⟩
    · rw [hs]
      exact ⟨hsame, h⟩
    · rw [hs]
      refine ⟨hsame, h.of_decisions (fun i a hi => ?_) fun _ hi => hi⟩
      rw [Table.get?_modify] at hi
      obtain ⟨b, hb, rfl⟩ := Option.map_eq_some_iff.mp hi
      refine ⟨b, hb, ?_⟩
      split <;> rfl
  | setPolicyRow projectId row =>
    simp only [step, Welcome, iff_true, true_implies]
    exact ⟨hsame, h.of_decisions (fun i a hi => ⟨a, hi, rfl⟩) fun _ hi => hi⟩
  | candidates call =>
    simp only [step, Welcome, iff_true, true_implies]
    exact ⟨hsame, h.of_decisions (fun i a hi => ⟨a, hi, rfl⟩) fun _ hi => hi⟩

/-- In a consistent store repetitions and conflicts are recognised. -/
theorem Consistent.orderly {s : Store F} (h : Consistent s) : Orderly py host s where
  once := h.once
  succeeded := h.succeeded
  repeated i a payload output candidateId hi hvalid hsame := by
    obtain ⟨run, hrun, hstatus⟩ := Option.map_eq_some_iff.mp (h.succeeded i a hi)
    simp only [recordDecision, hvalid, hrun, hstatus, h.decisionOf_eq hi, hsame]
    simp
  conflicting i a payload output candidateId hi hvalid hsame := by
    obtain ⟨run, hrun, hstatus⟩ := Option.map_eq_some_iff.mp (h.succeeded i a hi)
    simp only [recordDecision, hvalid, hrun, hstatus, h.decisionOf_eq hi, hsame]
    simp

/-! ## Runs of the service -/

/-- The service before its first call: no run and no decision. -/
def Store.start (base : Candidates.Db F) (policyRows : Nat → Option PolicyRow) (jobs outboxEvents : Nat → Option Nat) :
    Store F := ⟨base, policyRows, jobs, outboxEvents, .empty, .empty, .empty⟩

omit [Json.PyFloat F] in
theorem consistent_start (base : Candidates.Db F) (policyRows : Nat → Option PolicyRow)
    (jobs outboxEvents : Nat → Option Nat) : Consistent (Store.start base policyRows jobs outboxEvents) where
  once i j a b hi := by cases hi
  succeeded i a hi := by cases hi

/-- The call keeps the final statuses and leaves an orderly store. -/
def Keeps (s : Store F) (call : Call F) : Prop :=
  TerminalKept s (step py host s call).2 ∧ Orderly py host (step py host s call).2

/-- **Decision runs are orderly exactly as long as every rejected output names a run
that is neither succeeded nor cancelled.** -/
theorem decision_runs_orderly_iff (base : Candidates.Db F) (policyRows : Nat → Option PolicyRow)
    (jobs outboxEvents : Nat → Option Nat) (calls : List (Call F)) :
    Always (step py host) (Keeps py host) (Store.start base policyRows jobs outboxEvents) calls ↔
      Always (step py host) (Welcome py host) (Store.start base policyRows jobs outboxEvents) calls := by
  refine always_iff_of_invariant (fun s call hs => (step_kept py host s call hs).2) (fun s call hs => ?_)
    (consistent_start base policyRows jobs outboxEvents) calls
  obtain ⟨hiff, hconsistent⟩ := step_kept py host s call hs
  constructor
  · intro hkeeps
    exact hiff.mp hkeeps.1
  · intro hwelcome
    exact ⟨hiff.mpr hwelcome, (hconsistent hwelcome).orderly py host⟩

/-! ## A malformed repetition -/

/-- Python's strings, without floats. -/
def plainPydantic : Pydantic Empty where
  trim := strip
  value x := nomatch x

/-- A project with no message and no flags. -/
def emptyDb : Candidates.Db Empty where
  projects := Table.empty.insert ⟨"demo"⟩
  messages := .empty
  candidates := .empty
  evidence := .empty
  policyResults := .empty
  memories := .empty
  memorySources := .empty
  events := .empty
  flags _ := none
  policies _ := {}

def plainHost : Host Empty := ⟨fun _ => "", fun _ => none, id⟩

/-- The model asks for a review, without evidence. -/
def reviewPayload : Json Empty :=
  .obj [("decision", .str "needs_review"), ("confidence", .int 1), ("title", .str "t"), ("content", .obj []),
    ("reason", .str "r"), ("evidence_ranges", .arr []), ("risk_flags", .arr []), ("level", .str "L1"),
    ("scope", .str "project")]

/-- A run is started and its decision recorded; then a malformed output arrives for it. -/
def malformedRepetition : List (Call Empty) :=
  [.startRun 0 ⟨"m", "p", "0000000000000000000000000000000000000000000000000000000000000000", 3, none, none⟩,
    .recordDecision 0 (.mapping reviewPayload) none, .recordDecision 0 (.mapping .null) none]

/-- **A malformed repetition fails the succeeded run**, which keeps its decision. -/
theorem rejected_repetition_fails_run : ¬ ∀ (base : Candidates.Db Empty) (policyRows : Nat → Option PolicyRow)
    (jobs outboxEvents : Nat → Option Nat) (calls : List (Call Empty)),
    Always (step plainPydantic plainHost) (Keeps plainPydantic plainHost)
      (Store.start base policyRows jobs outboxEvents) calls := by
  intro h
  have hlast := (h emptyDb (fun _ => some { requireEvidence := false }) (fun _ => none) (fun _ => none)
    malformedRepetition).2.2.1.1 0 .succeeded (by decide +kernel) rfl
  revert hlast
  decide +kernel

end CodexMemory.Decisions
