import CodexMemory.Candidates.Gate
import CodexMemory.Candidates.Rows

/-!
# Extraction of candidates from messages

`V11JobHandlers._handle_candidate_request`.  The handler looks for a candidate of the
message in one transaction and creates one in another; a rejected candidate does not
count as one.  Deliveries may be repeated, and the calls of the candidates' service
run in between.

* `extraction_after_rejection`: where the executions for a message follow one another,
  a further candidate is created only after every earlier one was rejected;
* `rejected_message_extracted_twice`: after a rejection there is a second one.
-/

namespace CodexMemory.Extraction

open CodexMemory.Trace CodexMemory.Candidates

variable {F : Type}

/-! ## The handler -/

/-- An execution that has checked and not yet created: what it has read. -/
structure Opened where
  projectId : Nat
  messageId : Nat
  content : String
  deriving DecidableEq

/-- The candidates' tables, the flag `memory_v11_enabled` of a project, the role of a
message, and the executions between their two transactions. -/
structure System (F : Type) where
  db : Db F
  memoryV11Enabled : Nat → Bool
  role : Nat → String
  opened : List Opened

inductive Input (F : Type)
  | check (projectId messageId : Nat)
  | create (i : Nat)
  | die (i : Nat)
  | setMemoryV11 (projectId : Nat) (enabled : Bool)
  | call (call : Call F)

/-- What an input is answered with; a `PermanentJobError` with its text. -/
inductive Answer
  | permanent (message : String)
  | disabled
  | existing (candidateId : Nat)
  | checked
  | created (messageId : Nat) (result : Except Error Nat)
  | nothing
  | reply (reply : Reply)

/-- The candidate is one of this handler for the message, whatever its status. -/
def IsExtracted (projectId messageId : Nat) (c : Candidate F) : Prop :=
  c.projectId = projectId ∧ c.sourceMessageId = messageId ∧ c.taskType = "message_ingestion" ∧
    c.classifierVersion = "rule-v1"

instance (projectId messageId : Nat) (c : Candidate F) : Decidable (IsExtracted projectId messageId c) := by
  unfold IsExtracted
  infer_instance

/-- The candidate that the check finds. -/
def existing (db : Db F) (projectId messageId : Nat) : Option Nat :=
  (db.candidates.rows.find? fun r =>
    decide (IsExtracted projectId messageId r.2 ∧ r.2.status ≠ .rejected)).map Prod.fst

/-- The candidate of the message. -/
def extracted (role : String) (tx : Opened) : NewCandidate F where
  sourceMessageId := tx.messageId
  taskType := "message_ingestion"
  level := "L1"
  scope := "project"
  memoryType := "conversation"
  title := role ++ " message"
  content := .obj [("text", .str tx.content), ("source", .str "message.appended.v1")]
  evidence := [(tx.messageId, 0, tx.content.length)]

/-- The first transaction of `_handle_candidate_request`. -/
def check (s : System F) (projectId messageId : Nat) : Answer × System F :=
  match s.db.messages.get? messageId with
  | none => (.permanent "message does not belong to project", s)
  | some message =>
    if message.projectId ≠ projectId then (.permanent "message does not belong to project", s)
    else
      match s.db.flags projectId with
      | none =>
        -- the missing row is written with its defaults, all of them off
        (.permanent "项目功能开关缺失，已自动补齐默认关闭值；请启用 memory_v11_enabled 后重试",
          { s with
            db := { s.db with flags := Function.update s.db.flags projectId (some {}) }
            memoryV11Enabled := Function.update s.memoryV11Enabled projectId false })
      | some _ =>
        if !s.memoryV11Enabled projectId then (.disabled, s)
        else
          match existing s.db projectId messageId with
          | some candidateId => (.existing candidateId, s)
          | none => (.checked, { s with opened := s.opened ++ [⟨projectId, messageId, message.content⟩] })

def step [Json.PyFloat F] (host : Host F) (s : System F) : Input F → Answer × System F
  | .check projectId messageId => check s projectId messageId
  | .create i =>
    match s.opened[i]? with
    | none => (.nothing, s)
    | some tx =>
      let out := createCandidate s.db tx.projectId (extracted (s.role tx.messageId) tx)
      (.created tx.messageId out.1, { s with db := out.2, opened := s.opened.eraseIdx i })
  | .die i => (.nothing, { s with opened := s.opened.eraseIdx i })
  | .setMemoryV11 projectId enabled =>
    (.nothing, { s with memoryV11Enabled := Function.update s.memoryV11Enabled projectId enabled })
  | .call call =>
    let out := Candidates.step host s.db call
    (.reply out.1, { s with db := out.2 })

/-- The candidates that were created for the message, in order. -/
def created (messageId : Nat) (h : List (Input F × Answer)) : List Nat :=
  h.filterMap fun e =>
    match e.2 with
    | .created m (.ok candidateId) => if m = messageId then some candidateId else none
    | _ => none

/-- No execution for the message checks while another one is between its two
transactions. -/
def Sequential (s : System F) : Input F → Prop
  | .check _ messageId => ∀ tx ∈ s.opened, tx.messageId ≠ messageId
  | _ => True

/-! ## Messages -/

/-- Messages are immutable: no call of the candidates' service writes one. -/
theorem step_messages [Json.PyFloat F] (host : Host F) (db : Db F) (call : Call F) :
    (Candidates.step host db call).2.messages = db.messages := by
  have hcreate : ∀ (project : Project) (projectId : Nat) (new : NewCandidate F),
      (orRollback db (createAndQueue db project projectId new)).2.messages = db.messages := by
    intro project projectId new
    unfold orRollback
    split
    · rfl
    · next h =>
      obtain ⟨row, evidence, events, -, -, rfl⟩ := createAndQueue_frame h
      rfl
  cases call with
  | createCandidate projectId new =>
    simp only [Candidates.step, createCandidate]
    split
    · rfl
    · split
      · rfl
      · split
        · rfl
        · cases db.projects.get? projectId with
          | none => rfl
          | some project => exact hcreate project projectId new
  | beginModelDecision k =>
    simp only [Candidates.step, beginModelDecision]
    split
    · rfl
    · split <;> rfl
  | applyModelDecision svc k raw =>
    simp only [Candidates.step]
    rcases applyModelDecision_cases host svc db k raw with h | ⟨c, d, status, result, events, -, -, -, -, -, hdb⟩
    · rw [h]
    · rw [hdb]
      rfl
  | markModelFailureNeedsReview k code =>
    simp only [Candidates.step, markModelFailureNeedsReview]
    split
    · rfl
    · split <;> rfl
  | correct k action reviewer reason replacement =>
    simp only [Candidates.step, correct]
    split
    · rfl
    · split
      · rfl
      · split
        · rfl
        · split
          · rfl
          · split
            · rfl
            · unfold orRollback
              split
              · rfl
              · next hopen =>
                unfold correctOpen at hopen
                split at hopen
                · cases hopen
                · next id db1 hreplacement =>
                  obtain ⟨-, rfl⟩ := Prod.mk.inj (Except.ok.inj hopen)
                  have hone : db1.messages = db.messages := by
                    rcases createReplacement_frame hreplacement with rfl | ⟨row, evidence, events, -, -, rfl⟩ <;> rfl
                  rw [← hone]
                  simp only [addPolicyResult]
                  split
                  · unfold supersedeRows
                    split <;> rfl
                  · rfl
  | review k decision reviewer reason =>
    simp only [Candidates.step, reviewAdminCandidate]
    split
    · rfl
    · split
      · rfl
      · split <;> rfl
  | evaluate k =>
    simp only [Candidates.step, evaluate]
    split <;> rfl
  | publish svc k automatic =>
    simp only [Candidates.step, publish]
    split
    · rfl
    · next candidate _ => cases publishPlan host svc db k candidate automatic <;> rfl
  | setFlags projectId flags => rfl
  | setPolicy projectId policy => rfl

/-! ## The second transaction -/

/-- What is created from a request stands under the next key, with the columns of the
request. -/
theorem createAndQueue_row {db db' : Db F} {project : Project} {projectId k : Nat} {new : NewCandidate F}
    (h : createAndQueue db project projectId new = .ok (k, db')) :
    k = db.candidates.nextId ∧ db'.messages = db.messages ∧
      (∃ source, db.messages.get? new.sourceMessageId = some source ∧ source.projectId = projectId) ∧
      ∃ row, row.projectId = projectId ∧ row.sourceMessageId = new.sourceMessageId ∧ row.taskType = new.taskType ∧
        row.classifierVersion = "rule-v1" ∧ db'.candidates = db.candidates.insert row := by
  simp only [createAndQueue, createCandidateInSession] at h
  split at h
  · cases h
  · next id db₁ hcreate =>
    split at h
    · cases h
    · next event db₂ hqueue =>
      obtain ⟨rfl, rfl⟩ := Prod.mk.inj (Except.ok.inj h)
      obtain ⟨events, rfl⟩ := queueEvent_frame hqueue
      split at hcreate
      · cases hcreate
      · split at hcreate
        · cases hcreate
        · split at hcreate
          · cases hcreate
          · next source hsource =>
            split at hcreate
            · cases hcreate
            · next hproject =>
              split at hcreate
              · cases hcreate
              · next hadd =>
                obtain ⟨rfl, rfl⟩ := Prod.mk.inj (Except.ok.inj hcreate)
                obtain ⟨evidence, rfl⟩ := addEvidence_frame _ hadd
                exact ⟨rfl, rfl, ⟨source, hsource, Classical.not_not.mp hproject⟩, _, rfl, rfl, rfl, rfl, rfl⟩

/-- A candidate that the handler creates is one of the handler. -/
theorem createCandidate_ok {db db' : Db F} {projectId k : Nat} {role : String} {tx : Opened}
    (h : createCandidate db projectId (extracted role tx) = (.ok k, db')) :
    k = db.candidates.nextId ∧ db'.messages = db.messages ∧
      (∃ message, db.messages.get? tx.messageId = some message ∧ message.projectId = projectId) ∧
      ∃ row, IsExtracted projectId tx.messageId row ∧ db'.candidates = db.candidates.insert row := by
  unfold createCandidate orRollback at h
  split at h
  · cases h
  · next k' db₁ hresult =>
    obtain ⟨hk, rfl⟩ := Prod.mk.inj h
    obtain rfl := Except.ok.inj hk
    split at hresult
    · cases hresult
    · split at hresult
      · cases hresult
      · split at hresult
        · cases hresult
        · split at hresult
          · cases hresult
          · obtain ⟨hk, hmessages, hmessage, row, hproject, hsource, htask, hclassifier, hrows⟩ :=
              createAndQueue_row hresult
            exact ⟨hk, hmessages, hmessage, row, ⟨hproject, hsource, htask, hclassifier⟩, hrows⟩

/-- A creation that fails leaves the tables alone. -/
theorem createCandidate_error {db db' : Db F} {projectId : Nat} {new : NewCandidate F} {e : Error}
    (h : createCandidate db projectId new = (.error e, db')) : db' = db := by
  unfold createCandidate orRollback at h
  split at h
  · exact (Prod.mk.inj h).2.symm
  · obtain ⟨hk, -⟩ := Prod.mk.inj h
    cases hk

/-! ## The invariant -/

variable [Json.PyFloat F] (host : Host F)

/-- The candidates created for the message so far, all rejected, are what the check saw
when it began. -/
def RejectedBefore (s : System F) (inputs : List (Input F)) (messageId : Nat) : Prop :=
  ∃ before projectId after, inputs = before ++ .check projectId messageId :: after ∧
    created messageId (history (step host) s before) = created messageId (history (step host) s inputs) ∧
    ∀ k ∈ created messageId (history (step host) s inputs),
      ∃ c, (exec (step host) s before).db.candidates.get? k = some c ∧ c.status = .rejected

/-- What holds after the inputs, where executions for a message follow one another. -/
structure Inv (s : System F) (inputs : List (Input F)) : Prop where
  rows : ∀ messageId, ∀ k ∈ created messageId (history (step host) s inputs), ∃ c message,
    (exec (step host) s inputs).db.candidates.get? k = some c ∧
    (exec (step host) s inputs).db.messages.get? messageId = some message ∧
    IsExtracted message.projectId messageId c
  alone : ((exec (step host) s inputs).opened.map Opened.messageId).Nodup
  rejected : ∀ tx ∈ (exec (step host) s inputs).opened, RejectedBefore host s inputs tx.messageId

theorem created_snoc (s : System F) (inputs : List (Input F)) (input : Input F) (messageId : Nat) :
    created messageId (history (step host) s (inputs ++ [input])) =
      created messageId (history (step host) s inputs) ++
        created messageId [(input, (step host (exec (step host) s inputs) input).1)] := by
  rw [history_snoc, created, created, created, List.filterMap_append]

/-- An execution that is open stays as it is through an input that creates nothing for
its message. -/
theorem RejectedBefore.snoc {s : System F} {inputs : List (Input F)} {messageId : Nat}
    (h : RejectedBefore host s inputs messageId) {input : Input F}
    (hnone : created messageId [(input, (step host (exec (step host) s inputs) input).1)] = []) :
    RejectedBefore host s (inputs ++ [input]) messageId := by
  obtain ⟨before, projectId, after, rfl, hsame, hall⟩ := h
  refine ⟨before, projectId, after ++ [input], by simp, ?_, ?_⟩
  · rw [created_snoc, hnone, List.append_nil, hsame]
  · rw [created_snoc, hnone, List.append_nil]
    exact hall

omit [Json.PyFloat F] in
theorem isExtracted_of_origin {projectId messageId : Nat} {c c' : Candidate F} (h : c'.origin = c.origin)
    (hc : IsExtracted projectId messageId c) : IsExtracted projectId messageId c' := by
  obtain ⟨hproject, hsource, htask, hclassifier⟩ := hc
  exact ⟨(congrArg Origin.projectId h).trans hproject, (congrArg Origin.sourceMessageId h).trans hsource,
    (congrArg Origin.taskType h).trans htask, (congrArg Origin.classifierVersion h).trans hclassifier⟩

/-- An input that creates nothing, keeps origins and messages and opens nothing. -/
theorem Inv.quiet {s : System F} {inputs : List (Input F)} (h : Inv host s inputs) {input : Input F}
    (hnone : ∀ m, created m [(input, (step host (exec (step host) s inputs) input).1)] = [])
    (hrows : ∀ k c, (exec (step host) s inputs).db.candidates.get? k = some c → ∃ c',
      (step host (exec (step host) s inputs) input).2.db.candidates.get? k = some c' ∧ c'.origin = c.origin)
    (hmessages : (step host (exec (step host) s inputs) input).2.db.messages = (exec (step host) s inputs).db.messages)
    (hopened : (step host (exec (step host) s inputs) input).2.opened.Sublist (exec (step host) s inputs).opened) :
    Inv host s (inputs ++ [input]) where
  rows m k hk := by
    rw [created_snoc, hnone, List.append_nil] at hk
    obtain ⟨c, message, hc, hmessage, hextracted⟩ := h.rows m k hk
    obtain ⟨c', hc', horigin⟩ := hrows k c hc
    rw [exec_snoc]
    exact ⟨c', message, hc', by rw [hmessages, hmessage], isExtracted_of_origin horigin hextracted⟩
  alone := by
    rw [exec_snoc]
    exact h.alone.sublist (hopened.map _)
  rejected tx htx := by
    rw [exec_snoc] at htx
    exact (h.rejected tx (hopened.subset htx)).snoc host (hnone tx.messageId)

omit [Json.PyFloat F] in
/-- A check answers and changes at most the flags, or opens an execution where every
candidate of the handler for the message is rejected. -/
theorem check_cases (s : System F) (projectId messageId : Nat) :
    ((∀ m result, (check s projectId messageId).1 ≠ .created m result) ∧
      (check s projectId messageId).2.db.candidates = s.db.candidates ∧
      (check s projectId messageId).2.db.messages = s.db.messages ∧
      (check s projectId messageId).2.opened = s.opened) ∨
    ∃ message, s.db.messages.get? messageId = some message ∧ message.projectId = projectId ∧
      (∀ k c, s.db.candidates.get? k = some c → IsExtracted projectId messageId c → c.status = .rejected) ∧
      check s projectId messageId =
        (.checked, { s with opened := s.opened ++ [⟨projectId, messageId, message.content⟩] }) := by
  have hkept : ∀ a : Answer, (∀ m result, a ≠ .created m result) → ((∀ m result, (a, s).1 ≠ .created m result) ∧
      (a, s).2.db.candidates = s.db.candidates ∧ (a, s).2.db.messages = s.db.messages ∧
      (a, s).2.opened = s.opened) := fun a ha => ⟨ha, rfl, rfl, rfl⟩
  unfold check
  cases hmessage : s.db.messages.get? messageId with
  | none => exact Or.inl (hkept _ (by simp))
  | some message =>
    simp only
    split
    · exact Or.inl (hkept _ (by simp))
    · next hproject =>
      cases s.db.flags projectId with
      | none => exact Or.inl ⟨by simp, rfl, rfl, rfl⟩
      | some flags =>
        simp only
        split
        · exact Or.inl (hkept _ (by simp))
        · cases hexisting : existing s.db projectId messageId with
          | some k => exact Or.inl (hkept _ (by simp))
          | none =>
            refine Or.inr ⟨message, rfl, Classical.not_not.mp hproject, fun k c hk hextracted => ?_, rfl⟩
            rw [existing, Option.map_eq_none_iff, List.find?_eq_none] at hexisting
            have hnot := hexisting (k, c) ((Table.get?_eq_some_iff _ _ _).mp hk)
            rw [decide_eq_true_eq, not_and, Classical.not_not] at hnot
            exact hnot hextracted

theorem inv_start {s : System F} (h : s.opened = []) : Inv host s [] where
  rows m k hk := by cases hk
  alone := by
    rw [exec_nil, h]
    exact List.nodup_nil
  rejected tx htx := by
    rw [exec_nil, h] at htx
    cases htx

/-- Without one of several executions for different messages, the others are for other
messages. -/
theorem messageId_ne_of_mem_eraseIdx {opened : List Opened} (h : (opened.map Opened.messageId).Nodup) {i : Nat}
    {tx tx' : Opened} (hi : opened[i]? = some tx) (hmem : tx' ∈ opened.eraseIdx i) :
    tx'.messageId ≠ tx.messageId := by
  intro heq
  obtain ⟨j, hne, hj⟩ := List.mem_eraseIdx_iff_getElem?.mp hmem
  have hboth : (opened.map Opened.messageId)[j]? = (opened.map Opened.messageId)[i]? := by
    rw [List.getElem?_map, List.getElem?_map, hi, hj, Option.map_some, Option.map_some, heq]
  have hlt : j < (opened.map Opened.messageId).length := by
    rw [List.length_map]
    exact (List.getElem?_eq_some_iff.mp hj).1
  exact hne ((List.getElem?_inj hlt h).mp hboth)

/-- An execution that is created leaves those for other messages. -/
theorem inv_create {s : System F} {inputs : List (Input F)} (h : Inv host s inputs) (i : Nat) :
    Inv host s (inputs ++ [.create i]) := by
  cases hi : (exec (step host) s inputs).opened[i]? with
  | none =>
    refine h.quiet host (fun m => ?_) (fun k c hk => ⟨c, ?_, rfl⟩) ?_ ?_
    · simp [step, hi, created]
    · simpa only [step, hi] using hk
    · simp only [step, hi]
    · simp only [step, hi]
      exact List.Sublist.refl _
  | some tx =>
    have hsub : (step host (exec (step host) s inputs) (.create i)).2.opened.Sublist
        (exec (step host) s inputs).opened := by
      simp only [step, hi]
      exact List.eraseIdx_sublist _ _
    cases hout : createCandidate (exec (step host) s inputs).db tx.projectId
        (extracted ((exec (step host) s inputs).role tx.messageId) tx) with
    | mk result db' =>
      cases result with
      | error e =>
        obtain rfl := createCandidate_error hout
        refine h.quiet host (fun m => ?_) (fun k c hk => ⟨c, ?_, rfl⟩) ?_ hsub
        · simp [step, hi, hout, created]
        · simpa only [step, hi, hout] using hk
        · simp only [step, hi, hout]
      | ok k =>
        obtain ⟨rfl, hmessages, ⟨message, hmessage, hproject⟩, row, hrow, hrows⟩ := createCandidate_ok hout
        have hnew : ∀ m, created m [((Input.create i : Input F), (step host (exec (step host) s inputs) (.create i)).1)] =
            if tx.messageId = m then [(exec (step host) s inputs).db.candidates.nextId] else [] := by
          intro m
          have hanswer : (step host (exec (step host) s inputs) (.create i)).1 =
              .created tx.messageId (.ok (exec (step host) s inputs).db.candidates.nextId) := by
            simp only [step, hi, hout]
          rw [hanswer]
          by_cases hm : tx.messageId = m
          · rw [if_pos hm]
            simp only [created, List.filterMap_cons, List.filterMap_nil, if_pos hm]
          · rw [if_neg hm]
            simp only [created, List.filterMap_cons, List.filterMap_nil, if_neg hm]
        constructor
        · intro m k hk
          rw [created_snoc, hnew] at hk
          rw [exec_snoc]
          simp only [step, hi, hout]
          rw [hmessages, hrows]
          rcases List.mem_append.mp hk with hold | hlast
          · obtain ⟨c, old, hc, hold, hextracted⟩ := h.rows m k hold
            have hlt := Table.lt_nextId _ hc
            exact ⟨c, old, by rw [Table.get?_insert_ne _ _ (by omega), hc], hold, hextracted⟩
          · split at hlast
            · next hm =>
              subst hm
              rw [List.mem_singleton.mp hlast]
              exact ⟨row, message, Table.get?_insert_self _ _, hmessage, hproject ▸ hrow⟩
            · cases hlast
        · rw [exec_snoc]
          exact h.alone.sublist (hsub.map _)
        · intro tx' htx'
          rw [exec_snoc] at htx'
          have hmem : tx' ∈ (exec (step host) s inputs).opened.eraseIdx i := by
            simpa only [step, hi] using htx'
          have hne := messageId_ne_of_mem_eraseIdx h.alone hi hmem
          refine (h.rejected tx' (hsub.subset htx')).snoc host ?_
          rw [hnew, if_neg fun heq => hne heq.symm]

/-- **One input.** -/
theorem inv_step {s : System F} {inputs : List (Input F)} (h : Inv host s inputs) {input : Input F}
    (hguard : Sequential (exec (step host) s inputs) input) : Inv host s (inputs ++ [input]) := by
  cases input with
  | check projectId messageId =>
    rcases check_cases (exec (step host) s inputs) projectId messageId with
      ⟨hanswer, hcandidates, hmessages, hopened⟩ | ⟨message, hmessage, hproject, hrejected, hpassed⟩
    · refine h.quiet host (fun m => ?_) (fun k c hk => ⟨c, ?_, rfl⟩) ?_ ?_
      · cases hread : (check (exec (step host) s inputs) projectId messageId).1 with
        | created m' result => exact absurd hread (hanswer m' result)
        | _ => simp only [step, hread]; rfl
      · simpa only [step, hcandidates] using hk
      · simpa only [step] using hmessages
      · simp only [step, hopened]
        exact List.Sublist.refl _
    · have hnone : ∀ m, created m [((Input.check projectId messageId : Input F),
          (step host (exec (step host) s inputs) (.check projectId messageId)).1)] = [] := by
        intro m
        simp only [step, hpassed]
        rfl
      have hafter : exec (step host) s (inputs ++ [.check projectId messageId]) =
          { exec (step host) s inputs with
            opened := (exec (step host) s inputs).opened ++ [⟨projectId, messageId, message.content⟩] } := by
        rw [exec_snoc]
        simp only [step, hpassed]
      constructor
      · intro m k hk
        rw [created_snoc, hnone, List.append_nil] at hk
        rw [hafter]
        exact h.rows m k hk
      · rw [hafter, List.map_append, List.nodup_append]
        refine ⟨h.alone, by simp, ?_⟩
        intro m hm m' hm'
        obtain ⟨tx, htx, rfl⟩ := List.mem_map.mp hm
        rw [List.mem_singleton.mp hm']
        exact hguard tx htx
      · intro tx htx
        rw [hafter] at htx
        rcases List.mem_append.mp htx with hold | hlast
        · exact (h.rejected tx hold).snoc host (hnone tx.messageId)
        · rw [List.mem_singleton.mp hlast]
          refine ⟨inputs, projectId, [], rfl, ?_, fun k hk => ?_⟩
          · rw [created_snoc, hnone, List.append_nil]
          · rw [created_snoc, hnone, List.append_nil] at hk
            obtain ⟨c, message', hc, hmessage', hextracted⟩ := h.rows messageId k hk
            rw [hmessage] at hmessage'
            obtain rfl := Option.some.inj hmessage'
            exact ⟨c, hc, hrejected k c hc (hproject ▸ hextracted)⟩
  | create i => exact inv_create host h i
  | die i =>
    exact h.quiet host (fun m => rfl) (fun k c hk => ⟨c, hk, rfl⟩) rfl (List.eraseIdx_sublist _ _)
  | setMemoryV11 projectId enabled =>
    exact h.quiet host (fun m => rfl) (fun k c hk => ⟨c, hk, rfl⟩) rfl (List.Sublist.refl _)
  | call call =>
    exact h.quiet host (fun m => rfl) (fun k c hk => step_origin host _ call hk) (step_messages host _ call)
      (List.Sublist.refl _)

/-- **One run**, in which the executions for a message follow one another. -/
theorem inv_run {s : System F} (hs : s.opened = []) (inputs : List (Input F))
    (hguard : Always (step host) Sequential s inputs) : Inv host s inputs := by
  induction inputs using List.reverseRecOn with
  | nil => exact inv_start host hs
  | append_singleton inputs input ih =>
    obtain ⟨hbefore, hlast⟩ := (always_snoc _ _ _ _).mp hguard
    exact inv_step host (ih hbefore) hlast

/-- **A further candidate is created only after a rejection.**  Where the executions for
a message follow one another, whatever else is called in between, an execution that
creates a candidate had checked when every candidate created for the message before it
was there and rejected. -/
theorem extraction_after_rejection (s : System F) (hs : s.opened = []) (inputs : List (Input F))
    (hguard : Always (step host) Sequential s inputs) (i messageId k : Nat)
    (hcreated : (step host (exec (step host) s inputs) (.create i)).1 = .created messageId (.ok k)) :
    RejectedBefore host s inputs messageId := by
  have h := inv_run host hs inputs hguard
  cases hi : (exec (step host) s inputs).opened[i]? with
  | none => simp [step, hi] at hcreated
  | some tx =>
    have htx : tx.messageId = messageId := by
      simp only [step, hi] at hcreated
      exact (Answer.created.inj hcreated).1
    rw [← htx]
    exact h.rejected tx (List.mem_of_getElem? hi)

/-! ## A message that is extracted twice -/

/-- The sample project, with extraction switched on. -/
def extractionStart : System Empty := ⟨sampleDb, fun _ => true, fun _ => "user", []⟩

/-- The candidate of the message is rejected by its decision; the message is delivered
again, and checked. -/
def rejectedRun : List (Input Empty) :=
  [.check 0 0, .create 0, .call (.beginModelDecision 0), .call (.applyModelDecision {} 0 (sampleDecision "skip")),
    .check 0 0]

theorem rejectedRun_sequential : Always (step sampleHost) Sequential extractionStart rejectedRun := by
  refine ⟨?_, trivial, trivial, trivial, ?_, trivial⟩
  · intro tx htx
    cases htx
  · have hnone : (exec (step sampleHost) extractionStart (rejectedRun.take 4)).opened = [] := by decide
    intro tx (htx : tx ∈ (exec (step sampleHost) extractionStart (rejectedRun.take 4)).opened)
    rw [hnone] at htx
    cases htx

/-- The second candidate is created after the first was rejected. -/
theorem rejectedRun_rejected : RejectedBefore sampleHost extractionStart rejectedRun 0 := by
  have hopened : (exec (step sampleHost) extractionStart rejectedRun).opened[0]? = some ⟨0, 0, "Use tabs"⟩ := by
    decide +kernel
  refine extraction_after_rejection sampleHost extractionStart rfl rejectedRun rejectedRun_sequential 0 0 1 ?_
  simp only [step, hopened]
  exact congrArg (Answer.created 0) (by decide +kernel)

/-- **After a rejection the message is extracted a second time.** -/
theorem rejected_message_extracted_twice : ¬ ∀ (s : System Empty) (inputs : List (Input Empty)) (messageId : Nat),
    s.opened = [] → (created messageId (history (step sampleHost) s inputs)).length ≤ 1 := by
  intro h
  have htwice := h extractionStart (rejectedRun ++ [.create 0]) 0 rfl
  revert htwice
  decide +kernel

end CodexMemory.Extraction
