import CodexMemory.Candidates.Effects

/-!
# What one step does to the candidate rows

Every call but a creating `publish` rewrites at most the row of the candidate
it names (`Rewrites`), may add a new candidate, and creates no memory.  One
lemma for each operation says which function it rewrites the row with; `Accepted`
says when a correction is carried out.
-/

namespace CodexMemory.Candidates

variable {F : Type}

/-- From `db` to `db'` the row of candidate `k` is rewritten by `f`, every other
row stays, new candidates are generated and unpublished, and no memory is
created. -/
structure Rewrites (db db' : Db F) (k : Nat) (f : Candidate F → Candidate F) : Prop where
  rows : ∀ i c, db.candidates.get? i = some c →
    db'.candidates.get? i = some (if i = k then f c else c)
  fresh : ∀ i c, db'.candidates.get? i = some c → db.candidates.get? i = none →
    c.status = .generated ∧ c.publishedMemoryId = none
  nextMemory : db'.memories.nextId = db.memories.nextId
  memories : ∀ m, (db'.memories.get? m).isSome = (db.memories.get? m).isSome

theorem Rewrites.refl (db : Db F) (k : Nat) : Rewrites db db k id where
  rows i c h := by simpa using h
  fresh i c h hnone := by
    rw [hnone] at h
    cases h
  nextMemory := rfl
  memories _ := rfl

/-- Only the candidates and the memories matter. -/
theorem Rewrites.congr {db db' db'' : Db F} {k : Nat} {f : Candidate F → Candidate F}
    (h : Rewrites db db' k f) (hc : db''.candidates = db'.candidates)
    (hm : db''.memories = db'.memories) : Rewrites db db'' k f where
  rows i c hi := by
    rw [hc]
    exact h.rows i c hi
  fresh i c hi := by
    rw [hc] at hi
    exact h.fresh i c hi
  nextMemory := by
    rw [hm]
    exact h.nextMemory
  memories m := by
    rw [hm]
    exact h.memories m

/-- After new candidates, the row of an old one is written. -/
theorem Rewrites.setCandidate {db db' : Db F} {k : Nat} (h : Rewrites db db' k id)
    {candidate : Candidate F} (hk : db.candidates.get? k = some candidate) (row : Candidate F) :
    Rewrites db (setCandidate db' k row) k fun _ => row where
  rows i c hi := by
    have hrow := h.rows i c hi
    by_cases hik : i = k
    · subst hik
      simp [Candidates.setCandidate, hrow]
    · rw [if_neg hik] at hrow ⊢
      exact (Table.get?_modify_ne _ _ hik).trans hrow
  fresh i c hi hnone := by
    have hik : i ≠ k := by
      rintro rfl
      rw [hnone] at hk
      cases hk
    exact h.fresh i c ((Table.get?_modify_ne _ _ hik).symm.trans hi) hnone
  nextMemory := h.nextMemory
  memories := h.memories

theorem Rewrites.addPolicyResult {db db' : Db F} {k : Nat} {f : Candidate F → Candidate F}
    (h : Rewrites db db' k f) (id : Nat) (decision : PolicyDecision) (reasonCodes : List String)
    (checks : Checks) (reviewer reason : Option String) :
    Rewrites db (addPolicyResult db' id decision reasonCodes checks reviewer reason) k f :=
  h.congr rfl rfl

theorem Rewrites.insert (db : Db F) (k : Nat) {row : Candidate F} (hstatus : row.status = .generated)
    (hpub : row.publishedMemoryId = none) (evidence : Table Evidence) (events : Table Event) :
    Rewrites db
      { db with candidates := db.candidates.insert row, evidence := evidence, events := events }
      k id where
  rows i c hi := by
    have hlt := db.candidates.lt_nextId hi
    rw [Table.get?_insert_ne _ _ (by omega), hi]
    simp
  fresh i c hi hnone := by
    have hnew : i = db.candidates.nextId := by
      by_contra hne
      rw [Table.get?_insert_ne _ _ hne, hnone] at hi
      cases hi
    rw [hnew, Table.get?_insert_self] at hi
    cases hi
    exact ⟨hstatus, hpub⟩
  nextMemory := rfl
  memories _ := rfl

/-! ## The operations -/

theorem orRollback_createAndQueue_rewrites (db : Db F) (project : Project) (projectId : Nat)
    (new : NewCandidate F) (k : Nat) :
    Rewrites db (orRollback db (createAndQueue db project projectId new)).2 k id := by
  unfold orRollback
  split
  · exact Rewrites.refl db k
  · next newId db' hcreate =>
    obtain ⟨row, evidence, events, hstatus, hpub, rfl⟩ := createAndQueue_frame hcreate
    exact Rewrites.insert db k hstatus hpub evidence events

theorem createCandidate_rewrites (db : Db F) (projectId : Nat) (new : NewCandidate F) (k : Nat) :
    Rewrites db (createCandidate db projectId new).2 k id := by
  unfold createCandidate
  split
  · exact Rewrites.refl db k
  · split
    · exact Rewrites.refl db k
    · split
      · exact Rewrites.refl db k
      · split
        · exact Rewrites.refl db k
        · next project _ => exact orRollback_createAndQueue_rewrites db project projectId new k

/-- `begin_model_decision` touches open candidates only. -/
theorem beginModelDecision_rewrites (db : Db F) (k : Nat) :
    Rewrites db (beginModelDecision db k).2 k id ∨
      ∃ c, db.candidates.get? k = some c ∧
        (c.status = .generated ∨ c.status = .needsReview ∨ c.status = .validating) ∧
        Rewrites db (beginModelDecision db k).2 k fun _ => { c with status := .validating } := by
  unfold beginModelDecision
  cases hc : db.candidates.get? k with
  | none => exact Or.inl (Rewrites.refl db k)
  | some c =>
    simp only
    cases hs : c.status with
    | generated => exact Or.inr ⟨c, rfl, by simp [hs], (Rewrites.refl db k).setCandidate hc _⟩
    | needsReview => exact Or.inr ⟨c, rfl, by simp [hs], (Rewrites.refl db k).setCandidate hc _⟩
    | validating => exact Or.inr ⟨c, rfl, by simp [hs], (Rewrites.refl db k).setCandidate hc _⟩
    | approved => exact Or.inl (Rewrites.refl db k)
    | published => exact Or.inl (Rewrites.refl db k)
    | rejected => exact Or.inl (Rewrites.refl db k)
    | superseded => exact Or.inl (Rewrites.refl db k)

/-- A model failure touches candidates only that are not closed. -/
theorem markModelFailureNeedsReview_rewrites (db : Db F) (k : Nat) (errorCode : String) :
    Rewrites db (markModelFailureNeedsReview db k errorCode).2 k id ∨
      ∃ c, db.candidates.get? k = some c ∧
        c.status ≠ .published ∧ c.status ≠ .superseded ∧ c.status ≠ .rejected ∧
        Rewrites db (markModelFailureNeedsReview db k errorCode).2 k fun _ =>
          { c with status := .needsReview } := by
  unfold markModelFailureNeedsReview
  cases hc : db.candidates.get? k with
  | none => exact Or.inl (Rewrites.refl db k)
  | some c =>
    have hmark := fun decision reasonCodes checks => ((Rewrites.refl db k).setCandidate hc
      { c with status := .needsReview }).addPolicyResult k decision reasonCodes checks none none
    simp only
    cases hs : c.status with
    | generated => exact Or.inr ⟨c, rfl, by simp [hs], by simp [hs], by simp [hs], hmark _ _ _⟩
    | needsReview => exact Or.inr ⟨c, rfl, by simp [hs], by simp [hs], by simp [hs], hmark _ _ _⟩
    | validating => exact Or.inr ⟨c, rfl, by simp [hs], by simp [hs], by simp [hs], hmark _ _ _⟩
    | approved => exact Or.inr ⟨c, rfl, by simp [hs], by simp [hs], by simp [hs], hmark _ _ _⟩
    | published => exact Or.inl (Rewrites.refl db k)
    | rejected => exact Or.inl (Rewrites.refl db k)
    | superseded => exact Or.inl (Rewrites.refl db k)

/-- The status that a review sets. -/
def ReviewDecision.status : ReviewDecision → Status
  | .approve => .approved
  | .reject => .rejected

/-- The review of candidate `k` is carried out: it names a decision, a candidate
and its project. -/
structure Reviews (db : Db F) (k : Nat) (decision : String) (verdict : ReviewDecision)
    (candidate : Candidate F) : Prop where
  verdict : ReviewDecision.ofText? decision = some verdict
  row : db.candidates.get? k = some candidate
  project : (db.projects.get? candidate.projectId).isSome

/-- A review does not look at the status of the candidate. -/
theorem reviewAdminCandidate_rewrites (db : Db F) (k : Nat) (decision : String)
    (reviewer reason : Option String) :
    (Rewrites db (reviewAdminCandidate db k decision reviewer reason).2 k id ∧
      ∀ verdict c, ¬ Reviews db k decision verdict c) ∨
    ∃ verdict c, Reviews db k decision verdict c ∧
      Rewrites db (reviewAdminCandidate db k decision reviewer reason).2 k fun _ =>
        { c with status := verdict.status } := by
  unfold reviewAdminCandidate
  cases hverdict : ReviewDecision.ofText? decision with
  | none =>
    refine Or.inl ⟨Rewrites.refl db k, fun verdict c h => ?_⟩
    rw [h.verdict] at hverdict
    cases hverdict
  | some verdict =>
    cases hc : db.candidates.get? k with
    | none =>
      refine Or.inl ⟨Rewrites.refl db k, fun verdict c h => ?_⟩
      rw [h.row] at hc
      cases hc
    | some c =>
      cases hproject : db.projects.get? c.projectId with
      | none =>
        simp only [hproject]
        refine Or.inl ⟨Rewrites.refl db k, fun verdict d h => ?_⟩
        have hrow := h.row
        rw [hc] at hrow
        cases hrow
        simpa [hproject] using h.project
      | some project =>
        simp only [hproject]
        have hset := (Rewrites.refl db k).setCandidate hc { c with status := verdict.status }
        refine Or.inr ⟨verdict, c, ⟨hverdict, hc, by simp [hproject]⟩, hset.congr ?_ rfl⟩
        cases verdict <;> rfl

/-! ## Decisions of the model -/

/-- A decision touches candidates only that are open. -/
theorem applyModelDecision_rewrites [Json.PyFloat F] (host : Host F) (svc : Service) (db : Db F)
    (k : Nat) (raw : CandidateDecision F) :
    Rewrites db (applyModelDecision host svc db k raw).2 k id ∨
      ∃ c decision status, Decides db k raw c decision ∧
        Rewrites db (applyModelDecision host svc db k raw).2 k fun _ =>
          decidedRow c decision status := by
  rcases applyModelDecision_cases host svc db k raw with
    h | ⟨c, d, status, result, events, hd, -, -, -, -, hdb⟩
  · rw [h]
    exact Or.inl (Rewrites.refl db k)
  · rw [hdb]
    have hset := (Rewrites.refl db k).setCandidate hd.row (decidedRow c d status)
    exact Or.inr ⟨c, d, status, hd, hset.congr rfl rfl⟩

/-! ## Corrections -/

/-- The status that a correction sets. -/
def CorrectAction.status : CorrectAction → Status
  | .discard | .reject => .rejected
  | .supersede | .replace => .superseded

/-- The correction of candidate `k` is carried out: its arguments are in order,
the candidate and its project exist, a published candidate is not discarded or
rejected, and the replacement, if there is one, can be created. -/
structure Corrects (db : Db F) (k : Nat) (text reviewer reason : String)
    (replacement : Replacement F) (action : CorrectAction) (candidate : Candidate F) : Prop where
  parsed : CorrectAction.ofText? (lower (strip text)) = some action
  signed : strip reviewer ≠ "" ∧ strip reason ≠ ""
  row : db.candidates.get? k = some candidate
  unpublished : action = .discard ∨ action = .reject → candidate.publishedMemoryId = none
  replaced : ∃ project out, db.projects.get? candidate.projectId = some project ∧
    createReplacement db project k candidate action replacement = .ok out

theorem createReplacement_rewrites {db : Db F} {project : Project} {k : Nat} {candidate : Candidate F}
    {action : CorrectAction} {replacement : Replacement F} {newId : Option Nat} {db' : Db F}
    (h : createReplacement db project k candidate action replacement = .ok (newId, db')) :
    Rewrites db db' k id := by
  rcases createReplacement_frame h with rfl | ⟨row, evidence, events, hstatus, hpub, rfl⟩
  · exact Rewrites.refl _ k
  · exact Rewrites.insert db k hstatus hpub evidence events

/-- The superseded memory is marked and stays. -/
theorem supersedeRows_rewrites {db db' : Db F} {k : Nat} (h : Rewrites db db' k id)
    {candidate : Candidate F} (hk : db.candidates.get? k = some candidate) :
    Rewrites db (supersedeRows db' k candidate) k fun _ => { candidate with status := .superseded } := by
  have hset := h.setCandidate hk { candidate with status := .superseded }
  unfold supersedeRows
  split
  · exact hset
  · refine ⟨hset.rows, hset.fresh, hset.nextMemory, fun i => ?_⟩
    simp only [Table.get?_modify, Option.isSome_map]
    exact hset.memories i

theorem correctOpen_rewrites {db : Db F} {project : Project} {k : Nat} {candidate : Candidate F}
    (hk : db.candidates.get? k = some candidate) {action : CorrectAction} {reviewer reason : String}
    {replacement : Replacement F} {newId : Option Nat} {db' : Db F}
    (h : correctOpen db project k candidate action reviewer reason replacement = .ok (newId, db')) :
    Rewrites db db' k fun _ => { candidate with status := action.status } := by
  simp only [correctOpen] at h
  split at h
  · cases h
  · next db1 hcreate =>
    cases h
    have hnew := createReplacement_rewrites hcreate
    have hset := hnew.setCandidate hk { candidate with status := .rejected }
    have hsup := supersedeRows_rewrites hnew hk
    cases action with
    | discard => exact hset.congr rfl rfl
    | reject => exact hset.congr rfl rfl
    | supersede => exact hsup.congr rfl rfl
    | replace => exact hsup.congr rfl rfl

/-- A correction looks at the published memory of a candidate, not at its
status. -/
theorem correct_rewrites (db : Db F) (k : Nat) (text reviewer reason : String)
    (replacement : Replacement F) :
    (Rewrites db (correct db k text reviewer reason replacement).2 k id ∧
      ∀ action c, ¬ Corrects db k text reviewer reason replacement action c) ∨
    ∃ action c, Corrects db k text reviewer reason replacement action c ∧
      Rewrites db (correct db k text reviewer reason replacement).2 k fun _ =>
        { c with status := action.status } := by
  unfold correct
  cases haction : CorrectAction.ofText? (lower (strip text)) with
  | none =>
    refine Or.inl ⟨Rewrites.refl db k, fun action c h => ?_⟩
    rw [h.parsed] at haction
    cases haction
  | some action =>
    simp only
    split
    · next hblank =>
      refine Or.inl ⟨Rewrites.refl db k, fun _ c h => ?_⟩
      rcases hblank with e | e
      · exact h.signed.1 e
      · exact h.signed.2 e
    · next hblank =>
      cases hc : db.candidates.get? k with
      | none =>
        refine Or.inl ⟨Rewrites.refl db k, fun _ c h => ?_⟩
        rw [h.row] at hc
        cases hc
      | some c =>
        have hrow : ∀ {action' c'}, Corrects db k text reviewer reason replacement action' c' →
            action' = action ∧ c' = c := by
          intro action' c' h
          exact ⟨Option.some.inj (h.parsed.symm.trans haction), Option.some.inj (h.row.symm.trans hc)⟩
        cases hproject : db.projects.get? c.projectId with
        | none =>
          simp only [hproject]
          refine Or.inl ⟨Rewrites.refl db k, fun action' c' h => ?_⟩
          obtain ⟨rfl, rfl⟩ := hrow h
          obtain ⟨project, out, hp, -⟩ := h.replaced
          rw [hproject] at hp
          cases hp
        | some project =>
          simp only [hproject]
          split
          · next hpublished =>
            refine Or.inl ⟨Rewrites.refl db k, fun action' c' h => ?_⟩
            obtain ⟨rfl, rfl⟩ := hrow h
            simp [h.unpublished hpublished.1] at hpublished
          · next hunpublished =>
            cases hopen : correctOpen db project k c action reviewer reason replacement with
            | error e =>
              refine Or.inl ⟨Rewrites.refl db k, fun action' c' h => ?_⟩
              obtain ⟨rfl, rfl⟩ := hrow h
              obtain ⟨project', out, hp, hout⟩ := h.replaced
              rw [hproject] at hp
              cases hp
              simp [correctOpen, hout] at hopen
            | ok out =>
              refine Or.inr ⟨action, c, ⟨haction, ?_, hc, ?_, project, ?_⟩, correctOpen_rewrites hc hopen⟩
              · exact not_or.mp hblank
              · intro h
                cases hm : c.publishedMemoryId with
                | none => rfl
                | some m => exact absurd ⟨h, by simp [hm]⟩ hunpublished
              · cases hcreate : createReplacement db project k c action replacement with
                | error e => simp [correctOpen, hcreate] at hopen
                | ok out => exact ⟨out, hproject, rfl⟩

/-! ## Publication -/

/-- Without a creation, `publish` may send an open candidate to review. -/
theorem commitPublish_rewrites {db : Db F} {k : Nat} {current : Candidate F}
    (hk : db.candidates.get? k = some current) (read : Candidate F) (plan : PublishPlan F) :
    (∃ memory messageIds checks, plan = .create memory messageIds checks) ∨
    Rewrites db (commitPublish db k read plan).2 k id ∨
    ∃ status checks, plan = .refuse status checks ∧ status ≠ read.status ∧
      Rewrites db (commitPublish db k read plan).2 k fun _ => { current with status := status } := by
  cases plan with
  | raise e => exact Or.inr (Or.inl (Rewrites.refl db k))
  | existing m => exact Or.inr (Or.inl (Rewrites.refl db k))
  | create memory messageIds checks => exact Or.inl ⟨memory, messageIds, checks, rfl⟩
  | refuse status checks =>
    right
    by_cases hs : status = read.status
    · left
      refine ⟨fun i c hi => ?_, fun i c hi hnone => ?_, rfl, fun _ => rfl⟩
      · simp [commitPublish, addPolicyResult, Table.get?_modify, hs, hi]
      · simp [commitPublish, addPolicyResult, Table.get?_modify, hs, hnone] at hi
    · right
      refine ⟨status, checks, rfl, hs, fun i c hi => ?_, fun i c hi hnone => ?_, rfl, fun _ => rfl⟩
      · by_cases hik : i = k
        · subst hik
          rw [hk] at hi
          cases hi
          simp [commitPublish, addPolicyResult, hs, hk]
        · simp [commitPublish, addPolicyResult, Table.get?_modify, hik, hi]
      · simp [commitPublish, addPolicyResult, Table.get?_modify, hnone] at hi

/-- A creating commit points the candidate to the new memory. -/
theorem commitPublish_create (db : Db F) (k : Nat) (read : Candidate F) (memory : Memory F)
    (messageIds : List Nat) (checks : Checks) :
    let out := commitPublish db k read (.create memory messageIds checks)
    out.1 = .ok db.memories.nextId ∧ out.2.memories = db.memories.insert memory ∧
      ∀ i, out.2.candidates.get? i = (db.candidates.get? i).map fun c =>
        if i = k then
          { c with
            status := if read.status = .published then c.status else .published
            publishedMemoryId := some db.memories.nextId }
        else c := by
  refine ⟨rfl, rfl, fun i => ?_⟩
  simp [commitPublish, addPolicyResult, Table.get?_modify]

/-! ## Every other call -/

def Call.isPublish : Call F → Bool
  | .publish _ _ _ => true
  | _ => false

/-- The columns of a candidate that are written once, when it is created. -/
structure Origin (F : Type) where
  projectId : Nat
  sourceMessageId : Nat
  taskType : String
  level : Level
  scope : Scope
  memoryType : String
  title : String
  content : Json F
  classifierVersion : String

def Candidate.origin (c : Candidate F) : Origin F :=
  ⟨c.projectId, c.sourceMessageId, c.taskType, c.level, c.scope, c.memoryType, c.title, c.content, c.classifierVersion⟩

/-- Every call but `publish` rewrites at most one row, and keeps its published memory
and its origin. -/
theorem step_rewrites [Json.PyFloat F] (host : Host F) (db : Db F) {call : Call F}
    (hcall : call.isPublish = false) :
    ∃ k f, Rewrites db (step host db call).2 k f ∧ ∀ c, db.candidates.get? k = some c →
      (f c).publishedMemoryId = c.publishedMemoryId ∧ (f c).origin = c.origin := by
  have hid : ∀ {db' : Db F} {k}, Rewrites db db' k id → ∃ k f, Rewrites db db' k f ∧
      ∀ c, db.candidates.get? k = some c →
        (f c).publishedMemoryId = c.publishedMemoryId ∧ (f c).origin = c.origin :=
    fun h => ⟨_, id, h, fun _ _ => ⟨rfl, rfl⟩⟩
  have hrow : ∀ {db' : Db F} {k c row}, Rewrites db db' k (fun _ => row) →
      db.candidates.get? k = some c → row.publishedMemoryId = c.publishedMemoryId → row.origin = c.origin →
      ∃ k f, Rewrites db db' k f ∧ ∀ c, db.candidates.get? k = some c →
        (f c).publishedMemoryId = c.publishedMemoryId ∧ (f c).origin = c.origin := by
    intro db' k c row h hk hp ho
    refine ⟨k, _, h, fun d hd => ?_⟩
    rw [hk] at hd
    cases hd
    exact ⟨hp, ho⟩
  cases call with
  | createCandidate projectId new =>
    simp only [step]
    exact hid (createCandidate_rewrites db projectId new 0)
  | beginModelDecision k =>
    simp only [step]
    rcases beginModelDecision_rewrites db k with h | ⟨c, hc, -, h⟩
    · exact hid h
    · exact hrow h hc rfl rfl
  | applyModelDecision svc k raw =>
    simp only [step]
    rcases applyModelDecision_rewrites host svc db k raw with h | ⟨c, decision, status, hd, h⟩
    · exact hid h
    · exact hrow h hd.row rfl rfl
  | markModelFailureNeedsReview k code =>
    simp only [step]
    rcases markModelFailureNeedsReview_rewrites db k code with h | ⟨c, hc, -, -, -, h⟩
    · exact hid h
    · exact hrow h hc rfl rfl
  | correct k action reviewer reason replacement =>
    simp only [step]
    rcases correct_rewrites db k action reviewer reason replacement with ⟨h, -⟩ | ⟨act, c, hacc, h⟩
    · exact hid h
    · exact hrow h hacc.row rfl rfl
  | review k decision reviewer reason =>
    simp only [step]
    rcases reviewAdminCandidate_rewrites db k decision reviewer reason with ⟨h, -⟩ | ⟨v, c, hacc, h⟩
    · exact hid h
    · exact hrow h hacc.row rfl rfl
  | evaluate k =>
    refine hid (k := k) ?_
    simp only [step, evaluate]
    split
    · exact Rewrites.refl db k
    · exact (Rewrites.refl db k).addPolicyResult _ _ _ _ _ _
  | publish svc k automatic => cases hcall
  | setFlags projectId flags => exact hid ((Rewrites.refl db 0).congr rfl rfl)
  | setPolicy projectId policy => exact hid ((Rewrites.refl db 0).congr rfl rfl)

/-- **Only `publish` moves the pointer.**  Every other call rewrites at most one
row and keeps its published memory. -/
theorem step_keeps_pointer [Json.PyFloat F] (host : Host F) (db : Db F) {call : Call F}
    (hcall : call.isPublish = false) :
    ∃ k f, Rewrites db (step host db call).2 k f ∧
      ∀ c, db.candidates.get? k = some c → (f c).publishedMemoryId = c.publishedMemoryId := by
  obtain ⟨k, f, h, hf⟩ := step_rewrites host db hcall
  exact ⟨k, f, h, fun c hc => (hf c hc).1⟩

/-- A rewritten row keeps its origin. -/
theorem Rewrites.origin {db db' : Db F} {k : Nat} {f : Candidate F → Candidate F} (h : Rewrites db db' k f)
    (hf : ∀ c, db.candidates.get? k = some c → (f c).origin = c.origin) {i : Nat} {c : Candidate F}
    (hi : db.candidates.get? i = some c) : ∃ c', db'.candidates.get? i = some c' ∧ c'.origin = c.origin := by
  refine ⟨_, h.rows i c hi, ?_⟩
  split
  · next hik =>
    subst hik
    exact hf c hi
  · rfl

/-- **No call changes the origin of a candidate.** -/
theorem step_origin [Json.PyFloat F] (host : Host F) (db : Db F) (call : Call F) {i : Nat} {c : Candidate F}
    (hi : db.candidates.get? i = some c) :
    ∃ c', (step host db call).2.candidates.get? i = some c' ∧ c'.origin = c.origin := by
  cases hcall : call.isPublish with
  | false =>
    obtain ⟨k, f, h, hf⟩ := step_rewrites host db hcall
    exact h.origin (fun c hc => (hf c hc).2) hi
  | true =>
    cases call with
    | publish svc k automatic =>
      simp only [step, publish]
      cases hk : db.candidates.get? k with
      | none => exact ⟨c, hi, rfl⟩
      | some read =>
        simp only
        rcases commitPublish_rewrites hk read (publishPlan host svc db k read automatic) with
          ⟨memory, messageIds, checks, hplan⟩ | h | ⟨status, checks, -, -, h⟩
        · obtain ⟨-, -, hrows⟩ := commitPublish_create db k read memory messageIds checks
          rw [hplan, hrows, hi]
          refine ⟨_, rfl, ?_⟩
          split <;> rfl
        · exact h.origin (fun _ _ => rfl) hi
        · refine h.origin (fun d hd => ?_) hi
          rw [hk] at hd
          obtain rfl := Option.some.inj hd
          rfl
    | _ => cases hcall

end CodexMemory.Candidates
