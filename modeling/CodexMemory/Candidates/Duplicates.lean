import CodexMemory.Candidates.Twins

/-!
# Duplicates of memories

A decision to publish closes its candidate when a published memory has its content.  A
memory that a correction has superseded keeps the status `published`, so it closes
candidates too.

* `applyOpen_duplicateMemory`: which decisions close their candidate as `duplicate_memory`;
* `duplicates_live_iff`: in a run every such decision has a live memory to point at exactly
  when each superseded memory with the candidate's content has a live one beside it;
* `replacement_closed_by_replaced`: a replacement that is closed because of the memory it replaces.
-/

namespace CodexMemory.Candidates

open CodexMemory.Trace

variable {F : Type}

/-! ## Live memories -/

/-- The memory is published, and neither deprecated nor superseded. -/
structure Memory.Live (memory : Memory F) : Prop where
  published : memory.status = "published"
  current : memory.deprecated = false
  notSuperseded : memory.reviewStatus ≠ "superseded"

/-- The memory is of the candidate's project, and has its level, type and content. -/
structure SameKnowledge [Json.PyFloat F] (c : Candidate F) (memory : Memory F) : Prop where
  project : memory.projectId = some c.projectId
  scope : memory.scope = .project
  level : memory.level = c.level
  memoryType : memory.memoryType = c.memoryType
  content : contentKey memory.content = contentKey c.content

section Duplicates

variable [Json.PyFloat F] (host : Host F)

/-- A live memory has what the candidate has. -/
def LiveDuplicate (db : Db F) (c : Candidate F) : Prop :=
  ∃ m memory, db.memories.get? m = some memory ∧ memory.Live ∧ SameKnowledge c memory

/-- So has a memory that is published but was deprecated or superseded. -/
def BuriedDuplicate (db : Db F) (c : Candidate F) : Prop :=
  ∃ m memory, db.memories.get? m = some memory ∧ memory.status = "published" ∧ ¬ memory.Live ∧ SameKnowledge c memory

theorem hasDuplicateMemory_iff_live_or_buried (db : Db F) (c : Candidate F) :
    hasDuplicateMemory db c = true ↔ LiveDuplicate db c ∨ BuriedDuplicate db c := by
  rw [hasDuplicateMemory_iff]
  constructor
  · rintro ⟨m, memory, hget, hproject, hscope, hstatus, hlevel, htype, hcontent⟩
    have hsame : SameKnowledge c memory := ⟨hproject, hscope, hlevel, htype, hcontent⟩
    by_cases hlive : memory.Live
    · exact Or.inl ⟨m, memory, hget, hlive, hsame⟩
    · exact Or.inr ⟨m, memory, hget, hstatus, hlive, hsame⟩
  · rintro (⟨m, memory, hget, hlive, hsame⟩ | ⟨m, memory, hget, hstatus, -, hsame⟩)
    · exact ⟨m, memory, hget, hsame.project, hsame.scope, hlive.published, hsame.level, hsame.memoryType, hsame.content⟩
    · exact ⟨m, memory, hget, hsame.project, hsame.scope, hstatus, hsame.level, hsame.memoryType, hsame.content⟩

/-! ## Decisions that close a candidate -/

/-- The answer closes the candidate as a duplicate of a memory. -/
def Application.closesAsMemory (app : Application) : Prop :=
  app.candidateStatus = .superseded ∧ app.reasonCodes = ["duplicate_memory"]

/-- **A decision to publish closes its candidate as `duplicate_memory` exactly when a
published memory has its content.** -/
theorem applyOpen_duplicateMemory (svc : Service) (db : Db F) (project : Project) (k : Nat) (c : Candidate F)
    {d : Decision F} (hpublish : d.decision = .publish) :
    (∃ app db', applyOpen host svc db project k c d = .ok (app, db') ∧ app.closesAsMemory) ↔
      hasDuplicateMemory db c = true := by
  unfold applyOpen
  simp only [hpublish]
  cases hmemory : hasDuplicateMemory db c with
  | true =>
    simp only [Bool.true_or, if_true, iff_true]
    exact ⟨_, _, rfl, rfl, rfl⟩
  | false =>
    simp only [Bool.false_or, Bool.false_eq_true, iff_false, if_false]
    rintro ⟨app, db', happly, hstatus, hcodes⟩
    split at happly
    · obtain ⟨rfl, -⟩ := Prod.mk.inj (Except.ok.inj happly)
      simp at hcodes
    · split at happly
      · obtain ⟨rfl, -⟩ := Prod.mk.inj (Except.ok.inj happly)
        cases hstatus
      · split at happly
        · cases happly
        · obtain ⟨rfl, -⟩ := Prod.mk.inj (Except.ok.inj happly)
          cases hstatus

/-- A decision of the call that closes its candidate as a duplicate of a memory finds a live one. -/
def ClosesLive (db : Db F) : Call F → Prop
  | .applyModelDecision svc k raw => ∀ c d app, Decides db k raw c d → d.decision = .publish →
      (applyModelDecision host svc db k raw).1 = .ok app → app.closesAsMemory → LiveDuplicate db c
  | _ => True

/-- A candidate that is decided to be published has the content of a superseded memory only if
a live one has it too. -/
def NotBuried (db : Db F) : Call F → Prop
  | .applyModelDecision _ k raw => ∀ c d, Decides db k raw c d → d.decision = .publish →
      (db.projects.get? c.projectId).isSome → BuriedDuplicate db c → LiveDuplicate db c
  | _ => True

theorem closesLive_iff (db : Db F) (call : Call F) : ClosesLive host db call ↔ NotBuried db call := by
  cases call with
  | applyModelDecision svc k raw =>
    simp only [ClosesLive, NotBuried]
    constructor
    · intro h c d hdecides hpublish hproject hburied
      obtain ⟨project, hproject⟩ := Option.isSome_iff_exists.mp hproject
      have hduplicate := (hasDuplicateMemory_iff_live_or_buried db c).mpr (Or.inr hburied)
      obtain ⟨app, db', happly, hcloses⟩ := (applyOpen_duplicateMemory host svc db project k c hpublish).mpr hduplicate
      refine h c d app hdecides hpublish ?_ hcloses
      rw [applyModelDecision_of_decides host svc hdecides hproject, happly]
      rfl
    · intro h c d app hdecides hpublish happly hcloses
      cases hproject : db.projects.get? c.projectId with
      | none =>
        simp only [applyModelDecision, hdecides.normalized, hdecides.row, hproject] at happly
        cases happly
      | some project =>
        rw [applyModelDecision_of_decides host svc hdecides hproject] at happly
        cases hresult : applyOpen host svc db project k c d with
        | error e =>
          rw [hresult] at happly
          cases happly
        | ok out =>
          rw [hresult] at happly
          obtain rfl := Except.ok.inj happly
          have hduplicate := (applyOpen_duplicateMemory host svc db project k c hpublish).mp
            ⟨out.1, out.2, hresult, hcloses⟩
          rcases (hasDuplicateMemory_iff_live_or_buried db c).mp hduplicate with hlive | hburied
          · exact hlive
          · exact h c d hdecides hpublish (by rw [hproject]; rfl) hburied
  | _ => exact Iff.rfl

/-- **Throughout a run only live memories close candidates, exactly when no decision to
publish meets a superseded memory with the candidate's content and no live one.** -/
theorem duplicates_live_iff (db : Db F) (calls : List (Call F)) :
    Always (step host) (ClosesLive host) db calls ↔ Always (step host) NotBuried db calls :=
  @always_iff_of_invariant _ _ _ (step host) (fun _ => True) _ _ (fun _ _ _ _ => trivial)
    (fun db call _ => closesLive_iff host db call) db trivial calls

end Duplicates

/-! ## A replacement with the content of what it replaces -/

/-- A candidate is published and replaced without a change; the decision on the replacement
has begun. -/
def replacedRun : List (Call Empty) :=
  decidedRun ++ [.publish {} 0 true, .correct 0 "replace" "reviewer" "wording" {}, .beginModelDecision 1]

theorem replacedRun_decides : ∃ c,
    Decides (exec (step sampleHost) sampleDb replacedRun) 1 (sampleDecision "publish") c publishDecision := by
  have hrow : ((exec (step sampleHost) sampleDb replacedRun).candidates.get? 1).map
      (fun c => (c.status, c.publishedMemoryId)) = some (.validating, none) := by decide +kernel
  obtain ⟨c, hc, hcolumns⟩ := Option.map_eq_some_iff.mp hrow
  obtain ⟨hstatus, hunpublished⟩ := Prod.mk.inj hcolumns
  exact ⟨c, normalize_publish, hc, hunpublished, by rw [hstatus]; decide, by rw [hstatus]; decide⟩

/-- The only memory is the one that was superseded. -/
theorem replacedRun_buried (c : Candidate Empty) :
    ¬ LiveDuplicate (exec (step sampleHost) sampleDb replacedRun) c := by
  rintro ⟨m, memory, hget, hlive, -⟩
  have hall : ((exec (step sampleHost) sampleDb replacedRun).memories.rows.all fun r => r.2.deprecated) = true := by
    decide +kernel
  have hdeprecated := List.all_eq_true.mp hall (m, memory) ((Table.get?_eq_some_iff _ _ _).mp hget)
  rw [hlive.current] at hdeprecated
  cases hdeprecated

/-- **The replacement is closed because of the memory that it replaces.** -/
theorem replacement_closed_by_replaced : ¬ ∀ (db : Db Empty) (calls : List (Call Empty)),
    Always (step sampleHost) (ClosesLive sampleHost) db calls := by
  intro h
  have hlast := ((always_snoc _ _ _ _).mp
    (h sampleDb (replacedRun ++ [.applyModelDecision {} 1 (sampleDecision "publish")]))).2
  obtain ⟨c, hdecides⟩ := replacedRun_decides
  refine replacedRun_buried c (hlast c publishDecision
    ⟨1, .skip, .superseded, ["duplicate_memory"], some 3, none⟩ hdecides rfl ?_ ⟨rfl, rfl⟩)
  decide +kernel

end CodexMemory.Candidates
