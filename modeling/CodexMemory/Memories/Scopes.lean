import CodexMemory.Candidates.Gate
import CodexMemory.Memories.Model
import CodexMemory.Trace

/-!
# The scope of a memory

A memory is of the scope `project` and has a project, or it is of the scope `global`,
has no project and the level L2.  `scopes_iff`: every memory is so throughout a run
exactly when no call publishes a global candidate of another level.
-/

namespace CodexMemory.Memories

open Candidates (Level Scope Db Memory Message Error publishChecks publishedMemory evidenceMessages)

section

variable {F : Type}

/-! ## What is claimed -/

/-- The rule of the scopes. -/
def Scoped (m : Memory F) : Prop :=
  (m.scope = .project ∧ m.projectId.isSome = true) ∨ (m.scope = .global ∧ m.projectId = none ∧ m.level = .L2)

def AllScoped (memories : Table (Memory F)) : Prop := ∀ k m, memories.get? k = some m → Scoped m

/-- A global candidate that a call publishes has the level L2. -/
def Suitable [Json.PyFloat F] (host : Host F) (s : System F) : Call F → Prop
  | .candidates (.publish svc candidateId automatic) =>
    ∀ candidate, s.candidates.candidates.get? candidateId = some candidate →
      publishedMemory s.candidates candidate = none →
        (publishChecks host.candidates svc s.candidates candidateId candidate automatic).passed = true →
          (evidenceMessages s.candidates candidateId).Nodup → candidate.scope = .global → candidate.level = .L2
  | _ => True

/-! ## Tables of memories -/

/-- The new table has rewritten rows of the old one, with their scopes, and new rows that are scoped. -/
def Extends (memories memories' : Table (Memory F)) : Prop :=
  ∀ k m', memories'.get? k = some m' → Scoped m' ∨
    ∃ m, memories.get? k = some m ∧ m'.scope = m.scope ∧ m'.projectId = m.projectId ∧ m'.level = m.level

theorem Extends.refl (memories : Table (Memory F)) : Extends memories memories :=
  fun _ m h => Or.inr ⟨m, h, rfl, rfl, rfl⟩

theorem scoped_of_columns {m m' : Memory F} (hscope : m'.scope = m.scope) (hproject : m'.projectId = m.projectId)
    (hlevel : m'.level = m.level) (h : Scoped m) : Scoped m' := by
  rw [Scoped, hscope, hproject, hlevel]
  exact h

theorem Extends.trans {memories memories' memories'' : Table (Memory F)} (h : Extends memories memories')
    (h' : Extends memories' memories'') : Extends memories memories'' := by
  intro k m'' hm''
  rcases h' k m'' hm'' with hscoped | ⟨m', hm', hscope', hproject', hlevel'⟩
  · exact Or.inl hscoped
  · rcases h k m' hm' with hscoped | ⟨m, hm, hscope, hproject, hlevel⟩
    · exact Or.inl (scoped_of_columns hscope' hproject' hlevel' hscoped)
    · exact Or.inr ⟨m, hm, hscope'.trans hscope, hproject'.trans hproject, hlevel'.trans hlevel⟩

theorem Extends.allScoped {memories memories' : Table (Memory F)} (h : Extends memories memories')
    (hall : AllScoped memories) : AllScoped memories' := by
  intro k m' hm'
  rcases h k m' hm' with hscoped | ⟨m, hm, hscope, hproject, hlevel⟩
  · exact hscoped
  · exact scoped_of_columns hscope hproject hlevel (hall k m hm)

theorem extends_insert (memories : Table (Memory F)) {m : Memory F} (hm : Scoped m) :
    Extends memories (memories.insert m) := by
  intro k m' h
  rcases Table.get?_insert_cases h with ⟨-, rfl⟩ | ⟨-, h⟩
  · exact Or.inl hm
  · exact Or.inr ⟨m', h, rfl, rfl, rfl⟩

theorem extends_modify (memories : Table (Memory F)) (k : Nat) {f : Memory F → Memory F}
    (hf : ∀ m, (f m).scope = m.scope ∧ (f m).projectId = m.projectId ∧ (f m).level = m.level) :
    Extends memories (memories.modify k f) := by
  intro i m' h
  rw [Table.get?_modify] at h
  obtain ⟨m, hm, rfl⟩ := Option.map_eq_some_iff.mp h
  refine Or.inr ⟨m, hm, ?_⟩
  split
  · exact hf m
  · exact ⟨rfl, rfl, rfl⟩

theorem scoped_of_project {m : Memory F} {projectId : Nat} (hscope : m.scope = .project)
    (hproject : m.projectId = some projectId) : Scoped m := Or.inl ⟨hscope, by rw [hproject]; rfl⟩

/-! ## The creators -/

theorem importedMemory_scoped (candidate : Import.ReferenceCandidate) :
    Scoped (importedMemory (Import.memoryRow candidate) : Memory F) := by
  by_cases hglobal : candidate.scopeKey = "global"
  · refine Or.inr ⟨?_, ?_, rfl⟩
    · show (Scope.ofText? (if candidate.scopeKey = "global" then "global" else "project")).getD .project = _
      rw [if_pos hglobal]
      rfl
    · show (if candidate.scopeKey ≠ "global" then some candidate.projectId else none) = none
      rw [if_neg (not_not_intro hglobal)]
  · refine Or.inl ⟨?_, ?_⟩
    · show (Scope.ofText? (if candidate.scopeKey = "global" then "global" else "project")).getD .project = _
      rw [if_neg hglobal]
      rfl
    · show (if candidate.scopeKey ≠ "global" then some candidate.projectId else none).isSome = true
      rw [if_pos hglobal]
      rfl

/-- A review adds no memory or the one of its candidate. -/
theorem reviewCandidate_rows (db : Import.Database) (candidateId : Nat) (decision : Import.Decision)
    (reviewer reason : Option String) :
    (Import.reviewCandidate db candidateId decision reviewer reason).2.memories = db.memories ∨
      ∃ candidate, (Import.reviewCandidate db candidateId decision reviewer reason).2.memories =
        db.memories.insert (Import.memoryRow candidate) := by
  rw [Import.reviewCandidate]
  split
  · exact Or.inl rfl
  · next candidate hcandidate =>
    split
    · exact Or.inl rfl
    · cases decision with
      | reject => exact Or.inl rfl
      | approve => exact Or.inr ⟨candidate, rfl⟩

theorem reviewImport_extends (s : System F) (candidateId : Nat) (decision : Import.Decision)
    (reviewer reason : Option String) :
    Extends s.candidates.memories (reviewImport s candidateId decision reviewer reason).2.candidates.memories := by
  simp only [reviewImport]
  rcases reviewCandidate_rows { s.imports with memories := tableAfter s.candidates.memories } candidateId decision reviewer
    reason with h | ⟨candidate, h⟩
  · rw [h]
    exact .refl _
  · rw [h]
    exact extends_insert _ (importedMemory_scoped candidate)

theorem rollbackImport_extends (s : System F) (candidateId : Nat) (reason : Option String) :
    Extends s.candidates.memories (rollbackImport s candidateId reason).2.candidates.memories := by
  rw [rollbackImport]
  split
  · exact .refl _
  · exact extends_modify _ _ fun _ => ⟨rfl, rfl, rfl⟩

theorem createL1Memory_extends (db : Db F) (projectId : Nat) (memoryType : String) (content : Json F)
    (title : Option String) : Extends db.memories (createL1Memory db projectId memoryType content title).2.memories := by
  rw [createL1Memory]
  split
  · exact .refl _
  · exact extends_insert _ (scoped_of_project rfl rfl)

theorem projectL1_extends (db : Db F) (projectId : Nat) (report : Report) :
    Extends db.memories (projectL1 db projectId report).memories := by
  rw [projectL1]
  split
  · exact .refl _
  · exact extends_insert _ (scoped_of_project rfl rfl)

theorem addClassified_extends (projectId messageId : Nat) (items : List (ClassifiedMemory F)) (db : Db F) :
    Extends db.memories (addClassified projectId messageId db items).memories := by
  induction items generalizing db with
  | nil => exact .refl _
  | cons item rest ih => exact (extends_insert _ (scoped_of_project rfl rfl)).trans (ih _)

theorem reflectMessages_extends (host : Host F) (projectId : Nat) (processed : List Nat) (messages : List (Nat × Message))
    (db : Db F) : Extends db.memories (reflectMessages host projectId processed db messages).memories := by
  induction messages generalizing db with
  | nil => exact .refl _
  | cons message rest ih =>
    obtain ⟨messageId, message⟩ := message
    rw [reflectMessages]
    split
    · exact ih db
    · exact (addClassified_extends projectId messageId _ db).trans (ih _)

theorem reflectGroup_extends {projectId : Nat} {known : List String} {db db' : Db F} {text : String}
    {group : List (Sourced F)} (h : reflectGroup projectId known db text group = .ok db') :
    Extends db.memories db'.memories := by
  simp only [reflectGroup] at h
  split at h
  · cases h
    exact .refl _
  · split at h
    · cases h
      exact .refl _
    · split at h
      · cases h
        exact extends_insert _ (scoped_of_project rfl rfl)
      · cases h

theorem reflectGroups_extends (host : Host F) {projectId : Nat} {known : List String} {rows : List (Sourced F)}
    {texts : List String} {db db' : Db F} (h : reflectGroups host projectId known rows db texts = .ok db') :
    Extends db.memories db'.memories := by
  induction texts generalizing db with
  | nil =>
    cases h
    exact .refl _
  | cons text rest ih =>
    rw [reflectGroups] at h
    split at h
    · cases h
    · next db₁ hgroup => exact (reflectGroup_extends hgroup).trans (ih h)

theorem reflectProject_extends (host : Host F) (s : System F) (projectId : Nat) :
    Extends s.candidates.memories (reflectProject host s projectId).2.candidates.memories := by
  rw [reflectProject]
  split
  · exact .refl _
  · simp only
    split
    · exact .refl _
    · next db' h => exact (reflectMessages_extends host projectId _ _ s.candidates).trans (reflectGroups_extends host h)

/-! ## The candidates -/

theorem orRollback_extends {α : Type} {db : Db F} {result : Except Error (α × Db F)}
    (h : ∀ a db', result = .ok (a, db') → Extends db.memories db'.memories) :
    Extends db.memories (Candidates.orRollback db result).2.memories := by
  cases result with
  | error e => exact .refl _
  | ok out => exact h out.1 out.2 rfl

theorem createAndQueue_extends {db db' : Db F} {project : Candidates.Project} {projectId id : Nat}
    {new : Candidates.NewCandidate F} (h : Candidates.createAndQueue db project projectId new = .ok (id, db')) :
    Extends db.memories db'.memories := by
  obtain ⟨row, evidence, events, -, -, rfl⟩ := Candidates.createAndQueue_frame h
  exact .refl _

theorem supersedeRows_extends (db : Db F) (k : Nat) (candidate : Candidates.Candidate F) :
    Extends db.memories (Candidates.supersedeRows db k candidate).memories := by
  rw [Candidates.supersedeRows]
  cases candidate.publishedMemoryId with
  | none => exact .refl _
  | some memoryId => exact extends_modify _ _ fun _ => ⟨rfl, rfl, rfl⟩

theorem correctOpen_extends {db db' : Db F} {project : Candidates.Project} {k : Nat} {candidate : Candidates.Candidate F}
    {action : Candidates.CorrectAction} {reviewer reason : String} {replacement : Candidates.Replacement F}
    {newId : Option Nat}
    (h : Candidates.correctOpen db project k candidate action reviewer reason replacement = .ok (newId, db')) :
    Extends db.memories db'.memories := by
  simp only [Candidates.correctOpen] at h
  split at h
  · cases h
  · next db₁ hcreate =>
    have hfirst : Extends db.memories db₁.memories := by
      rcases Candidates.createReplacement_frame hcreate with rfl | ⟨row, evidence, events, -, -, rfl⟩ <;> exact .refl _
    cases h
    refine hfirst.trans ?_
    show Extends _ (Candidates.Db.memories (ite _ _ _))
    split
    · exact supersedeRows_extends _ k candidate
    · exact .refl _

theorem correct_extends (db : Db F) (k : Nat) (action reviewer reason : String)
    (replacement : Candidates.Replacement F) :
    Extends db.memories (Candidates.correct db k action reviewer reason replacement).2.memories := by
  rw [Candidates.correct]
  split
  · exact .refl _
  · split
    · exact .refl _
    · split
      · exact .refl _
      · split
        · exact .refl _
        · split
          · exact .refl _
          · exact orRollback_extends fun _ _ h => correctOpen_extends h

theorem createCandidate_extends (db : Db F) (projectId : Nat) (new : Candidates.NewCandidate F) :
    Extends db.memories (Candidates.createCandidate db projectId new).2.memories := by
  refine orRollback_extends fun id db' h => ?_
  split at h
  · cases h
  · split at h
    · cases h
    · split at h
      · cases h
      · split at h
        · cases h
        · exact createAndQueue_extends h

theorem applyModelDecision_extends [Json.PyFloat F] (host : Candidates.Host F) (svc : Candidates.Service) (db : Db F)
    (k : Nat) (raw : Candidates.CandidateDecision F) :
    Extends db.memories (Candidates.applyModelDecision host svc db k raw).2.memories := by
  rcases Candidates.applyModelDecision_cases host svc db k raw with
    h | ⟨c, d, status, result, events, -, -, -, -, -, h⟩ <;> rw [h] <;> exact .refl _

theorem review_extends (db : Db F) (k : Nat) (decision : String) (reviewer reason : Option String) :
    Extends db.memories (Candidates.reviewAdminCandidate db k decision reviewer reason).2.memories := by
  rw [Candidates.reviewAdminCandidate]
  cases Candidates.ReviewDecision.ofText? decision with
  | none => exact .refl _
  | some verdict =>
    cases db.candidates.get? k with
    | none => exact .refl _
    | some candidate =>
      dsimp only
      cases db.projects.get? candidate.projectId with
      | none => exact .refl _
      | some project => exact .refl _

/-- A call other than `publish` creates no memory. -/
theorem candidates_extends [Json.PyFloat F] (host : Candidates.Host F) (db : Db F) (call : Candidates.Call F)
    (hno : ∀ svc candidateId automatic, call ≠ .publish svc candidateId automatic) :
    Extends db.memories (Candidates.step host db call).2.memories := by
  cases call with
  | createCandidate projectId new =>
    simp only [Candidates.step]
    exact createCandidate_extends db projectId new
  | beginModelDecision candidateId =>
    simp only [Candidates.step, Candidates.beginModelDecision]
    split
    · exact .refl _
    · split <;> exact .refl _
  | applyModelDecision svc candidateId decision =>
    simp only [Candidates.step]
    exact applyModelDecision_extends host svc db candidateId decision
  | markModelFailureNeedsReview candidateId errorCode =>
    simp only [Candidates.step, Candidates.markModelFailureNeedsReview]
    split
    · exact .refl _
    · split <;> exact .refl _
  | correct candidateId action reviewer reason replacement =>
    simp only [Candidates.step]
    exact correct_extends db candidateId action reviewer reason replacement
  | review candidateId decision reviewer reason =>
    simp only [Candidates.step]
    exact review_extends db candidateId decision reviewer reason
  | evaluate candidateId =>
    simp only [Candidates.step, Candidates.evaluate]
    split <;> exact .refl _
  | publish svc candidateId automatic => exact absurd rfl (hno svc candidateId automatic)
  | setFlags projectId flags => exact .refl _
  | setPolicy projectId policy => exact .refl _

/-- The memory of a candidate is scoped unless the candidate is global and of another level. -/
theorem memoryOf_scoped (candidate : Candidates.Candidate F) :
    Scoped (Candidates.memoryOf candidate) ↔ (candidate.scope = .global → candidate.level = .L2) := by
  cases hscope : candidate.scope with
  | project => exact iff_of_true (Or.inl ⟨hscope, by simp [Candidates.memoryOf, hscope]⟩) nofun
  | global =>
    constructor
    · rintro (⟨hproject, -⟩ | ⟨-, -, hlevel⟩)
      · exact absurd (hscope.symm.trans hproject) nofun
      · exact fun _ => hlevel
    · intro hlevel
      exact Or.inr ⟨hscope, by simp [Candidates.memoryOf, hscope], hlevel rfl⟩

/-- `publish` keeps the memories or creates the one of its candidate. -/
theorem publish_memories [Json.PyFloat F] (host : Candidates.Host F) (svc : Candidates.Service) (db : Db F) (k : Nat)
    (automatic : Bool) :
    ((Candidates.publish host svc db k automatic).2.memories = db.memories ∧
        ¬∃ candidate, db.candidates.get? k = some candidate ∧ publishedMemory db candidate = none ∧
          (publishChecks host svc db k candidate automatic).passed = true ∧ (evidenceMessages db k).Nodup) ∨
      ∃ candidate, db.candidates.get? k = some candidate ∧ publishedMemory db candidate = none ∧
        (publishChecks host svc db k candidate automatic).passed = true ∧ (evidenceMessages db k).Nodup ∧
          (Candidates.publish host svc db k automatic).2.memories = db.memories.insert (Candidates.memoryOf candidate) := by
  rw [Candidates.publish]
  split
  · next hnone =>
    refine Or.inl ⟨rfl, ?_⟩
    rintro ⟨candidate, hcandidate, -⟩
    rw [hnone] at hcandidate
    cases hcandidate
  · next candidate hcandidate =>
    have honly : ∀ other, db.candidates.get? k = some other → other = candidate :=
      fun other hother => Option.some.inj (hother.symm.trans hcandidate)
    rw [Candidates.publishPlan_eq]
    split
    · next memoryId hpublished =>
      refine Or.inl ⟨rfl, ?_⟩
      rintro ⟨other, hother, hnone, -⟩
      rw [honly other hother, hpublished] at hnone
      cases hnone
    · next hnone =>
      split
      · next hpassed =>
        split
        · next hnodup => exact Or.inr ⟨candidate, hcandidate, hnone, hpassed, hnodup, rfl⟩
        · next hdouble =>
          refine Or.inl ⟨rfl, ?_⟩
          rintro ⟨other, hother, -, -, hnodup⟩
          exact hdouble hnodup
      · next hrefused =>
        refine Or.inl ⟨rfl, ?_⟩
        rintro ⟨other, hother, -, hpassed, -⟩
        rw [honly other hother] at hpassed
        exact hrefused hpassed

/-! ## Runs -/

/-- A step keeps the rule exactly when it publishes no global candidate of another level than L2. -/
theorem step_scoped [Json.PyFloat F] (host : Host F) (s : System F) (hall : AllScoped s.candidates.memories)
    (call : Call F) : AllScoped (step host s call).2.candidates.memories ↔ Suitable host s call := by
  have hkept : ∀ {s' : System F}, Extends s.candidates.memories s'.candidates.memories →
      AllScoped s'.candidates.memories := fun h => h.allScoped hall
  cases call with
  | candidates call =>
    by_cases hpublish : ∃ svc candidateId automatic, call = .publish svc candidateId automatic
    · obtain ⟨svc, candidateId, automatic, rfl⟩ := hpublish
      show AllScoped (Candidates.publish host.candidates svc s.candidates candidateId automatic).2.memories ↔ _
      rcases publish_memories host.candidates svc s.candidates candidateId automatic with
        ⟨h, hnot⟩ | ⟨candidate, hcandidate, hnone, hpassed, hnodup, h⟩
      · rw [h]
        exact iff_of_true hall fun candidate hcandidate hnone hpassed hnodup =>
          absurd ⟨candidate, hcandidate, hnone, hpassed, hnodup⟩ hnot
      · rw [h]
        constructor
        · intro hscoped other hother _ _ _
          obtain rfl := Option.some.inj (hother.symm.trans hcandidate)
          exact (memoryOf_scoped other).mp (hscoped _ _ (Table.get?_insert_self _ _))
        · intro hsuitable
          have hscoped := (memoryOf_scoped candidate).mpr (hsuitable candidate hcandidate hnone hpassed hnodup)
          exact (extends_insert _ hscoped).allScoped hall
    · have hno : ∀ svc candidateId automatic, call ≠ .publish svc candidateId automatic :=
        fun svc candidateId automatic h => hpublish ⟨svc, candidateId, automatic, h⟩
      refine iff_of_true (hkept (candidates_extends host.candidates s.candidates call hno)) ?_
      cases call with
      | publish svc candidateId automatic => exact absurd rfl (hno svc candidateId automatic)
      | _ => trivial
  | imports call => exact iff_of_true hall trivial
  | reviewImport candidateId decision reviewer reason =>
    exact iff_of_true (hkept (reviewImport_extends s candidateId decision reviewer reason)) trivial
  | rollbackImport candidateId reason => exact iff_of_true (hkept (rollbackImport_extends s candidateId reason)) trivial
  | createL1Memory projectId memoryType content title =>
    exact iff_of_true ((createL1Memory_extends s.candidates projectId memoryType content title).allScoped hall) trivial
  | reflectProject projectId => exact iff_of_true (hkept (reflectProject_extends host s projectId)) trivial
  | projectL1 projectId report =>
    exact iff_of_true ((projectL1_extends s.candidates projectId report).allScoped hall) trivial

/-- **Every memory has a project or is a global one of the level L2 throughout a run exactly when no call
publishes a global candidate of another level.** -/
theorem scopes_iff [Json.PyFloat F] (host : Host F) (s : System F) (hstart : s.candidates.memories = .empty)
    (calls : List (Call F)) :
    Trace.Always (step host) (fun s call => AllScoped (step host s call).2.candidates.memories) s calls ↔
      Trace.Always (step host) (Suitable host) s calls := by
  have hempty : AllScoped s.candidates.memories := by
    rw [hstart]
    exact fun k m h => by cases h
  have hstep : ∀ s call, AllScoped s.candidates.memories → Suitable host s call →
      AllScoped (step host s call).2.candidates.memories := fun s call hall => (step_scoped host s hall call).mpr
  have hiff : ∀ s call, AllScoped s.candidates.memories →
      (AllScoped (step host s call).2.candidates.memories ↔ Suitable host s call) :=
    fun s call hall => step_scoped host s hall call
  exact Trace.always_iff_of_invariant hstep hiff hempty calls

end

/-! ## A global candidate -/

def sampleHost : Host Empty where
  candidates := Candidates.sampleHost
  imports := Import.textHost
  classify _ _ := []

def sampleSystem : System Empty := ⟨Candidates.sampleDb, Import.initial Import.oneProject, fun _ => some "session"⟩

/-- A global candidate of a level is published. -/
def globalPublished (level : String) : List (Call Empty) :=
  [.candidates (.createCandidate 0 { Candidates.sampleCandidate with level := level, scope := "global" }),
    .candidates (.publish {} 0 false)]

/-- One of the level L2 keeps the rule. -/
theorem globalPublished_scoped :
    Trace.Always (step sampleHost) (fun s call => AllScoped (step sampleHost s call).2.candidates.memories) sampleSystem
      (globalPublished "L2") := by
  refine (scopes_iff sampleHost sampleSystem rfl (globalPublished "L2")).mpr
    ⟨trivial, fun candidate hcandidate _ _ _ _ => ?_, trivial⟩
  have hlevel : ((Trace.exec (step sampleHost) sampleSystem ((globalPublished "L2").take 1)).candidates.candidates.get?
      0).map (fun c => c.level) = some .L2 := by decide
  obtain ⟨row, hrow, hlevel⟩ := Option.map_eq_some_iff.mp hlevel
  rw [← hlevel, Option.some.inj (hcandidate.symm.trans hrow)]

/-- One of the level L1 becomes a global memory of this level. -/
theorem globalPublished_unscoped :
    ¬Trace.Always (step sampleHost) (fun s call => AllScoped (step sampleHost s call).2.candidates.memories) sampleSystem
      (globalPublished "L1") := by
  intro h
  have hscoped := h.2.1
  have hmemory : ((Trace.exec (step sampleHost) sampleSystem (globalPublished "L1")).candidates.memories.get? 0).map
      (fun m => (m.scope, m.level)) = some (.global, .L1) := by decide
  obtain ⟨m, hm, hcolumns⟩ := Option.map_eq_some_iff.mp hmemory
  obtain ⟨hscope, hlevel⟩ := Prod.mk.inj hcolumns
  rcases hscoped 0 m hm with ⟨hproject, -⟩ | ⟨-, -, hL2⟩
  · rw [hscope] at hproject
    cases hproject
  · rw [hlevel] at hL2
    cases hL2

end CodexMemory.Memories
