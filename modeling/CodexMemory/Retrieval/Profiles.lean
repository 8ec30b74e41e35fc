import CodexMemory.Json.Value
import CodexMemory.Table

/-!
# The embedding profile of a project

`set_active_profile`, `set_canary_profile` and `rollback_profile` of `ProjectPolicyService`.  A canary of
100 percent writes down the profile that was active; `set_active_profile` does not.

* `history_step`, `tracked_run`: what is written down after any run;
* `restores_iff`: when a rollback restores what was active before the most recent change.
-/

namespace CodexMemory.Retrieval.Profiles

/-! ## Rows -/

/-- `EmbeddingProfileRow`, as far as it is read here. -/
structure Profile where
  status : String

/-- `ProjectRetrievalProfileRow` -/
structure Setting where
  activeEmbeddingProfileId : Option Nat := none
  canaryEmbeddingProfileId : Option Nat := none
  previousActiveEmbeddingProfileId : Option Nat := none
  canaryPercent : Int := 0
  rollbackReason : Option String := none
  fallbackMode : String := "lexical_only"
  hybridSearchEnabled : Bool := false
  globalResultLimit : Int := 3

/-- `SecurityAuditRow` -/
structure Audit where
  projectId : Nat
  eventType : String
  subjectType : String
  subjectId : String
  reasonCode : String
  metadata : List (String × Json Empty)

structure Db where
  projects : List Nat
  profiles : Table Profile
  settings : Nat → Option Setting
  audits : List Audit

inductive Error
  | value (message : String)
  | integrity (constraint : String)

/-- The rows after a commit; the setting of a project refers to the project. -/
def commit (db : Db) (projectId : Nat) (setting : Setting) (audit : Audit) : Except Error Setting × Db :=
  if projectId ∈ db.projects then
    (.ok setting,
      { db with
        settings := fun other => if other = projectId then some setting else db.settings other
        audits := db.audits ++ [audit] })
  else (.error (.integrity "project_retrieval_profiles_project_id_fkey"), db)

/-- The profile is there and not retired. -/
def usable (db : Db) (profileId : Nat) : Bool := (db.profiles.get? profileId).any fun profile => profile.status ≠ "retired"

/-- `set_canary_profile` -/
def setCanaryProfile (db : Db) (projectId profileId : Nat) (percent : Int) : Except Error Setting × Db :=
  if percent ∉ [1, 10, 50, 100] then (.error (.value "Canary 百分比必须是 1、10、50 或 100"), db)
  else if !usable db profileId then (.error (.value "Profile（profile）不可用"), db)
  else
    let setting := (db.settings projectId).getD {}
    let setting := if percent = 100 then
      { setting with
        previousActiveEmbeddingProfileId := setting.activeEmbeddingProfileId
        activeEmbeddingProfileId := some profileId } else setting
    commit db projectId { setting with canaryEmbeddingProfileId := some profileId, canaryPercent := percent }
      { projectId := projectId
        eventType := "embedding_profile_canary"
        subjectType := "embedding_profile"
        subjectId := toString profileId
        reasonCode := "canary_" ++ toString percent
        metadata := [("profile_id", .int profileId), ("percent", .int percent)] }

/-- `rollback_profile` -/
def rollbackProfile (db : Db) (projectId : Nat) (reason : String) : Except Error Setting × Db :=
  match (db.settings projectId).bind fun setting =>
    setting.previousActiveEmbeddingProfileId.map fun id => (setting, id) with
  | none => (.error (.value "没有可用于回滚的上一个 Profile"), db)
  | some (setting, previous) =>
    commit db projectId
      { setting with
        activeEmbeddingProfileId := some previous
        canaryEmbeddingProfileId := none
        canaryPercent := 0
        rollbackReason := some reason }
      { projectId := projectId
        eventType := "embedding_profile_rollback"
        subjectType := "embedding_profile"
        subjectId := toString previous
        reasonCode := "admin_rollback"
        metadata := [("reason", .str reason)] }

/-- `set_active_profile` -/
def setActiveProfile (db : Db) (projectId profileId : Nat) : Except Error Setting × Db :=
  if !usable db profileId then (.error (.value "Profile（profile）不可用"), db)
  else
    let setting := (db.settings projectId).getD {}
    commit db projectId { setting with activeEmbeddingProfileId := some profileId, hybridSearchEnabled := true }
      { projectId := projectId
        eventType := "embedding_profile_activated"
        subjectType := "embedding_profile"
        subjectId := toString profileId
        reasonCode := "admin_update"
        metadata := [("profile_id", .int profileId)] }

/-! ## Runs -/

/-- A call, or that others write the profiles (they create them and retire them). -/
inductive Step
  | setActive (projectId profileId : Nat)
  | setCanary (projectId profileId : Nat) (percent : Int)
  | rollback (projectId : Nat) (reason : String)
  | others (profiles : Table Profile)

def act (db : Db) : Step → Db
  | .setActive projectId profileId => (setActiveProfile db projectId profileId).2
  | .setCanary projectId profileId percent => (setCanaryProfile db projectId profileId percent).2
  | .rollback projectId reason => (rollbackProfile db projectId reason).2
  | .others profiles => { db with profiles := profiles }

/-- The active profile of a project. -/
def active (db : Db) (projectId : Nat) : Option Nat := (db.settings projectId).bind Setting.activeEmbeddingProfileId

/-- The profile that is written down as the one before. -/
def previous (db : Db) (projectId : Nat) : Option Nat :=
  (db.settings projectId).bind Setting.previousActiveEmbeddingProfileId

/-- The tables after some steps, and the last step that changed the active profile of the project, with the
tables before it. -/
structure History where
  db : Db
  lastChange : Option (Step × Db)

def History.next (projectId : Nat) (h : History) (step : Step) : History :=
  ⟨act h.db step, if active (act h.db step) projectId = active h.db projectId then h.lastChange else some (step, h.db)⟩

def history (projectId : Nat) (start : Db) (steps : List Step) : History :=
  steps.foldl (History.next projectId) ⟨start, none⟩

/-- **A rollback undoes the last activation**: if it succeeds, the profile that was active before the most
recent change is active again, and there is no canary. -/
def Restores (projectId : Nat) (h : History) : Prop :=
  ∀ reason setting, (rollbackProfile h.db projectId reason).1 = .ok setting →
    ∃ step before, h.lastChange = some (step, before) ∧
      active (rollbackProfile h.db projectId reason).2 projectId = active before projectId ∧
      (rollbackProfile h.db projectId reason).2.settings projectId = some setting ∧
      setting.canaryEmbeddingProfileId = none ∧ setting.canaryPercent = 0

/-- Any steps, from tables in which the project has no setting. -/
structure Run where
  start : Db
  projectId : Nat
  unset : start.settings projectId = none
  steps : List Step

def Run.end (run : Run) : History := history run.projectId run.start run.steps

/-- The profile that is written down is not the active one, and where `set_active_profile` was the last to change
it, it was the active one then. -/
structure Recorded (projectId : Nat) (h : History) : Prop where
  other : previous h.db projectId ≠ active h.db projectId
  last : ∀ profileId before, h.lastChange = some (.setActive projectId profileId, before) →
    previous before projectId = active before projectId

/-! ## What a step does -/

/-- The two profiles of the project after a step. -/
inductive Effect (projectId : Nat) (db db' : Db) : Step → Prop
  | same (step : Step) (active : active db' projectId = active db projectId)
      (previous : previous db' projectId = previous db projectId) : Effect projectId db db' step
  | activated (profileId : Nat) (active : active db' projectId = some profileId)
      (previous : previous db' projectId = previous db projectId) : Effect projectId db db' (.setActive projectId profileId)
  | full (profileId : Nat) (active : Profiles.active db' projectId = some profileId)
      (previous : previous db' projectId = Profiles.active db projectId) :
      Effect projectId db db' (.setCanary projectId profileId 100)
  | rolledBack (reason : String) (active : active db' projectId = Profiles.previous db projectId)
      (previous : previous db' projectId = Profiles.previous db projectId) :
      Effect projectId db db' (.rollback projectId reason)

/-- A commit leaves the setting of a project as it was, or writes it. -/
theorem commit_cases {db : Db} {owner projectId : Nat} {setting : Setting} {audit : Audit} {motive : Db → Prop}
    (same : ∀ db', db'.projects = db.projects → db'.settings projectId = db.settings projectId → motive db')
    (written : owner = projectId → owner ∈ db.projects → ∀ db', db'.projects = db.projects →
      db'.settings projectId = some setting → motive db') : motive (commit db owner setting audit).2 := by
  unfold commit
  split
  · next hproject =>
    by_cases howner : owner = projectId
    · exact written howner hproject _ rfl (if_pos howner.symm)
    · exact same _ rfl (if_neg (Ne.symm howner))
  · exact same _ rfl rfl

/-- **One step.** -/
theorem act_effect (projectId : Nat) (db : Db) (step : Step) : Effect projectId db (act db step) step := by
  have hsame : ∀ {db' : Db}, db'.settings projectId = db.settings projectId → Effect projectId db db' step := by
    intro db' h
    exact .same step (by rw [active, h]; rfl) (by rw [previous, h]; rfl)
  cases step with
  | others profiles => exact hsame rfl
  | setActive owner profileId =>
    change Effect projectId db (setActiveProfile db owner profileId).2 _
    unfold setActiveProfile
    split
    · exact hsame rfl
    · refine commit_cases (fun _ _ h => hsame h) ?_
      rintro rfl - db' - h
      exact .activated profileId (by rw [active, h]; rfl) (by rw [previous, h, previous]; cases db.settings owner <;> rfl)
  | setCanary owner profileId percent =>
    change Effect projectId db (setCanaryProfile db owner profileId percent).2 _
    unfold setCanaryProfile
    split
    · exact hsame rfl
    · split
      · exact hsame rfl
      · refine commit_cases (fun _ _ h => hsame h) ?_
        rintro rfl - db' - h
        by_cases hfull : percent = 100
        · subst hfull
          exact .full profileId (by rw [active, h]; rfl) (by rw [previous, h, active]; cases db.settings owner <;> rfl)
        · rw [if_neg hfull] at h
          refine .same _ ?_ ?_
          · rw [active, h, active]
            cases db.settings owner <;> rfl
          · rw [previous, h, previous]
            cases db.settings owner <;> rfl
  | rollback owner reason =>
    change Effect projectId db (rollbackProfile db owner reason).2 _
    unfold rollbackProfile
    split
    · exact hsame rfl
    · next setting id hprevious =>
      refine commit_cases (fun _ _ h => hsame h) ?_
      rintro rfl - db' - h
      obtain ⟨row, hrow, hid⟩ := Option.bind_eq_some_iff.mp hprevious
      obtain ⟨id', hid', heq⟩ := Option.map_eq_some_iff.mp hid
      obtain ⟨rfl, rfl⟩ := Prod.mk.inj heq
      have hold : previous db owner = some id' := by
        rw [previous, hrow]
        exact hid'
      exact .rolledBack reason (by rw [active, h, hold]; rfl) (by rw [hold, previous, h]; exact hid')

/-! ## Runs -/

/-- What holds after every run: where the active profile has not changed there is nothing written down; where it has,
the last step that changed it tells what is. -/
structure Tracked (projectId : Nat) (h : History) : Prop where
  project : (h.db.settings projectId).isSome → projectId ∈ h.db.projects
  unchanged : h.lastChange = none → active h.db projectId = none ∧ previous h.db projectId = none
  changed : ∀ step before, h.lastChange = some (step, before) → active before projectId ≠ active h.db projectId
  written : ∀ step before, h.lastChange = some (step, before) → previous h.db projectId = active h.db projectId ∨
    (∃ profileId, step = .setActive projectId profileId ∧ previous h.db projectId = previous before projectId) ∨
      (∃ profileId, step = .setCanary projectId profileId 100 ∧ previous h.db projectId = active before projectId)

theorem act_project {db : Db} {projectId : Nat} (h : (db.settings projectId).isSome → projectId ∈ db.projects)
    (step : Step) : ((act db step).settings projectId).isSome → projectId ∈ (act db step).projects := by
  have hcommit : ∀ (owner : Nat) (setting : Setting) (audit : Audit),
      ((commit db owner setting audit).2.settings projectId).isSome →
        projectId ∈ (commit db owner setting audit).2.projects := by
    intro owner setting audit
    refine @commit_cases db owner projectId setting audit (fun db' => (db'.settings projectId).isSome → projectId ∈ db'.projects)
      (fun db' hprojects hsame => ?_) (fun howner hproject db' hprojects _ => ?_)
    · rw [hprojects, hsame]
      exact h
    · rw [hprojects, ← howner]
      exact fun _ => hproject
  cases step with
  | others profiles => exact h
  | setActive owner profileId =>
    change ((setActiveProfile db owner profileId).2.settings projectId).isSome →
      _ ∈ (setActiveProfile db owner profileId).2.projects
    unfold setActiveProfile
    split
    · exact h
    · exact hcommit _ _ _
  | setCanary owner profileId percent =>
    change ((setCanaryProfile db owner profileId percent).2.settings projectId).isSome →
      _ ∈ (setCanaryProfile db owner profileId percent).2.projects
    unfold setCanaryProfile
    split
    · exact h
    · split
      · exact h
      · exact hcommit _ _ _
  | rollback owner reason =>
    change ((rollbackProfile db owner reason).2.settings projectId).isSome → _ ∈ (rollbackProfile db owner reason).2.projects
    unfold rollbackProfile
    split
    · exact h
    · exact hcommit _ _ _

theorem history_step {projectId : Nat} {h : History} (ht : Tracked projectId h) (step : Step) :
    Tracked projectId (h.next projectId step) := by
  have heffect := act_effect projectId h.db step
  have hproject := act_project ht.project step
  rw [History.next]
  generalize act h.db step = db' at heffect hproject
  by_cases hactive : active db' projectId = active h.db projectId
  · rw [if_pos hactive]
    -- what is written down stays, or is the active profile
    have hprevious : previous db' projectId = previous h.db projectId ∨
        previous db' projectId = active h.db projectId ∧ active h.db projectId ≠ none := by
      cases heffect with
      | same _ _ hprevious => exact .inl hprevious
      | activated _ _ hprevious => exact .inl hprevious
      | full _ hsome hprevious => exact .inr ⟨hprevious, by rw [← hactive, hsome]; exact Option.some_ne_none _⟩
      | rolledBack _ _ hprevious => exact .inl hprevious
    constructor
    case project => exact hproject
    case unchanged =>
      intro hnone
      obtain ⟨hunset, hnothing⟩ := ht.unchanged hnone
      rcases hprevious with hsame | ⟨-, hsome⟩
      · exact ⟨hactive.trans hunset, hsame.trans hnothing⟩
      · exact absurd hunset hsome
    case changed =>
      intro step' before hlast
      change active before projectId ≠ active db' projectId
      rw [hactive]
      exact ht.changed step' before hlast
    case written =>
      intro step' before hlast
      change previous db' projectId = active db' projectId ∨ (∃ profileId, _ ∧ previous db' projectId = _) ∨
        (∃ profileId, _ ∧ previous db' projectId = _)
      rw [hactive]
      rcases hprevious with hsame | ⟨hcurrent, -⟩
      · rw [hsame]
        exact ht.written step' before hlast
      · exact .inl hcurrent
  · rw [if_neg hactive]
    constructor
    case project => exact hproject
    case unchanged => exact nofun
    case changed =>
      rintro _ _ ⟨⟩
      exact Ne.symm hactive
    case written =>
      rintro _ _ ⟨⟩
      cases heffect with
      | same _ hsame => exact absurd hsame hactive
      | activated profileId _ hprevious => exact .inr (.inl ⟨profileId, rfl, hprevious⟩)
      | full profileId _ hprevious => exact .inr (.inr ⟨profileId, rfl, hprevious⟩)
      | rolledBack _ hcurrent hprevious => exact .inl (hprevious.trans hcurrent.symm)

theorem tracked_steps {projectId : Nat} {h : History} (ht : Tracked projectId h) (steps : List Step) :
    Tracked projectId (steps.foldl (History.next projectId) h) := by
  induction steps generalizing h with
  | nil => exact ht
  | cons step steps ih => exact ih (history_step ht step)

/-- **Every run is tracked.** -/
theorem tracked_run (run : Run) : Tracked run.projectId run.end := by
  have hnothing : ∀ step before, (History.mk run.start none).lastChange ≠ some (step, before) := fun _ _ => nofun
  refine tracked_steps ⟨?_, ?_, fun _ _ hlast => absurd hlast (hnothing _ _), fun _ _ hlast => absurd hlast (hnothing _ _)⟩
    run.steps
  · change (run.start.settings run.projectId).isSome → _
    rw [run.unset]
    exact nofun
  · intro _
    exact ⟨by rw [active, run.unset]; rfl, by rw [previous, run.unset]; rfl⟩

/-! ## Rollbacks -/

/-- A rollback that succeeds takes the profile that is written down. -/
theorem rollback_ok {db : Db} {projectId : Nat} {reason : String} {setting : Setting}
    (h : (rollbackProfile db projectId reason).1 = .ok setting) :
    previous db projectId ≠ none ∧ active (rollbackProfile db projectId reason).2 projectId = previous db projectId ∧
      (rollbackProfile db projectId reason).2.settings projectId = some setting ∧
      setting.canaryEmbeddingProfileId = none ∧ setting.canaryPercent = 0 := by
  unfold rollbackProfile at h ⊢
  split at h
  · cases h
  · next row id hrow =>
    obtain ⟨setting', hsetting', hid⟩ := Option.bind_eq_some_iff.mp hrow
    obtain ⟨id', hid', heq⟩ := Option.map_eq_some_iff.mp hid
    obtain ⟨rfl, rfl⟩ := Prod.mk.inj heq
    have hprevious : previous db projectId = some id' := by
      rw [previous, hsetting']
      exact hid'
    rw [hprevious]
    unfold commit at h ⊢
    split at h
    · next hproject =>
      cases h
      rw [if_pos hproject]
      exact ⟨Option.some_ne_none _, by simp [active], if_pos rfl, rfl, rfl⟩
    · cases h

/-- It succeeds where there is one. -/
theorem rollback_succeeds {db : Db} {projectId : Nat} (hproject : (db.settings projectId).isSome → projectId ∈ db.projects)
    (h : previous db projectId ≠ none) (reason : String) :
    ∃ setting, (rollbackProfile db projectId reason).1 = .ok setting := by
  obtain ⟨id, hid⟩ := Option.ne_none_iff_exists'.mp h
  obtain ⟨setting, hsetting, hprevious⟩ := Option.bind_eq_some_iff.mp hid
  have hmem : projectId ∈ db.projects := hproject (by rw [hsetting]; rfl)
  simp only [rollbackProfile, hsetting, Option.bind_some, hprevious, Option.map_some, commit, if_pos hmem]
  exact ⟨_, rfl⟩

/-- **A rollback after a run undoes the last activation if and only if** it fails for want of a profile to go back to,
or that profile is recorded: it is not the active one, and `set_active_profile` has not left another one there. -/
theorem restores_iff (run : Run) :
    Restores run.projectId run.end ↔ previous run.end.db run.projectId = none ∨ Recorded run.projectId run.end := by
  have ht := tracked_run run
  generalize run.end = h at ht
  generalize run.projectId = projectId at ht ⊢
  constructor
  · intro hrestores
    rw [or_iff_not_imp_left]
    intro hsome
    obtain ⟨setting, hok⟩ := rollback_succeeds ht.project hsome ""
    obtain ⟨step, before, hlast, hactive, -⟩ := hrestores "" setting hok
    rw [(rollback_ok hok).2.1] at hactive
    have hother : previous h.db projectId ≠ active h.db projectId := by
      rw [hactive]
      exact ht.changed step before hlast
    refine ⟨hother, fun profileId before' hlast' => ?_⟩
    obtain ⟨rfl, rfl⟩ := Prod.mk.inj (Option.some.inj (hlast.symm.trans hlast'))
    rcases ht.written _ _ hlast with hcurrent | ⟨-, -, hkept⟩ | ⟨_, hcanary, -⟩
    · exact absurd hcurrent hother
    · exact hkept.symm.trans hactive
    · cases hcanary
  · rintro (hnone | hrecorded) reason setting hok
    · exact absurd hnone (rollback_ok hok).1
    · obtain ⟨hsome, hactive, hrest⟩ := rollback_ok hok
      cases hlast : h.lastChange with
      | none => exact absurd (ht.unchanged hlast).2 hsome
      | some change =>
        obtain ⟨step, before⟩ := change
        refine ⟨step, before, rfl, hactive.trans ?_, hrest⟩
        rcases ht.written step before hlast with hcurrent | ⟨profileId, rfl, hkept⟩ | ⟨-, -, hwritten⟩
        · exact absurd hcurrent hrecorded.other
        · exact hkept.trans (hrecorded.last profileId before hlast)
        · exact hwritten


/-! ## The same canary twice -/

/-- Two profiles and a project. -/
def twoProfiles : Db where
  projects := [0]
  profiles := (Table.empty.insert ⟨"active"⟩).insert ⟨"active"⟩
  settings := fun _ => none
  audits := []

/-- The first profile is activated, then the second one twice, with a canary of 100 percent. -/
def repeated : Run := ⟨twoProfiles, 0, rfl, [.setActive 0 0, .setCanary 0 1 100, .setCanary 0 1 100]⟩

/-- **The rollback keeps the second profile.** -/
theorem restores_repeated : ¬ Restores repeated.projectId repeated.end := by
  intro h
  obtain ⟨step, before, hlast, hactive, -⟩ := h "worse" _ rfl
  cases hlast
  exact absurd hactive (by decide)

end CodexMemory.Retrieval.Profiles
