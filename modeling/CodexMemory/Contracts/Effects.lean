import CodexMemory.Contracts.Revisions
import CodexMemory.OpenApi.Accepted

/-!
# What a call does to the tables

`Change` lists everything that a call can do, with what it has checked before;
`step_change`: a call does one of these.
-/

namespace CodexMemory.Contracts

open OpenApi (DocumentFloat NormalizedOpenAPI ParsedOperation PreviousOperation Failure
  parseAndNormalizeOpenapi validateOperationTransition)

variable {F : Type}

/-! ## The methods of an index -/

/-- The methods of operations. -/
def methods : List String := OpenApi.methodOrder.map OpenApi.upper

section

variable [DocumentFloat F]

theorem parseOperation_method {host : OpenApi.Host F} {document : Json F} {path : String}
    {pathItem : List (String × Json F)} {seen : List String} {method : String} {operation : ParsedOperation F}
    (h : OpenApi.parseOperation host document path pathItem seen method = .ok operation) :
    operation.method = OpenApi.upper method := by
  unfold OpenApi.parseOperation at h
  simp only at h
  split at h
  · cases h
  · obtain ⟨value, -, h⟩ := bind_ok h
    split at h
    · obtain ⟨operationId, -, h⟩ := bind_ok h
      obtain ⟨tags, -, h⟩ := bind_ok h
      obtain ⟨serialized, -, h⟩ := bind_ok h
      cases h
      rfl
    · cases h

/-- The parser gives only methods of OpenAPI, in upper case. -/
theorem operationsOf_methods {host : OpenApi.Host F} {document : Json F} {operations : List (ParsedOperation F)}
    (h : OpenApi.operationsOf host document = .ok operations) : ∀ o ∈ operations, o.method ∈ methods := by
  have hitem : ∀ (path : String) (pathItem : List (String × Json F)) (result result' : List (ParsedOperation F)),
      (∀ o ∈ result, o.method ∈ methods) → OpenApi.pathOperations host document path pathItem result = .ok result' →
      ∀ o ∈ result', o.method ∈ methods := by
    intro path pathItem result result' hresult h
    unfold OpenApi.pathOperations at h
    refine foldlM_ok (P := fun result => ∀ o ∈ result, o.method ∈ methods) ?_ hresult h
    intro result result₁ method hmethod hresult hstep
    rw [List.mem_insertionSort, List.mem_filter, decide_eq_true_eq] at hmethod
    obtain ⟨operation, hoperation, hstep⟩ := bind_ok hstep
    split at hstep
    · cases hstep
    · cases hstep
      intro o ho
      rcases List.mem_append.mp ho with ho | ho
      · exact hresult o ho
      · rw [List.mem_singleton.mp ho, parseOperation_method hoperation]
        exact List.mem_map_of_mem hmethod.2
  unfold OpenApi.operationsOf at h
  split at h
  · refine foldlM_ok (P := fun result => ∀ o ∈ result, o.method ∈ methods) ?_ (List.forall_mem_nil _) h
    intro result result' item _ hresult hstep
    split at hstep
    · obtain ⟨value, -, hstep⟩ := bind_ok hstep
      split at hstep
      · exact hitem _ _ _ _ hresult hstep
      · cases hstep
        exact hresult
    · cases hstep
      exact hresult
  · cases h

theorem parsed_methods {host : OpenApi.Host F} {filename : String} {content : ByteArray}
    {previous : List PreviousOperation} {parsed : NormalizedOpenAPI F}
    (h : parseAndNormalizeOpenapi host filename content previous = .ok parsed) :
    ∀ o ∈ parsed.operations, o.method ∈ methods :=
  operationsOf_methods (OpenApi.parse_accepted h).operations

end

/-! ## Changes -/

/-- The current revision is superseded, unless it is the one that is published. -/
def superseding (s : Database F) (current : Option Nat) (revisionId : Nat) : Database F :=
  match current with
  | none => s
  | some current => if current = revisionId then s else s.setStatus current .superseded

/-- What a call does. -/
inductive Change (s : Database F) : Call → Except ContractError Answer → Database F → Prop
  | raised (call : Call) (error : ContractError) : Change s call (.error error) s
  | reused (call : CreateRevision) (revisionId : Nat) :
      Change s (.createRevision call) (.ok (.revision revisionId true)) s
  | serviceAdded (call : CreateService) (row : ContractService) (unpublished : row.currentPublishedRevisionId = none) :
      Change s (.createService call) (.ok (.service s.services.nextId)) { s with services := s.services.insert row }
  | created (call : CreateRevision) (service : ContractService) (parsed : NormalizedOpenAPI F) (s₁ s' : Database F)
      (lock : s.services.get? call.serviceId = some service)
      (methods : ∀ o ∈ parsed.operations, o.method ∈ methods)
      (revision : s.insertRevision (revisionRow call service (nextNumber s call.serviceId) parsed) = some s₁)
      (operations : insertOperations service.projectId call.serviceId s.revisions.nextId s₁ parsed.operations = some s') :
      Change s (.createRevision call) (.ok (.revision s.revisions.nextId false)) s'
  | pointed (call : Publish) (service : ContractService) (revisionId : Nat) (revision : ContractRevision F)
      (lock : s.services.get? call.serviceId = some service) (row : s.revisions.get? revisionId = some revision)
      (owner : revision.serviceId = call.serviceId) (status : revision.status = .published) :
      Change s (.publish call) (.ok (.published revisionId true)) (s.setCurrent call.serviceId revisionId)
  | published (call : Publish) (service : ContractService) (revisionId : Nat) (revision : ContractRevision F)
      (lock : s.services.get? call.serviceId = some service) (row : s.revisions.get? revisionId = some revision)
      (owner : revision.serviceId = call.serviceId) (status : revision.status = .proposed)
      (transition : ∀ current, currentRevision s call.serviceId service revisionId = some current → current ≠ revisionId →
        ∃ warnings, validateOperationTransition (s.routesOf revisionId) (s.previousOperations current) = .ok warnings) :
      Change s (.publish call) (.ok (.published revisionId false))
        (switchTo (superseding s (currentRevision s call.serviceId service revisionId) revisionId) call revisionId)

theorem lockService_some {s : Database F} {serviceId : Nat} {projectId : Option Nat} {service : ContractService}
    (h : s.lockService serviceId projectId = some service) : s.services.get? serviceId = some service :=
  (Option.filter_eq_some_iff.mp h).1

theorem insertService_some {engine : Engine F} {s s' : Database F} {row : ContractService}
    (h : s.insertService engine row = some s') : s' = { s with services := s.services.insert row } := by
  rw [Database.insertService] at h
  split at h
  · cases h
  · exact (Option.some.inj h).symm

theorem createService_change (engine : Engine F) (s : Database F) (call : CreateService) :
    Change s (.createService call) ((createService engine s call).1.map .service) (createService engine s call).2 := by
  simp only [createService]
  split
  · exact .raised _ _
  · split
    · exact .raised _ _
    · next s' hs' =>
      split
      · rw [insertService_some hs']
        exact .serviceAdded call _ rfl
      · exact .raised _ _

/-- One transaction of `create_revision` that commits. -/
theorem insertAll_change {engine : Engine F} {s s' : Database F} {call : CreateRevision} {service : ContractService}
    {parsed : NormalizedOpenAPI F} {revisionId : Nat} {reused : Bool}
    (lock : s.services.get? call.serviceId = some service) (hmethods : ∀ o ∈ parsed.operations, o.method ∈ methods)
    (h : insertAll engine s call service parsed = .returned revisionId reused s') :
    Change s (.createRevision call) (.ok (.revision revisionId reused)) s' := by
  rw [insertAll] at h
  split at h
  · cases h
  · next s₁ hs₁ =>
    split at h
    · cases h
    · next s₂ hs₂ =>
      split at h
      · cases h
        exact .created call service parsed s₁ _ lock hmethods hs₁ hs₂
      · cases h

theorem createAttempt_change {engine : Engine F} {s s' : Database F} {call : CreateRevision}
    {parse : List PreviousOperation → Except Failure (NormalizedOpenAPI F)}
    (hparse : ∀ previous parsed, parse previous = .ok parsed → ∀ o ∈ parsed.operations, o.method ∈ methods)
    {parsed : NormalizedOpenAPI F} (hmethods : ∀ o ∈ parsed.operations, o.method ∈ methods) {revisionId : Nat}
    {reused : Bool} (h : createAttempt engine s call parse parsed = .returned revisionId reused s') :
    Change s (.createRevision call) (.ok (.revision revisionId reused)) s' := by
  rw [createAttempt] at h
  split at h
  · cases h
  · next service hservice =>
    split at h
    · cases h
      exact .reused call _
    · simp only at h
      split at h
      · exact insertAll_change (lockService_some hservice) hmethods h
      · split at h
        · cases h
        · next parsed' hparsed' => exact insertAll_change (lockService_some hservice) (hparse _ _ hparsed') h

/-- A refused attempt goes on with the parse that it was refused with. -/
theorem createAttempt_integrity {engine : Engine F} {s : Database F} {call : CreateRevision}
    {parse : List PreviousOperation → Except Failure (NormalizedOpenAPI F)}
    (hparse : ∀ previous parsed, parse previous = .ok parsed → ∀ o ∈ parsed.operations, o.method ∈ methods)
    {parsed parsed' : NormalizedOpenAPI F} (hmethods : ∀ o ∈ parsed.operations, o.method ∈ methods)
    (h : createAttempt engine s call parse parsed = .integrity parsed') :
    ∀ o ∈ parsed'.operations, o.method ∈ methods := by
  have hinsert : ∀ {service parsed₁}, (∀ o ∈ parsed₁.operations, o.method ∈ methods) →
      insertAll engine s call service parsed₁ = .integrity parsed' → ∀ o ∈ parsed'.operations, o.method ∈ methods := by
    intro service parsed₁ hparsed₁ h
    rw [insertAll] at h
    split at h
    · cases h
      exact hparsed₁
    · split at h
      · cases h
        exact hparsed₁
      · split at h <;> cases h
  rw [createAttempt] at h
  split at h
  · cases h
  · split at h
    · cases h
    · simp only at h
      split at h
      · exact hinsert hmethods h
      · split at h
        · cases h
        · next parsed₁ hparsed₁ => exact hinsert (hparse _ _ hparsed₁) h

theorem createLoop_change {engine : Engine F} {s : Database F} {call : CreateRevision}
    {parse : List PreviousOperation → Except Failure (NormalizedOpenAPI F)}
    (hparse : ∀ previous parsed, parse previous = .ok parsed → ∀ o ∈ parsed.operations, o.method ∈ methods)
    (attempts : Nat) {parsed : NormalizedOpenAPI F} (hmethods : ∀ o ∈ parsed.operations, o.method ∈ methods) :
    Change s (.createRevision call) ((createLoop engine s call parse attempts parsed).1.map fun r => .revision r.1 r.2)
      (createLoop engine s call parse attempts parsed).2 := by
  induction attempts generalizing parsed with
  | zero => exact .raised _ _
  | succ attempts ih =>
    rw [createLoop]
    split
    · next hattempt => exact createAttempt_change hparse hmethods hattempt
    · exact .raised _ _
    · next parsed' hattempt =>
      split
      · exact .reused call _
      · exact ih (createAttempt_integrity hparse hmethods hattempt)

theorem createParsed_change {engine : Engine F} {s : Database F} {call : CreateRevision}
    {parse : List PreviousOperation → Except Failure (NormalizedOpenAPI F)}
    (hparse : ∀ previous parsed, parse previous = .ok parsed → ∀ o ∈ parsed.operations, o.method ∈ methods) :
    Change s (.createRevision call) ((createParsed engine s call parse).1.map fun r => .revision r.1 r.2)
      (createParsed engine s call parse).2 := by
  rw [createParsed]
  split
  · exact .raised _ _
  · next parsed hparsed => exact createLoop_change hparse 3 (hparse _ _ hparsed)

theorem revisionNumbered_some {s : Database F} {serviceId revisionNumber : Nat} {projectId : Option Nat}
    {r : Nat × ContractRevision F} (h : s.revisionNumbered serviceId revisionNumber projectId = some r) :
    s.revisions.get? r.1 = some r.2 ∧ r.2.serviceId = serviceId := by
  have hmem := List.mem_of_find?_eq_some h
  obtain ⟨hget, howner⟩ := (s.revisions.mem_select _ r.1 r.2).mp hmem
  exact ⟨hget, of_decide_eq_true howner⟩

theorem commit_change {engine : Engine F} {s s' : Database F} {call : Publish} {revisionId : Nat} {reused : Bool}
    (h : Change s (.publish call) (.ok (.published revisionId reused)) s') :
    Change s (.publish call) ((commit engine s s' revisionId reused).1.map fun r => .published r.1 r.2)
      (commit engine s s' revisionId reused).2 := by
  rw [commit]
  split
  · exact h
  · exact .raised _ _

theorem publish_change (engine : Engine F) (s : Database F) (call : Publish) :
    Change s (.publish call) ((publish engine s call).1.map fun r => .published r.1 r.2) (publish engine s call).2 := by
  rw [publish]
  split
  · exact .raised _ _
  · next service hservice =>
    have lock := lockService_some hservice
    split
    · exact .raised _ _
    · next revisionId revision hrevision =>
      obtain ⟨row, owner⟩ := revisionNumbered_some hrevision
      split
      · exact .raised _ _
      · split
        · next hstatus => exact commit_change (.pointed call service revisionId revision lock row owner hstatus)
        · exact .raised _ _
        · next hstatus =>
          have hpublished := fun transition =>
            Change.published (s := s) call service revisionId revision lock row owner hstatus transition
          split
          · next hcurrent =>
            rw [hcurrent] at hpublished
            exact commit_change (hpublished nofun)
          · next current hcurrent =>
            rw [hcurrent] at hpublished
            simp only [superseding] at hpublished
            split
            · next heq =>
              rw [if_pos heq] at hpublished
              exact commit_change (hpublished fun c hc hne => absurd ((Option.some.inj hc).symm.trans heq) hne)
            · next hne =>
              rw [if_neg hne] at hpublished
              split
              · exact .raised _ _
              · next warnings hwarnings =>
                refine commit_change (hpublished fun c hc _ => ⟨warnings, ?_⟩)
                rw [← Option.some.inj hc]
                exact hwarnings

theorem createRevision_change [DocumentFloat F] (engine : Engine F) (host : OpenApi.Host F) (s : Database F)
    (call : CreateRevision) :
    Change s (.createRevision call) ((createRevision engine host s call).1.map fun r => .revision r.1 r.2)
      (createRevision engine host s call).2 := by
  have hparse : ∀ previous parsed, parseAndNormalizeOpenapi host call.filename call.content previous = .ok parsed →
      ∀ o ∈ parsed.operations, o.method ∈ methods := fun _ _ h => parsed_methods h
  unfold createRevision
  exact createParsed_change hparse

/-- **A call does one of the changes.** -/
theorem step_change [DocumentFloat F] (host : OpenApi.Host F) (engine : Engine F) (s : Database F) (call : Call) :
    Change s call (step host engine s call).1 (step host engine s call).2 := by
  cases call with
  | createService call =>
    simp only [step, answered]
    exact createService_change engine s call
  | createRevision call =>
    simp only [step, answered]
    exact createRevision_change engine host s call
  | publish call =>
    simp only [step, answered]
    exact publish_change engine s call

end CodexMemory.Contracts
