import CodexMemory.Contracts.Publication
import Mathlib.Data.List.Chain

/-!
# The identity of an operation across publications

`publications` reads the revisions of a service that were published off the
history of a run.  `identity_stable`: of two that follow one another, the second
has the identifier of the first for every method and path that both have.
-/

namespace CodexMemory.Contracts

open OpenApi (DocumentFloat PreviousOperation checkTransition lastWith upper validateOperationTransition)

variable {F : Type}

/-! ## The check of a transition -/

/-- Both revisions have the same identifier for a method and path that both have. -/
def SameIdentity (s : Database F) (a b : Nat) : Prop :=
  ∀ o ∈ s.operationsOf a, ∀ o' ∈ s.operationsOf b, o'.2.method = o.2.method → o'.2.path = o.2.path →
    o'.2.operationId = o.2.operationId

/-- Where the keys are different, the last item with a key is the item with it. -/
theorem lastWith_mem {α κ β : Type} [DecidableEq κ] {key : α → κ} (value : α → β) {items : List α}
    (hkeys : (items.map key).Nodup) {item : α} (hitem : item ∈ items) :
    lastWith key value (key item) items = some (value item) := by
  rw [lastWith, Option.map_eq_some_iff]
  refine ⟨item, ?_, rfl⟩
  cases hfind : items.reverse.find? fun i => key i = key item with
  | none =>
    have hnot := List.find?_eq_none.mp hfind item (List.mem_reverse.mpr hitem)
    exact absurd (decide_eq_true rfl) hnot
  | some found =>
    have hmem := List.mem_reverse.mp (List.mem_of_find?_eq_some hfind)
    have hkey : key found = key item := by simpa using List.find?_some hfind
    rw [List.inj_on_of_nodup_map hkeys hmem hitem hkey]

theorem upper_methods : ∀ method ∈ methods, upper method = method := by decide

/-- The identifier that the check finds for the method and path of a previous operation. -/
theorem previousOperations_lastWith {s : Database F} (hok : Ok s) {current : Nat} {o : Nat × ApiOperation F}
    (ho : o ∈ s.operationsOf current) :
    lastWith (fun item : PreviousOperation => (upper item.method, item.path)) PreviousOperation.operationId
      (o.2.method, o.2.path) (s.previousOperations current) = some o.2.operationId := by
  have hupper : ∀ o ∈ s.operationsOf current, upper o.2.method = o.2.method :=
    fun o ho => upper_methods o.2.method (hok.methods o (List.mem_filter.mp ho).1)
  have hkeys : ((s.previousOperations current).map fun item => (upper item.method, item.path)).Nodup := by
    rw [Database.previousOperations, List.map_map]
    refine Eq.subst ?_ (hok.routes current)
    exact List.map_congr_left fun o ho => (congrArg (fun m => (m, o.2.path)) (hupper o ho)).symm
  have hlast := lastWith_mem PreviousOperation.operationId hkeys (List.mem_map_of_mem ho)
  rw [hupper o ho] at hlast
  exact hlast

/-- What one operation has passed. -/
theorem checkTransition_ok {previous : List PreviousOperation} {method path operationId oldId : String}
    {warnings : List OpenApi.Issue} (h : checkTransition previous method path operationId = .ok warnings)
    (hold : lastWith (fun item : PreviousOperation => (upper item.method, item.path)) PreviousOperation.operationId
      (method, path) previous = some oldId) : operationId = oldId := by
  simp only [checkTransition, hold] at h
  split at h
  · cases h
  · next heq => exact (not_not.mp heq).symm

theorem validateOperationTransition_each {operations : List (String × String × String)}
    {previous : List PreviousOperation} {warnings : List OpenApi.Issue}
    (h : validateOperationTransition operations previous = .ok warnings) :
    ∀ o ∈ operations, ∃ more, checkTransition previous o.1 o.2.1 o.2.2 = .ok more := by
  unfold validateOperationTransition at h
  generalize ([] : List OpenApi.Issue) = start at h
  induction operations generalizing start with
  | nil => exact nofun
  | cons operation rest ih =>
    rw [List.foldlM_cons] at h
    obtain ⟨next, hnext, h⟩ := bind_ok h
    obtain ⟨more, hmore, -⟩ := bind_ok hnext
    intro o ho
    rcases List.mem_cons.mp ho with rfl | ho
    · exact ⟨more, hmore⟩
    · exact ih next h o ho

/-- **A checked transition keeps the identifiers.** -/
theorem transition_sameIdentity {s : Database F} (hok : Ok s) {current revisionId : Nat} {warnings : List OpenApi.Issue}
    (h : validateOperationTransition (s.routesOf revisionId) (s.previousOperations current) = .ok warnings) :
    SameIdentity s current revisionId := by
  intro o ho o' ho' hmethod hpath
  obtain ⟨more, hmore⟩ := validateOperationTransition_each h _ (List.mem_map_of_mem ho')
  refine checkTransition_ok hmore ?_
  rw [hmethod, hpath]
  exact previousOperations_lastWith hok ho

/-- Within a revision the method and path name one operation. -/
theorem sameIdentity_self {s : Database F} (hok : Ok s) (a : Nat) : SameIdentity s a a := by
  intro o ho o' ho' hmethod hpath
  rw [List.inj_on_of_nodup_map (hok.routes a) ho' ho (Prod.ext hmethod hpath)]

theorem SameIdentity.kept {s s' : Database F} {a b : Nat} (h : SameIdentity s a b) (hkept : Kept s s')
    (ha : ∃ r, s.revisions.get? a = some r) (hb : ∃ r, s.revisions.get? b = some r) : SameIdentity s' a b := by
  obtain ⟨ra, hra⟩ := ha
  obtain ⟨rb, hrb⟩ := hb
  rw [SameIdentity, hkept.operations a ra hra, hkept.operations b rb hrb]
  exact h

/-! ## Publications -/

/-- The revision of the service that a call has published. -/
def publication (serviceId : Nat) : Call × Except ContractError Answer → Option Nat
  | (.publish call, .ok (.published revisionId _)) => if call.serviceId = serviceId then some revisionId else none
  | _ => none

/-- The revisions of a service that were published, in order. -/
def publications (serviceId : Nat) (history : List (Call × Except ContractError Answer)) : List Nat :=
  history.filterMap (publication serviceId)

/-- The revision that the service points to. -/
def pointer (s : Database F) (serviceId : Nat) : Option Nat :=
  (s.services.get? serviceId).bind ContractService.currentPublishedRevisionId

/-- The publications of each service end with the revision that it points to, and keep the
identifiers from one to the next. -/
structure Published (s : Database F) (history : List (Call × Except ContractError Answer)) : Prop where
  ok : Ok s
  last : ∀ serviceId, (publications serviceId history).getLast? = pointer s serviceId
  exist : ∀ serviceId, ∀ a ∈ publications serviceId history, ∃ r, s.revisions.get? a = some r
  chain : ∀ serviceId, (publications serviceId history).IsChain (SameIdentity s)

theorem publications_snoc (serviceId : Nat) (history : List (Call × Except ContractError Answer))
    (x : Call × Except ContractError Answer) :
    publications serviceId (history ++ [x]) = publications serviceId history ++ (publication serviceId x).toList := by
  rw [publications, List.filterMap_append]
  refine congrArg _ ?_
  cases h : publication serviceId x with
  | none => rw [List.filterMap_cons_none h, List.filterMap_nil, Option.toList_none]
  | some b => rw [List.filterMap_cons_some h, List.filterMap_nil, Option.toList_some]

/-- What one call has to do: what it publishes is what the service points to from then on, and has the
identifiers of what it pointed to before. -/
theorem Published.snoc {s s' : Database F} {history : List (Call × Except ContractError Answer)}
    (h : Published s history) {call : Call} {reply : Except ContractError Answer} (hchange : Change s call reply s')
    (hpointer : ∀ i, pointer s' i = (publication i (call, reply)).or (pointer s i))
    (hpublished : ∀ i b, publication i (call, reply) = some b →
      (∃ r, s.revisions.get? b = some r) ∧ ∀ a, pointer s i = some a → SameIdentity s a b) :
    Published s' (history ++ [(call, reply)]) := by
  have hkept := change_kept h.ok hchange
  have hlater : ∀ a, (∃ r, s.revisions.get? a = some r) → ∃ r, s'.revisions.get? a = some r := by
    rintro a ⟨r, hr⟩
    obtain ⟨r', hr', -, -⟩ := hkept.revision a r hr
    exact ⟨r', hr'⟩
  have hchain : ∀ i, (publications i history).IsChain (SameIdentity s') := by
    intro i
    refine (h.chain i).imp_of_mem_imp fun a b ha hb hab => ?_
    exact hab.kept hkept (h.exist i a ha) (h.exist i b hb)
  refine ⟨change_ok h.ok hchange, fun i => ?_, fun i a ha => ?_, fun i => ?_⟩
  · rw [publications_snoc, List.getLast?_append, hpointer, h.last]
    cases publication i (call, reply) with
    | none => rfl
    | some b => rfl
  · rw [publications_snoc] at ha
    rcases List.mem_append.mp ha with ha | ha
    · exact hlater a (h.exist i a ha)
    · exact hlater a (hpublished i a (Option.mem_toList.mp ha)).1
  · rw [publications_snoc, List.isChain_append]
    refine ⟨hchain i, ?_, fun a ha b hb => ?_⟩
    · cases publication i (call, reply) with
      | none => exact List.isChain_nil
      | some b => exact List.isChain_singleton b
    · rw [Option.mem_def, h.last] at ha
      have hb' : publication i (call, reply) = some b := by
        cases hp : publication i (call, reply) with
        | none =>
          rw [hp] at hb
          cases hb
        | some b' =>
          rw [hp] at hb
          exact hb
      obtain ⟨hexists, hsame⟩ := hpublished i b hb'
      have hmem : a ∈ publications i history := List.mem_of_getLast? ((h.last i).trans ha)
      exact (hsame a ha).kept hkept (h.exist i a hmem) hexists

/-- A call that publishes nothing. -/
theorem Published.quiet {s s' : Database F} {history : List (Call × Except ContractError Answer)}
    (h : Published s history) {call : Call} {reply : Except ContractError Answer} (hchange : Change s call reply s')
    (hquiet : ∀ i, publication i (call, reply) = none) (hpointer : ∀ i, pointer s' i = pointer s i) :
    Published s' (history ++ [(call, reply)]) := by
  refine h.snoc hchange (fun i => ?_) fun i b hb => ?_
  · rw [hquiet, Option.none_or, hpointer]
  · rw [hquiet] at hb
    cases hb

theorem pointer_eq {s : Database F} {serviceId : Nat} {service : ContractService}
    (lock : s.services.get? serviceId = some service) : pointer s serviceId = service.currentPublishedRevisionId := by
  rw [pointer, lock, Option.bind_some]

/-- What the services point to after a publication. -/
theorem pointer_switchTo (s : Database F) (call : Publish) (revisionId : Nat) (current : Option Nat)
    {service : ContractService} (lock : s.services.get? call.serviceId = some service) (i : Nat) :
    pointer (switchTo (superseding s current revisionId) call revisionId) i =
      if call.serviceId = i then some revisionId else pointer s i := by
  rw [pointer, switchTo_services]
  by_cases hi : i = call.serviceId
  · subst hi
    rw [lock, Option.map_some, if_pos rfl, if_pos rfl, Option.bind_some]
  · simp only [if_neg hi, if_neg (Ne.symm hi), Option.map_id']
    rfl

/-- **What a call preserves.** -/
theorem Published.change {s s' : Database F} {history : List (Call × Except ContractError Answer)}
    (h : Published s history) {call : Call} {reply : Except ContractError Answer} (hchange : Change s call reply s') :
    Published s' (history ++ [(call, reply)]) := by
  have hpublication : ∀ (call : Publish) (revisionId : Nat) (reused : Bool) (i : Nat),
      publication i (.publish call, .ok (.published revisionId reused)) =
        if call.serviceId = i then some revisionId else none := fun _ _ _ _ => rfl
  cases hchange with
  | raised call error =>
    refine h.quiet (.raised call error) (fun i => ?_) fun _ => rfl
    cases call <;> rfl
  | reused call revisionId => exact h.quiet (.reused call revisionId) (fun _ => rfl) fun _ => rfl
  | serviceAdded call row unpublished =>
    refine h.quiet (.serviceAdded call row unpublished) (fun _ => rfl) fun i => ?_
    rw [pointer, pointer]
    by_cases hi : i = s.services.nextId
    · rw [hi, Table.get?_insert_self, Table.get?_nextId, Option.bind_some, unpublished, Option.bind_none]
    · rw [Table.get?_insert_ne _ _ hi]
  | created call service parsed s₁ s' lock methods revision operations =>
    refine h.quiet (.created call service parsed s₁ s' lock methods revision operations) (fun _ => rfl) fun i => ?_
    have hservices := (insertOperations_added methods operations).services
    rw [(insertRevision_some revision).1] at hservices
    rw [pointer, pointer, hservices]
  | pointed call service revisionId revision lock row owner status =>
    have hpointer : pointer s call.serviceId = some revisionId := by
      rw [pointer_eq lock]
      exact ((h.ok.services _ service lock).current revisionId).mpr ⟨revision, row, owner, status⟩
    refine h.snoc (.pointed call service revisionId revision lock row owner status) (fun i => ?_) fun i b hb => ?_
    · rw [setCurrent_same h.ok lock row owner status, hpublication]
      split
      · next hi => rw [← hi, hpointer, Option.some_or]
      · rw [Option.none_or]
    · rw [hpublication] at hb
      split at hb
      · next hi =>
        cases hb
        refine ⟨⟨revision, row⟩, fun a ha => ?_⟩
        rw [← hi, hpointer] at ha
        rw [← Option.some.inj ha]
        exact sameIdentity_self h.ok revisionId
      · cases hb
  | published call service revisionId revision lock row owner status transition =>
    obtain ⟨hcurrent, hne⟩ := currentRevision_eq h.ok lock row status
    refine h.snoc (.published call service revisionId revision lock row owner status transition) (fun i => ?_)
      fun i b hb => ?_
    · rw [pointer_switchTo s call revisionId _ lock, hpublication]
      split
      · rw [Option.some_or]
      · rw [Option.none_or]
    · rw [hpublication] at hb
      split at hb
      · next hi =>
        cases hb
        refine ⟨⟨revision, row⟩, fun a ha => ?_⟩
        rw [← hi, pointer_eq lock] at ha
        obtain ⟨warnings, hwarnings⟩ := transition a (hcurrent.trans ha) fun heq => hne (heq ▸ ha)
        exact transition_sameIdentity h.ok hwarnings
      · cases hb

/-! ## Runs -/

theorem published_empty : Published (F := F) Database.empty [] :=
  ⟨ok_empty, fun _ => rfl, fun _ => nofun, fun _ => List.isChain_nil⟩

variable [DocumentFloat F] (host : OpenApi.Host F) (engine : Engine F)

/-- **The identity of an operation is stable.**  Whatever calls are made in whatever order, the
revisions of a service that were published keep the identifiers of their operations from each to the
next one. -/
theorem identity_stable (calls : List Call) (serviceId : Nat) :
    (publications serviceId (Trace.history (step host engine) Database.empty calls)).IsChain
      (SameIdentity (reached host engine calls)) := by
  have hstep : ∀ s history call, Published s history →
      Published (step host engine s call).2 (history ++ [(call, (step host engine s call).1)]) :=
    fun s _ call h => h.change (step_change host engine s call)
  exact (Trace.exec_history_invariant hstep published_empty calls).chain serviceId

/-! ## A run with two publications -/

/-- The pets with a schema of a type. -/
def petsOf (type : String) : Json Empty :=
  OpenApi.petDocument [("200", OpenApi.petResponse (.obj [("type", .str type)]))] [("tags", .arr [])]

def propose (document : Json Empty) : Call :=
  .createRevision { serviceId := 0, filename := "contract.json", content := OpenApi.fileOf document }

def publishAs (revisionNumber : Nat) (document : Json Empty) : Call :=
  .publish {
    serviceId := 0
    revisionNumber := revisionNumber
    expectedContentHash :=
      match OpenApi.parseLoaded OpenApi.plainHost (OpenApi.Loaded.ofJson document) [] with
      | .ok parsed => parsed.contentHash
      | .error _ => "" }

/-- Both revisions are proposed before the first is published. -/
example : publications 0 (Trace.history (step OpenApi.plainHost ⟨fun _ => true, fun _ => true⟩) Database.empty
    [.createService { projectId := 1, serviceKey := "pets" }, propose (petsOf "string"), propose (petsOf "integer"),
      publishAs 1 (petsOf "string"), publishAs 2 (petsOf "integer")]) = [0, 1] := by
  have hstring := funext (@OpenApi.parse_fileOf OpenApi.plainHost (petsOf "string") (by decide) (by decide)
    (by decide +kernel) (by decide +kernel))
  have hinteger := funext (@OpenApi.parse_fileOf OpenApi.plainHost (petsOf "integer") (by decide) (by decide)
    (by decide +kernel) (by decide +kernel))
  simp only [Trace.history, step, createRevision, propose, publishAs, hstring, hinteger]
  decide +kernel

end CodexMemory.Contracts
