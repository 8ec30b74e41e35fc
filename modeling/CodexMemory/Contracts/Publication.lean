import CodexMemory.Contracts.Effects

/-!
# The revisions of a service over whole runs

`Ok` holds in every state that calls lead to, and `Kept` between any two states
of a run: a revision stays as it was created, and superseded once it is.
`revisions_safe` puts the two together.
-/

namespace CodexMemory.Contracts

open OpenApi (DocumentFloat NormalizedOpenAPI ParsedOperation PreviousOperation)

variable {F : Type}

/-! ## The invariant -/

/-- The revisions of the service with what they were created with. -/
def contents (s : Database F) (serviceId : Nat) : List (Nat × RevisionContent F) :=
  (s.revisionsOf serviceId).map fun r => (r.1, r.2.toRevisionContent)

/-- The revision is a published one of the service. -/
def IsPublished (s : Database F) (serviceId revisionId : Nat) : Prop :=
  ∃ r, s.revisions.get? revisionId = some r ∧ r.serviceId = serviceId ∧ r.status = .published

/-- The service points to its published revision, and its revisions have the numbers from 1 on and
different hashes. -/
structure ServiceOk (s : Database F) (serviceId : Nat) (service : ContractService) : Prop where
  current : ∀ k, service.currentPublishedRevisionId = some k ↔ IsPublished s serviceId k
  numbers : (contents s serviceId).map (fun r => r.2.revisionNumber) = List.range' 1 (contents s serviceId).length
  hashes : ((contents s serviceId).map fun r => r.2.contentHash).Nodup

structure Ok (s : Database F) : Prop where
  services : ∀ i service, s.services.get? i = some service → ServiceOk s i service
  owned : ∀ k r, s.revisions.get? k = some r → ∃ service, s.services.get? r.serviceId = some service
  belongs : ∀ o ∈ s.operations.rows, ∃ r, s.revisions.get? o.2.revisionId = some r
  routes : ∀ k, ((s.operationsOf k).map fun o => (o.2.method, o.2.path)).Nodup
  methods : ∀ o ∈ s.operations.rows, o.2.method ∈ methods

theorem ok_empty : Ok (F := F) Database.empty :=
  ⟨nofun, nofun, nofun, fun _ => List.nodup_nil, nofun⟩

/-- What a later state keeps of the revisions. -/
structure Kept (s s' : Database F) : Prop where
  revision : ∀ k r, s.revisions.get? k = some r → ∃ r', s'.revisions.get? k = some r' ∧
    r'.toRevisionContent = r.toRevisionContent ∧ (r.status = .superseded → r'.status = .superseded)
  operations : ∀ k r, s.revisions.get? k = some r → s'.operationsOf k = s.operationsOf k

theorem Kept.refl (s : Database F) : Kept s s := ⟨fun _ r hr => ⟨r, hr, rfl, id⟩, fun _ _ _ => rfl⟩

theorem Kept.trans {s t u : Database F} (h : Kept s t) (h' : Kept t u) : Kept s u := by
  constructor
  · intro k r hr
    obtain ⟨r₁, hr₁, hcontent₁, hstatus₁⟩ := h.revision k r hr
    obtain ⟨r₂, hr₂, hcontent₂, hstatus₂⟩ := h'.revision k r₁ hr₁
    exact ⟨r₂, hr₂, hcontent₂.trans hcontent₁, fun hs => hstatus₂ (hstatus₁ hs)⟩
  · intro k r hr
    obtain ⟨r₁, hr₁, -, -⟩ := h.revision k r hr
    rw [h'.operations k r₁ hr₁, h.operations k r hr]

/-! ## Rewriting rows -/

/-- The revisions are rewritten, and each keeps what it was created with. -/
structure Rewritten (s s' : Database F) (f : Nat → ContractRevision F → ContractRevision F) : Prop where
  revisions : s'.revisions = s.revisions.mapRows f
  content : ∀ k r, (f k r).toRevisionContent = r.toRevisionContent
  operations : s'.operations = s.operations

theorem Rewritten.get? {s s' : Database F} {f : Nat → ContractRevision F → ContractRevision F} (h : Rewritten s s' f)
    (k : Nat) : s'.revisions.get? k = (s.revisions.get? k).map (f k) := by
  rw [h.revisions, Table.get?_mapRows]

theorem Rewritten.serviceId {s s' : Database F} {f : Nat → ContractRevision F → ContractRevision F}
    (h : Rewritten s s' f) (k : Nat) (r : ContractRevision F) : (f k r).serviceId = r.serviceId :=
  congrArg RevisionContent.serviceId (h.content k r)

theorem Rewritten.contents {s s' : Database F} {f : Nat → ContractRevision F → ContractRevision F}
    (h : Rewritten s s' f) (serviceId : Nat) : contents s' serviceId = contents s serviceId := by
  have hrows : s'.revisionsOf serviceId = (s.revisionsOf serviceId).map fun r => (r.1, f r.1 r.2) := by
    rw [Database.revisionsOf, Database.revisionsOf, h.revisions]
    show (s.revisions.rows.map fun r => (r.1, f r.1 r.2)).filter _ = _
    rw [List.filter_map]
    refine congrArg _ (List.filter_congr fun r _ => ?_)
    simp only [Function.comp_apply, h.serviceId]
  rw [Contracts.contents, Contracts.contents, hrows, List.map_map]
  refine List.map_congr_left fun r _ => ?_
  simp only [Function.comp_apply, h.content]

theorem Rewritten.operationsOf {s s' : Database F} {f : Nat → ContractRevision F → ContractRevision F}
    (h : Rewritten s s' f) (k : Nat) : s'.operationsOf k = s.operationsOf k := by
  rw [Database.operationsOf, Database.operationsOf, h.operations]

theorem Rewritten.kept {s s' : Database F} {f : Nat → ContractRevision F → ContractRevision F} (h : Rewritten s s' f)
    (hstatus : ∀ k r, s.revisions.get? k = some r → r.status = .superseded → (f k r).status = .superseded) :
    Kept s s' := by
  refine ⟨fun k r hr => ⟨f k r, ?_, h.content k r, hstatus k r hr⟩, fun k _ _ => h.operationsOf k⟩
  rw [h.get?, hr, Option.map_some]

/-- The invariant, where services keep their keys and each points to its published revision. -/
theorem Rewritten.ok {s s' : Database F} {f : Nat → ContractRevision F → ContractRevision F} (h : Rewritten s s' f)
    (hok : Ok s) (hservices : ∀ i, (s'.services.get? i).isSome = (s.services.get? i).isSome)
    (hcurrent : ∀ i service, s'.services.get? i = some service →
      ∀ k, service.currentPublishedRevisionId = some k ↔ IsPublished s' i k) : Ok s' := by
  have hexists : ∀ i, (∃ service, s.services.get? i = some service) → ∃ service, s'.services.get? i = some service := by
    intro i hi
    rw [← Option.isSome_iff_exists] at hi ⊢
    rw [hservices, hi]
  refine ⟨fun i service hservice => ?_, fun k r hr => ?_, fun o ho => ?_, fun k => ?_, fun o ho => ?_⟩
  · obtain ⟨before, hbefore⟩ : ∃ before, s.services.get? i = some before := by
      rw [← Option.isSome_iff_exists, ← hservices, hservice]
      rfl
    refine ⟨hcurrent i service hservice, ?_, ?_⟩
    · rw [h.contents]
      exact (hok.services i before hbefore).numbers
    · rw [h.contents]
      exact (hok.services i before hbefore).hashes
  · rw [h.get?] at hr
    obtain ⟨r₀, hr₀, rfl⟩ := Option.map_eq_some_iff.mp hr
    rw [h.serviceId]
    exact hexists _ (hok.owned k r₀ hr₀)
  · rw [h.operations] at ho
    obtain ⟨r, hr⟩ := hok.belongs o ho
    exact ⟨f o.2.revisionId r, by rw [h.get?, hr, Option.map_some]⟩
  · rw [h.operationsOf]
    exact hok.routes k
  · rw [h.operations] at ho
    exact hok.methods o ho

/-! ## Adding rows -/

/-- A service has been added to the table. -/
theorem serviceAdded_ok {s : Database F} (hok : Ok s) (row : ContractService)
    (hrow : row.currentPublishedRevisionId = none) : Ok { s with services := s.services.insert row } := by
  have hnone : s.revisionsOf s.services.nextId = [] := by
    rw [List.eq_nil_iff_forall_not_mem]
    intro r hr
    obtain ⟨hget, howner⟩ := (s.revisions.mem_select _ r.1 r.2).mp hr
    obtain ⟨service, hservice⟩ := hok.owned r.1 r.2 hget
    rw [of_decide_eq_true howner, Table.get?_nextId] at hservice
    cases hservice
  refine ⟨fun i service hservice => ?_, fun k r hr => ?_, hok.belongs, hok.routes, hok.methods⟩
  · by_cases hi : i = s.services.nextId
    · subst hi
      rw [Table.get?_insert_self] at hservice
      obtain rfl := Option.some.inj hservice
      refine ⟨fun k => ⟨fun h => ?_, fun ⟨r, hr, howner, _⟩ => ?_⟩, ?_, ?_⟩
      · rw [hrow] at h
        cases h
      · have hmem : (k, r) ∈ s.revisionsOf s.services.nextId :=
          (s.revisions.mem_select _ k r).mpr ⟨hr, decide_eq_true howner⟩
        rw [hnone] at hmem
        cases hmem
      · rw [contents, show Database.revisionsOf { s with services := s.services.insert row } _ = _ from hnone]
        rfl
      · rw [contents, show Database.revisionsOf { s with services := s.services.insert row } _ = _ from hnone]
        exact List.nodup_nil
    · rw [Table.get?_insert_ne _ _ hi] at hservice
      have h := hok.services i service hservice
      exact ⟨h.current, h.numbers, h.hashes⟩
  · obtain ⟨service, hservice⟩ := hok.owned k r hr
    refine ⟨service, ?_⟩
    rw [Table.get?_insert_ne _ _ (s.services.lt_nextId hservice).ne]
    exact hservice

theorem insertRevision_some {s s' : Database F} {row : ContractRevision F} (h : s.insertRevision row = some s') :
    s' = { s with revisions := s.revisions.insert row } ∧
      ∀ r ∈ s.revisionsOf row.serviceId, r.2.contentHash ≠ row.contentHash := by
  rw [Database.insertRevision] at h
  split at h
  · cases h
  · next hfresh =>
    refine ⟨(Option.some.inj h).symm, fun r hr heq => hfresh ?_⟩
    rw [List.any_eq_true]
    exact ⟨r, hr, by rw [heq]; simp⟩

theorem insertOperation_some {s s' : Database F} {row : ApiOperation F} (h : s.insertOperation row = some s') :
    s' = { s with operations := s.operations.insert row } ∧
      ∀ o ∈ s.operationsOf row.revisionId, (o.2.method, o.2.path) ≠ (row.method, row.path) := by
  rw [Database.insertOperation] at h
  split at h
  · cases h
  · next hfresh =>
    refine ⟨(Option.some.inj h).symm, fun o ho heq => hfresh ?_⟩
    obtain ⟨hmethod, hpath⟩ := Prod.mk.inj heq
    rw [List.any_eq_true]
    exact ⟨o, ho, by rw [hmethod, hpath]; simp⟩

/-- Operations of one revision have been added, with methods of OpenAPI and different routes. -/
structure OperationsAdded (revisionId : Nat) (s s' : Database F) : Prop where
  services : s'.services = s.services
  revisions : s'.revisions = s.revisions
  rows : ∀ o ∈ s'.operations.rows, o ∈ s.operations.rows ∨ (o.2.revisionId = revisionId ∧ o.2.method ∈ methods)
  others : ∀ k, k ≠ revisionId → s'.operationsOf k = s.operationsOf k
  routes : (∀ k, ((s.operationsOf k).map fun o => (o.2.method, o.2.path)).Nodup) →
    ∀ k, ((s'.operationsOf k).map fun o => (o.2.method, o.2.path)).Nodup

theorem OperationsAdded.refl (revisionId : Nat) (s : Database F) : OperationsAdded revisionId s s :=
  ⟨rfl, rfl, fun _ => Or.inl, fun _ _ => rfl, id⟩

theorem OperationsAdded.trans {revisionId : Nat} {s t u : Database F} (h : OperationsAdded revisionId s t)
    (h' : OperationsAdded revisionId t u) : OperationsAdded revisionId s u := by
  refine ⟨h'.services.trans h.services, h'.revisions.trans h.revisions, fun o ho => ?_, fun k hk => ?_,
    fun hs => h'.routes (h.routes hs)⟩
  · rcases h'.rows o ho with ho | ho
    · exact h.rows o ho
    · exact Or.inr ho
  · rw [h'.others k hk, h.others k hk]

theorem operationsOf_insert (s : Database F) (row : ApiOperation F) (k : Nat) :
    Database.operationsOf { s with operations := s.operations.insert row } k =
      s.operationsOf k ++ if row.revisionId = k then [(s.operations.nextId, row)] else [] := by
  show List.filter _ (s.operations.rows ++ [(s.operations.nextId, row)]) = _
  rw [List.filter_append]
  refine congrArg _ ?_
  by_cases h : row.revisionId = k <;> simp [h]

theorem insertOperation_added {s s' : Database F} {row : ApiOperation F} (hmethod : row.method ∈ methods)
    (h : s.insertOperation row = some s') : OperationsAdded row.revisionId s s' := by
  obtain ⟨rfl, hfresh⟩ := insertOperation_some h
  refine ⟨rfl, rfl, fun o ho => ?_, fun k hk => ?_, fun hroutes k => ?_⟩
  · rcases List.mem_append.mp ho with ho | ho
    · exact Or.inl ho
    · rw [List.mem_singleton.mp ho]
      exact Or.inr ⟨rfl, hmethod⟩
  · rw [operationsOf_insert, if_neg hk.symm, List.append_nil]
  · rw [operationsOf_insert]
    split
    · next hk =>
      rw [← hk, List.map_append, List.nodup_append']
      refine ⟨hroutes _, List.nodup_singleton _, ?_⟩
      rw [List.map_singleton, List.disjoint_singleton, List.mem_map]
      rintro ⟨o, ho, heq⟩
      exact hfresh o ho heq
    · rw [List.append_nil]
      exact hroutes k

theorem insertOperations_added {projectId serviceId revisionId : Nat} {operations : List (ParsedOperation F)}
    (hmethods : ∀ o ∈ operations, o.method ∈ methods) {s s' : Database F}
    (h : insertOperations projectId serviceId revisionId s operations = some s') : OperationsAdded revisionId s s' := by
  induction operations generalizing s with
  | nil =>
    obtain rfl := Option.some.inj h
    exact .refl revisionId s
  | cons operation rest ih =>
    rw [insertOperations, List.foldlM_cons] at h
    obtain ⟨s₁, hs₁, h⟩ := Option.bind_eq_some_iff.mp h
    have hadded := insertOperation_added (hmethods operation List.mem_cons_self) hs₁
    exact hadded.trans (ih (fun o ho => hmethods o (List.mem_cons_of_mem _ ho)) h)

theorem contents_insert (s : Database F) (row : ContractRevision F) (i : Nat) :
    contents { s with revisions := s.revisions.insert row } i =
      contents s i ++ if row.serviceId = i then [(s.revisions.nextId, row.toRevisionContent)] else [] := by
  show List.map _ (List.filter _ (s.revisions.rows ++ [(s.revisions.nextId, row)])) = _
  rw [List.filter_append, List.map_append]
  refine congrArg _ ?_
  by_cases h : row.serviceId = i <;> simp [h]

/-- The next number follows the numbers that are there. -/
theorem nextNumber_eq {s : Database F} {i : Nat}
    (h : (contents s i).map (fun r => r.2.revisionNumber) = List.range' 1 (contents s i).length) :
    nextNumber s i = (contents s i).length + 1 := by
  have hnumbers : (s.revisionsOf i).map (fun r => r.2.revisionNumber) =
      (contents s i).map fun r => r.2.revisionNumber := by
    rw [contents, List.map_map]
    rfl
  rw [nextNumber, hnumbers, h]
  cases (contents s i).length with
  | zero => rfl
  | succ n =>
    have hmax : (List.range' 1 (n + 1)).max? = some (n + 1) := by
      rw [List.max?_eq_some_iff]
      refine ⟨List.mem_range'_1.mpr (by omega), fun m hm => ?_⟩
      have := List.mem_range'_1.mp hm
      omega
    rw [hmax, Option.getD_some]

/-- A revision has been created, with its operations. -/
theorem created_ok {s s₁ s' : Database F} (hok : Ok s) {call : CreateRevision} {service : ContractService}
    {parsed : NormalizedOpenAPI F} (lock : s.services.get? call.serviceId = some service)
    (hrevision : s.insertRevision (revisionRow call service (nextNumber s call.serviceId) parsed) = some s₁)
    (hadded : OperationsAdded s.revisions.nextId s₁ s') : Ok s' := by
  obtain ⟨hs₁, hfresh⟩ := insertRevision_some hrevision
  have hservices : s'.services = s.services := by rw [hadded.services, hs₁]
  have hrevisions : s'.revisions = s.revisions.insert (revisionRow call service (nextNumber s call.serviceId) parsed) := by
    rw [hadded.revisions, hs₁]
  have hnew := Table.get?_insert_self s.revisions (revisionRow call service (nextNumber s call.serviceId) parsed)
  have hget : ∀ {k r}, s.revisions.get? k = some r → s'.revisions.get? k = some r := by
    intro k r hr
    rw [hrevisions, Table.get?_insert_ne _ _ (s.revisions.lt_nextId hr).ne, hr]
  have hpublished : ∀ i k, IsPublished s' i k ↔ IsPublished s i k := by
    intro i k
    refine ⟨fun ⟨r, hr, howner, hstatus⟩ => ⟨r, ?_, howner, hstatus⟩,
      fun ⟨r, hr, howner, hstatus⟩ => ⟨r, hget hr, howner, hstatus⟩⟩
    rw [hrevisions] at hr
    by_cases hk : k = s.revisions.nextId
    · rw [hk, hnew] at hr
      rw [← Option.some.inj hr] at hstatus
      cases hstatus
    · rw [Table.get?_insert_ne _ _ hk] at hr
      exact hr
  have hcontents : ∀ i, contents s' i = contents s i ++ if call.serviceId = i then
      [(s.revisions.nextId, (revisionRow call service (nextNumber s call.serviceId) parsed).toRevisionContent)] else [] := by
    intro i
    refine Eq.trans ?_ (contents_insert s (revisionRow call service (nextNumber s call.serviceId) parsed) i)
    rw [contents, contents, Database.revisionsOf, Database.revisionsOf, hrevisions]
  refine ⟨fun i other hother => ?_, fun k r hr => ?_, fun o ho => ?_, fun k => ?_, fun o ho => ?_⟩
  · rw [hservices] at hother
    have h := hok.services i other hother
    refine ⟨fun k => (h.current k).trans (hpublished i k).symm, ?_, ?_⟩
    · rw [hcontents]
      split
      · next hi =>
        subst hi
        rw [List.map_append, List.length_append, h.numbers, List.map_singleton, List.length_singleton,
          List.range'_concat]
        refine congrArg _ (congrArg (fun n => [n]) ?_)
        show nextNumber s call.serviceId = _
        rw [nextNumber_eq h.numbers]
        omega
      · rw [List.append_nil]
        exact h.numbers
    · rw [hcontents]
      split
      · next hi =>
        subst hi
        rw [List.map_append, List.nodup_append']
        refine ⟨h.hashes, List.nodup_singleton _, ?_⟩
        rw [List.map_singleton, List.disjoint_singleton, contents, List.map_map, List.mem_map]
        rintro ⟨r, hr, heq⟩
        exact hfresh r hr heq
      · rw [List.append_nil]
        exact h.hashes
  · rw [hservices]
    rw [hrevisions] at hr
    by_cases hk : k = s.revisions.nextId
    · rw [hk, hnew] at hr
      rw [← Option.some.inj hr]
      exact ⟨service, lock⟩
    · rw [Table.get?_insert_ne _ _ hk] at hr
      exact hok.owned k r hr
  · rcases hadded.rows o ho with hold | ⟨hold, -⟩
    · rw [hs₁] at hold
      obtain ⟨r, hr⟩ := hok.belongs o hold
      exact ⟨r, hget hr⟩
    · rw [hold, hrevisions]
      exact ⟨_, hnew⟩
  · refine hadded.routes (fun j => ?_) k
    rw [hs₁]
    exact hok.routes j
  · rcases hadded.rows o ho with hold | ⟨-, hold⟩
    · rw [hs₁] at hold
      exact hok.methods o hold
    · exact hold

theorem created_kept {s s₁ s' : Database F} {row : ContractRevision F} (hrevision : s.insertRevision row = some s₁)
    (hadded : OperationsAdded s.revisions.nextId s₁ s') : Kept s s' := by
  obtain ⟨hs₁, -⟩ := insertRevision_some hrevision
  refine ⟨fun k r hr => ⟨r, ?_, rfl, id⟩, fun k r hr => ?_⟩
  · rw [hadded.revisions, hs₁, Table.get?_insert_ne _ _ (s.revisions.lt_nextId hr).ne, hr]
  · rw [hadded.others k (s.revisions.lt_nextId hr).ne, hs₁]
    rfl

/-! ## Publishing -/

/-- The revision that is published now is the one that the service points to. -/
theorem currentRevision_eq {s : Database F} (hok : Ok s) {serviceId : Nat} {service : ContractService}
    (lock : s.services.get? serviceId = some service) {revisionId : Nat} {revision : ContractRevision F}
    (row : s.revisions.get? revisionId = some revision) (status : revision.status = .proposed) :
    currentRevision s serviceId service revisionId = service.currentPublishedRevisionId ∧
      service.currentPublishedRevisionId ≠ some revisionId := by
  have hcurrent := (hok.services serviceId service lock).current
  have hne : service.currentPublishedRevisionId ≠ some revisionId := by
    intro h
    obtain ⟨r, hr, -, hpublished⟩ := (hcurrent revisionId).mp h
    rw [row] at hr
    rw [Option.some.inj hr, hpublished] at status
    cases status
  refine ⟨?_, hne⟩
  rw [currentRevision]
  cases hpointer : service.currentPublishedRevisionId with
  | some k =>
    obtain ⟨r, hr, -, -⟩ := (hcurrent k).mp hpointer
    have hk : k ≠ revisionId := fun h => hne (h ▸ hpointer)
    rw [Option.bind_some, if_neg hk, hr, Option.map_some]
  | none =>
    rw [Option.bind_none]
    show Option.map _ _ = none
    rw [Option.map_eq_none_iff, List.find?_eq_none]
    intro r hr hpublished
    obtain ⟨hget, howner⟩ := (s.revisions.mem_select _ r.1 r.2).mp hr
    have hpointed := (hcurrent r.1).mpr ⟨r.2, hget, of_decide_eq_true howner, of_decide_eq_true hpublished⟩
    rw [hpointer] at hpointed
    cases hpointed

/-- What a publication makes of a revision. -/
def publishedRow (call : Publish) (revisionId : Nat) (current : Option Nat) (k : Nat) (r : ContractRevision F) :
    ContractRevision F :=
  if k = revisionId then { r with status := .published, publishedBy := some (orDefault call.publishedBy "admin") }
  else if current = some k then { r with status := .superseded } else r

theorem publishedRow_content (call : Publish) (revisionId : Nat) (current : Option Nat) (k : Nat) (r : ContractRevision F) :
    (publishedRow call revisionId current k r).toRevisionContent = r.toRevisionContent := by
  rw [publishedRow]
  split
  · rfl
  · split <;> rfl

theorem modify_same {α : Type} (t : Table α) {k : Nat} {f : α → α} (h : ∀ a, t.get? k = some a → f a = a) :
    t.modify k f = t := by
  refine Table.ext ((List.map_congr_left fun r hr => ?_).trans (List.map_id _)) rfl
  show (r.1, if r.1 = k then f r.2 else r.2) = r
  split
  · next hk => rw [h r.2 (hk ▸ (t.get?_eq_some_iff r.1 r.2).mpr hr)]
  · rfl

theorem mapRows_mapRows {α : Type} (t : Table α) (f g : Nat → α → α) :
    (t.mapRows f).mapRows g = t.mapRows fun k a => g k (f k a) :=
  Table.ext List.map_map rfl

theorem switchTo_rewritten (s : Database F) (call : Publish) {revisionId : Nat} {current : Option Nat}
    (hne : current ≠ some revisionId) :
    Rewritten s (switchTo (superseding s current revisionId) call revisionId) (publishedRow call revisionId current) := by
  cases current with
  | none =>
    refine ⟨?_, publishedRow_content call revisionId none, rfl⟩
    simp only [switchTo, superseding, Database.setCurrent, Database.setPublished, Table.modify]
    refine congrArg s.revisions.mapRows (funext fun k => funext fun r => ?_)
    simp only [publishedRow, reduceCtorEq, if_false]
  | some current =>
    have hne' : current ≠ revisionId := fun h => hne (congrArg some h)
    rw [superseding, if_neg hne']
    refine ⟨?_, publishedRow_content call revisionId (some current), rfl⟩
    simp only [switchTo, Database.setCurrent, Database.setPublished, Database.setStatus, Table.modify, mapRows_mapRows]
    refine congrArg s.revisions.mapRows (funext fun k => funext fun r => ?_)
    simp only [publishedRow, Option.some.injEq]
    by_cases hk : k = revisionId
    · rw [if_pos hk, if_pos hk, if_neg fun h => hne' (h.symm.trans hk)]
    · rw [if_neg hk, if_neg hk]
      by_cases hc : k = current
      · rw [if_pos hc, if_pos hc.symm]
      · rw [if_neg hc, if_neg fun h => hc h.symm]

theorem superseding_services (s : Database F) (current : Option Nat) (revisionId : Nat) :
    (superseding s current revisionId).services = s.services := by
  cases current with
  | none => rfl
  | some current =>
    rw [superseding]
    split <;> rfl

/-- The service that a publication switches, and the others. -/
theorem switchTo_services (s : Database F) (call : Publish) (revisionId : Nat) (current : Option Nat) (i : Nat) :
    (switchTo (superseding s current revisionId) call revisionId).services.get? i = (s.services.get? i).map fun service =>
      if i = call.serviceId then { service with currentPublishedRevisionId := some revisionId } else service := by
  rw [← superseding_services s current revisionId]
  exact Table.get?_modify _ _ _ _

section

variable {s : Database F} {call : Publish} {service : ContractService} {revisionId : Nat} {revision : ContractRevision F}

/-- After a publication the revision is the published one of its service. -/
theorem switchTo_published (hok : Ok s) (lock : s.services.get? call.serviceId = some service)
    (row : s.revisions.get? revisionId = some revision) (owner : revision.serviceId = call.serviceId)
    (hne : service.currentPublishedRevisionId ≠ some revisionId) (k : Nat) :
    IsPublished (switchTo (superseding s service.currentPublishedRevisionId revisionId) call revisionId) call.serviceId k ↔
      k = revisionId := by
  have h := switchTo_rewritten s call hne
  constructor
  · rintro ⟨r', hr', howner, hstatus⟩
    by_contra hk
    rw [h.get?] at hr'
    obtain ⟨r, hr, rfl⟩ := Option.map_eq_some_iff.mp hr'
    rw [h.serviceId] at howner
    rw [publishedRow, if_neg hk] at hstatus
    split at hstatus
    · cases hstatus
    · next hcurrent => exact hcurrent (((hok.services _ service lock).current k).mpr ⟨r, hr, howner, hstatus⟩)
  · rintro rfl
    refine ⟨publishedRow call k service.currentPublishedRevisionId k revision, ?_, ?_, ?_⟩
    · rw [h.get?, row, Option.map_some]
    · rw [h.serviceId, owner]
    · rw [publishedRow, if_pos rfl]

/-- The other services keep their published revision. -/
theorem switchTo_others (hok : Ok s) (lock : s.services.get? call.serviceId = some service)
    (row : s.revisions.get? revisionId = some revision) (owner : revision.serviceId = call.serviceId)
    (hne : service.currentPublishedRevisionId ≠ some revisionId) {i : Nat} (hi : i ≠ call.serviceId) (k : Nat) :
    IsPublished (switchTo (superseding s service.currentPublishedRevisionId revisionId) call revisionId) i k ↔
      IsPublished s i k := by
  have h := switchTo_rewritten s call hne
  have hsame : ∀ r, s.revisions.get? k = some r → r.serviceId = i →
      publishedRow call revisionId service.currentPublishedRevisionId k r = r := by
    intro r hr howner
    have hk : k ≠ revisionId := by
      rintro rfl
      rw [row] at hr
      rw [Option.some.inj hr, howner] at owner
      exact hi owner
    have hcurrent : service.currentPublishedRevisionId ≠ some k := by
      intro hc
      obtain ⟨r₁, hr₁, howner₁, -⟩ := ((hok.services _ service lock).current k).mp hc
      rw [hr] at hr₁
      rw [← Option.some.inj hr₁, howner] at howner₁
      exact hi howner₁
    rw [publishedRow, if_neg hk, if_neg hcurrent]
  constructor
  · rintro ⟨r', hr', howner, hstatus⟩
    rw [h.get?] at hr'
    obtain ⟨r, hr, rfl⟩ := Option.map_eq_some_iff.mp hr'
    rw [h.serviceId] at howner
    rw [hsame r hr howner] at hstatus
    exact ⟨r, hr, howner, hstatus⟩
  · rintro ⟨r, hr, howner, hstatus⟩
    refine ⟨r, ?_, howner, hstatus⟩
    rw [h.get?, hr, Option.map_some, hsame r hr howner]

theorem switchTo_ok (hok : Ok s) (lock : s.services.get? call.serviceId = some service)
    (row : s.revisions.get? revisionId = some revision) (owner : revision.serviceId = call.serviceId)
    (hne : service.currentPublishedRevisionId ≠ some revisionId) :
    Ok (switchTo (superseding s service.currentPublishedRevisionId revisionId) call revisionId) := by
  refine (switchTo_rewritten s call hne).ok hok (fun i => ?_) fun i after hafter k => ?_
  · rw [switchTo_services, Option.isSome_map]
  · rw [switchTo_services] at hafter
    obtain ⟨before, hbefore, rfl⟩ := Option.map_eq_some_iff.mp hafter
    by_cases hi : i = call.serviceId
    · subst hi
      rw [if_pos rfl, switchTo_published hok lock row owner hne, Option.some.injEq]
      exact eq_comm
    · rw [if_neg hi, switchTo_others hok lock row owner hne hi]
      exact (hok.services i before hbefore).current k

/-- A superseded revision is neither the one that is published now nor the one that is to be. -/
theorem switchTo_kept (row : s.revisions.get? revisionId = some revision) (status : revision.status = .proposed)
    (hne : service.currentPublishedRevisionId ≠ some revisionId) :
    Kept s (switchTo (superseding s service.currentPublishedRevisionId revisionId) call revisionId) := by
  refine (switchTo_rewritten s call hne).kept fun k r hr hsuperseded => ?_
  have hk : k ≠ revisionId := by
    rintro rfl
    rw [row] at hr
    rw [Option.some.inj hr, hsuperseded] at status
    cases status
  rw [publishedRow, if_neg hk]
  split
  · rfl
  · exact hsuperseded

/-- Publishing the published revision again leaves the tables as they are. -/
theorem setCurrent_same (hok : Ok s) (lock : s.services.get? call.serviceId = some service)
    (row : s.revisions.get? revisionId = some revision) (owner : revision.serviceId = call.serviceId)
    (status : revision.status = .published) : s.setCurrent call.serviceId revisionId = s := by
  have hcurrent := ((hok.services _ service lock).current revisionId).mpr ⟨revision, row, owner, status⟩
  have hservices : s.services.modify call.serviceId
      (fun service => { service with currentPublishedRevisionId := some revisionId }) = s.services := by
    refine modify_same s.services fun a ha => ?_
    rw [lock] at ha
    rw [← Option.some.inj ha, ← hcurrent]
  rw [Database.setCurrent, hservices]

end

/-! ## Runs -/

variable {call : Call} {reply : Except ContractError Answer}

/-- **What a change preserves.** -/
theorem change_ok {s s' : Database F} (hok : Ok s) (h : Change s call reply s') : Ok s' := by
  cases h with
  | raised call error => exact hok
  | reused call revisionId => exact hok
  | serviceAdded call row unpublished => exact serviceAdded_ok hok row unpublished
  | created call service parsed s₁ s' lock methods revision operations =>
    exact created_ok hok lock revision (insertOperations_added methods operations)
  | pointed call service revisionId revision lock row owner status =>
    rw [setCurrent_same hok lock row owner status]
    exact hok
  | published call service revisionId revision lock row owner status transition =>
    obtain ⟨hcurrent, hne⟩ := currentRevision_eq hok lock row status
    rw [hcurrent]
    exact switchTo_ok hok lock row owner hne

theorem change_kept {s s' : Database F} (hok : Ok s) (h : Change s call reply s') : Kept s s' := by
  cases h with
  | raised call error => exact .refl s
  | reused call revisionId => exact .refl s
  | serviceAdded call row unpublished => exact ⟨fun k r hr => ⟨r, hr, rfl, id⟩, fun _ _ _ => rfl⟩
  | created call service parsed s₁ s' lock methods revision operations =>
    exact created_kept revision (insertOperations_added methods operations)
  | pointed call service revisionId revision lock row owner status =>
    rw [setCurrent_same hok lock row owner status]
    exact .refl s
  | published call service revisionId revision lock row owner status transition =>
    obtain ⟨hcurrent, hne⟩ := currentRevision_eq hok lock row status
    rw [hcurrent]
    exact switchTo_kept row status hne

/-- A call that raises leaves every table as it was. -/
theorem change_raised {s s' : Database F} {error : ContractError} (h : Change s call (.error error) s') : s' = s := by
  cases h
  rfl

variable [DocumentFloat F] (host : OpenApi.Host F) (engine : Engine F)

/-- The tables after calls. -/
def reached (calls : List Call) : Database F := Trace.exec (step host engine) Database.empty calls

theorem reached_ok (calls : List Call) : Ok (reached host engine calls) :=
  Trace.exec_invariant (fun s call hok => change_ok hok (step_change host engine s call)) ok_empty calls

theorem exec_kept {s : Database F} (hok : Ok s) (calls : List Call) : Kept s (Trace.exec (step host engine) s calls) := by
  have hstep : ∀ t call, Ok t ∧ Kept s t → Ok (step host engine t call).2 ∧ Kept s (step host engine t call).2 := by
    rintro t call ⟨ht, hkept⟩
    have hchange := step_change host engine t call
    exact ⟨change_ok ht hchange, hkept.trans (change_kept ht hchange)⟩
  exact (Trace.exec_invariant hstep ⟨hok, .refl s⟩ calls).2

/-- **The revisions of every service are safe.**  After any calls a service has at most one published
revision and points to it, its revisions are numbered from 1 on and have different hashes; a call
that raises changes nothing; and whatever calls follow, a revision keeps what it was created with
and its operations, and stays superseded once it is. -/
theorem revisions_safe (calls : List Call) :
    (∀ serviceId service, (reached host engine calls).services.get? serviceId = some service →
      (∀ k k', IsPublished (reached host engine calls) serviceId k →
        IsPublished (reached host engine calls) serviceId k' → k = k') ∧
      (∀ k, service.currentPublishedRevisionId = some k ↔ IsPublished (reached host engine calls) serviceId k) ∧
      (service.currentPublishedRevisionId = none ↔ ∀ k, ¬ IsPublished (reached host engine calls) serviceId k) ∧
      (contents (reached host engine calls) serviceId).map (fun r => r.2.revisionNumber) =
        List.range' 1 (contents (reached host engine calls) serviceId).length ∧
      ((contents (reached host engine calls) serviceId).map fun r => r.2.contentHash).Nodup) ∧
    (∀ call error, (step host engine (reached host engine calls) call).1 = .error error →
      (step host engine (reached host engine calls) call).2 = reached host engine calls) ∧
    ∀ more, Kept (reached host engine calls) (reached host engine (calls ++ more)) := by
  have hok := reached_ok host engine calls
  refine ⟨fun serviceId service hservice => ?_, fun call error herror => ?_, fun more => ?_⟩
  · have h := hok.services serviceId service hservice
    refine ⟨fun k k' hk hk' => ?_, h.current, ⟨fun hnone k hk => ?_, fun hnone => ?_⟩, h.numbers, h.hashes⟩
    · have heq := ((h.current k).mpr hk).symm.trans ((h.current k').mpr hk')
      exact Option.some.inj heq
    · have hsome := (h.current k).mpr hk
      rw [hnone] at hsome
      cases hsome
    · cases hpointer : service.currentPublishedRevisionId with
      | none => rfl
      | some k => exact absurd ((h.current k).mp hpointer) (hnone k)
  · have hchange := step_change host engine (reached host engine calls) call
    rw [herror] at hchange
    exact change_raised hchange
  · have hmore : reached host engine (calls ++ more) = Trace.exec (step host engine) (reached host engine calls) more :=
      Trace.exec_append _ calls more
    rw [hmore]
    exact exec_kept host engine hok more

end CodexMemory.Contracts
