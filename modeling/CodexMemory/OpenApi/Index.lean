import CodexMemory.OpenApi.Resolution
import CodexMemory.OpenApi.NormalForm

/-!
# The index of operations

What `_operations` returns is put together from one group of entries for each path
(`operationsOf_groups`).  It is in order, with every identifier and every route once
(`Index`); an operation is missing exactly where the reference that `_operations`
takes to be followed from the start hides it (`operationsOf_index_iff`).
-/

namespace CodexMemory.OpenApi

variable {F : Type}

/-! ## Methods -/

/-- The reference that is on the stack when a path item is resolved. -/
def selfReference (path : String) : String := "#/paths/" ++ pathToken path

/-- The methods of a path item, as the index goes through them. -/
def sortedMethods (pathItem : List (String × Json F)) : List String :=
  ((pathItem.map fun f => lower f.1).filter fun method => method ∈ methodOrder).insertionSort fun a b =>
    methodRank a ≤ methodRank b

theorem mem_sortedMethods {pathItem : List (String × Json F)} {method : String} :
    method ∈ sortedMethods pathItem ↔ method ∈ methodOrder ∧ ∃ f ∈ pathItem, lower f.1 = method := by
  rw [sortedMethods, List.mem_insertionSort, List.mem_filter, decide_eq_true_eq, List.mem_map, and_comm]

theorem methods_spelled : ∀ method ∈ methodOrder, lower (upper method) = method ∧ lower method = method := by
  decide

theorem methodRank_inj : ∀ m ∈ methodOrder, ∀ n ∈ methodOrder, methodRank m = methodRank n → m = n := by
  decide

theorem upper_inj {m n : String} (hm : m ∈ methodOrder) (hn : n ∈ methodOrder) (h : upper m = upper n) : m = n := by
  rw [← (methods_spelled m hm).1, h, (methods_spelled n hn).1]

theorem pairwise_sortedMethods (pathItem : List (String × Json F)) :
    (sortedMethods pathItem).Pairwise fun m n => methodRank m ≤ methodRank n :=
  haveI : Std.Total (fun m n : String => methodRank m ≤ methodRank n) := ⟨fun _ _ => Nat.le_total _ _⟩
  haveI : IsTrans String fun m n => methodRank m ≤ methodRank n := ⟨fun _ _ _ => Nat.le_trans⟩
  List.pairwise_insertionSort (fun m n : String => methodRank m ≤ methodRank n) _

section

variable [DocumentFloat F] {host : Host F} {document : Json F}

/-! ## One entry -/

/-- The entry of a method. -/
structure Entry (host : Host F) (document : Json F) (path : String) (pathItem : List (String × Json F))
    (method : String) (o : ParsedOperation F) : Prop where
  atPath : o.path = path
  byMethod : o.method = upper method
  operation : ∃ value operation id, pathItem.lookup method = some value ∧
    resolve host document host.recursionLimit [] value = .ok (.obj operation) ∧
    operation.lookup "operationId" = some (.str id) ∧ o.operationId = strip id ∧ o.operation = canonical (.obj operation)
  hash : o.operationHash = host.sha256 (dumpsCompact o.operation)

omit [DocumentFloat F] in
theorem operationIdOf_ok {path : String} {seen : List String} {operation : List (String × Json F)} {operationId : String}
    (h : operationIdOf path seen operation = .ok operationId) :
    ∃ id, operation.lookup "operationId" = some (.str id) ∧ operationId = strip id ∧ operationId ∉ seen := by
  unfold operationIdOf at h
  split at h
  · next id hid =>
    split at h
    · cases h
    · split at h
      · cases h
      · next hseen =>
        cases h
        exact ⟨id, hid, rfl, hseen⟩
  · cases h

theorem parseOperation_ok {path : String} {pathItem : List (String × Json F)} {seen : List String} {method : String}
    {o : ParsedOperation F} (h : parseOperation host document path pathItem seen method = .ok o) :
    Entry host document path pathItem method o ∧ o.operationId ∉ seen := by
  unfold parseOperation at h
  simp only at h
  split at h
  · cases h
  · next value hvalue =>
    obtain ⟨resolved, hresolved, h⟩ := bind_ok h
    split at h
    · next operation =>
      obtain ⟨operationId, hoperationId, h⟩ := bind_ok h
      obtain ⟨tags, -, h⟩ := bind_ok h
      obtain ⟨serialized, hserialized, h⟩ := bind_ok h
      cases h
      obtain ⟨id, hid, hstrip, hseen⟩ := operationIdOf_ok hoperationId
      exact ⟨⟨rfl, rfl, ⟨value, operation, id, hvalue, hresolved, hid, hstrip, rfl⟩,
        congrArg _ (serialize_ok hserialized)⟩, hseen⟩
    · cases h

/-! ## The entries of a path -/

/-- What a path adds to the index. -/
inductive Group (host : Host F) (document : Json F) (f : String × Json F) : List (ParsedOperation F) → Prop
  | skipped (slash : f.1.toList.head? ≠ some '/') : Group host document f []
  | noItem {v : Json F} (slash : f.1.toList.head? = some '/')
      (resolved : resolve host document host.recursionLimit [selfReference f.1] f.2 = .ok v)
      (noObject : v.isObject = false) : Group host document f []
  | item {pathItem : List (String × Json F)} {group : List (ParsedOperation F)}
      (slash : f.1.toList.head? = some '/')
      (resolved : resolve host document host.recursionLimit [selfReference f.1] f.2 = .ok (.obj pathItem))
      (entries : List.Forall₂ (Entry host document f.1 pathItem) (sortedMethods pathItem) group) :
      Group host document f group

theorem pathOperations_entries {path : String} {pathItem : List (String × Json F)}
    {result result' : List (ParsedOperation F)} (h : pathOperations host document path pathItem result = .ok result') :
    ∃ group, result' = result ++ group ∧
      List.Forall₂ (Entry host document path pathItem) (sortedMethods pathItem) group := by
  unfold pathOperations at h
  obtain ⟨groups, hresult, hgroups⟩ := foldlM_groups
    (P := fun method group => ∃ o, group = [o] ∧ Entry host document path pathItem method o) (fun b b' method hstep => by
      obtain ⟨o, ho, hstep⟩ := bind_ok hstep
      split at hstep
      · cases hstep
      · cases hstep
        exact ⟨[o], rfl, o, rfl, (parseOperation_ok ho).1⟩) h
  refine ⟨groups.flatten, hresult, ?_⟩
  have hsingle : ∀ {methods : List String} {groups : List (List (ParsedOperation F))},
      List.Forall₂ (fun method group => ∃ o, group = [o] ∧ Entry host document path pathItem method o) methods groups →
      List.Forall₂ (Entry host document path pathItem) methods groups.flatten := by
    intro methods groups hall
    induction hall with
    | nil => exact .nil
    | cons hentry _ ih =>
      obtain ⟨o, rfl, hentry⟩ := hentry
      exact .cons hentry ih
  exact hsingle hgroups

/-- **The index is one group after the other.** -/
theorem operationsOf_groups {operations : List (ParsedOperation F)} (h : operationsOf host document = .ok operations) :
    ∃ paths groups, document.get? "paths" = some (.obj paths) ∧ operations = groups.flatten ∧
      List.Forall₂ (Group host document) (sortedBy Prod.fst paths) groups := by
  unfold operationsOf at h
  split at h
  · next paths hpaths =>
    obtain ⟨groups, hoperations, hgroups⟩ := foldlM_groups (P := Group host document) (fun b b' f hstep => by
      split at hstep
      · next hslash =>
        obtain ⟨v, hv, hstep⟩ := bind_ok hstep
        split at hstep
        · next pathItem =>
          obtain ⟨group, rfl, hgroup⟩ := pathOperations_entries hstep
          exact ⟨group, rfl, .item hslash hv hgroup⟩
        · next hother =>
          cases hstep
          refine ⟨[], by simp, .noItem hslash hv ?_⟩
          cases v with
          | obj pathItem => exact absurd rfl (hother pathItem)
          | null | bool b | int n | float x | str s | arr items => rfl
      · next hslash =>
        cases hstep
        exact ⟨[], by simp, .skipped hslash⟩) h
    exact ⟨paths, groups, hpaths, hoperations, hgroups⟩
  · cases h

/-- Every identifier once, and not too many entries. -/
def Counted (operations : List (ParsedOperation F)) : Prop :=
  (operations.map fun o => o.operationId).Nodup ∧ operations.length ≤ maxOperations

theorem pathOperations_counted {path : String} {pathItem : List (String × Json F)}
    {result result' : List (ParsedOperation F)} (hresult : Counted result)
    (h : pathOperations host document path pathItem result = .ok result') : Counted result' := by
  unfold pathOperations at h
  refine foldlM_ok (P := Counted) (fun b b' method _ hb hstep => ?_) hresult h
  obtain ⟨o, ho, hstep⟩ := bind_ok hstep
  split at hstep
  · cases hstep
  · next hfew =>
    cases hstep
    have hseen := (parseOperation_ok ho).2
    rw [Counted, List.map_append, List.length_append]
    refine ⟨List.nodup_append'.mpr ⟨hb.1, List.nodup_singleton _, ?_⟩, Nat.not_lt.mp hfew⟩
    rw [List.map_singleton, List.disjoint_singleton]
    exact hseen

theorem operationsOf_counted {operations : List (ParsedOperation F)} (h : operationsOf host document = .ok operations) :
    Counted operations := by
  unfold operationsOf at h
  split at h
  · refine foldlM_ok (P := Counted) (fun b b' f _ hb hstep => ?_)
      (show Counted [] from ⟨List.nodup_nil, Nat.zero_le _⟩) h
    split at hstep
    · obtain ⟨v, -, hstep⟩ := bind_ok hstep
      split at hstep
      · exact pathOperations_counted hb hstep
      · cases hstep
        exact hb
    · cases hstep
      exact hb
  · cases h

/-! ## Order -/

/-- The order of the index. -/
def Before (a b : ParsedOperation F) : Prop :=
  a.path.toList < b.path.toList ∨ a.path = b.path ∧ methodRank (lower a.method) < methodRank (lower b.method)

theorem Group.path {f : String × Json F} {group : List (ParsedOperation F)} (h : Group host document f group)
    {o : ParsedOperation F} (ho : o ∈ group) : o.path = f.1 := by
  cases h with
  | skipped => cases ho
  | noItem => cases ho
  | item slash resolved entries =>
    obtain ⟨method, -, hentry⟩ := forall₂_mem_right entries ho
    exact hentry.atPath

/-- The entries of one path are in the order of their methods. -/
theorem Group.sorted {f : String × Json F} {group : List (ParsedOperation F)} (h : Group host document f group)
    (hids : (group.map fun o => o.operationId).Nodup) : group.Pairwise Before := by
  cases h with
  | skipped => exact .nil
  | noItem => exact .nil
  | @item pathItem _ slash resolved entries =>
    -- two entries of one method would have one identifier
    have hmethods : (sortedMethods pathItem).Pairwise fun m n => m ≠ n := by
      have hdifferent : group.Pairwise fun a b => a.operationId ≠ b.operationId := List.pairwise_map.mp hids
      refine pairwise_of_forall₂ (fun {a m b n} ha hb hne => ?_) entries.flip hdifferent
      rintro rfl
      obtain ⟨value, operation, id, hvalue, hoperation, hid, hstrip, -⟩ := ha.operation
      obtain ⟨value', operation', id', hvalue', hoperation', hid', hstrip', -⟩ := hb.operation
      rw [hvalue] at hvalue'
      cases hvalue'
      rw [hoperation] at hoperation'
      cases hoperation'
      rw [hid] at hid'
      cases hid'
      exact hne (hstrip.trans hstrip'.symm)
    have hranks : (sortedMethods pathItem).Pairwise fun m n =>
        m ∈ methodOrder ∧ n ∈ methodOrder ∧ methodRank m < methodRank n := by
      refine ((pairwise_sortedMethods pathItem).and hmethods).imp_of_mem fun {m n} hm hn hle => ?_
      have hm' := (mem_sortedMethods.mp hm).1
      have hn' := (mem_sortedMethods.mp hn).1
      exact ⟨hm', hn', Nat.lt_of_le_of_ne hle.1 fun he => hle.2 (methodRank_inj m hm' n hn' he)⟩
    refine pairwise_of_forall₂ (fun {m a n b} ha hb hlt => Or.inr ⟨?_, ?_⟩) entries hranks
    · rw [ha.atPath, hb.atPath]
    · rw [ha.byMethod, hb.byMethod, (methods_spelled m hlt.1).1, (methods_spelled n hlt.2.1).1]
      exact hlt.2.2

omit [DocumentFloat F] in
theorem unique_get {v w : Json F} {key : String} (h : Json.unique v = true) (hw : v.get? key = some w) :
    Json.unique w = true := by
  cases v with
  | obj fields => exact (Json.unique_obj.mp h).2 _ (Json.mem_of_lookup hw)
  | null | bool b | int n | float x | str s | arr items => cases hw

omit [DocumentFloat F] in
/-- Paths are gone through in order. -/
theorem pairwise_paths {paths : List (String × Json F)} (hunique : Json.unique (.obj paths) = true) :
    (sortedBy Prod.fst paths).Pairwise fun f g => f.1.toList < g.1.toList := by
  have hperm : List.Perm (sortedBy Prod.fst paths) paths := List.perm_insertionSort _ _
  have hnodup : ((sortedBy Prod.fst paths).map Prod.fst).Nodup :=
    (hperm.map Prod.fst).nodup_iff.mpr (Json.unique_obj.mp hunique).1
  have hdifferent : (sortedBy Prod.fst paths).Pairwise fun f g => f.1 ≠ g.1 := List.pairwise_map.mp hnodup
  have hsorted : (sortedBy Prod.fst paths).Pairwise fun f g => f.1.toList ≤ g.1.toList :=
    haveI : Std.Total (fun f g : String × Json F => textBefore f.1 g.1) := ⟨fun _ _ => le_total _ _⟩
    haveI : IsTrans (String × Json F) fun f g => textBefore f.1 g.1 := ⟨fun _ _ _ => le_trans⟩
    List.pairwise_insertionSort (fun f g : String × Json F => textBefore f.1 g.1) paths
  refine (hsorted.and hdifferent).imp fun {f g} h => ?_
  exact (le_iff_lt_or_eq.mp h.1).resolve_right fun he => h.2 (String.ext he)

theorem operationsOf_sorted (hunique : Json.unique document = true) {operations : List (ParsedOperation F)}
    (h : operationsOf host document = .ok operations) : operations.Pairwise Before := by
  obtain ⟨paths, groups, hpaths, rfl, hgroups⟩ := operationsOf_groups h
  have hids := (operationsOf_counted h).1
  rw [List.pairwise_flatten]
  constructor
  · intro group hgroup
    obtain ⟨f, -, hf⟩ := forall₂_mem_right hgroups hgroup
    exact hf.sorted (hids.sublist ((List.sublist_flatten_of_mem hgroup).map _))
  · exact pairwise_of_forall₂ (fun {f group g group'} hf hg hlt a ha b hb => by
      rw [Before, hf.path ha, hg.path hb]
      exact Or.inl hlt) hgroups (pairwise_paths (unique_get hunique hpaths))

/-! ## The operations of the document -/

/-- The method is one of the path item `item`, after references are followed; those on `stack` are taken to be
followed already. -/
def HasMethod (host : Host F) (document : Json F) (stack : List String) (item : Json F) (method : String) : Prop :=
  method ∈ methodOrder ∧ ∃ pathItem, resolve host document host.recursionLimit stack item = .ok (.obj pathItem) ∧
    ∃ f ∈ pathItem, lower f.1 = method

/-- An operation of the document: a path that starts with a slash, a method of its path item, and what stands
under the method, after references are followed. -/
structure OperationAt (host : Host F) (document : Json F) (path method : String)
    (operation : List (String × Json F)) : Prop where
  slash : path.toList.head? = some '/'
  isMethod : method ∈ methodOrder
  found : ∃ paths item pathItem value, document.get? "paths" = some (.obj paths) ∧ (path, item) ∈ paths ∧
    resolve host document host.recursionLimit [] item = .ok (.obj pathItem) ∧ pathItem.lookup method = some value ∧
    resolve host document host.recursionLimit [] value = .ok (.obj operation)

/-- **An index of the document.** -/
structure Index (host : Host F) (document : Json F) (operations : List (ParsedOperation F)) : Prop where
  sorted : operations.Pairwise Before
  identifiers : (operations.map fun o => o.operationId).Nodup
  routes : (operations.map fun o => (o.method, o.path)).Nodup
  few : operations.length ≤ maxOperations
  complete : ∀ paths path item method, document.get? "paths" = some (.obj paths) → (path, item) ∈ paths →
    path.toList.head? = some '/' → HasMethod host document [] item method →
    ∃ o ∈ operations, o.path = path ∧ o.method = upper method
  sound : ∀ o ∈ operations, ∃ method operation, OperationAt host document o.path method operation ∧
    o.method = upper method ∧ o.operation = canonical (.obj operation) ∧
    o.operationHash = host.sha256 (dumpsCompact (canonical (.obj operation)))

/-- No path item loses a method, or has one more, where the reference that is on the stack from the start is not
followed. -/
def Unhidden (host : Host F) (document : Json F) : Prop :=
  ∀ paths path item, document.get? "paths" = some (.obj paths) → (path, item) ∈ paths →
    path.toList.head? = some '/' → ∀ method,
      HasMethod host document [selfReference path] item method ↔ HasMethod host document [] item method

/-! ## When the index is one -/

section

variable {operations : List (ParsedOperation F)}

/-- Every entry is one of a path item as the index resolves it. -/
theorem operationsOf_entry (h : operationsOf host document = .ok operations) {o : ParsedOperation F}
    (ho : o ∈ operations) :
    ∃ paths item pathItem method, document.get? "paths" = some (.obj paths) ∧ (o.path, item) ∈ paths ∧
      o.path.toList.head? = some '/' ∧
      resolve host document host.recursionLimit [selfReference o.path] item = .ok (.obj pathItem) ∧
      method ∈ sortedMethods pathItem ∧ Entry host document o.path pathItem method o := by
  obtain ⟨paths, groups, hpaths, rfl, hgroups⟩ := operationsOf_groups h
  obtain ⟨group, hgroup, hmem⟩ := List.mem_flatten.mp ho
  obtain ⟨⟨path, item⟩, hf, hgroup⟩ := forall₂_mem_right hgroups hgroup
  rw [sortedBy, List.mem_insertionSort] at hf
  have hpath : o.path = path := hgroup.path hmem
  cases hgroup with
  | skipped => cases hmem
  | noItem => cases hmem
  | @item pathItem _ slash resolved entries =>
    obtain ⟨method, hmethod, hentry⟩ := forall₂_mem_right entries hmem
    exact ⟨paths, item, pathItem, method, hpaths, hpath ▸ hf, hpath ▸ slash, hpath ▸ resolved, hmethod, hpath ▸ hentry⟩

/-- Every method of a path item as the index resolves it has an entry. -/
theorem operationsOf_method (h : operationsOf host document = .ok operations) {paths : List (String × Json F)}
    {path method : String} {item : Json F} (hpaths : document.get? "paths" = some (.obj paths))
    (hitem : (path, item) ∈ paths) (hslash : path.toList.head? = some '/')
    (hmethod : HasMethod host document [selfReference path] item method) :
    ∃ o ∈ operations, o.path = path ∧ o.method = upper method := by
  obtain ⟨paths', groups, hpaths', rfl, hgroups⟩ := operationsOf_groups h
  rw [hpaths] at hpaths'
  cases hpaths'
  have hsorted : (path, item) ∈ sortedBy Prod.fst paths := by rw [sortedBy, List.mem_insertionSort]; exact hitem
  obtain ⟨group, hmem, hgroup⟩ := forall₂_mem_left hgroups hsorted
  obtain ⟨hknown, pathItem, hresolved, f, hf, hlower⟩ := hmethod
  cases hgroup with
  | skipped slash => exact absurd hslash slash
  | noItem slash resolved noObject =>
    rw [hresolved] at resolved
    cases resolved
    cases noObject
  | item slash resolved entries =>
    rw [hresolved] at resolved
    cases resolved
    obtain ⟨o, ho, hentry⟩ := forall₂_mem_left entries (mem_sortedMethods.mpr ⟨hknown, f, hf, hlower⟩)
    exact ⟨o, List.mem_flatten.mpr ⟨group, hmem, ho⟩, hentry.atPath, hentry.byMethod⟩

/-- **The index of operations.**  It is in order, with every identifier and route once, and its entries are the
operations of the document, exactly when no path item loses a method to the reference that `_operations` takes to
be followed from the start. -/
theorem operationsOf_index_iff (hunique : Json.unique document = true)
    (h : operationsOf host document = .ok operations) : Index host document operations ↔ Unhidden host document := by
  have hone : ∀ {paths : List (String × Json F)} {path : String} {item item' : Json F},
      document.get? "paths" = some (.obj paths) → (path, item) ∈ paths → (path, item') ∈ paths → item = item' := by
    intro paths path item item' hpaths hitem hitem'
    have hnodup := (Json.unique_obj.mp (unique_get hunique hpaths)).1
    have hlookup := Json.lookup_of_nodup hnodup hitem
    rw [Json.lookup_of_nodup hnodup hitem'] at hlookup
    exact (Option.some.inj hlookup).symm
  constructor
  · intro hindex paths path item hpaths hitem hslash method
    constructor
    · intro hmethod
      obtain ⟨o, ho, rfl, hspelled⟩ := operationsOf_method h hpaths hitem hslash hmethod
      obtain ⟨method', operation, hat, hspelled', -⟩ := hindex.sound o ho
      obtain rfl := upper_inj hmethod.1 hat.isMethod (hspelled.symm.trans hspelled')
      obtain ⟨paths', item', pathItem, value, hpaths', hitem', hresolved, hvalue, -⟩ := hat.found
      rw [hpaths] at hpaths'
      cases hpaths'
      obtain rfl := hone hpaths hitem hitem'
      exact ⟨hmethod.1, pathItem, hresolved, _, Json.mem_of_lookup hvalue, (methods_spelled method hmethod.1).2⟩
    · intro hmethod
      obtain ⟨o, ho, rfl, hspelled⟩ := hindex.complete paths path item method hpaths hitem hslash hmethod
      obtain ⟨paths', item', pathItem, method', hpaths', hitem', -, hresolved, hmem, hentry⟩ := operationsOf_entry h ho
      rw [hpaths] at hpaths'
      cases hpaths'
      obtain rfl := hone hpaths hitem hitem'
      obtain ⟨hknown, hkey⟩ := mem_sortedMethods.mp hmem
      obtain rfl := upper_inj hmethod.1 hknown (hspelled.symm.trans hentry.byMethod)
      exact ⟨hmethod.1, pathItem, hresolved, hkey⟩
  · intro hunhidden
    have hsorted := operationsOf_sorted hunique h
    have hcounted := operationsOf_counted h
    refine ⟨hsorted, hcounted.1, ?_, hcounted.2, fun paths path item method hpaths hitem hslash hmethod => ?_,
      fun o ho => ?_⟩
    · refine List.pairwise_map.mpr (hsorted.imp fun {a b} hbefore hroute => ?_)
      obtain ⟨hmethod, hpath⟩ := Prod.mk.inj hroute
      rcases hbefore with hlt | ⟨-, hlt⟩
      · rw [hpath] at hlt
        exact lt_irrefl _ hlt
      · rw [hmethod] at hlt
        exact Nat.lt_irrefl _ hlt
    · exact operationsOf_method h hpaths hitem hslash ((hunhidden paths path item hpaths hitem hslash method).mpr hmethod)
    · obtain ⟨paths, item, pathItem, method, hpaths, hitem, hslash, hresolved, hmem, hentry⟩ := operationsOf_entry h ho
      obtain ⟨hknown, hkey⟩ := mem_sortedMethods.mp hmem
      -- the path item without the reference on the stack has the same under the method
      obtain ⟨-, pathItem', hresolved', -⟩ :=
        (hunhidden paths o.path item hpaths hitem hslash method).mp ⟨hknown, pathItem, hresolved, hkey⟩
      obtain ⟨value, operation, id, hvalue, hoperation, -, -, hcanonical⟩ := hentry.operation
      have huniqueItem : Json.unique item = true := (Json.unique_obj.mp (unique_get hunique hpaths)).2 _ hitem
      have hvalue' := resolve_cut hunique huniqueItem hresolved hresolved' hvalue
      exact ⟨method, operation, ⟨hslash, hknown, paths, item, pathItem', value, hpaths, hitem, hresolved', hvalue',
        hoperation⟩, hentry.byMethod, hcanonical, by rw [hentry.hash, hcanonical]⟩

end

omit [DocumentFloat F] in
/-- Path items that are no references. -/
theorem unhidden_of_plain (h : (fieldsOf (document.get? "paths")).all (fun f => (followed f.2).isNone) = true)
    (hlimit : 0 < host.recursionLimit) : Unhidden host document := by
  intro paths path item hpaths hitem hslash method
  rw [hpaths, fieldsOf, List.all_eq_true] at h
  obtain ⟨limit, hlimit⟩ : ∃ n, host.recursionLimit = n + 1 := ⟨host.recursionLimit - 1, by omega⟩
  have hplain : followed item = none := Option.isNone_iff_eq_none.mp (h _ hitem)
  simp only [HasMethod, hlimit, resolve_plain hplain]

end

theorem operationsOf_index_pets :
    ∃ operations, operationsOf plainHost normalPet = .ok operations ∧ operations.length = 1 ∧
      Index plainHost normalPet operations := by
  have hreturns : (match operationsOf plainHost normalPet with
      | .ok operations => decide (operations.length = 1)
      | .error _ => false) = true := by
    decide
  split at hreturns
  · next operations hoperations =>
    exact ⟨operations, hoperations, of_decide_eq_true hreturns,
      (operationsOf_index_iff (by decide) hoperations).mpr (unhidden_of_plain (by decide) (by decide))⟩
  · cases hreturns

/-- A path item by reference to a schema that the normalisation puts into an `anyOf`: in the normalised document
the reference goes on to another path item, under a key without a slash. -/
def hiddenPets : Json Empty :=
  .obj [("openapi", .str "3.0.3"), ("info", .obj [("title", .str "pets"), ("version", .str "1.0.0")]),
    ("paths", .obj [("/x-pets", .obj [("$ref", .str "#/components/schemas/Pets/anyOf/0")]),
      ("x-pets", .obj [("get", .obj [("operationId", .str "getPets"),
        ("responses", .obj [("200", .obj [("description", .str "pets")])])])])]),
    ("components", .obj [("schemas", .obj [("Pets", .obj [("$ref", .str "#/paths/x-pets"), ("nullable", .bool true),
      ("anyOf", .arr [.obj []])])])])]

/-- The path item of `/x-pets`, in the normalised document. -/
def hasGet (document : Json Empty) : Bool :=
  match (document.get? "paths").bind (Json.get? "/x-pets") with
  | some item =>
    match resolve plainHost document plainHost.recursionLimit [] item with
    | .ok (.obj pathItem) => pathItem.any fun f => decide (lower f.1 = "get")
    | _ => false
  | none => false

theorem index_hides : ∃ parsed, parsePet hiddenPets = .ok parsed ∧ ¬ Index plainHost parsed.document parsed.operations := by
  have hchecked : accepts hiddenPets (fun parsed => parsed.operations.isEmpty && hasGet parsed.document) = true := by
    decide +kernel
  obtain ⟨parsed, hparsed, h⟩ := accepts_ok hchecked
  rw [Bool.and_eq_true, List.isEmpty_iff, hasGet] at h
  refine ⟨parsed, hparsed, fun hindex => ?_⟩
  obtain ⟨hempty, hget⟩ := h
  split at hget
  · next item hitem =>
    obtain ⟨paths, hpaths, hitem⟩ := Option.bind_eq_some_iff.mp hitem
    split at hget
    · next pathItem hresolved =>
      obtain ⟨f, hf, hlower⟩ := List.any_eq_true.mp hget
      cases paths with
      | obj paths =>
        obtain ⟨o, ho, -⟩ := hindex.complete paths "/x-pets" item "get" hpaths (Json.mem_of_lookup hitem) (by decide)
          ⟨by decide, pathItem, hresolved, f, hf, of_decide_eq_true hlower⟩
        rw [hempty] at ho
        cases ho
      | null | bool b | int n | float x | str s | arr items => cases hitem
    · cases hget
  · cases hget

end CodexMemory.OpenApi
