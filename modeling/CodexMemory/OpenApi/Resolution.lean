import CodexMemory.OpenApi.Pointers

/-!
# Following references

`_resolve` follows a reference only while it is not on the stack, and the references
of a document are finitely many: with every call one less is left
(`unfollowed_lt`).  So it returns from every value and stack, and what it returns
holds the keys of the value before those of its target and no reference
(`resolve_wellFounded`).
-/

namespace CodexMemory.OpenApi

variable {F : Type} {host : Host F} {document : Json F}

/-! ## One call -/

/-- The reference that `_resolve` follows. -/
def followed : Json F → Option String
  | .obj fields =>
    match fields.lookup "$ref" with
    | some (.str reference) => some reference
    | _ => none
  | _ => none

/-- A value next to whose reference others stand. -/
def merge (siblings : List (String × Json F)) : Json F → Json F
  | .obj resolved => .obj (update resolved (withoutRef siblings))
  | resolved => resolved

theorem followed_obj {fields : List (String × Json F)} {reference : String} :
    followed (.obj fields) = some reference ↔ fields.lookup "$ref" = some (.str reference) := by
  rw [followed]
  split <;> simp_all

/-- The reference of a value is one of an object. -/
theorem object_of_followed {v : Json F} {reference : String} (h : followed v = some reference) :
    ∃ fields, v = .obj fields ∧ fields.lookup "$ref" = some (.str reference) := by
  cases v with
  | obj fields => exact ⟨fields, rfl, followed_obj.mp h⟩
  | null | bool b | int n | float x | str s | arr items => cases h

theorem resolve_plain {v : Json F} (h : followed v = none) (fuel : Nat) (stack : List String) :
    resolve host document (fuel + 1) stack v = .ok v := by
  cases v with
  | obj fields =>
    rw [resolve]
    split
    · next reference hlookup =>
      rw [followed_obj.mpr hlookup] at h
      cases h
    · rfl
  | null | bool b | int n | float x | str s | arr items => rfl

theorem resolve_cycle {fields : List (String × Json F)} {reference : String} {stack : List String}
    (h : fields.lookup "$ref" = some (.str reference)) (hstack : reference ∈ stack) (fuel : Nat) :
    resolve host document (fuel + 1) stack (.obj fields) = .ok (.obj (withoutRef fields)) := by
  simp [resolve, h, hstack]

theorem resolve_follow {fields : List (String × Json F)} {reference : String} {stack : List String}
    (h : fields.lookup "$ref" = some (.str reference)) (hstack : reference ∉ stack) (fuel : Nat) :
    resolve host document (fuel + 1) stack (.obj fields) =
      (pointer host document reference).bind fun target =>
        (resolve host document fuel (stack ++ [reference]) target).map (merge fields) := by
  simp only [resolve, h, if_neg hstack]
  show Except.bind _ _ = _
  congr 1
  funext target
  show Except.bind _ _ = _
  cases resolve host document fuel (stack ++ [reference]) target with
  | error e => rfl
  | ok w => cases w <;> rfl

/-! ## The references of a target -/

theorem refs_pointerStep {reference token own : String} {v w : Json F}
    (h : pointerStep host reference v token = .ok w) (hown : own ∈ refsOf w) : own ∈ refsOf v := by
  unfold pointerStep at h
  split at h
  · next fields =>
    split at h
    · next u hu =>
      cases h
      exact mem_refsOf_obj.mpr ⟨_, Json.mem_of_lookup hu, Or.inr hown⟩
    · cases h
  · next items =>
    split at h
    · split at h
      · cases h
      · split at h
        · next u hu =>
          cases h
          exact mem_refsOf_arr.mpr ⟨_, List.mem_of_getElem? hu, hown⟩
        · cases h
    · cases h
  · cases h

/-- What a reference of the document denotes has no other references. -/
theorem refs_pointer {reference own : String} {target : Json F} (h : pointer host document reference = .ok target)
    (hown : own ∈ refsOf target) : own ∈ refsOf document := by
  have hsteps : ∀ (tokens : List String) (v : Json F),
      tokens.foldlM (pointerStep host reference) v = .ok target → own ∈ refsOf v := by
    intro tokens
    induction tokens with
    | nil =>
      intro v hv
      cases hv
      exact hown
    | cons token rest ih =>
      intro v hv
      obtain ⟨w, hw, hrest⟩ := bind_ok hv
      exact refs_pointerStep hw (ih w hrest)
  unfold pointer at h
  split at h
  · cases h
    exact hown
  · split at h
    · exact hsteps _ _ h
    · cases h

theorem followed_mem {v : Json F} {reference : String} (h : followed v = some reference) : reference ∈ refsOf v := by
  obtain ⟨fields, rfl, hlookup⟩ := object_of_followed h
  exact mem_refsOf_obj.mpr ⟨_, Json.mem_of_lookup hlookup, Or.inl (mem_ownRef.mpr ⟨rfl, rfl⟩)⟩

/-! ## The measure -/

/-- The references of the document that are not on the stack. -/
def unfollowed (document : Json F) (stack : List String) : List String :=
  (refsOf document).dedup.filter fun reference => reference ∉ stack

theorem unfollowed_append (stack : List String) (reference : String) :
    unfollowed document (stack ++ [reference]) = (unfollowed document stack).filter fun r => r ≠ reference := by
  rw [unfollowed, unfollowed, List.filter_filter]
  refine List.filter_congr fun r _ => ?_
  simp [and_comm]

theorem unfollowed_le (stack : List String) (reference : String) :
    (unfollowed document (stack ++ [reference])).length ≤ (unfollowed document stack).length := by
  rw [unfollowed_append]
  exact List.length_filter_le _ _

/-- **With every call one reference less is left.** -/
theorem unfollowed_lt {reference : String} {stack : List String} (hmem : reference ∈ refsOf document)
    (hstack : reference ∉ stack) :
    (unfollowed document (stack ++ [reference])).length < (unfollowed document stack).length := by
  rw [unfollowed_append, List.length_filter_lt_length_iff_exists]
  exact ⟨reference, by simp [unfollowed, hmem, hstack], by simp⟩

/-- A value of the document is resolved in as many calls as references are left, and one. -/
theorem resolve_inside (hrefs : ∀ reference ∈ refsOf document, ∃ target, pointer host document reference = .ok target)
    {fuel : Nat} {stack : List String} {v : Json F} (hinside : ∀ reference ∈ refsOf v, reference ∈ refsOf document)
    (hfuel : (unfollowed document stack).length < fuel) : ∃ w, resolve host document fuel stack v = .ok w := by
  induction fuel generalizing stack v with
  | zero => omega
  | succ fuel ih =>
    cases hfollowed : followed v with
    | none => exact ⟨v, resolve_plain hfollowed fuel stack⟩
    | some reference =>
      have hmem := hinside reference (followed_mem hfollowed)
      obtain ⟨fields, rfl, hlookup⟩ := object_of_followed hfollowed
      by_cases hstack : reference ∈ stack
      · exact ⟨_, resolve_cycle hlookup hstack fuel⟩
      · obtain ⟨target, htarget⟩ := hrefs reference hmem
        have hlt := unfollowed_lt hmem hstack
        obtain ⟨w, hw⟩ : ∃ w, resolve host document fuel (stack ++ [reference]) target = .ok w :=
          ih (fun own hown => refs_pointer htarget hown) (by omega)
        rw [resolve_follow hlookup hstack, htarget]
        exact ⟨_, by rw [Except.bind, hw]; rfl⟩

/-- More calls than are needed change nothing. -/
theorem resolve_more {fuel fuel' : Nat} {stack : List String} {v w : Json F}
    (h : resolve host document fuel stack v = .ok w) (hle : fuel ≤ fuel') :
    resolve host document fuel' stack v = .ok w := by
  induction fuel generalizing fuel' stack v w with
  | zero => cases h
  | succ fuel ih =>
    obtain ⟨fuel', rfl⟩ : ∃ n, fuel' = n + 1 := ⟨fuel' - 1, by omega⟩
    cases hfollowed : followed v with
    | none =>
      rw [resolve_plain hfollowed] at h ⊢
      exact h
    | some reference =>
      obtain ⟨fields, rfl, hlookup⟩ := object_of_followed hfollowed
      by_cases hstack : reference ∈ stack
      · rw [resolve_cycle hlookup hstack] at h ⊢
        exact h
      · rw [resolve_follow hlookup hstack] at h ⊢
        cases htarget : pointer host document reference with
        | error e =>
          rw [htarget] at h
          cases h
        | ok target =>
          rw [htarget] at h
          cases hresolved : resolve host document fuel (stack ++ [reference]) target with
          | error e =>
            rw [Except.bind, hresolved] at h
            cases h
          | ok resolved =>
            rw [Except.bind, hresolved] at h
            rw [Except.bind, ih hresolved (by omega)]
            exact h

/-! ## Keys of the result -/

theorem lookup_withoutRef (fields : List (String × Json F)) (key : String) :
    (withoutRef fields).lookup key = if key = "$ref" then none else fields.lookup key :=
  lookup_popField "$ref" fields key

/-- `merged.update(fields)` for a dictionary: its keys go before those that are there. -/
theorem lookup_update {merged fields : List (String × Json F)} (hnodup : (fields.map Prod.fst).Nodup) (key : String) :
    (update merged fields).lookup key = (fields.lookup key).or (merged.lookup key) := by
  induction fields generalizing merged with
  | nil => rfl
  | cons f rest ih =>
    obtain ⟨k, v⟩ := f
    rw [List.map_cons, List.nodup_cons] at hnodup
    rw [show update merged ((k, v) :: rest) = update (Json.setField k v merged) rest from rfl, ih hnodup.2,
      lookup_setField, Json.lookup_cons_if]
    by_cases hkey : key = k
    · -- the key is not set again
      have hnone : rest.lookup k = none := by
        cases hrest : rest.lookup k with
        | none => rfl
        | some w => exact absurd (List.mem_map_of_mem (f := Prod.fst) (Json.mem_of_lookup hrest)) hnodup.1
      simp [hkey, hnone]
    · simp [hkey]

theorem nodup_withoutRef {fields : List (String × Json F)} (h : (fields.map Prod.fst).Nodup) :
    ((withoutRef fields).map Prod.fst).Nodup :=
  (List.filter_sublist.map Prod.fst).nodup h

/-- `merged.update(fields)` keeps the other keys. -/
theorem lookup_update_of_none {merged fields : List (String × Json F)} {key : String} (h : fields.lookup key = none) :
    (update merged fields).lookup key = merged.lookup key := by
  induction fields generalizing merged with
  | nil => rfl
  | cons f rest ih =>
    obtain ⟨k, v⟩ := f
    rw [Json.lookup_cons_if] at h
    split at h
    · cases h
    · next hkey =>
      rw [show update merged ((k, v) :: rest) = update (Json.setField k v merged) rest from rfl, ih h,
        lookup_setField, if_neg hkey]

/-- No string is left under `$ref` of an object that is returned. -/
theorem resolve_noRef {fuel : Nat} {stack : List String} {v : Json F} {fields : List (String × Json F)}
    (h : resolve host document fuel stack v = .ok (.obj fields)) (reference : String) :
    fields.lookup "$ref" ≠ some (.str reference) := by
  induction fuel generalizing stack v fields with
  | zero => cases h
  | succ fuel ih =>
    cases hfollowed : followed v with
    | none =>
      rw [resolve_plain hfollowed] at h
      cases h
      intro hlookup
      rw [followed_obj.mpr hlookup] at hfollowed
      cases hfollowed
    | some own =>
      obtain ⟨siblings, rfl, hlookup⟩ := object_of_followed hfollowed
      have hnone : (withoutRef siblings).lookup "$ref" = none := by rw [lookup_withoutRef, if_pos rfl]
      by_cases hstack : own ∈ stack
      · rw [resolve_cycle hlookup hstack] at h
        cases h
        rw [hnone]
        exact nofun
      · rw [resolve_follow hlookup hstack] at h
        obtain ⟨target, htarget, h⟩ := bind_ok h
        obtain ⟨resolved, hresolved, hfields⟩ := map_ok h
        cases resolved with
        | obj resolved =>
          cases hfields
          rw [lookup_update_of_none hnone]
          exact ih hresolved
        | null | bool b | int n | float x | str s | arr items => cases hfields

/-- The keys of an object that was resolved. -/
structure Resolved (host : Host F) (document : Json F) (stack : List String) (v : Json F)
    (fields : List (String × Json F)) : Prop where
  /-- No string is left under `$ref`. -/
  noRef : ∀ reference, fields.lookup "$ref" ≠ some (.str reference)
  /-- Next to a reference that was followed: the keys there go before those of the target. -/
  siblings : ∀ siblings reference, v = .obj siblings → siblings.lookup "$ref" = some (.str reference) →
    reference ∉ stack → ∃ target resolved fuel, pointer host document reference = .ok target ∧
      resolve host document fuel (stack ++ [reference]) target = .ok (.obj resolved) ∧
      ∀ key, fields.lookup key = ((withoutRef siblings).lookup key).or (resolved.lookup key)

theorem pointerStep_error {reference token : String} {v : Json F} {e : Failure}
    (h : pointerStep host reference v token = .error e) : e = .key reference ∨ e = .value token := by
  unfold pointerStep at h
  split at h
  · split at h <;> cases h
    exact Or.inl rfl
  · split at h
    · split at h
      · cases h
        exact Or.inr rfl
      · split at h <;> cases h
        exact Or.inl rfl
    · cases h
      exact Or.inl rfl
  · cases h
    exact Or.inl rfl

theorem pointer_ne_recursion (reference : String) : pointer host document reference ≠ .error .recursion := by
  unfold pointer
  split
  · exact nofun
  · split
    · intro h
      have hkind : Failure.recursion ≠ .recursion := by
        refine foldlM_error (P := fun e => e ≠ .recursion) (fun v token e hstep => ?_) h
        rcases pointerStep_error hstep with rfl | rfl <;> exact nofun
      exact hkind rfl
    · exact nofun

/-- The first call: from any value, one call before those in the document. -/
theorem resolve_returns (hrefs : ∀ reference ∈ refsOf document, ∃ target, pointer host document reference = .ok target)
    (stack : List String) (v : Json F) :
    ∃ result, result ≠ .error .recursion ∧
      (∀ fuel, (unfollowed document stack).length + 2 ≤ fuel → resolve host document fuel stack v = result) ∧
      ((∀ reference, followed v = some reference → ∃ target, pointer host document reference = .ok target) →
        ∃ w, result = .ok w) := by
  have hreturned : ∀ {fuel w}, fuel ≤ (unfollowed document stack).length + 2 →
      resolve host document fuel stack v = .ok w → ∃ result, result ≠ .error .recursion ∧
        (∀ fuel, (unfollowed document stack).length + 2 ≤ fuel → resolve host document fuel stack v = result) ∧
        ((∀ reference, followed v = some reference → ∃ target, pointer host document reference = .ok target) →
          ∃ w, result = .ok w) := fun {fuel w} hle h =>
    ⟨.ok w, nofun, fun fuel' hfuel => resolve_more h (by omega), fun _ => ⟨w, rfl⟩⟩
  cases hfollowed : followed v with
  | none => exact hfollowed ▸ hreturned (by omega) (resolve_plain hfollowed 0 stack)
  | some reference =>
    rw [← hfollowed]
    obtain ⟨fields, rfl, hlookup⟩ := object_of_followed hfollowed
    by_cases hstack : reference ∈ stack
    · exact hreturned (by omega) (resolve_cycle hlookup hstack 0)
    · cases htarget : pointer host document reference with
      | error e =>
        refine ⟨.error e, htarget ▸ pointer_ne_recursion reference, fun fuel hfuel => ?_, fun hown => ?_⟩
        · obtain ⟨fuel, rfl⟩ : ∃ n, fuel = n + 1 := ⟨fuel - 1, by omega⟩
          rw [resolve_follow hlookup hstack, htarget]
          rfl
        · obtain ⟨target, hok⟩ := hown reference hfollowed
          rw [htarget] at hok
          cases hok
      | ok target =>
        have hle : (unfollowed document (stack ++ [reference])).length ≤ (unfollowed document stack).length :=
          unfollowed_le stack reference
        obtain ⟨w, hw⟩ : ∃ w, resolve host document ((unfollowed document stack).length + 1)
            (stack ++ [reference]) target = .ok w :=
          resolve_inside hrefs (fun own hown => refs_pointer htarget hown) (by omega)
        have hmerged : resolve host document ((unfollowed document stack).length + 2) stack (.obj fields) =
            .ok (merge fields w) := by
          rw [resolve_follow hlookup hstack, htarget, Except.bind, hw]
          rfl
        exact hreturned (Nat.le_refl _) hmerged

/-- **Resolution is well-founded.**  Where the references of the document can be followed, calls nest at
most two deeper than references are left, from every value and stack; and an object that is returned has
no reference, and the keys next to a reference that was followed before those of its target. -/
theorem resolve_wellFounded
    (hrefs : ∀ reference ∈ refsOf document, ∃ target, pointer host document reference = .ok target)
    (stack : List String) {v : Json F} (hv : Json.unique v = true) :
    (∃ result, result ≠ .error .recursion ∧
      (∀ fuel, (unfollowed document stack).length + 2 ≤ fuel → resolve host document fuel stack v = result) ∧
      ((∀ reference, followed v = some reference → ∃ target, pointer host document reference = .ok target) →
        ∃ w, result = .ok w)) ∧
    ∀ fuel fields, resolve host document fuel stack v = .ok (.obj fields) →
      Resolved host document stack v fields := by
  refine ⟨resolve_returns hrefs stack v, fun fuel fields h => ⟨resolve_noRef h, ?_⟩⟩
  rintro siblings reference rfl hlookup hstack
  cases fuel with
  | zero => cases h
  | succ fuel =>
    rw [resolve_follow hlookup hstack] at h
    obtain ⟨target, htarget, h⟩ := bind_ok h
    obtain ⟨resolved, hresolved, hfields⟩ := map_ok h
    cases resolved with
    | obj resolved =>
      cases hfields
      exact ⟨target, resolved, fuel, htarget, hresolved,
        lookup_update (nodup_withoutRef (Json.unique_obj.mp hv).1)⟩
    | null | bool b | int n | float x | str s | arr items => cases hfields

/-! ## A reference that is on the stack from the start -/

theorem unique_pointerStep {reference token : String} {v w : Json F} (hv : Json.unique v = true)
    (h : pointerStep host reference v token = .ok w) : Json.unique w = true := by
  unfold pointerStep at h
  split at h
  · split at h
    · next u hu =>
      cases h
      exact (Json.unique_obj.mp hv).2 _ (Json.mem_of_lookup hu)
    · cases h
  · split at h
    · split at h
      · cases h
      · split at h
        · next u hu =>
          cases h
          rw [Json.unique, Json.uniqueItems_eq_true] at hv
          exact hv _ (List.mem_of_getElem? hu)
        · cases h
    · cases h
  · cases h

theorem unique_pointer (hunique : Json.unique document = true) {reference : String} {target : Json F}
    (h : pointer host document reference = .ok target) : Json.unique target = true := by
  unfold pointer at h
  split at h
  · cases h
    exact hunique
  · split at h
    · exact foldlM_ok (P := fun v => Json.unique v = true) (fun _ _ _ _ hv hstep => unique_pointerStep hv hstep)
        hunique h
    · cases h

/-- Where following one reference less gives an object too, it has nothing under a key that the other does
not have there. -/
theorem resolve_cut (hunique : Json.unique document = true) {fuel : Nat} {stack : List String} {cut : String}
    {v u : Json F} {fields more : List (String × Json F)} {key : String} (hv : Json.unique v = true)
    (hcut : resolve host document fuel (cut :: stack) v = .ok (.obj fields))
    (hfull : resolve host document fuel stack v = .ok (.obj more)) (h : fields.lookup key = some u) :
    more.lookup key = some u := by
  induction fuel generalizing stack v fields more with
  | zero => cases hcut
  | succ fuel ih =>
    cases hfollowed : followed v with
    | none =>
      rw [resolve_plain hfollowed] at hcut hfull
      cases hcut
      cases hfull
      exact h
    | some reference =>
      obtain ⟨siblings, rfl, hlookup⟩ := object_of_followed hfollowed
      have hnodup := nodup_withoutRef (Json.unique_obj.mp hv).1
      by_cases hstack : reference ∈ stack
      · rw [resolve_cycle hlookup (List.mem_cons_of_mem cut hstack)] at hcut
        rw [resolve_cycle hlookup hstack] at hfull
        cases hcut
        cases hfull
        exact h
      · rw [resolve_follow hlookup hstack] at hfull
        obtain ⟨target, htarget, hfull⟩ := bind_ok hfull
        obtain ⟨resolved, hresolved, hmore⟩ := map_ok hfull
        cases resolved with
        | obj resolved =>
          cases hmore
          rw [lookup_update hnodup]
          by_cases hown : reference = cut
          · rw [resolve_cycle hlookup (by simp [hown])] at hcut
            cases hcut
            rw [h, Option.some_or]
          · rw [resolve_follow hlookup (by simp [hown, hstack]), htarget] at hcut
            obtain ⟨resolved', hresolved', hfields⟩ := map_ok hcut
            cases resolved' with
            | obj resolved' =>
              cases hfields
              rw [lookup_update hnodup] at h
              cases hsibling : (withoutRef siblings).lookup key with
              | some w =>
                rw [hsibling] at h
                exact h
              | none =>
                rw [hsibling, Option.none_or] at h
                rw [Option.none_or]
                exact ih (unique_pointer hunique htarget) hresolved' hresolved h
            | null | bool b | int n | float x | str s | arr items => cases hfields
        | null | bool b | int n | float x | str s | arr items => cases hmore

/-- Two references to each other, with keys next to them. -/
def mutualPets : Json Empty :=
  .obj [("cat", .obj [("$ref", .str "#/dog"), ("name", .str "cat")]),
    ("dog", .obj [("$ref", .str "#/cat"), ("name", .str "dog"), ("legs", .int 4)])]

theorem resolve_mutualPets :
    (∃ result, result ≠ .error .recursion ∧
      (∀ fuel, 4 ≤ fuel → resolve plainHost mutualPets fuel [] (.obj [("$ref", .str "#/cat")]) = result) ∧
      ∃ w, result = .ok w) ∧
    Resolved plainHost mutualPets [] (.obj [("$ref", .str "#/cat")]) [("name", .str "cat"), ("legs", .int 4)] := by
  have hcat : pointer plainHost mutualPets "#/cat" = .ok (.obj [("$ref", .str "#/dog"), ("name", .str "cat")]) := rfl
  have hdog : pointer plainHost mutualPets "#/dog" =
      .ok (.obj [("$ref", .str "#/cat"), ("name", .str "dog"), ("legs", .int 4)]) := rfl
  have hrefs : ∀ reference ∈ refsOf mutualPets, ∃ target, pointer plainHost mutualPets reference = .ok target := by
    intro reference hmem
    have hcases : reference = "#/dog" ∨ reference = "#/cat" := by simpa [mutualPets, refsOf, refsOfFields, ownRef] using hmem
    rcases hcases with rfl | rfl
    · exact ⟨_, hdog⟩
    · exact ⟨_, hcat⟩
  have hmain := resolve_wellFounded hrefs [] (v := .obj [("$ref", .str "#/cat")]) (by decide)
  have hleft : (unfollowed mutualPets []).length = 2 := by decide
  obtain ⟨⟨result, hresult, hfuel, hok⟩, hobject⟩ := hmain
  rw [hleft] at hfuel
  refine ⟨⟨result, hresult, hfuel, hok fun reference hown => ?_⟩, hobject 4 _ rfl⟩
  cases hown
  exact ⟨_, hcat⟩

end CodexMemory.OpenApi
