import CodexMemory.OpenApi.Accepted
import CodexMemory.OpenApi.Images

/-!
# Where a document has schemas

The Schema Objects of an OpenAPI document stand where the grammar has them,
whatever the names of components, headers, properties and response codes are.
The walkers go by the keys on the way.  `normalization_complete_iff`: the
normalised document of an accepted OpenAPI 3.0.3 document has no keyword of
OpenAPI 3.0 left exactly when the walkers read every Schema Object with such a
keyword as a schema; `default_response_kept` is a document where they do not.
-/

namespace CodexMemory.OpenApi

open Json (lookup_cons_if mem_of_lookup lookup_sorted sortedFields sortKeys_obj sortKeys_arr)

/-! ## The grammar -/

/-- The objects, maps and lists of a document that lead to a Schema Object. -/
inductive Kind
  | document | paths | pathItem | operation | parameterList | parameter | requestBody | content | mediaType
  | encodings | encoding | headers | header | responses | response | components | responseMap | parameterMap
  | requestBodyMap | pathItemMap | schema | schemaMap | schemaList
  deriving DecidableEq

/-- The fixed fields of an object. -/
def Kind.fields : Kind → List (String × Kind)
  | .document => [("paths", .paths), ("components", .components)]
  | .pathItem => ("parameters", .parameterList) :: methodOrder.map fun method => (method, .operation)
  | .operation => [("parameters", .parameterList), ("requestBody", .requestBody), ("responses", .responses)]
  | .parameter => [("schema", .schema), ("content", .content)]
  | .requestBody => [("content", .content)]
  | .mediaType => [("schema", .schema), ("encoding", .encodings)]
  | .encoding => [("headers", .headers)]
  | .header => [("schema", .schema), ("content", .content)]
  | .response => [("headers", .headers), ("content", .content)]
  | .components =>
    [("schemas", .schemaMap), ("responses", .responseMap), ("parameters", .parameterMap),
      ("requestBodies", .requestBodyMap), ("headers", .headers), ("pathItems", .pathItemMap)]
  | .schema =>
    (schemaMapKeywords.map fun key => (key, .schemaMap)) ++ (schemaListKeywords.map fun key => (key, .schemaList)) ++
      (schemaKeywords ++ ["unevaluatedItems"]).map fun key => (key, .schema)
  | _ => []

/-- The values of a map, whose keys are names of the author. -/
def Kind.member : Kind → Option Kind
  | .paths => some .pathItem
  | .content => some .mediaType
  | .encodings => some .encoding
  | .headers => some .header
  | .responses => some .response
  | .responseMap => some .response
  | .parameterMap => some .parameter
  | .requestBodyMap => some .requestBody
  | .pathItemMap => some .pathItem
  | .schemaMap => some .schema
  | _ => none

/-- The keys of a map that are no names: paths begin with a slash, and what begins with
`x-` among the responses is an extension. -/
def Kind.isName (k : Kind) (key : String) : Bool :=
  match k with
  | .paths => key.toList.head? = some '/'
  | .responses => !isExtension key
  | _ => true

/-- What the grammar has under a key. -/
def Kind.child (k : Kind) (key : String) : Option Kind :=
  match k.member with
  | some k' => if k.isName key then some k' else none
  | none => k.fields.lookup key

/-- What the grammar has in a list. -/
def Kind.item : Kind → Option Kind
  | .parameterList => some .parameter
  | .schemaList => some .schema
  | _ => none

variable {F : Type}

/-- A Reference Object in the place of an object. -/
def isReference (k : Kind) (fields : List (String × Json F)) : Bool :=
  k ∈ [Kind.parameter, .requestBody, .response, .header] && (fields.lookup "$ref").isSome

/-- The reading of the items of a list that a walker goes into, data for the others. -/
def Mode.itemMode (m : Mode) : Mode := m.item.getD .data

/-- `At k m v k' m' s`: in the value `v` of kind `k`, which a walker reads as `m`, stands
the object `s` of kind `k'`, which it reads as `m'`. -/
inductive At : Kind → Mode → Json F → Kind → Mode → List (String × Json F) → Prop
  | here (k : Kind) (m : Mode) (fields : List (String × Json F)) : At k m (.obj fields) k m fields
  | field {k k' l : Kind} {m n : Mode} {fields s : List (String × Json F)} {key : String} {v : Json F}
      (child : k.child key = some k') (object : isReference k fields = false) (lookup : fields.lookup key = some v)
      (inside : At k' (m.child key v) v l n s) : At k m (.obj fields) l n s
  | item {k k' l : Kind} {m n : Mode} {items : List (Json F)} {s : List (String × Json F)} {v : Json F}
      (child : k.item = some k') (mem : v ∈ items) (inside : At k' m.itemMode v l n s) : At k m (.arr items) l n s

mutual

/-- The objects of a value with their kinds and readings. -/
def objects (k : Kind) (m : Mode) : Json F → List (Kind × Mode × List (String × Json F))
  | .obj fields => (k, m, fields) :: if isReference k fields then [] else objectsOfFields k m [] fields
  | .arr items =>
    match k.item with
    | some k' => objectsOfItems k' m.itemMode items
    | none => []
  | _ => []

def objectsOfItems (k : Kind) (m : Mode) : List (Json F) → List (Kind × Mode × List (String × Json F))
  | [] => []
  | v :: rest => objects k m v ++ objectsOfItems k m rest

/-- Those of the fields whose keys are not among `seen`. -/
def objectsOfFields (k : Kind) (m : Mode) (seen : List String) :
    List (String × Json F) → List (Kind × Mode × List (String × Json F))
  | [] => []
  | (key, v) :: rest =>
    (if key ∈ seen then []
      else match k.child key with
        | some k' => objects k' (m.child key v) v
        | none => []) ++ objectsOfFields k m (key :: seen) rest

end

/-! ## Readings that occur -/

/-- A value of kind `k` may be read as `m`. -/
def fits (k : Kind) : Mode → Bool
  | .root => k = .document
  | .components => k = .components
  | .schema => k.member = none && k.item = none
  | .schemaMap => k = .schemaMap
  | .schemaList => k = .schemaList
  | .dependents => false
  | .document => true
  | .data => true

/-- The reading of a field depends on whether its value is an object or a list. -/
def shapeOf : Json F → Json Empty
  | .obj _ => .obj []
  | .arr _ => .arr []
  | _ => .null

theorem child_shapeOf (m : Mode) (key : String) (v : Json F) : m.child key v = m.child key (shapeOf v) := by
  cases v <;> cases m <;> rfl

theorem shapeOf_mem (v : Json F) : shapeOf v ∈ [Json.null, .arr [], .obj []] := by
  cases v <;> simp [shapeOf]

/-- The fixed fields of an object are read as what they are, or as less. -/
theorem fits_fields (k : Kind) (m : Mode) (hfits : fits k m = true) (hmember : k.member = none) :
    ∀ f ∈ k.fields, ∀ s ∈ [Json.null, .arr [], .obj []], fits f.2 (m.child (F := Empty) f.1 s) = true := by
  revert hfits hmember
  cases k <;> cases m <;> decide

theorem fits_member {k k' : Kind} {m : Mode} (key : String) (v : Json F) (hfits : fits k m = true)
    (hmember : k.member = some k') : fits k' (m.child key v) = true := by
  have hobject : k'.member = none ∧ k'.item = none := by
    cases k <;> cases hmember <;> decide
  have hschema : fits k' .schema = true := by
    rw [fits, hobject.1, hobject.2]
    rfl
  cases m with
  | root => cases k <;> cases hmember <;> cases hfits
  | components => cases k <;> cases hmember <;> cases hfits
  | schema =>
    rw [fits, hmember] at hfits
    cases hfits
  | schemaMap => exact hschema
  | schemaList => cases k <;> cases hmember <;> cases hfits
  | dependents => cases hfits
  | data => rfl
  | document =>
    show fits k' (documentChild .document key v) = true
    unfold documentChild
    split
    · exact hschema
    · split
      · next h => exact absurd h.1 (by decide)
      · split
        · rfl
        · split
          · next h => exact absurd h.1 (by decide)
          · rfl

theorem fits_child {k k' : Kind} {m : Mode} {key : String} (v : Json F) (hfits : fits k m = true)
    (hchild : k.child key = some k') : fits k' (m.child key v) = true := by
  unfold Kind.child at hchild
  split at hchild
  · next k'' hmember =>
    split at hchild
    · obtain rfl := Option.some.inj hchild
      exact fits_member key v hfits hmember
    · cases hchild
  · next hmember =>
    rw [child_shapeOf]
    exact fits_fields k m hfits hmember _ (mem_of_lookup hchild) _ (shapeOf_mem v)

theorem fits_item {k k' : Kind} {m : Mode} (hfits : fits k m = true) (hitem : k.item = some k') :
    fits k' m.itemMode = true := by
  cases k <;> cases hitem <;> cases m <;> rfl

/-! ## Objects of the normal form -/

/-- An object stands below an object exactly where it stands below a field of it, or is
the object itself. -/
theorem at_obj {k l : Kind} {m n : Mode} {fields s : List (String × Json F)} :
    At k m (.obj fields) l n s ↔ (k = l ∧ m = n ∧ fields = s) ∨
      ∃ key k' v, k.child key = some k' ∧ isReference k fields = false ∧ fields.lookup key = some v ∧
        At k' (m.child key v) v l n s := by
  constructor
  · intro h
    cases h with
    | here => exact Or.inl ⟨rfl, rfl, rfl⟩
    | field child object lookup inside => exact Or.inr ⟨_, _, _, child, object, lookup, inside⟩
  · rintro (⟨rfl, rfl, rfl⟩ | ⟨key, k', v, child, object, lookup, inside⟩)
    · exact .here k m fields
    · exact .field child object lookup inside

theorem at_arr {k l : Kind} {m n : Mode} {items : List (Json F)} {s : List (String × Json F)} :
    At k m (.arr items) l n s ↔ ∃ k', k.item = some k' ∧ ∃ v ∈ items, At k' m.itemMode v l n s := by
  constructor
  · intro h
    cases h with
    | item child mem inside => exact ⟨_, child, _, mem, inside⟩
  · rintro ⟨k', child, v, mem, inside⟩
    exact .item child mem inside

theorem mem_objectsOfItems {k : Kind} {m : Mode} {items : List (Json F)} {o : Kind × Mode × List (String × Json F)} :
    o ∈ objectsOfItems k m items ↔ ∃ v ∈ items, o ∈ objects k m v := by
  induction items with
  | nil => simp [objectsOfItems]
  | cons v rest ih => simp [objectsOfItems, ih]

theorem mem_objectsOfFields {k : Kind} {m : Mode} {seen : List String} {fields : List (String × Json F)}
    {o : Kind × Mode × List (String × Json F)} :
    o ∈ objectsOfFields k m seen fields ↔ ∃ key k' v, key ∉ seen ∧ k.child key = some k' ∧
      fields.lookup key = some v ∧ o ∈ objects k' (m.child key v) v := by
  induction fields generalizing seen with
  | nil => simp [objectsOfFields]
  | cons field rest ih =>
    obtain ⟨key, v⟩ := field
    rw [objectsOfFields, List.mem_append, ih]
    constructor
    · rintro (hfirst | ⟨key', k', v', hseen, hchild, hlookup, hmem⟩)
      · split at hfirst
        · cases hfirst
        · next hseen =>
          split at hfirst
          · next k' hchild => exact ⟨key, k', v, hseen, hchild, by rw [lookup_cons_if, if_pos rfl], hfirst⟩
          · cases hfirst
      · rw [List.mem_cons, not_or] at hseen
        exact ⟨key', k', v', hseen.2, hchild, by rw [lookup_cons_if, if_neg hseen.1, hlookup], hmem⟩
    · rintro ⟨key', k', v', hseen, hchild, hlookup, hmem⟩
      rw [lookup_cons_if] at hlookup
      split at hlookup
      · next hkey =>
        subst hkey
        obtain rfl := Option.some.inj hlookup
        left
        rw [if_neg hseen, hchild]
        exact hmem
      · next hkey =>
        refine Or.inr ⟨key', k', v', ?_, hchild, hlookup, hmem⟩
        rw [List.mem_cons, not_or]
        exact ⟨hkey, hseen⟩

/-- **What stands where can be listed.** -/
theorem mem_objects {k : Kind} {m : Mode} {v : Json F} {l : Kind} {n : Mode} {s : List (String × Json F)} :
    (l, n, s) ∈ objects k m v ↔ At k m v l n s := by
  induction v using Json.induction generalizing k m with
  | null | bool b | int i | float x | str t => exact ⟨nofun, nofun⟩
  | arr items ih =>
    rw [objects, at_arr]
    cases k.item with
    | none => exact ⟨nofun, fun ⟨_, h, _⟩ => nomatch h⟩
    | some k' =>
      rw [mem_objectsOfItems]
      constructor
      · rintro ⟨v, hv, hmem⟩
        exact ⟨k', rfl, v, hv, (ih v hv).mp hmem⟩
      · rintro ⟨k₂, hk, v, hv, hat⟩
        obtain rfl := Option.some.inj hk
        exact ⟨v, hv, (ih v hv).mpr hat⟩
  | obj fields ih =>
    rw [objects, at_obj, List.mem_cons, Prod.mk.injEq, Prod.mk.injEq]
    refine or_congr ⟨fun h => ⟨h.1.symm, h.2.1.symm, h.2.2.symm⟩, fun h => ⟨h.1.symm, h.2.1.symm, h.2.2.symm⟩⟩ ?_
    constructor
    · intro h
      split at h
      · cases h
      · next href =>
        obtain ⟨key, k', v, -, hchild, hlookup, hmem⟩ := mem_objectsOfFields.mp h
        exact ⟨key, k', v, hchild, Bool.eq_false_iff.mpr href, hlookup, (ih _ (mem_of_lookup hlookup)).mp hmem⟩
    · rintro ⟨key, k', v, hchild, href, hlookup, hat⟩
      rw [href, if_neg Bool.false_ne_true]
      exact mem_objectsOfFields.mpr
        ⟨key, k', v, List.not_mem_nil, hchild, hlookup, (ih _ (mem_of_lookup hlookup)).mpr hat⟩

/-- The reading does not matter for what stands where. -/
theorem at_mode {k l : Kind} {m n : Mode} {v : Json F} {s : List (String × Json F)} (h : At k m v l n s) (m' : Mode) :
    ∃ n', At k m' v l n' s := by
  induction h generalizing m' with
  | here k m fields => exact ⟨m', .here k m' fields⟩
  | field child object lookup inside ih =>
    obtain ⟨n', hn'⟩ := ih (m'.child _ _)
    exact ⟨n', .field child object lookup hn'⟩
  | item child mem inside ih =>
    obtain ⟨n', hn'⟩ := ih m'.itemMode
    exact ⟨n', .item child mem hn'⟩

theorem oldKeyword_sorted (fields : List (String × Json F)) : oldKeyword (sortedFields fields) = oldKeyword fields := by
  rw [oldKeyword, oldKeyword, boundFlag_sorted, boundFlag_sorted, lookup_sorted, Option.isSome_map]

theorem isReference_sorted (k : Kind) (fields : List (String × Json F)) :
    isReference k (sortedFields fields) = isReference k fields := by
  rw [isReference, isReference, lookup_sorted, Option.isSome_map]

/-- Putting keys in order keeps what stands where. -/
theorem at_canonical {k l : Kind} {m n : Mode} {v : Json F} {s : List (String × Json F)} :
    At k m (canonical v) l n s → ∃ s', At k m v l n s' ∧ s = sortedFields s' := by
  induction v using Json.induction generalizing k m with
  | null | bool b | int i | float x | str t =>
    intro h
    cases h
  | arr items ih =>
    intro h
    rw [canonical, sortKeys_arr, at_arr] at h
    obtain ⟨k', child, w, hmem, hinside⟩ := h
    obtain ⟨v, hv, rfl⟩ := List.mem_map.mp hmem
    obtain ⟨s', hs', rfl⟩ := ih v hv hinside
    exact ⟨s', at_arr.mpr ⟨k', child, v, hv, hs'⟩, rfl⟩
  | obj fields ih =>
    intro h
    rw [canonical, sortKeys_obj, at_obj] at h
    rcases h with ⟨rfl, rfl, rfl⟩ | ⟨key, k', w, child, object, lookup, inside⟩
    · exact ⟨fields, .here _ _ _, rfl⟩
    · rw [lookup_sorted] at lookup
      obtain ⟨v, hv, rfl⟩ := Option.map_eq_some_iff.mp lookup
      have hchild : m.child key v.sortKeys = m.child key v := by
        rw [child_shapeOf, child_shapeOf m key v]
        cases v <;> rfl
      rw [hchild] at inside
      obtain ⟨s', hs', rfl⟩ := ih _ (mem_of_lookup hv) inside
      exact ⟨s', .field child ((isReference_sorted k fields).symm.trans object) hv hs', rfl⟩

/-- And the other way. -/
theorem canonical_at {k l : Kind} {m n : Mode} {v : Json F} {s : List (String × Json F)} (h : At k m v l n s) :
    At k m (canonical v) l n (sortedFields s) := by
  induction h with
  | here k m fields =>
    rw [canonical, sortKeys_obj]
    exact .here k m _
  | @field k k' l m n fields s key v child object lookup inside ih =>
    rw [canonical, sortKeys_obj]
    have hchild : m.child key v.sortKeys = m.child key v := by
      rw [child_shapeOf, child_shapeOf m key v]
      cases v <;> rfl
    refine .field child ((isReference_sorted k fields).trans object) (v := v.sortKeys) ?_ ?_
    · rw [lookup_sorted, lookup]
      rfl
    · rw [hchild]
      exact ih
  | item child mem inside ih =>
    rw [canonical, sortKeys_arr]
    exact .item child (List.mem_map_of_mem mem) ih

/-! ## What is left of the keywords of OpenAPI 3.0 -/

/-- What is below data is data. -/
theorem at_data {k l : Kind} {n : Mode} {v : Json F} {s : List (String × Json F)} (h : At k .data v l n s) : n = .data := by
  generalize hm : Mode.data = m at h
  induction h with
  | here k m fields => rfl
  | field child object lookup inside ih =>
    subst hm
    exact ih rfl
  | item child mem inside ih =>
    subst hm
    exact ih rfl

/-- A Schema Object of OpenAPI 3.0 that a walker does not read as a schema. -/
def Missed (k : Kind) (m : Mode) (v : Json F) : Prop :=
  ∃ m' s, At k m v .schema m' s ∧ oldKeyword s = true ∧ m' ≠ .schema

/-- A field in which something is missed. -/
theorem Missed.field {k k' : Kind} {m : Mode} {fields : List (String × Json F)} {key : String} {v : Json F}
    (child : k.child key = some k') (object : isReference k fields = false) (lookup : fields.lookup key = some v)
    (h : Missed k' (m.child key v) v) : Missed k m (.obj fields) := by
  obtain ⟨m', s, hat, hold, hne⟩ := h
  exact ⟨m', s, .field child object lookup hat, hold, hne⟩

theorem missed_of_same {k : Kind} {n n' : Mode} {v : Json F} {s : List (String × Json F)} (h : At k n v .schema n' s)
    (hold : oldKeyword s = true) : Missed k .data v := by
  obtain ⟨m', hm'⟩ := at_mode h .data
  refine ⟨m', s, hm', hold, ?_⟩
  rw [at_data hm']
  decide

theorem missed_of_data {k : Kind} {n n' : Mode} {v : Json F} {s : List (String × Json F)}
    (h : At k n (canonical v) .schema n' s) (hold : oldKeyword s = true) : Missed k .data v := by
  obtain ⟨s', hs', rfl⟩ := at_canonical h
  exact missed_of_same hs' ((oldKeyword_sorted s').symm.trans hold)

/-- The fields of a schema that the grammar goes through are kept. -/
theorem unchanged_of_child {k k' : Kind} {key : String} (hfits : fits k .schema = true) (hchild : k.child key = some k')
    (fields : List (String × Json F)) : changed fields key = false := by
  have hkeys : ∀ k : Kind, fits k .schema = true → ∀ f ∈ k.fields,
      f.1 ∉ ["nullable", "exclusiveMinimum", "exclusiveMaximum", "minimum", "maximum", "type"] := by
    intro k
    cases k <;> decide
  unfold Kind.child at hchild
  split at hchild
  · next k'' hmember =>
    rw [fits, hmember] at hfits
    cases hfits
  · have hnot := hkeys k hfits _ (mem_of_lookup hchild)
    simp only [List.mem_cons, List.not_mem_nil, or_false, not_or] at hnot
    obtain ⟨h₁, h₂, h₃, h₄, h₅, h₆⟩ := hnot
    simp [changed, h₁, h₂, h₃, h₄, h₅, h₆]

/-- Only a schema has alternatives. -/
theorem schema_of_anyOf {k k' : Kind} (hfits : fits k .schema = true) (hchild : k.child "anyOf" = some k') :
    k = .schema ∧ k' = .schemaList := by
  cases k <;> first
    | exact absurd hfits (by decide)
    | exact ⟨rfl, (Option.some.inj hchild).symm⟩
    | cases hchild

variable [DocumentFloat F]

theorem Kept.isSome {from30 : Bool} {m : Mode} {fields ws : List (String × Json F)} {key : String}
    (h : Kept from30 m fields ws key) : (ws.lookup key).isSome = (fields.lookup key).isSome := by
  rcases h with ⟨hfields, hws⟩ | ⟨v, w, hfields, hws, -⟩
  · rw [hfields, hws]
  · rw [hfields, hws]
    rfl

theorem Kept.isReference {from30 : Bool} {m : Mode} {fields ws : List (String × Json F)}
    (h : Kept from30 m fields ws "$ref") (k : Kind) : isReference k ws = isReference k fields := by
  rw [OpenApi.isReference, OpenApi.isReference, h.isSome]

theorem oldKeyword_of_kept {from30 : Bool} {m : Mode} {fields ws : List (String × Json F)}
    (hkept : ∀ key, Kept from30 m fields ws key) (hold : oldKeyword ws = true) : oldKeyword fields = true := by
  have hflag : ∀ key, (boundFlag ws key).isSome = true → (boundFlag fields key).isSome = true := by
    intro key h
    obtain ⟨b, hb⟩ := Option.isSome_iff_exists.mp h
    rw [(hkept key).boundFlag hb]
    rfl
  simp only [oldKeyword, Bool.or_eq_true, (hkept "nullable").isSome] at hold ⊢
  rcases hold with (hnullable | hmin) | hmax
  · exact Or.inl (Or.inl hnullable)
  · exact Or.inl (Or.inr (hflag _ hmin))
  · exact Or.inr (hflag _ hmax)

omit [DocumentFloat F] in
/-- The schema of `null` has no keyword of OpenAPI 3.0. -/
theorem null_clean {s : List (String × Json F)} (hold : oldKeyword s = true) {n n' : Mode} :
    ¬ At .schema n (.obj [("type", .str "null")]) .schema n' s := by
  intro h
  rcases at_obj.mp h with ⟨-, -, rfl⟩ | ⟨key, k', w', child, -, lookup, -⟩
  · cases (rfl : oldKeyword [("type", (Json.str "null" : Json F))] = false).symm.trans hold
  · rw [lookup_cons_if] at lookup
    split at lookup
    · next hkey =>
      subst hkey
      cases child
    · cases lookup

/-- **Nothing is left but what is missed.** -/
theorem missed_of_left (v : Json F) : ∀ {k : Kind} {m n n' : Mode} {w : Json F} {s : List (String × Json F)},
    normalize true m v = some w → fits k m = true → At k n w .schema n' s → oldKeyword s = true → Missed k m v := by
  induction v using Json.induction with
  | null | bool b | int i | float x | str t =>
    intro k m n n' w s hw _ hat
    cases hw
    cases hat
  | arr items ih =>
    intro k m n n' w s hw hfits hat hold
    rw [normalize] at hw
    split at hw
    · next hdata =>
      subst hdata
      obtain rfl := Option.some.inj hw
      exact missed_of_data hat hold
    · split at hw
      · next mi hitem =>
        obtain ⟨ws, hws, rfl⟩ := Option.map_eq_some_iff.mp hw
        obtain ⟨k', child, w, hmem, hinside⟩ := at_arr.mp hat
        obtain ⟨v, hv, hvw⟩ := forall₂_mem_right (normalizeAll_eq hws) hmem
        have hmode : m.itemMode = mi := by rw [Mode.itemMode, hitem]; rfl
        have hfits' := fits_item hfits child
        rw [hmode] at hfits'
        obtain ⟨m', s', hat', hold', hne⟩ := ih v hv hvw hfits' hinside hold
        refine ⟨m', s', .item child hv ?_, hold', hne⟩
        rw [hmode]
        exact hat'
      · next hitem =>
        obtain rfl := Option.some.inj hw
        obtain ⟨k', child, v, hmem, hinside⟩ := at_arr.mp hat
        obtain ⟨m', s', hat', hold', hne⟩ := missed_of_same hinside hold
        refine ⟨m', s', .item child hmem ?_, hold', hne⟩
        rw [Mode.itemMode, hitem]
        exact hat'
  | obj fields ih =>
    intro k m n n' w s hw hfits hat hold
    -- a field of the normal form comes from the field under the same key
    have hfield : ∀ {ws : List (String × Json F)} {key : String} {k' : Kind} {w' : Json F} {n₁ n₂ : Mode},
        Kept true m fields ws "$ref" → Kept true m fields ws key → k.child key = some k' → isReference k ws = false →
        ws.lookup key = some w' → At k' n₁ w' .schema n₂ s → Missed k m (.obj fields) := by
      intro ws key k' w' n₁ n₂ href hkept child object lookup inside
      rcases hkept with ⟨-, hnone⟩ | ⟨v, w'', hv, hw'', hnormal⟩
      · rw [hnone] at lookup
        cases lookup
      · obtain rfl := Option.some.inj (hw''.symm.trans lookup)
        exact .field child ((href.isReference k).symm.trans object) hv
          (ih _ (mem_of_lookup hv) hnormal (fits_child v hfits child) inside hold)
    by_cases hdata : m = .data
    · subst hdata
      rw [normalize, if_pos rfl] at hw
      obtain rfl := Option.some.inj hw
      exact missed_of_data hat hold
    · by_cases hschema : m = .schema
      · subst hschema
        obtain ⟨ws, himage, hw⟩ := normalize_schema hw
        have href : Kept true .schema fields ws "$ref" := himage.kept "$ref" (by simp [changed])
        have hbare : ∀ {n₁ n₂ : Mode}, At k n₁ (.obj ws) .schema n₂ s → Missed k .schema (.obj fields) := by
          intro n₁ n₂ h
          rcases at_obj.mp h with ⟨-, -, rfl⟩ | ⟨key, k', w', child, object, lookup, inside⟩
          · rw [himage.noOldKeyword] at hold
            cases hold
          · exact hfield href (himage.kept key (unchanged_of_child hfits child fields)) child object lookup inside
        split at hw
        · subst hw
          rcases at_obj.mp hat with ⟨-, -, rfl⟩ | ⟨key, k', w', child, -, lookup, inside⟩
          · cases (rfl : oldKeyword [("anyOf", Json.arr [Json.obj ws, .obj [("type", .str "null")]])] = false).symm.trans hold
          · rw [lookup_cons_if] at lookup
            split at lookup
            · next hkey =>
              subst hkey
              obtain ⟨rfl, rfl⟩ := schema_of_anyOf hfits child
              obtain rfl := Option.some.inj lookup
              obtain ⟨k', child', v, hmem, hinside⟩ := at_arr.mp inside
              obtain rfl := Option.some.inj child'
              rcases List.mem_cons.mp hmem with rfl | hmem
              · exact hbare hinside
              · obtain rfl := List.mem_singleton.mp hmem
                exact absurd hinside (null_clean hold)
            · cases lookup
        · subst hw
          exact hbare hat
      · obtain ⟨ws, rfl, -, hkept⟩ := normalize_object (fun h => absurd h hschema) hdata hw
        rcases at_obj.mp hat with ⟨rfl, -, rfl⟩ | ⟨key, k', w', child, object, lookup, inside⟩
        · exact ⟨m, fields, .here _ _ _, oldKeyword_of_kept hkept hold, hschema⟩
        · exact hfield (hkept "$ref") (hkept key) child object lookup inside

/-- No object of the grammar but a schema has a field `nullable`; a Reference Object and a
map of the author's names may have one. -/
def NoStrayNullable (k : Kind) (m : Mode) (v : Json F) : Prop :=
  ∀ k' m' s, At k m v k' m' s → k'.member = none → k'.item = none → k' ≠ .schema → isReference k' s = false →
    s.lookup "nullable" = none

theorem kept_of_oldKeyword {from30 : Bool} {m : Mode} {fields ws : List (String × Json F)}
    (hkept : ∀ key, Kept from30 m fields ws key) (hold : oldKeyword fields = true) : oldKeyword ws = true := by
  have hflag : ∀ key, (boundFlag fields key).isSome = true → (boundFlag ws key).isSome = true := by
    intro key h
    obtain ⟨b, hb⟩ := Option.isSome_iff_exists.mp h
    rw [boundFlag_eq] at hb
    rcases hkept key with ⟨hnone, -⟩ | ⟨v, w, hv, hw, hnormal⟩
    · rw [hnone] at hb
      cases hb
    · obtain rfl := Option.some.inj (hv.symm.trans hb)
      cases hnormal
      rw [boundFlag_eq.mpr hw]
      rfl
  simp only [oldKeyword, Bool.or_eq_true, (hkept "nullable").isSome] at hold ⊢
  rcases hold with (hnullable | hmin) | hmax
  · exact Or.inl (Or.inl hnullable)
  · exact Or.inl (Or.inr (hflag _ hmin))
  · exact Or.inr (hflag _ hmax)

/-- Something is left in a value. -/
def Left (k : Kind) (w : Json F) : Prop := ∃ n n' s, At k n w .schema n' s ∧ oldKeyword s = true

omit [DocumentFloat F] in
theorem Left.field {k k' : Kind} {fields : List (String × Json F)} {key : String} {w : Json F}
    (child : k.child key = some k') (object : isReference k fields = false) (lookup : fields.lookup key = some w)
    (h : Left k' w) : Left k (.obj fields) := by
  obtain ⟨n, n', s, hat, hold⟩ := h
  obtain ⟨n'', hat'⟩ := at_mode hat (Mode.child .data key w)
  exact ⟨.data, n'', s, .field child object lookup hat', hold⟩

omit [DocumentFloat F] in
theorem Left.item {k k' : Kind} {items : List (Json F)} {w : Json F} (child : k.item = some k') (mem : w ∈ items)
    (h : Left k' w) : Left k (.arr items) := by
  obtain ⟨n, n', s, hat, hold⟩ := h
  obtain ⟨n'', hat'⟩ := at_mode hat (Mode.itemMode .data)
  exact ⟨.data, n'', s, .item child mem hat', hold⟩

/-- **What is missed is left.** -/
theorem left_of_missed {k l : Kind} {m n : Mode} {v : Json F} {s : List (String × Json F)} (hat : At k m v l n s)
    (hl : l = .schema) (hold : oldKeyword s = true) (hne : n ≠ .schema) :
    ∀ {w : Json F}, normalize true m v = some w → fits k m = true → NoStrayNullable k m v → Left k w := by
  have hdata : ∀ {k : Kind} {n' : Mode} {v w : Json F}, At k .data v l n' s → normalize true .data v = some w →
      Left k w := by
    intro k n' v w h hw
    rw [canonical_of_data] at hw
    cases hw
    subst hl
    exact ⟨_, _, _, canonical_at h, (oldKeyword_sorted s).trans hold⟩
  induction hat with
  | here k m fields =>
    intro w hw _ _
    by_cases hm : m = .data
    · subst hm
      exact hdata (.here _ _ _) hw
    · obtain ⟨ws, rfl, -, hkept⟩ := normalize_object (fun h => absurd h hne) hm hw
      subst hl
      exact ⟨m, m, ws, .here _ _ _, kept_of_oldKeyword hkept hold⟩
  | @field k k' l m n fields s key v child object lookup inside ih =>
    intro w hw hfits hstray
    have hinside : NoStrayNullable k' (m.child key v) v := fun k₁ m₁ s₁ h =>
      hstray k₁ m₁ s₁ (.field child object lookup h)
    -- the field under the key is left in the fields of the normal form
    have hfield : ∀ {ws : List (String × Json F)}, Kept true m fields ws "$ref" → Kept true m fields ws key →
        Left k (.obj ws) := by
      intro ws href hkept
      rcases hkept with ⟨hnone, -⟩ | ⟨v', w', hv', hw', hnormal⟩
      · rw [hnone] at lookup
        cases lookup
      · obtain rfl := Option.some.inj (hv'.symm.trans lookup)
        exact .field child ((href.isReference k).trans object) hw'
          (ih hl hold hne hdata hnormal (fits_child v' hfits child) hinside)
    by_cases hm : m = .data
    · subst hm
      exact hdata (.field child object lookup inside) hw
    · by_cases hschema : m = .schema
      · subst hschema
        obtain ⟨ws, himage, hw⟩ := normalize_schema hw
        have hbare := hfield (himage.kept "$ref" (by simp [changed]))
          (himage.kept key (unchanged_of_child hfits child fields))
        by_cases hwraps : wraps fields = true
        · rw [hwraps, if_pos rfl] at hw
          subst hw
          -- only a schema is wrapped: the other objects have no `nullable`
          have hk : k = .schema := by
            by_contra hk
            have hobject : k.member = none ∧ k.item = none := by
              simpa [fits] using hfits
            have hnone := hstray k .schema fields (.here _ _ _) hobject.1 hobject.2 hk object
            rw [wraps, isNullable, hnone] at hwraps
            cases hwraps
          subst hk
          have hchild : Kind.child .schema "anyOf" = some .schemaList := rfl
          have hitem : Kind.item .schemaList = some .schema := rfl
          have hlookup : [("anyOf", Json.arr [Json.obj ws, .obj [("type", .str "null")]])].lookup "anyOf" =
              some (.arr [.obj ws, .obj [("type", .str "null")]]) := rfl
          exact .field hchild rfl hlookup (.item hitem List.mem_cons_self hbare)
        · rw [if_neg hwraps] at hw
          subst hw
          exact hbare
      · obtain ⟨ws, rfl, -, hkept⟩ := normalize_object (fun h => absurd h hschema) hm hw
        exact hfield (hkept "$ref") (hkept key)
  | @item k k' l m n items s v child mem inside ih =>
    intro w hw hfits hstray
    have hinside : NoStrayNullable k' m.itemMode v := fun k₁ m₁ s₁ h => hstray k₁ m₁ s₁ (.item child mem h)
    rw [normalize] at hw
    split at hw
    · next hm =>
      subst hm
      exact hdata (.item child mem inside) ((canonical_of_data _).trans hw)
    · split at hw
      · next mi hitem =>
        have hmode : m.itemMode = mi := by rw [Mode.itemMode, hitem]; rfl
        obtain ⟨ws, hws, rfl⟩ := Option.map_eq_some_iff.mp hw
        obtain ⟨w', hmem, hnormal⟩ := forall₂_mem_left (normalizeAll_eq hws) mem
        have hfits' := fits_item hfits child
        rw [← hmode] at hnormal
        exact .item child hmem (ih hl hold hne hdata hnormal hfits' hinside)
      · obtain rfl := Option.some.inj hw
        subst hl
        exact ⟨m, n, s, .item child mem inside, hold⟩

/-! ## Accepted documents -/

omit [DocumentFloat F] in
/-- The version at the root does not matter for what stands where. -/
theorem at_root {ws : List (String × Json F)} (version : Json F) {l : Kind} {n : Mode} {s : List (String × Json F)}
    (hl : l ≠ .document) :
    At .document .root (.obj (Json.setField "openapi" version ws)) l n s ↔ At .document .root (.obj ws) l n s := by
  have hlookup : ∀ key k', Kind.child .document key = some k' →
      (Json.setField "openapi" version ws).lookup key = ws.lookup key := by
    intro key k' hchild
    rw [lookup_setField, if_neg]
    rintro rfl
    cases hchild
  rw [at_obj, at_obj]
  refine or_congr (iff_of_false (fun h => hl h.1.symm) fun h => hl h.1.symm) ?_
  refine exists_congr fun key => exists_congr fun k' => exists_congr fun v => and_congr_right fun hchild => ?_
  rw [hlookup key k' hchild]
  exact and_congr_left fun _ => iff_of_true rfl rfl

/-- **Completeness.**  The normalised document of an OpenAPI 3.0.3 document has no keyword
of OpenAPI 3.0 in a Schema Object exactly when the walkers read every Schema Object with
such a keyword as a schema. -/
theorem normalization_complete_iff (host : Host F) (filename : String) (content : ByteArray)
    (previous : List PreviousOperation) (parsed : NormalizedOpenAPI F)
    (h : parseAndNormalizeOpenapi host filename content previous = .ok parsed) (hversion : parsed.sourceVersion = "3.0.3")
    (hvalidator : host.validateSpec parsed.sourceDocument = none →
      NoStrayNullable .document .root parsed.sourceDocument) :
    (∀ m s, At .document .root parsed.document .schema m s → oldKeyword s = false) ↔
      ∀ m s, At .document .root parsed.sourceDocument .schema m s → oldKeyword s = true → m = .schema := by
  have haccepted := parse_accepted h
  obtain ⟨ws, hnormal, hdocument⟩ := haccepted.normal
  rw [hversion, decide_eq_true rfl] at hnormal
  constructor
  · intro hclean m s hat hold
    by_contra hne
    obtain ⟨n, n', s', hat', hold'⟩ := left_of_missed hat rfl hold hne hnormal rfl
      (hvalidator haccepted.read.valid)
    obtain ⟨n₂, hroot⟩ := at_mode hat' .root
    have hfinal := canonical_at ((at_root (.str "3.1.0") (by decide)).mpr hroot)
    rw [← hdocument] at hfinal
    have hnone := hclean _ _ hfinal
    rw [oldKeyword_sorted, hold'] at hnone
    cases hnone
  · intro hread m s hat
    cases hold : oldKeyword s with
    | false => rfl
    | true =>
      rw [hdocument] at hat
      obtain ⟨s', hs', rfl⟩ := at_canonical hat
      rw [oldKeyword_sorted] at hold
      obtain ⟨m', s₂, hat₂, hold₂, hne⟩ := missed_of_left parsed.sourceDocument hnormal rfl
        ((at_root (.str "3.1.0") (by decide)).mp hs') hold
      exact absurd (hread m' s₂ hat₂ hold₂) hne

/-- A nullable schema in the response `200`. -/
def nullablePet : Json Empty :=
  petDocument [("200", petResponse (.obj [("type", .str "string"), ("nullable", .bool true)]))] []

theorem nullablePet_complete :
    ∃ parsed, parsePet nullablePet = .ok parsed ∧
      ((∀ m s, At .document .root parsed.document .schema m s → oldKeyword s = false) ↔
        ∀ m s, At .document .root parsed.sourceDocument .schema m s → oldKeyword s = true → m = .schema) := by
  have hchecked : accepts nullablePet (fun parsed => decide (parsed.sourceVersion = "3.0.3") &&
      (objects .document .root parsed.sourceDocument).all fun o => (o.2.2.lookup "nullable").isNone || o.1 = Kind.schema) =
      true := by
    decide +kernel
  obtain ⟨parsed, hparsed, h⟩ := accepts_ok hchecked
  rw [Bool.and_eq_true, decide_eq_true_eq, List.all_eq_true] at h
  refine ⟨parsed, hparsed, normalization_complete_iff plainHost _ _ _ parsed hparsed h.1 fun _ => ?_⟩
  intro k m s hat _ _ hk _
  have hclean := h.2 _ (mem_objects.mpr hat)
  rw [Bool.or_eq_true, decide_eq_true_eq] at hclean
  exact Option.isNone_iff_eq_none.mp (hclean.resolve_right hk)

/-- **The response `default` is taken for data**, and its schema stays `nullable`. -/
theorem default_response_kept :
    ∃ parsed, parsePet (petDocument
        [("default", petResponse (.obj [("type", .str "string"), ("nullable", .bool true)]))] []) = .ok parsed ∧
      parsed.sourceVersion = "3.0.3" ∧
      ∃ m s, At .document .root parsed.document .schema m s ∧ oldKeyword s = true := by
  have hchecked : accepts (petDocument
      [("default", petResponse (.obj [("type", .str "string"), ("nullable", .bool true)]))] []) (fun parsed =>
        decide (parsed.sourceVersion = "3.0.3") &&
          (objects .document .root parsed.document).any fun o => decide (o.1 = Kind.schema) && oldKeyword o.2.2) =
      true := by
    decide +kernel
  obtain ⟨parsed, hparsed, h⟩ := accepts_ok hchecked
  rw [Bool.and_eq_true, decide_eq_true_eq, List.any_eq_true] at h
  obtain ⟨hversion, ⟨k, m, s⟩, hmem, hold⟩ := h
  rw [Bool.and_eq_true, decide_eq_true_eq] at hold
  obtain ⟨hk, hold⟩ := hold
  subst hk
  exact ⟨parsed, hparsed, hversion, m, s, mem_objects.mp hmem, hold⟩

end CodexMemory.OpenApi
