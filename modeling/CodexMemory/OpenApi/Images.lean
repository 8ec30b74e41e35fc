import CodexMemory.Json.Sorted
import CodexMemory.OpenApi.Modes

/-!
# What becomes of the fields of an object

Outside schemas every field stays under its key, with its normal form.  In a
schema of OpenAPI 3.0 some fields are left out or changed (`Changed`), and a
schema that is `nullable` without a type is wrapped in `anyOf` (`Wraps`).
`normalize_schema` says this of every schema.
-/

namespace CodexMemory.OpenApi

open Json (lookup_cons_if)

variable {F : Type}

/-! ## Lookups -/

theorem forall₂_mem_right {α β : Type} {R : α → β → Prop} {as : List α} {bs : List β} (h : List.Forall₂ R as bs) {b : β}
    (hb : b ∈ bs) : ∃ a ∈ as, R a b := by
  induction h with
  | nil => cases hb
  | @cons a b' as bs hab _ ih =>
    rcases List.mem_cons.mp hb with rfl | hrest
    · exact ⟨a, List.mem_cons_self, hab⟩
    · obtain ⟨a', ha', hR⟩ := ih hrest
      exact ⟨a', List.mem_cons_of_mem _ ha', hR⟩

theorem forall₂_mem_left {α β : Type} {R : α → β → Prop} {as : List α} {bs : List β} (h : List.Forall₂ R as bs) {a : α}
    (ha : a ∈ as) : ∃ b ∈ bs, R a b := by
  induction h with
  | nil => cases ha
  | @cons a' b as bs hab _ ih =>
    rcases List.mem_cons.mp ha with rfl | hrest
    · exact ⟨b, List.mem_cons_self, hab⟩
    · obtain ⟨b', hb', hR⟩ := ih hrest
      exact ⟨b', List.mem_cons_of_mem _ hb', hR⟩

/-- What holds of any two items in order holds of what belongs to them. -/
theorem pairwise_of_forall₂ {α β : Type} {P : α → β → Prop} {R : α → α → Prop} {S : β → β → Prop}
    (h : ∀ {a b a' b'}, P a b → P a' b' → R a a' → S b b') {as : List α} {bs : List β} (hall : List.Forall₂ P as bs)
    (has : as.Pairwise R) : bs.Pairwise S := by
  induction hall with
  | nil => exact .nil
  | @cons a b as bs hab hrest ih =>
    rw [List.pairwise_cons] at has
    refine List.pairwise_cons.mpr ⟨fun b' hb' => ?_, ih has.2⟩
    obtain ⟨a', ha', hab'⟩ := forall₂_mem_right hrest hb'
    exact h hab hab' (has.1 a' ha')

theorem lookup_setField (key : String) (value : Json F) (fields : List (String × Json F)) (k : String) :
    (Json.setField key value fields).lookup k = if k = key then some value else fields.lookup k := by
  induction fields with
  | nil => exact lookup_cons_if key value [] k
  | cons field rest ih =>
    obtain ⟨k', v⟩ := field
    rw [Json.setField]
    by_cases hk' : k' = key
    · rw [if_pos hk', lookup_cons_if, lookup_cons_if, hk']
      by_cases h : k = key
      · rw [if_pos h, if_pos h]
      · rw [if_neg h, if_neg h, if_neg h]
    · rw [if_neg hk', lookup_cons_if, lookup_cons_if, ih]
      by_cases h : k = k'
      · rw [if_pos h, if_pos h, if_neg fun he => hk' (h.symm.trans he)]
      · rw [if_neg h, if_neg h]

theorem lookup_popField (key : String) (fields : List (String × Json F)) (k : String) :
    (popField key fields).lookup k = if k = key then none else fields.lookup k := by
  induction fields with
  | nil => rw [popField, List.filter_nil, List.lookup_nil, ite_self]
  | cons field rest ih =>
    obtain ⟨k', v⟩ := field
    rw [popField] at ih ⊢
    rw [List.filter_cons]
    by_cases hk' : k' = key
    · rw [if_neg (by simp [hk']), ih, lookup_cons_if]
      by_cases h : k = key
      · rw [if_pos h, if_pos h]
      · rw [if_neg h, if_neg h, if_neg fun he => h (he.trans hk')]
    · rw [if_pos (by simp [hk']), lookup_cons_if, lookup_cons_if, ih]
      by_cases h : k = k'
      · rw [if_pos h, if_pos h, if_neg fun he => hk' (h.symm.trans he)]
      · rw [if_neg h, if_neg h]

section

variable [DocumentFloat F] {from30 : Bool}

/-! ## Lists of fields -/

theorem normalizeAll_eq {m : Mode} {items ws : List (Json F)} (h : normalizeAll from30 m items = some ws) :
    List.Forall₂ (fun v w => normalize from30 m v = some w) items ws := by
  induction items generalizing ws with
  | nil =>
    cases h
    exact .nil
  | cons v rest ih =>
    rw [normalizeAll] at h
    obtain ⟨w, hw, h⟩ := Option.bind_eq_some_iff.mp h
    obtain ⟨ws', hws', h⟩ := Option.bind_eq_some_iff.mp h
    cases h
    exact .cons hw (ih hws')

/-- The field `key` has its normal form under the same key. -/
def Kept (from30 : Bool) (m : Mode) (fields ws : List (String × Json F)) (key : String) : Prop :=
  (fields.lookup key = none ∧ ws.lookup key = none) ∨
    ∃ v w, fields.lookup key = some v ∧ ws.lookup key = some w ∧ normalize from30 (m.child key v) v = some w

theorem normalizeEach_lookup {m : Mode} {fields ws : List (String × Json F)}
    (h : normalizeEach from30 m fields = some ws) (key : String) :
    (dropped from30 m key = true → ws.lookup key = none) ∧
      (dropped from30 m key = false → Kept from30 m fields ws key) := by
  induction fields generalizing ws with
  | nil =>
    cases h
    exact ⟨fun _ => rfl, fun _ => Or.inl ⟨rfl, rfl⟩⟩
  | cons field rest ih =>
    obtain ⟨k, v⟩ := field
    rw [normalizeEach] at h
    cases hdropped : dropped from30 m k with
    | true =>
      rw [hdropped, if_pos rfl] at h
      refine ⟨(ih h).1, fun hkey => ?_⟩
      have hne : key ≠ k := by
        rintro rfl
        rw [hdropped] at hkey
        cases hkey
      rw [Kept, List.lookup_cons, beq_false_of_ne hne]
      exact (ih h).2 hkey
    | false =>
      rw [hdropped, if_neg Bool.false_ne_true] at h
      obtain ⟨w, hw, h⟩ := Option.bind_eq_some_iff.mp h
      obtain ⟨ws', hws', h⟩ := Option.bind_eq_some_iff.mp h
      cases h
      by_cases hkey : key = k
      · subst hkey
        refine ⟨fun hd => ?_, fun _ => Or.inr ⟨v, w, ?_, ?_, hw⟩⟩
        · rw [hdropped] at hd
          cases hd
        · rw [List.lookup_cons, beq_self_eq_true]
        · rw [List.lookup_cons, beq_self_eq_true]
      · rw [Kept, List.lookup_cons, List.lookup_cons, beq_false_of_ne hkey]
        exact ih hws'

end

/-! ## Fields of a schema -/

/-- The flag of an exclusive bound. -/
def boundFlag (fields : List (String × Json F)) (exclusive : String) : Option Bool :=
  match fields.lookup exclusive with
  | some (.bool b) => some b
  | _ => none

def isNullable (fields : List (String × Json F)) : Bool :=
  match fields.lookup "nullable" with
  | some (.bool b) => b
  | _ => false

/-- The type of a schema: a name or a list. -/
def hasType (fields : List (String × Json F)) : Bool :=
  match fields.lookup "type" with
  | some (.str _) => true
  | some (.arr _) => true
  | _ => false

/-- The schema is wrapped in `anyOf`. -/
def wraps (fields : List (String × Json F)) : Bool := isNullable fields && !hasType fields

/-- The fields of a schema of OpenAPI 3.0 that are left out or changed. -/
def changed (fields : List (String × Json F)) (key : String) : Bool :=
  key = "nullable" ||
  (key = "exclusiveMinimum" && (boundFlag fields "exclusiveMinimum").isSome) ||
  (key = "exclusiveMaximum" && (boundFlag fields "exclusiveMaximum").isSome) ||
  (key = "minimum" && boundFlag fields "exclusiveMinimum" = some true) ||
  (key = "maximum" && boundFlag fields "exclusiveMaximum" = some true) ||
  (key = "type" && isNullable fields && hasType fields)

/-- The keyword `nullable`, or a boolean `exclusiveMinimum` or `exclusiveMaximum`. -/
def oldKeyword (fields : List (String × Json F)) : Bool :=
  (fields.lookup "nullable").isSome || (boundFlag fields "exclusiveMinimum").isSome ||
    (boundFlag fields "exclusiveMaximum").isSome

theorem boundFlag_eq {fields : List (String × Json F)} {exclusive : String} {b : Bool} :
    boundFlag fields exclusive = some b ↔ fields.lookup exclusive = some (.bool b) := by
  unfold boundFlag
  split
  · next b' hlookup => rw [hlookup, Option.some.injEq, Option.some.injEq, Json.bool.injEq]
  · next hother =>
    refine iff_of_false nofun fun h => ?_
    exact hother b h

theorem boundFlag_sorted (fields : List (String × Json F)) (exclusive : String) :
    boundFlag (Json.sortedFields fields) exclusive = boundFlag fields exclusive := by
  rw [boundFlag, boundFlag, Json.lookup_sorted]
  cases fields.lookup exclusive with
  | none => rfl
  | some v => cases v <;> rfl

theorem isNullable_eq {fields : List (String × Json F)} :
    isNullable fields = true ↔ fields.lookup "nullable" = some (.bool true) := by
  unfold isNullable
  split
  · next b hlookup => rw [hlookup, Option.some.injEq, Json.bool.injEq]
  · next hother => exact iff_of_false Bool.false_ne_true (hother true)

section

variable [DocumentFloat F]

/-- A bound that the walker takes. -/
inductive BoundNumber : Json F → Prop
  | int (n : Int) : BoundNumber (.int n)
  | float (x : F) (finite : DocumentFloat.isFinite x = true) : BoundNumber (.float x)

theorem boundNumber_eq {path : String} {bound : Option (Json F)} {number : Json F}
    (h : boundNumber path bound = .ok number) : bound = some number ∧ BoundNumber number := by
  unfold boundNumber at h
  split at h
  · next n =>
    split at h
    · cases h
    · cases h
      exact ⟨rfl, .int n⟩
  · next x =>
    split at h
    · next hfinite =>
      cases h
      exact ⟨rfl, .float x hfinite⟩
    · cases h
  · cases h

/-- What a round of the loop over the bounds leaves. -/
inductive BoundImage (fields normalized : List (String × Json F)) (bound exclusive : String) :
    List (String × Json F) → Prop
  | same (flag : boundFlag fields exclusive = none) : BoundImage fields normalized bound exclusive normalized
  | removed (flag : boundFlag fields exclusive = some false) :
      BoundImage fields normalized bound exclusive (popField exclusive normalized)
  | moved (number : Json F) (flag : boundFlag fields exclusive = some true) (lookup : fields.lookup bound = some number)
      (isNumber : BoundNumber number) :
      BoundImage fields normalized bound exclusive (Json.setField exclusive number (popField bound normalized))

theorem exclusiveBound_image {path : String} {fields normalized ws : List (String × Json F)} {bound exclusive : String}
    (h : exclusiveBound path fields bound exclusive normalized = .ok ws) :
    BoundImage fields normalized bound exclusive ws := by
  cases hflag : boundFlag fields exclusive with
  | none =>
    have hother : ∀ b, fields.lookup exclusive ≠ some (.bool b) := fun b hb => by
      rw [boundFlag_eq.mpr hb] at hflag
      cases hflag
    unfold exclusiveBound at h
    split at h
    · next hb => exact absurd hb (hother false)
    · next hb => exact absurd hb (hother true)
    · cases h
      exact .same hflag
  | some b =>
    have hlookup := boundFlag_eq.mp hflag
    cases b with
    | false =>
      rw [exclusiveBound, hlookup] at h
      cases h
      exact .removed hflag
    | true =>
      rw [exclusiveBound, hlookup] at h
      obtain ⟨number, hnumber, h⟩ : ∃ number, boundNumber (childPath path exclusive) (fields.lookup bound) = .ok number ∧
          Except.ok (Json.setField exclusive number (popField bound normalized)) = Except.ok ws := by
        cases hnumber : boundNumber (childPath path exclusive) (fields.lookup bound) with
        | error e =>
          rw [hnumber] at h
          cases h
        | ok number =>
          rw [hnumber] at h
          exact ⟨number, rfl, h⟩
      cases h
      obtain ⟨hbound, hisNumber⟩ := boundNumber_eq hnumber
      exact .moved number hflag hbound hisNumber

/-- The other keys stay as they are. -/
theorem BoundImage.lookup {fields normalized ws : List (String × Json F)} {bound exclusive : String}
    (h : BoundImage fields normalized bound exclusive ws) {key : String}
    (hexclusive : ¬(key = exclusive ∧ (boundFlag fields exclusive).isSome = true))
    (hbound : ¬(key = bound ∧ boundFlag fields exclusive = some true)) : ws.lookup key = normalized.lookup key := by
  cases h with
  | same flag => rfl
  | removed flag =>
    rw [lookup_popField, if_neg]
    rintro rfl
    exact hexclusive ⟨rfl, by rw [flag]; rfl⟩
  | moved number flag lookup isNumber =>
    rw [lookup_setField, lookup_popField, if_neg, if_neg]
    · rintro rfl
      exact hbound ⟨rfl, flag⟩
    · rintro rfl
      exact hexclusive ⟨rfl, by rw [flag]; rfl⟩

/-! ## Objects -/

/-- **Outside schemas** every field is kept. -/
theorem normalize_object {from30 : Bool} {m : Mode} {fields : List (String × Json F)} {w : Json F}
    (hm : m = .schema → from30 = false) (hdata : m ≠ .data) (h : normalize from30 m (.obj fields) = some w) :
    ∃ ws, w = .obj ws ∧ normalizeEach from30 m fields = some ws ∧ ∀ key, Kept from30 m fields ws key := by
  rw [normalize, if_neg hdata] at h
  obtain ⟨ws, hws, h⟩ := Option.bind_eq_some_iff.mp h
  have hw : w = .obj ws := by
    rw [finish] at h
    split at h
    · next hschema =>
      rw [finishSchema, hm hschema] at h
      exact (Option.some.inj h).symm
    · exact (Option.some.inj h).symm
  refine ⟨ws, hw, hws, fun key => (normalizeEach_lookup hws key).2 ?_⟩
  rw [dropped]
  by_cases hschema : m = .schema
  · rw [hm hschema]
    rfl
  · simp [hschema]

/-- What a schema of OpenAPI 3.0 has in the end under the keys of a bound. -/
structure BoundFields (fields ws : List (String × Json F)) (bound exclusive : String) : Prop where
  removed : boundFlag fields exclusive = some false → ws.lookup exclusive = none
  moved : boundFlag fields exclusive = some true → ws.lookup bound = none ∧
    ∃ number, fields.lookup bound = some number ∧ BoundNumber number ∧ ws.lookup exclusive = some number

/-- The fields of the normal form of a schema of OpenAPI 3.0. -/
structure SchemaImage (fields ws : List (String × Json F)) : Prop where
  kept : ∀ key, changed fields key = false → Kept true .schema fields ws key
  nullable : ws.lookup "nullable" = none
  minimum : BoundFields fields ws "minimum" "exclusiveMinimum"
  maximum : BoundFields fields ws "maximum" "exclusiveMaximum"
  typeName : ∀ name, isNullable fields = true → fields.lookup "type" = some (.str name) →
    ws.lookup "type" = some (.arr [.str name, .str "null"])
  typeList : ∀ types, isNullable fields = true → fields.lookup "type" = some (.arr types) →
    ∃ types', normalizeAll true .document types = some types' ∧ ws.lookup "type" = some (.arr (withNull types'))

/-- The wrapped schema. -/
def wrapper (ws : List (String × Json F)) : Json F :=
  .obj [("anyOf", .arr [.obj ws, .obj [("type", .str "null")]])]

theorem boundFields_of_images {fields n₀ n₁ n₂ : List (String × Json F)}
    (hmin : BoundImage fields n₀ "minimum" "exclusiveMinimum" n₁)
    (hmax : BoundImage fields n₁ "maximum" "exclusiveMaximum" n₂) :
    BoundFields fields n₂ "minimum" "exclusiveMinimum" ∧ BoundFields fields n₂ "maximum" "exclusiveMaximum" := by
  have hkeep : ∀ key, key ≠ "maximum" → key ≠ "exclusiveMaximum" → n₂.lookup key = n₁.lookup key :=
    fun key hbound hexclusive => hmax.lookup (fun h => hexclusive h.1) fun h => hbound h.1
  constructor
  · constructor
    · intro hflag
      rw [hkeep _ (by decide) (by decide)]
      cases hmin with
      | same flag => rw [flag] at hflag; cases hflag
      | removed flag => rw [lookup_popField, if_pos rfl]
      | moved number flag lookup isNumber => rw [flag] at hflag; cases hflag
    · intro hflag
      rw [hkeep _ (by decide) (by decide), hkeep _ (by decide) (by decide)]
      cases hmin with
      | same flag => rw [flag] at hflag; cases hflag
      | removed flag => rw [flag] at hflag; cases hflag
      | moved number flag lookup isNumber =>
        refine ⟨?_, number, lookup, isNumber, ?_⟩
        · rw [lookup_setField, if_neg (by decide), lookup_popField, if_pos rfl]
        · rw [lookup_setField, if_pos rfl]
  · constructor
    · intro hflag
      cases hmax with
      | same flag => rw [flag] at hflag; cases hflag
      | removed flag => rw [lookup_popField, if_pos rfl]
      | moved number flag lookup isNumber => rw [flag] at hflag; cases hflag
    · intro hflag
      cases hmax with
      | same flag => rw [flag] at hflag; cases hflag
      | removed flag => rw [flag] at hflag; cases hflag
      | moved number flag lookup isNumber =>
        refine ⟨?_, number, lookup, isNumber, ?_⟩
        · rw [lookup_setField, if_neg (by decide), lookup_popField, if_pos rfl]
        · rw [lookup_setField, if_pos rfl]

theorem finishSchema_images {fields n₀ : List (String × Json F)} {w : Json F}
    (h : finishSchema true "" fields n₀ = .ok w) :
    ∃ n₁ n₂, BoundImage fields n₀ "minimum" "exclusiveMinimum" n₁ ∧
      BoundImage fields n₁ "maximum" "exclusiveMaximum" n₂ ∧
      w = if isNullable fields then nullableSchema n₂ else .obj n₂ := by
  rw [finishSchema, if_pos rfl, exclusiveBounds] at h
  cases hmin : exclusiveBound "" fields "minimum" "exclusiveMinimum" n₀ with
  | error e =>
    rw [hmin] at h
    cases h
  | ok n₁ =>
    cases hmax : exclusiveBound "" fields "maximum" "exclusiveMaximum" n₁ with
    | error e =>
      rw [hmin] at h
      simp only [bind, Except.bind, hmax] at h
      cases h
    | ok n₂ =>
      rw [hmin] at h
      simp only [bind, Except.bind, hmax] at h
      refine ⟨n₁, n₂, exclusiveBound_image hmin, exclusiveBound_image hmax, ?_⟩
      split at h
      · next hnullable =>
        rw [if_pos (isNullable_eq.mpr hnullable)]
        split at h
        · cases h
        · exact (Except.ok.inj h).symm
      · next hother =>
        rw [if_neg fun hnullable => hother (isNullable_eq.mp hnullable)]
        exact (Except.ok.inj h).symm

omit [DocumentFloat F] in
theorem schemaChild_type (v : Json F) : schemaChild "type" v = .document := by
  have hdata : isSchemaData "type" = false := by decide
  have hmap : "type" ∉ schemaMapKeywords := by decide
  have hlist : "type" ∉ schemaListKeywords := by decide
  have hschema : "type" ∉ schemaKeywords := by decide
  rw [schemaChild, hdata, if_neg Bool.false_ne_true, if_neg fun h => hmap h.1, if_neg fun h => hlist h.1,
    if_neg fun h => hschema h.1, if_neg fun h => absurd h.1 (by decide)]

/-- The type of the normalised fields, before `null` is added. -/
theorem nullableSchema_eq {fields n : List (String × Json F)} (htype : Kept true .schema fields n "type") :
    (∀ name, fields.lookup "type" = some (.str name) →
      nullableSchema n = .obj (Json.setField "type" (.arr [.str name, .str "null"]) n)) ∧
    (∀ types, fields.lookup "type" = some (.arr types) → ∃ types', normalizeAll true .document types = some types' ∧
      nullableSchema n = .obj (Json.setField "type" (.arr (withNull types')) n)) ∧
    (hasType fields = false → nullableSchema n = wrapper n) := by
  rcases htype with ⟨hfields, hn⟩ | ⟨v, w, hfields, hn, hw⟩
  · refine ⟨fun name h => ?_, fun types h => ?_, fun _ => ?_⟩
    · rw [hfields] at h
      cases h
    · rw [hfields] at h
      cases h
    · rw [nullableSchema, hn]
      rfl
  · have hw : normalize true .document v = some w := by
      rw [← schemaChild_type v]
      exact hw
    refine ⟨fun name h => ?_, fun types h => ?_, fun h => ?_⟩
    · obtain rfl := Option.some.inj (hfields.symm.trans h)
      cases hw
      rw [nullableSchema, hn]
    · obtain rfl := Option.some.inj (hfields.symm.trans h)
      rw [normalize, if_neg (by decide)] at hw
      obtain ⟨types', htypes, rfl⟩ := Option.map_eq_some_iff.mp hw
      exact ⟨types', htypes, by rw [nullableSchema, hn]⟩
    · rw [hasType, hfields] at h
      rw [nullableSchema, hn]
      cases v with
      | null | bool b | int n | float x =>
        cases hw
        rfl
      | str s => cases h
      | arr items => cases h
      | obj fields' =>
        obtain ⟨ws, rfl, -, -⟩ := normalize_object (m := .document) (by rintro ⟨⟩) (by decide) hw
        rfl

/-- **A schema of OpenAPI 3.0.** -/
theorem normalize_schema {fields : List (String × Json F)} {w : Json F}
    (h : normalize true .schema (.obj fields) = some w) :
    ∃ ws, SchemaImage fields ws ∧ w = if wraps fields then wrapper ws else .obj ws := by
  rw [normalize, if_neg (by decide)] at h
  obtain ⟨n₀, hn₀, h⟩ := Option.bind_eq_some_iff.mp h
  rw [finish, if_pos rfl] at h
  have hfinish : finishSchema true "" fields n₀ = .ok w := by
    cases hresult : finishSchema true "" fields n₀ with
    | error e =>
      rw [hresult] at h
      cases h
    | ok w' =>
      rw [hresult] at h
      rw [Option.some.inj h]
  obtain ⟨n₁, n₂, hmin, hmax, rfl⟩ := finishSchema_images hfinish
  have hkeep : ∀ key, key ≠ "nullable" →
      ¬(key = "exclusiveMinimum" ∧ (boundFlag fields "exclusiveMinimum").isSome = true) →
      ¬(key = "exclusiveMaximum" ∧ (boundFlag fields "exclusiveMaximum").isSome = true) →
      ¬(key = "minimum" ∧ boundFlag fields "exclusiveMinimum" = some true) →
      ¬(key = "maximum" ∧ boundFlag fields "exclusiveMaximum" = some true) → Kept true .schema fields n₂ key := by
    intro key hnullable hemin hemax hmin' hmax'
    have hsame : n₂.lookup key = n₀.lookup key := (hmax.lookup hemax hmax').trans (hmin.lookup hemin hmin')
    rw [Kept, hsame]
    exact (normalizeEach_lookup hn₀ key).2 (by simp [dropped, hnullable])
  have hkept : ∀ key, changed fields key = false → key ≠ "type" → Kept true .schema fields n₂ key := by
    intro key hchanged _
    simp only [changed, Bool.or_eq_false_iff, Bool.and_eq_false_imp, decide_eq_true_eq, decide_eq_false_iff_not] at hchanged
    obtain ⟨⟨⟨⟨⟨hnullable, hemin⟩, hemax⟩, hmin'⟩, hmax'⟩, -⟩ := hchanged
    refine hkeep key hnullable ?_ ?_ (fun h => hmin' h.1 h.2) fun h => hmax' h.1 h.2
    · rintro ⟨hkey, hsome⟩
      rw [hemin hkey] at hsome
      cases hsome
    · rintro ⟨hkey, hsome⟩
      rw [hemax hkey] at hsome
      cases hsome
  have htype : Kept true .schema fields n₂ "type" :=
    hkeep "type" (by decide) (fun h => absurd h.1 (by decide)) (fun h => absurd h.1 (by decide))
      (fun h => absurd h.1 (by decide)) fun h => absurd h.1 (by decide)
  have hnone : n₂.lookup "nullable" = none := by
    have hsame : n₂.lookup "nullable" = n₀.lookup "nullable" :=
      (hmax.lookup (fun h => absurd h.1 (by decide)) fun h => absurd h.1 (by decide)).trans
        (hmin.lookup (fun h => absurd h.1 (by decide)) fun h => absurd h.1 (by decide))
    rw [hsame]
    exact (normalizeEach_lookup hn₀ "nullable").1 (by decide)
  obtain ⟨hminimum, hmaximum⟩ := boundFields_of_images hmin hmax
  -- all but the type is settled; the type is that of `n₂` or is replaced in it
  have himage : ∀ ws, (∀ key, key ≠ "type" → ws.lookup key = n₂.lookup key) →
      (changed fields "type" = false → ws.lookup "type" = n₂.lookup "type") →
      (∀ name, isNullable fields = true → fields.lookup "type" = some (.str name) →
        ws.lookup "type" = some (.arr [.str name, .str "null"])) →
      (∀ types, isNullable fields = true → fields.lookup "type" = some (.arr types) →
        ∃ types', normalizeAll true .document types = some types' ∧ ws.lookup "type" = some (.arr (withNull types'))) →
      SchemaImage fields ws := by
    intro ws hother hsame hname hlist
    refine ⟨fun key hchanged => ?_, ?_, ⟨?_, ?_⟩, ⟨?_, ?_⟩, hname, hlist⟩
    · by_cases hkey : key = "type"
      · subst hkey
        rw [Kept, hsame hchanged]
        exact htype
      · rw [Kept, hother key hkey]
        exact hkept key hchanged hkey
    · rw [hother _ (by decide)]
      exact hnone
    · rw [hother _ (by decide)]
      exact hminimum.removed
    · rw [hother _ (by decide), hother _ (by decide)]
      exact hminimum.moved
    · rw [hother _ (by decide)]
      exact hmaximum.removed
    · rw [hother _ (by decide), hother _ (by decide)]
      exact hmaximum.moved
  have hplain : ∀ value key, key ≠ "type" → (Json.setField "type" value n₂).lookup key = n₂.lookup key :=
    fun value key hkey => by rw [lookup_setField, if_neg hkey]
  obtain ⟨hname, hlist, hwrap⟩ := nullableSchema_eq htype
  cases hnullable : isNullable fields with
  | false =>
    refine ⟨n₂, himage n₂ (fun _ _ => rfl) (fun _ => rfl) ?_ ?_, ?_⟩
    · intro name h
      rw [hnullable] at h
      cases h
    · intro types h
      rw [hnullable] at h
      cases h
    · rw [wraps, hnullable]
      rfl
  | true =>
    have hchanged : hasType fields = true → changed fields "type" = true := fun hhas => by
      simp [changed, hnullable, hhas]
    rw [if_pos rfl]
    cases hhas : hasType fields with
    | false =>
      refine ⟨n₂, himage n₂ (fun _ _ => rfl) (fun _ => rfl) ?_ ?_, ?_⟩
      · intro name _ h
        rw [hasType, h] at hhas
        cases hhas
      · intro types _ h
        rw [hasType, h] at hhas
        cases hhas
      · rw [wraps, hnullable, hhas]
        exact hwrap hhas
    | true =>
      have hwraps : wraps fields = false := by rw [wraps, hnullable, hhas]; rfl
      simp only [hwraps, Bool.false_eq_true, if_false]
      have hnot : changed fields "type" ≠ false := by rw [hchanged hhas]; decide
      unfold hasType at hhas
      split at hhas
      · next name hlookup =>
        refine ⟨_, himage _ (hplain (.arr [.str name, .str "null"])) (fun h => absurd h hnot) ?_ ?_, hname name hlookup⟩
        · intro name' _ h
          obtain rfl := Json.str.inj (Option.some.inj (hlookup.symm.trans h))
          rw [lookup_setField, if_pos rfl]
        · intro types _ h
          rw [hlookup] at h
          cases h
      · next types hlookup =>
        obtain ⟨types', htypes, heq⟩ := hlist types hlookup
        refine ⟨_, himage _ (hplain (.arr (withNull types'))) (fun h => absurd h hnot) ?_ ?_, heq⟩
        · intro name _ h
          rw [hlookup] at h
          cases h
        · intro types₂ _ h
          obtain rfl := Json.arr.inj (Option.some.inj (hlookup.symm.trans h))
          exact ⟨types', htypes, by rw [lookup_setField, if_pos rfl]⟩
      · cases hhas

/-! ## No repeated keys -/

omit [DocumentFloat F] in
theorem unique_popField {key : String} {fields : List (String × Json F)} (h : Json.unique (.obj fields) = true) :
    Json.unique (.obj (popField key fields)) = true := by
  rw [Json.unique_obj] at h ⊢
  refine ⟨h.1.sublist (List.Sublist.map _ List.filter_sublist), fun f hf => h.2 f (List.mem_of_mem_filter hf)⟩

omit [DocumentFloat F] in
theorem unique_setField {key : String} {value : Json F} {fields : List (String × Json F)}
    (hvalue : Json.unique value = true) (h : Json.unique (.obj fields) = true) :
    Json.unique (.obj (Json.setField key value fields)) = true := by
  rw [Json.unique_obj] at h ⊢
  refine ⟨Json.setField_nodup h.1, fun f hf => ?_⟩
  rcases Json.mem_setField hf with rfl | hf
  · exact hvalue
  · exact h.2 f hf

theorem BoundImage.unique {fields normalized ws : List (String × Json F)} {bound exclusive : String}
    (h : BoundImage fields normalized bound exclusive ws) (hunique : Json.unique (.obj normalized) = true) :
    Json.unique (.obj ws) = true := by
  cases h with
  | same flag => exact hunique
  | removed flag => exact unique_popField hunique
  | moved number flag lookup isNumber =>
    refine unique_setField ?_ (unique_popField hunique)
    cases isNumber with
    | int n => rfl
    | float x finite => rfl

omit [DocumentFloat F] in
theorem mem_fromkeys {types : List (Json F)} {t : Json F} (h : t ∈ fromkeys types) : t ∈ types := by
  induction types with
  | nil => exact h
  | cons u rest ih =>
    unfold fromkeys at h
    split at h
    · next heq => cases heq
    · next s rest' heq =>
      cases heq
      rcases List.mem_cons.mp h with rfl | h
      · exact List.mem_cons_self
      · exact List.mem_cons_of_mem _ (ih (List.mem_of_mem_filter h))
    · next t' rest' _ heq =>
      cases heq
      rcases List.mem_cons.mp h with rfl | h
      · exact List.mem_cons_self
      · exact List.mem_cons_of_mem _ (ih h)

omit [DocumentFloat F] in
theorem unique_nullableSchema {n : List (String × Json F)} (h : Json.unique (.obj n) = true) :
    Json.unique (nullableSchema n) = true := by
  have hfields := Json.unique_obj.mp h
  unfold nullableSchema
  split
  · exact unique_setField rfl h
  · next types hlookup =>
    refine unique_setField ?_ h
    have htypes : Json.unique (.arr types) = true := hfields.2 _ (Json.mem_of_lookup hlookup)
    rw [Json.unique, Json.uniqueItems_eq_true] at htypes ⊢
    intro t ht
    rcases List.mem_append.mp (mem_fromkeys ht) with ht | ht
    · exact htypes t ht
    · rw [List.mem_singleton.mp ht]
      rfl
  · have hnull : Json.unique (F := F) (.obj [("type", .str "null")]) = true := rfl
    refine Json.unique_obj.mpr ⟨List.nodup_singleton _, fun f hf => ?_⟩
    rw [List.mem_singleton.mp hf, Json.unique, Json.uniqueItems_eq_true]
    intro t ht
    rcases List.mem_cons.mp ht with rfl | ht
    · exact h
    · rw [List.mem_singleton.mp ht]
      exact hnull

theorem normalizeEach_mem {from30 : Bool} {m : Mode} {fields ws : List (String × Json F)}
    (h : normalizeEach from30 m fields = some ws) :
    List.Sublist (ws.map Prod.fst) (fields.map Prod.fst) ∧
      ∀ f ∈ ws, ∃ g ∈ fields, g.1 = f.1 ∧ normalize from30 (m.child g.1 g.2) g.2 = some f.2 := by
  induction fields generalizing ws with
  | nil =>
    cases h
    exact ⟨List.Sublist.refl _, nofun⟩
  | cons field rest ih =>
    obtain ⟨k, v⟩ := field
    rw [normalizeEach] at h
    split at h
    · obtain ⟨hsub, hmem⟩ := ih h
      refine ⟨hsub.cons k, fun f hf => ?_⟩
      obtain ⟨g, hg, hnormal⟩ := hmem f hf
      exact ⟨g, List.mem_cons_of_mem _ hg, hnormal⟩
    · obtain ⟨w, hw, h⟩ := Option.bind_eq_some_iff.mp h
      obtain ⟨ws', hws', h⟩ := Option.bind_eq_some_iff.mp h
      cases h
      obtain ⟨hsub, hmem⟩ := ih hws'
      refine ⟨hsub.cons_cons k, fun f hf => ?_⟩
      rcases List.mem_cons.mp hf with rfl | hf
      · exact ⟨(k, v), List.mem_cons_self, rfl, hw⟩
      · obtain ⟨g, hg, hnormal⟩ := hmem f hf
        exact ⟨g, List.mem_cons_of_mem _ hg, hnormal⟩

/-- The end of an object: nothing, or the rounds over the bounds and `nullable`. -/
theorem finish_cases {from30 : Bool} {m : Mode} {fields ws : List (String × Json F)} {w : Json F}
    (h : finish from30 m fields ws = some w) :
    w = .obj ws ∨ ∃ n₁ n₂, BoundImage fields ws "minimum" "exclusiveMinimum" n₁ ∧
      BoundImage fields n₁ "maximum" "exclusiveMaximum" n₂ ∧
      w = if isNullable fields then nullableSchema n₂ else .obj n₂ := by
  rw [finish] at h
  split at h
  · cases from30 with
    | false =>
      cases h
      exact Or.inl rfl
    | true =>
      refine Or.inr (finishSchema_images ?_)
      cases hresult : finishSchema true "" fields ws with
      | error e =>
        rw [hresult] at h
        cases h
      | ok w' =>
        rw [hresult] at h
        rw [Option.some.inj h]
  · cases h
    exact Or.inl rfl

theorem finish_unique {from30 : Bool} {m : Mode} {fields ws : List (String × Json F)} {w : Json F}
    (h : finish from30 m fields ws = some w) (hunique : Json.unique (.obj ws) = true) : Json.unique w = true := by
  rcases finish_cases h with rfl | ⟨n₁, n₂, hmin, hmax, rfl⟩
  · exact hunique
  · have hn₂ : Json.unique (.obj n₂) = true := hmax.unique (hmin.unique hunique)
    split
    · exact unique_nullableSchema hn₂
    · exact hn₂

/-- **Normal forms repeat no key.** -/
theorem normalize_unique {from30 : Bool} {m : Mode} {v w : Json F} (h : normalize from30 m v = some w)
    (hunique : Json.unique v = true) : Json.unique w = true := by
  induction v using Json.induction generalizing m w with
  | null | bool b | int n | float x | str s =>
    cases h
    exact hunique
  | arr items ih =>
    rw [normalize] at h
    split at h
    · cases h
      exact Json.unique_sortKeys hunique
    · split at h
      · next n hitem =>
        obtain ⟨ws, hws, rfl⟩ := Option.map_eq_some_iff.mp h
        rw [Json.unique, Json.uniqueItems_eq_true] at hunique ⊢
        intro w hw
        obtain ⟨v, hv, hnormal⟩ := forall₂_mem_right (normalizeAll_eq hws) hw
        exact ih v hv hnormal (hunique v hv)
      · cases h
        exact hunique
  | obj fields ih =>
    rw [normalize] at h
    split at h
    · cases h
      exact Json.unique_sortKeys hunique
    · obtain ⟨ws, hws, h⟩ := Option.bind_eq_some_iff.mp h
      obtain ⟨hsub, hmem⟩ := normalizeEach_mem hws
      rw [Json.unique_obj] at hunique
      refine finish_unique h (Json.unique_obj.mpr ⟨hunique.1.sublist hsub, fun f hf => ?_⟩)
      obtain ⟨g, hg, -, hnormal⟩ := hmem f hf
      exact ih g hg hnormal (hunique.2 g hg)

/-! ## Old keywords -/

/-- Only a value without fields and items has such a normal form, and it is the value. -/
theorem normalize_scalar {from30 : Bool} {m : Mode} {v w : Json F} (h : normalize from30 m v = some w)
    (hobject : w.isObject = false) (hlist : isList w = false) : v = w := by
  cases v with
  | null | bool b | int n | float x | str s => exact Option.some.inj h
  | arr items =>
    rw [normalize] at h
    split at h
    · cases h
      cases hlist
    · split at h
      · obtain ⟨ws, -, rfl⟩ := Option.map_eq_some_iff.mp h
        cases hlist
      · cases h
        cases hlist
  | obj fields =>
    by_cases hdata : m = .data
    · rw [normalize, if_pos hdata] at h
      cases h
      cases hobject
    · by_cases hschema : m = .schema ∧ from30 = true
      · obtain ⟨rfl, rfl⟩ := hschema
        obtain ⟨ws, -, rfl⟩ := normalize_schema h
        split at hobject <;> cases hobject
      · obtain ⟨ws, rfl, -⟩ := normalize_object (fun hm => by
          cases from30 with
          | false => rfl
          | true => exact absurd ⟨hm, rfl⟩ hschema) hdata h
        cases hobject

theorem Kept.boundFlag {from30 : Bool} {m : Mode} {fields ws : List (String × Json F)} {exclusive : String}
    (h : Kept from30 m fields ws exclusive) {b : Bool} (hflag : boundFlag ws exclusive = some b) :
    boundFlag fields exclusive = some b := by
  rw [boundFlag_eq] at hflag ⊢
  rcases h with ⟨-, hws⟩ | ⟨v, w, hv, hw, hnormal⟩
  · rw [hws] at hflag
    cases hflag
  · obtain rfl := Option.some.inj (hw.symm.trans hflag)
    rw [hv, normalize_scalar hnormal rfl rfl]

theorem BoundFields.noFlag {fields ws : List (String × Json F)} {bound exclusive : String}
    (h : BoundFields fields ws bound exclusive)
    (hkept : boundFlag fields exclusive = none → Kept true .schema fields ws exclusive) : boundFlag ws exclusive = none := by
  cases hflag : boundFlag ws exclusive with
  | none => rfl
  | some b =>
    cases hfields : boundFlag fields exclusive with
    | none =>
      rw [(hkept hfields).boundFlag hflag] at hfields
      cases hfields
    | some b' =>
      rw [boundFlag_eq] at hflag
      cases b' with
      | false =>
        rw [h.removed hfields] at hflag
        cases hflag
      | true =>
        obtain ⟨-, number, -, hnumber, hws⟩ := h.moved hfields
        obtain rfl := Option.some.inj (hws.symm.trans hflag)
        cases hnumber

/-- The normal form of a schema has no keyword of OpenAPI 3.0. -/
theorem SchemaImage.noOldKeyword {fields ws : List (String × Json F)} (h : SchemaImage fields ws) :
    oldKeyword ws = false := by
  have hmin := h.minimum.noFlag fun hflag => h.kept _ (by simp [changed, hflag])
  have hmax := h.maximum.noFlag fun hflag => h.kept _ (by simp [changed, hflag])
  rw [oldKeyword, h.nullable, hmin, hmax]
  rfl

end

end CodexMemory.OpenApi
