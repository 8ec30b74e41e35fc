import CodexMemory.OpenApi.Parse

/-!
# How the walkers read a value

The walkers differ in how they read a value: as a part of the document, as a
schema, as a dictionary or a list of schemas, or as data.  The reading of a field
follows from that of its object and from its key, and `normalize` is one function
over all readings.  `normalizeDocument_iff` and `normalizeSchema_iff`: it gives
what the two walkers of the source give.
-/

namespace CodexMemory.OpenApi

variable {F : Type}

/-- How a walker reads a value. -/
inductive Mode
  | root | components | document | schema | schemaMap | schemaList | dependents | data
  deriving DecidableEq

/-- A part of the document that is not a schema. -/
def Mode.isDocument (m : Mode) : Bool := m = .root || m = .components || m = .document

/-- The reading of a field of a schema. -/
def schemaChild (key : String) (v : Json F) : Mode :=
  if isSchemaData key then .data
  else if key ∈ schemaMapKeywords ∧ v.isObject then .schemaMap
  else if key ∈ schemaListKeywords ∧ isList v then .schemaList
  else if key ∈ schemaKeywords ∧ v.isObject then .schema
  else if key = "dependencies" ∧ v.isObject then .dependents
  else .document

/-- The reading of a field of another part of the document. -/
def documentChild (m : Mode) (key : String) (v : Json F) : Mode :=
  if key = "schema" then .schema
  else if m = .components ∧ key = "schemas" ∧ v.isObject then .schemaMap
  else if isDocumentData key then .data
  else if m = .root ∧ key = "components" then .components
  else .document

/-- The reading of the field `key` of an object, whose value is `v`. -/
def Mode.child (m : Mode) (key : String) (v : Json F) : Mode :=
  match m with
  | .schema => schemaChild key v
  | .schemaMap => .schema
  | .dependents => if v.isObject then .schema else .data
  | .data => .data
  | m => documentChild m key v

/-- The reading of the items of a list; those of a schema are left alone. -/
def Mode.item (m : Mode) : Option Mode :=
  match m with
  | .root => some .document
  | .components => some .document
  | .document => some .document
  | .schemaList => some .schema
  | _ => none

/-- The field is left out: `nullable` of a schema of OpenAPI 3.0. -/
def dropped (from30 : Bool) (m : Mode) (key : String) : Bool := from30 && m = .schema && key = "nullable"

/-- What becomes of the fields of an object in the end. -/
def finish [DocumentFloat F] (from30 : Bool) (m : Mode) (fields normalized : List (String × Json F)) :
    Option (Json F) :=
  if m = .schema then (finishSchema from30 "" fields normalized).toOption else some (.obj normalized)

section Normalize

variable [DocumentFloat F]

mutual

/-- The normal form of a value that is read in the mode `m`; `none` where a walker raises. -/
def normalize (from30 : Bool) (m : Mode) : Json F → Option (Json F)
  | .arr items =>
    if m = .data then some (canonical (.arr items))
    else
      match m.item with
      | some n => (normalizeAll from30 n items).map .arr
      | none => some (.arr items)
  | .obj fields =>
    if m = .data then some (canonical (.obj fields))
    else (normalizeEach from30 m fields).bind (finish from30 m fields)
  | v => some v

def normalizeAll (from30 : Bool) (m : Mode) : List (Json F) → Option (List (Json F))
  | [] => some []
  | v :: rest => do return (← normalize from30 m v) :: (← normalizeAll from30 m rest)

def normalizeEach (from30 : Bool) (m : Mode) : List (String × Json F) → Option (List (String × Json F))
  | [] => some []
  | (key, v) :: rest =>
    if dropped from30 m key then normalizeEach from30 m rest
    else do return (key, ← normalize from30 (m.child key v) v) :: (← normalizeEach from30 m rest)

end

end Normalize

/-! ## The two walkers of the source -/

/-- The reading of a part of the document at a path. -/
def pathMode (path : String) : Mode :=
  if path = "" then .root else if path = "/components" then .components else .document

theorem toOption_bind {ε α β : Type} (x : Except ε α) (f : α → Except ε β) :
    (x >>= f).toOption = x.toOption.bind fun a => (f a).toOption := by
  cases x with
  | error e => rfl
  | ok a => rfl

theorem below_ne_components {path : String} (hpath : path ≠ "") (key : String) : path ++ "/" ++ key ≠ "/components" := by
  intro h
  have hlist := congrArg String.toList h
  rw [String.toList_append, String.toList_append] at hlist
  cases hchars : path.toList with
  | nil => exact hpath (String.ext (by rw [hchars]; rfl))
  | cons c rest =>
    have hslash : '/' ∈ "components".toList := by
      rw [hchars] at hlist
      have htail := congrArg List.tail hlist
      rw [show "components".toList = ("/components".toList).tail from rfl, ← htail]
      simp
    exact absurd hslash (by decide)

theorem append_slash_ne (path key : String) : path ++ "/" ++ key ≠ "" := by
  intro h
  have hlist := congrArg String.toList h
  rw [String.toList_append, String.toList_append] at hlist
  simp at hlist

theorem pathMode_below {path : String} (hpath : path ≠ "") (key : String) : pathMode (path ++ "/" ++ key) = .document := by
  rw [pathMode, if_neg (append_slash_ne path key), if_neg (below_ne_components hpath key)]

theorem childPath_ne (path key : String) : childPath path key ≠ "" := by
  rw [childPath]
  split
  · intro h
    have hlist := congrArg String.toList h
    rw [String.toList_append] at hlist
    simp at hlist
  · exact append_slash_ne path key

theorem pathMode_childPath (path key : String) :
    pathMode (childPath path key) = if pathMode path = .root ∧ key = "components" then .components else .document := by
  rw [pathMode, if_neg (childPath_ne path key), childPath]
  by_cases hpath : path = ""
  · have hroot : pathMode path = .root := if_pos hpath
    have hkey : ("/" ++ key = "/components") ↔ key = "components" := by
      constructor
      · intro h
        have hlist := congrArg String.toList h
        rw [String.toList_append] at hlist
        exact String.ext (List.cons.inj hlist).2
      · intro h
        subst h
        decide
    rw [if_pos hpath, hroot]
    simp only [hkey, true_and]
  · have hroot : pathMode path ≠ .root := by
      rw [pathMode, if_neg hpath]
      split <;> decide
    rw [if_neg hpath, if_neg (below_ne_components hpath key), if_neg fun h => hroot h.1]

theorem pathMode_cases (path : String) :
    pathMode path = .root ∨ pathMode path = .components ∨ pathMode path = .document := by
  rw [pathMode]
  split
  · exact Or.inl rfl
  · split
    · exact Or.inr (Or.inl rfl)
    · exact Or.inr (Or.inr rfl)

theorem pathMode_components (path : String) : pathMode path = .components ↔ path = "/components" := by
  rw [pathMode]
  split
  · next hempty => simp [hempty]
  · split
    · next hcomponents => simp [hcomponents]
    · next hcomponents => simp [hcomponents]

section Agreement

variable [DocumentFloat F] {from30 : Bool}

theorem exclusiveBound_path (path path' : String) (fields normalized : List (String × Json F)) (bound exclusive : String) :
    (exclusiveBound path fields bound exclusive normalized).toOption =
      (exclusiveBound path' fields bound exclusive normalized).toOption := by
  have hnumber : ∀ number : Option (Json F), (boundNumber (childPath path exclusive) number).toOption =
      (boundNumber (childPath path' exclusive) number).toOption := by
    intro number
    unfold boundNumber
    split
    · rfl
    · split <;> rfl
    · rfl
  unfold exclusiveBound
  split
  · rfl
  · rw [toOption_bind, toOption_bind, hnumber]
  · rfl

theorem finishSchema_path (path path' : String) (fields normalized : List (String × Json F)) :
    (finishSchema from30 path fields normalized).toOption = (finishSchema from30 path' fields normalized).toOption := by
  have hbounds : (exclusiveBounds path fields normalized).toOption =
      (exclusiveBounds path' fields normalized).toOption := by
    unfold exclusiveBounds
    rw [toOption_bind, toOption_bind, exclusiveBound_path path path']
    exact congrArg _ (funext fun _ => exclusiveBound_path path path' _ _ _ _)
  cases from30 with
  | false => rfl
  | true =>
    unfold finishSchema
    rw [if_pos rfl, if_pos rfl, toOption_bind, toOption_bind, hbounds]

/-- The walkers of the source give the normal forms of a value. -/
structure Agrees (from30 : Bool) (v : Json F) : Prop where
  document : ∀ path, (path = "" → v.isObject = true) →
    (normalizeDocument from30 path v).toOption = normalize from30 (pathMode path) v
  schema : ∀ path, path ≠ "" → (normalizeSchema from30 path v).toOption = normalize from30 .schema v
  map : ∀ path, path ≠ "" → v.isObject = true → (normalizeMap from30 path v).toOption = normalize from30 .schemaMap v
  list : ∀ path, path ≠ "" → isList v = true → (normalizeList from30 path v).toOption = normalize from30 .schemaList v
  dependents : ∀ path, path ≠ "" → v.isObject = true →
    (normalizeDependencies from30 path v).toOption = normalize from30 .dependents v

theorem canonical_of_data (v : Json F) : normalize from30 .data v = some (canonical v) := by
  cases v <;> rfl

theorem normalizeItems_agree {items : List (Json F)} (h : ∀ v ∈ items, Agrees from30 v) {path : String}
    (hpath : path ≠ "") (index : Nat) :
    (normalizeItems from30 path index items).toOption = normalizeAll from30 .document items := by
  induction items generalizing index with
  | nil => rfl
  | cons v rest ih =>
    have hv := (h v List.mem_cons_self).document (indexPath path index) fun he => absurd he (append_slash_ne _ _)
    rw [indexPath, pathMode_below hpath] at hv
    rw [normalizeItems, normalizeAll, toOption_bind, indexPath, hv]
    refine congrArg _ (funext fun w => ?_)
    rw [toOption_bind, ih (fun u hu => h u (List.mem_cons_of_mem v hu))]
    rfl

theorem normalizeSchemas_agree {items : List (Json F)} (h : ∀ v ∈ items, Agrees from30 v) (path : String)
    (index : Nat) : (normalizeSchemas from30 path index items).toOption = normalizeAll from30 .schema items := by
  induction items generalizing index with
  | nil => rfl
  | cons v rest ih =>
    have hv := (h v List.mem_cons_self).schema (indexPath path index) (append_slash_ne _ _)
    rw [normalizeSchemas, normalizeAll, toOption_bind, hv]
    refine congrArg _ (funext fun w => ?_)
    rw [toOption_bind, ih (fun u hu => h u (List.mem_cons_of_mem v hu))]
    rfl

theorem normalizeEntries_agree {fields : List (String × Json F)} (h : ∀ field ∈ fields, Agrees from30 field.2)
    (path : String) : (normalizeEntries from30 path fields).toOption = normalizeEach from30 .schemaMap fields := by
  induction fields with
  | nil => rfl
  | cons field rest ih =>
    obtain ⟨name, v⟩ := field
    have hv := (h _ List.mem_cons_self).schema (path ++ "/" ++ name) (append_slash_ne _ _)
    have hkept : dropped from30 .schemaMap name = false := by
      simp [dropped]
    rw [normalizeEntries, normalizeEach, hkept, toOption_bind, hv]
    refine congrArg _ (funext fun w => ?_)
    rw [toOption_bind, ih (fun u hu => h u (List.mem_cons_of_mem _ hu))]
    rfl

theorem normalizeDependents_agree {fields : List (String × Json F)} (h : ∀ field ∈ fields, Agrees from30 field.2)
    (path : String) : (normalizeDependents from30 path fields).toOption = normalizeEach from30 .dependents fields := by
  induction fields with
  | nil => rfl
  | cons field rest ih =>
    obtain ⟨name, v⟩ := field
    have hv := (h _ List.mem_cons_self).schema (path ++ "/" ++ name) (append_slash_ne _ _)
    have hkept : dropped from30 .dependents name = false := by
      simp [dropped]
    have hchild : (if v.isObject = true then normalizeSchema from30 (path ++ "/" ++ name) v
        else Except.ok (canonical v)).toOption = normalize from30 (Mode.child .dependents name v) v := by
      show _ = normalize from30 (if v.isObject = true then .schema else .data) v
      split
      · exact hv
      · exact (canonical_of_data v).symm
    rw [normalizeDependents, normalizeEach, hkept, toOption_bind, hchild]
    refine congrArg _ (funext fun w => ?_)
    rw [toOption_bind, ih (fun u hu => h u (List.mem_cons_of_mem _ hu))]
    rfl

theorem normalizeSchemaFields_agree {fields : List (String × Json F)} (h : ∀ field ∈ fields, Agrees from30 field.2)
    {path : String} (hpath : ∀ field ∈ fields, pathMode (path ++ "/" ++ field.1) = .document) :
    (normalizeSchemaFields from30 path fields).toOption = normalizeEach from30 .schema fields := by
  induction fields with
  | nil => rfl
  | cons field rest ih =>
    obtain ⟨key, v⟩ := field
    have hv : Agrees from30 v := h _ List.mem_cons_self
    have hbelow : path ++ "/" ++ key ≠ "" := append_slash_ne path key
    have hrest := ih (fun u hu => h u (List.mem_cons_of_mem _ hu)) fun u hu => hpath u (List.mem_cons_of_mem _ hu)
    have hdropped : dropped from30 .schema key = (from30 && key = "nullable") := by
      simp [dropped]
    rw [normalizeSchemaFields, normalizeEach, hdropped]
    cases hnullable : (from30 && decide (key = "nullable")) with
    | true => exact hrest
    | false =>
      rw [if_neg Bool.false_ne_true, if_neg Bool.false_ne_true, toOption_bind]
      refine congrArg₂ Option.bind ?_ (funext fun w => ?_)
      · show _ = normalize from30 (schemaChild key v) v
        unfold schemaChild
        split
        · exact (canonical_of_data v).symm
        · split
          · next hmap => exact hv.map _ hbelow hmap.2
          · split
            · next hlist => exact hv.list _ hbelow hlist.2
            · split
              · exact hv.schema _ hbelow
              · split
                · next hdependencies => exact hv.dependents _ hbelow hdependencies.2
                · rw [hv.document _ fun he => absurd he hbelow, hpath _ List.mem_cons_self]
      · rw [toOption_bind, hrest]
        rfl

theorem normalizeFields_agree {fields : List (String × Json F)} (h : ∀ field ∈ fields, Agrees from30 field.2)
    (path : String) : (normalizeFields from30 path fields).toOption = normalizeEach from30 (pathMode path) fields := by
  induction fields with
  | nil => rfl
  | cons field rest ih =>
    obtain ⟨key, v⟩ := field
    have hv : Agrees from30 v := h _ List.mem_cons_self
    have hrest := ih fun u hu => h u (List.mem_cons_of_mem _ hu)
    have hkept : dropped from30 (pathMode path) key = false := by
      rcases pathMode_cases path with hm | hm | hm <;> rw [hm] <;> simp [dropped]
    have hchild : (pathMode path).child key v = documentChild (pathMode path) key v := by
      rcases pathMode_cases path with hm | hm | hm <;> rw [hm] <;> rfl
    rw [normalizeFields, normalizeEach, hkept, toOption_bind, if_neg Bool.false_ne_true, hchild]
    refine congrArg₂ Option.bind ?_ (funext fun w => ?_)
    · unfold documentChild
      by_cases hschema : key = "schema"
      · rw [if_pos hschema, if_pos hschema]
        exact hv.schema _ (childPath_ne path key)
      · rw [if_neg hschema, if_neg hschema]
        by_cases hmap : path = "/components" ∧ key = "schemas" ∧ v.isObject = true
        · rw [if_pos hmap, if_pos ⟨(pathMode_components path).mpr hmap.1, hmap.2⟩]
          exact hv.map _ (childPath_ne path key) hmap.2.2
        · have hmap' : ¬(pathMode path = .components ∧ key = "schemas" ∧ v.isObject = true) := fun h =>
            hmap ⟨(pathMode_components path).mp h.1, h.2⟩
          rw [if_neg hmap, if_neg hmap']
          by_cases hdata : isDocumentData key = true
          · rw [if_pos hdata, if_pos hdata]
            exact (canonical_of_data v).symm
          · rw [if_neg hdata, if_neg hdata, hv.document _ fun he => absurd he (childPath_ne path key), pathMode_childPath]
    · rw [toOption_bind, hrest]
      rfl

theorem agrees (v : Json F) : Agrees from30 v := by
  have hfinish : ∀ m : Mode, m ≠ .schema → ∀ fields normalized : List (String × Json F),
      finish from30 m fields normalized = some (.obj normalized) := fun m hm fields normalized => if_neg hm
  induction v using Json.induction with
  | null | bool b | int n | float x | str s => exact ⟨fun _ _ => rfl, fun _ _ => rfl, nofun, nofun, nofun⟩
  | arr items ih =>
    refine ⟨fun path hroot => ?_, fun _ _ => rfl, nofun, fun path hpath _ => ?_, nofun⟩
    · have hpath : path ≠ "" := fun he => nomatch hroot he
      have hitem : (pathMode path).item = some .document := by
        rcases pathMode_cases path with hm | hm | hm <;> rw [hm] <;> rfl
      have hdata : pathMode path ≠ .data := by
        rcases pathMode_cases path with hm | hm | hm <;> rw [hm] <;> decide
      rw [normalizeDocument, toOption_bind, normalizeItems_agree ih hpath, normalize, if_neg hdata, hitem]
      exact Option.map_eq_bind.symm
    · rw [normalizeList, toOption_bind, normalizeSchemas_agree ih]
      exact Option.map_eq_bind.symm
  | obj fields ih =>
    refine ⟨fun path _ => ?_, fun path hpath => ?_, fun path _ _ => ?_, nofun, fun path _ _ => ?_⟩
    · have hdata : pathMode path ≠ .data ∧ pathMode path ≠ .schema := by
        rcases pathMode_cases path with hm | hm | hm <;> rw [hm] <;> decide
      rw [normalizeDocument, toOption_bind, normalizeFields_agree ih, normalize, if_neg hdata.1]
      exact congrArg _ (funext fun normalized => (hfinish _ hdata.2 fields normalized).symm)
    · rw [normalizeSchema, toOption_bind, normalizeSchemaFields_agree ih fun field _ => pathMode_below hpath field.1,
        normalize, if_neg (by decide)]
      refine congrArg _ (funext fun normalized => ?_)
      rw [finish, if_pos rfl]
      exact finishSchema_path path "" fields normalized
    · rw [normalizeMap, toOption_bind, normalizeEntries_agree ih, normalize, if_neg (by decide)]
      exact congrArg _ (funext fun normalized => (hfinish _ (by decide) fields normalized).symm)
    · rw [normalizeDependencies, toOption_bind, normalizeDependents_agree ih, normalize, if_neg (by decide)]
      exact congrArg _ (funext fun normalized => (hfinish _ (by decide) fields normalized).symm)

/-- **One walker.**  The document walker, from the root, in one function. -/
theorem normalizeDocument_eq (from30 : Bool) {v w : Json F} (hv : v.isObject = true) :
    normalizeDocument from30 "" v = .ok w ↔ normalize from30 .root v = some w := by
  rw [show Mode.root = pathMode "" from rfl, ← (agrees v).document "" fun _ => hv]
  cases normalizeDocument from30 "" v <;> simp [Except.toOption]

/-- The schema walker. -/
theorem normalizeSchema_eq (from30 : Bool) {path : String} (hpath : path ≠ "") {v w : Json F} :
    normalizeSchema from30 path v = .ok w ↔ normalize from30 .schema v = some w := by
  rw [← (agrees v).schema path hpath]
  cases normalizeSchema from30 path v <;> simp [Except.toOption]

/-- The schema walker at any path, where no field is read as the components of the document. -/
theorem normalizeSchema_obj_eq (from30 : Bool) {path : String} {fields : List (String × Json F)} {w : Json F}
    (hpath : ∀ field ∈ fields, field.1 ≠ "components") :
    normalizeSchema from30 path (.obj fields) = .ok w ↔ normalize from30 .schema (.obj fields) = some w := by
  have hmode : ∀ field ∈ fields, pathMode (path ++ "/" ++ field.1) = .document := by
    intro field hfield
    by_cases hempty : path = ""
    · have hchild := pathMode_childPath "" field.1
      rw [childPath, if_pos rfl, if_neg fun h => hpath field hfield h.2] at hchild
      rw [hempty]
      exact hchild
    · exact pathMode_below hempty field.1
  have hagree : (normalizeSchema from30 path (.obj fields)).toOption = normalize from30 .schema (.obj fields) := by
    rw [normalizeSchema, toOption_bind, normalizeSchemaFields_agree (fun field _ => agrees field.2) hmode, normalize,
      if_neg (by decide)]
    refine congrArg _ (funext fun normalized => ?_)
    rw [finish, if_pos rfl]
    exact finishSchema_path path "" fields normalized
  rw [← hagree]
  cases normalizeSchema from30 path (.obj fields) <;> simp [Except.toOption]

end Agreement

end CodexMemory.OpenApi
