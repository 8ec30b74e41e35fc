import CodexMemory.OpenApi.Accepted
import CodexMemory.OpenApi.Images

/-!
# The content hash identifies the contract

Two documents that differ only in the order of keys have normal forms that
differ only in the order of keys (`normalize_same`), and the rest of the parse
starts from the normal form in key order.  The other way, the text that is hashed
can be read back.  Together they give `contentHash_identifies`.
-/

namespace CodexMemory.OpenApi

open Json (sortKeys sortedFields)

variable {F : Type}

/-! ## The order of keys -/

theorem isObject_sortKeys (v : Json F) : (sortKeys v).isObject = v.isObject := by
  cases v <;> rfl

theorem isList_sortKeys (v : Json F) : isList (sortKeys v) = isList v := by
  cases v <;> rfl

theorem child_sortKeys (m : Mode) (key : String) (v : Json F) : m.child key (sortKeys v) = m.child key v := by
  cases m <;> simp only [Mode.child, schemaChild, documentChild, isObject_sortKeys, isList_sortKeys]

/-- The reading of a field does not depend on the order of keys. -/
theorem child_same (m : Mode) (key : String) {v v' : Json F} (h : sortKeys v = sortKeys v') :
    m.child key v = m.child key v' := by
  rw [← child_sortKeys, h, child_sortKeys]

/-- Only objects and arrays have keys to put in order. -/
theorem eq_of_sortKeys {v v' : Json F} (hobject : v.isObject = false) (hlist : isList v = false)
    (h : sortKeys v = sortKeys v') : v' = v := by
  have hobject' : v'.isObject = false := by rw [← isObject_sortKeys, ← h, isObject_sortKeys, hobject]
  have hlist' : isList v' = false := by rw [← isList_sortKeys, ← h, isList_sortKeys, hlist]
  have hself : ∀ {u : Json F}, u.isObject = false → isList u = false → sortKeys u = u := by
    intro u hu hu'
    cases u with
    | null | bool b | int n | float x | str s => rfl
    | arr items => cases hu'
    | obj fields => cases hu
  rw [← hself hobject hlist, h, hself hobject' hlist']

theorem sortedFields_of_same {fields fields' : List (String × Json F)}
    (h : sortKeys (.obj fields) = sortKeys (.obj fields')) : sortedFields fields = sortedFields fields' := by
  rw [Json.sortKeys_obj, Json.sortKeys_obj] at h
  exact Json.obj.inj h

theorem lookup_of_same {fields fields' : List (String × Json F)}
    (h : sortKeys (.obj fields) = sortKeys (.obj fields')) (key : String) :
    (fields.lookup key).map sortKeys = (fields'.lookup key).map sortKeys := by
  rw [← Json.lookup_sorted, ← Json.lookup_sorted, sortedFields_of_same h]

theorem map_of_same {items items' : List (Json F)} (h : sortKeys (.arr items) = sortKeys (.arr items')) :
    items.map sortKeys = items'.map sortKeys := by
  rw [Json.sortKeys_arr, Json.sortKeys_arr] at h
  exact Json.arr.inj h

/-! ## What the schema walker looks at -/

theorem isNullable_sorted (fields : List (String × Json F)) : isNullable (sortedFields fields) = isNullable fields := by
  rw [isNullable, isNullable, Json.lookup_sorted]
  cases fields.lookup "nullable" with
  | none => rfl
  | some v => cases v <;> rfl

theorem hasType_sorted (fields : List (String × Json F)) : hasType (sortedFields fields) = hasType fields := by
  rw [hasType, hasType, Json.lookup_sorted]
  cases fields.lookup "type" with
  | none => rfl
  | some v => cases v <;> rfl

theorem wraps_sorted (fields : List (String × Json F)) : wraps (sortedFields fields) = wraps fields := by
  rw [wraps, wraps, isNullable_sorted, hasType_sorted]

theorem changed_sorted (fields : List (String × Json F)) (key : String) :
    changed (sortedFields fields) key = changed fields key := by
  simp only [changed, boundFlag_sorted, isNullable_sorted, hasType_sorted]

theorem fromkeys_sorted (types : List (Json F)) : fromkeys (types.map sortKeys) = (fromkeys types).map sortKeys := by
  induction types with
  | nil => rfl
  | cons t rest ih =>
    cases t with
    | null | bool b | int n | float x => exact congrArg _ ih
    | arr items => exact congrArg _ ih
    | obj fields => exact congrArg _ ih
    | str s =>
      rw [List.map_cons, show sortKeys (.str (F := F) s) = .str s from rfl, fromkeys, fromkeys, ih, List.map_cons,
        List.filter_map]
      refine congrArg _ (congrArg _ (List.filter_congr fun t _ => ?_))
      cases t <;> rfl

theorem withNull_sorted (types : List (Json F)) : withNull (types.map sortKeys) = (withNull types).map sortKeys := by
  rw [withNull, withNull, ← fromkeys_sorted, List.map_append]
  rfl

/-! ## Normal forms -/

section

variable [DocumentFloat F]

/-- A value, and all values that differ from it in the order of keys, have normal forms that differ
in the order of keys. -/
def Stable (from30 : Bool) (v : Json F) : Prop :=
  ∀ m v' w w', Json.unique v = true → Json.unique v' = true → sortKeys v = sortKeys v' →
    normalize from30 m v = some w → normalize from30 m v' = some w' → sortKeys w = sortKeys w'

theorem normalizeAll_same {from30 : Bool} {m : Mode} {items items' ws ws' : List (Json F)}
    (hstable : ∀ v ∈ items, Stable from30 v) (hunique : ∀ v ∈ items, Json.unique v = true)
    (hunique' : ∀ v ∈ items', Json.unique v = true) (hsame : items.map sortKeys = items'.map sortKeys)
    (h : normalizeAll from30 m items = some ws) (h' : normalizeAll from30 m items' = some ws') :
    ws.map sortKeys = ws'.map sortKeys := by
  induction items generalizing items' ws ws' with
  | nil =>
    cases items' with
    | nil =>
      cases h
      cases h'
      rfl
    | cons v' rest' => cases hsame
  | cons v rest ih =>
    cases items' with
    | nil => cases hsame
    | cons v' rest' =>
      obtain ⟨hv, hrest⟩ := List.cons.inj hsame
      rw [normalizeAll] at h h'
      obtain ⟨w, hw, h⟩ := Option.bind_eq_some_iff.mp h
      obtain ⟨us, hus, h⟩ := Option.bind_eq_some_iff.mp h
      obtain ⟨w', hw', h'⟩ := Option.bind_eq_some_iff.mp h'
      obtain ⟨us', hus', h'⟩ := Option.bind_eq_some_iff.mp h'
      cases h
      cases h'
      rw [List.map_cons, List.map_cons, hstable v List.mem_cons_self m v' w w' (hunique v List.mem_cons_self)
        (hunique' v' List.mem_cons_self) hv hw hw',
        ih (fun u hu => hstable u (List.mem_cons_of_mem v hu)) (fun u hu => hunique u (List.mem_cons_of_mem v hu))
          (fun u hu => hunique' u (List.mem_cons_of_mem v' hu)) hrest hus hus']

/-- Two objects that differ only in the order of keys. -/
structure SameFields (from30 : Bool) (fields fields' : List (String × Json F)) : Prop where
  unique : Json.unique (.obj fields) = true
  unique' : Json.unique (.obj fields') = true
  same : sortKeys (.obj fields) = sortKeys (.obj fields')
  stable : ∀ f ∈ fields, Stable from30 f.2

theorem SameFields.lookup_some {from30 : Bool} {fields fields' : List (String × Json F)}
    (h : SameFields from30 fields fields') {key : String} {v : Json F} (hv : fields.lookup key = some v) :
    ∃ v', fields'.lookup key = some v' ∧ sortKeys v = sortKeys v' := by
  have hsame := lookup_of_same h.same key
  rw [hv] at hsame
  cases hv' : fields'.lookup key with
  | none =>
    rw [hv'] at hsame
    cases hsame
  | some v' =>
    rw [hv'] at hsame
    exact ⟨v', rfl, Option.some.inj hsame⟩

/-- A field that is kept. -/
theorem SameFields.kept {from30 : Bool} {fields fields' ws ws' : List (String × Json F)} {m : Mode} {key : String}
    (h : SameFields from30 fields fields') (hkept : Kept from30 m fields ws key)
    (hkept' : Kept from30 m fields' ws' key) : (ws.lookup key).map sortKeys = (ws'.lookup key).map sortKeys := by
  rcases hkept with ⟨hnone, hws⟩ | ⟨v, w, hv, hw, hnormal⟩
  · rcases hkept' with ⟨-, hws'⟩ | ⟨v', w', hv', -, -⟩
    · rw [hws, hws']
    · have hsame := lookup_of_same h.same key
      rw [hnone, hv'] at hsame
      cases hsame
  · obtain ⟨u', hu', hsame⟩ := h.lookup_some hv
    rcases hkept' with ⟨hnone, -⟩ | ⟨v', w', hv', hw', hnormal'⟩
    · rw [hu'] at hnone
      cases hnone
    · obtain rfl := Option.some.inj (hu'.symm.trans hv')
      have hmem := Json.mem_of_lookup hv
      rw [hw, hw', Option.map_some, Option.map_some, h.stable _ hmem (m.child key v) u' w w'
        ((Json.unique_obj.mp h.unique).2 _ hmem) ((Json.unique_obj.mp h.unique').2 _ (Json.mem_of_lookup hv')) hsame
        hnormal (by rw [child_same m key hsame]; exact hnormal')]

/-- The keys of a bound. -/
theorem SameFields.bound {from30 : Bool} {fields fields' ws ws' : List (String × Json F)} {bound exclusive : String}
    (h : SameFields from30 fields fields') (himage : BoundFields fields ws bound exclusive)
    (himage' : BoundFields fields' ws' bound exclusive) :
    ((boundFlag fields exclusive).isSome = true →
        (ws.lookup exclusive).map sortKeys = (ws'.lookup exclusive).map sortKeys) ∧
      (boundFlag fields exclusive = some true → ws.lookup bound = none ∧ ws'.lookup bound = none) := by
  have hflag : boundFlag fields exclusive = boundFlag fields' exclusive := by
    rw [← boundFlag_sorted, sortedFields_of_same h.same, boundFlag_sorted]
  refine ⟨fun hsome => ?_, fun htrue => ⟨(himage.moved htrue).1, (himage'.moved (hflag ▸ htrue)).1⟩⟩
  cases hcase : boundFlag fields exclusive with
  | none =>
    rw [hcase] at hsome
    cases hsome
  | some b =>
    cases b with
    | false => rw [himage.removed hcase, himage'.removed (hflag ▸ hcase)]
    | true =>
      obtain ⟨-, number, hnumber, -, hws⟩ := himage.moved hcase
      obtain ⟨-, number', hnumber', -, hws'⟩ := himage'.moved (hflag ▸ hcase)
      rw [hws, hws', ← hnumber, ← hnumber']
      exact lookup_of_same h.same bound

/-- The type of a schema that is nullable. -/
theorem SameFields.type {fields fields' ws ws' : List (String × Json F)} (h : SameFields true fields fields')
    (himage : SchemaImage fields ws) (himage' : SchemaImage fields' ws') (hnullable : isNullable fields = true)
    (htype : hasType fields = true) : (ws.lookup "type").map sortKeys = (ws'.lookup "type").map sortKeys := by
  have hnullable' : isNullable fields' = true := by
    rw [← isNullable_sorted, ← sortedFields_of_same h.same, isNullable_sorted, hnullable]
  unfold hasType at htype
  split at htype
  · next name hname =>
    obtain ⟨v', hv', hsame⟩ := h.lookup_some hname
    rw [eq_of_sortKeys rfl rfl hsame] at hv'
    rw [himage.typeName name hnullable hname, himage'.typeName name hnullable' hv']
  · next types htypes =>
    obtain ⟨v', hv', hsame⟩ := h.lookup_some htypes
    have hmem := Json.mem_of_lookup htypes
    cases v' with
    | arr types' =>
      obtain ⟨us, hus, hws⟩ := himage.typeList types hnullable htypes
      obtain ⟨us', hus', hws'⟩ := himage'.typeList types' hnullable' hv'
      have husame : sortKeys (.arr us) = sortKeys (.arr us') := by
        refine h.stable _ hmem .document (.arr types') _ _ ((Json.unique_obj.mp h.unique).2 _ hmem)
          ((Json.unique_obj.mp h.unique').2 _ (Json.mem_of_lookup hv')) hsame ?_ ?_
        · rw [normalize, if_neg (by decide), show Mode.document.item = some .document from rfl]
          exact congrArg (Option.map Json.arr) hus
        · rw [normalize, if_neg (by decide), show Mode.document.item = some .document from rfl]
          exact congrArg (Option.map Json.arr) hus'
      rw [hws, hws', Option.map_some, Option.map_some, Json.sortKeys_arr, Json.sortKeys_arr, ← withNull_sorted,
        ← withNull_sorted, map_of_same husame]
    | null | bool b | int n | float x | str s | obj fs => cases hsame
  · cases htype

/-- The fields of a schema. -/
theorem SameFields.schema {fields fields' ws ws' : List (String × Json F)} (h : SameFields true fields fields')
    (himage : SchemaImage fields ws) (himage' : SchemaImage fields' ws') (key : String) :
    (ws.lookup key).map sortKeys = (ws'.lookup key).map sortKeys := by
  cases hchanged : changed fields key with
  | false =>
    have hchanged' : changed fields' key = false := by
      rw [← changed_sorted, ← sortedFields_of_same h.same, changed_sorted, hchanged]
    exact h.kept (himage.kept key hchanged) (himage'.kept key hchanged')
  | true =>
    have hmin := h.bound himage.minimum himage'.minimum
    have hmax := h.bound himage.maximum himage'.maximum
    simp only [changed, Bool.or_eq_true, Bool.and_eq_true, decide_eq_true_eq] at hchanged
    rcases hchanged with ((((rfl | ⟨rfl, hsome⟩) | ⟨rfl, hsome⟩) | ⟨rfl, htrue⟩) | ⟨rfl, htrue⟩) | ⟨⟨rfl, hnullable⟩, htype⟩
    · rw [himage.nullable, himage'.nullable]
    · exact hmin.1 hsome
    · exact hmax.1 hsome
    · rw [(hmin.2 htrue).1, (hmin.2 htrue).2]
    · rw [(hmax.2 htrue).1, (hmax.2 htrue).2]
    · exact h.type himage himage' hnullable htype

/-- An object. -/
theorem SameFields.object {from30 : Bool} {fields fields' : List (String × Json F)} {m : Mode} {w w' : Json F}
    (h : SameFields from30 fields fields') (hw : normalize from30 m (.obj fields) = some w)
    (hw' : normalize from30 m (.obj fields') = some w') : sortKeys w = sortKeys w' := by
  have hkeys : ∀ {ws ws' : List (String × Json F)}, Json.unique (.obj ws) = true → Json.unique (.obj ws') = true →
      (∀ key, (ws.lookup key).map sortKeys = (ws'.lookup key).map sortKeys) →
      sortKeys (.obj ws) = sortKeys (.obj ws') := fun hws hws' =>
    (Json.sortKeys_obj_eq (Json.unique_obj.mp hws).1 (Json.unique_obj.mp hws').1).mpr
  have hunique := normalize_unique hw h.unique
  have hunique' := normalize_unique hw' h.unique'
  by_cases hdata : m = .data
  · subst hdata
    rw [canonical_of_data] at hw hw'
    rw [← Option.some.inj hw, ← Option.some.inj hw', canonical, canonical, h.same]
  · by_cases hschema : m = .schema ∧ from30 = true
    · obtain ⟨rfl, rfl⟩ := hschema
      obtain ⟨ws, himage, rfl⟩ := normalize_schema hw
      obtain ⟨ws', himage', rfl⟩ := normalize_schema hw'
      have hwraps : wraps fields' = wraps fields := by
        rw [← wraps_sorted, ← sortedFields_of_same h.same, wraps_sorted]
      rw [hwraps] at hunique' ⊢
      cases hcase : wraps fields with
      | false =>
        rw [hcase] at hunique hunique'
        exact hkeys hunique hunique' (h.schema himage himage')
      | true =>
        rw [hcase] at hunique hunique'
        have hinner : ∀ {us : List (String × Json F)}, Json.unique (wrapper us) = true → Json.unique (.obj us) = true := by
          intro us hus
          have hlist := (Json.unique_obj.mp hus).2 _ List.mem_cons_self
          rw [Json.unique, Json.uniqueItems_eq_true] at hlist
          exact hlist _ List.mem_cons_self
        have hsame := hkeys (hinner hunique) (hinner hunique') (h.schema himage himage')
        simp only [if_true, wrapper, Json.sortKeys_obj, sortedFields, List.map_cons, List.map_nil, Json.sortKeys_arr] at hsame ⊢
        rw [hsame]
    · have hm : m = .schema → from30 = false := fun hm => by
        cases from30 with
        | false => rfl
        | true => exact absurd ⟨hm, rfl⟩ hschema
      obtain ⟨ws, rfl, -, hkept⟩ := normalize_object hm hdata hw
      obtain ⟨ws', rfl, -, hkept'⟩ := normalize_object hm hdata hw'
      exact hkeys hunique hunique' fun key => h.kept (hkept key) (hkept' key)

/-- **Normal forms up to the order of keys.** -/
theorem normalize_same (from30 : Bool) (v : Json F) : Stable from30 v := by
  induction v using Json.induction with
  | null | bool b | int n | float x | str s =>
    intro m v' w w' _ _ hsame hw hw'
    rw [eq_of_sortKeys rfl rfl hsame] at hw'
    rw [Option.some.inj (hw.symm.trans hw')]
  | arr items ih =>
    intro m v' w w' hunique hunique' hsame hw hw'
    cases v' with
    | arr items' =>
      rw [normalize] at hw hw'
      rw [Json.unique, Json.uniqueItems_eq_true] at hunique hunique'
      by_cases hdata : m = .data
      · rw [if_pos hdata] at hw hw'
        rw [← Option.some.inj hw, ← Option.some.inj hw', canonical, canonical, hsame]
      · rw [if_neg hdata] at hw hw'
        cases hitem : m.item with
        | none =>
          rw [hitem] at hw hw'
          rw [← Option.some.inj hw, ← Option.some.inj hw', hsame]
        | some n =>
          rw [hitem] at hw hw'
          obtain ⟨ws, hws, rfl⟩ := Option.map_eq_some_iff.mp hw
          obtain ⟨ws', hws', rfl⟩ := Option.map_eq_some_iff.mp hw'
          rw [Json.sortKeys_arr, Json.sortKeys_arr, normalizeAll_same ih hunique hunique' (map_of_same hsame) hws hws']
    | null | bool b | int n | float x | str s | obj fields => cases hsame
  | obj fields ih =>
    intro m v' w w' hunique hunique' hsame hw hw'
    cases v' with
    | obj fields' => exact SameFields.object ⟨hunique, hunique', hsame, ih⟩ hw hw'
    | null | bool b | int n | float x | str s | arr items => cases hsame

/-! ## The parse -/

section

variable {host : Host F} {filename filename' : String} {content content' : ByteArray}
  {previous previous' : List PreviousOperation} {parsed parsed' : NormalizedOpenAPI F}

/-- Everything but the warnings follows from the normalised document. -/
theorem parsed_of_document (h : Accepted host filename content previous parsed)
    (h' : Accepted host filename' content' previous' parsed') (hdocument : parsed.document = parsed'.document) :
    parsed.contentHash = parsed'.contentHash ∧ parsed.operations = parsed'.operations ∧
      parsed.markdown = parsed'.markdown := by
  have hoperations : parsed.operations = parsed'.operations := by
    have hok := h.operations
    rw [hdocument, h'.operations] at hok
    exact (Except.ok.inj hok).symm
  refine ⟨?_, hoperations, ?_⟩
  · rw [h.contentHash, h'.contentHash, hdocument]
  · rw [h.markdown, h'.markdown, hdocument, hoperations]

/-- The normalised document repeats no key. -/
theorem unique_document (h : Accepted host filename content previous parsed) : Json.unique parsed.document = true := by
  obtain ⟨ws, hws, hdocument⟩ := h.normal
  rw [hdocument]
  exact Json.unique_sortKeys (unique_setField rfl (normalize_unique hws h.read.unique))

theorem document_sorted (h : Accepted host filename content previous parsed) :
    sortKeys parsed.document = parsed.document := by
  obtain ⟨ws, -, hdocument⟩ := h.normal
  rw [hdocument]
  exact Json.sortKeys_sortKeys _

theorem document_same (h : Accepted host filename content previous parsed)
    (h' : Accepted host filename' content' previous' parsed')
    (hsame : canonical parsed.sourceDocument = canonical parsed'.sourceDocument) :
    parsed.document = parsed'.document := by
  have hversion : parsed.sourceVersion = parsed'.sourceVersion := by
    have hstr := version_of_document h.read.version
    have hstr' := version_of_document h'.read.version
    obtain ⟨fields, hfields⟩ := h.read.object
    obtain ⟨fields', hfields'⟩ := h'.read.object
    rw [hfields] at hstr hsame
    rw [hfields'] at hstr' hsame
    have hlookup := lookup_of_same hsame "openapi"
    rw [show fields.lookup "openapi" = _ from hstr, show fields'.lookup "openapi" = _ from hstr'] at hlookup
    exact Json.str.inj (Option.some.inj hlookup)
  obtain ⟨ws, hws, hdocument⟩ := h.normal
  obtain ⟨ws', hws', hdocument'⟩ := h'.normal
  have hunique := normalize_unique hws h.read.unique
  have hunique' := normalize_unique hws' h'.read.unique
  rw [hdocument, hdocument']
  rw [← hversion] at hws'
  have hnormal : sortKeys (.obj ws) = sortKeys (.obj ws') :=
    normalize_same _ parsed.sourceDocument .root _ _ _ h.read.unique h'.read.unique hsame hws hws'
  refine (Json.sortKeys_obj_eq (Json.setField_nodup (Json.unique_obj.mp hunique).1)
    (Json.setField_nodup (Json.unique_obj.mp hunique').1)).mpr fun key => ?_
  rw [lookup_setField, lookup_setField]
  split
  · rfl
  · exact lookup_of_same hnormal key

/-- **The content hash identifies the contract.**  Documents that differ only in the order of keys
give the same document, hash, operations and Markdown; and where SHA-256 is injective, equal hashes
come from the same document, with the same operations and Markdown. -/
theorem contentHash_identifies (h : parseAndNormalizeOpenapi host filename content previous = .ok parsed)
    (h' : parseAndNormalizeOpenapi host filename' content' previous' = .ok parsed') :
    (canonical parsed.sourceDocument = canonical parsed'.sourceDocument →
      parsed.document = parsed'.document ∧ parsed.contentHash = parsed'.contentHash ∧
        parsed.operations = parsed'.operations ∧ parsed.markdown = parsed'.markdown) ∧
    (Function.Injective host.sha256 → parsed.contentHash = parsed'.contentHash →
      parsed.document = parsed'.document ∧ parsed.operations = parsed'.operations ∧
        parsed.markdown = parsed'.markdown) := by
  have haccepted := parse_accepted h
  have haccepted' := parse_accepted h'
  constructor
  · intro hsame
    have hdocument := document_same haccepted haccepted' hsame
    exact ⟨hdocument, parsed_of_document haccepted haccepted' hdocument⟩
  · intro hinjective hhash
    rw [haccepted.contentHash, haccepted'.contentHash] at hhash
    have htext := congrArg String.toList (hinjective hhash)
    rw [dumpsCompact, dumpsCompact, document_sorted haccepted, document_sorted haccepted', String.toList_ofList,
      String.toList_ofList] at htext
    have hdocument := Json.dumps_injective Json.Separators.compact_readable (unique_document haccepted)
      (unique_document haccepted') htext
    exact ⟨hdocument, (parsed_of_document haccepted haccepted' hdocument).2⟩

end

end

/-- The pets, with a schema. -/
def petWith (schema : List (String × Json Empty)) : Json Empty :=
  petDocument [("200", petResponse (.obj schema))] [("tags", .arr [])]

/-- The document of `petWith` with other orders of keys. -/
def petTurned (schema : List (String × Json Empty)) : Json Empty :=
  match petWith schema with
  | .obj fields => .obj fields.reverse
  | v => v

theorem contentHash_identifies_pet :
    ∃ parsed parsed', parsePet (petWith [("type", .str "string"), ("nullable", .bool true)]) = .ok parsed ∧
      parsePet (petTurned [("nullable", .bool true), ("type", .str "string")]) = .ok parsed' ∧
      parsed.document = parsed'.document ∧ parsed.contentHash = parsed'.contentHash ∧
        parsed.operations = parsed'.operations ∧ parsed.markdown = parsed'.markdown ∧
        Function.Injective plainHost.sha256 := by
  have hchecked : accepts (petWith [("type", .str "string"), ("nullable", .bool true)]) (fun parsed =>
      decide (dumpsCompact parsed.sourceDocument =
        dumpsCompact (petWith [("type", .str "string"), ("nullable", .bool true)]))) = true := by
    decide +kernel
  have hchecked' : accepts (petTurned [("nullable", .bool true), ("type", .str "string")]) (fun parsed =>
      decide (dumpsCompact parsed.sourceDocument =
        dumpsCompact (petWith [("type", .str "string"), ("nullable", .bool true)]))) = true := by
    decide +kernel
  obtain ⟨parsed, hparsed, htext⟩ := accepts_ok hchecked
  obtain ⟨parsed', hparsed', htext'⟩ := accepts_ok hchecked'
  rw [decide_eq_true_eq] at htext htext'
  have hlist := congrArg String.toList (htext.trans htext'.symm)
  rw [dumpsCompact, dumpsCompact, String.toList_ofList, String.toList_ofList] at hlist
  have hsame := Json.dumps_injective Json.Separators.compact_readable
    (Json.unique_sortKeys (parse_accepted hparsed).read.unique)
    (Json.unique_sortKeys (parse_accepted hparsed').read.unique) hlist
  have hinjective : Function.Injective plainHost.sha256 := fun _ _ h => h
  obtain ⟨-, hhash, -⟩ := (contentHash_identifies hparsed hparsed').1 hsame
  obtain ⟨hdocument, hoperations, hmarkdown⟩ := (contentHash_identifies hparsed hparsed').2 hinjective hhash
  exact ⟨parsed, parsed', hparsed, hparsed', hdocument, hhash, hoperations, hmarkdown, hinjective⟩

end CodexMemory.OpenApi
