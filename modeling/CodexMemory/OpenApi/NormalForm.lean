import CodexMemory.OpenApi.Hash

/-!
# The normalised document is a normal form

`_canonical` is all that the walkers do to a document of OpenAPI 3.1, so a value in
key order is left alone at every place (`unmoved`).  A file with the normalised
document is parsed as the same document, whatever the order of its keys
(`normal_form`).
-/

namespace CodexMemory.OpenApi

open Json (sortKeys sortedFields setField lookup_of_nodup)

variable {F : Type}

/-! ## Values in key order -/

theorem sorted_item {items : List (Json F)} (h : canonical (.arr items) = .arr items) {v : Json F} (hv : v ∈ items) :
    canonical v = v := by
  rw [canonical, Json.sortKeys_arr] at h
  rw [← Json.arr.inj h] at hv
  obtain ⟨w, -, rfl⟩ := List.mem_map.mp hv
  exact Json.sortKeys_sortKeys w

theorem sorted_field {fields : List (String × Json F)} (h : canonical (.obj fields) = .obj fields)
    {f : String × Json F} (hf : f ∈ fields) : canonical f.2 = f.2 := by
  rw [canonical, Json.sortKeys_obj] at h
  rw [← Json.obj.inj h, sortedFields, List.mem_insertionSort] at hf
  obtain ⟨g, -, rfl⟩ := List.mem_map.mp hf
  exact Json.sortKeys_sortKeys g.2

/-- A value at some place inside another. -/
inductive Inside : Json F → Json F → Prop
  | here (v : Json F) : Inside v v
  | item {v w : Json F} {items : List (Json F)} (mem : w ∈ items) (inside : Inside v w) : Inside v (.arr items)
  | field {v : Json F} {f : String × Json F} {fields : List (String × Json F)} (mem : f ∈ fields)
      (inside : Inside v f.2) : Inside v (.obj fields)

theorem Inside.sorted {v w : Json F} (h : Inside v w) (hsorted : canonical w = w) : canonical v = v := by
  induction h with
  | here => exact hsorted
  | item mem _ ih => exact ih (sorted_item hsorted mem)
  | field mem _ ih => exact ih (sorted_field hsorted mem)

/-! ## The walkers for OpenAPI 3.1 -/

section Walkers

variable [DocumentFloat F]

/-- No walker changes the value in a document of OpenAPI 3.1, at any path. -/
structure Unmoved (v : Json F) : Prop where
  document : ∀ path, normalizeDocument false path v = .ok v
  schema : ∀ path, normalizeSchema false path v = .ok v
  map : ∀ path, normalizeMap false path v = .ok v
  list : ∀ path, normalizeList false path v = .ok v
  dependencies : ∀ path, normalizeDependencies false path v = .ok v

section Parts

variable {items : List (Json F)} {fields : List (String × Json F)}

theorem items_unmoved (h : ∀ v ∈ items, Unmoved v) (path : String) (index : Nat) :
    normalizeItems false path index items = .ok items := by
  induction items generalizing index with
  | nil => rfl
  | cons v rest ih =>
    rw [normalizeItems, (h v List.mem_cons_self).document, ih fun w hw => h w (List.mem_cons_of_mem v hw)]
    rfl

theorem schemas_unmoved (h : ∀ v ∈ items, Unmoved v) (path : String) (index : Nat) :
    normalizeSchemas false path index items = .ok items := by
  induction items generalizing index with
  | nil => rfl
  | cons v rest ih =>
    rw [normalizeSchemas, (h v List.mem_cons_self).schema, ih fun w hw => h w (List.mem_cons_of_mem v hw)]
    rfl

theorem entries_unmoved (h : ∀ f ∈ fields, Unmoved f.2) (path : String) :
    normalizeEntries false path fields = .ok fields := by
  induction fields with
  | nil => rfl
  | cons f rest ih =>
    rw [normalizeEntries, (h f List.mem_cons_self).schema, ih fun g hg => h g (List.mem_cons_of_mem f hg)]
    rfl

theorem dependents_unmoved (h : ∀ f ∈ fields, Unmoved f.2) (hsorted : ∀ f ∈ fields, canonical f.2 = f.2)
    (path : String) : normalizeDependents false path fields = .ok fields := by
  induction fields with
  | nil => rfl
  | cons f rest ih =>
    rw [normalizeDependents, (h f List.mem_cons_self).schema, hsorted f List.mem_cons_self, ite_self,
      ih (fun g hg => h g (List.mem_cons_of_mem f hg)) fun g hg => hsorted g (List.mem_cons_of_mem f hg)]
    rfl

theorem fields_unmoved (h : ∀ f ∈ fields, Unmoved f.2) (hsorted : ∀ f ∈ fields, canonical f.2 = f.2)
    (path : String) : normalizeFields false path fields = .ok fields := by
  induction fields with
  | nil => rfl
  | cons f rest ih =>
    have hf := h f List.mem_cons_self
    rw [normalizeFields, hf.schema, hf.map, hf.document, hsorted f List.mem_cons_self, ite_self, ite_self, ite_self,
      ih (fun g hg => h g (List.mem_cons_of_mem f hg)) fun g hg => hsorted g (List.mem_cons_of_mem f hg)]
    rfl

theorem schemaFields_unmoved (h : ∀ f ∈ fields, Unmoved f.2) (hsorted : ∀ f ∈ fields, canonical f.2 = f.2)
    (path : String) : normalizeSchemaFields false path fields = .ok fields := by
  induction fields with
  | nil => rfl
  | cons f rest ih =>
    have hf := h f List.mem_cons_self
    rw [normalizeSchemaFields, Bool.false_and, if_neg Bool.false_ne_true]
    simp only [hf.schema, hf.map, hf.list, hf.dependencies, hf.document, hsorted f List.mem_cons_self, ite_self]
    rw [ih (fun g hg => h g (List.mem_cons_of_mem f hg)) fun g hg => hsorted g (List.mem_cons_of_mem f hg)]
    rfl

end Parts

/-- **A value in key order is left alone**: what is not data is kept, and data are only put in
key order. -/
theorem unmoved {v : Json F} (hsorted : canonical v = v) : Unmoved v := by
  induction v using Json.induction with
  | null | bool b | int n | float x | str s =>
    exact ⟨fun _ => rfl, fun _ => rfl, fun _ => rfl, fun _ => rfl, fun _ => rfl⟩
  | arr items ih =>
    have hitems : ∀ v ∈ items, Unmoved v := fun v hv => ih v hv (sorted_item hsorted hv)
    refine ⟨fun path => ?_, fun _ => rfl, fun _ => rfl, fun path => ?_, fun _ => rfl⟩
    · rw [normalizeDocument, items_unmoved hitems]
      rfl
    · rw [normalizeList, schemas_unmoved hitems]
      rfl
  | obj fields ih =>
    have hsortedFields : ∀ f ∈ fields, canonical f.2 = f.2 := fun f hf => sorted_field hsorted hf
    have hfields : ∀ f ∈ fields, Unmoved f.2 := fun f hf => ih f hf (hsortedFields f hf)
    refine ⟨fun path => ?_, fun path => ?_, fun path => ?_, fun _ => rfl, fun path => ?_⟩
    · rw [normalizeDocument, fields_unmoved hfields hsortedFields]
      rfl
    · rw [normalizeSchema, schemaFields_unmoved hfields hsortedFields]
      rfl
    · rw [normalizeMap, entries_unmoved hfields]
      rfl
    · rw [normalizeDependencies, dependents_unmoved hfields hsortedFields]
      rfl

end Walkers

/-! ## Files with a document -/

theorem toFields_ofFields {fields : List (String × Json F)}
    (h : ∀ f ∈ fields, (Loaded.ofJson f.2).toJson = f.2) : Loaded.toFields (Loaded.ofFields fields) = fields := by
  induction fields with
  | nil => rfl
  | cons f rest ih =>
    rw [Loaded.ofFields, Loaded.toFields, h f List.mem_cons_self, ih fun g hg => h g (List.mem_cons_of_mem f hg)]
    rfl

theorem toItems_ofItems {items : List (Json F)} (h : ∀ v ∈ items, (Loaded.ofJson v).toJson = v) :
    Loaded.toItems (Loaded.ofItems items) = items := by
  induction items with
  | nil => rfl
  | cons v rest ih =>
    rw [Loaded.ofItems, Loaded.toItems, h v List.mem_cons_self, ih fun w hw => h w (List.mem_cons_of_mem v hw)]

theorem toJson_ofJson {v : Json F} (h : Json.unique v = true) : (Loaded.ofJson v).toJson = v := by
  induction v using Json.induction with
  | null | bool b | int n | float x | str s => rfl
  | arr items ih =>
    rw [Json.unique, Json.uniqueItems_eq_true] at h
    rw [Loaded.ofJson, Loaded.toJson, toItems_ofItems fun v hv => ih v hv (h v hv)]
  | obj fields ih =>
    rw [Json.unique_obj] at h
    rw [Loaded.ofJson, Loaded.toJson, toFields_ofFields fun f hf => ih f hf (h.2 f hf), Json.ofPairs_of_nodup h.1]

section Files

variable [DocumentFloat F]

/-- The file holds the document, with the keys in any order: in JSON, as `json.dumps` writes it with
any separators; in another file, as `yaml.safe_load` reads it. -/
def Serialized (host : Host F) (filename : String) (content : ByteArray) (document : Json F) : Prop :=
  ∃ text, decodeUtf8Sig content = some text ∧
    if endsWith (lower filename) ".json" then
      ∃ (sep : Json.Separators) (v : Json F), sep.Readable ∧ Json.unique v = true ∧ canonical v = document ∧
        text.toList = Json.dumps sep v
    else ∃ loaded, host.safeLoad text = some loaded ∧ canonical loaded.toJson = document

/-- What is read from the file is the document up to the order of keys. -/
theorem Serialized.decoded {host : Host F} {filename : String} {content : ByteArray} {document : Json F}
    {loaded : Loaded F} (h : Serialized host filename content document)
    (hloaded : decodeDocument host filename content = .ok loaded) : canonical loaded.toJson = document := by
  obtain ⟨text, htext, h⟩ := h
  unfold decodeDocument at hloaded
  split at hloaded
  · cases hloaded
  · split at hloaded
    · cases hloaded
    · rw [htext] at hloaded
      simp only at hloaded
      split at hloaded
      · cases hloaded
      split at hloaded
      · cases hloaded
      · next fields hfields =>
        obtain ⟨_, -, hloaded⟩ := bind_ok hloaded
        cases hloaded
        split at h
        · next hjson =>
          obtain ⟨sep, v, hsep, hunique, hsame, hdumps⟩ := h
          rw [if_pos hjson, loadsDocument, hdumps, Json.loads_dumps_readable hsep hunique, Option.map_some] at hfields
          split at hfields
          · rw [← Option.some.inj hfields, toJson_ofJson hunique, hsame]
          · cases hfields
        · next hjson =>
          obtain ⟨loaded, hload, hsame⟩ := h
          rw [if_neg hjson, hload] at hfields
          rw [← Option.some.inj hfields, hsame]
      · cases hloaded

/-! ## The second parse -/

section

variable {host : Host F} {filename filename' : String} {content content' : ByteArray}
  {previous previous' : List PreviousOperation} {parsed parsed' : NormalizedOpenAPI F}

/-- The version of the normalised document. -/
theorem document_version (h : Accepted host filename content previous parsed) :
    parsed.document.get? "openapi" = some (.str "3.1.0") := by
  obtain ⟨ws, -, hdocument⟩ := h.normal
  rw [hdocument, canonical, Json.sortKeys_obj]
  show (sortedFields _).lookup "openapi" = _
  rw [Json.lookup_sorted, lookup_setField, if_pos rfl]
  rfl

/-- A document that is the normalised one up to the order of keys is normalised to it. -/
theorem document_again (h : Accepted host filename content previous parsed)
    (h' : Accepted host filename' content' previous' parsed')
    (hsame : canonical parsed'.sourceDocument = parsed.document) : parsed'.document = parsed.document := by
  have hsorted := document_sorted h
  have hversion : parsed'.sourceVersion = "3.1.0" := by
    have hstr := version_of_document h'.read.version
    have hstr' := document_version h
    obtain ⟨fields, hfields⟩ := h'.read.object
    rw [hfields] at hstr
    rw [← hsame, hfields, canonical, Json.sortKeys_obj] at hstr'
    rw [show Json.get? "openapi" (.obj (sortedFields fields)) = (sortedFields fields).lookup "openapi" from rfl,
      Json.lookup_sorted, show fields.lookup "openapi" = _ from hstr] at hstr'
    exact Json.str.inj (Option.some.inj hstr')
  obtain ⟨ws, hws, hdocument'⟩ := h'.normal
  rw [hversion, decide_eq_false (by decide)] at hws
  -- the document itself is its normal form, so the keys of `ws` hold what those of the document do
  obtain ⟨fields, hfields⟩ : ∃ fields, parsed.document = .obj fields := by
    obtain ⟨us, -, hdocument⟩ := h.normal
    exact ⟨_, hdocument.trans (Json.sortKeys_obj _)⟩
  have hself : normalize false .root (.obj fields) = some (.obj fields) :=
    (normalizeDocument_eq false rfl).mp ((unmoved (hfields ▸ hsorted)).document "")
  have hunique := unique_document h
  rw [hfields] at hsame hsorted hunique ⊢
  have hnormal : sortKeys (.obj ws) = sortKeys (.obj fields) :=
    normalize_same false parsed'.sourceDocument .root _ _ _ h'.read.unique hunique (hsame.trans hsorted.symm) hws hself
  have huniqueNormal := normalize_unique hws h'.read.unique
  rw [hdocument', ← hsorted]
  refine (Json.sortKeys_obj_eq (Json.setField_nodup (Json.unique_obj.mp huniqueNormal).1)
    (Json.unique_obj.mp hunique).1).mpr fun key => ?_
  rw [lookup_setField]
  split
  · next hkey =>
    have hstr := document_version h
    rw [hfields] at hstr
    rw [hkey, show fields.lookup "openapi" = _ from hstr]
  · exact lookup_of_same hnormal key

/-- **The normalised document is a normal form.**  A file that holds it gives, when it is accepted,
the same document, hash, operations and Markdown; and no walker for OpenAPI 3.1 changes the document
or a value at any place in it. -/
theorem normal_form (h : parseAndNormalizeOpenapi host filename content previous = .ok parsed) :
    (∀ filename' content' previous' parsed', Serialized host filename' content' parsed.document →
      parseAndNormalizeOpenapi host filename' content' previous' = .ok parsed' →
        parsed'.document = parsed.document ∧ parsed'.contentHash = parsed.contentHash ∧
          parsed'.operations = parsed.operations ∧ parsed'.markdown = parsed.markdown) ∧
    ∀ v, Inside v parsed.document → Unmoved v := by
  have haccepted := parse_accepted h
  constructor
  · intro filename' content' previous' parsed' hserialized h'
    have haccepted' := parse_accepted h'
    obtain ⟨loaded, refs, hloaded, hsource, -, -⟩ := haccepted'.read.refs
    have hsame := hserialized.decoded hloaded
    rw [← hsource] at hsame
    have hdocument := document_again haccepted haccepted' hsame
    exact ⟨hdocument, parsed_of_document haccepted' haccepted hdocument⟩
  · intro v hinside
    exact unmoved (hinside.sorted (document_sorted haccepted))

end

end Files

/-- The normalised pets, whose schema was a nullable string. -/
def normalPet : Json Empty :=
  canonical (.obj [("openapi", .str "3.1.0"), ("info", .obj [("title", .str "pets"), ("version", .str "1.0.0")]),
    ("paths", .obj [("/pets", .obj [("get", .obj [("operationId", .str "getPet"),
      ("responses", .obj [("200", petResponse (.obj [("type", .arr [.str "string", .str "null"])]))])])])]),
    ("tags", .arr [])])

theorem normal_form_pet :
    ∃ parsed parsed', parsePet (petWith [("type", .str "string"), ("nullable", .bool true)]) = .ok parsed ∧
      parsed.document = normalPet ∧ parsePet normalPet = .ok parsed' ∧ parsed'.document = parsed.document ∧
        parsed'.contentHash = parsed.contentHash ∧ parsed'.operations = parsed.operations ∧
        parsed'.markdown = parsed.markdown ∧ Unmoved parsed.document := by
  have hchecked : accepts (petWith [("type", .str "string"), ("nullable", .bool true)]) (fun parsed =>
      decide (dumpsCompact parsed.document = dumpsCompact normalPet)) = true := by
    decide +kernel
  have hchecked' : accepts normalPet (fun _ => true) = true := by
    decide +kernel
  obtain ⟨parsed, hparsed, htext⟩ := accepts_ok hchecked
  obtain ⟨parsed', hparsed', -⟩ := accepts_ok hchecked'
  have hunique : Json.unique normalPet = true := by decide
  have hsorted : sortKeys normalPet = normalPet := Json.sortKeys_sortKeys _
  have hdocument : parsed.document = normalPet := by
    have haccepted := parse_accepted hparsed
    rw [decide_eq_true_eq] at htext
    have hlist := congrArg String.toList htext
    rw [dumpsCompact, dumpsCompact, document_sorted haccepted, hsorted, String.toList_ofList,
      String.toList_ofList] at hlist
    exact Json.dumps_injective Json.Separators.compact_readable (unique_document haccepted) hunique hlist
  have hserialized : Serialized plainHost "contract.json" (fileOf normalPet) parsed.document := by
    refine ⟨_, decodeUtf8Sig_fileOf _, ?_⟩
    rw [if_pos (by decide), hdocument]
    exact ⟨.default, normalPet, Json.Separators.default_readable, hunique, hsorted, String.toList_ofList⟩
  obtain ⟨hsame, hhash, hoperations, hmarkdown⟩ :=
    (normal_form hparsed).1 "contract.json" (fileOf normalPet) [] parsed' hserialized hparsed'
  exact ⟨parsed, parsed', hparsed, hdocument, hparsed', hsame, hhash, hoperations, hmarkdown,
    (normal_form hparsed).2 parsed.document (.here _)⟩

end CodexMemory.OpenApi
