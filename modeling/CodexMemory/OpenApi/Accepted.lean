import CodexMemory.Json.Sorted
import CodexMemory.OpenApi.Modes
import CodexMemory.Raises

/-!
# Documents that are accepted

What `parse_and_normalize_openapi` has checked and computed when it returns.
-/

namespace CodexMemory.OpenApi

open Json (setField ofPairs unique mem_setField setField_nodup)

variable {F : Type}

/-! ## A decoded document has no key twice -/

/-- `dict(pairs)` -/
theorem unique_ofPairs {pairs : List (String × Json F)} (h : ∀ f ∈ pairs, unique f.2 = true) :
    unique (.obj (ofPairs pairs)) = true := by
  rw [Json.unique_obj, ofPairs]
  have hfold : ∀ acc : List (String × Json F), (acc.map Prod.fst).Nodup → (∀ f ∈ acc, unique f.2 = true) →
      ((pairs.foldl (fun fields p => setField p.1 p.2 fields) acc).map Prod.fst).Nodup ∧
        ∀ f ∈ pairs.foldl (fun fields p => setField p.1 p.2 fields) acc, unique f.2 = true := by
    induction pairs with
    | nil => exact fun acc hnodup hunique => ⟨hnodup, hunique⟩
    | cons p rest ih =>
      intro acc hnodup hunique
      refine ih (fun f hf => h f (List.mem_cons_of_mem _ hf)) _ (setField_nodup hnodup) fun f hf => ?_
      rcases mem_setField hf with rfl | hf
      · exact h p List.mem_cons_self
      · exact hunique f hf
  exact hfold [] List.nodup_nil nofun

mutual

theorem unique_toJson : ∀ v : Loaded F, unique v.toJson = true
  | .null | .bool _ | .int _ | .float _ | .str _ | .other | .again => rfl
  | .arr items => by
    rw [Loaded.toJson, unique, Json.uniqueItems_eq_true]
    exact unique_toItems items
  | .obj fields => by
    rw [Loaded.toJson]
    exact unique_ofPairs (unique_toFields fields)

theorem unique_toItems : ∀ items : List (Loaded F), ∀ v ∈ Loaded.toItems items, unique v = true
  | [], _, h => nomatch h
  | v :: rest, w, h => by
    rw [Loaded.toItems] at h
    rcases List.mem_cons.mp h with rfl | h
    · exact unique_toJson v
    · exact unique_toItems rest w h

theorem unique_toFields : ∀ fields : List (Key × Loaded F), ∀ f ∈ Loaded.toFields fields, unique f.2 = true
  | [], _, h => nomatch h
  | (k, v) :: rest, f, h => by
    rw [Loaded.toFields] at h
    rcases List.mem_cons.mp h with rfl | h
    · exact unique_toJson v
    · exact unique_toFields rest f h

end

/-! ## The whole parse -/

variable [DocumentFloat F]

/-- A document that was read. -/
structure ReadAs (host : Host F) (filename : String) (content : ByteArray) (document : Json F) (version : String) :
    Prop where
  object : ∃ fields, document = .obj fields
  unique : unique document = true
  refs : ∃ loaded refs, decodeDocument host filename content = .ok loaded ∧ document = loaded.toJson ∧
    walk "" 0 loaded = .ok refs ∧ checkRefs host document refs = .ok ()
  version : validateVersion host document = .ok version
  valid : host.validateSpec document = none

theorem decodeDocument_object {host : Host F} {filename : String} {content : ByteArray} {loaded : Loaded F}
    (h : decodeDocument host filename content = .ok loaded) : ∃ fields, loaded = .obj fields := by
  unfold decodeDocument at h
  split at h
  · cases h
  · split at h
    · cases h
    · split at h
      · cases h
      · split at h
        · cases h
        · split at h
          · cases h
          · next fields _ =>
            obtain ⟨_, -, h⟩ := bind_ok h
            exact ⟨fields, (Except.ok.inj h).symm⟩
          · cases h

/-- What the checks on a decoded document have found. -/
theorem checkDocument_ok {host : Host F} {filename : String} {content : ByteArray} {loaded : Loaded F}
    {document : Json F} {version : String} (hloaded : decodeDocument host filename content = .ok loaded)
    (h : checkDocument host loaded = .ok (document, version)) : ReadAs host filename content document version := by
  unfold checkDocument at h
  obtain ⟨refs, hrefs, h⟩ := bind_ok h
  obtain ⟨_, hcheck, h⟩ := bind_ok h
  obtain ⟨version', hversion, h⟩ := bind_ok h
  obtain ⟨_, -, h⟩ := bind_ok h
  obtain ⟨_, -, h⟩ := bind_ok h
  obtain ⟨_, hvalid, h⟩ := bind_ok h
  cases h
  refine ⟨?_, unique_toJson loaded, ⟨loaded, refs, hloaded, rfl, hrefs, hcheck⟩, hversion, ?_⟩
  · obtain ⟨fields, rfl⟩ := decodeDocument_object hloaded
    exact ⟨_, rfl⟩
  · unfold validateOpenapiSpec at hvalid
    split at hvalid
    · next hnone => exact hnone
    · cases hvalid

theorem serialize_ok {v : Json F} {text : String} (h : serialize v = .ok text) : text = dumpsCompact v := by
  unfold serialize at h
  split at h
  · cases h
  · exact (Except.ok.inj h).symm

/-- **What an accepted document is.** -/
structure Accepted (host : Host F) (filename : String) (content : ByteArray) (previous : List PreviousOperation)
    (parsed : NormalizedOpenAPI F) : Prop where
  read : ReadAs host filename content parsed.sourceDocument parsed.sourceVersion
  normal : ∃ ws, normalize (decide (parsed.sourceVersion = "3.0.3")) .root parsed.sourceDocument = some (.obj ws) ∧
    parsed.document = canonical (.obj (setField "openapi" (.str "3.1.0") ws))
  operations : operationsOf host parsed.document = .ok parsed.operations
  transition : validateOperationTransition (routesOf parsed.operations) previous = .ok parsed.warnings
  contentHash : parsed.contentHash = host.sha256 (dumpsCompact parsed.document)
  markdown : parsed.markdown = generateMarkdown host parsed.document parsed.operations

theorem parse_accepted {host : Host F} {filename : String} {content : ByteArray} {previous : List PreviousOperation}
    {parsed : NormalizedOpenAPI F} (h : parseAndNormalizeOpenapi host filename content previous = .ok parsed) :
    Accepted host filename content previous parsed := by
  obtain ⟨loaded, hloaded, h⟩ := bind_ok h
  obtain ⟨⟨document, version⟩, hread, h⟩ := bind_ok h
  obtain ⟨normalized, hnormal, h⟩ := bind_ok h
  obtain ⟨operations, hoperations, h⟩ := bind_ok h
  obtain ⟨warnings, hwarnings, h⟩ := bind_ok h
  obtain ⟨serialized, hserialized, h⟩ := bind_ok h
  cases h
  have hreadAs := checkDocument_ok hloaded hread
  refine ⟨hreadAs, ?_, hoperations, hwarnings, congrArg _ (serialize_ok hserialized), rfl⟩
  unfold normalizedOf at hnormal
  obtain ⟨value, hvalue, hnormal⟩ := bind_ok hnormal
  obtain ⟨fields, rfl⟩ := hreadAs.object
  cases value with
  | obj ws => exact ⟨ws, (normalizeDocument_eq _ rfl).mp hvalue, (Except.ok.inj hnormal).symm⟩
  | null | bool b | int n | float x | str s | arr items => cases hnormal

omit [DocumentFloat F] in
theorem version_of_document {host : Host F} {document : Json F} {version : String}
    (h : validateVersion host document = .ok version) : document.get? "openapi" = some (.str version) := by
  unfold validateVersion at h
  split at h
  · cases h
  · next version' _ hversion =>
    have hsame : version' = version := by
      split at h
      · cases h
      · split at h
        · split at h
          · split at h
            · exact Except.ok.inj h
            · exact Except.ok.inj h
            · cases h
            · cases h
          · cases h
        · cases h
    rw [hversion, hsame]
  · cases h

/-! ## Concrete documents -/

instance : DocumentFloat Empty where
  isFinite x := nomatch x
  no_constants _ _ := rfl

/-- A host for documents in JSON without floats that the validator accepts. -/
def plainHost : Host Empty where
  safeLoad _ := none
  validateSpec _ := none
  sha256 text := text
  digit c := if c.isDigit then some (some (c.toNat - '0'.toNat)) else none
  str _ := ""
  recursionLimit := 100

/-- The file of a document. -/
def fileOf (document : Json Empty) : ByteArray := (String.ofList (Json.dumps .default document)).toUTF8

/-- An OpenAPI 3.0.3 document with one operation, `GET /pets`, and further fields. -/
def petDocument (responses : List (String × Json Empty)) (more : List (String × Json Empty)) : Json Empty :=
  .obj ([("openapi", .str "3.0.3"), ("info", .obj [("title", .str "pets"), ("version", .str "1.0.0")]),
    ("paths", .obj [("/pets", .obj [("get", .obj [("operationId", .str "getPet"), ("responses", .obj responses)])])])]
    ++ more)

/-- A response with a schema. -/
def petResponse (schema : Json Empty) : Json Empty :=
  .obj [("description", .str "pets"),
    ("content", .obj [("application/json", .obj [("schema", schema)])])]

theorem validate_ofJson (path : String) (v : Json Empty) : validateJsonValues path (Loaded.ofJson v) = .ok () := by
  induction v using Json.induction generalizing path with
  | null | bool b | int n | str s => rfl
  | float x => cases x
  | arr items ih =>
    have hitems : ∀ items : List (Json Empty),
        (∀ v ∈ items, ∀ path, validateJsonValues path (Loaded.ofJson v) = .ok ()) →
        ∀ index, validateItems path index (Loaded.ofItems items) = .ok () := by
      intro items
      induction items with
      | nil => exact fun _ _ => rfl
      | cons v rest hrest =>
        intro h index
        rw [Loaded.ofItems, validateItems, h v List.mem_cons_self]
        exact hrest (fun w hw => h w (List.mem_cons_of_mem v hw)) (index + 1)
    exact hitems items (fun v hv path => ih v hv path) 0
  | obj fields ih =>
    have hfields : ∀ fields : List (String × Json Empty),
        (∀ f ∈ fields, ∀ path, validateJsonValues path (Loaded.ofJson f.2) = .ok ()) →
        validateFields path (Loaded.ofFields fields) = .ok () := by
      intro fields
      induction fields with
      | nil => exact fun _ => rfl
      | cons f rest hrest =>
        intro h
        rw [Loaded.ofFields, validateFields, h f List.mem_cons_self]
        · exact hrest fun g hg => h g (List.mem_cons_of_mem f hg)
        · exact nofun
    exact hfields fields fun f hf path => ih f hf path

theorem size_utf8_le (text : List Char) : (String.ofList text).toUTF8.size ≤ 4 * text.length := by
  show (text.flatMap String.utf8EncodeChar).toByteArray.size ≤ 4 * text.length
  rw [List.size_toByteArray]
  induction text with
  | nil => exact Nat.le_refl 0
  | cons c rest ih =>
    have hchar : (String.utf8EncodeChar c).length ≤ 4 := by
      rw [String.length_utf8EncodeChar]
      exact Char.utf8Size_le_four c
    rw [List.flatMap_cons, List.length_append, List.length_cons]
    omega

theorem decodeUtf8Sig_fileOf (fields : List (String × Json Empty)) :
    decodeUtf8Sig (fileOf (.obj fields)) = some (String.ofList (Json.dumps .default (.obj fields))) := by
  have hutf8 : String.fromUTF8? (fileOf (.obj fields)) = some (String.ofList (Json.dumps .default (.obj fields))) := by
    have hvalid : (fileOf (.obj fields)).IsValidUTF8 :=
      (String.ofList (Json.dumps .default (.obj fields))).isValidUTF8
    rw [String.fromUTF8?, dif_pos hvalid]
    rfl
  obtain ⟨rest, hrest⟩ : ∃ rest, Json.dumps .default (.obj fields) = '{' :: rest := by
    cases fields with
    | nil => exact ⟨_, rfl⟩
    | cons f fields => exact ⟨_, rfl⟩
  rw [decodeUtf8Sig, hutf8, Option.map_some, String.toList_ofList, hrest]
  rfl

/-- A text that `json.loads` reads, without lone surrogates. -/
def readable (text : List Char) : Bool := Json.accepts Json.python text && !loneSurrogate false text

/-- The file of a document is decoded to it. -/
theorem decodeDocument_fileOf {host : Host Empty} {fields : List (String × Json Empty)}
    (hunique : unique (.obj fields) = true) (hread : readable (Json.dumps .default (.obj fields)) = true)
    (hsize : 4 * (Json.dumps .default (.obj fields)).length ≤ maxDocumentBytes) :
    decodeDocument host "contract.json" (fileOf (.obj fields)) = .ok (Loaded.ofJson (.obj fields)) := by
  rw [readable, Bool.and_eq_true, Bool.not_eq_true'] at hread
  have hlarge : ¬ maxDocumentBytes < (fileOf (.obj fields)).size :=
    Nat.not_lt.mpr (Nat.le_trans (size_utf8_le _) hsize)
  rw [decodeDocument, if_neg (by decide), if_neg hlarge, decodeUtf8Sig_fileOf]
  simp only [unencodable, loadsDocument, String.toList_ofList, hread.1, hread.2, Json.loads_dumps hunique,
    Option.map_some, Loaded.ofJson, if_true, Bool.and_false, Bool.false_eq_true, if_false]
  rw [if_pos (by decide)]
  show (validateJsonValues "" (Loaded.ofJson (.obj fields)) >>= fun _ => _) = _
  rw [validate_ofJson]
  rfl

/-- The file of a document is parsed as the document. -/
theorem parse_fileOf {host : Host Empty} {document : Json Empty} (hobject : document.isObject = true)
    (hunique : unique document = true) (hread : readable (Json.dumps .default document) = true)
    (hsize : 4 * (Json.dumps .default document).length ≤ maxDocumentBytes) (previous : List PreviousOperation) :
    parseAndNormalizeOpenapi host "contract.json" (fileOf document) previous =
      parseLoaded host (Loaded.ofJson document) previous := by
  cases document with
  | obj fields =>
    rw [parseAndNormalizeOpenapi, decodeDocument_fileOf hunique hread hsize]
    rfl
  | null | bool b | int n | float x | str s | arr items => cases hobject

/-- The answer for a file of a document. -/
def parsePet (document : Json Empty) : Except Failure (NormalizedOpenAPI Empty) :=
  parseAndNormalizeOpenapi plainHost "contract.json" (fileOf document) []

/-- The document is accepted, and `p` is true of the result. -/
def accepts (document : Json Empty) (p : NormalizedOpenAPI Empty → Bool) : Bool :=
  document.isObject && unique document && readable (Json.dumps .default document) &&
    decide (4 * (Json.dumps .default document).length ≤ maxDocumentBytes) &&
    match parseLoaded plainHost (Loaded.ofJson document) [] with
    | .ok parsed => p parsed
    | .error _ => false

theorem accepts_ok {document : Json Empty} {p : NormalizedOpenAPI Empty → Bool} (h : accepts document p = true) :
    ∃ parsed, parsePet document = .ok parsed ∧ p parsed = true := by
  rw [accepts, Bool.and_eq_true, Bool.and_eq_true, Bool.and_eq_true, Bool.and_eq_true, decide_eq_true_eq] at h
  obtain ⟨⟨⟨⟨hobject, hunique⟩, hread⟩, hsize⟩, h⟩ := h
  rw [parsePet, parse_fileOf hobject hunique hread hsize]
  split at h
  · next parsed hparsed => exact ⟨parsed, hparsed, h⟩
  · cases h

end CodexMemory.OpenApi
