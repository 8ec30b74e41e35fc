import CodexMemory.Raises
import CodexMemory.Text

/-!
# The idempotency keys of `persistence/idempotency.py`

* `boundedKey_inj`: keys of version `v1` stay different when they are cut;
* `keys_separate_iff`: when two actions with a common key are the same part by part.
-/

namespace CodexMemory

/-- `_normalise_part`, `none` where it raises. -/
def normalisePart (value : String) : Option String :=
  let collapse := fun (c : Char) (out : List Char) =>
    if isSpace c then (if out.head? = some ' ' then out else ' ' :: out) else c :: out
  let text := ((lower (strip value)).toList.foldr collapse []).map fun c => if c = ' ' then '-' else c
  let alnum := fun (c : Char) => c.isLower || c.isDigit
  match text with
  | [] => none
  | c :: rest =>
    if alnum c && rest.all fun c => alnum c || c = '.' || c = '_' || c = ':' || c = '-' then
      some (String.ofList text)
    else none

/-- `_normalise_part` of a field, with the message of the `ValueError`. -/
def normaliseField (field value : String) : Except String String :=
  match normalisePart value with
  | some text => .ok text
  | none => .error (field ++ " contains invalid idempotency characters")

/-- `IdempotencyKeyBuilder(project_key).build(…)`; `sha256` is the hexadecimal
digest of a text in UTF-8. -/
def buildIdempotencyKey (sha256 : String → String) (projectKey operation sourceType sourceId version : String) :
    Except String String := do
  let projectKey ← normaliseField "project_key" projectKey
  let operation ← normaliseField "operation" operation
  let sourceType ← normaliseField "source_type" sourceType
  let sourceId ← normaliseField "source_id" sourceId
  let version ← normaliseField "version" version
  let key := ".".intercalate [projectKey, operation, sourceType, sourceId, version]
  return if key.length ≤ 255 then key else slice key 0 190 ++ "." ++ sha256 key

theorem normaliseField_ok {field value text : String} (h : normaliseField field value = .ok text) :
    normalisePart value = some text := by
  unfold normaliseField at h
  split at h
  · next found => rw [found, Except.ok.inj h]
  · cases h

/-! ## Keys made of different parts -/

/-- A built key is the dotted parts, cut and hashed beyond 255 characters. -/
def boundedKey (sha256 : String → String) (key : String) : String :=
  if key.length ≤ 255 then key else slice key 0 190 ++ "." ++ sha256 key

theorem buildIdempotencyKey_of_parts (sha256 : String → String)
    {projectKey operation sourceType sourceId version projectPart operationPart typePart idPart versionPart : String}
    (hproject : normalisePart projectKey = some projectPart) (hoperation : normalisePart operation = some operationPart)
    (htype : normalisePart sourceType = some typePart) (hid : normalisePart sourceId = some idPart)
    (hversion : normalisePart version = some versionPart) :
    buildIdempotencyKey sha256 projectKey operation sourceType sourceId version =
      .ok (boundedKey sha256 (".".intercalate [projectPart, operationPart, typePart, idPart, versionPart])) := by
  simp only [buildIdempotencyKey, normaliseField, hproject, hoperation, htype, hid, hversion]
  rfl

/-- The source identifier is the part that the builder may refuse. -/
theorem buildIdempotencyKey_refuses (sha256 : String → String) {projectKey operation sourceType sourceId version : String}
    (hid : normalisePart sourceId = none) (key : String) :
    buildIdempotencyKey sha256 projectKey operation sourceType sourceId version ≠ .ok key := by
  intro h
  simp only [buildIdempotencyKey, normaliseField, hid] at h
  cases hproject : normalisePart projectKey <;> cases hoperation : normalisePart operation <;>
    cases htype : normalisePart sourceType <;> simp [hproject, hoperation, htype, bind, Except.bind] at h

theorem toList_intercalate_parts (a b c d e : String) :
    (".".intercalate [a, b, c, d, e]).toList =
      (a.toList ++ '.' :: (b.toList ++ '.' :: (c.toList ++ ['.']))) ++ (d.toList ++ '.' :: e.toList) := by
  simp [String.intercalate_cons_cons]

theorem intercalate_parts_end (a b c d : String) :
    ∃ front, (".".intercalate [a, b, c, d, "v1"]).toList = front ++ ['v', '1'] := by
  refine ⟨(a.toList ++ '.' :: (b.toList ++ '.' :: (c.toList ++ ['.']))) ++ (d.toList ++ ['.']), ?_⟩
  rw [toList_intercalate_parts, show "v1".toList = ['v', '1'] from rfl]
  simp only [List.append_assoc, List.cons_append, List.nil_append]

/-- Keys that differ in their source identifier only are different. -/
theorem intercalate_parts_inj {a b c d d' e : String}
    (h : ".".intercalate [a, b, c, d, e] = ".".intercalate [a, b, c, d', e]) : d = d' := by
  have hlist := congrArg String.toList h
  rw [toList_intercalate_parts, toList_intercalate_parts] at hlist
  have hid := List.append_cancel_right (List.append_cancel_left hlist)
  exact String.ext hid

/-- A digest is written with 64 hexadecimal digits. -/
def HexDigest (text : String) : Prop :=
  text.toList.length = 64 ∧ ∀ c ∈ text.toList, c.isDigit ∨ ('a' ≤ c ∧ c ≤ 'f')

/-- The letter `v` of a version is not in a digest. -/
theorem not_digest_end {front start : List Char} {digest : String} (hdigest : HexDigest digest) :
    front ++ ['v', '1'] ≠ start ++ digest.toList := by
  intro h
  have hsuffix : ['v', '1'] <:+ digest.toList := by
    have hlength : ['v', '1'].length ≤ digest.toList.length := by
      rw [hdigest.1]
      decide
    exact List.suffix_of_suffix_length_le ⟨front, rfl⟩ ⟨start, h.symm⟩ hlength
  have hv : 'v' ∈ digest.toList := hsuffix.subset (by decide)
  exact absurd (hdigest.2 'v' hv) (by decide)

/-- Keys of version `v1` stay different when they are cut, as far as the digest tells
the long ones apart. -/
theorem boundedKey_inj {sha256 : String → String} (hdigest : ∀ text, HexDigest (sha256 text)) {key key' : String}
    {front front' : List Char} (hkey : key.toList = front ++ ['v', '1']) (hkey' : key'.toList = front' ++ ['v', '1'])
    (hcollision : 255 < key.length → 255 < key'.length → sha256 key = sha256 key' → key = key')
    (h : boundedKey sha256 key = boundedKey sha256 key') : key = key' := by
  have hlist := congrArg String.toList h
  rw [boundedKey, boundedKey] at hlist
  split at hlist <;> rename_i hshort <;> split at hlist <;> rename_i hshort'
  · exact String.ext hlist
  · rw [hkey, String.toList_append] at hlist
    exact absurd hlist (not_digest_end (hdigest key'))
  · rw [hkey', String.toList_append] at hlist
    exact absurd hlist.symm (not_digest_end (hdigest key))
  · simp only [String.toList_append] at hlist
    have hsame := (List.append_inj' hlist ((hdigest key).1.trans (hdigest key').1.symm)).2
    exact hcollision (by omega) (by omega) (String.ext hsame)

/-! ## The words of a key -/

/-- The words of the parts: what stands between the dots. -/
def wordsOf (parts : List String) : List (List Char) := parts.flatMap fun part => part.toList.splitOn '.'

/-- How many words each part has. -/
def wordCounts (parts : List String) : List Nat := parts.map fun part => (part.toList.splitOn '.').length

theorem eq_of_words {text text' : String} (h : text.toList.splitOn '.' = text'.toList.splitOn '.') : text = text' := by
  have htext := congrArg (List.intercalate ['.']) h
  rw [List.intercalate_splitOn, List.intercalate_splitOn] at htext
  exact String.ext htext

theorem splitOn_dotted (part : String) (parts : List String) :
    (".".intercalate (part :: parts)).toList.splitOn '.' = wordsOf (part :: parts) := by
  induction parts generalizing part with
  | nil => simp [wordsOf]
  | cons next rest ih =>
    have htext : (".".intercalate (part :: next :: rest)).toList =
        part.toList ++ '.' :: (".".intercalate (next :: rest)).toList := by
      simp [String.intercalate_cons_cons]
    rw [htext, List.splitOn_append_cons_self, ih]
    simp [wordsOf]

/-- The dotted text of parts is their words. -/
theorem dotted_eq_iff {part part' : String} {parts parts' : List String} :
    ".".intercalate (part :: parts) = ".".intercalate (part' :: parts') ↔
      wordsOf (part :: parts) = wordsOf (part' :: parts') := by
  rw [← splitOn_dotted, ← splitOn_dotted]
  exact ⟨fun h => by rw [h], eq_of_words⟩

/-- Parts are told apart by their words and by how many of them each part has. -/
theorem parts_eq_iff {parts parts' : List String} :
    parts = parts' ↔ wordsOf parts = wordsOf parts' ∧ wordCounts parts = wordCounts parts' := by
  refine ⟨fun h => h ▸ ⟨rfl, rfl⟩, fun ⟨hwords, hcounts⟩ => ?_⟩
  induction parts generalizing parts' with
  | nil =>
    cases parts' with
    | nil => rfl
    | cons part' rest' => cases hcounts
  | cons part rest ih =>
    cases parts' with
    | nil => cases hcounts
    | cons part' rest' =>
      obtain ⟨hcount, hcounts⟩ := List.cons.inj hcounts
      rw [wordsOf, wordsOf, List.flatMap_cons, List.flatMap_cons] at hwords
      obtain ⟨hpart, hrest⟩ := List.append_inj hwords hcount
      rw [← wordsOf, ← wordsOf] at hrest
      rw [eq_of_words hpart, ih ⟨hrest, hcounts⟩ hrest hcounts]

/-! ## When keys separate actions -/

/-- The arguments of a key. -/
structure KeyedAction where
  projectKey : String
  operation : String
  sourceType : String
  sourceId : String
  version : String

namespace KeyedAction

/-- The parts after normalisation; the builder accepts an action where all of them have one. -/
def parts (a : KeyedAction) : List String :=
  [a.projectKey, a.operation, a.sourceType, a.sourceId, a.version].map fun value => (normalisePart value).getD ""

/-- The parts with dots between them. -/
def dotted (a : KeyedAction) : String := ".".intercalate a.parts

def key (sha256 : String → String) (a : KeyedAction) : Except String String :=
  buildIdempotencyKey sha256 a.projectKey a.operation a.sourceType a.sourceId a.version

/-- The words are the same, and they are divided in another way. -/
def Redivides (a b : KeyedAction) : Prop := wordsOf a.parts = wordsOf b.parts ∧ wordCounts a.parts ≠ wordCounts b.parts

/-- A short text that is the cut text of a long one, with its digest. -/
def MeetsCut (sha256 : String → String) (a b : KeyedAction) : Prop :=
  a.dotted.length ≤ 255 ∧ 255 < b.dotted.length ∧ a.dotted = slice b.dotted 0 190 ++ "." ++ sha256 b.dotted

variable {sha256 : String → String} {a b : KeyedAction} {key key' : String}

theorem key_eq (h : a.key sha256 = .ok key) : key = boundedKey sha256 a.dotted := by
  unfold KeyedAction.key buildIdempotencyKey at h
  obtain ⟨projectPart, hproject, h⟩ := bind_ok h
  obtain ⟨operationPart, hoperation, h⟩ := bind_ok h
  obtain ⟨typePart, htype, h⟩ := bind_ok h
  obtain ⟨idPart, hid, h⟩ := bind_ok h
  obtain ⟨versionPart, hversion, h⟩ := bind_ok h
  have hdotted : a.dotted = ".".intercalate [projectPart, operationPart, typePart, idPart, versionPart] := by
    simp [dotted, parts, normaliseField_ok hproject, normaliseField_ok hoperation, normaliseField_ok htype,
      normaliseField_ok hid, normaliseField_ok hversion]
  rw [boundedKey, hdotted]
  exact (Except.ok.inj h).symm

theorem length_boundedKey (hlength : ∀ text, (sha256 text).length = 64) (text : String) :
    (boundedKey sha256 text).length ≤ 255 := by
  rw [boundedKey]
  split
  · next hshort => exact hshort
  · have hcut : (slice text 0 190).length ≤ 190 := by
      rw [slice, String.length_ofList, List.length_take]
      omega
    rw [String.length_append, String.length_append, hlength, show ".".length = 1 from rfl]
    omega

/-- Dotted texts of different actions. -/
theorem dotted_eq : a.dotted = b.dotted ↔ wordsOf a.parts = wordsOf b.parts := dotted_eq_iff

theorem redivides_iff : Redivides a b ↔ a.dotted = b.dotted ∧ a.parts ≠ b.parts := by
  rw [Redivides, dotted_eq, Ne, Ne, parts_eq_iff ]
  exact ⟨fun ⟨hwords, hcounts⟩ => ⟨hwords, fun h => hcounts h.2⟩,
    fun ⟨hwords, hne⟩ => ⟨hwords, fun h => hne ⟨hwords, h⟩⟩⟩

/-- Two keys are the same where the dotted texts are, or where one is the cut text of the other. -/
theorem boundedKey_eq_iff (hlength : ∀ text, (sha256 text).length = 64)
    (hcollision : sha256 a.dotted = sha256 b.dotted → a.dotted = b.dotted) :
    boundedKey sha256 a.dotted = boundedKey sha256 b.dotted ↔
      a.dotted = b.dotted ∨ MeetsCut sha256 a b ∨ MeetsCut sha256 b a := by
  constructor
  · intro h
    by_cases hshort : a.dotted.length ≤ 255 <;> by_cases hshort' : b.dotted.length ≤ 255
    · rw [boundedKey, if_pos hshort, boundedKey, if_pos hshort'] at h
      exact Or.inl h
    · rw [boundedKey, if_pos hshort, boundedKey, if_neg hshort'] at h
      exact Or.inr (Or.inl ⟨hshort, by omega, h⟩)
    · rw [boundedKey, if_neg hshort, boundedKey, if_pos hshort'] at h
      exact Or.inr (Or.inr ⟨hshort', by omega, h.symm⟩)
    · -- both are cut: the digests have the same length, so they are the same
      rw [boundedKey, if_neg hshort, boundedKey, if_neg hshort'] at h
      have hlist := congrArg String.toList h
      rw [String.toList_append, String.toList_append (s := _ ++ _)] at hlist
      have hdigests := (List.append_inj' hlist (by
        rw [String.length_toList, String.length_toList, hlength, hlength])).2
      exact Or.inl (hcollision (String.ext hdigests))
  · rintro (h | ⟨hshort, hlong, h⟩ | ⟨hshort, hlong, h⟩)
    · rw [h]
    · rw [boundedKey, if_pos hshort, boundedKey, if_neg (by omega), h]
    · rw [boundedKey, if_neg (by omega), boundedKey, if_pos hshort, h]

/-- **When idempotency keys separate actions.**  Two actions whose digests differ where their texts do
have a common key only if they are the same part by part, exactly when neither their words are the
same in another division nor one text is the cut text of the other; and no key is too long. -/
theorem keys_separate_iff (hlength : ∀ text, (sha256 text).length = 64)
    (hcollision : sha256 a.dotted = sha256 b.dotted → a.dotted = b.dotted) (ha : a.key sha256 = .ok key)
    (hb : b.key sha256 = .ok key') :
    ((key = key' → a.parts = b.parts) ∧ key.length ≤ 255 ∧ key'.length ≤ 255) ↔
      ¬ Redivides a b ∧ ¬ MeetsCut sha256 a b ∧ ¬ MeetsCut sha256 b a := by
  have hbound : key.length ≤ 255 ∧ key'.length ≤ 255 := by
    rw [key_eq ha, key_eq hb]
    exact ⟨length_boundedKey hlength _, length_boundedKey hlength _⟩
  have hcut : ∀ {a b : KeyedAction}, MeetsCut sha256 a b → a.parts ≠ b.parts := by
    rintro a b ⟨hshort, hlong, -⟩ hparts
    rw [dotted, hparts, ← dotted] at hshort
    omega
  have hkeys : key = key' ↔ a.dotted = b.dotted ∨ MeetsCut sha256 a b ∨ MeetsCut sha256 b a := by
    rw [key_eq ha, key_eq hb]
    exact boundedKey_eq_iff hlength hcollision
  rw [redivides_iff, hkeys]
  constructor
  · rintro ⟨hseparate, -, -⟩
    exact ⟨fun h => h.2 (hseparate (Or.inl h.1)), fun h => hcut h (hseparate (Or.inr (Or.inl h))),
      fun h => hcut h (hseparate (Or.inr (Or.inr h))).symm⟩
  · rintro ⟨hwords, hleft, hright⟩
    refine ⟨?_, hbound⟩
    rintro (h | h | h)
    · exact Classical.byContradiction fun hne => hwords ⟨h, hne⟩
    · exact absurd h hleft
    · exact absurd h hright

/-! ## Three actions of one project -/

/-- The digests of three dotted texts. -/
def threeDigests (text : String) : String :=
  if text = "demo.extract_memory_candidate.message.msg-123.memory-extractor-v1" then
    "6af263b9edfb740a69beddbc2934c342bfdb5836b000b8c2f3398a2cb4cd409f"
  else if text = "demo.extract_error_memory.message.msg-123.error-extractor-v1" then
    "66eeb422dc62c56a8a2e2e6573abb5f1cd937ae8cecfcf87be66bd268781bf40"
  else "3047b394f30d9be9f3273401aeb41f375f6c4752936198150b64603806d57a1c"

theorem length_threeDigests (text : String) : (threeDigests text).length = 64 := by
  rw [threeDigests]
  split
  · decide
  · split <;> decide

/-- The memory and the error candidates of one message. -/
def memoryCandidate : KeyedAction :=
  ⟨"demo", "extract_memory_candidate", "message", "msg-123", "memory-extractor-v1"⟩

def errorCandidate : KeyedAction :=
  ⟨"demo", "extract_error_memory", "message", "msg-123", "error-extractor-v1"⟩

theorem keys_separate_candidates :
    ∃ key key', memoryCandidate.key threeDigests = .ok key ∧ errorCandidate.key threeDigests = .ok key' ∧
      key ≠ key' ∧ key.length ≤ 255 ∧ key'.length ≤ 255 := by
  have hmemory : memoryCandidate.key threeDigests =
      .ok "demo.extract_memory_candidate.message.msg-123.memory-extractor-v1" := by
    decide
  have herror : errorCandidate.key threeDigests =
      .ok "demo.extract_error_memory.message.msg-123.error-extractor-v1" := by
    decide
  have hcollision : threeDigests memoryCandidate.dotted = threeDigests errorCandidate.dotted →
      memoryCandidate.dotted = errorCandidate.dotted := by
    decide
  have hwords : ¬ Redivides memoryCandidate errorCandidate := fun h => absurd h.1 (by decide)
  have hshort : ¬ 255 < memoryCandidate.dotted.length ∧ ¬ 255 < errorCandidate.dotted.length := by
    decide
  obtain ⟨hseparate, hlength, hlength'⟩ := (keys_separate_iff length_threeDigests hcollision hmemory herror).mpr
    ⟨hwords, fun h => hshort.2 h.2.1, fun h => hshort.1 h.2.1⟩
  exact ⟨_, _, hmemory, herror, fun h => absurd (hseparate h) (by decide), hlength, hlength'⟩

/-- One key for two actions: the words of an operation and a source type in another division. -/
theorem key_shared :
    ¬ ∀ (a b : KeyedAction) (key : String), a.key threeDigests = .ok key → b.key threeDigests = .ok key →
      a.parts = b.parts := by
  intro h
  have hparts := h ⟨"demo", "message.appended", "message", "1", "v1"⟩ ⟨"demo", "message", "appended.message", "1", "v1"⟩
    "demo.message.appended.message.1.v1" (by decide) (by decide)
  exact absurd hparts (by decide)

end KeyedAction

end CodexMemory
