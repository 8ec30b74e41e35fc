import CodexMemory.Erasing
import CodexMemory.Tasks.Evidence

/-!
# The redaction of the service

`_redact` of `v14_service.py` hides what stands under a sensitive key and replaces the credentials in every other
text; `_truncate` cuts the summaries afterwards.

* `clean_redact`: nothing sensitive is left in a value;
* `redact_redact`: a second redaction changes nothing;
* `redact_reported`: a redaction reports exactly what is sensitive;
* `stored_redacted`: what `append_event` stores.
-/

namespace CodexMemory.Tasks

open Hooks Regex

/-! ## The expression -/

/-- `(?:bearer\s+|basic\s+)[A-Za-z0-9._~+/=-]+` -/
def credentialWord : Regex :=
  .seq (.alt bearerWord (.seq (literal "basic") (.many isSpace 1))) (.many (tokenChar "._~+/=-") 1)

/-- `(?:sk|gh[pousr]|xox[baprs])-[A-Za-z0-9_-]{8,}` -/
def keyToken : Regex :=
  .seq (.alt (literal "sk") (.alt (.seq (literal "gh") (oneOf "pousr")) (.seq (literal "xox") (oneOf "baprs"))))
    (.seq (oneOf "-") (.many (tokenChar "_-") 8))

def sensitiveExpression (table : WordTable) : Regex := .alt (.seq (.boundary table.word) credentialWord) keyToken

theorem sensitiveValue_eq (table : WordTable) : sensitiveValue table = .whole (sensitiveExpression table) := rfl

theorem literal_head {text : String} {d : Char} {rest : List Char} (htext : text.toList = d :: rest)
    (hd : d.isAlpha = true) {prev : Option Char} {k b : List Char} (h : Matches (literal text) prev k b) :
    ∃ c k', k = c :: k' ∧ IsLetter c := by
  rw [literal, matches_literals, htext] at h
  obtain ⟨c, k', rfl, hc, -⟩ := List.map_eq_cons_iff.mp h
  exact ⟨c, k', rfl, by rw [IsLetter, hc]; exact hd⟩

theorem credentialWord_head {prev : Option Char} {v b : List Char} (h : Matches credentialWord prev v b) :
    ∃ c v', v = c :: v' ∧ IsLetter c := by
  obtain ⟨g, t, rfl, (⟨k, w, rfl, hk, -⟩ | ⟨k, w, rfl, hk, -⟩), -⟩ := h
  all_goals
    obtain ⟨c, k', rfl, hc⟩ := literal_head rfl (by decide) hk
    exact ⟨c, _, rfl, hc⟩

theorem credentialWord_space {prev : Option Char} {v b : List Char} (h : Matches credentialWord prev v b) :
    ∃ c ∈ v, isSpace c = true := by
  obtain ⟨g, t, rfl, (⟨k, w, rfl, -, hlength, hw⟩ | ⟨k, w, rfl, -, hlength, hw⟩), -⟩ := h
  all_goals
    obtain ⟨c, w', rfl⟩ := List.exists_cons_of_ne_nil (List.length_pos_iff.mp hlength)
    exact ⟨c, by simp, hw c List.mem_cons_self⟩

theorem keyToken_head {prev : Option Char} {v b : List Char} (h : Matches keyToken prev v b) :
    ∃ c v', v = c :: v' ∧ IsLetter c := by
  obtain ⟨g, t, rfl, hg, -⟩ := h
  have hhead : ∃ c g', g = c :: g' ∧ IsLetter c := by
    rcases hg with hk | ⟨k, m, rfl, hk, -⟩ | ⟨k, m, rfl, hk, -⟩
    · exact literal_head rfl (by decide) hk
    · obtain ⟨c, k', rfl, hc⟩ := literal_head rfl (by decide) hk
      exact ⟨c, _, rfl, hc⟩
    · obtain ⟨c, k', rfl, hc⟩ := literal_head rfl (by decide) hk
      exact ⟨c, _, rfl, hc⟩
  obtain ⟨c, g', rfl, hc⟩ := hhead
  exact ⟨c, _, rfl, hc⟩

theorem keyToken_hyphen {prev : Option Char} {v b : List Char} (h : Matches keyToken prev v b) : '-' ∈ v := by
  obtain ⟨g, _, rfl, -, s, t, rfl, ⟨d, rfl, hd⟩, -⟩ := h
  have hhyphen : d = '-' := List.mem_singleton.mp (mem_of_oneOf "-" (by decide) hd)
  rw [hhyphen]
  simp

theorem credentialWord_free : Free credentialWord :=
  ⟨⟨bearerWord_free, free_literals _ _, trivial⟩, trivial⟩

theorem keyToken_free : Free keyToken :=
  ⟨⟨free_literals _ _, ⟨free_literals _ _, trivial⟩, free_literals _ _, trivial⟩, trivial, trivial⟩

/-- The signs that no credential has: those of the mark, and the one that ends a cut text. -/
def signs : List Char := ['[', ']', '…']

theorem over_sensitive (table : WordTable) : Over (fun c => c ∉ signs) (sensitiveExpression table) := by
  have hliteral : ∀ {text : String}, (∀ d ∈ signs, foldCase d ∉ text.toList) →
      Over (fun c => c ∉ signs) (literal text) :=
    fun htext => over_literals fun c hc hsign => htext c hsign hc
  have hclass : ∀ {p : Char → Bool}, (∀ d ∈ signs, p d = false) → ∀ c, p c = true → c ∉ signs := by
    intro p hp c hc hsign
    rw [hp c hsign] at hc
    cases hc
  exact ⟨⟨trivial, ⟨⟨hliteral (by decide), hclass (by decide)⟩, hliteral (by decide), hclass (by decide)⟩,
      hclass (by decide)⟩,
    ⟨hliteral (by decide), ⟨hliteral (by decide), hclass (by decide)⟩, hliteral (by decide), hclass (by decide)⟩,
    hclass (by decide), hclass (by decide)⟩

/-- The credentials, and the mark that replaces them. -/
def sensitiveValues (table : WordTable) : Erasable '[' ']' "REDACTED".toList where
  expression := sensitiveExpression table
  starts c := (foldCase c).isAlpha
  start := by
    rintro prev v b (⟨_, v, rfl, ⟨rfl, -⟩, hv⟩ | hv)
    · exact credentialWord_head hv
    · exact keyToken_head hv
  unmarked := by
    intro prev v b h
    have hsigns := mem_of_over (over_sensitive table) h
    refine ⟨fun hmem => hsigns _ hmem (by decide), fun hmem => hsigns _ hmem (by decide), ?_⟩
    rcases h with ⟨_, v, rfl, ⟨rfl, -⟩, hv⟩ | hv
    · obtain ⟨c, hc, hspace⟩ := credentialWord_space hv
      refine ⟨c, hc, fun hmem => ?_⟩
      have hnone : ∀ d ∈ "REDACTED".toList, isSpace d = false := by decide
      rw [hnone c hmem] at hspace
      cases hspace
    · exact ⟨'-', keyToken_hyphen hv, by decide⟩
  moves := by
    rintro prev v b b' (⟨_, v, rfl, ⟨rfl, hboundary⟩, hv⟩ | hv)
    · obtain ⟨c, v', rfl, -⟩ := credentialWord_head hv
      exact .inl ⟨[], _, rfl, ⟨rfl, hboundary⟩, matches_of_free credentialWord_free hv _ _⟩
    · exact .inr (matches_of_free keyToken_free hv _ _)
  greedy := by
    have hclass : ∀ others c, (foldCase c).isAlpha = true → tokenChar others c = true := by
      intro others c hc
      rw [tokenChar, Char.isAlphanum, hc]
      rfl
    exact (((greedy_many _ _).mono (hclass _)).right _ |>.right _).either
      (((greedy_many _ _).mono (hclass _)).right _ |>.right _)

/-! ## Texts -/

/-- `_SENSITIVE_VALUE.search(text)` -/
def isSensitiveText (table : WordTable) (text : String) : Bool := search (sensitiveExpression table) none text.toList

theorem redactText_toList (table : WordTable) (text : String) :
    (redactText table text).toList =
      (sensitiveValues table).pattern.sub (Erasable.mark '[' ']' "REDACTED".toList) text.toList := by
  rw [redactText, String.toList_ofList]
  rfl

theorem redactText_clean (table : WordTable) (text : String) :
    isSensitiveText table (redactText table text) = false := by
  rw [isSensitiveText, redactText_toList]
  exact (sensitiveValues table).search_sub text.toList

theorem redactText_of_clean {table : WordTable} {text : String} (h : isSensitiveText table text = false) :
    redactText table text = text := by
  rw [← String.toList_inj, redactText_toList]
  exact (sensitiveValues table).sub_of_not_search h

theorem redactText_ne_iff {table : WordTable} {text : String} :
    redactText table text ≠ text ↔ isSensitiveText table text = true := by
  constructor
  · intro h
    cases hsensitive : isSensitiveText table text with
    | true => rfl
    | false => exact absurd (redactText_of_clean hsensitive) h
  · intro h hsame
    have hclean := redactText_clean table text
    rw [hsame, h] at hclean
    cases hclean

/-- The mark itself is not sensitive. -/
theorem mark_clean (table : WordTable) : isSensitiveText table "[REDACTED]" = false :=
  (sensitiveValues table).search_of_marks (by decide)

/-- A cut text is as clean as the whole. -/
theorem truncate_clean {F : Type} (host : Host F) {value : Option String} {limit : Nat}
    (h : ∀ text ∈ value, isSensitiveText host.table text = false) :
    ∀ text ∈ (truncate host value limit).text, isSensitiveText host.table text = false := by
  intro text htext
  cases value with
  | none => cases htext
  | some whole =>
    have hwhole := h whole rfl
    simp only [truncate] at htext
    split at htext
    · rw [← Option.some.inj htext]
      exact hwhole
    · rw [← Option.some.inj htext, isSensitiveText, String.toList_ofList]
      exact (sensitiveValues host.table).search_cut hwhole ( clip_prefix _ _)
        fun hv hmem => mem_of_over (over_sensitive host.table) hv _ hmem (by decide)

/-! ## Values -/

variable {F : Type}

mutual

/-- The texts at any depth; the keys are none of them. -/
def texts : Json F → List String
  | .str text => [text]
  | .arr items => textsOfItems items
  | .obj fields => textsOfFields fields
  | _ => []

def textsOfItems : List (Json F) → List String
  | [] => []
  | value :: rest => texts value ++ textsOfItems rest

def textsOfFields : List (String × Json F) → List String
  | [] => []
  | (_, value) :: rest => texts value ++ textsOfFields rest

end

mutual

/-- The fields of the objects at any depth. -/
def entries : Json F → List (String × Json F)
  | .arr items => entriesOfItems items
  | .obj fields => entriesOfFields fields
  | _ => []

def entriesOfItems : List (Json F) → List (String × Json F)
  | [] => []
  | value :: rest => entries value ++ entriesOfItems rest

def entriesOfFields : List (String × Json F) → List (String × Json F)
  | [] => []
  | (key, value) :: rest => (key, value) :: (entries value ++ entriesOfFields rest)

end

/-- No text is sensitive, and what stands under a sensitive key is the mark. -/
structure Clean (table : WordTable) (value : Json F) : Prop where
  texts : ∀ text ∈ texts value, isSensitiveText table text = false
  keys : ∀ field ∈ entries value, isSensitiveKey field.1 = true → field.2 = .str "[REDACTED]"

/-- A text or a key is sensitive. -/
def Sensitive (table : WordTable) (value : Json F) : Prop :=
  (∃ text ∈ texts value, isSensitiveText table text = true) ∨ ∃ field ∈ entries value, isSensitiveKey field.1 = true

theorem mem_textsOfItems {items : List (Json F)} {text : String} :
    text ∈ textsOfItems items ↔ ∃ value ∈ items, text ∈ texts value := by
  induction items with
  | nil => simp [textsOfItems]
  | cons value rest ih => simp [textsOfItems, ih]

theorem mem_textsOfFields {fields : List (String × Json F)} {text : String} :
    text ∈ textsOfFields fields ↔ ∃ field ∈ fields, text ∈ texts field.2 := by
  induction fields with
  | nil => simp [textsOfFields]
  | cons field rest ih => simp [textsOfFields, ih]

theorem mem_entriesOfItems {items : List (Json F)} {entry : String × Json F} :
    entry ∈ entriesOfItems items ↔ ∃ value ∈ items, entry ∈ entries value := by
  induction items with
  | nil => simp [entriesOfItems]
  | cons value rest ih => simp [entriesOfItems, ih]

theorem mem_entriesOfFields {fields : List (String × Json F)} {entry : String × Json F} :
    entry ∈ entriesOfFields fields ↔ ∃ field ∈ fields, entry = field ∨ entry ∈ entries field.2 := by
  induction fields with
  | nil => simp [entriesOfFields]
  | cons field rest ih => simp [entriesOfFields, ih, or_assoc]

theorem clean_arr {table : WordTable} {items : List (Json F)} :
    Clean table (.arr items) ↔ ∀ value ∈ items, Clean table value := by
  constructor
  · rintro ⟨htexts, hkeys⟩ value hvalue
    refine ⟨fun text htext => htexts text ?_, fun field hfield => hkeys field ?_⟩
    · rw [texts, mem_textsOfItems]
      exact ⟨value, hvalue, htext⟩
    · rw [entries, mem_entriesOfItems]
      exact ⟨value, hvalue, hfield⟩
  · intro h
    refine ⟨fun text htext => ?_, fun field hfield => ?_⟩
    · rw [texts, mem_textsOfItems] at htext
      obtain ⟨value, hvalue, htext⟩ := htext
      exact (h value hvalue).texts text htext
    · rw [entries, mem_entriesOfItems] at hfield
      obtain ⟨value, hvalue, hfield⟩ := hfield
      exact (h value hvalue).keys field hfield

theorem clean_obj {table : WordTable} {fields : List (String × Json F)} :
    Clean table (.obj fields) ↔ ∀ field ∈ fields,
      (isSensitiveKey field.1 = true → field.2 = .str "[REDACTED]") ∧ Clean table field.2 := by
  constructor
  · rintro ⟨htexts, hkeys⟩ field hfield
    refine ⟨hkeys field ?_, fun text htext => htexts text ?_, fun entry hentry => hkeys entry ?_⟩
    · rw [entries, mem_entriesOfFields]
      exact ⟨field, hfield, .inl rfl⟩
    · rw [texts, mem_textsOfFields]
      exact ⟨field, hfield, htext⟩
    · rw [entries, mem_entriesOfFields]
      exact ⟨field, hfield, .inr hentry⟩
  · intro h
    refine ⟨fun text htext => ?_, fun entry hentry => ?_⟩
    · rw [texts, mem_textsOfFields] at htext
      obtain ⟨field, hfield, htext⟩ := htext
      exact (h field hfield).2.texts text htext
    · rw [entries, mem_entriesOfFields] at hentry
      obtain ⟨field, hfield, rfl | hentry⟩ := hentry
      · exact (h entry hfield).1
      · exact (h field hfield).2.keys entry hentry

theorem clean_str {table : WordTable} {text : String} :
    Clean table (.str text : Json F) ↔ isSensitiveText table text = false := by
  constructor
  · exact fun h => h.texts text List.mem_cons_self
  · intro h
    refine ⟨fun other hother => ?_, fun field hfield => nomatch hfield⟩
    rw [List.mem_singleton.mp hother]
    exact h

/-- What stands under a key after a redaction. -/
def redactField (table : WordTable) (field : String × Json F) : Json F × Bool :=
  if isSensitiveKey field.1 then (.str "[REDACTED]", true) else redact table field.2

theorem redactFields_eq (table : WordTable) (fields : List (String × Json F)) :
    redactFields table fields = (fields.map fun field => (field.1, (redactField table field).1),
      fields.any fun field => (redactField table field).2) := by
  induction fields with
  | nil => rfl
  | cons field rest ih =>
    obtain ⟨key, value⟩ := field
    rw [redactFields, ih]
    rfl

theorem redactItems_eq (table : WordTable) (items : List (Json F)) :
    redactItems table items =
      (items.map fun value => (redact table value).1, items.any fun value => (redact table value).2) := by
  induction items with
  | nil => rfl
  | cons value rest ih =>
    rw [redactItems, ih]
    rfl

theorem redact_obj (table : WordTable) (fields : List (String × Json F)) :
    redact table (.obj fields) = (.obj (fields.map fun field => (field.1, (redactField table field).1)),
      fields.any fun field => (redactField table field).2) := by
  rw [redact, redactFields_eq]

theorem redact_arr (table : WordTable) (items : List (Json F)) :
    redact table (.arr items) =
      (.arr (items.map fun value => (redact table value).1), items.any fun value => (redact table value).2) := by
  rw [redact, redactItems_eq]

/-- **Nothing sensitive is left after a redaction.** -/
theorem clean_redact (table : WordTable) (value : Json F) : Clean table (redact table value).1 := by
  induction value using Json.induction with
  | null => exact ⟨fun _ h => (nomatch h), fun _ h => (nomatch h)⟩
  | bool b => exact ⟨fun _ h => (nomatch h), fun _ h => (nomatch h)⟩
  | int n => exact ⟨fun _ h => (nomatch h), fun _ h => (nomatch h)⟩
  | float x => exact ⟨fun _ h => (nomatch h), fun _ h => (nomatch h)⟩
  | str text =>
    rw [redact]
    exact clean_str.mpr (redactText_clean table text)
  | arr items ih =>
    rw [redact_arr, clean_arr]
    intro value hvalue
    obtain ⟨item, hitem, rfl⟩ := List.mem_map.mp hvalue
    exact ih item hitem
  | obj fields ih =>
    rw [redact_obj, clean_obj]
    intro field hfield
    obtain ⟨field, hmem, rfl⟩ := List.mem_map.mp hfield
    rw [redactField]
    split
    · exact ⟨fun _ => rfl, clean_str.mpr (mark_clean table)⟩
    · next hkey => exact ⟨fun h => absurd h hkey, ih field hmem⟩

/-- A clean value is left as it is. -/
theorem redact_of_clean {table : WordTable} {value : Json F} (h : Clean table value) :
    (redact table value).1 = value := by
  induction value using Json.induction with
  | null => rfl
  | bool b => rfl
  | int n => rfl
  | float x => rfl
  | str text =>
    rw [redact]
    exact congrArg Json.str (redactText_of_clean (clean_str.mp h))
  | arr items ih =>
    rw [redact_arr]
    have hitems : ∀ value ∈ items, (redact table value).1 = value :=
      fun value hvalue => ih value hvalue (clean_arr.mp h value hvalue)
    exact congrArg Json.arr ((List.map_congr_left hitems).trans (List.map_id items))
  | obj fields ih =>
    rw [redact_obj]
    refine congrArg Json.obj ((List.map_congr_left fun field hfield => ?_).trans (List.map_id fields))
    obtain ⟨hkey, hvalue⟩ := clean_obj.mp h field hfield
    refine Prod.ext rfl ?_
    rw [redactField]
    split
    · next hsensitive => exact (hkey hsensitive).symm
    · exact ih field hfield hvalue

/-- **A second redaction changes nothing.** -/
theorem redact_redact (table : WordTable) (value : Json F) :
    (redact table (redact table value).1).1 = (redact table value).1 := redact_of_clean (clean_redact table value)

/-- **A redaction reports exactly what is sensitive.** -/
theorem redact_reported (table : WordTable) (value : Json F) :
    (redact table value).2 = true ↔ Sensitive table value := by
  induction value using Json.induction with
  | null => exact ⟨fun h => (nomatch h), fun h => by simp [Sensitive, texts, entries] at h⟩
  | bool b => exact ⟨fun h => (nomatch h), fun h => by simp [Sensitive, texts, entries] at h⟩
  | int n => exact ⟨fun h => (nomatch h), fun h => by simp [Sensitive, texts, entries] at h⟩
  | float x => exact ⟨fun h => (nomatch h), fun h => by simp [Sensitive, texts, entries] at h⟩
  | str text =>
    rw [redact]
    simp [Sensitive, texts, entries, ← redactText_ne_iff]
  | arr items ih =>
    rw [redact_arr]
    simp only [Sensitive, texts, entries, mem_textsOfItems, mem_entriesOfItems, List.any_eq_true]
    constructor
    · rintro ⟨value, hvalue, hreported⟩
      rcases (ih value hvalue).mp hreported with ⟨text, htext, hs⟩ | ⟨entry, hentry, hs⟩
      · exact .inl ⟨text, ⟨value, hvalue, htext⟩, hs⟩
      · exact .inr ⟨entry, ⟨value, hvalue, hentry⟩, hs⟩
    · rintro (⟨text, ⟨value, hvalue, htext⟩, hs⟩ | ⟨entry, ⟨value, hvalue, hentry⟩, hs⟩)
      · exact ⟨value, hvalue, (ih value hvalue).mpr (.inl ⟨text, htext, hs⟩)⟩
      · exact ⟨value, hvalue, (ih value hvalue).mpr (.inr ⟨entry, hentry, hs⟩)⟩
  | obj fields ih =>
    rw [redact_obj]
    simp only [Sensitive, texts, entries, mem_textsOfFields, mem_entriesOfFields, List.any_eq_true]
    have hfield : ∀ field ∈ fields, (redactField table field).2 = true ↔
        isSensitiveKey field.1 = true ∨ Sensitive table field.2 := by
      intro field hmem
      rw [redactField]
      split
      · next hkey => exact ⟨fun _ => .inl hkey, fun _ => rfl⟩
      · next hkey => exact (ih field hmem).trans ⟨.inr, fun h => h.resolve_left hkey⟩
    constructor
    · rintro ⟨field, hmem, hreported⟩
      rcases (hfield field hmem).mp hreported with hkey | ⟨text, htext, hs⟩ | ⟨entry, hentry, hs⟩
      · exact .inr ⟨field, ⟨field, hmem, .inl rfl⟩, hkey⟩
      · exact .inl ⟨text, ⟨field, hmem, htext⟩, hs⟩
      · exact .inr ⟨entry, ⟨field, hmem, .inr hentry⟩, hs⟩
    · rintro (⟨text, ⟨field, hmem, htext⟩, hs⟩ | ⟨entry, ⟨field, hmem, rfl | hentry⟩, hs⟩)
      · exact ⟨field, hmem, (hfield field hmem).mpr (.inr (.inl ⟨text, htext, hs⟩))⟩
      · exact ⟨entry, hmem, (hfield entry hmem).mpr (.inl hs)⟩
      · exact ⟨field, hmem, (hfield field hmem).mpr (.inr (.inr ⟨entry, hentry, hs⟩))⟩

theorem redact_of_not_sensitive {table : WordTable} {value : Json F} (h : ¬Sensitive table value) :
    (redact table value).1 = value := by
  refine redact_of_clean ⟨fun text htext => ?_, fun field hfield hkey => ?_⟩
  · rw [Bool.eq_false_iff]
    exact fun hs => h (.inl ⟨text, htext, hs⟩)
  · exact absurd (.inr ⟨field, hfield, hkey⟩) h

/-! ## What is stored -/

variable {host : Host F}

/-- Something in the event is replaced: in its payload, its metadata, its Git object or its summaries. -/
def Replaces (table : WordTable) (call : Call F) : Prop :=
  Sensitive table (.obj call.payload) ∨ Sensitive table (.obj call.metadata) ∨
    Sensitive table (.obj (gitArgument call.git call.payload)) ∨
    (∃ text ∈ textArgument call.commandSummary call.payload "command_summary", isSensitiveText table text = true) ∨
    ∃ text ∈ textArgument call.resultSummary call.payload "result_summary", isSensitiveText table text = true

/-- What is stored of a call has nothing sensitive, stays so, and says whether something was replaced. -/
structure Redacted (table : WordTable) (call : Call F) (event : TaskEvent F) : Prop where
  payload : Clean table event.payloadJson
  metadata : Clean table event.metadataJson
  command : ∀ text ∈ event.command.text, isSensitiveText table text = false
  result : ∀ text ∈ event.result.text, isSensitiveText table text = false
  payloadAgain : (redact table event.payloadJson).1 = event.payloadJson
  metadataAgain : (redact table event.metadataJson).1 = event.metadataJson
  commandAgain : event.command.text.map (redactText table) = event.command.text
  resultAgain : event.result.text.map (redactText table) = event.result.text
  applied : Replaces table call → event.redactionApplied = true

/-- A text without spaces and hyphens is not sensitive. -/
theorem plain_clean (table : WordTable) {text : String} (h : ∀ c ∈ text.toList, isSpace c = false ∧ c ≠ '-') :
    isSensitiveText table text = false := by
  rw [isSensitiveText, Bool.eq_false_iff]
  intro hfound
  obtain ⟨x, v, b, htext, hv⟩ := search_iff.mp hfound
  have hin : ∀ c ∈ v, c ∈ text.toList := fun c hc => by rw [htext]; simp [hc]
  rcases hv with ⟨_, w, rfl, ⟨rfl, -⟩, hw⟩ | hw
  · obtain ⟨c, hc, hspace⟩ := credentialWord_space hw
    rw [(h c (hin c hc)).1] at hspace
    cases hspace
  · exact (h '-' (hin '-' (keyToken_hyphen hw))).2 rfl

theorem eventType_clean (table : WordTable) (eventType : EventType) : isSensitiveText table eventType.text = false := by
  cases eventType <;> exact plain_clean table (by decide)

theorem clean_scalar {table : WordTable} {value : Json F} (htexts : texts value = []) (hentries : entries value = []) :
    Clean table value := by
  refine ⟨fun text htext => ?_, fun field hfield => ?_⟩
  · rw [htexts] at htext
    cases htext
  · rw [hentries] at hfield
    cases hfield

theorem clean_exitCode (table : WordTable) (argument : Option Int) (payload : List (String × Json F)) :
    Clean table (exitCodeArgument argument payload) := by
  unfold exitCodeArgument
  split <;> exact clean_scalar rfl rfl

theorem clean_textOrNull {table : WordTable} {text : Option String} (h : ∀ t ∈ text, isSensitiveText table t = false) :
    Clean table (textOrNull text : Json F) := by
  cases text with
  | none => exact clean_scalar rfl rfl
  | some t => exact clean_str.mpr (h t rfl)

theorem clean_redactFields (table : WordTable) (fields : List (String × Json F)) :
    Clean table (.obj (redactFields table fields).1) := by
  have h := clean_redact table (.obj fields)
  rwa [redact] at h

theorem clean_map_redactText (table : WordTable) (text : Option String) :
    ∀ t ∈ text.map (redactText table), isSensitiveText table t = false := by
  intro t ht
  obtain ⟨whole, -, rfl⟩ := Option.map_eq_some_iff.mp ht
  exact redactText_clean table whole

theorem map_redactText_of_clean {table : WordTable} {text : Option String}
    (h : ∀ t ∈ text, isSensitiveText table t = false) : text.map (redactText table) = text := by
  cases text with
  | none => rfl
  | some t => exact congrArg some (redactText_of_clean (h t rfl))

/-- **What the service stores in the payload of an event is clean.** -/
theorem clean_storedPayload (eventType : EventType) (call : Call F) {command result : Summary}
    (hcommand : ∀ text ∈ command.text, isSensitiveText host.table text = false)
    (hresult : ∀ text ∈ result.text, isSensitiveText host.table text = false) :
    Clean host.table (storedPayload eventType (call.parts host.table) command result) := by
  have hkeys : ∀ key ∈ ["payload", "metadata", "git", "event_type", "command_summary", "result_summary", "exit_code",
      "redaction_applied"], isSensitiveKey key = false := by decide
  rw [storedPayload, clean_obj]
  simp only [List.forall_mem_cons]
  refine ⟨⟨?_, clean_redactFields _ _⟩, ⟨?_, clean_redactFields _ _⟩, ⟨?_, clean_redactFields _ _⟩,
    ⟨?_, clean_str.mpr (eventType_clean _ _)⟩, ⟨?_, clean_textOrNull hcommand⟩, ⟨?_, clean_textOrNull hresult⟩,
    ⟨?_, clean_exitCode _ _ _⟩, ⟨?_, clean_scalar rfl rfl⟩, by rintro _ ⟨⟩⟩
  all_goals
    intro hkey
    rw [hkeys _ (by simp)] at hkey
    cases hkey

theorem redacted_iff (table : WordTable) (call : Call F) :
    (call.parts table).redacted = true ↔ Replaces table call := by
  have hobj : ∀ fields : List (String × Json F),
      (redactFields table fields).2 = true ↔ Sensitive table (.obj fields) := by
    intro fields
    have h := redact_reported table (.obj fields)
    rwa [redact] at h
  have htext : ∀ text : Option String, (text.any fun t => redactText table t ≠ t) = true ↔
      ∃ t ∈ text, isSensitiveText table t = true := by
    intro text
    cases text with
    | none => simp
    | some t => simp [← redactText_ne_iff]
  simp only [Call.parts, Bool.or_eq_true, hobj, htext, Replaces, or_assoc]

section

variable [Json.PyFloat F]

/-- **Every event that a call stores is redacted.** -/
theorem stored_redacted {db : Db F} {call : Call F} {id : Nat} {event : TaskEvent F}
    (h : (appendEvent host db call).2.events.get? id = some event) :
    (db.events.get? id = some event ∨ Redacted host.table call event) ∧
      ∀ value : Json F, (redact host.table (redact host.table value).1).1 = (redact host.table value).1 := by
  refine ⟨?_, redact_redact host.table⟩
  rcases appendEvent_cases host db call with ⟨hsame, -⟩ | ⟨prepared, projectId, runId, hstores, -⟩
  · rw [hsame] at h
    exact .inl h
  · rw [hstores.events] at h
    rcases Table.get?_insert_cases h with ⟨-, rfl⟩ | ⟨-, hold⟩
    · have hprepares := prepare_ok hstores.prepare
      have hcommandClean : ∀ text ∈ prepared.command.text, isSensitiveText host.table text = false := by
        rw [hprepares.command]
        exact truncate_clean host (clean_map_redactText _ _)
      have hresultClean : ∀ text ∈ prepared.result.text, isSensitiveText host.table text = false := by
        rw [hprepares.result]
        exact truncate_clean host (clean_map_redactText _ _)
      have hpayload : Clean host.table prepared.storedPayload := by
        rw [hprepares.storedPayload]
        exact clean_storedPayload _ call hcommandClean hresultClean
      have hmetadataClean : Clean host.table prepared.metadata := by
        rw [hprepares.metadata]
        exact clean_redactFields _ _
      refine .inr ⟨hpayload, hmetadataClean, hcommandClean, hresultClean, redact_of_clean hpayload,
        redact_of_clean hmetadataClean, map_redactText_of_clean hcommandClean, map_redactText_of_clean hresultClean,
        fun hreplaces => ?_⟩
      exact hprepares.redactionApplied.trans ((redacted_iff host.table call).mpr hreplaces)
    · exact .inl hold

end

/-- A tool use with credentials in its payload, its metadata and its command. -/
def secretCall : Call Empty where
  principal := ⟨"demo", ["append"]⟩
  projectKey := "demo"
  sessionKey := "s1"
  eventKey := "e1"
  eventType := "PostToolUse"
  payload := [("api_key", .str "x"), ("notes", .arr [.str "bearer abc"])]
  metadata := [("steps", .obj [("refresh_token", .int 1)])]
  commandSummary := some "curl -u basic dXNlcg=="

theorem stored_redacted_secret : ∃ event, (appendEvent shortHost oneProject secretCall).2.events.get? 0 = some event ∧
    Redacted asciiTable secretCall event ∧ event.redactionApplied = true := by
  obtain ⟨prepared, hprepare⟩ : ∃ prepared, prepare shortHost secretCall = .ok prepared := by
    refine prepare_of_bytes rfl rfl (by decide) rfl ?_ ?_
    · rw [canonicalBytes_eq]
      decide +kernel
    · rw [canonicalBytes_eq]
      decide +kernel
  have hkey : outboxKey shortHost "demo" 0 = .ok "demo.task.event.received.task_event.0.v1.4" := by rfl
  have happend : appendEvent shortHost oneProject secretCall = _ :=
    appendEvent_new hprepare rfl rfl (by decide) rfl (by decide) hkey rfl
  obtain ⟨event, hevent⟩ : ∃ event, (appendEvent shortHost oneProject secretCall).2.events.get? 0 = some event := by
    rw [happend]
    exact ⟨_, rfl⟩
  rcases (stored_redacted hevent).1 with hold | hredacted
  · rw [show oneProject.events = .empty from rfl, Table.get?_empty] at hold
    cases hold
  · exact ⟨event, hevent, hredacted, hredacted.applied (.inl (.inr ⟨_, List.mem_cons_self, by decide⟩))⟩

end CodexMemory.Tasks
