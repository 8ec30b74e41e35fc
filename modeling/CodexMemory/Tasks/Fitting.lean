import CodexMemory.Hooks.Bytes
import CodexMemory.Tasks.Evidence

/-!
# The size of the hook events

`_task_payload` of `codex_hooks.py` bounds what it knows how to bound and removes fields until the event is
within `EVENT_MAX_BYTES`.

* `find?_forms`: an event is sent in the first of its forms that is within the limit;
* `fits_iff`: there is one exactly when the event was within it before, or without all that can be removed.
-/

namespace CodexMemory.Tasks

open Hooks (TaskPayload GitSnapshot DiffLine boundedText eventMaxBytes byteLength jsonBytes quotedBytes textField
  taskPayload baselineMetadata manifestMetadata buildChangeManifest redactJson)

variable {F : Type}

/-! ## What an event says -/

/-- `COMMAND_MAX_BYTES` of the hook. -/
def commandMaxBytes : Nat := 4 * 1024

/-- `RESULT_MAX_BYTES` of the hook. -/
def resultMaxBytes : Nat := 8 * 1024

/-- `_event_string` with a default. -/
def eventString (event : List (String × Json F)) (keys : List String) (default : String) : String :=
  (keys.findSome? fun key => textField event key).getD default

/-- `_first` -/
def firstField (event : List (String × Json F)) (keys : List String) : Json F :=
  (keys.findSome? fun key => event.lookup key).getD (.str "")

section

variable [Json.PyFloat F]

/-- The text that `_bounded_field` bounds. -/
def fieldText (host : Host F) : Json F → List Char
  | .str text => text.toList
  | .null => []
  | .obj fields => (redactJson host.table (.obj fields)).sortKeys.dumps .compact
  | .arr items => (redactJson host.table (.arr items)).sortKeys.dumps .compact
  | value => (host.str value).toList

/-- `_bounded_field` -/
def boundedField (host : Host F) (value : Json F) (limit : Nat) : Json F :=
  let result := boundedText host.table host.sha256 (fieldText host value) limit
  .obj (("value", .str (String.ofList result.value)) ::
    if result.truncated then
      [("length", .int result.length), ("sha256", .str result.sha256), ("truncated", .bool true)]
    else [])

/-- The exit code of a tool, if it is an integer. -/
def exitCodeField (event : List (String × Json F)) : List (String × Json F) :=
  match firstField event ["exit_code", "returncode"] with
  | .int code => [("exit_code", .int code)]
  | _ => []

/-- `_tool_metadata` -/
def toolMetadata (host : Host F) (event : List (String × Json F)) (eventType : EventType) : List (String × Json F) :=
  let toolName := eventString event ["tool_name", "tool"] ""
  let command := boundedField host (firstField event ["command", "tool_input", "input"]) commandMaxBytes
  let result :=
    boundedField host (firstField event ["result", "tool_output", "output", "last_tool_result"]) resultMaxBytes
  (if toolName = "" then []
    else [("tool_name", .str (String.ofList (boundedText host.table host.sha256 toolName.toList 512).value))]) ++
  match eventType with
  | .postToolUse => [("command", command), ("result", result)] ++ exitCodeField event
  | .preToolUse => [("command", command)]
  | _ => []

/-- What Git says when an event comes: the baseline, the present state and the lines of the diff. -/
structure GitState (F : Type) where
  baseline : GitSnapshot F
  current : GitSnapshot F
  diff : List DiffLine

/-- The metadata that the handlers of the events build. -/
def eventMetadata (host : Host F) (eventType : EventType) (event : List (String × Json F)) (git : GitState F) :
    List (String × Json F) :=
  match eventType with
  | .userPromptSubmit => [("prompt", boundedField host ((event.lookup "prompt").getD (.str "")) (eventMaxBytes - 4096))]
  | .preToolUse => baselineMetadata (toolMetadata host event .preToolUse) git.baseline
  | .postToolUse => toolMetadata host event .postToolUse
  | .stop | .sessionEnd =>
    manifestMetadata host.sha256 (buildChangeManifest host.str git.baseline git.current git.diff)

/-! ## `_fit_event_payload` -/

def payloadJson (payload : TaskPayload F) : Json F :=
  .obj [("project_key", .str payload.projectKey), ("session_key", .str payload.sessionKey),
    ("event_key", .str payload.eventKey), ("event_type", .str payload.eventType), ("metadata", .obj payload.metadata)]

/-- `len(json.dumps(payload, …).encode("utf-8"))` -/
def encodedBytes (payload : TaskPayload F) : Nat := jsonBytes (payloadJson payload)

/-- The event is within the limit of the hook. -/
def Fits (payload : TaskPayload F) : Prop := encodedBytes payload ≤ eventMaxBytes

instance (payload : TaskPayload F) : Decidable (Fits payload) := inferInstanceAs (Decidable (_ ≤ _))

/-- An object is replaced by its JSON text, bounded. -/
def boundObject (host : Host F) (metadata : List (String × Json F)) (field : String × Nat) : List (String × Json F) :=
  match metadata.lookup field.1 with
  | some (.obj fields) =>
    Json.setField field.1
      (boundedField host (.str (String.ofList ((Json.obj fields).sortKeys.dumps .compact))) field.2) metadata
  | _ => metadata

/-- A bounded field is bounded again. -/
def boundText (host : Host F) (metadata : List (String × Json F)) (field : String × Nat) : List (String × Json F) :=
  match metadata.lookup field.1 with
  | some (.obj fields) =>
    match fields.lookup "value" with
    | some (.str text) => Json.setField field.1 (boundedField host (.str text) field.2) metadata
    | _ => metadata
  | _ => metadata

/-- The metadata of an event that is too large. -/
def boundMetadata (host : Host F) (metadata : List (String × Json F)) : List (String × Json F) :=
  let objects := [("change_manifest", 40 * 1024), ("git_snapshot", 12 * 1024)].foldl (boundObject host) metadata
  let texts := [("prompt", 48 * 1024), ("command", commandMaxBytes), ("result", resultMaxBytes)].foldl
    (boundText host) objects
  Json.setField "event_truncated" (.bool true) texts

/-- The fields that can be removed, in this order. -/
def removable : List String := ["git_snapshot", "result", "command", "prompt"]

/-- `metadata.pop(key)` -/
def popField (key : String) (metadata : List (String × Json F)) : List (String × Json F) :=
  metadata.filter fun field => field.1 ≠ key

/-- `key in metadata` -/
def hasField (metadata : List (String × Json F)) (key : String) : Bool := metadata.any fun field => field.1 = key

omit [Json.PyFloat F] in
theorem popField_length {key : String} {metadata : List (String × Json F)} (h : hasField metadata key = true) :
    (popField key metadata).length < metadata.length := by
  obtain ⟨field, hmem, hkey⟩ := List.any_eq_true.mp h
  refine List.length_filter_lt_length_iff_exists.mpr ⟨field, hmem, ?_⟩
  rw [of_decide_eq_true hkey]
  simp

/-- The loop: while the event is too large, the first field that can be removed and is there is removed. -/
def popFields (payload : TaskPayload F) : TaskPayload F :=
  if Fits payload then payload
  else
    match _h : removable.find? (hasField payload.metadata) with
    | none => payload
    | some key => popFields { payload with metadata := popField key payload.metadata }
termination_by payload.metadata.length
decreasing_by exact popField_length (List.find?_some ‹_›)

/-- `_fit_event_payload` -/
def fitEventPayload (host : Host F) (payload : TaskPayload F) : TaskPayload F :=
  if Fits payload then payload
  else popFields { payload with metadata := boundMetadata host payload.metadata }

/-- The payload before it is fitted. -/
def unfitted (host : Host F) (eventType : EventType) (event : List (String × Json F)) (projectId sessionId : String)
    (git : GitState F) : TaskPayload F :=
  taskPayload host.table eventType.text projectId sessionId (eventString event ["turn_id", "turn_key"] "session")
    (eventString event ["tool_call_id", "call_id"] "") (eventMetadata host eventType event git)

/-- `_task_payload` of an event. -/
def hookPayload (host : Host F) (eventType : EventType) (event : List (String × Json F)) (projectId sessionId : String)
    (git : GitState F) : TaskPayload F :=
  fitEventPayload host (unfitted host eventType event projectId sessionId git)

/-! ## The forms of an event -/

/-- The metadata, and what is left of it as the keys are removed one after the other. -/
def stages : List String → List (String × Json F) → List (List (String × Json F))
  | [], metadata => [metadata]
  | key :: keys, metadata => metadata :: stages keys (popField key metadata)

/-- The event as it is, its bounded form, and that with ever fewer fields. -/
def forms (host : Host F) (payload : TaskPayload F) : List (TaskPayload F) :=
  payload :: (stages removable (boundMetadata host payload.metadata)).map fun metadata =>
    { payload with metadata := metadata }

omit [Json.PyFloat F] in
theorem popField_of_absent {key : String} {metadata : List (String × Json F)} (h : hasField metadata key = false) :
    popField key metadata = metadata := by
  rw [hasField, List.any_eq_false] at h
  refine List.filter_eq_self.mpr fun field hfield => decide_eq_true fun hkey => h field hfield ?_
  exact decide_eq_true hkey

omit [Json.PyFloat F] in
theorem hasField_popField (key key' : String) (metadata : List (String × Json F)) :
    hasField (popField key metadata) key' = (hasField metadata key' && decide (key' ≠ key)) := by
  rw [Bool.eq_iff_iff]
  simp only [hasField, popField, List.any_eq_true, List.mem_filter, Bool.and_eq_true, decide_eq_true_eq]
  constructor
  · rintro ⟨field, ⟨hmem, hne⟩, rfl⟩
    exact ⟨⟨field, hmem, rfl⟩, hne⟩
  · rintro ⟨⟨field, hmem, rfl⟩, hne⟩
    exact ⟨field, ⟨hmem, hne⟩, rfl⟩

theorem popFields_fits {payload : TaskPayload F} (h : Fits payload) : popFields payload = payload := by
  rw [popFields, if_pos h]

theorem popFields_none {payload : TaskPayload F} (h : removable.find? (hasField payload.metadata) = none) :
    popFields payload = payload := by
  rw [popFields]
  split
  · rfl
  · split
    · rfl
    · next key hkey =>
      rw [h] at hkey
      cases hkey

theorem popFields_some {payload : TaskPayload F} (hlarge : ¬Fits payload) {key : String}
    (h : removable.find? (hasField payload.metadata) = some key) :
    popFields payload = popFields { payload with metadata := popField key payload.metadata } := by
  rw [popFields, if_neg hlarge]
  split
  · next hnone =>
    rw [h] at hnone
    cases hnone
  · next key' hkey =>
    cases h.symm.trans hkey
    rfl

/-- **The loop ends with the first stage that is within the limit**, and with none if there is none. -/
theorem find?_stages (rest : List String) (payload : TaskPayload F) (gone : List String)
    (hkeys : removable = gone ++ rest) (hgone : ∀ key ∈ gone, hasField payload.metadata key = false)
    (hnodup : removable.Nodup) :
    ((stages rest payload.metadata).map fun metadata => { payload with metadata := metadata }).find?
      (fun form => decide (Fits form)) = if Fits (popFields payload) then some (popFields payload) else none := by
  have hbefore : gone.find? (hasField payload.metadata) = none :=
    List.find?_eq_none.mpr fun key hkey => by rw [hgone key hkey]; exact Bool.false_ne_true
  induction rest generalizing payload gone with
  | nil =>
    have hnone : removable.find? (hasField payload.metadata) = none := by rw [hkeys, List.append_nil, hbefore]
    rw [popFields_none hnone, stages, List.map_cons, List.map_nil, List.find?_cons]
    by_cases hfits : Fits payload
    · rw [decide_eq_true hfits, if_pos hfits]
    · rw [decide_eq_false hfits, if_neg hfits]
      rfl
  | cons key keys ih =>
    rw [stages, List.map_cons, List.find?_cons]
    by_cases hfits : Fits payload
    · rw [decide_eq_true hfits, popFields_fits hfits, if_pos hfits]
    · rw [decide_eq_false hfits]
      have hsplit : removable = (gone ++ [key]) ++ keys := by rw [hkeys, List.append_assoc]; rfl
      have hfresh : key ∉ gone := by
        rw [hkeys] at hnodup
        exact fun hmem => (List.nodup_append.mp hnodup).2.2 key hmem key List.mem_cons_self rfl
      cases hhas : hasField payload.metadata key with
      | true =>
        have hfirst : removable.find? (hasField payload.metadata) = some key := by
          rw [hkeys, List.find?_append, hbefore, List.find?_cons, hhas]
          rfl
        have habsent : ∀ k ∈ gone ++ [key], hasField (popField key payload.metadata) k = false := by
          intro k hk
          rw [hasField_popField]
          rcases List.mem_append.mp hk with hk | hk
          · rw [hgone k hk, Bool.false_and]
          · rw [List.mem_singleton.mp hk]
            simp
        rw [popFields_some hfits hfirst]
        exact ih { payload with metadata := popField key payload.metadata } (gone ++ [key]) hsplit habsent
          (List.find?_eq_none.mpr fun k hk => by rw [habsent k hk]; exact Bool.false_ne_true)
      | false =>
        rw [popField_of_absent hhas]
        have habsent : ∀ k ∈ gone ++ [key], hasField payload.metadata k = false := by
          intro k hk
          rcases List.mem_append.mp hk with hk | hk
          · exact hgone k hk
          · rw [List.mem_singleton.mp hk]
            exact hhas
        exact ih payload (gone ++ [key]) hsplit habsent
          (List.find?_eq_none.mpr fun k hk => by rw [habsent k hk]; exact Bool.false_ne_true)

/-- **An event is sent in its first form that is within the limit.** -/
theorem find?_forms (host : Host F) (payload : TaskPayload F) :
    (forms host payload).find? (fun form => decide (Fits form)) =
      if Fits (fitEventPayload host payload) then some (fitEventPayload host payload) else none := by
  rw [forms, List.find?_cons]
  by_cases hfits : Fits payload
  · rw [decide_eq_true hfits, fitEventPayload, if_pos hfits, if_pos hfits]
  · have hfit : fitEventPayload host payload =
        popFields { payload with metadata := boundMetadata host payload.metadata } := by
      rw [fitEventPayload]
      exact if_neg hfits
    rw [decide_eq_false hfits, hfit]
    exact find?_stages removable { payload with metadata := boundMetadata host payload.metadata } [] rfl
      (fun _ h => nomatch h) (by decide)

/-! ## What is never removed -/

theorem encodedBytes_eq (payload : TaskPayload F) :
    encodedBytes payload = 70 + quotedBytes payload.projectKey + quotedBytes payload.sessionKey +
      quotedBytes payload.eventKey + quotedBytes payload.eventType + jsonBytes (.obj payload.metadata) := by
  have hproject : quotedBytes "project_key" = 13 := by decide
  have hsession : quotedBytes "session_key" = 13 := by decide
  have hevent : quotedBytes "event_key" = 11 := by decide
  have htype : quotedBytes "event_type" = 12 := by decide
  have hmetadata : quotedBytes "metadata" = 10 := by decide
  rw [encodedBytes, payloadJson, Hooks.jsonBytes_obj (List.cons_ne_nil _ _)]
  simp only [List.map_cons, List.map_nil, List.sum_cons, List.sum_nil, Hooks.jsonBytes_str, hproject, hsession, hevent,
    htype, hmetadata]
  omega

/-- The metadata without the fields that can be removed. -/
def withoutFields (keys : List String) (metadata : List (String × Json F)) : List (String × Json F) :=
  keys.foldl (fun metadata key => popField key metadata) metadata

theorem withoutFields_le (keys : List String) (metadata : List (String × Json F)) :
    jsonBytes (.obj (withoutFields keys metadata)) ≤ jsonBytes (.obj metadata) := by
  induction keys generalizing metadata with
  | nil => exact le_rfl
  | cons key keys ih => exact (ih (popField key metadata)).trans (Hooks.jsonBytes_sublist_le List.filter_sublist)

theorem stages_le {keys : List String} {metadata m : List (String × Json F)} (h : m ∈ stages keys metadata) :
    jsonBytes (.obj (withoutFields keys metadata)) ≤ jsonBytes (.obj m) := by
  induction keys generalizing metadata with
  | nil =>
    rw [stages, List.mem_singleton] at h
    rw [h]
    exact le_rfl
  | cons key keys ih =>
    rw [stages, List.mem_cons] at h
    rcases h with rfl | h
    · exact withoutFields_le (key :: keys) m
    · exact ih h

omit [Json.PyFloat F] in
theorem withoutFields_mem (keys : List String) (metadata : List (String × Json F)) :
    withoutFields keys metadata ∈ stages keys metadata := by
  induction keys generalizing metadata with
  | nil => exact List.mem_singleton_self _
  | cons key keys ih => exact List.mem_cons_of_mem _ (ih (popField key metadata))

/-- The event with nothing that can be removed. -/
def leastForm (host : Host F) (payload : TaskPayload F) : TaskPayload F :=
  { payload with metadata := withoutFields removable (boundMetadata host payload.metadata) }

/-- **The limit is kept exactly when the event is within it, or what is never removed is.** -/
theorem fits_iff (host : Host F) (payload : TaskPayload F) :
    Fits (fitEventPayload host payload) ↔ Fits payload ∨ Fits (leastForm host payload) := by
  have hfind := find?_forms host payload
  constructor
  · intro hfits
    rw [if_pos hfits] at hfind
    have hmem := List.mem_of_find?_eq_some hfind
    rw [forms, List.mem_cons, List.mem_map] at hmem
    rcases hmem with heq | ⟨metadata, hstage, heq⟩
    · exact .inl (heq ▸ hfits)
    · refine .inr ?_
      have hle := stages_le hstage
      rw [← heq, Fits, encodedBytes_eq] at hfits
      rw [Fits, encodedBytes_eq]
      change 70 + quotedBytes payload.projectKey + quotedBytes payload.sessionKey + quotedBytes payload.eventKey +
        quotedBytes payload.eventType + jsonBytes (.obj metadata) ≤ eventMaxBytes at hfits
      change 70 + quotedBytes payload.projectKey + quotedBytes payload.sessionKey + quotedBytes payload.eventKey +
        quotedBytes payload.eventType +
          jsonBytes (.obj (withoutFields removable (boundMetadata host payload.metadata))) ≤ eventMaxBytes
      omega
  · intro hsome
    have hform : ∃ form ∈ forms host payload, Fits form := by
      rcases hsome with hfits | hfits
      · exact ⟨payload, List.mem_cons_self, hfits⟩
      · exact ⟨leastForm host payload,
          List.mem_cons_of_mem _ (List.mem_map_of_mem (withoutFields_mem removable _)), hfits⟩
    obtain ⟨form, hmem, hfits⟩ := hform
    by_contra hlarge
    rw [if_neg hlarge, List.find?_eq_none] at hfind
    exact hfind form hmem (decide_eq_true hfits)

/-! ## What is never touched -/

/-- The fields that are bounded, set or removed. -/
def touched : List String := ["change_manifest", "git_snapshot", "prompt", "command", "result", "event_truncated"]

omit [Json.PyFloat F] in
theorem mem_setField_of_ne {key : String} {value : Json F} {fields : List (String × Json F)} {field : String × Json F}
    (h : field ∈ fields) (hne : field.1 ≠ key) : field ∈ Json.setField key value fields := by
  induction fields with
  | nil => cases h
  | cons first rest ih =>
    obtain ⟨k, v⟩ := first
    rw [Json.setField]
    split
    · next hk =>
      rcases List.mem_cons.mp h with rfl | h
      · exact absurd hk hne
      · exact List.mem_cons_of_mem _ h
    · rcases List.mem_cons.mp h with rfl | h
      · exact List.mem_cons_self
      · exact List.mem_cons_of_mem _ (ih h)

theorem mem_boundObject (host : Host F) {metadata : List (String × Json F)} {key : String} {limit : Nat}
    {field : String × Json F} (h : field ∈ metadata) (hne : field.1 ≠ key) :
    field ∈ boundObject host metadata (key, limit) := by
  rw [boundObject]
  split
  · exact mem_setField_of_ne h hne
  · exact h

theorem mem_boundText (host : Host F) {metadata : List (String × Json F)} {key : String} {limit : Nat}
    {field : String × Json F} (h : field ∈ metadata) (hne : field.1 ≠ key) :
    field ∈ boundText host metadata (key, limit) := by
  rw [boundText]
  split
  · split
    · exact mem_setField_of_ne h hne
    · exact h
  · exact h

theorem mem_leastForm (host : Host F) {payload : TaskPayload F} {field : String × Json F} (h : field ∈ payload.metadata)
    (hkey : field.1 ∉ touched) : field ∈ (leastForm host payload).metadata := by
  have hne : ∀ key ∈ touched, field.1 ≠ key := fun key hmem heq => hkey (heq ▸ hmem)
  have hbounded : field ∈ boundMetadata host payload.metadata := by
    refine mem_setField_of_ne ?_ (hne _ (by decide))
    refine mem_boundText host (mem_boundText host (mem_boundText host ?_ (hne _ (by decide))) (hne _ (by decide)))
      (hne _ (by decide))
    exact mem_boundObject host (mem_boundObject host h (hne _ (by decide))) (hne _ (by decide))
  have hkeep : ∀ (keys : List String) (metadata : List (String × Json F)), (∀ key ∈ keys, key ∈ touched) →
      field ∈ metadata → field ∈ withoutFields keys metadata := by
    intro keys
    induction keys with
    | nil => exact fun _ _ hmem => hmem
    | cons key keys ih =>
      intro metadata hkeys hmem
      refine ih _ (fun k hk => hkeys k (List.mem_cons_of_mem _ hk)) (List.mem_filter.mpr ⟨hmem, decide_eq_true ?_⟩)
      exact hne key (hkeys key List.mem_cons_self)
  exact hkeep removable _ (by decide) hbounded

/-- **An event is not within the limit if one of the other fields is not.** -/
theorem not_fits_of_field (host : Host F) {payload : TaskPayload F} {field : String × Json F}
    (h : field ∈ payload.metadata) (hkey : field.1 ∉ touched) (hlarge : eventMaxBytes < jsonBytes field.2) :
    ¬Fits (fitEventPayload host payload) := by
  have hform : ∀ form : TaskPayload F, field ∈ form.metadata → ¬Fits form := by
    intro form hmem hfits
    have hfield := Hooks.field_le_jsonBytes hmem
    rw [Fits, encodedBytes_eq] at hfits
    omega
  rw [fits_iff, not_or]
  exact ⟨hform payload h, hform _ (mem_leastForm host h hkey)⟩

/-! ## What an event is about -/

theorem popFields_names (payload : TaskPayload F) :
    ∃ metadata, popFields payload = { payload with metadata := metadata } := by
  fun_induction popFields payload with
  | case1 payload hfits => exact ⟨payload.metadata, rfl⟩
  | case2 payload hlarge hnone => exact ⟨payload.metadata, rfl⟩
  | case3 payload hlarge key hkey ih => exact ih

theorem fitEventPayload_names (host : Host F) (payload : TaskPayload F) :
    ∃ metadata, fitEventPayload host payload = { payload with metadata := metadata } := by
  rw [fitEventPayload]
  split
  · exact ⟨payload.metadata, rfl⟩
  · exact popFields_names _

end

end CodexMemory.Tasks
