import CodexMemory.Tasks.Fitting
import Mathlib.Data.List.TakeWhile

/-!
# The hook events and the limits of the service

`append_event` measures the metadata of a hook event after a redaction of its own and in an envelope of its own.

* `refused_iff`: when the service refuses the request of a hook for its size;
* `eventFits_iff`: when an event is within the limit of the hook and the service takes it.
-/

namespace CodexMemory.Tasks

open Hooks (TaskPayload GitSnapshot asciiTable jsonBytes quotedBytes)

variable {F : Type} [Json.PyFloat F]

/-! ## The claim -/

/-- The size checks of `append_event`. -/
def sizeErrors : List Error :=
  [.validation "事件载荷超过 64 KiB 限制", .validation "脱敏和截断后的事件载荷仍超过 64 KiB 限制"]

/-- The event that the hook sends is within its limit, names what it is about, and is not refused for its size. -/
structure EventFits (host : Host F) (db : Db F) (type : EventType) (event : List (String × Json F))
    (projectId sessionId : String) (git : GitState F) : Prop where
  small : encodedBytes (hookPayload host type event projectId sessionId git) ≤ Hooks.eventMaxBytes
  project : (payloadJson (hookPayload host type event projectId sessionId git)).get? "project_key" =
    some (.str projectId)
  session : (payloadJson (hookPayload host type event projectId sessionId git)).get? "session_key" =
    some (.str sessionId)
  eventKey : (payloadJson (hookPayload host type event projectId sessionId git)).get? "event_key" =
    some (.str (unfitted host type event projectId sessionId git).eventKey)
  eventType : (payloadJson (hookPayload host type event projectId sessionId git)).get? "event_type" =
    some (.str type.text)
  admitted : ∀ principal : Principal, ∀ error ∈ sizeErrors,
    (appendEvent host db (requestOf principal (hookPayload host type event projectId sessionId git))).1 ≠ .error error

/-- The bytes of the event in the envelope of the service: the type, and the metadata after its redaction. -/
def storedBytes (host : Host F) (payload : TaskPayload F) : Nat :=
  132 + quotedBytes payload.eventType + jsonBytes (.obj (redactFields host.table payload.metadata).1) +
    if (redactFields host.table payload.metadata).2 then 4 else 5

/-! ## What the service measures -/

/-- The parts of a request of a hook. -/
def requestParts (host : Host F) (payload : TaskPayload F) : Parts F where
  payload := .obj []
  metadata := .obj (redactFields host.table payload.metadata).1
  git := .obj []
  command := none
  result := none
  exitCode := .null
  redacted := (redactFields host.table payload.metadata).2

omit [Json.PyFloat F] in
theorem requestParts_eq (host : Host F) (principal : Principal) (payload : TaskPayload F) :
    (requestOf principal payload).parts host.table = requestParts host payload := by
  have hnone : redactFields host.table ([] : List (String × Json F)) = ([], false) := rfl
  simp only [Call.parts, requestOf, gitArgument, textArgument, exitCodeArgument, List.lookup, hnone, requestParts]
  simp

theorem canonicalBytes_stored (host : Host F) (eventType : EventType) (payload : TaskPayload F)
    (htype : eventType.text = payload.eventType) :
    canonicalBytes (storedPayload eventType (requestParts host payload) ⟨none, 0, none, false⟩ ⟨none, 0, none, false⟩) =
      storedBytes host payload := by
  have hpayload : quotedBytes "payload" = 9 := by decide
  have hmetadata : quotedBytes "metadata" = 10 := by decide
  have hgit : quotedBytes "git" = 5 := by decide
  have hevent : quotedBytes "event_type" = 12 := by decide
  have hcommand : quotedBytes "command_summary" = 17 := by decide
  have hresult : quotedBytes "result_summary" = 16 := by decide
  have hexit : quotedBytes "exit_code" = 11 := by decide
  have hredaction : quotedBytes "redaction_applied" = 19 := by decide
  have hnull : jsonBytes (.null : Json F) = 4 := rfl
  have hbool : ∀ b, jsonBytes (.bool b : Json F) = if b then 4 else 5 := by
    intro b
    cases b <;> rfl
  rw [canonicalBytes_eq]
  change jsonBytes (storedPayload eventType (requestParts host payload) ⟨none, 0, none, false⟩
    ⟨none, 0, none, false⟩) = _
  rw [storedPayload, Hooks.jsonBytes_obj (List.cons_ne_nil _ _)]
  simp only [List.map_cons, List.map_nil, List.sum_cons, List.sum_nil, requestParts, textOrNull, Option.map_none,
    Option.getD_none, Hooks.jsonBytes_str, Hooks.jsonBytes_obj_nil, hpayload, hmetadata, hgit, hevent, hcommand,
    hresult, hexit, hredaction, hnull, hbool, htype, storedBytes]
  omega

theorem canonicalBytes_normalized (host : Host F) (eventType : EventType) (payload : TaskPayload F) :
    canonicalBytes (normalized eventType (requestParts host payload)) ≤
      canonicalBytes (storedPayload eventType (requestParts host payload) ⟨none, 0, none, false⟩
        ⟨none, 0, none, false⟩) := by
  -- the type stands first in the one and fourth in the other
  have hperm := @List.perm_middle _ ("event_type", Json.str eventType.text)
    [("payload", (requestParts host payload).payload), ("metadata", (requestParts host payload).metadata),
      ("git", (requestParts host payload).git)]
    [("command_summary", textOrNull none), ("result_summary", textOrNull none),
      ("exit_code", (requestParts host payload).exitCode)]
  rw [canonicalBytes_eq, canonicalBytes_eq]
  exact (Hooks.jsonBytes_perm hperm).ge.trans (Hooks.jsonBytes_sublist_le (List.sublist_append_left _ _))

/-! ## When the service refuses -/

omit [Json.PyFloat F] in
theorem appendTo_not_validation (host : Host F) (db : Db F) (call : Call F) (prepared : Prepared F)
    (projectId runId : Nat) (message : String) :
    appendTo host db call prepared projectId runId ≠ .error (.validation message) := by
  intro h
  rw [appendTo] at h
  split at h
  · split at h <;> simp at h
  · split at h
    · simp [tooLong] at h
    · dsimp only at h
      split at h
      · simp at h
      · split at h <;> simp at h

/-- What the call is told to be wrong with it is said before the session. -/
theorem validation_of_appendEvent {host : Host F} {db : Db F} {call : Call F} {message : String}
    (h : (appendEvent host db call).1 = .error (.validation message)) :
    prepare host call = .error (.validation message) := by
  rw [appendEvent] at h
  split at h
  · next error hprepare =>
    rw [hprepare]
    exact congrArg Except.error (Except.error.inj h)
  · split at h
    · simp at h
    · dsimp only at h
      split at h
      · next error happended =>
        have herror : error = .validation message := Except.error.inj h
        rw [herror] at happended
        split at happended
        · exact absurd happended (appendTo_not_validation _ _ _ _ _ _ _)
        · split at happended
          · simp [tooLong] at happended
          · exact absurd happended (appendTo_not_validation _ _ _ _ _ _ _)
      · simp at h

/-- A request of a hook is refused for its size exactly when its envelope is too large. -/
theorem prepareParts_error (host : Host F) (principal : Principal) (payload : TaskPayload F) (type : EventType)
    (htype : type.text = payload.eventType) :
    (∃ error ∈ sizeErrors, prepareParts host (requestOf principal payload) type = .error error) ↔
      maxEventBytes < storedBytes host payload := by
  have hnormalized := canonicalBytes_normalized host type payload
  rw [← canonicalBytes_stored host type payload htype]
  simp only [prepareParts, requestParts_eq]
  constructor
  · rintro ⟨error, -, herror⟩
    split at herror
    · next hlarge =>
      rw [Bool.and_eq_true, decide_eq_true_eq] at hlarge
      exact hlarge.1.trans_le hnormalized
    · split at herror
      · next hlarge => exact hlarge
      · cases herror
  · intro hlarge
    by_cases hfirst : maxEventBytes < canonicalBytes (normalized type (requestParts host payload))
    · refine ⟨_, List.mem_cons_self, if_pos ?_⟩
      rw [Bool.and_eq_true]
      exact ⟨decide_eq_true hfirst, rfl⟩
    · refine ⟨_, List.mem_cons_of_mem _ List.mem_cons_self, ?_⟩
      rw [if_neg, if_pos]
      · exact hlarge
      · rw [Bool.and_eq_true, decide_eq_true_eq]
        exact fun h => hfirst h.1

/-- A text that does not begin with a space is not blank. -/
theorem strip_ne_empty {text : String} {c : Char} {rest : List Char} (htext : text.toList = c :: rest)
    (hc : isSpace c = false) : strip text ≠ "" := by
  intro hstrip
  have hlist := congrArg String.toList hstrip
  rw [strip, String.toList_ofList, htext, List.dropWhile_cons_of_neg (by rw [hc]; exact Bool.false_ne_true)] at hlist
  have hnil : ((c :: rest).reverse.dropWhile isSpace) = [] := List.reverse_eq_nil_iff.mp hlist
  have hall := List.dropWhile_eq_nil_iff.mp hnil c (List.mem_reverse.mpr List.mem_cons_self)
  rw [hc] at hall
  cases hall

/-- **The request of a hook is refused for its size exactly when its session has a name and its envelope is too
large.** -/
theorem refused_iff (host : Host F) (db : Db F) (payload : TaskPayload F) (type : EventType)
    (htype : type.text = payload.eventType) (hkey : strip payload.eventKey ≠ "") :
    (∃ principal, ∃ error ∈ sizeErrors, (appendEvent host db (requestOf principal payload)).1 = .error error) ↔
      strip payload.sessionKey ≠ "" ∧ maxEventBytes < storedBytes host payload := by
  have hof : EventType.ofText? payload.eventType = some type := by
    rw [← htype]
    cases type <;> rfl
  constructor
  · rintro ⟨principal, error, hmem, herror⟩
    obtain ⟨message, rfl⟩ : ∃ message, error = .validation message := by
      simp only [sizeErrors, List.mem_cons, List.not_mem_nil, or_false] at hmem
      rcases hmem with rfl | rfl
      · exact ⟨_, rfl⟩
      · exact ⟨_, rfl⟩
    have hprepare := validation_of_appendEvent herror
    rw [prepare] at hprepare
    split at hprepare
    · cases hprepare
    · split at hprepare
      · cases hprepare
      · split at hprepare
        · -- the message of a blank key is none of the two
          rw [← Error.validation.inj (Except.error.inj hprepare)] at hmem
          exact absurd hmem (by decide)
        · next hblank =>
          rw [Bool.or_eq_true, decide_eq_true_eq, decide_eq_true_eq, not_or] at hblank
          have htype' : EventType.ofText? (requestOf principal payload).eventType = some type := hof
          rw [htype'] at hprepare
          exact ⟨hblank.1, (prepareParts_error host principal payload type htype).mp ⟨_, hmem, hprepare⟩⟩
  · rintro ⟨hsession, hlarge⟩
    obtain ⟨error, hmem, herror⟩ :=
      (prepareParts_error host ⟨payload.projectKey, ["append"]⟩ payload type htype).mpr hlarge
    refine ⟨⟨payload.projectKey, ["append"]⟩, error, hmem, ?_⟩
    generalize hcall : requestOf ⟨payload.projectKey, ["append"]⟩ payload = call at herror
    have hpermission : requirePermission call.principal "append" = .ok () := by
      rw [← hcall]
      simp [requestOf, requirePermission]
    have haccess : requireProjectAccess call.principal call.projectKey = .ok () := by
      rw [← hcall]
      simp [requestOf, requireProjectAccess]
    have hcalltype : EventType.ofText? call.eventType = some type := by
      rw [← hcall]
      exact hof
    have hblank : ¬(strip call.sessionKey = "" || strip call.eventKey = "") := by
      rw [← hcall]
      simp [requestOf, hsession, hkey]
    have hprepare : prepare host call = .error error := by
      simp only [prepare, hpermission, haccess, hcalltype]
      rw [if_neg hblank, herror]
    rw [appendEvent, hprepare]

/-! ## The events that fit -/

theorem hookPayload_names (host : Host F) (type : EventType) (event : List (String × Json F))
    (projectId sessionId : String) (git : GitState F) : ∃ metadata, hookPayload host type event projectId sessionId git =
      { projectKey := projectId
        sessionKey := sessionId
        eventKey := (unfitted host type event projectId sessionId git).eventKey
        eventType := type.text
        metadata := metadata } :=
  fitEventPayload_names host (unfitted host type event projectId sessionId git)

omit [Json.PyFloat F] in
theorem eventKey_not_blank (host : Host F) [Json.PyFloat F] (type : EventType) (event : List (String × Json F))
    (projectId sessionId : String) (git : GitState F) :
    strip (unfitted host type event projectId sessionId git).eventKey ≠ "" := by
  have hkey : ∃ rest, (unfitted host type event projectId sessionId git).eventKey.toList = 'c' :: rest := by
    simp only [unfitted, Hooks.taskPayload, String.toList_append]
    exact ⟨_, rfl⟩
  obtain ⟨rest, hkey⟩ := hkey
  exact strip_ne_empty hkey (by decide)

/-- **The event of a hook fits exactly when one of its forms is within the limit, and the first that is does not
outgrow the envelope of the service** (whose keys come before its sizes). -/
theorem eventFits_iff (host : Host F) (db : Db F) (type : EventType) (event : List (String × Json F))
    (projectId sessionId : String) (git : GitState F) :
    EventFits host db type event projectId sessionId git ↔
      ∃ form, (forms host (unfitted host type event projectId sessionId git)).find? (fun form => decide (Fits form)) =
        some form ∧ (strip sessionId = "" ∨ storedBytes host form ≤ maxEventBytes) := by
  obtain ⟨metadata, hnames⟩ := hookPayload_names host type event projectId sessionId git
  have hfind := find?_forms host (unfitted host type event projectId sessionId git)
  change _ = if Fits (hookPayload host type event projectId sessionId git) then
    some (hookPayload host type event projectId sessionId git) else none at hfind
  have hrefused := refused_iff host db (hookPayload host type event projectId sessionId git) type (by rw [hnames])
    (by rw [hnames]; exact eventKey_not_blank host type event projectId sessionId git)
  have hsession : (hookPayload host type event projectId sessionId git).sessionKey = sessionId := by rw [hnames]
  rw [hsession] at hrefused
  constructor
  · intro h
    refine ⟨hookPayload host type event projectId sessionId git, by rw [hfind, if_pos (show Fits _ from h.small)], ?_⟩
    by_contra hno
    rw [not_or, Nat.not_le] at hno
    obtain ⟨principal, error, hmem, herror⟩ := hrefused.mpr hno
    exact h.admitted principal error hmem herror
  · rintro ⟨form, hform, hsize⟩
    have hfits : Fits (hookPayload host type event projectId sessionId git) := by
      by_contra hlarge
      rw [hfind, if_neg hlarge] at hform
      cases hform
    rw [hfind, if_pos hfits] at hform
    rw [← Option.some.inj hform] at hsize
    refine ⟨hfits, ?_, ?_, ?_, ?_, fun principal error hmem herror => ?_⟩
    · rw [hnames]
      rfl
    · rw [hnames]
      rfl
    · rw [hnames]
      rfl
    · rw [hnames]
      rfl
    · obtain ⟨hblank, hlarge⟩ := hrefused.mp ⟨principal, error, hmem, herror⟩
      rcases hsize with hsize | hsize
      · exact hblank hsize
      · omega

/-! ## A repository with many untracked files -/

/-- A file whose name is a number. -/
def untrackedFile (n : Nat) : List (String × Json Empty) :=
  [("path", .str (String.ofList (Json.natText n))), ("bytes", .int 0), ("directory", .bool false)]

/-- A repository with untracked files. -/
def untrackedFiles (count : Nat) : GitSnapshot Empty where
  available := true
  root := some "/repo"
  branch := some "main"
  head := some "abc"
  porcelain := String.ofList (List.intercalate ['\n'] ((List.range count).map fun n => "?? ".toList ++ Json.natText n))
  diffHash := some "d0"
  untracked := (List.range count).map untrackedFile

/-- The tool use that records it. -/
def toolUse : List (String × Json Empty) :=
  [("cwd", .str "/repo"), ("session_id", .str "s1"), ("turn_id", .str "t1"), ("tool_name", .str "shell"),
    ("command", .str "ls")]

/-- Each file takes some bytes, whatever its name becomes. -/
theorem untrackedFile_le (n : Nat) : 14 ≤ jsonBytes (Hooks.redactJson asciiTable (.obj (untrackedFile n))) := by
  have hdirectory : ("directory", Hooks.redactJson asciiTable (.bool false)) ∈
      Hooks.redactJsonFields asciiTable (untrackedFile n) :=
    Hooks.mem_redactJsonFields (by simp [untrackedFile]) (by decide)
  have hkey : quotedBytes "directory" = 11 := by decide
  have hvalue : jsonBytes (Hooks.redactJson asciiTable (.bool false) : Json Empty) = 5 := rfl
  have hfield := Hooks.field_le_jsonBytes hdirectory
  rw [Hooks.redactJson]
  simp only [hkey, hvalue] at hfield
  omega

/-- The snapshot is as large as its untracked files. -/
theorem untrackedFiles_le (count : Nat) :
    count * 14 ≤ jsonBytes (Hooks.redactJson asciiTable (.obj (untrackedFiles count).toDict)) := by
  have huntracked : ("untracked", Hooks.redactJson asciiTable (.arr ((untrackedFiles count).untracked.map Json.obj))) ∈
      Hooks.redactJsonFields asciiTable (untrackedFiles count).toDict :=
    Hooks.mem_redactJsonFields (by simp [GitSnapshot.toDict]) (by decide)
  have hitems : count * 14 ≤
      jsonBytes (Hooks.redactJson asciiTable (.arr ((untrackedFiles count).untracked.map Json.obj))) := by
    have hlength :
        (((untrackedFiles count).untracked.map Json.obj).map (Hooks.redactJson asciiTable)).length = count := by
      simp [untrackedFiles]
    rw [Hooks.redactJson, Hooks.redactJsonItems_eq_map]
    refine le_trans (le_of_eq (by rw [hlength])) (Hooks.mul_le_jsonBytes fun v hv => ?_)
    rw [untrackedFiles, List.map_map, List.map_map, List.mem_map] at hv
    obtain ⟨n, -, rfl⟩ := hv
    exact untrackedFile_le n
  have hfield := Hooks.field_le_jsonBytes huntracked
  rw [Hooks.redactJson]
  dsimp only at hfield
  omega

theorem untrackedFiles_not_fits {count : Nat} (h : maxEventBytes < count * 14) :
    ¬EventFits shortHost oneProject .preToolUse toolUse "demo" "s1"
      ⟨untrackedFiles count, untrackedFiles count, []⟩ := by
  intro hfits
  have hfield : ("git_baseline", Hooks.redactJson asciiTable (.obj (untrackedFiles count).toDict)) ∈
      (unfitted shortHost .preToolUse toolUse "demo" "s1" ⟨untrackedFiles count, untrackedFiles count, []⟩).metadata :=
    Hooks.mem_redactJsonFields (List.mem_append_right _ List.mem_cons_self) (by decide)
  have hkey : "git_baseline" ∉ touched := by decide
  exact not_fits_of_field shortHost hfield hkey (h.trans_le (untrackedFiles_le count)) hfits.small

/-- **The event with the baseline of a repository with 5000 untracked files does not fit.** -/
theorem manyFiles_not_fits :
    ¬EventFits shortHost oneProject .preToolUse toolUse "demo" "s1" ⟨untrackedFiles 5000, untrackedFiles 5000, []⟩ :=
  untrackedFiles_not_fits (by decide)

end CodexMemory.Tasks
