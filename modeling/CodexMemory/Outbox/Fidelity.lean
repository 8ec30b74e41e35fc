import CodexMemory.Append.Model
import CodexMemory.Hooks.Events
import CodexMemory.Outbox.Crash

/-!
# What replay sends again

`enqueue` passes a payload through a second redaction, and `replay` sends the
result, however often the record is retried (`sentPayload_retried`).

* `start_recognised`: the server answers `duplicate` to a request with the event key
  and the content of a stored message;
* `replay_faithful_iff`: replay is faithful to the first request exactly when the
  credential patterns find nothing in the project, the session and the event key,
  nor in a content that was clipped;
* `tokenProject_unfaithful`: the event keys of a project named `token` are lost.
-/

namespace CodexMemory.Outbox

open Hooks

variable {F : Type}

/-! ## The payload of a record -/

/-- `record["payload"]`, which `replay` hands to `send`. -/
def sentPayload (record : Fields F) : Option (Fields F) :=
  match record.lookup "payload" with
  | some (.obj payload) => some payload
  | _ => none

/-- The second record is the first after some retries. -/
inductive Retried (py : Python F) : Fields F → Fields F → Prop
  | refl (record : Fields F) : Retried py record record
  | again {record record' record'' : Fields F} {now : Nat} (h : Retried py record record')
      (hretry : retryRecord py record' now = .ok record'') : Retried py record record''

theorem sentPayload_newRecord (py : Python F) (projectId eventKey : String) (payload : Fields F) (reason : String)
    (now : Nat) :
    sentPayload (newRecord py projectId eventKey payload reason now) = some (stripFields py.table payload) := by
  simp [sentPayload, newRecord, stripSensitive, List.lookup]

theorem sentPayload_retryRecord {py : Python F} {record retry : Fields F} {now : Nat}
    (h : retryRecord py record now = .ok retry) : sentPayload retry = sentPayload record := by
  rw [retryRecord] at h
  split at h
  · cases h
  · split at h
    · cases h
    · obtain rfl := Except.ok.inj h
      rw [sentPayload, lookup_setField_of_ne (by decide), lookup_setField_of_ne (by decide),
        lookup_setField_of_ne (by decide), ← sentPayload]

theorem sentPayload_retried {py : Python F} {record record' : Fields F} (h : Retried py record record') :
    sentPayload record' = sentPayload record := by
  induction h with
  | refl => rfl
  | again h hretry ih => rw [sentPayload_retryRecord hretry, ih]

/-! ## The second redaction of an append payload -/

/-- `redact_credentials` of a text, as `_strip_sensitive` applies it. -/
def redactText (table : WordTable) (text : String) : String := String.ofList (redactCredentials table text.toList)

theorem redactText_eq_self {table : WordTable} {text : String} :
    redactText table text = text ↔ Undisturbed table text.toList := by
  rw [undisturbed_iff, redactText]
  constructor
  · intro h
    have hlist := congrArg String.toList h
    rwa [String.toList_ofList] at hlist
  · intro h
    rw [h, String.ofList_toList]

/-- The payload that is sent again. -/
theorem stripFields_appendPayload (table : WordTable) (sha256 : String → String) (message : HookMessage) :
    ∃ metadata, stripFields (F := F) table (message.toAppendPayload table sha256) =
      [("project_key", .str (redactText table message.projectId)),
        ("session_key", .str (redactText table message.sessionId)),
        ("event_key", .str (redactText table message.eventKey)),
        ("role", .str (redactText table message.role.text)),
        ("content", .str (redactText table
          (String.ofList (boundedText table sha256 message.content.toList (eventMaxBytes - 1024)).value))),
        ("source", .str (redactText table "hook")), ("metadata", metadata)] := by
  have hkeys : ∀ key ∈ ["project_key", "session_key", "event_key", "role", "content", "source", "metadata"],
      isSensitiveKey key = false := by decide
  simp only [HookMessage.toAppendPayload, stripFields, hkeys "project_key" (by simp), hkeys "session_key" (by simp), hkeys "event_key" (by simp),
    hkeys "role" (by simp), hkeys "content" (by simp), hkeys "source" (by simp), hkeys "metadata" (by simp),
    Bool.false_eq_true, if_false, stripSensitive, redactText]
  exact ⟨_, rfl⟩

/-! ## The server -/

/-- The call of `append_message_v11` that the server makes for a payload. -/
def callOf (principal : Principal) (payload : Fields F) : Option Append.Call :=
  match payload.lookup "project_key", payload.lookup "session_key", payload.lookup "event_key",
      payload.lookup "role", payload.lookup "content", payload.lookup "source" with
  | some (.str projectKey), some (.str sessionKey), some (.str eventKey), some (.str role), some (.str content),
      some (.str source) => some ⟨principal, projectKey, sessionKey, eventKey, role, content, source⟩
  | _, _, _, _, _, _ => none

/-- Where the first call was admitted and its message is stored, the second call is
answered with `duplicate` and stores nothing. -/
def Recognised (sha256 : String → String) (first again : Append.Call) : Prop :=
  ∀ (s : Append.State) (c p k i : Nat), requirePermission first.principal "append" = .ok () →
    requireProjectAccess first.principal first.projectKey = .ok () →
    Append.projectOf s.projects first.projectKey = some p → s.messages.UniqueBy Append.messageIndex →
    s.messages.Live k (first.message sha256 p i) .committed →
    Append.start sha256 s c again =
      s.goTo c (.ended (.returned { messageId := k, status := .duplicate, isV11 := true }))

/-- **The same event key and content are recognised.** -/
theorem start_recognised (sha256 : String → String) {first again : Append.Call}
    (hprincipal : again.principal = first.principal) (hproject : again.projectKey = first.projectKey)
    (hkey : again.eventKey = first.eventKey) (hcontent : again.content = first.content) :
    Recognised sha256 first again := by
  intro s c p k i hpermission haccess hp hunique hlive
  have hhash : again.contentHash sha256 = first.contentHash sha256 := congrArg sha256 hcontent
  rw [Append.start, hprincipal, hproject, hpermission]
  simp only
  rw [haccess]
  simp only [hp]
  split
  · next k' message hfind =>
    obtain ⟨v, hlive', -, hmatch⟩ := Versioned.find?_some hfind
    rw [Bool.and_eq_true, decide_eq_true_eq, decide_eq_true_eq, hkey] at hmatch
    have hsame : k' = k := by
      refine hunique k' k message _ v _ (p, first.eventKey) hlive' hlive ?_ rfl
      rw [Append.messageIndex, hmatch.1, hmatch.2]
    subst hsame
    obtain ⟨rfl, -⟩ := Versioned.live_unique hlive' hlive
    show (if first.contentHash sha256 = again.contentHash sha256 then _ else _) = _
    rw [if_pos hhash.symm]
  · next hnone =>
    have hnot := Versioned.find?_none hnone hlive (Or.inl rfl)
    simp [Append.Call.message, hkey] at hnot

/-! ## Faithful replay -/

/-- The fields that identify a message, and its content. -/
def identityFields : List String := ["project_key", "session_key", "event_key", "role", "content"]

/-- What replay sends for the message has the fields of the first request, and the
server recognises it if that one arrived. -/
def Faithful (py : Python F) (sha256 : String → String) (message : HookMessage) : Prop :=
  ∀ projectId eventKey reason now record,
    Retried py (newRecord py projectId eventKey (message.toAppendPayload py.table sha256) reason now) record →
    ∃ payload, sentPayload record = some payload ∧
      (∀ field ∈ identityFields, payload.lookup field =
        (message.toAppendPayload (F := F) py.table sha256).lookup field) ∧
      ∀ principal first, callOf (F := F) principal (message.toAppendPayload py.table sha256) = some first →
        ∃ again, callOf principal payload = some again ∧ Recognised sha256 first again

/-- The credential patterns find nothing but the marker in what identifies a message,
nor in its content where that was clipped. -/
structure Unsuspicious (table : WordTable) (message : HookMessage) : Prop where
  projectId : Undisturbed table message.projectId.toList
  sessionId : Undisturbed table message.sessionId.toList
  eventKey : Undisturbed table message.eventKey.toList
  content : eventMaxBytes - 1024 < byteLength (redactCredentials table message.content.toList) →
    Undisturbed table (clip (eventMaxBytes - 1024) (redactCredentials table message.content.toList))

/-- The source of the payload is left alone. -/
theorem hook_undisturbed (table : WordTable) : Undisturbed table "hook".toList :=
  plain_undisturbed table (by decide)

/-- What the first request carries. -/
theorem lookup_appendPayload (table : WordTable) (sha256 : String → String) (message : HookMessage) :
    ∃ metadata, message.toAppendPayload (F := F) table sha256 =
      [("project_key", .str message.projectId), ("session_key", .str message.sessionId),
        ("event_key", .str message.eventKey), ("role", .str message.role.text),
        ("content", .str (String.ofList
          (boundedText table sha256 message.content.toList (eventMaxBytes - 1024)).value)),
        ("source", .str "hook"), ("metadata", metadata)] := ⟨_, rfl⟩

/-- In a message that is replayed faithfully the second redaction finds nothing. -/
theorem Faithful.unsuspicious {py : Python F} {sha256 : String → String} {message : HookMessage}
    (h : Faithful py sha256 message) : Unsuspicious py.table message := by
  obtain ⟨metadata₀, hfirst⟩ := lookup_appendPayload (F := F) py.table sha256 message
  obtain ⟨metadata, hstrip⟩ := stripFields_appendPayload (F := F) py.table sha256 message
  obtain ⟨payload, hpayload, hfields, -⟩ := h "" "" "" 0 _ (.refl _)
  rw [sentPayload_newRecord, hstrip] at hpayload
  obtain rfl := Option.some.inj hpayload
  rw [hfirst] at hfields
  simp [identityFields, List.lookup] at hfields
  obtain ⟨hproject, hsession, hkey, -, hcontent⟩ := hfields
  refine ⟨redactText_eq_self.mp hproject, redactText_eq_self.mp hsession, redactText_eq_self.mp hkey, fun _ => ?_⟩
  have hclip := redactText_eq_self.mp hcontent
  rwa [String.toList_ofList, boundedText_value] at hclip

/-- Where the second redaction finds nothing, replay is faithful. -/
theorem Unsuspicious.faithful {py : Python F} {message : HookMessage} (h : Unsuspicious py.table message)
    (sha256 : String → String) : Faithful py sha256 message := by
  obtain ⟨metadata₀, hfirst⟩ := lookup_appendPayload (F := F) py.table sha256 message
  obtain ⟨metadata, hstrip⟩ := stripFields_appendPayload (F := F) py.table sha256 message
  intro projectId eventKey reason now record hretried
  have hcontent : Undisturbed py.table (String.ofList
      (boundedText py.table sha256 message.content.toList (eventMaxBytes - 1024)).value).toList := by
    rw [String.toList_ofList]
    rcases Nat.lt_or_ge (eventMaxBytes - 1024) (byteLength (redactCredentials py.table message.content.toList))
      with hlong | hshort
    · rw [boundedText_value]
      exact h.content hlong
    · exact boundedText_undisturbed hshort
  have hsame : stripFields py.table (message.toAppendPayload (F := F) py.table sha256) =
      [("project_key", .str message.projectId), ("session_key", .str message.sessionId),
        ("event_key", .str message.eventKey), ("role", .str message.role.text),
        ("content", .str (String.ofList
          (boundedText py.table sha256 message.content.toList (eventMaxBytes - 1024)).value)),
        ("source", .str "hook"), ("metadata", metadata)] := by
    rw [hstrip, redactText_eq_self.mpr h.projectId, redactText_eq_self.mpr h.sessionId,
      redactText_eq_self.mpr h.eventKey, redactText_eq_self.mpr (role_undisturbed py.table message.role),
      redactText_eq_self.mpr hcontent, redactText_eq_self.mpr (hook_undisturbed py.table)]
  refine ⟨_, by rw [sentPayload_retried hretried, sentPayload_newRecord], ?_, ?_⟩
  · rw [hsame, hfirst]
    simp [identityFields, List.lookup]
  · intro principal first hcall
    rw [hfirst] at hcall
    rw [hsame]
    refine ⟨first, ?_, start_recognised sha256 rfl rfl rfl rfl⟩
    rw [← hcall]
    simp [callOf, List.lookup]

/-- **Replay is faithful exactly to the messages in which the second redaction finds
nothing.** -/
theorem replay_faithful_iff (py : Python F) (sha256 : String → String) (message : HookMessage) :
    Faithful py sha256 message ↔ Unsuspicious py.table message :=
  ⟨Faithful.unsuspicious, fun h => h.faithful sha256⟩

/-- **The project `token`**: all that follows it in the event key is taken for a
credential, whatever the session and the turn. -/
theorem tokenProject_unfaithful :
    ¬ ∀ message, Faithful plainPython id message := by
  intro h
  have hkey := (h ⟨"token", "s1", "t1", .user, "hello", "/"⟩).unsuspicious.eventKey
  rw [undisturbed_iff] at hkey
  revert hkey
  decide

end CodexMemory.Outbox
