import CodexMemory.Hooks.Redaction
import CodexMemory.Json.Value

/-!
# `hook_events.py`

Parsing a hook event, bounding its text and building the payload of an append
request.

* `clip_length_le`, `clip_prefix`: a clipped text is a prefix within the limit;
* `boundedText_undisturbed`: a text that was not clipped is already redacted;
* `plain_undisturbed`: lower-case letters alone are no credential.
-/

namespace CodexMemory.Hooks

open Regex Masking

/-! ## Messages -/

inductive Role
  | user | assistant
  deriving DecidableEq

def Role.text : Role → String
  | .user => "user"
  | .assistant => "assistant"

structure HookMessage where
  projectId : String
  sessionId : String
  turnId : String
  role : Role
  content : String
  cwd : String
  deriving DecidableEq

/-- `f"codex:{project_id}:{session_id}:{turn_id}:{role}"` -/
def HookMessage.eventKey (message : HookMessage) : String :=
  "codex:" ++ message.projectId ++ ":" ++ message.sessionId ++ ":" ++ message.turnId ++ ":" ++ message.role.text

section Parsing

variable {F : Type}

/-- The field, if it is a text and not empty. -/
def textField (event : List (String × Json F)) (key : String) : Option String :=
  match event.lookup key with
  | some (.str text) => if text = "" then none else some text
  | _ => none

/-- `_parse_event`, with the message of the `HookEventError`. -/
def parseEvent (event : List (String × Json F)) (projectId : String) (role : Role) (contentKey : String) :
    Except String HookMessage :=
  if projectId = "" then .error "项目标识缺少或无效"
  else
    match textField event "cwd", textField event "session_id", textField event "turn_id",
        textField event contentKey with
    | some cwd, some sessionId, some turnId, some content =>
      .ok ⟨projectId, sessionId, turnId, role, content, cwd⟩
    | _, _, _, _ => .error "Hook 事件字段缺少或无效"

def parseUserEvent (event : List (String × Json F)) (projectId : String) : Except String HookMessage :=
  parseEvent event projectId .user "prompt"

/-- `none` where the assistant said nothing. -/
def parseAssistantEvent (event : List (String × Json F)) (projectId : String) :
    Except String (Option HookMessage) :=
  match event.lookup "last_assistant_message" with
  | some (.str "") => .ok none
  | _ => (parseEvent event projectId .assistant "last_assistant_message").map some

end Parsing

/-! ## Bounded text -/

/-- `EVENT_MAX_BYTES` -/
def eventMaxBytes : Nat := 64 * 1024

/-- `len(text.encode("utf-8"))` -/
def byteLength (text : List Char) : Nat := (text.map Char.utf8Size).sum

/-- `encoded[:limit].decode("utf-8", errors="ignore")`: a character that is cut is
dropped. -/
def clip : Nat → List Char → List Char
  | _, [] => []
  | limit, c :: text => if c.utf8Size ≤ limit then c :: clip (limit - c.utf8Size) text else []

structure BoundedText where
  value : List Char
  length : Nat
  sha256 : String
  truncated : Bool

/-- `bounded_text` of a text. -/
def boundedText (table : WordTable) (sha256 : String → String) (value : List Char) (limit : Nat) : BoundedText :=
  let text := redactCredentials table value
  if byteLength text ≤ limit then ⟨text, byteLength text, sha256 (String.ofList text), false⟩
  else ⟨clip limit text, byteLength text, sha256 (String.ofList text), true⟩

theorem clip_prefix (limit : Nat) (text : List Char) : clip limit text <+: text := by
  induction text generalizing limit with
  | nil => exact List.prefix_rfl
  | cons c text ih =>
    rw [clip]
    split
    · exact (List.prefix_cons_inj c).mpr (ih _)
    · exact List.nil_prefix

theorem clip_length_le (limit : Nat) (text : List Char) : byteLength (clip limit text) ≤ limit := by
  induction text generalizing limit with
  | nil => exact Nat.zero_le limit
  | cons c text ih =>
    rw [clip]
    split
    · next hfits =>
      have htail := ih (limit - c.utf8Size)
      simp only [byteLength, List.map_cons, List.sum_cons] at htail ⊢
      omega
    · exact Nat.zero_le limit

/-- What is within the limit is not clipped. -/
theorem clip_eq_self {limit : Nat} {text : List Char} (h : byteLength text ≤ limit) : clip limit text = text := by
  induction text generalizing limit with
  | nil => rfl
  | cons c text ih =>
    simp only [byteLength, List.map_cons, List.sum_cons] at h
    rw [clip, if_pos (by omega), ih]
    rw [byteLength]
    omega

/-- **A bounded text is within its limit.** -/
theorem boundedText_length_le (table : WordTable) (sha256 : String → String) (value : List Char) (limit : Nat) :
    byteLength (boundedText table sha256 value limit).value ≤ limit := by
  rw [boundedText]
  split
  · assumption
  · exact clip_length_le limit _

theorem boundedText_value (table : WordTable) (sha256 : String → String) (value : List Char) (limit : Nat) :
    (boundedText table sha256 value limit).value = clip limit (redactCredentials table value) := by
  rw [boundedText]
  split
  · next hfits => exact (clip_eq_self hfits).symm
  · rfl

/-! ## Texts that a redaction leaves alone -/

/-- Every match of a credential pattern in the text is the marker already. -/
def Undisturbed (table : WordTable) (text : List Char) : Prop :=
  ∀ p ∈ credentialPatterns table, p.Settled redacted text

theorem undisturbed_iff {table : WordTable} {text : List Char} :
    Undisturbed table text ↔ redactCredentials table text = text := (redactCredentials_eq_self table).symm

/-- **A text that is not clipped is redacted already.** -/
theorem boundedText_undisturbed {table : WordTable} {sha256 : String → String} {value : List Char} {limit : Nat}
    (h : byteLength (redactCredentials table value) ≤ limit) :
    Undisturbed table (boundedText table sha256 value limit).value := by
  rw [boundedText_value, clip_eq_self h]
  exact redactCredentials_settled table value

/-- A known token has a `-` or a `_` in it. -/
theorem knownToken_sign {prev : Option Char} {v b : List Char} (h : Matches knownToken prev v b) :
    '-' ∈ v ∨ '_' ∈ v := by
  rcases h with ⟨k, m, rfl, hk, -⟩ | ⟨k, m, rfl, -, k₁, m₁, rfl, -, k₂, m₂, rfl, hk₂, -⟩ |
    ⟨k, m, rfl, -, k₁, m₁, rfl, -, k₂, m₂, rfl, hk₂, -⟩
  · left
    rw [literal, matches_literals] at hk
    have hmem : '-' ∈ k.map foldCase := by
      rw [hk]
      decide
    obtain ⟨c, hc, hfold⟩ := List.mem_map.mp hmem
    have hsame : foldCase c = c := eq_of_foldCase (by rw [hfold]; decide)
    rw [hsame] at hfold
    rw [hfold] at hc
    exact List.mem_append_left _ hc
  · right
    obtain ⟨d, rfl, hd⟩ := hk₂
    have hsign : d = '_' := List.mem_singleton.mp (mem_of_oneOf "_" (by decide) hd)
    rw [hsign]
    simp only [List.mem_append, List.mem_singleton, true_or, or_true]
  · left
    obtain ⟨d, rfl, hd⟩ := hk₂
    have hsign : d = '-' := List.mem_singleton.mp (mem_of_oneOf "-" (by decide) hd)
    rw [hsign]
    simp only [List.mem_append, List.mem_singleton, true_or, or_true]

theorem plain_undisturbed (table : WordTable) {text : List Char}
    (h : ∀ c ∈ text, isSpace c = false ∧ c ≠ ':' ∧ c ≠ '=' ∧ c ≠ '-' ∧ c ≠ '_') : Undisturbed table text := by
  intro p hp before after htext f hf
  have hread := firstMatch_text hf
  have hmem : ∀ c, c ∈ f.kept ∨ c ∈ f.value → c ∈ text := by
    intro c hc
    rw [htext, hread]
    simp only [List.mem_append]
    exact Or.inr (Or.inl hc)
  have hmatch := mem_of_firstMatch hf
  simp only [credentialPatterns, List.mem_cons, List.not_mem_nil, or_false] at hp
  rcases hp with rfl | rfl | rfl | rfl
  · obtain ⟨-, ⟨g₁, g₂, hg, hfield, -⟩, -⟩ := mem_matchesAt_keeping.mp hmatch
    obtain ⟨k, w₁, w₂, hfield, -⟩ := matches_authorizationField hfield
    exact absurd rfl (h ':' (hmem ':' (Or.inl (by rw [hg, hfield]; simp)))).2.1
  · obtain ⟨-, ⟨g₁, g₂, hg, -, hword⟩, -⟩ := mem_matchesAt_keeping.mp hmatch
    obtain ⟨k, w, hword, -, -, hne, hspace⟩ := matches_bearerWord hword
    obtain ⟨c, w, rfl⟩ := List.exists_cons_of_ne_nil hne
    have hc := (h c (hmem c (Or.inl (by rw [hg, hword]; simp)))).1
    rw [hspace c List.mem_cons_self] at hc
    cases hc
  · obtain ⟨-, hgroup, -⟩ := mem_matchesAt_keeping.mp hmatch
    obtain ⟨k, d, w, hg, hd, -⟩ := matches_assignment hgroup
    have hc := h d (hmem d (Or.inl (by rw [hg]; simp)))
    simp only [List.mem_cons, List.not_mem_nil, or_false] at hd
    rcases hd with hd | hd
    · exact absurd hd hc.2.1
    · exact absurd hd hc.2.2.1
  · obtain ⟨-, -, ⟨g₁, g₂, hv, -, v, g₃, hv₂, htoken, -⟩⟩ := mem_matchesAt_whole.mp hmatch
    have hin : ∀ c ∈ v, c ∈ text := fun c hc => hmem c (Or.inr (by rw [hv, hv₂]; simp [hc]))
    rcases knownToken_sign htoken with hsign | hsign
    · exact absurd rfl (h '-' (hin '-' hsign)).2.2.2.1
    · exact absurd rfl (h '_' (hin '_' hsign)).2.2.2.2

theorem role_undisturbed (table : WordTable) (role : Role) : Undisturbed table role.text.toList := by
  refine plain_undisturbed table ?_
  cases role <;> decide

/-! ## The payload -/

variable {F : Type}

/-- `to_append_payload` -/
def HookMessage.toAppendPayload (table : WordTable) (sha256 : String → String) (message : HookMessage) :
    List (String × Json F) :=
  let content := boundedText table sha256 message.content.toList (eventMaxBytes - 1024)
  let metadata : List (String × Json F) := ("turn_id", .str message.turnId) ::
    if content.truncated then
      [("content_length", .int content.length), ("content_sha256", .str content.sha256),
        ("content_truncated", .bool true)]
    else []
  [("project_key", .str message.projectId), ("session_key", .str message.sessionId),
    ("event_key", .str message.eventKey), ("role", .str message.role.text),
    ("content", .str (String.ofList content.value)), ("source", .str "hook"), ("metadata", .obj metadata)]

end CodexMemory.Hooks
