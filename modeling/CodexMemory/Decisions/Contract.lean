import CodexMemory.Candidates.Model
import CodexMemory.Json.Equal

/-!
# `decision_models.py`: the decision contract

The payload of a model decision and the policy of a project, as pydantic
validates them.  A payload that passes is a `ModelDecisionOutput`; its bounds
are part of the structure.

* `ModelDecisionOutput.same_refl`: an output is the same as itself.
-/

namespace CodexMemory.Decisions

open Candidates (Level Scope ModelDecision)

variable {F : Type}

/-- What the contract takes from pydantic and Python: `str_strip_whitespace`, and
the value of a float (a JSON text has finite ones only). -/
structure Pydantic (F : Type) where
  trim : String → String
  value : F → Rat

/-! ## The payload -/

inductive RiskFlag
  | lowConfidence | unsupportedClaim | promptInjection | sensitiveContent | secretOrCredential
  | crossProjectReference | externalAction | policyViolation
  deriving DecidableEq, Repr

def RiskFlag.ofText? : String → Option RiskFlag
  | "low_confidence" => some .lowConfidence
  | "unsupported_claim" => some .unsupportedClaim
  | "prompt_injection" => some .promptInjection
  | "sensitive_content" => some .sensitiveContent
  | "secret_or_credential" => some .secretOrCredential
  | "cross_project_reference" => some .crossProjectReference
  | "external_action" => some .externalAction
  | "policy_violation" => some .policyViolation
  | _ => none

def RiskFlag.text : RiskFlag → String
  | .lowConfidence => "low_confidence"
  | .unsupportedClaim => "unsupported_claim"
  | .promptInjection => "prompt_injection"
  | .sensitiveContent => "sensitive_content"
  | .secretOrCredential => "secret_or_credential"
  | .crossProjectReference => "cross_project_reference"
  | .externalAction => "external_action"
  | .policyViolation => "policy_violation"

/-- A half-open range of characters in a message of the project. -/
structure EvidenceRange where
  messageId : Nat
  startChar : Nat
  endChar : Nat
  quote : String
  messageId_pos : 0 < messageId
  order : startChar < endChar
  endChar_le : endChar ≤ 1000000
  quote_length : 1 ≤ quote.length ∧ quote.length ≤ 2000
  deriving DecidableEq

/-- A decision of the model that has passed the structural checks. -/
structure ModelDecisionOutput (F : Type) where
  decision : ModelDecision
  confidence : Rat
  title : String
  content : List (String × Json F)
  reason : String
  evidenceRanges : List EvidenceRange
  riskFlags : List RiskFlag
  level : Level
  scope : Scope
  confidence_bounds : 0 ≤ confidence ∧ confidence ≤ 1
  title_length : 1 ≤ title.length ∧ title.length ≤ 300
  reason_length : 1 ≤ reason.length ∧ reason.length ≤ 2000
  evidence_count : evidenceRanges.length ≤ 16
  risk_count : riskFlags.length ≤ 16
  risk_nodup : riskFlags.Nodup
  evidence_of_publish : decision = .publish → evidenceRanges ≠ []

/-- `normalized == existing_normalized`: the dumps of two outputs are equal. -/
def ModelDecisionOutput.same (py : Pydantic F) (a b : ModelDecisionOutput F) : Bool :=
  decide (a.decision = b.decision) && decide (a.confidence = b.confidence) && decide (a.title = b.title) &&
    Json.equal py.value (.obj a.content) (.obj b.content) && decide (a.reason = b.reason) &&
    decide (a.evidenceRanges = b.evidenceRanges) && decide (a.riskFlags = b.riskFlags) &&
    decide (a.level = b.level) && decide (a.scope = b.scope)

/-- **An output is the same as itself**, as in a repetition of the request. -/
theorem ModelDecisionOutput.same_refl (py : Pydantic F) (output : ModelDecisionOutput F)
    (h : Json.unique (.obj output.content) = true) : output.same py output = true := by
  simp only [same, Json.equal_refl py.value _ h, decide_true, Bool.and_self]

/-! ## Validation of the payload -/

section Validation

variable (py : Pydantic F)

/-- The value is an object with exactly these keys (`extra="forbid"`). -/
def record (keys : List String) : Json F → Option (List (String × Json F))
  | .obj fields =>
    if (∀ field ∈ fields, field.1 ∈ keys) ∧ ∀ key ∈ keys, (fields.lookup key).isSome then some fields else none
  | _ => none

/-- A `StrictStr` with `min_length=1`. -/
def strictText (max : Nat) : Option (Json F) → Option {text : String // 1 ≤ text.length ∧ text.length ≤ max}
  | some (.str s) => if h : 1 ≤ (py.trim s).length ∧ (py.trim s).length ≤ max then some ⟨py.trim s, h⟩ else none
  | _ => none

/-- A `StrictInt` that is not negative. -/
def strictNat : Option (Json F) → Option Nat
  | some (.int (.ofNat n)) => some n
  | _ => none

/-- A `StrictFloat` from 0 to 1; an integer is taken for a float. -/
def strictConfidence : Option (Json F) → Option {q : Rat // 0 ≤ q ∧ q ≤ 1}
  | some (.int n) => if h : 0 ≤ (n : Rat) ∧ (n : Rat) ≤ 1 then some ⟨n, h⟩ else none
  | some (.float x) => if h : 0 ≤ py.value x ∧ py.value x ≤ 1 then some ⟨py.value x, h⟩ else none
  | _ => none

/-- The member of an enumeration with this value. -/
def member {α : Type} (ofText? : String → Option α) : Option (Json F) → Option α
  | some (.str s) => ofText? s
  | _ => none

def evidenceRange (item : Json F) : Option EvidenceRange := do
  let fields ← record ["message_id", "start_char", "end_char", "quote"] item
  let messageId ← strictNat (fields.lookup "message_id")
  let startChar ← strictNat (fields.lookup "start_char")
  let endChar ← strictNat (fields.lookup "end_char")
  let ⟨quote, hquote⟩ ← strictText py 2000 (fields.lookup "quote")
  if h : 0 < messageId ∧ startChar < endChar ∧ endChar ≤ 1000000 then
    some ⟨messageId, startChar, endChar, quote, h.1, h.2.1, h.2.2, hquote⟩
  else none

/-- A list of at most 16 items. -/
def items16 {α : Type} (item : Json F → Option α) : Option (Json F) → Option {xs : List α // xs.length ≤ 16}
  | some (.arr items) => do
    let xs ← items.mapM item
    if h : xs.length ≤ 16 then some ⟨xs, h⟩ else none
  | _ => none

/-- A dictionary whose text has at most 12000 characters. -/
def contentObject [Json.PyFloat F] : Option (Json F) → Option (List (String × Json F))
  | some (.obj fields) => if ((Json.obj fields).dumps .compact).length ≤ 12000 then some fields else none
  | _ => none

def outputKeys : List String :=
  ["decision", "confidence", "title", "content", "reason", "evidence_ranges", "risk_flags", "level", "scope"]

/-- `ModelDecisionOutput.model_validate`, `none` where it raises. -/
def modelDecisionOutput [Json.PyFloat F] (payload : Json F) : Option (ModelDecisionOutput F) := do
  let fields ← record outputKeys payload
  let decision ← member ModelDecision.ofText? (fields.lookup "decision")
  let ⟨confidence, hconfidence⟩ ← strictConfidence py (fields.lookup "confidence")
  let ⟨title, htitle⟩ ← strictText py 300 (fields.lookup "title")
  let content ← contentObject (fields.lookup "content")
  let ⟨reason, hreason⟩ ← strictText py 2000 (fields.lookup "reason")
  let ⟨evidence, hevidence⟩ ← items16 (evidenceRange py) (fields.lookup "evidence_ranges")
  let ⟨flags, hflags⟩ ← items16 (fun item => member RiskFlag.ofText? (some item)) (fields.lookup "risk_flags")
  let level ← member Level.ofText? (fields.lookup "level")
  let scope ← member Scope.ofText? (fields.lookup "scope")
  if h : flags.Nodup ∧ (decision = .publish → evidence ≠ []) then
    some ⟨decision, confidence, title, content, reason, evidence, flags, level, scope, hconfidence, htitle, hreason,
      hevidence, hflags, h.1, h.2⟩
  else none

/-- What `record_decision` is given: a mapping, or an output that was built before. -/
inductive Payload (F : Type)
  | mapping (payload : Json F)
  | output (output : ModelDecisionOutput F)

/-- `validate_model_output`, `none` where it raises. -/
def validateModelOutput [Json.PyFloat F] : Payload F → Option (ModelDecisionOutput F)
  | .mapping payload => modelDecisionOutput py payload
  | .output output => some output

end Validation

/-! ## The policy -/

inductive Strategy | manualReview | autoPublish
  deriving DecidableEq, Repr

def Strategy.ofText? : String → Option Strategy
  | "manual_review" => some .manualReview
  | "auto_publish" => some .autoPublish
  | _ => none

/-- `ProjectDecisionPolicyRow`.  The defaults are those of `ProjectDecisionPolicy`. -/
structure PolicyRow where
  enabled : Bool := false
  autoPublishEnabled : Bool := false
  strategy : String := "manual_review"
  allowedLevel : String := "L1"
  allowedScope : String := "project"
  minConfidence : Rat := 4 / 5
  requireEvidence : Bool := true
  allowRiskFlags : Bool := false
  maxTitleLength : Int := 300
  maxContentChars : Int := 12000
  maxReasonLength : Int := 2000
  maxEvidenceRanges : Int := 16
  policyVersion : String := "decision-policy-v1"
  updatedBy : String := "system"

/-- `ProjectDecisionPolicy`: what `PolicyRow` holds after its validation. -/
structure Policy where
  enabled : Bool
  autoPublishEnabled : Bool
  strategy : Strategy
  minConfidence : Rat
  requireEvidence : Bool
  allowRiskFlags : Bool
  maxTitleLength : Nat
  maxContentChars : Nat
  maxReasonLength : Nat
  maxEvidenceRanges : Nat
  policyVersion : String
  updatedBy : String
  auto_enabled : autoPublishEnabled = true → enabled = true
  auto_strategy : strategy = .autoPublish → autoPublishEnabled = true

/-- An integer from 1 to the bound. -/
def limit (max : Nat) : Int → Option Nat
  | .ofNat n => if 1 ≤ n ∧ n ≤ max then some n else none
  | .negSucc _ => none

/-- `ProjectDecisionPolicy.model_validate` of the row's values, `none` where it raises. -/
def projectDecisionPolicy (py : Pydantic F) (row : PolicyRow) : Option Policy := do
  let strategy ← Strategy.ofText? row.strategy
  let maxTitleLength ← limit 300 row.maxTitleLength
  let maxContentChars ← limit 100000 row.maxContentChars
  let maxReasonLength ← limit 10000 row.maxReasonLength
  let maxEvidenceRanges ← limit 64 row.maxEvidenceRanges
  let ⟨policyVersion, _⟩ ← strictText py 64 (some (.str row.policyVersion))
  let ⟨updatedBy, _⟩ ← strictText py 255 (some (.str row.updatedBy))
  if h : (row.autoPublishEnabled = true → row.enabled = true) ∧
      (strategy = .autoPublish → row.autoPublishEnabled = true) then
    if row.allowedLevel = "L1" ∧ row.allowedScope = "project" ∧ 0 ≤ row.minConfidence ∧ row.minConfidence ≤ 1 then
      some ⟨row.enabled, row.autoPublishEnabled, strategy, row.minConfidence, row.requireEvidence, row.allowRiskFlags,
        maxTitleLength, maxContentChars, maxReasonLength, maxEvidenceRanges, policyVersion, updatedBy, h.1, h.2⟩
    else none
  else none

/-- `SqlDecisionPolicyProvider.get`, where the policy table exists: the candidate
worker's view of the row. -/
def candidateDecisionPolicy : Option PolicyRow → Candidates.DecisionPolicy
  | none => {}
  | some row =>
    if 0 ≤ row.minConfidence ∧ row.minConfidence ≤ 1 then
      ⟨row.enabled, row.autoPublishEnabled, row.strategy, row.allowedLevel, row.allowedScope, row.minConfidence⟩
    else {}

end CodexMemory.Decisions
