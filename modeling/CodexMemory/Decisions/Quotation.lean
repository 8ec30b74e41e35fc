import CodexMemory.Decisions.Gates

/-!
# Quotations of the model

An output of the model cites a range of a message and quotes it.  Three checks read
the quotation: `ModelDecisionOutput`, `_validate_evidence_ranges` of `record_decision`
and `_verify_model_evidence` of the candidates' gate.  The contract strips the quote
before the other two compare it with the message.

* `modelDecisionOutput_apart`: a payload that is valid apart from one range is as valid as that range;
* `modelEvidenceHolds_dump`: the two comparisons admit the same ranges;
* `quotation_faithful_iff`: a faithful quote passes all checks, and no other one does, exactly
  where stripping the quote does not matter;
* `indented_quote_refused`: a faithful quote that is refused.
-/

namespace CodexMemory.Decisions

open Candidates (Host Level Scope ModelDecision Message)

variable {F : Type}

/-! ## One range of a payload -/

/-- The values of a payload other than one of its evidence ranges, as the contract reads them. -/
structure Rest (F : Type) where
  decision : ModelDecision
  confidence : {q : Rat // 0 ≤ q ∧ q ≤ 1}
  title : {text : String // 1 ≤ text.length ∧ text.length ≤ 300}
  content : List (String × Json F)
  reason : {text : String // 1 ≤ text.length ∧ text.length ≤ 2000}
  before : List EvidenceRange
  after : List EvidenceRange
  riskFlags : {flags : List RiskFlag // flags.length ≤ 16}
  level : Level
  scope : Scope
  evidence_count : before.length + after.length < 16
  risk_nodup : riskFlags.val.Nodup

/-- The output with this range in its place. -/
def Rest.output (rest : Rest F) (range : EvidenceRange) : ModelDecisionOutput F where
  decision := rest.decision
  confidence := rest.confidence.val
  title := rest.title.val
  content := rest.content
  reason := rest.reason.val
  evidenceRanges := rest.before ++ range :: rest.after
  riskFlags := rest.riskFlags.val
  level := rest.level
  scope := rest.scope
  confidence_bounds := rest.confidence.property
  title_length := rest.title.property
  reason_length := rest.reason.property
  evidence_count := by
    have := rest.evidence_count
    simp only [List.length_append, List.length_cons]
    omega
  risk_count := rest.riskFlags.property
  risk_nodup := rest.risk_nodup
  evidence_of_publish _ := List.append_ne_nil_of_right_ne_nil _ (List.cons_ne_nil _ _)

section Contract

variable (py : Pydantic F)

/-- A payload with these fields is valid apart from the item between `before` and
`after`, and `rest` is what the contract reads there. -/
structure ValidApart [Json.PyFloat F] (fields : List (String × Json F)) (before : List (Json F)) (item : Json F)
    (after : List (Json F)) (rest : Rest F) : Prop where
  keys : record outputKeys (.obj fields) = some fields
  decision : member ModelDecision.ofText? (fields.lookup "decision") = some rest.decision
  confidence : strictConfidence py (fields.lookup "confidence") = some rest.confidence
  title : strictText py 300 (fields.lookup "title") = some rest.title
  content : contentObject (fields.lookup "content") = some rest.content
  reason : strictText py 2000 (fields.lookup "reason") = some rest.reason
  evidence : fields.lookup "evidence_ranges" = some (.arr (before ++ item :: after))
  before : before.mapM (evidenceRange py) = some rest.before
  after : after.mapM (evidenceRange py) = some rest.after
  riskFlags : items16 (fun item => member RiskFlag.ofText? (some item)) (fields.lookup "risk_flags") =
    some rest.riskFlags
  level : member Level.ofText? (fields.lookup "level") = some rest.level
  scope : member Scope.ofText? (fields.lookup "scope") = some rest.scope

theorem mapM_around {α β : Type} (f : α → Option β) {xs ys : List α} {us vs : List β} (hxs : xs.mapM f = some us)
    (hys : ys.mapM f = some vs) (a : α) : (xs ++ a :: ys).mapM f = (f a).map fun b => us ++ b :: vs := by
  rw [List.mapM_append, hxs, List.mapM_cons, hys]
  cases f a <;> rfl

/-- **A payload that is valid apart from one range is as valid as that range.** -/
theorem modelDecisionOutput_apart [Json.PyFloat F] {fields : List (String × Json F)} {before after : List (Json F)}
    {item : Json F} {rest : Rest F} (h : ValidApart py fields before item after rest) :
    modelDecisionOutput py (.obj fields) = (evidenceRange py item).map rest.output := by
  have hitems : items16 (evidenceRange py) (fields.lookup "evidence_ranges") =
      (evidenceRange py item).map fun range =>
        ⟨rest.before ++ range :: rest.after, (rest.output range).evidence_count⟩ := by
    rw [h.evidence, items16, mapM_around _ h.before h.after]
    cases evidenceRange py item with
    | none => rfl
    | some range => exact dif_pos (rest.output range).evidence_count
  simp only [modelDecisionOutput, h.keys, h.decision, h.confidence, h.title, h.content, h.reason, hitems, h.riskFlags,
    h.level, h.scope, Option.bind_eq_bind, Option.bind_some]
  cases evidenceRange py item with
  | none => rfl
  | some range =>
    exact dif_pos ⟨rest.risk_nodup, fun _ => List.append_ne_nil_of_right_ne_nil _ (List.cons_ne_nil _ _)⟩

/-- The item cites a range of a message with this quote. -/
structure Cites (item : List (String × Json F)) (messageId start stop : Nat) (quote : String) : Prop where
  keys : record ["message_id", "start_char", "end_char", "quote"] (.obj item) = some item
  messageId : item.lookup "message_id" = some (.int (.ofNat messageId))
  start : item.lookup "start_char" = some (.int (.ofNat start))
  stop : item.lookup "end_char" = some (.int (.ofNat stop))
  quote : item.lookup "quote" = some (.str quote)

/-- The range as the contract keeps it: its quote is stripped. -/
theorem evidenceRange_cites {item : List (String × Json F)} {messageId start stop : Nat} {quote : String}
    (h : Cites item messageId start stop quote) (hid : 0 < messageId) (horder : start < stop) (hstop : stop ≤ 1000000) :
    evidenceRange py (.obj item) =
      if hquote : 1 ≤ (py.trim quote).length ∧ (py.trim quote).length ≤ 2000 then
        some ⟨messageId, start, stop, py.trim quote, hid, horder, hstop, hquote⟩
      else none := by
  simp only [evidenceRange, h.keys, h.messageId, h.start, h.stop, h.quote, strictNat, strictText, Option.bind_eq_bind,
    Option.bind_some]
  by_cases hquote : 1 ≤ (py.trim quote).length ∧ (py.trim quote).length ≤ 2000
  · rw [dif_pos hquote, dif_pos hquote]
    exact dif_pos ⟨hid, horder, hstop⟩
  · rw [dif_neg hquote, dif_neg hquote]
    rfl

end Contract

/-! ## The two comparisons with the message -/

section Database

variable [Json.PyFloat F] (py : Pydantic F) (host : Host F) (s : Store F)

/-- The range lies in a message of the project with the hash of its content, and its
quote is what the message has there. -/
def Holds (projectId : Nat) (range : EvidenceRange) : Prop :=
  ∃ message, s.base.messages.get? range.messageId = some message ∧ message.projectId = projectId ∧
    range.endChar ≤ message.content.length ∧ slice message.content range.startChar range.endChar = range.quote ∧
    host.sha256 message.content = message.contentHash

omit [Json.PyFloat F] in
theorem evidenceErrors_nil_iff (projectId : Nat) (range : EvidenceRange) :
    evidenceErrors host s projectId range = [] ↔ Holds host s projectId range := by
  rw [evidenceErrors, Holds]
  cases s.base.messages.get? range.messageId with
  | none => simp
  | some message =>
    by_cases hproject : message.projectId = projectId
    · by_cases hstop : message.content.length < range.endChar
      · simp [hproject, hstop]
      · simp [hproject, hstop, Nat.le_of_not_lt hstop]
    · simp [hproject]

omit [Json.PyFloat F] in
/-- **The candidates' gate admits the same ranges**, where Python's `int` and `str` leave
an integer and a text as they are. -/
theorem modelEvidenceHolds_dump (hint : ∀ n, host.int (.int n) = some n) (hstr : ∀ text, host.str (.str text) = text)
    (projectId : Nat) (range : EvidenceRange) :
    Candidates.modelEvidenceHolds host s.db projectId range.dump = true ↔ Holds host s projectId range := by
  have hnat (n : Nat) : ¬ (n : Int) < 0 := by omega
  simp only [Candidates.modelEvidenceHolds, EvidenceRange.dump, Json.get?, List.lookup, String.reduceBEq,
    Option.bind_some, Option.map_some, hint, hstr, hnat, if_false, Int.toNat_natCast]
  rw [Holds, show s.db.messages = s.base.messages from rfl]
  cases s.base.messages.get? range.messageId with
  | none => simp
  | some message =>
    have horder := range.order
    simp only [Bool.and_eq_true, decide_eq_true_eq, Option.some.injEq, exists_eq_left', Nat.cast_le, Nat.cast_lt]
    constructor
    · rintro ⟨⟨⟨⟨⟨hproject, -⟩, -⟩, hstop⟩, hquote⟩, hhash⟩
      exact ⟨hproject, hstop, hquote, hhash⟩
    · rintro ⟨hproject, hstop, hquote, hhash⟩
      exact ⟨⟨⟨⟨⟨hproject, Int.natCast_nonneg _⟩, horder⟩, hstop⟩, hquote⟩, hhash⟩

/-- The other values of the output are within the policy, and the other ranges hold. -/
structure WithinPolicy (projectId : Nat) (policy : Policy) (rest : Rest F) : Prop where
  title : rest.title.val.length ≤ policy.maxTitleLength
  content : ((Json.obj rest.content).dumps .compact).length ≤ policy.maxContentChars
  reason : rest.reason.val.length ≤ policy.maxReasonLength
  evidence : rest.before.length + 1 + rest.after.length ≤ policy.maxEvidenceRanges
  before : ∀ range ∈ rest.before, Holds host s projectId range
  after : ∀ range ∈ rest.after, Holds host s projectId range

theorem databaseErrors_output {projectId : Nat} {policy : Policy} {rest : Rest F}
    (h : WithinPolicy host s projectId policy rest) (range : EvidenceRange) :
    databaseErrors host s projectId (rest.output range) policy = [] ↔ Holds host s projectId range := by
  have hcount : (rest.output range).evidenceRanges.length = rest.before.length + 1 + rest.after.length := by
    simp only [Rest.output, List.length_append, List.length_cons]
    omega
  have hranges : (rest.output range).evidenceRanges.flatMap (evidenceErrors host s projectId) = [] ↔
      Holds host s projectId range := by
    simp only [Rest.output, List.flatMap_append, List.flatMap_cons, List.append_eq_nil_iff, List.flatMap_eq_nil_iff,
      evidenceErrors_nil_iff]
    exact ⟨fun hall => hall.2.1, fun hrange => ⟨h.before, hrange, h.after⟩⟩
  have hsome : ¬ (policy.requireEvidence = true ∧ (rest.output range).evidenceRanges = []) := fun hnone =>
    List.append_ne_nil_of_right_ne_nil _ (List.cons_ne_nil _ _) hnone.2
  have htitle : ¬ policy.maxTitleLength < (rest.output range).title.length := Nat.not_lt.mpr h.title
  have hcontent : ¬ policy.maxContentChars < ((Json.obj (rest.output range).content).dumps .compact).length :=
    Nat.not_lt.mpr h.content
  have hreason : ¬ policy.maxReasonLength < (rest.output range).reason.length := Nat.not_lt.mpr h.reason
  have hevidence : ¬ policy.maxEvidenceRanges < (rest.output range).evidenceRanges.length := by
    rw [hcount]
    exact Nat.not_lt.mpr h.evidence
  rw [databaseErrors, if_neg htitle, if_neg hcontent, if_neg hreason, if_neg hevidence, if_neg hsome]
  exact hranges

omit [Json.PyFloat F] in
theorem verifyModelEvidence_output (hint : ∀ n, host.int (.int n) = some n)
    (hstr : ∀ text, host.str (.str text) = text) {projectId : Nat} {rest : Rest F}
    (hbefore : ∀ range ∈ rest.before, Holds host s projectId range)
    (hafter : ∀ range ∈ rest.after, Holds host s projectId range) (range : EvidenceRange) (name version : String)
    (dumped runner : Json F) :
    Candidates.verifyModelEvidence host s.db projectId
        ((adapterDecision name version (rest.output range) dumped runner).metadata.get? "evidence_ranges") = true ↔
      Holds host s projectId range := by
  have hmetadata : (adapterDecision name version (rest.output range) dumped runner).metadata.get? "evidence_ranges" =
      some (.arr ((rest.before ++ range :: rest.after).map EvidenceRange.dump)) := rfl
  have hsome : ((rest.before ++ range :: rest.after).map (EvidenceRange.dump (F := F))).isEmpty = false := by simp
  rw [hmetadata, Candidates.verifyModelEvidence, hsome, Bool.not_false, Bool.true_and, List.all_eq_true]
  simp only [List.map_append, List.map_cons, List.mem_append, List.mem_cons, List.mem_map]
  constructor
  · intro hall
    exact (modelEvidenceHolds_dump host s hint hstr projectId range).mp (hall _ (.inr (.inl rfl)))
  · rintro hrange item (⟨r, hr, rfl⟩ | rfl | ⟨r, hr, rfl⟩)
    · exact (modelEvidenceHolds_dump host s hint hstr projectId r).mpr (hbefore r hr)
    · exact (modelEvidenceHolds_dump host s hint hstr projectId range).mpr hrange
    · exact (modelEvidenceHolds_dump host s hint hstr projectId r).mpr (hafter r hr)

/-! ## The checks of an output -/

/-- `record_decision` accepts the payload. -/
def Recorded (runId : Nat) (payload : Json F) (candidateId : Option Nat) : Prop :=
  ∃ decisionId, (recordDecision py host s runId (.mapping payload) candidateId).1 = .ok decisionId

/-- The adapter makes a decision of the payload, and its evidence passes the gate for a
candidate of the project. -/
def Gated (projectId : Nat) (payload : Json F) : Prop :=
  ∃ output, modelDecisionOutput py payload = some output ∧ ∀ name version dumped runner,
    Candidates.verifyModelEvidence host s.db projectId
      ((adapterDecision name version output dumped runner).metadata.get? "evidence_ranges") = true

/-- A faithful quote passes all checks; another one is refused by both comparisons. -/
def FaithfulQuotation (projectId runId : Nat) (candidateId : Option Nat) (payload : Json F) (faithful : Prop) : Prop :=
  (faithful → (modelDecisionOutput py payload).isSome ∧ Recorded py host s runId payload candidateId ∧
    Gated py host s projectId payload) ∧
  (¬ faithful → ¬ Recorded py host s runId payload candidateId ∧ ¬ Gated py host s projectId payload)

/-- A running run of the project without a decision, and the project's policy. -/
structure Awaiting (projectId runId : Nat) (candidateId : Option Nat) (policy : Policy) : Prop where
  run : ∃ run, s.runs.get? runId = some run ∧ run.projectId = projectId ∧ run.status = .running
  undecided : decisionOf s runId = none
  candidate : candidateErrors s projectId candidateId = []
  policy : loadPolicy py s projectId = some policy

theorem recorded_iff {projectId runId : Nat} {candidateId : Option Nat} {policy : Policy}
    (h : Awaiting py s projectId runId candidateId policy) (payload : Json F) :
    Recorded py host s runId payload candidateId ↔
      ∃ output, modelDecisionOutput py payload = some output ∧ databaseErrors host s projectId output policy = [] := by
  obtain ⟨run, hrun, rfl, hstatus⟩ := h.run
  rw [Recorded, recordDecision, validateModelOutput]
  cases modelDecisionOutput py payload with
  | none => simp [rejectInvalidOutput, hrun]
  | some output =>
    simp only [hrun, hstatus, ne_eq, not_true_eq_false, false_and, if_false, h.undecided, recordFirst, h.policy,
      h.candidate, List.append_nil, Option.some.injEq, exists_eq_left']
    by_cases herrors : databaseErrors host s run.projectId output policy = [] <;> simp [herrors]

/-- The cited range: it lies in a message of the project whose hash is correct. -/
structure Citable (projectId messageId start stop : Nat) (message : Message) : Prop where
  stored : s.base.messages.get? messageId = some message
  project : message.projectId = projectId
  hash : host.sha256 message.content = message.contentHash
  id : 0 < messageId
  order : start < stop
  within : stop ≤ min message.content.length 1000000
  length : stop - start ≤ 2000

omit [Json.PyFloat F] in
theorem holds_citable {projectId messageId start stop : Nat} {message : Message}
    (h : Citable host s projectId messageId start stop message) (range : EvidenceRange)
    (hid : range.messageId = messageId) (hstart : range.startChar = start) (hend : range.endChar = stop) :
    Holds host s projectId range ↔ range.quote = slice message.content start stop := by
  have hlength : stop ≤ message.content.length := h.within.trans (Nat.min_le_left _ _)
  rw [Holds, hid, h.stored]
  simp [h.project, h.hash, hstart, hend, hlength, eq_comm]

omit [Json.PyFloat F] in
theorem length_slice {projectId messageId start stop : Nat} {message : Message}
    (h : Citable host s projectId messageId start stop message) :
    (slice message.content start stop).length = stop - start := by
  have hstop := h.within
  have hlength := String.length_toList (s := message.content)
  rw [slice, String.length_ofList, List.length_take, List.length_drop]
  omega

/-- The three checks of a payload come down to its stripped quote. -/
theorem checks_iff (hint : ∀ n, host.int (.int n) = some n) (hstr : ∀ text, host.str (.str text) = text)
    {projectId runId messageId start stop : Nat} {candidateId : Option Nat} {policy : Policy} {message : Message}
    {fields item : List (String × Json F)} {before after : List (Json F)} {rest : Rest F} {quote : String}
    (hrun : Awaiting py s projectId runId candidateId policy)
    (hrange : Citable host s projectId messageId start stop message)
    (hvalid : ValidApart py fields before (.obj item) after rest)
    (hwithin : WithinPolicy host s projectId policy rest) (hcites : Cites item messageId start stop quote) :
    (Recorded py host s runId (.obj fields) candidateId ↔ py.trim quote = slice message.content start stop) ∧
      (Gated py host s projectId (.obj fields) ↔ py.trim quote = slice message.content start stop) := by
  have hlength := length_slice host s hrange
  have horder := hrange.order
  have hshort := hrange.length
  have hmax : stop ≤ 1000000 := hrange.within.trans (Nat.min_le_right _ _)
  rw [recorded_iff py host s hrun, Gated, modelDecisionOutput_apart py hvalid,
    evidenceRange_cites py hcites hrange.id hrange.order hmax]
  by_cases hquote : 1 ≤ (py.trim quote).length ∧ (py.trim quote).length ≤ 2000
  · rw [dif_pos hquote]
    simp only [Option.map_some, Option.some.injEq, exists_eq_left', databaseErrors_output host s hwithin,
      verifyModelEvidence_output host s hint hstr hwithin.before hwithin.after]
    have hholds := holds_citable host s hrange
      ⟨messageId, start, stop, py.trim quote, hrange.id, hrange.order, hmax, hquote⟩ rfl rfl rfl
    exact ⟨hholds, fun hall => hholds.mp (hall "" "" .null .null), fun htrim _ _ _ _ => hholds.mpr htrim⟩
  · rw [dif_neg hquote]
    have hne : py.trim quote ≠ slice message.content start stop := by
      intro heq
      rw [heq, hlength] at hquote
      omega
    simp [hne]

/-- **A quotation is treated faithfully exactly where stripping it does not matter**: where
it is the text of the range, stripping leaves it alone, and where it is another text, the
stripped one is another text too. -/
theorem quotation_faithful_iff (hint : ∀ n, host.int (.int n) = some n) (hstr : ∀ text, host.str (.str text) = text)
    (projectId runId messageId start stop : Nat) (candidateId : Option Nat) (policy : Policy) (message : Message)
    (fields item : List (String × Json F)) (before after : List (Json F)) (rest : Rest F) (quote : String)
    (hrun : Awaiting py s projectId runId candidateId policy)
    (hrange : Citable host s projectId messageId start stop message)
    (hvalid : ValidApart py fields before (.obj item) after rest)
    (hwithin : WithinPolicy host s projectId policy rest) (hcites : Cites item messageId start stop quote) :
    FaithfulQuotation py host s projectId runId candidateId (.obj fields)
        (quote = slice message.content start stop) ↔
      (quote = slice message.content start stop → py.trim quote = quote) ∧
      (quote ≠ slice message.content start stop → py.trim quote ≠ slice message.content start stop) := by
  obtain ⟨hrecorded, hgated⟩ := checks_iff py host s hint hstr hrun hrange hvalid hwithin hcites
  rw [FaithfulQuotation, hrecorded, hgated]
  constructor
  · rintro ⟨hpasses, hrefused⟩
    exact ⟨fun hfaithful => (hpasses hfaithful).2.1.trans hfaithful.symm, fun hother => (hrefused hother).1⟩
  · rintro ⟨hkept, hother⟩
    refine ⟨fun hfaithful => ?_, fun hdiffers => ⟨hother hdiffers, hother hdiffers⟩⟩
    have htrim : py.trim quote = slice message.content start stop := (hkept hfaithful).trans hfaithful
    obtain ⟨output, houtput, -⟩ := (recorded_iff py host s hrun (.obj fields)).mp (hrecorded.mpr htrim)
    exact ⟨by rw [houtput]; rfl, htrim, htrim⟩

end Database

/-! ## An indented quote -/

/-- A range of the message "Use tabs". -/
def quotingItem (start stop : Nat) (quote : String) : List (String × Json Empty) :=
  [("message_id", .int 1), ("start_char", .int start), ("end_char", .int stop), ("quote", .str quote)]

def quotingFields (start stop : Nat) (quote : String) : List (String × Json Empty) :=
  [("decision", .str "publish"), ("confidence", .int 1), ("title", .str "t"), ("content", .obj []),
    ("reason", .str "r"), ("evidence_ranges", .arr [.obj (quotingItem start stop quote)]), ("risk_flags", .arr []),
    ("level", .str "L1"), ("scope", .str "project")]

theorem quoting_title : 1 ≤ "t".length ∧ "t".length ≤ 300 := by decide

theorem quoting_reason : 1 ≤ "r".length ∧ "r".length ≤ 2000 := by decide

theorem quoting_flags : ([] : List RiskFlag).length ≤ 16 := by decide

def quotingRest : Rest Empty where
  decision := .publish
  confidence := ⟨1, by decide⟩
  title := ⟨"t", quoting_title⟩
  content := []
  reason := ⟨"r", quoting_reason⟩
  before := []
  after := []
  riskFlags := ⟨[], quoting_flags⟩
  level := .L1
  scope := .project
  evidence_count := by decide
  risk_nodup := List.nodup_nil

deriving instance DecidableEq for Policy, Message

/-- The policy of the sample run. -/
def gatesPolicy : Policy where
  enabled := true
  autoPublishEnabled := true
  strategy := .autoPublish
  minConfidence := 4 / 5
  requireEvidence := true
  allowRiskFlags := false
  maxTitleLength := 300
  maxContentChars := 12000
  maxReasonLength := 2000
  maxEvidenceRanges := 16
  policyVersion := "decision-policy-v1"
  updatedBy := "system"
  auto_enabled _ := rfl
  auto_strategy _ := rfl

theorem quotingFields_valid (start stop : Nat) (quote : String) :
    ValidApart plainPydantic (quotingFields start stop quote) [] (.obj (quotingItem start stop quote)) []
      quotingRest where
  keys := by simp [quotingFields, record, outputKeys, List.lookup]
  decision := rfl
  confidence := by
    change strictConfidence plainPydantic (some (.int 1)) = some ⟨1, _⟩
    decide
  title := rfl
  content := rfl
  reason := rfl
  evidence := rfl
  before := rfl
  after := rfl
  riskFlags := rfl
  level := rfl
  scope := rfl

theorem quotingItem_cites (start stop : Nat) (quote : String) :
    Cites (quotingItem start stop quote) 1 start stop quote where
  keys := by simp [quotingItem, record, List.lookup]
  messageId := rfl
  start := rfl
  stop := rfl
  quote := rfl

theorem gatesStore_awaiting : Awaiting plainPydantic gatesStore 0 0 (some 0) gatesPolicy where
  run := ⟨_, rfl, rfl, rfl⟩
  undecided := rfl
  candidate := by decide
  policy := by decide +kernel

theorem gatesStore_within : WithinPolicy Candidates.sampleHost gatesStore 0 gatesPolicy quotingRest where
  title := by decide
  content := by decide
  reason := by decide
  evidence := by decide
  before _ h := absurd h List.not_mem_nil
  after _ h := absurd h List.not_mem_nil

theorem gatesStore_citable (start stop : Nat) (horder : start < stop) (hstop : stop ≤ 8) :
    Citable Candidates.sampleHost gatesStore 0 1 start stop
      ⟨0, "Use tabs", Candidates.sampleHost.sha256 "Use tabs"⟩ where
  stored := by decide
  project := rfl
  hash := rfl
  id := Nat.one_pos
  order := horder
  within := by
    have hlength : "Use tabs".length = 8 := rfl
    rw [hlength]
    omega
  length := by omega

/-- The whole message passes all checks as a quote, and nothing else does. -/
theorem whole_message_faithful : FaithfulQuotation plainPydantic Candidates.sampleHost gatesStore 0 0 (some 0)
    (.obj (quotingFields 0 8 "Use tabs")) ("Use tabs" = slice "Use tabs" 0 8) :=
  (quotation_faithful_iff plainPydantic Candidates.sampleHost gatesStore (fun _ => rfl) (fun _ => rfl) 0 0 1 0 8
    (some 0) gatesPolicy _ (quotingFields 0 8 "Use tabs") (quotingItem 0 8 "Use tabs") [] [] quotingRest "Use tabs"
    gatesStore_awaiting (gatesStore_citable 0 8 (by decide) (by decide)) (quotingFields_valid 0 8 "Use tabs")
    gatesStore_within (quotingItem_cites 0 8 "Use tabs")).mpr
    ⟨fun _ => by decide, fun hother => absurd (by decide) hother⟩

/-- **A faithful quote that begins with a space is refused**: the contract strips it. -/
theorem indented_quote_refused : ¬ ∀ (projectId runId messageId start stop : Nat) (candidateId : Option Nat)
    (policy : Policy) (message : Message) (fields item : List (String × Json Empty)) (before after : List (Json Empty))
    (rest : Rest Empty) (quote : String), Awaiting plainPydantic gatesStore projectId runId candidateId policy →
    Citable Candidates.sampleHost gatesStore projectId messageId start stop message →
    ValidApart plainPydantic fields before (.obj item) after rest →
    WithinPolicy Candidates.sampleHost gatesStore projectId policy rest → Cites item messageId start stop quote →
    FaithfulQuotation plainPydantic Candidates.sampleHost gatesStore projectId runId candidateId (.obj fields)
      (quote = slice message.content start stop) := by
  intro h
  have hrange := gatesStore_citable 3 8 (by decide) (by decide)
  have hvalid := quotingFields_valid 3 8 " tabs"
  have hcites := quotingItem_cites 3 8 " tabs"
  have hfaithful := (h 0 0 1 3 8 (some 0) gatesPolicy _ _ _ [] [] quotingRest " tabs" gatesStore_awaiting hrange hvalid
    gatesStore_within hcites).1 (by decide)
  have htrim := (checks_iff plainPydantic Candidates.sampleHost gatesStore (fun _ => rfl) (fun _ => rfl)
    gatesStore_awaiting hrange hvalid gatesStore_within hcites).1.mp hfaithful.2.1
  revert htrim
  decide

end CodexMemory.Decisions
