import CodexMemory.Candidates.Gate
import CodexMemory.Candidates.Rows

/-!
# The lifecycle of a candidate

The lifecycle law of one step: a candidate with a published memory is published
or superseded, and a closed candidate (rejected or superseded) gets no memory
and keeps its status, except that a rejected and never published one may be
re-opened by an approving review.  The model's decisions and failures and the
automatic publication look at the status before they write it; the review,
the corrections and the explicit publication do not.  The law holds throughout
a run exactly when these three are kept off the candidates that they would
break (`lifecycle_iff`); `approved_after_publication` is a run in which a review
is not.
-/

namespace CodexMemory.Candidates

open CodexMemory.Trace

variable {F : Type}

/-! ## The law -/

def Candidate.Closed (candidate : Candidate F) : Prop :=
  candidate.status = .rejected ∨ candidate.status = .superseded

/-- A candidate with a published memory is published or superseded. -/
def PointersPublished (db : Db F) : Prop :=
  ∀ k c, db.candidates.get? k = some c → c.publishedMemoryId.isSome →
    c.status = .published ∨ c.status = .superseded

/-- The call approves a rejected, never published candidate by review. -/
def Reopens (k : Nat) (candidate : Candidate F) : Call F → Prop
  | .review id decision _ _ => id = k ∧ ReviewDecision.ofText? decision = some .approve ∧
      candidate.status = .rejected ∧ candidate.publishedMemoryId = none
  | _ => False

section Calls

variable [Json.PyFloat F] (host : Host F)

/-- The law for one step. -/
structure LifecycleStep (db : Db F) (call : Call F) : Prop where
  pointers : PointersPublished (step host db call).2
  closed : ∀ k c, db.candidates.get? k = some c → c.Closed → ¬ Reopens k c call →
    ∃ c', (step host db call).2.candidates.get? k = some c' ∧ c'.status = c.status ∧
      c'.publishedMemoryId = c.publishedMemoryId
  noMemory : ∀ svc k automatic c, call = .publish svc k automatic →
    db.candidates.get? k = some c → c.Closed → ¬ CreatesMemory host db call

/-- The call is kept off the candidates that it would break: a review that is
carried out finds no published memory and no superseded candidate; a correction
that is carried out on a closed candidate sets the status that it has; an
explicit publication of a closed candidate does not pass. -/
def Allowed (db : Db F) : Call F → Prop
  | .review k decision _ _ => ∀ verdict c, Reviews db k decision verdict c →
      c.publishedMemoryId = none ∧ c.status ≠ .superseded
  | .correct k text reviewer reason replacement => ∀ action c,
      Corrects db k text reviewer reason replacement action c → c.Closed → c.status = action.status
  | .publish _ k false => ∀ c, db.candidates.get? k = some c → c.Closed →
      ¬ ((baseChecks host db k c).passed = true ∧ (evidenceMessages db k).Nodup)
  | _ => True

/-! ## Steps that rewrite one row -/

/-- What the law asks of the rewritten row. -/
theorem lifecycleStep_iff_of_rewrites {db : Db F} (hp : PointersPublished db) {call : Call F} {k : Nat}
    {f : Candidate F → Candidate F} (h : Rewrites db (step host db call).2 k f)
    (hptr : ∀ c, db.candidates.get? k = some c → (f c).publishedMemoryId = c.publishedMemoryId) :
    LifecycleStep host db call ↔ ∀ c, db.candidates.get? k = some c →
      (c.publishedMemoryId.isSome → (f c).status = .published ∨ (f c).status = .superseded) ∧
        (c.Closed → ¬ Reopens k c call → (f c).status = c.status) := by
  constructor
  · intro hstep c hc
    have hrow := h.rows k c hc
    rw [if_pos rfl] at hrow
    refine ⟨fun hsome => hstep.pointers k _ hrow (by rwa [hptr c hc]), fun hclosed hre => ?_⟩
    obtain ⟨c', hc', hstatus, -⟩ := hstep.closed k c hc hclosed hre
    rw [hrow] at hc'
    cases hc'
    exact hstatus
  · intro hf
    refine ⟨fun i c' hi hsome => ?_, fun i c hi hclosed hre => ?_, fun _ _ _ _ _ _ _ hcreates =>
      hcreates h.nextMemory⟩
    · cases hold : db.candidates.get? i with
      | none =>
        rw [(h.fresh i c' hi hold).2] at hsome
        cases hsome
      | some c =>
        have hrow := h.rows i c hold
        rw [hi] at hrow
        cases hrow
        by_cases hik : i = k
        · subst hik
          rw [if_pos rfl] at hsome ⊢
          exact (hf c hold).1 (by rwa [hptr c hold] at hsome)
        · rw [if_neg hik] at hsome ⊢
          exact hp i c hold hsome
    · have hrow := h.rows i c hi
      by_cases hik : i = k
      · subst hik
        rw [if_pos rfl] at hrow
        exact ⟨f c, hrow, (hf c hi).2 hclosed hre, hptr c hi⟩
      · rw [if_neg hik] at hrow
        exact ⟨c, hrow, rfl, rfl⟩

/-- A step that rewrites no row keeps the law. -/
theorem lifecycleStep_of_id {db : Db F} (hp : PointersPublished db) {call : Call F} {k : Nat}
    (h : Rewrites db (step host db call).2 k id) : LifecycleStep host db call :=
  (lifecycleStep_iff_of_rewrites host hp h fun _ _ => rfl).mpr fun c hc => ⟨hp k c hc, fun _ _ => rfl⟩

/-- A step that rewrites an open, unpublished row keeps the law. -/
theorem lifecycleStep_of_open {db : Db F} (hp : PointersPublished db) {call : Call F} {k : Nat}
    {c row : Candidate F} (hc : db.candidates.get? k = some c)
    (h : Rewrites db (step host db call).2 k fun _ => row)
    (hptr : row.publishedMemoryId = c.publishedMemoryId) (hnone : c.publishedMemoryId = none)
    (hopen : ¬ c.Closed) : LifecycleStep host db call := by
  have hrow : ∀ d, db.candidates.get? k = some d → d = c := fun d hd =>
    Option.some.inj (hd.symm.trans hc)
  refine (lifecycleStep_iff_of_rewrites host hp h fun d hd => by rw [hrow d hd]; exact hptr).mpr
    fun d hd => ?_
  rw [hrow d hd]
  refine ⟨fun hsome => ?_, fun hclosed => absurd hclosed hopen⟩
  rw [hnone] at hsome
  cases hsome

/-! ## The calls -/

theorem lifecycle_review {db : Db F} (hp : PointersPublished db) (k : Nat) (decision : String)
    (reviewer reason : Option String) :
    LifecycleStep host db (.review k decision reviewer reason) ↔
      Allowed host db (.review k decision reviewer reason) := by
  have hout : (step host db (.review k decision reviewer reason)).2 =
      (reviewAdminCandidate db k decision reviewer reason).2 := by simp only [step]
  have hrewrites := reviewAdminCandidate_rewrites db k decision reviewer reason
  rw [← hout] at hrewrites
  rcases hrewrites with ⟨h, hnot⟩ | ⟨v, c, hv, h⟩
  · exact ⟨fun _ verdict c hr => absurd hr (hnot verdict c), fun _ => lifecycleStep_of_id host hp h⟩
  · have hrow : ∀ d, db.candidates.get? k = some d → d = c := fun d hd =>
      Option.some.inj (hd.symm.trans hv.row)
    rw [lifecycleStep_iff_of_rewrites host hp h fun d hd => by rw [hrow d hd]]
    constructor
    · intro hlaw verdict d hd
      obtain ⟨hpub, hclosed⟩ := hlaw d hd.row
      have hd' := hrow d hd.row
      subst hd'
      constructor
      · cases hm : d.publishedMemoryId with
        | none => rfl
        | some m =>
          have hstatus := hpub (by simp [hm])
          cases v <;> simp [ReviewDecision.status] at hstatus
      · intro hs
        have hstatus := hclosed (Or.inr hs) fun hre => by simp [Reopens, hs] at hre
        cases v <;> simp [ReviewDecision.status, hs] at hstatus
    · intro hallowed d hd
      obtain ⟨hnone, hs⟩ := hallowed v c hv
      rw [hrow d hd]
      refine ⟨fun hsome => ?_, fun hclosed hre => ?_⟩
      · rw [hnone] at hsome
        cases hsome
      · have hrejected : c.status = .rejected := hclosed.resolve_right hs
        cases hverdict : v with
        | reject => exact hrejected.symm
        | approve => exact absurd ⟨rfl, hverdict ▸ hv.verdict, hrejected, hnone⟩ hre

theorem lifecycle_correct {db : Db F} (hp : PointersPublished db) (k : Nat)
    (text reviewer reason : String) (replacement : Replacement F) :
    LifecycleStep host db (.correct k text reviewer reason replacement) ↔
      Allowed host db (.correct k text reviewer reason replacement) := by
  have hout : (step host db (.correct k text reviewer reason replacement)).2 =
      (correct db k text reviewer reason replacement).2 := by simp only [step]
  have hrewrites := correct_rewrites db k text reviewer reason replacement
  rw [← hout] at hrewrites
  rcases hrewrites with ⟨h, hnot⟩ | ⟨action, c, hc, h⟩
  · exact ⟨fun _ action c hr => absurd hr (hnot action c), fun _ => lifecycleStep_of_id host hp h⟩
  · have hrow : ∀ d, db.candidates.get? k = some d → d = c := fun d hd =>
      Option.some.inj (hd.symm.trans hc.row)
    rw [lifecycleStep_iff_of_rewrites host hp h fun d hd => by rw [hrow d hd]]
    constructor
    · intro hlaw action' d hd hclosed
      have hsame : action' = action := Option.some.inj (hd.parsed.symm.trans hc.parsed)
      rw [hsame]
      exact ((hlaw d hd.row).2 hclosed fun hre => hre.elim).symm
    · intro hallowed d hd
      rw [hrow d hd]
      refine ⟨fun hsome => ?_, fun hclosed _ => (hallowed action c hc hclosed).symm⟩
      -- a published candidate is neither discarded nor rejected
      have hunpub := hc.unpublished
      cases haction : action with
      | supersede => exact Or.inr rfl
      | replace => exact Or.inr rfl
      | discard => simp [hunpub (Or.inl haction)] at hsome
      | reject => simp [hunpub (Or.inr haction)] at hsome

/-- A publication that creates a memory keeps the law exactly when the candidate
is not closed. -/
theorem lifecycle_creating {db : Db F} (hp : PointersPublished db) {svc : Service} {k : Nat}
    {automatic : Bool} {c : Candidate F} (hc : db.candidates.get? k = some c) {memory : Memory F}
    {messageIds : List Nat} {checks : Checks}
    (hplan : publishPlan host svc db k c automatic = .create memory messageIds checks) :
    LifecycleStep host db (.publish svc k automatic) ↔ ¬ c.Closed := by
  have hout : (step host db (.publish svc k automatic)).2 =
      (commitPublish db k c (.create memory messageIds checks)).2 := by
    simp only [step, publish, hc, hplan]
  obtain ⟨-, hmem, hrows⟩ := commitPublish_create db k c memory messageIds checks
  have hcreates : CreatesMemory host db (.publish svc k automatic) := by
    rw [CreatesMemory, hout, hmem, Table.nextId_insert]
    omega
  constructor
  · intro hlaw hclosed
    exact hlaw.noMemory svc k automatic c rfl hc hclosed hcreates
  · intro hopen
    refine ⟨fun i d hi hsome => ?_, fun i d hi hclosed hre => ?_, fun _ _ _ d hcall hd hclosed => ?_⟩
    · rw [hout, hrows] at hi
      obtain ⟨e, he, rfl⟩ := Option.map_eq_some_iff.mp hi
      by_cases hik : i = k
      · subst hik
        rw [hc] at he
        cases he
        by_cases hs : c.status = .published <;> simp [hs]
      · simp only [hik, if_false] at hsome ⊢
        exact hp i e he hsome
    · have hik : i ≠ k := by
        rintro rfl
        rw [hc] at hi
        cases hi
        exact hopen hclosed
      rw [hout, hrows, hi]
      exact ⟨d, by simp [hik], rfl, rfl⟩
    · cases hcall
      rw [hc] at hd
      cases hd
      exact absurd hclosed hopen

/-- A plan that sets another status refuses an open candidate. -/
theorem refuse_open {svc : Service} {db : Db F} {k : Nat} {c : Candidate F} {automatic : Bool}
    {status : Status} {checks : Checks}
    (hplan : publishPlan host svc db k c automatic = .refuse status checks) (hne : status ≠ c.status) :
    c.status ≠ .published ∧ ¬ c.Closed := by
  rw [publishPlan_eq] at hplan
  split at hplan
  · cases hplan
  · split at hplan
    · split at hplan <;> cases hplan
    · cases hplan
      split at hne
      · next h => exact ⟨h.2.2.2, fun hclosed => hclosed.elim h.2.1 h.2.2.1⟩
      · exact absurd rfl hne

/-- A publication without a creation keeps the law. -/
theorem lifecycle_refusing {db : Db F} (hp : PointersPublished db) {svc : Service} {k : Nat}
    {automatic : Bool} {c : Candidate F} (hc : db.candidates.get? k = some c)
    (hplan : ∀ memory messageIds checks,
      publishPlan host svc db k c automatic ≠ .create memory messageIds checks) :
    LifecycleStep host db (.publish svc k automatic) := by
  have hout : (step host db (.publish svc k automatic)).2 =
      (commitPublish db k c (publishPlan host svc db k c automatic)).2 := by
    simp only [step, publish, hc]
  have hrewrites := commitPublish_rewrites hc c (publishPlan host svc db k c automatic)
  rw [← hout] at hrewrites
  rcases hrewrites with ⟨memory, ids, checks, h⟩ | h | ⟨status, checks, hrefuse, hne, h⟩
  · exact absurd h (hplan memory ids checks)
  · exact lifecycleStep_of_id host hp h
  · obtain ⟨hpublished, hopen⟩ := refuse_open host hrefuse hne
    refine lifecycleStep_of_open host hp hc h rfl ?_ hopen
    cases hm : c.publishedMemoryId with
    | none => rfl
    | some m =>
      rcases hp k c hc (by simp [hm]) with e | e
      · exact absurd e hpublished
      · exact absurd (Or.inr e) hopen

theorem lifecycle_publish {db : Db F} (hp : PointersPublished db) (svc : Service) (k : Nat)
    (automatic : Bool) :
    LifecycleStep host db (.publish svc k automatic) ↔ Allowed host db (.publish svc k automatic) := by
  cases hc : db.candidates.get? k with
  | none =>
    have hout : (step host db (.publish svc k automatic)).2 = db := by
      simp only [step, publish, hc]
    have hlaw : LifecycleStep host db (.publish svc k automatic) := by
      refine lifecycleStep_of_id host hp (k := k) ?_
      rw [hout]
      exact Rewrites.refl db k
    refine iff_of_true hlaw ?_
    cases automatic with
    | true => trivial
    | false =>
      intro c h
      rw [hc] at h
      cases h
  | some c =>
    have hrow : ∀ d, db.candidates.get? k = some d → d = c := fun d hd =>
      Option.some.inj (hd.symm.trans hc)
    by_cases hcreate : (publishChecks host svc db k c automatic).passed = true ∧
        (evidenceMessages db k).Nodup
    · rw [lifecycle_creating host hp hc (publishPlan_of_passed host hcreate.1 hcreate.2)]
      cases automatic with
      | true =>
        have hstatus := (gateOpen_of_passed host hcreate.1).1.status
        refine iff_of_true (fun hclosed => ?_) trivial
        rcases hclosed with e | e <;> rw [hstatus] at e <;> cases e
      | false =>
        constructor
        · intro hopen d hd hclosed
          rw [hrow d hd] at hclosed
          exact absurd hclosed hopen
        · intro hallowed hclosed
          rw [publishChecks_explicit] at hcreate
          exact hallowed c hc hclosed hcreate
    · refine iff_of_true (lifecycle_refusing host hp hc fun memory ids checks h => ?_) ?_
      · obtain ⟨-, hpassed, hnodup, -⟩ := publishPlan_create host h
        exact hcreate ⟨hpassed, hnodup⟩
      · cases automatic with
        | true => trivial
        | false =>
          intro d hd hclosed h
          rw [hrow d hd, ← publishChecks_explicit host svc] at h
          exact hcreate h

/-- **The law for one call.** -/
theorem lifecycleStep_iff {db : Db F} (hp : PointersPublished db) (call : Call F) :
    LifecycleStep host db call ↔ Allowed host db call := by
  have hopen : ∀ {c : Candidate F} {k}, db.candidates.get? k = some c → c.status ≠ .published →
      c.status ≠ .superseded → c.publishedMemoryId = none := by
    intro c k hc hpub hsup
    cases hm : c.publishedMemoryId with
    | none => rfl
    | some m => exact ((hp k c hc (by simp [hm])).elim hpub hsup).elim
  cases call with
  | createCandidate projectId new =>
    refine iff_of_true (lifecycleStep_of_id host hp (k := 0) ?_) trivial
    simp only [step]
    exact createCandidate_rewrites db projectId new 0
  | beginModelDecision k =>
    refine iff_of_true ?_ trivial
    have hout : (step host db (.beginModelDecision k)).2 = (beginModelDecision db k).2 := by
      simp only [step]
    have hrewrites := beginModelDecision_rewrites db k
    rw [← hout] at hrewrites
    rcases hrewrites with h | ⟨c, hc, hs, h⟩
    · exact lifecycleStep_of_id host hp h
    · refine lifecycleStep_of_open host hp hc h rfl (hopen hc ?_ ?_) ?_
      · rcases hs with e | e | e <;> simp [e]
      · rcases hs with e | e | e <;> simp [e]
      · rcases hs with e | e | e <;> simp [Candidate.Closed, e]
  | applyModelDecision svc k raw =>
    refine iff_of_true ?_ trivial
    have hout : (step host db (.applyModelDecision svc k raw)).2 =
        (applyModelDecision host svc db k raw).2 := by simp only [step]
    have hrewrites := applyModelDecision_rewrites host svc db k raw
    rw [← hout] at hrewrites
    rcases hrewrites with h | ⟨c, decision, status, hd, h⟩
    · exact lifecycleStep_of_id host hp h
    · exact lifecycleStep_of_open host hp hd.row h rfl hd.unpublished
        fun hclosed => hclosed.elim hd.notRejected hd.notSuperseded
  | markModelFailureNeedsReview k code =>
    refine iff_of_true ?_ trivial
    have hout : (step host db (.markModelFailureNeedsReview k code)).2 =
        (markModelFailureNeedsReview db k code).2 := by simp only [step]
    have hrewrites := markModelFailureNeedsReview_rewrites db k code
    rw [← hout] at hrewrites
    rcases hrewrites with h | ⟨c, hc, hpub, hsup, hrej, h⟩
    · exact lifecycleStep_of_id host hp h
    · exact lifecycleStep_of_open host hp hc h rfl (hopen hc hpub hsup)
        fun hclosed => hclosed.elim hrej hsup
  | correct k text reviewer reason replacement =>
    exact lifecycle_correct host hp k text reviewer reason replacement
  | review k decision reviewer reason => exact lifecycle_review host hp k decision reviewer reason
  | evaluate k =>
    refine iff_of_true (lifecycleStep_of_id host hp (k := k) ?_) trivial
    simp only [step, evaluate]
    split
    · exact Rewrites.refl db k
    · exact (Rewrites.refl db k).addPolicyResult _ _ _ _ _ _
  | publish svc k automatic => exact lifecycle_publish host hp svc k automatic
  | setFlags projectId flags =>
    exact iff_of_true (lifecycleStep_of_id host hp (k := 0) ((Rewrites.refl db 0).congr rfl rfl)) trivial
  | setPolicy projectId policy =>
    exact iff_of_true (lifecycleStep_of_id host hp (k := 0) ((Rewrites.refl db 0).congr rfl rfl)) trivial

/-! ## Runs -/

/-- **The lifecycle of candidates.**  From a database without candidates, the
law holds at every step of a run exactly when every call of it is allowed. -/
theorem lifecycle_iff (db : Db F) (hnone : db.candidates.rows = []) (calls : List (Call F)) :
    Always (step host) (LifecycleStep host) db calls ↔ Always (step host) (Allowed host) db calls := by
  have hstart : PointersPublished db := by
    intro k c hc
    simp [Table.get?, hnone] at hc
  have hkept : ∀ db call, PointersPublished db → Allowed host db call →
      PointersPublished (step host db call).2 := fun db call hp hallowed =>
    ((lifecycleStep_iff host hp call).mpr hallowed).pointers
  exact always_iff_of_invariant hkept (fun db call hp => lifecycleStep_iff host hp call) hstart calls

end Calls

/-- The decided candidate is published by the worker. -/
def publishedRun : List (Call Empty) := decidedRun ++ [.publish {} 0 true]

/-- The law holds of the main path. -/
theorem publishedRun_lifecycle :
    Always (step sampleHost) (LifecycleStep sampleHost) sampleDb publishedRun :=
  (lifecycle_iff sampleHost sampleDb rfl publishedRun).mpr
    ⟨trivial, trivial, trivial, trivial, trivial⟩

/-- **A review after the publication.**  It approves the published candidate,
which is then approved and not published, with a published memory. -/
theorem approved_after_publication :
    ((exec (step sampleHost) sampleDb (publishedRun ++ [.review 0 "approve" none none])).candidates.get?
        0).map (fun c => (c.status, c.publishedMemoryId)) = some (.approved, some 0) ∧
      ¬ Always (step sampleHost) (LifecycleStep sampleHost) sampleDb
        (publishedRun ++ [.review 0 "approve" none none]) := by
  have hrow : ((exec (step sampleHost) sampleDb
      (publishedRun ++ [.review 0 "approve" none none])).candidates.get? 0).map
        (fun c => (c.status, c.publishedMemoryId)) = some (.approved, some 0) := by
    decide +kernel
  refine ⟨hrow, fun hlaw => ?_⟩
  obtain ⟨c, hc, hpair⟩ := Option.map_eq_some_iff.mp hrow
  have hstatus : c.status = .approved := congrArg Prod.fst hpair
  have hpointer : c.publishedMemoryId = some 0 := congrArg Prod.snd hpair
  rw [exec_snoc] at hc
  have hpub := ((always_snoc _ _ _ _).mp hlaw).2.pointers 0 c hc (by simp [hpointer])
  rw [hstatus] at hpub
  rcases hpub with e | e <;> cases e

end CodexMemory.Candidates
