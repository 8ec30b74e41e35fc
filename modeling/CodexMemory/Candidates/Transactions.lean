import CodexMemory.Candidates.Gate
import CodexMemory.Candidates.Rows

/-!
# Overlapping publications

`publish` reads the candidate and runs its checks in one step, and writes the
memory and the pointer of the candidate by primary key at a later commit; no
lock is taken and nothing makes the pointer unique.  Two publications that
overlap both create a memory (`overlapping_publish_twice`).  A run creates one
memory for each candidate and returns it from every call exactly when every
creating commit finds the candidate still unpublished
(`one_publication_iff`).  The other calls may run in between.
-/

namespace CodexMemory.Candidates

open CodexMemory.Trace

variable {F : Type}

/-! ## The model -/

/-- A `publish` that has read and not yet committed. -/
structure PublishTx (F : Type) where
  candidateId : Nat
  read : Candidate F
  plan : PublishPlan F

structure System (F : Type) where
  db : Db F
  opened : List (PublishTx F)

inductive TxInput (F : Type)
  | read (svc : Service) (candidateId : Nat) (automatic : Bool)
  | commit (i : Nat)
  | other (call : Call F) (notPublish : call.isPublish = false)

inductive TxReply
  | read
  | committed (candidateId : Nat) (created : Option Nat) (result : Except Error Nat)
  | raised (error : Error)
  | noTransaction
  | other (reply : Reply)

/-- The memory that the commit of the plan creates. -/
def PublishPlan.creates (plan : PublishPlan F) (db : Db F) : Option Nat :=
  match plan with
  | .create _ _ _ => some db.memories.nextId
  | _ => none

def txStep [Json.PyFloat F] (host : Host F) (st : System F) : TxInput F → TxReply × System F
  | .read svc candidateId automatic =>
    match st.db.candidates.get? candidateId with
    | none => (.raised noCandidate, st)
    | some candidate =>
      let plan := publishPlan host svc st.db candidateId candidate automatic
      (.read, { st with opened := st.opened ++ [⟨candidateId, candidate, plan⟩] })
  | .commit i =>
    match st.opened[i]? with
    | none => (.noTransaction, st)
    | some tx =>
      let out := commitPublish st.db tx.candidateId tx.read tx.plan
      (.committed tx.candidateId (tx.plan.creates st.db) out.1, ⟨out.2, st.opened.eraseIdx i⟩)
  | .other call _ =>
    let out := step host st.db call
    (.other out.1, { st with db := out.2 })

/-- The memory that the reply returns to a call for candidate `k`. -/
def TxReply.returns (k : Nat) : TxReply → Option Nat
  | .committed id _ (.ok m) => if id = k then some m else none
  | _ => none

/-- The memory that was created for candidate `k`. -/
def TxReply.creates (k : Nat) : TxReply → Option Nat
  | .committed id (some m) _ => if id = k then some m else none
  | _ => none

def returned (k : Nat) (h : List (TxInput F × TxReply)) : List Nat :=
  h.filterMap fun e => e.2.returns k

def created (k : Nat) (h : List (TxInput F × TxReply)) : List Nat :=
  h.filterMap fun e => e.2.creates k

/-- At most one memory was created for candidate `k`, and every call that
succeeded returned the same one. -/
structure OnePublication (k : Nat) (h : List (TxInput F × TxReply)) : Prop where
  once : (created k h).length ≤ 1
  same : ∀ m ∈ returned k h, ∀ m' ∈ returned k h, m = m'

/-- The published memory of candidate `k`, as its row has it. -/
def pointer (db : Db F) (k : Nat) : Option Nat :=
  (db.candidates.get? k).bind fun c => c.publishedMemoryId

/-- A creating commit finds the candidate unpublished, as it was read. -/
def StillUnpublished (st : System F) : TxInput F → Prop
  | .commit i => ∀ tx m, st.opened[i]? = some tx → tx.plan.creates st.db = some m →
      pointer st.db tx.candidateId = none
  | _ => True

/-! ## Pointers -/

theorem isSome_of_rewrites {db db' : Db F} {k : Nat} {f : Candidate F → Candidate F}
    (h : Rewrites db db' k f) {i : Nat} (hi : (db.candidates.get? i).isSome) :
    (db'.candidates.get? i).isSome := by
  obtain ⟨c, hc⟩ := Option.isSome_iff_exists.mp hi
  rw [h.rows i c hc]
  rfl

theorem pointer_of_rewrites {db db' : Db F} {k : Nat} {f : Candidate F → Candidate F}
    (h : Rewrites db db' k f)
    (hf : ∀ c, db.candidates.get? k = some c → (f c).publishedMemoryId = c.publishedMemoryId)
    (i : Nat) : pointer db' i = pointer db i := by
  unfold pointer
  cases hi : db.candidates.get? i with
  | some c =>
    rw [h.rows i c hi]
    by_cases hik : i = k
    · subst hik
      simpa using hf c hi
    · simp [hik]
  | none =>
    cases hi' : db'.candidates.get? i with
    | none => rfl
    | some c => exact (h.fresh i c hi' hi).2

/-- A commit that creates nothing moves no pointer. -/
theorem pointer_commitPublish {db : Db F} {k : Nat} (hk : (db.candidates.get? k).isSome)
    (read : Candidate F) {plan : PublishPlan F} (hplan : plan.creates db = none) :
    (∀ i, (db.candidates.get? i).isSome →
      ((commitPublish db k read plan).2.candidates.get? i).isSome) ∧
    ∀ i, pointer (commitPublish db k read plan).2 i = pointer db i := by
  obtain ⟨c, hc⟩ := Option.isSome_iff_exists.mp hk
  rcases commitPublish_rewrites hc read plan with ⟨_, _, _, rfl⟩ | h | ⟨_, _, -, -, h⟩
  · cases hplan
  · exact ⟨fun i => isSome_of_rewrites h, pointer_of_rewrites h fun _ _ => rfl⟩
  · refine ⟨fun i => isSome_of_rewrites h, pointer_of_rewrites h fun d hd => ?_⟩
    rw [hc] at hd
    cases hd
    rfl

/-- A creating commit moves the pointer of its candidate to the new memory. -/
theorem pointer_commitPublish_create (db : Db F) (k : Nat) (read : Candidate F) {plan : PublishPlan F}
    {m : Nat} (hplan : plan.creates db = some m) :
    let out := commitPublish db k read plan
    out.1 = .ok m ∧ (∀ i, (db.candidates.get? i).isSome → (out.2.candidates.get? i).isSome) ∧
      ((db.candidates.get? k).isSome → pointer out.2 k = some m) ∧
      ∀ i, i ≠ k → pointer out.2 i = pointer db i := by
  cases plan with
  | create memory messageIds checks =>
    cases hplan
    obtain ⟨hok, -, hrows⟩ := commitPublish_create db k read memory messageIds checks
    refine ⟨hok, fun i hi => ?_, fun hk => ?_, fun i hik => ?_⟩
    · rw [hrows, Option.isSome_map]
      exact hi
    · obtain ⟨c, hc⟩ := Option.isSome_iff_exists.mp hk
      simp [pointer, hrows, hc]
    · simp [pointer, hrows, hik]
  | raise e => cases hplan
  | existing m => cases hplan
  | refuse status checks => cases hplan

/-! ## The invariant -/

/-- What the history and the open transactions say about the pointers. -/
structure Pointed (st : System F) (h : List (TxInput F × TxReply)) : Prop where
  returns : ∀ k, ∀ m ∈ returned k h, pointer st.db k = some m
  creates : ∀ k, ∀ m ∈ created k h, m ∈ returned k h
  once : ∀ k, (created k h).length ≤ 1
  present : ∀ tx ∈ st.opened, (st.db.candidates.get? tx.candidateId).isSome
  existing : ∀ tx ∈ st.opened, ∀ m, tx.plan = .existing m → pointer st.db tx.candidateId = some m
  creating : ∀ tx ∈ st.opened, (tx.plan.creates st.db).isSome →
    ∀ m, pointer st.db tx.candidateId = some m → m ∈ created tx.candidateId h

theorem pointed_start (db : Db F) : Pointed ⟨db, []⟩ ([] : List (TxInput F × TxReply)) := by
  constructor <;> simp [returned, created]

theorem Pointed.one {st : System F} {h : List (TxInput F × TxReply)} (hp : Pointed st h) (k : Nat) :
    OnePublication k h where
  once := hp.once k
  same m hm m' hm' := Option.some.inj ((hp.returns k m hm).symm.trans (hp.returns k m' hm'))

/-- Nothing was created for an unpublished candidate or returned to its calls. -/
theorem nothing_yet {st : System F} {h : List (TxInput F × TxReply)} (hp : Pointed st h) {k : Nat}
    (hk : pointer st.db k = none) : returned k h = [] ∧ created k h = [] := by
  have hret : returned k h = [] := by
    refine List.eq_nil_iff_forall_not_mem.mpr fun m hm => ?_
    rw [hp.returns k m hm] at hk
    cases hk
  refine ⟨hret, List.eq_nil_iff_forall_not_mem.mpr fun m hm => ?_⟩
  have hm' := hp.creates k m hm
  rw [hret] at hm'
  cases hm'

theorem returned_snoc (k : Nat) (h : List (TxInput F × TxReply)) (e : TxInput F × TxReply) :
    returned k (h ++ [e]) = returned k h ++ (e.2.returns k).toList := by
  simp only [returned, List.filterMap_append, List.filterMap_cons, List.filterMap_nil]
  cases e.2.returns k <;> rfl

theorem created_snoc (k : Nat) (h : List (TxInput F × TxReply)) (e : TxInput F × TxReply) :
    created k (h ++ [e]) = created k h ++ (e.2.creates k).toList := by
  simp only [created, List.filterMap_append, List.filterMap_cons, List.filterMap_nil]
  cases e.2.creates k <;> rfl

theorem OnePublication.of_snoc {k : Nat} {h : List (TxInput F × TxReply)} {e : TxInput F × TxReply}
    (hone : OnePublication k (h ++ [e])) : OnePublication k h where
  once := by
    have honce := hone.once
    rw [created_snoc, List.length_append] at honce
    omega
  same m hm m' hm' := by
    have hsub : ∀ n ∈ returned k h, n ∈ returned k (h ++ [e]) := by
      intro n hn
      rw [returned_snoc]
      exact List.mem_append_left _ hn
    exact hone.same m (hsub m hm) m' (hsub m' hm')

/-- A reply that returns and creates nothing. -/
def TxReply.Silent (reply : TxReply) : Prop := ∀ k, reply.returns k = none ∧ reply.creates k = none

theorem snoc_silent {reply : TxReply} (hs : reply.Silent) (k : Nat) (h : List (TxInput F × TxReply))
    (input : TxInput F) :
    returned k (h ++ [(input, reply)]) = returned k h ∧
      created k (h ++ [(input, reply)]) = created k h := by
  rw [returned_snoc, created_snoc]
  simp only [(hs k).1, (hs k).2, Option.toList_none, List.append_nil, and_self]

/-- After a silent reply the history says what it said before. -/
theorem Pointed.silent {st : System F} {h : List (TxInput F × TxReply)} (hp : Pointed st h)
    {reply : TxReply} (hs : reply.Silent) (input : TxInput F) : Pointed st (h ++ [(input, reply)]) where
  returns k := by rw [(snoc_silent hs k h input).1]; exact hp.returns k
  creates k := by rw [(snoc_silent hs k h input).1, (snoc_silent hs k h input).2]; exact hp.creates k
  once k := by rw [(snoc_silent hs k h input).2]; exact hp.once k
  present := hp.present
  existing := hp.existing
  creating tx htx := by rw [(snoc_silent hs _ h input).2]; exact hp.creating tx htx

/-- Rows may change as long as the pointers stay. -/
theorem Pointed.of_pointers {st : System F} {h : List (TxInput F × TxReply)} (hp : Pointed st h)
    {db : Db F} (hptr : ∀ k, pointer db k = pointer st.db k)
    (hsome : ∀ k, (st.db.candidates.get? k).isSome → (db.candidates.get? k).isSome) :
    Pointed ⟨db, st.opened⟩ h where
  returns k m hm := (hptr k).trans (hp.returns k m hm)
  creates := hp.creates
  once := hp.once
  present tx htx := hsome _ (hp.present tx htx)
  existing tx htx m he := (hptr _).trans (hp.existing tx htx m he)
  creating tx htx hc m hm := by
    refine hp.creating tx htx ?_ m ((hptr _).symm.trans hm)
    cases hplan : tx.plan <;> simp_all [PublishPlan.creates]

variable [Json.PyFloat F] (host : Host F)

/-- A plan creates only for a candidate without a published memory. -/
theorem publishPlan_unpublished {svc : Service} {db : Db F} {k : Nat}
    {candidate : Candidate F} {automatic : Bool}
    (h : ((publishPlan host svc db k candidate automatic).creates db).isSome) :
    candidate.publishedMemoryId = none := by
  cases hplan : publishPlan host svc db k candidate automatic with
  | create memory messageIds checks =>
    exact (unpublished_of_passed host (publishPlan_create host hplan).2.1).1
  | raise e => simp [hplan, PublishPlan.creates] at h
  | existing m => simp [hplan, PublishPlan.creates] at h
  | refuse status checks => simp [hplan, PublishPlan.creates] at h

theorem publishPlan_existing {svc : Service} {db : Db F} {k : Nat} {candidate : Candidate F}
    {automatic : Bool} {m : Nat}
    (h : publishPlan host svc db k candidate automatic = .existing m) :
    candidate.publishedMemoryId = some m := by
  rw [publishPlan_eq] at h
  split at h
  · next m' hm' =>
    cases h
    obtain ⟨i, hi, hmem⟩ := Option.bind_eq_some_iff.mp hm'
    obtain ⟨memory, -, rfl⟩ := Option.map_eq_some_iff.mp hmem
    exact hi
  · split at h
    · split at h <;> cases h
    · cases h

theorem pointed_read {st : System F} {h : List (TxInput F × TxReply)} (hp : Pointed st h)
    (svc : Service) (k : Nat) (automatic : Bool) :
    Pointed (txStep host st (.read svc k automatic)).2
      (h ++ [(.read svc k automatic, (txStep host st (.read svc k automatic)).1)]) := by
  simp only [txStep]
  cases hc : st.db.candidates.get? k with
  | none => exact hp.silent (fun _ => ⟨rfl, rfl⟩) _
  | some candidate =>
    have hold := hp.silent (fun _ => ⟨rfl, rfl⟩ : TxReply.read.Silent) (.read svc k automatic)
    refine ⟨hold.returns, hold.creates, hold.once, fun tx htx => ?_, fun tx htx m hplan => ?_,
      fun tx htx hplan m hm => ?_⟩
    · rcases List.mem_append.mp htx with hmem | hnew
      · exact hold.present tx hmem
      · rw [List.mem_singleton.mp hnew]
        simp [hc]
    · rcases List.mem_append.mp htx with hmem | hnew
      · exact hold.existing tx hmem m hplan
      · rw [List.mem_singleton.mp hnew] at hplan ⊢
        simp only [pointer, hc]
        exact publishPlan_existing host hplan
    · rcases List.mem_append.mp htx with hmem | hnew
      · exact hold.creating tx hmem hplan m hm
      · rw [List.mem_singleton.mp hnew] at hplan hm
        simp only [pointer, hc, Option.bind_some] at hm
        rw [publishPlan_unpublished host hplan] at hm
        cases hm

theorem pointed_other {st : System F} {h : List (TxInput F × TxReply)} (hp : Pointed st h)
    (call : Call F) (hcall : call.isPublish = false) :
    Pointed (txStep host st (.other call hcall)).2
      (h ++ [(.other call hcall, (txStep host st (.other call hcall)).1)]) := by
  obtain ⟨k, f, hrow, hf⟩ := step_keeps_pointer host st.db hcall
  simp only [txStep]
  exact (hp.of_pointers (pointer_of_rewrites hrow hf) fun _ => isSome_of_rewrites hrow).silent
    (fun _ => ⟨rfl, rfl⟩) _

omit [Json.PyFloat F] in
/-- A commit that creates nothing returns the memory that its plan found. -/
theorem existing_of_returns {db : Db F} {id k m : Nat} {read : Candidate F} {plan : PublishPlan F}
    {c : Option Nat} (hplan : plan.creates db = none)
    (h : (TxReply.committed id c (commitPublish db id read plan).1).returns k = some m) :
    id = k ∧ plan = .existing m := by
  cases plan with
  | create memory messageIds checks => cases hplan
  | raise e => cases h
  | refuse status checks => cases h
  | existing m' =>
    simp only [commitPublish, TxReply.returns] at h
    split at h
    · next hk =>
      cases h
      exact ⟨hk, rfl⟩
    · cases h

/-- The commit of a plan that creates nothing. -/
theorem pointed_commit_kept {st : System F} {h : List (TxInput F × TxReply)} (hp : Pointed st h)
    {i : Nat} {tx : PublishTx F} (hi : st.opened[i]? = some tx)
    (hplan : tx.plan.creates st.db = none) :
    Pointed (txStep host st (.commit i)).2
      (h ++ [(.commit i, (txStep host st (.commit i)).1)]) := by
  have htx := List.mem_of_getElem? hi
  obtain ⟨hsome, hptr⟩ := pointer_commitPublish (hp.present tx htx) tx.read hplan
  have hold := hp.of_pointers hptr hsome
  simp only [txStep, hi]
  have hcreated : ∀ k result, created k (h ++ [((TxInput.commit i : TxInput F),
      TxReply.committed tx.candidateId (tx.plan.creates st.db) result)]) = created k h := by
    intro k result
    rw [created_snoc, hplan]
    exact List.append_nil _
  have hmem : ∀ t ∈ st.opened.eraseIdx i, t ∈ st.opened := fun t => List.mem_of_mem_eraseIdx
  refine ⟨fun k m hm => ?_, fun k m hm => ?_, fun k => by rw [hcreated]; exact hp.once k,
    fun t ht => hold.present t (hmem t ht), fun t ht => hold.existing t (hmem t ht),
    fun t ht => by rw [hcreated]; exact hold.creating t (hmem t ht)⟩
  · rw [returned_snoc, List.mem_append] at hm
    rcases hm with hm | hm
    · exact hold.returns k m hm
    · obtain ⟨hk, he⟩ := existing_of_returns hplan (Option.mem_toList.mp hm)
      subst hk
      exact hold.existing tx htx m he
  · rw [hcreated] at hm
    rw [returned_snoc]
    exact List.mem_append_left _ (hp.creates k m hm)

/-- The commit of a plan that creates a memory for an unpublished candidate. -/
theorem pointed_commit_create {st : System F} {h : List (TxInput F × TxReply)} (hp : Pointed st h)
    {i : Nat} {tx : PublishTx F} (hi : st.opened[i]? = some tx) {m : Nat}
    (hplan : tx.plan.creates st.db = some m) (hnone : pointer st.db tx.candidateId = none) :
    Pointed (txStep host st (.commit i)).2
      (h ++ [(.commit i, (txStep host st (.commit i)).1)]) := by
  have htx := List.mem_of_getElem? hi
  obtain ⟨hok, hsome, hself, hne⟩ := pointer_commitPublish_create st.db tx.candidateId tx.read hplan
  have hself := hself (hp.present tx htx)
  obtain ⟨hret, hcr⟩ := nothing_yet hp hnone
  simp only [txStep, hi, hok, hplan]
  have hmem : ∀ t ∈ st.opened.eraseIdx i, t ∈ st.opened := fun t => List.mem_of_mem_eraseIdx
  have hboth : ∀ k, returned k (h ++ [((TxInput.commit i : TxInput F),
        TxReply.committed tx.candidateId (some m) (.ok m))]) =
        (if k = tx.candidateId then [m] else returned k h) ∧
      created k (h ++ [((TxInput.commit i : TxInput F),
        TxReply.committed tx.candidateId (some m) (.ok m))]) =
        (if k = tx.candidateId then [m] else created k h) := by
    intro k
    rw [returned_snoc, created_snoc]
    by_cases hk : k = tx.candidateId
    · subst hk
      simp [TxReply.returns, TxReply.creates, hret, hcr]
    · have hk' : tx.candidateId ≠ k := fun e => hk e.symm
      simp [TxReply.returns, TxReply.creates, hk, hk']
  refine ⟨fun k n hn => ?_, fun k n hn => ?_, fun k => ?_,
    fun t ht => hsome _ (hp.present t (hmem t ht)), fun t ht n he => ?_, fun t ht he n hn => ?_⟩
  · rw [(hboth k).1] at hn
    by_cases hk : k = tx.candidateId
    · rw [if_pos hk, List.mem_singleton] at hn
      rw [hk, hn]
      exact hself
    · rw [if_neg hk] at hn
      exact (hne k hk).trans (hp.returns k n hn)
  · rw [(hboth k).2] at hn
    rw [(hboth k).1]
    by_cases hk : k = tx.candidateId
    · rwa [if_pos hk] at hn ⊢
    · rw [if_neg hk] at hn ⊢
      exact hp.creates k n hn
  · rw [(hboth k).2]
    split
    · exact Nat.le_refl 1
    · exact hp.once k
  · -- the plan of `t` found a memory, so its candidate is not the one published now
    have hold := hp.existing t (hmem t ht) n he
    have hk : t.candidateId ≠ tx.candidateId := by
      intro hk
      rw [hk, hnone] at hold
      cases hold
    exact (hne _ hk).trans hold
  · rw [(hboth _).2]
    by_cases hk : t.candidateId = tx.candidateId
    · rw [hk, hself] at hn
      cases hn
      simp [hk]
    · rw [if_neg hk]
      refine hp.creating t (hmem t ht) ?_ n ((hne _ hk).symm.trans hn)
      cases hcase : t.plan <;> simp_all [PublishPlan.creates]

theorem pointed_step (st : System F) (h : List (TxInput F × TxReply)) (input : TxInput F)
    (hp : Pointed st h) (hguard : StillUnpublished st input) :
    Pointed (txStep host st input).2 (h ++ [(input, (txStep host st input).1)]) := by
  cases input with
  | read svc k automatic => exact pointed_read host hp svc k automatic
  | other call hcall => exact pointed_other host hp call hcall
  | commit i =>
    cases hi : st.opened[i]? with
    | none =>
      simp only [txStep, hi]
      exact hp.silent (fun _ => ⟨rfl, rfl⟩) _
    | some tx =>
      cases hplan : tx.plan.creates st.db with
      | none => exact pointed_commit_kept host hp hi hplan
      | some m => exact pointed_commit_create host hp hi hplan (hguard tx m hi hplan)

/-! ## Runs -/

theorem pointed_run (db : Db F) (inputs : List (TxInput F))
    (hguard : Always (txStep host) StillUnpublished ⟨db, []⟩ inputs) :
    Pointed (exec (txStep host) ⟨db, []⟩ inputs) (history (txStep host) ⟨db, []⟩ inputs) := by
  induction inputs using List.reverseRecOn with
  | nil => exact pointed_start db
  | append_singleton inputs input ih =>
    obtain ⟨hbefore, hinput⟩ := (always_snoc _ _ _ _).mp hguard
    rw [exec_snoc, history_snoc]
    exact pointed_step host _ _ input (ih hbefore) hinput

/-- A creating commit for a published candidate is its second creation. -/
theorem stillUnpublished_of_one {st : System F} {h : List (TxInput F × TxReply)} (hp : Pointed st h)
    {input : TxInput F}
    (hone : ∀ k, OnePublication k (h ++ [(input, (txStep host st input).1)])) :
    StillUnpublished st input := by
  cases input with
  | read svc k automatic => trivial
  | other call hcall => trivial
  | commit i =>
    intro tx m hi hplan
    cases hptr : pointer st.db tx.candidateId with
    | none => rfl
    | some n =>
      have hn := hp.creating tx (List.mem_of_getElem? hi) (by simp [hplan]) n hptr
      have honce := (hone tx.candidateId).once
      simp only [txStep, hi, hplan, created_snoc, TxReply.creates, if_true, Option.toList_some,
        List.length_append, List.length_singleton] at honce
      have hpos := List.length_pos_of_mem hn
      omega

/-- **One publication for each candidate.**  In a run of overlapping
publications, with any other calls in between, at most one memory is created
for each candidate and every successful call for it returns that one, exactly
when every creating commit finds its candidate still unpublished. -/
theorem one_publication_iff (db : Db F) (inputs : List (TxInput F)) :
    (∀ k, OnePublication k (history (txStep host) ⟨db, []⟩ inputs)) ↔
      Always (txStep host) StillUnpublished ⟨db, []⟩ inputs := by
  constructor
  · intro hone
    induction inputs using List.reverseRecOn with
    | nil => trivial
    | append_singleton inputs input ih =>
      rw [history_snoc] at hone
      have hbefore := ih fun k => (hone k).of_snoc
      refine (always_snoc _ _ _ _).mpr ⟨hbefore, ?_⟩
      exact stillUnpublished_of_one host (pointed_run host db inputs hbefore) hone
  · intro hguard k
    exact (pointed_run host db inputs hguard).one k

/-- A candidate is created, and two explicit publications of it overlap. -/
def overlappingRun : List (TxInput Empty) :=
  [.other (.createCandidate 0 sampleCandidate) rfl, .read {} 0 false, .read {} 0 false,
    .commit 0, .commit 0]

/-- **An overlap publishes twice.**  Both publications read the candidate
before either commits: both create a memory, and they return different ones. -/
theorem overlapping_publish_twice :
    created 0 (history (txStep sampleHost) ⟨sampleDb, []⟩ overlappingRun) = [0, 1] ∧
      returned 0 (history (txStep sampleHost) ⟨sampleDb, []⟩ overlappingRun) = [0, 1] ∧
      ¬ OnePublication 0 (history (txStep sampleHost) ⟨sampleDb, []⟩ overlappingRun) := by
  have hcreated : created 0 (history (txStep sampleHost) ⟨sampleDb, []⟩ overlappingRun) = [0, 1] := by
    decide
  refine ⟨hcreated, by decide, fun hone => ?_⟩
  have honce := hone.once
  rw [hcreated] at honce
  exact absurd honce (by decide)

end CodexMemory.Candidates
