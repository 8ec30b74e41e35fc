import CodexMemory.Text
import CodexMemory.Trace
import Mathlib.Algebra.BigOperators.Fin
import Mathlib.Algebra.Order.BigOperators.Group.Finset

/-!
# `ProviderBudgetTracker` of `pipelines/v11_budget.py`

Any number of wrapped calls run at the same time.  A call checks the budget of the day, calls the
backend, which may fail, and records its tokens in a transaction of its own: an update, an insertion
where the update has found no row, and the commit.  Between the check and the commit other calls go on
and the day may end.

* `kept_step`: one step keeps the budget exactly when it is regular;
* `budget_iff`: so does every run.
-/

namespace CodexMemory.Providers

/-! ## The tracker -/

/-- `ProjectProcessingPolicyRow`, the columns that are read here. -/
structure Policy where
  dailyEmbeddingTokenBudget : Option Int
  dailyLlmTokenBudget : Option Int
  deriving DecidableEq

/-- The columns of `uq_daily_token_project_date_type`. -/
structure UsageKey where
  projectId : Nat
  usageDate : Nat
  tokenType : String
  deriving DecidableEq

/-- The row of a key as the database holds it: the tokens that are committed, and what an open
transaction has written. -/
structure UsageCell where
  tokensUsed : Option Int
  written : Option (Nat × Int)
  deriving DecidableEq

/-- The usage of the day, `0` without a row. -/
def used (usage : UsageKey → UsageCell) (key : UsageKey) : Int := (usage key).tokensUsed.getD 0

/-- The limit of a token type, `0` where there is none. -/
def Policy.limit (policy : Policy) (tokenType : String) : Int :=
  if "embedding".toList.isPrefixOf tokenType.toList then policy.dailyEmbeddingTokenBudget.getD 0
  else if "llm".toList.isPrefixOf tokenType.toList then policy.dailyLlmTokenBudget.getD 0
  else 0

def check (policies : Nat → Option Policy) (usage : UsageKey → UsageCell) (today : Nat) (projectId : Nat)
    (tokenType : String) (estimatedTokens : Int) : Bool :=
  if estimatedTokens ≤ 0 then true
  else
    match policies projectId with
    | none => true
    | some policy =>
      if policy.limit tokenType ≤ 0 then true
      else used usage ⟨projectId, today, tokenType⟩ + estimatedTokens ≤ policy.limit tokenType

def estimateTokens (texts : List String) : Int := (texts.map fun text => max 1 (((text.length + 3) / 4 : Nat) : Int)).sum

/-! ## Calls -/

/-- A call of the backend that `wrap_embedding_backend` has wrapped. -/
structure Call where
  projectId : Nat
  tokenType : String
  texts : List String
  deriving DecidableEq

def Call.estimated (call : Call) : Int := estimateTokens call.texts

def Call.key (call : Call) (today : Nat) : UsageKey := ⟨call.projectId, today, call.tokenType⟩

/-- How a call ends: it returns, with its tokens under a key unless there are none, or raises
`BudgetExceededError`, an error of the backend or an `IntegrityError` of `record`. -/
inductive Ended
  | returned (recorded : Option UsageKey)
  | exceeded (message : String)
  | failed
  | integrity (constraint : String)
  deriving DecidableEq

/-- What a call does next. -/
inductive Phase
  | starting
  | calling
  | recording
  | inserting (key : UsageKey)
  | committing (key : UsageKey)
  | ended (result : Ended)
  deriving DecidableEq

structure State where
  usage : UsageKey → UsageCell
  today : Nat
  phase : Nat → Phase

/-- What happens next: a call goes on, its backend raises, or the day ends. -/
inductive Event
  | go (c : Nat)
  | backendFails (c : Nat)
  | midnight
  deriving DecidableEq

namespace State

def goTo (s : State) (c : Nat) (phase : Phase) : State :=
  { s with phase := fun i => if i = c then phase else s.phase i }

def setCell (s : State) (key : UsageKey) (cell : UsageCell) : State :=
  { s with usage := fun k => if k = key then cell else s.usage k }

end State

/-- The check before the backend is called. -/
def start (policies : Nat → Option Policy) (s : State) (c : Nat) (call : Call) : State :=
  if check policies s.usage s.today call.projectId call.tokenType call.estimated then s.goTo c .calling
  else
    s.goTo c (.ended (.exceeded
      ("daily " ++ call.tokenType ++ " budget exceeded for project " ++ toString call.projectId)))

/-- The update of `record`; it waits while another transaction has written the row. -/
def recordUpdate (s : State) (c : Nat) (call : Call) : Bool × State :=
  if call.estimated ≤ 0 then (true, s.goTo c (.ended (.returned none)))
  else
    match s.usage (call.key s.today) with
    | { tokensUsed := none, .. } => (true, s.goTo c (.inserting (call.key s.today)))
    | { tokensUsed := some _, written := some _ } => (false, s)
    | { tokensUsed := some tokens, written := none } =>
      (true, (s.setCell (call.key s.today) ⟨some tokens, some (c, tokens + call.estimated)⟩).goTo c
        (.committing (call.key s.today)))

/-- The insertion, where the update has found no row; it waits while another transaction has inserted
the row and is refused when that has committed. -/
def recordInsert (s : State) (c : Nat) (call : Call) (key : UsageKey) : Bool × State :=
  match s.usage key with
  | { tokensUsed := some _, .. } => (true, s.goTo c (.ended (.integrity "uq_daily_token_project_date_type")))
  | { tokensUsed := none, written := some _ } => (false, s)
  | { tokensUsed := none, written := none } =>
    (true, (s.setCell key ⟨none, some (c, call.estimated)⟩).goTo c (.committing key))

/-- `session.commit()` of `record`, and the return. -/
def recordCommit (s : State) (c : Nat) (key : UsageKey) : State :=
  (s.setCell key ⟨(s.usage key).written.map Prod.snd, none⟩).goTo c (.ended (.returned (some key)))

/-- The next step; the answer is whether something has happened. -/
def step (policies : Nat → Option Policy) (calls : List Call) (s : State) : Event → Bool × State
  | .midnight => (true, { s with today := s.today + 1 })
  | .backendFails c =>
    if c < calls.length ∧ s.phase c = .calling then (true, s.goTo c (.ended .failed)) else (false, s)
  | .go c =>
    match calls[c]? with
    | none => (false, s)
    | some call =>
      match s.phase c with
      | .starting => (true, start policies s c call)
      | .calling => (true, s.goTo c .recording)
      | .recording => recordUpdate s c call
      | .inserting key => recordInsert s c call key
      | .committing key => (true, recordCommit s c key)
      | .ended _ => (false, s)

/-! ## The budget is kept -/

/-- The tokens of the calls that have returned and are recorded under a key. -/
def recordedTokens (calls : List Call) (s : State) (key : UsageKey) : Int :=
  ∑ c : Fin calls.length, if s.phase c = .ended (.returned (some key)) then calls[c].estimated else 0

/-- Usage from earlier, within the limits, and no call that has begun. -/
structure Start (policies : Nat → Option Policy) where
  state : State
  starting : ∀ c, state.phase c = .starting
  settled : ∀ key, (state.usage key).written = none
  within : ∀ key policy, policies key.projectId = some policy → 0 < policy.limit key.tokenType →
    used state.usage key ≤ policy.limit key.tokenType

/-- **What is to hold**: no day is over its limit, what is recorded is the tokens of the calls that have
returned, each once, and no call whose backend has returned ends with an error of the database. -/
structure Kept (policies : Nat → Option Policy) (calls : List Call) (before : State) (s : State) : Prop where
  within : ∀ key policy, policies key.projectId = some policy → 0 < policy.limit key.tokenType →
    used s.usage key ≤ policy.limit key.tokenType
  recorded : ∀ key, used s.usage key = used before.usage key + recordedTokens calls s key
  noneLost : ∀ c constraint, s.phase c ≠ .ended (.integrity constraint)

/-- A step that cannot go wrong: a call commits its tokens where its check, made again for that day,
still passes, and inserts a row where there is none. -/
def Regular (policies : Nat → Option Policy) (calls : List Call) (s : State) : Event → Prop
  | .go c =>
    ∀ call, calls[c]? = some call →
      (∀ key, s.phase c = .committing key →
        check policies s.usage key.usageDate call.projectId call.tokenType call.estimated = true) ∧
      ∀ key, s.phase c = .inserting key → (s.usage key).tokensUsed = none
  | _ => True

/-! ## States -/

section

variable {policies : Nat → Option Policy} {calls : List Call} {before s : State}

@[simp] theorem goTo_usage (c : Nat) (phase : Phase) : (s.goTo c phase).usage = s.usage := rfl

@[simp] theorem goTo_today (c : Nat) (phase : Phase) : (s.goTo c phase).today = s.today := rfl

@[simp] theorem goTo_self (c : Nat) (phase : Phase) : (s.goTo c phase).phase c = phase := if_pos rfl

theorem goTo_ne {c d : Nat} (phase : Phase) (h : d ≠ c) : (s.goTo c phase).phase d = s.phase d := if_neg h

@[simp] theorem setCell_phase (key : UsageKey) (cell : UsageCell) : (s.setCell key cell).phase = s.phase := rfl

@[simp] theorem setCell_self (key : UsageKey) (cell : UsageCell) : (s.setCell key cell).usage key = cell := if_pos rfl

theorem setCell_ne {key key' : UsageKey} (cell : UsageCell) (h : key' ≠ key) :
    (s.setCell key cell).usage key' = s.usage key' := if_neg h

theorem recordedTokens_congr {t : State} (key : UsageKey)
    (h : ∀ c : Nat, t.phase c = .ended (.returned (some key)) ↔ s.phase c = .ended (.returned (some key))) :
    recordedTokens calls t key = recordedTokens calls s key :=
  Finset.sum_congr rfl fun c _ => if_congr (h c) rfl rfl

/-- A call that returns adds its tokens, under its key only. -/
theorem recordedTokens_return {t : State} {c : Nat} {call : Call} {key : UsageKey} (hcall : calls[c]? = some call)
    (hbefore : s.phase c ≠ .ended (.returned (some key))) (hafter : t.phase c = .ended (.returned (some key)))
    (hothers : ∀ d, d ≠ c → t.phase d = s.phase d) :
    recordedTokens calls t key = recordedTokens calls s key + call.estimated := by
  obtain ⟨hlt, hget⟩ := List.getElem?_eq_some_iff.mp hcall
  have hmem : (⟨c, hlt⟩ : Fin calls.length) ∈ Finset.univ := Finset.mem_univ _
  rw [recordedTokens, recordedTokens, ← Finset.add_sum_erase _ _ hmem, ← Finset.add_sum_erase _ _ hmem]
  have hrest : ∑ d ∈ Finset.univ.erase (⟨c, hlt⟩ : Fin calls.length),
      (if t.phase d = .ended (.returned (some key)) then calls[d].estimated else 0) =
      ∑ d ∈ Finset.univ.erase (⟨c, hlt⟩ : Fin calls.length),
        (if s.phase d = .ended (.returned (some key)) then calls[d].estimated else 0) := by
    refine Finset.sum_congr rfl fun d hd => ?_
    have hne : (d : Nat) ≠ c := fun heq => (Finset.ne_of_mem_erase hd) (Fin.ext heq)
    rw [hothers d hne]
  rw [hrest, if_pos hafter, if_neg hbefore]
  simp only [Fin.getElem_fin, hget]
  omega

/-- The calls between their update and their commit hold the cell that they have written. -/
structure Inv (policies : Nat → Option Policy) (calls : List Call) (before : State) (s : State) : Prop where
  kept : Kept policies calls before s
  inserting : ∀ (c : Nat) call key, calls[c]? = some call → s.phase c = .inserting key → key = call.key key.usageDate
  committing : ∀ (c : Nat) call key, calls[c]? = some call → s.phase c = .committing key →
    key = call.key key.usageDate ∧ (s.usage key).written = some (c, used s.usage key + call.estimated)

theorem Start.inv (start : Start policies) (calls : List Call) : Inv policies calls start.state start.state where
  kept := by
    refine ⟨start.within, fun key => ?_, fun c constraint h => ?_⟩
    · rw [recordedTokens, Finset.sum_eq_zero, add_zero]
      intro c _
      rw [start.starting, if_neg (fun h => nomatch h)]
    · rw [start.starting] at h
      cases h
  inserting c call key _ h := by
    rw [start.starting] at h
    cases h
  committing c call key _ h := by
    rw [start.starting] at h
    cases h

/-- A step that leaves the usage as it is. -/
theorem Inv.goTo (h : Inv policies calls before s) {c : Nat} {call : Call} (hcall : calls[c]? = some call)
    {phase : Phase} (hbefore : ∀ key, s.phase c ≠ .ended (.returned (some key)))
    (hafter : ∀ key, phase ≠ .ended (.returned (some key))) (hkept : ∀ constraint, phase ≠ .ended (.integrity constraint))
    (hinserting : ∀ key, phase = .inserting key → key = call.key key.usageDate)
    (hcommitting : ∀ key, phase ≠ .committing key) : Inv policies calls before (s.goTo c phase) where
  kept := by
    refine ⟨h.kept.within, fun key => ?_, fun d constraint hd => ?_⟩
    · rw [goTo_usage, h.kept.recorded key, ← recordedTokens_congr (s := s) key]
      intro d
      by_cases hd : d = c
      · subst hd
        rw [goTo_self]
        exact iff_of_false (hafter key) (hbefore key)
      · rw [goTo_ne _ hd]
    · by_cases heq : d = c
      · subst heq
        rw [goTo_self] at hd
        exact hkept constraint hd
      · rw [goTo_ne _ heq] at hd
        exact h.kept.noneLost d constraint hd
  inserting d call' key hcall' hd := by
    by_cases heq : d = c
    · subst heq
      obtain rfl := Option.some.inj (hcall.symm.trans hcall')
      rw [goTo_self] at hd
      exact hinserting key hd
    · rw [goTo_ne _ heq] at hd
      exact h.inserting d call' key hcall' hd
  committing d call' key hcall' hd := by
    by_cases heq : d = c
    · subst heq
      rw [goTo_self] at hd
      exact absurd hd (hcommitting key)
    · rw [goTo_ne _ heq] at hd
      exact h.committing d call' key hcall' hd

/-- A call writes a cell that no transaction has written. -/
theorem Inv.write (h : Inv policies calls before s) {c : Nat} {call : Call} (hcall : calls[c]? = some call)
    (hbefore : ∀ key, s.phase c ≠ .ended (.returned (some key))) {key : UsageKey} (hkey : key = call.key key.usageDate)
    (hfree : (s.usage key).written = none) :
    Inv policies calls before ((s.setCell key ⟨(s.usage key).tokensUsed, some (c, used s.usage key + call.estimated)⟩).goTo c
      (.committing key)) := by
  have hused : ∀ key', used (s.setCell key ⟨(s.usage key).tokensUsed, some (c, used s.usage key + call.estimated)⟩).usage
      key' = used s.usage key' := by
    intro key'
    by_cases heq : key' = key
    · subst heq
      rw [used, setCell_self, used]
    · rw [used, setCell_ne _ heq, used]
  refine ⟨⟨fun key' policy hpolicy hlimit => ?_, fun key' => ?_, fun d constraint hd => ?_⟩,
    fun d call' key' hcall' hd => ?_, fun d call' key' hcall' hd => ?_⟩
  · rw [goTo_usage, hused]
    exact h.kept.within key' policy hpolicy hlimit
  · rw [goTo_usage, hused, h.kept.recorded key', ← recordedTokens_congr (s := s) key']
    intro d
    by_cases hd : d = c
    · subst hd
      rw [goTo_self]
      exact iff_of_false (fun hc => nomatch hc) (hbefore key')
    · rw [goTo_ne _ hd, setCell_phase]
  · by_cases heq : d = c
    · subst heq
      rw [goTo_self] at hd
      cases hd
    · rw [goTo_ne _ heq] at hd
      exact h.kept.noneLost d constraint hd
  · by_cases heq : d = c
    · subst heq
      rw [goTo_self] at hd
      cases hd
    · rw [goTo_ne _ heq] at hd
      exact h.inserting d call' key' hcall' hd
  · rw [goTo_usage, hused]
    by_cases heq : d = c
    · subst heq
      obtain rfl := Option.some.inj (hcall.symm.trans hcall')
      rw [goTo_self] at hd
      obtain rfl := Phase.committing.inj hd
      exact ⟨hkey, by rw [setCell_self]⟩
    · rw [goTo_ne _ heq] at hd
      obtain ⟨hkey', hwritten⟩ := h.committing d call' key' hcall' hd
      have hne : key' ≠ key := by
        rintro rfl
        rw [hfree] at hwritten
        cases hwritten
      exact ⟨hkey', by rw [setCell_ne _ hne]; exact hwritten⟩

/-- A call that commits adds its tokens to the cell. -/
theorem recordCommit_used {c : Nat} {call : Call} {key : UsageKey}
    (hwritten : (s.usage key).written = some (c, used s.usage key + call.estimated)) (key' : UsageKey) :
    used (recordCommit s c key).usage key' = if key' = key then used s.usage key + call.estimated else used s.usage key' := by
  rw [recordCommit, goTo_usage, used]
  split
  · next heq =>
    subst heq
    rw [setCell_self, hwritten]
    rfl
  · next hne => rw [setCell_ne _ hne, used]

theorem Inv.commit (h : Inv policies calls before s) {c : Nat} {call : Call} (hcall : calls[c]? = some call)
    {key : UsageKey} (hphase : s.phase c = .committing key)
    (hcheck : check policies s.usage key.usageDate call.projectId call.tokenType call.estimated = true) :
    Inv policies calls before (recordCommit s c key) := by
  obtain ⟨hkey, hwritten⟩ := h.committing c call key hcall hphase
  have hused := recordCommit_used hwritten
  have hself : (recordCommit s c key).phase c = .ended (.returned (some key)) := goTo_self c _
  have hothers : ∀ d, d ≠ c → (recordCommit s c key).phase d = s.phase d := fun d hd => goTo_ne _ hd
  refine ⟨⟨fun key' policy hpolicy hlimit => ?_, fun key' => ?_, fun d constraint hd => ?_⟩,
    fun d call' key' hcall' hd => ?_, fun d call' key' hcall' hd => ?_⟩
  · have hwithin := h.kept.within key' policy hpolicy hlimit
    rw [hused]
    split
    · next heq =>
      subst heq
      rw [hkey] at hpolicy hlimit
      rw [check] at hcheck
      split at hcheck
      · omega
      · rw [show policies call.projectId = some policy from hpolicy] at hcheck
        have hpositive : 0 < policy.limit call.tokenType := hlimit
        simp only at hcheck
        rw [if_neg (by omega), decide_eq_true_iff] at hcheck
        rw [hkey]
        exact hcheck
    · exact hwithin
  · rw [hused]
    split
    · next heq =>
      subst heq
      rw [recordedTokens_return hcall (by rw [hphase]; exact fun hc => nomatch hc) hself hothers, h.kept.recorded key',
        add_assoc]
    · next hne =>
      rw [h.kept.recorded key', ← recordedTokens_congr (s := s) key']
      intro d
      by_cases hd : d = c
      · subst hd
        rw [hself, hphase]
        exact iff_of_false (fun hc => hne (Option.some.inj (Ended.returned.inj (Phase.ended.inj hc))).symm) fun hc => nomatch hc
      · rw [hothers d hd]
  · by_cases heq : d = c
    · subst heq
      rw [hself] at hd
      cases hd
    · rw [hothers d heq] at hd
      exact h.kept.noneLost d constraint hd
  · by_cases heq : d = c
    · subst heq
      rw [hself] at hd
      cases hd
    · rw [hothers d heq] at hd
      exact h.inserting d call' key' hcall' hd
  · by_cases heq : d = c
    · subst heq
      rw [hself] at hd
      cases hd
    · rw [hothers d heq] at hd
      obtain ⟨hkey', hwritten'⟩ := h.committing d call' key' hcall' hd
      have hne : key' ≠ key := by
        rintro rfl
        rw [hwritten] at hwritten'
        exact heq (Prod.mk.inj (Option.some.inj hwritten')).1.symm
      rw [hused, if_neg hne, recordCommit, goTo_usage, setCell_ne _ hne]
      exact ⟨hkey', hwritten'⟩

/-! ## Steps -/

/-- **One regular step keeps the budget.** -/
theorem inv_step (h : Inv policies calls before s) (e : Event) (hregular : Regular policies calls s e) :
    Inv policies calls before (step policies calls s e).2 := by
  cases e with
  | midnight => exact ⟨⟨h.kept.within, h.kept.recorded, h.kept.noneLost⟩, h.inserting, h.committing⟩
  | backendFails c =>
    rw [step]
    split
    · next hcalling =>
      obtain ⟨call, hcall⟩ : ∃ call, calls[c]? = some call := ⟨_, List.getElem?_eq_getElem hcalling.1⟩
      exact h.goTo hcall (by simp [hcalling.2]) (by simp) (by simp) (by simp) (by simp)
    · exact h
  | go c =>
    rw [step]
    split
    · exact h
    · next call hcall =>
      obtain ⟨hcommit, hinsert⟩ := hregular call hcall
      split
      · next hphase =>
        simp only [start]
        split
        · exact h.goTo hcall (by simp [hphase]) (by simp) (by simp) (by simp) (by simp)
        · exact h.goTo hcall (by simp [hphase]) (by simp) (by simp) (by simp) (by simp)
      · next hphase => exact h.goTo hcall (by simp [hphase]) (by simp) (by simp) (by simp) (by simp)
      · next hphase =>
        rw [recordUpdate]
        split
        · exact h.goTo hcall (by simp [hphase]) (by simp) (by simp) (by simp) (by simp)
        · split
          · refine h.goTo hcall (by simp [hphase]) (by simp) (by simp) (fun key hkey => ?_) (by simp)
            rw [← Phase.inserting.inj hkey]
            rfl
          · exact h
          · next tokens hcell =>
            have hwrite := h.write hcall (by simp [hphase]) (rfl : call.key s.today = call.key (call.key s.today).usageDate) (by rw [hcell])
            rw [used, hcell] at hwrite
            exact hwrite
      · next key hphase =>
        have hnone := hinsert key hphase
        rw [recordInsert]
        split
        · next tokens _ hcell =>
          rw [hcell] at hnone
          cases hnone
        · exact h
        · next hcell =>
          have hwrite := h.write hcall (by simp [hphase]) (h.inserting c call key hcall hphase) (by rw [hcell])
          rw [used, hcell, Option.getD_none, zero_add] at hwrite
          exact hwrite
      · next key hphase => exact h.commit hcall hphase (hcommit key hphase)
      · exact h

/-- **A step keeps the budget exactly if it is regular.** -/
theorem kept_step (h : Inv policies calls before s) (e : Event) :
    Kept policies calls before (step policies calls s e).2 ↔ Regular policies calls s e := by
  refine ⟨fun hkept => ?_, fun hregular => (inv_step h e hregular).kept⟩
  cases e with
  | midnight => trivial
  | backendFails c => trivial
  | go c =>
    intro call hcall
    refine ⟨fun key hphase => ?_, fun key hphase => ?_⟩
    · obtain ⟨hkey, hwritten⟩ := h.committing c call key hcall hphase
      have hstep : (step policies calls s (.go c)).2 = recordCommit s c key := by
        simp only [step, hcall, hphase]
      rw [hstep] at hkept
      rw [check]
      split
      · rfl
      · split
        · rfl
        · next policy hpolicy =>
          split
          · rfl
          · next hlimit =>
            have hwithin := hkept.within key policy (by rw [hkey]; exact hpolicy) (by rw [hkey]; exact lt_of_not_ge hlimit)
            rw [recordCommit_used hwritten, if_pos rfl] at hwithin
            rw [decide_eq_true_iff]
            rw [hkey] at hwithin
            exact hwithin
    · by_contra hsome
      obtain ⟨tokens, htokens⟩ := Option.ne_none_iff_exists'.mp hsome
      have hstep : (step policies calls s (.go c)).2 =
          s.goTo c (.ended (.integrity "uq_daily_token_project_date_type")) := by
        cases hcell : s.usage key with
        | mk tokensUsed written =>
          rw [hcell] at htokens
          obtain rfl : tokensUsed = some tokens := htokens
          simp only [step, hcall, hphase, recordInsert, hcell]
      rw [hstep] at hkept
      exact hkept.noneLost c _ (goTo_self c _)

/-- **The budget is kept throughout a run if and only if every step is regular.** -/
theorem budget_iff (start : Start policies) (calls : List Call) (schedule : List Event) :
    Trace.Always (step policies calls) (fun (s : State) (e : Event) => Kept policies calls start.state (step policies calls s e).2)
        start.state schedule ↔
      Trace.Always (step policies calls) (Regular policies calls) start.state schedule :=
  Trace.always_iff_of_invariant
    (fun (s : State) (e : Event) (h : Inv policies calls start.state s) hregular => inv_step h e hregular)
    (fun (s : State) (e : Event) (h : Inv policies calls start.state s) => kept_step h e)
    (start.inv calls) schedule

end

/-! ## Two calls at a time -/

/-- A project with five tokens a day, and two calls of three tokens. -/
def fiveTokens : Nat → Option Policy := fun _ => some { dailyEmbeddingTokenBudget := some 5, dailyLlmTokenBudget := none }

def twoCalls : List Call := [⟨1, "embedding_input", ["0123456789"]⟩, ⟨1, "embedding_input", ["9876543210"]⟩]

def noUsage : Start fiveTokens where
  state := { usage := fun _ => ⟨none, none⟩, today := 0, phase := fun _ => .starting }
  starting _ := rfl
  settled _ := rfl
  within _ _ _ hlimit := Int.le_of_lt hlimit

/-- **Both checks pass before a call records its tokens**: six tokens are recorded; or, where both
updates find no row, the second call ends with an error and its three tokens are lost. -/
theorem budget_exceeded :
    ¬ Kept fiveTokens twoCalls noUsage.state (Trace.exec (step fiveTokens twoCalls) noUsage.state
        [.go 0, .go 1, .go 0, .go 0, .go 0, .go 0, .go 1, .go 1, .go 1]) ∧
      ¬ Kept fiveTokens twoCalls noUsage.state (Trace.exec (step fiveTokens twoCalls) noUsage.state
        [.go 0, .go 1, .go 0, .go 1, .go 0, .go 1, .go 0, .go 0, .go 1]) := by
  constructor
  · intro h
    have hwithin := h.within ⟨1, 0, "embedding_input"⟩ _ rfl (by decide)
    revert hwithin
    decide
  · intro h
    exact h.noneLost 1 "uq_daily_token_project_date_type" (by decide)

end CodexMemory.Providers
