import CodexMemory.Trace
import Mathlib

/-!
# `DailyTokenBudget` of `codex_cli_runner.py`

Runs of the CLI reserve tokens of the day and give them back when they end.  What is
given back goes to the day on which the run ends, so the counter is right as long as
no run gives tokens back to a day on which it did not reserve them.

* `within_step`: one call keeps the counter right exactly when it is prompt;
* `within_iff`: so do any number of calls on any number of days.
-/

namespace CodexMemory.CodexCli

/-! ## The budget -/

/-- A `_BudgetReservation`. -/
structure Reservation where
  inputTokens : Int
  outputTokens : Int
  unlimited : Bool := false
  deriving DecidableEq

structure DailyTokenBudget where
  limitTokens : Int
  day : Nat
  allocatedTokens : Int
  deriving DecidableEq

inductive BudgetError
  | value (message : String)
  | exceeded (message : String) (limitTokens allocatedTokens : Int)
  deriving DecidableEq

namespace DailyTokenBudget

/-- `__init__` -/
def create (limitTokens : Int) (today : Nat) : Except BudgetError DailyTokenBudget :=
  if limitTokens < 0 then .error (.value "每日预算不能为负数") else .ok ⟨limitTokens, today, 0⟩

/-- `_rollover_if_needed` -/
def rollover (b : DailyTokenBudget) (today : Nat) : DailyTokenBudget :=
  if today ≠ b.day then { b with day := today, allocatedTokens := 0 } else b

def reserve (b : DailyTokenBudget) (today : Nat) (inputTokens outputTokens : Int) :
    Except BudgetError Reservation × DailyTokenBudget :=
  if inputTokens < 1 ∨ outputTokens < 1 then (.error (.value "预算预留必须为正数"), b)
  else if b.limitTokens = 0 then (.ok ⟨inputTokens, outputTokens, true⟩, b)
  else
    let b := b.rollover today
    let available := b.limitTokens - b.allocatedTokens
    if available < inputTokens + 1 then
      (.error (.exceeded "Codex CLI 每日预算不足" b.limitTokens b.allocatedTokens), b)
    else
      let allowedOutput := min outputTokens (available - inputTokens)
      (.ok ⟨inputTokens, allowedOutput, false⟩,
        { b with allocatedTokens := b.allocatedTokens + (inputTokens + allowedOutput) })

end DailyTokenBudget

/-- The output tokens that `finalize` counts. -/
def Reservation.counted (r : Reservation) (actualOutputTokens : Int) : Int :=
  min (max 0 actualOutputTokens) r.outputTokens

namespace DailyTokenBudget

def finalize (b : DailyTokenBudget) (today : Nat) (r : Reservation) (actualOutputTokens : Int) : DailyTokenBudget :=
  if r.unlimited then b
  else
    let unused := r.outputTokens - r.counted actualOutputTokens
    let b := b.rollover today
    { b with allocatedTokens := max 0 (b.allocatedTokens - unused) }

def release (b : DailyTokenBudget) (today : Nat) (r : Reservation) : DailyTokenBudget :=
  if r.unlimited then b
  else
    let b := b.rollover today
    { b with allocatedTokens := max 0 (b.allocatedTokens - r.inputTokens - r.outputTokens) }

end DailyTokenBudget

/-! ## Runs of the CLI -/

/-- How a reservation stands. -/
inductive Standing
  | held
  | finalized (outputTokens : Int)
  | released
  deriving DecidableEq

/-- A reservation that was made, the day of it, and how it stands. -/
structure Made where
  reservation : Reservation
  day : Nat
  standing : Standing
  deriving DecidableEq

/-- What the reservation uses up. -/
def Made.tokens (m : Made) : Int :=
  match m.standing with
  | .held => m.reservation.inputTokens + m.reservation.outputTokens
  | .finalized outputTokens => m.reservation.inputTokens + outputTokens
  | .released => 0

/-- The budget, the day it is, and the reservations in their order. -/
structure State where
  budget : DailyTokenBudget
  today : Nat
  made : List Made
  deriving DecidableEq

/-- A call, or midnight; a reservation is named by its place in the order. -/
inductive Call
  | midnight
  | reserve (inputTokens outputTokens : Int)
  | finalize (i : Nat) (actualOutputTokens : Int)
  | release (i : Nat)
  deriving DecidableEq

/-- The reservation, if it is held. -/
def State.held (s : State) (i : Nat) : Option Made :=
  s.made[i]?.filter fun m => m.standing = .held

/-- The reservation is closed as `standing` says, and what the budget becomes. -/
def State.close (s : State) (i : Nat) (m : Made) (standing : Standing) (budget : DailyTokenBudget) : State :=
  { s with budget := budget, made := s.made.set i { m with standing := standing } }

/-- A call closes a reservation that is held, no other. -/
def step (s : State) : Call → Except BudgetError Unit × State
  | .midnight => (.ok (), { s with today := s.today + 1 })
  | .reserve inputTokens outputTokens =>
    match s.budget.reserve s.today inputTokens outputTokens with
    | (.error error, budget) => (.error error, { s with budget := budget })
    | (.ok r, budget) => (.ok (), { s with budget := budget, made := s.made ++ [⟨r, s.today, .held⟩] })
  | .finalize i actualOutputTokens =>
    match s.held i with
    | none => (.ok (), s)
    | some m =>
      (.ok (), s.close i m (.finalized (m.reservation.counted actualOutputTokens))
        (s.budget.finalize s.today m.reservation actualOutputTokens))
  | .release i =>
    match s.held i with
    | none => (.ok (), s)
    | some m => (.ok (), s.close i m .released (s.budget.release s.today m.reservation))

/-- A new budget on a day. -/
def start (limitTokens : Int) (today : Nat) : State := ⟨⟨limitTokens, today, 0⟩, today, []⟩

/-! ## What the counter should say -/

/-- What the reservation uses up on a day. -/
def Made.on (day : Nat) (m : Made) : Int := if m.day = day then m.tokens else 0

/-- What the reservations of a day use up. -/
def State.used (s : State) : Int := (s.made.map (Made.on s.today)).sum

/-- The counter of the day, as every call reads it. -/
def State.allocated (s : State) : Int := (s.budget.rollover s.today).allocatedTokens

/-- The counter is right and within the limit. -/
structure Within (s : State) : Prop where
  exact : s.allocated = s.used
  within : s.used ≤ s.budget.limitTokens

/-- The call gives nothing back, or to the day of the reservation, or where nothing is counted. -/
def Prompt (s : State) : Call → Prop
  | .midnight => True
  | .reserve _ _ => True
  | .finalize i actualOutputTokens => ∀ m, s.held i = some m → m.day ≠ s.today →
      m.reservation.outputTokens ≤ actualOutputTokens ∨ s.allocated = 0
  | .release i => ∀ m, s.held i = some m → m.day ≠ s.today → s.allocated = 0

/-! ## The invariant -/

/-- What a reservation is like, of a budget with a limit. -/
structure Made.Sound (today : Nat) (m : Made) : Prop where
  input : 1 ≤ m.reservation.inputTokens
  output : 1 ≤ m.reservation.outputTokens
  limited : m.reservation.unlimited = false
  day : m.day ≤ today
  tokens : 0 ≤ m.tokens

/-- The calls so far have kept the counter right. -/
structure Sound (s : State) : Prop where
  limit : 0 < s.budget.limitTokens
  day : s.budget.day ≤ s.today
  made : ∀ m ∈ s.made, m.Sound s.today
  counter : Within s

theorem rollover_day (b : DailyTokenBudget) (today : Nat) : (b.rollover today).day = today := by
  unfold DailyTokenBudget.rollover
  split
  · rfl
  · next h => exact (not_not.mp h).symm

theorem rollover_limit (b : DailyTokenBudget) (today : Nat) : (b.rollover today).limitTokens = b.limitTokens := by
  unfold DailyTokenBudget.rollover
  split <;> rfl

/-- A budget of the day is not rolled over. -/
theorem rollover_of_day {b : DailyTokenBudget} {today : Nat} (h : b.day = today) : b.rollover today = b :=
  if_neg (not_not.mpr h.symm)

theorem rollover_idem (b : DailyTokenBudget) (today : Nat) : (b.rollover today).rollover today = b.rollover today :=
  rollover_of_day (rollover_day b today)

theorem held_some {s : State} {i : Nat} {m : Made} (h : s.held i = some m) :
    s.made[i]? = some m ∧ m.standing = .held := by
  obtain ⟨hget, hheld⟩ := Option.filter_eq_some_iff.mp h
  exact ⟨hget, of_decide_eq_true hheld⟩

theorem sum_set {l : List Made} {i : Nat} {m : Made} (h : l[i]? = some m) (m' : Made) (f : Made → Int) :
    ((l.set i m').map f).sum = (l.map f).sum - f m + f m' := by
  induction l generalizing i with
  | nil => cases h
  | cons a l ih =>
    cases i with
    | zero =>
      cases h
      simp only [List.set_cons_zero, List.map_cons, List.sum_cons]
      omega
    | succ i =>
      simp only [List.set_cons_succ, List.map_cons, List.sum_cons, ih h]
      omega

/-- A reservation is closed: what it used up on the day goes, and what it uses up now comes. -/
theorem used_close {s : State} {i : Nat} {m : Made} (h : s.made[i]? = some m) (standing : Standing)
    (budget : DailyTokenBudget) :
    (s.close i m standing budget).used = s.used - m.on s.today + Made.on s.today { m with standing := standing } :=
  sum_set h _ _

theorem used_nonneg {s : State} (h : ∀ m ∈ s.made, 0 ≤ m.tokens) : 0 ≤ s.used := by
  refine List.sum_nonneg fun n hn => ?_
  obtain ⟨m, hm, rfl⟩ := List.mem_map.mp hn
  rw [Made.on]
  split
  · exact h m hm
  · exact le_rfl

/-- Before midnight nothing was used up on the next day. -/
theorem used_midnight {s : State} (h : ∀ m ∈ s.made, m.Sound s.today) :
    State.used { s with today := s.today + 1 } = 0 := by
  refine List.sum_eq_zero fun n hn => ?_
  obtain ⟨m, hm, rfl⟩ := List.mem_map.mp hn
  have hday := (h m hm).day
  have hlater : m.day ≠ s.today + 1 := by omega
  exact if_neg hlater

/-- What the reservations before a new one used up, and the new one. -/
theorem used_reserve (s : State) (budget : DailyTokenBudget) (r : Reservation) :
    State.used { s with budget := budget, made := s.made ++ [⟨r, s.today, .held⟩] } =
      s.used + (r.inputTokens + r.outputTokens) := by
  simp [State.used, Made.on, Made.tokens]

/-! ## One call -/

/-- What `reserve` does to the budget of a limit. -/
theorem reserve_cases {b : DailyTokenBudget} (hlimit : 0 < b.limitTokens) (today : Nat) (inputTokens outputTokens : Int) :
    (∃ error, b.reserve today inputTokens outputTokens = (.error error, b)) ∨
      (∃ error, b.reserve today inputTokens outputTokens = (.error error, b.rollover today)) ∨
        ∃ r, b.reserve today inputTokens outputTokens = (.ok r, { b.rollover today with
            allocatedTokens := (b.rollover today).allocatedTokens + (r.inputTokens + r.outputTokens) }) ∧
          1 ≤ r.inputTokens ∧ 1 ≤ r.outputTokens ∧ r.unlimited = false ∧
          (b.rollover today).allocatedTokens + (r.inputTokens + r.outputTokens) ≤ b.limitTokens := by
  have hsame := rollover_limit b today
  unfold DailyTokenBudget.reserve
  split
  · exact .inl ⟨_, rfl⟩
  · next hpositive =>
    rw [if_neg (by omega)]
    simp only
    split
    · exact .inr (.inl ⟨_, rfl⟩)
    · next hleft =>
      refine .inr (.inr ⟨_, rfl, ?_, ?_, rfl, ?_⟩) <;> simp only <;> omega

/-- A reservation is closed and `unused` tokens are given back: the counter stays right exactly when that
happens on its day, or nothing is given back, or nothing is counted. -/
theorem within_close {s : State} (h : Sound s) {i : Nat} {m : Made} (hheld : s.held i = some m) {standing : Standing}
    {unused : Int} (hunused : 0 ≤ unused) (htokens : Made.tokens { m with standing := standing } = m.tokens - unused)
    (hnonneg : 0 ≤ m.tokens - unused) {budget : DailyTokenBudget}
    (hbudget : budget = { s.budget.rollover s.today with allocatedTokens := max 0 (s.allocated - unused) }) :
    Within (s.close i m standing budget) ↔ (m.day ≠ s.today → unused = 0 ∨ s.allocated = 0) := by
  obtain ⟨hget, -⟩ := held_some hheld
  have hallocated : (s.close i m standing budget).allocated = max 0 (s.allocated - unused) := by
    have hday : budget.day = s.today := by
      rw [hbudget]
      exact rollover_day _ _
    rw [State.allocated, State.close, rollover_of_day hday, hbudget]
  have hlimit : (s.close i m standing budget).budget.limitTokens = s.budget.limitTokens := by
    show budget.limitTokens = _
    rw [hbudget]
    exact rollover_limit _ _
  have hmade : ∀ m' ∈ (s.close i m standing budget).made, 0 ≤ m'.tokens := by
    intro m' hm'
    rcases List.mem_or_eq_of_mem_set hm' with hm' | rfl
    · exact (h.made m' hm').tokens
    · rw [htokens]
      exact hnonneg
  have hused := used_close hget standing budget
  have hnonneg' := used_nonneg hmade
  have hcounter := h.counter.exact
  have hwithin := h.counter.within
  have hstart := used_nonneg fun m' hm' => (h.made m' hm').tokens
  by_cases hday : m.day = s.today
  · have hon : Made.on s.today m = m.tokens := if_pos hday
    have hon' : Made.on s.today { m with standing := standing } = m.tokens - unused := (if_pos hday).trans htokens
    refine ⟨fun _ hne => absurd hday hne, fun _ => ⟨?_, ?_⟩⟩
    · rw [hallocated]
      omega
    · rw [hlimit]
      omega
  · have hon : Made.on s.today m = 0 := if_neg hday
    have hon' : Made.on s.today { m with standing := standing } = 0 := if_neg hday
    constructor
    · intro hafter _
      have hexact := hafter.exact
      rw [hallocated] at hexact
      omega
    · intro hprompt
      have hback := hprompt hday
      refine ⟨?_, ?_⟩
      · rw [hallocated]
        omega
      · rw [hlimit]
        omega

theorem finalize_budget {s : State} {m : Made} (hlimited : m.reservation.unlimited = false) (actual : Int) :
    s.budget.finalize s.today m.reservation actual = { s.budget.rollover s.today with
      allocatedTokens := max 0 (s.allocated - (m.reservation.outputTokens - m.reservation.counted actual)) } := by
  rw [DailyTokenBudget.finalize, hlimited]
  rfl

theorem release_budget {s : State} {m : Made} (hlimited : m.reservation.unlimited = false) :
    s.budget.release s.today m.reservation = { s.budget.rollover s.today with
      allocatedTokens := max 0 (s.allocated - (m.reservation.inputTokens + m.reservation.outputTokens)) } := by
  rw [DailyTokenBudget.release, hlimited, ← Int.sub_sub]
  rfl

theorem counted_bounds {r : Reservation} (h : 1 ≤ r.outputTokens) (actual : Int) :
    0 ≤ r.counted actual ∧ r.counted actual ≤ r.outputTokens ∧
      (r.outputTokens - r.counted actual = 0 ↔ r.outputTokens ≤ actual) := by
  rw [Reservation.counted]
  omega

theorem tokens_finalized (m : Made) (outputTokens : Int) :
    Made.tokens { m with standing := .finalized outputTokens } = m.reservation.inputTokens + outputTokens := rfl

theorem tokens_released (m : Made) : Made.tokens { m with standing := .released } = 0 := rfl

theorem tokens_held {m : Made} (h : m.standing = .held) :
    m.tokens = m.reservation.inputTokens + m.reservation.outputTokens := by
  rw [Made.tokens, h]

/-- **One call keeps the counter right exactly when it is prompt.** -/
theorem within_step {s : State} (h : Sound s) (call : Call) : Within (step s call).2 ↔ Prompt s call := by
  cases call with
  | midnight =>
    refine ⟨fun _ => trivial, fun _ => ⟨?_, ?_⟩⟩
    · have hday := h.day
      have hnext : s.today + 1 ≠ s.budget.day := by omega
      show (s.budget.rollover (s.today + 1)).allocatedTokens = _
      rw [DailyTokenBudget.rollover, if_pos hnext]
      exact (used_midnight h.made).symm
    · refine (used_midnight h.made).le.trans h.limit.le
  | reserve inputTokens outputTokens =>
    refine ⟨fun _ => trivial, fun _ => ?_⟩
    have hcounter := h.counter.exact
    have hidem := rollover_of_day (rollover_day s.budget s.today)
    rw [step]
    rcases reserve_cases h.limit s.today inputTokens outputTokens with
      ⟨error, hr⟩ | ⟨error, hr⟩ | ⟨r, hr, -, -, -, hfits⟩ <;> rw [hr]
    · exact h.counter
    · refine ⟨?_, ?_⟩
      · show ((s.budget.rollover s.today).rollover s.today).allocatedTokens = s.used
        rw [hidem]
        exact hcounter
      · show s.used ≤ (s.budget.rollover s.today).limitTokens
        rw [rollover_limit]
        exact h.counter.within
    · change s.allocated + _ ≤ _ at hfits
      refine ⟨?_, ?_⟩
      · rw [used_reserve, ← hcounter, State.allocated, rollover_of_day (by exact rollover_day _ _)]
        rfl
      · rw [used_reserve, ← hcounter]
        show _ ≤ (s.budget.rollover s.today).limitTokens
        rw [rollover_limit]
        exact hfits
  | finalize i actual =>
    simp only [step, Prompt]
    split
    · next hnone => simpa [hnone] using h.counter
    · next m hheld =>
      obtain ⟨hget, hstanding⟩ := held_some hheld
      have hmade := h.made m (List.mem_of_getElem? hget)
      obtain ⟨hlow, hhigh, hall⟩ := counted_bounds hmade.output actual
      have htokens := tokens_held hstanding
      have hinput := hmade.input
      rw [within_close h hheld (by omega) (by rw [htokens, tokens_finalized]; omega) (by rw [htokens]; omega)
        (finalize_budget hmade.limited actual), hall]
      simp [hheld]
  | release i =>
    simp only [step, Prompt]
    split
    · next hnone => simpa [hnone] using h.counter
    · next m hheld =>
      obtain ⟨hget, hstanding⟩ := held_some hheld
      have hmade := h.made m (List.mem_of_getElem? hget)
      have htokens := tokens_held hstanding
      have hinput := hmade.input
      have houtput := hmade.output
      have hback : m.reservation.inputTokens + m.reservation.outputTokens ≠ 0 := by omega
      rw [within_close h hheld (by omega) (by rw [htokens, tokens_released]; omega) (by rw [htokens]; omega)
        (release_budget hmade.limited)]
      simp [hheld, hback]

/-- Closing a reservation leaves the others as they are. -/
theorem made_close {s : State} (h : Sound s) {i : Nat} {m : Made} (hheld : s.held i = some m) {standing : Standing}
    (hnonneg : 0 ≤ Made.tokens { m with standing := standing }) (budget : DailyTokenBudget) :
    ∀ m' ∈ (s.close i m standing budget).made, m'.Sound s.today := by
  intro m' hm'
  obtain ⟨hget, -⟩ := held_some hheld
  have hmade := h.made m (List.mem_of_getElem? hget)
  rcases List.mem_or_eq_of_mem_set hm' with hm' | rfl
  · exact h.made m' hm'
  · exact ⟨hmade.input, hmade.output, hmade.limited, hmade.day, hnonneg⟩

theorem sound_step {s : State} (h : Sound s) {call : Call} (hprompt : Prompt s call) : Sound (step s call).2 := by
  have hcounter := (within_step h call).mpr hprompt
  cases call with
  | midnight =>
    refine ⟨h.limit, h.day.trans (Nat.le_succ _), fun m hm => ?_, hcounter⟩
    have hmade := h.made m hm
    exact ⟨hmade.input, hmade.output, hmade.limited, hmade.day.trans (Nat.le_succ _), hmade.tokens⟩
  | reserve inputTokens outputTokens =>
    rw [step] at hcounter ⊢
    rcases reserve_cases h.limit s.today inputTokens outputTokens with
      ⟨error, hr⟩ | ⟨error, hr⟩ | ⟨r, hr, hinput, houtput, hlimited, -⟩ <;> rw [hr] at hcounter ⊢
    · exact ⟨h.limit, h.day, h.made, hcounter⟩
    · exact ⟨(rollover_limit _ _).symm ▸ h.limit, (rollover_day _ _).le, h.made, hcounter⟩
    · refine ⟨(rollover_limit _ _).symm ▸ h.limit, (rollover_day _ _).le, fun m hm => ?_, hcounter⟩
      rcases List.mem_append.mp hm with hm | hm
      · exact h.made m hm
      · obtain rfl := List.mem_singleton.mp hm
        have htokens : 0 ≤ r.inputTokens + r.outputTokens := by omega
        exact ⟨hinput, houtput, hlimited, le_rfl, htokens⟩
  | finalize i actual =>
    simp only [step] at hcounter ⊢
    split at hcounter
    · exact h
    · next m hheld =>
      have hmade := h.made m (List.mem_of_getElem? (held_some hheld).1)
      obtain ⟨hlow, -, -⟩ := counted_bounds hmade.output actual
      have hinput := hmade.input
      have htokens : 0 ≤ Made.tokens { m with standing := .finalized (m.reservation.counted actual) } := by
        rw [tokens_finalized]
        omega
      have hbudget := finalize_budget (s := s) hmade.limited actual
      simp only
      refine ⟨?_, ?_, made_close h hheld htokens _, hcounter⟩
      · rw [State.close, hbudget]
        exact (rollover_limit _ _).symm ▸ h.limit
      · rw [State.close, hbudget]
        exact (rollover_day _ _).le
  | release i =>
    simp only [step] at hcounter ⊢
    split at hcounter
    · exact h
    · next m hheld =>
      have hmade := h.made m (List.mem_of_getElem? (held_some hheld).1)
      have hbudget := release_budget (s := s) hmade.limited
      simp only
      refine ⟨?_, ?_, made_close h hheld le_rfl _, hcounter⟩
      · rw [State.close, hbudget]
        exact (rollover_limit _ _).symm ▸ h.limit
      · rw [State.close, hbudget]
        exact (rollover_day _ _).le

/-! ## Any number of calls -/

theorem create_start {limitTokens : Int} (hlimit : 0 ≤ limitTokens) (today : Nat) :
    DailyTokenBudget.create limitTokens today = .ok (start limitTokens today).budget :=
  if_neg (not_lt.mpr hlimit)

theorem sound_start {limitTokens : Int} (hlimit : 0 < limitTokens) (today : Nat) : Sound (start limitTokens today) where
  limit := hlimit
  day := le_rfl
  made := nofun
  counter := ⟨congrArg DailyTokenBudget.allocatedTokens (rollover_of_day rfl), hlimit.le⟩

/-- **The counter is right after every call exactly when every call is prompt.** -/
theorem within_iff {limitTokens : Int} (hlimit : 0 < limitTokens) (today : Nat) (calls : List Call) :
    Trace.Always step (fun s call => Within (step s call).2) (start limitTokens today) calls ↔
      Trace.Always step Prompt (start limitTokens today) calls :=
  Trace.always_iff_of_invariant (fun s _ (h : Sound s) hprompt => sound_step h hprompt)
    (fun _ call h => within_step h call) (sound_start hlimit today) calls

/-- Two runs on one day, and one over midnight. -/
theorem within_iff_busy : Trace.Always step (fun s call => Within (step s call).2) (start 100 0)
    [.reserve 10 20, .reserve 10 30, .release 0, .finalize 1 5, .reserve 10 10, .midnight, .finalize 2 50] := by
  refine (within_iff (by decide) 0 _).mpr ⟨trivial, trivial, ?_, ?_, trivial, trivial, ?_, trivial⟩
  · rintro m hheld hday
    cases hheld
    exact absurd rfl hday
  · rintro m hheld hday
    cases hheld
    exact absurd rfl hday
  · rintro m hheld -
    cases hheld
    exact .inl (by decide)

/-- **A run that fails after midnight gives its tokens to the new day**, on which more than the limit is then used. -/
theorem overspent_midnight :
    ¬ Within (Trace.exec step (start 10 0) [.reserve 1 9, .midnight, .reserve 1 9, .release 0, .reserve 1 9]) := by
  intro h
  have hwithin := h.within
  revert hwithin
  decide

end CodexMemory.CodexCli
