import Mathlib.Data.List.Basic

/-!
# Runs of a step function

A system is a step function that takes a state and an input to a reply and
the next state.  `exec` is the state after a list of inputs and `history` the
inputs with their replies.  `Always P` says that every step of a run
satisfies `P` (a predicate on the state before the step, the input, and so on
the reply), `Sometime P` that some step does.  The rules at the end take
facts about one step to facts about a run.
-/

namespace CodexMemory.Trace

variable {σ ι ο : Type}

def exec (step : σ → ι → ο × σ) (s : σ) : List ι → σ
  | [] => s
  | i :: is => exec step (step s i).2 is

def history (step : σ → ι → ο × σ) (s : σ) : List ι → List (ι × ο)
  | [] => []
  | i :: is => (i, (step s i).1) :: history step (step s i).2 is

/-- Every step of the run from `s` satisfies `P`. -/
def Always (step : σ → ι → ο × σ) (P : σ → ι → Prop) (s : σ) : List ι → Prop
  | [] => True
  | i :: is => P s i ∧ Always step P (step s i).2 is

/-- Some step of the run from `s` satisfies `P`. -/
def Sometime (step : σ → ι → ο × σ) (P : σ → ι → Prop) (s : σ) : List ι → Prop
  | [] => False
  | i :: is => P s i ∨ Sometime step P (step s i).2 is

/-- What the steps of the run from `s` add up to. -/
def total (step : σ → ι → ο × σ) (f : σ → ι → Nat) (s : σ) : List ι → Nat
  | [] => 0
  | i :: is => f s i + total step f (step s i).2 is

variable {step : σ → ι → ο × σ}

@[simp] theorem exec_nil (s : σ) : exec step s [] = s := rfl

@[simp] theorem exec_cons (s : σ) (i : ι) (is : List ι) :
    exec step s (i :: is) = exec step (step s i).2 is := rfl

theorem exec_append (s : σ) (is js : List ι) :
    exec step s (is ++ js) = exec step (exec step s is) js := by
  induction is generalizing s with
  | nil => rfl
  | cons i is ih => exact ih _

theorem exec_snoc (s : σ) (is : List ι) (i : ι) :
    exec step s (is ++ [i]) = (step (exec step s is) i).2 := exec_append s is [i]

theorem history_append (s : σ) (is js : List ι) :
    history step s (is ++ js) = history step s is ++ history step (exec step s is) js := by
  induction is generalizing s with
  | nil => rfl
  | cons i is ih => simp [history, ih]

theorem history_snoc (s : σ) (is : List ι) (i : ι) :
    history step s (is ++ [i]) =
      history step s is ++ [(i, (step (exec step s is) i).1)] := history_append s is [i]

theorem always_append (P : σ → ι → Prop) (s : σ) (is js : List ι) :
    Always step P s (is ++ js) ↔ Always step P s is ∧ Always step P (exec step s is) js := by
  induction is generalizing s with
  | nil => simp [Always]
  | cons i is ih => simp [Always, ih, and_assoc]

theorem always_snoc (P : σ → ι → Prop) (s : σ) (is : List ι) (i : ι) :
    Always step P s (is ++ [i]) ↔ Always step P s is ∧ P (exec step s is) i := by
  simp [always_append, Always]

theorem always_and (P Q : σ → ι → Prop) (s : σ) (is : List ι) :
    Always step (fun s i => P s i ∧ Q s i) s is ↔ Always step P s is ∧ Always step Q s is := by
  induction is generalizing s with
  | nil => simp [Always]
  | cons i is ih =>
    simp only [Always, ih]
    constructor
    · rintro ⟨⟨hp, hq⟩, hps, hqs⟩
      exact ⟨⟨hp, hps⟩, hq, hqs⟩
    · rintro ⟨⟨hp, hps⟩, hq, hqs⟩
      exact ⟨⟨hp, hq⟩, hps, hqs⟩

theorem sometime_append (P : σ → ι → Prop) (s : σ) (is js : List ι) :
    Sometime step P s (is ++ js) ↔
      Sometime step P s is ∨ Sometime step P (exec step s is) js := by
  induction is generalizing s with
  | nil => simp [Sometime]
  | cons i is ih => simp [Sometime, ih, or_assoc]

theorem sometime_snoc (P : σ → ι → Prop) (s : σ) (is : List ι) (i : ι) :
    Sometime step P s (is ++ [i]) ↔ Sometime step P s is ∨ P (exec step s is) i := by
  simp [sometime_append, Sometime]

/-! ## From one step to a run -/

/-- **Invariant rule.**  What every step preserves holds after every run. -/
theorem exec_invariant {Inv : σ → Prop} (hstep : ∀ s i, Inv s → Inv (step s i).2)
    {s : σ} (hs : Inv s) (is : List ι) : Inv (exec step s is) := by
  induction is generalizing s with
  | nil => exact hs
  | cons i is ih => exact ih (hstep s i hs)

/-- **Guarded invariant rule.**  What the steps that meet a guard preserve
holds after every run whose steps all meet it. -/
theorem exec_invariant_of_always {Inv : σ → Prop} {Guard : σ → ι → Prop}
    (hstep : ∀ s i, Inv s → Guard s i → Inv (step s i).2) {s : σ} (hs : Inv s)
    {is : List ι} (hg : Always step Guard s is) : Inv (exec step s is) := by
  induction is generalizing s with
  | nil => exact hs
  | cons i is ih => exact ih (hstep s i hs hg.1) hg.2

/-- A step property that the invariant and the guard give holds at every step
of a guarded run. -/
theorem always_of_invariant {Inv : σ → Prop} {Guard P : σ → ι → Prop}
    (hstep : ∀ s i, Inv s → Guard s i → Inv (step s i).2)
    (hP : ∀ s i, Inv s → Guard s i → P s i) {s : σ} (hs : Inv s)
    {is : List ι} (hg : Always step Guard s is) : Always step P s is := by
  induction is generalizing s with
  | nil => trivial
  | cons i is ih => exact ⟨hP s i hs hg.1, ih (hstep s i hs hg.1) hg.2⟩

/-- When guard and property agree at every state of the invariant, a run
meets the one throughout exactly when it meets the other throughout. -/
theorem always_iff_of_invariant {Inv : σ → Prop} {Guard P : σ → ι → Prop}
    (hstep : ∀ s i, Inv s → Guard s i → Inv (step s i).2)
    (hP : ∀ s i, Inv s → (P s i ↔ Guard s i)) {s : σ} (hs : Inv s) (is : List ι) :
    Always step P s is ↔ Always step Guard s is := by
  induction is generalizing s with
  | nil => exact Iff.rfl
  | cons i is ih =>
    simp only [Always, hP s i hs]
    constructor
    · rintro ⟨hg, h⟩
      exact ⟨hg, (ih (hstep s i hs hg)).mp h⟩
    · rintro ⟨hg, h⟩
      exact ⟨hg, (ih (hstep s i hs hg)).mpr h⟩

/-- **History rule.**  A relation between the state and the history so far
that every step keeps holds after every run. -/
theorem exec_history_invariant {J : σ → List (ι × ο) → Prop}
    (hstep : ∀ s h i, J s h → J (step s i).2 (h ++ [(i, (step s i).1)]))
    {s : σ} {h : List (ι × ο)} (hs : J s h) (is : List ι) :
    J (exec step s is) (h ++ history step s is) := by
  induction is generalizing s h with
  | nil => simpa [history] using hs
  | cons i is ih =>
    have := ih (hstep s h i hs)
    simpa [history] using this

end CodexMemory.Trace
