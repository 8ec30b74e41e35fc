import CodexMemory.Text
import Mathlib.Data.List.Basic

/-!
# Backtracking regular expressions

Regular expressions whose repetitions are of one character class, with word
boundaries and other tests of the neighbours, as a backtracking matcher runs them.  `run` lists what an
expression matches at the beginning of a text, the preferred match first;
`Matches` says what a match is without an order.  `mem_run` connects the two.
`Pattern.sub` replaces the matches in a text from left to right, and
`sub_induction` is the induction along its scan.
-/

namespace CodexMemory

/-- An expression; `many p n` is greedy and repeats the class `p` at least `n`
times, `lazily p n` does so with as few as it can, `boundary` is `\b` for the given
word characters, and `assert` tests the character before and the text after. -/
inductive Regex
  | char (p : Char → Bool)
  | many (p : Char → Bool) (least : Nat)
  | lazily (p : Char → Bool) (least : Nat)
  | boundary (word : Char → Bool)
  | assert (test : Option Char → List Char → Bool)
  | seq (a b : Regex)
  | alt (a b : Regex)
  | opt (r : Regex)

namespace Regex

/-- The last character of a text, that of `prev` if the text is empty. -/
def lastOr (prev : Option Char) (s : List Char) : Option Char :=
  match s.getLast? with
  | none => prev
  | some c => some c

@[simp] theorem lastOr_nil (prev : Option Char) : lastOr prev [] = prev := rfl

theorem lastOr_append (prev : Option Char) (s t : List Char) :
    lastOr prev (s ++ t) = lastOr (lastOr prev s) t := by
  simp only [lastOr, List.getLast?_append]
  cases t.getLast? <;> rfl

theorem lastOr_cons (prev : Option Char) (c : Char) (s : List Char) :
    lastOr prev (c :: s) = lastOr (some c) s := lastOr_append prev [c] s

theorem lastOr_none (s : List Char) : lastOr none s = s.getLast? := by
  rw [lastOr]
  cases s.getLast? <;> rfl

theorem lastOr_of_ne_nil {s : List Char} (hs : s ≠ []) (prev : Option Char) :
    lastOr prev s = s.getLast? := by
  cases s with
  | nil => exact absurd rfl hs
  | cons c s => rw [lastOr_cons, ← lastOr_none, lastOr_cons]

/-- Exactly one of the two neighbours is a word character. -/
def atBoundary (word : Char → Bool) (prev : Option Char) (s : List Char) : Bool :=
  prev.any word != s.head?.any word

/-! ## Matching -/

/-- The matches of `many`: the longest first. -/
def runMany (p : Char → Bool) : Nat → List Char → List (List Char × List Char)
  | n, [] => if n = 0 then [([], [])] else []
  | n, c :: s =>
    (if p c then (runMany p (n - 1) s).map fun m => (c :: m.1, m.2) else []) ++
      (if n = 0 then [([], c :: s)] else [])

/-- The matches at the beginning of a text that follows `prev`, in the order in
which backtracking tries them: what is matched, and the rest. -/
def run : Regex → Option Char → List Char → List (List Char × List Char)
  | .char _, _, [] => []
  | .char p, _, c :: s => if p c then [([c], s)] else []
  | .many p n, _, s => runMany p n s
  | .lazily p n, _, s => (runMany p n s).reverse
  | .boundary word, prev, s => if atBoundary word prev s then [([], s)] else []
  | .assert test, prev, s => if test prev s then [([], s)] else []
  | .seq a b, prev, s =>
    (run a prev s).flatMap fun m =>
      (run b (lastOr prev m.1) m.2).map fun m' => (m.1 ++ m'.1, m'.2)
  | .alt a b, prev, s => run a prev s ++ run b prev s
  | .opt r, prev, s => run r prev s ++ [([], s)]

/-- `r` matches `m` between `prev` and `rest`. -/
def Matches : Regex → Option Char → List Char → List Char → Prop
  | .char p, _, m, _ => ∃ c, m = [c] ∧ p c = true
  | .many p n, _, m, _ => n ≤ m.length ∧ ∀ c ∈ m, p c = true
  | .lazily p n, _, m, _ => n ≤ m.length ∧ ∀ c ∈ m, p c = true
  | .boundary word, prev, m, rest => m = [] ∧ atBoundary word prev rest = true
  | .assert test, prev, m, rest => m = [] ∧ test prev rest = true
  | .seq a b, prev, m, rest => ∃ m₁ m₂, m = m₁ ++ m₂ ∧ Matches a prev m₁ (m₂ ++ rest) ∧
      Matches b (lastOr prev m₁) m₂ rest
  | .alt a b, prev, m, rest => Matches a prev m rest ∨ Matches b prev m rest
  | .opt r, prev, m, rest => Matches r prev m rest ∨ m = []

theorem mem_runMany (p : Char → Bool) (n : Nat) (s m rest : List Char) :
    (m, rest) ∈ runMany p n s ↔ s = m ++ rest ∧ n ≤ m.length ∧ ∀ c ∈ m, p c = true := by
  induction s generalizing n m with
  | nil =>
    simp only [runMany]
    constructor
    · intro h
      split at h
      · next hn =>
        simp only [List.mem_singleton, Prod.mk.injEq] at h
        obtain ⟨rfl, rfl⟩ := h
        simp [hn]
      · cases h
    · rintro ⟨hs, hn, -⟩
      obtain ⟨rfl, rfl⟩ := List.append_eq_nil_iff.mp hs.symm
      simp only [List.length_nil] at hn
      rw [if_pos (by omega)]
      exact List.mem_singleton.mpr rfl
  | cons c s ih =>
    simp only [runMany, List.mem_append]
    constructor
    · rintro (h | h)
      · split at h
        · next hc =>
          obtain ⟨⟨m', rest'⟩, hm, he⟩ := List.mem_map.mp h
          simp only [Prod.mk.injEq] at he
          obtain ⟨rfl, rfl⟩ := he
          obtain ⟨rfl, hn, hall⟩ := (ih _ _).mp hm
          refine ⟨rfl, by simp only [List.length_cons]; omega, fun d hd => ?_⟩
          rcases List.mem_cons.mp hd with rfl | hd
          · exact hc
          · exact hall d hd
        · cases h
      · split at h
        · next hn =>
          simp only [List.mem_singleton, Prod.mk.injEq] at h
          obtain ⟨rfl, rfl⟩ := h
          simp [hn]
        · cases h
    · rintro ⟨hs, hn, hall⟩
      cases m with
      | nil =>
        right
        simp only [List.length_nil] at hn
        simp only [List.nil_append] at hs
        rw [if_pos (by omega), hs]
        exact List.mem_singleton.mpr rfl
      | cons d m =>
        left
        simp only [List.cons_append, List.cons.injEq] at hs
        obtain ⟨rfl, rfl⟩ := hs
        rw [if_pos (hall c List.mem_cons_self)]
        refine List.mem_map.mpr ⟨(m, rest), (ih _ _).mpr ⟨rfl, ?_, ?_⟩, rfl⟩
        · simp only [List.length_cons] at hn
          omega
        · exact fun e he => hall e (List.mem_cons_of_mem _ he)

/-- A test that matches the empty text. -/
theorem mem_runTest (b : Bool) (s m rest : List Char) :
    ((m, rest) ∈ if b then [([], s)] else []) ↔ s = m ++ rest ∧ m = [] ∧ b = true := by
  constructor
  · intro h
    split at h
    · next hb =>
      simp only [List.mem_singleton, Prod.mk.injEq] at h
      obtain ⟨rfl, rfl⟩ := h
      exact ⟨rfl, rfl, hb⟩
    · cases h
  · rintro ⟨rfl, rfl, hb⟩
    rw [List.nil_append, if_pos hb]
    exact List.mem_singleton.mpr rfl

/-- **The matches are those that the matcher lists.** -/
theorem mem_run (r : Regex) (prev : Option Char) (s m rest : List Char) :
    (m, rest) ∈ run r prev s ↔ s = m ++ rest ∧ Matches r prev m rest := by
  induction r generalizing prev s m rest with
  | char p =>
    cases s with
    | nil =>
      simp only [run, Matches]
      constructor
      · intro h
        cases h
      · rintro ⟨hs, c, rfl, -⟩
        cases hs
    | cons c s =>
      simp only [run, Matches]
      constructor
      · intro h
        split at h
        · next hc =>
          simp only [List.mem_singleton, Prod.mk.injEq] at h
          obtain ⟨rfl, rfl⟩ := h
          exact ⟨rfl, c, rfl, hc⟩
        · cases h
      · rintro ⟨hs, d, rfl, hd⟩
        cases hs
        rw [if_pos hd]
        exact List.mem_singleton.mpr rfl
  | many p n => exact mem_runMany p n s m rest
  | lazily p n => exact List.mem_reverse.trans (mem_runMany p n s m rest)
  | boundary word =>
    simp only [run, Matches]
    rw [mem_runTest]
    constructor
    · rintro ⟨rfl, rfl, hb⟩
      exact ⟨rfl, rfl, hb⟩
    · rintro ⟨rfl, rfl, hb⟩
      exact ⟨rfl, rfl, hb⟩
  | assert test =>
    simp only [run, Matches]
    rw [mem_runTest]
    constructor
    · rintro ⟨rfl, rfl, hb⟩
      exact ⟨rfl, rfl, hb⟩
    · rintro ⟨rfl, rfl, hb⟩
      exact ⟨rfl, rfl, hb⟩
  | seq a b iha ihb =>
    simp only [run, Matches, List.mem_flatMap, List.mem_map, Prod.exists, Prod.mk.injEq]
    constructor
    · rintro ⟨m₁, s₁, h₁, m₂, s₂, h₂, rfl, rfl⟩
      obtain ⟨rfl, hm₁⟩ := (iha _ _ _ _).mp h₁
      obtain ⟨rfl, hm₂⟩ := (ihb _ _ _ _).mp h₂
      exact ⟨(List.append_assoc _ _ _).symm, m₁, m₂, rfl, hm₁, hm₂⟩
    · rintro ⟨rfl, m₁, m₂, rfl, hm₁, hm₂⟩
      refine ⟨m₁, m₂ ++ rest, (iha _ _ _ _).mpr ⟨List.append_assoc _ _ _, hm₁⟩, m₂, rest, ?_, rfl, rfl⟩
      exact (ihb _ _ _ _).mpr ⟨rfl, hm₂⟩
  | alt a b iha ihb =>
    simp only [run, Matches, List.mem_append, iha, ihb]
    constructor
    · rintro (⟨hs, h⟩ | ⟨hs, h⟩)
      · exact ⟨hs, Or.inl h⟩
      · exact ⟨hs, Or.inr h⟩
    · rintro ⟨hs, h | h⟩
      · exact Or.inl ⟨hs, h⟩
      · exact Or.inr ⟨hs, h⟩
  | opt r ih =>
    simp only [run, Matches, List.mem_append, ih, List.mem_singleton, Prod.mk.injEq]
    constructor
    · rintro (⟨hs, h⟩ | ⟨rfl, rfl⟩)
      · exact ⟨hs, Or.inl h⟩
      · exact ⟨rfl, Or.inr rfl⟩
    · rintro ⟨hs, h | rfl⟩
      · exact Or.inl ⟨hs, h⟩
      · exact Or.inr ⟨rfl, hs.symm⟩

/-! ## Searching -/

/-- `pattern.search`: there is a match somewhere in the text that follows `prev`. -/
def search (r : Regex) : Option Char → List Char → Bool
  | prev, [] => !(run r prev []).isEmpty
  | prev, c :: s => !(run r prev (c :: s)).isEmpty || search r (some c) s

/-- The scan of `pattern.finditer` from a position: `first` is the match at the beginning of
a text with its length, and `skip` characters still belong to the match before.  A match of the
empty text is left out. -/
def finditer {α : Type} (first : Option Char → List Char → Option (α × Nat)) :
    Option Char → Nat → Nat → List Char → List (Nat × α)
  | _, _, _, [] => []
  | _, pos, skip + 1, c :: s => finditer first (some c) (pos + 1) skip s
  | prev, pos, 0, c :: s =>
    match first prev (c :: s) with
    | none => finditer first (some c) (pos + 1) 0 s
    | some m => (pos, m.1) :: finditer first (some c) (pos + 1) (m.2 - 1) s

theorem run_isEmpty {r : Regex} {prev : Option Char} {s : List Char} :
    (run r prev s).isEmpty = false ↔ ∃ m rest, s = m ++ rest ∧ Matches r prev m rest := by
  rw [← Bool.not_eq_true, List.isEmpty_iff]
  constructor
  · intro h
    obtain ⟨⟨m, rest⟩, hm⟩ := List.exists_mem_of_ne_nil _ h
    exact ⟨m, rest, (mem_run _ _ _ _ _).mp hm⟩
  · rintro ⟨m, rest, hm⟩
    exact List.ne_nil_of_mem ((mem_run _ _ _ _ _).mpr hm)

/-- **A search finds a match if there is one.** -/
theorem search_iff {r : Regex} {prev : Option Char} {s : List Char} :
    search r prev s = true ↔
      ∃ before m after, s = before ++ (m ++ after) ∧ Matches r (lastOr prev before) m after := by
  induction s generalizing prev with
  | nil =>
    rw [search, Bool.not_eq_true', run_isEmpty]
    constructor
    · rintro ⟨m, after, hs, hm⟩
      exact ⟨[], m, after, hs, hm⟩
    · rintro ⟨before, m, after, hs, hm⟩
      obtain ⟨rfl, hrest⟩ := List.append_eq_nil_iff.mp hs.symm
      exact ⟨m, after, hrest.symm, hm⟩
  | cons c s ih =>
    rw [search, Bool.or_eq_true, Bool.not_eq_true', run_isEmpty, ih]
    constructor
    · rintro (⟨m, after, hs, hm⟩ | ⟨before, m, after, rfl, hm⟩)
      · exact ⟨[], m, after, hs, hm⟩
      · exact ⟨c :: before, m, after, rfl, by rw [lastOr_cons]; exact hm⟩
    · rintro ⟨before, m, after, hs, hm⟩
      cases before with
      | nil => exact Or.inl ⟨m, after, hs, hm⟩
      | cons d before =>
        obtain ⟨rfl, rfl⟩ := List.cons.inj hs
        rw [lastOr_cons] at hm
        exact Or.inr ⟨before, m, after, rfl, hm⟩

/-! ## Literals and classes -/

/-- A literal text of folded characters, for a comparison up to `fold`. -/
def literals (fold : Char → Char) : List Char → Regex
  | [] => .many (fun _ => false) 0
  | c :: cs => .seq (.char fun d => fold d == c) (literals fold cs)

theorem matches_literals {fold : Char → Char} {cs : List Char} {prev : Option Char} {m rest : List Char} :
    Matches (literals fold cs) prev m rest ↔ m.map fold = cs := by
  induction cs generalizing prev m with
  | nil =>
    simp only [literals, Matches, List.map_eq_nil_iff]
    constructor
    · rintro ⟨-, hall⟩
      cases m with
      | nil => rfl
      | cons c m => cases hall c List.mem_cons_self
    · rintro rfl
      exact ⟨Nat.le_refl 0, fun c hc => nomatch hc⟩
  | cons c cs ih =>
    simp only [literals, Matches, ih]
    constructor
    · rintro ⟨m₁, m₂, rfl, ⟨d, rfl, hd⟩, rfl⟩
      rw [List.singleton_append, List.map_cons, beq_iff_eq.mp hd]
    · intro h
      obtain ⟨d, m, rfl, hd, hm⟩ := List.map_eq_cons_iff.mp h
      exact ⟨[d], m, rfl, ⟨d, rfl, beq_iff_eq.mpr hd⟩, hm⟩

/-- Every character of a match is in the class. -/
def Over (p : Char → Prop) : Regex → Prop
  | .char q => ∀ c, q c = true → p c
  | .many q _ => ∀ c, q c = true → p c
  | .lazily q _ => ∀ c, q c = true → p c
  | .boundary _ => True
  | .assert _ => True
  | .seq a b => Over p a ∧ Over p b
  | .alt a b => Over p a ∧ Over p b
  | .opt r => Over p r

theorem over_literals {p : Char → Prop} {fold : Char → Char} {cs : List Char}
    (h : ∀ c, fold c ∈ cs → p c) : Over p (literals fold cs) := by
  induction cs with
  | nil => exact fun c hc => nomatch hc
  | cons c cs ih =>
    refine ⟨fun d hd => h d ?_, ih fun d hd => h d (List.mem_cons_of_mem _ hd)⟩
    rw [beq_iff_eq.mp hd]
    exact List.mem_cons_self

theorem mem_of_over {p : Char → Prop} {r : Regex} (hr : Over p r) {prev : Option Char}
    {m rest : List Char} (h : Matches r prev m rest) : ∀ c ∈ m, p c := by
  induction r generalizing prev m rest with
  | char q =>
    obtain ⟨c, rfl, hc⟩ := h
    intro d hd
    rw [List.mem_singleton.mp hd]
    exact hr c hc
  | many q n => exact fun c hc => hr c (h.2 c hc)
  | lazily q n => exact fun c hc => hr c (h.2 c hc)
  | boundary word =>
    rw [h.1]
    exact fun c hc => nomatch hc
  | assert test =>
    rw [h.1]
    exact fun c hc => nomatch hc
  | seq a b iha ihb =>
    obtain ⟨m₁, m₂, rfl, ha, hb⟩ := h
    intro c hc
    rcases List.mem_append.mp hc with hc | hc
    · exact iha hr.1 ha c hc
    · exact ihb hr.2 hb c hc
  | alt a b iha ihb =>
    rcases h with ha | hb
    · exact iha hr.1 ha
    · exact ihb hr.2 hb
  | opt r ih =>
    rcases h with h | rfl
    · exact ih hr h
    · exact fun c hc => nomatch hc

/-- The expression tests no neighbour. -/
def Free : Regex → Prop
  | .char _ => True
  | .many _ _ => True
  | .lazily _ _ => True
  | .boundary _ => False
  | .assert _ => False
  | .seq a b => Free a ∧ Free b
  | .alt a b => Free a ∧ Free b
  | .opt r => Free r

theorem free_literals (fold : Char → Char) (cs : List Char) : Free (literals fold cs) := by
  induction cs with
  | nil => trivial
  | cons c cs ih => exact ⟨trivial, ih⟩

/-- Without such tests a match does not depend on its neighbours. -/
theorem matches_of_free {r : Regex} (hr : Free r) {prev : Option Char} {m rest : List Char}
    (h : Matches r prev m rest) (prev' : Option Char) (rest' : List Char) : Matches r prev' m rest' := by
  induction r generalizing prev m rest prev' rest' with
  | char q => exact h
  | many q n => exact h
  | lazily q n => exact h
  | boundary word => exact hr.elim
  | assert test => exact hr.elim
  | seq a b iha ihb =>
    obtain ⟨m₁, m₂, rfl, ha, hb⟩ := h
    exact ⟨m₁, m₂, rfl, iha hr.1 ha _ _, ihb hr.2 hb _ _⟩
  | alt a b iha ihb =>
    rcases h with ha | hb
    · exact Or.inl (iha hr.1 ha _ _)
    · exact Or.inr (ihb hr.2 hb _ _)
  | opt r ih =>
    rcases h with h | rfl
    · exact Or.inl (ih hr h _ _)
    · exact Or.inr rfl

/-! ## Replacing -/

/-- A pattern to replace: with two groups, of which the first is kept, or as a
whole. -/
inductive Pattern
  | keeping (before value : Regex)
  | whole (value : Regex)

/-- A match of a pattern: what is kept, what is replaced, and the rest. -/
structure Found where
  kept : List Char
  value : List Char
  rest : List Char
  deriving DecidableEq

/-- The matches of a pattern at the beginning of a text, the preferred first. -/
def Pattern.matchesAt (prev : Option Char) (s : List Char) : Pattern → List Found
  | .keeping before value =>
    (run before prev s).flatMap fun m =>
      (run value (lastOr prev m.1) m.2).map fun m' => ⟨m.1, m'.1, m'.2⟩
  | .whole value => (run value prev s).map fun m => ⟨[], m.1, m.2⟩

/-- `pattern.match` at the beginning of a text. -/
def Pattern.firstMatch (p : Pattern) (prev : Option Char) (s : List Char) : Option Found :=
  (p.matchesAt prev s).head?

/-- The scan of `pattern.sub`: `skip` characters still belong to the match
before.  A pattern that matches the empty text is left out. -/
def Pattern.scan (p : Pattern) (mark : List Char) : Option Char → Nat → List Char → List Char
  | _, _, [] => []
  | _, skip + 1, c :: s => Pattern.scan p mark (some c) skip s
  | prev, 0, c :: s =>
    match p.firstMatch prev (c :: s) with
    | none => c :: Pattern.scan p mark (some c) 0 s
    | some f => f.kept ++ mark ++ Pattern.scan p mark (some c) ((f.kept ++ f.value).length - 1) s

/-- `pattern.sub`. -/
def Pattern.sub (p : Pattern) (mark : List Char) (s : List Char) : List Char := p.scan mark none 0 s

theorem mem_matchesAt_keeping {before value : Regex} {prev : Option Char} {s : List Char} {f : Found} :
    f ∈ (Pattern.keeping before value).matchesAt prev s ↔
      s = f.kept ++ (f.value ++ f.rest) ∧ Matches before prev f.kept (f.value ++ f.rest) ∧
        Matches value (lastOr prev f.kept) f.value f.rest := by
  simp only [Pattern.matchesAt, List.mem_flatMap, List.mem_map, Prod.exists]
  constructor
  · rintro ⟨g, s₁, h₁, v, rest, h₂, rfl⟩
    obtain ⟨rfl, hg⟩ := (mem_run _ _ _ _ _).mp h₁
    obtain ⟨rfl, hv⟩ := (mem_run _ _ _ _ _).mp h₂
    exact ⟨rfl, hg, hv⟩
  · rintro ⟨hs, hg, hv⟩
    exact ⟨f.kept, f.value ++ f.rest, (mem_run _ _ _ _ _).mpr ⟨hs, hg⟩, f.value, f.rest,
      (mem_run _ _ _ _ _).mpr ⟨rfl, hv⟩, rfl⟩

theorem mem_matchesAt_whole {value : Regex} {prev : Option Char} {s : List Char} {f : Found} :
    f ∈ (Pattern.whole value).matchesAt prev s ↔
      f.kept = [] ∧ s = f.value ++ f.rest ∧ Matches value prev f.value f.rest := by
  simp only [Pattern.matchesAt, List.mem_map, Prod.exists, mem_run]
  constructor
  · rintro ⟨v, rest, ⟨hs, hv⟩, rfl⟩
    exact ⟨rfl, hs, hv⟩
  · rintro ⟨hkept, hs, hv⟩
    refine ⟨f.value, f.rest, ⟨hs, hv⟩, ?_⟩
    rw [← hkept]

/-- No match is found exactly when there is none. -/
theorem firstMatch_eq_none {p : Pattern} {prev : Option Char} {s : List Char} :
    p.firstMatch prev s = none ↔ ∀ f, f ∉ p.matchesAt prev s := by
  rw [Pattern.firstMatch, List.head?_eq_none_iff, List.eq_nil_iff_forall_not_mem]

theorem mem_of_firstMatch {p : Pattern} {prev : Option Char} {s : List Char} {f : Found}
    (h : p.firstMatch prev s = some f) : f ∈ p.matchesAt prev s := List.mem_of_mem_head? h

theorem firstMatch_text {p : Pattern} {prev : Option Char} {s : List Char} {f : Found}
    (h : p.firstMatch prev s = some f) : s = f.kept ++ f.value ++ f.rest := by
  have hf := mem_of_firstMatch h
  cases p with
  | keeping before value =>
    rw [(mem_matchesAt_keeping.mp hf).1, List.append_assoc]
  | whole value =>
    obtain ⟨hkept, hs, -⟩ := mem_matchesAt_whole.mp hf
    rw [hkept, hs, List.nil_append]

theorem runMany_zero_ne_nil (p : Char → Bool) (s : List Char) : runMany p 0 s ≠ [] := by
  cases s with
  | nil => simp [runMany]
  | cons c s => simp [runMany]

/-- The greedy match of a class goes on as long as the class does. -/
theorem runMany_head {p : Char → Bool} {n : Nat} {s m rest : List Char}
    (h : (runMany p n s).head? = some (m, rest)) : ∀ c ∈ rest.head?, p c = false := by
  induction s generalizing n m with
  | nil =>
    simp only [runMany] at h
    split at h
    · cases h
      intro c hc
      cases hc
    · cases h
  | cons c s ih =>
    simp only [runMany] at h
    by_cases hc : p c = true
    · rw [if_pos hc] at h
      cases hmany : runMany p (n - 1) s with
      | nil =>
        by_cases hn : n = 0
        · subst hn
          exact absurd hmany (runMany_zero_ne_nil p s)
        · rw [hmany, if_neg hn] at h
          cases h
      | cons first others =>
        rw [hmany, List.map_cons, List.cons_append, List.head?_cons] at h
        cases h
        exact ih (n := n - 1) (by rw [hmany]; rfl)
    · rw [if_neg hc, List.nil_append] at h
      split at h
      · cases h
        intro d hd
        cases hd
        exact Bool.eq_false_iff.mpr hc
      · cases h

/-- The value of a found match is as long as it can be. -/
theorem firstMatch_value_maximal {before : Regex} {p : Char → Bool} {n : Nat} {prev : Option Char}
    {s : List Char} {f : Found}
    (h : (Pattern.keeping before (many p n)).firstMatch prev s = some f) :
    ∀ c ∈ f.rest.head?, p c = false := by
  rw [Pattern.firstMatch, Pattern.matchesAt, List.head?_flatMap] at h
  obtain ⟨m, -, hm⟩ := List.exists_of_findSome?_eq_some h
  rw [List.head?_map, Option.map_eq_some_iff] at hm
  obtain ⟨m', hm', rfl⟩ := hm
  exact runMany_head hm'

/-- A group that ends with an optional part has that part if a value follows it. -/
theorem firstMatch_prefers {a r value : Regex} {prev : Option Char} {s : List Char} {f : Found}
    (h : (Pattern.keeping (seq a (opt r)) value).firstMatch prev s = some f) :
    (∃ m₁ m₂, f.kept = m₁ ++ m₂ ∧ Matches a prev m₁ (m₂ ++ (f.value ++ f.rest)) ∧
        Matches r (lastOr prev m₁) m₂ (f.value ++ f.rest)) ∨
      ∀ m v rest, f.value ++ f.rest = m ++ (v ++ rest) → Matches r (lastOr prev f.kept) m (v ++ rest) →
        ¬ Matches value (lastOr prev (f.kept ++ m)) v rest := by
  simp only [Pattern.firstMatch, Pattern.matchesAt, run, List.flatMap_assoc, List.head?_flatMap] at h
  obtain ⟨⟨m₁, s₁⟩, hm₁, h'⟩ := List.exists_of_findSome?_eq_some h
  obtain ⟨-, ha⟩ := (mem_run _ _ _ _ _).mp hm₁
  rw [List.map_append, List.findSome?_append, Option.or_eq_some_iff] at h'
  rcases h' with h' | ⟨hnone, h'⟩
  · -- the optional part is taken
    left
    obtain ⟨m, hm, hhead⟩ := List.exists_of_findSome?_eq_some h'
    obtain ⟨⟨m₂, s₂⟩, hm₂, rfl⟩ := List.mem_map.mp hm
    obtain ⟨rfl, hr⟩ := (mem_run _ _ _ _ _).mp hm₂
    obtain ⟨⟨v, rest⟩, hv, rfl⟩ := List.mem_map.mp (List.mem_of_mem_head? hhead)
    obtain ⟨rfl, -⟩ := (mem_run _ _ _ _ _).mp hv
    exact ⟨m₁, m₂, rfl, ha, hr⟩
  · -- it is not, so no value follows it
    right
    simp only [List.map_cons, List.map_nil, List.findSome?_cons, List.findSome?_nil] at h'
    split at h'
    · next hhead =>
      cases h'
      obtain ⟨⟨v, rest⟩, hv, rfl⟩ := List.mem_map.mp (List.mem_of_mem_head? hhead)
      obtain ⟨rfl, -⟩ := (mem_run _ _ _ _ _).mp hv
      intro m v' rest' htext hr hvalue
      simp only [List.append_nil] at htext hr hvalue
      have hm : (m₁ ++ m, v' ++ rest') ∈
          List.map (fun m' => (m₁ ++ m'.1, m'.2)) (run r (lastOr prev m₁) (v ++ rest)) :=
        List.mem_map.mpr ⟨(m, v' ++ rest'), (mem_run _ _ _ _ _).mpr ⟨htext, hr⟩, rfl⟩
      have hnil := List.findSome?_eq_none_iff.mp hnone _ hm
      rw [List.head?_eq_none_iff, List.map_eq_nil_iff] at hnil
      have hv' : (v', rest') ∈ run value (lastOr prev (m₁ ++ m)) (v' ++ rest') :=
        (mem_run _ _ _ _ _).mpr ⟨rfl, hvalue⟩
      rw [hnil] at hv'
      cases hv'
    · cases h'

/-! ## The scan -/

/-- Every match, at any position, has the mark as its value already. -/
def Pattern.Settled (p : Pattern) (mark : List Char) (s : List Char) : Prop :=
  ∀ before after, s = before ++ after →
    ∀ f, p.firstMatch before.getLast? after = some f → f.value = mark

/-- The pattern replaces no empty text. -/
def Pattern.Proper (p : Pattern) : Prop :=
  ∀ prev s f, f ∈ p.matchesAt prev s → f.value ≠ []

theorem scan_skip (p : Pattern) (mark : List Char) (prev : Option Char) (t rest : List Char) :
    p.scan mark prev t.length (t ++ rest) = p.scan mark (lastOr prev t) 0 rest := by
  induction t generalizing prev with
  | nil => rfl
  | cons c t ih =>
    rw [List.length_cons, List.cons_append, Pattern.scan, ih, lastOr_cons]

theorem scan_nil (p : Pattern) (mark : List Char) (prev : Option Char) :
    p.scan mark prev 0 [] = [] := by
  rw [Pattern.scan]

theorem scan_keep {p : Pattern} {prev : Option Char} {c : Char} {s : List Char}
    (h : p.firstMatch prev (c :: s) = none) (mark : List Char) :
    p.scan mark prev 0 (c :: s) = c :: p.scan mark (some c) 0 s := by
  rw [Pattern.scan, h]

theorem scan_replace {p : Pattern} (hp : p.Proper) {prev : Option Char} {s : List Char} {f : Found}
    (h : p.firstMatch prev s = some f) (mark : List Char) :
    p.scan mark prev 0 s =
      f.kept ++ mark ++ p.scan mark (lastOr prev (f.kept ++ f.value)) 0 f.rest := by
  have htext := firstMatch_text h
  have hvalue := hp _ _ _ (mem_of_firstMatch h)
  cases hread : f.kept ++ f.value with
  | nil => exact absurd (List.append_eq_nil_iff.mp hread).2 hvalue
  | cons c t =>
    rw [hread] at htext
    subst htext
    rw [List.cons_append] at h ⊢
    rw [Pattern.scan, h]
    simp only [hread, List.length_cons, Nat.add_sub_cancel]
    rw [scan_skip, lastOr_cons]

/-- **The induction along the scan of a pattern**: a text without a match at
its beginning goes on after its first character, one with a match after it. -/
theorem scan_induction {p : Pattern} (hp : p.Proper) {motive : Option Char → List Char → Prop}
    (nil : ∀ prev, motive prev [])
    (keep : ∀ prev c s, p.firstMatch prev (c :: s) = none → motive (some c) s → motive prev (c :: s))
    (replace : ∀ prev s f, p.firstMatch prev s = some f →
      motive (lastOr prev (f.kept ++ f.value)) f.rest → motive prev s)
    (prev : Option Char) (s : List Char) : motive prev s := by
  induction hn : s.length using Nat.strongRecOn generalizing prev s with
  | ind n ih =>
    subst hn
    cases s with
    | nil => exact nil prev
    | cons c s =>
      cases h : p.firstMatch prev (c :: s) with
      | none => exact keep prev c s h (ih _ (by simp) _ _ rfl)
      | some f =>
        have hvalue := hp _ _ _ (mem_of_firstMatch h)
        have hlength := congrArg List.length (firstMatch_text h)
        have hpos : 0 < f.value.length := List.length_pos_iff.mpr hvalue
        simp only [List.length_append] at hlength
        exact replace prev _ f h (ih _ (by omega) _ _ rfl)

/-- **A text in which every match is marked stays as it is.** -/
theorem sub_of_settled {p : Pattern} (hp : p.Proper) {mark s : List Char} (h : p.Settled mark s) :
    p.sub mark s = s := by
  suffices hscan : ∀ prev t, (∀ before after, t = before ++ after →
      ∀ f, p.firstMatch (lastOr prev before) after = some f → f.value = mark) →
      p.scan mark prev 0 t = t by
    refine hscan none s fun before after hs f hf => h before after hs f ?_
    rw [← lastOr_none]
    exact hf
  intro prev t
  induction prev, t using scan_induction hp with
  | nil prev => exact fun _ => scan_nil p mark prev
  | keep prev c t hnone ih =>
    intro hmarked
    rw [scan_keep hnone, ih]
    intro before after ht f hf
    refine hmarked (c :: before) after (by rw [ht, List.cons_append]) f ?_
    rw [lastOr_cons, hf]
  | replace prev t f hf ih =>
    intro hmarked
    have htext := firstMatch_text hf
    have hvalue : f.value = mark := hmarked [] t rfl f hf
    rw [scan_replace hp hf, ih]
    · rw [htext, hvalue]
    · intro before after ht f' hf'
      refine hmarked (f.kept ++ f.value ++ before) after ?_ f' ?_
      · rw [htext, ht, List.append_assoc, List.append_assoc, List.append_assoc]
      · rw [lastOr_append, hf']

end Regex

end CodexMemory
