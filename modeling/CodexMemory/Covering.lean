import CodexMemory.Tracing
import Mathlib.Data.List.Forall2

/-!
# What replacements by several patterns cover

Patterns replace their values by a mark, one pattern after another, so that a later
pattern reads what the earlier ones leave.  `values` reads the text at first instead: a
match counts if its first character is in no value that counted before.  `Shows` relates
the text at first to what a replacement has made of it.

* `traceAll_chars`: with their places the replacements are `pattern.sub`, one after another;
* `Shows.mem_tags`: what is left are the places that are not covered;
* `Shows.pass`: a `Steady` pattern covers exactly the values that count;
* `mem_tags_alone`: in the text itself these are all its values;
* `run_window`: what an expression lists does not depend on the text behind a character that
  it cannot match.
-/

namespace CodexMemory.Regex

variable {τ : Type}

/-! ## Values and places -/

/-- The values of the matches that count, from a position on, each with its places: a match
that begins at a place that is `taken` does not count. -/
def Pattern.values (p : Pattern) (taken : List Nat) : Option Char → Nat → Nat → List Char → List (List Nat)
  | _, _, _, [] => []
  | _, pos, skip + 1, c :: s => Pattern.values p taken (some c) (pos + 1) skip s
  | prev, pos, 0, c :: s =>
    if pos ∈ taken then Pattern.values p taken (some c) (pos + 1) 0 s
    else
      match p.firstMatch prev (c :: s) with
      | none => Pattern.values p taken (some c) (pos + 1) 0 s
      | some f => List.range' (pos + f.kept.length) f.value.length ::
          Pattern.values p taken (some c) (pos + 1) ((f.kept ++ f.value).length - 1) s

/-- The values that a pattern alone replaces in a text. -/
def Pattern.alone (p : Pattern) (s : List Char) : List (List Nat) := p.values [] none 0 0 s

/-- The places of the values that count, pattern after pattern. -/
def covered (ps : List Pattern) (s : List Char) : List Nat :=
  ps.foldl (fun taken p => taken ++ (p.values taken none 0 0 s).flatten) []

/-- The characters of a text with their places. -/
def placed : Nat → List Char → List (Char × Option Nat)
  | _, [] => []
  | n, c :: s => (c, some n) :: placed (n + 1) s

/-- The mark that replaces a value: its characters have no place. -/
def unplaced (mark : List Char) : List (Char × Option τ) := mark.map fun d => (d, none)

/-- The scan of `pattern.sub` on characters with tags. -/
def Pattern.trace (p : Pattern) (mark : List Char) : Option Char → Nat → List (Char × Option τ) → List (Char × Option τ)
  | _, _, [] => []
  | _, skip + 1, c :: s => Pattern.trace p mark (some c.1) skip s
  | prev, 0, c :: s =>
    match p.firstMatch prev (c.1 :: s.map Prod.fst) with
    | none => c :: Pattern.trace p mark (some c.1) 0 s
    | some f => (c :: s).take f.kept.length ++ unplaced mark ++
        Pattern.trace p mark (some c.1) ((f.kept ++ f.value).length - 1) s

/-- The matches of some patterns are replaced, one pattern after the other. -/
def traceAll (mark : List Char) (ps : List Pattern) (s : List (Char × Option τ)) : List (Char × Option τ) :=
  ps.foldl (fun s p => p.trace mark none 0 s) s

@[simp] theorem placed_chars (n : Nat) (s : List Char) : (placed n s).map Prod.fst = s := by
  induction s generalizing n with
  | nil => rfl
  | cons c s ih => rw [placed, List.map_cons, ih]

@[simp] theorem unplaced_chars (mark : List Char) : (unplaced mark : List (Char × Option τ)).map Prod.fst = mark := by
  rw [unplaced, List.map_map]
  exact List.map_id mark

@[simp] theorem placed_length (n : Nat) (s : List Char) : (placed n s).length = s.length := by
  rw [← List.length_map Prod.fst, placed_chars]

theorem placed_append (n : Nat) (s t : List Char) : placed n (s ++ t) = placed n s ++ placed (n + s.length) t := by
  induction s generalizing n with
  | nil => rfl
  | cons c s ih =>
    rw [List.cons_append, placed, placed, ih, List.cons_append, List.length_cons]
    congr 3
    omega

/-! ## The trace -/

theorem trace_chars_scan (p : Pattern) (mark : List Char) (prev : Option Char) (skip : Nat)
    (s : List (Char × Option τ)) : (p.trace mark prev skip s).map Prod.fst = p.scan mark prev skip (s.map Prod.fst) := by
  induction s generalizing prev skip with
  | nil => rw [Pattern.trace, List.map_nil, Pattern.scan]
  | cons c s ih =>
    rw [List.map_cons]
    cases skip with
    | succ skip => rw [Pattern.trace, Pattern.scan, ih]
    | zero =>
      rw [Pattern.trace, Pattern.scan]
      cases hf : p.firstMatch prev (c.1 :: s.map Prod.fst) with
      | none => exact congrArg _ (ih _ _)
      | some f =>
        have htext := firstMatch_text hf
        simp only [List.map_append, unplaced_chars, ih, List.map_take, List.map_cons]
        rw [htext, List.append_assoc f.kept, List.take_left]

/-- **Without the tags the trace is the replacement.** -/
theorem traceAll_chars (mark : List Char) (ps : List Pattern) (s : List (Char × Option τ)) :
    (traceAll mark ps s).map Prod.fst = ps.foldl (fun s p => p.sub mark s) (s.map Prod.fst) := by
  induction ps generalizing s with
  | nil => rfl
  | cons p ps ih =>
    rw [traceAll, List.foldl_cons, List.foldl_cons]
    exact (ih _).trans (by rw [trace_chars_scan, Pattern.sub])

theorem trace_skip (p : Pattern) (mark : List Char) (prev : Option Char) (t rest : List (Char × Option τ)) :
    p.trace mark prev t.length (t ++ rest) = p.trace mark (lastOr prev (t.map Prod.fst)) 0 rest := by
  induction t generalizing prev with
  | nil => rfl
  | cons c t ih => rw [List.length_cons, List.cons_append, Pattern.trace, ih, List.map_cons, lastOr_cons]

theorem trace_nil (p : Pattern) (mark : List Char) (prev : Option Char) :
    p.trace mark prev 0 ([] : List (Char × Option τ)) = [] := by
  rw [Pattern.trace]

theorem trace_keep {p : Pattern} {prev : Option Char} {c : Char × Option τ} {s : List (Char × Option τ)}
    (h : p.firstMatch prev (c.1 :: s.map Prod.fst) = none) (mark : List Char) :
    p.trace mark prev 0 (c :: s) = c :: p.trace mark (some c.1) 0 s := by
  rw [Pattern.trace, h]

theorem trace_replace {p : Pattern} (hp : p.Proper) {prev : Option Char} {g w rest : List (Char × Option τ)}
    (h : p.firstMatch prev ((g ++ (w ++ rest)).map Prod.fst) =
      some ⟨g.map Prod.fst, w.map Prod.fst, rest.map Prod.fst⟩) (mark : List Char) :
    p.trace mark prev 0 (g ++ (w ++ rest)) =
      g ++ (unplaced mark ++ p.trace mark (lastOr prev ((g ++ w).map Prod.fst)) 0 rest) := by
  have hw : w ≠ [] := fun hnil => hp _ _ _ (mem_of_firstMatch h) (by rw [hnil]; rfl)
  rw [← List.append_assoc] at h ⊢
  cases hread : g ++ w with
  | nil => exact absurd (List.append_eq_nil_iff.mp hread).2 hw
  | cons c t =>
    have htake : (c :: t ++ rest).take (g.map Prod.fst).length = g := by
      rw [← hread, List.length_map, List.append_assoc, List.take_left]
    have hlength : (g.map Prod.fst ++ w.map Prod.fst).length - 1 = t.length := by
      rw [← List.map_append, hread]
      simp
    rw [hread] at h
    rw [List.cons_append] at h htake ⊢
    rw [Pattern.trace, show p.firstMatch prev (c.1 :: (t ++ rest).map Prod.fst) = _ from h]
    simp only [htake, hlength]
    rw [trace_skip, List.append_assoc, List.map_cons, lastOr_cons]

/-- A mark in which no match begins stays. -/
theorem trace_unplaced {p : Pattern} {mark : List Char}
    (hmark : ∀ prev c s, c ∈ mark → p.firstMatch prev (c :: s) = none) {m : List Char} (hm : ∀ c ∈ m, c ∈ mark)
    (prev : Option Char) (t : List (Char × Option τ)) :
    p.trace mark prev 0 (unplaced m ++ t) = unplaced m ++ p.trace mark (lastOr prev m) 0 t := by
  induction m generalizing prev with
  | nil => rfl
  | cons c m ih =>
    rw [unplaced, List.map_cons, List.cons_append, trace_keep (hmark _ _ _ (hm c List.mem_cons_self)), lastOr_cons]
    exact congrArg _ (ih (fun d hd => hm d (List.mem_cons_of_mem _ hd)) (some c))

/-! ## Values that count -/

theorem values_nil (p : Pattern) (taken : List Nat) (prev : Option Char) (pos : Nat) :
    p.values taken prev pos 0 [] = [] := by
  rw [Pattern.values]

theorem values_skip (p : Pattern) (taken : List Nat) (prev : Option Char) (pos : Nat) (t rest : List Char) :
    p.values taken prev pos t.length (t ++ rest) = p.values taken (lastOr prev t) (pos + t.length) 0 rest := by
  induction t generalizing prev pos with
  | nil => rfl
  | cons c t ih =>
    rw [List.length_cons, List.cons_append, Pattern.values, ih, lastOr_cons, Nat.add_assoc, Nat.add_comm 1]

theorem values_keep {p : Pattern} {taken : List Nat} {prev : Option Char} {pos : Nat} {c : Char} {s : List Char}
    (h : p.firstMatch prev (c :: s) = none) :
    p.values taken prev pos 0 (c :: s) = p.values taken (some c) (pos + 1) 0 s := by
  rw [Pattern.values, h]
  split <;> rfl

theorem values_replace {p : Pattern} (hp : p.Proper) {taken : List Nat} {prev : Option Char} {pos : Nat}
    {s : List Char} {f : Found} (h : p.firstMatch prev s = some f) (hpos : pos ∉ taken) :
    p.values taken prev pos 0 s = List.range' (pos + f.kept.length) f.value.length ::
      p.values taken (lastOr prev (f.kept ++ f.value)) (pos + (f.kept.length + f.value.length)) 0 f.rest := by
  have htext := firstMatch_text h
  have hvalue := hp _ _ _ (mem_of_firstMatch h)
  cases hread : f.kept ++ f.value with
  | nil => exact absurd (List.append_eq_nil_iff.mp hread).2 hvalue
  | cons c t =>
    have hlength : f.kept.length + f.value.length = t.length + 1 := by
      rw [← List.length_append, hread, List.length_cons]
    rw [hread] at htext
    subst htext
    rw [List.cons_append] at h ⊢
    rw [Pattern.values, if_neg hpos, h]
    simp only [hread, List.length_cons, Nat.add_sub_cancel]
    rw [values_skip, lastOr_cons, hlength, Nat.add_assoc, Nat.add_comm 1]

/-- Where all is taken, nothing counts. -/
theorem values_taken {p : Pattern} {taken : List Nat} {prev : Option Char} {pos : Nat} {v s : List Char}
    (h : ∀ i < v.length, pos + i ∈ taken) :
    p.values taken prev pos 0 (v ++ s) = p.values taken (lastOr prev v) (pos + v.length) 0 s := by
  induction v generalizing prev pos with
  | nil => rfl
  | cons c v ih =>
    have hpos : pos ∈ taken := h 0 (by simp)
    have htail : ∀ i < v.length, pos + 1 + i ∈ taken := by
      intro i hi
      rw [Nat.add_assoc, Nat.add_comm 1]
      exact h (i + 1) (by simpa using hi)
    rw [List.cons_append, Pattern.values, if_pos hpos, ih htail, lastOr_cons, List.length_cons, Nat.add_assoc,
      Nat.add_comm 1]

/-- The values lie behind what is skipped, and within the text. -/
theorem values_bounds {p : Pattern} {taken : List Nat} {prev : Option Char} {pos skip : Nat} {s : List Char} :
    ∀ value ∈ p.values taken prev pos skip s, ∀ place ∈ value, pos + skip ≤ place ∧ place < pos + s.length := by
  induction s generalizing prev pos skip with
  | nil =>
    intro value hvalue
    rw [Pattern.values] at hvalue
    cases hvalue
  | cons c s ih =>
    intro value hvalue place hplace
    rw [List.length_cons]
    cases skip with
    | succ skip =>
      rw [Pattern.values] at hvalue
      have := ih value hvalue place hplace
      omega
    | zero =>
      rw [Pattern.values] at hvalue
      split at hvalue
      · have := ih value hvalue place hplace
        omega
      · split at hvalue
        · have := ih value hvalue place hplace
          omega
        · next f hf =>
          rcases List.mem_cons.mp hvalue with rfl | hvalue
          · have hlength := congrArg List.length (firstMatch_text hf)
            simp only [List.length_cons, List.length_append] at hlength
            rw [List.mem_range'_1] at hplace
            omega
          · have := ih value hvalue place hplace
            omega

theorem le_of_mem_values {p : Pattern} {taken : List Nat} {prev : Option Char} {pos place : Nat} {s : List Char}
    (h : place ∈ (p.values taken prev pos 0 s).flatten) : pos ≤ place := by
  obtain ⟨value, hvalue, hplace⟩ := List.mem_flatten.mp h
  exact (values_bounds value hvalue place hplace).1

/-! ## What shows a text -/

/-- The characters with tags show the text, which follows `before`: the characters at free places stand there with
them, and a mark stands for each of some pieces whose places are all taken. -/
inductive Shows (mark : List Char) (side : List Char → List Char → List Char → Prop) (taken : List Nat) :
    List Char → List Char → List (Char × Option Nat) → Prop
  | nil (before : List Char) : Shows mark side taken before [] []
  | keep (before : List Char) (c : Char) {s : List Char} {t : List (Char × Option Nat)}
      (free : before.length ∉ taken) (tail : Shows mark side taken (before ++ [c]) s t) :
      Shows mark side taken before (c :: s) ((c, some before.length) :: t)
  | mask (before v : List Char) {s : List Char} {t : List (Char × Option Nat)} (nonempty : v ≠ [])
      (within : ∀ i < v.length, before.length + i ∈ taken) (sides : side before v s)
      (tail : Shows mark side taken (before ++ v) s t) :
      Shows mark side taken before (v ++ s) (unplaced mark ++ t)

section Shows

variable {mark : List Char} {side side' : List Char → List Char → List Char → Prop} {taken taken' : List Nat}

/-- At first every text shows itself. -/
theorem Shows.refl (mark : List Char) (side : List Char → List Char → List Char → Prop) (before s : List Char) :
    Shows mark side [] before s (placed before.length s) := by
  induction s generalizing before with
  | nil => exact .nil before
  | cons c s ih =>
    refine .keep before c List.not_mem_nil ?_
    have htail := ih (before ++ [c])
    rw [List.length_append, List.length_singleton] at htail
    exact htail

theorem Shows.mono (hside : ∀ before v s, side before v s → side' before v s) {before s : List Char}
    {t : List (Char × Option Nat)} (h : Shows mark side taken before s t) : Shows mark side' taken before s t := by
  induction h with
  | nil before => exact .nil before
  | keep before c free tail ih => exact .keep before c free ih
  | mask before v nonempty within sides tail ih => exact .mask before v nonempty within (hside _ _ _ sides) ih

/-- Only the places from the beginning of the text on matter. -/
theorem Shows.congr {before s : List Char} {t : List (Char × Option Nat)} (h : Shows mark side taken before s t)
    (htaken : ∀ q, before.length ≤ q → (q ∈ taken ↔ q ∈ taken')) : Shows mark side taken' before s t := by
  induction h with
  | nil before => exact .nil before
  | keep before c free tail ih =>
    refine .keep before c (fun hmem => free ((htaken _ (Nat.le_refl _)).mpr hmem)) (ih fun q hq => htaken q ?_)
    rw [List.length_append] at hq
    omega
  | mask before v nonempty within sides tail ih =>
    refine .mask before v nonempty (fun i hi => (htaken _ (Nat.le_add_right _ _)).mp (within i hi)) sides
      (ih fun q hq => htaken q ?_)
    rw [List.length_append] at hq
    omega

theorem free_succ {n k : Nat} (hfirst : n ∉ taken) (hrest : ∀ i < k, n + 1 + i ∉ taken) :
    ∀ i < k + 1, n + i ∉ taken := by
  intro i hi
  cases i with
  | zero => exact hfirst
  | succ i =>
    rw [Nat.add_comm i, ← Nat.add_assoc]
    exact hrest i (by omega)

/-- A text at free places shows itself before what shows the rest. -/
theorem Shows.placed_append {before : List Char} (g : List Char) {s : List Char} {t : List (Char × Option Nat)}
    (hfree : ∀ i < g.length, before.length + i ∉ taken) (h : Shows mark side taken (before ++ g) s t) :
    Shows mark side taken before (g ++ s) (placed before.length g ++ t) := by
  induction g generalizing before with
  | nil =>
    rw [List.append_nil] at h
    exact h
  | cons c g ih =>
    refine .keep before c (hfree 0 (by simp)) ?_
    have hlength : (before ++ [c]).length = before.length + 1 := by rw [List.length_append, List.length_singleton]
    have htail := @ih (before ++ [c]) (fun i hi => by
      rw [hlength, Nat.add_assoc, Nat.add_comm 1]
      exact hfree (i + 1) (by simpa using hi)) (by rw [List.append_assoc]; exact h)
    rw [hlength] at htail
    exact htail

/-- A text in which no mark can begin shows itself. -/
theorem Shows.split {before g s : List Char} {t : List (Char × Option Nat)}
    (hfree : ∀ g₁ c g₂, g = g₁ ++ c :: g₂ → ∀ v s', ¬ side (before ++ g₁) (c :: v) s')
    (h : Shows mark side taken before (g ++ s) t) : ∃ t', t = placed before.length g ++ t' ∧
      (∀ i < g.length, before.length + i ∉ taken) ∧ Shows mark side taken (before ++ g) s t' := by
  induction g generalizing before t with
  | nil =>
    refine ⟨t, rfl, fun i hi => (nomatch hi), ?_⟩
    rw [List.append_nil]
    exact h
  | cons c g ih =>
    generalize hread : c :: g ++ s = text at h
    cases h with
    | nil => cases hread
    | keep _ d free tail =>
      obtain ⟨rfl, rfl⟩ := List.cons.inj hread
      obtain ⟨t', rfl, hplaces, htail⟩ := @ih (before ++ [c]) _ (fun g₁ d g₂ hg v s' => by
        rw [List.append_assoc]
        exact hfree (c :: g₁) d g₂ (by rw [hg, List.cons_append]) v s') tail
      rw [List.length_append, List.length_singleton] at hplaces ⊢
      rw [List.append_assoc] at htail
      exact ⟨t', rfl, free_succ free hplaces, htail⟩
    | mask _ v nonempty within sides tail =>
      obtain ⟨d, v, rfl⟩ := List.exists_cons_of_ne_nil nonempty
      obtain ⟨rfl, -⟩ := List.cons.inj hread
      refine absurd sides ?_
      rw [← List.append_nil before]
      exact hfree [] c g rfl v _

/-- What shows a text and has no character of the mark was there at first. -/
theorem Shows.split_chars (hmark : mark ≠ []) {before s g r : List Char} {t : List (Char × Option Nat)}
    (hfree : ∀ c ∈ g, c ∉ mark) (h : Shows mark side taken before s t) (ht : t.map Prod.fst = g ++ r) :
    ∃ s' t', s = g ++ s' ∧ t = placed before.length g ++ t' ∧ t'.map Prod.fst = r ∧
      (∀ i < g.length, before.length + i ∉ taken) ∧ Shows mark side taken (before ++ g) s' t' := by
  induction g generalizing before s t with
  | nil =>
    refine ⟨s, t, rfl, rfl, ht, fun i hi => (nomatch hi), ?_⟩
    rw [List.append_nil]
    exact h
  | cons c g ih =>
    cases h with
    | nil => cases ht
    | keep _ d free tail =>
      rw [List.map_cons, List.cons_append] at ht
      obtain ⟨rfl, ht'⟩ := List.cons.inj ht
      obtain ⟨s', t', rfl, rfl, hr, hplaces, htail⟩ := ih (fun e he => hfree e (List.mem_cons_of_mem _ he)) tail ht'
      rw [List.length_append, List.length_singleton] at hplaces ⊢
      rw [List.append_assoc] at htail
      exact ⟨s', t', rfl, rfl, hr, free_succ free hplaces, htail⟩
    | mask _ v nonempty within sides tail =>
      obtain ⟨d, mark, rfl⟩ := List.exists_cons_of_ne_nil hmark
      rw [List.map_append, unplaced_chars, List.cons_append] at ht
      obtain ⟨rfl, -⟩ := List.cons.inj ht
      exact absurd List.mem_cons_self (hfree d List.mem_cons_self)

/-- The places that are left are those of the text. -/
theorem Shows.not_mem_tags {before s : List Char} {t : List (Char × Option Nat)}
    (h : Shows mark side taken before s t) {place : Nat} (hlt : place < before.length) : place ∉ tags t := by
  induction h with
  | nil before => exact List.not_mem_nil
  | keep before c free tail ih =>
    rw [List.length_append] at ih
    rw [tags, List.filterMap_cons, List.mem_cons, not_or]
    exact ⟨by omega, ih (by omega)⟩
  | mask before v nonempty within sides tail ih =>
    rw [List.length_append] at ih
    rw [tags, List.filterMap_append, ← tags, ← tags, unplaced, tags_mark, List.nil_append]
    exact ih (by omega)

/-- **What is left of a text are the places that are not taken.** -/
theorem Shows.mem_tags {before s : List Char} {t : List (Char × Option Nat)} (h : Shows mark side taken before s t)
    {place : Nat} (hle : before.length ≤ place) (hlt : place < before.length + s.length) :
    place ∈ tags t ↔ place ∉ taken := by
  induction h with
  | nil before =>
    rw [List.length_nil] at hlt
    omega
  | keep before c free tail ih =>
    rw [List.length_cons] at hlt
    rw [List.length_append, List.length_singleton] at ih
    rw [tags, List.filterMap_cons, List.mem_cons]
    rcases Nat.eq_or_lt_of_le hle with rfl | hlt'
    · exact ⟨fun _ => free, fun _ => .inl rfl⟩
    · have htail := ih hlt' (by omega)
      rw [tags] at htail
      rw [htail]
      exact ⟨fun hor => hor.resolve_left (by omega), .inr⟩
  | mask before v nonempty within sides tail ih =>
    rw [List.length_append] at hlt ih
    rw [tags, List.filterMap_append, ← tags, ← tags, unplaced, tags_mark, List.nil_append]
    by_cases hin : place < before.length + v.length
    · have hmem := within (place - before.length) (by omega)
      rw [Nat.add_sub_cancel' hle] at hmem
      refine ⟨fun htag => ?_, fun hnot => absurd hmem hnot⟩
      exact absurd htag (tail.not_mem_tags (by rw [List.length_append]; omega))
    · exact ih (by omega) (by omega)

/-! ## One replacement -/

/-- At a text that begins at a free place, a pattern finds the same in the text and in what shows it: nothing, or a
match that keeps `g` and whose value is `v`, which in what shows the text may go on over a mark that stands for
`e`. -/
inductive Agree (mark : List Char) (side side' : List Char → List Char → List Char → Prop) (edge : Char → Bool)
    (taken : List Nat) (p : Pattern) (before s : List Char) (t : List (Char × Option Nat)) : Prop
  | neither (here : p.firstMatch before.getLast? s = none)
      (there : p.firstMatch before.getLast? (t.map Prod.fst) = none)
  | both (g v e r : List Char) (w t' : List (Char × Option Nat))
      (here : p.firstMatch before.getLast? s = some ⟨g, v, e ++ r⟩)
      (text : t = placed before.length g ++ (w ++ t'))
      (there : p.firstMatch before.getLast? (t.map Prod.fst) = some ⟨g, w.map Prod.fst, t'.map Prod.fst⟩)
      (kept : ∀ i < g.length, before.length + i ∉ taken)
      (extra : ∀ i < e.length, before.length + (g.length + v.length) + i ∈ taken)
      (sides : side' (before ++ g) (v ++ e) r)
      (edges : (w.map Prod.fst).getLast? = (v ++ e).getLast? ∨ ∀ c ∈ r.head?, edge c = false)
      (tail : Shows mark side taken (before ++ (g ++ (v ++ e))) r t')

/-- A pattern whose matches begin with characters of the class `edge`, where none follows a mark. -/
structure Steady (mark : List Char) (side side' : List Char → List Char → List Char → Prop) (edge : Char → Bool)
    (p : Pattern) : Prop where
  proper : p.Proper
  unmarked : ∀ prev c s, c ∈ mark → p.firstMatch prev (c :: s) = none
  start : ∀ prev c s, edge c = false → p.firstMatch prev (c :: s) = none
  sides : ∀ before v s, side before v s → side' before v s ∧ ∀ c ∈ s.head?, edge c = false
  agree : ∀ taken before c s t, before.length ∉ taken → Shows mark side taken (before ++ [c]) s t →
    Agree mark side side' edge taken p before (c :: s) ((c, some before.length) :: t)

/-- After the replacement the values that count are taken besides. -/
def Passes (mark : List Char) (side' : List Char → List Char → List Char → Prop) (taken : List Nat) (p : Pattern)
    (prev : Option Char) (before s : List Char) (t : List (Char × Option Nat)) : Prop :=
  Shows mark side' (taken ++ (p.values taken before.getLast? before.length 0 s).flatten) before s
    (p.trace mark prev 0 t)

theorem getLast?_append_lastOr (before s : List Char) : (before ++ s).getLast? = lastOr before.getLast? s := by
  rw [← lastOr_none, ← lastOr_none, lastOr_append]

section Pass

variable {edge : Char → Bool} {p : Pattern}

/-- No match begins within a mark, nor at a place that is taken. -/
theorem passes_mask (hp : Steady mark side side' edge p) {before v s : List Char} {t : List (Char × Option Nat)}
    (nonempty : v ≠ []) (within : ∀ i < v.length, before.length + i ∈ taken) (sides : side before v s)
    {prev : Option Char} (htail : Passes mark side' taken p (lastOr prev mark) (before ++ v) s t) :
    Passes mark side' taken p prev before (v ++ s) (unplaced mark ++ t) := by
  rw [Passes, getLast?_append_lastOr, List.length_append] at htail
  rw [Passes, values_taken within, trace_unplaced hp.unmarked (fun c hc => hc)]
  exact .mask before v nonempty (fun i hi => List.mem_append_left _ (within i hi)) (hp.sides _ _ _ sides).1 htail

theorem passes_keep {before s : List Char} {c : Char} {t : List (Char × Option Nat)} (free : before.length ∉ taken)
    {prev : Option Char} (here : p.firstMatch before.getLast? (c :: s) = none)
    (there : p.firstMatch prev (c :: t.map Prod.fst) = none)
    (htail : Passes mark side' taken p (some c) (before ++ [c]) s t) :
    Passes mark side' taken p prev before (c :: s) ((c, some before.length) :: t) := by
  rw [Passes, List.getLast?_concat, List.length_append, List.length_singleton] at htail
  rw [Passes, values_keep here, trace_keep there]
  refine .keep before c (fun hmem => ?_) htail
  rcases List.mem_append.mp hmem with hmem | hmem
  · exact free hmem
  · have := le_of_mem_values hmem
    omega

/-- The value and what its mark reaches over are one piece afterwards. -/
theorem passes_both (hp : p.Proper) {before g v e r : List Char} {w t : List (Char × Option Nat)}
    (free : before.length ∉ taken)
    (here : p.firstMatch before.getLast? (g ++ (v ++ (e ++ r))) = some ⟨g, v, e ++ r⟩)
    (there : p.firstMatch before.getLast? ((placed before.length g ++ (w ++ t)).map Prod.fst) =
      some ⟨g, w.map Prod.fst, t.map Prod.fst⟩)
    (kept : ∀ i < g.length, before.length + i ∉ taken)
    (extra : ∀ i < e.length, before.length + (g.length + v.length) + i ∈ taken)
    (sides : side' (before ++ g) (v ++ e) r)
    (htail : Passes mark side' taken p (lastOr before.getLast? (g ++ w.map Prod.fst)) (before ++ (g ++ (v ++ e))) r t) :
    Passes mark side' taken p before.getLast? before (g ++ (v ++ (e ++ r)))
      (placed before.length g ++ (w ++ t)) := by
  have hvalue : v ≠ [] := hp _ _ _ (mem_of_firstMatch here)
  rw [Passes, getLast?_append_lastOr, List.length_append, List.length_append, List.length_append] at htail
  have hthere : p.firstMatch before.getLast? ((placed before.length g ++ (w ++ t)).map Prod.fst) =
      some ⟨(placed before.length g).map Prod.fst, w.map Prod.fst, t.map Prod.fst⟩ := by
    rw [placed_chars]
    exact there
  rw [Passes, values_replace hp here free, trace_replace hp hthere, values_taken extra, List.map_append, placed_chars,
    ← lastOr_append, List.append_assoc g v e, Nat.add_assoc before.length, Nat.add_assoc g.length, List.flatten_cons]
  have hlater := fun q => @le_of_mem_values p taken (lastOr before.getLast? (g ++ (v ++ e)))
    (before.length + (g.length + (v.length + e.length))) q r
  generalize (p.values taken (lastOr before.getLast? (g ++ (v ++ e))) _ 0 r).flatten = later at htail hlater ⊢
  have hnew : ∀ q, q ∈ taken ++ (List.range' (before.length + g.length) v.length ++ later) ↔
      q ∈ taken ∨ (before.length + g.length ≤ q ∧ q < before.length + g.length + v.length) ∨ q ∈ later := by
    intro q
    rw [List.mem_append, List.mem_append, List.mem_range'_1]
  apply Shows.placed_append g
  · intro i hi hmem
    rcases (hnew _).mp hmem with hmem | hmem | hmem
    · exact kept i hi hmem
    · omega
    · have := hlater _ hmem
      omega
  · rw [← List.append_assoc v e r]
    refine .mask (before ++ g) (v ++ e) (by simp [hvalue]) (fun i hi => (hnew _).mpr ?_) sides ?_
    · rw [List.length_append] at hi ⊢
      by_cases hin : i < v.length
      · exact .inr (.inl (by omega))
      · left
        have hextra := extra (i - v.length) (by omega)
        have hplace : before.length + (g.length + v.length) + (i - v.length) = before.length + g.length + i := by omega
        rw [hplace] at hextra
        exact hextra
    · rw [List.append_assoc]
      refine htail.congr fun q hq => ?_
      rw [List.length_append, List.length_append, List.length_append] at hq
      rw [List.mem_append]
      refine ⟨fun hor => (hnew q).mpr (hor.imp_right .inr), fun hmem => ?_⟩
      rcases (hnew q).mp hmem with hmem | hmem | hmem
      · exact .inl hmem
      · omega
      · exact .inr hmem

/-- **A replacement covers the values that count**: what it makes of what shows a text shows the text with these
values taken besides. -/
theorem Shows.pass (hp : Steady mark side side' edge p)
    {before s : List Char} {t : List (Char × Option Nat)} (h : Shows mark side taken before s t) {prev : Option Char}
    (hprev : prev = before.getLast? ∨ ∀ c ∈ s.head?, edge c = false) :
    Passes mark side' taken p prev before s t := by
  induction hn : s.length using Nat.strongRecOn generalizing before s t prev with
  | ind n ih =>
    subst hn
    cases h with
    | nil =>
      rw [Passes, trace_nil]
      exact .nil before
    | mask _ v nonempty within sides tail =>
      have := List.length_pos_iff.mpr nonempty
      exact passes_mask hp nonempty within sides
        (ih _ (by rw [List.length_append]; omega) tail (.inr (hp.sides _ _ _ sides).2) rfl)
    | keep _ c free tail =>
      have hnext := @ih _ (by simp) _ _ _ tail (some c) (.inl (by simp)) rfl
      rcases hprev with rfl | hedge
      · rcases hp.agree _ _ _ _ _ free tail with ⟨here, there⟩ |
          ⟨g, v, e, r, w, t', here, text, there, kept, extra, sides, edges, htail⟩
        · exact passes_keep free here there hnext
        · have hvalue : v ≠ [] := hp.proper _ _ _ (mem_of_firstMatch here)
          have hread : c :: _ = g ++ v ++ (e ++ r) := firstMatch_text here
          have hw : w.map Prod.fst ≠ [] := hp.proper _ _ _ (mem_of_firstMatch there)
          have hlength := congrArg List.length hread
          have hpos := List.length_pos_iff.mpr hvalue
          rw [List.length_append, List.length_append, List.length_append] at hlength
          rw [text] at there ⊢
          rw [hread, List.append_assoc] at here ⊢
          refine passes_both hp.proper free here there kept extra sides (ih _ (by omega) htail ?_ rfl)
          rw [getLast?_append_lastOr, lastOr_append, lastOr_append, lastOr_of_ne_nil hw,
            lastOr_of_ne_nil (s := v ++ e) (by simp [hvalue])]
          exact edges
      · exact passes_keep free (hp.start _ _ _ (hedge c rfl)) (hp.start _ _ _ (hedge c rfl)) hnext

/-- **Alone a pattern replaces its values**: exactly their places are gone. -/
theorem mem_tags_alone (hp : Steady mark side side' edge p) {s : List Char} {place : Nat} (h : place < s.length) :
    place ∈ tags (p.trace mark none 0 (placed 0 s)) ↔ place ∉ (p.alone s).flatten :=
  ((Shows.refl mark side [] s).pass hp (.inl rfl)).mem_tags (Nat.zero_le _) (by simpa using h)

end Pass

end Shows

/-! ## Windows -/

/-- The expression tests no neighbour but for word boundaries. -/
def Nearby : Regex → Prop
  | .assert _ => False
  | .seq a b => Nearby a ∧ Nearby b
  | .alt a b => Nearby a ∧ Nearby b
  | .opt r => Nearby r
  | _ => True

theorem nearby_of_free {r : Regex} (h : Free r) : Nearby r := by
  induction r with
  | char p => trivial
  | many p n => trivial
  | lazily p n => trivial
  | boundary word => trivial
  | assert test => exact h
  | seq a b iha ihb => exact ⟨iha h.1, ihb h.2⟩
  | alt a b iha ihb => exact ⟨iha h.1, ihb h.2⟩
  | opt r ih => exact ih h

/-- The same match within `z`, before `y` and before `y'`. -/
def Same (z y y' : List Char) (m m' : List Char × List Char) : Prop :=
  m'.1 = m.1 ∧ ∃ z', z = m.1 ++ z' ∧ m.2 = z' ++ y ∧ m'.2 = z' ++ y'

theorem same_nil (z y y' : List Char) : Same z y y' ([], z ++ y) ([], z ++ y') := ⟨rfl, z, rfl, rfl, rfl⟩

section Window

variable {C : Char → Prop} {y y' : List Char}

theorem runMany_window {p : Char → Bool} (hp : ∀ c, p c = true → C c) (hy : ∀ c ∈ y.head?, ¬ C c)
    (hhead : y'.head? = y.head?) (z : List Char) (n : Nat) :
    List.Forall₂ (Same z y y') (runMany p n (z ++ y)) (runMany p n (z ++ y')) := by
  have hstop : List.Forall₂ (Same z y y') (if n = 0 then [([], z ++ y)] else [])
      (if n = 0 then [([], z ++ y')] else []) := by
    split
    · exact .cons (same_nil z y y') .nil
    · exact .nil
  induction z generalizing n with
  | nil =>
    cases y with
    | nil =>
      obtain rfl := List.head?_eq_none_iff.mp hhead
      exact hstop
    | cons d y =>
      obtain ⟨y', rfl⟩ := List.head?_eq_some_iff.mp hhead
      have hd : p d = false := by
        by_contra hpd
        exact hy d rfl (hp d (by simpa using hpd))
      simp only [List.nil_append, runMany, hd, Bool.false_eq_true, if_false] at hstop ⊢
      exact hstop
  | cons c z ih =>
    simp only [List.cons_append, runMany] at hstop ⊢
    refine List.rel_append ?_ hstop
    split
    · refine List.rel_map ?_ (ih (n - 1) (by
        split
        · exact .cons (same_nil z y y') .nil
        · exact .nil))
      rintro ⟨m, s⟩ ⟨m', s'⟩ ⟨hm, z', hz, hs, hs'⟩
      simp only at hm hz hs hs'
      exact ⟨by rw [hm], z', by rw [hz, List.cons_append], hs, hs'⟩
    · exact .nil

/-- **An expression lists the same matches before two texts that begin with the same character**, if it cannot match
that character. -/
theorem run_window {r : Regex} (hover : Over C r) (hnear : Nearby r) (hy : ∀ c ∈ y.head?, ¬ C c)
    (hhead : y'.head? = y.head?) (prev : Option Char) (z : List Char) :
    List.Forall₂ (Same z y y') (run r prev (z ++ y)) (run r prev (z ++ y')) := by
  induction r generalizing prev z with
  | char p =>
    cases z with
    | nil =>
      cases y with
      | nil =>
        obtain rfl := List.head?_eq_none_iff.mp hhead
        exact .nil
      | cons d y =>
        obtain ⟨y', rfl⟩ := List.head?_eq_some_iff.mp hhead
        have hd : p d = false := by
          by_contra hpd
          exact hy d rfl (hover d (by simpa using hpd))
        simp only [List.nil_append, run, hd, Bool.false_eq_true, if_false]
        exact .nil
    | cons c z =>
      simp only [List.cons_append, run]
      split
      · exact .cons ⟨rfl, z, rfl, rfl, rfl⟩ .nil
      · exact .nil
  | many p n => exact runMany_window hover hy hhead z n
  | lazily p n => exact List.rel_reverse (runMany_window hover hy hhead z n)
  | boundary word =>
    have hedge : atBoundary word prev (z ++ y') = atBoundary word prev (z ++ y) := by
      rw [atBoundary, atBoundary, List.head?_append, List.head?_append, hhead]
    simp only [run, hedge]
    split
    · exact .cons (same_nil z y y') .nil
    · exact .nil
  | assert test => exact hnear.elim
  | seq a b iha ihb =>
    refine List.rel_flatMap (iha hover.1 hnear.1 prev z) ?_
    rintro ⟨m, s⟩ ⟨m', s'⟩ ⟨hm, z', rfl, hs, hs'⟩
    simp only at hm hs hs'
    subst hm hs hs'
    refine List.rel_map ?_ (ihb hover.2 hnear.2 (lastOr prev m') z')
    rintro ⟨k, s⟩ ⟨k', s'⟩ ⟨hk, z₂, rfl, hs, hs'⟩
    simp only at hk hs hs'
    exact ⟨by rw [hk], z₂, (List.append_assoc _ _ _).symm, hs, hs'⟩
  | alt a b iha ihb => exact List.rel_append (iha hover.1 hnear.1 prev z) (ihb hover.2 hnear.2 prev z)
  | opt r ih => exact List.rel_append (ih hover hnear prev z) (.cons (same_nil z y y') .nil)

end Window

end CodexMemory.Regex
