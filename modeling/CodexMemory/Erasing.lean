import CodexMemory.Tracing

/-!
# Erasing the matches of an expression

The matches of an expression are replaced by a mark in brackets that no match can contain.

* `search_sub`: afterwards nothing is found any more;
* `sub_sub`: a second replacement changes nothing;
* `search_cut`: nothing is found in a beginning of such a text that another character ends.
-/

namespace CodexMemory.Regex

/-! ## Greedy expressions -/

/-- What follows the preferred match does not begin with the class. -/
def Greedy (p : Char → Bool) (r : Regex) : Prop :=
  ∀ prev s m, (run r prev s).head? = some m → ∀ c ∈ m.2.head?, p c = false

theorem greedy_many (p : Char → Bool) (n : Nat) : Greedy p (.many p n) :=
  fun _ _ _ h => runMany_head h

theorem Greedy.right {p : Char → Bool} {b : Regex} (hb : Greedy p b) (a : Regex) : Greedy p (.seq a b) := by
  intro prev s m h
  rw [run, List.head?_flatMap] at h
  obtain ⟨first, -, hfirst⟩ := List.exists_of_findSome?_eq_some h
  rw [List.head?_map] at hfirst
  obtain ⟨second, hsecond, rfl⟩ := Option.map_eq_some_iff.mp hfirst
  exact hb (lastOr prev first.1) first.2 second hsecond

theorem Greedy.either {p : Char → Bool} {a b : Regex} (ha : Greedy p a) (hb : Greedy p b) : Greedy p (.alt a b) := by
  intro prev s m h
  rw [run, List.head?_append] at h
  rcases Option.or_eq_some_iff.mp h with h | ⟨-, h⟩
  · exact ha _ _ _ h
  · exact hb _ _ _ h

theorem Greedy.mono {p q : Char → Bool} {r : Regex} (h : Greedy p r) (hpq : ∀ c, q c = true → p c = true) :
    Greedy q r := by
  intro prev s m hm c hc
  cases hq : q c with
  | false => rfl
  | true => rw [← h prev s m hm c hc, hpq c hq]

/-! ## Marks in brackets -/

/-- An expression whose matches cannot overlap a mark between two brackets. -/
structure Erasable (opening closing : Char) (inner : List Char) where
  expression : Regex
  starts : Char → Bool
  /-- A match begins with a character of its class. -/
  start : ∀ {prev v b}, Matches expression prev v b → ∃ c v', v = c :: v' ∧ starts c = true
  /-- A match has no bracket, and a character that the mark does not have. -/
  unmarked : ∀ {prev v b}, Matches expression prev v b → opening ∉ v ∧ closing ∉ v ∧ ∃ c ∈ v, c ∉ inner
  /-- A match does not depend on what follows it. -/
  moves : ∀ {prev v b} (b' : List Char), Matches expression prev v b → Matches expression prev v b'
  greedy : Greedy starts expression

namespace Erasable

variable {opening closing : Char} {inner : List Char} (e : Erasable opening closing inner)

/-- The mark. -/
def mark (opening closing : Char) (inner : List Char) : List Char := opening :: (inner ++ [closing])

/-- The pattern that is replaced. -/
def pattern : Pattern := .whole e.expression

theorem solid : Solid e.expression := by
  intro prev m rest h
  obtain ⟨c, v, rfl, -⟩ := e.start h
  exact List.cons_ne_nil c v

theorem proper : e.pattern.Proper := fun _ _ _ h => e.solid _ _ _ (mem_matchesAt_whole.mp h).2.2

theorem firstMatch_cases {prev : Option Char} {s : List Char} {f : Found} (h : e.pattern.firstMatch prev s = some f) :
    f.kept = [] ∧ s = f.value ++ f.rest ∧ Matches e.expression prev f.value f.rest ∧
      ∀ c ∈ f.rest.head?, e.starts c = false := by
  obtain ⟨hkept, hs, hmatch⟩ := mem_matchesAt_whole.mp (mem_of_firstMatch h)
  refine ⟨hkept, hs, hmatch, ?_⟩
  rw [Pattern.firstMatch, pattern, Pattern.matchesAt, List.head?_map] at h
  obtain ⟨m, hm, rfl⟩ := Option.map_eq_some_iff.mp h
  exact e.greedy prev s m hm

/-- A text without brackets at the beginning of the result stood at the beginning before. -/
theorem scan_unmarked {prev : Option Char} {s v b : List Char} (hfree : opening ∉ v)
    (h : e.pattern.scan (mark opening closing inner) prev 0 s = v ++ b) : ∃ b', s = v ++ b' := by
  induction prev, s using scan_induction e.proper generalizing v with
  | nil prev =>
    rw [scan_nil] at h
    rw [(List.append_eq_nil_iff.mp h.symm).1]
    exact ⟨[], rfl⟩
  | keep prev c s hnone ih =>
    rw [scan_keep hnone] at h
    cases v with
    | nil => exact ⟨c :: s, rfl⟩
    | cons d v =>
      obtain ⟨rfl, htail⟩ := List.cons.inj h
      obtain ⟨b', rfl⟩ := ih (fun hmem => hfree (List.mem_cons_of_mem _ hmem)) htail
      exact ⟨b', rfl⟩
  | replace prev s f hf ih =>
    cases v with
    | nil => exact ⟨s, rfl⟩
    | cons d v =>
      rw [scan_replace e.proper hf, (e.firstMatch_cases hf).1, List.nil_append, mark, List.cons_append] at h
      obtain ⟨rfl, -⟩ := List.cons.inj h
      exact absurd List.mem_cons_self hfree

/-- A match does not overlap a mark that it meets, and so comes after it. -/
theorem after_mark {prev : Option Char} {x v b z : List Char} (hv : Matches e.expression prev v b)
    (h : mark opening closing inner ++ z = x ++ (v ++ b)) :
    ∃ x', x = mark opening closing inner ++ x' ∧ z = x' ++ (v ++ b) := by
  obtain ⟨hopening, hclosing, c, hc, hother⟩ := e.unmarked hv
  rcases List.append_eq_append_iff.mp h with ⟨x', hx, hz⟩ | ⟨t, hmark, htext⟩
  · exact ⟨x', hx, hz⟩
  · obtain rfl | ⟨t, last, rfl⟩ := List.eq_nil_or_concat t
    · rw [List.append_nil] at hmark
      exact ⟨[], by rw [hmark, List.append_nil], htext.symm⟩
    exfalso
    rw [List.concat_eq_append] at hmark htext
    cases x with
    | nil =>
      -- the match would begin with the bracket
      rw [List.nil_append] at hmark
      obtain ⟨d, v', rfl, -⟩ := e.start hv
      rw [← hmark, mark, List.cons_append, List.cons_append] at htext
      obtain ⟨rfl, -⟩ := List.cons.inj htext
      exact hopening List.mem_cons_self
    | cons d x =>
      rw [mark, List.cons_append, ← List.append_assoc] at hmark
      obtain ⟨hinner, hlast⟩ := List.append_inj' (List.cons.inj hmark).2 rfl
      rw [← hlast, List.append_assoc, List.singleton_append] at htext
      have hnot : c ∉ t := fun hmem => hother (by rw [hinner]; exact List.mem_append_right _ hmem)
      -- the match would lie between the brackets, or contain the second one
      rcases List.append_eq_append_iff.mp htext with ⟨r, ht, -⟩ | ⟨r, hv', hz⟩
      · exact hnot (by rw [ht]; exact List.mem_append_left _ hc)
      · cases r with
        | nil =>
          rw [List.append_nil] at hv'
          exact hnot (by rw [← hv']; exact hc)
        | cons d' r =>
          obtain ⟨rfl, -⟩ := List.cons.inj hz
          exact hclosing (by rw [hv']; exact List.mem_append_right _ List.mem_cons_self)

/-- **After the scan nothing is found**, if the text before it differs only where no match begins. -/
theorem not_matches_scan {prev : Option Char} {s : List Char} (prev' : Option Char)
    (hedge : ∀ c ∈ s.head?, e.starts c = true → prev' = prev) {x v b : List Char}
    (h : e.pattern.scan (mark opening closing inner) prev 0 s = x ++ (v ++ b)) :
    ¬Matches e.expression (lastOr prev' x) v b := by
  induction prev, s using scan_induction e.proper generalizing prev' x with
  | nil prev =>
    intro hv
    rw [scan_nil] at h
    obtain ⟨c, v', rfl, -⟩ := e.start hv
    simp at h
  | keep prev c s hnone ih =>
    intro hv
    cases x with
    | nil =>
      -- the match would have been found here
      rw [List.nil_append] at h
      obtain ⟨b', hs⟩ := e.scan_unmarked (e.unmarked hv).1 h
      obtain ⟨d, v', rfl, hd⟩ := e.start hv
      rw [List.cons_append] at hs
      obtain ⟨rfl, -⟩ := List.cons.inj hs
      rw [lastOr_nil, hedge c rfl hd] at hv
      exact firstMatch_eq_none.mp hnone ⟨[], c :: v', b'⟩ (mem_matchesAt_whole.mpr ⟨rfl, hs, e.moves b' hv⟩)
    | cons d x =>
      rw [scan_keep hnone, List.cons_append] at h
      obtain ⟨rfl, htail⟩ := List.cons.inj h
      rw [lastOr_cons] at hv
      exact ih (some c) (fun _ _ _ => rfl) htail hv
  | replace prev s f hf ih =>
    intro hv
    obtain ⟨hkept, -, -, hrest⟩ := e.firstMatch_cases hf
    rw [scan_replace e.proper hf, hkept, List.nil_append] at h
    obtain ⟨x', rfl, htail⟩ := e.after_mark hv h
    rw [lastOr_append] at hv
    rw [hkept] at ih
    refine ih (lastOr prev' (mark opening closing inner)) (fun c hc hstarts => ?_) htail hv
    rw [hrest c hc] at hstarts
    cases hstarts

/-- **Nothing is found in a text after its matches are replaced.** -/
theorem search_sub (s : List Char) :
    search e.expression none (e.pattern.sub (mark opening closing inner) s) = false := by
  rw [Bool.eq_false_iff]
  intro h
  obtain ⟨x, v, b, hs, hv⟩ := search_iff.mp h
  exact e.not_matches_scan none (fun _ _ _ => rfl) hs hv

/-- Nothing is found in a text of the characters of the mark. -/
theorem search_of_marks {s : List Char} (h : ∀ c ∈ s, c ∈ mark opening closing inner) :
    search e.expression none s = false := by
  rw [Bool.eq_false_iff]
  intro hfound
  obtain ⟨x, v, b, rfl, hv⟩ := search_iff.mp hfound
  obtain ⟨hopening, hclosing, c, hc, hother⟩ := e.unmarked hv
  have hmark := h c (by simp [hc])
  rw [mark, List.mem_cons, List.mem_append, List.mem_singleton] at hmark
  rcases hmark with rfl | hmark | rfl
  · exact hopening hc
  · exact hother hmark
  · exact hclosing hc

theorem sub_of_not_search {s : List Char} (h : search e.expression none s = false) :
    e.pattern.sub (mark opening closing inner) s = s := Regex.sub_of_not_search e.solid h

/-- **A second replacement changes nothing.** -/
theorem sub_sub (s : List Char) :
    e.pattern.sub (mark opening closing inner) (e.pattern.sub (mark opening closing inner) s) =
      e.pattern.sub (mark opening closing inner) s := e.sub_of_not_search (e.search_sub s)

/-- What is found changes the text. -/
theorem sub_ne_self {s : List Char} (h : search e.expression none s = true) :
    e.pattern.sub (mark opening closing inner) s ≠ s := by
  intro hsame
  have hnone := e.search_sub s
  rw [hsame, h] at hnone
  cases hnone

/-- **Nothing is found in a beginning of such a text**, nor with a character at its end that is in no match. -/
theorem search_cut {s p : List Char} {c : Char} (h : search e.expression none s = false) (hp : p <+: s)
    (hc : ∀ {prev v b}, Matches e.expression prev v b → c ∉ v) : search e.expression none (p ++ [c]) = false := by
  rw [Bool.eq_false_iff]
  intro hfound
  obtain ⟨x, v, b, hs, hv⟩ := search_iff.mp hfound
  obtain ⟨q, rfl⟩ := hp
  have hin : ∃ b', p = x ++ (v ++ b') := by
    obtain rfl | ⟨b, last, rfl⟩ := List.eq_nil_or_concat b
    · -- the match would end with the character
      obtain ⟨v', last, rfl⟩ : ∃ v' last, v = v' ++ [last] :=
        ⟨v.dropLast, v.getLast (e.solid _ _ _ hv), (List.dropLast_append_getLast _).symm⟩
      rw [List.append_nil, ← List.append_assoc] at hs
      have hlast := (List.append_inj' hs rfl).2
      refine absurd ?_ (hc hv)
      rw [(List.cons.inj hlast).1]
      exact List.mem_append_right _ (List.mem_singleton_self _)
    · rw [List.concat_eq_append, ← List.append_assoc, ← List.append_assoc] at hs
      exact ⟨b, by rw [(List.append_inj' hs rfl).1, List.append_assoc]⟩
  obtain ⟨b', rfl⟩ := hin
  have hfoundIn : search e.expression none (x ++ (v ++ b') ++ q) = true :=
    search_iff.mpr ⟨x, v, b' ++ q, by simp only [List.append_assoc], e.moves _ hv⟩
  rw [h] at hfoundIn
  cases hfoundIn

end Erasable

end CodexMemory.Regex
