import CodexMemory.Regex

/-!
# Masking the matches of patterns, one pattern after another

A pattern masks a text when it replaces the values that it finds by a mark.
`Masks` is what a pattern may do to a text, and `Guarded` says that every value
in a text is the mark already.

* `guarded_sub`: a pattern that keeps a group before its value leaves a guarded
  text behind;
* `guarded_of_masks`: what later patterns mask does not undo that;
* `settled_of_guarded`: in a guarded text every match is the mark;
* `absent_sub`: a pattern without a group leaves none of its matches behind.
-/

namespace CodexMemory.Masking

open Regex

/-! ## Masked texts -/

/-- A run of the class `run` between `prev` and `rest` that may be masked: it
does not cut a word, and it neither begins nor goes on inside a mark. -/
structure Maskable (word run : Char → Bool) (mark : List Char) (prev : Option Char)
    (value rest : List Char) : Prop where
  nonempty : value ≠ []
  inside : ∀ c ∈ value, run c = true
  left : ∀ c ∈ value.head?, word c = true → prev.any word = false
  right : ∀ c ∈ rest.head?, word c = true → (lastOr prev value).any word = false
  whole : (∀ c ∈ value.head?, c ∉ mark) ∨
    ((∀ c ∈ rest.head?, run c = false) ∧ ∀ c ∈ prev, c ∉ mark)

/-- The second text is the first, which follows `prev`, with some runs masked. -/
inductive Masks (word run : Char → Bool) (mark : List Char) :
    Option Char → List Char → List Char → Prop
  | nil (prev : Option Char) : Masks word run mark prev [] []
  | keep (prev : Option Char) (c : Char) {s s' : List Char} (tail : Masks word run mark (some c) s s') :
      Masks word run mark prev (c :: s) (c :: s')
  | mask (prev : Option Char) (value : List Char) {s s' : List Char}
      (maskable : Maskable word run mark prev value s)
      (tail : Masks word run mark (lastOr prev value) s s') :
      Masks word run mark prev (value ++ s) (mark ++ s')

/-- The mark stands between other words. -/
structure Separate (word : Char → Bool) (mark : List Char) : Prop where
  nonempty : mark ≠ []
  head : ∀ c ∈ mark.head?, word c = false
  last : ∀ c ∈ mark.getLast?, word c = false

section Texts

variable {word run value : Char → Bool} {mark : List Char}

/-- A text without characters of the mark lies after a mark that it meets. -/
theorem after_mark {x g b z : List Char} (hg : g ≠ []) (hfree : ∀ c ∈ g, c ∉ mark)
    (h : mark ++ z = x ++ (g ++ b)) : ∃ x₁, x = mark ++ x₁ ∧ z = x₁ ++ (g ++ b) := by
  rcases List.append_eq_append_iff.mp h with ⟨x₁, hx, hz⟩ | ⟨t, hmark, htext⟩
  · exact ⟨x₁, hx, hz⟩
  · cases t with
    | nil =>
      rw [List.append_nil] at hmark
      rw [List.nil_append] at htext
      exact ⟨[], by rw [hmark, List.append_nil], by rw [List.nil_append, htext]⟩
    | cons d t =>
      obtain ⟨c, g, rfl⟩ := List.exists_cons_of_ne_nil hg
      rw [List.cons_append, List.cons_append] at htext
      obtain ⟨rfl, -⟩ := List.cons.inj htext
      refine absurd ?_ (hfree c List.mem_cons_self)
      rw [hmark]
      exact List.mem_append_right _ List.mem_cons_self

/-- A text without characters of the mark ends before a mark that follows it. -/
theorem before_mark {a g b z : List Char} (hfree : ∀ c ∈ g, c ∉ mark) (hmark : mark ≠ [])
    (h : g ++ b = a ++ (mark ++ z)) : ∃ t, a = g ++ t ∧ b = t ++ (mark ++ z) := by
  rcases List.append_eq_append_iff.mp h with ⟨t, ha, hb⟩ | ⟨t, hg, htext⟩
  · exact ⟨t, ha, hb⟩
  · cases t with
    | nil =>
      rw [List.append_nil] at hg
      rw [List.nil_append] at htext
      exact ⟨[], by rw [hg, List.append_nil], by rw [List.nil_append, htext]⟩
    | cons d t =>
      obtain ⟨c, mark', rfl⟩ := List.exists_cons_of_ne_nil hmark
      rw [List.cons_append, List.cons_append] at htext
      obtain ⟨rfl, -⟩ := List.cons.inj htext
      refine absurd List.mem_cons_self (hfree c ?_)
      rw [hg]
      exact List.mem_append_right _ List.mem_cons_self

/-- The run of a class at the beginning of a text is unique. -/
theorem run_unique {v w a b : List Char} (hv : ∀ c ∈ v, run c = true) (hw : ∀ c ∈ w, run c = true)
    (ha : ∀ c ∈ a.head?, run c = false) (hb : ∀ c ∈ b.head?, run c = false)
    (h : v ++ a = w ++ b) : v = w ∧ a = b := by
  induction v generalizing w with
  | nil =>
    cases w with
    | nil => exact ⟨rfl, h⟩
    | cons d w =>
      rw [List.nil_append] at h
      subst h
      have hd := ha d rfl
      rw [hw d List.mem_cons_self] at hd
      cases hd
  | cons c v ih =>
    cases w with
    | nil =>
      rw [List.nil_append] at h
      subst h
      have hc := hb c rfl
      rw [hv c List.mem_cons_self] at hc
      cases hc
    | cons d w =>
      obtain ⟨rfl, htail⟩ := List.cons.inj h
      obtain ⟨rfl, hab⟩ := ih (fun e he => hv e (List.mem_cons_of_mem _ he))
        (fun e he => hw e (List.mem_cons_of_mem _ he)) htail
      exact ⟨rfl, hab⟩

theorem Masks.keep_append (prev : Option Char) (g : List Char) {s s' : List Char}
    (h : Masks word run mark (lastOr prev g) s s') : Masks word run mark prev (g ++ s) (g ++ s') := by
  induction g generalizing prev with
  | nil => exact h
  | cons c g ih =>
    rw [lastOr_cons] at h
    exact Masks.keep prev c (ih (some c) h)

/-- What has no character of the mark was kept. -/
theorem Masks.unmarked (hmark : mark ≠ []) {prev : Option Char} {s g b' : List Char}
    (h : Masks word run mark prev s (g ++ b')) (hfree : ∀ c ∈ g, c ∉ mark) :
    ∃ b, s = g ++ b ∧ Masks word run mark (lastOr prev g) b b' := by
  induction g generalizing prev s with
  | nil => exact ⟨s, rfl, h⟩
  | cons c g ih =>
    generalize hs' : c :: g ++ b' = s' at h
    cases h with
    | nil => cases hs'
    | keep _ d tail =>
      obtain ⟨rfl, rfl⟩ := List.cons.inj hs'
      obtain ⟨b, rfl, hb⟩ := ih tail fun e he => hfree e (List.mem_cons_of_mem _ he)
      exact ⟨b, rfl, by rw [lastOr_cons]; exact hb⟩
    | mask _ v maskable tail =>
      obtain ⟨d, mark', rfl⟩ := List.exists_cons_of_ne_nil hmark
      obtain ⟨rfl, -⟩ := List.cons.inj hs'
      exact absurd List.mem_cons_self (hfree c List.mem_cons_self)

/-- A group without characters of the mark stood in the text before, where it
follows a word character only if it still does. -/
theorem Masks.split (hmark : mark ≠ []) {prev : Option Char} {s s' : List Char}
    (h : Masks word run mark prev s s') (prev' : Option Char)
    (hedge : ∀ c ∈ s.head?, word c = true → prev.any word = true → prev'.any word = true)
    {x' g b' : List Char} (hs' : s' = x' ++ (g ++ b')) (hg : g ≠ []) (hfree : ∀ c ∈ g, c ∉ mark) :
    ∃ x b, s = x ++ (g ++ b) ∧
      (∀ c ∈ g.head?, word c = true → (lastOr prev x).any word = true → (lastOr prev' x').any word = true) ∧
      Masks word run mark (lastOr prev (x ++ g)) b b' := by
  induction h generalizing prev' x' with
  | nil prev =>
    have hnil := List.append_eq_nil_iff.mp (List.append_eq_nil_iff.mp hs'.symm).2
    exact absurd hnil.1 hg
  | keep prev c tail ih =>
    cases x' with
    | nil =>
      rw [List.nil_append] at hs'
      have hwhole := Masks.keep prev c tail
      rw [hs'] at hwhole
      obtain ⟨b, hs, hb⟩ := Masks.unmarked hmark hwhole hfree
      refine ⟨[], b, hs, fun d hd => hedge d ?_, hb⟩
      rw [hs, List.head?_append_of_ne_nil _ hg]
      exact hd
    | cons d x' =>
      rw [List.cons_append] at hs'
      obtain ⟨rfl, htail⟩ := List.cons.inj hs'
      obtain ⟨x, b, rfl, hx, hb⟩ := ih (some c) (fun _ _ _ hword => hword) htail
      refine ⟨c :: x, b, rfl, ?_, ?_⟩
      · rw [lastOr_cons, lastOr_cons]
        exact hx
      · rw [List.cons_append, lastOr_cons]
        exact hb
  | mask prev v maskable tail ih =>
    obtain ⟨x₁, rfl, htail⟩ := after_mark hg hfree hs'
    obtain ⟨x, b, rfl, hx, hb⟩ := ih (lastOr prev' mark) (fun c hc hword hlast => by
      rw [maskable.right c hc hword] at hlast
      cases hlast) htail
    refine ⟨v ++ x, b, by rw [List.append_assoc], ?_, ?_⟩
    · rw [lastOr_append, lastOr_append]
      exact hx
    · rw [List.append_assoc, lastOr_append]
      exact hb

/-- Masking runs of a smaller class puts no value at the head of a text. -/
theorem Masks.head_value (hrun : ∀ c, run c = true → value c = true)
    {prev : Option Char} {s s' : List Char} (h : Masks word run mark prev s s')
    (hs' : ∃ c ∈ s'.head?, value c = true) : ∃ c ∈ s.head?, value c = true := by
  cases h with
  | nil => exact hs'
  | keep _ c tail => exact hs'
  | mask _ v maskable tail =>
    obtain ⟨c, v, rfl⟩ := List.exists_cons_of_ne_nil maskable.nonempty
    exact ⟨c, rfl, hrun c (maskable.inside c List.mem_cons_self)⟩

theorem Masks.head_no_value (hrun : ∀ c, run c = true → value c = true)
    {prev : Option Char} {s s' : List Char} (h : Masks word run mark prev s s')
    (hs : ∀ c ∈ s.head?, value c = false) : ∀ c ∈ s'.head?, value c = false := by
  intro c hc
  by_contra hvalue
  obtain ⟨d, hd, hvalue'⟩ := h.head_value hrun ⟨c, hc, by simpa using hvalue⟩
  rw [hs d hd] at hvalue'
  cases hvalue'

/-- Masking makes no word boundary. -/
theorem Masks.atBoundary (hmark : Separate word mark) {prev : Option Char} {s s' : List Char}
    (h : Masks word run mark prev s s') (hs' : atBoundary word prev s' = true) :
    Regex.atBoundary word prev s = true := by
  cases h with
  | nil => exact hs'
  | keep _ c tail => exact hs'
  | mask _ v maskable tail =>
    obtain ⟨c, v, rfl⟩ := List.exists_cons_of_ne_nil maskable.nonempty
    obtain ⟨d, mark', hd⟩ := List.exists_cons_of_ne_nil hmark.nonempty
    have hhead : word d = false := hmark.head d (by rw [hd]; rfl)
    simp only [Regex.atBoundary, hd, List.cons_append, List.head?_cons, Option.any_some, hhead] at hs' ⊢
    cases hword : word c with
    | false => exact hs'
    | true =>
      rw [maskable.left c rfl hword] at hs'
      cases hs'

/-- A text that cannot be masked at its characters is kept. -/
theorem Masks.kept {prev : Option Char} {w r b' : List Char}
    (hw : ∀ c ∈ w, run c = false) (h : Masks word run mark prev (w ++ r) b') :
    ∃ r', b' = w ++ r' ∧ Masks word run mark (lastOr prev w) r r' := by
  induction w generalizing prev b' with
  | nil => exact ⟨b', rfl, h⟩
  | cons c w ih =>
    generalize hs : c :: w ++ r = s at h
    cases h with
    | nil => cases hs
    | keep _ d tail =>
      obtain ⟨rfl, rfl⟩ := List.cons.inj hs
      obtain ⟨r', rfl, hr⟩ := ih (fun e he => hw e (List.mem_cons_of_mem _ he)) tail
      exact ⟨r', rfl, by rw [lastOr_cons]; exact hr⟩
    | mask _ v maskable tail =>
      obtain ⟨d, v, rfl⟩ := List.exists_cons_of_ne_nil maskable.nonempty
      obtain ⟨rfl, -⟩ := List.cons.inj hs
      have hin := maskable.inside c List.mem_cons_self
      rw [hw c List.mem_cons_self] at hin
      cases hin

/-- Inside a word nothing is masked. -/
theorem Masks.kept_word {prev : Option Char} (hprev : prev.any word = true) {u r b' : List Char}
    (hu : ∀ c ∈ u, word c = true) (h : Masks word run mark prev (u ++ r) b') :
    ∃ r', b' = u ++ r' ∧ Masks word run mark (lastOr prev u) r r' := by
  induction u generalizing prev b' with
  | nil => exact ⟨b', rfl, h⟩
  | cons c u ih =>
    generalize hs : c :: u ++ r = s at h
    cases h with
    | nil => cases hs
    | keep _ d tail =>
      obtain ⟨rfl, rfl⟩ := List.cons.inj hs
      have hc : (some c).any word = true := hu c List.mem_cons_self
      obtain ⟨r', rfl, hr⟩ := ih hc (fun e he => hu e (List.mem_cons_of_mem _ he)) tail
      exact ⟨r', rfl, by rw [lastOr_cons]; exact hr⟩
    | mask _ v maskable tail =>
      obtain ⟨d, v, rfl⟩ := List.exists_cons_of_ne_nil maskable.nonempty
      obtain ⟨rfl, -⟩ := List.cons.inj hs
      have hleft := maskable.left c rfl (hu c List.mem_cons_self)
      rw [hprev] at hleft
      cases hleft

/-- Inside a mark nothing is masked. -/
theorem Masks.kept_mark {prev : Option Char} (hprev : ∃ c ∈ prev, c ∈ mark) {t r b' : List Char}
    (ht : ∀ c ∈ t, c ∈ mark) (h : Masks word run mark prev (t ++ r) b') :
    ∃ r', b' = t ++ r' ∧ Masks word run mark (lastOr prev t) r r' := by
  induction t generalizing prev b' with
  | nil => exact ⟨b', rfl, h⟩
  | cons c t ih =>
    generalize hs : c :: t ++ r = s at h
    cases h with
    | nil => cases hs
    | keep _ d tail =>
      obtain ⟨rfl, rfl⟩ := List.cons.inj hs
      have hc : ∃ e ∈ some c, e ∈ mark := ⟨c, rfl, ht c List.mem_cons_self⟩
      obtain ⟨r', rfl, hr⟩ := ih hc (fun e he => ht e (List.mem_cons_of_mem _ he)) tail
      exact ⟨r', rfl, by rw [lastOr_cons]; exact hr⟩
    | mask _ v maskable tail =>
      obtain ⟨d, v, rfl⟩ := List.exists_cons_of_ne_nil maskable.nonempty
      obtain ⟨rfl, -⟩ := List.cons.inj hs
      rcases maskable.whole with hhead | ⟨-, hbefore⟩
      · exact absurd (ht c List.mem_cons_self) (hhead c rfl)
      · obtain ⟨e, he, hmem⟩ := hprev
        exact absurd hmem (hbefore e he)

/-! ## Guarded texts -/

/-- The text begins with the mark as a whole value. -/
def Marked (value : Char → Bool) (mark b : List Char) : Prop :=
  ∃ rest, b = mark ++ rest ∧ ∀ c ∈ rest.head?, value c = false

/-- After every group, or after a longer one that is there, every value is the mark. -/
def GuardedAfter (before : Regex) (value : Char → Bool) (mark : List Char) (prev : Option Char)
    (s : List Char) : Prop :=
  ∀ x g b, s = x ++ (g ++ b) → Matches before (lastOr prev x) g b → (∃ c ∈ b.head?, value c = true) →
    ∃ m r, b = m ++ r ∧ Matches before (lastOr prev x) (g ++ m) r ∧ Marked value mark r

/-- A whole text that is guarded. -/
def Guarded (before : Regex) (value : Char → Bool) (mark s : List Char) : Prop :=
  GuardedAfter before value mark none s

/-- **A mark stays a mark under what other patterns mask.** -/
theorem Masks.marked (hmark : mark ≠ []) (hrun : ∀ c, run c = true → value c = true)
    (hall : (∃ c ∈ mark, run c = true) → ∀ c ∈ mark, run c = true)
    {prev : Option Char} {b b' : List Char} (h : Masks word run mark prev b b')
    (hb : Marked value mark b) : Marked value mark b' := by
  obtain ⟨r, rfl, hr⟩ := hb
  obtain ⟨d, mark', hd⟩ := List.exists_cons_of_ne_nil hmark
  have hdmark : d ∈ mark := by
    rw [hd]
    exact List.mem_cons_self
  generalize hs : mark ++ r = s at h
  cases h with
  | nil =>
    rw [List.append_eq_nil_iff] at hs
    exact absurd hs.1 hmark
  | keep _ c tail =>
    rw [hd, List.cons_append] at hs
    obtain ⟨rfl, rfl⟩ := List.cons.inj hs
    obtain ⟨r', rfl, hmasks⟩ := tail.kept_mark ⟨d, rfl, hdmark⟩ (fun c hc => by
      rw [hd]
      exact List.mem_cons_of_mem _ hc)
    refine ⟨r', by rw [hd, List.cons_append], hmasks.head_no_value hrun hr⟩
  | mask _ v maskable tail =>
    -- the value that is masked is the whole mark
    obtain ⟨c, v, rfl⟩ := List.exists_cons_of_ne_nil maskable.nonempty
    have hc : d = c := by
      rw [hd] at hs
      exact (List.cons.inj hs).1
    subst hc
    rcases maskable.whole with hhead | ⟨hrest, -⟩
    · exact absurd hdmark (hhead d rfl)
    · have hin := hall ⟨d, hdmark, maskable.inside d List.mem_cons_self⟩
      have hr' : ∀ c ∈ r.head?, run c = false := by
        intro c hc
        by_contra hcr
        have hvalue := hrun c (by simpa using hcr)
        rw [hr c hc] at hvalue
        cases hvalue
      obtain ⟨-, rfl⟩ := run_unique hin maskable.inside hr' hrest hs
      exact ⟨_, rfl, tail.head_no_value hrun hr⟩

/-- A longer group stays, or its first word is masked. -/
theorem Masks.longer (hrun : ∀ c, run c = true → value c = true)
    {prev : Option Char} {u w r b' : List Char} (hu : u ≠ []) (huword : ∀ c ∈ u, word c = true)
    (hw : w ≠ []) (hwvalue : ∀ c ∈ w, value c = false)
    (h : Masks word run mark prev (u ++ (w ++ r)) b') :
    (∃ prev' r', b' = u ++ (w ++ r') ∧ Masks word run mark prev' r r') ∨ Marked value mark b' := by
  have hwrun : ∀ c ∈ w, run c = false := by
    intro c hc
    by_contra hcr
    have hvalue := hrun c (by simpa using hcr)
    rw [hwvalue c hc] at hvalue
    cases hvalue
  obtain ⟨c, u, rfl⟩ := List.exists_cons_of_ne_nil hu
  obtain ⟨e, w, rfl⟩ := List.exists_cons_of_ne_nil hw
  generalize hs : c :: u ++ (e :: w ++ r) = s at h
  cases h with
  | nil => cases hs
  | keep _ d tail =>
    obtain ⟨rfl, rfl⟩ := List.cons.inj hs
    have hc : (some c).any word = true := huword c List.mem_cons_self
    obtain ⟨y, rfl, hy⟩ := tail.kept_word hc (fun d hd => huword d (List.mem_cons_of_mem _ hd))
    obtain ⟨r', rfl, hr⟩ := hy.kept hwrun
    exact Or.inl ⟨_, r', rfl, hr⟩
  | mask _ v maskable tail =>
    right
    rcases List.append_eq_append_iff.mp hs with ⟨t, rfl, htail⟩ | ⟨t, hut, htail⟩
    · cases t with
      | nil =>
        rw [List.nil_append] at htail
        subst htail
        obtain ⟨r', rfl, -⟩ := tail.kept hwrun
        exact ⟨_, rfl, fun d hd => by
          cases hd
          exact hwvalue e List.mem_cons_self⟩
      | cons d t =>
        obtain ⟨rfl, -⟩ := List.cons.inj htail
        have hin := maskable.inside e (List.mem_append_right _ List.mem_cons_self)
        rw [hwrun e List.mem_cons_self] at hin
        cases hin
    · cases t with
      | nil =>
        rw [List.nil_append] at htail
        subst htail
        obtain ⟨r', rfl, -⟩ := tail.kept hwrun
        exact ⟨_, rfl, fun d hd => by
          cases hd
          exact hwvalue e List.mem_cons_self⟩
      | cons d t =>
        -- the masked run would end inside the word
        subst htail
        have hd : word d = true := huword d (by
          rw [hut]
          exact List.mem_append_right _ List.mem_cons_self)
        have hlast := maskable.right d rfl hd
        have hmem : ∀ c ∈ v.getLast?, word c = true := fun c hc => huword c (by
          rw [hut]
          exact List.mem_append_left _ (List.mem_of_mem_getLast? hc))
        cases hget : v.getLast? with
        | none => exact absurd (List.getLast?_eq_none_iff.mp hget) maskable.nonempty
        | some l =>
          rw [lastOr, hget, Option.any_some, hmem l hget] at hlast
          cases hlast

end Texts

/-! ## Patterns that keep a group -/

/-- A pattern that keeps the group `before` and masks the run of `value` after
it, with what the theory needs to know of its group. -/
structure Prefixed (word : Char → Bool) (mark : List Char) where
  before : Regex
  value : Char → Bool
  /-- A group is not empty and has no character of the mark. -/
  text : ∀ {prev g b}, Matches before prev g b → g ≠ [] ∧ ∀ c ∈ g, c ∉ mark
  /-- A group does not end with a word character. -/
  ending : ∀ {prev g b}, Matches before prev g b → ∀ c ∈ g.getLast?, word c = false
  /-- A group depends on what follows it in nothing, and on what precedes it
  only where both are word characters. -/
  moves : ∀ {prev prev' g b b'}, Matches before prev' g b' →
    (∀ c ∈ g.head?, word c = true → prev.any word = true → prev'.any word = true) →
    Matches before prev g b
  /-- A group inside a longer one ends where that one ends, or it can be
  continued to its end by a word and characters that are no value. -/
  inner : ∀ {prev prev' x g t b b'}, Matches before prev (x ++ (g ++ t)) b → Matches before prev' g b' →
    (∃ c ∈ t.head?, value c = true) → Matches before prev' (g ++ t) b ∧
      ∃ u w, t = u ++ w ∧ u ≠ [] ∧ (∀ c ∈ u, word c = true) ∧ w ≠ [] ∧ ∀ c ∈ w, value c = false
  /-- The longest group with a value after it is found. -/
  longest : ∀ {prev s f}, (Pattern.keeping before (.many value 1)).firstMatch prev s = some f →
    ∀ m r, f.value ++ f.rest = m ++ r → Matches before prev (f.kept ++ m) r →
      (∃ c ∈ r.head?, value c = true) → m = []
  marks : ∀ c ∈ mark, value c = true
  edges : ∀ c, value c = false → word c = false

/-- Where no group goes on inside a longer one, the longest is found. -/
theorem longest_of_no_inner {before : Regex} {value : Char → Bool}
    (hinner : ∀ {prev prev' x g t b b'}, Matches before prev (x ++ (g ++ t)) b → Matches before prev' g b' →
      ¬ ∃ c ∈ t.head?, value c = true)
    {prev : Option Char} {s : List Char} {f : Found}
    (h : (Pattern.keeping before (.many value 1)).firstMatch prev s = some f)
    {m r : List Char} (hread : f.value ++ f.rest = m ++ r) (hlonger : Matches before prev (f.kept ++ m) r) :
    m = [] := by
  obtain ⟨-, hbefore, hlength, hall⟩ := mem_matchesAt_keeping.mp (mem_of_firstMatch h)
  cases m with
  | nil => rfl
  | cons d m =>
    obtain ⟨c, v, hv⟩ := List.exists_cons_of_ne_nil (List.length_pos_iff.mp hlength)
    rw [hv, List.cons_append, List.cons_append] at hread
    obtain ⟨rfl, -⟩ := List.cons.inj hread
    rw [← List.nil_append (f.kept ++ c :: m)] at hlonger
    refine absurd ⟨c, rfl, hall c ?_⟩ (hinner hlonger hbefore)
    rw [hv]
    exact List.mem_cons_self

namespace Prefixed

variable {word : Char → Bool} {mark : List Char} (p : Prefixed word mark)

/-- The pattern itself. -/
def pattern : Pattern := .keeping p.before (.many p.value 1)

/-- What a match of the pattern is. -/
theorem mem_matchesAt {prev : Option Char} {s : List Char} {f : Found} :
    f ∈ p.pattern.matchesAt prev s ↔ s = f.kept ++ (f.value ++ f.rest) ∧
      Matches p.before prev f.kept (f.value ++ f.rest) ∧ f.value ≠ [] ∧
        ∀ c ∈ f.value, p.value c = true := by
  rw [pattern, mem_matchesAt_keeping, Matches, ← List.length_pos_iff]
  rfl

theorem proper : p.pattern.Proper := fun _ _ _ h => (p.mem_matchesAt.mp h).2.2.1

/-- A found value is a maximal run, and it may be masked. -/
theorem maskable_of_firstMatch {prev : Option Char} {s : List Char} {f : Found}
    (h : p.pattern.firstMatch prev s = some f) :
    Maskable word p.value mark (lastOr prev f.kept) f.value f.rest := by
  obtain ⟨-, hbefore, hvalue, hall⟩ := p.mem_matchesAt.mp (mem_of_firstMatch h)
  have hrest : ∀ c ∈ f.rest.head?, p.value c = false := firstMatch_value_maximal h
  obtain ⟨hkept, hfree⟩ := p.text hbefore
  have hlast := lastOr_of_ne_nil hkept prev
  refine ⟨hvalue, hall, fun c _ _ => ?_, fun c hc hword => ?_, Or.inr ⟨hrest, fun c hc => ?_⟩⟩
  · rw [hlast]
    cases hget : f.kept.getLast? with
    | none => rfl
    | some d => exact p.ending hbefore d hget
  · rw [p.edges c (hrest c hc)] at hword
    cases hword
  · rw [hlast] at hc
    exact hfree c (List.mem_of_mem_getLast? hc)

/-- The scan masks values. -/
theorem scan_masks (prev : Option Char) (s : List Char) :
    Masks word p.value mark prev s (p.pattern.scan mark prev 0 s) := by
  induction prev, s using scan_induction p.proper with
  | nil prev =>
    rw [scan_nil]
    exact Masks.nil prev
  | keep prev c s hnone ih =>
    rw [scan_keep hnone]
    exact Masks.keep prev c ih
  | replace prev s f hf ih =>
    rw [scan_replace p.proper hf]
    have hs := firstMatch_text hf
    rw [List.append_assoc] at hs ⊢
    rw [lastOr_append] at ih
    have hmasks := Masks.keep_append prev f.kept (Masks.mask _ f.value (p.maskable_of_firstMatch hf) ih)
    rw [← hs, ← lastOr_append] at hmasks
    exact hmasks

theorem sub_masks (s : List Char) : Masks word p.value mark none s (p.pattern.sub mark s) :=
  p.scan_masks none s

/-- **After its scan a text is guarded for the pattern.** -/
theorem guarded_sub (hmark : mark ≠ []) (s : List Char) :
    Guarded p.before p.value mark (p.pattern.sub mark s) := by
  suffices hscan : ∀ prev t prev', (∀ c ∈ t.head?, word c = true → prev.any word = true →
      prev'.any word = true) →
      GuardedAfter p.before p.value mark prev' (p.pattern.scan mark prev 0 t) from
    hscan none s none fun _ _ _ h => h
  intro prev t
  induction prev, t using scan_induction p.proper with
  | nil prev =>
    intro prev' hedge x g b hs hg
    rw [scan_nil] at hs
    have hnil := List.append_eq_nil_iff.mp (List.append_eq_nil_iff.mp hs.symm).2
    exact absurd hnil.1 (p.text hg).1
  | keep prev c t hnone ih =>
    intro prev' hedge x g b hs hg hb
    obtain ⟨hgne, hfree⟩ := p.text hg
    cases x with
    | nil =>
      -- the group would have been found here
      exfalso
      have hmasks := p.scan_masks prev (c :: t)
      rw [hs, List.nil_append] at hmasks
      obtain ⟨b₀, hread, hmasks₀⟩ := hmasks.unmarked hmark hfree
      obtain ⟨d, hd, hvalue⟩ := hmasks₀.head_value (fun _ h => h) hb
      have hg₀ : Matches p.before prev g b₀ := p.moves hg fun e he => hedge e (by
        rw [hread, List.head?_append_of_ne_nil _ hgne]
        exact he)
      cases b₀ with
      | nil => cases hd
      | cons e b₀ =>
        cases hd
        refine firstMatch_eq_none.mp hnone ⟨g, [d], b₀⟩ (p.mem_matchesAt.mpr ⟨hread, hg₀, ?_, ?_⟩)
        · exact List.cons_ne_nil d []
        · intro e he
          rw [List.mem_singleton.mp he]
          exact hvalue
    | cons d x =>
      rw [scan_keep hnone, List.cons_append] at hs
      obtain ⟨rfl, htail⟩ := List.cons.inj hs
      rw [lastOr_cons] at hg ⊢
      exact ih (some c) (fun _ _ _ h => h) x g b htail hg hb
  | replace prev t f hf ih =>
    intro prev' hedge x g b hs hg hb
    obtain ⟨hgne, hfree⟩ := p.text hg
    obtain ⟨-, hbefore, -, -⟩ := p.mem_matchesAt.mp (mem_of_firstMatch hf)
    have hrest : ∀ c ∈ f.rest.head?, p.value c = false := firstMatch_value_maximal hf
    rw [scan_replace p.proper hf, List.append_assoc] at hs
    rcases List.append_eq_append_iff.mp hs with ⟨x₁, hx, hafter⟩ | ⟨t₁, hkept, hafter⟩
    · -- the group lies after the mark
      obtain ⟨x₂, rfl, htail⟩ := after_mark hgne hfree hafter
      rw [hx, lastOr_append, lastOr_append] at hg ⊢
      refine ih _ (fun c hc hword => ?_) x₂ g b htail hg hb
      rw [p.edges c (hrest c hc)] at hword
      cases hword
    · -- the group lies within the group that was found
      obtain ⟨t₂, rfl, rfl⟩ := before_mark hfree hmark hafter
      have hmarked : Marked p.value mark
          (mark ++ p.pattern.scan mark (lastOr prev (f.kept ++ f.value)) 0 f.rest) :=
        ⟨_, rfl, (p.scan_masks _ _).head_no_value (fun _ h => h) hrest⟩
      refine ⟨t₂, _, rfl, ?_, hmarked⟩
      cases t₂ with
      | nil =>
        rw [List.append_nil]
        exact hg
      | cons d t₂ =>
        rw [hkept] at hbefore
        exact p.moves (p.inner hbefore hg hb).1 fun _ _ _ h => h

/-- **What later patterns mask leaves a guarded text guarded.** -/
theorem guarded_of_masks (hmark : mark ≠ []) {run : Char → Bool}
    (hrun : ∀ c, run c = true → p.value c = true)
    (hall : (∃ c ∈ mark, run c = true) → ∀ c ∈ mark, run c = true) {s s' : List Char}
    (h : Masks word run mark none s s') (hs : Guarded p.before p.value mark s) :
    Guarded p.before p.value mark s' := by
  intro x' g b' hs' hg' hb'
  obtain ⟨hgne, hfree⟩ := p.text hg'
  obtain ⟨x, b, hread, hedge, hmasks⟩ := h.split hmark none (fun _ _ _ h => h) hs' hgne hfree
  have hb := hmasks.head_value hrun hb'
  have hg : Matches p.before (lastOr none x) g b := p.moves hg' hedge
  obtain ⟨m, r, rfl, hlonger, hmarked⟩ := hs x g b hread hg hb
  cases m with
  | nil => exact ⟨[], b', rfl, by rw [List.append_nil]; exact hg', hmasks.marked hmark hrun hall hmarked⟩
  | cons d m =>
    rw [← List.nil_append (g ++ d :: m)] at hlonger
    obtain ⟨-, u, w, hm, hu, huword, hw, hwvalue⟩ := p.inner hlonger hg' hb
    rw [hm, List.append_assoc] at hmasks
    rcases hmasks.longer hrun hu huword hw hwvalue with ⟨prev', r', rfl, hr⟩ | hmarked'
    · refine ⟨u ++ w, r', by rw [List.append_assoc], ?_, hr.marked hmark hrun hall hmarked⟩
      rw [← hm]
      exact p.moves (p.inner hlonger hg' hb).1 fun _ _ _ h => h
    · exact ⟨[], b', rfl, by rw [List.append_nil]; exact hg', hmarked'⟩

/-- **In a guarded text every match is the mark.** -/
theorem settled_of_guarded (hmark : mark ≠ []) {s : List Char} (hs : Guarded p.before p.value mark s) :
    p.pattern.Settled mark s := by
  intro x y hxy f hf
  obtain ⟨hread, hbefore, hvalue, hall⟩ := p.mem_matchesAt.mp (mem_of_firstMatch hf)
  rw [← lastOr_none] at hbefore hf
  rw [hread] at hxy
  have hhead : ∃ c ∈ (f.value ++ f.rest).head?, p.value c = true := by
    obtain ⟨c, v, hv⟩ := List.exists_cons_of_ne_nil hvalue
    exact ⟨c, by rw [hv]; rfl, hall c (by rw [hv]; exact List.mem_cons_self)⟩
  obtain ⟨m, r, hmr, hlonger, r', rfl, hr'⟩ := hs x f.kept _ hxy hbefore hhead
  have hmarkhead : ∃ c ∈ (mark ++ r').head?, p.value c = true := by
    obtain ⟨c, v, hv⟩ := List.exists_cons_of_ne_nil hmark
    exact ⟨c, by rw [hv]; rfl, p.marks c (by rw [hv]; exact List.mem_cons_self)⟩
  have hm := p.longest hf m _ hmr hlonger hmarkhead
  rw [hm, List.nil_append] at hmr
  exact (run_unique hall p.marks (firstMatch_value_maximal hf) hr' hmr).1

end Prefixed

/-! ## Patterns without a group -/

/-- A pattern that masks its whole match, which has no character of the mark. -/
structure Bare (word : Char → Bool) (mark : List Char) where
  expression : Regex
  run : Char → Bool
  text : ∀ {prev v b}, Matches expression prev v b → v ≠ [] ∧ ∀ c ∈ v, run c = true
  left : ∀ {prev v b}, Matches expression prev v b →
    ∀ c ∈ v.head?, word c = true → prev.any word = false
  right : ∀ {prev v b}, Matches expression prev v b →
    ∀ c ∈ b.head?, word c = true → v.getLast?.any word = false
  /-- A match depends on its neighbours only by the word boundaries. -/
  moves : ∀ {prev prev' v b b'}, Matches expression prev' v b' →
    (∀ c ∈ v.head?, word c = true → prev.any word = true → prev'.any word = true) →
    (atBoundary word v.getLast? b' = true → atBoundary word v.getLast? b = true) →
    Matches expression prev v b
  unmarked : ∀ c ∈ mark, run c = false

namespace Bare

variable {word : Char → Bool} {mark : List Char} (p : Bare word mark)

/-- The pattern itself. -/
def pattern : Pattern := .whole p.expression

/-- The text has no match of the pattern. -/
def Absent (s : List Char) : Prop :=
  ∀ x v b, s = x ++ (v ++ b) → ¬ Matches p.expression (lastOr none x) v b

theorem proper : p.pattern.Proper := fun _ _ _ h => (p.text (mem_matchesAt_whole.mp h).2.2).1

theorem free {prev : Option Char} {v b : List Char} (h : Matches p.expression prev v b) :
    ∀ c ∈ v, c ∉ mark := by
  intro c hc hmem
  have hin := (p.text h).2 c hc
  rw [p.unmarked c hmem] at hin
  cases hin

theorem maskable_of_firstMatch {prev : Option Char} {s : List Char} {f : Found}
    (h : p.pattern.firstMatch prev s = some f) :
    Maskable word p.run mark prev f.value f.rest := by
  obtain ⟨-, -, hmatch⟩ := mem_matchesAt_whole.mp (mem_of_firstMatch h)
  obtain ⟨hvalue, hall⟩ := p.text hmatch
  refine ⟨hvalue, hall, p.left hmatch, fun c hc hword => ?_, Or.inl fun c hc => ?_⟩
  · rw [lastOr_of_ne_nil hvalue]
    exact p.right hmatch c hc hword
  · exact p.free hmatch c (List.mem_of_mem_head? hc)

theorem scan_masks (prev : Option Char) (s : List Char) :
    Masks word p.run mark prev s (p.pattern.scan mark prev 0 s) := by
  induction prev, s using scan_induction p.proper with
  | nil prev =>
    rw [scan_nil]
    exact Masks.nil prev
  | keep prev c s hnone ih =>
    rw [scan_keep hnone]
    exact Masks.keep prev c ih
  | replace prev s f hf ih =>
    rw [scan_replace p.proper hf]
    obtain ⟨hkept, hs, -⟩ := mem_matchesAt_whole.mp (mem_of_firstMatch hf)
    rw [hkept, List.nil_append] at ih ⊢
    have hmasks := Masks.mask prev f.value (p.maskable_of_firstMatch hf) ih
    rw [← hs] at hmasks
    exact hmasks

theorem sub_masks (s : List Char) : Masks word p.run mark none s (p.pattern.sub mark s) :=
  p.scan_masks none s

/-- **After its scan no match of the pattern is left.** -/
theorem absent_sub (hmark : Separate word mark) (s : List Char) : p.Absent (p.pattern.sub mark s) := by
  suffices hscan : ∀ prev t prev', (∀ c ∈ t.head?, word c = true → prev.any word = true →
      prev'.any word = true) → ∀ x v b, p.pattern.scan mark prev 0 t = x ++ (v ++ b) →
      ¬ Matches p.expression (lastOr prev' x) v b from
    hscan none s none fun _ _ _ h => h
  intro prev t
  induction prev, t using scan_induction p.proper with
  | nil prev =>
    intro prev' hedge x v b hs hv
    rw [scan_nil] at hs
    have hnil := List.append_eq_nil_iff.mp (List.append_eq_nil_iff.mp hs.symm).2
    exact absurd hnil.1 (p.text hv).1
  | keep prev c t hnone ih =>
    intro prev' hedge x v b hs hv
    cases x with
    | nil =>
      -- the match would have been found here
      have hmasks := p.scan_masks prev (c :: t)
      rw [hs, List.nil_append] at hmasks
      obtain ⟨b₀, hread, hmasks₀⟩ := hmasks.unmarked hmark.nonempty (p.free hv)
      have hvne := (p.text hv).1
      rw [lastOr_of_ne_nil hvne] at hmasks₀
      have hv₀ : Matches p.expression prev v b₀ := p.moves hv (fun e he => hedge e (by
        rw [hread, List.head?_append_of_ne_nil _ hvne]
        exact he)) (hmasks₀.atBoundary hmark)
      exact firstMatch_eq_none.mp hnone ⟨[], v, b₀⟩ (mem_matchesAt_whole.mpr ⟨rfl, hread, hv₀⟩)
    | cons d x =>
      rw [scan_keep hnone, List.cons_append] at hs
      obtain ⟨rfl, htail⟩ := List.cons.inj hs
      rw [lastOr_cons] at hv
      exact ih (some c) (fun _ _ _ h => h) x v b htail hv
  | replace prev t f hf ih =>
    intro prev' hedge x v b hs hv
    obtain ⟨hkept, -, -⟩ := mem_matchesAt_whole.mp (mem_of_firstMatch hf)
    rw [scan_replace p.proper hf, hkept, List.nil_append] at hs
    obtain ⟨x₁, rfl, htail⟩ := after_mark (p.text hv).1 (p.free hv) hs
    rw [lastOr_append] at hv
    rw [hkept] at ih
    refine ih _ (fun c hc hword hlast => ?_) x₁ v b htail hv
    have hright := (p.maskable_of_firstMatch hf).right c hc hword
    rw [List.nil_append, hright] at hlast
    cases hlast

theorem settled_of_absent {s : List Char} (hs : p.Absent s) : p.pattern.Settled mark s := by
  intro x y hxy f hf
  obtain ⟨-, hread, hmatch⟩ := mem_matchesAt_whole.mp (mem_of_firstMatch hf)
  rw [← lastOr_none] at hmatch
  exact absurd hmatch (hs x f.value f.rest (by rw [hxy, hread]))

end Bare

end CodexMemory.Masking
