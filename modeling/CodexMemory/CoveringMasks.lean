import CodexMemory.Covering
import CodexMemory.Masking

/-!
# What the patterns that mask a text cover

A pattern that masks finds a match in the text at first where it finds one in what shows
that text.

* `Prefixed.steady`: a pattern that keeps a group before its value;
* `Bare.steady`: a pattern without a group.
-/

namespace CodexMemory.Masking

open Regex

/-! ## Patterns that keep a group -/

/-- A piece of the class `run` that begins where `ends` allows and goes on as long as the class `after` does. -/
structure Closed (ends : List Char → Prop) (run after : Char → Bool) (before v s : List Char) : Prop where
  begins : ends before
  inside : ∀ c ∈ v, run c = true
  next : ∀ c ∈ s.head?, after c = false

section Runs

variable {mark : List Char} {ends : List Char → Prop} {run value : Char → Bool} {taken : List Nat}

/-- What cannot be masked at its head does not begin with a mark. -/
theorem closed_head (hrun : ∀ c, value c = true → run c = true) {before s : List Char} {t : List (Char × Option Nat)}
    (h : Shows mark (Closed ends run run) taken before s t) (hs : ∀ c ∈ s.head?, run c = false) :
    ∀ c ∈ (t.map Prod.fst).head?, value c = false := by
  intro c hc
  by_contra hvalue
  have hcrun := hrun c (by simpa using hvalue)
  cases h with
  | nil => cases hc
  | keep _ d free tail =>
    cases hc
    rw [hs _ rfl] at hcrun
    cases hcrun
  | mask _ v nonempty within sides tail =>
    obtain ⟨d, v, rfl⟩ := List.exists_cons_of_ne_nil nonempty
    have hd := sides.inside d List.mem_cons_self
    rw [hs d rfl] at hd
    cases hd

/-- The run of a class at the beginning of a text and of what shows it.  A mark may stand for characters `e` that
the class does not have. -/
structure Run (mark : List Char) (ends : List Char → Prop) (run value : Char → Bool) (taken : List Nat)
    (before s : List Char) (t : List (Char × Option Nat)) (v e r : List Char) (w t' : List (Char × Option Nat)) :
    Prop where
  text : s = v ++ (e ++ r)
  shown : t = w ++ t'
  here : ∀ c ∈ v, value c = true
  there : ∀ c ∈ w.map Prod.fst, value c = true
  ending : ∀ c ∈ (e ++ r).head?, value c = false
  ending' : ∀ c ∈ (t'.map Prod.fst).head?, value c = false
  inside : ∀ c ∈ e, run c = true
  extra : ∀ i < e.length, before.length + v.length + i ∈ taken
  next : ∀ c ∈ r.head?, value c = false
  tail : Shows mark (Closed ends run run) taken (before ++ (v ++ e)) r t'

theorem exists_run (hrun : ∀ c, value c = true → run c = true) (hmarks : ∀ c ∈ mark, value c = true)
    {before s : List Char} {t : List (Char × Option Nat)} (h : Shows mark (Closed ends run run) taken before s t) :
    ∃ v e r w t', Run mark ends run value taken before s t v e r w t' := by
  induction h with
  | nil before =>
    refine ⟨[], [], [], [], [], rfl, rfl, ?_, ?_, ?_, ?_, ?_, ?_, ?_, ?_⟩
    all_goals first | exact fun c hc => (nomatch hc) | skip
    rw [List.append_nil, List.append_nil]
    exact .nil before
  | keep before c free tail ih =>
    cases hc : value c with
    | true =>
      obtain ⟨v, e, r, w, t', hread⟩ := ih
      refine ⟨c :: v, e, r, (c, some before.length) :: w, t', ?_, ?_, ?_, ?_, hread.ending, hread.ending', hread.inside,
        ?_, hread.next, ?_⟩
      · rw [hread.text, List.cons_append]
      · rw [hread.shown, List.cons_append]
      · exact List.forall_mem_cons.mpr ⟨hc, hread.here⟩
      · exact List.forall_mem_cons.mpr ⟨hc, hread.there⟩
      · intro i hi
        have hextra := hread.extra i hi
        rw [List.length_append, List.length_singleton] at hextra
        rw [List.length_cons, Nat.add_comm v.length, ← Nat.add_assoc]
        exact hextra
      · have htail := hread.tail
        rw [List.append_assoc] at htail
        exact htail
    | false =>
      have hnone : ∀ d ∈ some c, value d = false := by
        rintro d ⟨rfl⟩
        exact hc
      refine ⟨[], [], _, [], _, rfl, rfl, fun d hd => (nomatch hd), fun d hd => (nomatch hd), hnone, hnone,
        fun d hd => (nomatch hd), fun i hi => (nomatch hi), hnone, ?_⟩
      rw [List.append_nil, List.append_nil]
      exact .keep before c free tail
  | mask before v nonempty within sides tail ih =>
    have hnext : ∀ c, run c = false → value c = false := by
      intro c hc
      by_contra hvalue
      rw [hrun c (by simpa using hvalue)] at hc
      cases hc
    have hsplit := List.takeWhile_append_dropWhile (p := value) (l := v)
    refine ⟨v.takeWhile value, v.dropWhile value, _, unplaced mark, _, ?_, rfl, ?_, ?_, ?_,
      closed_head hrun tail sides.next, ?_, ?_, fun c hc => hnext c (sides.next c hc), ?_⟩
    · rw [← List.append_assoc, hsplit]
    · exact fun c hc => List.all_eq_true.mp List.all_takeWhile c hc
    · rw [unplaced_chars]
      exact hmarks
    · intro c hc
      rw [List.head?_append] at hc
      cases hdrop : (v.dropWhile value).head? with
      | none =>
        rw [hdrop] at hc
        exact hnext c (sides.next c hc)
      | some d =>
        rw [hdrop] at hc
        cases hc
        have hfalse := List.head?_dropWhile_not value v
        rw [hdrop] at hfalse
        simpa using hfalse
    · exact fun c hc => sides.inside c (List.dropWhile_subset value hc)
    · intro i hi
      have hlength := congrArg List.length hsplit
      rw [List.length_append] at hlength
      rw [Nat.add_assoc]
      exact within _ (by omega)
    · rw [hsplit]
      exact tail

end Runs

section Groups

variable {word : Char → Bool} {mark : List Char} (p : Prefixed word mark)

/-- What a pattern relies on where earlier patterns have left marks: `ends` is what a text ends with that precedes
a mark. -/
structure Prefixed.Rests (ends ends' : List Char → Prop) (run : Char → Bool) : Prop where
  value : ∀ c, p.value c = true → run c = true
  /-- A group begins with a character of a value. -/
  start : ∀ {prev g b}, Matches p.before prev g b → ∀ c ∈ g.head?, p.value c = true
  /-- No mark begins within a group. -/
  within : ∀ {prev g b before g₁ c g₂}, Matches p.before prev g b → g = g₁ ++ c :: g₂ → g₁ ≠ [] → run c = true →
    ¬ ends (before ++ g₁)
  /-- A mark that follows a group stands for a value. -/
  behind : ∀ {prev g b before}, Matches p.before prev g b → ends (before ++ g) → ∀ c, run c = true → p.value c = true
  closes : ∀ {prev g b before}, Matches p.before prev g b → ends' (before ++ g)
  keeps : ∀ {before}, ends before → ends' before

namespace Prefixed

variable {p} {ends ends' : List Char → Prop} {run : Char → Bool} {taken : List Nat}

/-- A group of the text is kept. -/
theorem kept_group (hp : p.Rests ends ends' run) {prev : Option Char} {before g b r s : List Char} {c : Char}
    {t : List (Char × Option Nat)} (hg : Matches p.before prev g b) (hread : c :: s = g ++ r)
    (free : before.length ∉ taken) (tail : Shows mark (Closed ends run run) taken (before ++ [c]) s t) :
    ∃ t', (c, some before.length) :: t = placed before.length g ++ t' ∧
      (∀ i < g.length, before.length + i ∉ taken) ∧ Shows mark (Closed ends run run) taken (before ++ g) r t' := by
  obtain ⟨d, g, rfl⟩ := List.exists_cons_of_ne_nil (p.text hg).1
  obtain ⟨rfl, rfl⟩ := List.cons.inj hread
  obtain ⟨t', rfl, hplaces, htail⟩ := tail.split fun g₁ d g₂ hg' v s' hside => by
    have hgroup : c :: g = (c :: g₁) ++ d :: g₂ := by rw [hg', List.cons_append]
    have hbegins := hside.begins
    rw [List.append_assoc] at hbegins
    exact hp.within hg hgroup (List.cons_ne_nil _ _) (hside.inside d List.mem_cons_self) hbegins
  rw [List.length_append, List.length_singleton] at hplaces ⊢
  rw [List.append_assoc] at htail
  exact ⟨t', rfl, free_succ free hplaces, htail⟩

/-- Behind a group a value follows in the text exactly if it does in what shows it. -/
theorem head_value (hp : p.Rests ends ends' run) (hmark : mark ≠ []) {prev : Option Char} {before g b r : List Char}
    {t : List (Char × Option Nat)} (hg : Matches p.before prev g b)
    (h : Shows mark (Closed ends run run) taken (before ++ g) r t) :
    (∃ c ∈ r.head?, p.value c = true) ↔ ∃ c ∈ (t.map Prod.fst).head?, p.value c = true := by
  cases h with
  | nil => exact Iff.rfl
  | keep _ d free tail => exact Iff.rfl
  | mask _ v nonempty within sides tail =>
    obtain ⟨d, v, rfl⟩ := List.exists_cons_of_ne_nil nonempty
    obtain ⟨e, m, hm⟩ := List.exists_cons_of_ne_nil hmark
    refine ⟨fun _ => ⟨e, ?_, p.marks e ?_⟩, fun _ => ⟨d, rfl, ?_⟩⟩
    · rw [List.map_append, unplaced_chars, hm]
      rfl
    · rw [hm]
      exact List.mem_cons_self
    · exact hp.behind hg sides.begins d (sides.inside d List.mem_cons_self)

/-- A text with a group and a value behind it has a match. -/
theorem firstMatch_of_group {prev : Option Char} {g r : List Char} (hg : Matches p.before prev g r)
    (hr : ∃ c ∈ r.head?, p.value c = true) : ∃ f, p.pattern.firstMatch prev (g ++ r) = some f := by
  obtain ⟨c, hc, hvalue⟩ := hr
  obtain ⟨r, rfl⟩ : ∃ r', r = c :: r' := by
    cases r with
    | nil => cases hc
    | cons d r =>
      cases hc
      exact ⟨r, rfl⟩
  rw [← Option.isSome_iff_exists, ← Option.ne_none_iff_isSome]
  intro hnone
  refine firstMatch_eq_none.mp hnone ⟨g, [c], r⟩ (p.mem_matchesAt.mpr ⟨rfl, hg, List.cons_ne_nil _ _, ?_⟩)
  intro d hd
  rw [List.mem_singleton.mp hd]
  exact hvalue

/-- A match has a value behind its group. -/
theorem value_of_firstMatch {prev : Option Char} {s : List Char} {f : Found}
    (h : p.pattern.firstMatch prev s = some f) : ∃ c ∈ (f.value ++ f.rest).head?, p.value c = true := by
  obtain ⟨-, -, hvalue, hall⟩ := p.mem_matchesAt.mp (mem_of_firstMatch h)
  obtain ⟨c, v, hv⟩ := List.exists_cons_of_ne_nil hvalue
  refine ⟨c, by rw [hv]; rfl, hall c ?_⟩
  rw [hv]
  exact List.mem_cons_self

/-- The text and what shows it have the same first group. -/
theorem group_unique (hp : p.Rests ends ends' run) (hmark : mark ≠ []) {prev : Option Char} {before : List Char}
    {f f' : Found} {u : List Char} {t t' : List (Char × Option Nat)}
    (here : p.pattern.firstMatch prev (f.kept ++ (f.value ++ f.rest)) = some f)
    (there : p.pattern.firstMatch prev (f'.kept ++ (f'.value ++ f'.rest)) = some f')
    (h : Shows mark (Closed ends run run) taken (before ++ f.kept) (f.value ++ f.rest) t)
    (h' : Shows mark (Closed ends run run) taken (before ++ f'.kept) u t')
    (hread : f.kept ++ (f.value ++ f.rest) = f'.kept ++ u)
    (hshown : f.kept ++ t.map Prod.fst = f'.kept ++ (f'.value ++ f'.rest))
    (hrest : t'.map Prod.fst = f'.value ++ f'.rest) : f'.kept = f.kept := by
  obtain ⟨-, hg, -, -⟩ := p.mem_matchesAt.mp (mem_of_firstMatch here)
  obtain ⟨-, hg', -, -⟩ := p.mem_matchesAt.mp (mem_of_firstMatch there)
  have hhead := (head_value hp hmark hg h).mp (value_of_firstMatch here)
  have hhead' := (head_value hp hmark hg' h').mpr (by
    rw [hrest]
    exact value_of_firstMatch there)
  rcases List.append_eq_append_iff.mp hread with ⟨m, hkept, hm⟩ | ⟨m, hkept, -⟩
  · -- a longer group in what shows the text would be one of the text
    have hlonger : Matches p.before prev (f.kept ++ m) u := by
      rw [← hkept]
      exact p.moves hg' fun _ _ _ h => h
    rw [hkept, p.longest here m u hm hlonger hhead', List.append_nil]
  · rw [hkept, List.append_assoc] at hshown
    have hlonger : Matches p.before prev (f'.kept ++ m) (t.map Prod.fst) := by
      rw [← hkept]
      exact p.moves hg fun _ _ _ h => h
    rw [hkept, p.longest there m _ (List.append_cancel_left hshown).symm hlonger hhead, List.append_nil]

/-- **A pattern finds the same in a text and in what shows it.** -/
theorem agree (hp : p.Rests ends ends' run) (hmark : mark ≠ []) {before s : List Char} {c : Char}
    {t : List (Char × Option Nat)} (free : before.length ∉ taken)
    (tail : Shows mark (Closed ends run run) taken (before ++ [c]) s t) :
    Agree mark (Closed ends run run) (Closed ends' run p.value) p.value taken p.pattern before (c :: s)
      ((c, some before.length) :: t) := by
  have hwhole := Shows.keep before c free tail
  cases there : p.pattern.firstMatch before.getLast? (((c, some before.length) :: t).map Prod.fst) with
  | none =>
    refine .neither ?_ there
    cases here : p.pattern.firstMatch before.getLast? (c :: s) with
    | none => rfl
    | some f =>
      obtain ⟨hread, hg, -, -⟩ := p.mem_matchesAt.mp (mem_of_firstMatch here)
      obtain ⟨t', ht', -, htail⟩ := kept_group hp hg hread free tail
      have hhead := (head_value hp hmark hg htail).mp (value_of_firstMatch here)
      obtain ⟨f', hf'⟩ := firstMatch_of_group (p.moves hg fun _ _ _ h => h) hhead
      rw [ht', List.map_append, placed_chars, hf'] at there
      cases there
  | some f' =>
    obtain ⟨hread', hg', -, hall'⟩ := p.mem_matchesAt.mp (mem_of_firstMatch there)
    obtain ⟨u, t'', hu, ht'', hrest', -, htail'⟩ := hwhole.split_chars hmark (p.text hg').2 hread'
    have hhead' := (head_value hp hmark hg' htail').mpr (by
      rw [hrest']
      exact value_of_firstMatch there)
    cases here : p.pattern.firstMatch before.getLast? (c :: s) with
    | none =>
      obtain ⟨f, hf⟩ := firstMatch_of_group (p.moves hg' fun _ _ _ h => h) hhead'
      rw [hu, hf] at here
      cases here
    | some f =>
      obtain ⟨hread, hg, -, hall⟩ := p.mem_matchesAt.mp (mem_of_firstMatch here)
      obtain ⟨t', ht', hkept, htail⟩ := kept_group hp hg hread free tail
      obtain ⟨v, e, r, w, t₁, hrun⟩ := exists_run hp.value p.marks htail
      have hshown : f.kept ++ t'.map Prod.fst = f'.kept ++ (f'.value ++ f'.rest) := by
        rw [← hread', ht', List.map_append, placed_chars]
      have hgroup : f'.kept = f.kept := group_unique hp hmark (by rw [← hread]; exact here)
        (by rw [← hread']; exact there) htail htail' (by rw [← hread, ← hu]) hshown hrest'
      -- the values are the runs behind the group
      rw [hgroup] at hshown
      have htext := (List.append_cancel_left hshown).symm
      rw [hrun.shown, List.map_append] at htext
      obtain ⟨hv, hrest⟩ := run_unique hall hrun.here (firstMatch_value_maximal here) hrun.ending hrun.text
      obtain ⟨hw, ht₁⟩ := run_unique hall' hrun.there (firstMatch_value_maximal there) hrun.ending' htext
      refine .both f.kept v e r w t₁ ?_ ?_ ?_ hkept ?_ ⟨hp.closes hg, ?_, hrun.next⟩ (.inr hrun.next) ?_
      · rw [← hv, ← hrest]
        exact here
      · rw [ht', hrun.shown]
      · rw [← hgroup, ← hw, ← ht₁]
        exact there
      · intro i hi
        have hextra := hrun.extra i hi
        rw [List.length_append, Nat.add_assoc before.length] at hextra
        exact hextra
      · intro d hd
        rcases List.mem_append.mp hd with hd | hd
        · exact hp.value d (hrun.here d hd)
        · exact hrun.inside d hd
      · have hlast := hrun.tail
        rw [List.append_assoc] at hlast
        exact hlast

theorem start_none (hp : p.Rests ends ends' run) (prev : Option Char) {c : Char} (hc : p.value c = false)
    (s : List Char) : p.pattern.firstMatch prev (c :: s) = none := by
  refine firstMatch_eq_none.mpr fun f hf => ?_
  obtain ⟨hread, hg, -, -⟩ := p.mem_matchesAt.mp hf
  obtain ⟨d, g, hkept⟩ := List.exists_cons_of_ne_nil (p.text hg).1
  rw [hkept, List.cons_append] at hread
  obtain ⟨rfl, -⟩ := List.cons.inj hread
  have hd := hp.start hg c (by rw [hkept]; rfl)
  rw [hc] at hd
  cases hd

theorem unmarked_none (prev : Option Char) {c : Char} (hc : c ∈ mark) (s : List Char) :
    p.pattern.firstMatch prev (c :: s) = none := by
  refine firstMatch_eq_none.mpr fun f hf => ?_
  obtain ⟨hread, hg, -, -⟩ := p.mem_matchesAt.mp hf
  obtain ⟨d, g, hkept⟩ := List.exists_cons_of_ne_nil (p.text hg).1
  rw [hkept, List.cons_append] at hread
  obtain ⟨rfl, -⟩ := List.cons.inj hread
  refine (p.text hg).2 c ?_ hc
  rw [hkept]
  exact List.mem_cons_self

/-- **A pattern that keeps a group covers the values that count.** -/
theorem steady (hp : p.Rests ends ends' run) (hmark : mark ≠ []) :
    Steady mark (Closed ends run run) (Closed ends' run p.value) p.value p.pattern where
  proper := p.proper
  unmarked prev _ s hc := unmarked_none prev hc s
  start prev _ s hc := start_none hp prev hc s
  sides before v s hside := by
    have hnext : ∀ c ∈ s.head?, p.value c = false := by
      intro c hc
      by_contra hvalue
      have hrun := hside.next c hc
      rw [hp.value c (by simpa using hvalue)] at hrun
      cases hrun
    exact ⟨⟨hp.keeps hside.begins, hside.inside, hnext⟩, hnext⟩
  agree _ _ _ _ _ free tail := agree hp hmark free tail

end Prefixed

end Groups

/-! ## Patterns without a group -/

section Tokens

variable {word : Char → Bool} {mark : List Char} (p : Bare word mark)

/-- What a pattern without a group relies on where earlier patterns have left marks. -/
structure Bare.Rests (ends : List Char → Prop) : Prop where
  spans : Over (fun c => p.run c = true) p.expression
  nearby : Nearby p.expression
  /-- No mark begins within a run. -/
  ends : ∀ {before}, ends before → ∀ c ∈ before.getLast?, p.run c = false

namespace Bare

variable {p} {ends : List Char → Prop} {inside : Char → Bool} {taken : List Nat}

theorem start_none (prev : Option Char) {c : Char} (hc : p.run c = false) (s : List Char) :
    p.pattern.firstMatch prev (c :: s) = none := by
  refine firstMatch_eq_none.mpr fun f hf => ?_
  obtain ⟨-, hread, hmatch⟩ := mem_matchesAt_whole.mp hf
  obtain ⟨hvalue, hall⟩ := p.text hmatch
  obtain ⟨d, v, hv⟩ := List.exists_cons_of_ne_nil hvalue
  rw [hv, List.cons_append] at hread
  obtain ⟨rfl, -⟩ := List.cons.inj hread
  have hd := hall c (by rw [hv]; exact List.mem_cons_self)
  rw [hc] at hd
  cases hd

/-- The run at a free place is kept, and the next character is the same in the text and in what shows it. -/
theorem kept_run (hp : p.Rests ends) {before s : List Char} {c : Char} {t : List (Char × Option Nat)}
    (hc : p.run c = true) (tail : Shows mark (Closed ends inside p.run) taken (before ++ [c]) s t) :
    ∃ z y t', s = z ++ y ∧ t = placed (before.length + 1) z ++ t' ∧
      (∀ i < z.length, before.length + 1 + i ∉ taken) ∧ (∀ d ∈ y.head?, p.run d = false) ∧
      (t'.map Prod.fst).head? = y.head? ∧ Shows mark (Closed ends inside p.run) taken (before ++ (c :: z)) y t' := by
  have hlast : ∀ g, (∀ d ∈ g, p.run d = true) → ¬ ends (before ++ (c :: g)) := by
    intro g hg hends
    have hfalse := hp.ends hends
    cases hget : (before ++ c :: g).getLast? with
    | none => simp at hget
    | some d =>
      rw [List.getLast?_append_of_ne_nil _ (List.cons_ne_nil _ _)] at hget
      have hmem : d ∈ c :: g := List.mem_of_getLast? hget
      have htrue : p.run d = true := (List.mem_cons.mp hmem).elim (fun heq => by rw [heq]; exact hc) (hg d)
      rw [hfalse d (by rw [List.getLast?_append_of_ne_nil _ (List.cons_ne_nil _ _)]; exact hget)] at htrue
      cases htrue
  have hz : ∀ d ∈ s.takeWhile p.run, p.run d = true := List.all_eq_true.mp List.all_takeWhile
  have hy : ∀ d ∈ (s.dropWhile p.run).head?, p.run d = false := by
    intro d hd
    have hfalse := List.head?_dropWhile_not p.run s
    rw [show (s.dropWhile p.run).head? = some d from hd] at hfalse
    simpa using hfalse
  have hsplit := List.takeWhile_append_dropWhile (p := p.run) (l := s)
  generalize s.takeWhile p.run = z at hz hsplit
  generalize s.dropWhile p.run = y at hy hsplit
  subst hsplit
  obtain ⟨t', rfl, hplaces, htail⟩ := tail.split fun g₁ d g₂ hg v s' hside => by
    have hbegins := hside.begins
    rw [List.append_assoc] at hbegins
    refine hlast g₁ (fun d hd => hz d ?_) hbegins
    rw [hg]
    exact List.mem_append_left _ hd
  rw [List.length_append, List.length_singleton] at hplaces ⊢
  rw [List.append_assoc] at htail
  refine ⟨z, y, t', rfl, rfl, hplaces, hy, ?_, htail⟩
  cases htail with
  | nil => rfl
  | keep _ d free tail => rfl
  | mask _ v nonempty within sides tail => exact absurd sides.begins (hlast z hz)

/-- A match of the text within a run is one of what shows it. -/
theorem agree_within {before v z y : List Char} {t : List (Char × Option Nat)}
    (kept : ∀ i < (v ++ z).length, before.length + i ∉ taken)
    (tail : Shows mark (Closed ends inside p.run) taken (before ++ (v ++ z)) y t)
    (here : p.pattern.firstMatch before.getLast? (v ++ (z ++ y)) = some ⟨[], v, z ++ y⟩)
    (there : p.pattern.firstMatch before.getLast? (v ++ (z ++ t.map Prod.fst)) = some ⟨[], v, z ++ t.map Prod.fst⟩) :
    Agree mark (Closed ends inside p.run) (fun _ _ _ => True) p.run taken p.pattern before (v ++ (z ++ y))
      (placed before.length v ++ (placed (before.length + v.length) z ++ t)) := by
  refine .both [] v [] (z ++ y) (placed before.length v) (placed (before.length + v.length) z ++ t) here rfl ?_
    (fun i hi => (nomatch hi)) (fun i hi => (nomatch hi)) trivial (.inl (by simp)) ?_
  · rw [List.map_append, List.map_append, placed_chars, placed_chars]
    exact there
  · have hlast := @Shows.placed_append _ _ _ (before ++ v) z _ _ (fun i hi => ?_) (by
      rw [List.append_assoc]
      exact tail)
    · rw [List.length_append] at hlast
      rw [List.nil_append, List.append_nil]
      exact hlast
    · rw [List.length_append, Nat.add_assoc]
      exact kept _ (by rw [List.length_append]; omega)

/-- **A pattern without a group finds the same in a text and in what shows it.** -/
theorem agree (hp : p.Rests ends) {before s : List Char} {c : Char} {t : List (Char × Option Nat)}
    (free : before.length ∉ taken) (tail : Shows mark (Closed ends inside p.run) taken (before ++ [c]) s t) :
    Agree mark (Closed ends inside p.run) (fun _ _ _ => True) p.run taken p.pattern before (c :: s)
      ((c, some before.length) :: t) := by
  cases hc : p.run c with
  | false => exact .neither (start_none _ hc _) (start_none _ hc _)
  | true =>
    obtain ⟨z, y, t', rfl, rfl, hplaces, hy, hhead, htail⟩ := kept_run hp hc tail
    have hkept : ∀ i < (c :: z).length, before.length + i ∉ taken := free_succ free hplaces
    have hwindow := run_window hp.spans hp.nearby (fun d hd => by rw [hy d hd]; exact Bool.false_ne_true) hhead
      before.getLast? (c :: z)
    have hfirst : ∀ s, p.pattern.firstMatch before.getLast? s =
        (p.expression.run before.getLast? s).head?.map fun m => ⟨[], m.1, m.2⟩ := by
      intro s
      rw [Pattern.firstMatch, pattern, Pattern.matchesAt, List.head?_map]
    have hhere := hfirst (c :: z ++ y)
    have hthere := hfirst (c :: z ++ t'.map Prod.fst)
    cases hlist : p.expression.run before.getLast? (c :: z ++ y) with
    | nil =>
      rw [hlist] at hwindow hhere
      rw [List.forall₂_nil_left_iff.mp hwindow] at hthere
      refine .neither hhere ?_
      rw [List.map_cons, List.map_append, placed_chars]
      exact hthere
    | cons m ms =>
      rw [hlist] at hwindow hhere
      obtain ⟨⟨v', s'⟩, ms', ⟨hv, z', hz, hs, hs'⟩, -, hlist'⟩ := List.forall₂_cons_left_iff.mp hwindow
      obtain ⟨v, s⟩ := m
      simp only at hv hz hs hs'
      subst hv hs hs'
      rw [hlist', hz, List.append_assoc] at hthere
      rw [hz, List.append_assoc] at hhere
      rw [hz] at hkept htail
      have hagree := agree_within hkept htail hhere hthere
      rw [← List.append_assoc, ← hz, ← List.append_assoc, ← placed_append, ← hz] at hagree
      exact hagree

/-- **A pattern without a group covers the values that count.** -/
theorem steady (hp : p.Rests ends) :
    Steady mark (Closed ends inside p.run) (fun _ _ _ => True) p.run p.pattern where
  proper := p.proper
  unmarked prev c s hc := start_none prev (p.unmarked c hc) s
  start prev _ s hc := start_none prev hc s
  sides _ _ _ hside := ⟨trivial, hside.next⟩
  agree _ _ _ _ _ free tail := agree hp free tail

end Bare

end Tokens

end CodexMemory.Masking
