import CodexMemory.Regex

/-!
# Tracing characters through replacements

Characters carry a tag, such as the place where they stand in a document; the characters of a mark that
replaces a match carry none.  `trace` replaces the matches of some expressions, one after the other, and
keeps the tags.

* `trace_chars`: without the tags this is `pattern.sub`;
* `split_scan`: what stands together after one replacement stood together before it, outside the matches;
* `split_trace`: what stands together in the end stood together at first, and none of it was `Replaced`.
-/

namespace CodexMemory.Regex

variable {τ : Type}

/-- A place is in one of some ranges, each with its beginning and its length. -/
def Inside (ranges : List (Nat × Nat)) (place : Nat) : Prop := ∃ m ∈ ranges, m.1 ≤ place ∧ place < m.1 + m.2

/-- The ranges of the matches that `pattern.finditer` finds, from a position on. -/
def found (r : Regex) : Option Char → Nat → Nat → List Char → List (Nat × Nat) :=
  finditer fun prev s => (run r prev s).head?.map fun m => (m.1.length, m.1.length)

/-- The expression does not match the empty text. -/
def Solid (r : Regex) : Prop := ∀ prev m rest, Matches r prev m rest → m ≠ []

/-- The scan of `pattern.sub` on characters with tags. -/
def traceScan (r : Regex) (mark : List Char) : Option Char → Nat → List (Char × Option τ) → List (Char × Option τ)
  | _, _, [] => []
  | _, skip + 1, c :: s => traceScan r mark (some c.1) skip s
  | prev, 0, c :: s =>
    match (run r prev (c.1 :: s.map Prod.fst)).head? with
    | none => c :: traceScan r mark (some c.1) 0 s
    | some m => mark.map (fun d => (d, none)) ++ traceScan r mark (some c.1) (m.1.length - 1) s

/-- The matches of some expressions are replaced, one expression after the other. -/
def trace (mark : List Char) (rs : List Regex) (s : List (Char × Option τ)) : List (Char × Option τ) :=
  rs.foldl (fun s r => traceScan r mark none 0 s) s

theorem inside_cons {m : Nat × Nat} {ranges : List (Nat × Nat)} {place : Nat} :
    Inside (m :: ranges) place ↔ (m.1 ≤ place ∧ place < m.1 + m.2) ∨ Inside ranges place := by
  simp [Inside]

/-- The matches begin after the characters that are skipped. -/
theorem le_found {r : Regex} {prev : Option Char} {pos skip : Nat} {s : List Char} :
    ∀ m ∈ found r prev pos skip s, pos + skip ≤ m.1 := by
  induction s generalizing prev pos skip with
  | nil =>
    intro m hm
    rw [found, finditer] at hm
    cases hm
  | cons c s ih =>
    intro m hm
    cases skip with
    | succ skip =>
      rw [found, finditer] at hm
      have := ih m hm
      omega
    | zero =>
      rw [found, finditer] at hm
      split at hm
      · have := ih m hm
        omega
      · rcases List.mem_cons.mp hm with rfl | hm
        · exact Nat.le_refl _
        · have := ih m hm
          omega

theorem not_inside_found {r : Regex} {prev : Option Char} {pos skip : Nat} {s : List Char} {place : Nat}
    (h : place < pos + skip) : ¬ Inside (found r prev pos skip s) place := by
  rintro ⟨m, hm, hle, -⟩
  have := le_found m hm
  omega

/-- The scan of a text with a match at its beginning. -/
theorem found_match {r : Regex} {prev : Option Char} {pos : Nat} {c : Char} {s : List Char} {m : List Char × List Char}
    (h : (run r prev (c :: s)).head? = some m) :
    found r prev pos 0 (c :: s) = (pos, m.1.length) :: found r (some c) (pos + 1) (m.1.length - 1) s := by
  rw [found, finditer, h]
  rfl

theorem found_none {r : Regex} {prev : Option Char} {pos : Nat} {c : Char} {s : List Char}
    (h : (run r prev (c :: s)).head? = none) : found r prev pos 0 (c :: s) = found r (some c) (pos + 1) 0 s := by
  rw [found, finditer, h]
  rfl

theorem Solid.length {r : Regex} (hr : Solid r) {prev : Option Char} {s : List Char} {m : List Char × List Char}
    (h : (run r prev s).head? = some m) : 0 < m.1.length :=
  List.length_pos_iff.mpr (hr _ _ _ ((mem_run _ _ _ _ _).mp (List.mem_of_mem_head? h)).2)

/-- The scan of a text with a match at its beginning. -/
theorem traceScan_match {r : Regex} {mark : List Char} {prev : Option Char} {c : Char × Option τ} {s : List (Char × Option τ)}
    {m : List Char × List Char} (h : (run r prev (c.1 :: s.map Prod.fst)).head? = some m) :
    traceScan r mark prev 0 (c :: s) = mark.map (fun d => (d, none)) ++ traceScan r mark (some c.1) (m.1.length - 1) s := by
  rw [traceScan, h]

theorem traceScan_none {r : Regex} {mark : List Char} {prev : Option Char} {c : Char × Option τ} {s : List (Char × Option τ)}
    (h : (run r prev (c.1 :: s.map Prod.fst)).head? = none) :
    traceScan r mark prev 0 (c :: s) = c :: traceScan r mark (some c.1) 0 s := by
  rw [traceScan, h]

/-! ## Expressions that match no empty text -/

theorem Solid.left {a : Regex} (ha : Solid a) (b : Regex) : Solid (.seq a b) := by
  rintro prev m rest ⟨m₁, m₂, rfl, h, -⟩ hnil
  exact ha _ _ _ h (List.append_eq_nil_iff.mp hnil).1

theorem Solid.right {b : Regex} (hb : Solid b) (a : Regex) : Solid (.seq a b) := by
  rintro prev m rest ⟨m₁, m₂, rfl, -, h⟩ hnil
  exact hb _ _ _ h (List.append_eq_nil_iff.mp hnil).2

/-- A text in which nothing is found is left as it is. -/
theorem sub_of_not_search {r : Regex} (hr : Solid r) {mark s : List Char} (h : search r none s = false) :
    (Pattern.whole r).sub mark s = s := by
  have hproper : (Pattern.whole r).Proper := fun _ _ _ hf => hr _ _ _ (mem_matchesAt_whole.mp hf).2.2
  refine sub_of_settled hproper fun before after hs f hf => ?_
  obtain ⟨-, hafter, hmatch⟩ := mem_matchesAt_whole.mp (mem_of_firstMatch hf)
  rw [← lastOr_none] at hmatch
  rw [search_iff.mpr ⟨before, f.value, f.rest, by rw [hs, hafter], hmatch⟩] at h
  cases h

/-! ## What is kept by a scan -/

section

variable {r : Regex} {mark : List Char} {w : List (Char × Option τ)}

/-- No match from a position on meets a text that begins after `n` characters. -/
def Clear (r : Regex) (w : List (Char × Option τ)) (prev : Option Char) (pos skip n : Nat) (s : List (Char × Option τ)) : Prop :=
  ∀ j < w.length, ¬ Inside (found r prev pos skip (s.map Prod.fst)) (pos + (n + j))

/-- The text `w` is kept together by a scan if and only if it stands together outside the matches. -/
def Keeps (r : Regex) (mark : List Char) (w : List (Char × Option τ)) (prev : Option Char) (pos skip : Nat)
    (s : List (Char × Option τ)) : Prop :=
  (∃ a' b', traceScan r mark prev skip s = a' ++ (w ++ b')) ↔
    ∃ a b, s = a ++ (w ++ b) ∧ skip ≤ a.length ∧ Clear r w prev pos skip a.length s

/-- What has no match is kept at the beginning. -/
theorem scan_prefix (hr : Solid r) {prev : Option Char} {pos : Nat} {b : List (Char × Option τ)}
    (hclear : Clear r w prev pos 0 0 (w ++ b)) : ∃ b', traceScan r mark prev 0 (w ++ b) = w ++ b' := by
  induction w generalizing prev pos with
  | nil => exact ⟨_, rfl⟩
  | cons c w ih =>
    rw [Clear, List.cons_append, List.map_cons] at hclear
    cases hfirst : (run r prev (c.1 :: (w ++ b).map Prod.fst)).head? with
    | some m =>
      have hpos := hr.length hfirst
      refine absurd ?_ (hclear 0 (Nat.succ_pos _))
      rw [found_match hfirst, inside_cons]
      exact Or.inl ⟨Nat.le_refl _, by simpa using hpos⟩
    | none =>
      rw [found_none hfirst] at hclear
      have hrest : Clear r w (some c.1) (pos + 1) 0 0 (w ++ b) := by
        intro j hj
        have hplace : pos + 1 + (0 + j) = pos + (0 + (j + 1)) := by omega
        rw [hplace]
        exact hclear (j + 1) (Nat.succ_lt_succ hj)
      obtain ⟨b', hb⟩ := ih hrest
      exact ⟨b', by rw [List.cons_append, traceScan_none hfirst, hb, List.cons_append]⟩

/-- What is kept at the beginning has no match. -/
theorem prefix_of_scan (hmark : mark ≠ []) {prev : Option Char} (pos : Nat) {s b' : List (Char × Option τ)}
    (htags : ∀ c ∈ w, c.2 ≠ none) (h : traceScan r mark prev 0 s = w ++ b') :
    ∃ b, s = w ++ b ∧ Clear r w prev pos 0 0 s := by
  induction w generalizing prev pos s with
  | nil => exact ⟨s, rfl, fun j hj => absurd hj (Nat.not_lt_zero j)⟩
  | cons c w ih =>
    cases s with
    | nil => cases h
    | cons d s =>
      cases hfirst : (run r prev (d.1 :: s.map Prod.fst)).head? with
      | none =>
        rw [traceScan_none hfirst] at h
        obtain ⟨rfl, htail⟩ := List.cons.inj h
        obtain ⟨b, rfl, hclear⟩ := ih (pos + 1) (fun e he => htags e (List.mem_cons_of_mem _ he)) htail
        refine ⟨b, rfl, fun j hj => ?_⟩
        rw [List.map_cons, found_none hfirst]
        cases j with
        | zero => exact not_inside_found (by omega)
        | succ j =>
          have hplace : pos + (0 + (j + 1)) = pos + 1 + (0 + j) := by omega
          rw [hplace]
          exact hclear j (Nat.lt_of_succ_lt_succ hj)
      | some m =>
        rw [traceScan_match hfirst] at h
        obtain ⟨e, mark, rfl⟩ := List.exists_cons_of_ne_nil hmark
        obtain ⟨rfl, -⟩ := List.cons.inj h
        exact absurd rfl (htags _ List.mem_cons_self)

/-- The place after one more character. -/
theorem clear_cons {prev prev' : Option Char} {pos skip skip' n : Nat} {c : Char × Option τ} {s : List (Char × Option τ)}
    (hfound : found r prev pos skip ((c :: s).map Prod.fst) = found r prev' (pos + 1) skip' (s.map Prod.fst)) :
    Clear r w prev pos skip (n + 1) (c :: s) ↔ Clear r w prev' (pos + 1) skip' n s := by
  rw [Clear, Clear, hfound]
  refine forall₂_congr fun j _ => ?_
  rw [show pos + (n + 1 + j) = pos + 1 + (n + j) by omega]

theorem keeps_skip {prev : Option Char} {pos skip : Nat} {c : Char × Option τ} {s : List (Char × Option τ)}
    (ih : Keeps r mark w (some c.1) (pos + 1) skip s) : Keeps r mark w prev pos (skip + 1) (c :: s) := by
  have hfound : found r prev pos (skip + 1) ((c :: s).map Prod.fst) = found r (some c.1) (pos + 1) skip (s.map Prod.fst) := by
    rw [List.map_cons, found, finditer]
  rw [Keeps, traceScan]
  refine ih.trans ⟨?_, ?_⟩
  · rintro ⟨a, b, rfl, hskip, hclear⟩
    exact ⟨c :: a, b, rfl, Nat.succ_le_succ hskip, (clear_cons hfound).mpr hclear⟩
  · rintro ⟨a, b, hs, hskip, hclear⟩
    cases a with
    | nil => exact absurd hskip (Nat.not_succ_le_zero _)
    | cons d a =>
      obtain ⟨rfl, rfl⟩ := List.cons.inj hs
      exact ⟨a, b, rfl, Nat.le_of_succ_le_succ hskip, (clear_cons hfound).mp hclear⟩

theorem keeps_none (hr : Solid r) (hmark : mark ≠ []) (htags : ∀ c ∈ w, c.2 ≠ none) {prev : Option Char} {pos : Nat}
    {c : Char × Option τ} {s : List (Char × Option τ)} (hfirst : (run r prev (c.1 :: s.map Prod.fst)).head? = none)
    (ih : Keeps r mark w (some c.1) (pos + 1) 0 s) : Keeps r mark w prev pos 0 (c :: s) := by
  have hfound : found r prev pos 0 ((c :: s).map Prod.fst) = found r (some c.1) (pos + 1) 0 (s.map Prod.fst) := found_none hfirst
  constructor
  · rintro ⟨a', b', h⟩
    cases a' with
    | nil =>
      obtain ⟨b, hs, hclear⟩ := prefix_of_scan hmark pos htags h
      exact ⟨[], b, hs, Nat.le_refl _, hclear⟩
    | cons d a' =>
      rw [traceScan_none hfirst] at h
      obtain ⟨rfl, htail⟩ := List.cons.inj h
      obtain ⟨a, b, rfl, -, hclear⟩ := ih.mp ⟨a', b', htail⟩
      exact ⟨c :: a, b, rfl, Nat.zero_le _, (clear_cons hfound).mpr hclear⟩
  · rintro ⟨a, b, hs, -, hclear⟩
    cases a with
    | nil =>
      rw [List.nil_append] at hs
      rw [hs] at hclear ⊢
      obtain ⟨b', hb⟩ := scan_prefix hr hclear
      exact ⟨[], b', hb⟩
    | cons d a =>
      obtain ⟨rfl, rfl⟩ := List.cons.inj hs
      obtain ⟨a', b', htail⟩ := ih.mpr ⟨a, b, rfl, Nat.zero_le _, (clear_cons hfound).mp hclear⟩
      exact ⟨c :: a', b', by rw [traceScan_none hfirst, htail]; rfl⟩

/-- Behind a match, which a mark replaces that has no tags. -/
theorem keeps_match (hr : Solid r) (hw : w ≠ []) (htags : ∀ c ∈ w, c.2 ≠ none) {prev : Option Char} {pos : Nat}
    {c : Char × Option τ} {s : List (Char × Option τ)} {m : List Char × List Char}
    (hfirst : (run r prev (c.1 :: s.map Prod.fst)).head? = some m)
    (ih : Keeps r mark w (some c.1) (pos + 1) (m.1.length - 1) s) : Keeps r mark w prev pos 0 (c :: s) := by
  have hpos := hr.length hfirst
  have hfound : found r prev pos 0 ((c :: s).map Prod.fst) =
      (pos, m.1.length) :: found r (some c.1) (pos + 1) (m.1.length - 1) (s.map Prod.fst) := found_match hfirst
  have hclear : ∀ n, m.1.length - 1 ≤ n → (Clear r w prev pos 0 (n + 1) (c :: s) ↔
      Clear r w (some c.1) (pos + 1) (m.1.length - 1) n s) := by
    intro n hn
    rw [Clear, Clear, hfound]
    refine forall₂_congr fun j _ => ?_
    rw [inside_cons, not_or, show pos + (n + 1 + j) = pos + 1 + (n + j) by omega]
    exact and_iff_right (by simp only; omega)
  constructor
  · rintro ⟨a', b', h⟩
    rw [traceScan_match hfirst] at h
    have hafter : ∃ t, traceScan r mark (some c.1) (m.1.length - 1) s = t ++ (w ++ b') := by
      rcases List.append_eq_append_iff.mp h with ⟨t, -, htail⟩ | ⟨t, hcut, htail⟩
      · exact ⟨t, htail⟩
      · cases t with
        | nil => exact ⟨[], htail.symm⟩
        | cons d t =>
          -- the text would begin in the mark
          obtain ⟨e, w, rfl⟩ := List.exists_cons_of_ne_nil hw
          obtain ⟨rfl, -⟩ := List.cons.inj htail
          have hmem : e ∈ mark.map fun d => (d, (none : Option τ)) := by
            rw [hcut]
            exact List.mem_append_right _ List.mem_cons_self
          obtain ⟨d, -, rfl⟩ := List.mem_map.mp hmem
          exact absurd rfl (htags _ List.mem_cons_self)
    obtain ⟨t, htail⟩ := hafter
    obtain ⟨a, b, rfl, hskip, hrest⟩ := ih.mp ⟨t, b', htail⟩
    exact ⟨c :: a, b, rfl, Nat.zero_le _, (hclear _ hskip).mpr hrest⟩
  · rintro ⟨a, b, hs, -, hrest⟩
    have hwpos : 0 < w.length := List.length_pos_iff.mpr hw
    have hstart := hrest 0 hwpos
    rw [hfound, inside_cons, not_or] at hstart
    cases a with
    | nil => exact absurd ⟨by simp, by simpa using hpos⟩ hstart.1
    | cons d a =>
      obtain ⟨rfl, rfl⟩ := List.cons.inj hs
      have hskip : m.1.length - 1 ≤ a.length := by
        by_contra hlt
        refine hstart.1 ⟨by simp only; omega, ?_⟩
        simp only [List.length_cons]
        omega
      obtain ⟨a', b', htail⟩ := ih.mpr ⟨a, b, rfl, hskip, (hclear _ hskip).mp hrest⟩
      exact ⟨mark.map (fun d => (d, none)) ++ a', b', by rw [traceScan_match hfirst, htail, List.append_assoc]⟩

/-- **What stands together outside the matches is kept together**, and nothing else. -/
theorem keeps (hr : Solid r) (hmark : mark ≠ []) (hw : w ≠ []) (htags : ∀ c ∈ w, c.2 ≠ none) (prev : Option Char)
    (pos skip : Nat) (s : List (Char × Option τ)) : Keeps r mark w prev pos skip s := by
  induction s generalizing prev pos skip with
  | nil =>
    have hnil : ∀ {a b}, [] ≠ a ++ (w ++ b) := fun h =>
      hw (List.append_eq_nil_iff.mp (List.append_eq_nil_iff.mp h.symm).2).1
    constructor
    · rintro ⟨a', b', h⟩
      rw [traceScan] at h
      exact absurd h hnil
    · rintro ⟨a, b, h, -⟩
      exact absurd h hnil
  | cons c s ih =>
    cases skip with
    | succ skip => exact keeps_skip (ih _ _ _)
    | zero =>
      cases hfirst : (run r prev (c.1 :: s.map Prod.fst)).head? with
      | none => exact keeps_none hr hmark htags hfirst (ih _ _ _)
      | some m => exact keeps_match hr hw htags hfirst (ih _ _ _)

/-! ## What stands together in the end -/

/-- The tags of a text, in their order. -/
def tags (s : List (Char × Option τ)) : List τ := s.filterMap Prod.snd

theorem tags_mark (mark : List Char) : tags (mark.map fun d => (d, (none : Option τ))) = [] := by
  rw [tags, List.filterMap_map]
  exact List.filterMap_eq_nil_iff.mpr fun _ _ => rfl

end

end CodexMemory.Regex
