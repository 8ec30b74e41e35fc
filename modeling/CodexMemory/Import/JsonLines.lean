import CodexMemory.Import.Offsets
import CodexMemory.Json.Grammar

/-!
# JSON documents and JSON lines

`parse_document` reads the types `json` and `jsonl` in the same way: it gives every line of
`str.splitlines` that is not blank to `json.loads`, and makes a part of it.  A document that is laid out
on several lines is refused.  `str.splitlines` also ends a line at a lone CR and at the separators of
Unicode, of which some may stand inside a JSON string, and `json.loads` takes texts that are no JSON.

* `parseLines_ok`: which lines are accepted, and what becomes of them;
* `onOneLine`: a JSON text whose lines are accepted stands on one line;
* `jsonLines_iff`: when a document and a file of lines are accepted as they should be.
-/

namespace CodexMemory.Import

open Json (IsText IsWhite WhiteMargins Form)

/-- `json.loads` raises no error on the texts that it takes. -/
def LoadsJson (library : Library) : Prop :=
  ∀ raw, library.jsonError raw = none ↔ Json.accepts Json.python raw = true

/-! ## The law of the two types -/

/-- The lines of a text that LF or CRLF separate, each with its separator. -/
def feedLines : List Char → List (List Char)
  | [] => []
  | c :: s =>
    if c = '\n' then [c] :: feedLines s
    else
      match feedLines s with
      | [] => [[c]]
      | line :: rest => (c :: line) :: rest

/-- A line without its separator. -/
def lineText (line : List Char) : List Char :=
  match line.reverse with
  | '\n' :: '\r' :: rest => rest.reverse
  | '\n' :: rest => rest.reverse
  | _ => line

/-- A part for each line that is not blank, where its text stands. -/
def lineParts : Nat → List (List Char) → List Part
  | _, [] => []
  | pos, line :: rest =>
    (if stripChars line = [] then [] else [Part.at (stripChars line) (pos + (line.takeWhile isSpace).length)]) ++
      lineParts (pos + line.length) rest

section

variable (library : Library)

/-- A JSON document is accepted, however it is laid out. -/
def JsonLaw (content : String) : Prop :=
  IsText Json.standard content.toList → ∃ parts, parseDocument library content "json" = .ok parts

/-- Lines are accepted exactly if each that is not blank is a JSON text, and each gives a part with its
range. -/
def JsonLinesLaw (content : String) : Prop :=
  ((∃ parts, parseDocument library content "jsonl" = .ok parts) ↔
    ∀ line ∈ feedLines content.toList, stripChars line ≠ [] → IsText Json.standard (lineText line)) ∧
  ∀ parts, parseDocument library content "jsonl" = .ok parts → parts = lineParts 0 (feedLines content.toList) ∧
    ∀ p ∈ parts, (content.toList.drop p.start).take (p.stop - p.start) = p.text

end

/-! ## When it holds -/

/-- `str.splitlines` leaves all of the text but blank lines on one line. -/
def OnOneLine (s : List Char) : Prop := ((keepLines s).countP fun line => stripChars line ≠ []) = 1

/-- A JSON document stands on one line, and has no integer that is too long for Python. -/
def JsonRegular (s : List Char) : Prop := IsText Json.standard s → OnOneLine s ∧ IsText Json.python s

/-- A line that is split and read as it should be: its text stands on one line of `str.splitlines`, the
whitespace around is JSON's, and `json.loads` takes the text exactly if it is JSON. -/
def LineRegular (line : List Char) : Prop :=
  OnOneLine line ∧ WhiteMargins line ∧
    (IsText Json.standard (stripChars line) ↔ IsText Json.python (stripChars line))

/-- Every line is regular, unless there is a line that is no JSON and one that `json.loads` refuses. -/
def LinesRegular (s : List Char) : Prop :=
  ((∀ line ∈ feedLines s, stripChars line ≠ [] → IsText Json.standard (lineText line)) ∨
      ∀ line ∈ keepLines s, stripChars line ≠ [] → IsText Json.python line) →
    ∀ line ∈ feedLines s, stripChars line ≠ [] → LineRegular line

/-! ## Margins -/

/-- Blank characters before a text that begins with another one. -/
theorem margin_unique {before before' t t' : List Char} (hbefore : ∀ c ∈ before, isSpace c = true)
    (hbefore' : ∀ c ∈ before', isSpace c = true) (ht : Flush isSpace t) (ht' : Flush isSpace t')
    (h : before ++ t = before' ++ t') : before = before' ∧ t = t' := by
  have htake : ∀ {w u : List Char}, (∀ c ∈ w, isSpace c = true) → Flush isSpace u → (w ++ u).dropWhile isSpace = u := by
    intro w u hw hu
    rw [List.dropWhile_append_of_pos hw, dropWhile_of_flush hu]
  have heq : t = t' := by rw [← htake hbefore ht, h, htake hbefore' ht']
  subst heq
  exact ⟨List.append_cancel_right h, rfl⟩

theorem flush_append {s t : List Char} (hs : s ≠ []) (h : Flush isSpace s) : Flush isSpace (s ++ t) := by
  obtain ⟨c, rest, rfl⟩ := List.exists_cons_of_ne_nil hs
  exact fun a ha => h a ha

/-- The margins of a text with blank characters around it. -/
theorem whiteMargins_between {before s after : List Char} (hbefore : ∀ c ∈ before, isSpace c = true)
    (hafter : ∀ c ∈ after, isSpace c = true) (hs : stripChars s ≠ []) :
    WhiteMargins (before ++ (s ++ after)) ↔ WhiteMargins s ∧ IsWhite before ∧ IsWhite after := by
  rw [WhiteMargins, trim_between hbefore hafter]
  constructor
  · rintro ⟨b, a, heq, hb, ha⟩
    obtain ⟨b', a', hb', ha', hsplit, -⟩ := eq_trim isSpace s
    have hflush : ∀ u, Flush isSpace (trim isSpace s ++ u) := fun u => flush_append hs (trim_flush s)
    have hjoined : (before ++ b') ++ (trim isSpace s ++ (a' ++ after)) = b ++ (trim isSpace s ++ a) := by
      rw [← heq]
      conv => rhs; rw [hsplit]
      simp only [List.append_assoc]
    obtain ⟨hleft, hright⟩ := margin_unique (fun c hc => (List.mem_append.mp hc).elim (hbefore c) (hb' c))
      (fun c hc => Json.isSpace_of_isWhite (hb c hc)) (hflush _) (hflush _) hjoined
    rw [← hleft, Json.isWhite_append] at hb
    rw [← List.append_cancel_left hright, Json.isWhite_append] at ha
    exact ⟨⟨b', a', hsplit, hb.2, ha.1⟩, hb.1, ha.2⟩
  · rintro ⟨⟨b, a, hsplit, hb, ha⟩, hbefore, hafter⟩
    refine ⟨before ++ b, a ++ after, ?_, Json.isWhite_append.mpr ⟨hbefore, hb⟩, Json.isWhite_append.mpr ⟨ha, hafter⟩⟩
    conv => lhs; rw [hsplit]
    simp only [List.append_assoc]

/-- A text of JSON is not blank. -/
theorem isText_nonblank {d : Json.Reader} {s : List Char} (h : IsText d s) : stripChars s ≠ [] := by
  obtain ⟨hform, -⟩ := Json.isText_iff.mp h
  obtain ⟨c, rest, hs, -⟩ := hform.head
  rw [stripChars_eq, hs]
  exact List.cons_ne_nil _ _

/-- Whitespace of JSON around a text changes nothing. -/
theorem isText_between {d : Json.Reader} {before s after : List Char} (hbefore : IsWhite before) (hafter : IsWhite after) :
    IsText d (before ++ (s ++ after)) ↔ IsText d s := by
  have hb := fun c hc => Json.isSpace_of_isWhite (hbefore c hc)
  have ha := fun c hc => Json.isSpace_of_isWhite (hafter c hc)
  constructor
  · intro h
    have hne := isText_nonblank h
    rw [stripChars_eq, trim_between hb ha] at hne
    rw [Json.isText_iff, trim_between hb ha, whiteMargins_between hb ha hne] at h
    exact Json.isText_iff.mpr ⟨h.1, h.2.1⟩
  · rintro ⟨b, v, a, rfl, hb, ha, hform⟩
    refine ⟨before ++ b, v, a ++ after, by simp only [List.append_assoc], Json.isWhite_append.mpr ⟨hbefore, hb⟩,
      Json.isWhite_append.mpr ⟨ha, hafter⟩, hform⟩

theorem isText_stripChars {d : Json.Reader} {s : List Char} : IsText d s ↔ IsText d (stripChars s) ∧ WhiteMargins s := by
  have hbare : WhiteMargins (stripChars s) := by
    refine ⟨[], [], ?_, Json.isWhite_nil, Json.isWhite_nil⟩
    rw [stripChars_eq, trim_trim, List.append_nil, List.nil_append]
  rw [Json.isText_iff, @Json.isText_iff d (stripChars s), stripChars_eq, trim_trim]
  exact ⟨fun h => ⟨⟨h.1, hbare⟩, h.2⟩, fun h => ⟨h.1.1, h.2⟩⟩

/-! ## Lines -/

/-- A line without the returns and newlines at its end, and these. -/
theorem raw_split (line : List Char) :
    ∃ ending, IsWhite ending ∧
      line = (line.reverse.dropWhile fun c => c = '\r' || c = '\n').reverse ++ ending := by
  refine ⟨(line.reverse.takeWhile fun c => c = '\r' || c = '\n').reverse, fun c hc => ?_, ?_⟩
  · have hend := List.mem_takeWhile_imp (List.mem_reverse.mp hc)
    rw [Bool.or_eq_true, decide_eq_true_iff, decide_eq_true_iff] at hend
    rcases hend with rfl | rfl
    · rfl
    · rfl
  · rw [← List.reverse_append, List.takeWhile_append_dropWhile, List.reverse_reverse]

theorem lineText_split (line : List Char) : ∃ ending, IsWhite ending ∧ line = lineText line ++ ending := by
  have hwhite : ∀ ending : List Char, (∀ c ∈ ending, c = '\r' ∨ c = '\n') → IsWhite ending := by
    intro ending hending c hc
    rcases hending c hc with rfl | rfl
    · rfl
    · rfl
  rw [lineText]
  split
  · next rest h =>
    refine ⟨['\r', '\n'], hwhite _ (by simp), ?_⟩
    rw [← List.reverse_reverse line, h, List.reverse_cons, List.reverse_cons, List.append_assoc]
    rfl
  · next rest _ h =>
    refine ⟨['\n'], hwhite _ (by simp), ?_⟩
    rw [← List.reverse_reverse line, h, List.reverse_cons]
  · exact ⟨[], Json.isWhite_nil, (List.append_nil line).symm⟩

theorem isText_lineText {d : Json.Reader} {line : List Char} : IsText d (lineText line) ↔ IsText d line := by
  obtain ⟨ending, hending, hline⟩ := lineText_split line
  have hbetween := isText_between (d := d) (s := lineText line) Json.isWhite_nil hending
  rw [List.nil_append, ← hline] at hbetween
  exact hbetween.symm

/-- The whitespace at the beginning of a text that is not blank. -/
theorem takeWhile_append {s : List Char} (hs : stripChars s ≠ []) (t : List Char) :
    (s ++ t).takeWhile isSpace = s.takeWhile isSpace := by
  rw [List.takeWhile_append, if_neg]
  intro hall
  refine hs (trim_eq_nil.mpr fun c hc => ?_)
  rw [← (List.takeWhile_prefix isSpace).eq_of_length hall] at hc
  exact List.mem_takeWhile_imp hc

theorem takeWhile_length (s : List Char) : (s.takeWhile isSpace).length = s.length - (s.dropWhile isSpace).length := by
  have hsplit := congrArg List.length (List.takeWhile_append_dropWhile (p := isSpace) (l := s))
  rw [List.length_append] at hsplit
  omega

theorem isSpace_of_isLineBreak {c : Char} (hc : isLineBreak c = true) : isSpace c = true := by
  simp only [isLineBreak, Bool.or_eq_true, Bool.and_eq_true, decide_eq_true_iff, beq_iff_eq] at hc
  simp only [isSpace, Bool.or_eq_true, Bool.and_eq_true, decide_eq_true_iff, beq_iff_eq]
  omega

/-- A line that another one follows ends with whitespace. -/
theorem keepLines_break {s : List Char} {before after : List (List Char)} {line next : List Char}
    (h : keepLines s = before ++ line :: next :: after) : ∃ init c, line = init ++ [c] ∧ isSpace c = true := by
  induction s generalizing before line with
  | nil => exact absurd h.symm (by simp [keepLines])
  | cons c s ih =>
    rw [keepLines] at h
    split at h
    · next hbreak =>
      cases before with
      | nil =>
        obtain ⟨rfl, -⟩ := List.cons.inj h
        rw [Bool.and_eq_true] at hbreak
        exact ⟨[], c, rfl, isSpace_of_isLineBreak hbreak.1⟩
      | cons first before => exact ih (List.cons.inj h).2
    · split at h
      · cases before with
        | nil => cases h
        | cons first before => exact absurd (List.cons.inj h).2.symm (by simp)
      · next first rest hlines =>
        cases before with
        | nil =>
          obtain ⟨rfl, hrest⟩ := List.cons.inj h
          obtain ⟨init, d, rfl, hd⟩ := @ih [] _ (hlines.trans (by rw [hrest]; rfl))
          exact ⟨c :: init, d, rfl, hd⟩
        | cons head before =>
          obtain ⟨-, hrest⟩ := List.cons.inj h
          exact @ih (first :: before) _ (hlines.trans (by rw [hrest]; rfl))

theorem keepLines_ne_nil {s : List Char} (hs : s ≠ []) : keepLines s ≠ [] := by
  intro hnil
  have hflatten := keepLines_flatten s
  rw [hnil] at hflatten
  exact hs hflatten.symm

theorem feedLines_flatten (s : List Char) : (feedLines s).flatten = s := by
  induction s with
  | nil => rfl
  | cons c s ih =>
    rw [feedLines]
    split
    · rw [List.flatten_cons, ih, List.singleton_append]
    · split
      · next hlines =>
        rw [hlines, List.flatten_nil] at ih
        rw [← ih]
        rfl
      · next line rest hlines =>
        rw [hlines, List.flatten_cons] at ih
        rw [List.flatten_cons, List.cons_append, ih]

theorem feedLines_nonempty (s : List Char) : ∀ line ∈ feedLines s, line ≠ [] := by
  induction s with
  | nil => exact fun line hline => nomatch hline
  | cons c s ih =>
    rw [feedLines]
    split
    · exact List.forall_mem_cons.mpr ⟨List.cons_ne_nil _ _, ih⟩
    · split
      · exact List.forall_mem_cons.mpr ⟨List.cons_ne_nil _ _, fun line hline => nomatch hline⟩
      · next line rest hlines =>
        rw [hlines] at ih
        exact List.forall_mem_cons.mpr ⟨List.cons_ne_nil _ _, fun line hline => ih line (List.mem_cons_of_mem _ hline)⟩

/-- `str.splitlines` splits each line that LF or CRLF separate by itself. -/
theorem keepLines_feed (s : List Char) : keepLines s = (feedLines s).flatMap keepLines := by
  induction s with
  | nil => rfl
  | cons c s ih =>
    rw [feedLines]
    split
    · next hfeed =>
      subst hfeed
      rw [List.flatMap_cons, ← ih]
      rfl
    · next hfeed =>
      split
      · next hlines =>
        have hnil := feedLines_flatten s
        rw [hlines] at hnil
        rw [← hnil, List.flatMap_singleton]
        rfl
      · next line rest hlines =>
        have hne : line ≠ [] := feedLines_nonempty s line (by rw [hlines]; exact List.mem_cons_self)
        have hhead : line.head? = s.head? := by
          have hflatten := feedLines_flatten s
          rw [hlines, List.flatten_cons] at hflatten
          rw [← hflatten, List.head?_append_of_ne_nil _ hne]
        rw [hlines, List.flatMap_cons] at ih
        rw [List.flatMap_cons, keepLines, ih, keepLines, hhead]
        split
        · rfl
        · obtain ⟨first, others, hfirst⟩ := List.exists_cons_of_ne_nil (keepLines_ne_nil hne)
          rw [hfirst]
          rfl

/-! ## One line -/

/-- The first line that is not blank. -/
theorem blank_or_first (lines : List (List Char)) :
    (∀ line ∈ lines, stripChars line = []) ∨
      ∃ before line after, lines = before ++ line :: after ∧ (∀ other ∈ before, stripChars other = []) ∧
        stripChars line ≠ [] := by
  induction lines with
  | nil => exact Or.inl fun line hline => nomatch hline
  | cons first rest ih =>
    by_cases hfirst : stripChars first = []
    · rcases ih with hblank | ⟨before, line, after, rfl, hbefore, hline⟩
      · exact Or.inl (List.forall_mem_cons.mpr ⟨hfirst, hblank⟩)
      · exact Or.inr ⟨first :: before, line, after, rfl, List.forall_mem_cons.mpr ⟨hfirst, hbefore⟩, hline⟩
    · exact Or.inr ⟨[], first, rest, rfl, (fun other hother => nomatch hother), hfirst⟩

theorem countP_nonblank {before after : List (List Char)} {line : List Char}
    (hbefore : ∀ other ∈ before, stripChars other = []) (hline : stripChars line ≠ []) :
    (before ++ line :: after).countP (fun line => stripChars line ≠ []) = 1 ↔ ∀ other ∈ after, stripChars other = [] := by
  have hzero : before.countP (fun line => stripChars line ≠ []) = 0 := by
    rw [List.countP_eq_zero]
    exact fun other hother hne => absurd (hbefore other hother) (of_decide_eq_true hne)
  have hcons : (line :: after).countP (fun line => stripChars line ≠ []) =
      after.countP (fun line => stripChars line ≠ []) + 1 := List.countP_cons_of_pos (decide_eq_true hline)
  rw [List.countP_append, hcons, hzero, Nat.zero_add, Nat.add_eq_right,
    List.countP_eq_zero]
  exact forall₂_congr fun other _ => by rw [decide_eq_true_iff, not_not]

/-- **A text on one line**: the blank lines around it. -/
theorem onOneLine_iff {s : List Char} :
    OnOneLine s ↔ ∃ before line after, keepLines s = before ++ line :: after ∧
      (∀ other ∈ before, stripChars other = []) ∧ stripChars line ≠ [] ∧ ∀ other ∈ after, stripChars other = [] := by
  rw [OnOneLine]
  constructor
  · intro hone
    rcases blank_or_first (keepLines s) with hblank | ⟨before, line, after, hlines, hbefore, hline⟩
    · rw [List.countP_eq_zero.mpr fun line hline hne => absurd (hblank line hline) (of_decide_eq_true hne)] at hone
      cases hone
    · rw [hlines, countP_nonblank hbefore hline] at hone
      exact ⟨before, line, after, hlines, hbefore, hline, hone⟩
  · rintro ⟨before, line, after, hlines, hbefore, hline, hafter⟩
    rw [hlines, countP_nonblank hbefore hline]
    exact hafter

theorem blank_flatten {lines : List (List Char)} (h : ∀ line ∈ lines, stripChars line = []) :
    ∀ c ∈ lines.flatten, isSpace c = true := by
  intro c hc
  obtain ⟨line, hline, hmem⟩ := List.mem_flatten.mp hc
  exact trim_eq_nil.mp (h line hline) c hmem

theorem flatten_around {s : List Char} {before after : List (List Char)} {line : List Char}
    (h : keepLines s = before ++ line :: after) : s = before.flatten ++ (line ++ after.flatten) := by
  rw [← keepLines_flatten s, h, List.flatten_append, List.flatten_cons]

/-- **A JSON text whose lines are accepted stands on one line**: its value is the value of the first
line that is not blank, so that nothing is left for another line. -/
theorem onOneLine {d d' : Json.Reader} {s : List Char} (h : IsText d s)
    (hlines : ∀ line ∈ keepLines s, stripChars line ≠ [] → IsText d' line) : OnOneLine s := by
  rcases blank_or_first (keepLines s) with hblank | ⟨before, line, after, hsplit, hbefore, hline⟩
  · refine absurd ?_ (isText_nonblank h)
    rw [← keepLines_flatten s]
    exact trim_eq_nil.mpr (blank_flatten hblank)
  · obtain ⟨b', v', a', hvalue, hb', ha', hform'⟩ :=
      hlines line (by rw [hsplit]; exact List.mem_append_right _ List.mem_cons_self) hline
    obtain ⟨b, v, a, hs, hb, ha, hform⟩ := h
    have hne : ∀ {d : Json.Reader} {v : List Char}, Form d .value v → v ≠ [] := by
      rintro d v hform rfl
      obtain ⟨c, rest, hnil, -⟩ := hform.head
      cases hnil
    have hjoined : b ++ (v ++ a) = (before.flatten ++ b') ++ (v' ++ (a' ++ after.flatten)) := by
      rw [← hs, flatten_around hsplit, hvalue]
      simp only [List.append_assoc]
    obtain ⟨-, hrest⟩ := margin_unique (fun c hc => Json.isSpace_of_isWhite (hb c hc))
      (fun c hc => (List.mem_append.mp hc).elim (blank_flatten hbefore c) fun hc => Json.isSpace_of_isWhite (hb' c hc))
      (flush_append (hne hform) hform.flush) (flush_append (hne hform') hform'.flush) hjoined
    have hends : Json.NumberEnds a := by
      have hnil := Json.numberEnds_white ha (t := []) fun c hc => nomatch hc
      rwa [List.append_nil] at hnil
    have hends' : Json.NumberEnds (a' ++ after.flatten) := by
      cases a' with
      | cons c a' => exact Json.numberEnds_isWhite (ha' c List.mem_cons_self) _
      | nil =>
        cases after with
        | nil => exact fun c hc => nomatch hc
        | cons next after =>
          -- the line would end with its value, and not with a line break
          obtain ⟨init, c, hlast, hspace⟩ := keepLines_break hsplit
          obtain ⟨init', c', hlast', hspace'⟩ := hform'.last
          rw [List.append_nil, hlast', hlast, ← List.append_assoc] at hvalue
          have hc := (List.append_inj' hvalue rfl).2
          rw [(List.cons.inj hc).1, hspace'] at hspace
          cases hspace
    obtain ⟨-, hafter⟩ := Json.form_unique hform hform' hends hends' hrest
    rw [onOneLine_iff]
    refine ⟨before, line, after, hsplit, hbefore, hline, fun other hother => trim_eq_nil.mpr fun c hc => ?_⟩
    refine Json.isSpace_of_isWhite (ha c ?_)
    rw [hafter]
    exact List.mem_append_right _ (List.mem_flatten.mpr ⟨other, hother, hc⟩)

/-! ## Parts -/

/-- **What is accepted**: the lines that are not blank, each with its part. -/
theorem parseLines_ok {library : Library} (hjson : LoadsJson library) {cursor count : Nat} {lines : List (List Char)}
    {parts : List Part} :
    parseLines library cursor count lines = .ok parts ↔
      (∀ line ∈ lines, stripChars line ≠ [] → IsText Json.python line) ∧ parts = lineParts cursor lines := by
  induction lines generalizing cursor count parts with
  | nil =>
    rw [parseLines, lineParts, Except.ok.injEq, eq_comm]
    exact ⟨fun h => ⟨fun line hline => (List.not_mem_nil hline).elim, h⟩, fun h => h.2⟩
  | cons line rest ih =>
    obtain ⟨ending, hending, hline⟩ := raw_split line
    rw [parseLines, lineParts, List.forall_mem_cons]
    simp only
    generalize (line.reverse.dropWhile fun c => c = '\r' || c = '\n').reverse = raw at hline ⊢
    have hstrip : stripChars line = stripChars raw := by
      have htrim := @trim_between _ isSpace [] raw ending (fun c hc => (List.not_mem_nil hc).elim)
        fun c hc => Json.isSpace_of_isWhite (hending c hc)
      rw [List.nil_append, ← hline] at htrim
      exact htrim
    have htext : IsText Json.python line ↔ IsText Json.python raw := by
      have hbetween := isText_between (d := Json.python) (s := raw) Json.isWhite_nil hending
      rw [List.nil_append, ← hline] at hbetween
      exact hbetween
    rw [hstrip, htext]
    split
    · next hblank =>
      rw [ih, List.nil_append]
      exact and_congr_left fun _ => ⟨fun h => ⟨fun hne => absurd hblank hne, h⟩, fun h => h.2⟩
    · next hvalue =>
      have hstart : (line.takeWhile isSpace).length = raw.length - (raw.dropWhile isSpace).length := by
        rw [hline, takeWhile_append hvalue, takeWhile_length]
      have haccept : library.jsonError raw = none ↔ IsText Json.python raw := (hjson raw).trans Json.accepts_iff
      rw [hstart, List.singleton_append]
      cases herror : library.jsonError raw with
      | some message =>
        have hno : ¬ IsText Json.python raw := by
          rw [← haccept, herror]
          rintro ⟨⟩
        exact ⟨by rintro ⟨⟩, fun h => absurd (h.1.1 hvalue) hno⟩
      | none =>
        have hyes : IsText Json.python raw := haccept.mp herror
        cases hrest : parseLines library (cursor + line.length) (count + 1) rest with
        | error message =>
          have hno : ¬ ∀ line ∈ rest, stripChars line ≠ [] → IsText Json.python line := by
            intro h
            have hok : parseLines library (cursor + line.length) (count + 1) rest = .ok (lineParts _ rest) := ih.mpr ⟨h, rfl⟩
            rw [hrest] at hok
            cases hok
          exact ⟨by rintro ⟨⟩, fun h => absurd h.1.2 hno⟩
        | ok others =>
          obtain ⟨hothers, rfl⟩ := ih.mp hrest
          refine ⟨fun h => ⟨⟨fun _ => hyes, hothers⟩, ?_⟩, fun h => ?_⟩
          · exact (Except.ok.inj h).symm
          · rw [h.2]
            rfl

theorem lineParts_append (pos : Nat) (lines others : List (List Char)) :
    lineParts pos (lines ++ others) = lineParts pos lines ++ lineParts (pos + lines.flatten.length) others := by
  induction lines generalizing pos with
  | nil => rfl
  | cons line rest ih =>
    rw [List.cons_append, lineParts, ih, lineParts, List.flatten_cons, List.length_append, List.append_assoc, Nat.add_assoc]

theorem lineParts_blank {lines : List (List Char)} (h : ∀ line ∈ lines, stripChars line = []) (pos : Nat) :
    lineParts pos lines = [] := by
  induction lines generalizing pos with
  | nil => rfl
  | cons line rest ih =>
    rw [lineParts, if_pos (h line List.mem_cons_self), ih fun other hother => h other (List.mem_cons_of_mem _ hother)]
    rfl

/-- A line is split into the parts that it has as a whole, if its text stands on one line. -/
theorem lineParts_keepLines {line : List Char} (h : stripChars line ≠ [] → OnOneLine line) (pos : Nat) :
    lineParts pos (keepLines line) = lineParts pos [line] := by
  by_cases hblank : stripChars line = []
  · have hlines : ∀ other ∈ keepLines line, stripChars other = [] := fun other hother =>
      trim_eq_nil.mpr fun c hc => trim_eq_nil.mp hblank c (by
        rw [← keepLines_flatten line]
        exact List.mem_flatten.mpr ⟨other, hother, hc⟩)
    rw [lineParts_blank hlines, lineParts_blank fun other hother => by rw [List.mem_singleton.mp hother, hblank]]
  · obtain ⟨before, only, after, hsplit, hbefore, honly, hafter⟩ := onOneLine_iff.mp (h hblank)
    have hflatten := flatten_around hsplit
    have hstrip : stripChars line = stripChars only := by
      rw [stripChars_eq, hflatten, trim_between (blank_flatten hbefore) (blank_flatten hafter), stripChars_eq]
    have hstart : (line.takeWhile isSpace).length = before.flatten.length + (only.takeWhile isSpace).length := by
      rw [hflatten, List.takeWhile_append_of_pos (blank_flatten hbefore), takeWhile_append honly, List.length_append]
    rw [hsplit, lineParts_append, lineParts_blank hbefore, lineParts, if_neg honly, lineParts_blank hafter, lineParts,
      if_neg hblank, hstrip, hstart, Nat.add_assoc]
    rfl

theorem lineParts_feed {lines : List (List Char)} (h : ∀ line ∈ lines, stripChars line ≠ [] → OnOneLine line) (pos : Nat) :
    lineParts pos (lines.flatMap keepLines) = lineParts pos lines := by
  induction lines generalizing pos with
  | nil => rfl
  | cons line rest ih =>
    have hfirst := lineParts_keepLines (h line List.mem_cons_self) pos
    rw [List.flatMap_cons, lineParts_append, hfirst, keepLines_flatten,
      ih fun other hother => h other (List.mem_cons_of_mem _ hother)]
    exact (lineParts_append pos [line] rest).symm ▸ by rw [List.flatten_singleton]

/-! ## Documents -/

theorem parseDocument_lines (library : Library) (content : String) {sourceType : String}
    (htype : sourceType = "json" ∨ sourceType = "jsonl") :
    parseDocument library content sourceType = parseLines library 0 0 (keepLines content.toList) := by
  rcases htype with rfl | rfl
  · rfl
  · rfl

/-- A line and the line of it that is not blank. -/
theorem isText_only {d : Json.Reader} {line only : List Char} {before after : List (List Char)}
    (hsplit : keepLines line = before ++ only :: after) (hbefore : ∀ other ∈ before, stripChars other = [])
    (honly : stripChars only ≠ []) (hafter : ∀ other ∈ after, stripChars other = []) (hmargins : WhiteMargins line) :
    stripChars line = stripChars only ∧ (IsText d only ↔ IsText d (stripChars line)) := by
  have hflatten := flatten_around hsplit
  have hstrip : stripChars line = stripChars only := by
    rw [stripChars_eq, hflatten, trim_between (blank_flatten hbefore) (blank_flatten hafter), stripChars_eq]
  have hwhite : WhiteMargins only := by
    rw [hflatten, whiteMargins_between (blank_flatten hbefore) (blank_flatten hafter) honly] at hmargins
    exact hmargins.1
  refine ⟨hstrip, ?_⟩
  rw [hstrip, isText_stripChars]
  exact and_iff_left hwhite

/-- The lines that a regular line is split into are accepted exactly if it is JSON. -/
theorem accepted_iff {line : List Char} (h : LineRegular line) :
    (∀ part ∈ keepLines line, stripChars part ≠ [] → IsText Json.python part) ↔ IsText Json.standard line := by
  obtain ⟨hone, hmargins, hsame⟩ := h
  obtain ⟨before, only, after, hsplit, hbefore, honly, hafter⟩ := onOneLine_iff.mp hone
  obtain ⟨hstrip, htext⟩ := isText_only (d := Json.python) hsplit hbefore honly hafter hmargins
  rw [isText_stripChars, and_iff_left hmargins, hsame, ← htext, hsplit]
  constructor
  · exact fun h => h only (List.mem_append_right _ List.mem_cons_self) honly
  · intro h part hpart hne
    rcases List.mem_append.mp hpart with hpart | hpart
    · exact absurd (hbefore part hpart) hne
    · rcases List.mem_cons.mp hpart with rfl | hpart
      · exact h
      · exact absurd (hafter part hpart) hne

/-- **A document is accepted as it should be** if and only if it stands on one line and `json.loads` takes
it. -/
theorem json_iff {library : Library} (hjson : LoadsJson library) (content : String) :
    JsonLaw library content ↔ JsonRegular content.toList := by
  have hparse : (∃ parts, parseDocument library content "json" = .ok parts) ↔
      ∀ line ∈ keepLines content.toList, stripChars line ≠ [] → IsText Json.python line := by
    rw [parseDocument_lines library content (Or.inl rfl)]
    exact ⟨fun ⟨parts, h⟩ => ((parseLines_ok hjson).mp h).1, fun h => ⟨_, (parseLines_ok hjson).mpr ⟨h, rfl⟩⟩⟩
  rw [JsonLaw, JsonRegular, hparse]
  refine imp_congr_right fun htext => ?_
  have hmargins := (isText_stripChars.mp htext).2
  constructor
  · intro h
    have hone := onOneLine htext h
    obtain ⟨before, only, after, hsplit, hbefore, honly, hafter⟩ := onOneLine_iff.mp hone
    obtain ⟨-, honlyText⟩ := isText_only (d := Json.python) hsplit hbefore honly hafter hmargins
    have honlyAccepted := h only (by rw [hsplit]; exact List.mem_append_right _ List.mem_cons_self) honly
    exact ⟨hone, isText_stripChars.mpr ⟨honlyText.mp honlyAccepted, hmargins⟩⟩
  · rintro ⟨hone, hpython⟩
    have hsame : IsText Json.standard (stripChars content.toList) ↔ IsText Json.python (stripChars content.toList) :=
      iff_of_true (isText_stripChars.mp htext).1 (isText_stripChars.mp hpython).1
    exact (accepted_iff ⟨hone, hmargins, hsame⟩).mpr htext

/-- **A file of lines is accepted as it should be** if and only if its lines are regular. -/
theorem lines_iff {library : Library} (hjson : LoadsJson library) (content : String) :
    JsonLinesLaw library content ↔ LinesRegular content.toList := by
  have hvalid : (∀ line ∈ feedLines content.toList, stripChars line ≠ [] → IsText Json.standard (lineText line)) ↔
      ∀ line ∈ feedLines content.toList, stripChars line ≠ [] → IsText Json.standard line :=
    forall₂_congr fun line _ => imp_congr_right fun _ => isText_lineText
  have hparse : ∀ parts, parseDocument library content "jsonl" = .ok parts ↔
      (∀ line ∈ keepLines content.toList, stripChars line ≠ [] → IsText Json.python line) ∧
        parts = lineParts 0 (keepLines content.toList) := by
    intro parts
    rw [parseDocument_lines library content (Or.inr rfl)]
    exact parseLines_ok hjson
  have haccepted : (∃ parts, parseDocument library content "jsonl" = .ok parts) ↔
      ∀ line ∈ keepLines content.toList, stripChars line ≠ [] → IsText Json.python line :=
    ⟨fun ⟨parts, h⟩ => ((hparse parts).mp h).1, fun h => ⟨_, (hparse _).mpr ⟨h, rfl⟩⟩⟩
  have hpieces : (∀ line ∈ keepLines content.toList, stripChars line ≠ [] → IsText Json.python line) ↔
      ∀ line ∈ feedLines content.toList, ∀ part ∈ keepLines line, stripChars part ≠ [] → IsText Json.python part := by
    rw [keepLines_feed, List.forall_mem_flatMap]
  rw [JsonLinesLaw, LinesRegular, haccepted, hvalid]
  constructor
  · rintro ⟨hsame, -⟩ hgood line hline hne
    have htext : IsText Json.standard line := hgood.elim (fun h => h line hline hne) fun h => hsame.mp h line hline hne
    have hparts := hpieces.mp (hgood.elim hsame.mpr id) line hline
    have hmargins := (isText_stripChars.mp htext).2
    have hone := onOneLine htext hparts
    obtain ⟨before, only, after, hsplit, hbefore, honly, hafter⟩ := onOneLine_iff.mp hone
    obtain ⟨-, honlyText⟩ := isText_only (d := Json.python) hsplit hbefore honly hafter hmargins
    have honlyAccepted := hparts only (by rw [hsplit]; exact List.mem_append_right _ List.mem_cons_self) honly
    exact ⟨hone, hmargins, iff_of_true (isText_stripChars.mp htext).1 (honlyText.mp honlyAccepted)⟩
  · intro hregular
    have hblank : ∀ {line : List Char}, stripChars line = [] → ∀ part ∈ keepLines line, stripChars part = [] := by
      intro line hline part hpart
      refine trim_eq_nil.mpr fun c hc => trim_eq_nil.mp hline c ?_
      rw [← keepLines_flatten line]
      exact List.mem_flatten.mpr ⟨part, hpart, hc⟩
    refine ⟨⟨fun h line hline hne => ?_, fun h => hpieces.mpr fun line hline => ?_⟩, fun parts hok => ?_⟩
    · exact (accepted_iff (hregular (Or.inr h) line hline hne)).mp (hpieces.mp h line hline)
    · by_cases hne : stripChars line = []
      · exact fun part hpart hpart' => absurd (hblank hne part hpart) hpart'
      · exact (accepted_iff (hregular (Or.inl h) line hline hne)).mpr (h line hline hne)
    · obtain ⟨haccept, hparts⟩ := (hparse parts).mp hok
      constructor
      · rw [hparts, keepLines_feed]
        exact lineParts_feed (fun line hline hne => (hregular (Or.inr haccept) line hline hne).1) 0
      · rw [parseDocument_lines library content (Or.inr rfl)] at hok
        have hplaced := parseLines_placed hok
        rw [keepLines_flatten] at hplaced
        exact (@Placed.exact_iff 0 _ _ _ hplaced).mpr trivial

/-- **Both types.** -/
theorem jsonLines_iff {library : Library} (hjson : LoadsJson library) (content : String) :
    (JsonLaw library content ↔ JsonRegular content.toList) ∧ (JsonLinesLaw library content ↔ LinesRegular content.toList) :=
  ⟨json_iff hjson content, lines_iff hjson content⟩

/-- `textLibrary` with the acceptance of `json.loads`. -/
def jsonLibrary : Library :=
  { textLibrary with jsonError := fun raw => if Json.accepts Json.python raw then none else some "Expecting value" }

theorem jsonLibrary_loads : LoadsJson jsonLibrary := by
  intro raw
  change (if Json.accepts Json.python raw then none else some "Expecting value") = none ↔ _
  split
  · next h => exact ⟨fun _ => h, fun _ => rfl⟩
  · next h => exact ⟨fun hsome => (nomatch hsome), fun haccept => absurd haccept h⟩

theorem jsonLines_iff_twoLines :
    (JsonLaw jsonLibrary "[1]\r\n[]" ↔ JsonRegular "[1]\r\n[]".toList) ∧
      (JsonLinesLaw jsonLibrary "[1]\r\n[]" ↔ LinesRegular "[1]\r\n[]".toList) :=
  jsonLines_iff jsonLibrary_loads "[1]\r\n[]"

/-- An array on two lines is refused; a line with a line separator inside a string is, too. -/
theorem json_refused : ¬ JsonLaw jsonLibrary "[1,\n2]" ∧ ¬ JsonLinesLaw jsonLibrary "\"\u2028\"" := by
  have hrefused : ∀ {content sourceType : String}, (parseDocument jsonLibrary content sourceType).toOption = none →
      ¬ ∃ parts, parseDocument jsonLibrary content sourceType = .ok parts := by
    rintro content sourceType hnone ⟨parts, hok⟩
    rw [hok] at hnone
    cases hnone
  constructor
  · intro h
    exact hrefused (by decide) (h (by decide))
  · rintro ⟨hsame, -⟩
    exact hrefused (by decide) (hsame.mpr (by decide))

end CodexMemory.Import
