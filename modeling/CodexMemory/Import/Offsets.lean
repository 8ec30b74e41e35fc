import CodexMemory.Import.Model
import CodexMemory.Layout

/-!
# The places of the parts of a document

`parse_document` gives each part with its place in the content.  The parts are the stripped pieces of
the content from some place on; a piece of a block that is cut every 1600 characters keeps the place of
the cut, also where whitespace is stripped off its beginning.

* `parseText_placed`: the parts of every format of text, as pieces laid out in the content;
* `offsets_iff`: the places are exact if and only if no cut falls before whitespace;
* `lossless_iff`: text and Markdown lose nothing if and only if in addition nothing stands before the
  first heading.
-/

namespace CodexMemory.Import

open Regex

/-! ## Blocks -/

/-- No piece of a block that is cut begins with whitespace, unless it has nothing else. -/
def CutClean (maxChars : Nat) (value : List Char) : Prop :=
  ∀ piece ∈ cut maxChars value, stripChars piece.2 ≠ [] → Flush isSpace piece.2

/-- So it is for every block of a text that is too long for one part. -/
def AlignedText (text : List Char) : Prop :=
  ∀ paragraph ∈ paragraphs text, maxPart < (stripChars paragraph.2).length → CutClean maxPart (stripChars paragraph.2)

/-- The sections of a Markdown document, from each heading to the next one. -/
def sectionTexts (content : List Char) : List (Nat × List Char) → List (List Char)
  | [] => []
  | (start, _) :: rest =>
    stripChars ((content.drop start).take (((rest.head?.map Prod.fst).getD content.length) - start)) ::
      sectionTexts content rest

/-- **No cut falls before whitespace**, in a content of a format of text. -/
def Aligned (content : List Char) (normalized : String) : Prop :=
  if normalized = "jsonl" || normalized = "json" then True
  else if normalized = "markdown" || normalized = "md" then
    if headings content = [] then AlignedText content
    else ∀ text ∈ sectionTexts content (headings content), maxPart < text.length → AlignedText text
  else AlignedText content

/-- What stands before the first heading of a Markdown document. -/
def preamble (content : List Char) (normalized : String) : List Char :=
  if normalized = "markdown" || normalized = "md" then content.take (((headings content).head?.map Prod.fst).getD 0)
  else []

/-! ## Pieces -/

/-- The part that a piece gives. -/
def placed (piece : Nat × List Char) : Part := Part.at (stripChars piece.2) piece.1

/-- The part without its heading. -/
def Part.bare (p : Part) : Part := { p with heading := none }

/-- The parts are the stripped pieces of a text that begins at a place; no piece begins with whitespace
exactly if `aligned` holds. -/
def Placed (pos : Nat) (text : List Char) (parts : List Part) (aligned : Prop) : Prop :=
  ∃ pieces, Laid isSpace pos text pieces ∧ parts.map Part.bare = pieces.map placed ∧
    (aligned ↔ ∀ piece ∈ pieces, Flush isSpace piece.2)

theorem stripChars_eq (s : List Char) : stripChars s = trim isSpace s := rfl

namespace Placed

theorem nil {pos : Nat} {text : List Char} (h : stripChars text = []) : Placed pos text [] True :=
  ⟨[], Laid.nil (trim_eq_nil.mp h), rfl, ⟨fun _ _ hpiece => (List.not_mem_nil hpiece).elim, fun _ => trivial⟩⟩

theorem congr {pos : Nat} {text : List Char} {parts : List Part} {aligned aligned' : Prop}
    (h : Placed pos text parts aligned) (haligned : aligned ↔ aligned') : Placed pos text parts aligned' := by
  obtain ⟨pieces, hlaid, hparts, hflush⟩ := h
  exact ⟨pieces, hlaid, hparts, haligned.symm.trans hflush⟩

theorem append {pos : Nat} {s t : List Char} {parts others : List Part} {a b : Prop} (hs : Placed pos s parts a)
    (ht : Placed (pos + s.length) t others b) : Placed pos (s ++ t) (parts ++ others) (a ∧ b) := by
  obtain ⟨pieces, hlaid, hparts, hflush⟩ := hs
  obtain ⟨pieces', hlaid', hparts', hflush'⟩ := ht
  refine ⟨pieces ++ pieces', hlaid.append hlaid', by rw [List.map_append, List.map_append, hparts, hparts'], ?_⟩
  rw [hflush, hflush']
  constructor
  · rintro ⟨h, h'⟩ piece hpiece
    rcases List.mem_append.mp hpiece with hpiece | hpiece
    · exact h piece hpiece
    · exact h' piece hpiece
  · intro h
    exact ⟨fun piece hpiece => h piece (List.mem_append_left _ hpiece),
      fun piece hpiece => h piece (List.mem_append_right _ hpiece)⟩

/-- Parts of a text between whitespace. -/
theorem between {pos : Nat} {before s after : List Char} {parts : List Part} {a : Prop}
    (hbefore : ∀ c ∈ before, isSpace c = true) (hafter : ∀ c ∈ after, isSpace c = true)
    (h : Placed (pos + before.length) s parts a) : Placed pos (before ++ (s ++ after)) parts a := by
  obtain ⟨pieces, hlaid, hparts, hflush⟩ := h
  exact ⟨pieces, hlaid.between hbefore hafter, hparts, hflush⟩

/-- A stripped text that is one part. -/
theorem one {pos : Nat} {value : List Char} (heading : Option String) (hvalue : stripChars value ≠ [])
    (htight : stripChars value = value) :
    Placed pos value [{ Part.at value pos with heading := heading }] True := by
  refine ⟨[(pos, value)], Laid.one hvalue, ?_, ?_⟩
  · rw [List.map_cons, List.map_cons, placed, htight]
    rfl
  · refine ⟨fun _ piece hpiece => ?_, fun _ => trivial⟩
    rw [List.mem_singleton.mp hpiece, ← htight]
    exact trim_flush value

/-- A text without parts is whitespace. -/
theorem blank_of_nil {pos : Nat} {text : List Char} {a : Prop} (h : Placed pos text [] a) : stripChars text = [] := by
  obtain ⟨pieces, hlaid, hparts, -⟩ := h
  rw [List.map_nil, eq_comm, List.map_eq_nil_iff] at hparts
  subst hparts
  cases hlaid with
  | nil hgap => exact trim_eq_nil.mpr hgap

/-- **Pieces that are cut into parts in their turn.** -/
theorem flatMap {pos : Nat} {text : List Char} {pieces : List (Nat × List Char)} (h : Laid isSpace pos text pieces)
    {parts : Nat × List Char → List Part} {aligned : Nat × List Char → Prop}
    (hparts : ∀ p ∈ pieces, Placed p.1 p.2 (parts p) (aligned p)) :
    Placed pos text (pieces.flatMap parts) (∀ p ∈ pieces, aligned p) := by
  induction h with
  | nil hgap =>
    exact (nil (trim_eq_nil.mpr hgap)).congr ⟨fun _ _ hp => (List.not_mem_nil hp).elim, fun _ => trivial⟩
  | @cons pos gap piece rest pieces hgap hpiece _ ih =>
    have hfirst := hparts _ List.mem_cons_self
    have hothers := ih fun p hp => hparts p (List.mem_cons_of_mem _ hp)
    have hboth : Placed pos (gap ++ (piece ++ rest ++ [])) _ _ :=
      between hgap (fun _ hc => nomatch hc) (hfirst.append hothers)
    rw [List.append_nil] at hboth
    exact hboth.congr List.forall_mem_cons.symm

/-- The parts of a text that begins elsewhere, under a heading. -/
theorem shift {pos : Nat} {text : List Char} {parts : List Part} {a : Prop} (h : Placed pos text parts a) (k : Nat)
    (heading : Option String) :
    Placed (k + pos) text
      (parts.map fun p => { p with heading := heading, start := k + p.start, stop := k + p.stop }) a := by
  obtain ⟨pieces, hlaid, hparts, hflush⟩ := h
  refine ⟨_, hlaid.shift k, ?_, ?_⟩
  · have hmoved := congrArg (List.map fun p : Part => { p with start := k + p.start, stop := k + p.stop }) hparts
    rw [List.map_map, List.map_map] at hmoved
    rw [List.map_map, List.map_map]
    refine Eq.trans hmoved (List.map_congr_left fun p _ => ?_)
    simp only [Function.comp_apply, placed, Part.at, Nat.add_assoc]
  · rw [hflush, List.forall_mem_map]

end Placed

/-! ## Cutting -/

theorem cut_nil {n : Nat} (hn : 0 < n) : cut n [] = [] := by
  rw [cut, List.length_nil, Nat.zero_add, Nat.div_eq_of_lt (by omega)]
  rfl

/-- The first piece, and those of the rest. -/
theorem cut_cons {n : Nat} (hn : 0 < n) {value : List Char} (hvalue : value ≠ []) :
    cut n value = (0, value.take n) :: (cut n (value.drop n)).map fun p => (n + p.1, p.2) := by
  have hlength : 0 < value.length := List.length_pos_iff.mpr hvalue
  have hcount : (value.length + n - 1) / n = ((value.drop n).length + n - 1) / n + 1 := by
    rw [List.length_drop]
    by_cases hle : n ≤ value.length
    · rw [show value.length + n - 1 = (value.length - n + n - 1) + n by omega, Nat.add_div_right _ hn]
    · rw [show value.length - n + n - 1 = n - 1 by omega, Nat.div_eq_of_lt (by omega : n - 1 < n),
        show value.length + n - 1 = (value.length - 1) + n by omega, Nat.add_div_right _ hn,
        Nat.div_eq_of_lt (by omega)]
  rw [cut, hcount, List.range_succ_eq_map, List.map_cons, List.map_map, cut, List.map_map]
  congr 1
  · rw [Nat.zero_mul, List.drop_zero]
  · refine List.map_congr_left fun i _ => ?_
    simp only [Function.comp_apply, Nat.succ_mul, List.drop_drop]
    rw [Nat.add_comm (i * n) n]

theorem pieces_cons {n : Nat} (hn : 0 < n) {value : List Char} (hvalue : value ≠ []) (start : Nat) :
    pieces n value start =
      (if stripChars (value.take n) = [] then [] else [Part.at (stripChars (value.take n)) start]) ++
        pieces n (value.drop n) (start + n) := by
  rw [pieces, cut_cons hn hvalue, List.filterMap_cons, List.filterMap_map]
  have hrest : (cut n (value.drop n)).filterMap ((fun piece : Nat × List Char =>
        if stripChars piece.2 = [] then none else some (Part.at (stripChars piece.2) (start + piece.1))) ∘
          fun p => (n + p.1, p.2)) = pieces n (value.drop n) (start + n) := by
    rw [pieces]
    refine List.filterMap_congr fun p _ => ?_
    simp only [Function.comp_apply, Nat.add_assoc]
  rw [hrest]
  split
  · next h =>
    split at h
    · rw [if_pos ‹_›, List.nil_append]
    · cases h
  · next part h =>
    split at h
    · cases h
    · rw [if_neg ‹_›, ← Option.some.inj h]
      rfl

/-- **The pieces of a block that have a text are laid out in it.** -/
theorem pieces_placed {n : Nat} (hn : 0 < n) (start : Nat) (value : List Char) :
    Placed start value (pieces n value start) (CutClean n value) := by
  induction hlength : value.length using Nat.strongRecOn generalizing start value with
  | ind k ih =>
    subst hlength
    by_cases hvalue : value = []
    · subst hvalue
      rw [pieces, cut_nil hn]
      refine (Placed.nil rfl).congr ⟨fun _ piece hpiece => ?_, fun _ => trivial⟩
      rw [cut_nil hn] at hpiece
      cases hpiece
    · have hpos : 0 < value.length := List.length_pos_iff.mpr hvalue
      have hfirst : Placed start (value.take n)
          (if stripChars (value.take n) = [] then [] else [Part.at (stripChars (value.take n)) start])
          (stripChars (value.take n) ≠ [] → Flush isSpace (value.take n)) := by
        split
        · next hblank => exact (Placed.nil hblank).congr ⟨fun _ h => absurd hblank h, fun _ => trivial⟩
        · next hblank =>
          refine ⟨[(start, value.take n)], Laid.one hblank, rfl, fun h piece hpiece => ?_, fun h _ => ?_⟩
          · rw [List.mem_singleton.mp hpiece]
            exact h hblank
          · exact h _ (List.mem_singleton.mpr rfl)
      have hrest : Placed (start + (value.take n).length) (value.drop n) (pieces n (value.drop n) (start + n))
          (CutClean n (value.drop n)) := by
        have hshorter : (value.drop n).length < value.length := by
          rw [List.length_drop]
          omega
        by_cases hle : n ≤ value.length
        · rw [List.length_take_of_le hle]
          exact ih _ hshorter (start + n) _ rfl
        · -- the first piece is the last one
          have hnil : value.drop n = [] := List.drop_eq_nil_of_le (by omega)
          have hplaced := ih _ hshorter (start + (value.take n).length) _ rfl
          rw [hnil] at hplaced ⊢
          rw [pieces, cut_nil hn] at hplaced ⊢
          exact hplaced
      have hboth := hfirst.append hrest
      rw [List.take_append_drop] at hboth
      rw [pieces_cons hn hvalue]
      refine hboth.congr ?_
      rw [CutClean, CutClean, cut_cons hn hvalue, List.forall_mem_cons, List.forall_mem_map]

/-! ## Blocks of a text -/

theorem paragraph_some {prev : Option Char} {s : List Char} {m : List Char × Nat}
    (h : ((run paragraphPattern prev s).head?.map fun m => (m.1, m.1.length)) = some m) :
    m.1 ≠ [] ∧ Flush isSpace m.1 ∧ m.2 = m.1.length ∧ ∃ rest, s = m.1 ++ rest := by
  rw [Option.map_eq_some_iff] at h
  obtain ⟨⟨text, rest⟩, hhead, rfl⟩ := h
  obtain ⟨hs, hmatch⟩ := (mem_run _ _ _ _ _).mp (List.mem_of_mem_head? hhead)
  obtain ⟨first, others, rfl, ⟨c, rfl, hc⟩, -⟩ := hmatch
  refine ⟨List.cons_ne_nil _ _, fun d hd => ?_, rfl, rest, hs⟩
  rw [← Option.mem_some.mp hd]
  exact (Bool.not_eq_true' _).mp hc

/-- A block begins wherever a character is not whitespace. -/
theorem paragraph_none {prev : Option Char} {c : Char} {s : List Char}
    (h : ((run paragraphPattern prev (c :: s)).head?.map fun m => (m.1, m.1.length)) = none) : isSpace c = true := by
  rw [Option.map_eq_none_iff, List.head?_eq_none_iff] at h
  by_contra hc
  have hmem : (c :: s, []) ∈ run paragraphPattern prev (c :: s) := by
    rw [mem_run]
    refine ⟨(List.append_nil _).symm, [c], s, rfl, ⟨c, rfl, by simpa using hc⟩, s, [], (List.append_nil s).symm, ?_, rfl,
      rfl⟩
    exact ⟨Nat.zero_le _, fun _ _ => rfl⟩
  rw [h] at hmem
  cases hmem

theorem stripChars_ne_nil {s : List Char} (hs : s ≠ []) (hflush : Flush isSpace s) : stripChars s ≠ [] := by
  intro h
  obtain ⟨c, rest, rfl⟩ := List.exists_cons_of_ne_nil hs
  have hblank := trim_eq_nil.mp h c List.mem_cons_self
  rw [hflush c rfl] at hblank
  cases hblank

theorem paragraphs_scanned (text : List Char) :
    Scanned (fun prev s => (run paragraphPattern prev s).head?.map fun m => (m.1, m.1.length)) none 0 text
      (paragraphs text) := by
  refine finditer_scanned (fun prev s m h => ?_) none 0 text
  obtain ⟨hne, -, hlength, rest, hs⟩ := paragraph_some h
  rw [hlength, hs, List.length_append]
  exact ⟨List.length_pos_iff.mpr hne, Nat.le_add_right _ _⟩

/-- **The blocks hold all of a text but whitespace.** -/
theorem paragraphs_laid (text : List Char) : Laid isSpace 0 text (paragraphs text) := by
  refine (paragraphs_scanned text).laid (fun prev s m h => ?_) fun prev c s h => paragraph_none h
  obtain ⟨hne, hflush, hlength, rest, hs⟩ := paragraph_some h
  refine ⟨stripChars_ne_nil hne hflush, ?_⟩
  rw [hlength, hs, List.take_left]

theorem paragraphs_flush {text : List Char} : ∀ p ∈ paragraphs text, Flush isSpace p.2 := by
  intro p hp
  obtain ⟨prev, t, n, hfirst⟩ := (paragraphs_scanned text).exists_first p hp
  exact (paragraph_some hfirst).2.1

/-- A text without an empty line is one block. -/
theorem paragraphs_line {text : List Char} (hne : text ≠ []) (hflush : Flush isSpace text) (hline : '\n' ∉ text) :
    paragraphs text = [(0, text)] := by
  obtain ⟨c, s, rfl⟩ := List.exists_cons_of_ne_nil hne
  have hfirst : ((run paragraphPattern none (c :: s)).head?.map fun m => (m.1, m.1.length)) =
      some (c :: s, s.length + 1) := by
    cases hm : ((run paragraphPattern none (c :: s)).head?.map fun m => (m.1, m.1.length)) with
    | none =>
      have hblank := paragraph_none hm
      rw [hflush c rfl] at hblank
      cases hblank
    | some m =>
      -- a block that ends before the text does ends at a newline
      rw [Option.map_eq_some_iff] at hm
      obtain ⟨⟨found, rest⟩, hhead, rfl⟩ := hm
      obtain ⟨hs, hmatch⟩ := (mem_run _ _ _ _ _).mp (List.mem_of_mem_head? hhead)
      obtain ⟨first, others, -, -, stretch, test, -, -, -, hahead⟩ := hmatch
      cases rest with
      | nil =>
        rw [List.append_nil] at hs
        subst hs
        rfl
      | cons d rest =>
        rw [blankAhead, Bool.and_eq_true, decide_eq_true_iff] at hahead
        refine absurd ?_ hline
        rw [hs, hahead.1]
        exact List.mem_append_right _ List.mem_cons_self
  have hskip := finditer_skip (fun prev s => (run paragraphPattern prev s).head?.map fun m => (m.1, m.1.length))
    (some c) 1 s []
  rw [List.append_nil] at hskip
  rw [paragraphs, finditer, hfirst]
  simp only [Nat.add_sub_cancel, Nat.zero_add]
  rw [hskip, finditer]

/-- The parts of one block. -/
def blockParts (paragraph : Nat × List Char) : List Part :=
  let value := stripChars paragraph.2
  if value = [] then []
  else
    let start := paragraph.1 + (paragraph.2.length - (paragraph.2.dropWhile isSpace).length)
    if value.length ≤ maxPart then [Part.at value start] else pieces maxPart value start

/-- A block stands where its paragraph does. -/
theorem blockParts_placed {p : Nat × List Char} (hflush : Flush isSpace p.2) (hvalue : stripChars p.2 ≠ []) :
    Placed p.1 p.2 (blockParts p) (maxPart < (stripChars p.2).length → CutClean maxPart (stripChars p.2)) := by
  obtain ⟨after, hafter, hsplit⟩ := eq_trim_of_flush hflush
  have hstart : p.1 + (p.2.length - (p.2.dropWhile isSpace).length) = p.1 := by
    rw [dropWhile_of_flush hflush, Nat.sub_self, Nat.add_zero]
  have hparts : Placed p.1 (stripChars p.2) (blockParts p)
      (maxPart < (stripChars p.2).length → CutClean maxPart (stripChars p.2)) := by
    simp only [blockParts, if_neg hvalue, hstart]
    split
    · next hle =>
      have htight : stripChars (stripChars p.2) = stripChars p.2 := trim_trim p.2
      exact (Placed.one none (by rwa [htight]) htight).congr ⟨fun _ h => absurd hle (by omega), fun _ => trivial⟩
    · next hlt =>
      exact (pieces_placed (by decide) p.1 (stripChars p.2)).congr ⟨fun h _ => h, fun h => h (by omega)⟩
  have hplaced : Placed p.1 ([] ++ (stripChars p.2 ++ after)) (blockParts p) _ :=
    Placed.between (fun _ hc => nomatch hc) hafter hparts
  rwa [List.nil_append, stripChars_eq, ← hsplit] at hplaced

theorem blocks_placed (text : List Char) :
    Placed 0 text ((paragraphs text).flatMap blockParts) (AlignedText text) :=
  Placed.flatMap (paragraphs_laid text) fun p hp =>
    blockParts_placed (paragraphs_flush p hp) ((paragraphs_laid text).nonblank p hp)

/-- Nothing is left for the second loop. -/
theorem splitBounded_eq (text : List Char) : splitBounded text = (paragraphs text).flatMap blockParts := by
  show (if (paragraphs text).flatMap blockParts = [] && stripChars text ≠ [] then _ else _) = _
  split
  · next h =>
    rw [Bool.and_eq_true, decide_eq_true_iff, decide_eq_true_iff] at h
    have hblocks := blocks_placed text
    rw [h.1] at hblocks
    exact absurd hblocks.blank_of_nil h.2
  · rfl

/-- **The parts of a text.** -/
theorem splitBounded_placed (text : List Char) : Placed 0 text (splitBounded text) (AlignedText text) := by
  rw [splitBounded_eq]
  exact blocks_placed text

/-! ## Sections -/

theorem headingAt_some {prev : Option Char} {s : List Char} {m : List Char × Nat} (h : headingAt prev s = some m) :
    ∃ mark title tail rest, s = mark ++ (title ++ (tail ++ rest)) ∧ '#' ∈ mark ∧
      m.2 = mark.length + title.length + tail.length := by
  rw [headingAt] at h
  have hmem := List.mem_of_mem_head? h
  obtain ⟨⟨mark, s₁⟩, hmark, hmem⟩ := List.mem_flatMap.mp hmem
  obtain ⟨⟨title, s₂⟩, htitle, hmem⟩ := List.mem_flatMap.mp hmem
  obtain ⟨⟨tail, rest⟩, htail, rfl⟩ := List.mem_map.mp hmem
  obtain ⟨hs, hmatches⟩ := (mem_run _ _ _ _ _).mp hmark
  obtain ⟨rfl, -⟩ := (mem_run _ _ _ _ _).mp htitle
  obtain ⟨rfl, -⟩ := (mem_run _ _ _ _ _).mp htail
  refine ⟨mark, title, tail, rest, hs, ?_, rfl⟩
  obtain ⟨start, _, rfl, -, spaces, _, rfl, -, _, others, rfl, ⟨c, rfl, hc⟩, -⟩ := hmatches
  rw [decide_eq_true_iff] at hc
  subst hc
  exact List.mem_append_right _ (List.mem_append_right _ List.mem_cons_self)

theorem headings_scanned (content : List Char) : Scanned headingAt none 0 content (headings content) := by
  refine finditer_scanned (fun prev s m h => ?_) none 0 content
  obtain ⟨mark, title, tail, rest, rfl, hmark, hlength⟩ := headingAt_some h
  have hpos := List.length_pos_of_mem hmark
  simp only [List.length_append]
  omega

/-- A section is not whitespace alone. -/
theorem heading_nonblank {content : List Char} {first : Nat × List Char} {others : List (Nat × List Char)}
    (h : headings content = first :: others) : stripChars (content.drop first.1) ≠ [] := by
  have hscan := headings_scanned content
  rw [h] at hscan
  cases hscan with
  | @cons _ _ before found rest title _ _ hfirst _ _ =>
    obtain ⟨mark, title', tail, rest', hs, hmark, -⟩ := headingAt_some hfirst
    intro hblank
    rw [Nat.zero_add, List.drop_left] at hblank
    have hhash := trim_eq_nil.mp hblank '#' (by rw [hs]; exact List.mem_append_left _ hmark)
    cases hhash

/-- The parts of one section. -/
theorem sectionParts_placed (content title : List Char) (start stop : Nat) :
    Placed start ((content.drop start).take (stop - start)) (sectionParts content title start stop)
      (maxPart < (stripChars ((content.drop start).take (stop - start))).length →
        AlignedText (stripChars ((content.drop start).take (stop - start)))) := by
  rw [sectionParts]
  generalize (content.drop start).take (stop - start) = whole
  simp only
  split
  · next hblank =>
    rw [hblank]
    exact (Placed.nil hblank).congr ⟨fun _ h => absurd h (by simp), fun _ => trivial⟩
  · next hvalue =>
    obtain ⟨before, after, hbefore, hafter, hwhole, hlength⟩ := eq_trim isSpace whole
    rw [← hlength]
    have hparts : Placed (start + before.length) (stripChars whole)
        (if (stripChars whole).length ≤ maxPart then
          [{ Part.at (stripChars whole) (start + before.length) with heading := some (String.ofList (stripChars title)) }]
        else (splitBounded (stripChars whole)).map fun p =>
          { p with
            heading := some (String.ofList (stripChars title)), start := start + before.length + p.start,
            stop := start + before.length + p.stop })
        (maxPart < (stripChars whole).length → AlignedText (stripChars whole)) := by
      split
      · next hle =>
        have htight : stripChars (stripChars whole) = stripChars whole := trim_trim whole
        exact (Placed.one _ (by rwa [htight]) htight).congr ⟨fun _ h => absurd hle (by omega), fun _ => trivial⟩
      · next hlt =>
        have hplaced := (splitBounded_placed (stripChars whole)).shift (start + before.length)
          (some (String.ofList (stripChars title)))
        exact hplaced.congr ⟨fun h _ => h, fun h => h (by omega)⟩
    have hplaced := Placed.between hbefore hafter hparts
    rwa [stripChars_eq, ← hwhole] at hplaced

/-- **The parts of the sections**, for headings in their order. -/
theorem sectionsOf_placed {content : List Char} {start : Nat} {title : List Char} {rest : List (Nat × List Char)}
    (hsorted : ((start, title) :: rest).Pairwise fun x y => x.1 < y.1)
    (hbound : ∀ x ∈ (start, title) :: rest, x.1 ≤ content.length) :
    Placed start (content.drop start) (sectionsOf content ((start, title) :: rest))
      (∀ text ∈ sectionTexts content ((start, title) :: rest), maxPart < text.length → AlignedText text) := by
  induction rest generalizing start title with
  | nil =>
    have hstart := hbound _ List.mem_cons_self
    simp only at hstart
    have hwhole : (content.drop start).take (content.length - start) = content.drop start :=
      List.take_of_length_le (by rw [List.length_drop])
    have hplaced := sectionParts_placed content title start content.length
    rw [hwhole] at hplaced
    rw [sectionsOf, sectionsOf, sectionTexts, sectionTexts, List.append_nil]
    simp only [List.head?_nil, Option.map_none, Option.getD_none]
    rw [hwhole]
    refine hplaced.congr ?_
    rw [List.forall_mem_singleton]
  | cons next rest ih =>
    obtain ⟨stop, title'⟩ := next
    obtain ⟨hfirst, hothers⟩ := List.pairwise_cons.mp hsorted
    have hlt : start < stop := hfirst _ List.mem_cons_self
    have hle : stop ≤ content.length := hbound (stop, title') (List.mem_cons_of_mem _ List.mem_cons_self)
    have hplaced := sectionParts_placed content title start stop
    have hlength : ((content.drop start).take (stop - start)).length = stop - start := by
      rw [List.length_take, List.length_drop]
      omega
    have hrest := ih hothers fun x hx => hbound x (List.mem_cons_of_mem _ hx)
    have hsplit := List.take_append_drop (stop - start) (content.drop start)
    rw [List.drop_drop, Nat.add_sub_cancel' (Nat.le_of_lt hlt)] at hsplit
    have hboth := hplaced.append (by rwa [hlength, Nat.add_sub_cancel' (Nat.le_of_lt hlt)])
    rw [hsplit] at hboth
    rw [sectionsOf, sectionTexts]
    simp only [List.head?_cons, Option.map_some, Option.getD_some]
    refine hboth.congr ?_
    rw [List.forall_mem_cons]

theorem headings_sorted (content : List Char) :
    ((headings content).Pairwise fun x y => x.1 < y.1) ∧ ∀ x ∈ headings content, x.1 ≤ content.length := by
  refine ⟨(headings_scanned content).sorted, fun x hx => ?_⟩
  have hbounds := (headings_scanned content).bounds x hx
  omega

/-! ## Lines -/

theorem keepLines_flatten (s : List Char) : (keepLines s).flatten = s := by
  induction s with
  | nil => rfl
  | cons c s ih =>
    rw [keepLines]
    split
    · rw [List.flatten_cons, ih, List.singleton_append]
    · split
      · next hlines =>
        rw [hlines, List.flatten_nil] at ih
        rw [← ih]
        rfl
      · next line rest hlines =>
        rw [hlines, List.flatten_cons] at ih
        rw [List.flatten_cons, List.cons_append, ih]

/-- A line without its end, and the end. -/
theorem line_eq (line : List Char) :
    ∃ ending, (∀ c ∈ ending, isSpace c = true) ∧
      line = (line.reverse.dropWhile fun c => c = '\r' || c = '\n').reverse ++ ending := by
  refine ⟨(line.reverse.takeWhile fun c => c = '\r' || c = '\n').reverse, fun c hc => ?_, ?_⟩
  · have hend := List.mem_takeWhile_imp (List.mem_reverse.mp hc)
    rw [Bool.or_eq_true, decide_eq_true_iff, decide_eq_true_iff] at hend
    rcases hend with rfl | rfl
    · rfl
    · rfl
  · rw [← List.reverse_append, List.takeWhile_append_dropWhile, List.reverse_reverse]

/-- **The parts of lines.** -/
theorem parseLines_placed {library : Library} {cursor count : Nat} {lines : List (List Char)} {parts : List Part}
    (h : parseLines library cursor count lines = .ok parts) : Placed cursor lines.flatten parts True := by
  induction lines generalizing cursor count parts with
  | nil =>
    cases h
    exact Placed.nil rfl
  | cons line rest ih =>
    obtain ⟨ending, hending, hline⟩ := line_eq line
    rw [parseLines] at h
    simp only at h
    generalize (line.reverse.dropWhile fun c => c = '\r' || c = '\n').reverse = raw at h hline
    obtain ⟨before, after, hbefore, hafter, hraw, hlength⟩ := eq_trim isSpace raw
    rw [List.flatten_cons]
    split at h
    · next hblank =>
      have hgap : stripChars line = [] := by
        rw [stripChars_eq, trim_eq_nil, hline]
        intro c hc
        rcases List.mem_append.mp hc with hc | hc
        · exact trim_eq_nil.mp hblank c hc
        · exact hending c hc
      exact (Placed.append (Placed.nil hgap) (ih h)).congr (and_self_iff)
    · next hvalue =>
      split at h
      · cases h
      · cases hrest : parseLines library (cursor + line.length) (count + 1) rest with
        | error message =>
          rw [hrest] at h
          cases h
        | ok others =>
          rw [hrest] at h
          cases h
          have htight : stripChars (stripChars raw) = stripChars raw := trim_trim raw
          have hone : Placed (cursor + before.length) (stripChars raw) [Part.at (stripChars raw) (cursor + before.length)] True :=
            Placed.one none (by rwa [htight]) htight
          have hends : ∀ c ∈ after ++ ending, isSpace c = true := fun c hc =>
            (List.mem_append.mp hc).elim (hafter c) (hending c)
          have hfirst := Placed.between hbefore hends hone
          have htext : before ++ (stripChars raw ++ (after ++ ending)) = line := by
            rw [hline, stripChars_eq, ← List.append_assoc (trim isSpace raw), ← List.append_assoc before, ← hraw]
          rw [htext] at hfirst
          rw [← hlength]
          exact (hfirst.append (ih hrest)).congr (and_self_iff)

/-! ## Documents -/

/-- **The parts of a document in a format of text.** -/
theorem parseText_placed {library : Library} {content : List Char} {normalized : String} {parts : List Part}
    (h : parseText library content normalized = .ok parts) :
    Placed (preamble content normalized).length (content.drop (preamble content normalized).length) parts
      (Aligned content normalized) := by
  rw [parseText] at h
  rw [Aligned, preamble]
  split at h
  · next hjson =>
    have hmarkdown : (normalized = "markdown" || normalized = "md") = false := by
      rw [Bool.or_eq_true, decide_eq_true_iff, decide_eq_true_iff] at hjson
      rcases hjson with rfl | rfl
      · rfl
      · rfl
    rw [if_pos hjson, if_neg (Bool.not_eq_true _ ▸ hmarkdown)]
    have hplaced := parseLines_placed h
    rwa [keepLines_flatten] at hplaced
  · next hjson =>
    rw [if_neg hjson]
    split at h
    · next hmarkdown =>
      cases h
      rw [if_pos hmarkdown, if_pos hmarkdown]
      cases hheadings : headings content with
      | nil =>
        rw [parseMarkdown, if_pos hheadings, if_pos rfl]
        exact splitBounded_placed content
      | cons first rest =>
        obtain ⟨start, title⟩ := first
        obtain ⟨hsorted, hbound⟩ := headings_sorted content
        rw [hheadings] at hsorted hbound
        have hplaced := sectionsOf_placed hsorted hbound
        have hsections : sectionsOf content ((start, title) :: rest) ≠ [] := by
          intro hnil
          rw [hnil] at hplaced
          exact heading_nonblank hheadings hplaced.blank_of_nil
        have hlength : (content.take start).length = start :=
          List.length_take_of_le (hbound _ List.mem_cons_self)
        rw [parseMarkdown, if_neg (by rw [hheadings]; exact List.cons_ne_nil _ _), hheadings, if_neg hsections,
          if_neg (List.cons_ne_nil _ _)]
        simp only [List.head?_cons, Option.map_some, Option.getD_some]
        rwa [hlength]
    · next hmarkdown =>
      cases h
      rw [if_neg hmarkdown, if_neg hmarkdown]
      exact splitBounded_placed content

/-- A format that is read as text. -/
def isText (sourceType : String) : Bool := !(["pdf", "docx", "zip"].contains (lower sourceType))

theorem parseDocument_text {library : Library} {content sourceType : String} {parts : List Part}
    (htext : isText sourceType = true) (h : parseDocument library content sourceType = .ok parts) :
    parseText library content.toList (lower sourceType) = .ok parts := by
  have hbinary : ¬ (lower sourceType = "pdf" || lower sourceType = "docx" || lower sourceType = "zip") = true := by
    intro hbinary
    rw [Bool.or_eq_true, Bool.or_eq_true, decide_eq_true_iff, decide_eq_true_iff, decide_eq_true_iff] at hbinary
    rw [isText] at htext
    rcases hbinary with (hb | hb) | hb
    · rw [hb] at htext
      cases htext
    · rw [hb] at htext
      cases htext
    · rw [hb] at htext
      cases htext
  rw [parseDocument, if_neg hbinary] at h
  split at h
  · cases h
  · exact h

/-- The places of the parts: each part stands in the content at its range, is a stripped text, and
follows the part before; outside JSON a part has at most 1600 characters. -/
def OffsetsExact (content : List Char) (normalized : String) (parts : List Part) : Prop :=
  (∀ p ∈ parts, (content.drop p.start).take (p.stop - p.start) = p.text ∧ p.text ≠ [] ∧ stripChars p.text = p.text) ∧
    (parts.Pairwise fun p q => p.start < q.start ∧ p.stop ≤ q.start) ∧
    (normalized ≠ "json" → normalized ≠ "jsonl" → ∀ p ∈ parts, p.text.length ≤ maxPart)

/-- Every character but whitespace is in the range of exactly one part, and the texts of the parts are
the content but for whitespace. -/
def Lossless (content : List Char) (parts : List Part) : Prop :=
  (∀ i c, content[i]? = some c → isSpace c = false →
    parts.countP (fun p => decide (p.start ≤ i) && decide (i < p.stop)) = 1) ∧
    (parts.flatMap Part.text).filter (fun c => !isSpace c) = content.filter fun c => !isSpace c

namespace Placed

/-- What does not depend on headings can be read off the pieces. -/
theorem forall_iff {parts : List Part} {pieces : List (Nat × List Char)}
    (h : parts.map Part.bare = pieces.map placed) {Q : Part → Prop} (hQ : ∀ p : Part, Q p ↔ Q p.bare) :
    (∀ p ∈ parts, Q p) ↔ ∀ piece ∈ pieces, Q (placed piece) := by
  have hbare : (∀ p ∈ parts, Q p) ↔ ∀ p ∈ parts.map Part.bare, Q p := by
    rw [List.forall_mem_map]
    exact forall₂_congr fun p _ => hQ p
  rw [hbare, h, List.forall_mem_map]

/-- **The ranges are exact if and only if no piece begins with whitespace.** -/
theorem exact_iff {pos : Nat} {content : List Char} {parts : List Part} {a : Prop}
    (h : Placed pos (content.drop pos) parts a) :
    (∀ p ∈ parts, (content.drop p.start).take (p.stop - p.start) = p.text) ↔ a := by
  obtain ⟨pieces, hlaid, hparts, hflush⟩ := h
  rw [hflush, forall_iff hparts fun p => Iff.rfl]
  refine forall₂_congr fun piece hpiece => ?_
  obtain ⟨rest, hdrop⟩ := hlaid.drop_start rfl piece hpiece
  rw [← take_trim_iff (hlaid.nonblank piece hpiece) rest, ← hdrop]
  simp only [placed, Part.at, Nat.add_sub_cancel_left, stripChars_eq]

theorem stripped {pos : Nat} {text : List Char} {parts : List Part} {a : Prop} (h : Placed pos text parts a) :
    ∀ p ∈ parts, p.text ≠ [] ∧ stripChars p.text = p.text := by
  obtain ⟨pieces, hlaid, hparts, -⟩ := h
  rw [forall_iff hparts fun p => Iff.rfl]
  exact fun piece hpiece => ⟨hlaid.nonblank piece hpiece, trim_trim piece.2⟩

theorem pairwise {pos : Nat} {text : List Char} {parts : List Part} {a : Prop} (h : Placed pos text parts a) :
    parts.Pairwise fun p q => p.start < q.start ∧ p.stop ≤ q.start := by
  obtain ⟨pieces, hlaid, hparts, -⟩ := h
  have hbare : (parts.map Part.bare).Pairwise fun p q => p.start < q.start ∧ p.stop ≤ q.start := by
    rw [hparts, List.pairwise_map]
    refine hlaid.pairwise.imp_of_mem fun {p q} hp _ hpq => ?_
    have hpos : 0 < (stripChars p.2).length := List.length_pos_iff.mpr (hlaid.nonblank p hp)
    have hle : (stripChars p.2).length ≤ p.2.length := trim_length_le p.2
    simp only [placed, Part.at]
    omega
  exact List.pairwise_map.mp hbare

/-- **The texts are the content but for whitespace.** -/
theorem texts {pos : Nat} {text : List Char} {parts : List Part} {a : Prop} (h : Placed pos text parts a) :
    (parts.flatMap Part.text).filter (fun c => !isSpace c) = text.filter fun c => !isSpace c := by
  obtain ⟨pieces, hlaid, hparts, -⟩ := h
  have htexts : parts.flatMap Part.text = pieces.flatMap fun p => stripChars p.2 := by
    have hbare : parts.flatMap Part.text = (parts.map Part.bare).flatMap Part.text := by
      rw [List.flatMap_map]
      rfl
    rw [hbare, hparts, List.flatMap_map]
    rfl
  rw [htexts, ← hlaid.filter, List.filter_flatMap, List.filter_flatMap]
  exact List.flatMap_congr fun p _ => filter_trim p.2

theorem countP_eq {parts : List Part} {pieces : List (Nat × List Char)}
    (h : parts.map Part.bare = pieces.map placed) (i : Nat) :
    parts.countP (fun p => decide (p.start ≤ i) && decide (i < p.stop)) = pieces.countP (covers isSpace i) := by
  have hbare : parts.countP (fun p => decide (p.start ≤ i) && decide (i < p.stop)) =
      (parts.map Part.bare).countP fun p => decide (p.start ≤ i) && decide (i < p.stop) := by
    rw [List.countP_map]
    rfl
  rw [hbare, h, List.countP_map]
  rfl

/-- **The ranges cover what they should if and only if no piece begins with whitespace.** -/
theorem covered_iff {pos : Nat} {content : List Char} {parts : List Part} {a : Prop}
    (h : Placed pos (content.drop pos) parts a) :
    (∀ i c, pos ≤ i → content[i]? = some c → isSpace c = false →
      parts.countP (fun p => decide (p.start ≤ i) && decide (i < p.stop)) = 1) ↔ a := by
  obtain ⟨pieces, hlaid, hparts, hflush⟩ := h
  rw [hflush]
  constructor
  · intro hcovered piece hpiece
    by_contra hnot
    obtain ⟨i, c, hc, hspace, hcount⟩ := hlaid.uncovered hpiece hnot
    rw [List.getElem?_drop] at hc
    have hone := hcovered (pos + i) c (Nat.le_add_right _ _) hc hspace
    rw [countP_eq hparts, hcount] at hone
    cases hone
  · intro hall i c hi hc hspace
    have hdrop : (content.drop pos)[i - pos]? = some c := by
      rw [List.getElem?_drop, Nat.add_sub_cancel' hi, hc]
    have hcount := hlaid.count_of_flush hall hdrop hspace
    rwa [Nat.add_sub_cancel' hi, ← countP_eq hparts] at hcount

/-- What stands before the text is in no range. -/
theorem not_covered {pos : Nat} {text : List Char} {parts : List Part} {a : Prop} (h : Placed pos text parts a)
    {i : Nat} (hi : i < pos) : parts.countP (fun p => decide (p.start ≤ i) && decide (i < p.stop)) = 0 := by
  obtain ⟨pieces, hlaid, hparts, -⟩ := h
  rw [countP_eq hparts]
  exact List.countP_eq_zero.mpr fun p hp => hlaid.not_covers hi p hp

end Placed

/-! ## Lengths -/

theorem pieces_length (start : Nat) (value : List Char) : ∀ p ∈ pieces maxPart value start, p.text.length ≤ maxPart := by
  intro p hp
  obtain ⟨piece, hpiece, hsome⟩ := List.mem_filterMap.mp hp
  obtain ⟨i, -, rfl⟩ := List.mem_map.mp hpiece
  split at hsome
  · cases hsome
  · rw [← Option.some.inj hsome]
    exact (trim_length_le _).trans (List.length_take_le _ _)

theorem blockParts_length (paragraph : Nat × List Char) : ∀ p ∈ blockParts paragraph, p.text.length ≤ maxPart := by
  intro p hp
  rw [blockParts] at hp
  simp only at hp
  split at hp
  · cases hp
  · split at hp
    · rw [List.mem_singleton.mp hp]
      assumption
    · exact pieces_length _ _ p hp

/-- **A part of a text has at most 1600 characters.** -/
theorem splitBounded_length (text : List Char) : ∀ p ∈ splitBounded text, p.text.length ≤ maxPart := by
  intro p hp
  rw [splitBounded_eq] at hp
  obtain ⟨paragraph, -, hparagraph⟩ := List.mem_flatMap.mp hp
  exact blockParts_length paragraph p hparagraph

theorem sectionParts_length (content title : List Char) (start stop : Nat) :
    ∀ p ∈ sectionParts content title start stop, p.text.length ≤ maxPart := by
  intro p hp
  rw [sectionParts] at hp
  simp only at hp
  split at hp
  · cases hp
  · split at hp
    · rw [List.mem_singleton.mp hp]
      assumption
    · obtain ⟨part, hpart, rfl⟩ := List.mem_map.mp hp
      exact splitBounded_length _ part hpart

theorem sectionsOf_length (content : List Char) (hs : List (Nat × List Char)) :
    ∀ p ∈ sectionsOf content hs, p.text.length ≤ maxPart := by
  induction hs with
  | nil => exact fun p hp => nomatch hp
  | cons heading rest ih =>
    intro p hp
    rw [sectionsOf] at hp
    rcases List.mem_append.mp hp with hp | hp
    · exact sectionParts_length _ _ _ _ p hp
    · exact ih p hp

/-- So it is for every format of text but JSON. -/
theorem parseText_length {library : Library} {content : List Char} {normalized : String} {parts : List Part}
    (h : parseText library content normalized = .ok parts) (hjson : normalized ≠ "json") (hjsonl : normalized ≠ "jsonl") :
    ∀ p ∈ parts, p.text.length ≤ maxPart := by
  have hnot : ¬ (normalized = "jsonl" || normalized = "json") = true := by
    rw [Bool.or_eq_true, decide_eq_true_iff, decide_eq_true_iff]
    exact fun hor => hor.elim hjsonl hjson
  rw [parseText, if_neg hnot] at h
  split at h
  · cases h
    rw [parseMarkdown]
    split
    · exact splitBounded_length content
    · split
      · exact splitBounded_length content
      · exact sectionsOf_length _ _
  · cases h
    exact splitBounded_length content

/-! ## The laws -/

/-- **The places of the parts are exact if and only if no cut falls before whitespace.** -/
theorem offsets_iff {library : Library} {content sourceType : String} {parts : List Part}
    (htext : isText sourceType = true) (hparse : parseDocument library content sourceType = .ok parts) :
    OffsetsExact content.toList (lower sourceType) parts ↔ Aligned content.toList (lower sourceType) := by
  have hparts := parseDocument_text htext hparse
  have hplaced := parseText_placed hparts
  constructor
  · rintro ⟨hexact, -, -⟩
    exact hplaced.exact_iff.mp fun p hp => (hexact p hp).1
  · intro haligned
    have hranges := hplaced.exact_iff.mpr haligned
    exact ⟨fun p hp => ⟨hranges p hp, hplaced.stripped p hp⟩, hplaced.pairwise,
      fun hjson hjsonl => parseText_length hparts hjson hjsonl⟩

/-- Two blocks. -/
theorem offsets_iff_blocks :
    OffsetsExact "a\n\n b".toList "text"
      [{ text := ['a'], start := 0, stop := 1 }, { text := ['b'], start := 4, stop := 5 }] := by
  have hparse : parseDocument textLibrary "a\n\n b" "text" =
      .ok [{ text := ['a'], start := 0, stop := 1 }, { text := ['b'], start := 4, stop := 5 }] := by decide
  refine (offsets_iff (by decide) hparse).mpr ?_
  have hblocks : ∀ p ∈ paragraphs "a\n\n b".toList, ¬ maxPart < (stripChars p.2).length := by decide
  exact fun p hp hlong => absurd hlong (hblocks p hp)

/-- The second piece of a block of 1602 characters begins with the blank at the cut, and stands one
place too early. -/
theorem offsets_cut :
    ∃ parts, parseDocument textLibrary (String.ofList (List.replicate 1600 'a' ++ [' ', 'b'])) "text" = .ok parts ∧
      ¬ OffsetsExact (String.ofList (List.replicate 1600 'a' ++ [' ', 'b'])).toList "text" parts := by
  have hparagraphs : paragraphs (List.replicate 1600 'a' ++ [' ', 'b']) =
      [(0, List.replicate 1600 'a' ++ [' ', 'b'])] :=
    paragraphs_line (by decide +kernel) (by decide +kernel) (by decide +kernel)
  have hparts : splitBounded (List.replicate 1600 'a' ++ [' ', 'b']) =
      [Part.at (List.replicate 1600 'a') 0, Part.at ['b'] 1600] := by
    have hblock : blockParts (0, List.replicate 1600 'a' ++ [' ', 'b']) =
        [Part.at (List.replicate 1600 'a') 0, Part.at ['b'] 1600] := by decide +kernel
    rw [splitBounded_eq, hparagraphs, List.flatMap_singleton, hblock]
  refine ⟨[Part.at (List.replicate 1600 'a') 0, Part.at ['b'] 1600], ?_, fun h => ?_⟩
  · show Except.ok (splitBounded (String.toList _)) = _
    rw [String.toList_ofList, hparts]
  · rw [String.toList_ofList] at h
    have hrange := (h.1 (Part.at ['b'] 1600) (List.mem_cons_of_mem _ List.mem_cons_self)).1
    revert hrange
    decide +kernel

/-- The formats of text that are not read line by line. -/
def plainTypes : List String := ["md", "markdown", "txt", "text", "sql", "source", "code"]

/-- A text of such a format is always accepted. -/
theorem parseDocument_plain (library : Library) (content : String) {sourceType : String}
    (htype : lower sourceType ∈ plainTypes) :
    isText sourceType = true ∧ ∃ parts, parseDocument library content sourceType = .ok parts := by
  have hparse : ∀ normalized ∈ plainTypes, lower sourceType = normalized →
      isText sourceType = true ∧ ∃ parts, parseDocument library content sourceType = .ok parts := by
    intro normalized hmem hlower
    rw [isText, parseDocument, hlower]
    simp only [plainTypes, List.mem_cons, List.not_mem_nil, or_false] at hmem
    rcases hmem with rfl | rfl | rfl | rfl | rfl | rfl | rfl <;> exact ⟨rfl, _, rfl⟩
  exact hparse _ htype rfl

theorem preamble_eq (content : List Char) (normalized : String) :
    ∃ n, preamble content normalized = content.take n := by
  rw [preamble]
  split
  · exact ⟨_, rfl⟩
  · exact ⟨0, rfl⟩

/-- **Nothing is lost if and only if nothing stands before the first heading and no cut falls before
whitespace.** -/
theorem lossless_iff (library : Library) (content : String) {sourceType : String}
    (htype : lower sourceType ∈ plainTypes) :
    ∃ parts, parseDocument library content sourceType = .ok parts ∧
      (Lossless content.toList parts ↔
        stripChars (preamble content.toList (lower sourceType)) = [] ∧ Aligned content.toList (lower sourceType)) := by
  obtain ⟨htext, parts, hparse⟩ := parseDocument_plain library content htype
  refine ⟨parts, hparse, ?_⟩
  have hplaced := parseText_placed (parseDocument_text htext hparse)
  have htake : content.toList.take (preamble content.toList (lower sourceType)).length =
      preamble content.toList (lower sourceType) := by
    obtain ⟨n, hn⟩ := preamble_eq content.toList (lower sourceType)
    rw [hn, List.length_take, List.take_eq_take_iff]
    omega
  generalize preamble content.toList (lower sourceType) = before at hplaced htake ⊢
  have hbefore : content.toList.filter (fun c => !isSpace c) =
      before.filter (fun c => !isSpace c) ++ (content.toList.drop before.length).filter fun c => !isSpace c := by
    rw [← List.filter_append]
    conv => lhs; rw [← List.take_append_drop before.length content.toList, htake]
  constructor
  · rintro ⟨hcovered, htexts⟩
    refine ⟨?_, hplaced.covered_iff.mp fun i c _ hc hspace => hcovered i c hc hspace⟩
    rw [hplaced.texts, hbefore] at htexts
    have hnil : before.filter (fun c => !isSpace c) = [] := by
      have hlength := congrArg List.length htexts
      rw [List.length_append] at hlength
      exact List.length_eq_zero_iff.mp (by omega)
    rw [stripChars_eq, trim_eq_nil]
    intro c hc
    simpa using List.filter_eq_nil_iff.mp hnil c hc
  · rintro ⟨hblank, haligned⟩
    have hspaces := trim_eq_nil.mp hblank
    refine ⟨fun i c hc hspace => ?_, by rw [hplaced.texts, hbefore, filter_blank hspaces, List.nil_append]⟩
    refine hplaced.covered_iff.mpr haligned i c ?_ hc hspace
    by_contra hlt
    have hmem : c ∈ before := by
      rw [← htake]
      refine List.mem_of_getElem? (i := i) ?_
      rw [List.getElem?_take_of_lt (by omega), hc]
    rw [hspaces c hmem] at hspace
    cases hspace

/-- A Markdown document with two sections. -/
theorem lossless_iff_sections :
    ∃ parts, parseDocument textLibrary "# A\nx\n# B\ny" "markdown" = .ok parts ∧
      Lossless "# A\nx\n# B\ny".toList parts := by
  obtain ⟨parts, hparse, hiff⟩ := lossless_iff textLibrary "# A\nx\n# B\ny"
    (by decide : lower "markdown" ∈ plainTypes)
  refine ⟨parts, hparse, hiff.mpr ⟨by decide, ?_⟩⟩
  have hsections : ∀ text ∈ sectionTexts "# A\nx\n# B\ny".toList (headings "# A\nx\n# B\ny".toList),
      ¬ maxPart < text.length := by decide
  exact fun text htext hlong => absurd hlong (hsections text htext)

/-- What stands before the first heading is in no part. -/
theorem lossless_preamble :
    ∃ parts, parseDocument textLibrary "Intro\n# A" "markdown" = .ok parts ∧ ¬ Lossless "Intro\n# A".toList parts := by
  refine ⟨[{ heading := some "A", text := "# A".toList, start := 6, stop := 9 }], by decide, fun h => ?_⟩
  have hcount := h.1 0 'I' (by decide) (by decide)
  revert hcount
  decide

end CodexMemory.Import
