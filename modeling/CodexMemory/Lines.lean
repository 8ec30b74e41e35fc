import Mathlib.Data.List.Basic

/-!
# Lines of a text

Reading a text file with universal newlines, and `str.splitlines`, which ends a
line at more characters than the newline.

* `readLines_append`: a text that begins a line can be read by itself;
* `readLines_line`: a line without break characters is read back as it is.
-/

namespace CodexMemory

/-- The characters at which `str.splitlines` ends a line. -/
def isLineBreak (c : Char) : Bool :=
  let n := c.toNat
  (0x0a ≤ n && n ≤ 0x0d) || (0x1c ≤ n && n ≤ 0x1e) || n == 0x85 || n == 0x2028 || n == 0x2029

/-- Universal newlines; `afterReturn` says that a carriage return came before,
for which the newline is there already. -/
def universalNewlines : Bool → List Char → List Char
  | _, [] => []
  | afterReturn, c :: s =>
    if c = '\n' ∧ afterReturn = true then universalNewlines false s
    else if c = '\r' then '\n' :: universalNewlines true s
    else c :: universalNewlines false s

/-- `str.splitlines`; after a carriage return a newline is part of the same break. -/
def splitlines : Bool → List Char → List (List Char)
  | _, [] => []
  | afterReturn, c :: s =>
    if c = '\n' ∧ afterReturn = true then splitlines false s
    else if isLineBreak c then [] :: splitlines (c = '\r') s
    else
      match splitlines false s with
      | [] => [[c]]
      | line :: lines => (c :: line) :: lines

/-- `path.read_text().splitlines()` for the decoded content of the file. -/
def readLines (text : List Char) : List (List Char) := splitlines false (universalNewlines false text)

/-- A text after which a new line begins. -/
def AtLineStart (text : List Char) : Prop := text = [] ∨ ∃ t, text = t ++ ['\n']

theorem splitlines_ne_nil {s : List Char} (hs : s ≠ []) : splitlines false s ≠ [] := by
  cases s with
  | nil => exact absurd rfl hs
  | cons c s =>
    rw [splitlines, if_neg (by simp)]
    split
    · exact List.cons_ne_nil _ _
    · split
      · exact List.cons_ne_nil _ _
      · exact List.cons_ne_nil _ _

theorem splitlines_append (afterReturn : Bool) (t u : List Char) :
    splitlines afterReturn (t ++ '\n' :: u) = splitlines afterReturn (t ++ ['\n']) ++ splitlines false u := by
  induction t generalizing afterReturn with
  | nil =>
    cases afterReturn with
    | true => rfl
    | false => rfl
  | cons c t ih =>
    rw [List.cons_append, List.cons_append, splitlines, splitlines]
    split
    · exact ih false
    · split
      · rw [ih, List.cons_append]
      · rw [ih false]
        cases hlines : splitlines false (t ++ ['\n']) with
        | nil => exact absurd hlines (splitlines_ne_nil (by simp))
        | cons line lines => rfl

theorem universalNewlines_append (afterReturn : Bool) (t u : List Char) :
    universalNewlines afterReturn (t ++ '\n' :: u) =
      universalNewlines afterReturn (t ++ ['\n']) ++ universalNewlines false u := by
  induction t generalizing afterReturn with
  | nil =>
    cases afterReturn with
    | true => rfl
    | false => rfl
  | cons c t ih =>
    rw [List.cons_append, List.cons_append, universalNewlines, universalNewlines]
    split
    · exact ih false
    · split
      · rw [ih true, List.cons_append]
      · rw [ih false, List.cons_append]

theorem universalNewlines_ne_nil {s : List Char} (hs : s ≠ []) : universalNewlines false s ≠ [] := by
  cases s with
  | nil => exact absurd rfl hs
  | cons c s =>
    rw [universalNewlines, if_neg (by simp)]
    split
    · exact List.cons_ne_nil _ _
    · exact List.cons_ne_nil _ _

/-- A translated text that ends a line still does. -/
theorem universalNewlines_atLineStart (afterReturn : Bool) (t : List Char) :
    AtLineStart (universalNewlines afterReturn (t ++ ['\n'])) := by
  induction t generalizing afterReturn with
  | nil =>
    cases afterReturn with
    | true => exact Or.inl rfl
    | false => exact Or.inr ⟨[], rfl⟩
  | cons c t ih =>
    rw [List.cons_append, universalNewlines]
    split
    · exact ih false
    · split
      · rcases ih true with hnil | ⟨t', ht'⟩
        · exact Or.inr ⟨[], by rw [hnil, List.nil_append]⟩
        · exact Or.inr ⟨'\n' :: t', by rw [ht', List.cons_append]⟩
      · rcases ih false with hnil | ⟨t', ht'⟩
        · exact absurd hnil (universalNewlines_ne_nil (by simp))
        · exact Or.inr ⟨c :: t', by rw [ht', List.cons_append]⟩

/-- **A text that begins a line is read by itself.** -/
theorem readLines_append {t : List Char} (ht : AtLineStart t) (u : List Char) :
    readLines (t ++ u) = readLines t ++ readLines u := by
  rcases ht with rfl | ⟨t, rfl⟩
  · rfl
  · simp only [readLines]
    rw [List.append_assoc, List.singleton_append, universalNewlines_append]
    rcases universalNewlines_atLineStart false t with hnil | ⟨t', ht'⟩
    · exact absurd hnil (universalNewlines_ne_nil (by simp))
    · rw [ht', List.append_assoc, List.singleton_append, splitlines_append]

theorem ne_newline_of_not_break {c : Char} (hc : isLineBreak c = false) : c ≠ '\n' ∧ c ≠ '\r' := by
  constructor
  · rintro rfl
    cases hc
  · rintro rfl
    cases hc

/-- **A line without break characters is read back as it is.** -/
theorem readLines_line {line : List Char} (hline : ∀ c ∈ line, isLineBreak c = false) :
    readLines (line ++ ['\n']) = [line] := by
  have hnewlines : universalNewlines false (line ++ ['\n']) = line ++ ['\n'] := by
    induction line with
    | nil => rfl
    | cons c line ih =>
      obtain ⟨hnewline, hreturn⟩ := ne_newline_of_not_break (hline c List.mem_cons_self)
      rw [List.cons_append, universalNewlines, if_neg fun h => hnewline h.1, if_neg hreturn,
        ih fun d hd => hline d (List.mem_cons_of_mem _ hd)]
  rw [readLines, hnewlines]
  induction line with
  | nil => rfl
  | cons c line ih =>
    obtain ⟨hnewline, -⟩ := ne_newline_of_not_break (hline c List.mem_cons_self)
    have htail : splitlines false (line ++ ['\n']) = [line] := by
      refine ih (fun d hd => hline d (List.mem_cons_of_mem _ hd)) ?_
      rw [List.cons_append, universalNewlines, if_neg fun h => hnewline h.1,
        if_neg (ne_newline_of_not_break (hline c List.mem_cons_self)).2] at hnewlines
      exact (List.cons.inj hnewlines).2
    rw [List.cons_append, splitlines, if_neg fun h => hnewline h.1,
      hline c List.mem_cons_self, htail]
    rfl

theorem atLineStart_append {t u : List Char} (ht : AtLineStart t) (hu : AtLineStart u) :
    AtLineStart (t ++ u) := by
  rcases hu with rfl | ⟨u, rfl⟩
  · rw [List.append_nil]
    exact ht
  · exact Or.inr ⟨t ++ u, (List.append_assoc _ _ _).symm⟩

end CodexMemory
