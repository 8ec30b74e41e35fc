import CodexMemory.Replacing
import Mathlib

/-!
# Patterns of `LIKE`

`%` stands for any text and `_` for any character, unless the escape character is
before it.

* `accepts_infix`: a literal text between two `%` is found exactly in the texts that
  contain it;
* `elements_escapeText`: a text in which the escape character is put before the three
  characters means itself.
-/

namespace CodexMemory.Like

inductive Element
  | any
  | one
  | char (c : Char)
  deriving DecidableEq

/-- What a character means that is not escaped. -/
def element (c : Char) : Element := if c = '%' then .any else if c = '_' then .one else .char c

/-- The elements of a pattern.  There are none if nothing is behind the escape character. -/
def elements (escape : Char) : List Char → Option (List Element)
  | [] => some []
  | c :: s =>
    if c = escape then
      match s with
      | [] => none
      | d :: s => (elements escape s).map (Element.char d :: ·)
    else (elements escape s).map (element c :: ·)

theorem elements_escape (escape d : Char) (s : List Char) :
    elements escape (escape :: d :: s) = (elements escape s).map (Element.char d :: ·) := by
  rw [elements.eq_def]
  exact if_pos rfl

theorem elements_cons {escape c : Char} (h : c ≠ escape) (s : List Char) :
    elements escape (c :: s) = (elements escape s).map (element c :: ·) := by
  rw [elements.eq_def]
  exact if_neg h

def accepts : List Element → List Char → Bool
  | [], s => s.isEmpty
  | .any :: p, s => s.tails.any (accepts p)
  | .one :: _, [] => false
  | .one :: p, _ :: s => accepts p s
  | .char _ :: _, [] => false
  | .char c :: p, d :: s => c == d && accepts p s

theorem accepts_any {p : List Element} {s : List Char} :
    accepts (.any :: p) s = true ↔ ∃ t, t <:+ s ∧ accepts p t = true := by
  rw [accepts, List.any_eq_true]
  exact exists_congr fun t => and_congr_left' (List.mem_tails t s)

/-- A literal text that anything may follow. -/
theorem accepts_front (t s : List Char) : accepts (t.map Element.char ++ [.any]) s = true ↔ t <+: s := by
  induction t generalizing s with
  | nil =>
    rw [List.map_nil, List.nil_append, accepts_any]
    exact iff_of_true ⟨[], List.nil_suffix, rfl⟩ List.nil_prefix
  | cons c t ih =>
    cases s with
    | nil => simp [accepts]
    | cons d s =>
      rw [List.map_cons, List.cons_append, accepts, Bool.and_eq_true, beq_iff_eq, ih, List.cons_prefix_cons]

/-- **A literal text between two `%`.** -/
theorem accepts_infix (t s : List Char) :
    accepts (.any :: (t.map Element.char ++ [.any])) s = true ↔ t <:+: s := by
  rw [accepts_any, List.infix_iff_prefix_suffix]
  constructor
  · rintro ⟨u, hu, haccepts⟩
    exact ⟨u, (accepts_front t u).mp haccepts, hu⟩
  · rintro ⟨u, hfront, hu⟩
    exact ⟨u, hu, (accepts_front t u).mpr hfront⟩

/-- A character that means something in a pattern. -/
def control (escape c : Char) : Bool := c == escape || c == '%' || c == '_'

/-- A character with the escape character before it, if it means something. -/
def escapeChar (escape c : Char) : List Char := if control escape c then [escape, c] else [c]

def escapeText (escape : Char) (t : List Char) : List Char := t.flatMap (escapeChar escape)

theorem elements_escapeText (escape : Char) (t rest : List Char) :
    elements escape (escapeText escape t ++ rest) = (elements escape rest).map (t.map Element.char ++ ·) := by
  induction t with
  | nil =>
    exact Option.map_id'.symm
  | cons c t ih =>
    rw [escapeText, List.flatMap_cons, List.append_assoc, escapeChar]
    rw [escapeText] at ih
    split
    · next hc =>
      rw [List.cons_append, List.cons_append, List.nil_append, elements_escape, ih, Option.map_map]
      rfl
    · next hc =>
      simp only [control, Bool.or_eq_true, beq_iff_eq, not_or] at hc
      rw [List.cons_append, List.nil_append, elements_cons hc.1.1, ih, Option.map_map, element, if_neg hc.1.2,
        if_neg hc.2]
      rfl

/-- How a database folds the case of characters.  It leaves those that mean something, and makes none of them. -/
structure Folding (escape : Char) where
  fold : Char → Char
  steady : ∀ c, fold c = c ∨ (control escape c = false ∧ control escape (fold c) = false)

/-- `lower(text) LIKE lower(pattern) ESCAPE …`, none if the database refuses the pattern. -/
def ilike {escape : Char} (folding : Folding escape) (text pattern : List Char) : Option Bool :=
  (elements escape (pattern.map folding.fold)).map fun p => accepts p (text.map folding.fold)

variable {escape : Char} (folding : Folding escape)

theorem Folding.escapeChar (c : Char) :
    (escapeChar escape c).map folding.fold = Like.escapeChar escape (folding.fold c) := by
  have hescape : folding.fold escape = escape := by
    rcases folding.steady escape with h | ⟨h, -⟩
    · exact h
    · simp [control] at h
  rcases folding.steady c with h | ⟨hc, hfold⟩
  · rw [h, Like.escapeChar]
    split
    · rw [List.map_cons, List.map_singleton, hescape, h]
    · rw [List.map_singleton, h]
  · rw [Like.escapeChar, Like.escapeChar, hc, hfold]
    rfl

theorem Folding.escapeText (t : List Char) :
    (escapeText escape t).map folding.fold = Like.escapeText escape (t.map folding.fold) := by
  rw [Like.escapeText, Like.escapeText, List.map_flatMap, List.flatMap_map]
  exact congrArg (t.flatMap ·) (funext folding.escapeChar)

/-- **A text that is escaped and stands between two `%`** is found in the texts that contain it, up to case. -/
theorem ilike_escapeText (hescape : escape ≠ '%') (text t : List Char) :
    ilike folding text ('%' :: (escapeText escape t ++ ['%'])) =
      some (decide (t.map folding.fold <:+: text.map folding.fold)) := by
  have hfold : folding.fold '%' = '%' := by
    rcases folding.steady '%' with h | ⟨h, -⟩
    · exact h
    · simp [control] at h
  have hend : elements escape ['%'] = some [.any] := by
    rw [elements_cons hescape.symm]
    rfl
  rw [ilike, List.map_cons, List.map_append, List.map_singleton, hfold, folding.escapeText,
    elements_cons hescape.symm, elements_escapeText, hend]
  refine congrArg some (Bool.eq_iff_iff.mpr ?_)
  rw [decide_eq_true_eq]
  exact accepts_infix _ _

end CodexMemory.Like
