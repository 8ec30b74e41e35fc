import CodexMemory.Text
import Mathlib

/-!
# Markup in a text

A text with markup is one whose characters `<`, `>` and quotes stand in tags only, and
the tags are of a given kind (`Marked`).  `tokens` reads a text as a browser does, up to
quotes: a tag ends at the first `>` that no double quotes enclose.

* `Marked.takeWhile`, `Marked.dropWhile`: a text may be cut wherever no tag is;
* `replaceEach_marked`: replacing leaves such a text when each replacement does;
* `Marked.tokens`: a browser reads the tags that were put in, and no others.
-/

namespace CodexMemory.Html

/-- A character that means something in markup. -/
def special (c : Char) : Bool := c == '<' || c == '>' || c == '"' || c == '\''

/-- The characters of a text that are outside tags mean nothing, and its tags satisfy `T`. -/
inductive Marked (T : List Char → Prop) : List Char → Prop
  | nil : Marked T []
  | char {c : Char} {s : List Char} (hc : special c = false) (hs : Marked T s) : Marked T (c :: s)
  | tag {t s : List Char} (ht : T t) (hs : Marked T s) : Marked T (t ++ s)

namespace Marked

variable {T T' : List Char → Prop} {s t : List Char}

theorem mono (h : ∀ t, T t → T' t) (hs : Marked T s) : Marked T' s := by
  induction hs with
  | nil => exact .nil
  | char hc _ ih => exact .char hc ih
  | tag ht _ ih => exact .tag (h _ ht) ih

theorem append (hs : Marked T s) (ht : Marked T t) : Marked T (s ++ t) := by
  induction hs with
  | nil => exact ht
  | char hc _ ih => exact .char hc ih
  | tag htag _ ih =>
    rw [List.append_assoc]
    exact .tag htag ih

theorem plain (h : ∀ c ∈ s, special c = false) : Marked T s := by
  induction s with
  | nil => exact .nil
  | cons c s ih =>
    rw [List.forall_mem_cons] at h
    exact .char h.1 (ih h.2)

theorem single (ht : T t) : Marked T t := by
  have h := Marked.tag ht .nil
  rwa [List.append_nil] at h

/-- Tags begin with `<`. -/
theorem tail (hT : ∀ t, T t → ∃ r, t = '<' :: r) {c : Char} (hc : c ≠ '<') (h : Marked T (c :: s)) : Marked T s := by
  generalize he : c :: s = u at h
  cases h with
  | nil => cases he
  | char _ hs =>
    cases he
    exact hs
  | tag ht _ =>
    obtain ⟨r, rfl⟩ := hT _ ht
    exact absurd (List.cons.inj he).1 hc

theorem behind (hT : ∀ t, T t → ∃ r, t = '<' :: r) {front : List Char} (hfront : '<' ∉ front)
    (h : Marked T (front ++ s)) : Marked T s := by
  induction front with
  | nil => exact h
  | cons c front ih =>
    rw [List.mem_cons, not_or] at hfront
    exact ih hfront.2 (h.tail hT fun hc => hfront.1 hc.symm)

variable {p : Char → Bool}

/-- A test that holds within tags cuts none. -/
theorem takeWhile (hp : ∀ t, T t → ∀ c ∈ t, p c = true) (hs : Marked T s) : Marked T (s.takeWhile p) := by
  induction hs with
  | nil => exact .nil
  | @char c s hc _ ih =>
    rw [List.takeWhile_cons]
    split
    · exact .char hc ih
    · exact .nil
  | tag ht _ ih =>
    rw [List.takeWhile_append_of_pos (hp _ ht)]
    exact .tag ht ih

theorem dropWhile (hp : ∀ t, T t → ∀ c ∈ t, p c = true) (hs : Marked T s) : Marked T (s.dropWhile p) := by
  induction hs with
  | nil => exact .nil
  | @char c s hc hs ih =>
    rw [List.dropWhile_cons]
    split
    · exact ih
    · exact .char hc hs
  | tag ht _ ih =>
    rw [List.dropWhile_append_of_pos (hp _ ht)]
    exact ih

/-- A character that is in no tag is not in a text without it outside tags. -/
theorem not_mem {c : Char} (hc : special c = true) (hT : ∀ t, T t → c ∉ t) (hs : Marked T s) : c ∉ s := by
  induction hs with
  | nil => exact List.not_mem_nil
  | char hd _ ih =>
    rintro (_ | ⟨_, hmem⟩)
    · rw [hc] at hd
      cases hd
    · exact ih hmem
  | tag ht _ ih =>
    rw [List.mem_append]
    rintro (hmem | hmem)
    · exact hT _ ht hmem
    · exact ih hmem

end Marked

/-! ## Replacing -/

/-- `m` says what a match at the beginning of a text becomes, and what is left behind it. -/
def replaceFrom (m : List Char → Option (List Char × List Char)) : Nat → List Char → List Char
  | 0, s => s
  | _ + 1, [] => []
  | n + 1, c :: s =>
    match m (c :: s) with
    | some (replacement, rest) => replacement ++ replaceFrom m n rest
    | none => c :: replaceFrom m n s

/-- Every match from left to right is replaced. -/
def replaceEach (m : List Char → Option (List Char × List Char)) (s : List Char) : List Char :=
  replaceFrom m s.length s

section Replacing

variable {m : List Char → Option (List Char × List Char)} {T T' : List Char → Prop}

/-- No match begins within `t`. -/
theorem replaceFrom_append {t : List Char} (ht : ∀ c ∈ t, ∀ s, m (c :: s) = none) (n : Nat) (s : List Char) :
    replaceFrom m (t.length + n) (t ++ s) = t ++ replaceFrom m n s := by
  induction t with
  | nil => rw [List.length_nil, Nat.zero_add, List.nil_append, List.nil_append]
  | cons c t ih =>
    rw [List.forall_mem_cons] at ht
    rw [List.length_cons, Nat.succ_add, List.cons_append, replaceFrom, ht.1, ih ht.2]
    rfl

theorem replaceFrom_nil (n : Nat) : replaceFrom m n [] = [] := by
  cases n with
  | zero => rfl
  | succ n => rfl

/-- **What replacing leaves.**  No match begins within a tag, and a match leaves a text with tags and is replaced by
one. -/
theorem replaceEach_marked (hne : ∀ t, T t → t ≠ []) (hT : ∀ t, T t → T' t)
    (htag : ∀ t, T t → ∀ c ∈ t, ∀ s, m (c :: s) = none)
    (hm : ∀ {s replacement rest}, Marked T s → m s = some (replacement, rest) →
      Marked T' replacement ∧ Marked T rest ∧ rest.length < s.length)
    {s : List Char} (hs : Marked T s) : Marked T' (replaceEach m s) := by
  suffices h : ∀ n, s.length ≤ n → Marked T' (replaceFrom m n s) from h s.length le_rfl
  intro n
  induction n using Nat.strong_induction_on generalizing s with
  | _ n ih =>
    intro hn
    cases hs with
    | nil =>
      rw [replaceFrom_nil]
      exact .nil
    | @char c s hc hs =>
      obtain ⟨k, rfl⟩ := Nat.exists_eq_succ_of_ne_zero (Nat.ne_of_gt (Nat.lt_of_lt_of_le (Nat.succ_pos _) hn))
      rw [List.length_cons] at hn
      rw [replaceFrom]
      cases hmatch : m (c :: s) with
      | none => exact .char hc (ih k (Nat.lt_succ_self k) hs (by omega))
      | some found =>
        obtain ⟨replacement, rest⟩ := found
        obtain ⟨hreplacement, hrest, hshort⟩ := hm (.char hc hs) hmatch
        rw [List.length_cons] at hshort
        exact hreplacement.append (ih k (Nat.lt_succ_self k) hrest (by omega))
    | @tag t s ht hs =>
      have hlong := List.length_pos_of_ne_nil (hne t ht)
      rw [List.length_append] at hn
      have hsplit : n = t.length + (n - t.length) := by omega
      rw [hsplit, replaceFrom_append (htag t ht)]
      exact .tag (hT t ht) (ih (n - t.length) (by omega) hs (by omega))

end Replacing

/-! ## What a browser reads -/

/-- A character of the text, or what stands between `<` and `>`. -/
inductive Token
  | char (c : Char)
  | tag (text : List Char)
  deriving DecidableEq

/-- Where the reading of a text stands; `tag` and `quoted` have what was read of the tag. -/
inductive Reading
  | text
  | tag (read : List Char)
  | quoted (read : List Char)

/-- The tokens of a text; none if it ends within a tag. -/
def tokens : Reading → List Char → Option (List Token)
  | .text, [] => some []
  | .text, c :: s =>
    if c = '<' then tokens (.tag []) s
    else (tokens .text s).map (Token.char c :: ·)
  | .tag _, [] => none
  | .tag read, c :: s =>
    if c = '>' then (tokens .text s).map (Token.tag read :: ·)
    else if c = '"' then tokens (.quoted (read ++ [c])) s
    else tokens (.tag (read ++ [c])) s
  | .quoted _, [] => none
  | .quoted read, c :: s =>
    if c = '"' then tokens (.tag (read ++ [c])) s
    else tokens (.quoted (read ++ [c])) s

/-- What stands in a tag outside quotes. -/
theorem tokens_tag {t : List Char} (ht : ∀ c ∈ t, c ≠ '>' ∧ c ≠ '"') (read s : List Char) :
    tokens (.tag read) (t ++ s) = tokens (.tag (read ++ t)) s := by
  induction t generalizing read with
  | nil => rw [List.nil_append, List.append_nil]
  | cons c t ih =>
    rw [List.forall_mem_cons] at ht
    rw [List.cons_append, tokens, if_neg ht.1.1, if_neg ht.1.2, ih ht.2, List.append_assoc]
    rfl

/-- What stands in quotes. -/
theorem tokens_quoted {t : List Char} (ht : '"' ∉ t) (read s : List Char) :
    tokens (.quoted read) (t ++ s) = tokens (.quoted (read ++ t)) s := by
  induction t generalizing read with
  | nil => rw [List.nil_append, List.append_nil]
  | cons c t ih =>
    rw [List.mem_cons, not_or] at ht
    rw [List.cons_append, tokens, if_neg fun h => ht.1 h.symm, ih ht.2, List.append_assoc]
    rfl

/-- An attribute in a tag. -/
theorem tokens_attribute {name value : List Char} (hname : ∀ c ∈ name, c ≠ '>' ∧ c ≠ '"') (hvalue : '"' ∉ value)
    (read s : List Char) :
    tokens (.tag read) (name ++ '"' :: (value ++ '"' :: s)) =
      tokens (.tag (read ++ (name ++ '"' :: (value ++ ['"'])))) s := by
  rw [tokens_tag hname, tokens, if_neg (by decide), if_pos rfl, tokens_quoted hvalue, tokens, if_pos rfl]
  simp only [List.append_assoc, List.cons_append, List.nil_append]

/-- A browser reads `t` as one tag whose text satisfies `A`. -/
def ReadsAs (A : List Char → Prop) (t : List Char) : Prop :=
  ∃ text, A text ∧ ∀ s, tokens .text (t ++ s) = (tokens .text s).map (Token.tag text :: ·)

/-- **A browser reads the tags that were put in.**  The text between them has no markup. -/
theorem Marked.tokens {T A : List Char → Prop} (hT : ∀ t, T t → ReadsAs A t) {s : List Char} (hs : Marked T s) :
    ∃ read, Html.tokens .text s = some read ∧ (∀ text, Token.tag text ∈ read → A text) ∧
      ∀ c, Token.char c ∈ read → special c = false := by
  induction hs with
  | nil => exact ⟨[], rfl, by rintro _ ⟨⟩, by rintro _ ⟨⟩⟩
  | @char c s hc _ ih =>
    obtain ⟨read, hread, htags, hchars⟩ := ih
    have hopen : c ≠ '<' := by
      rintro rfl
      exact absurd hc (by decide)
    refine ⟨.char c :: read, ?_, fun text hmem => ?_, fun d hmem => ?_⟩
    · rw [Html.tokens, if_neg hopen, hread]
      rfl
    · rcases List.mem_cons.mp hmem with h | h
      · cases h
      · exact htags text h
    · rcases List.mem_cons.mp hmem with h | h
      · cases h
        exact hc
      · exact hchars d h
  | @tag t s ht _ ih =>
    obtain ⟨read, hread, htags, hchars⟩ := ih
    obtain ⟨text, htext, hreads⟩ := hT t ht
    refine ⟨.tag text :: read, ?_, fun text' hmem => ?_, fun d hmem => ?_⟩
    · rw [hreads, hread]
      rfl
    · rcases List.mem_cons.mp hmem with h | h
      · cases h
        exact htext
      · exact htags text' h
    · rcases List.mem_cons.mp hmem with h | h
      · cases h
      · exact hchars d h

end CodexMemory.Html
