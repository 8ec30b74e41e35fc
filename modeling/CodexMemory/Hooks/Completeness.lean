import CodexMemory.CoveringMasks
import CodexMemory.Hooks.Manifest

/-!
# What the redaction of the hooks leaves

The four credential patterns replace their values one after another, so a pattern can
lose the label of a value that it would find alone.

* `mem_tags_redaction`: a character is left exactly if it is in no value that counts when
  the patterns read the text itself;
* `redactJson_idempotent`: a second redaction changes nothing, at any depth;
* `redacts_iff`: the texts whose values are all replaced.
-/

namespace CodexMemory.Hooks

open Regex Masking

/-! ## The ends of the labels -/

/-- The text without the spaces at its end, read backwards. -/
def stem (before : List Char) : List Char := before.reverse.dropWhile isSpace

/-- The text ends like a label of one of the first two patterns: with `…r` and spaces, or with `…on`, a colon and
spaces. -/
inductive Labelled (before : List Char) : Prop
  | bearer (c : Char) (rest : List Char) (stem : stem before = c :: rest) (letter : foldCase c = 'r')
      (last : ∃ d ∈ before.getLast?, isSpace d = true)
  | field (rest : List Char) (n o : Char) (rest' : List Char) (stem : stem before = ':' :: rest)
      (name : rest.dropWhile isSpace = n :: o :: rest') (last : foldCase n = 'n') (first : foldCase o = 'o')

/-- The text does not end with a character of a token. -/
def Apart (before : List Char) : Prop := ∀ c ∈ before.getLast?, tokenChar "_-" c = false

theorem stem_spaces {before w : List Char} (hw : ∀ c ∈ w, isSpace c = true) : stem (before ++ w) = stem before := by
  rw [stem, List.reverse_append, List.dropWhile_append_of_pos fun c hc => hw c (List.mem_reverse.mp hc), ← stem]

theorem stem_concat {before : List Char} {c : Char} (hc : isSpace c = false) :
    stem (before ++ [c]) = c :: before.reverse := by
  rw [stem, List.reverse_concat, List.dropWhile_cons, if_neg (by rw [hc]; exact Bool.false_ne_true)]

/-- The last character is a space or that of the stem. -/
theorem last_of_stem {before : List Char} {c : Char} {rest : List Char} (h : stem before = c :: rest) :
    ∀ d ∈ before.getLast?, isSpace d = true ∨ d = c := by
  intro d hd
  rw [← List.head?_reverse] at hd
  rw [stem] at h
  cases hrev : before.reverse with
  | nil =>
    rw [hrev] at hd
    cases hd
  | cons e t =>
    rw [hrev] at hd h
    cases hd
    cases hspace : isSpace d with
    | true => exact .inl rfl
    | false =>
      rw [List.dropWhile_cons, if_neg (by rw [hspace]; exact Bool.false_ne_true)] at h
      exact .inr (List.cons.inj h).1

/-- A label ends with a space or a colon. -/
theorem not_labelled_concat {before : List Char} {c : Char} (hspace : isSpace c = false) (hcolon : c ≠ ':') :
    ¬ Labelled (before ++ [c]) := by
  rintro (⟨d, rest, hstem, hletter, e, he, hlast⟩ | ⟨rest, n, o, rest', hstem, hname, hlast, hfirst⟩)
  · rw [List.getLast?_concat] at he
    cases he
    rw [hspace] at hlast
    cases hlast
  · rw [stem_concat hspace] at hstem
    exact hcolon (List.cons.inj hstem).1

theorem not_labelled_append {before g : List Char} (hg : g ≠ []) (h : ∀ c ∈ g.getLast?, isSpace c = false ∧ c ≠ ':') :
    ¬ Labelled (before ++ g) := by
  obtain ⟨g, c, rfl⟩ := List.eq_nil_or_concat' g |>.resolve_left hg
  obtain ⟨hspace, hcolon⟩ := h c (by rw [List.getLast?_concat]; rfl)
  rw [← List.append_assoc]
  exact not_labelled_concat hspace hcolon

theorem tokenChar_of_nameChar {c : Char} (h : IsNameChar c) : tokenChar "_-" c = true := by
  rcases h with h | rfl | rfl
  · exact tokenChar_of_foldCase rfl (.inl (by rw [Char.isAlphanum, h, Bool.true_or]))
  · decide
  · decide

theorem nameChar_label {c : Char} (h : IsNameChar c) : isSpace c = false ∧ c ≠ ':' := by
  rcases h with h | rfl | rfl
  · refine ⟨letter_not_space asciiTable h, ?_⟩
    rintro rfl
    revert h
    unfold IsLetter
    decide
  · decide
  · decide

/-- A character of two texts lies in the first or in the second. -/
theorem split_cases {k w g₁ g₂ : List Char} {c : Char} (h : k ++ w = g₁ ++ c :: g₂) :
    (∃ k', k = g₁ ++ c :: k') ∨ ∃ w', g₁ = k ++ w' ∧ w = w' ++ c :: g₂ := by
  rcases List.append_eq_append_iff.mp h with ⟨m, hg₁, hw⟩ | ⟨m, hk, hm⟩
  · exact .inr ⟨m, hg₁, hw⟩
  · cases m with
    | nil =>
      rw [List.append_nil] at hk
      exact .inr ⟨[], by rw [hk, List.append_nil], hm.symm⟩
    | cons d m =>
      obtain ⟨rfl, -⟩ := List.cons.inj hm
      exact .inl ⟨m, hk⟩

/-- The last two letters of a text that matches a literal. -/
theorem last_letters {k text : List Char} {a b : Char} (h : k.map foldCase = text ++ [a, b]) :
    ∃ x c d, k = x ++ [c, d] ∧ foldCase c = a ∧ foldCase d = b := by
  obtain ⟨x, y, rfl, -, hy⟩ := List.map_eq_append_iff.mp h
  obtain ⟨c, y, rfl, hc, hy⟩ := List.map_eq_cons_iff.mp hy
  obtain ⟨d, y, rfl, hd, hy⟩ := List.map_eq_cons_iff.mp hy
  rw [List.map_eq_nil_iff] at hy
  rw [hy]
  exact ⟨x, c, d, rfl, hc, hd⟩

theorem not_space_of_letter {c : Char} (h : (foldCase c).isAlpha = true) : isSpace c = false :=
  letter_not_space asciiTable h

/-- The stem of a text that ends with two letters and spaces. -/
theorem stem_letters {before x w : List Char} {c d : Char} (hd : (foldCase d).isAlpha = true)
    (hw : ∀ e ∈ w, isSpace e = true) :
    stem (before ++ (x ++ [c, d] ++ w)) = d :: c :: (before ++ x).reverse := by
  have hread : before ++ (x ++ [c, d] ++ w) = before ++ x ++ [c] ++ [d] ++ w := by simp
  rw [hread, stem_spaces hw, stem_concat (not_space_of_letter hd), List.reverse_concat]

theorem labelled_bearerWord {prev : Option Char} {before g b : List Char} (h : Matches bearerWord prev g b) :
    Labelled (before ++ g) := by
  obtain ⟨k, w, rfl, hk, hlength, hw⟩ := h
  rw [literal, matches_literals] at hk
  obtain ⟨x, c, d, rfl, hc, hd⟩ := last_letters (show k.map foldCase = "bear".toList ++ ['e', 'r'] from hk)
  refine .bearer d _ (stem_letters (by rw [hd]; decide) hw) hd ?_
  have hne : w ≠ [] := List.length_pos_iff.mp hlength
  rw [List.getLast?_append_of_ne_nil _ (by simp), List.getLast?_append_of_ne_nil _ hne]
  exact ⟨w.getLast hne, List.getLast?_eq_some_getLast hne, hw _ (List.getLast_mem hne)⟩

theorem labelled_field {prev : Option Char} {before g b : List Char} (h : Matches authorizationField prev g b) :
    Labelled (before ++ g) := by
  obtain ⟨k, _, rfl, hk, w₁, _, rfl, ⟨-, hw₁⟩, _, w₂, rfl, ⟨d, rfl, hd⟩, -, hw₂⟩ := h
  rw [literal, matches_literals] at hk
  have hcolon : d = ':' := List.mem_singleton.mp (mem_of_oneOf ":" (by decide) hd)
  subst hcolon
  obtain ⟨x, o, n, rfl, ho, hn⟩ := last_letters (show k.map foldCase = "authorizati".toList ++ ['o', 'n'] from hk)
  have hread : before ++ (x ++ [o, n] ++ (w₁ ++ ([':'] ++ w₂))) = before ++ (x ++ [o, n] ++ w₁) ++ [':'] ++ w₂ := by simp
  refine .field (before ++ (x ++ [o, n] ++ w₁)).reverse n o (before ++ x).reverse ?_ ?_ hn ho
  · rw [hread, stem_spaces hw₂, stem_concat (by decide)]
  · exact stem_letters (by rw [hn]; decide) hw₁

/-- A name of the third pattern ends neither with `r` nor with `on`. -/
theorem name_ends {prev : Option Char} {name b : List Char} (h : Matches credentialName prev name b) :
    ∃ x c d, name = x ++ [c, d] ∧ (foldCase d).isAlpha = true ∧ foldCase d ≠ 'r' ∧
      ¬ (foldCase d = 'n' ∧ foldCase c = 'o') := by
  have hliteral : ∀ {text : List Char} {a b : Char} {k m : List Char}, k.map foldCase = text ++ [a, b] →
      (b.isAlpha = true ∧ b ≠ 'r' ∧ ¬ (b = 'n' ∧ a = 'o')) → ∃ x c d, m ++ k = x ++ [c, d] ∧
        (foldCase d).isAlpha = true ∧ foldCase d ≠ 'r' ∧ ¬ (foldCase d = 'n' ∧ foldCase c = 'o') := by
    intro text a b k m hk hab
    obtain ⟨x, c, d, rfl, rfl, rfl⟩ := last_letters hk
    exact ⟨m ++ x, c, d, (List.append_assoc _ _ _).symm, hab⟩
  have hpair : ∀ {first second : String} {text : List Char} {a b : Char} {rest : List Char},
      Matches (pairName first second) prev name rest → second.toList = text ++ [a, b] →
      (b.isAlpha = true ∧ b ≠ 'r' ∧ ¬ (b = 'n' ∧ a = 'o')) → ∃ x c d, name = x ++ [c, d] ∧
        (foldCase d).isAlpha = true ∧ foldCase d ≠ 'r' ∧ ¬ (foldCase d = 'n' ∧ foldCase c = 'o') := by
    rintro first second text a b rest ⟨m₁, _, rfl, -, m₂, k, rfl, -, hk⟩ htext hab
    rw [literal, matches_literals, htext] at hk
    rw [← List.append_assoc]
    exact hliteral hk hab
  have hword : ∀ {word : String} {text : List Char} {a b : Char} {rest : List Char},
      Matches (literal word) prev name rest → word.toList = text ++ [a, b] →
      (b.isAlpha = true ∧ b ≠ 'r' ∧ ¬ (b = 'n' ∧ a = 'o')) → ∃ x c d, name = x ++ [c, d] ∧
        (foldCase d).isAlpha = true ∧ foldCase d ≠ 'r' ∧ ¬ (foldCase d = 'n' ∧ foldCase c = 'o') := by
    intro word text a b rest hk htext hab
    rw [literal, matches_literals, htext] at hk
    rw [← List.nil_append name]
    exact hliteral hk hab
  rcases h with h | h | h | h | h | h | h | h
  · exact hpair h (show _ = "k".toList ++ ['e', 'y'] from rfl) (by decide)
  · exact hpair h (show _ = "tok".toList ++ ['e', 'n'] from rfl) (by decide)
  · exact hpair h (show _ = "tok".toList ++ ['e', 'n'] from rfl) (by decide)
  · exact hpair h (show _ = "secr".toList ++ ['e', 't'] from rfl) (by decide)
  · exact hword h (show _ = "secr".toList ++ ['e', 't'] from rfl) (by decide)
  · exact hword h (show _ = "passwo".toList ++ ['r', 'd'] from rfl) (by decide)
  · exact hword h (show _ = "pass".toList ++ ['w', 'd'] from rfl) (by decide)
  · exact hword h (show _ = "tok".toList ++ ['e', 'n'] from rfl) (by decide)

theorem not_labelled_name {prev : Option Char} {before name b w : List Char} (h : Matches credentialName prev name b)
    (hw : ∀ c ∈ w, isSpace c = true) : ¬ Labelled (before ++ (name ++ w)) := by
  obtain ⟨x, c, d, rfl, hletter, hr, -⟩ := name_ends h
  have hstem := @stem_letters before x w c d hletter hw
  rintro (⟨e, rest, hstem', he, -⟩ | ⟨rest, n, o, rest', hstem', -, -, -⟩)
  · rw [hstem] at hstem'
    rw [← (List.cons.inj hstem').1] at he
    exact hr he
  · rw [hstem] at hstem'
    rw [(List.cons.inj hstem').1] at hletter
    revert hletter
    decide

theorem not_labelled_sign {prev : Option Char} {before name b w₁ w₂ : List Char} {d : Char}
    (h : Matches credentialName prev name b) (hw₁ : ∀ c ∈ w₁, isSpace c = true) (hd : d ∈ [':', '='])
    (hw₂ : ∀ c ∈ w₂, isSpace c = true) : ¬ Labelled (before ++ (name ++ (w₁ ++ d :: w₂))) := by
  obtain ⟨x, a, c, rfl, hletter, -, hon⟩ := name_ends h
  have hsign : ∀ d ∈ [':', '='], isSpace d = false ∧ foldCase d ≠ 'r' := by decide
  obtain ⟨hspace, hfold⟩ := hsign d hd
  have hread : before ++ (x ++ [a, c] ++ (w₁ ++ d :: w₂)) = before ++ (x ++ [a, c] ++ w₁) ++ [d] ++ w₂ := by simp
  rw [hread]
  rintro (⟨e, rest, hstem, he, -⟩ | ⟨rest, n, o, rest', hstem, hname, hn, ho⟩)
  · rw [stem_spaces hw₂, stem_concat hspace] at hstem
    rw [← (List.cons.inj hstem).1] at he
    exact hfold he
  · rw [stem_spaces hw₂, stem_concat hspace] at hstem
    rw [← (List.cons.inj hstem).2] at hname
    have hstem' := @stem_letters before x w₁ a c hletter hw₁
    rw [stem, hname] at hstem'
    obtain ⟨rfl, hrest⟩ := List.cons.inj hstem'
    obtain ⟨rfl, -⟩ := List.cons.inj hrest
    exact hon ⟨hn, ho⟩

theorem apart_of_labelled {before : List Char} (h : Labelled before) : Apart before := by
  have hspace : ∀ c, isSpace c = true → tokenChar "_-" c = false := by
    intro c hc
    by_contra htoken
    have hassigned := tokenChar_assignedChar asciiTable (c := c) (by simpa using htoken)
    rw [assignedChar_after_sign (.inl hc)] at hassigned
    cases hassigned
  intro c hc
  rcases h with ⟨d, rest, hstem, hletter, e, he, hlast⟩ | ⟨rest, n, o, rest', hstem, hname, hlast, hfirst⟩
  · rw [hc] at he
    cases he
    exact hspace c hlast
  · rcases last_of_stem hstem c hc with hc | rfl
    · exact hspace c hc
    · decide

/-! ## What the patterns rely on -/

theorem nameChar_assigned {c : Char} (h : IsNameChar c) : assignedChar c = true :=
  tokenChar_assignedChar asciiTable (tokenChar_of_nameChar h)

section Patterns

variable (table : WordTable)

/-- The first pattern reads the text itself. -/
theorem authorization_rests : (authorization table).Rests (fun _ => False) Labelled credentialChar where
  value _ hc := hc
  start := by
    rintro prev g b ⟨field, tail, rfl, hfield, htail⟩ c hc
    obtain ⟨k, w₁, w₂, rfl, hk, hletters, -, -⟩ := matches_authorizationField hfield
    rw [List.append_assoc, List.head?_append_of_ne_nil _ hk] at hc
    exact assignedChar_credentialChar (nameChar_assigned (.inl (hletters c (List.mem_of_mem_head? hc))))
  within _ _ _ _ := False.elim
  behind _ := False.elim
  closes := by
    rintro prev g b before ⟨field, tail, rfl, hfield, htail⟩
    rcases htail with htail | rfl
    · rw [← List.append_assoc]
      exact labelled_bearerWord htail
    · rw [List.append_nil]
      exact labelled_field hfield
  keeps := False.elim

theorem bearer_rests : (bearer table).Rests Labelled Labelled credentialChar where
  value _ hc := hc
  start := by
    rintro prev g b ⟨_, g, rfl, ⟨rfl, -⟩, hg⟩ c hc
    obtain ⟨k, w, rfl, hk, hletters, -, -⟩ := matches_bearerWord hg
    rw [List.nil_append, List.head?_append_of_ne_nil _ hk] at hc
    exact assignedChar_credentialChar (nameChar_assigned (.inl (hletters c (List.mem_of_mem_head? hc))))
  within := by
    rintro prev g b before g₁ c g₂ ⟨_, g, rfl, ⟨rfl, -⟩, hg⟩ hread hg₁ hc
    obtain ⟨k, w, rfl, -, hletters, -, hspaces⟩ := matches_bearerWord hg
    rw [List.nil_append] at hread
    rcases split_cases hread with ⟨k', rfl⟩ | ⟨w', -, rfl⟩
    · exact not_labelled_append hg₁ fun d hd =>
        nameChar_label (.inl (hletters d (List.mem_append_left _ (List.mem_of_getLast? hd))))
    · rw [space_not_credentialChar (hspaces c (by simp))] at hc
      cases hc
  behind _ _ _ hc := hc
  closes := by
    rintro prev g b before ⟨_, g, rfl, ⟨rfl, -⟩, hg⟩
    exact labelled_bearerWord hg
  keeps := id

theorem assignment_rests : (assignment table).Rests Labelled Apart credentialChar where
  value _ hc := assignedChar_credentialChar hc
  start := by
    rintro prev g b ⟨name, _, rfl, hname, -⟩ c hc
    have hover := mem_of_over over_credentialName hname
    obtain ⟨x, a, d, rfl, -⟩ := name_ends hname
    rw [List.head?_append_of_ne_nil _ (by simp)] at hc
    exact nameChar_assigned (hover c (List.mem_of_mem_head? hc))
  within := by
    rintro prev g b before g₁ c g₂ hg hread hg₁ hc
    obtain ⟨name, _, rfl, hname, w₁, _, rfl, ⟨-, hw₁⟩, _, _, rfl, ⟨d, rfl, hd⟩, w₂, q, rfl, ⟨-, hw₂⟩, hq⟩ := hg
    have hd' : d ∈ [':', '='] := mem_of_oneOf ":=" (by decide) hd
    have hnospace : isSpace c ≠ true := by
      intro hspace
      rw [space_not_credentialChar hspace] at hc
      cases hc
    rcases split_cases hread with ⟨k', rfl⟩ | ⟨w', rfl, hsign⟩
    · -- within the name
      exact not_labelled_append hg₁ fun e he =>
        nameChar_label (mem_of_over over_credentialName hname e (List.mem_append_left _ (List.mem_of_getLast? he)))
    · rcases split_cases hsign with ⟨k', rfl⟩ | ⟨m, rfl, hspaces⟩
      · exact absurd (hw₁ c (by simp)) hnospace
      · cases m with
        | nil =>
          -- at the sign
          rw [List.append_nil]
          exact not_labelled_name hname hw₁
        | cons e m =>
          have hafter : w₂ ++ q = m ++ c :: g₂ := (List.cons.inj hspaces).2
          obtain rfl := (List.cons.inj hspaces).1
          rcases split_cases hafter with ⟨k', rfl⟩ | ⟨m', rfl, hquote⟩
          · exact absurd (hw₂ c (by simp)) hnospace
          · -- at the quote
            rcases hq with ⟨e, rfl, -⟩ | rfl
            · cases m' with
              | nil =>
                rw [List.append_nil]
                exact not_labelled_sign hname hw₁ hd' hw₂
              | cons a m' => simp at hquote
            · simp at hquote
  behind := by
    rintro prev g b before ⟨name, _, rfl, hname, w₁, _, rfl, ⟨-, hw₁⟩, _, _, rfl, ⟨d, rfl, hd⟩, w₂, q, rfl, ⟨-, hw₂⟩, hq⟩
      hlabel
    exfalso
    have hd' : d ∈ [':', '='] := mem_of_oneOf ":=" (by decide) hd
    rcases hq with ⟨e, rfl, he⟩ | rfl
    · have hquote : e ∈ "\"'".toList := mem_of_oneOf "\"'" (by decide) he
      have hall : ∀ e ∈ "\"'".toList, isSpace e = false ∧ e ≠ ':' := by decide
      have hread : before ++ (name ++ (w₁ ++ ([d] ++ (w₂ ++ [e])))) =
          before ++ (name ++ (w₁ ++ ([d] ++ w₂))) ++ [e] := by simp
      rw [hread] at hlabel
      exact not_labelled_concat (hall e hquote).1 (hall e hquote).2 hlabel
    · rw [List.append_nil] at hlabel
      exact not_labelled_sign hname hw₁ hd' hw₂ hlabel
  closes := by
    intro prev g b before hg c hc
    obtain ⟨k, d, w, rfl, hd, -, hw⟩ := matches_assignment hg
    rw [List.getLast?_append_of_ne_nil _ (by simp), List.getLast?_append_of_ne_nil _ (List.cons_ne_nil _ _)] at hc
    rcases List.mem_cons.mp (List.mem_of_getLast? hc) with rfl | hc
    · have hall : ∀ d ∈ [':', '='], tokenChar "_-" d = false := by decide
      exact hall c hd
    · by_contra htoken
      have hassigned := tokenChar_assignedChar asciiTable (c := c) (by simpa using htoken)
      rw [assignedChar_after_sign (hw c hc)] at hassigned
      cases hassigned
  keeps := apart_of_labelled

theorem knownTokens_rests : (knownTokens table).Rests Apart where
  spans := ⟨trivial, over_knownToken, trivial⟩
  nearby := ⟨trivial, nearby_of_free knownToken_free, trivial⟩
  ends h := h

/-! ## What is left -/

/-- `redact_credentials` of a string whose characters carry their places. -/
def tracedRedaction (text : List Char) : List (Char × Option Nat) :=
  traceAll redacted (credentialPatterns table) (placed 0 text)

/-- **Without the places this is the redaction.** -/
theorem tracedRedaction_chars (text : List Char) :
    (tracedRedaction table text).map Prod.fst = redactCredentials table text := by
  rw [tracedRedaction, traceAll_chars, placed_chars, redactCredentials]

theorem shows_redaction (text : List Char) :
    Shows redacted (fun _ _ _ => True) (covered (credentialPatterns table) text) [] text (tracedRedaction table text) := by
  have hmark := (redacted_separate table).nonempty
  have h₀ := Shows.refl redacted (Closed (fun _ => False) credentialChar credentialChar) [] text
  have h₁ := h₀.pass (Prefixed.steady (authorization_rests table) hmark) (.inl rfl)
  have h₂ := Shows.pass (Prefixed.steady (bearer_rests table) hmark) h₁ (.inl rfl)
  have h₃ := Shows.pass (Prefixed.steady (assignment_rests table) hmark) h₂ (.inl rfl)
  have htoken : ∀ c, assignedChar c = false → tokenChar "_-" c = false := by
    intro c hc
    by_contra htoken
    rw [tokenChar_assignedChar table (by simpa using htoken)] at hc
    cases hc
  have h₃' : Shows redacted (Closed Apart credentialChar (knownTokens table).run) _ [] text _ :=
    Shows.mono (fun _ _ _ h => ⟨h.begins, h.inside, fun c hc => htoken c (h.next c hc)⟩) h₃
  have h₄ := Shows.pass (Bare.steady (knownTokens_rests table)) h₃' (.inl rfl)
  rw [authorization_pattern, bearer_pattern, assignment_pattern, knownTokens_pattern] at h₄
  exact h₄

/-- **A character is left exactly if it is in no value that counts.** -/
theorem mem_tags_redaction {text : List Char} {place : Nat} (h : place < text.length) :
    place ∈ tags (tracedRedaction table text) ↔ place ∉ covered (credentialPatterns table) text :=
  (shows_redaction table text).mem_tags (Nat.zero_le _) (by rw [List.length_nil, Nat.zero_add]; exact h)

/-- Alone every pattern replaces its values. -/
theorem mem_tags_pattern {p : Pattern} (hp : p ∈ credentialPatterns table) {text : List Char} {place : Nat}
    (h : place < text.length) :
    place ∈ tags (p.trace redacted none 0 (placed 0 text)) ↔ place ∉ (p.alone text).flatten := by
  have hmark := (redacted_separate table).nonempty
  rw [credentialPatterns, ← authorization_pattern table, ← bearer_pattern, ← assignment_pattern table,
    ← knownTokens_pattern] at hp
  simp only [List.mem_cons, List.not_mem_nil, or_false] at hp
  rcases hp with rfl | rfl | rfl | rfl
  · exact mem_tags_alone (Prefixed.steady (authorization_rests table) hmark) h
  · exact mem_tags_alone (Prefixed.steady (bearer_rests table) hmark) h
  · exact mem_tags_alone (Prefixed.steady (assignment_rests table) hmark) h
  · exact mem_tags_alone (@Bare.steady _ _ _ _ credentialChar (knownTokens_rests table)) h

end Patterns

/-! ## Texts at any depth -/

section Nested

variable {F : Type}

/-- A key that `redact_credentials` drops. -/
def isTranscript (key : String) : Bool := transcriptKeys.contains (lower key)

mutual

/-- The texts at any depth, but for what stands under a key that is dropped. -/
def leaves (dropped : String → Bool) : Json F → List String
  | .str text => [text]
  | .arr items => leavesOfItems dropped items
  | .obj fields => leavesOfFields dropped fields
  | _ => []

def leavesOfItems (dropped : String → Bool) : List (Json F) → List String
  | [] => []
  | value :: rest => leaves dropped value ++ leavesOfItems dropped rest

def leavesOfFields (dropped : String → Bool) : List (String × Json F) → List String
  | [] => []
  | (key, value) :: rest =>
    if dropped key then leavesOfFields dropped rest else leaves dropped value ++ leavesOfFields dropped rest

end

theorem leavesOfItems_eq (dropped : String → Bool) (items : List (Json F)) :
    leavesOfItems dropped items = items.flatMap (leaves dropped) := by
  induction items with
  | nil => rfl
  | cons value rest ih => rw [leavesOfItems, ih, List.flatMap_cons]

theorem leavesOfFields_eq (dropped : String → Bool) (fields : List (String × Json F)) :
    leavesOfFields dropped fields =
      (fields.filter fun field => !dropped field.1).flatMap fun field => leaves dropped field.2 := by
  induction fields with
  | nil => rfl
  | cons field rest ih =>
    obtain ⟨key, value⟩ := field
    rw [leavesOfFields, List.filter_cons]
    cases dropped key with
    | true => exact ih
    | false =>
      rw [ih, if_neg Bool.false_ne_true, if_pos (by rfl), List.flatMap_cons]

theorem redactJsonFields_eq (table : WordTable) (fields : List (String × Json F)) :
    redactJsonFields table fields =
      (fields.filter fun field => !isTranscript field.1).map fun field => (field.1, redactJson table field.2) := by
  induction fields with
  | nil => rfl
  | cons field rest ih =>
    obtain ⟨key, value⟩ := field
    rw [redactJsonFields, List.filter_cons, ← isTranscript]
    cases isTranscript key with
    | true => exact ih
    | false => rw [ih, if_neg Bool.false_ne_true, if_pos (by rfl), List.map_cons]

/-- `redact_credentials` of a text. -/
def redactString (table : WordTable) (text : String) : String := String.ofList (redactCredentials table text.toList)

/-- **The texts of the result are the redactions of the texts that are not dropped**, in their order. -/
theorem leaves_redactJson (table : WordTable) (value : Json F) :
    leaves (fun _ => false) (redactJson table value) = (leaves isTranscript value).map (redactString table) := by
  induction value using Json.induction with
  | null => rfl
  | bool b => rfl
  | int n => rfl
  | float x => rfl
  | str text => rfl
  | arr items ih =>
    rw [redactJson, leaves, leaves, redactJsonItems_eq_map, leavesOfItems_eq, leavesOfItems_eq, List.flatMap_map,
      List.map_flatMap]
    exact List.flatMap_congr ih
  | obj fields ih =>
    have hall : ∀ fields : List (String × Json F), (fields.filter fun _ => !false) = fields :=
      fun fields => List.filter_eq_self.mpr fun _ _ => rfl
    rw [redactJson, leaves, leaves, redactJsonFields_eq, leavesOfFields_eq, leavesOfFields_eq, hall, List.flatMap_map,
      List.map_flatMap]
    exact List.flatMap_congr fun field hfield => ih field (List.mem_of_mem_filter hfield)

/-- **A second redaction changes nothing**, at any depth. -/
theorem redactJson_idempotent (table : WordTable) (value : Json F) :
    redactJson table (redactJson table value) = redactJson table value := by
  induction value using Json.induction with
  | null => rfl
  | bool b => rfl
  | int n => rfl
  | float x => rfl
  | str text =>
    rw [redactJson, redactJson, String.toList_ofList, redactCredentials_idempotent]
  | arr items ih =>
    rw [redactJson, redactJson, redactJsonItems_eq_map, redactJsonItems_eq_map, List.map_map]
    exact congrArg Json.arr (List.map_congr_left ih)
  | obj fields ih =>
    rw [redactJson, redactJson, redactJsonFields_eq, redactJsonFields_eq, List.filter_map, List.map_map,
      List.filter_filter]
    simp only [Function.comp_def, Bool.and_self]
    refine congrArg Json.obj (List.map_congr_left fun field hfield => ?_)
    rw [ih field (List.mem_of_mem_filter hfield)]

/-! ## Completeness -/

/-- The value still stands at its places in the redaction of the text. -/
def Survives (table : WordTable) (text : List Char) (value : List Nat) : Prop :=
  ∀ place ∈ value, place ∈ tags (tracedRedaction table text)

/-- No character of the value stands at its place in the redaction of the text. -/
def Erased (table : WordTable) (text : List Char) (value : List Nat) : Prop :=
  ∀ place ∈ value, place ∉ tags (tracedRedaction table text)

/-- The redaction of a value is stable, and complete: what any pattern alone would replace in a text is `gone` from
the redaction of that text. -/
structure Redacts (table : WordTable) (gone : List Char → List Nat → Prop) (value : Json F) : Prop where
  texts : leaves (fun _ => false) (redactJson table value) = (leaves isTranscript value).map (redactString table)
  complete : ∀ text ∈ leaves isTranscript value, ∀ p ∈ credentialPatterns table, ∀ v ∈ p.alone text.toList,
    gone text.toList v
  stable : redactJson table (redactJson table value) = redactJson table value

/-- **The redaction is stable, and it is complete exactly where each value that a pattern alone would replace has a
character in a value that counts**; nothing of these values is left exactly where all their characters are in values
that count. -/
theorem redacts_iff (table : WordTable) (value : Json F) :
    (Redacts table (fun text v => ¬ Survives table text v) value ↔
      ∀ text ∈ leaves isTranscript value, ∀ p ∈ credentialPatterns table, ∀ v ∈ p.alone text.toList,
        ∃ place ∈ v, place ∈ covered (credentialPatterns table) text.toList) ∧
    (Redacts table (Erased table) value ↔
      ∀ text ∈ leaves isTranscript value, ∀ p ∈ credentialPatterns table, ∀ v ∈ p.alone text.toList,
        ∀ place ∈ v, place ∈ covered (credentialPatterns table) text.toList) := by
  have hplace : ∀ {text : List Char} {p : Pattern} {v : List Nat}, v ∈ p.alone text → ∀ place ∈ v,
      (place ∈ tags (tracedRedaction table text) ↔ place ∉ covered (credentialPatterns table) text) := by
    intro text p v hv place hplace
    have hbounds := (values_bounds v hv place hplace).2
    exact mem_tags_redaction table (by omega)
  constructor
  · refine ⟨fun h text htext p hp v hv => ?_, fun h => ⟨leaves_redactJson table value, ?_, redactJson_idempotent table value⟩⟩
    · by_contra hnone
      refine h.complete text htext p hp v hv fun place hmem => (hplace hv place hmem).mpr fun hcovered => ?_
      exact hnone ⟨place, hmem, hcovered⟩
    · intro text htext p hp v hv hsurvives
      obtain ⟨place, hmem, hcovered⟩ := h text htext p hp v hv
      exact (hplace hv place hmem).mp (hsurvives place hmem) hcovered
  · refine ⟨fun h text htext p hp v hv place hmem => ?_,
      fun h => ⟨leaves_redactJson table value, ?_, redactJson_idempotent table value⟩⟩
    · by_contra hnone
      exact h.complete text htext p hp v hv place hmem ((hplace hv place hmem).mpr hnone)
    · intro text htext p hp v hv place hmem htag
      exact (hplace hv place hmem).mp htag (h text htext p hp v hv place hmem)

/-- The second pattern takes the label of the third for its value, and the password behind it is left. -/
theorem label_replaced :
    ¬ Redacts asciiTable (fun text v => ¬ Survives asciiTable text v) (.str "Bearer token: hunter2" : Json Unit) ∧
      ¬ Redacts asciiTable (Erased asciiTable) (.str "Bearer token: hunter2" : Json Unit) := by
  have halone : List.range' 14 7 ∈ assignmentPattern.alone "Bearer token: hunter2".toList := by decide
  have hleft : ∀ place ∈ List.range' 14 7, place ∈ tags (tracedRedaction asciiTable "Bearer token: hunter2".toList) := by
    decide
  have hmem : assignmentPattern ∈ credentialPatterns asciiTable := by simp [credentialPatterns]
  constructor
  · intro h
    exact h.complete _ List.mem_cons_self _ hmem _ halone hleft
  · intro h
    exact h.complete _ List.mem_cons_self _ hmem _ halone 14 (by decide) (hleft 14 (by decide))

end Nested

end CodexMemory.Hooks
