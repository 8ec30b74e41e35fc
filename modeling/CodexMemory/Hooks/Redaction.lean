import CodexMemory.Text
import CodexMemory.Masking
import Mathlib

/-!
# `redact_credentials` of `hook_events.py`

The four credential patterns and their replacement one after another.

* `redactCredentials_settled`: afterwards every match of every pattern is the
  marker;
* `redactCredentials_eq_self`: exactly the texts of that kind stay as they are;
* `redactCredentials_idempotent`: a second redaction changes nothing.
-/

namespace CodexMemory.Hooks

open Regex Masking

/-! ## The patterns -/

/-- `str.isalnum`, which `\b` reads besides the underscore, with the part of the
Unicode tables that the patterns rely on. -/
structure WordTable where
  alnum : Char → Bool
  ascii : ∀ c, c.toNat < 128 → alnum c = c.isAlphanum
  folded : ∀ c, c.toNat = 0x130 ∨ c.toNat = 0x131 ∨ c.toNat = 0x212a ∨ c.toNat = 0x17f → alnum c = true
  space : ∀ c, isSpace c = true → alnum c = false

/-- The table of the letters and digits of ASCII, and of the four letters that
are equal to one of them. -/
def asciiTable : WordTable where
  alnum c := c.isAlphanum || [0x130, 0x131, 0x212a, 0x17f].contains c.toNat
  ascii c hc := by
    have hsmall : [0x130, 0x131, 0x212a, 0x17f].contains c.toNat = false := by
      simp only [List.contains_cons, List.contains_nil, Bool.or_false, Bool.or_eq_false_iff, beq_eq_false_iff_ne]
      omega
    rw [hsmall, Bool.or_false]
  folded c hc := by
    rcases hc with hc | hc | hc | hc <;> simp [hc]
  space c hc := by
    simp only [isSpace, Bool.or_eq_true, Bool.and_eq_true, decide_eq_true_eq, beq_iff_eq] at hc
    rw [Bool.or_eq_false_iff]
    constructor
    · have hc' : c.toNat = c.val.toNat := rfl
      have hA : 'A'.val.toNat = 65 := rfl
      have hZ : 'Z'.val.toNat = 90 := rfl
      have ha : 'a'.val.toNat = 97 := rfl
      have hz : 'z'.val.toNat = 122 := rfl
      have h0 : '0'.val.toNat = 48 := rfl
      have h9 : '9'.val.toNat = 57 := rfl
      simp only [Char.isAlphanum, Char.isAlpha, Char.isUpper, Char.isLower, Char.isDigit, Bool.or_eq_false_iff,
        Bool.and_eq_false_iff, decide_eq_false_iff_not, UInt32.le_iff_toNat_le, ge_iff_le]
      omega
    · simp only [List.contains_cons, List.contains_nil, Bool.or_false, Bool.or_eq_false_iff, beq_eq_false_iff_ne]
      omega

/-- A character of `\w`. -/
def WordTable.word (table : WordTable) (c : Char) : Bool := table.alnum c || c == '_'

/-- The letter that `(?i)` compares: four letters outside ASCII are equal to one
of ASCII. -/
def foldCase (c : Char) : Char :=
  if c.toNat = 0x130 ∨ c.toNat = 0x131 then 'i'
  else if c.toNat = 0x212a then 'k'
  else if c.toNat = 0x17f then 's'
  else c.toLower

/-- `_REDACTED`. -/
def redacted : List Char := "<已脱敏>".toList

/-- A literal under `(?i)`. -/
def literal (text : String) : Regex := literals foldCase text.toList

/-- A class of single characters under `(?i)`. -/
def oneOf (chars : String) : Regex := .char fun c => chars.toList.contains (foldCase c)

/-- `[^\s,;]` -/
def credentialChar (c : Char) : Bool := !(isSpace c || c == ',' || c == ';')

/-- `[^\s,;"']` -/
def assignedChar (c : Char) : Bool := credentialChar c && !(c == '"' || c == '\'')

/-- `[A-Za-z0-9-]` with further characters, under `(?i)`. -/
def tokenChar (others : String) (c : Char) : Bool :=
  (foldCase c).isAlphanum || others.toList.contains c

/-- `bearer\s+` -/
def bearerWord : Regex := .seq (literal "bearer") (.many isSpace 1)

/-- `authorization\s*:\s*` -/
def authorizationField : Regex :=
  .seq (literal "authorization") (.seq (.many isSpace 0) (.seq (oneOf ":") (.many isSpace 0)))

/-- `(authorization\s*:\s*(?:bearer\s+)?)([^\s,;]+)` -/
def authorizationPattern : Pattern :=
  .keeping (.seq authorizationField (.opt bearerWord)) (.many credentialChar 1)

/-- `(\bbearer\s+)([^\s,;]+)` -/
def bearerPattern (table : WordTable) : Pattern :=
  .keeping (.seq (.boundary table.word) bearerWord) (.many credentialChar 1)

/-- A name of two words with an optional `_` or `-` between them. -/
def pairName (first second : String) : Regex :=
  .seq (literal first) (.seq (.opt (oneOf "_-")) (literal second))

/-- The names of the third pattern. -/
def credentialName : Regex :=
  .alt (pairName "api" "key") (.alt (pairName "access" "token") (.alt (pairName "refresh" "token")
    (.alt (pairName "client" "secret") (.alt (literal "secret") (.alt (literal "password")
      (.alt (literal "passwd") (literal "token")))))))

/-- `\s*[:=]\s*["']?` -/
def assignmentSign : Regex :=
  .seq (.many isSpace 0) (.seq (oneOf ":=") (.seq (.many isSpace 0) (.opt (oneOf "\"'"))))

/-- `((?:api[_-]?key|…|token)\s*[:=]\s*["']?)([^\s,;"']+)` -/
def assignmentPattern : Pattern :=
  .keeping (.seq credentialName assignmentSign) (.many assignedChar 1)

/-- `sk-[A-Za-z0-9_-]{12,}|gh[pousr]_[A-Za-z0-9_]{12,}|xox[baprs]-[A-Za-z0-9-]{12,}` -/
def knownToken : Regex :=
  .alt (.seq (literal "sk-") (.many (tokenChar "_-") 12))
    (.alt (.seq (literal "gh") (.seq (oneOf "pousr") (.seq (oneOf "_") (.many (tokenChar "_") 12))))
      (.seq (literal "xox") (.seq (oneOf "baprs") (.seq (oneOf "-") (.many (tokenChar "-") 12)))))

/-- `\b(sk-…|gh…|xox…)\b` -/
def knownTokenPattern (table : WordTable) : Pattern :=
  .whole (.seq (.boundary table.word) (.seq knownToken (.boundary table.word)))

/-- `_CREDENTIAL_PATTERNS`. -/
def credentialPatterns (table : WordTable) : List Pattern :=
  [authorizationPattern, bearerPattern table, assignmentPattern, knownTokenPattern table]

/-- `redact_credentials` of a string. -/
def redactCredentials (table : WordTable) (text : List Char) : List Char :=
  (credentialPatterns table).foldl (fun result p => p.sub redacted result) text

/-! ## Characters -/

/-- A letter of a credential name. -/
def IsLetter (c : Char) : Prop := (foldCase c).isAlpha = true

/-- A character of a credential name. -/
def IsNameChar (c : Char) : Prop := IsLetter c ∨ c = '_' ∨ c = '-'

theorem isAlphanum_lt {c : Char} (h : c.isAlphanum = true) : c.toNat < 128 := by
  simp only [Char.isAlphanum, Char.isAlpha, Char.isUpper, Char.isLower, Char.isDigit, Bool.or_eq_true,
    Bool.and_eq_true, decide_eq_true_eq, UInt32.le_iff_toNat_le, ge_iff_le] at h
  have hc : c.toNat = c.val.toNat := rfl
  have hZ : 'Z'.val.toNat = 90 := rfl
  have hz : 'z'.val.toNat = 122 := rfl
  have h9 : '9'.val.toNat = 57 := rfl
  omega

theorem isAlphanum_of_toLower {c : Char} (h : c.toLower.isAlphanum = true) : c.isAlphanum = true := by
  by_cases hupper : c.isUpper = true
  · rw [Char.isAlphanum, Char.isAlpha, hupper, Bool.true_or, Bool.true_or]
  · have hsame : c.toLower = c := by
      rw [Char.toLower, dif_neg]
      simpa [Char.isUpper] using hupper
    rw [hsame] at h
    exact h

theorem isAlpha_toLower {c : Char} (h : c.isUpper = true) : c.toLower.isAlpha = true := by
  rw [Char.isAlpha, Bool.or_eq_true]
  right
  simp only [Char.isUpper, decide_eq_true_eq] at h
  rw [Char.toLower, dif_pos h, Char.isLower]
  obtain ⟨hlow, hhigh⟩ := h
  simp only [UInt32.le_iff_toNat_le, ge_iff_le] at hlow hhigh
  have hA : 'A'.val.toNat = 65 := rfl
  have hZ : 'Z'.val.toNat = 90 := rfl
  have ha : 'a'.val.toNat = 97 := rfl
  have hz : 'z'.val.toNat = 122 := rfl
  have hshift : ('a'.val - 'A'.val).toNat = 32 := rfl
  simp only [UInt32.le_iff_toNat_le, ge_iff_le, UInt32.toNat_add, Bool.and_eq_true, decide_eq_true_eq,
    hshift, ha, hz]
  omega

/-- Only letters are equal to another character under `(?i)`. -/
theorem eq_of_foldCase {c : Char} (h : (foldCase c).isAlpha = false) : foldCase c = c := by
  rw [foldCase] at h ⊢
  split at h
  · cases h
  · next h₁ =>
    rw [if_neg h₁]
    split at h
    · cases h
    · next h₂ =>
      rw [if_neg h₂]
      split at h
      · cases h
      · next h₃ =>
        rw [if_neg h₃]
        by_cases hupper : c.isUpper = true
        · rw [isAlpha_toLower hupper] at h
          cases h
        · rw [Char.toLower, dif_neg]
          simpa [Char.isUpper] using hupper

theorem mem_of_oneOf (chars : String) (hchars : ∀ d ∈ chars.toList, d.isAlpha = false) {c : Char}
    (h : chars.toList.contains (foldCase c) = true) : c ∈ chars.toList := by
  rw [List.contains_iff_mem] at h
  rw [eq_of_foldCase (hchars _ h)] at h
  exact h

theorem letter_of_mem {text : String} (htext : ∀ d ∈ text.toList, d.isAlpha = true) {c : Char}
    (hc : foldCase c ∈ text.toList) : IsLetter c := htext _ hc

theorem letter_not_redacted {c : Char} (h : IsLetter c) : c ∉ redacted := by
  intro hmem
  have hall : ∀ d ∈ redacted, (foldCase d).isAlpha = false := by decide
  have hfalse := hall c hmem
  rw [h] at hfalse
  cases hfalse

theorem space_not_redacted {c : Char} (h : isSpace c = true) : c ∉ redacted := by
  intro hmem
  have hall : ∀ d ∈ redacted, isSpace d = false := by decide
  have hfalse := hall c hmem
  rw [h] at hfalse
  cases hfalse

section Characters

variable (table : WordTable)

theorem alnum_of_foldCase {c : Char} (h : (foldCase c).isAlphanum = true) : table.alnum c = true := by
  rw [foldCase] at h
  split at h
  · next hc => exact table.folded c (by omega)
  · split at h
    · next hc => exact table.folded c (by omega)
    · split at h
      · next hc => exact table.folded c (by omega)
      · have hc := isAlphanum_of_toLower h
        rw [table.ascii c (isAlphanum_lt hc), hc]

theorem letter_alnum {c : Char} (h : IsLetter c) : table.alnum c = true := by
  apply alnum_of_foldCase
  rw [Char.isAlphanum, h, Bool.true_or]

theorem letter_word {c : Char} (h : IsLetter c) : table.word c = true := by
  rw [WordTable.word, letter_alnum table h, Bool.true_or]

include table in
theorem letter_not_space {c : Char} (h : IsLetter c) : isSpace c = false := by
  cases hspace : isSpace c with
  | false => rfl
  | true =>
    have hfalse := table.space c hspace
    rw [letter_alnum table h] at hfalse
    cases hfalse

theorem space_not_word {c : Char} (h : isSpace c = true) : table.word c = false := by
  have hunder : (c == '_') = false := by
    rw [beq_eq_false_iff_ne]
    rintro rfl
    cases h
  rw [WordTable.word, table.space c h, hunder, Bool.or_false]

/-- A character of ASCII that is no letter, digit or underscore. -/
theorem sign_not_word {c : Char} (hlt : c.toNat < 128) (h : c.isAlphanum = false) (hunder : c ≠ '_') :
    table.word c = false := by
  rw [WordTable.word, table.ascii c hlt, h, Bool.false_or, beq_eq_false_iff_ne]
  exact hunder

theorem credentialChar_edges {c : Char} (h : credentialChar c = false) : table.word c = false := by
  simp only [credentialChar, Bool.not_eq_false', Bool.or_eq_true, beq_iff_eq] at h
  rcases h with (hspace | rfl) | rfl
  · exact space_not_word table hspace
  · exact sign_not_word table (by decide) (by decide) (by decide)
  · exact sign_not_word table (by decide) (by decide) (by decide)

theorem assignedChar_edges {c : Char} (h : assignedChar c = false) : table.word c = false := by
  simp only [assignedChar, Bool.and_eq_false_iff, Bool.not_eq_false', Bool.or_eq_true, beq_iff_eq] at h
  rcases h with h | rfl | rfl
  · exact credentialChar_edges table h
  · exact sign_not_word table (by decide) (by decide) (by decide)
  · exact sign_not_word table (by decide) (by decide) (by decide)

end Characters

theorem space_not_credentialChar {c : Char} (h : isSpace c = true) : credentialChar c = false := by
  rw [credentialChar, h]
  rfl

theorem assignedChar_credentialChar {c : Char} (h : assignedChar c = true) : credentialChar c = true := by
  rw [assignedChar, Bool.and_eq_true] at h
  exact h.1

theorem redacted_separate (table : WordTable) : Separate table.word redacted where
  nonempty := by decide
  head := by
    intro c hc
    have hc' : c = '<' := by
      cases hc
      rfl
    subst hc'
    exact sign_not_word table (by decide) (by decide) (by decide)
  last := by
    intro c hc
    have hc' : c = '>' := by
      cases hc
      rfl
    subst hc'
    exact sign_not_word table (by decide) (by decide) (by decide)

/-! ## The groups -/

/-- What follows a character that does not occur in the first part lies in the second. -/
theorem after_first {u w y t : List Char} {c : Char} (h : u ++ w = y ++ c :: t) (hc : c ∉ u) :
    ∃ z, w = z ++ c :: t := by
  rcases List.append_eq_append_iff.mp h with ⟨z, -, hw⟩ | ⟨z, hu, hw⟩
  · exact ⟨z, hw⟩
  · cases z with
    | nil => exact ⟨[], by rw [List.nil_append] at hw ⊢; exact hw.symm⟩
    | cons d z =>
      rw [List.cons_append] at hw
      obtain ⟨rfl, -⟩ := List.cons.inj hw
      refine absurd ?_ hc
      rw [hu]
      exact List.mem_append_right _ List.mem_cons_self

theorem letters_of_literal {text : String} (htext : ∀ d ∈ text.toList, d.isAlpha = true) {k : List Char}
    (hk : k.map foldCase = text.toList) : ∀ c ∈ k, IsLetter c := fun c hc =>
  letter_of_mem htext (by rw [← hk]; exact List.mem_map_of_mem hc)

theorem literal_ne_nil {text : String} (htext : text.toList ≠ []) {k : List Char}
    (hk : k.map foldCase = text.toList) : k ≠ [] := by
  rintro rfl
  exact htext hk.symm

/-- A match of `bearer\s+`. -/
theorem matches_bearerWord {prev : Option Char} {g b : List Char} (h : Matches bearerWord prev g b) :
    ∃ k w, g = k ++ w ∧ k ≠ [] ∧ (∀ c ∈ k, IsLetter c) ∧ w ≠ [] ∧ ∀ c ∈ w, isSpace c = true := by
  obtain ⟨k, w, rfl, hk, hlength, hw⟩ := h
  rw [literal, matches_literals] at hk
  exact ⟨k, w, rfl, literal_ne_nil (by decide) hk, letters_of_literal (by decide) hk,
    List.length_pos_iff.mp hlength, hw⟩

theorem bearerWord_free : Free bearerWord := ⟨free_literals _ _, trivial⟩

section Groups

variable (table : WordTable)

include table in
/-- `bearer\s+` ends in spaces, which are no value. -/
theorem bearer_inner {prev prev' : Option Char} {x g t b b' : List Char}
    (h : Matches bearerWord prev (x ++ (g ++ t)) b) (hg : Matches bearerWord prev' g b') :
    ¬ ∃ c ∈ t.head?, credentialChar c = true := by
  rintro ⟨c, hc, hvalue⟩
  obtain ⟨k₀, w₀, hread, -, hk₀, -, hw₀⟩ := matches_bearerWord h
  obtain ⟨k, w, rfl, -, -, hw, hspaces⟩ := matches_bearerWord hg
  obtain ⟨w, d, rfl⟩ := List.eq_nil_or_concat' w |>.resolve_left hw
  have hd : isSpace d = true := hspaces d (List.mem_append_right _ List.mem_cons_self)
  have hdk : d ∉ k₀ := by
    intro hmem
    rw [letter_not_space table (hk₀ d hmem)] at hd
    cases hd
  have hsplit : k₀ ++ w₀ = (x ++ (k ++ w)) ++ d :: t := by
    rw [← hread]
    simp only [List.append_assoc, List.singleton_append]
  obtain ⟨z, rfl⟩ := after_first hsplit hdk
  have hspace := hw₀ c (List.mem_append_right _ (List.mem_cons_of_mem _ (List.mem_of_mem_head? hc)))
  rw [space_not_credentialChar hspace] at hvalue
  cases hvalue

/-- `(\bbearer\s+)([^\s,;]+)` -/
def bearer : Prefixed table.word redacted where
  before := .seq (.boundary table.word) bearerWord
  value := credentialChar
  text := by
    rintro prev g b ⟨m₁, g, rfl, ⟨rfl, -⟩, hg⟩
    obtain ⟨k, w, rfl, hk, hletters, -, hspaces⟩ := matches_bearerWord hg
    rw [List.nil_append]
    refine ⟨fun hnil => hk (List.append_eq_nil_iff.mp hnil).1, fun c hc => ?_⟩
    rcases List.mem_append.mp hc with hc | hc
    · exact letter_not_redacted (hletters c hc)
    · exact space_not_redacted (hspaces c hc)
  ending := by
    rintro prev g b ⟨m₁, g, rfl, ⟨rfl, -⟩, hg⟩ c hc
    obtain ⟨k, w, rfl, -, -, hw, hspaces⟩ := matches_bearerWord hg
    rw [List.nil_append, List.getLast?_append_of_ne_nil _ hw] at hc
    exact space_not_word table (hspaces c (List.mem_of_mem_getLast? hc))
  moves := by
    rintro prev prev' g b b' ⟨m₁, g, rfl, ⟨rfl, hboundary⟩, hg⟩ hedge
    refine ⟨[], g, rfl, ⟨rfl, ?_⟩, matches_of_free bearerWord_free hg _ _⟩
    obtain ⟨k, w, rfl, hk, hletters, -, -⟩ := matches_bearerWord hg
    obtain ⟨c, k, rfl⟩ := List.exists_cons_of_ne_nil hk
    have hc := letter_word table (hletters c List.mem_cons_self)
    simp only [atBoundary, List.cons_append, List.head?_cons, Option.any_some, hc] at hboundary ⊢
    cases hprev : prev.any table.word with
    | false => rfl
    | true =>
      rw [hedge c rfl hc hprev] at hboundary
      cases hboundary
  inner := by
    rintro prev prev' x g t b b' ⟨m₁, g₁, hread, ⟨rfl, -⟩, h⟩ ⟨m₂, g, rfl, ⟨rfl, -⟩, hg⟩ ht
    rw [List.nil_append, List.nil_append] at hread
    rw [← hread] at h
    exact absurd ht (bearer_inner table h hg)
  longest := fun h m r hread hlonger _ => by
    refine longest_of_no_inner ?_ h hread hlonger
    rintro prev prev' x g t b b' ⟨m₁, g₁, hread, ⟨rfl, -⟩, h⟩ ⟨m₂, g, rfl, ⟨rfl, -⟩, hg⟩
    rw [List.nil_append, List.nil_append] at hread
    rw [← hread] at h
    exact bearer_inner table h hg
  marks := by decide
  edges := fun _ => credentialChar_edges table

/-- A match of `authorization\s*:\s*`. -/
theorem matches_authorizationField {prev : Option Char} {g b : List Char}
    (h : Matches authorizationField prev g b) :
    ∃ k w₁ w₂, g = k ++ (w₁ ++ ':' :: w₂) ∧ k ≠ [] ∧ (∀ c ∈ k, IsLetter c) ∧
      (∀ c ∈ w₁, isSpace c = true) ∧ ∀ c ∈ w₂, isSpace c = true := by
  obtain ⟨k, _, rfl, hk, w₁, _, rfl, ⟨-, hw₁⟩, _, w₂, rfl, ⟨d, rfl, hd⟩, -, hw₂⟩ := h
  rw [literal, matches_literals] at hk
  have hd' : d = ':' := List.mem_singleton.mp (mem_of_oneOf ":" (by decide) hd)
  subst hd'
  exact ⟨k, w₁, w₂, rfl, literal_ne_nil (by decide) hk, letters_of_literal (by decide) hk, hw₁, hw₂⟩

theorem authorizationField_free : Free authorizationField :=
  ⟨free_literals _ _, trivial, trivial, trivial⟩

theorem authorizationGroup_free : Free (.seq authorizationField (.opt bearerWord)) :=
  ⟨authorizationField_free, bearerWord_free⟩

/-- What the optional `bearer\s+` can be. -/
def IsTail (tail : List Char) : Prop :=
  tail = [] ∨ ∃ k w, tail = k ++ w ∧ k ≠ [] ∧ (∀ c ∈ k, IsLetter c) ∧ w ≠ [] ∧ ∀ c ∈ w, isSpace c = true

theorem isTail_of_matches {prev : Option Char} {tail b : List Char}
    (h : Matches (.opt bearerWord) prev tail b) : IsTail tail := by
  rcases h with h | rfl
  · exact Or.inr (matches_bearerWord h)
  · exact Or.inl rfl

include table in
theorem tail_head {tail : List Char} (h : IsTail tail) : ∀ c ∈ tail.head?, isSpace c = false := by
  intro c hc
  rcases h with rfl | ⟨k, w, rfl, hk, hletters, -, -⟩
  · cases hc
  · rw [List.head?_append_of_ne_nil _ hk] at hc
    exact letter_not_space table (hletters c (List.mem_of_mem_head? hc))

include table in
/-- After a group that a value follows, only the whole `bearer\s+` can come. -/
theorem authorization_inner {x field tail field₀ tail₀ t : List Char} {prev prev₀ : Option Char}
    {b b₀ : List Char} (hread : x ++ ((field ++ tail) ++ t) = field₀ ++ tail₀)
    (hfield : Matches authorizationField prev field b) (htail : IsTail tail)
    (hfield₀ : Matches authorizationField prev₀ field₀ b₀) (htail₀ : IsTail tail₀)
    (ht : ∃ c ∈ t.head?, credentialChar c = true) : tail = [] ∧ t = tail₀ := by
  obtain ⟨k, w₁, w₂, rfl, -, hk, hw₁, hw₂⟩ := matches_authorizationField hfield
  obtain ⟨k₀, v₁, v₂, rfl, -, hk₀, hv₁, hv₂⟩ := matches_authorizationField hfield₀
  have hcolon : ∀ c : Char, IsLetter c ∨ isSpace c = true → c ≠ ':' := by
    rintro c (hc | hc) rfl
    · revert hc
      unfold IsLetter
      decide
    · cases hc
  have htailchar : ∀ c ∈ tail₀, IsLetter c ∨ isSpace c = true := by
    rcases htail₀ with rfl | ⟨k', w', rfl, -, hk', -, hw'⟩
    · exact fun c hc => nomatch hc
    · intro c hc
      exact (List.mem_append.mp hc).imp (hk' c) (hw' c)
  have hsplit : (k₀ ++ v₁) ++ (':' :: (v₂ ++ tail₀)) = (x ++ (k ++ w₁)) ++ ':' :: (w₂ ++ (tail ++ t)) := by
    simpa only [List.append_assoc, List.cons_append] using hread.symm
  obtain ⟨z, hz⟩ := after_first hsplit (by
    intro hmem
    rcases List.mem_append.mp hmem with hmem | hmem
    · exact hcolon _ (Or.inl (hk₀ _ hmem)) rfl
    · exact hcolon _ (Or.inr (hv₁ _ hmem)) rfl)
  have hafter : v₂ ++ tail₀ = w₂ ++ (tail ++ t) := by
    cases z with
    | nil => exact (List.cons.inj hz).2
    | cons d z =>
      obtain ⟨-, hz⟩ := List.cons.inj hz
      have hmem : ':' ∈ v₂ ++ tail₀ := by
        rw [hz]
        exact List.mem_append_right _ List.mem_cons_self
      rcases List.mem_append.mp hmem with hmem | hmem
      · exact absurd rfl (hcolon _ (Or.inr (hv₂ _ hmem)))
      · exact absurd rfl (hcolon _ (htailchar _ hmem))
  obtain ⟨d, hd, hvalue⟩ := ht
  have hdspace : isSpace d = false := by
    by_contra hspace
    rw [space_not_credentialChar (by simpa using hspace)] at hvalue
    cases hvalue
  have hhead : ∀ c ∈ (tail ++ t).head?, isSpace c = false := by
    intro c hc
    cases tail with
    | nil =>
      rw [List.nil_append, hd] at hc
      cases hc
      exact hdspace
    | cons e tail =>
      exact tail_head table htail c hc
  obtain ⟨-, htails⟩ := run_unique hv₂ hw₂ (tail_head table htail₀) hhead hafter
  rcases htail with rfl | ⟨k', w', rfl, hk'ne, hk', hw'ne, hw'⟩
  · exact ⟨rfl, htails.symm⟩
  · -- a second `bearer\s+` would have to follow
    exfalso
    rcases htail₀ with rfl | ⟨k₁, w₀, rfl, -, hk₁, hw₀ne, hw₀⟩
    · rw [List.append_assoc] at htails
      exact hk'ne (List.append_eq_nil_iff.mp htails.symm).1
    · have hnospace : ∀ {k : List Char}, (∀ c ∈ k, IsLetter c) → ∀ c ∈ k, (!isSpace c) = true :=
        fun hk c hc => by rw [letter_not_space table (hk c hc)]; rfl
      have hspacehead : ∀ {w r : List Char}, w ≠ [] → (∀ c ∈ w, isSpace c = true) →
          ∀ c ∈ (w ++ r).head?, (!isSpace c) = false := fun hne hw c hc => by
        rw [List.head?_append_of_ne_nil _ hne] at hc
        rw [hw c (List.mem_of_mem_head? hc)]
        rfl
      rw [List.append_assoc] at htails
      have hw₀head : ∀ c ∈ w₀.head?, (!isSpace c) = false := by
        rw [← List.append_nil w₀]
        exact hspacehead hw₀ne hw₀
      obtain ⟨-, rfl⟩ := run_unique (hnospace hk₁) (hnospace hk') hw₀head (hspacehead hw'ne hw') htails
      rw [hw₀ d (List.mem_append_right _ (List.mem_of_mem_head? hd))] at hdspace
      cases hdspace

/-- `(authorization\s*:\s*(?:bearer\s+)?)([^\s,;]+)` -/
def authorization : Prefixed table.word redacted where
  before := .seq authorizationField (.opt bearerWord)
  value := credentialChar
  text := by
    rintro prev g b ⟨field, tail, rfl, hfield, htail⟩
    obtain ⟨k, w₁, w₂, rfl, hk, hletters, hw₁, hw₂⟩ := matches_authorizationField hfield
    refine ⟨fun hnil => hk (List.append_eq_nil_iff.mp (List.append_eq_nil_iff.mp hnil).1).1, fun c hc => ?_⟩
    simp only [List.mem_append, List.mem_cons] at hc
    rcases hc with (hc | hc | rfl | hc) | hc
    · exact letter_not_redacted (hletters c hc)
    · exact space_not_redacted (hw₁ c hc)
    · decide
    · exact space_not_redacted (hw₂ c hc)
    · rcases isTail_of_matches htail with rfl | ⟨k', w', rfl, -, hk', -, hw'⟩
      · cases hc
      · rcases List.mem_append.mp hc with hc | hc
        · exact letter_not_redacted (hk' c hc)
        · exact space_not_redacted (hw' c hc)
  ending := by
    rintro prev g b ⟨field, tail, rfl, hfield, htail⟩ c hc
    rcases isTail_of_matches htail with rfl | ⟨k', w', rfl, -, -, hw', hspaces⟩
    · obtain ⟨k, w₁, w₂, rfl, -, -, -, hw₂⟩ := matches_authorizationField hfield
      rw [List.append_nil, List.getLast?_append_of_ne_nil _ (by simp),
        List.getLast?_append_of_ne_nil _ (List.cons_ne_nil _ _)] at hc
      rcases List.mem_cons.mp (List.mem_of_mem_getLast? hc) with rfl | hc
      · exact sign_not_word table (by decide) (by decide) (by decide)
      · exact space_not_word table (hw₂ c hc)
    · rw [← List.append_assoc, List.getLast?_append_of_ne_nil _ hw'] at hc
      exact space_not_word table (hspaces c (List.mem_of_mem_getLast? hc))
  moves := fun hg _ => matches_of_free authorizationGroup_free hg _ _
  inner := by
    rintro prev prev' x g t b b' ⟨field₀, tail₀, hread, hfield₀, htail₀⟩ ⟨field, tail, rfl, hfield, htail⟩ ht
    obtain ⟨rfl, rfl⟩ := authorization_inner table hread hfield (isTail_of_matches htail) hfield₀
      (isTail_of_matches htail₀) ht
    rw [List.append_nil]
    refine ⟨⟨field, t, rfl, matches_of_free authorizationField_free hfield _ _, ?_⟩, ?_⟩
    · have hfree : Free (.opt bearerWord) := bearerWord_free
      exact matches_of_free hfree htail₀ _ _
    · rcases isTail_of_matches htail₀ with rfl | ⟨k, w, rfl, hk, hletters, hw, hspaces⟩
      · obtain ⟨c, hc, -⟩ := ht
        cases hc
      · exact ⟨k, w, rfl, hk, fun c hc => letter_word table (hletters c hc), hw,
          fun c hc => space_not_credentialChar (hspaces c hc)⟩
  longest := by
    intro prev s f h m r hread hlonger hr
    cases hm : m with
    | nil => rfl
    | cons d m' =>
      exfalso
      obtain ⟨-, hbefore, hlength, hall⟩ := mem_matchesAt_keeping.mp (mem_of_firstMatch h)
      have hhead : ∃ c ∈ m.head?, credentialChar c = true := by
        obtain ⟨c, v, hv⟩ := List.exists_cons_of_ne_nil (List.length_pos_iff.mp hlength)
        rw [hv, hm, List.cons_append, List.cons_append] at hread
        obtain ⟨rfl, -⟩ := List.cons.inj hread
        exact ⟨c, by rw [hm]; rfl, hall c (by rw [hv]; exact List.mem_cons_self)⟩
      obtain ⟨field₀, tail₀, hsplit, hfield₀, htail₀⟩ := hlonger
      have hinner : ∀ {field tail : List Char} {b : List Char}, f.kept = field ++ tail →
          Matches authorizationField prev field b → IsTail tail → tail = [] ∧ m = tail₀ := by
        intro field tail b hkept hfield htail
        rw [hkept] at hsplit
        exact authorization_inner table (by rw [List.nil_append]; exact hsplit) hfield htail hfield₀
          (isTail_of_matches htail₀) hhead
      rcases firstMatch_prefers h with ⟨field, tail, hkept, hfield, htail⟩ | hnone
      · -- the group has its `bearer\s+` already
        have hbearer := matches_bearerWord htail
        obtain ⟨rfl, -⟩ := hinner hkept hfield (Or.inr hbearer)
        obtain ⟨k, w, hnil, hk, -⟩ := hbearer
        exact hk (List.append_eq_nil_iff.mp hnil.symm).1
      · -- it could have taken it
        obtain ⟨field, tail, hkept, hfield, htail⟩ := hbefore
        obtain ⟨rfl, rfl⟩ := hinner hkept hfield (isTail_of_matches htail)
        obtain ⟨c, hc, hvalue⟩ := hr
        cases r with
        | nil => cases hc
        | cons e r =>
          cases hc
          rcases htail₀ with htail₀ | hnil
          · refine hnone m [c] r hread (matches_of_free bearerWord_free htail₀ _ _) ⟨Nat.le_refl 1, ?_⟩
            intro a ha
            rw [List.mem_singleton.mp ha]
            exact hvalue
          · rw [hnil] at hm
            cases hm
  marks := by decide
  edges := fun _ => credentialChar_edges table

theorem over_credentialName : Over IsNameChar credentialName := by
  have hletters : ∀ {text : String}, (∀ d ∈ text.toList, d.isAlpha = true) → Over IsNameChar (literal text) :=
    fun htext => over_literals fun c hc => Or.inl (letter_of_mem htext hc)
  have hsign : Over IsNameChar (.opt (oneOf "_-")) := by
    intro c hc
    have hmem := mem_of_oneOf "_-" (by decide) hc
    exact Or.inr (by simpa using hmem)
  exact ⟨⟨hletters (by decide), hsign, hletters (by decide)⟩,
    ⟨hletters (by decide), hsign, hletters (by decide)⟩,
    ⟨hletters (by decide), hsign, hletters (by decide)⟩,
    ⟨hletters (by decide), hsign, hletters (by decide)⟩,
    hletters (by decide), hletters (by decide), hletters (by decide), hletters (by decide)⟩

theorem nameChar_not_sign {c : Char} (h : IsNameChar c) : c ∉ [':', '='] := by
  intro hmem
  have hall : ∀ d ∈ [':', '='], (foldCase d).isAlpha = false ∧ d ≠ '_' ∧ d ≠ '-' := by decide
  obtain ⟨hletter, hunder, hminus⟩ := hall c hmem
  rcases h with h | h | h
  · rw [IsLetter, hletter] at h
    cases h
  · exact hunder h
  · exact hminus h

theorem nameChar_not_redacted {c : Char} (h : IsNameChar c) : c ∉ redacted := by
  rcases h with h | rfl | rfl
  · exact letter_not_redacted h
  · decide
  · decide

/-- A match of the name, the sign and the optional quote: nothing before the
sign is a sign, and nothing after it can begin a value. -/
theorem matches_assignment {prev : Option Char} {g b : List Char}
    (h : Matches (.seq credentialName assignmentSign) prev g b) :
    ∃ k d w, g = k ++ d :: w ∧ d ∈ [':', '='] ∧ (∀ c ∈ k, IsNameChar c ∨ isSpace c = true) ∧
      ∀ c ∈ w, isSpace c = true ∨ c = '"' ∨ c = '\'' := by
  obtain ⟨name, _, rfl, hname, w₁, _, rfl, ⟨-, hw₁⟩, _, _, rfl, ⟨d, rfl, hd⟩, w₂, q, rfl, ⟨-, hw₂⟩, hq⟩ := h
  have hname' := mem_of_over over_credentialName hname
  have hd' : d ∈ [':', '='] := mem_of_oneOf ":=" (by decide) hd
  refine ⟨name ++ w₁, d, w₂ ++ q, ?_, hd', ?_, ?_⟩
  · simp only [List.append_assoc, List.singleton_append]
  · intro c hc
    exact (List.mem_append.mp hc).imp (hname' c) (hw₁ c)
  · intro c hc
    rcases List.mem_append.mp hc with hc | hc
    · exact Or.inl (hw₂ c hc)
    · rcases hq with ⟨e, rfl, he⟩ | rfl
      · rw [List.mem_singleton.mp hc]
        have hmem := mem_of_oneOf "\"'" (by decide) he
        exact Or.inr (by simpa using hmem)
      · cases hc

theorem assignment_free : Free (.seq credentialName assignmentSign) := by
  have hpair : ∀ first second, Free (pairName first second) := fun _ _ =>
    ⟨free_literals _ _, trivial, free_literals _ _⟩
  exact ⟨⟨hpair _ _, hpair _ _, hpair _ _, hpair _ _, free_literals _ _, free_literals _ _,
    free_literals _ _, free_literals _ _⟩, trivial, trivial, trivial, trivial⟩

theorem assignedChar_after_sign {c : Char} (h : isSpace c = true ∨ c = '"' ∨ c = '\'') :
    assignedChar c = false := by
  rcases h with h | rfl | rfl
  · rw [assignedChar, space_not_credentialChar h, Bool.false_and]
  · decide
  · decide

/-- After the sign of a group comes no value before its end. -/
theorem assignment_inner {prev prev' : Option Char} {x g t b b' : List Char}
    (h : Matches (.seq credentialName assignmentSign) prev (x ++ (g ++ t)) b)
    (hg : Matches (.seq credentialName assignmentSign) prev' g b') :
    ¬ ∃ c ∈ t.head?, assignedChar c = true := by
  rintro ⟨c, hc, hvalue⟩
  obtain ⟨k₀, d₀, w₀, hread, -, hk₀, hw₀⟩ := matches_assignment h
  obtain ⟨k, d, w, rfl, hd, -, -⟩ := matches_assignment hg
  have hdk : d ∉ k₀ := by
    intro hmem
    rcases hk₀ d hmem with hname | hspace
    · exact nameChar_not_sign hname hd
    · have hall : ∀ d ∈ [':', '='], isSpace d = false := by decide
      rw [hall d hd] at hspace
      cases hspace
  have hsplit : k₀ ++ (d₀ :: w₀) = (x ++ k) ++ d :: (w ++ t) := by
    rw [← hread]
    simp only [List.append_assoc, List.cons_append]
  obtain ⟨z, hz⟩ := after_first hsplit hdk
  have hmem : c ∈ w₀ := by
    cases z with
    | nil =>
      rw [(List.cons.inj hz).2]
      exact List.mem_append_right _ (List.mem_of_mem_head? hc)
    | cons e z =>
      rw [(List.cons.inj hz).2]
      exact List.mem_append_right _ (List.mem_cons_of_mem _
        (List.mem_append_right _ (List.mem_of_mem_head? hc)))
  rw [assignedChar_after_sign (hw₀ c hmem)] at hvalue
  cases hvalue

/-- `((?:api[_-]?key|…|token)\s*[:=]\s*["']?)([^\s,;"']+)` -/
def assignment : Prefixed table.word redacted where
  before := .seq credentialName assignmentSign
  value := assignedChar
  text := by
    intro prev g b hg
    obtain ⟨k, d, w, rfl, hd, hk, hw⟩ := matches_assignment hg
    refine ⟨fun hnil => List.cons_ne_nil _ _ (List.append_eq_nil_iff.mp hnil).2, fun c hc => ?_⟩
    rcases List.mem_append.mp hc with hc | hc
    · rcases hk c hc with hname | hspace
      · exact nameChar_not_redacted hname
      · exact space_not_redacted hspace
    · rcases List.mem_cons.mp hc with rfl | hc
      · have hall : ∀ d ∈ [':', '='], d ∉ redacted := by decide
        exact hall c hd
      · rcases hw c hc with hspace | rfl | rfl
        · exact space_not_redacted hspace
        · decide
        · decide
  ending := by
    intro prev g b hg c hc
    obtain ⟨k, d, w, rfl, hd, -, hw⟩ := matches_assignment hg
    rw [List.getLast?_append_of_ne_nil _ (List.cons_ne_nil _ _)] at hc
    rcases List.mem_cons.mp (List.mem_of_mem_getLast? hc) with rfl | hc
    · have hall : ∀ d ∈ [':', '='], d.toNat < 128 ∧ d.isAlphanum = false ∧ d ≠ '_' := by decide
      obtain ⟨hlt, halnum, hunder⟩ := hall c hd
      exact sign_not_word table hlt halnum hunder
    · exact assignedChar_edges table (assignedChar_after_sign (hw c hc))
  moves := fun hg _ => matches_of_free assignment_free hg _ _
  inner := fun h hg ht => absurd ht (assignment_inner h hg)
  longest := fun h _ _ hread hlonger _ => longest_of_no_inner assignment_inner h hread hlonger
  marks := by decide
  edges := fun _ => assignedChar_edges table

theorem tokenChar_of_foldCase {c d : Char} (h : foldCase c = d)
    (hd : d.isAlphanum = true ∨ d = '_' ∨ d = '-') : tokenChar "_-" c = true := by
  rw [tokenChar, Bool.or_eq_true]
  by_cases halpha : d.isAlphanum = true
  · exact Or.inl (by rw [h]; exact halpha)
  · right
    rw [eq_of_foldCase (by rw [h]; simp_all [Char.isAlphanum])] at h
    subst h
    rcases hd with hd | rfl | rfl
    · exact absurd hd halpha
    · decide
    · decide

theorem tokenChar_widen {others : String} (hothers : ∀ d ∈ others.toList, d = '_' ∨ d = '-') {c : Char}
    (h : tokenChar others c = true) : tokenChar "_-" c = true := by
  rw [tokenChar, Bool.or_eq_true] at h
  rcases h with h | h
  · exact tokenChar_of_foldCase rfl (Or.inl h)
  · rcases hothers c (List.contains_iff_mem.mp h) with rfl | rfl
    · decide
    · decide

theorem over_knownToken : Over (fun c => tokenChar "_-" c = true) knownToken := by
  have hliteral : ∀ {text : String}, (∀ d ∈ text.toList, d.isAlphanum = true ∨ d = '_' ∨ d = '-') →
      Over (fun c => tokenChar "_-" c = true) (literal text) :=
    fun htext => over_literals fun c hc => tokenChar_of_foldCase rfl (htext _ hc)
  have honeOf : ∀ {chars : String}, (∀ d ∈ chars.toList, d.isAlphanum = true ∨ d = '_' ∨ d = '-') →
      Over (fun c => tokenChar "_-" c = true) (oneOf chars) :=
    fun hchars c hc => tokenChar_of_foldCase rfl (hchars _ (List.contains_iff_mem.mp hc))
  exact ⟨⟨hliteral (by decide), fun c hc => hc⟩,
    ⟨hliteral (by decide), honeOf (by decide), honeOf (by decide), fun c hc => tokenChar_widen (by decide) hc⟩,
    hliteral (by decide), honeOf (by decide), honeOf (by decide), fun c hc => tokenChar_widen (by decide) hc⟩

theorem knownToken_free : Free knownToken :=
  ⟨⟨free_literals _ _, trivial⟩, ⟨free_literals _ _, trivial, trivial, trivial⟩,
    free_literals _ _, trivial, trivial, trivial⟩

/-- A known token begins with a letter. -/
theorem knownToken_head {prev : Option Char} {v b : List Char} (h : Matches knownToken prev v b) :
    ∃ c v', v = c :: v' ∧ IsLetter c := by
  have hhead : ∀ {text : String} {d : Char} {rest k m : List Char}, text.toList = d :: rest →
      d.isAlpha = true → k.map foldCase = text.toList → ∃ c v', k ++ m = c :: v' ∧ IsLetter c := by
    intro text d rest k m htext hd hk
    rw [htext] at hk
    obtain ⟨c, k', rfl, hc, -⟩ := List.map_eq_cons_iff.mp hk
    exact ⟨c, k' ++ m, rfl, by rw [IsLetter, hc]; exact hd⟩
  rcases h with ⟨k, m, rfl, hk, -⟩ | ⟨k, m, rfl, hk, -⟩ | ⟨k, m, rfl, hk, -⟩
  all_goals
    rw [literal, matches_literals] at hk
    exact hhead rfl (by decide) hk

/-- `\b(sk-…|gh…|xox…)\b` -/
def knownTokens : Bare table.word redacted where
  expression := .seq (.boundary table.word) (.seq knownToken (.boundary table.word))
  run := tokenChar "_-"
  text := by
    rintro prev v b ⟨_, _, rfl, ⟨rfl, -⟩, v, _, rfl, hv, rfl, -⟩
    obtain ⟨c, v', rfl, -⟩ := knownToken_head hv
    rw [List.append_nil, List.nil_append]
    exact ⟨List.cons_ne_nil _ _, mem_of_over over_knownToken hv⟩
  left := by
    rintro prev v b ⟨_, _, rfl, ⟨rfl, hboundary⟩, v, _, rfl, hv, rfl, -⟩ c hc hword
    obtain ⟨d, v', rfl, -⟩ := knownToken_head hv
    cases hc
    simp only [atBoundary, List.append_nil, List.cons_append, List.head?_cons, Option.any_some,
      hword] at hboundary
    cases hprev : prev.any table.word with
    | false => rfl
    | true =>
      rw [hprev] at hboundary
      cases hboundary
  right := by
    rintro prev v b ⟨_, _, rfl, ⟨rfl, -⟩, v, _, rfl, hv, rfl, hboundary⟩ c hc hword
    obtain ⟨d, v', rfl, -⟩ := knownToken_head hv
    rw [lastOr_of_ne_nil (List.cons_ne_nil _ _)] at hboundary
    cases b with
    | nil => cases hc
    | cons e b =>
      cases hc
      simp only [atBoundary, List.head?_cons, Option.any_some, hword] at hboundary
      rw [List.append_nil, List.nil_append]
      cases hlast : (d :: v').getLast?.any table.word with
      | false => rfl
      | true =>
        rw [hlast] at hboundary
        cases hboundary
  moves := by
    rintro prev prev' _ b b' ⟨_, _, rfl, ⟨rfl, hleft⟩, v, _, rfl, hv, rfl, hright⟩ hedge hafter
    obtain ⟨d, v', rfl, hd⟩ := knownToken_head hv
    have hdword := letter_word table hd
    refine ⟨[], _, rfl, ⟨rfl, ?_⟩, d :: v', [], rfl, matches_of_free knownToken_free hv _ _, rfl, ?_⟩
    · simp only [atBoundary, List.append_nil, List.cons_append, List.head?_cons, Option.any_some,
        hdword] at hleft ⊢
      cases hprev : prev.any table.word with
      | false => rfl
      | true =>
        rw [hedge d rfl hdword hprev] at hleft
        cases hleft
    · rw [lastOr_of_ne_nil (List.cons_ne_nil _ _)] at hright ⊢
      rw [List.append_nil, List.nil_append] at hafter
      exact hafter hright
  unmarked := by decide

end Groups

/-! ## All patterns -/

section Redaction

variable (table : WordTable)

theorem authorization_pattern : (authorization table).pattern = authorizationPattern := by
  simp only [Prefixed.pattern, authorization, authorizationPattern]

theorem bearer_pattern : (bearer table).pattern = bearerPattern table := by
  simp only [Prefixed.pattern, bearer, bearerPattern]

theorem assignment_pattern : (assignment table).pattern = assignmentPattern := by
  simp only [Prefixed.pattern, assignment, assignmentPattern]

theorem knownTokens_pattern : (knownTokens table).pattern = knownTokenPattern table := by
  simp only [Bare.pattern, knownTokens, knownTokenPattern]

theorem redactCredentials_eq (text : List Char) :
    redactCredentials table text = (knownTokens table).pattern.sub redacted
      ((assignment table).pattern.sub redacted
        ((bearer table).pattern.sub redacted ((authorization table).pattern.sub redacted text))) := by
  rw [redactCredentials, credentialPatterns, authorization_pattern, bearer_pattern, assignment_pattern,
    knownTokens_pattern]
  rfl

theorem credentialPatterns_proper : ∀ p ∈ credentialPatterns table, p.Proper := by
  intro p hp
  simp only [credentialPatterns, List.mem_cons, List.not_mem_nil, or_false] at hp
  rcases hp with rfl | rfl | rfl | rfl
  · exact (authorization table).proper
  · exact (bearer table).proper
  · exact (assignment table).proper
  · exact (knownTokens table).proper

include table in
theorem tokenChar_assignedChar {c : Char} (h : tokenChar "_-" c = true) : assignedChar c = true := by
  cases hassigned : assignedChar c with
  | true => rfl
  | false =>
    rw [tokenChar, Bool.or_eq_true] at h
    have hword := assignedChar_edges table hassigned
    rw [WordTable.word, Bool.or_eq_false_iff] at hword
    rcases h with h | h
    · rw [alnum_of_foldCase table h] at hword
      cases hword.1
    · have hmem := List.contains_iff_mem.mp h
      have hall : ∀ d ∈ "_-".toList, assignedChar d = true := by decide
      rw [hall c hmem] at hassigned
      cases hassigned

/-- **After a redaction every match of every pattern is the marker.** -/
theorem redactCredentials_settled (text : List Char) :
    ∀ p ∈ credentialPatterns table, p.Settled redacted (redactCredentials table text) := by
  have hmark := (redacted_separate table).nonempty
  have hassigned : ∀ c, assignedChar c = true → credentialChar c = true :=
    fun _ => assignedChar_credentialChar
  have htoken : ∀ c, tokenChar "_-" c = true → assignedChar c = true :=
    fun _ => tokenChar_assignedChar table
  have hnone : (∃ c ∈ redacted, tokenChar "_-" c = true) → ∀ c ∈ redacted, tokenChar "_-" c = true := by
    rintro ⟨c, hc, hin⟩
    have hfalse : tokenChar "_-" c = false := (knownTokens table).unmarked c hc
    rw [hin] at hfalse
    cases hfalse
  rw [redactCredentials_eq]
  -- each pattern leaves its own guard behind, and the later ones keep it
  generalize ht₁ : (authorization table).pattern.sub redacted text = text₁
  have h₁ := (authorization table).guarded_sub hmark text
  rw [ht₁] at h₁
  generalize ht₂ : (bearer table).pattern.sub redacted text₁ = text₂
  have h₂ := (bearer table).guarded_sub hmark text₁
  have hmasks₂ := (bearer table).sub_masks text₁
  rw [ht₂] at h₂ hmasks₂
  replace h₁ := (authorization table).guarded_of_masks hmark (fun _ h => h)
    (fun _ => (bearer table).marks) hmasks₂ h₁
  generalize ht₃ : (assignment table).pattern.sub redacted text₂ = text₃
  have h₃ := (assignment table).guarded_sub hmark text₂
  have hmasks₃ := (assignment table).sub_masks text₂
  rw [ht₃] at h₃ hmasks₃
  replace h₁ := (authorization table).guarded_of_masks hmark hassigned
    (fun _ => (assignment table).marks) hmasks₃ h₁
  replace h₂ := (bearer table).guarded_of_masks hmark hassigned
    (fun _ => (assignment table).marks) hmasks₃ h₂
  generalize ht₄ : (knownTokens table).pattern.sub redacted text₃ = text₄
  have h₄ := (knownTokens table).absent_sub (redacted_separate table) text₃
  have hmasks₄ := (knownTokens table).sub_masks text₃
  rw [ht₄] at h₄ hmasks₄
  replace h₁ := (authorization table).guarded_of_masks hmark (fun c hc => hassigned c (htoken c hc))
    hnone hmasks₄ h₁
  replace h₂ := (bearer table).guarded_of_masks hmark (fun c hc => hassigned c (htoken c hc))
    hnone hmasks₄ h₂
  replace h₃ := (assignment table).guarded_of_masks hmark htoken hnone hmasks₄ h₃
  intro p hp
  simp only [credentialPatterns, List.mem_cons, List.not_mem_nil, or_false] at hp
  rcases hp with rfl | rfl | rfl | rfl
  · exact (authorization table).settled_of_guarded hmark h₁
  · exact (bearer table).settled_of_guarded hmark h₂
  · exact (assignment table).settled_of_guarded hmark h₃
  · exact (knownTokens table).settled_of_absent h₄

theorem redactCredentials_of_settled {text : List Char}
    (h : ∀ p ∈ credentialPatterns table, p.Settled redacted text) : redactCredentials table text = text := by
  have hall : ∀ ps : List Pattern, (∀ p ∈ ps, p.Proper ∧ p.Settled redacted text) →
      ps.foldl (fun result p => p.sub redacted result) text = text := by
    intro ps
    induction ps with
    | nil => exact fun _ => rfl
    | cons p ps ih =>
      intro hps
      obtain ⟨hproper, hsettled⟩ := hps p List.mem_cons_self
      rw [List.foldl_cons, sub_of_settled hproper hsettled]
      exact ih fun q hq => hps q (List.mem_cons_of_mem _ hq)
  exact hall _ fun p hp => ⟨credentialPatterns_proper table p hp, h p hp⟩

/-- **A redaction leaves exactly the texts alone in which every match is the marker.** -/
theorem redactCredentials_eq_self {text : List Char} :
    redactCredentials table text = text ↔ ∀ p ∈ credentialPatterns table, p.Settled redacted text := by
  constructor
  · intro h
    rw [← h]
    exact redactCredentials_settled table text
  · exact redactCredentials_of_settled table

/-- **A second redaction changes nothing.** -/
theorem redactCredentials_idempotent (text : List Char) :
    redactCredentials table (redactCredentials table text) = redactCredentials table text :=
  redactCredentials_of_settled table (redactCredentials_settled table text)

end Redaction

end CodexMemory.Hooks
