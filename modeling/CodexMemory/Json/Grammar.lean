import CodexMemory.Json.Parse
import CodexMemory.Layout
import CodexMemory.Text

/-!
# The grammar of JSON texts

Which texts are JSON, apart from the values they stand for: the grammar as an inductive relation, and
the scanner of Python's `json` module as far as it accepts or refuses.  `json.loads` also takes `NaN`
and the infinities, and refuses an integer of more than 4300 digits.  The nesting is not bounded.

* `scan_form`, `form_of_scan`: the scanner reads the forms of the grammar;
* `accepts_iff`: a text is accepted if and only if it is in the grammar;
* `form_unique`: a text begins with at most one value.
-/

namespace CodexMemory.Json

/-- What a reader of JSON takes: whether `NaN` and the infinities are values, and how many digits an
integer may have. -/
structure Reader where
  hasConstants : Bool
  maxDigits : Option Nat
  deriving DecidableEq

/-- JSON itself. -/
def standard : Reader := { hasConstants := false, maxDigits := none }

/-- What `json.loads` takes. -/
def python : Reader := { hasConstants := true, maxDigits := some 4300 }

/-- What any reader takes. -/
def lax : Reader := { hasConstants := true, maxDigits := none }

def Reader.constants (d : Reader) : List (List Char) := if d.hasConstants then Json.constants else []

/-- An integer may have that many digits. -/
def Reader.fits (d : Reader) (digits : Nat) : Bool := d.maxDigits.all fun m => digits ≤ m

/-! ## Forms -/

def literals : List (List Char) := [['n', 'u', 'l', 'l'], ['t', 'r', 'u', 'e'], ['f', 'a', 'l', 's', 'e']]

/-- Whitespace of JSON. -/
def isWhite (c : Char) : Bool := c = ' ' || c = '\t' || c = '\n' || c = '\r'

def IsWhite (s : List Char) : Prop := ∀ c ∈ s, isWhite c = true

/-- What may follow a backslash. -/
def IsEscape (e : List Char) : Prop :=
  (∃ c ∈ ['"', '\\', '/', 'b', 'f', 'n', 'r', 't'], e = [c]) ∨
    ∃ a b c d, e = ['u', a, b, c, d] ∧ ∀ x ∈ [a, b, c, d], (hexValue x).isSome = true

/-- The characters of a string and its closing quote. -/
inductive Body : List Char → Prop
  | close : Body ['"']
  | plain {c : Char} {s : List Char} (hquote : c ≠ '"') (hslash : c ≠ '\\') (hcontrol : 0x20 ≤ c.toNat) (h : Body s) :
      Body (c :: s)
  | escape {e s : List Char} (he : IsEscape e) (h : Body s) : Body ('\\' :: (e ++ s))

def IsNumber (d : Reader) (text : List Char) : Prop :=
  ∃ sign whole frac exp, text = sign ++ (whole ++ (frac ++ exp)) ∧ (sign = [] ∨ sign = ['-']) ∧ IsInteger whole ∧
    IsFraction frac ∧ IsExponent exp ∧ (frac = [] → exp = [] → d.fits whole.length = true)

/-- What is read: a value, or what follows the opening bracket of an array or an object that is not
empty. -/
inductive Kind
  | value
  | items
  | pairs
  deriving DecidableEq

/-- **The grammar.** -/
inductive Form (d : Reader) : Kind → List Char → Prop
  | literal {text : List Char} (h : text ∈ literals) : Form d .value text
  | constant {text : List Char} (h : text ∈ d.constants) : Form d .value text
  | number {text : List Char} (h : IsNumber d text) : Form d .value text
  | string {s : List Char} (h : Body s) : Form d .value ('"' :: s)
  | emptyArray {w : List Char} (hw : IsWhite w) : Form d .value ('[' :: (w ++ [']']))
  | array {w s : List Char} (hw : IsWhite w) (h : Form d .items s) : Form d .value ('[' :: (w ++ s))
  | emptyObject {w : List Char} (hw : IsWhite w) : Form d .value ('{' :: (w ++ ['}']))
  | object {w s : List Char} (hw : IsWhite w) (h : Form d .pairs s) : Form d .value ('{' :: (w ++ s))
  | lastItem {v w : List Char} (hv : Form d .value v) (hw : IsWhite w) : Form d .items (v ++ (w ++ [']']))
  | item {v w w' s : List Char} (hv : Form d .value v) (hw : IsWhite w) (hw' : IsWhite w') (h : Form d .items s) :
      Form d .items (v ++ (w ++ ',' :: (w' ++ s)))
  | lastPair {k v a b w : List Char} (hk : Body k) (ha : IsWhite a) (hb : IsWhite b) (hv : Form d .value v)
      (hw : IsWhite w) : Form d .pairs ('"' :: (k ++ (a ++ ':' :: (b ++ (v ++ (w ++ ['}']))))))
  | pair {k v a b w w' s : List Char} (hk : Body k) (ha : IsWhite a) (hb : IsWhite b) (hv : Form d .value v)
      (hw : IsWhite w) (hw' : IsWhite w') (h : Form d .pairs s) :
      Form d .pairs ('"' :: (k ++ (a ++ ':' :: (b ++ (v ++ (w ++ ',' :: (w' ++ s)))))))

/-- **A JSON text**: a value between whitespace. -/
def IsText (d : Reader) (s : List Char) : Prop :=
  ∃ before v after, s = before ++ (v ++ after) ∧ IsWhite before ∧ IsWhite after ∧ Form d .value v

/-! ## The scanner -/

/-- What is left after an escape. -/
def scanEscape : List Char → Option (List Char)
  | [] => none
  | c :: rest =>
    if c ∈ ['"', '\\', '/', 'b', 'f', 'n', 'r', 't'] then some rest
    else if c = 'u' ∧ 4 ≤ rest.length ∧ ∀ x ∈ rest.take 4, (hexValue x).isSome = true then some (rest.drop 4)
    else none

/-- What is left after a string, behind its opening quote. -/
def scanBody : Nat → List Char → Option (List Char)
  | 0, _ => none
  | _ + 1, [] => none
  | fuel + 1, c :: rest =>
    if c = '"' then some rest
    else if c = '\\' then (scanEscape rest).bind (scanBody fuel)
    else if c.toNat < 0x20 then none
    else scanBody fuel rest

/-- What is left after one of some words. -/
def scanWord (words : List (List Char)) (s : List Char) : Option (List Char) :=
  (words.find? fun word => word.isPrefixOf s).map fun word => s.drop word.length

/-- `_match_number` -/
def scanDigits (d : Reader) (s : List Char) : Option (List Char) :=
  let sign := if s.head? = some '-' then ['-'] else []
  match scanInteger (s.drop sign.length) with
  | none => none
  | some (whole, s₁) =>
    let fraction := scanFraction s₁
    let exponent := scanExponent fraction.2
    if fraction.1 = [] ∧ exponent.1 = [] ∧ d.fits whole.length = false then none else some exponent.2

/-- What is left after a value that is neither a string nor has parts. -/
def scanAtom (d : Reader) (s : List Char) : Option (List Char) :=
  match scanWord literals s with
  | some rest => some rest
  | none =>
    match scanDigits d s with
    | some rest => some rest
    | none => scanWord d.constants s

/-- `scan_once`, and the loops of `JSONArray` and `JSONObject`. -/
def scan (d : Reader) : Nat → Kind → List Char → Option (List Char)
  | 0, _, _ => none
  | _ + 1, _, [] => none
  | fuel + 1, .value, c :: rest =>
    if c = '"' then scanBody (rest.length + 1) rest
    else if c = '{' then
      if (skipSpace rest).head? = some '}' then some (skipSpace rest).tail else scan d fuel .pairs (skipSpace rest)
    else if c = '[' then
      if (skipSpace rest).head? = some ']' then some (skipSpace rest).tail else scan d fuel .items (skipSpace rest)
    else scanAtom d (c :: rest)
  | fuel + 1, .items, c :: rest =>
    (scan d fuel .value (c :: rest)).bind fun s =>
      match skipSpace s with
      | [] => none
      | mark :: rest =>
        if mark = ']' then some rest else if mark = ',' then scan d fuel .items (skipSpace rest) else none
  | fuel + 1, .pairs, c :: rest =>
    if c = '"' then
      (scanBody (rest.length + 1) rest).bind fun s =>
        if (skipSpace s).head? = some ':' then
          (scan d fuel .value (skipSpace (skipSpace s).tail)).bind fun s' =>
            match skipSpace s' with
            | [] => none
            | mark :: rest =>
              if mark = '}' then some rest else if mark = ',' then scan d fuel .pairs (skipSpace rest) else none
        else none
    else none

/-- `json.loads` returns. -/
def accepts (d : Reader) (text : List Char) : Bool :=
  match scan d (2 * (skipSpace text).length + 1) .value (skipSpace text) with
  | none => false
  | some rest => decide (skipSpace rest = [])

/-! ## Whitespace -/

theorem skipSpace_eq (s : List Char) : skipSpace s = s.dropWhile isWhite := rfl

theorem skipSpace_white {w : List Char} (hw : IsWhite w) (s : List Char) : skipSpace (w ++ s) = skipSpace s := by
  induction w with
  | nil => rfl
  | cons c w ih =>
    rw [skipSpace_eq, List.cons_append, List.dropWhile_cons_of_pos (hw c List.mem_cons_self)]
    exact ih fun a ha => hw a (List.mem_cons_of_mem _ ha)

theorem skipSpace_cons {c : Char} (hc : isWhite c = false) (s : List Char) : skipSpace (c :: s) = c :: s := by
  rw [skipSpace_eq, List.dropWhile_cons_of_neg (by rw [hc]; exact Bool.false_ne_true)]

/-- The whitespace that is skipped. -/
theorem skipSpace_split (s : List Char) : ∃ w, IsWhite w ∧ s = w ++ skipSpace s :=
  ⟨s.takeWhile isWhite, fun _ hc => List.mem_takeWhile_imp hc, List.takeWhile_append_dropWhile.symm⟩

theorem skipSpace_eq_nil {s : List Char} : skipSpace s = [] ↔ IsWhite s := List.dropWhile_eq_nil_iff

theorem isSpace_of_isWhite {c : Char} (hc : isWhite c = true) : isSpace c = true := by
  simp only [isWhite, Bool.or_eq_true, decide_eq_true_iff] at hc
  rcases hc with ((rfl | rfl) | rfl) | rfl
  · rfl
  · rfl
  · rfl
  · rfl

theorem isWhite_of_not_isSpace {c : Char} (hc : isSpace c = false) : isWhite c = false := by
  by_contra h
  rw [isSpace_of_isWhite (Bool.of_not_eq_false h)] at hc
  cases hc

theorem isWhite_nil : IsWhite [] := fun _ hc => (List.not_mem_nil hc).elim

theorem isWhite_append {s t : List Char} : IsWhite (s ++ t) ↔ IsWhite s ∧ IsWhite t := List.forall_mem_append

/-- No number goes on with whitespace. -/
theorem numberEnds_isWhite {c : Char} (hc : isWhite c = true) (t : List Char) : NumberEnds (c :: t) := by
  intro a ha
  obtain rfl : c = a := Option.some.inj ha
  simp only [isWhite, Bool.or_eq_true, decide_eq_true_iff] at hc
  rcases hc with ((rfl | rfl) | rfl) | rfl
  · decide
  · decide
  · decide
  · decide

theorem numberEnds_white {w t : List Char} (hw : IsWhite w) (ht : NumberEnds t) : NumberEnds (w ++ t) := by
  cases w with
  | nil => exact ht
  | cons c w => exact numberEnds_isWhite (hw c List.mem_cons_self) _

/-! ## Strings -/

theorem scanEscape_append {e : List Char} (he : IsEscape e) (t : List Char) : scanEscape (e ++ t) = some t := by
  rcases he with ⟨c, hc, rfl⟩ | ⟨a, b, c, d, rfl, hhex⟩
  · rw [List.singleton_append, scanEscape, if_pos hc]
  · have hfour : 4 ≤ ([a, b, c, d] ++ t).length := by simp
    change scanEscape ('u' :: ([a, b, c, d] ++ t)) = some t
    rw [scanEscape, if_neg (by decide), if_pos ⟨rfl, hfour, hhex⟩]
    rfl

theorem scanEscape_some {s t : List Char} (h : scanEscape s = some t) : ∃ e, s = e ++ t ∧ IsEscape e := by
  cases s with
  | nil => cases h
  | cons c rest =>
    rw [scanEscape] at h
    split at h
    · next hc =>
      cases h
      exact ⟨[c], rfl, Or.inl ⟨c, hc, rfl⟩⟩
    · split at h
      · next hu =>
        obtain ⟨rfl, hfour, hhex⟩ := hu
        cases h
        match rest, hfour, hhex with
        | a :: b :: c :: d :: rest, _, hhex => exact ⟨['u', a, b, c, d], rfl, Or.inr ⟨a, b, c, d, rfl, hhex⟩⟩
      · cases h

theorem scanBody_append {s : List Char} (h : Body s) {fuel : Nat} (hfuel : s.length ≤ fuel) (t : List Char) :
    scanBody fuel (s ++ t) = some t := by
  induction h generalizing fuel with
  | close =>
    obtain ⟨fuel, rfl⟩ : ∃ n, fuel = n + 1 := ⟨fuel - 1, by rw [List.length_singleton] at hfuel; omega⟩
    rfl
  | plain hquote hslash hcontrol _ ih =>
    rw [List.length_cons] at hfuel
    obtain ⟨fuel, rfl⟩ : ∃ n, fuel = n + 1 := ⟨fuel - 1, by omega⟩
    rw [List.cons_append, scanBody, if_neg hquote, if_neg hslash, if_neg (by omega), ih (by omega)]
  | @escape e s he _ ih =>
    rw [List.length_cons, List.length_append] at hfuel
    obtain ⟨fuel, rfl⟩ : ∃ n, fuel = n + 1 := ⟨fuel - 1, by omega⟩
    rw [List.cons_append, List.append_assoc, scanBody, if_neg (by decide), if_pos rfl, scanEscape_append he,
      Option.bind_some, ih (by omega)]

theorem body_of_scan {fuel : Nat} {s t : List Char} (h : scanBody fuel s = some t) : ∃ b, s = b ++ t ∧ Body b := by
  induction fuel generalizing s with
  | zero => cases h
  | succ fuel ih =>
    cases s with
    | nil => cases h
    | cons c rest =>
      rw [scanBody] at h
      split at h
      · next hquote =>
        cases h
        exact ⟨['"'], by rw [hquote]; rfl, Body.close⟩
      · next hquote =>
        split at h
        · next hslash =>
          obtain ⟨s', hescape, hrest⟩ := Option.bind_eq_some_iff.mp h
          obtain ⟨e, rfl, he⟩ := scanEscape_some hescape
          obtain ⟨b, rfl, hb⟩ := ih hrest
          exact ⟨'\\' :: (e ++ b), by rw [hslash, List.cons_append, List.append_assoc], Body.escape he hb⟩
        · next hslash =>
          split at h
          · cases h
          · next hcontrol =>
            obtain ⟨b, rfl, hb⟩ := ih h
            exact ⟨c :: b, rfl, Body.plain hquote hslash (by omega) hb⟩

/-! ## Words and numbers -/

theorem scanWord_some {words : List (List Char)} {s t : List Char} (h : scanWord words s = some t) :
    ∃ word ∈ words, s = word ++ t := by
  obtain ⟨word, hfind, rfl⟩ := Option.map_eq_some_iff.mp h
  have hprefix := List.find?_some hfind
  obtain ⟨rest, rfl⟩ := List.isPrefixOf_iff_prefix.mp hprefix
  exact ⟨word, List.mem_of_find?_eq_some hfind, by rw [List.drop_left]⟩

theorem scanWord_literals {text : List Char} (h : text ∈ literals) (t : List Char) :
    scanWord literals (text ++ t) = some t := by
  simp only [literals, List.mem_cons, List.not_mem_nil, or_false] at h
  rcases h with rfl | rfl | rfl
  · rfl
  · rfl
  · rfl

theorem scanWord_constants {text : List Char} (h : text ∈ Json.constants) (d : Reader) (t : List Char) :
    scanWord literals (text ++ t) = none ∧ scanDigits d (text ++ t) = none ∧
      scanWord Json.constants (text ++ t) = some t := by
  simp only [Json.constants, List.mem_cons, List.not_mem_nil, or_false] at h
  rcases h with rfl | rfl | rfl
  · exact ⟨rfl, rfl, rfl⟩
  · exact ⟨rfl, rfl, rfl⟩
  · exact ⟨rfl, rfl, rfl⟩

/-- Where a number begins, no literal does. -/
theorem scanWord_number {c : Char} (hc : IsNumberHead c) (t : List Char) : scanWord literals (c :: t) = none := by
  have hne : ∀ text ∈ literals, text.isPrefixOf (c :: t) = false := by
    have hhead : ∀ text ∈ literals, ∃ a rest, text = a :: rest ∧ a.isDigit = false ∧ a ∉ ['-', 'N', 'I'] := by
      intro text htext
      simp only [literals, List.mem_cons, List.not_mem_nil, or_false] at htext
      rcases htext with rfl | rfl | rfl
      · exact ⟨_, _, rfl, by decide⟩
      · exact ⟨_, _, rfl, by decide⟩
      · exact ⟨_, _, rfl, by decide⟩
    intro text htext
    obtain ⟨a, rest, rfl, ha⟩ := hhead text htext
    rw [List.isPrefixOf_cons_cons, beq_eq_false_iff_ne.mpr (numberHead_ne hc ha).symm, Bool.false_and]
  rw [scanWord, List.find?_eq_none.mpr fun text htext => by rw [hne text htext]; exact Bool.false_ne_true]
  rfl

theorem scanInteger_some {s w t : List Char} (h : scanInteger s = some (w, t)) : s = w ++ t ∧ IsInteger w := by
  cases s with
  | nil => cases h
  | cons c rest =>
    rw [scanInteger] at h
    split at h
    · next hzero =>
      cases h
      exact ⟨by rw [hzero]; rfl, Or.inl rfl⟩
    · next hzero =>
      split at h
      · next hdigit =>
        cases h
        refine ⟨by rw [List.cons_append, List.takeWhile_append_dropWhile], Or.inr ⟨c, _, rfl, hdigit, hzero, ?_⟩⟩
        exact fun a ha => List.mem_takeWhile_imp ha
      · cases h

theorem scanFraction_split (s : List Char) : s = (scanFraction s).1 ++ (scanFraction s).2 ∧ IsFraction (scanFraction s).1 := by
  cases s with
  | nil => exact ⟨rfl, Or.inl rfl⟩
  | cons c rest =>
    rw [scanFraction]
    split
    · next h =>
      obtain ⟨rfl, hne⟩ := h
      refine ⟨by rw [List.cons_append, List.takeWhile_append_dropWhile], Or.inr ⟨_, rfl, hne, ?_⟩⟩
      exact fun a ha => List.mem_takeWhile_imp ha
    · exact ⟨rfl, Or.inl rfl⟩

theorem scanSign_split (s : List Char) :
    s = (scanSign s).1 ++ (scanSign s).2 ∧ ((scanSign s).1 = [] ∨ (scanSign s).1 = ['+'] ∨ (scanSign s).1 = ['-']) := by
  cases s with
  | nil => exact ⟨rfl, Or.inl rfl⟩
  | cons c rest =>
    rw [scanSign]
    split
    · next h =>
      rcases h with rfl | rfl
      · exact ⟨rfl, Or.inr (Or.inl rfl)⟩
      · exact ⟨rfl, Or.inr (Or.inr rfl)⟩
    · exact ⟨rfl, Or.inl rfl⟩

theorem scanExponent_split (s : List Char) : s = (scanExponent s).1 ++ (scanExponent s).2 ∧ IsExponent (scanExponent s).1 := by
  cases s with
  | nil => exact ⟨rfl, Or.inl rfl⟩
  | cons c rest =>
    obtain ⟨hsigned, hsign⟩ := scanSign_split rest
    rw [scanExponent]
    split
    · next h =>
      refine ⟨?_, Or.inr ⟨c, _, _, rfl, h.1, hsign, h.2, fun a ha => List.mem_takeWhile_imp ha⟩⟩
      rw [List.cons_append, List.append_assoc, List.takeWhile_append_dropWhile, ← hsigned]
    · exact ⟨rfl, Or.inl rfl⟩

theorem number_of_scan {d : Reader} {s t : List Char} (h : scanDigits d s = some t) :
    ∃ text, s = text ++ t ∧ IsNumber d text := by
  obtain ⟨sign, hsign, hread, hs⟩ : ∃ sign : List Char, (sign = [] ∨ sign = ['-']) ∧
      (if s.head? = some '-' then ['-'] else []) = sign ∧ s = sign ++ s.drop sign.length := by
    split
    · next hminus =>
      obtain ⟨rest, rfl⟩ := List.head?_eq_some_iff.mp hminus
      exact ⟨['-'], Or.inr rfl, rfl, rfl⟩
    · exact ⟨[], Or.inl rfl, rfl, rfl⟩
  rw [scanDigits] at h
  simp only [hread] at h
  split at h
  · cases h
  · next whole s₁ hwhole =>
    obtain ⟨hs₁, hinteger⟩ := scanInteger_some hwhole
    obtain ⟨hs₂, hfraction⟩ := scanFraction_split s₁
    obtain ⟨hs₃, hexponent⟩ := scanExponent_split (scanFraction s₁).2
    split at h
    · cases h
    · next hfits =>
      cases h
      refine ⟨sign ++ (whole ++ ((scanFraction s₁).1 ++ (scanExponent (scanFraction s₁).2).1)), ?_, sign, whole, _, _,
        rfl, hsign, hinteger, hfraction, hexponent, fun hfrac hexp => ?_⟩
      · rw [List.append_assoc, List.append_assoc, List.append_assoc, ← hs₃, ← hs₂, ← hs₁, ← hs]
      · by_contra hno
        exact hfits ⟨hfrac, hexp, Bool.of_not_eq_true hno⟩

theorem scanDigits_append {d : Reader} {text t : List Char} (h : IsNumber d text) (ht : NumberEnds t) :
    scanDigits d (text ++ t) = some t := by
  obtain ⟨sign, whole, frac, exp, rfl, hsign, hwhole, hfrac, hexp, hfits⟩ := h
  have hafter := exponent_head hexp ht
  obtain ⟨a, digits, ha, hdigit⟩ := isInteger_head hwhole
  simp only [List.append_assoc]
  have hread : (if (sign ++ (whole ++ (frac ++ (exp ++ t)))).head? = some '-' then ['-'] else []) = sign := by
    rcases hsign with rfl | rfl
    · rw [ha, List.nil_append, List.cons_append, List.head?_cons, if_neg]
      intro hminus
      cases hminus
      cases hdigit
    · rfl
  rw [scanDigits]
  simp only [hread, List.drop_left]
  rw [scanInteger_append hwhole (fraction_head hfrac hafter)]
  simp only
  rw [scanFraction_append hfrac hafter]
  simp only
  rw [scanExponent_append hexp ht]
  simp only
  rw [if_neg]
  rintro ⟨hnofrac, hnoexp, hno⟩
  rw [hfits hnofrac hnoexp] at hno
  cases hno

theorem isNumber_head {d : Reader} {text : List Char} (h : IsNumber d text) :
    ∃ c rest, text = c :: rest ∧ IsNumberHead c := by
  obtain ⟨sign, whole, frac, exp, rfl, hsign, hwhole, -⟩ := h
  obtain ⟨a, digits, rfl, hdigit⟩ := isInteger_head hwhole
  rcases hsign with rfl | rfl
  · exact ⟨a, _, rfl, Or.inl hdigit⟩
  · exact ⟨'-', _, rfl, Or.inr List.mem_cons_self⟩

/-! ## Values -/

theorem isSpace_of_numberHead {c : Char} (hc : IsNumberHead c) : isSpace c = false ∧ c ≠ ']' ∧ c ≠ '}' := by
  rcases hc with hc | hc
  · refine ⟨?_, ?_, ?_⟩
    · rw [Char.isDigit, Bool.and_eq_true, decide_eq_true_iff, decide_eq_true_iff] at hc
      have hlow : 48 ≤ c.toNat := hc.1
      have hhigh : c.toNat ≤ 57 := hc.2
      simp only [isSpace, Bool.or_eq_false_iff, Bool.and_eq_false_iff, decide_eq_false_iff_not, beq_eq_false_iff_ne]
      omega
    · rintro rfl
      cases hc
    · rintro rfl
      cases hc
  · simp only [List.mem_cons, List.not_mem_nil, or_false] at hc
    rcases hc with rfl | rfl | rfl
    · decide
    · decide
    · decide

/-- A value or a list of parts begins with a character that is no whitespace and closes nothing. -/
theorem Form.head {d : Reader} {kind : Kind} {s : List Char} (h : Form d kind s) :
    ∃ c rest, s = c :: rest ∧ isSpace c = false ∧ c ≠ ']' ∧ c ≠ '}' ∧ (kind = .pairs → c = '"') := by
  induction h with
  | literal h =>
    simp only [literals, List.mem_cons, List.not_mem_nil, or_false] at h
    rcases h with rfl | rfl | rfl
    · exact ⟨_, _, rfl, by decide⟩
    · exact ⟨_, _, rfl, by decide⟩
    · exact ⟨_, _, rfl, by decide⟩
  | constant h =>
    rw [Reader.constants] at h
    split at h
    · simp only [Json.constants, List.mem_cons, List.not_mem_nil, or_false] at h
      rcases h with rfl | rfl | rfl
      · exact ⟨_, _, rfl, by decide⟩
      · exact ⟨_, _, rfl, by decide⟩
      · exact ⟨_, _, rfl, by decide⟩
    · cases h
  | number h =>
    obtain ⟨c, rest, rfl, hc⟩ := isNumber_head h
    obtain ⟨hspace, harray, hobject⟩ := isSpace_of_numberHead hc
    exact ⟨c, rest, rfl, hspace, harray, hobject, by rintro ⟨⟩⟩
  | string => exact ⟨_, _, rfl, by decide⟩
  | emptyArray => exact ⟨_, _, rfl, by decide⟩
  | array => exact ⟨_, _, rfl, by decide⟩
  | emptyObject => exact ⟨_, _, rfl, by decide⟩
  | object => exact ⟨_, _, rfl, by decide⟩
  | lastItem _ _ ih =>
    obtain ⟨c, rest, rfl, hspace, harray, hobject, -⟩ := ih
    exact ⟨c, _, rfl, hspace, harray, hobject, by rintro ⟨⟩⟩
  | item _ _ _ _ ih _ =>
    obtain ⟨c, rest, rfl, hspace, harray, hobject, -⟩ := ih
    exact ⟨c, _, rfl, hspace, harray, hobject, by rintro ⟨⟩⟩
  | lastPair => exact ⟨_, _, rfl, by decide⟩
  | pair => exact ⟨_, _, rfl, by decide⟩

theorem Form.flush {d : Reader} {kind : Kind} {s : List Char} (h : Form d kind s) : Flush isSpace s := by
  obtain ⟨c, rest, rfl, hspace, -⟩ := h.head
  intro a ha
  rwa [← Option.some.inj ha]

/-- Whitespace before a value or a list of parts is skipped. -/
theorem Form.skipSpace {d : Reader} {kind : Kind} {s w : List Char} (h : Form d kind s) (hw : IsWhite w)
    (t : List Char) : skipSpace (w ++ (s ++ t)) = s ++ t := by
  obtain ⟨c, rest, rfl, hspace, -⟩ := h.head
  rw [skipSpace_white hw, List.cons_append, skipSpace_cons (isWhite_of_not_isSpace hspace)]

/-- A closing bracket or a comma after whitespace. -/
theorem skipSpace_mark {w : List Char} (hw : IsWhite w) {c : Char} (hc : isWhite c = false) (t : List Char) :
    Json.skipSpace (w ++ c :: t) = c :: t := by
  rw [skipSpace_white hw, skipSpace_cons hc]

theorem scan_atom {d : Reader} {fuel : Nat} {s t : List Char} {rest : List Char} (hatom : scanAtom d s = some rest)
    (hs : ∃ c u, s = c :: u ∧ c ≠ '"' ∧ c ≠ '{' ∧ c ≠ '[') (hrest : rest = t) :
    scan d (fuel + 1) .value s = some t := by
  obtain ⟨c, u, rfl, hquote, hobject, harray⟩ := hs
  rw [scan, if_neg hquote, if_neg hobject, if_neg harray, hatom, hrest]

/-- **What the grammar has is read.** -/
theorem scan_form {d : Reader} {kind : Kind} {s : List Char} (h : Form d kind s) {fuel : Nat} {t : List Char}
    (ht : kind = .value → NumberEnds t) (hfuel : 2 * s.length < fuel) : scan d fuel kind (s ++ t) = some t := by
  induction h generalizing fuel t with
  | @literal text h =>
    obtain ⟨fuel, rfl⟩ : ∃ n, fuel = n + 1 := ⟨fuel - 1, by omega⟩
    refine scan_atom (by rw [scanAtom, scanWord_literals h]) ?_ rfl
    simp only [literals, List.mem_cons, List.not_mem_nil, or_false] at h
    rcases h with rfl | rfl | rfl
    · exact ⟨_, _, rfl, by decide⟩
    · exact ⟨_, _, rfl, by decide⟩
    · exact ⟨_, _, rfl, by decide⟩
  | @constant text h =>
    obtain ⟨fuel, rfl⟩ : ∃ n, fuel = n + 1 := ⟨fuel - 1, by omega⟩
    rw [Reader.constants] at h
    split at h
    · next hconstants =>
      obtain ⟨hliteral, hnumber, hword⟩ := scanWord_constants h d t
      refine scan_atom (by rw [scanAtom, hliteral, hnumber, Reader.constants, if_pos hconstants, hword]) ?_ rfl
      simp only [Json.constants, List.mem_cons, List.not_mem_nil, or_false] at h
      rcases h with rfl | rfl | rfl
      · exact ⟨_, _, rfl, by decide⟩
      · exact ⟨_, _, rfl, by decide⟩
      · exact ⟨_, _, rfl, by decide⟩
    · cases h
  | @number text h =>
    obtain ⟨fuel, rfl⟩ : ∃ n, fuel = n + 1 := ⟨fuel - 1, by omega⟩
    have hdigits := scanDigits_append h (ht rfl)
    obtain ⟨c, rest, rfl, hc⟩ := isNumber_head h
    refine scan_atom (by rw [scanAtom, List.cons_append, scanWord_number hc, ← List.cons_append, hdigits]) ?_ rfl
    exact ⟨c, _, rfl, numberHead_ne hc (by decide), numberHead_ne hc (by decide), numberHead_ne hc (by decide)⟩
  | @string s h =>
    obtain ⟨fuel, rfl⟩ : ∃ n, fuel = n + 1 := ⟨fuel - 1, by omega⟩
    rw [List.cons_append, scan, if_pos rfl, scanBody_append h (by rw [List.length_append]; omega)]
  | @emptyArray w hw =>
    obtain ⟨fuel, rfl⟩ : ∃ n, fuel = n + 1 := ⟨fuel - 1, by omega⟩
    rw [List.cons_append, List.append_assoc, List.singleton_append, scan, if_neg (by decide), if_neg (by decide),
      if_pos rfl, skipSpace_mark hw rfl, List.head?_cons, if_pos rfl, List.tail_cons]
  | @array w s hw h ih =>
    rw [List.length_cons, List.length_append] at hfuel
    obtain ⟨fuel, rfl⟩ : ∃ n, fuel = n + 1 := ⟨fuel - 1, by omega⟩
    rw [List.cons_append, List.append_assoc, scan, if_neg (by decide), if_neg (by decide), if_pos rfl, h.skipSpace hw,
      ih (by rintro ⟨⟩) (by omega), if_neg]
    obtain ⟨c, rest, rfl, -, harray, -⟩ := h.head
    exact fun hclose => harray (Option.some.inj hclose)
  | @emptyObject w hw =>
    obtain ⟨fuel, rfl⟩ : ∃ n, fuel = n + 1 := ⟨fuel - 1, by omega⟩
    rw [List.cons_append, List.append_assoc, List.singleton_append, scan, if_neg (by decide), if_pos rfl,
      skipSpace_mark hw rfl, List.head?_cons, if_pos rfl, List.tail_cons]
  | @object w s hw h ih =>
    rw [List.length_cons, List.length_append] at hfuel
    obtain ⟨fuel, rfl⟩ : ∃ n, fuel = n + 1 := ⟨fuel - 1, by omega⟩
    rw [List.cons_append, List.append_assoc, scan, if_neg (by decide), if_pos rfl, h.skipSpace hw,
      ih (by rintro ⟨⟩) (by omega), if_neg]
    obtain ⟨c, rest, rfl, -, -, hobject, -⟩ := h.head
    exact fun hclose => hobject (Option.some.inj hclose)
  | @lastItem v w hv hw ih =>
    rw [List.length_append, List.length_append, List.length_singleton] at hfuel
    obtain ⟨fuel, rfl⟩ : ∃ n, fuel = n + 1 := ⟨fuel - 1, by omega⟩
    have hread := @ih fuel (w ++ ']' :: t) (fun _ => numberEnds_white hw (numberEnds_cons (by decide) t)) (by omega)
    obtain ⟨c, rest, rfl, -⟩ := hv.head
    simp only [List.append_assoc, List.cons_append, List.nil_append] at hread ⊢
    rw [scan, hread, Option.bind_some, skipSpace_mark hw rfl]
    simp only
    rw [if_pos trivial]
  | @item v w w' s hv hw hw' h ih ihrest =>
    simp only [List.length_append, List.length_cons] at hfuel
    obtain ⟨fuel, rfl⟩ : ∃ n, fuel = n + 1 := ⟨fuel - 1, by omega⟩
    have hread := @ih fuel (w ++ ',' :: (w' ++ (s ++ t)))
      (fun _ => numberEnds_white hw (numberEnds_cons (by decide) _)) (by omega)
    obtain ⟨c, rest, rfl, -⟩ := hv.head
    simp only [List.append_assoc, List.cons_append] at hread ⊢
    rw [scan, hread, Option.bind_some, skipSpace_mark hw rfl]
    simp only
    rw [if_neg (by decide), if_pos trivial, h.skipSpace hw', ihrest (by rintro ⟨⟩) (by omega)]
  | @lastPair k v a b w hk ha hb hv hw ih =>
    simp only [List.length_append, List.length_cons, List.length_nil] at hfuel
    obtain ⟨fuel, rfl⟩ : ∃ n, fuel = n + 1 := ⟨fuel - 1, by omega⟩
    have hread := @ih fuel (w ++ '}' :: t) (fun _ => numberEnds_white hw (numberEnds_cons (by decide) t)) (by omega)
    simp only [List.append_assoc, List.cons_append, List.nil_append]
    rw [scan, if_pos rfl, scanBody_append hk (by rw [List.length_append]; omega), Option.bind_some,
      skipSpace_mark ha rfl, List.head?_cons, if_pos rfl, List.tail_cons, hv.skipSpace hb, hread, Option.bind_some, skipSpace_mark hw rfl]
    simp only
    rw [if_pos trivial]
  | @pair k v a b w w' s hk ha hb hv hw hw' h ih ihrest =>
    simp only [List.length_append, List.length_cons] at hfuel
    obtain ⟨fuel, rfl⟩ : ∃ n, fuel = n + 1 := ⟨fuel - 1, by omega⟩
    have hread := @ih fuel (w ++ ',' :: (w' ++ (s ++ t)))
      (fun _ => numberEnds_white hw (numberEnds_cons (by decide) _)) (by omega)
    simp only [List.append_assoc, List.cons_append]
    rw [scan, if_pos rfl, scanBody_append hk (by rw [List.length_append]; omega), Option.bind_some,
      skipSpace_mark ha rfl, List.head?_cons, if_pos rfl, List.tail_cons, hv.skipSpace hb, hread, Option.bind_some, skipSpace_mark hw rfl]
    simp only
    rw [if_neg (by decide), if_pos trivial, h.skipSpace hw', ihrest (by rintro ⟨⟩) (by omega)]

theorem atom_of_scan {d : Reader} {s t : List Char} (h : scanAtom d s = some t) : ∃ v, s = v ++ t ∧ Form d .value v := by
  rw [scanAtom] at h
  split at h
  · next rest hword =>
    cases h
    obtain ⟨word, hmem, hs⟩ := scanWord_some hword
    exact ⟨word, hs, Form.literal hmem⟩
  · split at h
    · next rest hdigits =>
      cases h
      obtain ⟨text, hs, hnumber⟩ := number_of_scan hdigits
      exact ⟨text, hs, Form.number hnumber⟩
    · obtain ⟨word, hmem, hs⟩ := scanWord_some h
      exact ⟨word, hs, Form.constant hmem⟩

/-- **What is read is in the grammar.** -/
theorem form_of_scan {d : Reader} {fuel : Nat} {kind : Kind} {s t : List Char} (h : scan d fuel kind s = some t) :
    ∃ v, s = v ++ t ∧ Form d kind v := by
  induction fuel generalizing kind s t with
  | zero => cases h
  | succ fuel ih =>
    cases s with
    | nil => cases h
    | cons c rest =>
      cases kind with
      | value =>
        rw [scan] at h
        split at h
        · next hquote =>
          obtain ⟨b, rfl, hb⟩ := body_of_scan h
          exact ⟨'"' :: b, by rw [hquote]; rfl, Form.string hb⟩
        · split at h
          · next hobject =>
            obtain ⟨w, hw, hrest⟩ := skipSpace_split rest
            split at h
            · next hclose =>
              obtain ⟨u, hu⟩ := List.head?_eq_some_iff.mp hclose
              rw [hu, List.tail_cons, Option.some.injEq] at h
              refine ⟨'{' :: (w ++ ['}']), ?_, Form.emptyObject hw⟩
              rw [hobject, hrest, hu, h, List.cons_append, List.append_assoc, List.singleton_append]
            · obtain ⟨v, hv, hform⟩ := ih h
              refine ⟨'{' :: (w ++ v), ?_, Form.object hw hform⟩
              rw [hobject, hrest, hv, List.cons_append, List.append_assoc]
          · split at h
            · next harray =>
              obtain ⟨w, hw, hrest⟩ := skipSpace_split rest
              split at h
              · next hclose =>
                obtain ⟨u, hu⟩ := List.head?_eq_some_iff.mp hclose
                rw [hu, List.tail_cons, Option.some.injEq] at h
                refine ⟨'[' :: (w ++ [']']), ?_, Form.emptyArray hw⟩
                rw [harray, hrest, hu, h, List.cons_append, List.append_assoc, List.singleton_append]
              · obtain ⟨v, hv, hform⟩ := ih h
                refine ⟨'[' :: (w ++ v), ?_, Form.array hw hform⟩
                rw [harray, hrest, hv, List.cons_append, List.append_assoc]
            · exact atom_of_scan h
      | items =>
        rw [scan] at h
        obtain ⟨s', hvalue, hrest⟩ := Option.bind_eq_some_iff.mp h
        obtain ⟨v, hv, hform⟩ := ih hvalue
        obtain ⟨w, hw, hs'⟩ := skipSpace_split s'
        split at hrest
        · cases hrest
        · next mark after hmark =>
          rw [hmark] at hs'
          split at hrest
          · next hclose =>
            cases hrest
            refine ⟨v ++ (w ++ [']']), ?_, Form.lastItem hform hw⟩
            rw [hv, hs', hclose, List.append_assoc, List.append_assoc, List.singleton_append]
          · split at hrest
            · next hcomma =>
              obtain ⟨w', hw', hafter⟩ := skipSpace_split after
              obtain ⟨others, hothers, hitems⟩ := ih hrest
              refine ⟨v ++ (w ++ ',' :: (w' ++ others)), ?_, Form.item hform hw hw' hitems⟩
              rw [hv, hs', hcomma, hafter, hothers]
              simp only [List.append_assoc, List.cons_append]
            · cases hrest
      | pairs =>
        rw [scan] at h
        split at h
        · next hquote =>
          obtain ⟨s', hkey, hcolon⟩ := Option.bind_eq_some_iff.mp h
          obtain ⟨k, hk, hbody⟩ := body_of_scan hkey
          obtain ⟨a, ha, hs'⟩ := skipSpace_split s'
          split at hcolon
          · next hmark =>
            obtain ⟨u, hu⟩ := List.head?_eq_some_iff.mp hmark
            rw [hu] at hs' hcolon
            rw [List.tail_cons] at hcolon
            obtain ⟨b, hb, hu'⟩ := skipSpace_split u
            obtain ⟨s'', hvalue, hrest⟩ := Option.bind_eq_some_iff.mp hcolon
            obtain ⟨v, hv, hform⟩ := ih hvalue
            obtain ⟨w, hw, hs''⟩ := skipSpace_split s''
            split at hrest
            · cases hrest
            · next mark after hmark =>
              rw [hmark] at hs''
              split at hrest
              · next hclose =>
                cases hrest
                refine ⟨'"' :: (k ++ (a ++ ':' :: (b ++ (v ++ (w ++ ['}']))))), ?_, Form.lastPair hbody ha hb hform hw⟩
                rw [hquote, hk, hs', hu', hv, hs'', hclose]
                simp only [List.append_assoc, List.cons_append, List.nil_append]
              · split at hrest
                · next hcomma =>
                  obtain ⟨w', hw', hafter⟩ := skipSpace_split after
                  obtain ⟨others, hothers, hpairs⟩ := ih hrest
                  refine ⟨'"' :: (k ++ (a ++ ':' :: (b ++ (v ++ (w ++ ',' :: (w' ++ others)))))), ?_,
                    Form.pair hbody ha hb hform hw hw' hpairs⟩
                  rw [hquote, hk, hs', hu', hv, hs'', hcomma, hafter, hothers]
                  simp only [List.append_assoc, List.cons_append]
                · cases hrest
          · cases hcolon
        · cases h

/-- **`json.loads` returns on the texts of the grammar, and on no other.** -/
theorem accepts_iff {d : Reader} {text : List Char} : accepts d text = true ↔ IsText d text := by
  obtain ⟨before, hbefore, htext⟩ := skipSpace_split text
  constructor
  · intro h
    rw [accepts] at h
    split at h
    · cases h
    · next rest hscan =>
      obtain ⟨v, hv, hform⟩ := form_of_scan hscan
      rw [decide_eq_true_iff, skipSpace_eq_nil] at h
      exact ⟨before, v, rest, by rw [← hv]; exact htext, hbefore, h, hform⟩
  · rintro ⟨start, v, after, rfl, hstart, hafter, hform⟩
    have hskip := hform.skipSpace hstart after
    have hends : NumberEnds after := by
      have hnil := numberEnds_white hafter (t := []) fun c hc => nomatch hc
      rwa [List.append_nil] at hnil
    rw [accepts, hskip, scan_form hform (fun _ => hends) (by rw [List.length_append]; omega)]
    exact decide_eq_true (skipSpace_eq_nil.mpr hafter)

instance (d : Reader) (text : List Char) : Decidable (IsText d text) := decidable_of_iff _ accepts_iff

/-! ## What a text begins and ends with -/

/-- Every reader takes only what the most permissive one takes. -/
theorem Form.lax {d : Reader} {kind : Kind} {s : List Char} (h : Form d kind s) : Form Json.lax kind s := by
  induction h with
  | literal h => exact Form.literal h
  | constant h =>
    refine Form.constant ?_
    rw [Reader.constants] at h
    split at h
    · exact h
    · cases h
  | number h =>
    obtain ⟨sign, whole, frac, exp, htext, hsign, hwhole, hfrac, hexp, -⟩ := h
    exact Form.number ⟨sign, whole, frac, exp, htext, hsign, hwhole, hfrac, hexp, fun _ _ => rfl⟩
  | string h => exact Form.string h
  | emptyArray hw => exact Form.emptyArray hw
  | array hw _ ih => exact Form.array hw ih
  | emptyObject hw => exact Form.emptyObject hw
  | object hw _ ih => exact Form.object hw ih
  | lastItem _ hw ih => exact Form.lastItem ih hw
  | item _ hw hw' _ ih ihrest => exact Form.item ih hw hw' ihrest
  | lastPair hk ha hb _ hw ih => exact Form.lastPair hk ha hb ih hw
  | pair hk ha hb _ hw hw' _ ih ihrest => exact Form.pair hk ha hb ih hw hw' ihrest

/-- **A text begins with at most one value.** -/
theorem form_unique {d d' : Reader} {v v' t t' : List Char} (hv : Form d .value v) (hv' : Form d' .value v')
    (ht : NumberEnds t) (ht' : NumberEnds t') (h : v ++ t = v' ++ t') : v = v' ∧ t = t' := by
  have hread := @scan_form _ _ _ hv.lax (2 * (v.length + v'.length) + 1) t (fun _ => ht) (by omega)
  have hread' := @scan_form _ _ _ hv'.lax (2 * (v.length + v'.length) + 1) t' (fun _ => ht') (by omega)
  rw [h, hread'] at hread
  obtain rfl := Option.some.inj hread
  exact ⟨List.append_cancel_right h, rfl⟩

theorem Body.last {s : List Char} (h : Body s) : ∃ init, s = init ++ ['"'] := by
  induction h with
  | close => exact ⟨[], rfl⟩
  | @plain c _ _ _ _ _ ih =>
    obtain ⟨init, rfl⟩ := ih
    exact ⟨c :: init, rfl⟩
  | @escape e _ _ _ ih =>
    obtain ⟨init, rfl⟩ := ih
    exact ⟨'\\' :: (e ++ init), by rw [List.cons_append, List.append_assoc]⟩

/-- Digits end with a digit. -/
theorem digits_last {s : List Char} (hne : s ≠ []) (hdigits : ∀ c ∈ s, c.isDigit = true) :
    ∃ init c, s = init ++ [c] ∧ c.isDigit = true :=
  ⟨s.dropLast, s.getLast hne, (List.dropLast_append_getLast hne).symm, hdigits _ (List.getLast_mem hne)⟩

theorem isNumber_last {d : Reader} {text : List Char} (h : IsNumber d text) :
    ∃ init c, text = init ++ [c] ∧ c.isDigit = true := by
  obtain ⟨sign, whole, frac, exp, rfl, -, hwhole, hfrac, hexp, -⟩ := h
  rcases hexp with rfl | ⟨e, mark, ds, rfl, -, -, hne, hds⟩
  · rcases hfrac with rfl | ⟨ds, rfl, hne, hds⟩
    · obtain ⟨init, c, rfl, hc⟩ : ∃ init c, whole = init ++ [c] ∧ c.isDigit = true := by
        rcases hwhole with rfl | ⟨a, rest, rfl, ha, -, hrest⟩
        · exact ⟨[], '0', rfl, rfl⟩
        · refine digits_last (List.cons_ne_nil _ _) fun c hc => ?_
          rcases List.mem_cons.mp hc with rfl | hc
          · exact ha
          · exact hrest c hc
      exact ⟨sign ++ init, c, by simp only [List.append_nil, List.append_assoc], hc⟩
    · obtain ⟨init, c, rfl, hc⟩ := digits_last hne hds
      exact ⟨sign ++ (whole ++ '.' :: init), c,
        by simp only [List.append_nil, List.append_assoc, List.cons_append], hc⟩
  · obtain ⟨init, c, rfl, hc⟩ := digits_last hne hds
    exact ⟨sign ++ (whole ++ (frac ++ e :: (mark ++ init))), c,
      by simp only [List.append_assoc, List.cons_append], hc⟩

/-- A value ends with a character that is no whitespace. -/
theorem Form.last {d : Reader} {kind : Kind} {s : List Char} (h : Form d kind s) :
    ∃ init c, s = init ++ [c] ∧ isSpace c = false := by
  induction h with
  | literal h =>
    simp only [literals, List.mem_cons, List.not_mem_nil, or_false] at h
    rcases h with rfl | rfl | rfl
    · exact ⟨['n', 'u', 'l'], 'l', rfl, rfl⟩
    · exact ⟨['t', 'r', 'u'], 'e', rfl, rfl⟩
    · exact ⟨['f', 'a', 'l', 's'], 'e', rfl, rfl⟩
  | constant h =>
    rw [Reader.constants] at h
    split at h
    · simp only [Json.constants, List.mem_cons, List.not_mem_nil, or_false] at h
      rcases h with rfl | rfl | rfl
      · exact ⟨['N', 'a'], 'N', rfl, rfl⟩
      · exact ⟨['I', 'n', 'f', 'i', 'n', 'i', 't'], 'y', rfl, rfl⟩
      · exact ⟨['-', 'I', 'n', 'f', 'i', 'n', 'i', 't'], 'y', rfl, rfl⟩
    · cases h
  | number h =>
    obtain ⟨init, c, rfl, hc⟩ := isNumber_last h
    exact ⟨init, c, rfl, (isSpace_of_numberHead (Or.inl hc)).1⟩
  | string h =>
    obtain ⟨init, rfl⟩ := h.last
    exact ⟨'"' :: init, '"', rfl, rfl⟩
  | @emptyArray w _ => exact ⟨'[' :: w, ']', rfl, rfl⟩
  | @array w _ _ _ ih =>
    obtain ⟨init, c, rfl, hc⟩ := ih
    exact ⟨'[' :: (w ++ init), c, by simp only [List.append_assoc, List.cons_append], hc⟩
  | @emptyObject w _ => exact ⟨'{' :: w, '}', rfl, rfl⟩
  | @object w _ _ _ ih =>
    obtain ⟨init, c, rfl, hc⟩ := ih
    exact ⟨'{' :: (w ++ init), c, by simp only [List.append_assoc, List.cons_append], hc⟩
  | @lastItem v w _ _ _ => exact ⟨v ++ w, ']', by rw [List.append_assoc], rfl⟩
  | @item v w w' _ _ _ _ _ _ ih =>
    obtain ⟨init, c, rfl, hc⟩ := ih
    exact ⟨v ++ (w ++ ',' :: (w' ++ init)), c, by simp only [List.append_assoc, List.cons_append], hc⟩
  | @lastPair k v a b w _ _ _ _ _ _ =>
    exact ⟨'"' :: (k ++ (a ++ ':' :: (b ++ (v ++ w)))), '}', by simp only [List.append_assoc, List.cons_append], rfl⟩
  | @pair k v a b w w' _ _ _ _ _ _ _ _ _ ih =>
    obtain ⟨init, c, rfl, hc⟩ := ih
    exact ⟨'"' :: (k ++ (a ++ ':' :: (b ++ (v ++ (w ++ ',' :: (w' ++ init)))))), c,
      by simp only [List.append_assoc, List.cons_append], hc⟩

theorem Form.flush_reverse {d : Reader} {kind : Kind} {s : List Char} (h : Form d kind s) : Flush isSpace s.reverse := by
  obtain ⟨init, c, rfl, hc⟩ := h.last
  rw [List.reverse_append, List.reverse_singleton, List.singleton_append]
  intro a ha
  rwa [← Option.some.inj ha]

/-- The whitespace around a text is whitespace of JSON. -/
def WhiteMargins (s : List Char) : Prop :=
  ∃ before after, s = before ++ (trim isSpace s ++ after) ∧ IsWhite before ∧ IsWhite after

/-- **A text without its whitespace is a value.** -/
theorem isText_iff {d : Reader} {s : List Char} : IsText d s ↔ Form d .value (trim isSpace s) ∧ WhiteMargins s := by
  constructor
  · rintro ⟨before, v, after, rfl, hbefore, hafter, hform⟩
    have hv : trim isSpace (before ++ (v ++ after)) = v := by
      rw [trim_between (fun c hc => isSpace_of_isWhite (hbefore c hc)) fun c hc => isSpace_of_isWhite (hafter c hc),
        trim_of_flush hform.flush hform.flush_reverse]
    rw [WhiteMargins, hv]
    exact ⟨hform, before, after, rfl, hbefore, hafter⟩
  · rintro ⟨hform, before, after, hs, hbefore, hafter⟩
    exact ⟨before, _, after, hs, hbefore, hafter, hform⟩

end CodexMemory.Json
