import CodexMemory.Json.Value
import Mathlib.Data.Nat.Digits.Lemmas

/-!
# `json.loads`

The scanner of Python's `json` module on the characters of a text.  `fuel`
bounds the nesting of calls; a call reads at least one character, so the length
of the text is enough.  A text with an escaped lone surrogate is left out (it is
no text of `dumps`): such an escape is an error here.

* `loads_dumps`: what `dumps` writes is read back, if no object has a key twice.
-/

namespace CodexMemory.Json

/-! ## Strings -/

def hexValue (c : Char) : Option Nat :=
  if c.isDigit then some (c.toNat - '0'.toNat)
  else if 'a' ≤ c ∧ c ≤ 'f' then some (c.toNat - 'a'.toNat + 10)
  else if 'A' ≤ c ∧ c ≤ 'F' then some (c.toNat - 'A'.toNat + 10)
  else none

/-- `_decode_uXXXX` -/
def decodeHex : List Char → Option (Nat × List Char)
  | a :: b :: c :: d :: rest =>
    match hexValue a, hexValue b, hexValue c, hexValue d with
    | some a, some b, some c, some d => some (((a * 16 + b) * 16 + c) * 16 + d, rest)
    | _, _, _, _ => none
  | _ => none

/-- The character for a code after `\u`; a high surrogate takes the low one after it. -/
def decodeUnicode (s : List Char) : Option (Char × List Char) :=
  match decodeHex s with
  | none => none
  | some (n, rest) =>
    if n < 0xd800 ∨ 0xe000 ≤ n then some (Char.ofNat n, rest)
    else if n < 0xdc00 ∧ rest.take 2 = ['\\', 'u'] then
      match decodeHex (rest.drop 2) with
      | none => none
      | some (m, rest') =>
        if 0xdc00 ≤ m ∧ m < 0xe000 then
          some (Char.ofNat (0x10000 + (n - 0xd800) * 0x400 + (m - 0xdc00)), rest')
        else none
    else none

/-- The character that an escape after the backslash stands for. -/
def unescape : List Char → Option (Char × List Char)
  | [] => none
  | c :: rest =>
    if c = '"' ∨ c = '\\' ∨ c = '/' then some (c, rest)
    else if c = 'b' then some ('\x08', rest)
    else if c = 'f' then some ('\x0c', rest)
    else if c = 'n' then some ('\n', rest)
    else if c = 'r' then some ('\r', rest)
    else if c = 't' then some ('\t', rest)
    else if c = 'u' then decodeUnicode rest
    else none

/-- `scanstring` after the opening quote, with `strict=True`. -/
def scanString : Nat → List Char → Option (List Char × List Char)
  | 0, _ => none
  | _ + 1, [] => none
  | fuel + 1, c :: rest =>
    if c = '"' then some ([], rest)
    else if c = '\\' then
      match unescape rest with
      | none => none
      | some (d, rest') => (scanString fuel rest').map fun r => (d :: r.1, r.2)
    else if c.toNat < 0x20 then none
    else (scanString fuel rest).map fun r => (c :: r.1, r.2)

/-! ## Numbers -/

/-- `(?:0|[1-9][0-9]*)` -/
def scanInteger : List Char → Option (List Char × List Char)
  | [] => none
  | c :: rest =>
    if c = '0' then some (['0'], rest)
    else if c.isDigit then some (c :: rest.takeWhile Char.isDigit, rest.dropWhile Char.isDigit)
    else none

/-- `(\.[0-9]+)?` -/
def scanFraction : List Char → List Char × List Char
  | [] => ([], [])
  | c :: rest =>
    if c = '.' ∧ rest.takeWhile Char.isDigit ≠ [] then
      (c :: rest.takeWhile Char.isDigit, rest.dropWhile Char.isDigit)
    else ([], c :: rest)

/-- `[-+]?` -/
def scanSign : List Char → List Char × List Char
  | [] => ([], [])
  | c :: rest => if c = '+' ∨ c = '-' then ([c], rest) else ([], c :: rest)

/-- `([eE][-+]?[0-9]+)?` -/
def scanExponent : List Char → List Char × List Char
  | [] => ([], [])
  | c :: rest =>
    let signed := scanSign rest
    if (c = 'e' ∨ c = 'E') ∧ signed.2.takeWhile Char.isDigit ≠ [] then
      (c :: (signed.1 ++ signed.2.takeWhile Char.isDigit), signed.2.dropWhile Char.isDigit)
    else ([], c :: rest)

/-- The number that decimal digits stand for. -/
def natOfText (ds : List Char) : Nat := Nat.ofDigits 10 (ds.reverse.map fun c => c.toNat - '0'.toNat)

/-- `int` of a sign and digits. -/
def intOfText (sign ds : List Char) : Int :=
  if sign = [] then (natOfText ds : Int) else -(natOfText ds : Int)

variable {F : Type} [PyFloat F]

/-- `_match_number` -/
def scanNumber (s : List Char) : Option (Json F × List Char) :=
  let sign := if s.head? = some '-' then ['-'] else []
  match scanInteger (s.drop sign.length) with
  | none => none
  | some (whole, s₁) =>
    let (frac, s₂) := scanFraction s₁
    let (exp, s₃) := scanExponent s₂
    if frac = [] ∧ exp = [] then some (.int (intOfText sign whole), s₁)
    else (PyFloat.ofText (sign ++ (whole ++ (frac ++ exp)))).map fun x => (.float x, s₃)

/-- `parse_constant` at the beginning of a text. -/
def scanConstant (s : List Char) : Option (Json F × List Char) :=
  (constants.find? fun text => text.isPrefixOf s).bind fun text =>
    (PyFloat.ofText text).map fun x => (.float x, s.drop text.length)

/-- `null`, `true` and `false`. -/
def scanLiteral (s : List Char) : Option (Json F × List Char) :=
  if ['n', 'u', 'l', 'l'].isPrefixOf s then some (.null, s.drop 4)
  else if ['t', 'r', 'u', 'e'].isPrefixOf s then some (.bool true, s.drop 4)
  else if ['f', 'a', 'l', 's', 'e'].isPrefixOf s then some (.bool false, s.drop 5)
  else none

/-! ## Values -/

/-- `WHITESPACE.match` -/
def skipSpace (s : List Char) : List Char :=
  s.dropWhile fun c => c = ' ' || c = '\t' || c = '\n' || c = '\r'

/-- `d[key] = value` on the fields of a dictionary. -/
def setField (key : String) (value : Json F) : List (String × Json F) → List (String × Json F)
  | [] => [(key, value)]
  | (k, v) :: rest => if k = key then (key, value) :: rest else (k, v) :: setField key value rest

/-- `dict(pairs)` -/
def ofPairs (pairs : List (String × Json F)) : List (String × Json F) :=
  pairs.foldl (fun fields p => setField p.1 p.2 fields) []

mutual

/-- `scan_once` -/
def scanOnce : Nat → List Char → Option (Json F × List Char)
  | 0, _ => none
  | _ + 1, [] => none
  | fuel + 1, c :: rest =>
    if c = '"' then (scanString (rest.length + 1) rest).map fun r => (.str (String.ofList r.1), r.2)
    else if c = '{' then
      if (skipSpace rest).head? = some '}' then some (.obj [], (skipSpace rest).tail)
      else (scanPairs fuel (skipSpace rest)).map fun r => (.obj (ofPairs r.1), r.2)
    else if c = '[' then
      if (skipSpace rest).head? = some ']' then some (.arr [], (skipSpace rest).tail)
      else (scanItems fuel (skipSpace rest)).map fun r => (.arr r.1, r.2)
    else
      match scanLiteral (c :: rest) with
      | some r => some r
      | none =>
        match scanNumber (c :: rest) with
        | some r => some r
        | none => scanConstant (c :: rest)

/-- The loop of `JSONArray`. -/
def scanItems : Nat → List Char → Option (List (Json F) × List Char)
  | 0, _ => none
  | fuel + 1, s =>
    match scanOnce fuel s with
    | none => none
    | some (value, s') =>
      match skipSpace s' with
      | [] => none
      | c :: rest =>
        if c = ']' then some ([value], rest)
        else if c = ',' then (scanItems fuel (skipSpace rest)).map fun r => (value :: r.1, r.2)
        else none

/-- The loop of `JSONObject`. -/
def scanPairs : Nat → List Char → Option (List (String × Json F) × List Char)
  | 0, _ => none
  | _ + 1, [] => none
  | fuel + 1, c :: rest =>
    if c = '"' then
      match scanString (rest.length + 1) rest with
      | none => none
      | some (key, s) =>
        if (skipSpace s).head? = some ':' then
          match scanOnce fuel (skipSpace (skipSpace s).tail) with
          | none => none
          | some (value, s') =>
            match skipSpace s' with
            | [] => none
            | d :: rest' =>
              if d = '}' then some ([(String.ofList key, value)], rest')
              else if d = ',' then
                (scanPairs fuel (skipSpace rest')).map fun r => ((String.ofList key, value) :: r.1, r.2)
              else none
        else none
    else none

end

/-- `json.loads`; `none` is a `JSONDecodeError`. -/
def loads (text : List Char) : Option (Json F) :=
  let s := skipSpace text
  match scanOnce (2 * s.length + 1) s with
  | none => none
  | some (value, rest) => if skipSpace rest = [] then some value else none

/-! ## Strings are read back -/

theorem hexValue_digitChar : ∀ d < 16, hexValue (Nat.digitChar d) = some d := by decide

theorem unescape_hex2 {c : Char} (hc : c.toNat < 0x20) (t : List Char) :
    unescape ('u' :: '0' :: '0' :: (hex2 c.toNat ++ t)) = some (c, t) := by
  have hzero : hexValue '0' = some 0 := by decide
  have hhigh := hexValue_digitChar (c.toNat / 16) (by omega)
  have hlow := hexValue_digitChar (c.toNat % 16) (by omega)
  have hvalue : ((0 * 16 + 0) * 16 + c.toNat / 16) * 16 + c.toNat % 16 = c.toNat := by omega
  have hdecode : decodeHex ('0' :: '0' :: (hex2 c.toNat ++ t)) = some (c.toNat, t) := by
    simp only [hex2, List.cons_append, List.nil_append, decodeHex, hzero, hhigh, hlow, hvalue]
  have hu : unescape ('u' :: '0' :: '0' :: (hex2 c.toNat ++ t)) =
      decodeUnicode ('0' :: '0' :: (hex2 c.toNat ++ t)) := rfl
  rw [hu, decodeUnicode, hdecode]
  simp only
  rw [if_pos (by omega), Char.ofNat_toNat]

/-- One escaped character is read back. -/
theorem scanString_escape (c : Char) (fuel : Nat) (t : List Char) :
    scanString (fuel + 1) (escape c ++ t) = (scanString fuel t).map fun r => (c :: r.1, r.2) := by
  unfold escape
  split
  · next hc => subst hc; rfl
  split
  · next hc => subst hc; rfl
  split
  · next hc => subst hc; rfl
  split
  · next hc => subst hc; rfl
  split
  · next hc => subst hc; rfl
  split
  · next hc => subst hc; rfl
  split
  · next hc => subst hc; rfl
  split
  · next hc =>
    have hunescape := unescape_hex2 hc t
    simp only [List.cons_append, List.nil_append]
    rw [scanString, if_neg (by decide), if_pos rfl, hunescape]
  · next hquote hslash _ _ _ _ _ hcontrol =>
    rw [List.singleton_append, scanString, if_neg hquote, if_neg hslash, if_neg hcontrol]

theorem escape_ne_nil (c : Char) : escape c ≠ [] := by
  unfold escape
  repeat' split
  all_goals simp

theorem scanString_quote (s : List Char) {fuel : Nat} (hfuel : s.length < fuel) (rest : List Char) :
    scanString fuel (s.flatMap escape ++ '"' :: rest) = some (s, rest) := by
  induction s generalizing fuel with
  | nil =>
    obtain ⟨fuel, rfl⟩ := Nat.exists_eq_add_of_lt hfuel
    rfl
  | cons c s ih =>
    obtain ⟨fuel, rfl⟩ : ∃ n, fuel = n + 1 := ⟨fuel - 1, by omega⟩
    simp only [List.length_cons] at hfuel
    rw [List.flatMap_cons, List.append_assoc, scanString_escape, ih (by omega)]
    rfl

theorem length_le_flatMap_escape (s : List Char) : s.length ≤ (s.flatMap escape).length := by
  induction s with
  | nil => exact Nat.le_refl 0
  | cons c s ih =>
    have hc := List.length_pos_iff.mpr (escape_ne_nil c)
    rw [List.flatMap_cons, List.length_append, List.length_cons]
    omega

/-! ## Numbers are read back -/

/-- A text that does not go on with a number. -/
def NumberEnds (rest : List Char) : Prop :=
  ∀ c ∈ rest.head?, c.isDigit = false ∧ c ≠ '.' ∧ c ≠ 'e' ∧ c ≠ 'E'

theorem takeWhile_digits {ds t : List Char} (hds : ∀ c ∈ ds, c.isDigit = true)
    (ht : ∀ c ∈ t.head?, c.isDigit = false) :
    (ds ++ t).takeWhile Char.isDigit = ds ∧ (ds ++ t).dropWhile Char.isDigit = t := by
  induction ds with
  | nil =>
    cases t with
    | nil => exact ⟨rfl, rfl⟩
    | cons c t =>
      have hc := ht c rfl
      constructor
      · rw [List.nil_append, List.takeWhile_cons_of_neg (by rw [hc]; decide)]
      · rw [List.nil_append, List.dropWhile_cons_of_neg (by rw [hc]; decide)]
  | cons d ds ih =>
    have hd := hds d List.mem_cons_self
    obtain ⟨htake, hdrop⟩ := ih fun c hc => hds c (List.mem_cons_of_mem _ hc)
    constructor
    · rw [List.cons_append, List.takeWhile_cons_of_pos hd, htake]
    · rw [List.cons_append, List.dropWhile_cons_of_pos hd, hdrop]

theorem scanInteger_append {ds t : List Char} (hds : IsInteger ds)
    (ht : ∀ c ∈ t.head?, c.isDigit = false) : scanInteger (ds ++ t) = some (ds, t) := by
  rcases hds with rfl | ⟨d, rest, rfl, hd, hzero, hrest⟩
  · rfl
  · obtain ⟨htake, hdrop⟩ := takeWhile_digits hrest ht
    rw [List.cons_append, scanInteger, if_neg hzero, if_pos hd, htake, hdrop]

theorem scanFraction_append {frac t : List Char} (hfrac : IsFraction frac)
    (ht : ∀ c ∈ t.head?, c.isDigit = false ∧ c ≠ '.') : scanFraction (frac ++ t) = (frac, t) := by
  rcases hfrac with rfl | ⟨ds, rfl, hne, hds⟩
  · cases t with
    | nil => rfl
    | cons c t => rw [List.nil_append, scanFraction, if_neg fun h => (ht c rfl).2 h.1]
  · obtain ⟨htake, hdrop⟩ := takeWhile_digits hds fun c hc => (ht c hc).1
    rw [List.cons_append, scanFraction, htake, hdrop, if_pos ⟨rfl, hne⟩]

theorem scanSign_append {sign ds t : List Char} (hsign : sign = [] ∨ sign = ['+'] ∨ sign = ['-'])
    (hne : ds ≠ []) (hds : ∀ c ∈ ds, c.isDigit = true) : scanSign (sign ++ (ds ++ t)) = (sign, ds ++ t) := by
  rcases hsign with rfl | rfl | rfl
  · obtain ⟨d, ds, rfl⟩ := List.exists_cons_of_ne_nil hne
    have hd := hds d List.mem_cons_self
    rw [List.nil_append, List.cons_append, scanSign, if_neg]
    rintro (rfl | rfl)
    · cases hd
    · cases hd
  · rfl
  · rfl

theorem scanExponent_append {exp t : List Char} (hexp : IsExponent exp) (ht : NumberEnds t) :
    scanExponent (exp ++ t) = (exp, t) := by
  rcases hexp with rfl | ⟨e, sign, ds, rfl, he, hsign, hne, hds⟩
  · cases t with
    | nil => rfl
    | cons c t =>
      obtain ⟨-, -, hsmall, hcapital⟩ := ht c rfl
      rw [List.nil_append, scanExponent, if_neg]
      rintro ⟨rfl | rfl, -⟩
      · exact hsmall rfl
      · exact hcapital rfl
  · obtain ⟨htake, hdrop⟩ := takeWhile_digits hds fun c hc => (ht c hc).1
    rw [List.cons_append, List.append_assoc, scanExponent, scanSign_append hsign hne hds]
    simp only
    rw [htake, hdrop, if_pos ⟨he, hne⟩]

theorem digitChar_isDigit : ∀ d < 10, (Nat.digitChar d).isDigit = true := by decide

theorem digitChar_toNat : ∀ d < 10, (Nat.digitChar d).toNat - '0'.toNat = d := by decide

theorem digitChar_eq_zero : ∀ d < 10, Nat.digitChar d = '0' → d = 0 := by decide

theorem isInteger_natText (n : Nat) : IsInteger (natText n) := by
  rw [natText]
  split
  · exact Or.inl rfl
  · next hn =>
    right
    have hne : Nat.digits 10 n ≠ [] := Nat.digits_ne_nil_iff_ne_zero.mpr hn
    have hlast : (Nat.digits 10 n).getLast hne ≠ 0 := Nat.getLast_digit_ne_zero 10 hn
    have hdigit : ∀ d ∈ Nat.digits 10 n, d < 10 := fun d hd => Nat.digits_lt_base (by decide) hd
    rw [← List.dropLast_append_getLast hne, List.reverse_append, List.reverse_singleton,
      List.singleton_append, List.map_cons]
    refine ⟨_, _, rfl, digitChar_isDigit _ (hdigit _ (List.getLast_mem hne)), ?_, ?_⟩
    · exact fun h => hlast (digitChar_eq_zero _ (hdigit _ (List.getLast_mem hne)) h)
    · intro c hc
      obtain ⟨d, hd, rfl⟩ := List.mem_map.mp hc
      exact digitChar_isDigit d (hdigit d (List.mem_of_mem_dropLast (List.mem_reverse.mp hd)))

theorem natOfText_natText (n : Nat) : natOfText (natText n) = n := by
  rw [natText]
  split
  · next hn =>
    subst hn
    rfl
  · have hmap : (Nat.digits 10 n).map ((fun c => c.toNat - '0'.toNat) ∘ Nat.digitChar) = Nat.digits 10 n := by
      refine (List.map_congr_left fun d hd => ?_).trans (List.map_id _)
      exact digitChar_toNat d (Nat.digits_lt_base (by decide) hd)
    rw [natOfText, ← List.map_reverse, List.reverse_reverse, List.map_map, hmap, Nat.ofDigits_digits]

theorem isInteger_head {ds : List Char} (h : IsInteger ds) : ∃ d rest, ds = d :: rest ∧ d.isDigit = true := by
  rcases h with rfl | ⟨d, rest, rfl, hd, -⟩
  · exact ⟨'0', [], rfl, rfl⟩
  · exact ⟨d, rest, rfl, hd⟩

/-- What comes after the integer part does not go on with digits or a point. -/
theorem exponent_head {exp rest : List Char} (hexp : IsExponent exp) (hrest : NumberEnds rest) :
    ∀ c ∈ (exp ++ rest).head?, c.isDigit = false ∧ c ≠ '.' := by
  intro c hc
  rcases hexp with rfl | ⟨e, sign, ds, rfl, he, -⟩
  · obtain ⟨hdigit, hpoint, -⟩ := hrest c hc
    exact ⟨hdigit, hpoint⟩
  · cases hc
    rcases he with rfl | rfl
    · exact ⟨rfl, by decide⟩
    · exact ⟨rfl, by decide⟩

theorem fraction_head {frac t : List Char} (hfrac : IsFraction frac)
    (ht : ∀ c ∈ t.head?, c.isDigit = false ∧ c ≠ '.') : ∀ c ∈ (frac ++ t).head?, c.isDigit = false := by
  intro c hc
  rcases hfrac with rfl | ⟨ds, rfl, -⟩
  · exact (ht c hc).1
  · cases hc
    rfl

/-- A number is read with all its parts. -/
theorem scanNumber_append {sign whole frac exp rest : List Char} (hsign : sign = [] ∨ sign = ['-'])
    (hwhole : IsInteger whole) (hfrac : IsFraction frac) (hexp : IsExponent exp) (hrest : NumberEnds rest) :
    scanNumber (F := F) (sign ++ (whole ++ (frac ++ (exp ++ rest)))) =
      if frac = [] ∧ exp = [] then some (.int (intOfText sign whole), rest)
      else (PyFloat.ofText (sign ++ (whole ++ (frac ++ exp)))).map fun x => (.float x, rest) := by
  have hafter := exponent_head hexp hrest
  obtain ⟨d, ds, hd, hdigit⟩ := isInteger_head hwhole
  have hread : (if (sign ++ (whole ++ (frac ++ (exp ++ rest)))).head? = some '-' then ['-'] else []) = sign := by
    rcases hsign with rfl | rfl
    · rw [hd, List.nil_append, List.cons_append, List.head?_cons, if_neg]
      intro h
      cases h
      cases hdigit
    · rfl
  rw [scanNumber]
  simp only [hread, List.drop_left]
  rw [scanInteger_append hwhole (fraction_head hfrac hafter)]
  simp only
  rw [scanFraction_append hfrac hafter]
  simp only
  rw [scanExponent_append hexp hrest]
  simp only
  split
  · next hnone => rw [hnone.1, hnone.2, List.nil_append, List.nil_append]
  · rfl

theorem scanNumber_intText (n : Int) {rest : List Char} (hrest : NumberEnds rest) :
    scanNumber (F := F) (intText n ++ rest) = some (.int n, rest) := by
  have hparts : ∀ sign whole : List Char, sign = [] ∨ sign = ['-'] → IsInteger whole →
      scanNumber (F := F) (sign ++ (whole ++ rest)) = some (.int (intOfText sign whole), rest) := by
    intro sign whole hsign hwhole
    have hread := scanNumber_append (F := F) hsign hwhole (Or.inl rfl) (Or.inl rfl) hrest
    rw [if_pos ⟨rfl, rfl⟩] at hread
    exact hread
  cases n with
  | ofNat n =>
    have hread := hparts [] (natText n) (Or.inl rfl) (isInteger_natText n)
    rw [intOfText, if_pos rfl, natOfText_natText] at hread
    exact hread
  | negSucc n =>
    have hread := hparts ['-'] (natText (n + 1)) (Or.inr rfl) (isInteger_natText _)
    rw [intOfText, if_neg (List.cons_ne_nil _ _), natOfText_natText] at hread
    exact hread

omit [PyFloat F] in
theorem scanLiteral_eq_none {c : Char} (hc : c ≠ 'n' ∧ c ≠ 't' ∧ c ≠ 'f') (t : List Char) :
    scanLiteral (F := F) (c :: t) = none := by
  have hpre : ∀ (d : Char) (text : List Char), c ≠ d → (d :: text).isPrefixOf (c :: t) = false := by
    intro d text hne
    rw [List.isPrefixOf_cons_cons, beq_eq_false_iff_ne.mpr (Ne.symm hne), Bool.false_and]
  rw [scanLiteral, hpre _ _ hc.1, hpre _ _ hc.2.1, hpre _ _ hc.2.2]
  rfl

theorem scanConstant_append {text : List Char} (htext : text ∈ constants) {x : F}
    (hx : PyFloat.ofText text = some x) (rest : List Char) :
    scanNumber (F := F) (text ++ rest) = none ∧ scanConstant (text ++ rest) = some (.float x, rest) := by
  have hfound : ∀ s : List Char, (constants.find? fun t => t.isPrefixOf s) = some text →
      s.drop text.length = rest → scanConstant s = some (.float x, rest) := by
    intro s hfind hdrop
    rw [scanConstant, hfind, Option.bind_some, hx, Option.map_some, hdrop]
  simp only [constants, List.mem_cons, List.not_mem_nil, or_false] at htext
  rcases htext with rfl | rfl | rfl
  · exact ⟨rfl, hfound _ rfl rfl⟩
  · exact ⟨rfl, hfound _ rfl rfl⟩
  · exact ⟨rfl, hfound _ rfl rfl⟩

/-- A float is read back, as a number or as a constant. -/
theorem scan_repr (x : F) {rest : List Char} (hrest : NumberEnds rest) :
    (match scanNumber (F := F) (PyFloat.repr x ++ rest) with
      | some r => some r
      | none => scanConstant (PyFloat.repr x ++ rest)) = some (.float x, rest) := by
  have hround := PyFloat.ofText_repr x
  rcases PyFloat.repr_shape x with hconstant | ⟨sign, whole, frac, exp, htext, hsign, hwhole, hfrac, hexp, hreal⟩
  · obtain ⟨hnone, hread⟩ := scanConstant_append hconstant hround rest
    rw [hnone]
    exact hread
  · have hread := scanNumber_append (F := F) hsign hwhole hfrac hexp hrest
    rw [if_neg (fun h => hreal.elim (fun hne => hne h.1) fun hne => hne h.2), ← htext, hround] at hread
    have hsplit : PyFloat.repr x ++ rest = sign ++ (whole ++ (frac ++ (exp ++ rest))) := by
      rw [htext]
      simp only [List.append_assoc]
    rw [hsplit, hread]
    rfl

/-! ## Values are read back -/

mutual

/-- No object in the value has a key twice, as in a value of dictionaries. -/
def unique : Json F → Bool
  | .arr items => uniqueItems items
  | .obj fields => decide (fields.map Prod.fst).Nodup && uniqueFields fields
  | _ => true

def uniqueItems : List (Json F) → Bool
  | [] => true
  | v :: rest => unique v && uniqueItems rest

def uniqueFields : List (String × Json F) → Bool
  | [] => true
  | (_, v) :: rest => unique v && uniqueFields rest

end

omit [PyFloat F] in
theorem uniqueItems_eq_true {items : List (Json F)} :
    uniqueItems items = true ↔ ∀ v ∈ items, unique v = true := by
  induction items with
  | nil => simp [uniqueItems]
  | cons v rest ih => simp [uniqueItems, ih]

omit [PyFloat F] in
theorem uniqueFields_eq_true {fields : List (String × Json F)} :
    uniqueFields fields = true ↔ ∀ field ∈ fields, unique field.2 = true := by
  induction fields with
  | nil => simp [uniqueFields]
  | cons field rest ih =>
    obtain ⟨k, v⟩ := field
    simp only [uniqueFields, Bool.and_eq_true, ih, List.forall_mem_cons]

omit [PyFloat F] in
theorem setField_of_not_mem {key : String} {fields : List (String × Json F)}
    (h : key ∉ fields.map Prod.fst) (value : Json F) : setField key value fields = fields ++ [(key, value)] := by
  induction fields with
  | nil => rfl
  | cons field rest ih =>
    obtain ⟨k, v⟩ := field
    rw [List.map_cons, List.mem_cons, not_or] at h
    rw [setField, if_neg (Ne.symm h.1), ih h.2, List.cons_append]

omit [PyFloat F] in
/-- Pairs with different keys are the fields of their dictionary. -/
theorem ofPairs_of_nodup {pairs : List (String × Json F)} (h : (pairs.map Prod.fst).Nodup) :
    ofPairs pairs = pairs := by
  suffices hacc : ∀ (acc rest : List (String × Json F)), ((acc ++ rest).map Prod.fst).Nodup →
      rest.foldl (fun fields p => setField p.1 p.2 fields) acc = acc ++ rest from hacc [] pairs h
  intro acc rest
  induction rest generalizing acc with
  | nil => exact fun _ => (List.append_nil acc).symm
  | cons p rest ih =>
    intro hnodup
    rw [List.append_cons] at hnodup ⊢
    have hnot : p.1 ∉ acc.map Prod.fst := by
      rw [List.map_append, List.map_append, List.nodup_append, List.nodup_append] at hnodup
      intro hmem
      exact hnodup.1.2.2 _ hmem _ List.mem_cons_self rfl
    rw [List.foldl_cons, setField_of_not_mem hnot]
    exact ih _ hnodup

/-- A character that can begin a number or a constant. -/
def IsNumberHead (c : Char) : Prop := c.isDigit = true ∨ c ∈ ['-', 'N', 'I']

theorem numberHead_ne {c d : Char} (hc : IsNumberHead c) (hd : d.isDigit = false ∧ d ∉ ['-', 'N', 'I']) :
    c ≠ d := by
  rintro rfl
  rcases hc with hc | hc
  · rw [hd.1] at hc
    cases hc
  · exact hd.2 hc

theorem intText_head (n : Int) : ∃ c t, intText n = c :: t ∧ IsNumberHead c := by
  cases n with
  | ofNat n =>
    obtain ⟨d, t, h, hd⟩ := isInteger_head (isInteger_natText n)
    exact ⟨d, t, h, Or.inl hd⟩
  | negSucc n => exact ⟨'-', _, rfl, Or.inr List.mem_cons_self⟩

theorem repr_head (x : F) : ∃ c t, PyFloat.repr x = c :: t ∧ IsNumberHead c := by
  rcases PyFloat.repr_shape x with hconstant | ⟨sign, whole, frac, exp, htext, hsign, hwhole, -⟩
  · simp only [constants, List.mem_cons, List.not_mem_nil, or_false] at hconstant
    rcases hconstant with h | h | h
    · exact ⟨_, _, h, Or.inr (by decide)⟩
    · exact ⟨_, _, h, Or.inr (by decide)⟩
    · exact ⟨_, _, h, Or.inr (by decide)⟩
  · obtain ⟨d, t, rfl, hd⟩ := isInteger_head hwhole
    rcases hsign with rfl | rfl
    · exact ⟨d, _, htext, Or.inl hd⟩
    · exact ⟨'-', _, htext, Or.inr List.mem_cons_self⟩

/-- The first character of a value is no space and closes no array. -/
theorem dumps_head (sep : Separators) (v : Json F) :
    ∃ c t, dumps sep v = c :: t ∧ c ∉ [' ', '\t', '\n', '\r', ']'] := by
  have hnumber : ∀ {c : Char}, IsNumberHead c → c ∉ [' ', '\t', '\n', '\r', ']'] := by
    intro c hc hmem
    have hall : ∀ d ∈ [' ', '\t', '\n', '\r', ']'], d.isDigit = false ∧ d ∉ ['-', 'N', 'I'] := by decide
    exact numberHead_ne hc (hall c hmem) rfl
  cases v with
  | null => exact ⟨_, _, by rw [dumps], by decide⟩
  | bool b =>
    cases b with
    | true => exact ⟨_, _, by rw [dumps], by decide⟩
    | false => exact ⟨_, _, by rw [dumps], by decide⟩
  | int n =>
    obtain ⟨c, t, h, hc⟩ := intText_head n
    exact ⟨c, t, by rw [dumps, h], hnumber hc⟩
  | float x =>
    obtain ⟨c, t, h, hc⟩ := repr_head x
    exact ⟨c, t, by rw [dumps, h], hnumber hc⟩
  | str s => exact ⟨_, _, by rw [dumps, quote, List.cons_append], by decide⟩
  | arr items =>
    cases items with
    | nil => exact ⟨_, _, by rw [dumps], by decide⟩
    | cons v rest => exact ⟨_, _, by rw [dumps, List.cons_append, List.cons_append], by decide⟩
  | obj fields =>
    cases fields with
    | nil => exact ⟨_, _, by rw [dumps], by decide⟩
    | cons field rest =>
      obtain ⟨k, v⟩ := field
      exact ⟨_, _, by rw [dumps, List.cons_append, List.cons_append, List.cons_append, List.cons_append], by decide⟩

theorem skipSpace_of_head {c : Char} {t : List Char} (hc : c ∉ [' ', '\t', '\n', '\r']) :
    skipSpace (c :: t) = c :: t := by
  simp only [List.mem_cons, List.not_mem_nil, or_false, not_or] at hc
  rw [skipSpace, List.dropWhile_cons_of_neg]
  simp [hc]

theorem skipSpace_dumps (sep : Separators) (v : Json F) (t : List Char) :
    skipSpace (dumps sep v ++ t) = dumps sep v ++ t := by
  obtain ⟨c, rest, h, hc⟩ := dumps_head sep v
  rw [h, List.cons_append]
  refine skipSpace_of_head fun hmem => hc ?_
  have hwider : c ∈ [' ', '\t', '\n', '\r'] ++ [']'] := List.mem_append_left _ hmem
  exact hwider

/-- A number or a constant is read by the last branch. -/
theorem scanOnce_of_numberHead {c : Char} (hc : IsNumberHead c) (fuel : Nat) (t : List Char) :
    scanOnce (F := F) (fuel + 1) (c :: t) =
      match scanNumber (F := F) (c :: t) with
      | some r => some r
      | none => scanConstant (c :: t) := by
  have hne : ∀ d : Char, d.isDigit = false ∧ d ∉ ['-', 'N', 'I'] → c ≠ d := fun d hd => numberHead_ne hc hd
  rw [scanOnce, if_neg (hne '"' (by decide)), if_neg (hne '{' (by decide)), if_neg (hne '[' (by decide)),
    scanLiteral_eq_none ⟨hne 'n' (by decide), hne 't' (by decide), hne 'f' (by decide)⟩]

/-! ## Texts of `dumps` are read back -/

/-- Separators that the reader takes: the mark, then spaces. -/
structure Separators.Readable (sep : Separators) : Prop where
  item : ∃ spaces, sep.item = ',' :: spaces ∧ ∀ c ∈ spaces, c = ' '
  key : ∃ spaces, sep.key = ':' :: spaces ∧ ∀ c ∈ spaces, c = ' '

theorem Separators.default_readable : Separators.default.Readable :=
  ⟨⟨[' '], rfl, by decide⟩, ⟨[' '], rfl, by decide⟩⟩

theorem Separators.compact_readable : Separators.compact.Readable :=
  ⟨⟨[], rfl, by decide⟩, ⟨[], rfl, by decide⟩⟩

theorem skipSpace_spaces {spaces : List Char} (h : ∀ c ∈ spaces, c = ' ') (t : List Char) :
    skipSpace (spaces ++ t) = skipSpace t := by
  induction spaces with
  | nil => rfl
  | cons c rest ih =>
    rw [h c List.mem_cons_self, List.cons_append, skipSpace, List.dropWhile_cons_of_pos (by decide)]
    exact ih fun d hd => h d (List.mem_cons_of_mem c hd)

section

variable {sep : Separators} (hsep : sep.Readable)

/-- The value is read back before every text that does not go on with a number. -/
def ReadsBack (sep : Separators) (v : Json F) : Prop :=
  ∀ fuel rest, 2 * (dumps sep v).length < fuel → NumberEnds rest →
    scanOnce fuel (dumps sep v ++ rest) = some (v, rest)

theorem numberEnds_cons {c : Char} (hc : c ∈ [',', ']', '}']) (t : List Char) : NumberEnds (c :: t) := by
  intro d hd
  cases hd
  have hall : ∀ d ∈ [',', ']', '}'], d.isDigit = false ∧ d ≠ '.' ∧ d ≠ 'e' ∧ d ≠ 'E' := by decide
  exact hall c hc

include hsep

theorem numberEnds_items (items : List (Json F)) (t : List Char) :
    NumberEnds (dumpsItems sep items ++ ']' :: t) := by
  cases items with
  | nil => exact numberEnds_cons (by decide) t
  | cons v rest =>
    obtain ⟨spaces, hitem, -⟩ := hsep.item
    rw [dumpsItems, hitem, List.cons_append, List.cons_append, List.cons_append]
    exact numberEnds_cons (by decide) _

theorem numberEnds_fields (fields : List (String × Json F)) (t : List Char) :
    NumberEnds (dumpsFields sep fields ++ '}' :: t) := by
  cases fields with
  | nil => exact numberEnds_cons (by decide) t
  | cons field rest =>
    obtain ⟨spaces, hitem, -⟩ := hsep.item
    rw [dumpsFields, hitem]
    simp only [List.cons_append]
    exact numberEnds_cons (by decide) _

/-- The items of an array are read back. -/
theorem scanItems_dumps (v : Json F) (items : List (Json F)) (hv : ReadsBack sep v)
    (hitems : ∀ w ∈ items, ReadsBack sep w) (fuel : Nat)
    (hfuel : 2 * (dumps sep v ++ dumpsItems sep items).length + 1 < fuel) (rest : List Char) :
    scanItems fuel (dumps sep v ++ (dumpsItems sep items ++ ']' :: rest)) =
      some (v :: items, rest) := by
  induction items generalizing v fuel with
  | nil =>
    obtain ⟨fuel, rfl⟩ : ∃ n, fuel = n + 1 := ⟨fuel - 1, by omega⟩
    rw [List.length_append] at hfuel
    rw [scanItems, hv fuel _ (by omega) (numberEnds_items hsep [] rest)]
    rfl
  | cons w items ih =>
    obtain ⟨fuel, rfl⟩ : ∃ n, fuel = n + 1 := ⟨fuel - 1, by omega⟩
    obtain ⟨spaces, hitem, hspaces⟩ := hsep.item
    have hlength : (dumpsItems sep (w :: items)).length =
        1 + spaces.length + (dumps sep w ++ dumpsItems sep items).length := by
      rw [dumpsItems, List.append_assoc, List.length_append, hitem, List.length_cons, Nat.add_comm 1]
    rw [List.length_append, hlength] at hfuel
    have hread := ih w (hitems w List.mem_cons_self) (fun u hu => hitems u (List.mem_cons_of_mem _ hu))
      fuel (by omega)
    rw [scanItems, hv fuel _ (by omega) (numberEnds_items hsep _ rest)]
    have htext : skipSpace (dumpsItems sep (w :: items) ++ ']' :: rest) =
        ',' :: (spaces ++ (dumps sep w ++ (dumpsItems sep items ++ ']' :: rest))) := by
      rw [dumpsItems, hitem, List.append_assoc, List.append_assoc]
      rfl
    have hspace : skipSpace (spaces ++ (dumps sep w ++ (dumpsItems sep items ++ ']' :: rest))) =
        dumps sep w ++ (dumpsItems sep items ++ ']' :: rest) :=
      (skipSpace_spaces hspaces _).trans (skipSpace_dumps sep w _)
    simp only [htext]
    rw [if_neg (by decide), if_pos trivial, hspace, hread]
    rfl

omit hsep in
/-- A key is read back, up to its closing quote. -/
theorem scanKey (k : String) (t : List Char) :
    scanString ((k.toList.flatMap escape ++ '"' :: t).length + 1) (k.toList.flatMap escape ++ '"' :: t) =
      some (k.toList, t) := by
  refine scanString_quote k.toList ?_ t
  have hlength := length_le_flatMap_escape k.toList
  rw [List.length_append]
  omega

omit hsep in
theorem quote_append (s t : List Char) : quote s ++ t = '"' :: (s.flatMap escape ++ '"' :: t) := by
  rw [quote, List.cons_append, List.cons_append, List.append_assoc, List.singleton_append]

/-- The fields of an object are read back. -/
theorem scanPairs_dumps (k : String) (v : Json F) (fields : List (String × Json F)) (hv : ReadsBack sep v)
    (hfields : ∀ field ∈ fields, ReadsBack sep field.2) (fuel : Nat)
    (hfuel : 2 * (quote k.toList ++ (dumps sep v ++ dumpsFields sep fields)).length + 1 < fuel)
    (rest : List Char) :
    scanPairs fuel (quote k.toList ++ (sep.key ++ (dumps sep v ++
      (dumpsFields sep fields ++ '}' :: rest)))) = some ((k, v) :: fields, rest) := by
  obtain ⟨spaces, hkey, hspaces⟩ := hsep.key
  have hspace : ∀ t : List Char, skipSpace (spaces ++ (dumps sep v ++ t)) = dumps sep v ++ t :=
    fun t => (skipSpace_spaces hspaces _).trans (skipSpace_dumps sep v t)
  have hcolon : ∀ t : List Char, skipSpace (':' :: t) = ':' :: t := fun t => rfl
  induction fields generalizing k v fuel with
  | nil =>
    obtain ⟨fuel, rfl⟩ : ∃ n, fuel = n + 1 := ⟨fuel - 1, by omega⟩
    rw [List.length_append, List.length_append] at hfuel
    have hread := hv fuel ('}' :: rest) (by omega) (numberEnds_cons (by decide) rest)
    have hclose : skipSpace ('}' :: rest) = '}' :: rest := rfl
    rw [dumpsFields, List.nil_append, quote_append, scanPairs, if_pos rfl, scanKey, hkey]
    simp only [List.cons_append, hcolon, List.head?_cons, List.tail_cons, hspace, hread, hclose, if_pos trivial,
      String.ofList_toList]
  | cons field fields ih =>
    obtain ⟨k', v'⟩ := field
    obtain ⟨fuel, rfl⟩ : ∃ n, fuel = n + 1 := ⟨fuel - 1, by omega⟩
    obtain ⟨spaces', hitem, hspaces'⟩ := hsep.item
    have hlength : (dumpsFields sep ((k', v') :: fields)).length =
        2 + spaces'.length + spaces.length + (quote k'.toList ++ (dumps sep v' ++ dumpsFields sep fields)).length := by
      rw [dumpsFields, hitem, hkey]
      simp only [List.length_append, List.length_cons]
      omega
    rw [List.length_append, List.length_append, hlength] at hfuel
    have hnext := ih k' v' (hfields _ List.mem_cons_self)
      (fun field hf => hfields field (List.mem_cons_of_mem _ hf)) fuel (by omega)
      fun t => (skipSpace_spaces hspaces _).trans (skipSpace_dumps sep v' t)
    have hread := hv fuel (dumpsFields sep ((k', v') :: fields) ++ '}' :: rest) (by omega)
      (numberEnds_fields hsep _ rest)
    have htext : skipSpace (dumpsFields sep ((k', v') :: fields) ++ '}' :: rest) =
        ',' :: (spaces' ++ (quote k'.toList ++ (sep.key ++ (dumps sep v' ++
          (dumpsFields sep fields ++ '}' :: rest))))) := by
      rw [dumpsFields, hitem]
      simp only [List.append_assoc]
      rfl
    have hquote : skipSpace (spaces' ++ (quote k'.toList ++ (sep.key ++ (dumps sep v' ++
        (dumpsFields sep fields ++ '}' :: rest))))) = quote k'.toList ++ (sep.key ++
          (dumps sep v' ++ (dumpsFields sep fields ++ '}' :: rest))) := skipSpace_spaces hspaces' _
    rw [quote_append, scanPairs, if_pos rfl, scanKey]
    simp only [hkey, List.cons_append] at htext hquote hnext ⊢
    simp only [hcolon, List.head?_cons, List.tail_cons, hspace, hread, htext, if_pos trivial]
    rw [if_neg (by decide), hquote, hnext, String.ofList_toList]
    rfl

/-- Every value of dictionaries is read back. -/
theorem readsBack_of_unique (v : Json F) (hv : unique v = true) : ReadsBack sep v := by
  induction v using induction with
  | null =>
    intro fuel rest hfuel _
    obtain ⟨fuel, rfl⟩ : ∃ n, fuel = n + 1 := ⟨fuel - 1, by omega⟩
    rfl
  | bool b =>
    intro fuel rest hfuel _
    obtain ⟨fuel, rfl⟩ : ∃ n, fuel = n + 1 := ⟨fuel - 1, by omega⟩
    cases b with
    | true => rfl
    | false => rfl
  | int n =>
    intro fuel rest hfuel hrest
    obtain ⟨fuel, rfl⟩ : ∃ n, fuel = n + 1 := ⟨fuel - 1, by omega⟩
    obtain ⟨c, t, htext, hc⟩ := intText_head n
    have hread := scanNumber_intText (F := F) n hrest
    rw [htext] at hread
    rw [dumps, htext, List.cons_append, scanOnce_of_numberHead hc, ← List.cons_append, hread]
  | float x =>
    intro fuel rest hfuel hrest
    obtain ⟨fuel, rfl⟩ : ∃ n, fuel = n + 1 := ⟨fuel - 1, by omega⟩
    obtain ⟨c, t, htext, hc⟩ := repr_head x
    have hread := scan_repr x hrest
    rw [htext] at hread
    rw [dumps, htext, List.cons_append, scanOnce_of_numberHead hc, ← List.cons_append]
    exact hread
  | str s =>
    intro fuel rest hfuel _
    obtain ⟨fuel, rfl⟩ : ∃ n, fuel = n + 1 := ⟨fuel - 1, by omega⟩
    rw [dumps, quote_append, scanOnce, if_pos rfl, scanKey, Option.map_some, String.ofList_toList]
  | arr items ih =>
    intro fuel rest hfuel _
    obtain ⟨fuel, rfl⟩ : ∃ n, fuel = n + 1 := ⟨fuel - 1, by omega⟩
    rw [unique, uniqueItems_eq_true] at hv
    cases items with
    | nil => rfl
    | cons v items =>
      have hall : ∀ w ∈ v :: items, ReadsBack sep w := fun w hw => ih w hw (hv w hw)
      have htext : dumps sep (.arr (v :: items)) ++ rest =
          '[' :: (dumps sep v ++ (dumpsItems sep items ++ ']' :: rest)) := by
        rw [dumps]
        simp only [List.cons_append, List.append_assoc, List.nil_append]
      have hlength : (dumps sep (.arr (v :: items))).length =
          (dumps sep v ++ dumpsItems sep items).length + 2 := by
        rw [dumps]
        simp only [List.cons_append, List.length_append, List.length_cons, List.length_nil]
      rw [hlength] at hfuel
      have hread := scanItems_dumps hsep v items (hall v List.mem_cons_self)
        (fun w hw => hall w (List.mem_cons_of_mem _ hw)) fuel (by omega) rest
      rw [htext, scanOnce, if_neg (by decide), if_neg (by decide), if_pos rfl, skipSpace_dumps, if_neg, hread]
      · rfl
      · obtain ⟨c, t, hhead, hc⟩ := dumps_head sep v
        rw [hhead]
        intro h
        cases h
        exact hc (by decide)
  | obj fields ih =>
    intro fuel rest hfuel _
    obtain ⟨fuel, rfl⟩ : ∃ n, fuel = n + 1 := ⟨fuel - 1, by omega⟩
    rw [unique, Bool.and_eq_true, decide_eq_true_eq, uniqueFields_eq_true] at hv
    cases fields with
    | nil => rfl
    | cons field fields =>
      obtain ⟨k, v⟩ := field
      have hall : ∀ field ∈ (k, v) :: fields, ReadsBack sep field.2 := fun field hf => ih field hf (hv.2 field hf)
      have htext : dumps sep (.obj ((k, v) :: fields)) ++ rest =
          '{' :: (quote k.toList ++ (sep.key ++ (dumps sep v ++
            (dumpsFields sep fields ++ '}' :: rest)))) := by
        rw [dumps]
        simp only [List.cons_append, List.append_assoc]
        rfl
      have hlength : (dumps sep (.obj ((k, v) :: fields))).length =
          (quote k.toList ++ (dumps sep v ++ dumpsFields sep fields)).length + 2 + sep.key.length := by
        rw [dumps]
        simp only [List.cons_append, List.length_append, List.length_cons, List.length_nil]
        omega
      rw [hlength] at hfuel
      have hread := scanPairs_dumps hsep k v fields (hall _ List.mem_cons_self)
        (fun field hf => hall field (List.mem_cons_of_mem _ hf)) fuel (by omega) rest
      have hspace : ∀ t : List Char, skipSpace (quote k.toList ++ t) = quote k.toList ++ t := fun t => rfl
      have hopen : ∀ t : List Char, (quote k.toList ++ t).head? ≠ some '}' := fun t h => by cases h
      rw [htext, scanOnce, if_neg (by decide), if_pos rfl, hspace, if_neg (hopen _), hread, Option.map_some,
        ofPairs_of_nodup hv.1]

/-- **What `dumps` writes is read back as the same value**, with any readable separators. -/
theorem loads_dumps_readable {v : Json F} (hv : unique v = true) : loads (dumps sep v) = some v := by
  have hspace : skipSpace (dumps sep v) = dumps sep v := by
    have h := skipSpace_dumps sep v []
    rw [List.append_nil] at h
    exact h
  have hread := readsBack_of_unique hsep v hv (2 * (dumps sep v).length + 1) [] (by omega)
    fun c hc => nomatch hc
  rw [List.append_nil] at hread
  simp only [loads, hspace, hread]
  rfl

/-- Different values have different texts. -/
theorem dumps_injective {v w : Json F} (hv : unique v = true) (hw : unique w = true) (h : dumps sep v = dumps sep w) :
    v = w := by
  have hloads := loads_dumps_readable hsep hv
  rw [h, loads_dumps_readable hsep hw] at hloads
  exact (Option.some.inj hloads).symm

end

/-- **What `dumps` writes is read back as the same value.** -/
theorem loads_dumps {v : Json F} (hv : unique v = true) : loads (dumps .default v) = some v :=
  loads_dumps_readable Separators.default_readable hv

end CodexMemory.Json
