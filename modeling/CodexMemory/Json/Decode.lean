import CodexMemory.Json.Grammar

/-!
# `JSONDecoder.raw_decode`

The scanner of the grammar with the two ways in which Python's decoder fails: a `JSONDecodeError` where
the text is no value, and the `ValueError` of `int` where an integer has more than 4300 digits.

* `decode_toOption`: what is read is what the grammar's scanner reads;
* `decode_stable`: more fuel than the text needs changes nothing;
* `rawDecode_container`, `rawDecode_cut`: an object or an array is read whatever follows it, and nothing is
  read at the beginning of an object that is cut off.
-/

namespace CodexMemory.Json

/-- How a decoder fails. -/
inductive Failure
  | noValue
  | digits
  deriving DecidableEq

def orNoValue (rest : Option (List Char)) : Except Failure (List Char) :=
  match rest with
  | some rest => .ok rest
  | none => .error .noValue

/-- A value that is neither a string nor has parts. -/
def decodeAtom (s : List Char) : Except Failure (List Char) :=
  match scanAtom python s with
  | some rest => .ok rest
  | none => .error (if (scanDigits lax s).isSome then .digits else .noValue)

/-- What comes behind a member: the closing bracket, or a comma and another member. -/
def decodeNext (close : Char) (more : List Char → Except Failure (List Char)) : List Char → Except Failure (List Char)
  | [] => .error .noValue
  | mark :: rest =>
    if mark = close then .ok rest else if mark = ',' then more (skipSpace rest) else .error .noValue

/-- `scan_once`, and the loops of `JSONArray` and `JSONObject`. -/
def decode : Nat → Kind → List Char → Except Failure (List Char)
  | 0, _, _ => .error .noValue
  | _ + 1, _, [] => .error .noValue
  | fuel + 1, .value, c :: rest =>
    if c = '"' then orNoValue (scanBody (rest.length + 1) rest)
    else if c = '{' then
      if (skipSpace rest).head? = some '}' then .ok (skipSpace rest).tail else decode fuel .pairs (skipSpace rest)
    else if c = '[' then
      if (skipSpace rest).head? = some ']' then .ok (skipSpace rest).tail else decode fuel .items (skipSpace rest)
    else decodeAtom (c :: rest)
  | fuel + 1, .items, c :: rest =>
    (decode fuel .value (c :: rest)).bind fun s => decodeNext ']' (decode fuel .items) (skipSpace s)
  | fuel + 1, .pairs, c :: rest =>
    if c = '"' then
      (orNoValue (scanBody (rest.length + 1) rest)).bind fun s =>
        if (skipSpace s).head? = some ':' then
          (decode fuel .value (skipSpace (skipSpace s).tail)).bind fun s' =>
            decodeNext '}' (decode fuel .pairs) (skipSpace s')
        else .error .noValue
    else .error .noValue

/-- `raw_decode`: what is left behind the value at the beginning of the text. -/
def rawDecode (s : List Char) : Except Failure (List Char) := decode (2 * s.length + 1) .value s

/-! ## What is read -/

theorem toOption_bind {ε α β : Type} (x : Except ε α) (f : α → Except ε β) :
    (x.bind f).toOption = x.toOption.bind fun a => (f a).toOption := by cases x <;> rfl

theorem toOption_orNoValue (rest : Option (List Char)) : (orNoValue rest).toOption = rest := by cases rest <;> rfl

theorem orNoValue_ok {rest : Option (List Char)} {s : List Char} (h : orNoValue rest = .ok s) : rest = some s := by
  cases rest with
  | none => cases h
  | some rest =>
    cases h
    rfl

theorem toOption_eq_some {ε α : Type} {x : Except ε α} {a : α} : x.toOption = some a ↔ x = .ok a := by
  cases x <;> simp [Except.toOption]

theorem toOption_eq_none {ε α : Type} {x : Except ε α} : x.toOption = none ↔ ∃ e, x = .error e := by
  cases x <;> simp [Except.toOption]

theorem toOption_decodeAtom (s : List Char) : (decodeAtom s).toOption = scanAtom python s := by
  unfold decodeAtom
  cases scanAtom python s <;> rfl

theorem toOption_decodeNext {close : Char} {more : List Char → Except Failure (List Char)}
    {scanMore : List Char → Option (List Char)} (h : ∀ s, (more s).toOption = scanMore s) (s : List Char) :
    (decodeNext close more s).toOption =
      match s with
      | [] => none
      | mark :: rest => if mark = close then some rest else if mark = ',' then scanMore (skipSpace rest) else none := by
  cases s with
  | nil => rfl
  | cons mark rest =>
    simp only [decodeNext]
    split
    · rfl
    · split
      · exact h _
      · rfl

/-- **What is read is what the grammar's scanner reads.** -/
theorem decode_toOption (fuel : Nat) (kind : Kind) (s : List Char) :
    (decode fuel kind s).toOption = scan python fuel kind s := by
  induction fuel generalizing kind s with
  | zero => rfl
  | succ fuel ih =>
    cases s with
    | nil => cases kind <;> rfl
    | cons c rest =>
      cases kind with
      | value =>
        rw [decode, scan]
        split
        · exact toOption_orNoValue _
        · split
          · split
            · rfl
            · exact ih _ _
          · split
            · split
              · rfl
              · exact ih _ _
            · exact toOption_decodeAtom _
      | items =>
        rw [decode, scan, toOption_bind, ih]
        congr 1
        funext s
        exact toOption_decodeNext (ih .items) _
      | pairs =>
        rw [decode, scan]
        split
        · rw [toOption_bind, toOption_orNoValue]
          congr 1
          funext s
          split
          · rw [toOption_bind, ih]
            congr 1
            funext s'
            exact toOption_decodeNext (ih .pairs) _
          · rfl
        · rfl

theorem rawDecode_ok {s rest : List Char} : rawDecode s = .ok rest ↔ scan python (2 * s.length + 1) .value s = some rest := by
  rw [← decode_toOption, toOption_eq_some]
  rfl

/-- What is read has a character. -/
theorem decode_shorter {fuel : Nat} {kind : Kind} {s rest : List Char} (h : decode fuel kind s = .ok rest) :
    rest.length < s.length := by
  obtain ⟨v, rfl, hv⟩ := form_of_scan (decode_toOption fuel kind s ▸ toOption_eq_some.mpr h)
  obtain ⟨c, v, rfl, -⟩ := hv.head
  rw [List.length_append, List.length_cons]
  omega

/-! ## Fuel -/

/-- The fuel that a text of a length needs. -/
def need : Kind → Nat → Nat
  | .value, n => 2 * n
  | _, n => 2 * n + 1

theorem length_skipSpace_le (s : List Char) : (skipSpace s).length ≤ s.length := List.length_dropWhile_le _ _

theorem decodeNext_congr {close : Char} {more more' : List Char → Except Failure (List Char)} {s : List Char}
    (h : ∀ rest, rest.length < s.length → more rest = more' rest) : decodeNext close more s = decodeNext close more' s := by
  cases s with
  | nil => rfl
  | cons mark rest =>
    rw [decodeNext, decodeNext, h]
    rw [List.length_cons]
    exact Nat.lt_succ_of_le (length_skipSpace_le rest)

theorem bind_congr_ok {ε α β : Type} {x : Except ε α} {f g : α → Except ε β} (h : ∀ a, x = .ok a → f a = g a) :
    x.bind f = x.bind g := by
  cases x with
  | error e => rfl
  | ok a => exact h a rfl

/-- **More fuel changes nothing.** -/
theorem decode_stable {fuel fuel' : Nat} {kind : Kind} {s : List Char} (h : need kind s.length < fuel)
    (h' : need kind s.length < fuel') : decode fuel kind s = decode fuel' kind s := by
  induction fuel generalizing fuel' kind s with
  | zero => exact absurd h (Nat.not_lt_zero _)
  | succ fuel ih =>
    obtain ⟨fuel', rfl⟩ : ∃ n, fuel' = n + 1 := ⟨fuel' - 1, by omega⟩
    cases s with
    | nil => cases kind <;> rfl
    | cons c rest =>
      have hrest := length_skipSpace_le rest
      cases kind with
      | value =>
        simp only [need, List.length_cons] at h h'
        rw [decode, decode, @ih fuel' .pairs (skipSpace rest) (by simp only [need]; omega) (by simp only [need]; omega),
          @ih fuel' .items (skipSpace rest) (by simp only [need]; omega) (by simp only [need]; omega)]
      | items =>
        simp only [need, List.length_cons] at h h'
        rw [decode, decode, @ih fuel' .value (c :: rest) (by simp only [need, List.length_cons]; omega)
          (by simp only [need, List.length_cons]; omega)]
        refine bind_congr_ok fun s hs => decodeNext_congr fun next hnext => ?_
        have hshorter := decode_shorter hs
        have hspace := length_skipSpace_le s
        rw [List.length_cons] at hshorter
        exact ih (by simp only [need]; omega) (by simp only [need]; omega)
      | pairs =>
        simp only [need, List.length_cons] at h h'
        rw [decode, decode]
        split
        · refine bind_congr_ok fun s hs => ?_
          have hbody : s.length ≤ rest.length := by
            obtain ⟨b, rfl, -⟩ := body_of_scan (orNoValue_ok hs)
            simp
          have hspace := length_skipSpace_le s
          have hcolon : (skipSpace (skipSpace s).tail).length ≤ s.length :=
            (length_skipSpace_le _).trans (List.length_tail.trans_le (Nat.sub_le _ _) |>.trans hspace)
          rw [@ih fuel' .value (skipSpace (skipSpace s).tail) (by simp only [need]; omega) (by simp only [need]; omega)]
          split
          · refine bind_congr_ok fun s' hs' => decodeNext_congr fun next hnext => ?_
            have hshorter := decode_shorter hs'
            have hspace' := length_skipSpace_le s'
            exact ih (by simp only [need]; omega) (by simp only [need]; omega)
          · rfl
        · rfl

theorem rawDecode_stable {fuel : Nat} {s : List Char} (h : 2 * s.length < fuel) : decode fuel .value s = rawDecode s :=
  decode_stable h (Nat.lt_succ_self _)

/-! ## Integers -/

theorem scanInteger_head {c : Char} {s : List Char} {r : List Char × List Char} (h : scanInteger (c :: s) = some r) :
    c.isDigit = true := by
  rw [scanInteger] at h
  split at h
  · next hzero =>
    rw [hzero]
    rfl
  · split at h
    · next hdigit => exact hdigit
    · cases h

/-- A digit begins an integer with too many digits, or there is a sign before it. -/
theorem decode_digits {fuel : Nat} {c : Char} {s : List Char} (hc : c ≠ '{' ∧ c ≠ '[')
    (h : decode fuel .value (c :: s) = .error .digits) : c.isDigit = true ∨ ∃ d rest, s = d :: rest ∧ d.isDigit = true := by
  cases fuel with
  | zero => cases h
  | succ fuel =>
    rw [decode] at h
    split at h
    · cases hbody : scanBody (s.length + 1) s <;> rw [hbody] at h <;> cases h
    · rw [if_neg hc.1, if_neg hc.2, decodeAtom] at h
      split at h
      · cases h
      · by_cases hdigits : (scanDigits lax (c :: s)).isSome
        · rw [scanDigits] at hdigits
          simp only at hdigits
          split at hdigits
          · cases hdigits
          · next whole rest hinteger =>
            by_cases hsign : c = '-'
            · subst hsign
              cases s with
              | nil => cases hinteger
              | cons d rest => exact .inr ⟨d, rest, rfl, scanInteger_head hinteger⟩
            · have hhead : (c :: s).head? ≠ some '-' := fun heq => hsign (Option.some.inj heq)
              rw [if_neg hhead] at hinteger
              exact .inl (scanInteger_head hinteger)
        · rw [if_neg hdigits] at h
          cases h

/-- The last digit of an integer is read. -/
theorem rawDecode_digit {c : Char} {s : List Char} (hc : c.isDigit = true) (hs : ∀ d ∈ s.head?, d.isDigit = false) :
    ∃ after, rawDecode (c :: s) = .ok after := by
  have hne : ∀ d : Char, d.isDigit = false → c ≠ d := by
    rintro d hd rfl
    rw [hc] at hd
    cases hd
  have hwhole : scanInteger (c :: s) = some ([c], s) := by
    rw [scanInteger]
    split
    · next hzero => rw [hzero]
    · have htake : s.takeWhile Char.isDigit = [] ∧ s.dropWhile Char.isDigit = s := by
        cases s with
        | nil => exact ⟨rfl, rfl⟩
        | cons d s =>
          have hd := hs d rfl
          exact ⟨by rw [List.takeWhile_cons, hd]; rfl, by rw [List.dropWhile_cons, hd]; rfl⟩
      rw [htake.1, htake.2]
  have hdigits : ∃ after, scanDigits python (c :: s) = some after := by
    have hsign : (c :: s).head? ≠ some '-' := fun heq => hne '-' rfl (Option.some.inj heq)
    simp only [scanDigits, if_neg hsign, List.length_nil, List.drop_zero, hwhole]
    exact ⟨_, if_neg fun hall => absurd (show python.fits 1 = false from hall.2.2) (by decide)⟩
  obtain ⟨after, hafter⟩ := hdigits
  have hatom : ∃ after, scanAtom python (c :: s) = some after := by
    rw [scanAtom]
    split
    · exact ⟨_, rfl⟩
    · rw [hafter]
      exact ⟨_, rfl⟩
  obtain ⟨after, hafter⟩ := hatom
  refine ⟨after, ?_⟩
  rw [rawDecode, decode, if_neg (hne '"' rfl), if_neg (hne '{' rfl), if_neg (hne '[' rfl), decodeAtom, hafter]

/-! ## Objects and arrays -/

/-- The value is an object or an array. -/
def IsContainer (v : List Char) : Prop := v.head? = some '{' ∨ v.head? = some '['

instance (v : List Char) : Decidable (IsContainer v) :=
  inferInstanceAs (Decidable (v.head? = some '{' ∨ v.head? = some '['))

/-- **An object or an array ends by itself.** -/
theorem scan_container {d : Reader} {v : List Char} (h : Form d .value v) (hv : IsContainer v) {fuel : Nat}
    (hfuel : 2 * v.length < fuel) (t : List Char) : scan d fuel .value (v ++ t) = some t := by
  obtain ⟨fuel, rfl⟩ : ∃ n, fuel = n + 1 := ⟨fuel - 1, by omega⟩
  cases h with
  | literal h =>
    simp only [literals, List.mem_cons, List.not_mem_nil, or_false] at h
    rcases h with rfl | rfl | rfl <;> exact absurd hv (by decide)
  | constant h =>
    rw [Reader.constants] at h
    split at h
    · simp only [Json.constants, List.mem_cons, List.not_mem_nil, or_false] at h
      rcases h with rfl | rfl | rfl <;> exact absurd hv (by decide)
    · cases h
  | number h =>
    obtain ⟨c, rest, rfl, hc⟩ := isNumber_head h
    rcases hv with heq | heq
    · exact absurd (Option.some.inj heq) (numberHead_ne hc (by decide))
    · exact absurd (Option.some.inj heq) (numberHead_ne hc (by decide))
  | string h =>
    rcases hv with heq | heq
    · cases heq
    · cases heq
  | emptyArray hw =>
    rw [List.cons_append, List.append_assoc, List.singleton_append, scan, if_neg (by decide), if_neg (by decide),
      if_pos rfl, skipSpace_mark hw rfl, List.head?_cons, if_pos rfl, List.tail_cons]
  | @array w s hw h =>
    rw [List.length_cons, List.length_append] at hfuel
    rw [List.cons_append, List.append_assoc, scan, if_neg (by decide), if_neg (by decide), if_pos rfl, h.skipSpace hw,
      scan_form h (by rintro ⟨⟩) (by omega), if_neg]
    obtain ⟨c, rest, rfl, -, harray, -⟩ := h.head
    exact fun hclose => harray (Option.some.inj hclose)
  | emptyObject hw =>
    rw [List.cons_append, List.append_assoc, List.singleton_append, scan, if_neg (by decide), if_pos rfl,
      skipSpace_mark hw rfl, List.head?_cons, if_pos rfl, List.tail_cons]
  | @object w s hw h =>
    rw [List.length_cons, List.length_append] at hfuel
    rw [List.cons_append, List.append_assoc, scan, if_neg (by decide), if_pos rfl, h.skipSpace hw,
      scan_form h (by rintro ⟨⟩) (by omega), if_neg]
    obtain ⟨c, rest, rfl, -, -, hobject, -⟩ := h.head
    exact fun hclose => hobject (Option.some.inj hclose)

/-- What the decoder reads, it reads whatever follows. -/
theorem rawDecode_container {v : List Char} (h : Form python .value v) (hv : IsContainer v) (t : List Char) :
    rawDecode (v ++ t) = .ok t := by
  rw [rawDecode_ok]
  refine scan_container h hv ?_ t
  rw [List.length_append]
  omega

theorem isContainer_append {v t : List Char} (hne : v ≠ []) : IsContainer (v ++ t) ↔ IsContainer v := by
  obtain ⟨c, v, rfl⟩ := List.exists_cons_of_ne_nil hne
  rfl

/-- **Nothing is read of an object or an array that is cut off.** -/
theorem rawDecode_cut {v rest : List Char} (hrest : rest ≠ []) (h : Form lax .value (v ++ rest)) (hv : IsContainer (v ++ rest))
    (t : List Char) : rawDecode v ≠ .ok t := by
  intro hread
  obtain ⟨u, rfl, hu⟩ := form_of_scan (rawDecode_ok.mp hread)
  have hne : u ≠ [] := by
    obtain ⟨c, u, rfl, -⟩ := hu.head
    exact List.cons_ne_nil _ _
  rw [List.append_assoc] at h hv
  have hfuel : 2 * u.length < 2 * (u ++ (t ++ rest)).length + 1 := by
    rw [List.length_append]
    omega
  have hpart := scan_container hu.lax ((isContainer_append hne).mp hv) hfuel (t ++ rest)
  have hwhole := scan_container h hv (Nat.lt_succ_self _) []
  rw [List.append_nil, hpart, Option.some.injEq] at hwhole
  exact hrest (List.append_eq_nil_iff.mp hwhole).2

end CodexMemory.Json
