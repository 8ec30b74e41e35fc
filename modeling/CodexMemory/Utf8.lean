import Mathlib

/-!
# UTF-8 with errors

A text as bytes, and bytes as a text where some of them may be malformed.  The decoder
takes one byte after the other, and a malformed sequence ends where no character can go
on (`found`); `decode` refuses malformed bytes and `decodeIgnore` leaves them out.

* `decode_encode`: what was encoded is decoded;
* `decodeIgnore_take`, `decode_take`: of a character that was cut one leaves nothing,
  and the other refuses it;
* `longest_of_next`: the longest prefix of a text within a number of bytes.
-/

namespace CodexMemory.Utf8

/-- `text.encode("utf-8")` -/
def encode (text : List Char) : List UInt8 := text.flatMap String.utf8EncodeChar

/-! ## The decoder -/

/-- Where the decoder stands: between two characters, or within one, with the number that the bytes have given so
far, how many bytes it has to come, and the bounds of the next one. -/
inductive State
  | between
  | within (value owed low high : Nat)
  deriving DecidableEq

/-- The first byte of a character. -/
def lead (b : UInt8) : List (Option Char) × State :=
  let n := b.toNat
  if n < 0x80 then ([some (Char.ofNat n)], .between)
  else if n < 0xC2 then ([none], .between)
  else if n < 0xE0 then ([], .within (n - 0xC0) 1 0x80 0xBF)
  else if n < 0xF0 then ([], .within (n - 0xE0) 2 (if n = 0xE0 then 0xA0 else 0x80) (if n = 0xED then 0x9F else 0xBF))
  else if n < 0xF5 then ([], .within (n - 0xF0) 3 (if n = 0xF0 then 0x90 else 0x80) (if n = 0xF4 then 0x8F else 0xBF))
  else ([none], .between)

/-- One byte: what it completes, with `none` for a malformed sequence. -/
def feed : State → UInt8 → List (Option Char) × State
  | .between, b => lead b
  | .within value owed low high, b =>
    if low ≤ b.toNat ∧ b.toNat ≤ high then
      let value := value * 64 + (b.toNat - 0x80)
      if owed = 1 then ([some (Char.ofNat value)], .between) else ([], .within value (owed - 1) 0x80 0xBF)
    else (none :: (lead b).1, (lead b).2)

/-- What is found in bytes from a state on; a character that is not complete at their end is malformed. -/
def foundFrom : State → List UInt8 → List (Option Char)
  | .between, [] => []
  | .within _ _ _ _, [] => [none]
  | s, b :: rest => (feed s b).1 ++ foundFrom (feed s b).2 rest

def found (bytes : List UInt8) : List (Option Char) := foundFrom .between bytes

/-- `bytes.decode("utf-8")`; `none` is a `UnicodeDecodeError`. -/
def decode (bytes : List UInt8) : Option (List Char) :=
  if (found bytes).all Option.isSome then some ((found bytes).filterMap id) else none

/-- `bytes.decode("utf-8", errors="ignore")` -/
def decodeIgnore (bytes : List UInt8) : List Char := (found bytes).filterMap id

/-! ## Encoded texts -/

@[simp] theorem encode_nil : encode [] = [] := rfl

@[simp] theorem encode_cons (c : Char) (text : List Char) : encode (c :: text) = String.utf8EncodeChar c ++ encode text :=
  rfl

theorem encode_append (s t : List Char) : encode (s ++ t) = encode s ++ encode t := List.flatMap_append

theorem length_encode (text : List Char) : (encode text).length = (text.map Char.utf8Size).sum := by
  induction text with
  | nil => rfl
  | cons c text ih => rw [encode_cons, List.length_append, String.length_utf8EncodeChar, ih, List.map_cons, List.sum_cons]

/-! ## One character -/

theorem foundFrom_cons (s : State) (b : UInt8) (rest : List UInt8) :
    foundFrom s (b :: rest) = (feed s b).1 ++ foundFrom (feed s b).2 rest := by
  cases s <;> rfl

/-- Surrogates are no characters. -/
theorem char_range (c : Char) : c.toNat < 0xD800 ∨ 0xDFFF < c.toNat ∧ c.toNat < 0x110000 := c.valid

theorem toNat_ofNat {n : Nat} (h : n < 256) : (UInt8.ofNat n).toNat = n := by
  rw [UInt8.toNat_ofNat', Nat.mod_eq_of_lt h]

/-- The first byte of a character of two bytes. -/
theorem lead_two {n : Nat} (hlow : 0xC2 ≤ n) (hhigh : n < 0xE0) :
    lead (UInt8.ofNat n) = ([], .within (n - 0xC0) 1 0x80 0xBF) := by
  rw [lead, toNat_ofNat (by omega), if_neg (by omega), if_neg (by omega), if_pos hhigh]

theorem lead_three {n : Nat} (hlow : 0xE0 ≤ n) (hhigh : n < 0xF0) :
    lead (UInt8.ofNat n) =
      ([], .within (n - 0xE0) 2 (if n = 0xE0 then 0xA0 else 0x80) (if n = 0xED then 0x9F else 0xBF)) := by
  rw [lead, toNat_ofNat (by omega), if_neg (by omega), if_neg (by omega), if_neg (by omega), if_pos hhigh]

theorem lead_four {n : Nat} (hlow : 0xF0 ≤ n) (hhigh : n < 0xF5) :
    lead (UInt8.ofNat n) =
      ([], .within (n - 0xF0) 3 (if n = 0xF0 then 0x90 else 0x80) (if n = 0xF4 then 0x8F else 0xBF)) := by
  rw [lead, toNat_ofNat (by omega), if_neg (by omega), if_neg (by omega), if_neg (by omega), if_neg (by omega),
    if_pos hhigh]

/-- A byte within a character that is not the last one. -/
theorem feed_more {value owed low high n : Nat} (hlow : low ≤ n) (hhigh : n ≤ high) (hbyte : n < 256) (howed : owed ≠ 1) :
    feed (.within value owed low high) (UInt8.ofNat n) = ([], .within (value * 64 + (n - 0x80)) (owed - 1) 0x80 0xBF) := by
  rw [feed, toNat_ofNat hbyte, if_pos ⟨hlow, hhigh⟩, if_neg howed]

/-- The last byte of a character. -/
theorem feed_last {value low high n : Nat} (hlow : low ≤ n) (hhigh : n ≤ high) (hbyte : n < 256) :
    feed (.within value 1 low high) (UInt8.ofNat n) = ([some (Char.ofNat (value * 64 + (n - 0x80)))], .between) := by
  rw [feed, toNat_ofNat hbyte, if_pos ⟨hlow, hhigh⟩, if_pos rfl]

/-- The bytes give the character with the number `v`, and the first ones alone nothing. -/
structure Spells (v : Nat) (bytes : List UInt8) : Prop where
  whole : ∀ rest, foundFrom .between (bytes ++ rest) = some (Char.ofNat v) :: foundFrom .between rest
  cut : ∀ n, 0 < n → n < bytes.length → foundFrom .between (bytes.take n) = [none]

theorem spells_one {v : Nat} (h : v ≤ 0x7F) : Spells v [UInt8.ofNat v] where
  whole rest := by
    show foundFrom .between (UInt8.ofNat v :: rest) = _
    rw [foundFrom_cons, feed, lead, toNat_ofNat (by omega), if_pos (by omega)]
    rfl
  cut n hpos hlt := absurd hlt (Nat.not_lt.mpr hpos)

theorem spells_two {v : Nat} (hlow : 0x7F < v) (hhigh : v ≤ 0x7FF) :
    Spells v [UInt8.ofNat (v / 64 % 0x20 + 0xC0), UInt8.ofNat (v % 0x40 + 0x80)] := by
  have hlead := lead_two (n := v / 64 % 0x20 + 0xC0) (by omega) (by omega)
  have hvalue : (v / 64 % 0x20 + 0xC0 - 0xC0) * 64 + (v % 0x40 + 0x80 - 0x80) = v := by omega
  constructor
  · intro rest
    rw [List.cons_append, List.cons_append, List.nil_append, foundFrom_cons, feed, hlead, foundFrom_cons,
      feed_last (by omega) (by omega) (by omega), hvalue]
    rfl
  · intro n hpos hlt
    obtain rfl : n = 1 := by
      simp only [List.length_cons, List.length_nil] at hlt
      omega
    rw [List.take_succ_cons, List.take_zero, foundFrom_cons, feed, hlead]
    rfl

theorem spells_three {v : Nat} (hlow : 0x7FF < v) (hhigh : v ≤ 0xFFFF) (hsurrogate : v < 0xD800 ∨ 0xDFFF < v) :
    Spells v [UInt8.ofNat (v / 4096 % 0x10 + 0xE0), UInt8.ofNat (v / 64 % 0x40 + 0x80), UInt8.ofNat (v % 0x40 + 0x80)] := by
  have hlead := lead_three (n := v / 4096 % 0x10 + 0xE0) (by omega) (by omega)
  have hfirst : (if v / 4096 % 0x10 + 0xE0 = 0xE0 then 0xA0 else 0x80) ≤ v / 64 % 0x40 + 0x80 := by
    split <;> omega
  have hlast : v / 64 % 0x40 + 0x80 ≤ (if v / 4096 % 0x10 + 0xE0 = 0xED then 0x9F else 0xBF) := by
    split <;> omega
  have hvalue : ((v / 4096 % 0x10 + 0xE0 - 0xE0) * 64 + (v / 64 % 0x40 + 0x80 - 0x80)) * 64 +
      (v % 0x40 + 0x80 - 0x80) = v := by omega
  constructor
  · intro rest
    rw [List.cons_append, List.cons_append, List.cons_append, List.nil_append, foundFrom_cons, feed, hlead,
      foundFrom_cons, feed_more hfirst hlast (by omega) (by decide), foundFrom_cons,
      feed_last (by omega) (by omega) (by omega), hvalue]
    rfl
  · intro n hpos hlt
    obtain rfl | rfl : n = 1 ∨ n = 2 := by
      simp only [List.length_cons, List.length_nil] at hlt
      omega
    · rw [List.take_succ_cons, List.take_zero, foundFrom_cons, feed, hlead]
      rfl
    · rw [List.take_succ_cons, List.take_succ_cons, List.take_zero, foundFrom_cons, feed, hlead, foundFrom_cons,
        feed_more hfirst hlast (by omega) (by decide)]
      rfl

theorem spells_four {v : Nat} (hlow : 0xFFFF < v) (hhigh : v < 0x110000) :
    Spells v [UInt8.ofNat (v / 262144 % 0x08 + 0xF0), UInt8.ofNat (v / 4096 % 0x40 + 0x80),
      UInt8.ofNat (v / 64 % 0x40 + 0x80), UInt8.ofNat (v % 0x40 + 0x80)] := by
  have hlead := lead_four (n := v / 262144 % 0x08 + 0xF0) (by omega) (by omega)
  have hfirst : (if v / 262144 % 0x08 + 0xF0 = 0xF0 then 0x90 else 0x80) ≤ v / 4096 % 0x40 + 0x80 := by
    split <;> omega
  have hlast : v / 4096 % 0x40 + 0x80 ≤ (if v / 262144 % 0x08 + 0xF0 = 0xF4 then 0x8F else 0xBF) := by
    split <;> omega
  have hvalue : (((v / 262144 % 0x08 + 0xF0 - 0xF0) * 64 + (v / 4096 % 0x40 + 0x80 - 0x80)) * 64 +
      (v / 64 % 0x40 + 0x80 - 0x80)) * 64 + (v % 0x40 + 0x80 - 0x80) = v := by omega
  constructor
  · intro rest
    rw [List.cons_append, List.cons_append, List.cons_append, List.cons_append, List.nil_append, foundFrom_cons, feed,
      hlead, foundFrom_cons, feed_more hfirst hlast (by omega) (by decide), foundFrom_cons,
      feed_more (by omega) (by omega) (by omega) (by decide), foundFrom_cons,
      feed_last (by omega) (by omega) (by omega), hvalue]
    rfl
  · intro n hpos hlt
    obtain rfl | rfl | rfl : n = 1 ∨ n = 2 ∨ n = 3 := by
      simp only [List.length_cons, List.length_nil] at hlt
      omega
    · rw [List.take_succ_cons, List.take_zero, foundFrom_cons, feed, hlead]
      rfl
    · rw [List.take_succ_cons, List.take_succ_cons, List.take_zero, foundFrom_cons, feed, hlead, foundFrom_cons,
        feed_more hfirst hlast (by omega) (by decide)]
      rfl
    · rw [List.take_succ_cons, List.take_succ_cons, List.take_succ_cons, List.take_zero, foundFrom_cons, feed, hlead,
        foundFrom_cons, feed_more hfirst hlast (by omega) (by decide), foundFrom_cons,
        feed_more (by omega) (by omega) (by omega) (by decide)]
      rfl

/-- **Every character is spelled by its bytes.** -/
theorem spells_char (c : Char) : Spells c.toNat (String.utf8EncodeChar c) := by
  have hrange := char_range c
  unfold String.utf8EncodeChar
  rw [show c.val.toNat = c.toNat from rfl]
  generalize c.toNat = v at hrange
  simp only
  split
  · next hone => exact spells_one hone
  · next hone =>
    split
    · next htwo => exact spells_two (by omega) htwo
    · next htwo =>
      split
      · next hthree => exact spells_three (by omega) hthree (by omega)
      · next hthree => exact spells_four (by omega) (by omega)

/-! ## Texts -/

theorem found_encodeChar (c : Char) (rest : List UInt8) :
    found (String.utf8EncodeChar c ++ rest) = some c :: found rest := by
  rw [found, (spells_char c).whole, Char.ofNat_toNat]
  rfl

/-- **What was encoded is found.** -/
theorem found_encode_append (text : List Char) (rest : List UInt8) :
    found (encode text ++ rest) = text.map some ++ found rest := by
  induction text with
  | nil => rfl
  | cons c text ih =>
    rw [encode_cons, List.append_assoc, found_encodeChar, ih]
    rfl

/-- **Of a character that was cut nothing is left.** -/
theorem found_cut (c : Char) {n : Nat} (hpos : 0 < n) (hlt : n < c.utf8Size) :
    found ((String.utf8EncodeChar c).take n) = [none] :=
  (spells_char c).cut n hpos (by rw [String.length_utf8EncodeChar]; exact hlt)

/-- The bytes up to a place before or within the character that comes after `p`. -/
theorem found_take {p rest : List Char} {n : Nat} (hle : (encode p).length ≤ n)
    (hnext : ∀ c ∈ rest.head?, n < (encode p).length + c.utf8Size) (hwithin : n ≤ (encode (p ++ rest)).length) :
    found ((encode (p ++ rest)).take n) = p.map some ++ if n = (encode p).length then [] else [none] := by
  obtain ⟨k, rfl⟩ : ∃ k, n = (encode p).length + k := ⟨n - (encode p).length, by omega⟩
  rw [encode_append, List.take_length_add_append, found_encode_append]
  congr 1
  cases rest with
  | nil =>
    rw [List.append_nil] at hwithin
    obtain rfl : k = 0 := by omega
    rw [if_pos (by omega)]
    rfl
  | cons c rest =>
    have hlt : k < c.utf8Size := by
      have h := hnext c rfl
      omega
    rw [encode_cons, List.take_append_of_le_length (by rw [String.length_utf8EncodeChar]; omega)]
    by_cases hzero : k = 0
    · rw [if_pos (by omega), hzero]
      rfl
    · rw [if_neg (by omega), found_cut c (by omega) hlt]

@[simp] theorem filterMap_found (p : List Char) : (p.map some).filterMap id = p := by
  induction p with
  | nil => rfl
  | cons c p ih => rw [List.map_cons, List.filterMap_cons_some (by rfl), ih]

@[simp] theorem all_found (p : List Char) : (p.map some).all Option.isSome = true := by
  simp

/-- **What was encoded is decoded.** -/
theorem decode_encode (text : List Char) : decode (encode text) = some text := by
  have hfound : found (encode text) = text.map some := by
    have h := found_encode_append text []
    rwa [List.append_nil, show found [] = [] from rfl, List.append_nil] at h
  rw [decode, hfound, if_pos (all_found text), filterMap_found]

section

variable {p rest : List Char} {n : Nat}

/-- Malformed bytes at the end are left out. -/
theorem decodeIgnore_take (hle : (encode p).length ≤ n) (hnext : ∀ c ∈ rest.head?, n < (encode p).length + c.utf8Size)
    (hwithin : n ≤ (encode (p ++ rest)).length) : decodeIgnore ((encode (p ++ rest)).take n) = p := by
  rw [decodeIgnore, found_take hle hnext hwithin, List.filterMap_append, filterMap_found]
  split
  · exact List.append_nil p
  · exact List.append_nil p

/-- Bytes are refused unless they end where a character ends. -/
theorem decode_take (hle : (encode p).length ≤ n) (hnext : ∀ c ∈ rest.head?, n < (encode p).length + c.utf8Size)
    (hwithin : n ≤ (encode (p ++ rest)).length) :
    decode ((encode (p ++ rest)).take n) = if n = (encode p).length then some p else none := by
  rw [decode, found_take hle hnext hwithin]
  split
  · rw [List.append_nil, if_pos (all_found p), filterMap_found]
  · rw [List.all_append, if_neg (by simp)]

end

/-! ## The longest prefix that fits -/

/-- The longest prefix of a text, by whole characters, within a number of bytes. -/
structure Longest (limit : Nat) (text p : List Char) : Prop where
  isPrefix : p <+: text
  fits : (encode p).length ≤ limit
  longest : ∀ q, q <+: text → (encode q).length ≤ limit → q <+: p

theorem Longest.unique {limit : Nat} {text p q : List Char} (hp : Longest limit text p) (hq : Longest limit text q) :
    p = q :=
  (hq.longest p hp.isPrefix hp.fits).eq_of_length_le (hp.longest q hq.isPrefix hq.fits).length_le

/-- A prefix that also fits into less is the longest there. -/
theorem Longest.within {limit less : Nat} {text p : List Char} (h : Longest limit text p) (hle : less ≤ limit)
    (hfits : (encode p).length ≤ less) : Longest less text p :=
  ⟨h.isPrefix, hfits, fun q hq hless => h.longest q hq (Nat.le_trans hless hle)⟩

/-- **A prefix is the longest** where the character behind it does not fit. -/
theorem longest_of_next {p rest : List Char} {limit : Nat} (hle : (encode p).length ≤ limit)
    (hnext : ∀ c ∈ rest.head?, limit < (encode p).length + c.utf8Size) : Longest limit (p ++ rest) p := by
  refine ⟨List.prefix_append p rest, hle, fun q hq hfits => ?_⟩
  rcases List.prefix_or_prefix_of_prefix hq (List.prefix_append p rest) with h | h
  · exact h
  · obtain ⟨more, rfl⟩ := h
    cases more with
    | nil => exact (List.append_nil p).symm ▸ List.prefix_rfl
    | cons c more =>
      obtain ⟨tail, htail⟩ := (List.prefix_append_right_inj p).mp hq
      have hover := hnext c (by rw [← htail]; rfl)
      rw [encode_append, encode_cons, List.length_append, List.length_append, String.length_utf8EncodeChar] at hfits
      omega

end CodexMemory.Utf8
