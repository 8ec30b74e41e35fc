import CodexMemory.Tasks.Model
import CodexMemory.Utf8

/-!
# Texts cut to a number of bytes

`bounded_text` of `hook_events.py` and `_truncate` of `v14_service.py` on the bytes of
a text.  The one cuts anywhere and has the decoder leave out what is malformed; the
other takes away bytes from the end until the decoder takes the rest.

* `retry_take`: the loop of `_truncate` ends after at most three bytes;
* `boundedText_eq`, `truncate_eq`: both come to `clip`;
* `cut_to_bytes`: both leave the longest prefix that fits.
-/

namespace CodexMemory.ByteLimits

open Hooks Tasks Utf8

/-! ## The code -/

/-- `bounded_text` of a text; `sha256` is the hexadecimal digest of bytes. -/
def boundedText (table : WordTable) (sha256 : List UInt8 → String) (value : List Char) (limitBytes : Int) :
    BoundedText :=
  let text := redactCredentials table value
  let encoded := encode text
  if (encoded.length : Int) ≤ limitBytes then ⟨text, encoded.length, sha256 encoded, false⟩
  else
    let clipped := decodeIgnore (encoded.take (max 0 limitBytes).toNat)
    ⟨clipped, encoded.length, sha256 encoded, true⟩

/-- The loop of `_truncate`, in at most `fuel` rounds. -/
def retry : Nat → List UInt8 → Option (List Char)
  | 0, _ => none
  | fuel + 1, raw =>
    match decode raw with
    | some text => some text
    | none => retry fuel raw.dropLast

/-- `_truncate`, with at most `fuel` rounds of its loop. -/
def truncate (sha256 : List UInt8 → String) (fuel : Nat) (value : Option String) (limit : Int) : Option Summary :=
  match value with
  | none => some ⟨none, 0, none, false⟩
  | some value =>
    let encoded := encode value.toList
    let digest := sha256 encoded
    if (encoded.length : Int) ≤ limit then some ⟨some value, encoded.length, some digest, false⟩
    else
      let raw := encoded.take (max 0 (limit - (encode ['…']).length)).toNat
      (retry fuel raw).map fun text => ⟨some (String.ofList (text ++ ['…'])), encoded.length, some digest, true⟩

/-! ## The bytes of a prefix -/

theorem byteLength_eq (text : List Char) : byteLength text = (encode text).length := (length_encode text).symm

/-- The character behind a clipped text does not fit. -/
theorem clip_next (limit : Nat) (text : List Char) : ∃ rest, text = clip limit text ++ rest ∧
    ∀ c ∈ rest.head?, limit < byteLength (clip limit text) + c.utf8Size := by
  induction text generalizing limit with
  | nil => exact ⟨[], rfl, nofun⟩
  | cons c text ih =>
    rw [clip]
    split
    · next hfits =>
      obtain ⟨rest, htext, hnext⟩ := ih (limit - c.utf8Size)
      refine ⟨rest, by rw [List.cons_append, ← htext], fun d hd => ?_⟩
      have h := hnext d hd
      simp only [byteLength, List.map_cons, List.sum_cons] at h ⊢
      omega
    · next hfits =>
      refine ⟨c :: text, rfl, ?_⟩
      rintro _ ⟨⟩
      simp only [byteLength, List.map_nil, List.sum_nil]
      omega

/-- **A clipped text is the longest prefix that fits.** -/
theorem longest_clip (limit : Nat) (text : List Char) : Longest limit text (clip limit text) := by
  obtain ⟨rest, htext, hnext⟩ := clip_next limit text
  rw [byteLength_eq] at hnext
  have h := longest_of_next (byteLength_eq _ ▸ clip_length_le limit text) hnext
  rwa [← htext] at h

theorem decodeIgnore_clip {limit : Nat} {text : List Char} (h : limit ≤ (encode text).length) :
    decodeIgnore ((encode text).take limit) = clip limit text := by
  obtain ⟨rest, htext, hnext⟩ := clip_next limit text
  rw [byteLength_eq] at hnext
  have hdecoded := decodeIgnore_take (longest_clip limit text).fits hnext (by rw [← htext]; exact h)
  rwa [← htext] at hdecoded

theorem decode_clip {limit : Nat} {text : List Char} (h : limit ≤ (encode text).length) :
    decode ((encode text).take limit) =
      if limit = (encode (clip limit text)).length then some (clip limit text) else none := by
  obtain ⟨rest, htext, hnext⟩ := clip_next limit text
  rw [byteLength_eq] at hnext
  have hdecoded := decode_take (longest_clip limit text).fits hnext (by rw [← htext]; exact h)
  rwa [← htext] at hdecoded

/-! ## The loop -/

/-- A cut is within three bytes of the end of a character. -/
theorem cut_near {limit : Nat} {text : List Char} (h : limit ≤ (encode text).length) :
    limit ≤ (encode (clip limit text)).length + 3 := by
  obtain ⟨rest, htext, hnext⟩ := clip_next limit text
  rw [byteLength_eq] at hnext
  cases rest with
  | nil =>
    rw [List.append_nil] at htext
    rw [← htext]
    omega
  | cons c rest =>
    have hover := hnext c rfl
    have hsize := Char.utf8Size_le_four c
    omega

/-- **The loop ends**, with the longest prefix that fits. -/
theorem retry_take {fuel limit : Nat} {text : List Char} (h : limit < (encode text).length)
    (hfuel : limit < (encode (clip limit text)).length + fuel) :
    retry fuel ((encode text).take limit) = some (clip limit text) := by
  induction fuel generalizing limit with
  | zero => exact absurd (longest_clip limit text).fits (Nat.not_le.mpr hfuel)
  | succ fuel ih =>
    rw [retry, decode_clip (Nat.le_of_lt h)]
    by_cases hend : limit = (encode (clip limit text)).length
    · rw [if_pos hend]
    · rw [if_neg hend]
      have hfits := (longest_clip limit text).fits
      -- the prefix is the same for one byte less
      have hsame : clip (limit - 1) text = clip limit text :=
        (longest_clip (limit - 1) text).unique ((longest_clip limit text).within (Nat.sub_le limit 1) (by omega))
      show retry fuel ((encode text).take limit).dropLast = _
      rw [List.dropLast_take h, ← hsame]
      exact ih (by omega) (by rw [hsame]; omega)

/-! ## What the two functions leave -/

/-- The bytes that the ellipsis takes. -/
theorem length_ellipsis : (encode ['…']).length = 3 := by decide

theorem boundedText_eq (table : WordTable) (sha256 : List UInt8 → String) (value : List Char) (limit : Nat) :
    boundedText table sha256 value limit =
      Hooks.boundedText table (fun text => sha256 (encode text.toList)) value limit := by
  unfold boundedText Hooks.boundedText
  simp only [byteLength_eq, String.toList_ofList, Int.ofNat_le]
  split
  · rfl
  · next hlarge =>
    have hroom : (max 0 (limit : Int)).toNat = limit := by omega
    rw [hroom, decodeIgnore_clip (by omega)]

/-- What `_truncate` returns of a text that does not fit. -/
theorem truncate_cut (sha256 : List UInt8 → String) {fuel limit : Nat} {text : String}
    (hlarge : limit < (encode text.toList).length) (hfuel : 4 ≤ fuel) :
    truncate sha256 fuel (some text) limit =
      some ⟨some (String.ofList (clip (limit - (encode ['…']).length) text.toList ++ ['…'])),
        (encode text.toList).length, some (sha256 (encode text.toList)), true⟩ := by
  have hroom : (max 0 ((limit : Int) - ((encode ['…']).length : Int))).toNat = limit - (encode ['…']).length := by
    omega
  have hnear : limit - (encode ['…']).length ≤
      (encode (clip (limit - (encode ['…']).length) text.toList)).length + 3 := cut_near (by omega)
  have hlength := length_ellipsis
  unfold truncate
  simp only [Int.ofNat_le]
  rw [if_neg (by omega), hroom, retry_take (by omega) (by omega)]
  rfl

theorem truncate_eq {F : Type} {host : Tasks.Host F} {sha256 : List UInt8 → String}
    (hsha256 : ∀ text, host.sha256 text = sha256 (encode text.toList)) {fuel : Nat} (hfuel : 4 ≤ fuel)
    (value : Option String) (limit : Nat) :
    truncate sha256 fuel value limit = some (Tasks.truncate host value limit) := by
  cases value with
  | none => rfl
  | some text =>
    unfold Tasks.truncate
    simp only [byteLength_eq, hsha256]
    split
    · next hfits => rw [truncate, if_pos (Int.ofNat_le.mpr hfits)]
    · next hlarge => exact truncate_cut sha256 (Nat.not_le.mp hlarge) hfuel

/-! ## Cut to a number of bytes -/

/-- What is left of a text within a number of bytes, where `mark` is put behind a text that was cut. -/
structure CutTo (sha256 : List UInt8 → String) (limit : Int) (mark full value : List Char) (length : Nat)
    (digest : String) (truncated : Bool) : Prop where
  within : ((encode value).length : Int) ≤ limit
  whole : truncated = false → value = full
  longest : truncated = true → ∃ p, Longest (limit - (encode mark).length).toNat full p ∧ value = p ++ mark
  flag : truncated = true ↔ limit < (encode full).length
  cut : truncated = true ↔ value ≠ full
  length_eq : length = (encode full).length
  digest_eq : digest = sha256 (encode full)

theorem cutTo_whole (sha256 : List UInt8 → String) {limit : Nat} (mark : List Char) {full : List Char}
    (h : (encode full).length ≤ limit) :
    CutTo sha256 limit mark full full (encode full).length (sha256 (encode full)) false where
  within := Int.ofNat_le.mpr h
  whole _ := rfl
  longest := nofun
  flag := iff_of_false nofun (by omega)
  cut := iff_of_false nofun fun hne => hne rfl
  length_eq := rfl
  digest_eq := rfl

theorem cutTo_clip (sha256 : List UInt8 → String) {limit : Nat} (mark : List Char) {full : List Char}
    (hmark : (encode mark).length ≤ limit) (h : limit < (encode full).length) :
    CutTo sha256 limit mark full (clip (limit - (encode mark).length) full ++ mark) (encode full).length
      (sha256 (encode full)) true := by
  have hroom : ((limit : Int) - ((encode mark).length : Int)).toNat = limit - (encode mark).length := by omega
  have hlongest := longest_clip (limit - (encode mark).length) full
  have hwithin : (encode (clip (limit - (encode mark).length) full ++ mark)).length ≤ limit := by
    have hfits := hlongest.fits
    rw [encode_append, List.length_append]
    omega
  refine ⟨Int.ofNat_le.mpr hwithin, nofun, fun _ => ⟨_, hroom ▸ hlongest, rfl⟩,
    iff_of_true rfl (Int.ofNat_lt.mpr h), iff_of_true rfl fun hsame => ?_, rfl, rfl⟩
  rw [hsame] at hwithin
  omega

/-- **Texts are cut to a number of bytes, by whole characters.**  Both functions return, `_truncate` after at most
four rounds, and what they return is the text or its longest prefix that fits, with the length and the digest of
the whole text. -/
theorem cut_to_bytes (table : WordTable) (sha256 : List UInt8 → String) (limit : Int) :
    (0 ≤ limit → ∀ value : List Char, ∃ bounded : BoundedText, boundedText table sha256 value limit = bounded ∧
      CutTo sha256 limit [] (redactCredentials table value) bounded.value bounded.length bounded.sha256
        bounded.truncated) ∧
    (3 ≤ limit → ∀ value : String, ∃ text length digest truncated,
      (∀ fuel, 4 ≤ fuel → truncate sha256 fuel (some value) limit = some ⟨some text, length, some digest, truncated⟩) ∧
      CutTo sha256 limit ['…'] value.toList text.toList length digest truncated) := by
  constructor
  · intro hlimit value
    lift limit to Nat using hlimit
    refine ⟨_, rfl, ?_⟩
    rw [boundedText_eq]
    unfold Hooks.boundedText
    simp only [byteLength_eq, String.toList_ofList]
    split
    · next hfits => exact cutTo_whole sha256 [] hfits
    · next hlarge =>
      have hcut := cutTo_clip sha256 [] (Nat.zero_le limit) (Nat.not_le.mp hlarge)
      rwa [List.append_nil] at hcut
  · intro hlimit value
    lift limit to Nat using by omega
    by_cases hfits : (encode value.toList).length ≤ limit
    · refine ⟨value, _, _, false, fun fuel _ => ?_, cutTo_whole sha256 ['…'] hfits⟩
      rw [truncate, if_pos (Int.ofNat_le.mpr hfits)]
    · have hmark : (encode ['…']).length ≤ limit := by
        rw [length_ellipsis]
        omega
      have hcut := cutTo_clip sha256 ['…'] hmark (Nat.not_le.mp hfits)
      refine ⟨_, _, _, true, fun fuel hfuel => truncate_cut sha256 (Nat.not_le.mp hfits) hfuel, ?_⟩
      rwa [String.toList_ofList]

/-- The digest of the text below. -/
def digest : List UInt8 → String := fun _ => "00dacf6e51ec0cc22bd5b2492710d51a7376eb59f098dc2b60837488aec21f42"

/-- Four bytes end inside the third character; without the ellipsis one byte is left. -/
theorem cut_to_four :
    boundedText asciiTable digest "aé😀b".toList 4 = ⟨"aé".toList, 8, digest [], true⟩ ∧
      CutTo digest 4 [] "aé😀b".toList "aé".toList 8 (digest []) true ∧
      truncate digest 4 (some "aé😀b") 4 = some ⟨some "a…", 8, some (digest []), true⟩ ∧
      CutTo digest 4 ['…'] "aé😀b".toList "a…".toList 8 (digest []) true := by
  obtain ⟨hbounded, htruncated⟩ := cut_to_bytes asciiTable digest 4
  obtain ⟨_, rfl, hcut⟩ := hbounded (by decide) "aé😀b".toList
  obtain ⟨text, length, hash, truncated, hreturns, hcut'⟩ := htruncated (by decide) "aé😀b"
  have hplain : redactCredentials asciiTable "aé😀b".toList = "aé😀b".toList := by decide
  have hvalue : boundedText asciiTable digest "aé😀b".toList 4 = ⟨"aé".toList, 8, digest [], true⟩ := by
    have hlength : (encode "aé😀b".toList).length = 8 := by decide
    have hclipped : decodeIgnore ((encode "aé😀b".toList).take 4) = "aé".toList := by decide
    unfold boundedText
    simp only [hplain, hlength]
    rw [if_neg (by decide), show (max 0 (4 : Int)).toNat = 4 from rfl, hclipped]
    rfl
  have hsummary : truncate digest 4 (some "aé😀b") 4 = some ⟨some "a…", 8, some (digest []), true⟩ := by decide
  rw [hvalue, hplain] at hcut
  have hsame := (hreturns 4 (Nat.le_refl 4)).symm.trans hsummary
  simp only [Option.some.injEq, Summary.mk.injEq] at hsame
  obtain ⟨rfl, rfl, rfl, rfl⟩ := hsame
  exact ⟨hvalue, hcut, hsummary, hcut'⟩

end CodexMemory.ByteLimits
