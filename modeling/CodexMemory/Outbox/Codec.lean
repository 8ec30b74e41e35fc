import CodexMemory.Outbox.Model
import CodexMemory.Json.Strings

/-!
# The lines of the outbox files

`json.dumps` with `ensure_ascii=False` leaves three characters as they are at
which `str.splitlines` ends a line.  A record without them is one line, and what
is written line by line is read back.

* `recordsOfText_recordLine`: a storable record is read back from its line;
* `recordsOfText_append`: a text that begins a line is read by itself;
* `readRecords_lines`: what the writers write is what the reader reads.
-/

namespace CodexMemory.Outbox

variable {F : Type}

/-! ## Storable records -/

/-- A character at which a line ends although `json.dumps` writes it as it is:
U+0085, U+2028 or U+2029. -/
def endsLineUnescaped (c : Char) : Bool := isLineBreak c && decide (0x20 ≤ c.toNat)

def isPlainText (s : String) : Bool := s.toList.all fun c => !endsLineUnescaped c

/-- No string and no key of the value has such a character. -/
def isPlain (v : Json F) : Bool := (Json.strings v).all isPlainText

def hasPayload (record : Fields F) : Bool :=
  match record.lookup "payload" with
  | some (.obj _) => true
  | _ => false

/-- A record that the codec keeps: one line, without a key twice, with a payload. -/
def isStorable (record : Fields F) : Bool :=
  isPlain (.obj record) && Json.unique (.obj record) && hasPayload record

theorem not_isLineBreak_of_isTextOf {strs : List String}
    (hstrs : ∀ s ∈ strs, ∀ c ∈ s.toList, endsLineUnescaped c = false) {c : Char} (hc : Json.IsTextOf strs c) :
    isLineBreak c = false := by
  rcases hc with ⟨hlow, hhigh⟩ | ⟨s, hs, hc, hlow⟩
  · simp only [isLineBreak, Bool.or_eq_false_iff, Bool.and_eq_false_iff, decide_eq_false_iff_not,
      beq_eq_false_iff_ne]
    omega
  · have hplain := hstrs s hs c hc
    rw [endsLineUnescaped, decide_eq_true hlow, Bool.and_true] at hplain
    exact hplain

theorem isPlainText_eq_true {s : String} :
    isPlainText s = true ↔ ∀ c ∈ s.toList, endsLineUnescaped c = false := by
  simp [isPlainText]

theorem isPlain_eq_true {v : Json F} : isPlain v = true ↔ ∀ s ∈ Json.strings v, isPlainText s = true := by
  simp [isPlain]

variable [Json.PyFloat F]

/-- **A storable record is read back from its line.** -/
theorem recordsOfText_recordLine {record : Fields F} (h : isStorable record = true) :
    recordsOfText (recordLine record) = [record] := by
  rw [isStorable, Bool.and_eq_true, Bool.and_eq_true] at h
  obtain ⟨⟨hplain, hunique⟩, hpayload⟩ := h
  have hline : ∀ c ∈ Json.dumps .default (.obj record), isLineBreak c = false := fun c hc =>
    not_isLineBreak_of_isTextOf (fun s hs => isPlainText_eq_true.mp (isPlain_eq_true.mp hplain s hs))
      (Json.mem_dumps _ c hc)
  have hrecord : recordOfLine (Json.dumps .default (.obj record)) = some record := by
    rw [recordOfLine, Json.loads_dumps hunique]
    rw [hasPayload] at hpayload
    simp only
    split at hpayload
    · next fields hfields => simp only [hfields]
    · cases hpayload
  rw [recordsOfText, recordLine, readLines_line hline, List.filterMap_cons_some hrecord, List.filterMap_nil]

/-- **A text that begins a line is read by itself.** -/
theorem recordsOfText_append {t : List Char} (ht : AtLineStart t) (u : List Char) :
    recordsOfText (F := F) (t ++ u) = recordsOfText t ++ recordsOfText u := by
  rw [recordsOfText, readLines_append ht, List.filterMap_append]
  rfl

theorem recordLine_atLineStart (record : Fields F) : AtLineStart (recordLine record) := Or.inr ⟨_, rfl⟩

theorem lines_atLineStart (records : List (Fields F)) : AtLineStart (records.flatMap recordLine) := by
  induction records with
  | nil => exact Or.inl rfl
  | cons record records ih =>
    rw [List.flatMap_cons]
    exact atLineStart_append (recordLine_atLineStart record) ih

theorem recordsOfText_lines (records : List (Fields F)) :
    recordsOfText (F := F) (records.flatMap recordLine) =
      records.flatMap fun r => recordsOfText (recordLine r) := by
  induction records with
  | nil => rfl
  | cons record records ih =>
    rw [List.flatMap_cons, recordsOfText_append (recordLine_atLineStart record), ih, List.flatMap_cons]

/-! ## Bytes -/

omit [Json.PyFloat F] in
theorem encode_append (t u : List Char) : encode (t ++ u) = encode t ++ encode u := by
  rw [encode, encode, encode, String.ofList_append]
  exact String.toByteArray_append

omit [Json.PyFloat F] in
theorem fromUTF8?_encode (t : List Char) : String.fromUTF8? (encode t) = some (String.ofList t) := by
  have hvalid : (encode t).IsValidUTF8 := (String.ofList t).isValidUTF8
  rw [String.fromUTF8?, dif_pos hvalid]
  rfl

omit [Json.PyFloat F] in
/-- Bytes that are a text are the text of its characters. -/
theorem exists_encode {bytes : ByteArray} (h : bytes.IsValidUTF8) : ∃ t, bytes = encode t := by
  refine ⟨(String.fromUTF8 bytes h).toList, ?_⟩
  rw [encode, String.ofList_toList]
  rfl

omit [Json.PyFloat F] in
theorem encode_injective {t u : List Char} (h : encode t = encode u) : t = u := by
  have hread := fromUTF8?_encode t
  rw [h, fromUTF8?_encode u] at hread
  exact (String.ofList_injective (Option.some.inj hread)).symm

theorem readRecords_encode (t : List Char) : readRecords (F := F) (encode t) = some (recordsOfText t) := by
  rw [readRecords, fromUTF8?_encode, Option.map_some, String.toList_ofList]

/-- **The reader is a left inverse of the writers** on storable records. -/
theorem readRecords_lines {records : List (Fields F)} (h : ∀ r ∈ records, isStorable r = true) :
    readRecords (encode (records.flatMap recordLine)) = some records := by
  rw [readRecords_encode, recordsOfText_lines]
  congr 1
  induction records with
  | nil => rfl
  | cons record records ih =>
    rw [List.flatMap_cons, recordsOfText_recordLine (h record List.mem_cons_self),
      ih fun r hr => h r (List.mem_cons_of_mem _ hr), List.singleton_append]

end CodexMemory.Outbox
