import CodexMemory.Json.Decode
import CodexMemory.Sorting
import Mathlib.Data.List.DropRight
import Mathlib.Data.List.Lex
import Mathlib.Data.String.Basic
import Mathlib.Data.Sum.Order

/-!
# The last verified document of a message

`_iter_json_documents` reads the values of a text one after the other; where none begins it goes on at the
next brace or bracket.  `_last_verified_json` takes the last one that has no errors.

* `iter_message`: the documents of a message are read, and behind them what its cut-off object has inside;
* `verified_iff`: when the last document is returned;
* `iter_eq_nil_iff`: when a cut-off object has nothing inside.
-/

namespace CodexMemory.CodexCli

open Json

variable {α : Type}

/-! ## `_iter_json_documents` -/

/-- A value that is read, and how many characters there are from its first one to the end of the text. -/
structure Document (α : Type) where
  left : Nat
  value : α

inductive Error
  | value (message : String)
  | parse (message : String)
  | schema (message : String) (candidateCount : Nat) (detail : Option (String × String))

/-- The decoder's `ValueError`. -/
def tooManyDigits : Error := .value "Exceeds the limit (4300 digits) for integer string conversion"

/-- What is left from the next brace or bracket on. -/
def nextBrace (s : List Char) : List Char := s.dropWhile fun c => c ≠ '{' && c ≠ '['

theorem length_dropWhile_lt {p : Char → Bool} {c : Char} {rest s : List Char} (h : s.dropWhile isSpace = c :: rest) :
    (rest.dropWhile p).length < s.length := by
  have hspace : (s.dropWhile isSpace).length ≤ s.length := List.length_dropWhile_le _ _
  have hrest : (rest.dropWhile p).length ≤ rest.length := List.length_dropWhile_le _ _
  rw [h, List.length_cons] at hspace
  omega

/-- `_iter_json_documents` from a place on; `value` is what the decoder makes of the text of a value. -/
def iterJsonDocuments (value : List Char → α) (s : List Char) : Except Error (List (Document α)) :=
  match _hs : s.dropWhile isSpace with
  | [] => .ok []
  | c :: rest =>
    match _hread : rawDecode (c :: rest) with
    | .error .noValue => if (nextBrace rest) = [] then .ok [] else iterJsonDocuments value (nextBrace rest)
    | .error .digits => .error tooManyDigits
    | .ok after =>
      (iterJsonDocuments value after).map fun documents =>
        ⟨(c :: rest).length, value ((c :: rest).take ((c :: rest).length - after.length))⟩ :: documents
  termination_by s.length
  decreasing_by
    · exact length_dropWhile_lt _hs
    · have hshorter := decode_shorter _hread
      have hspace : (s.dropWhile isSpace).length ≤ s.length := List.length_dropWhile_le _ _
      rw [_hs] at hspace
      omega

/-! ## `_last_verified_json` -/

/-- An error of the validator: the keys and indexes of its place, and its message. -/
structure ValidationError where
  absolutePath : List (Nat ⊕ₗ String)
  message : String

/-- `_error_path` -/
def errorPath (error : ValidationError) : String :=
  error.absolutePath.foldl (fun text item =>
    match ofLex item with
    | .inl index => text ++ "[" ++ toString index ++ "]"
    | .inr key => text ++ "." ++ key) "$"

/-- The validator of a schema, and `redact_sensitive`. -/
structure Validator (α : Type) where
  iterErrors : α → List ValidationError
  redactSensitive : String → String

def Validator.satisfies (validator : Validator α) (value : α) : Bool := (validator.iterErrors value).isEmpty

/-- The last valid document and the first error of the last one that is not. -/
structure Verified (α : Type) where
  lastValid : Option (Document α) := none
  lastError : Option ValidationError := none

def Validator.check (validator : Validator α) (state : Verified α) (document : Document α) : Verified α :=
  match sortBy ValidationError.absolutePath (validator.iterErrors document.value) with
  | [] => { state with lastValid := some document }
  | error :: _ => { state with lastError := some error }

/-- `_last_verified_json` -/
def lastVerifiedJson (value : List Char → α) (validator : Validator α) (text : List Char) :
    Except Error (Document α × Nat) :=
  match iterJsonDocuments value text with
  | .error error => .error error
  | .ok documents =>
    let state := documents.foldl validator.check {}
    match state.lastValid with
    | some document => .ok (document, documents.length)
    | none =>
      if documents = [] then .error (.parse "Codex CLI 最终消息不是 JSON")
      else .error (.schema "Codex CLI 最终 JSON 不符合 output_schema" documents.length
        (state.lastError.map fun error => (errorPath error, validator.redactSensitive error.message)))

/-! ## Messages -/

/-- A piece of a message: prose, or a document. -/
inductive Piece
  | prose (text : List Char)
  | document (text : List Char)

def Piece.text : Piece → List Char
  | .prose text => text
  | .document text => text

/-- An object or an array that the decoder reads. -/
def IsDocument (text : List Char) : Prop := Form python .value text ∧ IsContainer text

/-- No value begins in the prose, and the documents are objects and arrays. -/
def Proper (truncated : List Char) : List Piece → Prop
  | [] => True
  | .prose text :: rest =>
    (∀ front back, text = front ++ back → back ≠ [] →
      ∀ after, rawDecode (back ++ (rest.flatMap Piece.text ++ truncated)) ≠ .ok after) ∧ Proper truncated rest
  | .document text :: rest => IsDocument text ∧ Proper truncated rest

/-- An object that is cut off, or nothing. -/
def IsTruncated (text : List Char) : Prop :=
  text = [] ∨ text.head? = some '{' ∧ ∃ rest, rest ≠ [] ∧ Form lax .value (text ++ rest)

/-- Complete objects and arrays with prose between them, and a truncated object or nothing at the end. -/
structure Message where
  pieces : List Piece
  truncated : List Char
  cut : IsTruncated truncated
  proper : Proper truncated pieces

def Message.text (m : Message) : List Char := m.pieces.flatMap Piece.text ++ m.truncated

/-- The complete top-level documents. -/
def documentsOf (value : List Char → α) (truncated : List Char) : List Piece → List (Document α)
  | [] => []
  | .prose _ :: rest => documentsOf value truncated rest
  | .document text :: rest =>
    ⟨(text ++ (rest.flatMap Piece.text ++ truncated)).length, value text⟩ :: documentsOf value truncated rest

def Message.documents (value : List Char → α) (m : Message) : List (Document α) := documentsOf value m.truncated m.pieces

/-- The last document that satisfies the schema. -/
def Message.last (value : List Char → α) (validator : Validator α) (m : Message) : Option (Document α) :=
  ((m.documents value).filter fun document => validator.satisfies document.value).getLast?

/-- **The last complete document that satisfies the schema is returned**, and an error if there is none. -/
def ReturnsLast (value : List Char → α) (validator : Validator α) (m : Message) : Prop :=
  match m.last value validator with
  | some document => ∃ count, lastVerifiedJson value validator m.text = .ok (document, count)
  | none => ∃ error, lastVerifiedJson value validator m.text = .error error

/-- What the truncated object has inside does no harm: no value that is read in it satisfies the schema; or the
decoder raises in it, and no document satisfies the schema. -/
def Harmless (value : List Char → α) (validator : Validator α) (m : Message) : Prop :=
  match iterJsonDocuments value m.truncated with
  | .ok fragments => ∀ fragment ∈ fragments, validator.satisfies fragment.value = false
  | .error _ => m.last value validator = none

/-! ## Reading a message -/

/-- The characters of a message before its end, each of the prose or the first one of a document. -/
inductive Reads (value : List Char → α) (truncated : List Char) : List (Document α) → List Char → Prop
  | truncated : Reads value truncated [] truncated
  | prose {documents : List (Document α)} {c : Char} {s : List Char} (h : Reads value truncated documents s)
      (hno : ∀ after, rawDecode (c :: s) ≠ .ok after) : Reads value truncated documents (c :: s)
  | document {documents : List (Document α)} {text s : List Char} (h : Reads value truncated documents s)
      (hdocument : IsDocument text) : Reads value truncated (⟨(text ++ s).length, value text⟩ :: documents) (text ++ s)

theorem reads_pieces (value : List Char → α) {truncated : List Char} {pieces : List Piece} (h : Proper truncated pieces) :
    Reads value truncated (documentsOf value truncated pieces) (pieces.flatMap Piece.text ++ truncated) := by
  induction pieces with
  | nil => exact .truncated
  | cons piece rest ih =>
    cases piece with
    | document text =>
      rw [List.flatMap_cons, List.append_assoc]
      exact .document (ih h.2) h.1
    | prose text =>
      rw [List.flatMap_cons, List.append_assoc, documentsOf]
      -- every back of the prose, from the end on
      have hback : ∀ back front, text = front ++ back →
          Reads value truncated (documentsOf value truncated rest) (back ++ (rest.flatMap Piece.text ++ truncated)) := by
        intro back
        induction back with
        | nil => exact fun _ _ => ih h.2
        | cons c back ihback =>
          intro front htext
          refine .prose (ihback (front ++ [c]) ?_) (h.1 front (c :: back) htext (List.cons_ne_nil _ _))
          rw [htext, List.append_assoc, List.singleton_append]
      exact hback text [] rfl

section

variable {value : List Char → α} {truncated : List Char} {documents : List (Document α)} {s : List Char} {c : Char}

theorem IsDocument.head {text : List Char} (h : IsDocument text) :
    ∃ c rest, text = c :: rest ∧ (c = '{' ∨ c = '[') := by
  obtain ⟨hform, hcontainer⟩ := h
  obtain ⟨c, rest, rfl, -⟩ := hform.head
  exact ⟨c, rest, rfl, hcontainer.imp Option.some.inj Option.some.inj⟩

/-- A character that opens nothing is prose. -/
theorem Reads.tail (ht : IsTruncated truncated) (h : Reads value truncated documents (c :: s)) (hc : c ≠ '{' ∧ c ≠ '[') :
    Reads value truncated documents s ∧ ∀ after, rawDecode (c :: s) ≠ .ok after := by
  generalize hs : c :: s = text at h
  cases h with
  | truncated =>
    subst hs
    rcases ht with hnil | ⟨hhead, -⟩
    · cases hnil
    · exact absurd (Option.some.inj hhead) hc.1
  | prose h hno =>
    cases hs
    exact ⟨h, hno⟩
  | document h hdocument =>
    obtain ⟨d, rest, rfl, hd⟩ := hdocument.head
    cases hs
    exact absurd hd (not_or.mpr hc)

/-- Dropping prose. -/
theorem Reads.dropWhile {p : Char → Bool} (hp : p '{' = false ∧ p '[' = false) (ht : IsTruncated truncated)
    (h : Reads value truncated documents s) : Reads value truncated documents (s.dropWhile p) := by
  induction s with
  | nil => exact h
  | cons c s ih =>
    rw [List.dropWhile_cons]
    split
    · next hc =>
      refine ih (h.tail ht ⟨?_, ?_⟩).1
      · rintro rfl
        rw [hp.1] at hc
        cases hc
      · rintro rfl
        rw [hp.2] at hc
        cases hc
    · exact h

theorem isSpace_braces : isSpace '{' = false ∧ isSpace '[' = false := by decide

theorem Reads.skipSpace (ht : IsTruncated truncated) (h : Reads value truncated documents s) :
    Reads value truncated documents (skipSpace s) := h.dropWhile (by decide) ht

theorem digit_ne {c : Char} (hc : c.isDigit = true) : c ≠ '{' ∧ c ≠ '[' := by
  constructor
  · rintro rfl
    cases hc
  · rintro rfl
    cases hc

/-- **Prose has no digits**: the last one of an integer would be a value. -/
theorem Reads.not_digit (ht : IsTruncated truncated) (h : Reads value truncated documents (c :: s)) : c.isDigit = false := by
  induction s generalizing c with
  | nil =>
    by_contra hc
    rw [Bool.not_eq_false] at hc
    obtain ⟨after, hread⟩ := rawDecode_digit (s := []) hc nofun
    exact (h.tail ht (digit_ne hc)).2 after hread
  | cons d s ih =>
    by_contra hc
    rw [Bool.not_eq_false] at hc
    obtain ⟨htail, hno⟩ := h.tail ht (digit_ne hc)
    have hd := ih htail
    obtain ⟨after, hread⟩ := rawDecode_digit (s := d :: s) hc (fun e he => by rw [← Option.some.inj he]; exact hd)
    exact hno after hread

/-- The decoder does not read the truncated object. -/
theorem IsTruncated.not_read (ht : IsTruncated truncated) (after : List Char) : rawDecode truncated ≠ .ok after := by
  rcases ht with rfl | ⟨hhead, rest, hrest, hform⟩
  · exact nofun
  · refine rawDecode_cut hrest hform ?_ after
    obtain ⟨c, text, rfl⟩ : ∃ c text, truncated = c :: text := by
      cases truncated with
      | nil => cases hhead
      | cons c text => exact ⟨c, text, rfl⟩
    exact .inl hhead

/-- What the decoder reads ends where a piece goes on, and it raises only in the truncated object. -/
def Aligned (value : List Char → α) (truncated : List Char) (out : Except Failure (List Char)) : Prop :=
  (out = .error .digits → rawDecode truncated = .error .digits) ∧
    ∀ after, out = .ok after → ∃ rest, Reads value truncated rest after

theorem aligned_noValue : Aligned value truncated (.error .noValue) := ⟨nofun, nofun⟩

theorem aligned_next (ht : IsTruncated truncated) {close : Char} (hclose : close ≠ '{' ∧ close ≠ '[')
    {more : List Char → Except Failure (List Char)} (h : Reads value truncated documents s)
    (hmore : ∀ rest, rest.length < s.length → Reads value truncated documents rest → Aligned value truncated (more rest)) :
    Aligned value truncated (decodeNext close more s) := by
  cases s with
  | nil => exact aligned_noValue
  | cons mark rest =>
    rw [decodeNext]
    split
    · next hmark =>
      subst hmark
      refine ⟨by rintro ⟨⟩, ?_⟩
      rintro _ ⟨⟩
      exact ⟨documents, (h.tail ht hclose).1⟩
    · split
      · next hcomma =>
        subst hcomma
        have hrest := (h.tail ht (by decide)).1.skipSpace ht
        exact hmore _ (Nat.lt_succ_of_le (length_skipSpace_le rest)) hrest
      · exact aligned_noValue

/-- **The decoder stays in step with the pieces.** -/
theorem decode_aligned (ht : IsTruncated truncated) {fuel : Nat} {kind : Kind} (hfuel : need kind s.length < fuel)
    (h : Reads value truncated documents s) : Aligned value truncated (decode fuel kind s) := by
  induction fuel generalizing kind s documents with
  | zero => exact absurd hfuel (Nat.not_lt_zero _)
  | succ fuel ih =>
    cases kind with
    | value =>
      have hraw : decode (fuel + 1) .value s = rawDecode s := rawDecode_stable hfuel
      cases h with
      | truncated =>
        rw [hraw]
        exact ⟨id, fun after hread => absurd hread (ht.not_read after)⟩
      | @prose _ c s h hno =>
        refine ⟨fun hdigits => ?_, fun after hread => absurd (hraw.symm.trans hread) (hno after)⟩
        simp only [need, List.length_cons] at hfuel
        have hspace := length_skipSpace_le s
        by_cases hobject : c = '{'
        · subst hobject
          rw [decode, if_neg (by decide), if_pos rfl] at hdigits
          split at hdigits
          · cases hdigits
          · exact (ih (by simp only [need]; omega) (h.skipSpace ht)).1 hdigits
        · by_cases harray : c = '['
          · subst harray
            rw [decode, if_neg (by decide), if_neg (by decide), if_pos rfl] at hdigits
            split at hdigits
            · cases hdigits
            · exact (ih (by simp only [need]; omega) (h.skipSpace ht)).1 hdigits
          · rcases decode_digits ⟨hobject, harray⟩ hdigits with hc | ⟨d, rest, rfl, hd⟩
            · rw [(Reads.prose h hno).not_digit ht] at hc
              cases hc
            · rw [h.not_digit ht] at hd
              cases hd
      | @document rest text s h hdocument =>
        rw [hraw, rawDecode_container hdocument.1 hdocument.2]
        refine ⟨by rintro ⟨⟩, ?_⟩
        rintro _ ⟨⟩
        exact ⟨rest, h⟩
    | items =>
      cases s with
      | nil => exact aligned_noValue
      | cons c rest =>
        simp only [need, List.length_cons] at hfuel
        have hitem := ih (by simp only [need, List.length_cons]; omega : need .value (c :: rest).length < fuel) h
        rw [decode]
        cases hvalue : decode fuel .value (c :: rest) with
        | error failure => exact ⟨fun hdigits => hitem.1 (hvalue.trans hdigits), by rintro _ ⟨⟩⟩
        | ok after =>
          obtain ⟨others, hafter⟩ := hitem.2 after hvalue
          have hshorter := decode_shorter hvalue
          have hspace := length_skipSpace_le after
          rw [List.length_cons] at hshorter
          exact aligned_next ht (by decide) (hafter.skipSpace ht) fun next hnext hreads =>
            ih (by simp only [need]; omega) hreads
    | pairs =>
      cases s with
      | nil => exact aligned_noValue
      | cons c rest =>
        rw [decode]
        split
        · next hquote =>
          subst hquote
          have hno := (h.tail ht (by decide)).2
          cases hbody : scanBody (rest.length + 1) rest with
          | none => exact aligned_noValue
          | some after =>
            -- the key would be a value in the prose
            refine absurd ?_ (hno after)
            rw [rawDecode, decode, if_pos rfl, hbody]
            rfl
        · exact aligned_noValue

/-! ## The documents of a message -/

theorem iter_cons (value : List Char → α) {c : Char} {rest : List Char} (hs : s.dropWhile isSpace = c :: rest) :
    iterJsonDocuments value s =
      match rawDecode (c :: rest) with
      | .error .noValue => if nextBrace rest = [] then .ok [] else iterJsonDocuments value (nextBrace rest)
      | .error .digits => .error tooManyDigits
      | .ok after =>
        (iterJsonDocuments value after).map fun documents =>
          ⟨(c :: rest).length, value ((c :: rest).take ((c :: rest).length - after.length))⟩ :: documents := by
  rw [iterJsonDocuments]
  split
  · next heq => cases hs.symm.trans heq
  · next heq =>
    cases hs.symm.trans heq
    split <;> simp_all

theorem iter_nil (value : List Char → α) (hs : s.dropWhile isSpace = []) : iterJsonDocuments value s = .ok [] := by
  rw [iterJsonDocuments]
  split
  · rfl
  · next heq => cases hs.symm.trans heq

/-- Only what comes behind the whitespace is read. -/
theorem iter_dropWhile (value : List Char → α) (s : List Char) :
    iterJsonDocuments value (s.dropWhile isSpace) = iterJsonDocuments value s := by
  cases hs : s.dropWhile isSpace with
  | nil => rw [iter_nil value hs, iter_nil value rfl]
  | cons c rest =>
    have hdropped : (c :: rest).dropWhile isSpace = c :: rest := by rw [← hs, List.dropWhile_idempotent]
    rw [iter_cons value hs, iter_cons value hdropped]

theorem IsTruncated.iter_digits (ht : IsTruncated truncated) (value : List Char → α)
    (h : rawDecode truncated = .error .digits) : iterJsonDocuments value truncated = .error tooManyDigits := by
  rcases ht with rfl | ⟨hhead, -⟩
  · cases h
  · cases truncated with
    | nil => cases hhead
    | cons c rest =>
      obtain rfl := Option.some.inj hhead
      rw [iter_cons value (List.dropWhile_cons_of_neg (by decide)), h]

theorem reads_nil (h : Reads value truncated documents []) : documents = [] ∧ truncated = [] := by
  generalize hs : ([] : List Char) = text at h
  cases h with
  | truncated => exact ⟨rfl, rfl⟩
  | prose => cases hs
  | document h hdocument =>
    obtain ⟨c, rest, rfl, -⟩ := hdocument.head
    cases hs

/-- **The documents are read, and then what the truncated object has inside.** -/
theorem iter_reads (ht : IsTruncated truncated) (h : Reads value truncated documents s) :
    iterJsonDocuments value s = (iterJsonDocuments value truncated).map (documents ++ ·) := by
  induction hn : s.length using Nat.strong_induction_on generalizing s documents with
  | _ n ih =>
    subst hn
    have hspace := h.dropWhile isSpace_braces ht
    rw [← iter_dropWhile]
    have hle : (s.dropWhile isSpace).length ≤ s.length := List.length_dropWhile_le _ _
    generalize hdropped : s.dropWhile isSpace = s' at hspace hle
    have hhead : s'.dropWhile isSpace = s' := by rw [← hdropped, List.dropWhile_idempotent]
    cases hspace with
    | truncated =>
      cases iterJsonDocuments value truncated <;> rfl
    | @prose _ c rest hreads hno =>
      rw [iter_cons value hhead]
      cases hread : rawDecode (c :: rest) with
      | ok after => exact absurd hread (hno after)
      | error failure =>
        cases failure with
        | digits =>
          have hfuel : need .value (c :: rest).length < 2 * (c :: rest).length + 1 := Nat.lt_succ_self _
          have hdigits := (decode_aligned ht hfuel (Reads.prose hreads hno)).1 hread
          rw [ht.iter_digits value hdigits]
          rfl
        | noValue =>
          have hnext : Reads value truncated documents (nextBrace rest) := hreads.dropWhile (by decide) ht
          simp only
          split
          · next hnil =>
            rw [hnil] at hnext
            obtain ⟨rfl, rfl⟩ := reads_nil hnext
            rw [iter_nil value rfl]
            rfl
          · have hshorter : (nextBrace rest).length ≤ rest.length := List.length_dropWhile_le _ _
            rw [List.length_cons] at hle
            exact ih _ (by omega) hnext rfl
    | @document documents text s' hreads hdocument =>
      obtain ⟨c, rest, htext, -⟩ := hdocument.head
      have hcons : text ++ s' = c :: (rest ++ s') := by rw [htext, List.cons_append]
      have hread := rawDecode_container hdocument.1 hdocument.2 s'
      have hlength : s'.length < (text ++ s').length := decode_shorter hread
      rw [hcons] at hhead hread
      rw [hcons, iter_cons value hhead, hread, ← hcons]
      simp only
      rw [ih s'.length (by omega) hreads rfl, List.length_append, Nat.add_sub_cancel, List.take_left]
      cases iterJsonDocuments value truncated <;> rfl

theorem iter_message (value : List Char → α) (m : Message) :
    iterJsonDocuments value m.text = (iterJsonDocuments value m.truncated).map (m.documents value ++ ·) :=
  iter_reads m.cut (reads_pieces value m.proper)

/-! ## The last one that satisfies the schema -/

theorem check_lastValid (validator : Validator α) (state : Verified α) (document : Document α) :
    (validator.check state document).lastValid =
      if validator.satisfies document.value then some document else state.lastValid := by
  have hempty : sortBy ValidationError.absolutePath (validator.iterErrors document.value) = [] ↔
      validator.satisfies document.value = true := by
    rw [Validator.satisfies, List.isEmpty_iff, ← List.length_eq_zero_iff, length_sortBy, List.length_eq_zero_iff]
  rw [Validator.check]
  split
  · next h => rw [if_pos (hempty.mp h)]
  · next h =>
    rw [if_neg]
    intro hsatisfies
    rw [hempty.mpr hsatisfies] at h
    cases h

theorem foldl_lastValid (validator : Validator α) (documents : List (Document α)) (state : Verified α) :
    (documents.foldl validator.check state).lastValid =
      ((documents.filter fun document => validator.satisfies document.value).getLast?).or state.lastValid := by
  induction documents using List.reverseRecOn with
  | nil => rfl
  | append_singleton documents document ih =>
    rw [List.foldl_append, List.foldl_cons, List.foldl_nil, check_lastValid, ih, List.filter_append, List.filter_singleton]
    by_cases hsatisfies : validator.satisfies document.value
    · simp [hsatisfies]
    · simp [hsatisfies]

/-- The last valid one of the documents that are read, if there is one, and an error otherwise. -/
theorem lastVerified_ok (validator : Validator α) {text : List Char} (h : iterJsonDocuments value text = .ok documents) :
    match (documents.filter fun document => validator.satisfies document.value).getLast? with
    | some document => lastVerifiedJson value validator text = .ok (document, documents.length)
    | none => ∃ error, lastVerifiedJson value validator text = .error error := by
  have hlast := foldl_lastValid validator documents {}
  rw [Option.or_none] at hlast
  rw [← hlast]
  simp only [lastVerifiedJson, h]
  cases (documents.foldl validator.check {}).lastValid with
  | some document => rfl
  | none =>
    by_cases hnil : documents = []
    · exact ⟨_, if_pos hnil⟩
    · exact ⟨_, if_neg hnil⟩

theorem left_documents {pieces : List Piece} (h : Proper truncated pieces) :
    ∀ document ∈ documentsOf value truncated pieces, truncated.length < document.left := by
  induction pieces with
  | nil => exact nofun
  | cons piece rest ih =>
    cases piece with
    | prose text => exact ih h.2
    | document text =>
      obtain ⟨c, others, rfl, -⟩ := h.1.head
      rw [documentsOf, List.forall_mem_cons]
      refine ⟨?_, ih h.2⟩
      simp only [List.length_append, List.length_cons]
      omega

theorem left_iter {s : List Char} (h : iterJsonDocuments value s = .ok documents) :
    ∀ document ∈ documents, document.left ≤ s.length := by
  induction hn : s.length using Nat.strong_induction_on generalizing s documents with
  | _ n ih =>
    subst hn
    cases hs : s.dropWhile isSpace with
    | nil =>
      rw [iter_nil value hs] at h
      cases h
      exact nofun
    | cons c rest =>
      have hle : (s.dropWhile isSpace).length ≤ s.length := List.length_dropWhile_le _ _
      rw [hs, List.length_cons] at hle
      rw [iter_cons value hs] at h
      split at h
      · split at h
        · cases h
          exact nofun
        · have hshorter : (nextBrace rest).length ≤ rest.length := List.length_dropWhile_le _ _
          exact fun document hmem => (ih _ (by omega) h rfl document hmem).trans (by omega)
      · cases h
      · next after hread =>
        have hshorter := decode_shorter hread
        rw [List.length_cons] at hshorter
        cases hafter : iterJsonDocuments value after with
        | error error =>
          rw [hafter] at h
          cases h
        | ok others =>
          rw [hafter] at h
          cases h
          rw [List.forall_mem_cons]
          exact ⟨hle, fun document hmem => (ih _ (by omega) hafter rfl document hmem).trans (by omega)⟩

end

/-- **The last document that satisfies the schema is returned if and only if** the truncated object is harmless. -/
theorem verified_iff (value : List Char → α) (validator : Validator α) (m : Message) :
    ReturnsLast value validator m ↔ Harmless value validator m := by
  have hiter := iter_message value m
  rw [ReturnsLast, Harmless]
  cases hfragments : iterJsonDocuments value m.truncated with
  | error error =>
    rw [hfragments] at hiter
    have hraises : lastVerifiedJson value validator m.text = .error error := by
      rw [lastVerifiedJson, hiter]
      rfl
    cases hlast : m.last value validator with
    | none => simp [hraises]
    | some document => simp [hraises]
  | ok fragments =>
    rw [hfragments] at hiter
    have hresult := lastVerified_ok validator hiter
    rw [List.filter_append, List.getLast?_append] at hresult
    have hlast : ((m.documents value).filter fun document => validator.satisfies document.value).getLast? =
      m.last value validator := rfl
    rw [hlast] at hresult
    simp only
    constructor
    · intro hreturns fragment hfragment
      by_contra hsatisfies
      rw [Bool.not_eq_false] at hsatisfies
      -- a fragment is returned, and it is none of the documents
      obtain ⟨found, hfound⟩ : ∃ found, (fragments.filter fun document => validator.satisfies document.value).getLast? =
          some found := by
        rw [← Option.ne_none_iff_exists', ne_eq, List.getLast?_eq_none_iff]
        exact List.ne_nil_of_mem (List.mem_filter.mpr ⟨hfragment, hsatisfies⟩)
      rw [hfound, Option.some_or] at hresult
      cases hdocument : m.last value validator with
      | none =>
        rw [hdocument] at hreturns
        obtain ⟨error, herror⟩ := hreturns
        cases hresult.symm.trans herror
      | some document =>
        rw [hdocument] at hreturns
        obtain ⟨count, hok⟩ := hreturns
        obtain rfl : found = document := congrArg Prod.fst (Except.ok.inj (hresult.symm.trans hok))
        have hinside := left_iter hfragments found (List.mem_of_mem_filter (List.mem_of_getLast? hfound))
        have houtside := left_documents m.proper found (List.mem_of_mem_filter (List.mem_of_getLast? hdocument))
        exact absurd hinside (Nat.not_le.mpr houtside)
    · intro hharmless
      have hnone : fragments.filter (fun document => validator.satisfies document.value) = [] := by
        rw [List.filter_eq_nil_iff]
        intro fragment hfragment
        rw [hharmless fragment hfragment]
        exact Bool.false_ne_true
      rw [hnone, List.getLast?_nil, Option.none_or] at hresult
      cases hdocument : m.last value validator with
      | none =>
        rw [hdocument] at hresult
        exact hresult
      | some document =>
        rw [hdocument] at hresult
        exact ⟨_, hresult⟩

/-! ## A truncated object with nothing inside -/

theorem suffix_nextBrace {u s : List Char} (h : u <:+ s) (hu : IsContainer u) : u <:+ nextBrace s := by
  induction s with
  | nil => exact h
  | cons c s ih =>
    rw [nextBrace, List.dropWhile_cons]
    split
    · next hc =>
      rcases List.suffix_cons_iff.mp h with rfl | hsuffix
      · rcases hu with heq | heq
        · rw [Option.some.inj heq] at hc
          cases hc
        · rw [Option.some.inj heq] at hc
          cases hc
      · exact ih hsuffix
    · exact h

theorem nextBrace_head (s : List Char) : nextBrace s = [] ∨ IsContainer (nextBrace s) := by
  cases hs : nextBrace s with
  | nil => exact .inl rfl
  | cons c rest =>
    right
    have hc := List.head?_dropWhile_not (fun c => c ≠ '{' && c ≠ '[') s
    rw [show s.dropWhile (fun c => c ≠ '{' && c ≠ '[') = c :: rest from hs] at hc
    simp only [List.head?_cons, ne_eq, decide_not, Bool.and_eq_false_iff, Bool.not_eq_false', decide_eq_true_eq] at hc
    exact hc.imp (congrArg some) (congrArg some)

/-- **Nothing is read** exactly where no value begins at any brace or bracket. -/
theorem iter_eq_nil_iff (value : List Char → α) {s : List Char} (hs : s = [] ∨ IsContainer s) :
    iterJsonDocuments value s = .ok [] ↔ ∀ u, u <:+ s → IsContainer u → rawDecode u = .error .noValue := by
  induction hn : s.length using Nat.strong_induction_on generalizing s with
  | _ n ih =>
    subst hn
    rcases hs with rfl | hcontainer
    · rw [iter_nil value rfl]
      refine ⟨fun _ u hu hhead => ?_, fun _ => rfl⟩
      rw [List.suffix_nil.mp hu] at hhead
      exact absurd hhead (by decide)
    · obtain ⟨c, rest, rfl⟩ : ∃ c rest, s = c :: rest := by
        cases s with
        | nil => exact absurd hcontainer (by decide)
        | cons c rest => exact ⟨c, rest, rfl⟩
      have hspace : isSpace c = false := by
        rcases hcontainer with heq | heq
        · rw [Option.some.inj heq]
          exact isSpace_braces.1
        · rw [Option.some.inj heq]
          exact isSpace_braces.2
      have hdrop : (c :: rest).dropWhile isSpace = c :: rest :=
        List.dropWhile_cons_of_neg (by rw [hspace]; exact Bool.false_ne_true)
      rw [iter_cons value hdrop]
      cases hread : rawDecode (c :: rest) with
      | ok after =>
        refine ⟨fun h => ?_, fun h => ?_⟩
        · simp only at h
          cases hafter : iterJsonDocuments value after <;> rw [hafter] at h <;> cases h
        · cases hread.symm.trans (h _ List.suffix_rfl hcontainer)
      | error failure =>
        cases failure with
        | digits =>
          exact ⟨fun h => (nomatch h), fun h => (nomatch hread.symm.trans (h _ List.suffix_rfl hcontainer))⟩
        | noValue =>
          simp only
          have hsuffix : ∀ u, u <:+ c :: rest → IsContainer u → u = c :: rest ∨ u <:+ nextBrace rest := by
            intro u hu hhead
            exact (List.suffix_cons_iff.mp hu).imp_right fun h => suffix_nextBrace h hhead
          split
          · next hnil =>
            refine ⟨fun _ u hu hhead => ?_, fun _ => rfl⟩
            rcases hsuffix u hu hhead with rfl | hnext
            · exact hread
            · rw [hnil, List.suffix_nil] at hnext
              rw [hnext] at hhead
              exact absurd hhead (by decide)
          · have hlt : (nextBrace rest).length < (c :: rest).length :=
              Nat.lt_succ_of_le (List.length_dropWhile_le _ _)
            rw [ih _ hlt (nextBrace_head rest) rfl]
            refine ⟨fun h u hu hhead => ?_, fun h u hu hhead => ?_⟩
            · rcases hsuffix u hu hhead with rfl | hnext
              · exact hread
              · exact h u hnext hhead
            · exact h u ((hu.trans (List.dropWhile_suffix _)).trans (List.suffix_cons _ _)) hhead

/-- A truncated object in which no value begins is harmless. -/
theorem harmless_of_nothing (value : List Char → α) (validator : Validator α) (m : Message)
    (h : ∀ u, u <:+ m.truncated → IsContainer u → rawDecode u = .error .noValue) : Harmless value validator m := by
  have hnothing : iterJsonDocuments value m.truncated = .ok [] :=
    (iter_eq_nil_iff value (m.cut.imp_right fun hcut => .inl hcut.1)).mpr h
  rw [Harmless, hnothing]
  exact nofun

/-! ## An array in a truncated object -/

theorem form_of_accepts {d : Reader} {s : List Char} (h : scan d (2 * s.length + 1) .value s = some []) : Form d .value s := by
  obtain ⟨v, hv, hform⟩ := form_of_scan h
  rw [List.append_nil] at hv
  rwa [hv]

/-- A complete object, and one that is cut off behind an array in it. -/
def cutMessage : Message where
  pieces := [.document ['{', '"', 'a', '"', ':', '1', '}']]
  truncated := ['{', '"', 'b', '"', ':', '[', '2', ']']
  cut := .inr ⟨rfl, ['}'], List.cons_ne_nil _ _, form_of_accepts (by decide)⟩
  proper := ⟨⟨form_of_accepts (by decide), by decide⟩, trivial⟩

/-- A schema that every value satisfies. -/
def anyValue : Validator (List Char) := ⟨fun _ => [], id⟩

theorem iter_cutMessage : iterJsonDocuments id cutMessage.truncated = .ok [⟨3, ['[', '2', ']']⟩] := by
  change iterJsonDocuments id ['{', '"', 'b', '"', ':', '[', '2', ']'] = _
  have hcut : rawDecode ['{', '"', 'b', '"', ':', '[', '2', ']'] = .error .noValue := by decide
  have hnext : nextBrace ['"', 'b', '"', ':', '[', '2', ']'] = ['[', '2', ']'] := by decide
  have hread : rawDecode ['[', '2', ']'] = .ok [] := by decide
  rw [iter_cons id (List.dropWhile_cons_of_neg (by decide)), hcut]
  simp only [hnext]
  rw [if_neg (List.cons_ne_nil _ _), iter_cons id (List.dropWhile_cons_of_neg (by decide)), hread]
  simp only
  rw [iter_nil id rfl]
  rfl

/-- **The array inside is returned.** -/
theorem verified_cut : ¬ ReturnsLast id anyValue cutMessage := by
  intro h
  have hiter := iter_message id cutMessage
  rw [iter_cutMessage] at hiter
  have hresult := lastVerified_ok anyValue hiter
  obtain ⟨count, hcount⟩ : ∃ count, lastVerifiedJson id anyValue cutMessage.text =
      .ok (⟨15, ['{', '"', 'a', '"', ':', '1', '}']⟩, count) := h
  cases hresult.symm.trans hcount

end CodexMemory.CodexCli
