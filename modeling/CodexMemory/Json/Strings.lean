import CodexMemory.Json.Parse

/-!
# The characters of a JSON text

* `mem_dumps`: what `dumps` writes consists of printable ASCII characters and of
  characters of the strings and keys of the value, none of them a control
  character.
-/

namespace CodexMemory.Json

variable {F : Type}

mutual

/-- All strings and keys of a value. -/
def strings : Json F → List String
  | .str s => [s]
  | .arr items => stringsOfItems items
  | .obj fields => stringsOfFields fields
  | _ => []

def stringsOfItems : List (Json F) → List String
  | [] => []
  | v :: rest => strings v ++ stringsOfItems rest

def stringsOfFields : List (String × Json F) → List String
  | [] => []
  | (k, v) :: rest => k :: (strings v ++ stringsOfFields rest)

end

theorem mem_stringsOfItems {items : List (Json F)} {s : String} :
    s ∈ stringsOfItems items ↔ ∃ v ∈ items, s ∈ strings v := by
  induction items with
  | nil => simp [stringsOfItems]
  | cons v rest ih => simp [stringsOfItems, ih]

theorem mem_stringsOfFields {fields : List (String × Json F)} {s : String} :
    s ∈ stringsOfFields fields ↔ ∃ field ∈ fields, s = field.1 ∨ s ∈ strings field.2 := by
  induction fields with
  | nil => simp [stringsOfFields]
  | cons field rest ih =>
    obtain ⟨k, v⟩ := field
    simp only [stringsOfFields, List.mem_cons, List.mem_append, ih, exists_eq_or_imp, or_assoc]

/-- A character that the text of a value contains: a printable one of ASCII, or
one of a string. -/
def IsTextOf (strs : List String) (c : Char) : Prop :=
  (0x20 ≤ c.toNat ∧ c.toNat < 0x7f) ∨ ∃ s ∈ strs, c ∈ s.toList ∧ 0x20 ≤ c.toNat

theorem digit_printable {c : Char} (h : c.isDigit = true) : 0x20 ≤ c.toNat ∧ c.toNat < 0x7f := by
  simp only [Char.isDigit, Bool.and_eq_true, decide_eq_true_eq, ge_iff_le, UInt32.le_iff_toNat_le] at h
  have hc : c.toNat = c.val.toNat := rfl
  have h0 : '0'.val.toNat = 48 := rfl
  have h9 : '9'.val.toNat = 57 := rfl
  omega

theorem integer_printable {ds : List Char} (h : IsInteger ds) : ∀ c ∈ ds, c.isDigit = true := by
  rcases h with rfl | ⟨d, rest, rfl, hd, -, hrest⟩
  · decide
  · intro c hc
    rcases List.mem_cons.mp hc with rfl | hc
    · exact hd
    · exact hrest c hc

theorem natText_printable (n : Nat) : ∀ c ∈ natText n, 0x20 ≤ c.toNat ∧ c.toNat < 0x7f :=
  fun c hc => digit_printable (integer_printable (isInteger_natText n) c hc)

theorem intText_printable (n : Int) : ∀ c ∈ intText n, 0x20 ≤ c.toNat ∧ c.toNat < 0x7f := by
  cases n with
  | ofNat n => exact natText_printable n
  | negSucc n =>
    intro c hc
    rcases List.mem_cons.mp hc with rfl | hc
    · decide
    · exact natText_printable _ c hc

theorem floatText_printable {text : List Char} (h : IsFloatText text) :
    ∀ c ∈ text, 0x20 ≤ c.toNat ∧ c.toNat < 0x7f := by
  obtain ⟨sign, whole, frac, exp, rfl, hsign, hwhole, hfrac, hexp, -⟩ := h
  intro c hc
  simp only [List.mem_append] at hc
  rcases hc with hc | hc | hc | hc
  · rcases hsign with rfl | rfl
    · cases hc
    · rw [List.mem_singleton.mp hc]
      decide
  · exact digit_printable (integer_printable hwhole c hc)
  · rcases hfrac with rfl | ⟨ds, rfl, -, hds⟩
    · cases hc
    · rcases List.mem_cons.mp hc with rfl | hc
      · decide
      · exact digit_printable (hds c hc)
  · rcases hexp with rfl | ⟨e, esign, ds, rfl, he, hesign, -, hds⟩
    · cases hc
    · simp only [List.mem_cons, List.mem_append] at hc
      rcases hc with rfl | hc | hc
      · rcases he with rfl | rfl
        · decide
        · decide
      · rcases hesign with rfl | rfl | rfl
        · cases hc
        · rw [List.mem_singleton.mp hc]
          decide
        · rw [List.mem_singleton.mp hc]
          decide
      · exact digit_printable (hds c hc)

theorem hexDigit_printable : ∀ d < 16, 0x20 ≤ (Nat.digitChar d).toNat ∧ (Nat.digitChar d).toNat < 0x7f := by
  decide

/-- The text of one character: printable, or the character itself. -/
theorem mem_escape {c d : Char} (h : d ∈ escape c) :
    (0x20 ≤ d.toNat ∧ d.toNat < 0x7f) ∨ (d = c ∧ 0x20 ≤ d.toNat) := by
  have hprintable : ∀ text : List Char, (∀ e ∈ text, 0x20 ≤ e.toNat ∧ e.toNat < 0x7f) → d ∈ text →
      (0x20 ≤ d.toNat ∧ d.toNat < 0x7f) ∨ (d = c ∧ 0x20 ≤ d.toNat) := fun text htext hd => Or.inl (htext d hd)
  unfold escape at h
  split at h
  · exact hprintable _ (by decide) h
  split at h
  · exact hprintable _ (by decide) h
  split at h
  · exact hprintable _ (by decide) h
  split at h
  · exact hprintable _ (by decide) h
  split at h
  · exact hprintable _ (by decide) h
  split at h
  · exact hprintable _ (by decide) h
  split at h
  · exact hprintable _ (by decide) h
  split at h
  · next hcontrol =>
    rcases List.mem_append.mp h with hd | hd
    · exact hprintable _ (by decide) hd
    · simp only [hex2, List.mem_cons, List.not_mem_nil, or_false] at hd
      rcases hd with rfl | rfl
      · exact Or.inl (hexDigit_printable _ (by omega))
      · exact Or.inl (hexDigit_printable _ (by omega))
  · next hcontrol =>
    rw [List.mem_singleton.mp h]
    exact Or.inr ⟨rfl, by omega⟩

theorem mem_quote {s : String} {d : Char} (h : d ∈ quote s.toList) : IsTextOf [s] d := by
  rw [quote, List.mem_append, List.mem_cons] at h
  rcases h with (rfl | hd) | hd
  · exact Or.inl (by decide)
  · obtain ⟨c, hc, hd⟩ := List.mem_flatMap.mp hd
    rcases mem_escape hd with hprintable | ⟨rfl, hlow⟩
    · exact Or.inl hprintable
    · exact Or.inr ⟨s, List.mem_singleton.mpr rfl, hc, hlow⟩
  · rw [List.mem_singleton.mp hd]
    exact Or.inl (by decide)

theorem IsTextOf.mono {strs strs' : List String} {c : Char} (h : IsTextOf strs c)
    (hsub : ∀ s ∈ strs, s ∈ strs') : IsTextOf strs' c := by
  rcases h with h | ⟨s, hs, hc⟩
  · exact Or.inl h
  · exact Or.inr ⟨s, hsub s hs, hc⟩

variable [PyFloat F]

theorem mem_dumpsItems {items : List (Json F)} {strs : List String}
    (hitems : ∀ v ∈ items, ∀ c ∈ dumps .default v, IsTextOf strs c) :
    ∀ c ∈ dumpsItems .default items, IsTextOf strs c := by
  induction items with
  | nil => exact fun c hc => nomatch hc
  | cons v rest ih =>
    intro c hc
    rw [dumpsItems, List.mem_append, List.mem_append] at hc
    rcases hc with (hc | hc) | hc
    · have hall : ∀ d ∈ Separators.default.item, 0x20 ≤ d.toNat ∧ d.toNat < 0x7f := by decide
      exact Or.inl (hall c hc)
    · exact hitems v List.mem_cons_self c hc
    · exact ih (fun w hw => hitems w (List.mem_cons_of_mem _ hw)) c hc

theorem mem_dumpsFields {fields : List (String × Json F)} {strs : List String}
    (hkeys : ∀ field ∈ fields, field.1 ∈ strs)
    (hfields : ∀ field ∈ fields, ∀ c ∈ dumps .default field.2, IsTextOf strs c) :
    ∀ c ∈ dumpsFields .default fields, IsTextOf strs c := by
  have hsep : ∀ d ∈ Separators.default.item ++ Separators.default.key, 0x20 ≤ d.toNat ∧ d.toNat < 0x7f := by
    decide
  induction fields with
  | nil => exact fun c hc => nomatch hc
  | cons field rest ih =>
    obtain ⟨k, v⟩ := field
    intro c hc
    simp only [dumpsFields, List.mem_append] at hc
    rcases hc with (((hc | hc) | hc) | hc) | hc
    · exact Or.inl (hsep c (List.mem_append_left _ hc))
    · exact (mem_quote hc).mono fun s hs => by
        rw [List.mem_singleton.mp hs]
        exact hkeys (k, v) List.mem_cons_self
    · exact Or.inl (hsep c (List.mem_append_right _ hc))
    · exact hfields (k, v) List.mem_cons_self c hc
    · exact ih (fun field hf => hkeys field (List.mem_cons_of_mem _ hf))
        (fun field hf => hfields field (List.mem_cons_of_mem _ hf)) c hc

/-- **The text of a value has no control characters, and others than ASCII only
from its strings.** -/
theorem mem_dumps (v : Json F) : ∀ c ∈ dumps .default v, IsTextOf (strings v) c := by
  induction v using induction with
  | null =>
    intro c hc
    have hall : ∀ d ∈ dumps (F := F) .default .null, 0x20 ≤ d.toNat ∧ d.toNat < 0x7f := by
      rw [dumps]
      decide
    exact Or.inl (hall c hc)
  | bool b =>
    intro c hc
    have hall : ∀ d ∈ dumps (F := F) .default (.bool b), 0x20 ≤ d.toNat ∧ d.toNat < 0x7f := by
      cases b with
      | true =>
        rw [dumps]
        decide
      | false =>
        rw [dumps]
        decide
    exact Or.inl (hall c hc)
  | int n =>
    intro c hc
    rw [dumps] at hc
    exact Or.inl (intText_printable n c hc)
  | float x =>
    intro c hc
    rw [dumps] at hc
    rcases PyFloat.repr_shape x with hconstant | hfloat
    · have hall : ∀ text ∈ constants, ∀ d ∈ text, 0x20 ≤ d.toNat ∧ d.toNat < 0x7f := by decide
      exact Or.inl (hall _ hconstant c hc)
    · exact Or.inl (floatText_printable hfloat c hc)
  | str s =>
    intro c hc
    rw [dumps] at hc
    rw [strings]
    exact mem_quote hc
  | arr items ih =>
    have hitems : ∀ v ∈ items, ∀ c ∈ dumps .default v, IsTextOf (strings (.arr items)) c := by
      intro v hv c hc
      refine (ih v hv c hc).mono fun s hs => ?_
      rw [strings]
      exact mem_stringsOfItems.mpr ⟨v, hv, hs⟩
    intro c hc
    cases items with
    | nil =>
      rw [dumps] at hc
      have hall : ∀ d ∈ ['[', ']'], 0x20 ≤ d.toNat ∧ d.toNat < 0x7f := by decide
      exact Or.inl (hall c hc)
    | cons v rest =>
      simp only [dumps, List.mem_cons, List.mem_append, List.not_mem_nil, or_false] at hc
      rcases hc with ((rfl | hc) | hc) | rfl
      · exact Or.inl (by decide)
      · exact hitems v List.mem_cons_self c hc
      · exact mem_dumpsItems (fun w hw => hitems w (List.mem_cons_of_mem _ hw)) c hc
      · exact Or.inl (by decide)
  | obj fields ih =>
    have hkeys : ∀ field ∈ fields, field.1 ∈ strings (.obj fields) := by
      intro field hf
      rw [strings]
      exact mem_stringsOfFields.mpr ⟨field, hf, Or.inl rfl⟩
    have hfields : ∀ field ∈ fields, ∀ c ∈ dumps .default field.2, IsTextOf (strings (.obj fields)) c := by
      intro field hf c hc
      refine (ih field hf c hc).mono fun s hs => ?_
      rw [strings]
      exact mem_stringsOfFields.mpr ⟨field, hf, Or.inr hs⟩
    intro c hc
    cases fields with
    | nil =>
      rw [dumps] at hc
      have hall : ∀ d ∈ ['{', '}'], 0x20 ≤ d.toNat ∧ d.toNat < 0x7f := by decide
      exact Or.inl (hall c hc)
    | cons field rest =>
      obtain ⟨k, v⟩ := field
      simp only [dumps, List.mem_cons, List.mem_append, List.not_mem_nil, or_false] at hc
      rcases hc with ((((rfl | hc) | hc) | hc) | hc) | rfl
      · exact Or.inl (by decide)
      · exact (mem_quote hc).mono fun s hs => by
          rw [List.mem_singleton.mp hs]
          exact hkeys (k, v) List.mem_cons_self
      · have hall : ∀ d ∈ Separators.default.key, 0x20 ≤ d.toNat ∧ d.toNat < 0x7f := by decide
        exact Or.inl (hall c hc)
      · exact hfields (k, v) List.mem_cons_self c hc
      · exact mem_dumpsFields (fun field hf => hkeys field (List.mem_cons_of_mem _ hf))
          (fun field hf => hfields field (List.mem_cons_of_mem _ hf)) c hc
      · exact Or.inl (by decide)

end CodexMemory.Json
