import CodexMemory.Outbox.Codec
import Mathlib.Data.Multiset.AddSub

/-!
# What the outbox does to a record

A record is told from others by its `identity`: its fields but those that a
retry or a dead letter writes.

* `identity_retryRecord`, `identity_deadLetter`: the two keep it;
* `isStorable_retryRecord`, `isStorable_deadLetter`: they keep a record storable;
* `isStorable_newRecord`: so is a new record of plain strings;
* `passRecords_keeps`: after the loop of `replay` every record is delivered, a
  dead letter or remaining.
-/

namespace CodexMemory.Outbox

variable {F : Type}

/-! ## Fields -/

/-- The keys that `_retry_record` and `_dead_letter` write. -/
def volatileKeys : List String := ["attempts", "next_attempt_at", "last_error", "dead_lettered_at"]

/-- The fields of a record that the outbox never changes. -/
def identity (record : Fields F) : Fields F := record.filter fun field => !volatileKeys.contains field.1

theorem identity_setField {key : String} (hkey : key ∈ volatileKeys) (value : Json F) (record : Fields F) :
    identity (Json.setField key value record) = identity record := by
  have hvolatile : (!volatileKeys.contains key) = false := by
    rw [List.contains_iff_mem.mpr hkey]
    rfl
  induction record with
  | nil => rw [Json.setField, identity, List.filter_cons_of_neg (by simp [hkey]), List.filter_nil]; rfl
  | cons field rest ih =>
    obtain ⟨k, v⟩ := field
    simp only [identity] at ih ⊢
    rw [Json.setField]
    split
    · next hk =>
      subst hk
      rw [List.filter_cons_of_neg (by simp [hkey]), List.filter_cons_of_neg (by simp [hkey])]
    · rw [List.filter_cons, List.filter_cons, ih]

theorem lookup_setField_of_ne {key k : String} (hne : k ≠ key) (value : Json F) (record : Fields F) :
    (Json.setField key value record).lookup k = record.lookup k := by
  induction record with
  | nil =>
    rw [Json.setField, List.lookup_cons, List.lookup_nil, beq_eq_false_iff_ne.mpr hne]
  | cons field rest ih =>
    obtain ⟨k', v⟩ := field
    rw [Json.setField]
    split
    · next hk =>
      subst hk
      rw [List.lookup_cons, List.lookup_cons, beq_eq_false_iff_ne.mpr hne]
    · rw [List.lookup_cons, List.lookup_cons, ih]

theorem lookup_setField_self (key : String) (value : Json F) (record : Fields F) :
    (Json.setField key value record).lookup key = some value := by
  induction record with
  | nil => rw [Json.setField, List.lookup_cons, beq_self_eq_true]
  | cons field rest ih =>
    obtain ⟨k, v⟩ := field
    rw [Json.setField]
    split
    · rw [List.lookup_cons, beq_self_eq_true]
    · next hk => rw [List.lookup_cons, beq_eq_false_iff_ne.mpr (Ne.symm hk), ih]

theorem mem_setField {key : String} {value : Json F} {record : Fields F} {field : String × Json F}
    (h : field ∈ Json.setField key value record) : field = (key, value) ∨ field ∈ record := by
  induction record with
  | nil => exact Or.inl (List.mem_singleton.mp h)
  | cons head rest ih =>
    obtain ⟨k, v⟩ := head
    rw [Json.setField] at h
    split at h
    · rcases List.mem_cons.mp h with h | h
      · exact Or.inl h
      · exact Or.inr (List.mem_cons_of_mem _ h)
    · rcases List.mem_cons.mp h with rfl | h
      · exact Or.inr List.mem_cons_self
      · exact (ih h).imp_right (List.mem_cons_of_mem _)

theorem setField_keys_nodup {record : Fields F} (h : (record.map Prod.fst).Nodup) (key : String)
    (value : Json F) : ((Json.setField key value record).map Prod.fst).Nodup := by
  induction record with
  | nil => exact List.nodup_singleton key
  | cons head rest ih =>
    obtain ⟨k, v⟩ := head
    rw [List.map_cons, List.nodup_cons] at h
    rw [Json.setField]
    split
    · next hk =>
      subst hk
      exact List.nodup_cons.mpr h
    · next hk =>
      refine List.nodup_cons.mpr ⟨fun hmem => ?_, ih h.2⟩
      obtain ⟨field, hfield, heq⟩ := List.mem_map.mp hmem
      rcases mem_setField hfield with rfl | hfield
      · exact hk heq.symm
      · exact h.1 (List.mem_map.mpr ⟨field, hfield, heq⟩)

/-! ## Storable records -/

theorem isStorable_iff {record : Fields F} :
    isStorable record = true ↔ (∀ field ∈ record, isPlainText field.1 = true ∧ isPlain field.2 = true) ∧
      ((record.map Prod.fst).Nodup ∧ ∀ field ∈ record, Json.unique field.2 = true) ∧ hasPayload record = true := by
  have hplain : isPlain (.obj record) = true ↔
      ∀ field ∈ record, isPlainText field.1 = true ∧ isPlain field.2 = true := by
    simp only [isPlain_eq_true, Json.strings, Json.mem_stringsOfFields]
    constructor
    · intro h field hfield
      exact ⟨h field.1 ⟨field, hfield, Or.inl rfl⟩, fun s hs => h s ⟨field, hfield, Or.inr hs⟩⟩
    · rintro h s ⟨field, hfield, rfl | hs⟩
      · exact (h field hfield).1
      · exact (h field hfield).2 s hs
  rw [isStorable, Bool.and_eq_true, Bool.and_eq_true, hplain, Json.unique, Bool.and_eq_true,
    decide_eq_true_eq, Json.uniqueFields_eq_true, and_assoc]

/-- Writing a volatile field keeps a record storable. -/
theorem isStorable_setField {record : Fields F} (h : isStorable record = true) {key : String}
    {value : Json F} (hkey : key ∈ volatileKeys) (hvalue : isPlain value = true)
    (hunique : Json.unique value = true) : isStorable (Json.setField key value record) = true := by
  have hall : ∀ k ∈ volatileKeys, k ≠ "payload" ∧ isPlainText k = true := by decide
  obtain ⟨hpayloadKey, hplain⟩ := hall key hkey
  obtain ⟨hfields, ⟨hnodup, huniques⟩, hpayload⟩ := isStorable_iff.mp h
  refine isStorable_iff.mpr ⟨fun field hfield => ?_, ⟨setField_keys_nodup hnodup key value, fun field hfield => ?_⟩, ?_⟩
  · rcases mem_setField hfield with rfl | hfield
    · exact ⟨hplain, hvalue⟩
    · exact hfields field hfield
  · rcases mem_setField hfield with rfl | hfield
    · exact hunique
    · exact huniques field hfield
  · rw [hasPayload, lookup_setField_of_ne hpayloadKey.symm]
    exact hpayload

/-- A text of printable characters of ASCII. -/
def IsPrintable (text : List Char) : Prop := ∀ c ∈ text, 0x20 ≤ c.toNat ∧ c.toNat < 0x7f

theorem IsPrintable.append {t u : List Char} (ht : IsPrintable t) (hu : IsPrintable u) : IsPrintable (t ++ u) :=
  fun c hc => (List.mem_append.mp hc).elim (ht c) (hu c)

theorem IsPrintable.cons {c : Char} {t : List Char} (hc : 0x20 ≤ c.toNat ∧ c.toNat < 0x7f) (ht : IsPrintable t) :
    IsPrintable (c :: t) :=
  fun d hd => (List.mem_cons.mp hd).elim (fun h => h ▸ hc) (ht d)

theorem padded_printable (width n : Nat) : IsPrintable (padded width n) := by
  intro c hc
  rw [padded, List.leftpad, List.mem_append] at hc
  rcases hc with hc | hc
  · rw [List.eq_of_mem_replicate hc]
    decide
  · exact Json.natText_printable n c hc

theorem isoformat_printable (time : Nat) : IsPrintable (isoformat time).toList := by
  have hfraction : IsPrintable (if time % 1000000 = 0 then [] else '.' :: padded 6 (time % 1000000)) := by
    split
    · exact fun c hc => nomatch hc
    · exact (padded_printable _ _).cons (by decide)
  have hzone : IsPrintable "+00:00".toList := by
    have hall : ∀ c ∈ "+00:00".toList, 0x20 ≤ c.toNat ∧ c.toNat < 0x7f := by decide
    exact hall
  have hpad := padded_printable
  simp only [isoformat, String.toList_ofList]
  exact (((((((hpad _ _).append ((hpad _ _).cons (by decide))).append ((hpad _ _).cons (by decide))).append
    ((hpad _ _).cons (by decide))).append ((hpad _ _).cons (by decide))).append
      ((hpad _ _).cons (by decide))).append hfraction).append hzone

theorem isPlainText_of_printable {s : String} (h : IsPrintable s.toList) : isPlainText s = true := by
  refine isPlainText_eq_true.mpr fun c hc => ?_
  obtain ⟨hlow, hhigh⟩ := h c hc
  have hbreak : isLineBreak c = false := by
    simp only [isLineBreak, Bool.or_eq_false_iff, Bool.and_eq_false_iff, decide_eq_false_iff_not,
      beq_eq_false_iff_ne]
    omega
  rw [endsLineUnescaped, hbreak, Bool.false_and]

theorem isPlain_str {s : String} (h : isPlainText s = true) : isPlain (.str s : Json F) = true := by
  simp [isPlain, Json.strings, h]

theorem isPlain_int (n : Int) : isPlain (.int n : Json F) = true := by
  simp [isPlain, Json.strings]

theorem unique_str (s : String) : Json.unique (.str s : Json F) = true := by
  simp [Json.unique]

theorem unique_int (n : Int) : Json.unique (.int n : Json F) = true := by
  simp [Json.unique]

theorem isPlainText_isoformat (time : Nat) : isPlainText (isoformat time) = true :=
  isPlainText_of_printable (isoformat_printable time)

/-! ## Retries and dead letters -/

/-- What a retry is: the record with three fields written. -/
theorem retryRecord_cases {py : Python F} {record retry : Fields F} {now : Nat}
    (h : retryRecord py record now = .ok retry) : ∃ attempts next,
      attemptsOf py record = .ok attempts ∧ addSeconds now (retryDelaySeconds (attempts + 1)) = some next ∧
      retry = Json.setField "last_error" (.str "Codex Memory 服务暂时不可用")
        (Json.setField "next_attempt_at" (.str (isoformat next))
          (Json.setField "attempts" (.int (attempts + 1)) record)) := by
  rw [retryRecord] at h
  cases hattempts : attemptsOf py record with
  | error e =>
    rw [hattempts] at h
    simp only [reduceCtorEq] at h
  | ok attempts =>
    rw [hattempts] at h
    cases hnext : addSeconds now (retryDelaySeconds (attempts + 1)) with
    | none => simp only [hnext, reduceCtorEq] at h
    | some next =>
      simp only [hnext, Except.ok.injEq] at h
      exact ⟨attempts, next, rfl, hnext, h.symm⟩

theorem identity_retryRecord {py : Python F} {record retry : Fields F} {now : Nat}
    (h : retryRecord py record now = .ok retry) : identity retry = identity record := by
  obtain ⟨attempts, next, -, -, rfl⟩ := retryRecord_cases h
  rw [identity_setField (by decide), identity_setField (by decide), identity_setField (by decide)]

theorem identity_deadLetter (record : Fields F) (now : Nat) : identity (deadLetter record now) = identity record := by
  rw [deadLetter, identity_setField (by decide), identity_setField (by decide)]

theorem isStorable_retryRecord {py : Python F} {record retry : Fields F} {now : Nat}
    (h : retryRecord py record now = .ok retry) (hrecord : isStorable record = true) :
    isStorable retry = true := by
  obtain ⟨attempts, next, -, -, rfl⟩ := retryRecord_cases h
  refine isStorable_setField ?_ (by decide) (isPlain_str (by decide)) (unique_str _)
  refine isStorable_setField ?_ (by decide) (isPlain_str (isPlainText_isoformat next)) (unique_str _)
  exact isStorable_setField hrecord (by decide) (isPlain_int _) (unique_int _)

theorem isStorable_deadLetter {record : Fields F} (hrecord : isStorable record = true) (now : Nat) :
    isStorable (deadLetter record now) = true := by
  refine isStorable_setField ?_ (by decide) (isPlain_str (by decide)) (unique_str _)
  exact isStorable_setField hrecord (by decide) (isPlain_str (isPlainText_isoformat now)) (unique_str _)

/-! ## New records -/

theorem stripItems_eq_map (table : Hooks.WordTable) (items : List (Json F)) :
    stripItems table items = items.map (stripSensitive table) := by
  induction items with
  | nil => rfl
  | cons v rest ih => rw [stripItems, ih, List.map_cons]

theorem stripFields_eq_map (table : Hooks.WordTable) (fields : Fields F) :
    stripFields table fields =
      (fields.filter fun field => !isSensitiveKey field.1).map fun field => (field.1, stripSensitive table field.2) := by
  induction fields with
  | nil => rfl
  | cons field rest ih =>
    obtain ⟨k, v⟩ := field
    rw [stripFields]
    split
    · next hk => rw [ih, List.filter_cons_of_neg (by simp [hk])]
    · next hk => rw [ih, List.filter_cons_of_pos (by simp [hk]), List.map_cons]

theorem unique_stripSensitive (table : Hooks.WordTable) (v : Json F) (h : Json.unique v = true) :
    Json.unique (stripSensitive table v) = true := by
  induction v using Json.induction with
  | null => simp [stripSensitive, Json.unique]
  | bool b => simp [stripSensitive, Json.unique]
  | int n => simp [stripSensitive, Json.unique]
  | float x => simp [stripSensitive, Json.unique]
  | str s => simp [stripSensitive, Json.unique]
  | arr items ih =>
    rw [Json.unique, Json.uniqueItems_eq_true] at h
    rw [stripSensitive, Json.unique, Json.uniqueItems_eq_true, stripItems_eq_map]
    intro v hv
    obtain ⟨w, hw, rfl⟩ := List.mem_map.mp hv
    exact ih w hw (h w hw)
  | obj fields ih =>
    rw [Json.unique, Bool.and_eq_true, decide_eq_true_eq, Json.uniqueFields_eq_true] at h
    rw [stripSensitive, Json.unique, Bool.and_eq_true, decide_eq_true_eq, Json.uniqueFields_eq_true,
      stripFields_eq_map]
    constructor
    · rw [List.map_map]
      exact h.1.sublist (List.filter_sublist.map Prod.fst)
    · intro field hfield
      obtain ⟨field', hfield', rfl⟩ := List.mem_map.mp hfield
      have hmem := List.mem_of_mem_filter hfield'
      exact ih field' hmem (h.2 field' hmem)

theorem newRecord_keys (py : Python F) (projectId eventKey : String) (payload : Fields F) (reason : String)
    (now : Nat) : (newRecord py projectId eventKey payload reason now).map Prod.fst =
      ["schema", "project_id", "event_key", "payload", "queued_at", "attempts", "next_attempt_at",
        "last_error"] := rfl

/-- A new record of plain strings is storable. -/
theorem isStorable_newRecord {py : Python F} {projectId eventKey reason : String} {payload : Fields F}
    {now : Nat} (hunique : Json.unique (.obj payload) = true)
    (hplain : isPlain (.obj (newRecord py projectId eventKey payload reason now)) = true) :
    isStorable (newRecord py projectId eventKey payload reason now) = true := by
  have hpayload : hasPayload (newRecord py projectId eventKey payload reason now) = true := by
    have hlookup : (newRecord py projectId eventKey payload reason now).lookup "payload" =
        some (stripSensitive py.table (.obj payload)) := rfl
    rw [hasPayload, hlookup, stripSensitive]
  have hstrip := unique_stripSensitive py.table _ hunique
  rw [isStorable, hplain, hpayload, Json.unique, newRecord_keys, Bool.true_and, Bool.and_true, Bool.and_eq_true]
  refine ⟨by decide, Json.uniqueFields_eq_true.mpr fun field hfield => ?_⟩
  simp only [newRecord, List.mem_cons, List.not_mem_nil, or_false] at hfield
  rcases hfield with rfl | rfl | rfl | rfl | rfl | rfl | rfl | rfl
  · exact unique_int 1
  · exact unique_str _
  · exact unique_str _
  · exact hstrip
  · exact unique_str _
  · exact unique_int 0
  · simp [Json.unique]
  · exact unique_str _

/-! ## The loop of `replay` -/

/-- The identities of the storable ones among records. -/
def identities (records : List (Fields F)) : Multiset (Fields F) :=
  ((records.filter isStorable).map identity : List (Fields F))

theorem identities_append (a b : List (Fields F)) : identities (a ++ b) = identities a + identities b := by
  rw [identities, List.filter_append, List.map_append, ← Multiset.coe_add]
  rfl

theorem identities_cons (r : Fields F) (rs : List (Fields F)) :
    identities (r :: rs) = identities [r] + identities rs := identities_append [r] rs

theorem identities_nil : identities ([] : List (Fields F)) = 0 := rfl

theorem identities_le_of_imp {r r' : Fields F} (hidentity : identity r' = identity r)
    (hstorable : isStorable r = true → isStorable r' = true) : identities [r] ≤ identities [r'] := by
  cases hr : isStorable r with
  | false =>
    have hnil : identities [r] = 0 := by simp [identities, hr]
    rw [hnil]
    exact Multiset.zero_le _
  | true => simp [identities, hr, hstorable hr, hidentity]

/-- The records for which `send` returned. -/
def Pass.delivered (pass : Pass F) : List (Fields F) :=
  (pass.sends.filter fun s => decide (s.2 = .returned)).map Prod.fst

/-- What the loop does with a record before the pass over the others: it keeps it,
delivers it, makes it a dead letter, keeps its retry, or raises. -/
inductive Passes (py : Python F) (now : Nat) (record : Fields F) (pass : Pass F) : Pass F → Prop
  | kept : Passes py now record pass { pass with remaining := record :: pass.remaining }
  | delivered : Passes py now record pass { pass with sends := (record, .returned) :: pass.sends }
  | dead (outcome : Outcome) (time : Nat) (failed : outcome ≠ .returned) :
      Passes py now record pass { pass with
        sends := (record, outcome) :: pass.sends
        deadRecords := deadLetter record time :: pass.deadRecords }
  | retried (outcome : Outcome) (retry : Fields F) (failed : outcome ≠ .returned)
      (made : retryRecord py record now = .ok retry) :
      Passes py now record pass { pass with
        sends := (record, outcome) :: pass.sends
        remaining := retry :: pass.remaining }
  | raised (outcome : Outcome) (error : Error) (failed : outcome ≠ .returned)
      (made : retryRecord py record now = .error error) :
      Passes py now record pass { sends := [(record, outcome)], error := some error }

theorem passRecords_cons (py : Python F) (now : Nat) (record : Fields F) (records : List (Fields F))
    (attempt : Nat → Attempt) : ∃ attempt',
      Passes py now record (passRecords py now records attempt')
        (passRecords py now (record :: records) attempt) := by
  cases hdue : isDue py record now with
  | false =>
    refine ⟨attempt, ?_⟩
    rw [passRecords, if_neg (by rw [hdue]; exact Bool.false_ne_true)]
    exact Passes.kept
  | true =>
    refine ⟨fun i => attempt (i + 1), ?_⟩
    rw [passRecords, if_pos hdue]
    cases houtcome : (attempt 0).outcome with
    | returned => exact Passes.delivered
    | permanentHookError => exact Passes.dead _ _ (by decide)
    | retryableHookError =>
      cases hretry : retryRecord py record now with
      | error e => exact Passes.raised _ e (by decide) hretry
      | ok retry => exact Passes.retried _ retry (by decide) hretry
    | otherException =>
      cases hretry : retryRecord py record now with
      | error e => exact Passes.raised _ e (by decide) hretry
      | ok retry => exact Passes.retried _ retry (by decide) hretry

theorem Pass.delivered_cons_returned (pass : Pass F) (record : Fields F) :
    ({ pass with sends := (record, .returned) :: pass.sends } : Pass F).delivered = record :: pass.delivered := rfl

theorem Pass.delivered_cons_failed (pass : Pass F) {outcome : Outcome} (h : outcome ≠ .returned)
    (record : Fields F) (remaining dead : List (Fields F)) :
    ({ pass with sends := (record, outcome) :: pass.sends, remaining := remaining, deadRecords := dead } :
      Pass F).delivered = pass.delivered := by
  rw [Pass.delivered, List.filter_cons_of_neg (by simp [h])]
  rfl

/-- **The loop loses no record**: each is delivered, a dead letter or remaining. -/
theorem passRecords_keeps (py : Python F) (now : Nat) (records : List (Fields F)) (attempt : Nat → Attempt)
    (h : (passRecords py now records attempt).error = none) :
    identities records ≤ identities (passRecords py now records attempt).delivered +
      identities (passRecords py now records attempt).deadRecords +
      identities (passRecords py now records attempt).remaining := by
  induction records generalizing attempt with
  | nil => exact Multiset.zero_le _
  | cons record records ih =>
    rw [identities_cons]
    obtain ⟨attempt', hpasses⟩ := passRecords_cons py now record records attempt
    have hrest := ih attempt'
    generalize passRecords py now records attempt' = pass at hpasses hrest
    generalize passRecords py now (record :: records) attempt = pass' at hpasses h
    cases hpasses with
    | kept =>
      refine (add_le_add (le_refl _) (hrest h)).trans (le_of_eq ?_)
      show _ = identities pass.delivered + identities pass.deadRecords + identities (record :: pass.remaining)
      rw [identities_cons record pass.remaining]
      ac_rfl
    | delivered =>
      refine (add_le_add (le_refl _) (hrest h)).trans (le_of_eq ?_)
      rw [Pass.delivered_cons_returned, identities_cons record pass.delivered]
      ac_rfl
    | dead outcome time failed =>
      have hdead := identities_le_of_imp (identity_deadLetter record time) fun hr => isStorable_deadLetter hr time
      refine (add_le_add hdead (hrest h)).trans (le_of_eq ?_)
      rw [Pass.delivered_cons_failed pass failed]
      show _ = identities pass.delivered + identities (deadLetter record time :: pass.deadRecords) +
        identities pass.remaining
      rw [identities_cons (deadLetter record time) pass.deadRecords]
      ac_rfl
    | retried outcome retry failed made =>
      have hretry := identities_le_of_imp (identity_retryRecord made) (isStorable_retryRecord made)
      refine (add_le_add hretry (hrest h)).trans (le_of_eq ?_)
      rw [Pass.delivered_cons_failed pass failed]
      show _ = identities pass.delivered + identities pass.deadRecords + identities (retry :: pass.remaining)
      rw [identities_cons retry pass.remaining]
      ac_rfl
    | raised outcome error failed made => cases h

end CodexMemory.Outbox
