import CodexMemory.OpenApi.References

/-!
# References after normalisation

A reference is followed in the source with the reading of each step (`follow`),
which gives the normal form of what it denotes.  A step `breaks` where
normalisation has moved or changed what it leads to.  `references_alive`:
references without such a step lead to the normal form in the normalised
document, and the others do not, except where something else stands in the same
place (`masked`).
-/

namespace CodexMemory.OpenApi

open Json (sortKeys sortedFields)

variable {F : Type}

/-- The tokens of a reference; `none` where `_pointer` raises at once. -/
def tokensOf (reference : String) : Option (List String) :=
  if reference = "#" then some []
  else if ['#', '/'].isPrefixOf reference.toList then some (pointerTokens reference)
  else none

/-- The reading of `w`, to which `token` leads from `v`. -/
def Mode.below (m : Mode) (v : Json F) (token : String) (w : Json F) : Mode :=
  match v with
  | .obj _ => m.child token w
  | _ => m.item.getD .data

/-- What tokens lead to, with its reading. -/
def follow (host : Host F) (reference : String) : Mode → Json F → List String → Option (Mode × Json F)
  | m, v, [] => some (m, v)
  | m, v, token :: rest =>
    match pointerStep host reference v token with
    | .ok w => follow host reference (m.below v token w) w rest
    | .error _ => none

/-- Normalisation wraps the schema, or leaves out or changes the field `token` of it. -/
def breaks (from30 : Bool) (m : Mode) (v : Json F) (token : String) : Bool :=
  match v with
  | .obj fields => from30 && m = .schema && (wraps fields || changed fields token)
  | _ => false

/-- No step breaks. -/
def steady (host : Host F) (from30 : Bool) (reference : String) : Mode → Json F → List String → Bool
  | _, _, [] => true
  | m, v, token :: rest =>
    !breaks from30 m v token &&
      match pointerStep host reference v token with
      | .ok w => steady host from30 reference (m.below v token w) w rest
      | .error _ => true

/-- Something else stands under `token`: the list that wraps the schema, or a longer list of types. -/
def replaced (v : Json F) (token : String) : Bool :=
  match v with
  | .obj fields =>
    (wraps fields && token = "anyOf") || (token = "type" && ((fields.lookup "type").map isList).getD false)
  | _ => false

/-- The first step that breaks leads to something else. -/
def masked (host : Host F) (from30 : Bool) (reference : String) : Mode → Json F → List String → Bool
  | _, _, [] => false
  | m, v, token :: rest =>
    if breaks from30 m v token then replaced v token
    else
      match pointerStep host reference v token with
      | .ok w => masked host from30 reference (m.below v token w) w rest
      | .error _ => false

section

variable [DocumentFloat F]

def withVersion : Json F → Json F
  | .obj fields => .obj (Json.setField "openapi" (.str "3.1.0") fields)
  | v => v

/-- The normal form of what the tokens lead to; the version is written anew. -/
def normalForm (from30 : Bool) (tokens : List String) (m : Mode) (v : Json F) : Option (Json F) :=
  match tokens with
  | [] => (normalize from30 m v).map fun w => canonical (withVersion w)
  | ["openapi"] => some (.str "3.1.0")
  | _ => (normalize from30 m v).map canonical

/-- The reference leads, in the normalised document, to the normal form of what it denotes in the source. -/
def Alive (host : Host F) (from30 : Bool) (source document : Json F) (reference : String) : Prop :=
  ∃ tokens m v w, tokensOf reference = some tokens ∧ follow host reference .root source tokens = some (m, v) ∧
    normalForm from30 tokens m v = some w ∧ pointer host document reference = .ok w

def steadyRef (host : Host F) (from30 : Bool) (source : Json F) (reference : String) : Bool :=
  steady host from30 reference .root source ((tokensOf reference).getD [])

def maskedRef (host : Host F) (from30 : Bool) (source : Json F) (reference : String) : Bool :=
  masked host from30 reference .root source ((tokensOf reference).getD [])

end

/-! ## Following and `_pointer` -/

section

variable {host : Host F} {reference : String}

theorem foldlM_cons (v : Json F) (token : String) (rest : List String) :
    (token :: rest).foldlM (pointerStep host reference) v =
      (pointerStep host reference v token).bind fun w => rest.foldlM (pointerStep host reference) w := rfl

theorem follow_iff (m : Mode) (v w : Json F) (tokens : List String) :
    tokens.foldlM (pointerStep host reference) v = .ok w ↔ ∃ n, follow host reference m v tokens = some (n, w) := by
  induction tokens generalizing m v with
  | nil =>
    rw [follow, List.foldlM_nil]
    constructor
    · intro h
      cases h
      exact ⟨m, rfl⟩
    · rintro ⟨n, h⟩
      cases h
      rfl
  | cons token rest ih =>
    rw [follow, foldlM_cons]
    cases hstep : pointerStep host reference v token with
    | ok u => exact ih _ u
    | error e => exact iff_of_false nofun nofun

theorem pointer_eq {document v : Json F} : pointer host document reference = .ok v ↔
    ∃ tokens, tokensOf reference = some tokens ∧ tokens.foldlM (pointerStep host reference) document = .ok v := by
  rw [pointer, tokensOf]
  split
  · simp [pure, Except.pure]
  · split <;> simp

/-- **Following is `_pointer`.** -/
theorem pointer_follow {document v : Json F} : pointer host document reference = .ok v ↔
    ∃ tokens m, tokensOf reference = some tokens ∧ follow host reference .root document tokens = some (m, v) := by
  rw [pointer_eq]
  refine exists_congr fun tokens => ?_
  rw [follow_iff .root]
  simp

/-- Nothing is below a value that is no object and no array. -/
theorem follow_scalar {m n : Mode} {v w : Json F} {tokens : List String} (hobject : v.isObject = false)
    (hlist : isList v = false) (h : follow host reference m v tokens = some (n, w)) : tokens = [] := by
  cases tokens with
  | nil => rfl
  | cons token rest =>
    cases v with
    | null | bool b | int n | float x | str s => cases h
    | arr items => cases hlist
    | obj fields => cases hobject

/-! ## One step -/

/-- A step that does not depend on the order of keys. -/
theorem pointerStep_sortKeys {v u : Json F} {token : String} (h : pointerStep host reference v token = .ok u) :
    pointerStep host reference (sortKeys v) token = .ok (sortKeys u) := by
  cases v with
  | null | bool b | int n | float x | str s => cases h
  | arr items =>
    rw [Json.sortKeys_arr]
    rw [pointerStep] at h ⊢
    split at h
    · next hdigits =>
      rw [if_pos hdigits]
      split at h
      · cases h
      · next index hindex =>
        split at h
        · next w hw =>
          cases h
          simp only [List.getElem?_map, hw, Option.map_some]
        · cases h
    · cases h
  | obj fields =>
    rw [Json.sortKeys_obj]
    rw [pointerStep] at h ⊢
    split at h
    · next w hw =>
      cases h
      rw [Json.lookup_sorted, hw, Option.map_some]
    · cases h

theorem pointerStep_obj {fields : List (String × Json F)} {token : String} {u : Json F} :
    pointerStep host reference (.obj fields) token = .ok u ↔ fields.lookup token = some u := by
  rw [pointerStep]
  cases fields.lookup token <;> simp

/-- The same place in two lists. -/
theorem pointerStep_arr {items ws : List (Json F)} {token : String} {u : Json F}
    {R : Json F → Json F → Prop} (hall : List.Forall₂ R items ws)
    (h : pointerStep host reference (.arr items) token = .ok u) :
    ∃ w, R u w ∧ pointerStep host reference (.arr ws) token = .ok w := by
  rw [pointerStep] at h
  split at h
  · next hdigits =>
    split at h
    · cases h
    · next index hindex =>
      split at h
      · next v hv =>
        rw [Except.ok.inj h] at hv
        obtain ⟨w, hw, hR⟩ : ∃ w, ws[index]? = some w ∧ R u w := by
          obtain ⟨hlt, rfl⟩ := List.getElem?_eq_some_iff.mp hv
          have hlt' : index < ws.length := hall.length_eq ▸ hlt
          exact ⟨ws[index], List.getElem?_eq_getElem hlt', hall.get hlt hlt'⟩
        refine ⟨w, hR, ?_⟩
        rw [pointerStep, if_pos hdigits]
        simp only [hindex, hw]
      · cases h
  · cases h

variable [DocumentFloat F] {from30 : Bool}

/-- **A step that does not break** leads from the normal form to the normal form. -/
theorem step_normal {m : Mode} {v w u : Json F} {token : String} (hnormal : normalize from30 m v = some w)
    (hstep : pointerStep host reference v token = .ok u) (hbreaks : breaks from30 m v token = false) :
    ∃ w', normalize from30 (m.below v token u) u = some w' ∧
      pointerStep host reference (canonical w) token = .ok (canonical w') := by
  have hraw : ∀ {w : Json F}, w = v ∨ w = sortKeys v →
      pointerStep host reference (canonical w) token = .ok (canonical (canonical u)) := by
    intro w hw
    rw [canonical, canonical, canonical, Json.sortKeys_sortKeys]
    rcases hw with rfl | rfl
    · exact pointerStep_sortKeys hstep
    · rw [Json.sortKeys_sortKeys]
      exact pointerStep_sortKeys hstep
  cases v with
  | null | bool b | int n | float x | str s => cases hstep
  | arr items =>
    have hbelow : m.below (.arr items) token u = m.item.getD .data := rfl
    rw [normalize] at hnormal
    by_cases hdata : m = .data
    · subst hdata
      rw [if_pos rfl] at hnormal
      exact ⟨canonical u, canonical_of_data u, hraw (Or.inr (Option.some.inj hnormal).symm)⟩
    · rw [if_neg hdata] at hnormal
      cases hitem : m.item with
      | none =>
        rw [hitem] at hnormal
        rw [hbelow, hitem]
        exact ⟨canonical u, canonical_of_data u, hraw (Or.inl (Option.some.inj hnormal).symm)⟩
      | some n =>
        rw [hitem] at hnormal
        obtain ⟨ws, hws, rfl⟩ := Option.map_eq_some_iff.mp hnormal
        obtain ⟨w', hw', hstep'⟩ := pointerStep_arr (normalizeAll_eq hws) hstep
        rw [hbelow, hitem]
        exact ⟨w', hw', pointerStep_sortKeys hstep'⟩
  | obj fields =>
    rw [pointerStep_obj] at hstep
    have hkept : ∀ {ws : List (String × Json F)}, Kept from30 m fields ws token →
        ∃ w', normalize from30 (m.child token u) u = some w' ∧
          pointerStep host reference (canonical (.obj ws)) token = .ok (canonical w') := by
      intro ws hkept
      rcases hkept with ⟨hnone, -⟩ | ⟨v', w', hv', hw', hnormal'⟩
      · rw [hstep] at hnone
        cases hnone
      · obtain rfl := Option.some.inj (hstep.symm.trans hv')
        exact ⟨w', hnormal', pointerStep_sortKeys (pointerStep_obj.mpr hw')⟩
    by_cases hdata : m = .data
    · subst hdata
      rw [canonical_of_data] at hnormal
      exact ⟨canonical u, canonical_of_data u, hraw (Or.inr (Option.some.inj hnormal).symm)⟩
    · by_cases hschema : m = .schema ∧ from30 = true
      · obtain ⟨rfl, rfl⟩ := hschema
        obtain ⟨ws, himage, rfl⟩ := normalize_schema hnormal
        have hplain : wraps fields = false ∧ changed fields token = false := by
          simpa [breaks] using hbreaks
        rw [hplain.1, if_neg Bool.false_ne_true]
        exact hkept (himage.kept token hplain.2)
      · obtain ⟨ws, rfl, -, hall⟩ := normalize_object (fun hm => by
          cases from30 with
          | false => rfl
          | true => exact absurd ⟨hm, rfl⟩ hschema) hdata hnormal
        exact hkept (hall token)

/-- **Steady tokens** lead from the normal form to the normal form. -/
theorem follow_normal {m n : Mode} {v w u : Json F} {tokens : List String} (hnormal : normalize from30 m v = some w)
    (hfollow : follow host reference m v tokens = some (n, u))
    (hsteady : steady host from30 reference m v tokens = true) :
    ∃ w', normalize from30 n u = some w' ∧
      tokens.foldlM (pointerStep host reference) (canonical w) = .ok (canonical w') := by
  induction tokens generalizing m v w with
  | nil =>
    cases hfollow
    exact ⟨w, hnormal, rfl⟩
  | cons token rest ih =>
    rw [follow] at hfollow
    rw [steady, Bool.and_eq_true, Bool.not_eq_true'] at hsteady
    cases hstep : pointerStep host reference v token with
    | error e =>
      rw [hstep] at hfollow
      cases hfollow
    | ok u' =>
      rw [hstep] at hfollow hsteady
      obtain ⟨w', hw', hstep'⟩ := step_normal hnormal hstep hsteady.1
      obtain ⟨w₂, hw₂, hrest⟩ := ih hw' hfollow hsteady.2
      refine ⟨w₂, hw₂, ?_⟩
      rw [foldlM_cons, hstep']
      exact hrest

/-! ## A step that breaks -/

omit [DocumentFloat F] in
/-- The first step from an object. -/
theorem foldlM_lookup {ws : List (String × Json F)} {token : String} {rest : List String} {w : Json F}
    (h : (token :: rest).foldlM (pointerStep host reference) (canonical (.obj ws)) = .ok w) :
    ∃ u, ws.lookup token = some u ∧ rest.foldlM (pointerStep host reference) (sortKeys u) = .ok w := by
  rw [foldlM_cons, canonical, Json.sortKeys_obj] at h
  cases hlookup : ws.lookup token with
  | none =>
    rw [pointerStep, Json.lookup_sorted, hlookup] at h
    cases h
  | some u =>
    rw [pointerStep, Json.lookup_sorted, hlookup] at h
    exact ⟨u, rfl, h⟩

/-- **A step that breaks** does not lead to the normal form, unless something else is in its place. -/
theorem break_lost {m n : Mode} {v w u w' : Json F} {token : String} {rest : List String}
    (hnormal : normalize from30 m v = some w) (hbreaks : breaks from30 m v token = true)
    (hfollow : follow host reference m v (token :: rest) = some (n, u)) (hu : normalize from30 n u = some w')
    (hlead : (token :: rest).foldlM (pointerStep host reference) (canonical w) = .ok (canonical w')) :
    replaced v token = true := by
  cases v with
  | null | bool b | int n | float x | str s | arr items => cases hbreaks
  | obj fields =>
    rw [breaks, Bool.and_eq_true, Bool.and_eq_true, decide_eq_true_eq] at hbreaks
    obtain ⟨⟨hfrom30, rfl⟩, hbreaks⟩ := hbreaks
    subst hfrom30
    obtain ⟨ws, himage, rfl⟩ := normalize_schema hnormal
    -- what stands under the token in the source ends the reference if it is a scalar
    have hscalar : ∀ {s : Json F}, fields.lookup token = some s → s.isObject = false → isList s = false →
        rest = [] ∧ canonical w' = s := by
      intro s hs hobject hlist
      rw [follow, pointerStep_obj.mpr hs] at hfollow
      have hrest := follow_scalar hobject hlist hfollow
      subst hrest
      cases hfollow
      refine ⟨rfl, ?_⟩
      cases u with
      | null | bool b | int n | float x | str s =>
        cases hu
        rfl
      | arr items => cases hlist
      | obj fields => cases hobject
    by_cases hwraps : wraps fields = true
    · rw [if_pos hwraps, wrapper] at hlead
      obtain ⟨u', hu', -⟩ := foldlM_lookup hlead
      rw [Json.lookup_cons_if] at hu'
      split at hu'
      · next htoken => simp [replaced, hwraps, htoken]
      · cases hu'
    · rw [if_neg hwraps] at hlead
      obtain ⟨u', hu', hrest⟩ := foldlM_lookup hlead
      have hbound : ∀ bound exclusive, BoundFields fields ws bound exclusive →
          (token = exclusive ∧ (boundFlag fields exclusive).isSome = true) ∨
            (token = bound ∧ boundFlag fields exclusive = some true) → False := by
        intro bound exclusive hfields hcase
        rcases hcase with ⟨rfl, hsome⟩ | ⟨rfl, htrue⟩
        · obtain ⟨b, hflag⟩ := Option.isSome_iff_exists.mp hsome
          cases b with
          | false =>
            rw [hfields.removed hflag] at hu'
            cases hu'
          | true =>
            obtain ⟨-, number, -, hnumber, hws⟩ := hfields.moved hflag
            obtain ⟨rfl, hvalue⟩ := hscalar (boundFlag_eq.mp hflag) rfl rfl
            rw [hws] at hu'
            cases hu'
            rw [hvalue] at hrest
            cases hnumber with
            | int n => cases hrest
            | float x finite => cases hrest
        · rw [(hfields.moved htrue).1] at hu'
          cases hu'
      simp only [hwraps, Bool.false_or, changed, Bool.or_eq_true, Bool.and_eq_true, decide_eq_true_eq] at hbreaks
      rcases hbreaks with ((((rfl | hmin) | hmax) | hmin) | hmax) | ⟨⟨rfl, hnullable⟩, htype⟩
      · rw [himage.nullable] at hu'
        cases hu'
      · exact absurd (Or.inl hmin) (hbound _ _ himage.minimum)
      · exact absurd (Or.inl hmax) (hbound _ _ himage.maximum)
      · exact absurd (Or.inr hmin) (hbound _ _ himage.minimum)
      · exact absurd (Or.inr hmax) (hbound _ _ himage.maximum)
      · unfold hasType at htype
        split at htype
        · next name hname =>
          obtain ⟨rfl, hvalue⟩ := hscalar hname rfl rfl
          rw [himage.typeName name hnullable hname] at hu'
          cases hu'
          rw [hvalue] at hrest
          cases hrest
        · next types htypes => simp [replaced, htypes, isList]
        · cases htype

/-- **Tokens that lead to the normal form** are steady or masked. -/
theorem steady_or_masked {m n : Mode} {v w u w' : Json F} {tokens : List String}
    (hnormal : normalize from30 m v = some w) (hfollow : follow host reference m v tokens = some (n, u))
    (hu : normalize from30 n u = some w')
    (hlead : tokens.foldlM (pointerStep host reference) (canonical w) = .ok (canonical w')) :
    steady host from30 reference m v tokens = true ∨ masked host from30 reference m v tokens = true := by
  induction tokens generalizing m v w with
  | nil => exact Or.inl rfl
  | cons token rest ih =>
    cases hbreaks : breaks from30 m v token with
    | true =>
      right
      rw [masked, if_pos hbreaks]
      exact break_lost hnormal hbreaks hfollow hu hlead
    | false =>
      rw [follow] at hfollow
      cases hstep : pointerStep host reference v token with
      | error e =>
        rw [hstep] at hfollow
        cases hfollow
      | ok v' =>
        rw [hstep] at hfollow
        obtain ⟨w₁, hw₁, hstep'⟩ := step_normal hnormal hstep hbreaks
        rw [foldlM_cons, hstep'] at hlead
        rw [steady, masked, hstep, hbreaks]
        simpa using ih hw₁ hfollow hlead

/-! ## The document -/

omit [DocumentFloat F] in
/-- The version is the only field that is written anew. -/
theorem foldlM_version {ws : List (String × Json F)} {token : String} (htoken : token ≠ "openapi") (version : Json F)
    (rest : List String) :
    (token :: rest).foldlM (pointerStep host reference) (canonical (.obj (Json.setField "openapi" version ws))) =
      (token :: rest).foldlM (pointerStep host reference) (canonical (.obj ws)) := by
  rw [foldlM_cons, foldlM_cons, canonical, canonical, Json.sortKeys_obj, Json.sortKeys_obj, pointerStep, pointerStep,
    Json.lookup_sorted, Json.lookup_sorted, lookup_setField, if_neg htoken]

theorem normalForm_cons {token : String} (htoken : token ≠ "openapi") (rest : List String) (m : Mode) (v : Json F) :
    normalForm from30 (token :: rest) m v = (normalize from30 m v).map canonical := by
  unfold normalForm
  split
  · next heq => cases heq
  · next heq => exact absurd (List.cons.inj heq).1 htoken
  · rfl

variable {filename : String} {content : ByteArray} {previous : List PreviousOperation} {parsed : NormalizedOpenAPI F}

/-- The reference of a token of the version ends there. -/
theorem rest_of_version (h : Accepted host filename content previous parsed) {rest : List String} {n : Mode} {u : Json F}
    (hfollow : follow host reference .root parsed.sourceDocument ("openapi" :: rest) = some (n, u)) : rest = [] := by
  have hversion := version_of_document h.read.version
  obtain ⟨fields, hfields⟩ := h.read.object
  rw [hfields] at hfollow hversion
  rw [follow, pointerStep_obj.mpr hversion] at hfollow
  exact follow_scalar rfl rfl hfollow

/-- The reference leads to the normal form of what its tokens lead to. -/
theorem alive_iff {token : String} {rest : List String} {n : Mode}
    {u : Json F} (htokens : tokensOf reference = some (token :: rest)) (htoken : token ≠ "openapi")
    (hfollow : follow host reference .root parsed.sourceDocument (token :: rest) = some (n, u)) {ws : List (String × Json F)}
    (hdocument : parsed.document = canonical (.obj (Json.setField "openapi" (.str "3.1.0") ws))) :
    Alive host from30 parsed.sourceDocument parsed.document reference ↔
      ∃ w', normalize from30 n u = some w' ∧
        (token :: rest).foldlM (pointerStep host reference) (canonical (.obj ws)) = .ok (canonical w') := by
  have hpointer : ∀ w, pointer host parsed.document reference = .ok w ↔
      (token :: rest).foldlM (pointerStep host reference) (canonical (.obj ws)) = .ok w := by
    intro w
    rw [pointer_eq, ← foldlM_version htoken (.str "3.1.0"), ← hdocument]
    constructor
    · rintro ⟨tokens, htokens', hlead⟩
      obtain rfl := Option.some.inj (htokens.symm.trans htokens')
      exact hlead
    · exact fun hlead => ⟨_, htokens, hlead⟩
  constructor
  · rintro ⟨tokens, m, v, w, htokens', hfollow', hform, hlead⟩
    obtain rfl := Option.some.inj (htokens.symm.trans htokens')
    obtain ⟨rfl, rfl⟩ := Prod.mk.inj (Option.some.inj (hfollow.symm.trans hfollow'))
    rw [normalForm_cons htoken, Option.map_eq_some_iff] at hform
    obtain ⟨w', hw', rfl⟩ := hform
    exact ⟨w', hw', (hpointer _).mp hlead⟩
  · rintro ⟨w', hw', hlead⟩
    refine ⟨_, n, u, canonical w', htokens, hfollow, ?_, (hpointer _).mpr hlead⟩
    rw [normalForm_cons htoken, hw', Option.map_some]

/-- The document itself, and its version. -/
theorem alive_short (h : Accepted host filename content previous parsed) {tokens : List String} {n : Mode} {u : Json F}
    (htokens : tokensOf reference = some tokens) (hshort : tokens = [] ∨ tokens = ["openapi"])
    (hfollow : follow host reference .root parsed.sourceDocument tokens = some (n, u)) :
    Alive host (decide (parsed.sourceVersion = "3.0.3")) parsed.sourceDocument parsed.document reference := by
  obtain ⟨ws, hws, hdocument⟩ := h.normal
  rcases hshort with rfl | rfl
  · cases hfollow
    refine ⟨[], .root, _, parsed.document, htokens, rfl, ?_, pointer_eq.mpr ⟨[], htokens, rfl⟩⟩
    rw [normalForm, hws, Option.map_some, withVersion, hdocument]
  · refine ⟨_, n, u, .str "3.1.0", htokens, hfollow, rfl, pointer_eq.mpr ⟨_, htokens, ?_⟩⟩
    rw [foldlM_cons, hdocument, canonical, Json.sortKeys_obj, pointerStep, Json.lookup_sorted, lookup_setField, if_pos rfl]
    rfl

/-- **References after normalisation.**  If no reference of the source has a step that breaks, then
every reference of the normalised document leads to the normal form of what it denotes in the
source; and one that does so has no such step, or its first such step is masked. -/
theorem references_alive (h : parseAndNormalizeOpenapi host filename content previous = .ok parsed) :
    ((∀ r ∈ refsOf parsed.sourceDocument,
        steadyRef host (decide (parsed.sourceVersion = "3.0.3")) parsed.sourceDocument r = true) →
      ∀ r ∈ refsOf parsed.document,
        Alive host (decide (parsed.sourceVersion = "3.0.3")) parsed.sourceDocument parsed.document r) ∧
    ∀ r ∈ refsOf parsed.document, r ∈ refsOf parsed.sourceDocument ∧
      (Alive host (decide (parsed.sourceVersion = "3.0.3")) parsed.sourceDocument parsed.document r →
        steadyRef host (decide (parsed.sourceVersion = "3.0.3")) parsed.sourceDocument r = true ∨
          maskedRef host (decide (parsed.sourceVersion = "3.0.3")) parsed.sourceDocument r = true) := by
  have haccepted := parse_accepted h
  obtain ⟨ws, hws, hdocument⟩ := haccepted.normal
  have hsource : ∀ r ∈ refsOf parsed.document, r ∈ refsOf parsed.sourceDocument := by
    intro r hr
    rw [hdocument, canonical, refs_sortKeys] at hr
    exact refs_normalize hws ((refs_setField hr nofun).resolve_left nofun)
  constructor
  · intro hsteady r hr
    obtain ⟨v, hv⟩ := refs_followed haccepted.read (hsource r hr)
    obtain ⟨tokens, m, htokens, hfollow⟩ := pointer_follow.mp hv
    cases tokens with
    | nil => exact alive_short haccepted htokens (Or.inl rfl) hfollow
    | cons token rest =>
      by_cases htoken : token = "openapi"
      · subst htoken
        obtain rfl := rest_of_version haccepted hfollow
        exact alive_short haccepted htokens (Or.inr rfl) hfollow
      · refine (alive_iff htokens htoken hfollow hdocument).mpr (follow_normal hws hfollow ?_)
        have hr' := hsteady r (hsource r hr)
        rw [steadyRef, htokens] at hr'
        exact hr'
  · refine fun r hr => ⟨hsource r hr, fun halive => ?_⟩
    obtain ⟨tokens, m, v, -, htokens, hfollow, -, -⟩ := id halive
    rw [steadyRef, maskedRef, htokens, Option.getD_some]
    cases tokens with
    | nil => exact Or.inl rfl
    | cons token rest =>
      by_cases htoken : token = "openapi"
      · subst htoken
        obtain rfl := rest_of_version haccepted hfollow
        left
        obtain ⟨fields, hfields⟩ := haccepted.read.object
        rw [hfields, steady, breaks]
        split <;> simp [steady]
      · obtain ⟨w', hw', hlead⟩ := (alive_iff htokens htoken hfollow hdocument).mp halive
        exact steady_or_masked hws hfollow hw' hlead

end

/-! ## Concrete references -/

/-- A document of version 3.0.3 whose response refers to `reference` and whose schema `Pet` is `pet`. -/
def petReferring (reference : String) (pet : List (String × Json Empty)) : Json Empty :=
  petDocument [("200", petResponse (.obj [("$ref", .str reference)]))]
    [("components", .obj [("schemas", .obj [("Pet", .obj pet)])])]

def petName : List (String × Json Empty) := [("properties", .obj [("name", .obj [("type", .str "string")])])]

/-- A reference into a schema that is not wrapped stays alive. -/
theorem references_alive_pet :
    ∃ parsed, parsePet (petReferring "#/components/schemas/Pet/properties/name" (("type", .str "object") :: petName)) =
        .ok parsed ∧
      refsOf parsed.document = ["#/components/schemas/Pet/properties/name"] ∧
      ∀ r ∈ refsOf parsed.document,
        Alive plainHost (decide (parsed.sourceVersion = "3.0.3")) parsed.sourceDocument parsed.document r := by
  have hchecked : accepts (petReferring "#/components/schemas/Pet/properties/name" (("type", .str "object") :: petName))
      (fun parsed => decide (refsOf parsed.document = ["#/components/schemas/Pet/properties/name"]) &&
        (refsOf parsed.sourceDocument).all fun r =>
          steadyRef plainHost (decide (parsed.sourceVersion = "3.0.3")) parsed.sourceDocument r) = true := by
    decide +kernel
  obtain ⟨parsed, hparsed, h⟩ := accepts_ok hchecked
  rw [Bool.and_eq_true, decide_eq_true_eq, List.all_eq_true] at h
  exact ⟨parsed, hparsed, h.1, (references_alive hparsed).1 h.2⟩

/-- The key that is missed is the reference itself. -/
def missesAll (result : Except Failure (Json F)) (reference : String) : Bool :=
  match result with
  | .error (.key r) => decide (r = reference)
  | _ => false

/-- **A reference into a schema that is wrapped** leads nowhere. -/
theorem reference_lost :
    ∃ parsed, parsePet (petReferring "#/components/schemas/Pet/properties/name" (("nullable", .bool true) :: petName)) =
        .ok parsed ∧
      ∃ r ∈ refsOf parsed.document, pointer plainHost parsed.document r = .error (.key r) ∧
        ¬ Alive plainHost true parsed.sourceDocument parsed.document r := by
  have hchecked : accepts (petReferring "#/components/schemas/Pet/properties/name" (("nullable", .bool true) :: petName))
      (fun parsed => decide ("#/components/schemas/Pet/properties/name" ∈ refsOf parsed.document) &&
        missesAll (pointer plainHost parsed.document "#/components/schemas/Pet/properties/name")
          "#/components/schemas/Pet/properties/name") = true := by
    decide +kernel
  obtain ⟨parsed, hparsed, h⟩ := accepts_ok hchecked
  rw [Bool.and_eq_true, decide_eq_true_eq] at h
  obtain ⟨hmem, hkey⟩ := h
  unfold missesAll at hkey
  split at hkey
  · next r hr =>
    rw [decide_eq_true_eq] at hkey
    rw [hkey] at hr
    refine ⟨parsed, hparsed, _, hmem, hr, ?_⟩
    rintro ⟨tokens, m, v, w, -, -, -, hlead⟩
    rw [hr] at hlead
    cases hlead
  · cases hkey

end CodexMemory.OpenApi
