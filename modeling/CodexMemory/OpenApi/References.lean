import CodexMemory.OpenApi.Accepted
import CodexMemory.OpenApi.Images

/-!
# The references of a document

`refsOf` lists the `$ref` strings of a value.  Normalisation makes no new ones
(`refs_normalize`), and every one of an accepted document can be followed in it
(`refs_followed`).
-/

namespace CodexMemory.OpenApi

open Json (sortKeys sortedFields)

variable {F : Type}

/-- The string under `$ref`. -/
def ownRef (key : String) (v : Json F) : List String :=
  match v with
  | .str reference => if key = "$ref" then [reference] else []
  | _ => []

mutual

/-- The `$ref` strings in a value. -/
def refsOf : Json F → List String
  | .arr items => refsOfItems items
  | .obj fields => refsOfFields fields
  | _ => []

def refsOfItems : List (Json F) → List String
  | [] => []
  | v :: rest => refsOf v ++ refsOfItems rest

def refsOfFields : List (String × Json F) → List String
  | [] => []
  | (key, v) :: rest => ownRef key v ++ refsOf v ++ refsOfFields rest

end

theorem mem_ownRef {key : String} {v : Json F} {reference : String} :
    reference ∈ ownRef key v ↔ key = "$ref" ∧ v = .str reference := by
  cases v with
  | str s =>
    rw [ownRef]
    by_cases hkey : key = "$ref"
    · rw [if_pos hkey, List.mem_singleton, Json.str.injEq]
      exact ⟨fun h => ⟨hkey, h.symm⟩, fun h => h.2.symm⟩
    · rw [if_neg hkey]
      exact iff_of_false List.not_mem_nil fun h => hkey h.1
  | null | bool b | int n | float x | arr items | obj fields => exact iff_of_false List.not_mem_nil nofun

theorem mem_refsOf_arr {items : List (Json F)} {reference : String} :
    reference ∈ refsOf (.arr items) ↔ ∃ v ∈ items, reference ∈ refsOf v := by
  rw [refsOf]
  induction items with
  | nil => exact iff_of_false List.not_mem_nil nofun
  | cons v rest ih => rw [refsOfItems, List.mem_append, ih, List.exists_mem_cons_iff]

theorem mem_refsOf_obj {fields : List (String × Json F)} {reference : String} :
    reference ∈ refsOf (.obj fields) ↔ ∃ f ∈ fields, reference ∈ ownRef f.1 f.2 ∨ reference ∈ refsOf f.2 := by
  rw [refsOf]
  induction fields with
  | nil => exact iff_of_false List.not_mem_nil nofun
  | cons f rest ih => rw [refsOfFields, List.mem_append, List.mem_append, ih, List.exists_mem_cons_iff]

/-! ## In key order -/

theorem ownRef_sortKeys (key : String) (v : Json F) : ownRef key (sortKeys v) = ownRef key v := by
  cases v <;> rfl

/-- Putting keys in order keeps the references. -/
theorem refs_sortKeys {v : Json F} {reference : String} :
    reference ∈ refsOf (sortKeys v) ↔ reference ∈ refsOf v := by
  induction v using Json.induction with
  | null | bool b | int n | float x | str s => exact Iff.rfl
  | arr items ih =>
    rw [Json.sortKeys_arr, mem_refsOf_arr, mem_refsOf_arr]
    simp only [List.mem_map, exists_exists_and_eq_and]
    exact exists_congr fun v => and_congr_right fun hv => ih v hv
  | obj fields ih =>
    rw [Json.sortKeys_obj, mem_refsOf_obj, mem_refsOf_obj]
    simp only [sortedFields, List.mem_insertionSort, List.mem_map, exists_exists_and_eq_and, ownRef_sortKeys]
    exact exists_congr fun f => and_congr_right fun hf => or_congr_right (ih f hf)

/-! ## In normal forms -/

theorem refs_popField {key : String} {fields : List (String × Json F)} {reference : String}
    (h : reference ∈ refsOf (.obj (popField key fields))) : reference ∈ refsOf (.obj fields) := by
  rw [mem_refsOf_obj] at h ⊢
  obtain ⟨f, hf, hreference⟩ := h
  exact ⟨f, List.mem_of_mem_filter hf, hreference⟩

theorem refs_setField {key : String} {value : Json F} {fields : List (String × Json F)} {reference : String}
    (h : reference ∈ refsOf (.obj (Json.setField key value fields))) (hvalue : reference ∉ ownRef key value) :
    reference ∈ refsOf value ∨ reference ∈ refsOf (.obj fields) := by
  rw [mem_refsOf_obj] at h
  obtain ⟨f, hf, hreference⟩ := h
  rcases Json.mem_setField hf with rfl | hf
  · exact Or.inl (hreference.resolve_left hvalue)
  · exact Or.inr (mem_refsOf_obj.mpr ⟨f, hf, hreference⟩)

theorem refs_nullableSchema {n : List (String × Json F)} {reference : String}
    (h : reference ∈ refsOf (nullableSchema n)) : reference ∈ refsOf (.obj n) := by
  have hnull : ∀ {fields : List (String × Json F)}, reference ∈ refsOf (.obj [("type", .str (F := F) "null")]) →
      reference ∈ refsOf (.obj fields) := by
    rintro _ ⟨⟩
  unfold nullableSchema at h
  split at h
  · rcases refs_setField h (by rintro ⟨⟩) with h | h
    · rw [mem_refsOf_arr] at h
      obtain ⟨v, hv, h⟩ := h
      simp only [List.mem_cons, List.not_mem_nil, or_false] at hv
      rcases hv with rfl | rfl <;> cases h
    · exact h
  · next types hlookup =>
    rcases refs_setField h (by rintro ⟨⟩) with h | h
    · rw [mem_refsOf_arr] at h
      obtain ⟨t, ht, h⟩ := h
      rcases List.mem_append.mp (mem_fromkeys ht) with ht | ht
      · exact mem_refsOf_obj.mpr ⟨_, Json.mem_of_lookup hlookup, Or.inr (mem_refsOf_arr.mpr ⟨t, ht, h⟩)⟩
      · rw [List.mem_singleton.mp ht] at h
        cases h
    · exact h
  · rw [mem_refsOf_obj] at h
    obtain ⟨f, hf, h⟩ := h
    rw [List.mem_singleton.mp hf] at h
    rcases h with h | h
    · cases h
    · rw [mem_refsOf_arr] at h
      obtain ⟨v, hv, h⟩ := h
      simp only [List.mem_cons, List.not_mem_nil, or_false] at hv
      rcases hv with rfl | rfl
      · exact h
      · exact hnull h

section

variable [DocumentFloat F]

theorem BoundImage.refs {fields normalized ws : List (String × Json F)} {bound exclusive : String}
    (h : BoundImage fields normalized bound exclusive ws) {reference : String}
    (hreference : reference ∈ refsOf (.obj ws)) : reference ∈ refsOf (.obj normalized) := by
  cases h with
  | same flag => exact hreference
  | removed flag => exact refs_popField hreference
  | moved number flag lookup isNumber =>
    have hnumber : reference ∉ ownRef exclusive number ∧ reference ∉ refsOf number := by
      cases isNumber with
      | int n => exact ⟨nofun, nofun⟩
      | float x finite => exact ⟨nofun, nofun⟩
    exact refs_popField ((refs_setField hreference hnumber.1).resolve_left hnumber.2)

theorem refs_finish {from30 : Bool} {m : Mode} {fields ws : List (String × Json F)} {w : Json F}
    (h : finish from30 m fields ws = some w) {reference : String} (hreference : reference ∈ refsOf w) :
    reference ∈ refsOf (.obj ws) := by
  rcases finish_cases h with rfl | ⟨n₁, n₂, hmin, hmax, rfl⟩
  · exact hreference
  · refine hmin.refs (hmax.refs ?_)
    split at hreference
    · exact refs_nullableSchema hreference
    · exact hreference

/-- **No new references.** -/
theorem refs_normalize {from30 : Bool} {m : Mode} {v w : Json F} (h : normalize from30 m v = some w)
    {reference : String} (hreference : reference ∈ refsOf w) : reference ∈ refsOf v := by
  induction v using Json.induction generalizing m w with
  | null | bool b | int n | float x | str s =>
    cases h
    exact hreference
  | arr items ih =>
    rw [normalize] at h
    split at h
    · cases h
      exact refs_sortKeys.mp hreference
    · split at h
      · obtain ⟨ws, hws, rfl⟩ := Option.map_eq_some_iff.mp h
        rw [mem_refsOf_arr] at hreference ⊢
        obtain ⟨w, hw, hreference⟩ := hreference
        obtain ⟨v, hv, hnormal⟩ := forall₂_mem_right (normalizeAll_eq hws) hw
        exact ⟨v, hv, ih v hv hnormal hreference⟩
      · cases h
        exact hreference
  | obj fields ih =>
    rw [normalize] at h
    split at h
    · cases h
      exact refs_sortKeys.mp hreference
    · obtain ⟨ws, hws, h⟩ := Option.bind_eq_some_iff.mp h
      have hfields := refs_finish h hreference
      rw [mem_refsOf_obj] at hfields ⊢
      obtain ⟨f, hf, hfields⟩ := hfields
      obtain ⟨g, hg, hkey, hnormal⟩ := (normalizeEach_mem hws).2 f hf
      refine ⟨g, hg, hfields.imp (fun hown => ?_) fun hrefs => ih g hg hnormal hrefs⟩
      rw [mem_ownRef] at hown ⊢
      rw [hown.2] at hnormal
      exact ⟨hkey.trans hown.1, normalize_scalar hnormal rfl rfl⟩

end

/-! ## In accepted documents -/

theorem mem_ofPairs {pairs : List (String × Json F)} {f : String × Json F} (h : f ∈ Json.ofPairs pairs) : f ∈ pairs := by
  have hfold : ∀ pairs acc : List (String × Json F),
      f ∈ pairs.foldl (fun fields p => Json.setField p.1 p.2 fields) acc → f ∈ acc ∨ f ∈ pairs := by
    intro pairs
    induction pairs with
    | nil => exact fun acc h => Or.inl h
    | cons p rest ih =>
      intro acc h
      rcases ih _ h with h | h
      · rcases Json.mem_setField h with rfl | h
        · exact Or.inr List.mem_cons_self
        · exact Or.inl h
      · exact Or.inr (List.mem_cons_of_mem p h)
  exact (hfold pairs [] h).resolve_left List.not_mem_nil

theorem toJson_str {v : Loaded F} {s : String} (h : v.toJson = .str s) : v = .str s := by
  cases v with
  | str t => exact congrArg Loaded.str (Json.str.inj h)
  | null | bool b | int n | float x | other | again | arr items | obj fields => cases h

/-- One field of the walk. -/
theorem walkFields_cons {key : String} {v : Loaded F} {rest : List (Key × Loaded F)} {path : String} {depth : Nat}
    {refs : List (String × String)} (h : walkFields path depth ((.text key, v) :: rest) = .ok refs) :
    ∃ own below more, (key = "$ref" → ∃ s, localRef v = some s ∧ own = [(s, childPath path key)]) ∧
      walk (childPath path key) (depth + 1) v = .ok below ∧ walkFields path depth rest = .ok more ∧
      refs = own ++ below ++ more := by
  have htail : ∀ own : List (String × String),
      (do
        let below ← walk (childPath path key) (depth + 1) v
        let more ← walkFields path depth rest
        pure (own ++ below ++ more)) = Except.ok refs →
      ∃ below more, walk (childPath path key) (depth + 1) v = .ok below ∧ walkFields path depth rest = .ok more ∧
        refs = own ++ below ++ more := by
    intro own h
    obtain ⟨below, hbelow, h⟩ := bind_ok h
    obtain ⟨more, hmore, h⟩ := bind_ok h
    exact ⟨below, more, hbelow, hmore, (Except.ok.inj h).symm⟩
  rw [walkFields] at h
  by_cases hkey : key = "$ref"
  · rw [if_pos hkey] at h
    cases hlocal : localRef v with
    | none =>
      rw [hlocal] at h
      cases h
    | some s =>
      rw [hlocal] at h
      obtain ⟨below, more, hbelow, hmore, hrefs⟩ := htail _ h
      exact ⟨_, below, more, fun _ => ⟨s, rfl, rfl⟩, hbelow, hmore, hrefs⟩
  · rw [if_neg hkey] at h
    obtain ⟨below, more, hbelow, hmore, hrefs⟩ := htail _ h
    exact ⟨_, below, more, fun he => absurd he hkey, hbelow, hmore, hrefs⟩

mutual

/-- The walk finds every reference. -/
theorem refs_walked (reference : String) : ∀ (v : Loaded F) {path : String} {depth : Nat} {refs : List (String × String)},
    walk path depth v = .ok refs → reference ∈ refsOf v.toJson → ∃ p, (reference, p) ∈ refs
  | .null, _, _, _, _, h | .bool _, _, _, _, _, h | .int _, _, _, _, _, h | .float _, _, _, _, _, h
  | .str _, _, _, _, _, h | .other, _, _, _, _, h | .again, _, _, _, _, h => nomatch h
  | .arr items, path, depth, refs, hwalk, h => by
    rw [walk] at hwalk
    split at hwalk
    · cases hwalk
    · rw [Loaded.toJson, mem_refsOf_arr] at h
      obtain ⟨v, hv, h⟩ := h
      exact refs_walkedItems reference items hwalk v hv h
  | .obj fields, path, depth, refs, hwalk, h => by
    rw [walk] at hwalk
    split at hwalk
    · cases hwalk
    · rw [Loaded.toJson, mem_refsOf_obj] at h
      obtain ⟨f, hf, h⟩ := h
      exact refs_walkedFields reference fields hwalk f (mem_ofPairs hf) h

theorem refs_walkedItems (reference : String) : ∀ (items : List (Loaded F)) {path : String} {depth index : Nat}
    {refs : List (String × String)}, walkItems path depth index items = .ok refs →
    ∀ v ∈ Loaded.toItems items, reference ∈ refsOf v → ∃ p, (reference, p) ∈ refs
  | [], _, _, _, _, _, _, hv, _ => nomatch hv
  | v :: rest, path, depth, index, refs, hwalk, w, hw, h => by
    obtain ⟨own, hown, hwalk⟩ := bind_ok hwalk
    obtain ⟨more, hmore, hwalk⟩ := bind_ok hwalk
    cases hwalk
    rcases List.mem_cons.mp hw with rfl | hw
    · obtain ⟨p, hp⟩ := refs_walked reference v hown h
      exact ⟨p, List.mem_append_left _ hp⟩
    · obtain ⟨p, hp⟩ := refs_walkedItems reference rest hmore w hw h
      exact ⟨p, List.mem_append_right _ hp⟩

theorem refs_walkedFields (reference : String) : ∀ (fields : List (Key × Loaded F)) {path : String} {depth : Nat}
    {refs : List (String × String)}, walkFields path depth fields = .ok refs →
    ∀ f ∈ Loaded.toFields fields, reference ∈ ownRef f.1 f.2 ∨ reference ∈ refsOf f.2 → ∃ p, (reference, p) ∈ refs
  | [], _, _, _, _, _, hf, _ => nomatch hf
  | (.other _, _) :: _, _, _, _, hwalk, _, _, _ => nomatch hwalk
  | (.text key, v) :: rest, path, depth, refs, hwalk, f, hf, h => by
    obtain ⟨own, below, more, hown, hbelow, hmore, rfl⟩ := walkFields_cons hwalk
    rcases List.mem_cons.mp hf with rfl | hf
    · rcases h with h | h
      · obtain ⟨hkey, hstr⟩ := mem_ownRef.mp h
        obtain rfl := toJson_str hstr
        obtain ⟨s, hlocal, rfl⟩ := hown hkey
        rw [localRef] at hlocal
        split at hlocal
        · cases hlocal
          exact ⟨_, List.mem_append_left _ (List.mem_append_left _ List.mem_cons_self)⟩
        · cases hlocal
      · obtain ⟨p, hp⟩ := refs_walked reference v hbelow h
        exact ⟨p, List.mem_append_left _ (List.mem_append_right _ hp)⟩
    · obtain ⟨p, hp⟩ := refs_walkedFields reference rest hmore f hf h
      exact ⟨p, List.mem_append_right _ hp⟩

end

theorem checkRefs_ok {host : Host F} {document : Json F} {refs : List (String × String)}
    (h : checkRefs host document refs = .ok ()) {reference path : String} (hmem : (reference, path) ∈ refs) :
    ∃ v, pointer host document reference = .ok v := by
  induction refs with
  | nil => cases hmem
  | cons r rest ih =>
    rw [checkRefs] at h
    split at h
    · next v hv =>
      rcases List.mem_cons.mp hmem with rfl | hmem
      · exact ⟨v, hv⟩
      · exact ih h hmem
    · cases h
    · cases h

variable [DocumentFloat F]

/-- **Every reference of an accepted document can be followed** in it. -/
theorem refs_followed {host : Host F} {filename : String} {content : ByteArray} {document : Json F} {version : String}
    (h : ReadAs host filename content document version) {reference : String} (hmem : reference ∈ refsOf document) :
    ∃ v, pointer host document reference = .ok v := by
  obtain ⟨loaded, refs, -, rfl, hwalk, hcheck⟩ := h.refs
  obtain ⟨p, hp⟩ := refs_walked reference loaded hwalk hmem
  exact checkRefs_ok hcheck hp

end CodexMemory.OpenApi
