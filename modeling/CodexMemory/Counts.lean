import CodexMemory.Table

/-!
# Counting the rows of a table

`count` is the number of rows that satisfy a test.  The rules say what the
updates of a table do to it: `count_insert`, `count_mapRows` and `count_modify`.
-/

namespace CodexMemory.Table

variable {α : Type} (t : Table α)

def count (p : α → Bool) : Nat := t.rows.countP fun r => p r.2

theorem length_select (p : α → Bool) : (t.select p).length = t.count p := List.countP_eq_length_filter.symm

@[simp] theorem count_empty (p : α → Bool) : (empty : Table α).count p = 0 := rfl

theorem count_insert (a : α) (p : α → Bool) : (t.insert a).count p = t.count p + if p a then 1 else 0 := by
  show (t.rows ++ [(t.nextId, a)]).countP _ = _
  rw [List.countP_append, List.countP_singleton]
  rfl

/-- The rows of a rewritten table are counted where they come from. -/
theorem count_mapRows {f : Nat → α → α} {p q : α → Bool} (h : ∀ k a, t.get? k = some a → p (f k a) = q a) :
    (t.mapRows f).count p = t.count q := by
  show (t.rows.map _).countP _ = _
  rw [List.countP_map]
  refine List.countP_congr fun r hr => ?_
  rw [Function.comp_apply, h r.1 r.2 ((t.get?_eq_some_iff r.1 r.2).mpr hr)]

theorem count_congr {p q : α → Bool} (h : ∀ k a, t.get? k = some a → p a = q a) : t.count p = t.count q :=
  List.countP_congr fun r hr => by rw [h r.1 r.2 ((t.get?_eq_some_iff r.1 r.2).mpr hr)]

/-- One row is rewritten. -/
theorem count_modify {k : Nat} {a : α} (ha : t.get? k = some a) (f : α → α) (p : α → Bool) :
    (t.modify k f).count p + (p a).toNat = t.count p + (p (f a)).toNat := by
  have hmem := (t.get?_eq_some_iff k a).mp ha
  have hnodup := t.nodup
  obtain ⟨before, after, hrows⟩ := List.append_of_mem hmem
  rw [hrows, List.map_append, List.map_cons, List.nodup_middle, List.nodup_cons, ← List.map_append] at hnodup
  have hother : ∀ r ∈ before ++ after, r.1 ≠ k := by
    intro r hr heq
    exact hnodup.1 (List.mem_map.mpr ⟨r, hr, heq⟩)
  have hsame : ∀ rows : List (Nat × α), (∀ r ∈ rows, r.1 ≠ k) →
      (rows.map fun r => (r.1, if r.1 = k then f r.2 else r.2)) = rows := by
    intro rows h
    refine (List.map_congr_left fun r hr => ?_).trans (List.map_id rows)
    rw [if_neg (h r hr)]
    rfl
  show (t.rows.map fun r => (r.1, if r.1 = k then f r.2 else r.2)).countP _ + _ = t.rows.countP _ + _
  rw [hrows, List.map_append, List.map_cons, hsame before fun r hr => hother r (List.mem_append_left _ hr),
    hsame after fun r hr => hother r (List.mem_append_right _ hr), if_pos rfl]
  simp only [List.countP_append, List.countP_cons]
  cases p a <;> cases p (f a) <;> simp <;> omega

theorem count_modify_same {k : Nat} {f : α → α} {p : α → Bool} (h : ∀ a, t.get? k = some a → p (f a) = p a) :
    (t.modify k f).count p = t.count p := by
  refine t.count_mapRows fun i a ha => ?_
  split
  · next hi => exact h a (hi ▸ ha)
  · rfl

theorem count_pos {p : α → Bool} : 0 < t.count p ↔ ∃ k a, t.get? k = some a ∧ p a = true := by
  rw [count, List.countP_pos_iff]
  constructor
  · rintro ⟨r, hr, hp⟩
    exact ⟨r.1, r.2, (t.get?_eq_some_iff r.1 r.2).mpr hr, hp⟩
  · rintro ⟨k, a, ha, hp⟩
    exact ⟨(k, a), (t.get?_eq_some_iff k a).mp ha, hp⟩

theorem count_eq_zero {p : α → Bool} : t.count p = 0 ↔ ∀ k a, t.get? k = some a → p a = false := by
  rw [count, List.countP_eq_zero]
  constructor
  · intro h k a ha
    exact Bool.not_eq_true _ ▸ h (k, a) ((t.get?_eq_some_iff k a).mp ha)
  · intro h r hr
    rw [h r.1 r.2 ((t.get?_eq_some_iff r.1 r.2).mpr hr)]
    exact Bool.false_ne_true

/-- The rows with a property are those with a second one and those without. -/
theorem count_split (p q : α → Bool) : t.count p = t.count (fun a => p a && q a) + t.count fun a => p a && !q a := by
  simp only [count]
  induction t.rows with
  | nil => rfl
  | cons r rows ih =>
    simp only [List.countP_cons, ih]
    cases p r.2 <;> cases q r.2 <;> simp <;> omega

end CodexMemory.Table
